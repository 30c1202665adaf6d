import Mathlib.Data.Finset.Card
import Objective9c.Lib.Paths

/-! Monitors: a lock, a shared state and one place to sleep at. A call tests its condition under the lock and
sleeps until it holds; sleeping gives the lock back, and a woken process has to take the lock again and to test
again, in competition with new callers. A step is a whole section from taking the lock to giving it back, as
nobody else sees what is in between. -/
namespace Monitor

open Transition List

variable {ι : Type u} {ο : Type v} {σ : Type w}

/-- What a call does once it has the lock: nothing if it has to sleep, else the new shared state and whether it
wakes a sleeper. -/
structure Program (ο : Type v) (σ : Type w) where
  body : ο → σ → Option (σ × Bool)

/-- A process in a call waits for the lock, sleeps, or was woken and waits for the lock. -/
structure State (ι : Type u) (ο : Type v) (σ : Type w) where
  shared : σ
  asks : ι → Option ο := fun _ => none
  calling : Finset ι := ∅
  sleeping : Finset ι := ∅
  woken : Finset ι := ∅
  returned : List (ι × ο) := []

inductive Label (ι : Type u) (ο : Type v) where
  | idle
  | call (process : ι) (op : ο)
  | enter (process : ι) (pick : ι)

variable [DecidableEq ι]

def State.ready (s : State ι ο σ) : Finset ι := s.calling ∪ s.woken

@[simp] def State.leave (s : State ι ο σ) (p : ι) : State ι ο σ :=
  { s with calling := s.calling.erase p, woken := s.woken.erase p }

@[simp] def State.sleeps (s : State ι ο σ) (p : ι) : State ι ο σ :=
  { s.leave p with sleeping := insert p s.sleeping }

@[simp] def State.returns (s : State ι ο σ) (p : ι) (op : ο) (shared : σ) : State ι ο σ :=
  { s.leave p with shared, asks := Function.update s.asks p none, returned := s.returned ++ [(p,op)] }

@[simp] def State.wakes (s : State ι ο σ) (pick : ι) : State ι ο σ :=
  { s with sleeping := s.sleeping.erase pick, woken := insert pick s.woken }

def wake (pick : ι) (s : State ι ο σ) : Option (State ι ο σ) :=
  if s.sleeping = ∅ then some s else if pick ∈ s.sleeping then some (s.wakes pick) else none

def step (P : Program ο σ) : Label ι ο → State ι ο σ → Option (State ι ο σ)
  | .idle, s => some s
  | .call p op, s => match s.asks p with
    | some _ => none
    | none => some { s with asks := Function.update s.asks p (some op), calling := insert p s.calling }
  | .enter p pick, s =>
    if p ∈ s.ready then (s.asks p).bind fun op => match P.body op s.shared with
      | none => some (s.sleeps p)
      | some (shared,wakes) => if wakes then wake pick (s.returns p op shared) else some (s.returns p op shared)
    else none

section Steps

variable {P : Program ο σ} {s next : State ι ο σ} {a : Label ι ο}

/-- What a step does. -/
inductive Moved (P : Program ο σ) (s : State ι ο σ) : Label ι ο → State ι ο σ → Prop where
  | idle : Moved P s .idle s
  | call (outside : s.asks p = none) :
      Moved P s (.call p op) { s with asks := Function.update s.asks p (some op), calling := insert p s.calling }
  | sleeps (ready : p ∈ s.ready) (asks : s.asks p = some op) (waits : P.body op s.shared = none) :
      Moved P s (.enter p pick) (s.sleeps p)
  | returns (ready : p ∈ s.ready) (asks : s.asks p = some op) (done : P.body op s.shared = some (shared,wakes))
      (alone : wakes = true → s.sleeping = ∅) : Moved P s (.enter p pick) (s.returns p op shared)
  | wakes (ready : p ∈ s.ready) (asks : s.asks p = some op) (done : P.body op s.shared = some (shared,true))
      (picked : pick ∈ s.sleeping) : Moved P s (.enter p pick) ((s.returns p op shared).wakes pick)

theorem moved (stepped : step P a s = some next) : Moved P s a next := by
  cases a with
  | idle =>
    cases stepped
    exact .idle
  | call p =>
    cases outside : s.asks p with
    | some => simp [step,outside] at stepped
    | none =>
      obtain rfl : _ = next := by simpa [step,outside] using stepped
      exact .call outside
  | enter p =>
    by_cases ready : p ∈ s.ready
    · simp only [step,if_pos ready,Option.bind_eq_some_iff] at stepped
      obtain ⟨op,asks,stepped⟩ := stepped
      cases done : P.body op s.shared with
      | none =>
        obtain rfl : _ = next := by simpa [done] using stepped
        exact .sleeps ready asks done
      | some result =>
        obtain ⟨shared,wakes⟩ := result
        cases wakes with
        | false =>
          obtain rfl : _ = next := by simpa [done] using stepped
          exact .returns ready asks done (by simp)
        | true =>
          simp only [done,if_true] at stepped
          unfold wake at stepped
          split at stepped
          · next empty =>
            cases stepped
            exact .returns ready asks done fun _ => empty
          · split at stepped
            · next picked =>
              cases stepped
              exact .wakes ready asks done picked
            · cases stepped
    · simp [step,ready] at stepped

/-- A process is in one place at a time, and in none outside of a call. -/
structure Placed (s : State ι ο σ) : Prop where
  outside : s.asks p = none ↔ p ∉ s.calling ∧ p ∉ s.sleeping ∧ p ∉ s.woken
  calling : p ∈ s.calling → p ∉ s.sleeping ∧ p ∉ s.woken
  sleeping : p ∈ s.sleeping → p ∉ s.woken

omit [DecidableEq ι] in
theorem Placed.start (shared : σ) : Placed ({ shared } : State ι ο σ) := ⟨by simp,by simp,by simp⟩

section

variable (placed : Placed s)

include placed

theorem Placed.ready (ready : p ∈ s.ready) : p ∉ s.sleeping := by
  rcases Finset.mem_union.mp ready with calling | woken
  · exact (placed.calling calling).1
  · exact fun sleeping => placed.sleeping sleeping woken

theorem Placed.sleeps (asks : s.asks p = some op) : Placed (s.sleeps p) := by
  obtain ⟨outside,calling,sleeping⟩ := placed
  refine ⟨fun {q} => ?_,fun {q} => ?_,fun {q} => ?_⟩ <;> by_cases same : q = p
  · simp [same,asks]
  · simp [same,outside]
  · simp [same]
  · simpa [same] using calling
  · simp [same]
  · simpa [same] using sleeping

theorem Placed.returns (ready : p ∈ s.ready) : Placed (s.returns p op shared) := by
  have awake := placed.ready ready
  obtain ⟨outside,calling,sleeping⟩ := placed
  refine ⟨fun {q} => ?_,fun {q} => ?_,fun {q} => ?_⟩ <;> by_cases same : q = p
  · simp [same,awake]
  · simp [same,outside]
  · simp [same]
  · simpa [same] using calling
  · simp [same]
  · simpa [same] using sleeping

theorem Placed.wakes (picked : pick ∈ s.sleeping) : Placed (s.wakes pick) := by
  have inside := mt placed.outside.mp (fun out => out.2.1 picked)
  obtain ⟨outside,calling,sleeping⟩ := placed
  refine ⟨fun {q} => ?_,fun {q} => ?_,fun {q} => ?_⟩ <;> by_cases same : q = pick
  · simpa [same] using inside
  · simp [same,outside]
  · intro called
    exact absurd picked (calling (same ▸ called)).1
  · simpa [same] using calling
  · simp [same]
  · simpa [same] using sleeping

theorem Placed.kept (stepped : step P a s = some next) : Placed next := by
  cases moved stepped with
  | idle => exact placed
  | @call p op free =>
    have absent := placed.outside.mp free
    obtain ⟨outside,calling,sleeping⟩ := placed
    refine ⟨fun {q} => ?_,fun {q} => ?_,sleeping⟩ <;> by_cases same : q = p
    · simp [same]
    · simp [same,outside]
    · simp [same,absent]
    · simpa [same] using calling
  | sleeps ready asks => exact placed.sleeps asks
  | returns ready => exact placed.returns ready
  | wakes ready asks done picked => exact (placed.returns ready).wakes picked

end

theorem Placed.along {path : Path (step (ι := ι) P)} (placed : Placed (path.state 0)) (t : Nat) :
    Placed (path.state t) := by
  induction t with
  | zero => exact placed
  | succ t ih => exact ih.kept (path.next t)

theorem ready_of_enter (stepped : step P (.enter p pick) s = some next) : p ∈ s.ready := by
  by_contra unready
  simp [step,unready] at stepped

/-- Who sleeps or was woken is in a call of that kind. -/
def Drowsy (Q : ο → Prop) (s : State ι ο σ) : Prop :=
  ∀ p, p ∈ s.sleeping ∨ p ∈ s.woken → ∃ op, s.asks p = some op ∧ Q op

theorem Drowsy.kept (can : ∀ op shared, P.body op shared = none → Q op) (placed : Placed s)
    (drowsy : Drowsy Q s) (stepped : step P a s = some next) : Drowsy Q next := by
  have returns (p : ι) (op : ο) (shared : σ) (ready : p ∈ s.ready) : Drowsy Q (s.returns p op shared) := by
    intro q place
    have other : q ≠ p := by
      rintro rfl
      simp [placed.ready ready] at place
    simpa [other] using drowsy q (by simpa [other] using place)
  cases moved stepped with
  | idle => exact drowsy
  | @call p op free =>
    intro q place
    obtain ⟨op',asks,kind⟩ := drowsy q place
    have other : q ≠ p := by
      rintro rfl
      simp [free] at asks
    exact ⟨op',by simpa [other] using asks,kind⟩
  | @sleeps p op pick ready asks waits =>
    intro q place
    by_cases same : q = p
    · exact ⟨op,by simpa [same] using asks,can op s.shared waits⟩
    · exact drowsy q (by simpa [same] using place)
  | returns ready => exact returns _ _ _ ready
  | @wakes p op shared pick ready asks done picked =>
    intro q place
    refine returns p op shared ready q ?_
    by_cases same : q = pick
    · exact .inl (same ▸ picked)
    · simpa [same] using place

theorem asks_kept (asks : s.asks p = some op) (other : ∀ pick, a ≠ .enter p pick)
    (stepped : step P a s = some next) : next.asks p = some op := by
  cases moved stepped with
  | idle => exact asks
  | @call q op' free =>
    have different : p ≠ q := by
      rintro rfl
      simp [free] at asks
    simpa [different] using asks
  | sleeps => exact asks
  | @returns q =>
    have different : p ≠ q := by
      rintro rfl
      exact other _ rfl
    simpa [different] using asks
  | @wakes q =>
    have different : p ≠ q := by
      rintro rfl
      exact other _ rfl
    simpa [different] using asks

theorem asks_first {path : Path (step (ι := ι) P)} (le : t ≤ later) (enters : path.label later = .enter p pick) :
    (path.state t).asks p = some op →
      ∃ first pick, t ≤ first ∧ path.label first = .enter p pick ∧ (path.state first).asks p = some op := by
  induction le using Nat.decreasingInduction with
  | self => exact fun asks => ⟨later,pick,Nat.le_refl later,enters,asks⟩
  | of_succ n lt ih =>
    intro asks
    by_cases here : ∃ pick, path.label n = .enter p pick
    · obtain ⟨pick,here⟩ := here
      exact ⟨n,pick,Nat.le_refl n,here,asks⟩
    · obtain ⟨first,pick,le,now,still⟩ := ih (asks_kept asks (not_exists.mp here) (path.next n))
      exact ⟨first,pick,Nat.le_of_succ_le le,now,still⟩

end Steps

section Draining

variable {P : Program ο σ} {s next : State ι ο σ} {a : Label ι ο}

/-- A process that can take the lock gets it in the end. -/
def Fair (path : Path (step (ι := ι) P)) : Prop :=
  ∀ t, ∀ p ∈ (path.state t).ready, ∃ later, t ≤ later ∧ ∃ pick, path.label later = .enter p pick

/-- Every process that can take the lock would return and change nothing. -/
def Draining (P : Program ο σ) (s : State ι ο σ) : Prop :=
  ∀ p ∈ s.ready, ∃ op, s.asks p = some op ∧ P.body op s.shared = some (s.shared,false)

theorem ready_returns (s : State ι ο σ) (p : ι) (op : ο) (shared : σ) :
    (s.returns p op shared).ready = s.ready.erase p := (Finset.erase_union_distrib ..).symm

theorem Draining.step (draining : Draining P s) (ready : p ∈ s.ready) (pick : ι) :
    ∃ op, step P (.enter p pick) s = some (s.returns p op s.shared) ∧ Draining P (s.returns p op s.shared) := by
  obtain ⟨op,asks,done⟩ := draining p ready
  refine ⟨op,by simp [Monitor.step,ready,asks,done],fun q member => ?_⟩
  rw [ready_returns] at member
  obtain ⟨other,ready'⟩ := Finset.mem_erase.mp member
  simpa [other] using draining q ready'

theorem Draining.kept (draining : Draining P s) (label : a = .idle ∨ ∃ p, a = .enter p p)
    (stepped : Monitor.step P a s = some next) : Draining P next ∧ next.shared = s.shared := by
  obtain rfl | ⟨p,rfl⟩ := label
  · cases stepped
    exact ⟨draining,rfl⟩
  · by_cases ready : p ∈ s.ready
    · obtain ⟨op,stepped',draining'⟩ := draining.step ready p
      cases stepped'.symm.trans stepped
      exact ⟨draining',rfl⟩
    · simp [Monitor.step,ready] at stepped

theorem Draining.run (draining : Draining P s) : ∃ labels knot, run (Monitor.step P) labels s = some knot ∧
    knot.ready = ∅ ∧ ∀ a ∈ labels, ∃ p, a = .enter p p := by
  generalize size : s.ready.card = n
  induction n generalizing s with
  | zero => exact ⟨[],s,rfl,Finset.card_eq_zero.mp size,by simp⟩
  | succ n ih =>
    obtain ⟨p,ready⟩ := Finset.card_pos.mp (by omega : 0 < s.ready.card)
    obtain ⟨op,stepped,draining'⟩ := draining.step ready p
    obtain ⟨labels,knot,ran,empty,enters⟩ := ih draining' (by
      rw [ready_returns,Finset.card_erase_of_mem ready,size]
      rfl)
    refine ⟨.enter p p :: labels,knot,run_cons_some.mpr ⟨_,stepped,ran⟩,empty,?_⟩
    rintro b (_ | ⟨_,member⟩)
    · exact ⟨p,rfl⟩
    · exact enters b member

theorem entered (ready : p ∈ s.ready) (ran : run (step P) labels s = some final) (gone : p ∉ final.ready) :
    ∃ pick, .enter p pick ∈ labels := by
  induction labels generalizing s with
  | nil =>
    cases ran
    exact absurd ready gone
  | cons a labels ih =>
    obtain ⟨next,stepped,ran⟩ := run_cons_some.mp ran
    by_cases still : p ∈ next.ready
    · obtain ⟨pick,member⟩ := ih still ran
      exact ⟨pick,mem_cons_of_mem a member⟩
    · have other {q : ι} (member : p ∉ s.ready.erase q) : p = q := by
        by_contra different
        exact member (Finset.mem_erase.mpr ⟨different,ready⟩)
      cases moved stepped with
      | idle => exact absurd ready still
      | call =>
        simp only [State.ready,Finset.insert_union,Finset.mem_insert,not_or] at still
        exact absurd ready still.2
      | @sleeps q op pick =>
        have same : (s.sleeps q).ready = s.ready.erase q := (Finset.erase_union_distrib ..).symm
        exact ⟨pick,other (same ▸ still) ▸ mem_cons_self⟩
      | @returns q op shared wakes pick =>
        exact ⟨pick,other (ready_returns s q op shared ▸ still) ▸ mem_cons_self⟩
      | @wakes q op shared pick =>
        have grown : (s.returns q op shared).ready ⊆ ((s.returns q op shared).wakes pick).ready :=
          Finset.union_subset_union_right (Finset.subset_insert _ _)
        have gone := fun member => still (grown member)
        exact ⟨pick,other (ready_returns s q op shared ▸ gone) ▸ mem_cons_self⟩

/-- Where all can return, there is a fair run in which they do and nothing else happens. -/
theorem Draining.exists_path (draining : Draining P s) : ∃ path : Path (Monitor.step P),
    path.state 0 = s ∧ Fair path ∧ ∀ t, Draining P (path.state t) ∧ (path.state t).shared = s.shared := by
  obtain ⟨pre,knot,first,empty,enters⟩ := draining.run
  have loop : Transition.run (Monitor.step P) [.idle] knot = some knot := rfl
  have moves : 0 < [(.idle : Label ι ο)].length := by simp
  have start := lasso_start pre _ first loop moves
  refine ⟨lasso pre [.idle] first loop moves,start,?_,fun t => ?_⟩
  · intro t p ready
    have here := lasso_state pre _ first loop moves t
    rcases Nat.lt_or_ge t pre.length with early | late
    · rw [show spot pre.length [(.idle : Label ι ο)].length t = t from if_pos early,
        take_append_of_le_length (Nat.le_of_lt early)] at here
      have rest : Transition.run (Monitor.step P) (pre.drop t) ((lasso pre _ first loop moves).state t) =
          some knot := by
        rw [← take_append_drop t pre,run_append,here] at first
        exact first
      obtain ⟨pick,member⟩ := entered ready rest (by simp [empty])
      obtain ⟨i,within,found⟩ := getElem_of_mem member
      have inside : t + i < pre.length := by simpa [Nat.add_comm,Nat.lt_sub_iff_add_lt] using within
      refine ⟨t + i,Nat.le_add_right t i,pick,?_⟩
      rw [lasso_early pre _ first loop moves inside,← found,getElem_drop]
    · have last : spot pre.length [(.idle : Label ι ο)].length t = pre.length := by
        simp [spot,Nat.not_lt.mpr late,Nat.mod_one]
      rw [last,take_left,first] at here
      rw [← Option.some.inj here,empty] at ready
      exact absurd ready (Finset.notMem_empty p)
  · have labels (t : Nat) : (lasso pre _ first loop moves).label t = .idle ∨
        ∃ p, (lasso pre _ first loop moves).label t = .enter p p := by
      rcases Nat.lt_or_ge t pre.length with early | late
      · rw [lasso_early pre _ first loop moves early]
        exact .inr (enters _ (getElem_mem early))
      · exact .inl (mem_singleton.mp (lasso_late pre _ first loop moves late))
    induction t with
    | zero =>
      rw [start]
      exact ⟨draining,rfl⟩
    | succ t ih =>
      obtain ⟨draining',same⟩ := ih.1.kept (labels t) ((lasso pre _ first loop moves).next t)
      exact ⟨draining',same.trans ih.2⟩

end Draining

end Monitor
