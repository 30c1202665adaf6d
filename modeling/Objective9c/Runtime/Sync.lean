import Objective9c.Lib.Monitor

/-! Semaphores and wait groups over a `QLock` and a `Rendez`. `rsleep` gives the lock back while it sleeps, and
`rwakeup` wakes one sleeper if there is any, which takes the lock again before it goes on. The counters are C
ints and wrap. -/
namespace Objective9c.Sync

open Transition Monitor Option Finset

/-- The value that a C int keeps. -/
def int32 (x : Int) : Int := x.bmod (2 ^ 32)

theorem int32_ge (x : Int) : -2 ^ 31 ≤ int32 x := Int.le_bmod (by decide)

theorem int32_le (low : -2 ^ 31 ≤ x) : int32 x ≤ x := by
  dsimp only [int32,Int.bmod]
  split <;> omega

variable {ι : Type u} [DecidableEq ι]

section Semaphore

inductive SemOp where
  | acquire | release
deriving DecidableEq

def semAcquire (n : Int) : Option (Int × Bool) := if n ≤ 0 then none else some (n - 1,false)

def semRelease (n : Int) : Option (Int × Bool) := some (int32 (n + 1),true)

def semaphore : Program SemOp Int where
  body
    | .acquire => semAcquire
    | .release => semRelease

def semNew (count : Int) : State ι SemOp Int where
  shared := int32 (if count > 0 then count else 0)

/-- How many calls of that kind have returned. -/
def made (op : SemOp) (s : State ι SemOp Int) : Nat := s.returned.countP fun r => r.2 = op

/-- What is left of the permits is not more than was given and not taken, and as long as somebody sleeps there
are at most as many permits as processes woken. -/
structure Balanced (count : Int) (s : State ι SemOp Int) : Prop where
  placed : Placed s
  drowsy : Drowsy (· = .acquire) s
  low : -2 ^ 31 ≤ s.shared
  permits : s.shared + made .acquire s ≤ max count 0 + made .release s
  acquired : (made .acquire s : Int) ≤ max count 0 + made .release s
  woken : s.sleeping.Nonempty → s.shared ≤ s.woken.card

variable {count : Int} {s next : State ι SemOp Int} {a : Label ι SemOp}

omit [DecidableEq ι] in
theorem balanced_new (count : Int) : Balanced count (semNew count : State ι SemOp Int) where
  placed := .start _
  drowsy := by simp [Drowsy,semNew]
  low := int32_ge _
  permits := by
    have start : int32 (if count > 0 then count else 0) ≤ max count 0 := by
      refine (int32_le (by split <;> omega)).trans ?_
      split <;> omega
    simpa [made,semNew] using start
  acquired := by simp [made,semNew]
  woken := by simp [semNew]

theorem made_returns (s : State ι SemOp Int) (p : ι) (op kind : SemOp) (shared : Int) :
    made kind (s.returns p op shared) = made kind s + if op = kind then 1 else 0 := by
  simp [made,List.countP_append]

theorem semaphore_done (done : semaphore.body op n = some (n',wakes)) :
    op = .acquire ∧ 0 < n ∧ n' = n - 1 ∧ wakes = false ∨ op = .release ∧ n' = int32 (n + 1) ∧ wakes = true := by
  cases op with
  | acquire =>
    by_cases out : n ≤ 0
    · simp [semaphore,semAcquire,out] at done
    · left
      simp only [semaphore,semAcquire,if_neg out,some.injEq,Prod.mk.injEq] at done
      exact ⟨rfl,by omega,done.1.symm,done.2.symm⟩
  | release =>
    right
    simp only [semaphore,semRelease,some.injEq,Prod.mk.injEq] at done
    exact ⟨rfl,done.1.symm,done.2.symm⟩

theorem semaphore_waits (waits : semaphore.body op n = none) : op = .acquire ∧ n ≤ 0 := by
  cases op with
  | acquire => simpa [semaphore,semAcquire] using waits
  | release => cases waits

/-- A call that returns takes a permit that was there or gives one; a wrapped count only loses permits. -/
theorem Balanced.counted (balanced : Balanced count s) (done : semaphore.body op s.shared = some (shared,wakes))
    (p : ι) : -2 ^ 31 ≤ shared ∧
      shared + made .acquire (s.returns p op shared) ≤ max count 0 + made .release (s.returns p op shared) ∧
      (made .acquire (s.returns p op shared) : Int) ≤ max count 0 + made .release (s.returns p op shared) := by
  have low := balanced.low
  have permits := balanced.permits
  have acquired := balanced.acquired
  obtain ⟨rfl,positive,rfl,-⟩ | ⟨rfl,rfl,-⟩ := semaphore_done done
  · simp only [made_returns,if_true,reduceCtorEq,if_false]
    omega
  · have less := int32_le (x := s.shared + 1) (by omega)
    have least := int32_ge (s.shared + 1)
    simp only [made_returns,if_true,reduceCtorEq,if_false]
    omega

theorem Balanced.kept (balanced : Balanced count s) (stepped : step semaphore a s = some next) :
    Balanced count next := by
  have placed := balanced.placed.kept stepped
  have drowsy : Drowsy (· = .acquire) next :=
    balanced.drowsy.kept (fun _ _ waits => (semaphore_waits waits).1) balanced.placed stepped
  cases moved stepped with
  | idle => exact balanced
  | call => exact { balanced with placed, drowsy }
  | @sleeps p op pick ready asks waits =>
    refine { balanced with placed, drowsy, woken := fun _ => ?_ }
    exact (semaphore_waits waits).2.trans (Int.natCast_nonneg _)
  | @returns p op shared wakes pick ready asks done alone =>
    obtain ⟨low,permits,acquired⟩ := balanced.counted done p
    refine ⟨placed,drowsy,low,permits,acquired,fun asleep => ?_⟩
    obtain ⟨-,-,rfl,-⟩ | ⟨-,-,rfl⟩ := semaphore_done done
    · -- a newcomer may have got the permit of a woken process, which is then still there
      have enough := balanced.woken asleep
      have left := pred_card_le_card_erase (s := s.woken) (a := p)
      simp only [State.returns,State.leave]
      omega
    · exact absurd (alone rfl) asleep.ne_empty
  | @wakes p op shared pick ready asks done picked =>
    obtain ⟨low,permits,acquired⟩ := balanced.counted done p
    refine ⟨placed,drowsy,low,permits,acquired,fun _ => ?_⟩
    obtain ⟨-,-,-,wrong⟩ | ⟨rfl,rfl,-⟩ := semaphore_done done
    · cases wrong
    · have enough := balanced.woken ⟨pick,picked⟩
      have less := int32_le (x := s.shared + 1) (by have := balanced.low; omega)
      have caller : p ∉ s.woken := by
        intro member
        obtain ⟨op,asks',rfl⟩ := balanced.drowsy p (.inr member)
        simp [asks] at asks'
      have one : (insert pick (s.woken.erase p)).card = s.woken.card + 1 := by
        rw [erase_eq_of_notMem caller,card_insert_of_notMem (balanced.placed.sleeping picked)]
      simp only [State.returns,State.leave,State.wakes,one]
      omega

/-- However the calls are interleaved, no more of them acquire than there were permits at first, none if the count is
negative, and permits given back; and no permit is left alone with a sleeper. -/
theorem semaphore_conserves (count : Int) (labels : List (Label ι SemOp)) (final : State ι SemOp Int)
    (ran : run (step semaphore) labels (semNew count) = some final) :
    (made .acquire final : Int) ≤ max count 0 + made .release final ∧
      ¬(0 < final.shared ∧ (∃ p ∈ final.sleeping, final.asks p = some .acquire) ∧ final.woken = ∅) := by
  have balanced : Balanced count final :=
    run_invariant (Balanced count) (fun _ _ _ balanced stepped => balanced.kept stepped) labels _ final
      (balanced_new count) ran
  refine ⟨balanced.acquired,?_⟩
  rintro ⟨positive,⟨p,asleep,-⟩,none⟩
  have enough := balanced.woken ⟨p,asleep⟩
  rw [none,card_empty] at enough
  omega

/-- A newcomer takes the permit of a woken process, which sleeps again. -/
def stolen : List (Label Nat SemOp) :=
  [.call 1 .acquire,.enter 1 0,.call 2 .release,.enter 2 1,.call 3 .acquire,.enter 3 0,.enter 1 0]

theorem stolen_conserves : ∃ final, run (step semaphore) stolen (semNew 0) = some final ∧ final.sleeping = {1} ∧
    (made .acquire final : Int) ≤ max 0 0 + made .release final := by
  refine ⟨_,rfl,by decide,?_⟩
  exact (semaphore_conserves 0 stolen _ rfl).1

end Semaphore

section WaitGroup

inductive WgOp where
  | add (delta : Int)
  | wait
deriving DecidableEq

def wgAdd (delta n : Int) : Option (Int × Bool) := some (int32 (n + delta),int32 (n + delta) ≤ 0)

def WgOp.done : WgOp := .add (-1)

def wgWait (n : Int) : Option (Int × Bool) := if n > 0 then none else some (n,false)

def waitGroup : Program WgOp Int where
  body
    | .add delta => wgAdd delta
    | .wait => wgWait

def wgNew : State ι WgOp Int where
  shared := 0

/-- No add gets the lock. -/
def Quiet (path : Path (step (ι := ι) waitGroup)) : Prop :=
  ∀ t p pick, path.label t = .enter p pick → (path.state t).asks p = some .wait

def Returns (path : Path (step (ι := ι) waitGroup)) (p : ι) : Prop :=
  ∃ t pick, path.label t = .enter p pick ∧ (path.state (t + 1)).asks p = none

/-- If the counter is not positive and no add is made from here on, whoever waits returns, as long as the lock
is fair. -/
def NoLostWakeup (s : State ι WgOp Int) : Prop :=
  s.shared ≤ 0 → ∀ path : Path (step waitGroup), path.state 0 = s → Fair path → Quiet path →
    ∀ p, s.asks p = some .wait → Returns path p

/-- The last add under way that leaves the counter not positive finds at most one process asleep. -/
def WakesAll (a : Label ι WgOp) (s : State ι WgOp Int) : Prop :=
  ∀ p pick delta, a = .enter p pick → s.asks p = some (.add delta) → int32 (s.shared + delta) ≤ 0 →
    (∀ q ∈ s.calling, q ≠ p → s.asks q = some .wait) → s.sleeping.card ≤ 1

/-- Nobody sleeps when the counter is not positive and no add is under way. -/
def Settled (s : State ι WgOp Int) : Prop :=
  s.shared ≤ 0 → (∀ q ∈ s.calling, s.asks q = some .wait) → s.sleeping = ∅

structure Waiting (s : State ι WgOp Int) : Prop where
  placed : Placed s
  drowsy : Drowsy (· = .wait) s

variable {s next : State ι WgOp Int} {a : Label ι WgOp}

theorem waitGroup_waits (waits : waitGroup.body op n = none) : op = .wait ∧ 0 < n := by
  cases op with
  | add => cases waits
  | wait => simpa [waitGroup,wgWait] using waits

theorem waitGroup_done (done : waitGroup.body op n = some (n',wakes)) :
    op = .wait ∧ n ≤ 0 ∧ n' = n ∧ wakes = false ∨
      ∃ delta, op = .add delta ∧ n' = int32 (n + delta) ∧ wakes = decide (n' ≤ 0) := by
  cases op with
  | add delta =>
    right
    simp only [waitGroup,wgAdd,some.injEq,Prod.mk.injEq] at done
    exact ⟨delta,rfl,done.1.symm,by rw [← done.2,done.1]⟩
  | wait =>
    left
    by_cases positive : n > 0
    · simp [waitGroup,wgWait,positive] at done
    · simp only [waitGroup,wgWait,if_neg positive,some.injEq,Prod.mk.injEq] at done
      exact ⟨rfl,by omega,done.1.symm,done.2.symm⟩

omit [DecidableEq ι] in
theorem waiting_new : Waiting (wgNew : State ι WgOp Int) := ⟨.start _,by simp [Drowsy,wgNew]⟩

theorem Waiting.kept (waiting : Waiting s) (stepped : step waitGroup a s = some next) : Waiting next :=
  ⟨waiting.placed.kept stepped,
    waiting.drowsy.kept (fun _ _ waits => (waitGroup_waits waits).1) waiting.placed stepped⟩

/-- Without adds the counter stays, and at zero so do the sleepers. -/
theorem quiet_step (low : s.shared ≤ 0) (quiet : ∀ p pick, a = .enter p pick → s.asks p = some .wait)
    (stepped : step waitGroup a s = some next) : next.shared = s.shared ∧ next.sleeping = s.sleeping := by
  cases moved stepped with
  | idle | call => exact ⟨rfl,rfl⟩
  | sleeps ready asks waits =>
    have := (waitGroup_waits waits).2
    omega
  | returns ready asks done =>
    obtain ⟨-,-,rfl,-⟩ | ⟨delta,rfl,-⟩ := waitGroup_done done
    · exact ⟨rfl,rfl⟩
    · cases asks.symm.trans (quiet _ _ rfl)
  | wakes ready asks done =>
    obtain ⟨-,-,-,wrong⟩ | ⟨delta,rfl,-⟩ := waitGroup_done done
    · cases wrong
    · cases asks.symm.trans (quiet _ _ rfl)

theorem quiet_path {path : Path (step (ι := ι) waitGroup)} (quiet : Quiet path) (low : (path.state 0).shared ≤ 0)
    (t : Nat) : (path.state t).shared = (path.state 0).shared ∧
      (path.state t).sleeping = (path.state 0).sleeping := by
  induction t with
  | zero => exact ⟨rfl,rfl⟩
  | succ t ih =>
    obtain ⟨shared,sleeping⟩ := quiet_step (ih.1 ▸ low) (quiet t) (path.next t)
    exact ⟨shared.trans ih.1,sleeping.trans ih.2⟩

/-- With nobody asleep, whoever waits has only to get the lock. -/
theorem Settled.noLostWakeup (waiting : Waiting s) (settled : Settled s) : NoLostWakeup s := by
  rintro low path rfl fair quiet p waits
  have calm : ∀ q ∈ (path.state 0).calling, (path.state 0).asks q = some .wait := by
    intro q calling
    obtain ⟨op,asks⟩ := ne_none_iff_exists'.mp
      (mt waiting.placed.outside.mp fun outside => outside.1 calling)
    obtain ⟨later,le,pick,enters⟩ := fair 0 q (mem_union_left _ calling)
    obtain ⟨first,pick,-,now,still⟩ := asks_first le enters asks
    rw [asks,← still,quiet first q pick now]
  have nobody := settled low calm
  have ready : p ∈ (path.state 0).ready := by
    by_contra unready
    simp only [State.ready,mem_union,not_or] at unready
    have outside := waiting.placed.outside.mpr ⟨unready.1,by simp [nobody],unready.2⟩
    simp [waits] at outside
  obtain ⟨later,-,pick,enters⟩ := fair 0 p ready
  refine ⟨later,pick,enters,?_⟩
  have moves := moved (path.next later)
  rw [enters] at moves
  generalize path.state (later + 1) = after at moves
  cases moves with
  | sleeps ready asks waits =>
    have positive := (waitGroup_waits waits).2
    have same := (quiet_path quiet low later).1
    omega
  | returns => simp
  | wakes => simp

theorem NoLostWakeup.settled (waiting : Waiting s) (none : NoLostWakeup s) : Settled s := by
  intro low calm
  by_contra asleep
  obtain ⟨p,asleep⟩ := nonempty_iff_ne_empty.mpr asleep
  have ready : ∀ q ∈ s.ready, s.asks q = some .wait := by
    intro q member
    rcases mem_union.mp member with calling | woken
    · exact calm q calling
    · obtain ⟨op,asks,rfl⟩ := waiting.drowsy q (.inr woken)
      exact asks
  have draining : Draining waitGroup s := by
    intro q member
    exact ⟨.wait,ready q member,by simp [waitGroup,wgWait,Int.not_lt.mpr low]⟩
  obtain ⟨path,rfl,fair,drains⟩ := draining.exists_path
  have quiet : Quiet path := by
    intro t q pick enters
    obtain ⟨drain,same⟩ := drains t
    obtain ⟨op,asks,done⟩ := drain q (ready_of_enter (enters ▸ path.next t))
    obtain ⟨rfl,-⟩ | ⟨delta,-,-,wakes⟩ := waitGroup_done done
    · exact asks
    · simp [same,low] at wakes
  have waits : (path.state 0).asks p = some .wait := by
    obtain ⟨op,asks,rfl⟩ := waiting.drowsy p (.inl asleep)
    exact asks
  obtain ⟨t,pick,enters,-⟩ := none low path rfl fair quiet p waits
  have awake := (waiting.placed.along t).ready (ready_of_enter (enters ▸ path.next t))
  rw [(quiet_path quiet low t).2] at awake
  exact awake asleep

theorem Settled.kept (waiting : Waiting s) (settled : Settled s) (wakes : WakesAll a s)
    (stepped : step waitGroup a s = some next) : Settled next := by
  -- the other callers are not touched by a call that returns
  have others (p : ι) (op : WgOp) (n : Int) (calm : ∀ q ∈ (s.returns p op n).calling,
      (s.returns p op n).asks q = some .wait) (q : ι) (member : q ∈ s.calling) (other : q ≠ p) :
      s.asks q = some .wait := by
    have kept := calm q (mem_erase.mpr ⟨other,member⟩)
    simpa [other] using kept
  cases moved stepped with
  | idle => exact settled
  | @call p op free =>
    refine fun low calm => settled low fun q member => ?_
    have other : q ≠ p := by
      rintro rfl
      exact (waiting.placed.outside.mp free).1 member
    simpa [other] using calm q (mem_insert_of_mem member)
  | sleeps ready asks waits =>
    intro low
    exact absurd low (Int.not_le.mpr (waitGroup_waits waits).2)
  | @returns p op n wakes pick ready asks done alone =>
    intro low calm
    obtain ⟨rfl,-,rfl,-⟩ | ⟨delta,rfl,rfl,rfl⟩ := waitGroup_done done
    · refine settled low fun q member => ?_
      by_cases same : q = p
      · rw [same,asks]
      · exact others _ _ _ calm q member same
    · exact alone (by simpa using low)
  | @wakes p op n pick ready asks done picked =>
    intro low calm
    obtain ⟨-,-,-,wrong⟩ | ⟨delta,rfl,rfl,-⟩ := waitGroup_done done
    · cases wrong
    · have few := wakes p pick delta rfl asks low (others p (.add delta) (int32 (s.shared + delta)) calm)
      refine card_eq_zero.mp ?_
      change (s.sleeping.erase pick).card = 0
      rw [card_erase_of_mem picked]
      omega

theorem unsettled_of_not_wakesAll (unmet : ¬WakesAll a s) (stepped : step waitGroup a s = some next) :
    ¬Settled next := by
  simp only [WakesAll,not_forall] at unmet
  obtain ⟨p,pick,delta,rfl,asks,low,calm,many⟩ := unmet
  have several : 1 < s.sleeping.card := by omega
  intro settled
  cases moved stepped with
  | sleeps ready asks' waits =>
    obtain ⟨rfl,-⟩ := waitGroup_waits waits
    simp [asks] at asks'
  | returns ready asks' done alone =>
    cases asks.symm.trans asks'
    obtain ⟨wrong,-⟩ | ⟨delta',same,rfl,rfl⟩ := waitGroup_done done
    · cases wrong
    · obtain rfl := WgOp.add.inj same
      rw [alone (by simpa using low)] at several
      simp at several
  | wakes ready asks' done picked =>
    cases asks.symm.trans asks'
    obtain ⟨wrong,-⟩ | ⟨delta',same,rfl,-⟩ := waitGroup_done done
    · cases wrong
    · obtain rfl := WgOp.add.inj same
      have empty : s.sleeping.erase pick = ∅ := by
        refine settled low fun q member => ?_
        obtain ⟨other,member⟩ := mem_erase.mp member
        simpa [other] using calm q member other
      have left := card_erase_of_mem picked
      rw [empty,card_empty] at left
      omega

/-- A run in which every state lets its waiters return is one in which each add that is the last under way and
leaves the counter not positive finds at most one process asleep. -/
theorem waiters_return_iff (labels : List (Label ι WgOp)) (final : State ι WgOp Int)
    (ran : run (step waitGroup) labels wgNew = some final) :
    Throughout (step waitGroup) NoLostWakeup labels wgNew ↔ Meets (step waitGroup) WakesAll labels wgNew := by
  have start := waiting_new (ι := ι)
  refine @throughout_iff_meets _ _ (step waitGroup) WakesAll NoLostWakeup (fun s => Waiting s ∧ Settled s) Waiting
    (fun _ _ _ waiting stepped => waiting.kept stepped) ?_
    (fun s strong => strong.2.noLostWakeup strong.1) ?_ labels wgNew final start ⟨start,fun _ _ => rfl⟩ ran
  · rintro a s next waiting ⟨-,settled⟩ wakes stepped
    exact ⟨waiting.kept stepped,settled.kept waiting wakes stepped⟩
  · intro a s next waiting _ unmet stepped none
    exact unsettled_of_not_wakesAll unmet stepped (none.settled (waiting.kept stepped))

def oneWaiter : List (Label Nat WgOp) :=
  [.call 0 (.add 1),.enter 0 0,.call 1 .wait,.enter 1 0,.call 0 .done,.enter 0 1,.enter 1 0]

theorem oneWaiter_returns : ∃ final, run (step waitGroup) oneWaiter wgNew = some final ∧
    Throughout (step waitGroup) NoLostWakeup oneWaiter wgNew := by
  have few (a : Label Nat WgOp) (s : State Nat WgOp Int) (checked : decide (s.sleeping.card ≤ 1) = true) :
      WakesAll a s := fun _ _ _ _ _ _ _ => of_decide_eq_true checked
  refine ⟨_,rfl,(waiters_return_iff oneWaiter _ rfl).mpr ?_⟩
  exact meets_of_checks few _ _ (by decide)

def twoWaiters : List (Label Nat WgOp) :=
  [.call 0 (.add 1),.enter 0 0,.call 1 .wait,.enter 1 0,.call 2 .wait,.enter 2 0,.call 0 .done,.enter 0 1,.enter 1 0]

/-- The one wakeup goes to the first waiter, which returns without passing it on. -/
theorem second_waiter_stays : ¬∀ (labels : List (Label Nat WgOp)) (final : State Nat WgOp Int),
    run (step waitGroup) labels wgNew = some final → NoLostWakeup final := by
  intro all
  obtain ⟨final,ran,low,nobody,asleep⟩ : ∃ final, run (step waitGroup) twoWaiters wgNew = some final ∧
      final.shared ≤ 0 ∧ final.calling = ∅ ∧ final.sleeping = {2} := ⟨_,rfl,by decide,by decide,by decide⟩
  have waiting : Waiting final :=
    run_invariant Waiting (fun _ _ _ waiting stepped => waiting.kept stepped) twoWaiters _ final waiting_new ran
  have settled := (all twoWaiters final ran).settled waiting
  have empty := settled low (by simp [nobody])
  simp [asleep] at empty

end WaitGroup

end Objective9c.Sync
