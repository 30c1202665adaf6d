import Mathlib.Order.Filter.AtTopBot.Basic
import Objective9c.Lib.Transition

/-! Infinite runs of a labelled partial step function, and what has to happen in them: a rank that a helpful
step lowers and no step raises reaches its goal. -/
namespace Transition
open Filter List Option

variable {σ : Type u} {α : Type v}

structure Path (step : α → σ → Option σ) where
  label : Nat → α
  state : Nat → σ
  next : ∀ t, step (label t) (state t) = some (state (t + 1))

theorem always_of_step {P : Nat → Prop} (kept : ∀ t, since ≤ t → P t → P (t + 1)) (late : since ≤ t)
    (here : P t) : ∀ later, t ≤ later → P later := by
  intro later le
  induction later, le using Nat.le_induction with
  | base => exact here
  | succ n le ih => exact kept n (Nat.le_trans late le) ih

theorem eventually_of_step {P : Nat → Prop} (kept : ∀ t, since ≤ t → P t → P (t + 1)) (late : since ≤ t)
    (here : P t) : ∀ᶠ later in atTop, P later :=
  eventually_atTop.mpr ⟨t,fun later le => always_of_step kept late here later le⟩

/-- A view that only helpful steps change is unchanged when the next helpful step is taken. -/
theorem Path.unchanged_until (path : Path step) (view : σ → β) (helpful : Nat → Prop)
    (frame : ∀ t, ¬helpful t → view (path.state (t + 1)) = view (path.state t))
    (le : t ≤ later) (helps : helpful later) :
    ∃ first, t ≤ first ∧ helpful first ∧ view (path.state first) = view (path.state t) := by
  induction le using Nat.decreasingInduction with
  | self => exact ⟨later,Nat.le_refl later,helps,rfl⟩
  | of_succ n lt ih =>
    by_cases here : helpful n
    · exact ⟨n,Nat.le_refl n,here,rfl⟩
    · obtain ⟨first,le,helps,same⟩ := ih
      exact ⟨first,Nat.le_of_succ_le le,helps,same.trans (frame n here)⟩

/-- A rank that helpful steps lower and no step raises, until the goal is reached. -/
theorem reaches_of_rank [Preorder ρ] [WellFoundedLT ρ] (rank : Nat → ρ) (goal helpful : Nat → Prop)
    (since : Nat) (others : ∀ t, since ≤ t → ¬goal t → goal (t + 1) ∨ rank (t + 1) ≤ rank t)
    (helps : ∀ t, since ≤ t → ¬goal t → helpful t → goal (t + 1) ∨ rank (t + 1) < rank t)
    (often : ∀ t, ∃ later, t ≤ later ∧ helpful later) : ∃ t, since ≤ t ∧ goal t := by
  by_contra never
  have not : ∀ t, since ≤ t → ¬goal t := fun t late here => never ⟨t,late,here⟩
  have falls : ∀ t later, since ≤ t → t ≤ later → rank later ≤ rank t := by
    intro t later late le
    refine always_of_step (P := fun now => rank now ≤ rank t) ?_ late (le_refl _) later le
    intro now late' below
    exact ((others now late' (not now late')).resolve_left (not _ (Nat.le_succ_of_le late'))).trans below
  have none : ∀ r t, since ≤ t → rank t = r → False := by
    intro r
    induction r using WellFoundedLT.induction with
    | ind r ih =>
      rintro t late rfl
      obtain ⟨later,le,help⟩ := often t
      have late' := Nat.le_trans late le
      have lower := (helps later late' (not later late') help).resolve_left (not _ (Nat.le_succ_of_le late'))
      exact ih _ (lower.trans_le (falls t later late le)) (later + 1) (Nat.le_succ_of_le late') rfl
  exact none _ since (Nat.le_refl since) rfl

section Lasso

/-- The place in a word that begins with `n` letters and then repeats `m` letters. -/
def spot (n m t : Nat) : Nat := if t < n then t else n + (t - n) % m

theorem spot_lt (positive : 0 < m) : spot n m t < n + m := by
  unfold spot
  have := Nat.mod_lt (t - n) positive
  split <;> omega

theorem spot_succ (positive : 0 < m) :
    spot n m (t + 1) = spot n m t + 1 ∨ spot n m t + 1 = n + m ∧ spot n m (t + 1) = n := by
  unfold spot
  by_cases early : t + 1 < n
  · left
    rw [if_pos early,if_pos (by omega)]
  · rw [if_neg early]
    by_cases last : t < n
    · left
      rw [if_pos last,show t + 1 - n = 0 by omega,Nat.zero_mod]
      omega
    · rw [if_neg last,show t + 1 - n = (t - n) + 1 by omega,Nat.add_mod_eq_ite]
      have bound := Nat.mod_lt (t - n) positive
      by_cases one : m = 1
      · subst one
        right
        simp [Nat.mod_one]
      · rw [Nat.mod_eq_of_lt (show 1 < m by omega)]
        split
        · right
          constructor <;> omega
        · left
          omega

theorem run_take_succ (step : α → σ → Option σ) {labels : List α} (within : i < labels.length)
    (s : σ) : run step (labels.take (i + 1)) s = (run step (labels.take i) s).bind (step labels[i]) := by
  rw [take_succ_eq_append_getElem within,run_append]
  congr 1
  funext now
  cases stepped : step labels[i] now <;> simp [run,stepped]

theorem run_take_isSome (i : Nat)
    (ran : run step labels s = some final) : (run step (labels.take i) s).isSome = true := by
  rw [← take_append_drop i labels,run_append] at ran
  cases early : run step (labels.take i) s with
  | none =>
    rw [early] at ran
    contradiction
  | some => rfl

theorem checks_at (checked : checks step check labels s = true) (within : i < labels.length)
    (ran : run step (labels.take i) s = some now) : check labels[i] now = true := by
  induction labels generalizing s i with
  | nil => contradiction
  | cons a rest ih =>
    obtain ⟨here,later⟩ := Bool.and_eq_true_iff.mp checked
    cases i with
    | zero =>
      cases ran
      exact here
    | succ =>
      obtain ⟨next,stepped,ran⟩ := run_cons_some.mp ran
      rw [stepped] at later
      exact ih later (Nat.lt_of_succ_lt_succ within) ran

variable {step : α → σ → Option σ} (pre cycle : List α) {start knot : σ}
  (first : run step pre start = some knot) (loop : run step cycle knot = some knot)
  (moves : 0 < cycle.length)
include first loop

theorem lasso_whole : run step (pre ++ cycle) start = some knot := by
  rw [run_append,first]
  exact loop

include moves

theorem run_spot_succ (t : Nat) : run step ((pre ++ cycle).take (spot pre.length cycle.length (t + 1))) start =
      run step ((pre ++ cycle).take (spot pre.length cycle.length t + 1)) start := by
  rcases spot_succ moves with succ | ⟨last,back⟩
  · rw [succ]
  · rw [last,back,← length_append,take_length,lasso_whole pre cycle first loop,take_left,first]

/-- The labels of `pre`, and then those of `cycle` over and over. -/
def lasso : Path step where
  label t := (pre ++ cycle).get ⟨spot pre.length cycle.length t,
    Nat.lt_of_lt_of_eq (spot_lt moves) length_append.symm⟩
  state t := (run step ((pre ++ cycle).take (spot pre.length cycle.length t)) start).get
    (run_take_isSome _ (lasso_whole pre cycle first loop))
  next t := by
    have within : spot pre.length cycle.length t < (pre ++ cycle).length :=
      Nat.lt_of_lt_of_eq (spot_lt moves) length_append.symm
    have after := run_take_succ step within start
    rw [← run_spot_succ pre cycle first loop moves] at after
    obtain ⟨now,ran⟩ := isSome_iff_exists.mp
      (run_take_isSome (spot pre.length cycle.length t) (lasso_whole pre cycle first loop))
    rw [some_get,after]
    simp only [ran,get_some,bind_some,List.get_eq_getElem]

theorem lasso_state (t : Nat) : run step ((pre ++ cycle).take (spot pre.length cycle.length t)) start =
      some ((lasso pre cycle first loop moves).state t) := (some_get _).symm

theorem lasso_start : (lasso pre cycle first loop moves).state 0 = start := by
  have here := lasso_state pre cycle first loop moves 0
  have zero : spot pre.length cycle.length 0 = 0 := by
    unfold spot
    split
    · rfl
    · rw [Nat.zero_sub,Nat.zero_mod]
      omega
  rw [zero] at here
  exact (Option.some.inj here).symm

theorem lasso_checks (check : α → σ → Bool) (checked : checks step check (pre ++ cycle) start = true) (t : Nat) :
    check ((lasso pre cycle first loop moves).label t) ((lasso pre cycle first loop moves).state t) = true :=
  checks_at checked _ (lasso_state pre cycle first loop moves t)

theorem lasso_early (early : t < pre.length) : (lasso pre cycle first loop moves).label t = pre[t] := by
  have here : spot pre.length cycle.length t = t := if_pos early
  simp [lasso,here,early]

theorem lasso_late (late : pre.length ≤ t) : (lasso pre cycle first loop moves).label t ∈ cycle := by
  have here : spot pre.length cycle.length t = pre.length + (t - pre.length) % cycle.length :=
    if_neg (Nat.not_lt.mpr late)
  simp [lasso,here]

theorem lasso_often (within : i < cycle.length) (t : Nat) :
    ∃ later, t ≤ later ∧ (lasso pre cycle first loop moves).label later = cycle[i] ∧
      run step (cycle.take i) knot = some ((lasso pre cycle first loop moves).state later) := by
  have here : spot pre.length cycle.length (pre.length + (i + cycle.length * t)) = pre.length + i := by
    rw [spot,if_neg (by omega),Nat.add_sub_cancel_left,Nat.add_mul_mod_self_left,Nat.mod_eq_of_lt within]
  have far : t ≤ cycle.length * t := Nat.le_mul_of_pos_left t moves
  refine ⟨pre.length + (i + cycle.length * t),by omega,?_,?_⟩
  · simp [lasso,here]
  · rw [← lasso_state pre cycle first loop moves,here,take_length_add_append,run_append,first]
    rfl

end Lasso

end Transition
