import Mathlib.Data.Int.Lemmas

/-! Finite runs of a labelled partial step function. A label carries every choice
the scheduler or the environment makes, so a step is a function of its label; `none`
means the label is not enabled in that state. -/
namespace Transition

open List

variable {σ : Type u} {α : Type v}

def run (step : α → σ → Option σ) : List α → σ → Option σ
  | [], s => some s
  | a :: rest, s => (step a s).bind (run step rest)

/-- The guard `ok` holds of each label in the state it is taken from. -/
def Meets (step : α → σ → Option σ) (ok : α → σ → Prop) : List α → σ → Prop
  | [], _ => True
  | a :: rest, s => ok a s ∧ ∀ next, step a s = some next → Meets step ok rest next

@[simp] theorem run_nil (step : α → σ → Option σ) (s : σ) : run step [] s = some s := rfl

theorem run_cons_some : run step (a :: rest) s = some final ↔
      ∃ next, step a s = some next ∧ run step rest next = some final := by
  simp [run,Option.bind_eq_some_iff]

theorem run_append (first second : List α) (s : σ) :
    run step (first ++ second) s = (run step first s).bind (run step second) := by
  induction first generalizing s with
  | nil => rfl
  | cons a rest ih =>
    simp only [cons_append,run]
    cases step a s with
    | none => rfl
    | some next => exact ih next

theorem meets_of_labels (labels : List α) (s : σ) (all : ∀ a ∈ labels, ∀ s, ok a s) : Meets step ok labels s := by
  induction labels generalizing s with
  | nil => trivial
  | cons a rest ih =>
    exact ⟨all a (mem_cons_self ..) s,fun next _ =>
      ih next fun b member => all b (mem_cons_of_mem a member)⟩

theorem meets_append (meets : Meets step ok (first ++ second) s) (ran : run step first s = some middle) :
    Meets step ok first s ∧ Meets step ok second middle := by
  induction first generalizing s with
  | nil =>
    cases ran
    exact ⟨trivial,meets⟩
  | cons a rest ih =>
    obtain ⟨next,stepped,ran⟩ := run_cons_some.mp ran
    obtain ⟨here,later⟩ := ih (meets.2 next stepped) ran
    refine ⟨⟨meets.1,?_⟩,later⟩
    intro next' stepped'
    cases stepped.symm.trans stepped'
    exact here

theorem meets_concat (meets : Meets step ok labels s) (ran : run step labels s = some last) (met : ok a last) :
    Meets step ok (labels ++ [a]) s := by
  induction labels generalizing s with
  | nil =>
    cases ran
    exact ⟨met,fun _ _ => trivial⟩
  | cons b rest ih =>
    obtain ⟨next,stepped,ran⟩ := run_cons_some.mp ran
    refine ⟨meets.1,fun next' stepped' => ?_⟩
    cases stepped.symm.trans stepped'
    exact ih (meets.2 next stepped) ran

/-- Runs `check`, a computable form of the guard, along the labels. -/
def checks (step : α → σ → Option σ) (check : α → σ → Bool) : List α → σ → Bool
  | [], _ => true
  | a :: rest, s => check a s && (step a s).all (checks step check rest)

theorem meets_of_checks (sound : ∀ a s, check a s = true → ok a s) (labels : List α) (s : σ)
    (checked : checks step check labels s = true) : Meets step ok labels s := by
  induction labels generalizing s with
  | nil => trivial
  | cons a rest ih =>
    simp only [checks,Bool.and_eq_true] at checked
    refine ⟨sound a s checked.1,fun next stepped => ih next ?_⟩
    simpa [stepped] using checked.2

theorem run_invariant_of_meets (inv : σ → Prop)
    (preserved : ∀ a s next, inv s → ok a s → step a s = some next → inv next)
    (labels : List α) (s final : σ) (meets : Meets step ok labels s) (initial : inv s)
    (ran : run step labels s = some final) : inv final := by
  induction labels generalizing s with
  | nil => cases ran; exact initial
  | cons a rest ih =>
    obtain ⟨next,stepped,ran⟩ := run_cons_some.mp ran
    exact ih next (meets.2 next stepped) (preserved a s next initial meets.1 stepped) ran

theorem run_invariant (inv : σ → Prop) (preserved : ∀ a s next, inv s → step a s = some next → inv next)
    (labels : List α) (s final : σ) (initial : inv s) (ran : run step labels s = some final) : inv final := by
  induction labels generalizing s with
  | nil => cases ran; exact initial
  | cons a rest ih =>
    obtain ⟨next,stepped,ran⟩ := run_cons_some.mp ran
    exact ih next (preserved a s next initial stepped) ran

theorem run_invariant_past (inv : List α → σ → Prop)
    (preserved : ∀ past a s next, run step past start = some s → inv past s → ok a s →
      step a s = some next → inv (past ++ [a]) next)
    (labels : List α) (final : σ) (meets : Meets step ok labels start) (initial : inv [] start)
    (ran : run step labels start = some final) : inv labels final := by
  have general (rest past : List α) (s : σ) (reached : run step past start = some s) (held : inv past s)
      (meets : Meets step ok rest s) (ran : run step rest s = some final) : inv (past ++ rest) final := by
    induction rest generalizing past s with
    | nil =>
      cases ran
      simpa using held
    | cons a rest ih =>
      obtain ⟨next,stepped,ran⟩ := run_cons_some.mp ran
      have reached' : run step (past ++ [a]) start = some next := by
        rw [run_append,reached]
        simpa [run] using stepped
      simpa using ih (past ++ [a]) next reached' (preserved past a s next reached held meets.1 stepped)
        (meets.2 next stepped) ran
  exact general labels [] start rfl initial meets ran

/-- The guard is just what keeps a run from breaking, if a step that meets it keeps `good`,
one that does not breaks, and nothing repairs what is broken. -/
theorem meets_iff_not_broken {good broken : σ → Prop}
    (kept : ∀ a s next, good s → ok a s → step a s = some next → good next)
    (breaks : ∀ a s next, good s → ¬ok a s → step a s = some next → broken next)
    (stays : ∀ a s next, broken s → step a s = some next → broken next)
    (apart : ∀ s, good s → ¬broken s) (labels : List α) (s final : σ) (initial : good s)
    (ran : run step labels s = some final) : Meets step ok labels s ↔ ¬broken final := by
  constructor
  · intro meets
    exact apart final (run_invariant_of_meets good kept labels s final meets initial ran)
  · intro whole
    induction labels generalizing s with
    | nil => trivial
    | cons a rest ih =>
      obtain ⟨next,stepped,ran⟩ := run_cons_some.mp ran
      by_cases met : ok a s
      · refine ⟨met,fun next' stepped' => ?_⟩
        cases stepped.symm.trans stepped'
        exact ih next (kept a s next initial met stepped) ran
      · have damaged := breaks a s next initial met stepped
        exact absurd (run_invariant broken stays rest next final damaged ran) whole

/-- Every state that the labels lead through is `good`. -/
def Throughout (step : α → σ → Option σ) (good : σ → Prop) : List α → σ → Prop
  | [], s => good s
  | a :: rest, s => good s ∧ ∀ next, step a s = some next → Throughout step good rest next

/-- The guard is just what keeps every state of a run `good`, if a step that does not meet it
leads to one that is not. `strong` is what carries the run as long as the guard is met. -/
theorem throughout_iff_meets {strong inv : σ → Prop} (always : ∀ a s next, inv s → step a s = some next → inv next)
    (kept : ∀ a s next, inv s → strong s → ok a s → step a s = some next → strong next)
    (enough : ∀ s, strong s → good s)
    (breaks : ∀ a s next, inv s → good s → ¬ok a s → step a s = some next → ¬good next)
    (labels : List α) (s final : σ) (holds : inv s) (initial : strong s) (ran : run step labels s = some final) :
    Throughout step good labels s ↔ Meets step ok labels s := by
  have head (labels : List α) (s : σ) (through : Throughout step good labels s) : good s := by
    cases labels with
    | nil => exact through
    | cons => exact through.1
  constructor
  · clear initial
    intro through
    induction labels generalizing s with
    | nil => trivial
    | cons a rest ih =>
      obtain ⟨next,stepped,ran⟩ := run_cons_some.mp ran
      have later := through.2 next stepped
      refine ⟨?_,fun next' stepped' => ?_⟩
      · refine Classical.byContradiction fun unmet => ?_
        exact breaks a s next holds through.1 unmet stepped (head rest next later)
      · cases stepped.symm.trans stepped'
        exact ih next (always a s next holds stepped) ran later
  · intro meets
    clear ran
    induction labels generalizing s with
    | nil => exact enough s initial
    | cons a rest ih =>
      refine ⟨enough s initial,fun next stepped => ?_⟩
      exact ih next (always a s next holds stepped) (kept a s next holds initial meets.1 stepped)
        (meets.2 next stepped)

/-- A run that cannot fail, with an invariant that also speaks of what the run has consumed. -/
theorem foldl_invariant (inv : List α → σ → Prop)
    (kept : ∀ done s a, inv done s → inv (done ++ [a]) (step s a)) (before later : List α) (s : σ)
    (initial : inv before s) : inv (before ++ later) (later.foldl step s) := by
  induction later generalizing before s with
  | nil => simpa using initial
  | cons a rest ih => simpa using ih (before ++ [a]) (step s a) (kept before s a initial)

end Transition
