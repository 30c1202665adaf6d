import Mathlib.Data.List.Perm.Subperm

/-! Reachability in directed graphs given as relations: acyclicity, the effect of
redirecting the edges of one vertex, a depth-first search that only remembers the
vertices on its current path, and the chase along the only edge of each vertex. -/
namespace Reach

open Relation List

variable {α : Type u}

def Acyclic (edge : α → α → Prop) : Prop := ∀ a, ¬TransGen edge a a

theorem Acyclic.mono (acyclic : Acyclic old) (sub : ∀ a b, edge a b → old a b) : Acyclic edge :=
  fun a cycle => acyclic a (TransGen.mono sub a a cycle)

/-- Up to the first arrival at `t`, a path only uses edges that do not leave `t`. -/
theorem reach_of_first_arrival (off : ∀ a b, a ≠ t → edge a b → old a b) (path : ReflTransGen edge a t) :
    ReflTransGen old a t := by
  induction path using ReflTransGen.head_induction_on with
  | refl => exact .refl
  | @head a c first _ ih =>
    by_cases same : a = t
    · subst same; exact .refl
    · exact .head (off a c same first) ih

theorem path_splits_at (off : ∀ a b, a ≠ t → edge a b → old a b) (path : TransGen edge a b) :
    TransGen old a b ∨ (ReflTransGen edge a t ∧ TransGen edge t b) := by
  induction path with
  | @single b last =>
    by_cases same : a = t
    · subst same; exact .inr ⟨.refl,.single last⟩
    · exact .inl (.single (off a b same last))
  | @tail b c before last ih =>
    by_cases same : b = t
    · subst same; exact .inr ⟨before.to_reflTransGen,.single last⟩
    · rcases ih with old | ⟨arrive,leave⟩
      · exact .inl (.tail old (off b c same last))
      · exact .inr ⟨arrive,.tail leave last⟩

/-- Changing only the edges that leave `t` keeps a graph acyclic when every edge now
leaving `t` was there before or leads to a vertex that does not reach `t`. -/
theorem Acyclic.redirect (t : α) (acyclic : Acyclic old) (off : ∀ a b, a ≠ t → edge a b → old a b)
    (leaving : ∀ b, edge t b → old t b ∨ ¬ReflTransGen edge b t) : Acyclic edge := by
  have atT : ¬TransGen edge t t := by
    intro cycle
    obtain ⟨b,first,back⟩ := TransGen.head'_iff.mp cycle
    rcases leaving b first with kept | apart
    · exact acyclic t (TransGen.head' kept (reach_of_first_arrival off back))
    · exact apart back
  intro a cycle
  rcases path_splits_at off cycle with oldCycle | ⟨arrive,leave⟩
  · exact acyclic a oldCycle
  · exact atT (leave.trans_left arrive)

/-- A path from `a` to `b` none of whose vertices is in `seen`. -/
inductive Avoids (edge : α → α → Prop) (seen : List α) : α → α → Prop where
  | refl : b ∉ seen → Avoids edge seen b b
  | step : a ∉ seen → edge a c → Avoids edge seen c b → Avoids edge seen a b

theorem Avoids.start_not_seen (path : Avoids edge seen a b) : a ∉ seen := by
  cases path with
  | refl fresh => exact fresh
  | step fresh => exact fresh

theorem avoids_nil_of_reach (path : ReflTransGen edge a b) : Avoids edge [] a b := by
  induction path using ReflTransGen.head_induction_on with
  | refl => exact .refl not_mem_nil
  | head first _ ih => exact .step not_mem_nil first ih

theorem Avoids.after_last (x : α) (path : Avoids edge seen a b) :
    Avoids edge (x :: seen) a b ∨ x = b ∨ ∃ c, edge x c ∧ Avoids edge (x :: seen) c b := by
  induction path with
  | refl fresh =>
    rename_i b
    by_cases same : x = b
    · exact .inr (.inl same)
    · exact .inl (.refl (by simp [Ne.symm same,fresh]))
  | @step a c b fresh first rest ih =>
    rcases ih with avoiding | later
    · by_cases same : x = a
      · subst same; exact .inr (.inr ⟨c,first,avoiding⟩)
      · exact .inl (.step (by simp [Ne.symm same,fresh]) first avoiding)
    · exact .inr later

variable [DecidableEq α]

/-- Depth-first search for `goal`. `seen` is the current path, not the set of visited
vertices, and a path that uses up its `room` answers `true`. -/
def search (next : α → List α) (goal : α) : Nat → α → List α → Bool
  | 0, _, _ => true
  | room+1, a, seen =>
    if a = goal then true
    else if a ∈ seen then false
    else (next a).any fun b => search next goal room b (a :: seen)

/-- A negative answer is right: forgetting other branches never hides a path. -/
theorem search_false {next : α → List α} (room : Nat) (a : α) (seen : List α)
    (answer : search next goal room a seen = false) : ¬Avoids (fun x y => y ∈ next x) seen a goal := by
  induction room generalizing a seen with
  | zero => simp [search] at answer
  | succ room ih =>
    intro path
    have fresh := path.start_not_seen
    by_cases here : a = goal
    · simp [search,here] at answer
    · simp only [search,here,fresh,↓reduceIte,any_eq_false] at answer
      rcases path.after_last a with avoiding | arrived | ⟨b,first,rest⟩
      · exact avoiding.start_not_seen mem_cons_self
      · exact here arrived
      · exact ih b (a :: seen) (by simpa using answer b first) rest

theorem search_false_not_reach {next : α → List α} (room : Nat) (answer : search next goal room a [] = false) :
    ¬ReflTransGen (fun x y => y ∈ next x) a goal :=
  fun path => search_false room a [] answer (avoids_nil_of_reach path)

/-- Follow the only edge of each vertex, at most `hops` times. -/
def chase (next : α → Option α) (goal : α) : Nat → α → Bool
  | 0, _ => false
  | hops+1, a =>
    match next a with
    | none => false
    | some b => if b = goal then true else chase next goal hops b

variable {next : α → Option α}

theorem chase_reach (hops : Nat) (a : α)
    (answer : chase next goal hops a = true) : TransGen (fun x y => next x = some y) a goal := by
  induction hops generalizing a with
  | zero => contradiction
  | succ hops ih =>
    unfold chase at answer
    split at answer
    · contradiction
    next b edge =>
      split at answer
      next here => exact here ▸ .single edge
      · exact .head edge (ih b answer)

theorem chase_mono (hops : Nat) (a : α) (more : hops ≤ hops')
    (answer : chase next goal hops a = true) : chase next goal hops' a = true := by
  induction hops generalizing a hops' with
  | zero => contradiction
  | succ hops ih =>
    cases hops' with
    | zero => contradiction
    | succ =>
      unfold chase at answer ⊢
      split at answer
      · contradiction
      next b edge =>
        split at answer
        next here => simp [here]
        next away =>
          rw [if_neg away]
          exact ih b (Nat.le_of_succ_le_succ more) answer

theorem path_trace (acyclic : Acyclic fun x y => next x = some y)
    (path : TransGen (fun x y => next x = some y) a goal) :
    ∃ trace : List α, trace.Nodup ∧ chase next goal trace.length a = true ∧
      ∀ x ∈ trace, ReflTransGen (fun x y => next x = some y) a x ∧ next x ≠ none := by
  induction path using TransGen.head_induction_on with
  | @single a edge => exact ⟨[a],by simp,by simp [chase,edge],by simp [edge,ReflTransGen.refl]⟩
  | @head a c edge rest ih =>
    obtain ⟨trace,distinct,answer,visited⟩ := ih
    refine ⟨a :: trace,nodup_cons.mpr ⟨?_,distinct⟩,?_,?_⟩
    · intro again
      exact acyclic a (.head' edge (visited a again).1)
    · by_cases here : c = goal <;> simp [chase,edge,here,answer]
    · intro x member
      rcases mem_cons.mp member with rfl | later
      · exact ⟨.refl,by simp [edge]⟩
      · exact ⟨.head edge (visited x later).1,(visited x later).2⟩

/-- With no cycle, as many hops as there are vertices with an edge find every path. -/
theorem chase_of_reach (acyclic : Acyclic fun x y => next x = some y)
    (keys : List α) (covers : ∀ x, next x ≠ none → x ∈ keys) (path : TransGen (fun x y => next x = some y) a goal) :
    chase next goal keys.length a = true := by
  obtain ⟨trace,distinct,answer,visited⟩ := path_trace acyclic path
  apply chase_mono trace.length a _ answer
  exact (subperm_of_subset distinct fun x member => covers x (visited x member).2).length_le

end Reach
