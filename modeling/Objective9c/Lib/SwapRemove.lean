import Mathlib.Data.List.Perm.Basic

/-! Removal from an unordered array by moving its last element into the gap. -/
namespace SwapRemove

open List

variable {α : Type u}

/-- `a[i] = a[n-1]; n--`. -/
def swapRemove (list : List α) (i : Nat) : List α :=
  match list.getLast? with
  | none => list
  | some last => (list.set i last).dropLast

/-- The last element moved to the front. -/
def rotated (list : List α) : List α :=
  match list.getLast? with
  | none => []
  | some last => last :: list.dropLast

theorem rotated_perm (list : List α) : (rotated list).Perm list := by
  rcases eq_nil_or_concat list with rfl | ⟨rest,z,rfl⟩
  · exact .refl _
  · simpa [rotated] using (perm_append_singleton z rest).symm

theorem swapRemove_eq (before after : List α) (a : α) :
    swapRemove (before ++ a :: after) before.length = before ++ rotated after := by
  rcases eq_nil_or_concat after with rfl | ⟨rest,z,rfl⟩
  · simp [swapRemove,rotated]
  · rw [concat_eq_append]
    have last : (before ++ a :: (rest ++ [z])).getLast? = some z := by
      rw [show before ++ a :: (rest ++ [z]) = (before ++ a :: rest) ++ [z] by simp]
      exact getLast?_concat
    have drop : (before ++ z :: (rest ++ [z])).dropLast = before ++ z :: rest := by
      rw [show before ++ z :: (rest ++ [z]) = (before ++ z :: rest) ++ [z] by simp]
      exact dropLast_concat
    rw [swapRemove,last]
    simp only [set_append_right _ _ (Nat.le_refl _),Nat.sub_self,set_cons_zero,drop]
    simp [rotated]

/-- Remove the first element with `drop`, if there is one. -/
def removeFirst (drop : α → Bool) (list : List α) : List α :=
  match list.findIdx? drop with
  | none => list
  | some i => swapRemove list i

theorem removeFirst_perm (drop : α → Bool) (list : List α) : (removeFirst drop list).Perm (list.eraseP drop) := by
  by_cases some : ∃ a ∈ list, drop a = true
  · obtain ⟨a,member,dropped⟩ := some
    obtain ⟨c,before,after,kept,hc,rfl,erased⟩ := exists_of_eraseP member dropped
    have index : (before ++ c :: after).findIdx? drop = Option.some before.length := by
      have none : before.findIdx? drop = none := by simpa using kept
      simp [findIdx?_append,none,findIdx?_cons,hc]
    rw [removeFirst,index,erased]
    simp only [swapRemove_eq]
    exact (rotated_perm after).append_left before
  · have none : list.findIdx? drop = none := by simpa using some
    rw [removeFirst,none,eraseP_of_forall_not (by simpa using some)]

/-- The scan that removes every element with `drop`: after a removal the same index is
looked at again, since it holds the moved element. -/
def removeAll (drop : α → Bool) : Nat → Nat → List α → List α
  | 0, _, list => list
  | fuel+1, i, list =>
    match list[i]? with
    | none => list
    | some a => if drop a then removeAll drop fuel i (swapRemove list i)
      else removeAll drop fuel (i+1) list

theorem removeAll_perm (drop : α → Bool) (fuel : Nat) (kept rest : List α) (enough : rest.length ≤ fuel) :
    (removeAll drop fuel kept.length (kept ++ rest)).Perm (kept ++ rest.filter (!drop ·)) := by
  induction fuel generalizing kept rest with
  | zero =>
    obtain rfl : rest = [] := length_eq_zero_iff.mp (Nat.le_zero.mp enough)
    simp [removeAll]
  | succ fuel ih =>
    cases rest with
    | nil => simp [removeAll]
    | cons a rest =>
      have enough : rest.length ≤ fuel := Nat.le_of_succ_le_succ enough
      have here : (kept ++ a :: rest)[kept.length]? = some a := by simp
      rw [removeAll,here]
      by_cases dropped : drop a = true
      · simp only [dropped,↓reduceIte,swapRemove_eq]
        have moved := rotated_perm rest
        refine (ih kept (rotated rest) (moved.length_eq ▸ enough)).trans ?_
        simpa [dropped] using (moved.filter _).append_left kept
      · have next := ih (kept ++ [a]) rest enough
        simpa [dropped] using next

end SwapRemove
