import Mathlib.Data.List.Basic

/-! The number of entries of a table that pass a test, as an integer, and what it becomes when
one entry changes. -/
namespace Tally

open List

def one (b : Bool) : Int := if b then 1 else 0

@[simp] theorem one_true : one true = 1 := rfl

@[simp] theorem one_false : one false = 0 := rfl

theorem one_nonneg : 0 ≤ one b := by cases b <;> decide

def count (p : α → Bool) (l : List α) : Int := l.countP p

variable {p : α → Bool} {l : List α}

theorem count_cons (a : α) (l : List α) : count p (a :: l) = one (p a) + count p l := by
  unfold count one
  rw [countP_cons]
  split <;> omega

theorem count_nonneg (p : α → Bool) (l : List α) : 0 ≤ count p l := Int.natCast_nonneg _

theorem count_concat (p : α → Bool) (l : List α) (a : α) : count p (l ++ [a]) = count p l + one (p a) := by
  unfold count one
  rw [countP_append,countP_singleton]
  split <;> omega

theorem count_set (found : l[i]? = some a) (b : α) : count p (l.set i b) = count p l - one (p a) + one (p b) := by
  induction l generalizing i with
  | nil => simp at found
  | cons c rest ih =>
    cases i with
    | zero =>
      simp only [getElem?_cons_zero,Option.some.injEq] at found
      rw [set_cons_zero,count_cons,count_cons,found]
      omega
    | succ =>
      rw [set_cons_succ,count_cons,count_cons,ih found]
      omega

theorem modify_eq_set (found : l[i]? = some a) (change : α → α) : l.modify i change = l.set i (change a) := by
  rw [modify_eq_set_getElem?,found]
  rfl

theorem count_modify (found : l[i]? = some a) (change : α → α) :
    count p (l.modify i change) = count p l - one (p a) + one (p (change a)) := by
  rw [modify_eq_set found,count_set found]

theorem count_modify_same (i : Nat) (change : α → α) (same : ∀ a, p (change a) = p a) :
    count p (l.modify i change) = count p l := by
  cases found : l[i]? with
  | none => rw [modify_eq_self (getElem?_eq_none_iff.mp found)]
  | some =>
    rw [count_modify found,same]
    omega

theorem count_pos (member : a ∈ l) (passes : p a = true) : 0 < count p l := by
  have some' : 0 < l.countP p := countP_pos_iff.mpr ⟨a,member,passes⟩
  unfold count
  omega

theorem count_zero_iff : count p l = 0 ↔ ∀ a ∈ l, p a = false := by
  unfold count
  simp

end Tally
