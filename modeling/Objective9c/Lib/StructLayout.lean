import Mathlib.Data.List.Basic

/-! Where the members of a structure lie: one after the other, each at the next place that its alignment
allows. -/
namespace StructLayout

open List

def alignUp (n a : Nat) : Nat := n + (a - n % a) % a

theorem le_alignUp (n a : Nat) : n ≤ alignUp n a := Nat.le_add_right ..

theorem alignUp_of_dvd (aligned : a ∣ n) : alignUp n a = n := by
  simp [alignUp,Nat.mod_eq_zero_of_dvd aligned]

theorem dvd_alignUp (positive : 0 < a) (n : Nat) : a ∣ alignUp n a := by
  unfold alignUp
  by_cases whole : n % a = 0
  · simpa [whole] using Nat.dvd_of_mod_eq_zero whole
  · have rest := Nat.mod_lt n positive
    rw [Nat.mod_eq_of_lt (by omega : a - n % a < a)]
    have split := Nat.div_add_mod n a
    have next : n + (a - n % a) = a * (n / a + 1) := by
      rw [Nat.mul_add]
      omega
    exact ⟨_,next⟩

section Members

variable {α : Type u} (size align : α → Nat)

/-- The offsets of the members, from the place `start` on. -/
def offsets : Nat → List α → List Nat
  | _, [] => []
  | start, m :: rest => alignUp start (align m) :: offsets (alignUp start (align m) + size m) rest

/-- Where the last member ends. -/
def stop : Nat → List α → Nat
  | start, [] => start
  | start, m :: rest => stop (alignUp start (align m) + size m) rest

theorem length_offsets (start : Nat) (members : List α) : (offsets size align start members).length = members.length := by
  induction members generalizing start with
  | nil => rfl
  | cons m rest ih => rw [offsets,length_cons,ih,length_cons]

theorem offsets_append (start : Nat) (front back : List α) : offsets size align start (front ++ back) =
    offsets size align start front ++ offsets size align (stop size align start front) back := by
  induction front generalizing start with
  | nil => rfl
  | cons m rest ih => rw [cons_append,offsets,ih,offsets,stop,cons_append]

theorem stop_append (start : Nat) (front back : List α) : stop size align start (front ++ back) =
    stop size align (stop size align start front) back := by
  induction front generalizing start with
  | nil => rfl
  | cons m rest ih => rw [cons_append,stop,ih,stop]

theorem le_stop (start : Nat) (members : List α) : start ≤ stop size align start members := by
  induction members generalizing start with
  | nil => exact Nat.le_refl _
  | cons m rest ih =>
    have here := le_alignUp start (align m)
    have later := ih (alignUp start (align m) + size m)
    rw [stop]
    omega

theorem lt_stop (positive : ∀ m, 0 < size m) (start : Nat) (some : members ≠ []) :
    start < stop size align start members := by
  cases members with
  | nil => contradiction
  | cons m rest =>
    have here := le_alignUp start (align m)
    have later := le_stop size align (alignUp start (align m) + size m) rest
    have more := positive m
    rw [stop]
    omega

end Members

end StructLayout
