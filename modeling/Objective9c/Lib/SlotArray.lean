import Mathlib.Data.List.Basic

/-! An array of slots as a map: a slot in use has a key, no two slots have the same one, and writing a slot
changes what is found under its old and its new key. -/
namespace SlotArray

open List

variable {σ : Type u} {κ : Type v} [DecidableEq κ] {key : σ → Option κ} {l : List σ}

def lookup (key : σ → Option κ) (l : List σ) (k : κ) : Option σ := l.find? fun a => key a = some k

def index (key : σ → Option κ) (l : List σ) (k : κ) : Option Nat := l.findIdx? fun a => key a = some k

def Distinct (key : σ → Option κ) (l : List σ) : Prop :=
  ∀ (i j : Nat) (a b : σ) (k : κ), l[i]? = some a → l[j]? = some b → key a = some k → key b = some k → i = j

theorem index_some (found : index key l k = some i) : ∃ a, l[i]? = some a ∧ key a = some k := by
  obtain ⟨inside,same,_⟩ := findIdx?_eq_some_iff_getElem.mp found
  exact ⟨l[i],getElem?_eq_getElem inside,by simpa using same⟩

theorem index_none : index key l k = none ↔ ∀ a ∈ l, key a ≠ some k := by
  simp [index,findIdx?_eq_none_iff]

theorem lookup_iff (distinct : Distinct key l) : lookup key l k = some a ↔ a ∈ l ∧ key a = some k := by
  constructor
  · intro found
    exact ⟨mem_of_find?_eq_some found,by simpa using find?_some found⟩
  · rintro ⟨member,named⟩
    cases found : lookup key l k with
    | none =>
      have absent := find?_eq_none.mp found a member
      simp [named] at absent
    | some b =>
      have named' : key b = some k := by simpa using find?_some found
      obtain ⟨i,at_⟩ := mem_iff_getElem?.mp member
      obtain ⟨j,at'⟩ := mem_iff_getElem?.mp (mem_of_find?_eq_some found)
      obtain rfl := distinct i j a b k at_ at' named named'
      rw [at_] at at'
      exact at'.symm

/-- The key is used in no other slot than `i`. -/
def FreeBut (key : σ → Option κ) (l : List σ) (i : Nat) (k : κ) : Prop :=
  ∀ (j : Nat) (b : σ), l[j]? = some b → key b = some k → j = i

theorem getElem?_set_cases (at_ : (l.set i new)[j]? = some a) : i = j ∧ a = new ∨ i ≠ j ∧ l[j]? = some a := by
  by_cases same : i = j
  · subst same
    obtain ⟨inside,is⟩ := List.getElem?_eq_some_iff.mp at_
    rw [List.getElem_set_self] at is
    exact .inl ⟨rfl,is.symm⟩
  · rw [List.getElem?_set_ne same] at at_
    exact .inr ⟨same,at_⟩

omit [DecidableEq κ] in
theorem Distinct.set (distinct : Distinct key l) (free : ∀ k, key new = some k → FreeBut key l i k) :
    Distinct key (l.set i new) := by
  intro j j' a b k at_ at' named named'
  obtain ⟨rfl,rfl⟩ | ⟨_,was⟩ := getElem?_set_cases at_ <;>
    obtain ⟨rfl,rfl⟩ | ⟨_,was'⟩ := getElem?_set_cases at'
  · rfl
  · exact (free k named j' b was' named').symm
  · exact free k named' j a was named
  · exact distinct j j' a b k was was' named named'

theorem lookup_set (distinct : Distinct key l) (found : l[i]? = some old)
    (free : ∀ k, key new = some k → FreeBut key l i k) (k : κ) : lookup key (l.set i new) k =
      if key new = some k then some new else if key old = some k then none else lookup key l k := by
  have distinct' := distinct.set free
  have inside : i < l.length := (List.getElem?_eq_some_iff.mp found).1
  by_cases isNew : key new = some k
  · rw [if_pos isNew,lookup_iff distinct']
    exact ⟨List.mem_iff_getElem?.mpr ⟨i,by simp [inside]⟩,isNew⟩
  · rw [if_neg isNew]
    by_cases wasOld : key old = some k
    · rw [if_pos wasOld,lookup,find?_eq_none]
      intro a member
      simp only [decide_eq_true_eq]
      intro named
      obtain ⟨j,at_⟩ := mem_iff_getElem?.mp member
      obtain ⟨rfl,rfl⟩ | ⟨apart,at_⟩ := getElem?_set_cases at_
      · exact isNew named
      · exact apart (distinct i j old a k found at_ wasOld named)
    · rw [if_neg wasOld]
      ext a
      rw [lookup_iff distinct',lookup_iff distinct]
      refine and_congr_left fun named => ?_
      rw [mem_iff_getElem?,mem_iff_getElem?]
      constructor
      · rintro ⟨j,at_⟩
        obtain ⟨rfl,rfl⟩ | ⟨apart,at_⟩ := getElem?_set_cases at_
        · exact absurd named isNew
        · exact ⟨j,at_⟩
      · rintro ⟨j,at_⟩
        have apart : i ≠ j := by
          rintro rfl
          rw [found] at at_
          exact wasOld (Option.some.inj at_ ▸ named)
        exact ⟨j,by rwa [getElem?_set_ne apart]⟩

end SlotArray
