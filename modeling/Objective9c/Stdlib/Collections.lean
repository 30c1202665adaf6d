import Mathlib.Data.List.Range

/-! The `list<T>` of `collections.o9`: an array that grows by assignment, and how many of its
cells are in use. Each operation is the loop of the source; `toList` says what it is for. -/
namespace Objective9c.Collections

open List

/-- The cells at `count` and above keep whatever was assigned to them last. -/
structure O9List (α : Type u) where
  values : Nat → α
  count : Nat

namespace O9List

variable {α : Type u}

/-- `values[index] = value`. -/
def assign (values : Nat → α) (index : Nat) (value : α) : Nat → α :=
  fun i => if i = index then value else values i

/-- `zero` is what an unset variable of the element type holds. -/
def new (zero : α) : O9List α := ⟨fun _ => zero,0⟩

def add (l : O9List α) (value : α) : O9List α := ⟨assign l.values l.count value,l.count + 1⟩

def length (l : O9List α) : Nat := l.count

def empty (l : O9List α) : Bool := l.count == 0

def valid (l : O9List α) (index : Int) : Bool := index ≥ 0 && index < l.count

def get (l : O9List α) (zero : α) (index : Int) : α :=
  if !l.valid index then zero else l.values index.toNat

def set (l : O9List α) (index : Int) (value : α) : O9List α × Bool :=
  if !l.valid index then (l,false) else ({ l with values := assign l.values index.toNat value },true)

/-- `while(i < count - 1){ values[i] = values[i + 1]; i = i + 1; }`, with the number of rounds
left. -/
def shiftDown : Nat → Nat → (Nat → α) → Nat → α
  | 0, _, values => values
  | rounds+1, i, values => shiftDown rounds (i+1) (assign values i (values (i+1)))

def remove (l : O9List α) (index : Int) : O9List α × Bool :=
  if !l.valid index then (l,false)
  else
    let i := index.toNat
    (⟨shiftDown (l.count - 1 - i) i l.values,l.count - 1⟩,true)

def toList (l : O9List α) : List α := (List.range l.count).map l.values

@[simp] theorem length_toList (l : O9List α) : l.toList.length = l.count := by simp [toList]

theorem getElem?_toList (l : O9List α) (i : Nat) :
    l.toList[i]? = if i < l.count then some (l.values i) else none := by
  by_cases bound : i < l.count <;> simp [toList,bound]

theorem mem_toList {l : O9List α} : x ∈ l.toList ↔ ∃ i < l.count, l.values i = x := by
  simp [toList]

theorem valid_natCast (l : O9List α) (i : Nat) : l.valid i = decide (i < l.count) := by
  simp [valid]

theorem get_natCast (l : O9List α) (zero : α) (i : Nat) :
    l.get zero i = if i < l.count then l.values i else zero := by
  by_cases bound : i < l.count <;> simp [get,valid_natCast,bound]

theorem get_eq_getElem (l : O9List α) (zero : α) (i : Nat) (bound : i < l.toList.length) :
    l.get zero i = l.toList[i] := by
  have used : i < l.count := by simpa using bound
  simp [get_natCast,used,toList]

theorem length_congr {l m : O9List α} (same : l.toList = m.toList) : l.length = m.length := by
  simpa [length] using congrArg List.length same

theorem get_congr {l m : O9List α} (same : l.toList = m.toList) (zero : α) (i : Nat) :
    l.get zero i = m.get zero i := by
  have counts : l.count = m.count := length_congr same
  rw [get_natCast,get_natCast,counts]
  split
  next used =>
    have cell := congrArg (·[i]?) same
    simp only [getElem?_toList] at cell
    rwa [if_pos (by omega),if_pos used,Option.some.injEq] at cell
  next => rfl

theorem set_natCast (l : O9List α) (i : Nat) (value : α) (bound : i < l.count) :
    l.set i value = ({ l with values := assign l.values i value },true) := by
  rw [set,valid_natCast,decide_eq_true bound,Int.toNat_natCast]
  rfl

theorem remove_natCast (l : O9List α) (i : Nat) (bound : i < l.count) :
    l.remove i = (⟨shiftDown (l.count - 1 - i) i l.values,l.count - 1⟩,true) := by
  rw [remove,valid_natCast,decide_eq_true bound,Int.toNat_natCast]
  rfl

@[simp] theorem toList_new (zero : α) : (new zero).toList = [] := rfl

theorem empty_iff (l : O9List α) : l.empty = true ↔ l.toList = [] := by
  simp [empty,toList]

@[simp] theorem toList_add (l : O9List α) (value : α) : (l.add value).toList = l.toList ++ [value] := by
  simp only [toList,add,range_succ,map_append,map_cons,map_nil]
  congr 1
  · apply map_congr_left
    intro i member
    have bound := mem_range.mp member
    exact if_neg (by omega)
  · simp [assign]

theorem toList_set (l : O9List α) (i : Nat) (value : α) (bound : i < l.count) :
    (l.set i value).1.toList = l.toList.set i value := by
  apply ext_getElem?
  intro j
  rw [set_natCast l i value bound,getElem?_toList,getElem?_set,length_toList,getElem?_toList]
  by_cases same : i = j
  · subst same
    simp [assign,bound]
  · simp [assign,same,Ne.symm same]

theorem shiftDown_apply (rounds i : Nat) (values : Nat → α) (j : Nat) :
    shiftDown rounds i values j = if i ≤ j ∧ j < i + rounds then values (j+1) else values j := by
  induction rounds generalizing i values with
  | zero =>
    rw [if_neg (by omega)]
    rfl
  | succ rounds ih =>
    simp only [shiftDown,ih,assign]
    by_cases first : j = i
    · subst first
      simp
    · by_cases inside : i + 1 ≤ j ∧ j < i + 1 + rounds
      · rw [if_pos inside,if_neg (by omega),if_pos (by omega)]
      · rw [if_neg inside,if_neg first,if_neg (by omega)]

theorem toList_remove (l : O9List α) (i : Nat) (bound : i < l.count) :
    (l.remove i).1.toList = l.toList.eraseIdx i := by
  apply ext_getElem?
  intro j
  rw [remove_natCast l i bound,getElem?_eraseIdx,getElem?_toList,getElem?_toList,getElem?_toList]
  simp only [shiftDown_apply]
  by_cases before : j < i
  · rw [if_pos before,if_pos (by omega),if_neg (by omega),if_pos (by omega)]
  · rw [if_neg before]
    by_cases inside : j < l.count - 1
    · rw [if_pos inside,if_pos (by omega),if_pos (by omega)]
    · rw [if_neg inside,if_neg (by omega)]

end O9List

end Objective9c.Collections
