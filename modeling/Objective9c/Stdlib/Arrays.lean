import Objective9c.Lib.Transition
import Objective9c.Stdlib.Collections

/-! The `array<T>` of `collections.o9`: the list with a `put` that may leave a gap. A `T[]` fills the cells it has
never had with zeros, but a cell the array had before is as it was left. -/
namespace Objective9c.Collections

open List

/-- The slice behind a `T[]`: its cells, how many are in use, and how many there is memory for. -/
structure Slice (α : Type u) where
  data : Nat → α
  len : Nat
  cap : Nat

namespace Slice

variable {α : Type u}

/-- `while(idx >= newcap) newcap *= 2;` on 64 bits. A capacity that was doubled 64 times is 0 and stays 0: what needs
more rounds never ends. -/
def doubled : Nat → Int → Int → Option Int
  | 0, _, _ => none
  | rounds+1, idx, newcap =>
    if idx ≥ newcap then doubled rounds idx ((newcap * 2).bmod (2 ^ 64)) else some newcap

def wanted (idx cap : Int) : Option Int := doubled 65 idx (if cap > 0 then cap else 8)

/-- The cells and the length after the write, once there is memory for `cap` cells. -/
def stored (s : Slice α) (zero : α) (idx : Nat) (val : α) (cap : Nat) : Slice α :=
  let grown (i : Nat) : α := if s.cap ≤ i ∧ i < cap then zero else s.data i
  let filled (i : Nat) : α := if s.len ≤ i ∧ i < idx + 1 then zero else grown i
  ⟨fun i => if i = idx then val else filled i,max s.len (idx + 1),cap⟩

/-- `o9_slice_setgrow`; `granted` is what `realloc` answers. There is no slice afterwards if the doubling never ends,
or if the size does not fit the 32 bits `realloc` takes: the block is then too small. -/
def setgrow (s : Slice α) (zero : α) (elemsize idx : Nat) (val : α) (granted : Bool) : Option (Slice α) :=
  if elemsize ≤ 0 then some s
  else if idx < s.cap then some (s.stored zero idx val s.cap)
  else
    match wanted idx s.cap with
    | none => none
    | some newcap =>
      if newcap * elemsize ≥ 2 ^ 32 then none
      else if !granted then some s
      else some (s.stored zero idx val newcap.toNat)

/-- Reading the place `o9_slice_get` answers; nothing can be read where it answers nil. -/
def get (s : Slice α) (idx : Nat) : Option α := if idx ≥ s.len then none else some (s.data idx)

/-- What the cells hold for a reader, who takes those beyond the end to be zero. -/
def cells (s : Slice α) (zero : α) (i : Nat) : α := if i < s.len then s.data i else zero

def accepts (s : Slice α) (elemsize idx : Nat) (granted : Bool) : Bool :=
  0 < elemsize && (idx < s.cap || granted && (wanted idx s.cap).any fun (newcap : Int) => newcap * elemsize < 2 ^ 32)

theorem lt_doubled {idx newcap cap : Int} (ended : doubled rounds idx newcap = some cap) : idx < cap := by
  induction rounds generalizing newcap with
  | zero => cases ended
  | succ rounds ih =>
    rw [doubled] at ended
    split at ended
    · exact ih ended
    · cases ended
      omega

/-- The bound on the index keeps the sign of every capacity on the way. -/
theorem doubled_le {idx newcap : Int} (positive : 0 < newcap) (reached : idx < newcap * 2 ^ rounds)
    (bound : idx < 2 ^ 62) : ∃ cap, doubled (rounds+1) idx newcap = some cap ∧ cap ≤ max newcap (2 * idx) := by
  induction rounds generalizing newcap with
  | zero => exact ⟨newcap,by rw [doubled,if_neg (by omega)],by omega⟩
  | succ rounds ih =>
    rw [doubled]
    split
    next more =>
      have same : (newcap * 2).bmod (2 ^ 64) = newcap * 2 := Int.bmod_eq_of_le (by omega) (by omega)
      rw [same]
      obtain ⟨cap,ended,most⟩ := ih (by omega : 0 < newcap * 2) (by rwa [Int.pow_succ',← Int.mul_assoc] at reached)
      exact ⟨cap,ended,by omega⟩
    next => exact ⟨newcap,rfl,by omega⟩

theorem accepts_of_small (s : Slice α) (positive : 0 < elemsize) (small : max 8 (2 * idx) * elemsize < 2 ^ 32) :
    s.accepts elemsize idx true = true := by
  have low : max 8 (2 * idx) ≤ max 8 (2 * idx) * elemsize := Nat.le_mul_of_pos_right _ positive
  simp only [accepts,positive,decide_true,Bool.true_and,Bool.or_eq_true,decide_eq_true_eq]
  by_cases inside : idx < s.cap
  · exact .inl inside
  · right
    have positive : 0 < (if (s.cap : Int) > 0 then (s.cap : Int) else 8) := by split <;> omega
    have reached : (idx : Int) < (if (s.cap : Int) > 0 then (s.cap : Int) else 8) * 2 ^ 64 := by split <;> omega
    obtain ⟨cap,ended,most⟩ := doubled_le positive reached (by omega)
    have few : cap ≤ (max 8 (2 * idx) : Nat) := by
      split at most <;> omega
    rw [wanted,ended,Option.any_some,decide_eq_true_eq]
    calc cap * elemsize ≤ (max 8 (2 * idx) : Nat) * (elemsize : Int) := Int.mul_le_mul_of_nonneg_right few (by omega)
      _ < 2 ^ 32 := by exact_mod_cast small

theorem cells_stored (s : Slice α) (zero : α) (idx : Nat) (val : α) (cap : Nat) (fits : s.len ≤ s.cap) :
    (s.stored zero idx val cap).cells zero = O9List.assign (s.cells zero) idx val := by
  funext i
  simp only [stored,cells,O9List.assign]
  grind

/-- Where there is a cell, a slice is an array that grows by assignment. -/
theorem setgrow_cells (s : Slice α) (zero : α) (val : α) (fits : s.len ≤ s.cap)
    (accepted : s.accepts elemsize idx granted = true) :
    ∃ s', s.setgrow zero elemsize idx val granted = some s' ∧ s'.len = max s.len (idx + 1) ∧ s'.len ≤ s'.cap ∧
      s'.cells zero = O9List.assign (s.cells zero) idx val := by
  simp only [accepts,Bool.and_eq_true,Bool.or_eq_true,decide_eq_true_eq] at accepted
  obtain ⟨positive,room⟩ := accepted
  rw [setgrow,if_neg (by omega)]
  split
  next inside => exact ⟨_,rfl,rfl,by simp only [stored]; omega,s.cells_stored zero idx val _ fits⟩
  next beyond =>
    obtain ⟨rfl,fine⟩ := room.resolve_left beyond
    obtain ⟨newcap,asked,small⟩ := (Option.any_eq_true _ _).mp fine
    have enough := lt_doubled asked
    rw [asked]
    dsimp only
    rw [if_neg (by simpa using small)]
    exact ⟨_,rfl,rfl,by simp only [stored]; omega,s.cells_stored zero idx val _ fits⟩

/-- However far apart the indices are, a slice filled from nothing reads as the array that each assignment changed in
one place, as long as there is memory and its size fits 32 bits. -/
theorem setgrow_run (zero : α) (elemsize : Nat) (data : Nat → α) (writes : List (Nat × α)) (positive : 0 < elemsize)
    (small : ∀ w ∈ writes, max 8 (2 * w.1) * elemsize < 2 ^ 32) :
    ∃ s, writes.foldlM (fun s w => setgrow s zero elemsize w.1 w.2 true) ⟨data,0,0⟩ = some s ∧
      s.cells zero = writes.foldl (fun f w => O9List.assign f w.1 w.2) fun _ => zero := by
  have kept (s : Slice α) (fits : s.len ≤ s.cap) :
      ∃ s', writes.foldlM (fun s w => setgrow s zero elemsize w.1 w.2 true) s = some s' ∧
        s'.cells zero = writes.foldl (fun f w => O9List.assign f w.1 w.2) (s.cells zero) := by
    induction writes generalizing s with
    | nil => exact ⟨s,rfl,rfl⟩
    | cons w rest ih =>
      have room := s.accepts_of_small positive (small w mem_cons_self)
      obtain ⟨next,wrote,-,fits,reads⟩ := s.setgrow_cells zero w.2 fits room
      obtain ⟨last,ran,same⟩ := ih (fun w member => small w (mem_cons_of_mem _ member)) next fits
      exact ⟨last,by rw [foldlM_cons,wrote]; exact ran,by rw [same,reads]; rfl⟩
  exact kept ⟨data,0,0⟩ (Nat.le_refl 0)

/-- A gap, a write into it, one far beyond, and one over a cell that is in use. -/
theorem setgrow_run_gap :
    ∃ s : Slice Nat, [(3,7),(1,5),(100,9),(3,2)].foldlM (fun s w => setgrow s 0 8 w.1 w.2 true) ⟨fun _ => 4,0,0⟩ = some s ∧
      s.cells 0 = [(3,7),(1,5),(100,9),(3,2)].foldl (fun f w => O9List.assign f w.1 w.2) fun _ => 0 :=
  setgrow_run 0 8 (fun _ => 4) [(3,7),(1,5),(100,9),(3,2)] (by decide) (by decide)

end Slice

namespace O9List

variable {α : Type u} {l : O9List α}

def put (l : O9List α) (index : Int) (value : α) : O9List α × Bool :=
  if index < 0 then (l,false)
  else
    let i := index.toNat
    (⟨assign l.values i value,if i ≥ l.count then i + 1 else l.count⟩,true)

def clear (l : O9List α) : O9List α := { l with count := 0 }

def pop (l : O9List α) (zero : α) : O9List α × α :=
  if l.count ≤ 0 then (l,zero) else ({ l with count := l.count - 1 },l.values (l.count - 1))

inductive Call (α : Type u) where
  | add (value : α)
  | put (index : Int) (value : α)
  | set (index : Int) (value : α)
  | pop
  | remove (index : Int)
  | clear

def call (zero : α) : Call α → O9List α → Option (O9List α)
  | .add value, l => some (l.add value)
  | .put index value, l => some (l.put index value).1
  | .set index value, l => some (l.set index value).1
  | .pop, l => some (l.pop zero).1
  | .remove index, l => some (l.remove index).1
  | .clear, l => some l.clear

/-- What an array is for: `put` beyond the end fills the gap with zeros. -/
def meant (zero : α) (m : List α) : Call α → List α
  | .add value => m ++ [value]
  | .put index value =>
    if index < 0 then m
    else if index < m.length then m.set index.toNat value
    else m ++ replicate (index.toNat - m.length) zero ++ [value]
  | .set index value => if 0 ≤ index ∧ index < m.length then m.set index.toNat value else m
  | .pop => m.dropLast
  | .remove index => if 0 ≤ index ∧ index < m.length then m.eraseIdx index.toNat else m
  | .clear => []

/-- A `put` that skips only cells that hold zero. -/
def skipsZeros [DecidableEq α] (zero : α) : Call α → O9List α → Bool
  | .put index _, l => (List.range index.toNat).all fun i => i < l.count || l.values i == zero
  | _, _ => true

theorem toList_put [DecidableEq α] {zero : α} (i : Nat) (value : α)
    (skips : skipsZeros zero (.put i value) l = true) :
    (l.put i value).1.toList = meant zero l.toList (.put i value) := by
  rw [put,meant,if_neg (by omega),if_neg (by omega),length_toList]
  dsimp only [Int.toNat_natCast]
  rcases Nat.lt_or_ge i l.count with inside | beyond
  · rw [if_neg (Nat.not_le.mpr inside),if_pos (by omega),← toList_set l i value inside,set_natCast l i value inside]
  · rw [if_pos beyond,if_neg (by omega)]
    have gap (j : Nat) (skipped : j < i) (past : l.count ≤ j) : l.values j = zero := by
      have cell := all_eq_true.mp skips j (mem_range.mpr skipped)
      simpa [Nat.not_lt.mpr past] using cell
    apply ext_getElem?
    intro j
    have here := gap j
    simp only [getElem?_append,getElem?_toList,getElem?_replicate,length_append,length_toList,length_replicate,assign]
    grind

theorem call_meant [DecidableEq α] {zero : α} (c : Call α) (skips : skipsZeros zero c l = true)
    (called : call zero c l = some l') : l'.toList = meant zero l.toList c := by
  have outside {index : Int} (refused : ¬(0 ≤ index ∧ index < l.toList.length)) : l.valid index = false := by
    simpa [valid] using refused
  cases c <;> cases called
  case add value => exact toList_add l value
  case put index value =>
    rcases Int.lt_or_le index 0 with negative | positive
    · simp [put,meant,negative]
    · obtain ⟨i,rfl⟩ := Int.eq_ofNat_of_zero_le positive
      exact toList_put i value skips
  case set index value =>
    rw [meant]
    split
    next inside =>
      obtain ⟨i,rfl⟩ := Int.eq_ofNat_of_zero_le inside.1
      exact toList_set l i value (by simpa using inside.2)
    next refused => rw [set,outside refused]; rfl
  case remove index =>
    rw [meant]
    split
    next inside =>
      obtain ⟨i,rfl⟩ := Int.eq_ofNat_of_zero_le inside.1
      exact toList_remove l i (by simpa using inside.2)
    next refused => rw [remove,outside refused]; rfl
  case pop =>
    rw [meant,pop]
    split
    next none => simp [toList,Nat.le_zero.mp none]
    next some =>
      obtain ⟨n,same⟩ := Nat.exists_eq_succ_of_ne_zero (by omega : l.count ≠ 0)
      simp [toList,same,range_succ]
  case clear => rfl

end O9List

/-- The array behind which stands a slice; `count` may be less than the slice's length, and more where a write was
dropped. -/
structure O9Array (α : Type u) where
  values : Slice α
  count : Nat

namespace O9Array

variable {α : Type u}

def new (zero : α) : O9Array α := ⟨⟨fun _ => zero,0,0⟩,0⟩

def length (a : O9Array α) : Nat := a.count

def valid (a : O9Array α) (index : Int) : Bool := index ≥ 0 && index < a.count

section

variable (zero : α) (elemsize : Nat)

def add (a : O9Array α) (value : α) (granted : Bool) : Option (O9Array α) := do
  let values ← a.values.setgrow zero elemsize a.count value granted
  return ⟨values,a.count + 1⟩

def put (a : O9Array α) (index : Int) (value : α) (granted : Bool) : Option (O9Array α × Bool) :=
  if index < 0 then some (a,false)
  else do
    let i := index.toNat
    let values ← a.values.setgrow zero elemsize i value granted
    return (⟨values,if i ≥ a.count then i + 1 else a.count⟩,true)

def get (a : O9Array α) (index : Int) : Option α :=
  if !a.valid index then some zero else a.values.get index.toNat

def set (a : O9Array α) (index : Int) (value : α) (granted : Bool) : Option (O9Array α × Bool) :=
  if !a.valid index then some (a,false)
  else do
    let values ← a.values.setgrow zero elemsize index.toNat value granted
    return ({ a with values },true)

def clear (a : O9Array α) : O9Array α := { a with count := 0 }

def pop (a : O9Array α) : Option (O9Array α × α) :=
  if a.count ≤ 0 then some (a,zero)
  else do
    let value ← a.values.get (a.count - 1)
    return ({ a with count := a.count - 1 },value)

/-- The loop of `remove`, with the number of rounds left. -/
def shiftDown (granted : Bool) : Nat → Nat → Slice α → Option (Slice α)
  | 0, _, values => some values
  | rounds+1, i, values => do
    let value ← values.get (i+1)
    let values ← values.setgrow zero elemsize i value granted
    shiftDown granted rounds (i+1) values

def remove (a : O9Array α) (index : Int) (granted : Bool) : Option (O9Array α × Bool) :=
  if !a.valid index then some (a,false)
  else do
    let i := index.toNat
    let values ← shiftDown zero elemsize granted (a.count - 1 - i) i a.values
    return (⟨values,a.count - 1⟩,true)

open O9List (Call)

/-- A call, with what `realloc` answers during it. -/
def call : Call α × Bool → O9Array α → Option (O9Array α)
  | (.add value,granted), a => a.add zero elemsize value granted
  | (.put index value,granted), a => (a.put zero elemsize index value granted).map (·.1)
  | (.set index value,granted), a => (a.set zero elemsize index value granted).map (·.1)
  | (.pop,_), a => (a.pop zero).map (·.1)
  | (.remove index,granted), a => (a.remove zero elemsize index granted).map (·.1)
  | (.clear,_), a => some a.clear

/-- The cells as a reader finds them, and how many are in use. -/
def view (a : O9Array α) : O9List α := ⟨a.values.cells zero,a.count⟩

/-- A write for which there is a cell, and a `put` that skips only cells that hold zero. -/
def proper [DecidableEq α] : Call α × Bool → O9Array α → Bool
  | (.add _,granted), a => a.values.accepts elemsize a.count granted
  | (.put index value,granted), a =>
    index < 0 || a.values.accepts elemsize index.toNat granted && O9List.skipsZeros zero (.put index value) (a.view zero)
  | (.set _ _,_), _ => 0 < elemsize
  | (.remove _,_), _ => 0 < elemsize
  | _, _ => true

end

/-- The count does not pass the slice, nor the slice its memory. -/
structure Fits (a : O9Array α) : Prop where
  used : a.count ≤ a.values.len
  room : a.values.len ≤ a.values.cap

variable {a : O9Array α} {zero : α} {elemsize : Nat}

@[simp] theorem valid_view (index : Int) : (a.view zero).valid index = a.valid index := rfl

theorem toNat_lt_count (inside : a.valid index = true) : index.toNat < a.count := by
  simp only [valid,Bool.and_eq_true,decide_eq_true_eq] at inside
  omega

theorem get_view (fits : a.Fits) (index : Int) : a.get zero index = some ((a.view zero).get zero index) := by
  rw [get,O9List.get,valid_view]
  split
  next => rfl
  next inside =>
    have bound := toNat_lt_count (by simpa using inside)
    have used := fits.used
    simp only [Slice.get,view,Slice.cells]
    rw [if_neg (by omega),if_pos (by omega)]

theorem shiftDown_cells (zero : α) (granted : Bool) (positive : 0 < elemsize) {values : Slice α} (bound : i + rounds < values.len)
    (room : values.len ≤ values.cap) :
    ∃ s, shiftDown zero elemsize granted rounds i values = some s ∧ s.len = values.len ∧ s.len ≤ s.cap ∧
      s.cells zero = O9List.shiftDown rounds i (values.cells zero) := by
  induction rounds generalizing i values with
  | zero => exact ⟨values,rfl,rfl,room,rfl⟩
  | succ rounds ih =>
    have read : values.get (i+1) = some (values.cells zero (i+1)) := by
      simp only [Slice.get,Slice.cells]
      rw [if_neg (by omega),if_pos (by omega)]
    have accepted : values.accepts elemsize i granted = true := by
      simp [Slice.accepts,positive,(by omega : i < values.cap)]
    obtain ⟨next,wrote,length,room,cells⟩ := values.setgrow_cells zero (values.cells zero (i+1)) room accepted
    obtain ⟨last,ran,lasts,fits,same⟩ := ih (by omega : i + 1 + rounds < next.len) room
    refine ⟨last,?_,by omega,fits,?_⟩
    · simp only [shiftDown,read,wrote,Option.bind_eq_bind,Option.bind_some]
      exact ran
    · rw [same,cells]
      rfl

/-- Where there are cells for what it writes, a call does to the view what it does to an array of unbounded memory. -/
theorem call_view [DecidableEq α] {c : O9List.Call α × Bool} (fits : a.Fits) (ok : proper zero elemsize c a = true) :
    ∃ a', call zero elemsize c a = some a' ∧ a'.Fits ∧ O9List.call zero c.1 (a.view zero) = some (a'.view zero) := by
  have used := fits.used
  have room := fits.room
  obtain ⟨c,granted⟩ := c
  cases c with
  | add value =>
    obtain ⟨values,wrote,length,room,cells⟩ := a.values.setgrow_cells zero value room ok
    refine ⟨⟨values,a.count + 1⟩,by simp [call,add,wrote],⟨by simp only; omega,room⟩,?_⟩
    simp only [O9List.call,O9List.add,view,cells]
  | put index value =>
    by_cases negative : index < 0
    · exact ⟨a,by simp [call,put,negative],fits,by simp [O9List.call,O9List.put,negative]⟩
    · simp only [proper,negative,decide_false,Bool.false_or,Bool.and_eq_true] at ok
      obtain ⟨values,wrote,length,room,cells⟩ := a.values.setgrow_cells zero value room ok.1
      refine ⟨_,by simp only [call,put,if_neg negative,wrote]; rfl,⟨?_,room⟩,?_⟩
      · dsimp only
        split <;> omega
      · simp [O9List.call,O9List.put,negative,view,cells]
  | set index value =>
    have positive : 0 < elemsize := by simpa [proper] using ok
    by_cases inside : a.valid index = true
    · have bound := toNat_lt_count inside
      have accepted : a.values.accepts elemsize index.toNat granted = true := by
        simp [Slice.accepts,positive,(by omega : index.toNat < a.values.cap)]
      obtain ⟨values,wrote,length,room,cells⟩ := a.values.setgrow_cells zero value room accepted
      refine ⟨{ a with values },by simp [call,set,inside,wrote],⟨by simp only; omega,room⟩,?_⟩
      simp only [O9List.call,O9List.set,valid_view,inside]
      simp [view,cells]
    · exact ⟨a,by simp [call,set,inside],fits,by simp [O9List.call,O9List.set,inside]⟩
  | pop =>
    by_cases none : a.count ≤ 0
    · exact ⟨a,by simp [call,pop,none],fits,by simp [O9List.call,O9List.pop,view,none]⟩
    · have read : a.values.get (a.count - 1) = some (a.values.data (a.count - 1)) := by
        rw [Slice.get,if_neg (by omega)]
      refine ⟨{ a with count := a.count - 1 },by simp [call,pop,none,read],⟨by simp only; omega,room⟩,?_⟩
      simp [O9List.call,O9List.pop,view,none]
  | remove index =>
    have positive : 0 < elemsize := by simpa [proper] using ok
    by_cases inside : a.valid index = true
    · have bound := toNat_lt_count inside
      have moved : index.toNat + (a.count - 1 - index.toNat) < a.values.len := by omega
      obtain ⟨values,ran,length,room,cells⟩ := shiftDown_cells zero granted positive moved room
      refine ⟨⟨values,a.count - 1⟩,by simp [call,remove,inside,ran],⟨by simp only; omega,room⟩,?_⟩
      simp only [O9List.call,O9List.remove,valid_view,inside]
      simp [view,cells]
    · exact ⟨a,by simp [call,remove,inside],fits,by simp [O9List.call,O9List.remove,inside]⟩
  | clear => exact ⟨a.clear,rfl,⟨Nat.zero_le _,room⟩,rfl⟩

theorem call_meant [DecidableEq α] {c : O9List.Call α × Bool} (fits : a.Fits) (ok : proper zero elemsize c a = true) :
    ∃ a', call zero elemsize c a = some a' ∧ a'.Fits ∧ (a'.view zero).toList = O9List.meant zero (a.view zero).toList c.1 := by
  obtain ⟨a',called,fits',viewed⟩ := call_view fits ok
  refine ⟨a',called,fits',?_⟩
  by_cases negative : ∃ index value, c.1 = .put index value ∧ index < 0
  · obtain ⟨index,value,put,negative⟩ := negative
    rw [put] at viewed ⊢
    simp only [O9List.call,O9List.put,negative,if_true,Option.some.injEq] at viewed
    simp [O9List.meant,negative,← viewed]
  · apply O9List.call_meant c.1 _ viewed
    obtain ⟨c,granted⟩ := c
    cases c with
    | put index value =>
      have positive : ¬index < 0 := fun below => negative ⟨index,value,rfl,below⟩
      simp only [proper,positive,decide_false,Bool.false_or,Bool.and_eq_true] at ok
      exact ok.2
    | _ => rfl

/-- A run in which every write finds a cell and `put` skips only zero cells goes through, and `get` and `length` are
those of the array as it is meant. -/
theorem array_sparse [DecidableEq α] (zero : α) (elemsize : Nat) (calls : List (O9List.Call α × Bool))
    (ok : Transition.Meets (call zero elemsize) (fun c a => proper zero elemsize c a = true) calls (new zero)) :
    ∃ a, Transition.run (call zero elemsize) calls (new zero) = some a ∧
      a.length = ((calls.map (·.1)).foldl (O9List.meant zero) []).length ∧
      (∀ i : Nat, a.get zero i = some (((calls.map (·.1)).foldl (O9List.meant zero) [])[i]?.getD zero)) ∧
      ∀ i < 0, a.get zero i = some zero := by
  have kept (calls : List (O9List.Call α × Bool)) (a : O9Array α) (fits : a.Fits)
      (ok : Transition.Meets (call zero elemsize) (fun c a => proper zero elemsize c a = true) calls a) :
      ∃ a', Transition.run (call zero elemsize) calls a = some a' ∧ a'.Fits ∧
        (a'.view zero).toList = (calls.map (·.1)).foldl (O9List.meant zero) (a.view zero).toList := by
    induction calls generalizing a with
    | nil => exact ⟨a,rfl,fits,rfl⟩
    | cons c rest ih =>
      obtain ⟨next,called,fits,meant⟩ := call_meant fits ok.1
      obtain ⟨last,ran,fits,same⟩ := ih next fits (ok.2 next called)
      exact ⟨last,by rw [Transition.run,called]; exact ran,fits,by rw [same,meant]; rfl⟩
  obtain ⟨a,ran,fits,same⟩ := kept calls (new zero) ⟨Nat.le_refl 0,Nat.le_refl 0⟩ ok
  have empty : ((new zero).view zero).toList = [] := rfl
  rw [empty] at same
  refine ⟨a,ran,?_,fun i => ?_,fun i negative => ?_⟩
  · rw [← same,O9List.length_toList]
    rfl
  · rw [get_view fits,← same,O9List.get_natCast,O9List.getElem?_toList]
    split <;> rfl
  · simp [get,valid,negative]

/-- A `put` to the end, one into a gap of cells that were never used, and one within the array. -/
theorem array_sparse_gap :
    let calls : List (O9List.Call Nat × Bool) := [(.add 3,true),(.put 2 7,true),(.put 1 5,false),(.pop,true)]
    ∃ a, Transition.run (call 0 8) calls (new 0) = some a ∧ a.get 0 (1 : Nat) = some 5 := by
  obtain ⟨a,ran,-,reads,-⟩ := array_sparse 0 8 [(.add 3,true),(.put 2 7,true),(.put 1 5,false),(.pop,true)]
    (Transition.meets_of_checks (fun _ _ ok => ok) _ _ (by decide))
  exact ⟨a,ran,reads 1⟩

/-- A cleared value comes back in the gap that `put` leaves. -/
theorem cleared_value_returns :
    ¬∀ (calls : List (O9List.Call Nat × Bool)) (a : O9Array Nat), Transition.run (call 0 8) calls (new 0) = some a →
      ∀ i : Nat, a.get 0 i = some (((calls.map (·.1)).foldl (O9List.meant 0) [])[i]?.getD 0) := by
  intro sparse
  exact absurd (sparse [(.add 7,true),(.clear,true),(.put 1 9,true)] _ rfl 0) (by decide)

end O9Array

end Objective9c.Collections
