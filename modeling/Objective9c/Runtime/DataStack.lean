import Objective9c.Stdlib.Arrays

/-! Slices of the heap and of a data stack. The sign of the capacity tells them apart, but
`o9_datastack_slice_end` makes it minus the length, which has no sign when the slice is empty. -/
namespace Objective9c.DataStack

open Transition

/-- A block of the heap, or a place in the buffer of a data stack, which only the stack may free. -/
inductive Ptr where
  | nil
  | heap (block : Nat)
  | stack (ds offset : Nat)
  deriving DecidableEq

def Ptr.onStack : Ptr → Bool
  | .stack _ _ => true
  | _ => false

structure O9Slice where
  data : Ptr
  len : Int
  cap : Int
  elemsize : Int

/-- Places are offsets into the buffer, whose size `o9_datastack_create` rounds up; `growHead` is none while
`is_growing` is 0. -/
structure O9DataStack where
  top : Nat
  limit : Nat
  growHead : Option Nat
  top_le : top ≤ limit
  rounded : 8 ∣ limit

def sliceInit (elemsize : Int) : O9Slice := ⟨.nil,0,0,elemsize⟩

def allocated : Option Nat → Ptr
  | none => .nil
  | some block => .heap block

/-- The slice and what `realloc` is called with; `answer` is the block it returns, if any. -/
def sliceAppend (s : O9Slice) (answer : Option Nat) : O9Slice × List Ptr :=
  if s.len ≥ s.cap then
    (⟨allocated answer,s.len + 1,if s.cap ≠ 0 then s.cap * 2 else 8,s.elemsize⟩,[s.data])
  else ({ s with len := s.len + 1 },[])

/-- There is no slice afterwards if the doubling never ends, and `realloc` is not called then. -/
def sliceSetgrow (s : O9Slice) (idx : Int) (answer : Option Nat) : Option O9Slice × List Ptr :=
  if idx < 0 ∨ s.elemsize ≤ 0 then (some s,[])
  else
    let len := if idx ≥ s.len then idx + 1 else s.len
    if idx ≥ s.cap then
      match Collections.Slice.wanted idx s.cap, answer with
      | none, _ => (none,[])
      | some _, none => (some s,[s.data])
      | some newcap, some block => (some ⟨.heap block,len,newcap,s.elemsize⟩,[s.data])
    else (some { s with len },[])

def sliceFree (s : O9Slice) : List Ptr := if s.cap < 0 then [] else [s.data]

/-- The top, moved up to a multiple of the size of a pointer. -/
def O9DataStack.place (d : O9DataStack) : Nat := (d.top + 7) / 8 * 8

theorem O9DataStack.place_le (d : O9DataStack) : d.place ≤ d.limit := by
  have below := d.top_le
  have rounded := d.rounded
  rw [place]
  omega

def O9DataStack.room (d : O9DataStack) (elemsize : Int) : Int := ((d.limit : Int) - d.place).tdiv elemsize

theorem O9DataStack.room_nonneg (d : O9DataStack) {elemsize : Int} (positive : 0 < elemsize) : 0 ≤ d.room elemsize := by
  have below := d.place_le
  exact Int.tdiv_nonneg (by omega) (by omega)

def datastackSliceBegin (ds : Nat) (d : O9DataStack) (i : Nat) (s : O9Slice) (elemsize : Int) : O9DataStack × O9Slice :=
  if elemsize ≤ 0 then (d,s)
  else (⟨d.place,d.limit,some i,d.place_le,d.rounded⟩,⟨.stack ds d.place,0,d.room elemsize,elemsize⟩)

def O9DataStack.refuses (d : O9DataStack) (i : Nat) (s : O9Slice) : Prop :=
  d.growHead ≠ some i ∨ d.top + s.elemsize > d.limit

instance (d : O9DataStack) (i : Nat) (s : O9Slice) : Decidable (d.refuses i s) := inferInstanceAs (Decidable (_ ∨ _))

def datastackSlicePush (d : O9DataStack) (i : Nat) (s : O9Slice) : O9DataStack × O9Slice :=
  if refused : d.refuses i s then (d,s)
  else
    ({ d with
        top := d.top + s.elemsize.toNat
        top_le := by
          have below := d.top_le
          rw [O9DataStack.refuses] at refused
          omega },{ s with len := s.len + 1 })

def datastackSliceEnd (d : O9DataStack) (i : Nat) (s : O9Slice) : O9DataStack × O9Slice :=
  if d.growHead = some i then ({ d with growHead := none },{ s with cap := -s.len }) else (d,s)

structure State where
  slices : Nat → O9Slice
  dstacks : Nat → O9DataStack

inductive Op where
  | init (i : Nat) (elemsize : Int)
  | sliceBegin (ds i : Nat) (elemsize : Int)
  | slicePush (ds i : Nat)
  | sliceEnd (ds i : Nat)
  | append (i : Nat) (answer : Option Nat)
  | setgrow (i : Nat) (idx : Int) (answer : Option Nat)
  | free (i : Nat)

def State.put (s : State) (i : Nat) (slice : O9Slice) : State := { s with slices := Function.update s.slices i slice }

def State.build (s : State) (ds i : Nat) (changed : O9DataStack × O9Slice) : State :=
  { s.put i changed.2 with dstacks := Function.update s.dstacks ds changed.1 }

def step : Op → State → Option State
  | .init i elemsize, s => some (s.put i (sliceInit elemsize))
  | .sliceBegin ds i elemsize, s => some (s.build ds i (datastackSliceBegin ds (s.dstacks ds) i (s.slices i) elemsize))
  | .slicePush ds i, s => some (s.build ds i (datastackSlicePush (s.dstacks ds) i (s.slices i)))
  | .sliceEnd ds i, s => some (s.build ds i (datastackSliceEnd (s.dstacks ds) i (s.slices i)))
  | .append i answer, s => some (s.put i (sliceAppend (s.slices i) answer).1)
  | .setgrow i idx answer, s => (sliceSetgrow (s.slices i) idx answer).1.map (s.put i)
  | .free _, s => some s

/-- What the operation calls `free` or `realloc` with. -/
def gives : Op → State → List Ptr
  | .append i answer, s => (sliceAppend (s.slices i) answer).2
  | .setgrow i idx answer, s => (sliceSetgrow (s.slices i) idx answer).2
  | .free i, s => sliceFree (s.slices i)
  | _, _ => []

def HeapOnly (op : Op) (s : State) : Prop := ∀ p ∈ gives op s, p.onStack = false

/-- What a slice has become: nothing on a stack, a slice growing in a stack's buffer with so many elements and room
for so many, or one last ended at so many. One begun on two stacks can be pushed to after one of them ended it. -/
inductive Stage where
  | heap
  | growing (len room : Int)
  | ended (len last : Int)

/-- How an operation moves the stage of the slice it is about; whether a push or an end takes effect is for the data
stack to say. -/
def Stage.next (s : State) : Op → Stage → Stage
  | .init _ _, _ => .heap
  | .sliceBegin ds _ elemsize, stage => if elemsize ≤ 0 then stage else .growing 0 ((s.dstacks ds).room elemsize)
  | .slicePush ds i, .growing len room =>
    if (s.dstacks ds).refuses i (s.slices i) then .growing len room else .growing (len + 1) room
  | .slicePush ds i, .ended len last =>
    if (s.dstacks ds).refuses i (s.slices i) then .ended len last else .ended (len + 1) last
  | .sliceEnd ds i, .growing len room => if (s.dstacks ds).growHead = some i then .ended len len else .growing len room
  | .sliceEnd ds i, .ended len last => if (s.dstacks ds).growHead = some i then .ended len len else .ended len last
  | .append _ _, .growing len room => .growing (len + 1) room
  | .setgrow _ idx _, .growing len room => .growing (max len (idx + 1)) room
  | _, stage => stage

def Op.slice : Op → Nat
  | .init i _ | .sliceBegin _ i _ | .slicePush _ i | .sliceEnd _ i | .append i _ | .setgrow i _ _ | .free i => i

/-- What may be done at a stage: free not while the slice grows, and once it was ended only if something was pushed;
append and set not once it was ended, and before only in the room there is. A set whose doubling never ends does not
get to the heap. -/
def Stage.allows : Op → Stage → Prop
  | .append _ _, .growing len room => len < room
  | .append _ _, .ended _ _ => False
  | .setgrow _ idx _, .growing _ room => idx < room ∨ Collections.Slice.wanted idx room = none
  | .setgrow _ idx _, .ended _ last => idx < 0 ∨ Collections.Slice.wanted idx (-last) = none
  | .free _, .growing _ _ => False
  | .free _, .ended _ last => 0 < last
  | _, _ => True

/-- Every operation is allowed at the stage that those before it led to. -/
def Follows : List Op → State → (Nat → Stage) → Prop
  | [], _, _ => True
  | op :: rest, s, stages =>
    (stages op.slice).allows op ∧
      ∀ s', step op s = some s' → Follows rest s' (Function.update stages op.slice ((stages op.slice).next s op))

/-- How the capacity tells what has become of a slice. -/
def Stage.Marks : Stage → O9Slice → Prop
  | .heap, s => s.data.onStack = false
  | .growing len room, s => s.data.onStack = true ∧ 0 < s.elemsize ∧ s.len = len ∧ 0 ≤ len ∧ s.cap = room ∧ 0 ≤ room
  | .ended len last, s => s.data.onStack = true ∧ 0 < s.elemsize ∧ s.len = len ∧ 0 ≤ last ∧ last ≤ len ∧ s.cap = -last

variable {s s' : State} {op : Op} {stage : Stage} {stages : Nat → Stage}

theorem sliceAppend_gives {slice : O9Slice} (marks : stage.Marks slice) :
    (∀ p ∈ (sliceAppend slice answer).2, p.onStack = false) ↔ stage.allows (.append i answer) := by
  cases stage <;> simp only [Stage.Marks] at marks <;> simp only [sliceAppend,Stage.allows]
  case heap => split <;> simp [marks]
  case growing => split <;> simp [marks] <;> omega
  case ended => rw [if_pos (by omega)]; simp [marks]

theorem sliceSetgrow_gives {slice : O9Slice} (marks : stage.Marks slice) :
    (∀ p ∈ (sliceSetgrow slice idx answer).2, p.onStack = false) ↔ stage.allows (.setgrow i idx answer) := by
  cases stage <;> simp only [Stage.Marks] at marks <;> simp only [sliceSetgrow,Stage.allows]
  case heap => grind
  case growing => grind
  case ended => grind

theorem sliceFree_gives {slice : O9Slice} (marks : stage.Marks slice) :
    (∀ p ∈ sliceFree slice, p.onStack = false) ↔ stage.allows (.free i) := by
  cases stage <;> simp only [Stage.Marks] at marks <;> simp only [sliceFree,Stage.allows]
  case heap => split <;> simp [marks]
  case growing => rw [if_neg (by omega)]; simp [marks]
  case ended => split <;> simp [marks] <;> omega

/-- By its mark a slice is told apart: what is allowed at its stage is what gives the heap nothing of a stack. -/
theorem heapOnly_iff (marks : stage.Marks (s.slices op.slice)) : HeapOnly op s ↔ stage.allows op := by
  cases op with
  | append i answer => exact sliceAppend_gives marks
  | setgrow i idx answer => exact sliceSetgrow_gives marks
  | free i => exact sliceFree_gives marks
  | _ => simp [HeapOnly,gives,Stage.allows]

theorem step_frame (stepped : step op s = some s') (other : i ≠ op.slice) : s'.slices i = s.slices i := by
  cases op with
  | setgrow j idx answer =>
    obtain ⟨slice,-,rfl⟩ := Option.map_eq_some_iff.mp stepped
    exact Function.update_of_ne other _ _
  | free j => cases stepped; rfl
  | _ =>
    cases stepped
    exact Function.update_of_ne other _ _

theorem sliceAppend_marks {slice : O9Slice} (marks : stage.Marks slice) (allowed : stage.allows (.append i answer)) :
    (stage.next s (.append i answer)).Marks (sliceAppend slice answer).1 := by
  cases stage with
  | heap =>
    rw [sliceAppend]
    split
    · cases answer <;> rfl
    · exact marks
  | growing len room =>
    obtain ⟨stack,size,rfl,least,rfl,positive⟩ := marks
    have inside : ¬slice.len ≥ slice.cap := Int.not_le.mpr allowed
    rw [sliceAppend,if_neg inside]
    exact ⟨stack,size,rfl,by omega,rfl,positive⟩
  | ended => exact allowed.elim

theorem sliceSetgrow_marks {slice slice' : O9Slice} (marks : stage.Marks slice)
    (allowed : stage.allows (.setgrow i idx answer)) (set : (sliceSetgrow slice idx answer).1 = some slice') :
    (stage.next s (.setgrow i idx answer)).Marks slice' := by
  simp only [sliceSetgrow] at set
  cases stage <;> simp only [Stage.Marks,Stage.next,Stage.allows] at marks allowed ⊢ <;> grind [Ptr.onStack]

theorem datastackSlicePush_marks {slice : O9Slice} (marks : stage.Marks slice) (here : s.slices i = slice) :
    (stage.next s (.slicePush ds i)).Marks (datastackSlicePush (s.dstacks ds) i slice).2 := by
  subst here
  cases stage <;> simp only [Stage.Marks,Stage.next,datastackSlicePush] at marks ⊢ <;> grind [Stage.Marks]

theorem datastackSliceEnd_marks {slice : O9Slice} (marks : stage.Marks slice) :
    (stage.next s (.sliceEnd ds i)).Marks (datastackSliceEnd (s.dstacks ds) i slice).2 := by
  cases stage <;> simp only [Stage.Marks,Stage.next,datastackSliceEnd] at marks ⊢ <;> grind [Stage.Marks]

theorem datastackSliceBegin_marks {slice : O9Slice} (marks : stage.Marks slice) :
    (stage.next s (.sliceBegin ds i elemsize)).Marks (datastackSliceBegin ds (s.dstacks ds) i slice elemsize).2 := by
  by_cases none : elemsize ≤ 0
  · simpa [Stage.next,datastackSliceBegin,none] using marks
  · simp only [Stage.next,datastackSliceBegin,if_neg none]
    exact ⟨rfl,Int.not_le.mp none,rfl,Int.le_refl 0,rfl,(s.dstacks ds).room_nonneg (by omega)⟩

theorem step_marks (marks : ∀ i, (stages i).Marks (s.slices i)) (allowed : (stages op.slice).allows op)
    (stepped : step op s = some s') (i : Nat) :
    (Function.update stages op.slice ((stages op.slice).next s op) i).Marks (s'.slices i) := by
  by_cases other : i = op.slice
  swap
  · rw [Function.update_of_ne other,step_frame stepped other]
    exact marks i
  subst other
  rw [Function.update_self]
  have here := marks op.slice
  cases op with
  | init i elemsize => cases stepped; simp [State.put,sliceInit,Op.slice,Stage.next,Stage.Marks,Ptr.onStack]
  | sliceBegin ds i elemsize =>
    cases stepped
    simpa [State.build,State.put,Op.slice] using datastackSliceBegin_marks here
  | slicePush ds i =>
    cases stepped
    simpa [State.build,State.put,Op.slice] using datastackSlicePush_marks here rfl
  | sliceEnd ds i =>
    cases stepped
    simpa [State.build,State.put,Op.slice] using datastackSliceEnd_marks here
  | append i answer =>
    cases stepped
    simpa [State.put,Op.slice] using sliceAppend_marks here allowed
  | setgrow i idx answer =>
    obtain ⟨slice,set,rfl⟩ := Option.map_eq_some_iff.mp stepped
    simpa [State.put,Op.slice] using sliceSetgrow_marks here allowed set
  | free i =>
    cases stepped
    exact here

/-- `free` and `realloc` are only called with what the heap gave, just as long as the operations on each slice follow
one another as its stages allow. -/
theorem heap_only_iff (ops : List Op) (s : State) (start : ∀ i, (s.slices i).data.onStack = false) :
    Meets step HeapOnly ops s ↔ Follows ops s fun _ => .heap := by
  have same (s : State) (stages : Nat → Stage) (marks : ∀ i, (stages i).Marks (s.slices i)) :
      Meets step HeapOnly ops s ↔ Follows ops s stages := by
    induction ops generalizing s stages with
    | nil => exact Iff.rfl
    | cons op rest ih =>
      rw [Meets,Follows,heapOnly_iff (marks op.slice)]
      apply and_congr_right
      intro allowed
      apply forall_congr'
      intro s'
      apply imp_congr_right
      intro stepped
      exact ih s' _ (step_marks marks allowed stepped)
  exact same s _ start

def fresh : State := ⟨fun _ => sliceInit 8,fun _ => ⟨0,1024,none,by decide,by decide⟩⟩

/-- Two slices on one stack, the first freed after its end, the other appended to while there is room. -/
theorem heap_only_two :
    let ops : List Op := [.sliceBegin 0 0 8,.slicePush 0 0,.sliceEnd 0 0,.sliceBegin 0 1 8,.append 1 none,.free 0]
    Meets step HeapOnly ops fresh := by
  have first : (0 : Int) < 1 := by decide
  have room : (0 : Int) < 127 := by decide
  apply (heap_only_iff _ fresh fun _ => rfl).mpr
  refine ⟨trivial,?_⟩
  rintro _ ⟨⟩
  refine ⟨trivial,?_⟩
  rintro _ ⟨⟩
  refine ⟨trivial,?_⟩
  rintro _ ⟨⟩
  refine ⟨trivial,?_⟩
  rintro _ ⟨⟩
  refine ⟨room,?_⟩
  rintro _ ⟨⟩
  exact ⟨first,fun _ _ => trivial⟩

/-- An empty slice behind one of one element: its end leaves the capacity 0, and `free` gets a place in the buffer. -/
theorem stack_given : ¬∀ ops, Meets step HeapOnly ops fresh := by
  intro kept
  have calls := kept [.sliceBegin 0 0 8,.slicePush 0 0,.sliceEnd 0 0,.sliceBegin 0 1 8,.sliceEnd 0 1,.free 1]
  have freed := (((((calls.2 _ rfl).2 _ rfl).2 _ rfl).2 _ rfl).2 _ rfl).1
  exact absurd (freed (.stack 0 8) (by decide)) (by decide)

end Objective9c.DataStack
