import Objective9c.Lib.Transition
import Objective9c.Stdlib.Collections

/-! The consistent-hashing ring of `ring.o9`. Slots are kept in a list, a node's slots are
inserted one by one and removed in place, and a key belongs to the node of the first slot at
or after its position, or of the first slot of all. The position of a name is a parameter:
nothing below depends on the digest it is taken from. -/
namespace Objective9c.HashRing

open Collections List

abbrev Name := List UInt8

structure Slot where
  pos : Int
  node : Name
  deriving DecidableEq

def noSlot : Slot := ⟨0,[]⟩

structure Ring where
  slots : O9List Slot
  nodes : O9List Name
  replicas : Int

def new (vnodes : Int) : Ring :=
  ⟨.new noSlot,.new [],if vnodes < 1 then 1 else vnodes⟩

def decimal (n : Nat) : Name := (Nat.toDigits 10 n).map fun digit => UInt8.ofNat digit.toNat

/-- `RingVnodeNameRaw`: `snprint` of the name up to its first NUL, `#` and the number, into a
buffer of 512 bytes. -/
def vnodeName (node : Name) (n : Nat) : Name :=
  (node.takeWhile (· != 0) ++ [35] ++ decimal n).take 511

/-- The loop of `has`, from index `i`, with the number of rounds left. -/
def hasFrom (nodes : O9List Name) (name : Name) : Nat → Nat → Bool
  | 0, _ => false
  | rounds+1, i => if nodes.get [] i = name then true else hasFrom nodes name rounds (i+1)

def Ring.has (r : Ring) (name : Name) : Bool := hasFrom r.nodes name r.nodes.length 0

/-- The first loop of `insertSlot`: `place` is its variable `at`. -/
def findPlace (slots : O9List Slot) (pos : Int) : Nat → Nat → Nat → Nat
  | 0, _, place => place
  | rounds+1, i, place =>
    let place := if (slots.get noSlot i).pos > pos then
      if place = slots.length then i else place
    else place
    findPlace slots pos rounds (i+1) place

/-- The second loop: `while (j > at) { slots.set(j, slots.get(j - 1)); j = j - 1; }`. -/
def shiftUp (place : Nat) : Nat → O9List Slot → O9List Slot
  | 0, slots => slots
  | j+1, slots =>
    if j + 1 > place then shiftUp place j (slots.set (j+1 : Nat) (slots.get noSlot j)).1 else slots

def insertSlot (slots : O9List Slot) (pos : Int) (name : Name) : O9List Slot :=
  let slot : Slot := ⟨pos,name⟩
  let place := findPlace slots pos slots.length 0 slots.length
  let slots := slots.add slot
  let slots := shiftUp place (slots.length - 1) slots
  (slots.set place slot).1

/-- The loop of `removeNode`, for either list: an element that `drop` names is removed in
place, and the index only moves on past one that stays. -/
def removeLoop (zero : α) (drop : α → Bool) : Nat → Nat → O9List α → O9List α
  | 0, _, l => l
  | rounds+1, i, l =>
    if drop (l.get zero i) then removeLoop zero drop rounds i (l.remove i).1
    else removeLoop zero drop rounds (i+1) l

def Ring.removeNode (r : Ring) (name : Name) : Ring × Bool :=
  if !r.has name then (r,false)
  else
    ({ r with
      nodes := removeLoop [] (· = name) r.nodes.length 0 r.nodes
      slots := removeLoop noSlot (·.node = name) r.slots.length 0 r.slots },true)

/-- The first element that matches, or else the first of all. -/
def clockwise (test : α → Bool) (l : List α) : Option α := (l.find? test).or l.head?

/-- Leaving elements out does not change which one is met first, unless it is left out. -/
theorem clockwise_filter (first : clockwise test l = some a) (kept : keep a = true) :
    clockwise test (l.filter keep) = some a := by
  unfold clockwise at first ⊢
  cases found : l.find? test with
  | some b =>
    obtain rfl : b = a := by simpa [found] using first
    obtain ⟨holds,before,after,rfl,skipped⟩ := find?_eq_some_iff_append.mp found
    have none : (before.filter keep).find? test = none := by
      rw [find?_eq_none]
      intro c member
      simpa using skipped c (mem_of_mem_filter member)
    simp [filter_append,kept,find?_append,none,holds]
  | none =>
    have none : (l.filter keep).find? test = none := by
      rw [find?_eq_none] at found ⊢
      exact fun c member => found c (mem_of_mem_filter member)
    rw [none]
    cases l with
    | nil => simp at first
    | cons b =>
      obtain rfl : b = a := by simpa [found] using first
      simp [kept]

section Lists

variable {slots : O9List Slot}

theorem hasFrom_iff (nodes : O9List Name) (name : Name) (rounds i : Nat) (bound : i + rounds ≤ nodes.count) :
    hasFrom nodes name rounds i = true ↔ ∃ j, i ≤ j ∧ j < i + rounds ∧ nodes.values j = name := by
  induction rounds generalizing i with
  | zero =>
    simp only [hasFrom,Bool.false_eq_true,false_iff,not_exists,not_and]
    omega
  | succ rounds ih =>
    simp only [hasFrom,O9List.get_natCast,if_pos (show i < nodes.count by omega)]
    split
    next here => simpa using ⟨i,Nat.le_refl i,by omega,here⟩
    next other =>
      rw [ih (i+1) (by omega)]
      constructor
      · rintro ⟨j,low,high,same⟩
        exact ⟨j,by omega,by omega,same⟩
      · rintro ⟨j,low,high,same⟩
        have apart : j ≠ i := fun equal => other (equal ▸ same)
        exact ⟨j,by omega,by omega,same⟩

theorem Ring.has_iff (r : Ring) (name : Name) : r.has name = true ↔ name ∈ r.nodes.toList := by
  rw [Ring.has,hasFrom_iff _ _ _ _ (by simp [O9List.length]),O9List.mem_toList]
  simp [O9List.length]

theorem findPlace_le (pos : Int) (rounds i place : Nat) (inside : i + rounds ≤ slots.count)
    (bound : place ≤ slots.count) : findPlace slots pos rounds i place ≤ slots.count := by
  induction rounds generalizing i place with
  | zero => exact bound
  | succ rounds ih =>
    refine ih (i+1) _ (by omega) ?_
    split
    · split <;> omega
    · exact bound

theorem shiftUp_apply (place j : Nat) (slots : O9List Slot) (bound : j < slots.count) :
    (shiftUp place j slots).count = slots.count ∧ ∀ k, (shiftUp place j slots).values k =
      if place < k ∧ k ≤ j then slots.values (k-1) else slots.values k := by
  induction j generalizing slots with
  | zero =>
    refine ⟨rfl,fun k => ?_⟩
    rw [if_neg (by omega)]
    rfl
  | succ j ih =>
    simp only [shiftUp]
    split
    next above =>
      -- one assignment, and then the loop from `j`
      have assigned : (slots.set (j+1 : Nat) (slots.get noSlot j)).1 =
          { slots with values := O9List.assign slots.values (j+1) (slots.values j) } := by
        rw [O9List.set_natCast _ _ _ bound,O9List.get_natCast,if_pos (by omega)]
      obtain ⟨count,values⟩ := ih (slots.set (j+1 : Nat) (slots.get noSlot j)).1
        (by rw [assigned]; exact Nat.lt_of_succ_lt bound)
      rw [assigned] at count values ⊢
      refine ⟨count,fun k => ?_⟩
      rw [values]
      simp only [O9List.assign]
      by_cases last : k = j + 1
      · subst last
        rw [if_neg (by omega),if_pos rfl,if_pos ⟨above,Nat.le_refl _⟩]
        rfl
      · by_cases inside : place < k ∧ k ≤ j
        · rw [if_pos inside,if_neg (by omega),if_pos (by omega)]
        · rw [if_neg inside,if_neg last,if_neg (by omega)]
    next reached =>
      refine ⟨rfl,fun k => ?_⟩
      rw [if_neg (by omega)]

/-- Where `insertSlot` puts a slot of position `pos`. -/
def placeOf (slots : O9List Slot) (pos : Int) : Nat := findPlace slots pos slots.length 0 slots.length

theorem insertSlot_toList (slots : O9List Slot) (pos : Int) (name : Name) : (insertSlot slots pos name).toList =
      slots.toList.take (placeOf slots pos) ++ ⟨pos,name⟩ :: slots.toList.drop (placeOf slots pos) := by
  have bound : placeOf slots pos ≤ slots.count :=
    findPlace_le pos _ 0 _ (by simp [O9List.length]) (Nat.le_refl _)
  unfold insertSlot
  dsimp only
  change (O9List.set (shiftUp (placeOf slots pos) _ _) (placeOf slots pos) _).1.toList = _
  generalize placeOf slots pos = place at bound ⊢
  obtain ⟨count,values⟩ := shiftUp_apply place ((slots.add ⟨pos,name⟩).length - 1) (slots.add ⟨pos,name⟩)
    (by simp [O9List.add,O9List.length])
  have counted : (slots.add ⟨pos,name⟩).count = slots.count + 1 := rfl
  have added (k : Nat) : (slots.add ⟨pos,name⟩).values k =
      if k = slots.count then ⟨pos,name⟩ else slots.values k := rfl
  apply ext_getElem?
  intro k
  rw [O9List.toList_set _ _ _ (by omega),getElem?_set,O9List.length_toList,count,
    O9List.getElem?_toList,count,values,getElem?_append,List.length_take,O9List.length_toList,
    Nat.min_eq_left bound]
  simp only [counted,added,O9List.length,Nat.add_sub_cancel]
  rcases Nat.lt_trichotomy k place with before | rfl | after
  · rw [if_neg (by omega),if_pos (by omega),if_neg (by omega),if_neg (by omega),if_pos before,
      getElem?_take_of_lt before,O9List.getElem?_toList,if_pos (by omega)]
  · simp [show k < slots.count + 1 by omega]
  · obtain ⟨d,rfl⟩ : ∃ d, k = place + (d + 1) := ⟨k - place - 1,by omega⟩
    rw [if_neg (show ¬place = place + (d + 1) by omega),
      if_neg (show ¬place + (d + 1) < place by omega),Nat.add_sub_cancel_left,getElem?_cons_succ,
      getElem?_drop,O9List.getElem?_toList]
    by_cases inside : place + d < slots.count
    · rw [if_pos (show place + (d + 1) < slots.count + 1 by omega),if_pos (by omega),if_pos inside,
        if_neg (by omega)]
      rfl
    · rw [if_neg (show ¬place + (d + 1) < slots.count + 1 by omega),if_neg inside]

theorem removeLoop_toList (zero : α) (drop : α → Bool) (rounds i : Nat) (l : O9List α)
    (rest : l.count = i + rounds) : (removeLoop zero drop rounds i l).toList =
      l.toList.take i ++ (l.toList.drop i).filter fun x => !drop x := by
  induction rounds generalizing i l with
  | zero =>
    have all : l.toList.length ≤ i := by simp [rest]
    simp [removeLoop,take_of_length_le all,drop_of_length_le all]
  | succ rounds ih =>
    have here : i < l.toList.length := by simp [rest]
    simp only [removeLoop,O9List.get_eq_getElem l zero i here]
    rw [drop_eq_getElem_cons here]
    split
    next dropped =>
      have used : i < l.count := by omega
      have left : (l.remove i).1.count = i + rounds := by
        rw [O9List.remove_natCast l i used]
        show l.count - 1 = i + rounds
        omega
      rw [ih i _ left,O9List.toList_remove l i used,filter_cons_of_neg (by simp [dropped]),
        eraseIdx_eq_take_drop_succ]
      have length : (l.toList.take i).length = i := by simp; omega
      simp only [take_append_of_le_length (Nat.le_of_eq length.symm),take_take,Nat.min_self]
      rw [drop_append_of_le_length (Nat.le_of_eq length.symm)]
      simp
    next stays =>
      rw [ih (i+1) l (by omega),filter_cons_of_pos (by simp [stays]),take_succ_eq_append_getElem here,
        append_assoc]
      rfl

end Lists

section Positions

variable (position : Name → Int)

/-- The loop of `addNode`, from vnode `v`. -/
def addSlots (name : Name) : Nat → Nat → O9List Slot → O9List Slot
  | 0, _, slots => slots
  | rounds+1, v, slots =>
    addSlots name rounds (v+1) (insertSlot slots (position (vnodeName name v)) name)

def Ring.addNode (r : Ring) (name : Name) : Ring × Bool :=
  if name = [] then (r,false)
  else if r.has name then (r,false)
  else
    ({ r with
      nodes := r.nodes.add name
      slots := addSlots position name r.replicas.toNat 0 r.slots },true)

/-- The loop of `owner`, from index `i`; past the last slot it wraps to the first. -/
def ownerFrom (slots : O9List Slot) (pos : Int) : Nat → Nat → Name
  | 0, _ => (slots.get noSlot 0).node
  | rounds+1, i =>
    let cur := slots.get noSlot i
    if cur.pos ≥ pos then cur.node else ownerFrom slots pos rounds (i+1)

def Ring.owner (r : Ring) (key : Name) : Name :=
  if r.slots.empty then [] else ownerFrom r.slots (position key) r.slots.length 0

inductive Op where
  | addNode (name : Name)
  | removeNode (name : Name)
  deriving DecidableEq

def step : Op → Ring → Option Ring
  | .addNode name, r => some (r.addNode position name).1
  | .removeNode name, r => some (r.removeNode name).1

def Built (r : Ring) : Prop := ∃ vnodes ops, Transition.run (step position) ops (new vnodes) = some r

@[simp] def atOrAfter (pos : Int) (slot : Slot) : Bool := slot.pos ≥ pos

theorem ownerFrom_eq (slots : O9List Slot) (pos : Int) (rounds i : Nat) (rest : slots.count = i + rounds)
    (some' : 0 < slots.count) : some (ownerFrom slots pos rounds i) =
      (((slots.toList.drop i).find? (atOrAfter pos)).or slots.toList.head?).map Slot.node := by
  induction rounds generalizing i with
  | zero =>
    have all : slots.toList.length ≤ i := by simp [rest]
    have first : 0 < slots.toList.length := by simpa using some'
    have head : slots.get noSlot 0 = slots.toList[0] := O9List.get_eq_getElem slots noSlot 0 first
    simp only [ownerFrom,drop_of_length_le all,find?_nil,Option.none_or,head]
    rw [head?_eq_getElem?,getElem?_eq_getElem first]
    rfl
  | succ rounds ih =>
    have here : i < slots.toList.length := by simp [rest]
    simp only [ownerFrom,O9List.get_eq_getElem slots noSlot i here]
    rw [drop_eq_getElem_cons here]
    split
    next reached =>
      rw [find?_cons_of_pos (by simpa using reached)]
      rfl
    next before =>
      rw [find?_cons_of_neg (by simpa using before)]
      exact ih (i+1) (by omega)

theorem Ring.owner_eq (r : Ring) (key : Name) : r.owner position key =
    ((clockwise (atOrAfter (position key)) r.slots.toList).map Slot.node).getD [] := by
  unfold Ring.owner
  split
  next none =>
    rw [(O9List.empty_iff _).mp none]
    rfl
  next some' =>
    have counted : 0 < r.slots.count := by
      simp only [O9List.empty,beq_iff_eq] at some'
      omega
    have walk := ownerFrom_eq r.slots (position key) r.slots.length 0 (by simp [O9List.length]) counted
    rw [drop_zero] at walk
    rw [clockwise,← walk]
    rfl

/-- Slots of the other nodes, in their order. -/
def others (name : Name) (slots : List Slot) : List Slot := slots.filter fun slot => slot.node ≠ name

theorem addSlots_others (name : Name) (rounds v : Nat) (slots : O9List Slot) :
    others name (addSlots position name rounds v slots).toList = others name slots.toList ∧
      ∀ slot ∈ (addSlots position name rounds v slots).toList, slot ∈ slots.toList ∨ slot.node = name := by
  induction rounds generalizing v slots with
  | zero => exact ⟨rfl,fun slot member => .inl member⟩
  | succ rounds ih =>
    have inserted := insertSlot_toList slots (position (vnodeName name v)) name
    obtain ⟨same,known⟩ := ih (v+1) (insertSlot slots (position (vnodeName name v)) name)
    refine ⟨same.trans ?_,fun slot member => ?_⟩
    · rw [inserted]
      simp only [others,filter_append]
      rw [filter_cons_of_neg (by simp),← filter_append,take_append_drop]
    · rcases known slot member with old | new
      · rw [inserted] at old
        rcases mem_append.mp old with before | after
        · exact .inl (mem_of_mem_take before)
        · rcases mem_cons.mp after with rfl | after
          · exact .inr rfl
          · exact .inl (mem_of_mem_drop after)
      · exact .inr new

/-- Every slot is one of a member's. -/
def Ring.Placed (r : Ring) : Prop := ∀ slot ∈ r.slots.toList, slot.node ∈ r.nodes.toList

theorem Ring.addNode_others (r : Ring) (placed : r.Placed) (name : Name) : (r.addNode position name).1 = r ∨
      others name (r.addNode position name).1.slots.toList = r.slots.toList := by
  unfold Ring.addNode
  split
  · exact .inl rfl
  split
  · exact .inl rfl
  next absent =>
    right
    rw [(addSlots_others position name _ _ _).1]
    refine filter_eq_self.mpr fun slot member => ?_
    have known := placed slot member
    rw [Ring.has_iff] at absent
    exact decide_eq_true fun same => absent (same ▸ known)

theorem Ring.removeNode_others (r : Ring) (name : Name) : (r.removeNode name).1 = r ∨
    ((r.removeNode name).1.slots.toList = others name r.slots.toList ∧
      (r.removeNode name).1.nodes.toList = r.nodes.toList.filter fun node => node ≠ name) := by
  unfold Ring.removeNode
  split
  · exact .inl rfl
  · refine .inr ⟨?_,?_⟩
    · rw [removeLoop_toList _ _ _ _ _ (by simp [O9List.length])]
      simp [others]
    · rw [removeLoop_toList _ _ _ _ _ (by simp [O9List.length])]
      simp

theorem step_placed (r next : Ring) (op : Op) (placed : r.Placed) (stepped : step position op r = some next) :
    next.Placed := by
  cases op with
  | addNode name =>
    cases stepped
    unfold Ring.addNode
    split
    · exact placed
    split
    · exact placed
    · intro slot member
      simp only [O9List.toList_add,mem_append,mem_singleton]
      rcases (addSlots_others position name _ _ _).2 slot member with old | new
      · exact .inl (placed slot old)
      · exact .inr new
  | removeNode name =>
    cases stepped
    rcases r.removeNode_others name with same | ⟨slots,nodes⟩
    · rwa [same]
    · intro slot member
      rw [slots] at member
      rw [nodes]
      obtain ⟨known,other⟩ := mem_filter.mp member
      exact mem_filter.mpr ⟨placed slot known,other⟩

theorem Built.placed (built : Built position r) : r.Placed := by
  obtain ⟨vnodes,ops,ran⟩ := built
  refine Transition.run_invariant Ring.Placed (fun op r next => step_placed position r next op) ops _ _ ?_ ran
  intro slot member
  simp [new] at member

theorem owner_others (r less : Ring) (name key : Name) (slots : less.slots.toList = others name r.slots.toList)
    (other : r.owner position key ≠ name) : less.owner position key = r.owner position key := by
  rw [Ring.owner_eq] at other ⊢
  rw [Ring.owner_eq,slots]
  cases first : clockwise (atOrAfter (position key)) r.slots.toList with
  | none =>
    have empty : r.slots.toList = [] := by
      simp only [clockwise,Option.or_eq_none_iff,head?_eq_none_iff] at first
      exact first.2
    rw [empty]
    rfl
  | some slot =>
    have kept : clockwise (atOrAfter (position key)) (others name r.slots.toList) = some slot :=
      clockwise_filter first (by simpa [first] using other)
    rw [kept]

/-- A node that joins takes over keys but moves none between the others, and one that leaves
only gives up its own. -/
theorem ring_minimal_disruption (r : Ring) (built : Built position r) (x key : Name) :
    ((r.addNode position x).1.owner position key = r.owner position key ∨
      (r.addNode position x).1.owner position key = x) ∧
    (r.owner position key ≠ x → (r.removeNode x).1.owner position key = r.owner position key) := by
  refine ⟨?_,fun other => ?_⟩
  · rcases r.addNode_others position (built.placed position) x with same | joined
    · exact .inl (by rw [same])
    · by_cases taken : (r.addNode position x).1.owner position key = x
      · exact .inr taken
      · exact .inl (owner_others position _ r x key joined.symm taken).symm
  · rcases r.removeNode_others x with same | ⟨slots,_⟩
    · rw [same]
    · exact owner_others position r _ x key slots other

end Positions

/-- The sum of a name's bytes, as a position that many names share. -/
def byteSum (name : Name) : Int := (name.map UInt8.toNat).sum

/-- Three nodes with two vnodes each; the second one leaves and comes back. -/
def threeNodes : List Op :=
  [.addNode [97],.addNode [98],.addNode [99],.removeNode [98],.addNode [98]]

theorem threeNodes_disruption : ∃ r, Transition.run (step byteSum) threeNodes (new 2) = some r ∧
    r.owner byteSum [180] = [97] ∧ (r.addNode byteSum [90]).1.owner byteSum [120] = [90] ∧
    (r.removeNode [98]).1.owner byteSum [180] = r.owner byteSum [180] := by
  have built : Built byteSum _ := ⟨2,threeNodes,rfl⟩
  exact ⟨_,rfl,by decide,by decide,
    (ring_minimal_disruption byteSum _ built [98] [180]).2 (by decide)⟩

end Objective9c.HashRing
