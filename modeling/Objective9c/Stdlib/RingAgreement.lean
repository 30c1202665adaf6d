import Mathlib.Data.List.Perm.Lattice
import Objective9c.Stdlib.Ring

/-! What two rings with the same members have in common. Slots are sorted by position, but a slot whose position
is taken goes in behind those that have it. -/
namespace Objective9c.HashRing

open Collections List Transition

/-- The first loop of `successor`, from index `i`: the first slot at or after `pos`, or 0. -/
def startFrom (slots : O9List Slot) (pos : Int) : Nat → Nat → Nat
  | 0, _ => 0
  | rounds+1, i => if (slots.get noSlot i).pos ≥ pos then i else startFrom slots pos rounds (i+1)

/-- `while (idx >= slots.length()) { idx = idx - slots.length(); }`. -/
def wrap (length : Nat) : Nat → Nat → Nat
  | 0, idx => idx
  | rounds+1, idx => if idx ≥ length then wrap length rounds (idx - length) else idx

/-- The scan of `seen`, from index `s`. -/
def dupFrom (seen : O9List Name) (cand : Name) : Nat → Nat → Bool → Bool
  | 0, _, dup => dup
  | rounds+1, s, dup => dupFrom seen cand rounds (s+1) (if seen.get [] s = cand then true else dup)

/-- The main loop of `successor`, from `step`. -/
def successorFrom (slots : O9List Slot) (n : Int) (start : Nat) : Nat → Nat → O9List Name → Name
  | 0, _, _ => []
  | rounds+1, step, seen =>
    let idx := wrap slots.length (start + step) (start + step)
    let cand := (slots.get noSlot idx).node
    if dupFrom seen cand seen.length 0 false then successorFrom slots n start rounds (step+1) seen
    else if seen.length = n then cand
    else successorFrom slots n start rounds (step+1) (seen.add cand)

def Ring.vnodes (r : Ring) : Int := r.replicas

section Positions

variable (position : Name → Int)

def Ring.successor (r : Ring) (key : Name) (n : Int) : Name :=
  if r.slots.empty then []
  else if n < 0 then []
  else if n ≥ r.nodes.length then []
  else
    let start := startFrom r.slots (position key) r.slots.length 0
    successorFrom r.slots n start r.slots.length 0 (.new [])

/-- The loop of `replicaSet`, from `i`. -/
def replicasFrom (r : Ring) (key : Name) : Nat → Nat → O9List Name → O9List Name
  | 0, _, out => out
  | rounds+1, i, out =>
    let n := r.successor position key i
    if n = [] then out else replicasFrom r key rounds (i+1) (out.add n)

def Ring.replicaSet (r : Ring) (key : Name) (count : Int) : O9List Name :=
  replicasFrom position r key count.toNat 0 (.new [])

def Agree (r s : Ring) : Prop := ∀ key, r.owner position key = s.owner position key ∧
  (∀ n, r.successor position key n = s.successor position key n) ∧
  ∀ count, (r.replicaSet position key count).toList = (s.replicaSet position key count).toList

def SameMembers (r s : Ring) : Prop := r.vnodes = s.vnodes ∧ ∀ name, r.has name = s.has name

def Ring.Apart (r : Ring) : Prop := ∀ x y, r.has x = true → r.has y = true → x ≠ y →
  ∀ i j : Nat, i < r.vnodes → j < r.vnodes → position (vnodeName x i) ≠ position (vnodeName y j)

section Answers

variable {r s : Ring}

theorem startFrom_congr (same : slots.toList = slots'.toList) (pos : Int)
    (rounds i : Nat) : startFrom slots pos rounds i = startFrom slots' pos rounds i := by
  induction rounds generalizing i with
  | zero => rfl
  | succ rounds ih => simp only [startFrom,O9List.get_congr same,ih]

theorem successorFrom_congr (same : slots.toList = slots'.toList) (n : Int)
    (start rounds step : Nat) (seen : O9List Name) :
    successorFrom slots n start rounds step seen = successorFrom slots' n start rounds step seen := by
  induction rounds generalizing step seen with
  | zero => rfl
  | succ rounds ih =>
    simp only [successorFrom,O9List.length_congr same,O9List.get_congr same,ih]

theorem successor_congr (slots : r.slots.toList = s.slots.toList) (nodes : r.nodes.length = s.nodes.length)
    (key : Name) (n : Int) : r.successor position key n = s.successor position key n := by
  have empty : r.slots.empty = s.slots.empty := by
    have lengths := O9List.length_congr slots
    simp only [O9List.length] at lengths
    simp only [O9List.empty,lengths]
  simp only [Ring.successor,empty,nodes,O9List.length_congr slots,startFrom_congr slots,
    successorFrom_congr slots]

/-- The answers depend on the slots in their order, and on how many nodes there are. -/
theorem agree_of_slots (slots : r.slots.toList = s.slots.toList)
    (nodes : r.nodes.length = s.nodes.length) : Agree position r s := by
  intro key
  refine ⟨by rw [Ring.owner_eq,Ring.owner_eq,slots],successor_congr position slots nodes key,fun count => ?_⟩
  have loops (rounds i : Nat) (out : O9List Name) :
      replicasFrom position r key rounds i out = replicasFrom position s key rounds i out := by
    induction rounds generalizing i out with
    | zero => rfl
    | succ rounds ih => simp only [replicasFrom,successor_congr position slots nodes,ih]
  rw [Ring.replicaSet,Ring.replicaSet,loops]

end Answers

section Order

def InOrder (slots : List Slot) : Prop := slots.Pairwise fun a b => a.pos ≤ b.pos

theorem findPlace_split (slots : O9List Slot) (pos : Int) (rounds i place : Nat)
    (rest : i + rounds = slots.count) (before : place = slots.count ∨ place < i)
    (low : ∀ j < min i place, (slots.values j).pos ≤ pos)
    (high : place < slots.count → pos < (slots.values place).pos) :
    (∀ j < findPlace slots pos rounds i place, (slots.values j).pos ≤ pos) ∧
      (findPlace slots pos rounds i place < slots.count →
        pos < (slots.values (findPlace slots pos rounds i place)).pos) := by
  induction rounds generalizing i place with
  | zero =>
    refine ⟨fun j bound => low j ?_,high⟩
    simp only [findPlace] at bound
    omega
  | succ rounds ih =>
    have counted : slots.length = slots.count := rfl
    simp only [findPlace,O9List.get_natCast,if_pos (show i < slots.count by omega)]
    by_cases above : (slots.values i).pos > pos
    · rw [if_pos above]
      by_cases first : place = slots.length
      · rw [if_pos first]
        refine ih (i+1) i (by omega) (.inr (by omega)) (fun j bound => low j (by omega)) (fun _ => above)
      · rw [if_neg first]
        refine ih (i+1) place (by omega) (.inr (by omega)) (fun j bound => low j (by omega)) high
    · rw [if_neg above]
      refine ih (i+1) place (by omega) (by omega) (fun j bound => ?_) high
      by_cases here : j = i
      · subst here
        omega
      · exact low j (by omega)

theorem placeOf_split (slots : O9List Slot) (pos : Int) (order : InOrder slots.toList) :
    (∀ slot ∈ slots.toList.take (placeOf slots pos), slot.pos ≤ pos) ∧
      ∀ slot ∈ slots.toList.drop (placeOf slots pos), pos < slot.pos := by
  obtain ⟨low,high⟩ := findPlace_split slots pos slots.length 0 slots.length (by simp [O9List.length])
    (.inl rfl) (by simp) (by simp [O9List.length])
  change ∀ j < placeOf slots pos, _ at low
  change placeOf slots pos < _ → pos < (slots.values (placeOf slots pos)).pos at high
  constructor
  · intro slot member
    obtain ⟨j,bound,rfl⟩ := mem_take_iff_getElem.mp member
    have := low j (by omega)
    simpa [O9List.toList] using this
  · intro slot member
    obtain ⟨j,bound,rfl⟩ := mem_drop_iff_getElem.mp member
    have used : placeOf slots pos < slots.count := by simp at bound; omega
    refine Int.lt_of_lt_of_le (high used) ?_
    by_cases first : j = 0
    · subst first
      simp [O9List.toList]
    · have later := pairwise_iff_getElem.mp order (placeOf slots pos) (j + placeOf slots pos)
        (by simpa using used) bound (by omega)
      simpa [O9List.toList,Nat.add_comm] using later

theorem insertSlot_inOrder (slots : O9List Slot) (pos : Int) (name : Name) (order : InOrder slots.toList) :
    InOrder (insertSlot slots pos name).toList := by
  obtain ⟨low,high⟩ := placeOf_split slots pos order
  rw [insertSlot_toList,InOrder,pairwise_append,pairwise_cons]
  refine ⟨order.sublist (take_sublist _ _),⟨fun slot member => Int.le_of_lt (high slot member),
    order.sublist (drop_sublist _ _)⟩,fun a early b late => ?_⟩
  rcases mem_cons.mp late with rfl | late
  · exact low a early
  · exact Int.le_trans (low a early) (Int.le_of_lt (high b late))

theorem insertSlot_perm (slots : O9List Slot) (pos : Int) (name : Name) :
    (insertSlot slots pos name).toList.Perm (⟨pos,name⟩ :: slots.toList) := by
  rw [insertSlot_toList]
  refine perm_middle.trans ?_
  rw [take_append_drop]

/-- A slot that is first at or after its own position stays so, whatever is inserted. -/
theorem insertSlot_first (slots : O9List Slot) (pos : Int) (name : Name) (first : Slot)
    (order : InOrder slots.toList) (found : slots.toList.find? (atOrAfter first.pos) = some first) :
    (insertSlot slots pos name).toList.find? (atOrAfter first.pos) = some first := by
  obtain ⟨low,high⟩ := placeOf_split slots pos order
  rw [insertSlot_toList]
  generalize placeOf slots pos = place at low high
  rw [← take_append_drop place slots.toList,find?_append] at found
  rw [find?_append]
  cases early : (slots.toList.take place).find? (atOrAfter first.pos) with
  | some => simpa [early] using found
  | none =>
    -- everything from the place on is above the new slot, and `first` is there
    rw [early,Option.none_or] at found
    have above := high first (mem_of_find?_eq_some found)
    rw [Option.none_or,find?_cons_of_neg (by simpa using above),found]

end Order

section Members

variable {r s : Ring}

def nodeSlots (replicas : Int) (name : Name) : List Slot :=
  (List.range replicas.toNat).map fun v => ⟨position (vnodeName name v),name⟩

variable (name : Name) (rounds v : Nat) (slots : O9List Slot)
include name rounds v slots

theorem addSlots_inOrder (order : InOrder slots.toList) :
    InOrder (addSlots position name rounds v slots).toList := by
  induction rounds generalizing v slots with
  | zero => exact order
  | succ rounds ih => exact ih (v+1) _ (insertSlot_inOrder slots _ name order)

theorem addSlots_perm :
    (addSlots position name rounds v slots).toList.Perm
      (((range' v rounds).map fun v => ⟨position (vnodeName name v),name⟩) ++ slots.toList) := by
  induction rounds generalizing v slots with
  | zero => exact .refl _
  | succ rounds ih =>
    refine (ih (v+1) _).trans ?_
    exact ((insertSlot_perm slots _ name).append_left _).trans perm_middle

theorem addSlots_first (first : Slot)
    (order : InOrder slots.toList) (found : slots.toList.find? (atOrAfter first.pos) = some first) :
    (addSlots position name rounds v slots).toList.find? (atOrAfter first.pos) = some first := by
  induction rounds generalizing v slots with
  | zero => exact found
  | succ rounds ih =>
    exact ih (v+1) _ (insertSlot_inOrder slots _ name order) (insertSlot_first slots _ name first order found)

omit name rounds v slots

/-- Every built ring is sorted and holds the slots of its nodes, each once. -/
structure Ring.Sound (r : Ring) : Prop where
  order : InOrder r.slots.toList
  slots : r.slots.toList.Perm (r.nodes.toList.flatMap (nodeSlots position r.replicas))
  nodup : r.nodes.toList.Nodup
  named : [] ∉ r.nodes.toList
  placed : 1 ≤ r.replicas

theorem new_sound (vnodes : Int) : (new vnodes).Sound position where
  order := .nil
  slots := .refl _
  nodup := .nil
  named := by simp [new]
  placed := by simp only [new]; split <;> omega

theorem nodeSlots_filter (replicas : Int) (name other : Name) :
    others name (nodeSlots position replicas other) =
      if other = name then [] else nodeSlots position replicas other := by
  simp only [others,nodeSlots,filter_map]
  by_cases same : other = name <;> simp [same,Function.comp_def]

theorem others_flatMap (replicas : Int) (name : Name) (nodes : List Name) :
    others name (nodes.flatMap (nodeSlots position replicas)) =
      (nodes.filter fun node => node ≠ name).flatMap (nodeSlots position replicas) := by
  induction nodes with
  | nil => rfl
  | cons node nodes ih =>
    rw [flatMap_cons]
    simp only [others] at ih ⊢
    rw [filter_append,ih]
    have own := nodeSlots_filter position replicas name node
    simp only [others] at own
    rw [own]
    by_cases same : node = name <;> simp [same]

theorem addNode_cases (r : Ring) (name : Name) : ((r.addNode position name).1 = r ∧
    (name = [] ∨ name ∈ r.nodes.toList)) ∨ (name ≠ [] ∧ name ∉ r.nodes.toList ∧
      (r.addNode position name).1 = { r with
        nodes := r.nodes.add name
        slots := addSlots position name r.replicas.toNat 0 r.slots }) := by
  unfold Ring.addNode
  split
  next unnamed => exact .inl ⟨rfl,.inl unnamed⟩
  next named =>
    split
    next known => exact .inl ⟨rfl,.inr ((r.has_iff name).mp known)⟩
    next fresh => exact .inr ⟨named,fun known => fresh ((r.has_iff name).mpr known),rfl⟩

theorem Ring.Sound.addNode (sound : r.Sound position) (name : Name) :
    (r.addNode position name).1.Sound position := by
  rcases addNode_cases position r name with ⟨same,_⟩ | ⟨named,fresh,added⟩
  · rwa [same]
  · rw [added]
    refine ⟨addSlots_inOrder position name _ 0 r.slots sound.order,?_,?_,?_,sound.placed⟩
    · refine (addSlots_perm position name _ 0 r.slots).trans ?_
      rw [O9List.toList_add,flatMap_append,flatMap_singleton]
      refine (perm_append_comm.trans (sound.slots.append_right _)).trans ?_
      rw [nodeSlots,range_eq_range']
    · rw [O9List.toList_add,nodup_append_comm]
      exact nodup_cons.mpr ⟨fresh,sound.nodup⟩
    · simp only [O9List.toList_add,mem_append,mem_singleton,not_or]
      exact ⟨sound.named,Ne.symm named⟩

theorem Ring.Sound.removeNode (sound : r.Sound position) (name : Name) :
    (r.removeNode name).1.Sound position := by
  have replicas : (r.removeNode name).1.replicas = r.replicas := by
    unfold Ring.removeNode
    split <;> rfl
  rcases r.removeNode_others name with same | ⟨slots,nodes⟩
  · rwa [same]
  · refine ⟨?_,?_,?_,?_,by rw [replicas]; exact sound.placed⟩
    · rw [slots]
      exact sound.order.sublist filter_sublist
    · rw [slots,nodes,replicas,← others_flatMap]
      exact sound.slots.filter _
    · rw [nodes]
      exact sound.nodup.sublist filter_sublist
    · rw [nodes]
      exact fun known => sound.named (mem_of_mem_filter known)

theorem step_sound (op : Op) (r next : Ring) (sound : r.Sound position)
    (stepped : step position op r = some next) : next.Sound position := by
  cases op with
  | addNode name =>
    cases stepped
    exact sound.addNode position name
  | removeNode name =>
    cases stepped
    exact sound.removeNode position name

theorem Built.sound (built : Built position r) : r.Sound position := by
  obtain ⟨vnodes,ops,ran⟩ := built
  exact run_invariant (Ring.Sound position) (step_sound position) ops _ _
    (new_sound position vnodes) ran

/-- Where members are apart, the sorted list of their slots is unique. -/
theorem slots_of_members (soundR : r.Sound position) (soundS : s.Sound position) (same : SameMembers r s)
    (apart : r.Apart position) : r.slots.toList = s.slots.toList ∧ r.nodes.length = s.nodes.length := by
  obtain ⟨replicas,members⟩ := same
  change r.replicas = s.replicas at replicas
  have nodes : r.nodes.toList.Perm s.nodes.toList := by
    refine (perm_ext_iff_of_nodup soundR.nodup soundS.nodup).mpr fun name => ?_
    rw [← r.has_iff,members name,s.has_iff]
  have slots : r.slots.toList.Perm s.slots.toList := by
    refine soundR.slots.trans (.trans ?_ soundS.slots.symm)
    rw [replicas]
    exact nodes.flatMap_right _
  refine ⟨slots.eq_of_pairwise (fun a b inR inS low high => ?_) soundR.order soundS.order,by
    simpa [O9List.length] using nodes.length_eq⟩
  -- two slots at one position are of one node, and then the same slot
  obtain ⟨x,memberX,ownX⟩ := mem_flatMap.mp (soundR.slots.mem_iff.mp inR)
  obtain ⟨y,memberY,ownY⟩ := mem_flatMap.mp (soundR.slots.mem_iff.mp (slots.mem_iff.mpr inS))
  obtain ⟨i,boundI,rfl⟩ := mem_map.mp ownX
  obtain ⟨j,boundJ,rfl⟩ := mem_map.mp ownY
  have positions : position (vnodeName x i) = position (vnodeName y j) := Int.le_antisymm low high
  rw [mem_range] at boundI boundJ
  by_cases one : x = y
  · rw [positions,one]
  · refine absurd positions (apart x y ((r.has_iff x).mpr memberX) ((r.has_iff y).mpr memberY) one i j ?_ ?_)
    · exact Int.lt_toNat.mp boundI
    · exact Int.lt_toNat.mp boundJ

end Members

section Histories

variable {r : Ring}

def joinAll (names : List Name) (r : Ring) : Ring :=
  names.foldl (fun r name => (r.addNode position name).1) r

theorem run_joinAll (names : List Name) (r : Ring) :
    run (step position) (names.map .addNode) r = some (joinAll position names r) := by
  induction names generalizing r with
  | nil => rfl
  | cons name names ih => exact ih _

theorem addNode_replicas (r : Ring) (name : Name) : (r.addNode position name).1.replicas = r.replicas := by
  rcases addNode_cases position r name with ⟨same,_⟩ | ⟨_,_,added⟩
  · rw [same]
  · rw [added]

theorem addNode_nodes (r : Ring) (name other : Name) : other ∈ (r.addNode position name).1.nodes.toList ↔
    other ∈ r.nodes.toList ∨ (other = name ∧ name ≠ []) := by
  rcases addNode_cases position r name with ⟨same,refused⟩ | ⟨named,_,added⟩
  · rw [same]
    constructor
    · exact .inl
    · rintro (known | ⟨rfl,named⟩)
      · exact known
      · exact refused.resolve_left named
  · rw [added]
    simp [O9List.toList_add,named]

theorem joinAll_replicas (names : List Name) (r : Ring) : (joinAll position names r).replicas = r.replicas := by
  induction names generalizing r with
  | nil => rfl
  | cons name names ih => exact (ih _).trans (addNode_replicas position r name)

theorem joinAll_nodes (names : List Name) (r : Ring) (other : Name) :
    other ∈ (joinAll position names r).nodes.toList ↔
      other ∈ r.nodes.toList ∨ (other ∈ names ∧ other ≠ []) := by
  induction names generalizing r with
  | nil => simp [joinAll]
  | cons name names ih =>
    refine (ih _).trans ?_
    rw [addNode_nodes,mem_cons]
    constructor
    · rintro ((known | ⟨rfl,named⟩) | ⟨listed,named⟩)
      · exact .inl known
      · exact .inr ⟨.inl rfl,named⟩
      · exact .inr ⟨.inr listed,named⟩
    · rintro (known | ⟨rfl | listed,named⟩)
      · exact .inl (.inl known)
      · exact .inl (.inr ⟨rfl,named⟩)
      · exact .inr ⟨listed,named⟩

theorem joinAll_first (names : List Name) (r : Ring) (sound : r.Sound position) (first : Slot)
    (found : r.slots.toList.find? (atOrAfter first.pos) = some first) :
    (joinAll position names r).slots.toList.find? (atOrAfter first.pos) = some first := by
  induction names generalizing r with
  | nil => exact found
  | cons name names ih =>
    have next : (r.addNode position name).1.slots.toList.find? (atOrAfter first.pos) = some first := by
      rcases addNode_cases position r name with ⟨same,_⟩ | ⟨_,_,added⟩
      · rwa [same]
      · rw [added]
        exact addSlots_first position name _ 0 r.slots first sound.order found
    exact ih _ (sound.addNode position name) next

theorem find_position (order : InOrder slots) (member : slot ∈ slots) :
    ∃ first ∈ slots, slots.find? (atOrAfter slot.pos) = some first ∧ first.pos = slot.pos := by
  cases found : slots.find? (atOrAfter slot.pos) with
  | none => exact absurd (find?_eq_none.mp found slot member) (by simp)
  | some first =>
    have atLeast : slot.pos ≤ first.pos := by simpa using find?_some found
    refine ⟨first,mem_of_find?_eq_some found,rfl,Int.le_antisymm ?_ atLeast⟩
    obtain ⟨_,before,after,rfl,skipped⟩ := find?_eq_some_iff_append.mp found
    rcases mem_append.mp member with early | late
    · have := skipped slot early
      simp at this
    · rcases mem_cons.mp late with rfl | late
      · exact Int.le_refl _
      · exact (pairwise_cons.mp (pairwise_append.mp order).2.1).1 slot late

/-- The node that joined first owns the keys at its positions, whoever joined there later. -/
theorem first_joined_owns (replicas : Int) (placed : 1 ≤ replicas) (x key : Name) (named : x ≠ [])
    (names : List Name) (i : Nat) (bound : i < replicas) (at' : position key = position (vnodeName x i)) :
    (joinAll position (x :: names) (new replicas)).owner position key = x := by
  have sound := (new_sound position replicas).addNode position x
  have kept : (new replicas).replicas = replicas := if_neg (by omega)
  rcases addNode_cases position (new replicas) x with ⟨_,refused⟩ | ⟨_,_,added⟩
  · rcases refused with unnamed | known
    · exact absurd unnamed named
    · simp [new] at known
  have own (slot : Slot) : slot ∈ ((new replicas).addNode position x).1.slots.toList ↔
      slot ∈ nodeSlots position replicas x := by
    rw [sound.slots.mem_iff,added,kept]
    simp [new,O9List.toList_add]
  have here : (⟨position key,x⟩ : Slot) ∈ ((new replicas).addNode position x).1.slots.toList := by
    rw [own,at']
    exact mem_map.mpr ⟨i,mem_range.mpr (Int.lt_toNat.mpr bound),rfl⟩
  obtain ⟨first,member,found,same⟩ := find_position sound.order here
  rw [← same] at found
  have stays := joinAll_first position names _ sound first found
  obtain ⟨v,_,rfl⟩ := mem_map.mp ((own first).mp member)
  have owner := (joinAll position (x :: names) (new replicas)).owner_eq position key
  rw [owner,clockwise]
  change (((joinAll position names ((new replicas).addNode position x).1).slots.toList.find? _).or _
    |>.map Slot.node).getD [] = x
  rw [← show _ = position key from same,stays]
  rfl

theorem built_joinAll (replicas : Int) (names : List Name) : Built position (joinAll position names (new replicas)) :=
  ⟨replicas,names.map .addNode,run_joinAll position names _⟩

/-- Two members that share a position are met in the order they joined. -/
theorem shared_position_disagrees (replicas : Int) (placed : 1 ≤ replicas) (x y : Name) (others : List Name)
    (namedX : x ≠ []) (namedY : y ≠ []) (apart : x ≠ y) (i j : Nat) (boundI : i < replicas)
    (boundJ : j < replicas) (shared : position (vnodeName x i) = position (vnodeName y j)) :
    (joinAll position (x :: y :: others) (new replicas)).owner position (vnodeName x i) ≠
      (joinAll position (y :: x :: others) (new replicas)).owner position (vnodeName x i) := by
  rw [first_joined_owns position replicas placed x _ namedX _ i boundI rfl,
    first_joined_owns position replicas placed y _ namedY _ j boundJ shared]
  exact apart

/-- Rings with one membership give the same answers exactly when no two of the members share a
position. -/
theorem ring_agreement (r : Ring) (built : Built position r) :
    (∀ s, Built position s → SameMembers r s → Agree position r s) ↔ r.Apart position := by
  have sound := built.sound position
  constructor
  · intro agree x y memberX memberY apart i j boundI boundJ shared
    have known (name : Name) (member : r.has name = true) : name ∈ r.nodes.toList ∧ name ≠ [] := by
      have listed := (r.has_iff name).mp member
      exact ⟨listed,fun unnamed => sound.named (unnamed ▸ listed)⟩
    have kept : (new r.replicas).replicas = r.replicas := if_neg (by have := sound.placed; omega)
    -- both orders of joining end with the members of `r`
    have rebuilt (names : List Name) (all : ∀ name, name ∈ names ↔ name ∈ r.nodes.toList) :
        Agree position r (joinAll position names (new r.replicas)) := by
      refine agree _ (built_joinAll position _ _) ⟨?_,fun name => ?_⟩
      · exact ((joinAll_replicas position _ _).trans kept).symm
      · rw [Bool.eq_iff_iff,Ring.has_iff,Ring.has_iff,joinAll_nodes,all]
        simp only [new,O9List.toList_new,not_mem_nil,false_or]
        exact ⟨fun listed => ⟨listed,fun unnamed => sound.named (unnamed ▸ listed)⟩,And.left⟩
    have relisted (a b : Name) (memberA : r.has a = true) (memberB : r.has b = true) (name : Name) :
        name ∈ a :: b :: r.nodes.toList ↔ name ∈ r.nodes.toList := by
      rw [mem_cons,mem_cons]
      refine ⟨?_,fun listed => .inr (.inr listed)⟩
      rintro (rfl | rfl | listed)
      · exact (known _ memberA).1
      · exact (known _ memberB).1
      · exact listed
    have first := rebuilt (x :: y :: r.nodes.toList) (relisted x y memberX memberY)
    have second := rebuilt (y :: x :: r.nodes.toList) (relisted y x memberY memberX)
    refine shared_position_disagrees position r.replicas sound.placed x y r.nodes.toList (known x memberX).2
      (known y memberY).2 apart i j boundI boundJ shared ?_
    exact ((first _).1.symm.trans (second _).1)
  · intro apart s builtS same
    obtain ⟨slots,nodes⟩ := slots_of_members position sound (builtS.sound position) same apart
    exact agree_of_slots position slots nodes

end Histories

end Positions

/-- Two nodes that share no position, one of which leaves and comes back. -/
def twoNodes : List Op := [.addNode [97],.addNode [107],.removeNode [97],.addNode [97]]

theorem twoNodes_agree : ∃ r, Transition.run (step byteSum) twoNodes (new 2) = some r ∧
    ∀ s, Built byteSum s → SameMembers r s → Agree byteSum r s := by
  have built : Built byteSum _ := ⟨2,twoNodes,rfl⟩
  refine ⟨_,rfl,(ring_agreement byteSum _ built).mpr fun x y memberX memberY apart i j boundI boundJ => ?_⟩
  rw [Ring.has_iff] at memberX memberY
  have members {name : Name} (member : name ∈ ([[107],[97]] : List Name)) : name = [107] ∨ name = [97] := by
    simpa using member
  have low {k : Nat} (bound : (k : Int) < 2) : k = 0 ∨ k = 1 := by omega
  rcases members memberX with rfl | rfl <;> rcases members memberY with rfl | rfl <;>
    rcases low boundI with rfl | rfl <;> rcases low boundJ with rfl | rfl <;>
    first | exact absurd rfl apart | decide

/-- Names of 512 bytes that differ only in the last one: their vnodes have the same names. -/
def longName (last : UInt8) : Name := List.replicate 511 97 ++ [last]

/-- With such names no choice of positions makes the rings agree. -/
theorem long_names_disagree : ¬∃ position : Name → Int, ∀ r s, Built position r → Built position s →
    SameMembers r s → Agree position r s := by
  rintro ⟨position,agree⟩
  have same : vnodeName (longName 97) 0 = vnodeName (longName 98) 0 := by decide +kernel
  have answers := agree (joinAll position [longName 97,longName 98] (new 1))
    (joinAll position [longName 98,longName 97] (new 1)) (built_joinAll position 1 _) (built_joinAll position 1 _)
    ⟨?_,fun name => ?_⟩
  · exact shared_position_disagrees position 1 (by decide) (longName 97) (longName 98) [] (by decide)
      (by decide +kernel) (by decide +kernel) 0 0 (by decide) (by decide) (congrArg position same) (answers _).1
  · exact (joinAll_replicas position _ _).trans (joinAll_replicas position _ _).symm
  · rw [Bool.eq_iff_iff,Ring.has_iff,Ring.has_iff,joinAll_nodes,joinAll_nodes]
    simp only [mem_cons,not_mem_nil,or_false]
    rw [or_comm (a := name = longName 97)]

end Objective9c.HashRing
