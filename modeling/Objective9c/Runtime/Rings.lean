import Objective9c.Lib.Fifo
import Objective9c.Lib.Mutex

/-! The submission and completion rings of the router. `head` and `tail` count what went in and out without end and
wrap at 32 bits; a mask gives the slot. The lock makes each operation one section. -/
namespace Objective9c.Rings

open Mutex Fifo List Transition Function

section Model

def ringSize : Nat := 64

structure Ring (α : Type u) where
  head : BitVec 32 := 0
  tail : BitVec 32 := 0
  slots : Fin ringSize → α

/-- `head - tail`, as an unsigned number. -/
def Ring.length (r : Ring α) : Nat := (r.head - r.tail).toNat

/-- The slot of a count, `& O9_RING_MASK`. -/
def slot (count : BitVec 32) : Fin ringSize :=
  ⟨(count &&& BitVec.ofNat 32 (ringSize - 1)).toNat,by
    rw [BitVec.toNat_and]
    exact Nat.lt_of_le_of_lt Nat.and_le_right (by decide)⟩

/-- What an operation returns and copies to `*out`, and whether it took the branch. -/
structure Locals (α : Type u) where
  ret : Int
  out : Option α := none
  inside : Bool := false

abbrev Action (α : Type u) := Ring α → Locals α → Ring α × Locals α

def ringPut (item : α) : List (Action α) :=
  [fun r l => (r,{ l with inside := r.length < ringSize }),
    fun r l => (if l.inside then { r with slots := Function.update r.slots (slot r.head) item } else r,l),
    fun r l => (if l.inside then { r with head := r.head + 1 } else r,l),
    fun r l => (r,if l.inside then { l with ret := 0 } else l)]

def ringTake : List (Action α) :=
  [fun r l => (r,{ l with inside := r.tail != r.head }),
    fun r l => (r,if l.inside then { l with out := some (r.slots (slot r.tail)) } else l),
    fun r l => (if l.inside then { r with tail := r.tail + 1 } else r,l),
    fun r l => (r,if l.inside then { l with ret := 1 } else l)]

def tringSubmit (item : α) : List (Action α) := ringPut item
def tringConsume : List (Action α) := ringTake
def rringComplete (item : α) : List (Action α) := ringPut item
def rringPoll : List (Action α) := ringTake

inductive Op (α : Type u) where
  | put (item : α)
  | take
deriving DecidableEq

def locals : Op α → Locals α
  | .put _ => { ret := -1 }
  | .take => { ret := 0 }

def tring : Sections (Op α) (Ring α) (Locals α) where
  locals := locals
  body
    | .put item => tringSubmit item
    | .take => tringConsume

def rring : Sections (Op α) (Ring α) (Locals α) where
  locals := locals
  body
    | .put item => rringComplete item
    | .take => rringPoll

/-- What the caller of an operation sees of it. -/
def event : ι × Op α × Locals α → Event α
  | (_,.put item,l) => .put item (l.ret == 0)
  | (_,.take,l) => .take (if l.ret = 1 then l.out else none)

def history (s : State ι (Op α) (Ring α) (Locals α)) : List (Event α) := s.log.map event

end Model

section Contents

/-- The items between the counters, the oldest first. -/
def Ring.queue (r : Ring α) : List α := (List.range r.length).map fun i => r.slots (slot (r.tail + BitVec.ofNat 32 i))

def Ring.put (r : Ring α) (item : α) : Ring α :=
  { r with slots := Function.update r.slots (slot r.head) item, head := r.head + 1 }

def Ring.take (r : Ring α) : Ring α := { r with tail := r.tail + 1 }

variable {r : Ring α}

theorem slot_val (count : BitVec 32) : (slot count).val = count.toNat % 64 := by
  have mask : (BitVec.ofNat 32 (ringSize - 1)).toNat = 2 ^ 6 - 1 := by decide
  change (count &&& BitVec.ofNat 32 (ringSize - 1)).toNat = _
  rw [BitVec.toNat_and,mask,Nat.and_two_pow_sub_one_eq_mod]

theorem length_queue (r : Ring α) : r.queue.length = r.length := by simp [Ring.queue]

theorem length_put (room : r.length < ringSize) (item : α) : (r.put item).length = r.length + 1 := by
  simp only [Ring.length,Ring.put,ringSize] at *
  bv_omega

theorem length_take (some : r.length ≠ 0) : r.take.length + 1 = r.length := by
  simp only [Ring.length,Ring.take] at *
  bv_omega

theorem slot_apart (room : r.length < ringSize) (inside : i < r.length) :
    slot (r.tail + BitVec.ofNat 32 i) ≠ slot r.head := by
  intro same
  have equal : (r.tail + BitVec.ofNat 32 i).toNat % 64 = r.head.toNat % 64 := by
    rw [← slot_val,← slot_val,same]
  simp only [Ring.length,ringSize] at *
  bv_omega

theorem queue_put (room : r.length < ringSize) (item : α) : (r.put item).queue = r.queue ++ [item] := by
  have last : r.tail + BitVec.ofNat 32 r.length = r.head := by
    simp only [Ring.length,BitVec.ofNat_toNat,BitVec.setWidth_eq]
    bv_omega
  rw [Ring.queue,length_put room,range_succ,map_append,map_singleton]
  congr 1
  · refine map_congr_left fun i member => ?_
    exact update_of_ne (slot_apart room (mem_range.mp member)) _ _
  · simp only [Ring.put,last,update_self]

theorem queue_take (some : r.length ≠ 0) : r.queue = r.slots (slot r.tail) :: r.take.queue := by
  rw [Ring.queue,← length_take some,range_succ_eq_map,map_cons,map_map]
  congr 1
  · simp
  · refine map_congr_left fun i _ => ?_
    have next : r.tail + BitVec.ofNat 32 (i + 1) = r.tail + 1 + BitVec.ofNat 32 i := by bv_omega
    simp [Ring.take,next]

theorem perform_put (r : Ring α) (item : α) : perform tring (.put item) r =
    if r.length < ringSize then (r.put item,⟨0,none,true⟩) else (r,⟨-1,none,false⟩) := by
  by_cases room : r.length < ringSize
  · simp [perform,exec,tring,tringSubmit,ringPut,locals,room,Ring.put]
  · simp [perform,exec,tring,tringSubmit,ringPut,locals,room]

theorem length_eq_zero (r : Ring α) : r.length = 0 ↔ r.tail = r.head := by
  simp only [Ring.length]
  bv_omega

theorem perform_take (r : Ring α) : perform tring .take r =
    if r.length ≠ 0 then (r.take,⟨1,some (r.slots (slot r.tail)),true⟩) else (r,⟨0,none,false⟩) := by
  by_cases empty : r.tail = r.head
  · have zero := (length_eq_zero r).mpr empty
    simp [perform,exec,tring,tringConsume,ringTake,locals,empty,zero]
  · have some := mt (length_eq_zero r).mp empty
    simp [perform,exec,tring,tringConsume,ringTake,locals,empty,some,Ring.take]

end Contents

section Refinement

variable {ι : Type v}

def Refines (log : List (ι × Op α × Locals α)) (r : Ring α) : Prop :=
  Obeys ringSize (log.map event) ∧ entered (log.map event) = left (log.map event) ++ r.queue ∧ r.length ≤ ringSize

theorem Refines.perform {r : Ring α} (refines : Refines log r) (p : ι)
    (op : Op α) : Refines (log ++ [(p,op,(perform tring op r).2)]) (perform tring op r).1 := by
  obtain ⟨obeys,queued,fits⟩ := refines
  have bounded : r.queue.length ≤ ringSize := by rwa [length_queue]
  have snoc {event' : Event α} (answered : Answers ringSize r.queue event') :=
    obeys.snoc queued bounded answered
  unfold Refines
  rw [map_append,map_singleton,entered_snoc,left_snoc,queued]
  cases op with
  | put item =>
    rw [perform_put]
    by_cases room : r.length < ringSize
    · rw [if_pos room]
      refine ⟨snoc ?_,?_,?_⟩
      · simp only [event,Answers,length_queue]
        simp [Nat.ne_of_lt room]
      · simp [event,Event.entered,Event.left,queue_put room]
      · have := length_put room item
        simp only
        omega
    · rw [if_neg room]
      have full : r.length = ringSize := by omega
      refine ⟨snoc ?_,?_,fits⟩
      · simp [event,Answers,length_queue,full]
      · simp [event,Event.entered,Event.left]
  | take =>
    rw [perform_take]
    by_cases empty : r.length = 0
    · rw [if_neg (by simpa using empty)]
      have none : r.queue = [] := eq_nil_of_length_eq_zero (by rw [length_queue,empty])
      refine ⟨snoc ?_,?_,fits⟩
      · simp [event,Answers,none]
      · simp [event,Event.entered,Event.left]
    · rw [if_pos empty]
      have first := queue_take empty
      refine ⟨snoc ?_,?_,?_⟩
      · simp [event,Answers,first]
      · simp [event,Event.entered,Event.left,first]
      · have := length_take empty
        simp only
        omega

theorem rring_eq_tring : (rring : Sections (Op α) (Ring α) (Locals α)) = tring := rfl

theorem run_refines [DecidableEq ι] (zero : α) {final : State ι (Op α) (Ring α) (Locals α)}
    (ran : run (step tring) labels { shared := { slots := fun _ => zero } } = some final) :
    ∃ r, Refines final.log r := by
  obtain ⟨r,serial,-⟩ := run_between labels ran
  refine ⟨r,serial.invariant Refines ⟨.nil,by simp [entered,left,Ring.queue,Ring.length],by simp [Ring.length]⟩ ?_⟩
  exact fun _ _ p op refines => refines.perform p op

/-- However producers and consumers are interleaved, both rings are bounded queues: what was consumed is what was
submitted, once and in that order; a submission fails just when the ring is full, a consumption when it is empty. -/
theorem rings_are_bounded_queues [DecidableEq ι] (zero : α) (labels : List (Label ι (Op α)))
    (final : State ι (Op α) (Ring α) (Locals α))
    (ran : Transition.run (step tring) labels { shared := { slots := fun _ => zero } } = some final ∨
      Transition.run (step rring) labels { shared := { slots := fun _ => zero } } = some final) :
    Obeys ringSize (history final) ∧
      ∃ queue, entered (history final) = left (history final) ++ queue ∧ queue.length ≤ ringSize := by
  rw [rring_eq_tring,or_self] at ran
  obtain ⟨r,obeys,queued,fits⟩ := run_refines zero ran
  exact ⟨obeys,r.queue,queued,by rwa [length_queue]⟩

/-- One process submits three items while another consumes two. -/
def handover : List (Label Bool (Op Nat)) :=
  [(false,.put 7),(false,.put 8),(true,.take),(false,.put 9),(true,.take)].flatMap fun turn =>
    .lock turn.1 turn.2 :: List.replicate 4 (.advance turn.1) ++ [.unlock turn.1]

theorem handover_queue : ∃ final,
    Transition.run (step tring) handover { shared := { slots := fun _ => 0 } } = some final ∧
    history final = [.put 7 true,.put 8 true,.take (some 7),.put 9 true,.take (some 8)] ∧
    Obeys ringSize (history final) ∧ ∃ queue, [7,8,9] = [7,8] ++ queue ∧ queue.length ≤ ringSize := by
  refine ⟨_,rfl,by decide,?_⟩
  exact rings_are_bounded_queues 0 handover _ (.inl rfl)

end Refinement

end Objective9c.Rings
