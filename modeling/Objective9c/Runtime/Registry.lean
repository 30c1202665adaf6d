import Mathlib.Data.List.Nodup
import Objective9c.Lib.Transition

/-! The registry process: one table of live handles that serves register, lookup and unregister requests one
at a time. A registration takes the generation of the slot it lands in and raises it by one, so what an id
is given depends on which slot it has. The log records the generations handed out; the program has none.
An id is the text in the 64 byte field of the handle, and a generation the bits of a `vlong`. -/
namespace Objective9c.Registry

open Transition Option

section Model

/-- `O9Handle`; channel and address are there or nil. -/
structure Handle where
  oid : List UInt8
  cls : List UInt8 := []
  chan : Option Nat
  addr : Option Nat := none
  gen : Nat := 0
deriving DecidableEq

inductive Request where
  | register (h : Handle)
  | lookup (oid : List UInt8)
  | unregister (oid : List UInt8)
deriving DecidableEq

/-- The slots of `o9_reg_tab` in use, and every pair of id and generation that was handed out. -/
structure State where
  tab : List Handle := []
  log : List (List UInt8 × Nat) := []
deriving DecidableEq

def capacity : Nat := 256

def find (tab : List Handle) (oid : List UInt8) : Option Nat := tab.findIdx? fun e => decide (e.oid = oid)

/-- The first slot without a channel. The loop looks for it among the slots before the one of the id, but it
is used only when the id has none. -/
def freeSlot (tab : List Handle) : Option Nat := tab.findIdx? fun e => e.chan.isNone

def slotFor (tab : List Handle) (oid : List UInt8) : Option Nat :=
  match find tab oid with
  | some i => some i
  | none => if tab.length < capacity then some tab.length else freeSlot tab

def oldGen (tab : List Handle) (i : Nat) : Nat := (tab[i]?.map Handle.gen).getD 0

def put (tab : List Handle) (i : Nat) (h : Handle) : List Handle :=
  if i < tab.length then tab.set i h else tab ++ [h]

/-- One turn of `o9_registry_proc` and the handle in its reply. -/
def serve (r : Request) (s : State) : State × Option Handle :=
  match r with
  | .register h => match slotFor s.tab h.oid with
    | none => (s,none)
    | some i =>
      let new := { h with gen := (oldGen s.tab i + 1) % 2 ^ 64 }
      (⟨put s.tab i new,s.log ++ [(h.oid,new.gen)]⟩,some new)
  | .lookup oid => match find s.tab oid with
    | none => (s,none)
    | some i => (s,s.tab[i]?.filter (·.chan.isSome))
  | .unregister oid => match find s.tab oid with
    | none => (s,none)
    | some i => (⟨s.tab.modify i ({ · with cls := [], chan := none, addr := none }),s.log⟩,none)

/-- A request as the client functions send it: `o9_registry_register` refuses the empty id. -/
def step (r : Request) (s : State) : Option State :=
  match r with
  | .register h => if h.oid = [] then some s else some (serve r s).1
  | _ => some (serve r s).1

/-- The test that `obj9_msgSendN` makes on a handle before it sends. -/
def senderAccepts (s : State) (oid : List UInt8) (gen : Nat) (chan : Option Nat) : Bool :=
  if oid ≠ [] ∧ gen ≠ 0 then
    match (serve (.lookup oid) s).2 with
    | some h => h.gen == gen && h.chan == chan
    | none => false
  else true

/-- No id was given one generation twice, and a handle from before the last registration of its id is
rejected, whatever its channel. -/
structure NeverRepeats (s : State) : Prop where
  distinct : s.log.Nodup
  stale : s.log = before ++ (oid,gen) :: after → oid ∈ after.map Prod.fst → senderAccepts s oid gen chan = false

end Model

section Slots

variable {s : State} {h : Handle} {oid : List UInt8} {i : Nat}

/-- The ids in the table with their current generations. -/
def held (tab : List Handle) : List (List UInt8 × Nat) := tab.map fun e => (e.oid,e.gen)

theorem find_some (found : find tab oid = some i) : ∃ e, tab[i]? = some e ∧ e.oid = oid := by
  obtain ⟨inside,same,_⟩ := List.findIdx?_eq_some_iff_getElem.mp found
  exact ⟨tab[i],List.getElem?_eq_getElem inside,by simpa using same⟩

theorem find_none : find tab oid = none ↔ oid ∉ (held tab).map Prod.fst := by
  simp [find,held,List.findIdx?_eq_none_iff]

theorem held_put (tab : List Handle) (i : Nat) (h : Handle) :
    held (put tab i h) = if i < tab.length then (held tab).set i (h.oid,h.gen) else held tab ++ [(h.oid,h.gen)] := by
  unfold put held
  split <;> simp

/-- What a registration does to the ids in the table: the id gets a generation above the one it had there,
and no other id gains or changes one. -/
structure Registers (old new : List (List UInt8 × Nat)) (oid : List UInt8) (gen : Nat) : Prop where
  higher : ∀ g, (oid,g) ∈ old → g < gen
  others : ∀ q ∈ new, q = (oid,gen) ∨ q ∈ old ∧ q.1 ≠ oid
  distinct : (new.map Prod.fst).Nodup
  grows : old.length ≤ new.length
  covers : new.length < capacity → ∀ o, o = oid ∨ o ∈ old.map Prod.fst → o ∈ new.map Prod.fst

variable (distinct : ((held s.tab).map Prod.fst).Nodup)
include distinct

theorem registers_again (found : find s.tab oid = some i) :
    Registers (held s.tab) ((held s.tab).set i (oid,oldGen s.tab i + 1)) oid (oldGen s.tab i + 1) := by
  obtain ⟨e,at_,rfl⟩ := find_some found
  have here : (held s.tab)[i]? = some (e.oid,e.gen) := by simp [held,at_]
  obtain ⟨inside,eq⟩ := List.getElem?_eq_some_iff.mp here
  have only : ∀ q ∈ held s.tab, q.1 = e.oid → q = (e.oid,e.gen) := by
    intro q member same
    exact List.inj_on_of_nodup_map distinct member (eq ▸ List.getElem_mem inside) same
  have unchanged : ((held s.tab).set i (e.oid,oldGen s.tab i + 1)).map Prod.fst = (held s.tab).map Prod.fst := by
    rw [List.map_set]
    apply List.ext_getElem (by simp)
    intro j _ bound
    by_cases same : i = j
    · subst same
      simp [eq]
    · rw [List.getElem_set_ne same]
  refine ⟨?_,?_,?_,by simp,?_⟩
  · intro g member
    have same := only _ member rfl
    simp only [Prod.mk.injEq,true_and] at same
    simp [oldGen,at_,same]
  · intro q member
    obtain ⟨j,bound,is⟩ := List.mem_iff_getElem.mp member
    by_cases same : i = j
    · subst same
      left
      rw [← is,List.getElem_set_self]
    · right
      rw [List.getElem_set_ne same] at is
      rw [List.length_set] at bound
      have old : q ∈ held s.tab := is ▸ List.getElem_mem bound
      refine ⟨old,fun eqOid => same ?_⟩
      have equal := only q old eqOid
      rw [← eq,← is] at equal
      exact ((List.Nodup.of_map _ distinct).getElem_inj_iff.mp equal).symm
  · rwa [unchanged]
  · rintro - o (rfl | old)
    · rw [unchanged]
      exact List.mem_map.mpr ⟨_,eq ▸ List.getElem_mem inside,rfl⟩
    · rwa [unchanged]

theorem registers_new (absent : oid ∉ (held s.tab).map Prod.fst)
    (gen : Nat) : Registers (held s.tab) (held s.tab ++ [(oid,gen)]) oid gen := by
  refine ⟨?_,?_,?_,by simp,?_⟩
  · intro g member
    exact absurd (List.mem_map_of_mem member) absent
  · intro q member
    obtain old | rfl : q ∈ held s.tab ∨ q = (oid,gen) := by simpa using member
    · exact .inr ⟨old,fun eq => absent (eq ▸ List.mem_map_of_mem old)⟩
    · exact .inl rfl
  · rw [List.map_append,List.map_singleton,List.nodup_append_comm]
    exact List.nodup_cons.mpr ⟨absent,distinct⟩
  · rintro - o (rfl | old)
    · simp
    · simp only [List.map_append,List.mem_append]
      exact .inl old

theorem registers_taken
    (absent : oid ∉ (held s.tab).map Prod.fst) (full : ¬s.tab.length < capacity) (gen : Nat) (i : Nat) :
    Registers (held s.tab) ((held s.tab).set i (oid,gen)) oid gen := by
  refine ⟨?_,?_,?_,by simp,?_⟩
  · intro g member
    exact absurd (List.mem_map_of_mem member) absent
  · intro q member
    obtain old | rfl := List.mem_or_eq_of_mem_set member
    · exact .inr ⟨old,fun eq => absent (eq ▸ List.mem_map_of_mem old)⟩
    · exact .inl rfl
  · rw [List.map_set]
    exact distinct.set absent
  · intro room
    rw [List.length_set,held,List.length_map] at room
    exact absurd room full

omit distinct

/-- An id that is not in a full table takes a slot whose generation is no lower than any the id had, and no
generation is at the end of its range. -/
def RunsOn (r : Request) (s : State) : Prop :=
  match r with
  | .register h => (∀ i, find s.tab h.oid = none → ¬s.tab.length < capacity → freeSlot s.tab = some i →
      ∀ g, (h.oid,g) ∈ s.log → g ≤ oldGen s.tab i) ∧ ∀ e ∈ s.tab, e.gen + 1 < 2 ^ 64
  | _ => True

theorem oldGen_lt (bounded : ∀ e ∈ s.tab, e.gen + 1 < 2 ^ 64) : oldGen s.tab i + 1 < 2 ^ 64 := by
  unfold oldGen
  cases found : s.tab[i]? with
  | none => simp
  | some e => exact bounded e (List.mem_of_getElem? found)

theorem freeSlot_lt (free : freeSlot s.tab = some i) : i < s.tab.length :=
  (List.findIdx?_eq_some_iff_getElem.mp free).1

theorem registers_serve (distinct : ((held s.tab).map Prod.fst).Nodup)
    (bounded : ∀ e ∈ s.tab, e.gen + 1 < 2 ^ 64) (slot : slotFor s.tab h.oid = some i) :
    Registers (held s.tab) (held (serve (.register h) s).1.tab) h.oid (oldGen s.tab i + 1) ∧
      (serve (.register h) s).1.log = s.log ++ [(h.oid,oldGen s.tab i + 1)] := by
  have fits := Nat.mod_eq_of_lt (oldGen_lt (i := i) bounded)
  simp only [serve,slot,fits,held_put,and_true]
  unfold slotFor at slot
  cases found : find s.tab h.oid with
  | some j =>
    obtain rfl : j = i := by simpa [found] using slot
    obtain ⟨e,at_,-⟩ := find_some found
    rw [if_pos (List.getElem?_eq_some_iff.mp at_).1]
    exact registers_again distinct found
  | none =>
    have absent := find_none.mp found
    rw [found] at slot
    by_cases room : s.tab.length < capacity
    · obtain rfl : s.tab.length = i := by simpa [room] using slot
      rw [if_neg (Nat.lt_irrefl _)]
      exact registers_new distinct absent _
    · have free : freeSlot s.tab = some i := by simpa [room] using slot
      rw [if_pos (freeSlot_lt free)]
      exact registers_taken distinct absent room _ i

end Slots

section Runs

variable {s : State} {h : Handle} {oid : List UInt8} {gen : Nat}

/-- Each id in the table has its last and highest generation there, and as long as the table has room no
registered id is missing from it. -/
structure Sound (s : State) : Prop where
  ids : ((held s.tab).map Prod.fst).Nodup
  latest : ∀ p ∈ held s.tab, ∃ before after, s.log = before ++ p :: after ∧ p.1 ∉ after.map Prod.fst
  highest : ∀ p ∈ held s.tab, ∀ g, (p.1,g) ∈ s.log → g ≤ p.2
  present : s.tab.length < capacity → ∀ p ∈ s.log, p.1 ∈ (held s.tab).map Prod.fst
  named : ∀ p ∈ s.log, p.1 ≠ [] ∧ p.2 ≠ 0
  distinct : s.log.Nodup

theorem sound_init : Sound {} where
  ids := by simp [held]
  latest := by simp [held]
  highest := by simp [held]
  present := by simp
  named := by simp
  distinct := by simp

theorem Sound.registered (sound : Sound s)
    (registers : Registers (held s.tab) (held next.tab) oid gen) (logged : next.log = s.log ++ [(oid,gen)])
    (higher : ∀ g, (oid,g) ∈ s.log → g < gen) (named : oid ≠ []) (positive : gen ≠ 0) : Sound next where
  ids := registers.distinct
  latest p member := by
    rw [logged]
    obtain rfl | ⟨old,other⟩ := registers.others p member
    · exact ⟨s.log,[],rfl,by simp⟩
    · obtain ⟨before,after,split,absent⟩ := sound.latest p old
      exact ⟨before,after ++ [(oid,gen)],by simp [split],by simpa [other] using absent⟩
  highest p member g inLog := by
    rw [logged,List.mem_append,List.mem_singleton] at inLog
    obtain rfl | ⟨old,other⟩ := registers.others p member
    · obtain before | same := inLog
      · exact Nat.le_of_lt (higher g before)
      · simp_all
    · obtain before | same := inLog
      · exact sound.highest p old g before
      · exact absurd (congrArg Prod.fst same) other
  present room p inLog := by
    rw [logged,List.mem_append,List.mem_singleton] at inLog
    have room' : (held next.tab).length < capacity := by simpa [held] using room
    have earlier : s.tab.length < capacity := by
      have grows := registers.grows
      simp only [held,List.length_map] at grows
      exact Nat.lt_of_le_of_lt grows room
    obtain before | rfl := inLog
    · exact registers.covers room' p.1 (.inr (sound.present earlier p before))
    · exact registers.covers room' oid (.inl rfl)
  named p inLog := by
    rw [logged,List.mem_append,List.mem_singleton] at inLog
    obtain before | rfl := inLog
    · exact sound.named p before
    · exact ⟨named,positive⟩
  distinct := by
    rw [logged,List.nodup_append_comm]
    exact List.nodup_cons.mpr ⟨fun again => Nat.lt_irrefl gen (higher gen again),sound.distinct⟩

theorem Sound.register (sound : Sound s) (runsOn : RunsOn (.register h) s) (named : h.oid ≠ []) :
    Sound (serve (.register h) s).1 := by
  obtain ⟨takes,bounded⟩ := runsOn
  cases slot : slotFor s.tab h.oid with
  | none => simpa [serve,slot] using sound
  | some i =>
    obtain ⟨registers,logged⟩ := registers_serve sound.ids bounded slot
    refine sound.registered registers logged ?_ named (Nat.succ_ne_zero _)
    intro g inLog
    -- an id without a slot is new or the condition speaks of it; one with a slot has its highest there
    cases found : find s.tab h.oid with
    | some =>
      obtain ⟨e,at_,same⟩ := find_some found
      have member : (h.oid,e.gen) ∈ held s.tab :=
        List.mem_map.mpr ⟨e,List.mem_of_getElem? at_,by rw [same]⟩
      exact Nat.lt_of_le_of_lt (sound.highest _ member g inLog) (registers.higher _ member)
    | none =>
      by_cases room : s.tab.length < capacity
      · exact absurd (sound.present room _ inLog) (find_none.mp found)
      · have free : freeSlot s.tab = some i := by simpa [slotFor,found,room] using slot
        exact Nat.lt_succ_of_le (takes i found room free g inLog)

theorem Sound.unregister (sound : Sound s) : Sound (serve (.unregister oid) s).1 := by
  cases found : find s.tab oid with
  | none => simpa [serve,found] using sound
  | some =>
    have same : held (serve (.unregister oid) s).1.tab = held s.tab := by
      simp only [serve,found,held]
      apply List.ext_getElem (by simp)
      intro j _ _
      simp only [List.getElem_map,List.getElem_modify]
      split <;> rfl
    have length : (serve (.unregister oid) s).1.tab.length = s.tab.length := by simp [serve,found]
    have log : (serve (.unregister oid) s).1.log = s.log := by simp [serve,found]
    constructor
    · rw [same]
      exact sound.ids
    · rw [same,log]
      exact sound.latest
    · rw [same,log]
      exact sound.highest
    · rw [same,log,length]
      exact sound.present
    · rw [log]
      exact sound.named
    · rw [log]
      exact sound.distinct

theorem Sound.step (sound : Sound s) (runsOn : RunsOn r s) (stepped : step r s = some next) : Sound next := by
  cases r with
  | register h =>
    by_cases empty : h.oid = []
    · obtain rfl : s = next := by simpa [Registry.step,empty] using stepped
      exact sound
    · obtain rfl : (serve (.register h) s).1 = next := by simpa [Registry.step,empty] using stepped
      exact sound.register runsOn empty
  | lookup oid =>
    obtain rfl : s = next := by
      cases found : find s.tab oid <;> simpa [Registry.step,serve,found] using stepped
    exact sound
  | unregister oid =>
    obtain rfl : (serve (.unregister oid) s).1 = next := by simpa [Registry.step] using stepped
    exact sound.unregister

theorem lookup_held (answered : (serve (.lookup oid) s).2 = some h) : (oid,h.gen) ∈ held s.tab := by
  cases found : find s.tab oid with
  | none => simp [serve,found] at answered
  | some =>
    obtain ⟨e,at_,same⟩ := find_some found
    simp only [serve,found,at_,filter_some,ite_none_right_eq_some] at answered
    obtain rfl := some.inj answered.2
    exact List.mem_map.mpr ⟨e,List.mem_of_getElem? at_,by rw [same]⟩

theorem Sound.neverRepeats (sound : Sound s) : NeverRepeats s where
  distinct := sound.distinct
  stale := by
    intro before oid gen after chan split replaced
    have inLog : (oid,gen) ∈ s.log := by simp [split]
    obtain ⟨named,positive⟩ := sound.named _ inLog
    unfold senderAccepts
    rw [if_pos ⟨named,positive⟩]
    cases answered : (serve (.lookup oid) s).2 with
    | none => rfl
    | some h =>
      have other : h.gen ≠ gen := by
        rintro rfl
        obtain ⟨before',after',split',last⟩ := sound.latest _ (lookup_held answered)
        have distinct := sound.distinct
        rw [split] at distinct split'
        obtain ⟨once,-⟩ := List.nodup_cons.mp (List.nodup_middle.mp distinct)
        rw [List.mem_append,not_or] at once
        obtain ⟨-,-,rfl⟩ := (List.append_cons_inj_of_notMem once.1 once.2).mp split'
        exact last replaced
      simp [other]

/-- Generations stay distinct, and stale handles rejected, as long as no id comes back to a full table in a
slot that is behind its own last generation. -/
theorem generations_distinct (requests : List Request) (meets : Meets step RunsOn requests {})
    (ran : run step requests {} = some final) : NeverRepeats final := by
  have sound : Sound final := run_invariant_of_meets Sound
    (fun r s next sound runsOn stepped => sound.step runsOn stepped) requests {} final meets sound_init ran
  exact sound.neverRepeats

def room (_ : Request) (s : State) : Bool :=
  decide (s.tab.length < capacity) && s.tab.all fun e => decide (e.gen + 1 < 2 ^ 64)

theorem runsOn_of_room (r : Request) (s : State) (checked : room r s = true) : RunsOn r s := by
  simp only [room,Bool.and_eq_true,decide_eq_true_eq,List.all_eq_true] at checked
  cases r with
  | register => exact ⟨fun i _ full => absurd checked.1 full,checked.2⟩
  | lookup => trivial
  | unregister => trivial

def replacedOnce : List Request :=
  [.register { oid := [65], chan := some 1 },.unregister [65],.register { oid := [65], chan := some 1 }]

theorem replaced_once_distinct : ∃ final, run step replacedOnce {} = some final ∧ NeverRepeats final := by
  refine ⟨_,rfl,?_⟩
  apply generations_distinct replacedOnce
  · exact meets_of_checks runsOn_of_room replacedOnce {} (by decide)
  · rfl

theorem run_fill (handles : List Handle) (s : State) (fits : s.tab.length + handles.length ≤ capacity)
    (named : ∀ h ∈ handles, h.oid ≠ []) (new : (s.tab.map Handle.oid ++ handles.map Handle.oid).Nodup) :
    run step (handles.map Request.register) s = some
      ⟨s.tab ++ handles.map ({ · with gen := 1 }),s.log ++ handles.map fun h => (h.oid,1)⟩ := by
  induction handles generalizing s with
  | nil => simp
  | cons h rest ih =>
    simp only [List.length_cons] at fits
    have absent : find s.tab h.oid = none := by
      rw [find_none]
      rw [List.map_cons,List.nodup_middle,List.nodup_cons,List.mem_append,not_or] at new
      simpa [held] using new.1.1
    have here : step (.register h) s = some ⟨s.tab ++ [{ h with gen := 1 }],s.log ++ [(h.oid,1)]⟩ := by
      have room : s.tab.length < capacity := by omega
      simp [Registry.step,serve,slotFor,absent,room,oldGen,put,named h]
    rw [List.map_cons,run,here,bind_some,ih]
    · simp
    · simp only [List.length_append,List.length_cons,List.length_nil]
      omega
    · exact fun later member => named later (List.mem_cons_of_mem h member)
    · simpa using new

/-- Two letters for the number `i`. -/
def letters (i : Nat) : List UInt8 := [UInt8.ofNat (97 + i / 16),UInt8.ofNat (97 + i % 16)]

def filling : List Handle := (List.range 256).map fun i => { oid := letters i, chan := some i }

theorem filling_nodup : (filling.map Handle.oid).Nodup := by
  rw [filling,List.map_map]
  refine List.Nodup.map_on ?_ List.nodup_range
  intro i small j small' same
  rw [List.mem_range] at small small'
  simp only [Function.comp_apply,letters,List.cons.injEq,and_true,← UInt8.toNat_inj,UInt8.toNat_ofNat'] at same
  omega

/-- In a full table an id takes slot 0, leaves it to another, and comes back in slot 1. -/
def movesBehind : List Request :=
  [.unregister (letters 0),.register { oid := [66], chan := some 300 },.unregister [66],
    .register { oid := [67], chan := some 301 },.unregister (letters 1),.register { oid := [66], chan := some 300 }]

/-- The id gets generation 2 in either slot, and the channel may be the same address again. -/
theorem moved_id_repeats : ¬∀ requests final, run step requests {} = some final → NeverRepeats final := by
  intro always
  let full : State := ⟨filling.map ({ · with gen := 1 }),filling.map fun h => (h.oid,1)⟩
  have filled : run step (filling.map .register) {} = some full := by
    have named : ∀ h ∈ filling, h.oid ≠ [] := by simp [filling,letters]
    simpa [full] using run_fill filling {} (by simp [filling,capacity]) named (by simpa using filling_nodup)
  have twice : (run step movesBehind full).map (fun s => s.log.count ([66],2)) = some 2 := by decide +kernel
  cases ran : run step movesBehind full with
  | none => simp [ran] at twice
  | some final =>
    have reached : run step (filling.map .register ++ movesBehind) {} = some final := by
      rw [run_append,filled,bind_some,ran]
    have once := List.nodup_iff_count_le_one.mp (always _ _ reached).distinct ([66],2)
    simp only [ran,map_some,Option.some.injEq] at twice
    omega

end Runs

end Objective9c.Registry
