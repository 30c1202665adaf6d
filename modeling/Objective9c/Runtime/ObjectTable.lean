import Objective9c.Lib.Probing
import Objective9c.Lib.Transition

/-! The object table of the router. A handle packs an entry's index with its generation; the entries are
found by class and object id through a hash table with open addressing. The generation has 32 bits in the
entry and 16 in the handle. -/
namespace Objective9c.ObjectTable

open Transition Probing List Option Function

section Model

def maxObjects : Nat := 256

instance : NeZero maxObjects := ⟨by decide⟩

structure Entry where
  gen : Nat := 0
  active : Bool := false
  cls : List UInt8 := []
  oid : List UInt8 := []
  inst : Option Nat := none
  chan : Option Nat := none
  mb : Option Nat := none
deriving DecidableEq

/-- `o9_objtab`. Its first use by a registration sets all cells to -1 before they are read; -1 is an empty cell
and -2 one whose entry is gone. -/
structure Table where
  entries : Fin maxObjects → Entry := fun _ => {}
  cells : Fin maxObjects → Cell (Fin maxObjects) := fun _ => .empty

def o9Hash (text : List UInt8) : Nat := text.foldl (fun hash c => ((hash <<< 5) + hash) + c.toNat) 5381 % 2 ^ 32

def probes (cls oid : List UInt8) : List (Fin maxObjects) :=
  (List.finRange maxObjects).map fun step =>
    ⟨(((o9Hash cls ^^^ o9Hash oid) &&& (maxObjects - 1)) + step) &&& (maxObjects - 1),
      Nat.lt_of_le_of_lt Nat.and_le_right (by decide)⟩

def named (t : Table) (cls oid : List UInt8) (i : Fin maxObjects) : Bool :=
  (t.entries i).active && (t.entries i).cls == cls && (t.entries i).oid == oid

/-- The loop of `o9_objtab_register`: the entry of that name, or the first cell it can be hung in. -/
def registerLoop (t : Table) (cls oid : List UInt8) (freeSlot : Option (Fin maxObjects)) :
    List (Fin maxObjects) → Option (Fin maxObjects) × Option (Fin maxObjects)
  | [] => (none,freeSlot)
  | slot :: rest => match t.cells slot with
    | .empty => (none,freeSlot.or (some slot))
    | .gone => registerLoop t cls oid (freeSlot.or (some slot)) rest
    | .holds i => if named t cls oid i then (some i,freeSlot) else registerLoop t cls oid freeSlot rest

def freeEntry (t : Table) : Option (Fin maxObjects) :=
  (List.finRange maxObjects).find? fun i => !(t.entries i).active

def handle (gen : Nat) (i : Fin maxObjects) : Nat := (gen <<< 16) % 2 ^ 32 ||| (i.val &&& 0xFFFF)

def nextGen (gen : Nat) : Nat := if (gen + 1) % 2 ^ 32 = 0 then 1 else (gen + 1) % 2 ^ 32

/-- `strncpy` into a 64 byte field and the end mark after it. -/
def copied (text : List UInt8) : List UInt8 := text.take 63

def register (cls oid : List UInt8) (inst chan : Option Nat) (t : Table) : Table × Nat :=
  match registerLoop t cls oid none (probes cls oid) with
  | (some i,_) =>
    let e := t.entries i
    ({ t with entries := Function.update t.entries i { e with inst := inst.or e.inst, chan := chan.or e.chan } },
      handle e.gen i)
  | (none,none) => (t,0)
  | (none,some slot) => match freeEntry t with
    | none => (t,0)
    | some i =>
      let gen := nextGen (t.entries i).gen
      (⟨Function.update t.entries i
          { gen, active := true, cls := copied cls, oid := copied oid, inst, chan, mb := none },
        Function.update t.cells slot (.holds i)⟩,handle gen i)

def resolve (t : Table) (h : Nat) : Option Entry :=
  if h = 0 then none
  else if inside : h &&& 0xFFFF < maxObjects then
    let e := t.entries ⟨h &&& 0xFFFF,inside⟩
    if e.active ∧ e.gen = h >>> 16 then some e else none
  else none

def unregister (cls oid : List UInt8) (t : Table) : Table :=
  match find t.cells (named t cls oid) (probes cls oid) with
  | none => t
  | some (slot,i) =>
    let e := t.entries i
    ⟨Function.update t.entries i
        { e with active := false, gen := (e.gen + 1) % 2 ^ 32, chan := none, inst := none, mb := none },
      Function.update t.cells slot .gone⟩

inductive Request where
  | register (cls oid : List UInt8) (inst chan : Option Nat)
  | unregister (cls oid : List UInt8)
deriving DecidableEq

/-- The names of the request fit the fields of an entry. -/
@[simp] def Request.Short : Request → Prop
  | .register cls oid _ _ | .unregister cls oid => cls.length < 64 ∧ oid.length < 64

def step (r : Request) (t : Table) : Option Table :=
  match r with
  | .register cls oid inst chan => some (register cls oid inst chan t).1
  | .unregister cls oid => some (unregister cls oid t)

end Model

section Search

variable {t : Table} {cls oid : List UInt8}

theorem registerLoop_fst (t : Table) (cls oid : List UInt8) (freeSlot : Option (Fin maxObjects)) (walk : List (Fin maxObjects)) :
    (registerLoop t cls oid freeSlot walk).1 = (find t.cells (named t cls oid) walk).map Prod.snd := by
  induction walk generalizing freeSlot with
  | nil => rfl
  | cons slot rest ih =>
    unfold registerLoop find
    cases t.cells slot with
    | empty => rfl
    | gone => exact ih _
    | holds i => cases matched : named t cls oid i <;> simp [matched,ih]

theorem registerLoop_snd (t : Table) (cls oid : List UInt8) (freeSlot : Option (Fin maxObjects)) (walk : List (Fin maxObjects))
    (absent : (registerLoop t cls oid freeSlot walk).1 = none) :
    (registerLoop t cls oid freeSlot walk).2 = freeSlot.or (free t.cells walk) := by
  induction walk generalizing freeSlot with
  | nil => simp [registerLoop,free]
  | cons slot rest ih =>
    unfold registerLoop at absent ⊢
    unfold free
    cases content : t.cells slot with
    | empty => rfl
    | gone =>
      simp only [content] at absent ⊢
      rw [ih _ absent]
      cases freeSlot <;> simp
    | holds i =>
      cases matched : named t cls oid i with
      | false =>
        simp only [content,matched,Bool.false_eq_true,if_false] at absent ⊢
        exact ih _ absent
      | true => simp [content,matched] at absent

theorem named_iff : named t cls oid i = true ↔
    (t.entries i).active = true ∧ (t.entries i).cls = cls ∧ (t.entries i).oid = oid := by
  simp [named,and_assoc]

theorem freeEntry_some (free : freeEntry t = some i) : (t.entries i).active = false := by
  simpa using find?_some free

/-- What a registration does: the name is known and its entry is refreshed, or it gets a free cell and a free
entry, or there is none and the table stays. -/
inductive Registered (t : Table) (cls oid : List UInt8) (inst chan : Option Nat) : Table × Nat → Prop
  | known (found : find t.cells (named t cls oid) (probes cls oid) = some (slot,i))
      (new : e = { t.entries i with inst := inst.or (t.entries i).inst, chan := chan.or (t.entries i).chan }) :
      Registered t cls oid inst chan ({ t with entries := Function.update t.entries i e },handle e.gen i)
  | fresh (absent : find t.cells (named t cls oid) (probes cls oid) = none)
      (room : free t.cells (probes cls oid) = some slot) (entry : freeEntry t = some i)
      (new : e =
        { gen := nextGen (t.entries i).gen, active := true, cls := copied cls, oid := copied oid, inst, chan }) :
      Registered t cls oid inst chan
        (⟨Function.update t.entries i e,Function.update t.cells slot (.holds i)⟩,handle e.gen i)
  | full : Registered t cls oid inst chan (t,0)

theorem registered (t : Table) (cls oid : List UInt8) (inst chan : Option Nat) :
    Registered t cls oid inst chan (register cls oid inst chan t) := by
  have fst := registerLoop_fst t cls oid none (probes cls oid)
  have snd := registerLoop_snd t cls oid none (probes cls oid)
  unfold register
  cases loop : registerLoop t cls oid none (probes cls oid) with
  | mk hit room =>
    rw [loop] at fst snd
    cases hit with
    | some =>
      obtain ⟨⟨slot,j⟩,found,rfl⟩ := map_eq_some_iff.mp fst.symm
      exact .known found rfl
    | none =>
      have absent := map_eq_none_iff.mp fst.symm
      cases room with
      | none => exact .full
      | some slot =>
        have room : free t.cells (probes cls oid) = some slot := (snd rfl).symm
        cases entry : freeEntry t with
        | none =>
          exact .full
        | some =>
          exact .fresh absent room entry rfl

end Search

/-- What a request makes of an entry: it keeps its name and generation, or is taken, or given up. -/
inductive Becomes (t : Table) (r : Request) (i : Fin maxObjects) : Entry → Prop
  | kept : Becomes t r i { t.entries i with inst, chan }
  | taken (asked : r = .register cls oid inst chan)
      (absent : find t.cells (named t cls oid) (probes cls oid) = none) (entry : freeEntry t = some i) :
      Becomes t r i
        { gen := nextGen (t.entries i).gen, active := true, cls := copied cls, oid := copied oid, inst, chan }
  | left (asked : r = .unregister (t.entries i).cls (t.entries i).oid) (active : (t.entries i).active = true) :
      Becomes t r i { t.entries i with
        active := false, gen := ((t.entries i).gen + 1) % 2 ^ 32, chan := none, inst := none, mb := none }

theorem step_becomes (stepped : step r t = some t') (i : Fin maxObjects) : Becomes t r i (t'.entries i) := by
  cases r with
  | register cls oid inst chan =>
    cases stepped
    have made := registered t cls oid inst chan
    generalize register cls oid inst chan t = result at made
    cases made with
    | @known slot j e found new =>
      by_cases here : i = j
      · subst here new
        simp only [update_self]
        exact .kept
      · simp only [update_of_ne here]
        exact .kept
    | @fresh slot j e absent room entry new =>
      by_cases here : i = j
      · subst here new
        simp only [update_self]
        exact .taken rfl absent entry
      · simp only [update_of_ne here]
        exact .kept
    | full => exact .kept
  | unregister cls oid =>
    cases stepped
    unfold unregister
    cases found : find t.cells (named t cls oid) (probes cls oid) with
    | none => exact .kept
    | some hit =>
      by_cases here : i = hit.2
      · obtain ⟨active,rfl,rfl⟩ := named_iff.mp (find_some found).2
        subst here
        simp only [update_self]
        exact .left rfl active
      · simp only [update_of_ne here]
        exact .kept

section Invariant

variable {t : Table} {cls oid : List UInt8}

/-- A registration that takes an entry finds its generation below the last one that a handle can carry. -/
def RunsOn (r : Request) (t : Table) : Prop :=
  match r with
  | .register cls oid _ _ => find t.cells (named t cls oid) (probes cls oid) = none →
      ∀ i, freeEntry t = some i → (t.entries i).gen < 0xFFFF
  | .unregister _ _ => True

/-- The hash table finds each active entry under its name, and nothing else. -/
structure Indexed (t : Table) : Prop where
  chained : (t.entries i).active = true →
    ∃ slot, t.cells slot = .holds i ∧ Reaches t.cells (probes (t.entries i).cls (t.entries i).oid) slot
  owner : t.cells slot = .holds i → (t.entries i).active = true
  single : t.cells slot = .holds i → t.cells slot' = .holds i → slot = slot'
  unique : (t.entries i).active = true → named t (t.entries i).cls (t.entries i).oid j = true → i = j

structure Sound (t : Table) : Prop extends Indexed t where
  small : (t.entries i).gen ≤ 0x10000
  packs : (t.entries i).active = true → (t.entries i).gen ≤ 0xFFFF

theorem indexed_init : Indexed {} where
  chained := by simp
  owner := by simp
  single := by simp
  unique := by simp

theorem sound_init : Sound {} where
  toIndexed := indexed_init
  small := by simp
  packs := by simp

theorem Indexed.find_eq (indexed : Indexed t) (active : (t.entries i).active = true) :
    ∃ slot, find t.cells (named t (t.entries i).cls (t.entries i).oid)
      (probes (t.entries i).cls (t.entries i).oid) = some (slot,i) := by
  obtain ⟨slot,stored,reaches⟩ := indexed.chained active
  have matched : named t (t.entries i).cls (t.entries i).oid i = true := named_iff.mpr ⟨active,rfl,rfl⟩
  obtain ⟨⟨slot',j⟩,found⟩ := isSome_iff_exists.mp (find_isSome reaches stored matched)
  obtain rfl := indexed.unique active (find_some found).2
  exact ⟨slot',found⟩

section Entries

variable {e : Entry} {i : Fin maxObjects} {slot : Fin maxObjects}

theorem Indexed.refreshed (indexed : Indexed t) (active : e.active = (t.entries i).active)
    (cls : e.cls = (t.entries i).cls) (oid : e.oid = (t.entries i).oid) :
    Indexed { t with entries := update t.entries i e } := by
  have same (j : Fin maxObjects) : (update t.entries i e j).active = (t.entries j).active ∧
      (update t.entries i e j).cls = (t.entries j).cls ∧
      (update t.entries i e j).oid = (t.entries j).oid := by
    by_cases here : j = i
    · subst here
      simp [active,cls,oid]
    · simp [here]
  constructor
  · intro j
    obtain ⟨active,cls,oid⟩ := same j
    simpa only [active,cls,oid] using indexed.chained
  · intro slot j
    simpa only [(same j).1] using indexed.owner
  · exact indexed.single
  · intro j k
    obtain ⟨active,cls,oid⟩ := same j
    obtain ⟨active',cls',oid'⟩ := same k
    simpa only [named,active,cls,oid,active',cls',oid'] using indexed.unique

theorem Indexed.added (indexed : Indexed t) (absent : find t.cells (named t e.cls e.oid) (probes e.cls e.oid) = none)
    (room : free t.cells (probes e.cls e.oid) = some slot) (inactive : (t.entries i).active = false)
    (active : e.active = true) : Indexed ⟨update t.entries i e,update t.cells slot (.holds i)⟩ := by
  obtain ⟨reaches,vacant⟩ := free_some room
  have filled : (Cell.holds i) ≠ .empty := by simp
  have other {j : Fin maxObjects} (active : (t.entries j).active = true) : j ≠ i := by
    rintro rfl
    simp [inactive] at active
  -- no active entry has the name, or the search would have found it
  have new {j : Fin maxObjects} (matched : named t e.cls e.oid j = true) : False := by
    obtain ⟨activeJ,cls,oid⟩ := named_iff.mp matched
    obtain ⟨slot',found⟩ := indexed.find_eq activeJ
    rw [cls,oid,absent] at found
    cases found
  constructor
  · intro j activeJ
    by_cases here : j = i
    · subst here
      simp only [update_self] at *
      exact ⟨slot,by simp,reaches.update filled⟩
    · simp only [update_of_ne here] at *
      obtain ⟨slot',stored,reaches'⟩ := indexed.chained activeJ
      have apart : slot' ≠ slot := fun same => vacant j (same ▸ stored)
      exact ⟨slot',by simpa [apart] using stored,reaches'.update filled⟩
  · intro slot' j stored
    by_cases here : slot' = slot
    · subst here
      obtain rfl : i = j := by simpa using stored
      simpa using active
    · have old := indexed.owner (by simpa [here] using stored)
      simpa [other old] using old
  · intro slot₁ j slot₂ stored stored'
    by_cases here : slot₁ = slot <;> by_cases here' : slot₂ = slot
    · rw [here,here']
    · subst here
      obtain rfl : i = j := by simpa using stored
      exact absurd rfl (other (indexed.owner (by simpa [here'] using stored')))
    · subst here'
      obtain rfl : i = j := by simpa using stored'
      exact absurd rfl (other (indexed.owner (by simpa [here] using stored)))
    · exact indexed.single (by simpa [here] using stored) (by simpa [here'] using stored')
  · intro j k activeJ matched
    obtain ⟨activeK,cls,oid⟩ := named_iff.mp matched
    by_cases here : j = i <;> by_cases here' : k = i
    · rw [here,here']
    · subst here
      simp only [update_self,update_of_ne here'] at *
      exact (new (named_iff.mpr ⟨activeK,cls,oid⟩)).elim
    · subst here'
      simp only [update_self,update_of_ne here] at *
      exact (new (named_iff.mpr ⟨activeJ,cls.symm,oid.symm⟩)).elim
    · simp only [update_of_ne here,update_of_ne here'] at *
      exact indexed.unique activeJ (named_iff.mpr ⟨activeK,cls,oid⟩)

theorem Indexed.removed (indexed : Indexed t) (stored : t.cells slot = .holds i) (inactive : e.active = false) :
    Indexed ⟨update t.entries i e,update t.cells slot .gone⟩ := by
  have other {j : Fin maxObjects} (active : (update t.entries i e j).active = true) : j ≠ i := by
    rintro rfl
    simp [inactive] at active
  have elsewhere {slot' : Fin maxObjects} {j : Fin maxObjects}
      (stored' : update t.cells slot .gone slot' = .holds j) : slot' ≠ slot ∧ t.cells slot' = .holds j := by
    by_cases here : slot' = slot
    · subst here
      simp at stored'
    · exact ⟨here,by simpa [here] using stored'⟩
  constructor
  · intro j active
    have apart := other active
    simp only [update_of_ne apart] at *
    obtain ⟨slot',stored',reaches⟩ := indexed.chained active
    have moved : slot' ≠ slot := by
      rintro rfl
      exact apart (Cell.holds.inj (stored'.symm.trans stored))
    exact ⟨slot',by simpa [moved] using stored',reaches.update (by simp)⟩
  · intro slot' j stored'
    obtain ⟨apart,old⟩ := elsewhere stored'
    have different : j ≠ i := by
      rintro rfl
      exact apart (indexed.single old stored)
    simpa [different] using indexed.owner old
  · intro slot₁ j slot₂ stored₁ stored₂
    exact indexed.single (elsewhere stored₁).2 (elsewhere stored₂).2
  · intro j k active matched
    obtain ⟨activeK,cls,oid⟩ := named_iff.mp matched
    simp only [update_of_ne (other active),update_of_ne (other activeK)] at *
    exact indexed.unique active (named_iff.mpr ⟨activeK,cls,oid⟩)

end Entries

theorem copied_eq (short : text.length < 64) : copied text = text :=
  take_of_length_le (by omega)

theorem nextGen_eq (small : gen < 0xFFFF) : nextGen gen = gen + 1 := by
  have fits : (gen + 1) % 2 ^ 32 = gen + 1 := Nat.mod_eq_of_lt (by omega)
  rw [nextGen,fits,if_neg (by omega)]

theorem gen_bump (small : gen ≤ 0xFFFF) : (gen + 1) % 2 ^ 32 = gen + 1 := Nat.mod_eq_of_lt (by omega)

theorem Indexed.kept (indexed : Indexed t) (short : r.Short) (stepped : step r t = some t') : Indexed t' := by
  cases r with
  | register cls oid inst chan =>
    cases stepped
    have made := registered t cls oid inst chan
    generalize register cls oid inst chan t = result at made
    cases made with
    | known found new => exact indexed.refreshed (by rw [new]) (by rw [new]) (by rw [new])
    | fresh absent room entry new =>
      subst new
      simp only [copied_eq short.1,copied_eq short.2]
      exact indexed.added absent room (freeEntry_some entry) rfl
    | full => exact indexed
  | unregister cls oid =>
    cases stepped
    unfold unregister
    cases found : find t.cells (named t cls oid) (probes cls oid) with
    | none => exact indexed
    | some => exact indexed.removed (find_some found).1 rfl

theorem Sound.kept (sound : Sound t) (runsOn : RunsOn r t) (short : r.Short)
    (stepped : step r t = some t') : Sound t' := by
  have bounds (i : Fin maxObjects) : (t'.entries i).gen ≤ 0x10000 ∧
      ((t'.entries i).active = true → (t'.entries i).gen ≤ 0xFFFF) := by
    have becomes := step_becomes stepped i
    generalize t'.entries i = e at becomes ⊢
    cases becomes with
    | kept => exact ⟨sound.small,sound.packs⟩
    | taken asked absent entry =>
      subst asked
      have small := runsOn absent i entry
      simp only [nextGen_eq small]
      exact ⟨by omega,fun _ => small⟩
    | left _ active =>
      have small := sound.packs active
      simp only [gen_bump small]
      exact ⟨by omega,nofun⟩
  exact ⟨sound.toIndexed.kept short stepped,(bounds _).1,(bounds _).2⟩

end Invariant

section Handles

variable {t next : Table} {cls oid : List UInt8} {i : Fin maxObjects} {g : Nat}

structure Live (t : Table) (i : Fin maxObjects) (g : Nat) (cls oid : List UInt8) : Prop where
  active : (t.entries i).active = true
  gen : (t.entries i).gen = g
  cls : (t.entries i).cls = cls
  oid : (t.entries i).oid = oid

/-- The entry has gone past the generation. -/
def Dead (t : Table) (i : Fin maxObjects) (g : Nat) : Prop := g < (t.entries i).gen

theorem handle_eq (small : g ≤ 0xFFFF) (i : Fin maxObjects) : handle g i = g <<< 16 + i.val := by
  have bound : i.val < 256 := i.isLt
  have index : i.val &&& 0xFFFF = i.val := Nat.and_two_pow_sub_one_of_lt_two_pow (n := 16) (by omega)
  have fits : (g <<< 16) % 2 ^ 32 = g <<< 16 := by
    apply Nat.mod_eq_of_lt
    omega
  rw [handle,index,fits,Nat.shiftLeft_add_eq_or_of_lt (by omega)]

theorem resolve_handle (small : g ≤ 0xFFFF) (granted : handle g i ≠ 0) : resolve t (handle g i) =
    if (t.entries i).active = true ∧ (t.entries i).gen = g then some (t.entries i) else none := by
  have bound : i.val < 256 := i.isLt
  have index : handle g i &&& 0xFFFF = i.val := by
    rw [handle_eq small,Nat.shiftLeft_eq]
    exact (Nat.and_two_pow_sub_one_eq_mod _ 16).trans (by omega)
  have gen : handle g i >>> 16 = g := by
    rw [handle_eq small,Nat.shiftRight_eq_div_pow,Nat.shiftLeft_eq]
    omega
  simp only [resolve,granted,index,gen,if_false]
  exact dif_pos (c := i.val < maxObjects) bound

theorem Live.resolves (live : Live t i g cls oid) (small : g ≤ 0xFFFF) (granted : handle g i ≠ 0) :
    ∃ e, resolve t (handle g i) = some e ∧ e.cls = cls ∧ e.oid = oid := by
  refine ⟨t.entries i,?_,live.cls,live.oid⟩
  rw [resolve_handle small granted,if_pos ⟨live.active,live.gen⟩]

theorem Dead.resolves (dead : Dead t i g) (small : g ≤ 0xFFFF) (granted : handle g i ≠ 0) :
    resolve t (handle g i) = none := by
  unfold Dead at dead
  rw [resolve_handle small granted,if_neg (by omega)]

theorem register_live (sound : Sound t) (runsOn : RunsOn (.register cls oid inst chan) t)
    (short : (Request.register cls oid inst chan).Short) (granted : (register cls oid inst chan t).2 ≠ 0) :
    ∃ i g, g ≤ 0xFFFF ∧ (register cls oid inst chan t).2 = handle g i ∧
      Live (register cls oid inst chan t).1 i g cls oid := by
  have made := registered t cls oid inst chan
  generalize register cls oid inst chan t = result at made granted
  cases made with
  | known found new =>
    obtain ⟨active,rfl,rfl⟩ := named_iff.mp (find_some found).2
    subst new
    exact ⟨_,_,sound.packs active,rfl,⟨by simpa using active,by simp,by simp,by simp⟩⟩
  | fresh absent room entry new =>
    have small := runsOn absent _ entry
    subst new
    rw [nextGen_eq small]
    exact ⟨_,_,small,rfl,⟨by simp,by simp,by simp [copied_eq short.1],by simp [copied_eq short.2]⟩⟩
  | full => exact absurd rfl granted

theorem Live.kept (live : Live t i g cls oid) (other : r ≠ .unregister cls oid)
    (stepped : step r t = some next) : Live next i g cls oid := by
  obtain ⟨active,gen,rfl,rfl⟩ := live
  have becomes := step_becomes stepped i
  generalize is : next.entries i = e at becomes
  cases becomes with
  | kept => refine ⟨?_,?_,?_,?_⟩ <;> rw [is] <;> assumption
  | taken _ _ entry => simp [freeEntry_some entry] at active
  | left asked => exact absurd asked other

theorem Live.unregistered (live : Live t i g cls oid) (sound : Sound t) : Dead (unregister cls oid t) i g := by
  obtain ⟨slot,found⟩ := sound.find_eq live.active
  rw [live.cls,live.oid] at found
  have small := sound.packs live.active
  simp only [Dead,unregister,found,update_self,gen_bump small]
  rw [live.gen]
  exact Nat.lt_succ_self g

theorem Dead.kept (dead : Dead t i g) (sound : Sound t) (runsOn : RunsOn r t)
    (stepped : step r t = some next) : Dead next i g := by
  unfold Dead at dead ⊢
  have becomes := step_becomes stepped i
  generalize next.entries i = e at becomes ⊢
  cases becomes with
  | kept => exact dead
  | taken asked absent entry =>
    subst asked
    simp only [nextGen_eq (runsOn absent i entry)]
    omega
  | left _ active =>
    simp only [gen_bump (sound.packs active)]
    omega

end Handles

section Runs

variable {t final : Table} {cls oid : List UInt8} {i : Fin maxObjects} {g : Nat}

def Guard (r : Request) (t : Table) : Prop := r.Short ∧ RunsOn r t

theorem Sound.after (sound : Sound t) (meets : Meets step Guard requests t)
    (ran : run step requests t = some final) : Sound final :=
  run_invariant_of_meets Sound (fun _ _ _ sound guard stepped => sound.kept guard.2 guard.1 stepped)
    requests t final meets sound ran

theorem Dead.after (dead : Dead t i g) (sound : Sound t) (meets : Meets step Guard requests t)
    (ran : run step requests t = some final) : Dead final i g := by
  have both : Sound final ∧ Dead final i g := by
    refine run_invariant_of_meets (fun t => Sound t ∧ Dead t i g) ?_ requests t final meets ⟨sound,dead⟩ ran
    rintro r t next ⟨sound,dead⟩ ⟨short,runsOn⟩ stepped
    exact ⟨sound.kept runsOn short stepped,dead.kept sound runsOn stepped⟩
  exact both.2

theorem Live.after (live : Live t i g cls oid) (sound : Sound t)
    (meets : Meets step Guard requests t) (ran : run step requests t = some final) :
    (.unregister cls oid ∉ requests → Live final i g cls oid) ∧
      (.unregister cls oid ∈ requests → Dead final i g) := by
  induction requests generalizing t with
  | nil =>
    cases ran
    simpa using live
  | cons r rest ih =>
    obtain ⟨next,stepped,ran⟩ := run_cons_some.mp ran
    obtain ⟨⟨short,runsOn⟩,meets⟩ := meets
    have sound' := sound.kept runsOn short stepped
    by_cases ends : r = .unregister cls oid
    · subst ends
      cases stepped
      refine ⟨fun absent => absurd mem_cons_self absent,fun _ => ?_⟩
      exact (live.unregistered sound).after sound' (meets _ rfl) ran
    · obtain ⟨lives,dies⟩ := ih (live.kept ends stepped) sound' (meets next stepped) ran
      simpa [Ne.symm ends] using And.intro lives dies

/-- A handle resolves to the entry of its name until the name is unregistered, and to nothing from then on, as long as
no entry is taken again after its generation has used up the handle's 16 bits. -/
theorem handle_resolves_until_unregistered (past future : List Request) (cls oid : List UInt8)
    (inst chan : Option Nat) (meets : Meets step Guard (past ++ .register cls oid inst chan :: future) {})
    (before : run step past {} = some t) (granted : (register cls oid inst chan t).2 ≠ 0)
    (after : run step future (register cls oid inst chan t).1 = some final) :
    (.unregister cls oid ∉ future →
      ∃ e, resolve final (register cls oid inst chan t).2 = some e ∧ e.cls = cls ∧ e.oid = oid) ∧
    (.unregister cls oid ∈ future → resolve final (register cls oid inst chan t).2 = none) := by
  obtain ⟨earlier,⟨short,runsOn⟩,later⟩ := meets_append meets before
  have sound := sound_init.after earlier before
  obtain ⟨i,g,small,returned,live⟩ := register_live sound runsOn short granted
  have sound' : Sound (register cls oid inst chan t).1 := sound.kept runsOn short rfl
  obtain ⟨lives,dies⟩ := live.after sound' (later _ rfl) after
  rw [returned] at granted ⊢
  exact ⟨fun absent => (lives absent).resolves small granted,fun member => (dies member).resolves small granted⟩

/-- The name of a class and of its one object. -/
def clsName : List UInt8 := [67]
def oidName : List UInt8 := [99]

def cycle : List Request := [.register clsName oidName none (some 1),.unregister clsName oidName]

def check (r : Request) (t : Table) : Bool :=
  match r with
  | .register cls oid _ _ => decide (cls.length < 64 ∧ oid.length < 64) &&
      (freeEntry t).all fun i => decide ((t.entries i).gen < 0xFFFF)
  | .unregister cls oid => decide (cls.length < 64 ∧ oid.length < 64)

theorem guard_of_check (r : Request) (t : Table) (checked : check r t = true) : Guard r t := by
  cases r with
  | register =>
    simp only [check,Bool.and_eq_true,decide_eq_true_eq] at checked
    refine ⟨checked.1,fun _ i entry => ?_⟩
    simpa [entry] using checked.2
  | unregister =>
    simp only [check,decide_eq_true_eq] at checked
    exact ⟨checked,trivial⟩

theorem reused_entry_resolves : ∃ t final,
    run step cycle {} = some t ∧ run step cycle (register clsName oidName none (some 2) t).1 = some final ∧
    resolve final (register clsName oidName none (some 2) t).2 = none := by
  refine ⟨_,_,rfl,rfl,?_⟩
  have small : Meets step Guard (cycle ++ .register clsName oidName none (some 2) :: cycle) {} := by
    exact meets_of_checks guard_of_check _ _ (by decide)
  exact (handle_resolves_until_unregistered cycle cycle clsName oidName none (some 2) small rfl (by decide) rfl).2
    (by decide)

def firstProbe : Fin maxObjects := (probes clsName oidName).headD 0

/-- The table after `n` objects of one name came and went, all in entry 0. -/
def spent (n : Nat) : Table where
  entries := Function.update (fun _ => {}) 0 { gen := 2 * n, cls := clsName, oid := oidName }
  cells := Function.update (fun _ => .empty) firstProbe .gone

theorem run_cycle (t : Table)
    (loop : registerLoop t clsName oidName none (probes clsName oidName) = (none,some firstProbe))
    (entry : freeEntry t = some 0) (gen : (t.entries 0).gen = 2 * n) (small : 2 * n + 2 < 2 ^ 32) :
    run step cycle t = some ⟨update t.entries 0 { gen := 2 * (n + 1), cls := clsName, oid := oidName },
      update t.cells firstProbe .gone⟩ := by
  have fits : nextGen (2 * n) = 2 * n + 1 := by
    have fits : (2 * n + 1) % 2 ^ 32 = 2 * n + 1 := Nat.mod_eq_of_lt (by omega)
    rw [nextGen,fits,if_neg (by omega)]
  have registered : step (.register clsName oidName none (some 1)) t = some
      ⟨update t.entries 0
          { gen := 2 * n + 1, active := true, cls := clsName, oid := oidName, chan := some 1 },
        update t.cells firstProbe (.holds 0)⟩ := by
    simp only [step,register,loop,entry,gen,fits]
    rfl
  have walk : probes clsName oidName = firstProbe :: (probes clsName oidName).tail := rfl
  have bump : (2 * n + 1 + 1) % 2 ^ 32 = 2 * (n + 1) := Nat.mod_eq_of_lt (by omega)
  rw [cycle,run,registered,bind_some,run,step,unregister,walk]
  simp only [find,named,update_self,beq_self_eq_true,Bool.and_self,reduceIte,bump,
    update_idem]
  rfl

theorem cycles_spent (k : Nat) (small : 2 * k + 2 < 2 ^ 32) :
    run step (replicate (k + 1) cycle).flatten {} = some (spent (k + 1)) := by
  induction k with
  | zero => exact run_cycle {} rfl rfl rfl (by decide)
  | succ k ih =>
    rw [replicate_succ',flatten_append,run_append,ih (by omega),bind_some,
      flatten_singleton,run_cycle (spent (k + 1)) rfl rfl rfl (by omega)]
    simp [spent]

/-- The 32769th object of a name in its entry has generation 65537, of which its handle keeps 1. -/
theorem used_up_handle_lost : ¬∀ (past : List Request) (cls oid : List UInt8) (inst chan : Option Nat) (t : Table),
    (∀ r ∈ past, r.Short) → (Request.register cls oid inst chan).Short → run step past {} = some t →
    (register cls oid inst chan t).2 ≠ 0 →
    ∃ e, resolve (register cls oid inst chan t).1 (register cls oid inst chan t).2 = some e ∧
      e.cls = cls ∧ e.oid = oid := by
  intro always
  have short : ∀ r ∈ (replicate 32768 cycle).flatten, r.Short := by
    intro r member
    obtain ⟨part,repeated,inside⟩ := mem_flatten.mp member
    obtain rfl := eq_of_mem_replicate repeated
    have both : ∀ r ∈ cycle, r.Short := by simp [cycle,clsName,oidName]
    exact both r inside
  have granted := always _ clsName oidName none (some 1) (spent 32768) short (by simp [clsName,oidName])
    (cycles_spent 32767 (by decide))
  have lost : resolve (register clsName oidName none (some 1) (spent 32768)).1 0x10000 = none := by decide
  have returned : (register clsName oidName none (some 1) (spent 32768)).2 = 0x10000 := by decide
  rw [returned] at granted
  obtain ⟨e,found,-⟩ := granted (by decide)
  rw [lost] at found
  cases found

end Runs

end Objective9c.ObjectTable
