import Objective9c.Lib.SlotArray
import Objective9c.Lib.Tally
import Objective9c.Lib.Transition
import Objective9c.Lib.Text

/-! The slots of a vault: named values, each encrypted with a nonce of its own under the key of the arena. The
functions take strings with a length but work on C strings, which end at the first zero byte. `wanted` is the
map that the calls describe; the program has none. -/
namespace Objective9c.Vault

open Transition Text List Option SlotArray Function

section Model

/-- The authenticated cipher. Unlocking what was locked under the same key and nonce gives it back. -/
structure Aead where
  lock : (key nonce plain : Bytes) → Bytes × Bytes
  unlock : (key nonce mac cipher : Bytes) → Option Bytes
  length_lock : (lock key nonce plain).1.length = plain.length
  unlock_lock : unlock key nonce (lock key nonce plain).2 (lock key nonce plain).1 = some plain

structure Slot where
  name : Bytes := []
  nonce : Bytes := []
  mac : Bytes := []
  ct : Option Bytes := none
  nct : Nat := 0
  used : Bool := false
deriving DecidableEq

def maxSlots : Nat := 64

structure Arena where
  key : Bytes
  valid : Bool := true
  slots : List Slot := List.replicate maxSlots {}
  nslots : Int := 0
deriving DecidableEq

@[simp] def Slot.key (slot : Slot) : Option Bytes := if slot.used then some slot.name else none

def findSlot (a : Arena) (cname : Bytes) : Option Nat := SlotArray.index Slot.key a.slots cname

def freeSlot (a : Arena) : Option Nat := a.slots.findIdx? fun slot => !slot.used

def sealSlot (aead : Aead) (key nonce name plain : Bytes) : Slot :=
  let (ct,mac) := aead.lock key nonce plain
  { name, nonce, mac, ct := some ct, nct := plain.length, used := true }

/-- `copied` says whether both arguments could be copied, and the nonce is there if the memory for the
ciphertext and the random bytes were to be had. -/
def put (aead : Aead) (name value : Bytes) (copied : Bool) (nonce : Option Bytes) (a : Arena) : Arena × Int :=
  if !a.valid || !copied then (a,-1)
  else if 64 ≤ (cstr name).length then (a,-1)
  else match (findSlot a (cstr name)).or (freeSlot a) with
    | none => (a,-1)
    | some i =>
      let slot := a.slots.getD i {}
      let nslots := if slot.used then a.nslots else a.nslots + 1
      match nonce with
      | none => ({ a with slots := a.slots.set i { slot with ct := none, used := false }, nslots := nslots - 1 },-1)
      | some nonce => ({ a with slots := a.slots.set i (sealSlot aead a.key nonce (cstr name) (cstr value)), nslots },0)

/-- What `crypto_aead_unlock` and `o9_string_take` make of a slot. -/
def openSlot (aead : Aead) (key : Bytes) (slot : Slot) : Option Bytes :=
  slot.ct.bind fun ct => (aead.unlock key slot.nonce slot.mac (ct.take slot.nct)).map cstr

/-- `memory` says whether the allocations of the call succeed. -/
def get (aead : Aead) (name : Bytes) (memory : Bool) (a : Arena) : Option Bytes :=
  if !a.valid || !memory then none
  else (findSlot a (cstr name)).bind fun i => openSlot aead a.key (a.slots.getD i {})

def has (name : Bytes) (memory : Bool) (a : Arena) : Bool :=
  if !a.valid || !memory then false else (findSlot a (cstr name)).isSome

def drop (name : Bytes) (memory : Bool) (a : Arena) : Arena × Int :=
  if !a.valid || !memory then (a,0)
  else match findSlot a (cstr name) with
    | none => (a,0)
    | some i => ({ a with slots := a.slots.set i {}, nslots := a.nslots - 1 },1)

def wipe (a : Arena) : Arena :=
  { key := List.replicate a.key.length 0, valid := false, slots := List.replicate maxSlots {}, nslots := 0 }

inductive Call where
  | put (name value : Bytes) (copied : Bool) (nonce : Option Bytes)
  | get (name : Bytes) (memory : Bool)
  | has (name : Bytes) (memory : Bool)
  | drop (name : Bytes) (memory : Bool)
  | wipe
deriving DecidableEq

structure State where
  arena : Arena
  wanted : Bytes → Option Bytes := fun _ => none

/-- Only a put that reports success stores a value. -/
def step (aead : Aead) (c : Call) (s : State) : Option State :=
  match c with
  | .put name value copied nonce =>
    let (arena,result) := put aead name value copied nonce s.arena
    some ⟨arena,if result = 0 then Function.update s.wanted name (some value) else s.wanted⟩
  | .get _ _ | .has _ _ => some s
  | .drop name memory => some ⟨(drop name memory s.arena).1,Function.update s.wanted name none⟩
  | .wipe => some ⟨wipe s.arena,fun _ => none⟩

end Model

section Slots

variable {aead : Aead} {a : Arena} {name value : Bytes}

/-- Names are pairwise distinct and `nslots` counts the slots in use. -/
structure Sound (a : Arena) : Prop where
  distinct : SlotArray.Distinct Slot.key a.slots
  counted : a.nslots = Tally.count Slot.used a.slots

theorem Slot.key_some {slot : Slot} : slot.key = some n ↔ slot.used = true ∧ slot.name = n := by
  unfold Slot.key
  split <;> simp_all

theorem Slot.key_none {slot : Slot} (unused : slot.used = false) : slot.key = none := by
  simp [unused]

theorem sound_fresh :
    Sound { key, valid, slots := replicate maxSlots {}, nslots := 0 } where
  distinct := by
    intro i j slot slot' n at_ at' named named'
    obtain rfl := eq_of_mem_replicate (mem_of_getElem? at_)
    simp at named
  counted := by
    rw [eq_comm,Tally.count_zero_iff]
    intro slot member
    rw [eq_of_mem_replicate member]

theorem chosen_slot (chosen : (findSlot a name).or (freeSlot a) = some i) (sound : Sound a) :
    ∃ slot, a.slots[i]? = some slot ∧ SlotArray.FreeBut Slot.key a.slots i name ∧
      (slot.used = true → slot.name = name) := by
  cases found : findSlot a name with
  | some j =>
    obtain rfl : j = i := by simpa [found] using chosen
    obtain ⟨slot,at_,named⟩ := index_some found
    refine ⟨slot,at_,?_,fun _ => (Slot.key_some.mp named).2⟩
    intro k other at' named'
    exact sound.distinct k j other slot name at' at_ named' named
  | none =>
    have free : freeSlot a = some i := by simpa [found] using chosen
    obtain ⟨inside,unused,-⟩ := findIdx?_eq_some_iff_getElem.mp free
    refine ⟨a.slots[i],getElem?_eq_getElem inside,?_,?_⟩
    · intro k other at' named'
      exact absurd named' (index_none.mp found other (mem_of_getElem? at'))
    · intro used
      simp [used] at unused

theorem Sound.set (sound : Sound a) (at_ : a.slots[i]? = some old)
    (free : ∀ n, new.key = some n → SlotArray.FreeBut Slot.key a.slots i n) (valid : Bool) (key : Bytes) :
    Sound ⟨key,valid,a.slots.set i new,a.nslots - Tally.one old.used + Tally.one new.used⟩ where
  distinct := sound.distinct.set free
  counted := by rw [Tally.count_set at_,sound.counted]

theorem cstr_cstr (text : Bytes) : cstr (cstr text) = cstr text :=
  cstr_eq_self fun c member => by simpa using mem_takeWhile_imp member

theorem openSlot_sealSlot (key nonce name value : Bytes) :
    openSlot aead key (sealSlot aead key nonce name (cstr value)) = some (cstr value) := by
  have whole := take_length (l := (aead.lock key nonce (cstr value)).1)
  rw [aead.length_lock] at whole
  simp [openSlot,sealSlot,whole,aead.unlock_lock,cstr_cstr]

/-- What a put does: nothing, or it writes a slot that only the name can be found in; the slot holds the name and
the value, or what it held is gone. -/
theorem put_cases (sound : Sound a) (aead : Aead) (name value : Bytes) (copied : Bool) (nonce : Option Bytes) :
    put aead name value copied nonce a = (a,-1) ∨
    a.valid = true ∧ copied = true ∧ (cstr name).length < 64 ∧ ∃ i old new, a.slots[i]? = some old ∧
      (∀ n, new.key = some n → SlotArray.FreeBut Slot.key a.slots i n) ∧ (old.used = true → old.name = cstr name) ∧
      (put aead name value copied nonce a).1 =
        { a with slots := a.slots.set i new, nslots := a.nslots - Tally.one old.used + Tally.one new.used } ∧
      (nonce = none ∧ (put aead name value copied nonce a).2 = -1 ∧ new = { old with ct := none, used := false } ∨
        (put aead name value copied nonce a).2 = 0 ∧ new.key = some (cstr name) ∧
        openSlot aead a.key new = some (cstr value)) := by
  unfold put
  by_cases closed : (!a.valid || !copied) = true
  · exact .inl (if_pos closed)
  rw [if_neg closed]
  by_cases long : 64 ≤ (cstr name).length
  · exact .inl (if_pos long)
  rw [if_neg long]
  cases chosen : (findSlot a (cstr name)).or (freeSlot a) with
  | none => exact .inl rfl
  | some i =>
    right
    obtain ⟨old,at_,free,named⟩ := chosen_slot chosen sound
    have slot : a.slots.getD i {} = old := by simp [at_]
    obtain ⟨valid,copies⟩ : a.valid = true ∧ copied = true := by simpa using closed
    cases nonce with
    | none =>
      refine ⟨valid,copies,not_le.mp long,i,old,_,at_,by simp,named,?_,.inl ⟨rfl,rfl,rfl⟩⟩
      simp only [slot]
      cases old.used <;> simp
    | some nonce =>
      refine ⟨valid,copies,not_le.mp long,i,old,sealSlot aead a.key nonce (cstr name) (cstr value),at_,?_,named,?_,
        .inr ⟨rfl,rfl,openSlot_sealSlot ..⟩⟩
      · intro n is
        obtain rfl : cstr name = n := by simpa [sealSlot] using is
        exact free
      simp only [slot]
      cases used : old.used <;> simp [sealSlot]

theorem drop_cases (valid : a.valid = true) (name : Bytes) :
    (∀ slot ∈ a.slots, slot.key ≠ some (cstr name)) ∧ (drop name true a).1 = a ∨
    ∃ i old, a.slots[i]? = some old ∧ old.key = some (cstr name) ∧ (drop name true a).1 =
      { a with slots := a.slots.set i {}, nslots := a.nslots - Tally.one old.used + Tally.one false } := by
  unfold drop
  rw [valid]
  cases found : findSlot a (cstr name) with
  | none => exact .inl ⟨index_none.mp found,rfl⟩
  | some i =>
    obtain ⟨old,at_,named⟩ := index_some found
    have used := (Slot.key_some.mp named).1
    exact .inr ⟨i,old,at_,named,by simp [used]⟩

theorem get_eq_lookup (aead : Aead) (sound : Sound a) (valid : a.valid = true) (name : Bytes) :
    get aead name true a = (SlotArray.lookup Slot.key a.slots (cstr name)).bind (openSlot aead a.key) ∧
      has name true a = (SlotArray.lookup Slot.key a.slots (cstr name)).isSome := by
  unfold get has
  rw [valid]
  cases found : findSlot a (cstr name) with
  | none =>
    have absent : SlotArray.lookup Slot.key a.slots (cstr name) = none := by
      rw [SlotArray.lookup,find?_eq_none]
      intro slot member
      simpa using SlotArray.index_none.mp found slot member
    simp [absent]
  | some =>
    obtain ⟨slot,at_,named⟩ := SlotArray.index_some found
    have hit := (SlotArray.lookup_iff sound.distinct).mpr ⟨mem_of_getElem? at_,named⟩
    simp [hit,at_]

end Slots

section Runs

variable {aead : Aead} {s next : State}

/-- The arena holds the map on all names that are C strings. -/
structure Represents (aead : Aead) (s : State) : Prop where
  sound : Sound s.arena
  agrees : s.arena.valid = true → (0 : UInt8) ∉ n →
    (SlotArray.lookup Slot.key s.arena.slots n).map (openSlot aead s.arena.key) = (s.wanted n).map some
  closed : s.arena.valid = false → s.wanted n = none

/-- Names and values are C strings, a put of a name that is held is not out of memory or of random bytes, and a
drop is not out of memory. -/
def Guard (c : Call) (s : State) : Prop :=
  match c with
  | .put name value copied nonce => (0 : UInt8) ∉ name ∧ (0 : UInt8) ∉ value ∧
      (copied = true → nonce = none → has name true s.arena = false)
  | .drop name memory => (0 : UInt8) ∉ name ∧ memory = true
  | .get _ _ | .has _ _ | .wipe => True

theorem cstr_plain (plain : (0 : UInt8) ∉ text) : cstr text = text :=
  cstr_eq_self fun _ member zero => plain (zero ▸ member)

theorem Represents.put (rep : Represents aead s) (guard : Guard (.put name value copied nonce) s)
    (stepped : step aead (.put name value copied nonce) s = some next) : Represents aead next := by
  obtain ⟨plainName,plainValue,kept⟩ := guard
  have made := put_cases rep.sound aead name value copied nonce
  simp only [step] at stepped
  generalize Vault.put aead name value copied nonce s.arena = outcome at stepped made
  obtain ⟨arena,code⟩ := outcome
  simp only [some.injEq] at stepped
  subst stepped
  obtain nothing | ⟨valid,copies,-,i,old,new,at_,free,named,result,written⟩ := made
  · obtain ⟨rfl,rfl⟩ := Prod.mk.inj nothing
    exact ⟨rep.sound,rep.agrees,rep.closed⟩
  rw [cstr_plain plainName] at named written
  have wasName (n : Bytes) (was : old.key = some n) : n = name := by
    obtain ⟨used,is⟩ := Slot.key_some.mp was
    exact is.symm.trans (named used)
  simp only at result written
  subst result
  refine ⟨rep.sound.set at_ free _ _,?_,fun invalid => absurd invalid (by simp [valid])⟩
  intro n _ plain
  have before := rep.agrees valid plain
  simp only [lookup_set rep.sound.distinct at_ free]
  obtain ⟨none,failed,rfl⟩ | ⟨succeeded,isName,opened⟩ := written
  · -- the put failed on a free slot, so the name was not held before either
    have absent : old.key ≠ some n := by
      intro was
      obtain rfl := wasName n was
      have held := (get_eq_lookup aead rep.sound valid n).2
      rw [kept copies none,cstr_plain plainName,
        (lookup_iff rep.sound.distinct).mpr ⟨mem_of_getElem? at_,was⟩] at held
      simp at held
    rw [Slot.key_none rfl,if_neg (by simp),if_neg absent,failed]
    exact before
  · rw [succeeded,if_pos rfl]
    by_cases same : n = name
    · subst same
      rw [if_pos isName,update_self,map_some,map_some,opened,cstr_plain plainValue]
    · have apart : new.key ≠ some n := by
        rw [isName]
        simpa using Ne.symm same
      rw [if_neg apart,if_neg fun was => same (wasName n was),update_of_ne same]
      exact before

theorem Represents.drop (rep : Represents aead s) (guard : Guard (.drop name memory) s)
    (stepped : step aead (.drop name memory) s = some next) : Represents aead next := by
  obtain ⟨plainName,rfl⟩ := guard
  simp only [step,some.injEq] at stepped
  subst stepped
  cases valid : s.arena.valid with
  | false =>
    have same : (Vault.drop name true s.arena).1 = s.arena := by simp [Vault.drop,valid]
    simp only [same]
    refine ⟨rep.sound,fun is => absurd is (by simp [valid]),fun {n} _ => ?_⟩
    by_cases here : n = name
    · simp [here]
    · simpa [here] using rep.closed valid
  | true =>
    obtain ⟨absent,same⟩ | ⟨i,old,at_,named,result⟩ := drop_cases valid name
    · simp only [same]
      refine ⟨rep.sound,fun {n} _ plain => ?_,fun invalid => absurd invalid (by simp [valid])⟩
      by_cases here : n = name
      · subst here
        rw [cstr_plain plainName] at absent
        have none : SlotArray.lookup Slot.key s.arena.slots n = none := by
          rw [SlotArray.lookup,find?_eq_none]
          simpa using absent
        simp [none]
      · simp only [update_of_ne here]
        exact rep.agrees valid plain
    · have free : ∀ n, ({} : Slot).key = some n → SlotArray.FreeBut Slot.key s.arena.slots i n := by
        simp
      rw [cstr_plain plainName] at named
      simp only [result]
      refine ⟨rep.sound.set at_ free _ _,fun {n} _ plain => ?_,fun invalid => absurd invalid (by simp [valid])⟩
      simp only [SlotArray.lookup_set rep.sound.distinct at_ free]
      rw [if_neg (by simp),named]
      by_cases here : n = name
      · simp [here]
      · rw [if_neg (by simpa using Ne.symm here),update_of_ne here]
        exact rep.agrees valid plain

theorem Represents.step (rep : Represents aead s) (guard : Guard c s) (stepped : Vault.step aead c s = some next) :
    Represents aead next := by
  cases c with
  | put => exact rep.put guard stepped
  | drop => exact rep.drop guard stepped
  | get | has =>
    cases stepped
    exact rep
  | wipe =>
    cases stepped
    exact ⟨sound_fresh,fun valid => absurd valid (by simp [Vault.wipe]),fun _ => rfl⟩

theorem represents_start (aead : Aead) (key : Bytes) : Represents aead ⟨{ key },fun _ => none⟩ where
  sound := sound_fresh
  agrees := by
    intro n _ _
    have none : SlotArray.lookup Slot.key (replicate maxSlots {}) n = none := by
      rw [SlotArray.lookup,find?_eq_none]
      intro slot member
      rw [eq_of_mem_replicate member]
      simp
    simp [none]
  closed := by simp

/-- Along a run whose calls use C strings and are not short of memory where it matters, the vault is the map, its
names are distinct and its count is right. -/
theorem vault_is_map (aead : Aead) (key : Bytes) (calls : List Call)
    (meets : Meets (step aead) Guard calls ⟨{ key },fun _ => none⟩)
    (ran : run (step aead) calls ⟨{ key },fun _ => none⟩ = some s) :
    Sound s.arena ∧ ∀ n, (0 : UInt8) ∉ n →
      get aead n true s.arena = s.wanted n ∧ has n true s.arena = (s.wanted n).isSome := by
  have rep : Represents aead s := run_invariant_of_meets (Represents aead)
    (fun _ _ _ rep guard stepped => rep.step guard stepped) calls _ s meets (represents_start aead key) ran
  refine ⟨rep.sound,fun n plain => ?_⟩
  cases valid : s.arena.valid with
  | false => simp [get,has,valid,rep.closed valid]
  | true =>
    obtain ⟨got,held⟩ := get_eq_lookup aead rep.sound valid n
    have agrees := rep.agrees valid plain
    rw [cstr_plain plain] at got held
    rw [got,held]
    cases found : SlotArray.lookup Slot.key s.arena.slots n with
    | none =>
      rw [found,map_none,eq_comm,map_eq_none_iff] at agrees
      simp [agrees]
    | some =>
      rw [found,map_some,eq_comm,map_eq_some_iff] at agrees
      obtain ⟨v,wanted,opened⟩ := agrees
      simp [wanted,← opened]

/-- A cipher that hides nothing, to run the model with. -/
def plainAead : Aead where
  lock _ _ plain := (plain,[])
  unlock _ _ _ cipher := some cipher
  length_lock := rfl
  unlock_lock := rfl

def replacedTwice : List Call :=
  [.put [107] [1,2] true (some []),.put [108] [] true (some []),.put [107] [3] true (some []),.drop [108] true]

theorem replaced_twice_read : ∃ s, run (step plainAead) replacedTwice ⟨{ key := [] },fun _ => none⟩ = some s ∧
    get plainAead [107] true s.arena = s.wanted [107] := by
  refine ⟨_,rfl,?_⟩
  have plain : Meets (step plainAead) Guard replacedTwice ⟨{ key := [] },fun _ => none⟩ := by
    simp [replacedTwice,Meets,Guard]
  exact ((vault_is_map plainAead [] replacedTwice plain rfl).2 [107] (by decide)).1

/-- No call is short of memory or of random bytes. -/
def Call.Ample : Call → Prop
  | .put _ _ copied nonce => copied = true ∧ nonce.isSome
  | .get _ memory | .has _ memory | .drop _ memory => memory = true
  | .wipe => True

/-- A value ends at its first zero byte. -/
theorem zero_byte_cuts : ¬∀ aead key calls s, (∀ c ∈ calls, Call.Ample c) →
    run (step aead) calls ⟨{ key },fun _ => none⟩ = some s →
    ∀ n, (0 : UInt8) ∉ n → get aead n true s.arena = s.wanted n := by
  intro always
  have read := always plainAead [] [.put [107] [1,0,2] true (some [])] _ (by simp [Call.Ample]) rfl [107] (by decide)
  exact absurd read (by decide)

end Runs

section Failures

variable {aead : Aead} {s next : State}

/-- The names in use fit their field, and a slot that is not in use has no ciphertext. -/
def Tidy (slots : List Slot) : Prop :=
  ∀ slot ∈ slots, (slot.used = true → slot.name.length < 64) ∧ (slot.used = false → slot.ct = none)

theorem Tidy.set (tidy : Tidy slots) (named : new.used = true → new.name.length < 64)
    (empty : new.used = false → new.ct = none) : Tidy (slots.set i new) := by
  intro slot member
  obtain member | rfl := mem_or_eq_of_mem_set member
  · exact tidy slot member
  · exact ⟨named,empty⟩

theorem tidy_fresh : Tidy (replicate maxSlots {}) := by
  intro slot member
  rw [eq_of_mem_replicate member]
  simp

theorem step_tidy (sound : Sound s.arena) (tidy : Tidy s.arena.slots) (stepped : step aead c s = some next) :
    Sound next.arena ∧ Tidy next.arena.slots := by
  cases c with
  | get name memory | has name memory =>
    cases stepped
    exact ⟨sound,tidy⟩
  | wipe =>
    cases stepped
    exact ⟨sound_fresh,tidy_fresh⟩
  | put name value copied nonce =>
    simp only [step,some.injEq] at stepped
    subst stepped
    obtain nothing | ⟨-,-,short,i,old,new,at_,free,-,result,written⟩ := put_cases sound aead name value copied nonce
    · simp only [nothing]
      exact ⟨sound,tidy⟩
    · simp only [result]
      refine ⟨sound.set at_ free _ _,?_⟩
      obtain ⟨-,-,rfl⟩ | ⟨-,named,-⟩ := written
      · exact tidy.set (by simp) (by simp)
      · obtain ⟨used,is⟩ := Slot.key_some.mp named
        exact tidy.set (by simp [is,short]) (by simp [used])
  | drop name memory =>
    simp only [step,some.injEq] at stepped
    subst stepped
    by_cases closed : (!s.arena.valid || !memory) = true
    · simp only [drop,if_pos closed]
      exact ⟨sound,tidy⟩
    obtain ⟨valid,rfl⟩ : s.arena.valid = true ∧ memory = true := by simpa using closed
    obtain ⟨-,same⟩ | ⟨i,old,at_,-,result⟩ := drop_cases valid name
    · simp only [same]
      exact ⟨sound,tidy⟩
    · simp only [result]
      exact ⟨sound.set at_ (by simp) _ _,tidy.set (by simp) (by simp)⟩

/-- No use of the vault can tell the arenas apart. -/
def Unnoticed (aead : Aead) (a b : Arena) : Prop :=
  ∀ later s t, run (step aead) later ⟨a,fun _ => none⟩ = some s → run (step aead) later ⟨b,fun _ => none⟩ = some t →
    ∀ n memory, get aead n memory s.arena = get aead n memory t.arena ∧
      has n memory s.arena = has n memory t.arena ∧ (drop n memory s.arena).2 = (drop n memory t.arena).2

/-- A put that finds the name but gets no memory or no random bytes loses the value the name had. -/
theorem put_loses (sound : Sound a) (tidy : Tidy a.slots) (held : has name true a = true) :
    has name true (put aead name value true none a).1 = false := by
  have valid : a.valid = true := by
    unfold has at held
    cases valid : a.valid <;> simp_all
  obtain ⟨i,found⟩ : ∃ i, findSlot a (cstr name) = some i := by
    simpa [has,valid,isSome_iff_exists] using held
  obtain ⟨old,at_,named⟩ := index_some found
  obtain ⟨used,is⟩ := Slot.key_some.mp named
  have short : ¬64 ≤ (cstr name).length := by
    rw [← is]
    exact not_le.mpr ((tidy old (mem_of_getElem? at_)).1 used)
  have result : (put aead name value true none a).1 =
      ⟨a.key,a.valid,a.slots.set i { old with ct := none, used := false },a.nslots - Tally.one old.used + Tally.one false⟩ := by
    simp [put,valid,short,found,at_,used]
  have free : ∀ n, ({ old with ct := none, used := false } : Slot).key = some n →
      SlotArray.FreeBut Slot.key a.slots i n := by simp
  rw [result,(get_eq_lookup aead (sound.set at_ free _ _) valid name).2,
    lookup_set sound.distinct at_ free,named]
  simp

/-- A put that fails changes nothing, unless it has found the name and gets no memory or no random bytes. -/
theorem put_fails (sound : Sound a) (tidy : Tidy a.slots) (failed : (put aead name value copied nonce a).2 = -1)
    (spared : ¬(copied = true ∧ nonce = none ∧ has name true a = true)) :
    (put aead name value copied nonce a).1 = a := by
  obtain nothing | ⟨valid,copies,-,i,old,new,at_,-,named,result,written⟩ :=
    put_cases sound aead name value copied nonce
  · rw [nothing]
  obtain ⟨missing,-,rfl⟩ | ⟨succeeded,-⟩ := written
  · have unused : old.used = false := by
      rw [← Bool.not_eq_true]
      intro used
      have hit := (lookup_iff sound.distinct).mpr
        ⟨mem_of_getElem? at_,Slot.key_some.mpr ⟨used,named used⟩⟩
      exact spared ⟨copies,missing,by rw [(get_eq_lookup aead sound valid name).2,hit]; rfl⟩
    have same : ({ old with ct := none, used := false } : Slot) = old := by
      rw [← (tidy old (mem_of_getElem? at_)).2 unused,← unused]
    obtain ⟨inside,rfl⟩ := List.getElem?_eq_some_iff.mp at_
    simp [result,same,unused]
  · rw [failed] at succeeded
    simp at succeeded

theorem failed_put_unnoticed_iff (aead : Aead) (key : Bytes) (calls : List Call)
    (ran : run (step aead) calls ⟨{ key },fun _ => none⟩ = some s)
    (failed : (put aead name value copied nonce s.arena).2 = -1) :
    Unnoticed aead s.arena (put aead name value copied nonce s.arena).1 ↔
      ¬(copied = true ∧ nonce = none ∧ has name true s.arena = true) := by
  obtain ⟨sound,tidy⟩ := run_invariant (fun s => Sound s.arena ∧ Tidy s.arena.slots)
    (fun _ _ _ held stepped => step_tidy held.1 held.2 stepped) calls _ s ⟨sound_fresh,tidy_fresh⟩ ran
  constructor
  · rintro unnoticed ⟨rfl,rfl,held⟩
    have same := (unnoticed [] _ _ rfl rfl name true).2.1
    simp [held,put_loses sound tidy held] at same
  · intro spared later t t' one two n memory
    rw [put_fails sound tidy failed spared] at two
    obtain rfl := some.inj (one.symm.trans two)
    exact ⟨rfl,rfl,rfl⟩

def heldNames : List Call := [.put [107] [1] true (some []),.put [108] [2] true (some [])]

/-- A put of a third name that gets no memory. -/
theorem failed_new_unnoticed : ∃ s, run (step plainAead) heldNames ⟨{ key := [] },fun _ => none⟩ = some s ∧
    has [107] true s.arena = true ∧ has [108] true s.arena = true ∧
    (put plainAead [109] [3] true none s.arena).2 = -1 ∧
    Unnoticed plainAead s.arena (put plainAead [109] [3] true none s.arena).1 :=
  ⟨_,rfl,by decide,by decide,by decide,(failed_put_unnoticed_iff plainAead [] heldNames rfl (by decide)).mpr (by decide)⟩

/-- A put that replaces a value and gets no memory drops the value it was to replace. -/
theorem failed_replacement_drops : ¬∀ aead key calls s name value copied nonce,
    run (step aead) calls ⟨{ key },fun _ => none⟩ = some s → (put aead name value copied nonce s.arena).2 = -1 →
    Unnoticed aead s.arena (put aead name value copied nonce s.arena).1 := by
  intro always
  have same := always plainAead [] [.put [107] [1] true (some [])] _ [107] [2] true none rfl (by decide)
  exact absurd (same [] _ _ rfl rfl [107] true).2.1 (by decide)

end Failures

end Objective9c.Vault
