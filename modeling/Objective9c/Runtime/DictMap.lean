import Objective9c.Runtime.DictText

/-! A dictionary is a finite map. A key is passed as a cell or through a typed wrapper, and the chain of its hash is
searched with the equality of its kind. -/
namespace Objective9c.DictText

open Text Numbers List Bool

section Keys

/-- What a cell holds before it is read: an O9String may be nil, which reads as the empty one. -/
def Held : Kind → Nat → Type
  | .string, _ => Option Bytes
  | .cstr, _ => Option CText
  | .raw, n | .int, n | .double, n => { bytes : Bytes // bytes.length = n }

/-- What hash and equality see of a key. -/
def Held.cell : (kind : Kind) → (n : Nat) → Held kind n → Cell kind n
  | .string, _, s => Option.getD s []
  | .cstr, _, text => text
  | .raw, _, b | .int, _, b | .double, _, b => b

/-- The cell that `o9_dict_cell_copy` makes when it is given nil. -/
def Held.zero : (kind : Kind) → (n : Nat) → Held kind n
  | .string, _ => (none : Option Bytes)
  | .cstr, _ => (none : Option CText)
  | .raw, n | .int, n | .double, n => ⟨replicate n 0,length_replicate⟩

def memeq (n : Nat) (a b : Bytes) : Bool := a.take n == b.take n

def o9DictKeyeq : (kind : Kind) → (n : Nat) → Cell kind n → Cell kind n → Bool
  | .string, _, (a : Bytes), (b : Bytes) => a.length == b.length && memeq a.length a b
  | .cstr, _, (a : Option CText), (b : Option CText) =>
    match a, b with
    | some a, some b => a.1 == b.1
    | none, none => true
    | _, _ => false
  | .raw, n, a, b | .int, n, a, b | .double, n, a, b => memeq n a.1 b.1

theorem memeq_iff (left : a.length = n) (right : b.length = n) : memeq n a b = true ↔ a = b := by
  rw [memeq,take_of_length_le left.le,take_of_length_le right.le,beq_iff_eq]

/-- The equality of each kind is that of what the cells hold, which is also all that the hash reads. -/
theorem o9DictKeyeq_iff (kind : Kind) (n : Nat) (a b : Cell kind n) : o9DictKeyeq kind n a b = true ↔ a = b := by
  cases kind with
  | string =>
    change (length (α := UInt8) a == length (α := UInt8) b && memeq _ a b) = true ↔ a = b
    rw [and_eq_true,beq_iff_eq]
    constructor
    · rintro ⟨same,equal⟩
      exact (memeq_iff rfl same.symm).mp equal
    · rintro rfl
      exact ⟨rfl,(memeq_iff rfl rfl).mpr rfl⟩
  | cstr =>
    match a, b with
    | none, none => exact ⟨fun _ => rfl,fun _ => rfl⟩
    | none, some _ | some _, none => exact ⟨nofun,nofun⟩
    | some a, some b => exact beq_iff_eq.trans (Subtype.ext_iff.symm.trans (Option.some.injEq a b).symm.to_iff)
  | raw | int | double => exact (memeq_iff a.2 b.2).trans Subtype.ext_iff.symm

end Keys

section Wrappers

variable {kind valkind : Kind} {keysz valsz : Nat}

/-- The dictionary with what its value cells hold. -/
abbrev Dict (kind : Kind) (keysz : Nat) (valkind : Kind) (valsz : Nat) : Type :=
  Table ⟨kind,valkind,keysz,valsz⟩ (Held valkind valsz)

section Cells

variable (d : Dict kind keysz valkind valsz) (key : Held kind keysz)

/-- What the pointer that `o9_dict_getp` returns leads to. -/
def o9DictGetp : Option (Held valkind valsz) :=
  ((d.buckets (hashCell kind keysz key.cell)).find? fun e => o9DictKeyeq kind keysz e.1 key.cell).map Prod.snd

/-- The returned flag, and what `out` then holds. -/
def o9DictGetv : Bool × Held valkind valsz :=
  match o9DictGetp d key with
  | none => (false,.zero valkind valsz)
  | some v => (true,v)

def o9DictSetv (val : Option (Held valkind valsz)) : Dict kind keysz valkind valsz :=
  setv d key.cell (val.getD (.zero valkind valsz))

def o9DictHask : Bool := (o9DictGetp d key).isSome

end Cells

/-- The word in the cell of a string, a C string or a value of the size of a pointer, which may be nil; the place of
any other cell. -/
def Held.word : (kind : Kind) → (n : Nat) → Held kind n → Option (Held kind n)
  | .string, _, (s : Option Bytes) => s.map some
  | .cstr, _, (s : Option CText) => s.map some
  | .raw, n, b | .int, n, b | .double, n, b => if n = 8 && b.1.all (· == 0) then none else some b

section Strings

variable (d : Dict .string keysz valkind valsz)

def o9DictGetsk (key : Option Bytes) : Option (Held valkind valsz) := o9DictGetp d key

def o9DictGets (key : Option Bytes) : Option (Held valkind valsz) :=
  match o9DictGetp d key with
  | none => none
  | some p => p.word

/-- The word is wrapped in a cell, or is the place of one: where it is nil, the cell that is stored is zero. -/
def o9DictSets (key : Option Bytes) (val : Option (Held valkind valsz)) : Dict .string keysz valkind valsz :=
  o9DictSetv d key val

def o9DictHass (key : Option Bytes) : Bool := o9DictHask d key

def o9DictGet (key : Option CText) : Option (Held valkind valsz) :=
  match key with
  | none => none
  | some text => o9DictGets d (some text.1)

def o9DictSet (key : Option CText) (val : Option (Held valkind valsz)) : Dict .string keysz valkind valsz :=
  match key with
  | none => d
  | some text => o9DictSets d (some text.1) val

def o9DictHas (key : Option CText) : Bool :=
  match key with
  | none => false
  | some text => o9DictHass d (some text.1)

end Strings

section Numbers

/-- The low bytes of the number, in a buffer of 16. -/
def o9DictIntKey (n : Nat) (key : Int) : { bytes : Bytes // bytes.length = n } := padded n (littleBytes 8 (pattern key))

def o9DictGeti (d : Dict .int keysz valkind valsz) (key : Int) : Option (Held valkind valsz) :=
  o9DictGetp d (o9DictIntKey keysz key)

def o9DictHasi (d : Dict .int keysz valkind valsz) (key : Int) : Bool := (o9DictGeti d key).isSome

def o9DictGetd (d : Dict .double keysz valkind valsz) (key : Bytes) : Option (Held valkind valsz) :=
  o9DictGetp d (padded keysz key)

def o9DictHasd (d : Dict .double keysz valkind valsz) (key : Bytes) : Bool := (o9DictGetd d key).isSome

end Numbers

end Wrappers

section Runs

/-- A call; the wrappers for numbers have a buffer of 16 bytes for the key. -/
inductive Op (valkind : Kind) (keysz valsz : Nat) : Kind → Type where
  | setv (key : Held kind keysz) (val : Option (Held valkind valsz)) : Op valkind keysz valsz kind
  | getv (key : Held kind keysz) : Op valkind keysz valsz kind
  | hask (key : Held kind keysz) : Op valkind keysz valsz kind
  | getsk (key : Option Bytes) : Op valkind keysz valsz .string
  | gets (key : Option Bytes) : Op valkind keysz valsz .string
  | sets (key : Option Bytes) (val : Option (Held valkind valsz)) : Op valkind keysz valsz .string
  | hass (key : Option Bytes) : Op valkind keysz valsz .string
  | get (key : Option CText) : Op valkind keysz valsz .string
  | set (key : Option CText) (val : Option (Held valkind valsz)) : Op valkind keysz valsz .string
  | has (key : Option CText) : Op valkind keysz valsz .string
  | geti (key : Int) (fits : keysz ≤ 16) : Op valkind keysz valsz .int
  | hasi (key : Int) (fits : keysz ≤ 16) : Op valkind keysz valsz .int
  | getd (key : Bytes) (double : key.length = 8) (fits : keysz ≤ 16) : Op valkind keysz valsz .double
  | hasd (key : Bytes) (double : key.length = 8) (fits : keysz ≤ 16) : Op valkind keysz valsz .double

variable {valkind kind : Kind} {keysz valsz : Nat}

inductive Answer (valkind : Kind) (valsz : Nat) where
  | done
  | copied (found : Bool) (out : Held valkind valsz)
  | value (v : Option (Held valkind valsz))
  | has (there : Bool)

def op : {kind : Kind} → Dict kind keysz valkind valsz → Op valkind keysz valsz kind →
    Dict kind keysz valkind valsz × Answer valkind valsz
  | _, d, .setv key val => (o9DictSetv d key val,.done)
  | _, d, .getv key => (d,.copied (o9DictGetv d key).1 (o9DictGetv d key).2)
  | _, d, .hask key => (d,.has (o9DictHask d key))
  | _, d, .getsk key => (d,.value (o9DictGetsk d key))
  | _, d, .gets key => (d,.value (o9DictGets d key))
  | _, d, .sets key val => (o9DictSets d key val,.done)
  | _, d, .hass key => (d,.has (o9DictHass d key))
  | _, d, .get key => (d,.value (o9DictGet d key))
  | _, d, .set key val => (o9DictSet d key val,.done)
  | _, d, .has key => (d,.has (o9DictHas d key))
  | _, d, .geti key _ => (d,.value (o9DictGeti d key))
  | _, d, .hasi key _ => (d,.has (o9DictHasi d key))
  | _, d, .getd key _ _ => (d,.value (o9DictGetd d key))
  | _, d, .hasd key _ _ => (d,.has (o9DictHasd d key))

/-- What a call wants of the key it names. -/
inductive Want (valkind : Kind) (valsz : Nat) where
  | set (val : Option (Held valkind valsz))
  | copy
  | value
  | word
  | has

/-- The key that is meant, none where a C string is nil, and what is wanted of it. -/
def Op.means : Op valkind keysz valsz kind → Option (Cell kind keysz) × Want valkind valsz
  | .setv key val => (some key.cell,.set val)
  | .getv key => (some key.cell,.copy)
  | .hask key => (some key.cell,.has)
  | .getsk key => (some (key.getD []),.value)
  | .gets key => (some (key.getD []),.word)
  | .sets key val => (some (key.getD []),.set val)
  | .hass key => (some (key.getD []),.has)
  | .get key => (key.map (·.1),.word)
  | .set key val => (key.map (·.1),.set val)
  | .has key => (key.map (·.1),.has)
  | .geti key _ => (some (o9DictIntKey keysz key),.value)
  | .hasi key _ => (some (o9DictIntKey keysz key),.has)
  | .getd key _ _ => (some (padded keysz key),.value)
  | .hasd key _ _ => (some (padded keysz key),.has)

/-- The answer about a key from what a map has for it; `word` says how `gets` and `get` answer with it. -/
def Want.answer (word : Held valkind valsz → Option (Held valkind valsz)) (there : Option (Held valkind valsz)) :
    Want valkind valsz → Answer valkind valsz
  | .set _ => .done
  | .copy => .copied there.isSome (there.getD (.zero valkind valsz))
  | .value => .value there
  | .word => .value (there.bind word)
  | .has => .has there.isSome

def mapOp (word : Held valkind valsz → Option (Held valkind valsz)) (m : Cell kind keysz → Option (Held valkind valsz))
    (i : Op valkind keysz valsz kind) : (Cell kind keysz → Option (Held valkind valsz)) × Answer valkind valsz :=
  match i.means with
  | (none,want) => (m,want.answer word none)
  | (some key,want) =>
    (match want with
      | .set val => fun k => if o9DictKeyeq kind keysz k key then some (val.getD (.zero valkind valsz)) else m k
      | _ => m,want.answer word (m key))

/-- The state after the operations and their answers, the first one first. -/
def answers (step : σ → ι → σ × α) (s : σ) : List ι → σ × List α
  | [] => (s,[])
  | i :: rest =>
    let next := step s i
    let later := answers step next.1 rest
    (later.1,next.2 :: later.2)

theorem o9DictGetp_eq (d : Dict kind keysz valkind valsz) (key : Held kind keysz) :
    o9DictGetp d key = getv d key.cell := by
  unfold o9DictGetp getv Buckets.find
  congr 2
  funext e
  rw [Bool.eq_iff_iff,o9DictKeyeq_iff,decide_eq_true_iff]

theorem getv_o9DictSetv (d : Dict kind keysz valkind valsz) (key : Held kind keysz) (val : Option (Held valkind valsz)) :
    getv (o9DictSetv d key val) =
      fun k => if o9DictKeyeq kind keysz k key.cell then some (val.getD (.zero valkind valsz)) else getv d k := by
  funext k
  simp only [o9DictSetv,getv_setv,o9DictKeyeq_iff]

theorem o9DictGets_eq (d : Dict .string keysz valkind valsz) (key : Option Bytes) :
    o9DictGets d key = (getv d (key.getD [])).bind (Held.word valkind valsz) := by
  have found : o9DictGetp d key = getv d (key.getD []) := o9DictGetp_eq d key
  rw [o9DictGets,found]
  cases getv d (key.getD []) <;> rfl

/-- One operation keeps the map in step with the dictionary and answers alike. -/
theorem op_agrees (d : Dict kind keysz valkind valsz) (i : Op valkind keysz valsz kind) :
    mapOp (Held.word valkind valsz) (getv d) i = (getv (op d i).1,(op d i).2) := by
  let has (v : Option (Held valkind valsz)) : Answer valkind valsz := .has v.isSome
  cases i with
  | setv key val => exact Prod.ext (getv_o9DictSetv d key val).symm rfl
  | sets key val => exact Prod.ext (getv_o9DictSetv d key val).symm rfl
  | set key val =>
    cases key with
    | none => rfl
    | some text => exact Prod.ext (getv_o9DictSetv d (some text.1) val).symm rfl
  | getv key =>
    refine Prod.ext rfl ?_
    simp only [op,o9DictGetv,o9DictGetp_eq,mapOp,Op.means,Want.answer]
    cases getv d key.cell <;> rfl
  | getsk key | geti key | getd key => exact Prod.ext rfl (congrArg Answer.value (o9DictGetp_eq d _).symm)
  | hask key | hass key | hasi key | hasd key => exact Prod.ext rfl (congrArg has (o9DictGetp_eq d _).symm)
  | gets key => exact Prod.ext rfl (congrArg Answer.value (o9DictGets_eq d key).symm)
  | get key =>
    cases key with
    | none => rfl
    | some text => exact Prod.ext rfl (congrArg Answer.value (o9DictGets_eq d (some text.1)).symm)
  | has key =>
    cases key with
    | none => rfl
    | some text => exact Prod.ext rfl (congrArg has (o9DictGetp_eq d (some text.1)).symm)

theorem answers_agree (ops : List (Op valkind keysz valsz kind)) (d : Dict kind keysz valkind valsz) :
    (answers op d ops).2 = (answers (mapOp (Held.word valkind valsz)) (getv d) ops).2 := by
  induction ops generalizing d with
  | nil => rfl
  | cons i rest ih => simp only [answers,op_agrees,ih]

/-- A dictionary answers every call as a map does, and has each key once. -/
theorem dict_refines_map (ops : List (Op valkind keysz valsz kind)) :
    (answers op (empty _) ops).2 = (answers (mapOp (Held.word valkind valsz)) (fun _ => none) ops).2 ∧
      (entries (answers op (empty _ : Dict kind keysz valkind valsz) ops).1).Pairwise
        fun e e' => o9DictKeyeq kind keysz e.1 e'.1 = false := by
  refine ⟨answers_agree ops (empty _),?_⟩
  refine (pairwise_map.mp (entries_nodup _)).imp ?_
  intro e e' apart
  rwa [Bool.eq_false_iff,ne_eq,o9DictKeyeq_iff]

/-- A nil that was set is answered by `o9_dict_gets` as a key that was not. -/
theorem nil_value_absent :
    ¬∀ ops : List (Op .cstr 8 8 .string), (answers op (empty _) ops).2 = (answers (mapOp some) (fun _ => none) ops).2 := by
  intro same
  have answered := same [.sets (some [97]) none,.gets (some [97])]
  injection answered with _ later
  injection later with value
  injection value with nil
  have absent : (none : Option (Option CText)) = some none := nil
  cases absent

end Runs

end Objective9c.DictText
