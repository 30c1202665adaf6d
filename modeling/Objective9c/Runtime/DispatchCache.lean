import Mathlib.Data.List.ReduceOption
import Objective9c.Compiler.Registrations
import Objective9c.Lib.Lines
import Objective9c.Runtime.Numbers

/-! The dispatch cache as text: the lines that a generated server writes into its status, and
`o9_fill_from_buf`, which reads them into the table of a client. -/
namespace Objective9c.DispatchCache

open Text Compiler List Descent

/-- `data_cache` and `ctrl_cache` of an `o9_AsmTable`. -/
inductive Tier where
  | data | ctrl
deriving DecidableEq

structure CacheEntry where
  hash : Nat
  ptr : BitVec 64
deriving DecidableEq

abbrev AsmTable := Tier → Fin 64 → CacheEntry

def empty : AsmTable := fun _ _ => ⟨0,0⟩

def put (table : AsmTable) (tier : Tier) (hash : Nat) (ptr : BitVec 64) : AsmTable := fun t i =>
  if t = tier ∧ i.val = hash % 64 then ⟨hash,ptr⟩ else table t i

def magnitude (base : Nat) : Bytes → Nat
  | 48 :: 120 :: rest | 48 :: 88 :: rest => if base = 16 then Numbers.readDigits 16 0 rest else 0
  | rest => Numbers.readDigits base 0 rest

-- the width of a `long`
variable (w : Nat)

def strtoul (base : Nat) (text : Bytes) : Nat :=
  match text.dropWhile isSpace with
  | 45 :: rest => (2^w - min (magnitude base rest) (2^w - 1)) % 2^w
  | 43 :: rest => min (magnitude base rest) (2^w - 1)
  | rest => min (magnitude base rest) (2^w - 1)

def strtol (text : Bytes) : Int := max (-2^(w-1)) (min (Text.strtol text) (2^(w-1) - 1))

/-- One round of the loop of `o9_fill_from_buf`; the key ends at the first colon. -/
def fillLine (table : AsmTable) (line : Bytes) : AsmTable :=
  if 58 ∉ line then table
  else
    let val := (line.dropWhile (· ≠ 58)).tail
    match line.takeWhile (· ≠ 58) with
    | 100 :: key => put table .data (strtoul w 10 key) (.ofInt 64 (strtol w val))
    | 99 :: key => put table .ctrl (strtoul w 10 key) (.ofNat 64 (strtoul w 16 val))
    | _ => table

def fillFromBuf (table : AsmTable) (text : Bytes) : AsmTable :=
  (Lines.read newline [] text).foldl (fillLine w) table

/-- Where the C compiler puts the fields of a class, behind the members that every instance has, and its
handlers. -/
structure Image where
  offset : String → String → BitVec 64
  handler : String → String → BitVec 64
  offset_ne : ∀ classname field, offset classname field ≠ 0#64
  handler_ne : ∀ classname method, handler classname method ≠ 0#64

structure Pair where
  tier : Tier
  hash : Nat
  ptr : BitVec 64
deriving DecidableEq

/-- A line with a pair, or the line that names the segment. -/
abbrev Line := Option Pair

def pointer (n : Nat) : Bytes := if n = 0 then [48] else ((Nat.digits 16 n).map Numbers.hexDigit).reverse

def lineText (classname : String) : Line → Bytes
  | none => ascii "seg:" ++ ascii classname
  | some ⟨.data,hash,offset⟩ => ascii "d:" ++ decimal (BitVec.ofNat w hash).toInt ++ 58 :: decimal offset.toInt
  | some ⟨.ctrl,hash,ptr⟩ => ascii "c:" ++ decimal (BitVec.ofNat w hash).toInt ++ 58 :: pointer ptr.toNat

/-- The members that get a line. -/
def exposed : Decl × Member → Bool
  | (_,.field f) => f.storage == .prop && !(f.isPrivate || f.isInternal)
  | (c,.method m) => registrable c m
  | _ => false

section Generator

variable (table : Table) (image : Image) (classname : String)

def memberPair : Decl × Member → Option Pair
  | (c,.field f) => if exposed (c,.field f) then some ⟨.data,o9Hash f.name,image.offset classname f.name⟩ else none
  | (c,.method m) => if exposed (c,.method m) then some ⟨.ctrl,o9Hash m.name,image.handler c.name m.name⟩ else none
  | _ => none

def genCacheEntriesBuf : Nat → Decl → List Line
  | 0, _ => []
  | depth+1, c => none :: c.members.flatMap fun
    | .inherit name _ => match findClass table name with
      | some p => genCacheEntriesBuf depth p
      | none => []
    | m => (memberPair image classname (c,m)).toList.map some

end Generator

/-- What is in a buffer that has room for `room` bytes. -/
def cacheText (classname : String) (lines : List Line) (room : Nat) : Bytes :=
  (lines.flatMap fun line => lineText w classname line ++ [newline]).take room

/-- Each pair in the slot of its hash, unless a later one took the slot. -/
def stored (lines : List Line) : AsmTable :=
  lines.reduceOption.foldl (fun table p => put table p.tier p.hash p.ptr) empty

/-- The lines of a class give the table with their pairs and nothing else, whatever room there is. -/
def RoundTrip (H : Hierarchy) (image : Image) (c : Decl) : Prop :=
  ∀ room, fillFromBuf w empty (cacheText w c.name (genCacheEntriesBuf H.table image c.name H.depth c) room) =
    stored (genCacheEntriesBuf H.table image c.name H.depth c)

section Reading

variable {w : Nat} {classname : String} {lines : List Line}

theorem newline_not_mem (clean : newline ∉ ascii classname) (line : Line) : newline ∉ lineText w classname line := by
  have digits (v : Int) : newline ∉ decimal v := by
    intro member
    exact absurd (Numbers.decimal_range member).1 (by decide)
  have hex (n : Nat) : newline ∉ pointer n := by
    unfold pointer
    split
    · decide
    · intro member
      obtain ⟨d,digit,same⟩ := mem_map.mp (mem_reverse.mp member)
      have range := (Numbers.hexDigit_range d (Nat.digits_lt_base (by decide) digit)).1
      rw [same] at range
      exact absurd range (by decide)
  unfold lineText
  split <;> simp [digits,hex,clean] <;> decide

theorem read_line (clean : newline ∉ ascii classname) (line : Line) (rest : Bytes) :
    Lines.read newline [] (lineText w classname line ++ newline :: rest) =
      lineText w classname line :: Lines.read newline [] rest := by
  rw [Lines.read_append (newline_not_mem clean line)]
  simp [Lines.read]

theorem fillLine_none (table : AsmTable) (lead : part <+: lineText w classname none) :
    fillLine w table part = table := by
  have text : lineText w classname none = 115 :: (ascii "eg:" ++ ascii classname) := by simp [lineText,ascii]
  cases part with
  | nil => rfl
  | cons first part =>
    rw [text,cons_prefix_cons] at lead
    simp [fillLine,lead.1]

/-- The key of such a line is its first letter alone, and its value begins with the hash. -/
theorem fillLine_some (table : AsmTable) (p : Pair) :
    ∃ v, fillLine w table (lineText w classname (some p)) = put table p.tier 0 v ∧ (p.hash = 0 → v = 0) := by
  have key : strtoul w 10 [] = 0 := by simp [strtoul,magnitude,Numbers.readDigits]
  have zero : decimal (BitVec.ofNat w 0).toInt = [48] := by
    rw [BitVec.toInt_zero]
    rfl
  obtain ⟨tier,hash,ptr⟩ := p
  cases tier with
  | data =>
    refine ⟨_,by simp [fillLine,lineText,ascii,key]; rfl,?_⟩
    rintro rfl
    have number (rest : Bytes) : Text.strtol (48 :: 58 :: rest) = 0 := rfl
    have positive : 0 < (2 : Int)^(w-1) := by positivity
    have clamped : max (-2^(w-1)) (min 0 (2^(w-1) - 1)) = (0 : Int) := by omega
    rw [zero,strtol,singleton_append,number,clamped]
    rfl
  | ctrl =>
    refine ⟨_,by simp [fillLine,lineText,ascii,key]; rfl,?_⟩
    rintro rfl
    rw [zero]
    simp [strtoul,isSpace,magnitude,Numbers.readDigits,Numbers.digitValue]

def filled (w : Nat) (classname : String) (lines : List Line) : AsmTable :=
  (lines.map (lineText w classname)).foldl (fillLine w) empty

theorem filled_concat (before : List Line) (line : Line) : filled w classname (before ++ [line]) =
    fillLine w (filled w classname before) (lineText w classname line) := by
  simp [filled]

theorem filled_hash (lines : List Line) (tier : Tier) (i : Fin 64) : (filled w classname lines tier i).hash = 0 := by
  induction lines using List.reverseRecOn generalizing tier i with
  | nil => rfl
  | append_singleton before line ih =>
    rw [filled_concat]
    cases line with
    | none => rw [fillLine_none _ prefix_rfl,ih]
    | some p =>
      obtain ⟨v,is,_⟩ := fillLine_some (filled w classname before) p
      rw [is,put]
      split
      · rfl
      · exact ih tier i

/-- The last pair is not found again: its hash would be 0, and its pointer null. -/
theorem no_pairs (proper : ∀ p, some p ∈ lines → p.ptr ≠ 0#64) (same : filled w classname lines = stored lines) :
    lines.reduceOption = [] := by
  induction lines using List.reverseRecOn with
  | nil => rfl
  | append_singleton before line ih =>
    have before_proper (p : Pair) (member : some p ∈ before) := proper p (mem_append_left _ member)
    cases line with
    | none =>
      rw [filled_concat,fillLine_none _ prefix_rfl] at same
      simpa [stored,reduceOption_append] using ih before_proper (by simpa [stored,reduceOption_append] using same)
    | some p =>
      have last : stored (before ++ [some p]) = put (stored before) p.tier p.hash p.ptr := by
        simp [stored,reduceOption_append]
      have hashes : (filled w classname (before ++ [some p]) p.tier (Fin.ofNat 64 p.hash)).hash = 0 := filled_hash ..
      have none : p.hash = 0 := by simpa [same,last,put] using hashes
      obtain ⟨v,is,zero⟩ := fillLine_some (w := w) (filled w classname before) p
      rw [filled_concat,is,zero none,last,none] at same
      have slot := congrFun (congrFun same p.tier) 0
      exact absurd (by simpa [put] using slot.symm) (proper p (by simp))

theorem fill_cacheText (clean : newline ∉ ascii classname) (lines : List Line) :
    ∃ room, fillFromBuf w empty (cacheText w classname lines room) = filled w classname lines := by
  refine ⟨_,congrArg (foldl (fillLine w) empty) ((congrArg _ take_length).trans ?_)⟩
  induction lines with
  | nil => rfl
  | cons line rest ih => rw [flatMap_cons,append_assoc,singleton_append,read_line clean,ih,map_cons]

theorem fill_segs (clean : newline ∉ ascii classname) (segs : lines.reduceOption = []) (room : Nat) :
    fillFromBuf w table (cacheText w classname lines room) = table := by
  induction lines generalizing room with
  | nil => simp [cacheText,fillFromBuf,Lines.read]
  | cons line rest ih =>
    obtain ⟨rfl,segs⟩ : line = none ∧ rest.reduceOption = [] := by cases line <;> simp_all
    rw [cacheText,flatMap_cons,append_assoc,take_append,fillFromBuf]
    cases left : room - (lineText w classname none).length with
    | zero =>
      have lead : (lineText w classname none).take room <+: lineText w classname none := take_prefix ..
      have inside : newline ∉ (lineText w classname none).take room :=
        fun member => newline_not_mem clean none (lead.subset member)
      rw [take_zero,Lines.read_append inside,Lines.read]
      split
      · rfl
      · exact fillLine_none table lead
    | succ more =>
      rw [take_of_length_le (by omega),singleton_append,take_succ_cons,read_line clean,foldl_cons,
        fillLine_none table prefix_rfl]
      exact ih segs more

end Reading

theorem genCacheEntriesBuf_pairs (table : Table) (image : Image) (classname : String) (depth : Nat) (c : Decl) :
    (genCacheEntriesBuf table image classname depth c).reduceOption =
      (items (byName table) depth c).filterMap (memberPair image classname) := by
  have single (r : Decl × Member) : ((memberPair image classname r).toList.map some).filterMap id =
      [r].filterMap (memberPair image classname) := by
    cases has : memberPair image classname r <;> simp [has]
  induction depth generalizing c with
  | zero => rfl
  | succ depth ih =>
    rw [genCacheEntriesBuf,reduceOption_cons_of_none,items_succ,expand_byName,filterMap_flatMap,reduceOption,
      filterMap_flatMap]
    apply flatMap_congr
    intro m member
    cases m with
    | inherit name => cases found : findClass table name <;> simp [found,← ih,reduceOption]
    | _ => exact single _

theorem memberPair_spec (image : Image) (classname : String) (r : Decl × Member) :
    (memberPair image classname r = none ↔ exposed r = false) ∧
      ∀ p, memberPair image classname r = some p → p.ptr ≠ 0#64 := by
  obtain ⟨c,m⟩ := r
  cases m with
  | field f => cases has : exposed (c,.field f) <;> simp [memberPair,has,image.offset_ne]
  | method m => cases has : exposed (c,.method m) <;> simp [memberPair,has,image.handler_ne]
  | _ => simp [memberPair,exposed]

def someImage : Image := ⟨fun _ _ => 4464,fun _ _ => 4464,by simp,by simp⟩

def counter : Decl := { name := "Counter", members := [.field { name := "n", type := some (.name "int64") }] }

end Objective9c.DispatchCache
