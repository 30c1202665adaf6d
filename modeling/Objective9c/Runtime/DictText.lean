import Objective9c.Lib.Buckets
import Objective9c.Lib.Lines
import Objective9c.Runtime.Numbers

/-! The text a dictionary is persisted as: a line for each entry, key and value apart by a colon. Keys and
values are cells of a kind and a size. Nothing is escaped, so the question is which cells survive. -/
namespace Objective9c.DictText

open Text Numbers List Buckets

section Cells

inductive Kind where
  | raw | string | cstr | int | double
deriving DecidableEq

/-- A C string has no zero byte inside. -/
abbrev CText := { text : Bytes // (0 : UInt8) ∉ text }

/-- What a cell of `n` bytes holds: its bytes, or the string it points to. An O9String has its own length, and a nil
one reads as empty; a C string may be nil. -/
def Cell : Kind → Nat → Type
  | .string, _ => Bytes
  | .cstr, _ => Option CText
  | .raw, n | .int, n | .double, n => { bytes : Bytes // bytes.length = n }

instance : (kind : Kind) → (n : Nat) → DecidableEq (Cell kind n)
  | .string, _ => inferInstanceAs (DecidableEq Bytes)
  | .cstr, _ => inferInstanceAs (DecidableEq (Option CText))
  | .raw, n | .int, n | .double, n => inferInstanceAs (DecidableEq { bytes : Bytes // bytes.length = n })

/-- `%g` and `strtod` on the bytes of a double. -/
structure Doubles where
  print : Bytes → Bytes
  read : Bytes → Bytes

def o9DictHashBytes (bytes : Bytes) : Nat := bytes.foldl (fun h c => ((h <<< 5) + h) + c.toNat) 5381 % 2 ^ 32 % 64

def hashCell : (kind : Kind) → (n : Nat) → Cell kind n → Nat
  | .string, _, s => o9DictHashBytes s
  | .cstr, _, none => 0
  | .cstr, _, some text => o9DictHashBytes text.1
  | .raw, _, b | .int, _, b | .double, _, b => o9DictHashBytes b.1

theorem hashCell_lt (cell : Cell kind n) : hashCell kind n cell < 64 := by
  have bound (bytes : Bytes) : o9DictHashBytes bytes < 64 := Nat.mod_lt _ (by decide)
  cases kind with
  | string => exact bound _
  | cstr =>
    cases cell with
    | none => exact Nat.zero_lt_succ _
    | some => exact bound _
  | raw => exact bound _
  | int => exact bound _
  | double => exact bound _

/-- The eight bytes that are printed, or as many as there are. -/
def intText (bytes : Bytes) : Bytes := decimal (signed (littleValue (bytes.take 8)))

def rawText (bytes : Bytes) : Bytes := 48 :: 120 :: hexText bytes

def cellText (doubles : Doubles) : (kind : Kind) → (n : Nat) → Cell kind n → Bytes
  | .string, _, s => cstr s
  | .cstr, _, none => []
  | .cstr, _, some text => text.1
  | .int, _, b => intText b.1
  | .double, _, b => doubles.print (b.1.take 8)
  | .raw, _, b => rawText b.1

/-- `n` bytes of which as many are written as there are. -/
def padded (n : Nat) (bytes : Bytes) : { bytes : Bytes // bytes.length = n } :=
  ⟨bytes.take n ++ List.replicate (n - bytes.length) 0,by simp; omega⟩

def readInt (n : Nat) (text : Bytes) : { bytes : Bytes // bytes.length = n } :=
  padded n (littleBytes 8 (pattern (strtoll text)))

def readRaw (n : Nat) (text : Bytes) : { bytes : Bytes // bytes.length = n } :=
  match text with
  | 48 :: 120 :: rest => ⟨readHex n rest,length_readHex n rest⟩
  | rest => ⟨readHex n rest,length_readHex n rest⟩

theorem zero_notMem_cstr (text : Bytes) : (0 : UInt8) ∉ cstr text := by
  intro member
  simpa using mem_takeWhile_imp member

/-- The text is what stands in the buffer from some position on; a string ends at the first zero. -/
def parseCell (doubles : Doubles) : (kind : Kind) → (n : Nat) → Bytes → Cell kind n
  | .string, _, text => cstr text
  | .cstr, _, text => some ⟨cstr text,zero_notMem_cstr text⟩
  | .int, n, text => readInt n text
  | .double, n, text => padded n (doubles.read text)
  | .raw, n, text => readRaw n text

end Cells

section Model

/-- The kinds and sizes that a dictionary is made with. -/
structure Shape where
  keykind : Kind
  valkind : Kind
  keysz : Nat
  valsz : Nat

variable {shape : Shape}

abbrev Shape.Key (shape : Shape) : Type := Cell shape.keykind shape.keysz

abbrev Shape.Val (shape : Shape) : Type := Cell shape.valkind shape.valsz

def Shape.hash (shape : Shape) : shape.Key → Nat := hashCell shape.keykind shape.keysz

def size : Nat := 64

/-- The chains of a dictionary, whatever is taken to stand in a value's cell. -/
structure Table (shape : Shape) (ν : Type u) where
  buckets : Nat → List (shape.Key × ν)
  sound : Buckets.Sound Prod.fst shape.hash buckets

abbrev O9Dict (shape : Shape) : Type := Table shape shape.Val

def empty (shape : Shape) {ν : Type u} : Table shape ν := ⟨fun _ => [],Buckets.sound_empty⟩

variable {ν : Type u}

def getv (d : Table shape ν) (k : shape.Key) : Option ν :=
  (Buckets.find Prod.fst shape.hash d.buckets k).map Prod.snd

def setv (d : Table shape ν) (k : shape.Key) (v : ν) : Table shape ν :=
  ⟨Buckets.put shape.hash d.buckets k v,d.sound.put k v⟩

def entries (d : Table shape ν) : List (shape.Key × ν) := Buckets.entries size d.buckets

def colon : UInt8 := 58

def entryLine (doubles : Doubles) (e : shape.Key × shape.Val) : Bytes :=
  cellText doubles shape.keykind shape.keysz e.1 ++ colon :: cellText doubles shape.valkind shape.valsz e.2

def serialize (doubles : Doubles) (d : O9Dict shape) : Bytes :=
  (entries d).flatMap fun e => entryLine doubles e ++ [newline]

def fields (line : Bytes) : Option (Bytes × Bytes) :=
  if colon ∈ line then some (line.takeWhile (· ≠ colon),(line.dropWhile (· ≠ colon)).tail) else none

def readLine (doubles : Doubles) (d : O9Dict shape) (line : Bytes) : O9Dict shape :=
  match fields line with
  | none => d
  | some (k,v) => setv d (parseCell doubles _ _ k) (parseCell doubles _ _ v)

/-- The loop stops at the end of the text; the empty line that a last newline leaves has no colon. -/
def deserialize (doubles : Doubles) (d : O9Dict shape) (buf : Bytes) : O9Dict shape :=
  ((cstr buf).splitOn newline).foldl (readLine doubles) d

end Model

section CellTexts

variable {kind : Kind} {n : Nat} {doubles : Doubles} {seps : Bytes}

/-- A string that can stand in a line. -/
def Plain (seps text : Bytes) : Prop := ∀ c ∈ text, c ≠ 0 ∧ c ∉ seps

instance (seps text : Bytes) : Decidable (Plain seps text) :=
  inferInstanceAs (Decidable (∀ c ∈ text, c ≠ 0 ∧ c ∉ seps))

/-- The text of the cell has none of the separators, and reads as the cell again. A string with a zero inside,
a nil C string and an integer with more than eight bytes in use do not. -/
def Survives (seps : Bytes) : (kind : Kind) → (n : Nat) → Cell kind n → Prop
  | .string, _, s => Plain seps s
  | .cstr, _, none => False
  | .cstr, _, some text => Plain seps text.1
  | .int, _, b => ∀ c ∈ b.1.drop 8, c = 0
  | .raw, _, _ | .double, _, _ => True

theorem plain_cstr (text : Bytes) (clean : ∀ c ∈ text, c ∉ seps) : Plain seps (cstr text) := by
  intro c member
  refine ⟨?_,clean c (takeWhile_subset _ member)⟩
  rintro rfl
  exact zero_notMem_cstr text member

theorem Plain.cstr_eq (plain : Plain seps text) : cstr text = text :=
  cstr_eq_self fun c member => (plain c member).1

theorem readInt_intText (bytes : Bytes) (zeros : ∀ c ∈ bytes.drop 8, c = 0) :
    (readInt bytes.length (intText bytes)).1 = bytes := by
  have small : littleValue (bytes.take 8) < 2 ^ 64 := by
    refine Nat.lt_of_lt_of_le (littleValue_lt _) ?_
    calc 256 ^ (bytes.take 8).length ≤ 256 ^ 8 := Nat.pow_le_pow_right (by decide) (by simp)
      _ = 2 ^ 64 := by decide
  obtain ⟨low,high⟩ := signed_range small
  have first : (littleBytes 8 (littleValue (bytes.take 8))).take bytes.length = bytes.take 8 := by
    have whole := littleBytes_littleValue (bytes.take 8)
    rw [length_take] at whole
    rwa [take_littleBytes]
  have rest : replicate (bytes.length - 8) 0 = bytes.drop 8 := by
    rw [eq_comm,eq_replicate_iff]
    exact ⟨length_drop,zeros⟩
  rw [readInt,intText,strtoll_decimal low high,pattern_signed small]
  simp only [padded,length_littleBytes,first,rest]
  exact take_append_drop 8 bytes

theorem drop_readInt (text : Bytes) : ∀ c ∈ (readInt n text).1.drop 8, c = 0 := by
  intro c member
  have none : (take n (littleBytes 8 (pattern (strtoll text)))).drop 8 = [] := by simp
  rw [readInt,padded,drop_append,none,nil_append] at member
  exact eq_of_mem_replicate (mem_of_mem_drop member)

theorem parseCell_cellText (notDouble : kind ≠ .double) (cell : Cell kind n) (survives : Survives seps kind n cell) :
    parseCell doubles kind n (cellText doubles kind n cell) = cell := by
  cases kind with
  | string =>
    have plain : Plain seps cell := survives
    exact (congrArg cstr plain.cstr_eq).trans plain.cstr_eq
  | cstr =>
    cases cell with
    | none => exact survives.elim
    | some text =>
      have plain : Plain seps text.1 := survives
      exact congrArg some (Subtype.ext plain.cstr_eq)
  | int =>
    obtain ⟨bytes,rfl⟩ := cell
    exact Subtype.ext (readInt_intText bytes survives)
  | raw =>
    obtain ⟨bytes,rfl⟩ := cell
    exact Subtype.ext (readHex_hexText bytes)
  | double => exact absurd rfl notDouble

theorem plain_of_range (known : ∀ c ∈ seps, c = colon ∨ c = newline)
    (range : ∀ c ∈ text, 45 ≤ c.toNat ∧ c.toNat ≠ 58) : Plain seps text := by
  intro c member
  obtain ⟨low,other⟩ := range c member
  refine ⟨?_,fun member => ?_⟩
  · rintro rfl
    exact absurd low (by decide)
  · obtain rfl | rfl := known c member
    · exact other rfl
    · exact absurd low (by decide)

theorem plain_cellText (doubles : Doubles) (notDouble : kind ≠ .double) (cell : Cell kind n) (survives : Survives seps kind n cell)
    (known : ∀ c ∈ seps, c = colon ∨ c = newline) : Plain seps (cellText doubles kind n cell) := by
  cases kind with
  | string =>
    have plain : Plain seps cell := survives
    exact fun c member => plain c (takeWhile_subset _ member)
  | cstr =>
    cases cell with
    | none => exact survives.elim
    | some => exact survives
  | int =>
    refine plain_of_range known fun c member => ?_
    obtain ⟨low,high⟩ := decimal_range member
    exact ⟨low,by omega⟩
  | raw =>
    refine plain_of_range known fun c member => ?_
    have member : c ∈ rawText cell.1 := member
    obtain rfl | rfl | member : c = 48 ∨ c = 120 ∨ c ∈ hexText cell.1 := by simpa [rawText] using member
    · decide
    · decide
    · obtain ⟨low,other⟩ := hexText_range member
      exact ⟨by omega,other⟩
  | double => exact absurd rfl notDouble

theorem survives_parseCell {text : Bytes} (clean : ∀ c ∈ text, c ∉ seps) :
    Survives seps kind n (parseCell doubles kind n text) := by
  cases kind with
  | string | cstr => exact plain_cstr text clean
  | int => exact drop_readInt text
  | raw => trivial
  | double => trivial

end CellTexts

section Entries

variable {shape : Shape} {ν : Type u} {d : Table shape ν}

theorem getv_setv (d : Table shape ν) (k k' : shape.Key) (v : ν) :
    getv (setv d k v) k' = if k' = k then some v else getv d k' := by
  rw [getv,setv,find_put]
  split <;> rfl

theorem getv_iff : getv d k = some v ↔ (k,v) ∈ entries d := by
  have bound (k : shape.Key) : shape.hash k < size := hashCell_lt k
  rw [getv,Option.map_eq_some_iff,entries]
  constructor
  · rintro ⟨e,found,rfl⟩
    obtain ⟨member,rfl⟩ := (d.sound.find_iff bound).mp found
    exact member
  · intro member
    exact ⟨(k,v),(d.sound.find_iff bound).mpr ⟨member,rfl⟩,rfl⟩

theorem entries_nodup (d : Table shape ν) : ((entries d).map Prod.fst).Nodup := d.sound.keys_nodup

theorem entries_empty : entries (empty shape : Table shape ν) = [] := by
  simp [entries,empty,Buckets.entries]

theorem getv_empty (k : shape.Key) : getv (empty shape : Table shape ν) k = none := rfl

theorem getv_foldl_setv (es : List (shape.Key × ν)) (distinct : (es.map Prod.fst).Nodup)
    (d : Table shape ν) (k : shape.Key) (v : ν) : getv (es.foldl (fun d e => setv d e.1 e.2) d) k = some v ↔
      (k,v) ∈ es ∨ k ∉ es.map Prod.fst ∧ getv d k = some v := by
  induction es generalizing d with
  | nil => simp
  | cons e rest ih =>
    rw [map_cons,nodup_cons] at distinct
    rw [foldl_cons,ih distinct.2,getv_setv,map_cons,mem_cons,mem_cons,not_or]
    by_cases same : k = e.1
    · subst same
      have absent : (e.1,v) ∉ rest := fun member =>
        distinct.1 (mem_map.mpr ⟨_,member,rfl⟩)
      have first : (e.1,v) = e ↔ e.2 = v := by
        rw [Prod.ext_iff,eq_comm (a := e.2)]
        simp
      simp [absent,distinct.1,first]
    · have apart : (k,v) ≠ e := fun eq => same (congrArg Prod.fst eq)
      simp [same,apart]

end Entries

section RoundTrip

variable {shape : Shape} {doubles : Doubles} {d : O9Dict shape}

/-- Key and value stand in one line, and the key ends at the colon after it. -/
def EntrySurvives (e : shape.Key × shape.Val) : Prop :=
  Survives [colon,newline] shape.keykind shape.keysz e.1 ∧ Survives [newline] shape.valkind shape.valsz e.2

theorem fields_entry (clean : colon ∉ k) (v : Bytes) : fields (k ++ colon :: v) = some (k,v) := by
  have all : ∀ c ∈ k, decide (c ≠ colon) = true := by
    intro c member
    have apart : c ≠ colon := by
      rintro rfl
      exact clean member
    simpa using apart
  have taken : (k ++ colon :: v).takeWhile (· ≠ colon) = k := by
    rw [takeWhile_append_of_pos all]
    simp
  have dropped : (k ++ colon :: v).dropWhile (· ≠ colon) = colon :: v := by
    rw [dropWhile_append_of_pos all]
    simp
  rw [fields,if_pos (by simp),taken,dropped]
  rfl

theorem splitOn_lines {lines : List Bytes} (clean : ∀ line ∈ lines, newline ∉ line) :
    (lines.flatMap (· ++ [newline])).splitOn newline = lines ++ [[]] := by
  induction lines with
  | nil => rfl
  | cons line rest ih =>
    have first := clean line mem_cons_self
    have later := ih fun other member => clean other (mem_cons_of_mem line member)
    rw [flatMap_cons,append_assoc,singleton_append,
      splitOn_append_cons_self_of_not_mem first,later]
    rfl

variable (keys : shape.keykind ≠ .double) (vals : shape.valkind ≠ .double)
include keys vals

theorem plain_entryLine {e : shape.Key × shape.Val}
    (survives : EntrySurvives e) : Plain [newline] (entryLine doubles e) := by
  have key := plain_cellText doubles keys e.1 survives.1 (by simp)
  have val := plain_cellText doubles vals e.2 survives.2 (by simp)
  intro c member
  obtain member | rfl | member : c ∈ cellText doubles shape.keykind shape.keysz e.1 ∨ c = colon ∨
      c ∈ cellText doubles shape.valkind shape.valsz e.2 := by simpa [entryLine] using member
  · exact ⟨(key c member).1,fun line => (key c member).2 (mem_cons_of_mem colon line)⟩
  · decide
  · exact val c member

theorem readLine_entryLine
    (survives : EntrySurvives e) (d : O9Dict shape) : readLine doubles d (entryLine doubles e) = setv d e.1 e.2 := by
  have key := plain_cellText doubles keys e.1 survives.1 (by simp)
  have clean : colon ∉ cellText doubles shape.keykind shape.keysz e.1 := by
    intro member
    exact (key colon member).2 mem_cons_self
  rw [readLine,entryLine,fields_entry clean]
  simp only [parseCell_cellText keys e.1 survives.1,parseCell_cellText vals e.2 survives.2]

theorem deserialize_serialize
    (survive : ∀ e ∈ entries d, EntrySurvives e) (into : O9Dict shape) :
    deserialize doubles into (serialize doubles d) = (entries d).foldl (fun d e => setv d e.1 e.2) into := by
  have lines : serialize doubles d = ((entries d).map (entryLine doubles)).flatMap (· ++ [newline]) := by
    rw [serialize,flatMap_map]
  have clean : ∀ line ∈ (entries d).map (entryLine doubles), Plain [newline] line := by
    intro line member
    obtain ⟨e,there,rfl⟩ := mem_map.mp member
    exact plain_entryLine keys vals (survive e there)
  have whole : cstr (serialize doubles d) = serialize doubles d := by
    apply cstr_eq_self
    intro c member
    rw [lines] at member
    obtain ⟨line,there,member⟩ := mem_flatMap.mp member
    obtain member | rfl : c ∈ line ∨ c = newline := by simpa using member
    · exact (clean line there c member).1
    · decide
  rw [deserialize,whole,lines,splitOn_lines fun line member newlineIn => (clean line member _ newlineIn).2 (by simp),
    foldl_append,foldl_map]
  have last (d : O9Dict shape) : [[]].foldl (readLine doubles) d = d := rfl
  rw [last]
  apply foldl_ext
  intro d e member
  exact readLine_entryLine keys vals (survive e member) d

omit keys vals

theorem deserialize_survives (buf : Bytes) (into : O9Dict shape) (before : ∀ e ∈ entries into, EntrySurvives e) :
    ∀ e ∈ entries (deserialize doubles into buf), EntrySurvives e := by
  have each (lines : List Bytes) (clean : ∀ line ∈ lines, newline ∉ line) (into : O9Dict shape)
      (before : ∀ e ∈ entries into, EntrySurvives e) :
      ∀ e ∈ entries (lines.foldl (readLine doubles) into), EntrySurvives e := by
    induction lines generalizing into with
    | nil => exact before
    | cons line rest ih =>
      refine ih (fun other member => clean other (mem_cons_of_mem line member)) _ ?_
      have oneLine := clean line mem_cons_self
      unfold readLine fields
      by_cases found : colon ∈ line
      · rw [if_pos found]
        rintro ⟨k,v⟩ member
        rw [← getv_iff,getv_setv] at member
        split at member
        next same =>
          subst same
          cases member
          refine ⟨survives_parseCell fun c there => ?_,survives_parseCell fun c there => ?_⟩
          · have apart : c ≠ colon := by simpa using mem_takeWhile_imp there
            have notLine : c ≠ newline := fun same => oneLine (same ▸ takeWhile_subset _ there)
            simp [apart,notLine]
          · have notLine : c ≠ newline :=
              fun same => oneLine (same ▸ dropWhile_subset _ (mem_of_mem_tail there))
            simp [notLine]
        next => exact before _ (getv_iff.mp member)
      · rw [if_neg found]
        exact before
  refine each _ ?_ into before
  intro line member
  exact (Lines.not_mem_of_mem_splitOn member).1

/-- The text of the dictionary, read into an empty one, gives the same keys with the same values. -/
def RoundTrips (doubles : Doubles) (d : O9Dict shape) : Prop :=
  ∀ k, getv (deserialize doubles (empty shape) (serialize doubles d)) k = getv d k

theorem survive_of_roundTrips (back : RoundTrips doubles d) : ∀ e ∈ entries d, EntrySurvives e := by
  rintro ⟨k,v⟩ member
  rw [← getv_iff,← back k,getv_iff] at member
  exact deserialize_survives _ _ (by simp [entries_empty]) _ member

/-- A dictionary comes back from its text just if all its cells can stand in a line. -/
theorem dict_roundTrips_iff (doubles : Doubles) (d : O9Dict shape) (keys : shape.keykind ≠ .double)
    (vals : shape.valkind ≠ .double) : RoundTrips doubles d ↔ ∀ e ∈ entries d, EntrySurvives e := by
  refine ⟨survive_of_roundTrips,fun survive k => ?_⟩
  rw [deserialize_serialize keys vals survive]
  ext v
  rw [getv_foldl_setv _ (entries_nodup d),← getv_iff]
  simp [getv_empty]

def counts : Shape := ⟨.string,.int,8,8⟩

def word (text : Bytes) : counts.Key := text

/-- A cell of eight bytes. -/
def number (v : Nat) : counts.Val := ⟨littleBytes 8 v,length_littleBytes 8 v⟩

def noDoubles : Doubles := ⟨fun _ => [],fun _ => []⟩

theorem mem_of_filled {es : List (shape.Key × shape.Val)} (distinct : (es.map Prod.fst).Nodup)
    (member : e ∈ entries (es.foldl (fun d e => setv d e.1 e.2) (empty shape))) : e ∈ es := by
  obtain found | absent := (getv_foldl_setv es distinct (empty shape) e.1 e.2).mp (getv_iff.mpr member)
  · exact found
  · exact nomatch absent.2

/-- Two keys of one chain, the empty key and a negative number. -/
def someCounts : List (counts.Key × counts.Val) :=
  [(word [97,32,98],number (2 ^ 64 - 5)),(word [99],number 12),(word [],number 0)]

theorem some_counts_roundTrip :
    RoundTrips noDoubles (someCounts.foldl (fun d e => setv d e.1 e.2) (empty counts)) := by
  refine (dict_roundTrips_iff noDoubles _ (by decide) (by decide)).mpr ?_
  intro e member
  have listed := mem_of_filled (by decide) member
  have keys : ∀ text ∈ [[97,32,98],[99],[]], Plain [colon,newline] text := by decide +kernel
  have vals (v : Nat) : ∀ c ∈ (littleBytes 8 v).drop 8, c = 0 := by simp [drop_eq_nil_of_le]
  simp only [someCounts,mem_cons,not_mem_nil,or_false] at listed
  obtain rfl | rfl | rfl := listed
  · exact ⟨keys [97,32,98] (by simp),vals _⟩
  · exact ⟨keys [99] (by simp),vals _⟩
  · exact ⟨keys [] (by simp),vals _⟩

/-- The key `a:b` ends at its own colon. -/
theorem colon_key_lost : ¬∀ (shape : Shape) (doubles : Doubles) (d : O9Dict shape),
    shape.keykind ≠ .double → shape.valkind ≠ .double → RoundTrips doubles d := by
  intro always
  have back := always counts noDoubles (setv (empty counts) (word [97,58,98]) (number 5)) (by decide) (by decide)
  have survives := (survive_of_roundTrips back _ (getv_iff.mp ((getv_setv ..).trans (if_pos rfl)))).1
  have plain : Plain [colon,newline] [97,58,98] := survives
  exact (plain 58 (by decide)).2 (by decide)

end RoundTrip

end Objective9c.DictText
