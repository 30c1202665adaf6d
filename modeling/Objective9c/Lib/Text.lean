import Mathlib.Data.Int.Lemmas
import Mathlib.Data.List.TakeWhile

/-! Texts of C programs. A file is its bytes and a C string its bytes before the first zero. What `snprint` is given
for a `%s` is taken to be UTF-8, of which it copies whole characters for as long as they fit. -/
namespace Objective9c.Text

open List

abbrev Bytes := List UInt8

instance : LawfulBEq Bytes := inferInstance

def ascii (text : String) : Bytes := text.toList.map (fun c => c.toNat.toUInt8)

def tabChar : UInt8 := 9
def newline : UInt8 := 10
def carriage : UInt8 := 13
def slash : UInt8 := 47
def underscore : UInt8 := 95

def cstr (data : Bytes) : Bytes := data.takeWhile (· ≠ 0)

/-- What follows the first newline: `strchr(text, '\n') + 1`. -/
def afterNewline (text : Bytes) : Option Bytes :=
  match text.dropWhile (· ≠ newline) with
  | [] => none
  | _ :: rest => some rest

/-- `%d`, `%ld` and `%lld`. -/
def decimal (n : Int) : Bytes :=
  let digits := (Nat.toDigits 10 n.natAbs).map (fun c => c.toNat.toUInt8)
  if n < 0 then 45 :: digits else digits

def isSpace (c : UInt8) : Bool := c = 32 || (9 ≤ c && c ≤ 13)

def isDigit (c : UInt8) : Bool := 48 ≤ c && c ≤ 57

def digitsValue (text : Bytes) : Int :=
  (text.takeWhile isDigit).foldl (fun n c => n * 10 + (c.toNat - 48 : Nat)) 0

/-- `strtol(text, nil, 10)` of a number in range. -/
def strtol (text : Bytes) : Int :=
  match text.dropWhile isSpace with
  | 45 :: rest => -digitsValue rest
  | 43 :: rest => digitsValue rest
  | rest => digitsValue rest

/-- `write` at an offset. -/
def overwrite (data : Bytes) (offset : Nat) (text : Bytes) : Bytes :=
  data.take offset ++ replicate (offset - data.length) 0 ++ text ++ data.drop (offset + text.length)

/-- The whole characters that fit into `room` bytes, as `snprint` copies them. -/
def fitting : Nat → List Char → List Char
  | _, [] => []
  | room, c :: rest => if c.utf8Size ≤ room then c :: fitting (room - c.utf8Size) rest else []

/-- A byte within a character, behind its first one. -/
def continues (c : UInt8) : Bool := 128 ≤ c && c < 192

/-- The end of the whole characters among the first `n` bytes, at most `k` bytes before. -/
def boundary (text : Bytes) : Nat → Nat → Nat
  | 0, n => n
  | k+1, n => if text[n]?.any continues then boundary text k (n - 1) else n

/-- What `snprint` leaves of a text where it has room for `n` bytes; a character has at most four. -/
def cut (n : Nat) (text : Bytes) : Bytes := text.take (boundary text 3 n)

theorem cstr_eq_self (clean : ∀ c ∈ data, c ≠ 0) : cstr data = data := by
  rw [cstr,takeWhile_eq_self_iff]
  intro c member
  simpa using clean c member

theorem afterNewline_append (clean : newline ∉ line) (rest : Bytes) :
    afterNewline (line ++ newline :: rest) = some rest := by
  have all : ∀ c ∈ line, decide (c ≠ newline) = true := by
    intro c member
    have apart : c ≠ newline := by
      rintro rfl
      exact clean member
    simpa using apart
  rw [afterNewline,dropWhile_append_of_pos all]
  simp

theorem overwrite_nil (text : Bytes) : overwrite [] 0 text = text := by simp [overwrite]

theorem overwrite_length (data text : Bytes) : overwrite data data.length text = data ++ text := by simp [overwrite]

variable {text : Bytes}

theorem boundary_le (text : Bytes) (k n : Nat) : boundary text k n ≤ n ∧ n ≤ boundary text k n + k := by
  induction k generalizing n with
  | zero => simp [boundary]
  | succ k ih =>
    rw [boundary]
    split
    · have := ih (n - 1)
      omega
    · omega

theorem boundary_of_length_le (short : text.length ≤ n) : boundary text k n = n := by
  cases k <;> simp [boundary,short]

/-- Where a character is cut off as a whole, the text goes on in the middle of it. -/
theorem continues_of_boundary_lt (less : boundary text k n < n) : ∃ c, text[n]? = some c ∧ continues c = true := by
  cases k with
  | zero => simp [boundary] at less
  | succ k =>
    rw [boundary] at less
    split at less
    next inside => exact (Option.any_eq_true _ _).mp inside
    next => omega

/-- A character is cut off without the bytes before it. -/
theorem le_boundary (first : text[i]? = some c) (begins : continues c = false) (le : i ≤ n) :
    i ≤ boundary text k n := by
  induction k generalizing n with
  | zero => exact le
  | succ k ih =>
    rw [boundary]
    split
    next inside =>
      refine ih ?_
      have apart : i ≠ n := by
        rintro rfl
        simp [first,begins] at inside
      omega
    next => exact le

theorem boundary_append (inside : n < text.length) (rest : Bytes) :
    boundary (text ++ rest) k n = boundary text k n := by
  induction k generalizing n with
  | zero => rfl
  | succ k ih => rw [boundary,boundary,getElem?_append_left inside,ih (by omega)]

theorem cut_of_length_le (short : text.length ≤ n) : cut n text = text := by
  rw [cut,boundary_of_length_le short,take_of_length_le short]

theorem cut_of_plain (plain : ∀ c ∈ text, continues c = false) : cut n text = text.take n := by
  rw [cut]
  congr 1
  have := (boundary_le text 3 n).1
  by_contra less
  obtain ⟨c,there,inside⟩ := continues_of_boundary_lt (Nat.lt_of_le_of_ne this less)
  rw [plain c (mem_of_getElem? there)] at inside
  contradiction

theorem length_cut_le (n : Nat) (text : Bytes) : (cut n text).length ≤ n := by
  have := (boundary_le text 3 n).1
  rw [cut,length_take]
  omega

theorem cut_begins (n : Nat) (text : Bytes) : cut n text <+: text := take_prefix _ _

end Objective9c.Text
