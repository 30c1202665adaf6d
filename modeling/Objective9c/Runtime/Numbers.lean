import Mathlib.Data.Nat.Digits.Defs
import Objective9c.Lib.Text

/-! Numbers as text and as bytes: `strtoll` with base 0, which takes the base from the text, against the
decimals that `%lld` prints; little-endian bytes; and the hexadecimal form of a cell. -/
namespace Objective9c.Numbers

open Text List Bool

section Decimal

def digitValue (c : UInt8) : Option Nat :=
  if 48 ≤ c ∧ c ≤ 57 then some (c.toNat - 48)
  else if 97 ≤ c ∧ c ≤ 122 then some (c.toNat - 87)
  else if 65 ≤ c ∧ c ≤ 90 then some (c.toNat - 55)
  else none

def readDigits (base : Nat) (acc : Nat) : Bytes → Nat
  | [] => acc
  | c :: rest => match digitValue c with
    | some d => if d < base then readDigits base (acc * base + d) rest else acc
    | none => acc

def magnitude (text : Bytes) : Nat :=
  match text with
  | 48 :: 120 :: rest | 48 :: 88 :: rest => readDigits 16 0 rest
  | 48 :: rest => readDigits 8 0 rest
  | rest => readDigits 10 0 rest

def clamp (v : Int) : Int := max (-2 ^ 63) (min v (2 ^ 63 - 1))

/-- `strtoll(text, nil, 0)`. -/
def strtoll (text : Bytes) : Int :=
  match text.dropWhile isSpace with
  | 45 :: rest => clamp (-(magnitude rest))
  | 43 :: rest => clamp (magnitude rest)
  | rest => clamp (magnitude rest)

def digitByte (c : Char) : UInt8 := c.toNat.toUInt8

theorem digitByte_toNat (digit : c.isDigit = true) :
    (digitByte c).toNat = c.toNat ∧ 48 ≤ c.toNat ∧ c.toNat ≤ 57 := by
  simp only [Char.isDigit,and_eq_true,decide_eq_true_eq,ge_iff_le,UInt32.le_iff_toNat_le] at digit
  have low : 48 ≤ c.toNat := digit.1
  have high : c.toNat ≤ 57 := digit.2
  refine ⟨?_,low,high⟩
  simp only [digitByte,Nat.toUInt8,UInt8.toNat_ofNat']
  omega

theorem digitValue_digit (digit : c.isDigit = true) : digitValue (digitByte c) = some (c.toNat - 48) ∧
    c.toNat - 48 < 10 := by
  obtain ⟨value,low,high⟩ := digitByte_toNat digit
  refine ⟨?_,by omega⟩
  rw [digitValue,if_pos,value]
  simp only [UInt8.le_iff_toNat_le,value]
  exact ⟨low,high⟩

theorem readDigits_digits {chars : List Char} (digits : ∀ c ∈ chars, c.isDigit = true) (acc : Nat) :
    readDigits 10 acc (chars.map digitByte) = Nat.ofDigitChars 10 chars acc := by
  induction chars generalizing acc with
  | nil => simp [readDigits,Nat.ofDigitChars_eq_foldl]
  | cons c rest ih =>
    obtain ⟨value,small⟩ := digitValue_digit (digits c mem_cons_self)
    have later := ih (fun d member => digits d (mem_cons_of_mem c member)) (acc * 10 + (c.toNat - 48))
    rw [map_cons,readDigits,value]
    simp only [small,if_true]
    rw [later,Nat.ofDigitChars_eq_foldl,Nat.ofDigitChars_eq_foldl,foldl_cons,Nat.mul_comm]
    rfl

theorem head_toDigits (positive : 0 < n) : ∃ c rest, Nat.toDigits 10 n = c :: rest ∧ c ≠ '0' := by
  induction n using Nat.strongRecOn with
  | _ n ih =>
    by_cases small : n < 10
    · have nonzero : ∀ n < 10, 0 < n → n.digitChar ≠ '0' := by decide
      exact ⟨n.digitChar,[],Nat.toDigits_of_lt_base small,nonzero n small positive⟩
    · obtain ⟨c,rest,first,nonzero⟩ := ih (n / 10) (by omega) (by omega)
      rw [Nat.toDigits_of_base_le (by decide) (by omega),first]
      exact ⟨c,_,rfl,nonzero⟩

theorem magnitude_toDigits (n : Nat) : magnitude ((Nat.toDigits 10 n).map digitByte) = n := by
  by_cases zero : n = 0
  · subst zero
    decide
  · have digits : ∀ c ∈ Nat.toDigits 10 n, c.isDigit = true :=
      fun c member => Nat.isDigit_of_mem_toDigits (by decide) (by decide) member
    have read := readDigits_digits digits 0
    rw [Nat.ofDigitChars_toDigits (by decide) (by decide)] at read
    obtain ⟨c,rest,first,nonzero⟩ := head_toDigits (by omega : 0 < n)
    rw [first,map_cons] at read ⊢
    have apart : digitByte c ≠ 48 := by
      intro same
      have digit := digits c (by simp [first])
      obtain ⟨value,-,-⟩ := digitByte_toNat digit
      rw [same] at value
      exact nonzero (Char.toNat_inj.mp value.symm)
    unfold magnitude
    split
    next h => exact absurd (cons.inj h).1 apart
    next h => exact absurd (cons.inj h).1 apart
    next h => exact absurd (cons.inj h).1 apart
    next => exact read

theorem head_digit (n : Nat) : ∃ c rest, (Nat.toDigits 10 n).map digitByte = c :: rest ∧
    48 ≤ c.toNat ∧ c.toNat ≤ 57 := by
  obtain ⟨c,rest,chars⟩ := exists_cons_of_ne_nil (Nat.toDigits_ne_nil (b := 10) (n := n))
  have digit : c.isDigit = true :=
    Nat.isDigit_of_mem_toDigits (b := 10) (n := n) (by decide) (by decide) (by simp [chars])
  obtain ⟨value,low,high⟩ := digitByte_toNat digit
  exact ⟨digitByte c,rest.map digitByte,by simp [chars],by omega,by omega⟩

theorem not_space (low : 45 ≤ c.toNat) : isSpace c = false := by
  simp only [isSpace,or_eq_false_iff,and_eq_false_iff,decide_eq_false_iff_not,UInt8.le_iff_toNat_le]
  constructor
  · rintro rfl
    exact absurd low (by decide)
  · right
    have nine : (13 : UInt8).toNat = 13 := rfl
    omega

theorem clamp_eq (low : -2 ^ 63 ≤ v) (high : v < 2 ^ 63) : clamp v = v := by
  unfold clamp
  omega

theorem strtoll_decimal (low : -2 ^ 63 ≤ v) (high : v < 2 ^ 63) : strtoll (decimal v) = v := by
  have read := magnitude_toDigits v.natAbs
  obtain ⟨c,rest,chars,digitLow,digitHigh⟩ := head_digit v.natAbs
  have shape : decimal v = if v < 0 then 45 :: (c :: rest) else c :: rest := by
    rw [decimal,← chars]
    rfl
  rw [chars] at read
  rw [shape,strtoll]
  by_cases negative : v < 0
  · rw [if_pos negative,dropWhile_cons_of_neg (by decide)]
    simp only [read]
    have same : -(v.natAbs : Int) = v := by omega
    rw [same,clamp_eq low high]
  · rw [if_neg negative,dropWhile_cons_of_neg (by simp [not_space (by omega : 45 ≤ c.toNat)])]
    have same : (v.natAbs : Int) = v := by omega
    split
    next h =>
      obtain rfl := (cons.inj h).1
      exact absurd digitLow (by decide)
    next h =>
      obtain rfl := (cons.inj h).1
      exact absurd digitLow (by decide)
    next => rw [read,same,clamp_eq low high]

theorem decimal_range (member : c ∈ decimal v) : 45 ≤ c.toNat ∧ c.toNat ≤ 57 := by
  have digits : ∀ c ∈ (Nat.toDigits 10 v.natAbs).map digitByte, 45 ≤ c.toNat ∧ c.toNat ≤ 57 := by
    intro c member
    obtain ⟨d,there,rfl⟩ := mem_map.mp member
    obtain ⟨value,low,high⟩ := digitByte_toNat (Nat.isDigit_of_mem_toDigits (by decide) (by decide) there)
    omega
  unfold decimal at member
  split at member
  · obtain rfl | member := mem_cons.mp member
    · decide
    · exact digits c member
  · exact digits c member

/-- The text after blanks and a sign. -/
def unsigned (text : Bytes) : Bytes :=
  match text.dropWhile isSpace with
  | 45 :: rest => rest
  | 43 :: rest => rest
  | rest => rest

/-- The base and the digits; the zero of an octal number is one of its digits. -/
def baseAndDigits (text : Bytes) : Nat × Bytes :=
  match text with
  | 48 :: 120 :: rest | 48 :: 88 :: rest => (16,rest)
  | 48 :: rest => (8,48 :: rest)
  | rest => (10,rest)

/-- `strtoll(text, &end, 0)` of a text with digits whose end is where `end` comes to. -/
def strtollWhole (text : Bytes) : Option Int :=
  let (base,digits) := baseAndDigits (unsigned text)
  if digits ≠ [] ∧ digits.all (fun c => (digitValue c).any (· < base)) then some (strtoll text) else none

theorem unsigned_digits (low : 48 ≤ c.toNat) : unsigned (c :: rest) = c :: rest := by
  rw [unsigned,dropWhile_cons_of_neg (by simp [not_space (by omega : 45 ≤ c.toNat)])]
  split
  next h =>
    obtain rfl := (cons.inj h).1
    exact absurd low (by decide)
  next h =>
    obtain rfl := (cons.inj h).1
    exact absurd low (by decide)
  next => rfl

theorem strtollWhole_decimal (low : 0 ≤ v) (high : v < 2 ^ 63) : strtollWhole (decimal v) = some v := by
  have read := strtoll_decimal (by omega : -2 ^ 63 ≤ v) high
  by_cases zero : v = 0
  · subst zero
    decide
  have shape : decimal v = (Nat.toDigits 10 v.natAbs).map digitByte := by
    rw [decimal,if_neg (by omega)]
    rfl
  have digits : ∀ c ∈ Nat.toDigits 10 v.natAbs, c.isDigit = true :=
    fun c member => Nat.isDigit_of_mem_toDigits (by decide) (by decide) member
  obtain ⟨c,rest,first,nonzero⟩ := head_toDigits (by omega : 0 < v.natAbs)
  obtain ⟨value,digitLow,-⟩ := digitByte_toNat (digits c (by simp [first]))
  have apart : digitByte c ≠ 48 := by
    intro same
    rw [same] at value
    exact nonzero (Char.toNat_inj.mp value.symm)
  have base : baseAndDigits (unsigned (decimal v)) = (10,decimal v) := by
    rw [shape,first,map_cons,unsigned_digits (by omega)]
    unfold baseAndDigits
    split
    next h => exact absurd (cons.inj h).1 apart
    next h => exact absurd (cons.inj h).1 apart
    next h => exact absurd (cons.inj h).1 apart
    next => rfl
  unfold strtollWhole
  rw [base]
  dsimp only
  rw [if_pos,read]
  refine ⟨by simp [shape,first],?_⟩
  rw [shape,all_map,all_eq_true]
  intro d member
  obtain ⟨known,small⟩ := digitValue_digit (digits d member)
  simp [known,small]

end Decimal

section Bytes

def littleValue : Bytes → Nat
  | [] => 0
  | c :: rest => c.toNat + 256 * littleValue rest

def littleBytes : Nat → Nat → Bytes
  | 0, _ => []
  | n+1, v => UInt8.ofNat v :: littleBytes n (v / 256)

@[simp] theorem length_littleBytes (n v : Nat) : (littleBytes n v).length = n := by
  induction n generalizing v with
  | zero => rfl
  | succ n ih => simp [littleBytes,ih]

theorem take_littleBytes (m n v : Nat) : (littleBytes m v).take n = littleBytes (min m n) v := by
  induction m generalizing n v with
  | zero => simp [littleBytes]
  | succ m ih =>
    cases n with
    | zero => simp [littleBytes]
    | succ => rw [Nat.succ_min_succ,littleBytes,littleBytes,take_succ_cons,ih]

theorem littleValue_lt (bytes : Bytes) : littleValue bytes < 256 ^ bytes.length := by
  induction bytes with
  | nil => decide
  | cons c =>
    have byte := c.toNat_lt
    rw [littleValue,length_cons,Nat.pow_succ]
    omega

theorem littleBytes_littleValue (bytes : Bytes) : littleBytes bytes.length (littleValue bytes) = bytes := by
  induction bytes with
  | nil => rfl
  | cons c rest ih =>
    have byte := c.toNat_lt
    have low : UInt8.ofNat (c.toNat + 256 * littleValue rest) = c := by
      apply UInt8.toNat_inj.mp
      rw [UInt8.toNat_ofNat']
      omega
    have high : (c.toNat + 256 * littleValue rest) / 256 = littleValue rest := by omega
    rw [length_cons,littleValue,littleBytes,low,high,ih]

/-- A 64-bit pattern read as a `vlong`. -/
def signed (v : Nat) : Int := if v < 2 ^ 63 then v else (v : Int) - 2 ^ 64

def pattern (v : Int) : Nat := (v % 2 ^ 64).toNat

theorem pattern_signed (small : v < 2 ^ 64) : pattern (signed v) = v := by
  unfold pattern signed
  split <;> omega

theorem signed_range (small : v < 2 ^ 64) : -2 ^ 63 ≤ signed v ∧ signed v < 2 ^ 63 := by
  unfold signed
  split <;> omega

end Bytes

section Hex

def hexDigit (n : Nat) : UInt8 := if n < 10 then UInt8.ofNat (48 + n) else UInt8.ofNat (87 + n)

def hexText : Bytes → Bytes
  | [] => []
  | c :: rest => hexDigit (c.toNat / 16) :: hexDigit (c.toNat % 16) :: hexText rest

def hexval (c : UInt8) : Option Nat :=
  if 48 ≤ c ∧ c ≤ 57 then some (c.toNat - 48)
  else if 97 ≤ c ∧ c ≤ 102 then some (c.toNat - 87)
  else if 65 ≤ c ∧ c ≤ 70 then some (c.toNat - 55)
  else none

/-- Pairs of digits into `n` bytes; from the first pair that is none on the bytes stay zero. -/
def readHex : Nat → Bytes → Bytes
  | 0, _ => []
  | n+1, a :: b :: rest => match hexval a, hexval b with
    | some hi, some lo => UInt8.ofNat (hi * 16 + lo) :: readHex n rest
    | _, _ => List.replicate (n + 1) 0
  | n+1, _ => List.replicate (n + 1) 0

@[simp] theorem length_readHex (n : Nat) (text : Bytes) : (readHex n text).length = n := by
  induction n generalizing text with
  | zero => rfl
  | succ n ih =>
    match text with
    | [] | [_] => simp [readHex]
    | a :: b :: rest =>
      unfold readHex
      split
      next => rw [length_cons,ih]
      next => simp

theorem hexval_hexDigit : ∀ n < 16, hexval (hexDigit n) = some n := by decide

theorem hexDigit_range : ∀ n < 16, 48 ≤ (hexDigit n).toNat ∧ (hexDigit n).toNat ≠ 58 := by decide

theorem readHex_hexText (bytes : Bytes) : readHex bytes.length (hexText bytes) = bytes := by
  induction bytes with
  | nil => rfl
  | cons c rest ih =>
    have byte := c.toNat_lt
    have whole : UInt8.ofNat (c.toNat / 16 * 16 + c.toNat % 16) = c := by
      apply UInt8.toNat_inj.mp
      rw [UInt8.toNat_ofNat']
      omega
    rw [length_cons,hexText,readHex,hexval_hexDigit _ (by omega),hexval_hexDigit _ (by omega)]
    simp only [whole,ih]

theorem hexText_range (member : c ∈ hexText bytes) : 48 ≤ c.toNat ∧ c.toNat ≠ 58 := by
  induction bytes with
  | nil => simp [hexText] at member
  | cons d rest ih =>
    have byte := d.toNat_lt
    obtain rfl | rfl | member : c = hexDigit (d.toNat / 16) ∨ c = hexDigit (d.toNat % 16) ∨ c ∈ hexText rest := by
      simpa [hexText] using member
    · exact hexDigit_range _ (by omega)
    · exact hexDigit_range _ (by omega)
    · exact ih member

end Hex

end Objective9c.Numbers
