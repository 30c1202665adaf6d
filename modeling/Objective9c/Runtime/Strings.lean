import Mathlib.Data.Int.Lemmas
import Mathlib.Data.List.Basic

/-! The strings of the runtime: copying a text with `o9_string_new` and cutting a part out of one with
`o9_string_slice`. Pointers read a block that ends with the zero byte of its string. -/
namespace Objective9c.Runtime.Strings

open List

/-- `O9String`. Its data is followed by a zero byte. -/
structure Str where
  data : List UInt8
  short : data.length < 2^32 - 1
  deriving DecidableEq

/-- What `o9_string_new` comes to: `outside` when it would read or write past the end of a block. -/
inductive Result where
  | string (s : Str)
  | nil
  | outside
  deriving DecidableEq

/-- The loop over the size classes of the allocator, in 32-bit words. -/
def sizeClass (len : Nat) : (rounds cap : Nat) → Nat
  | 0, cap => cap
  | rounds+1, cap =>
    if len < cap then cap else if (2^32 - 1) / 2 < cap then len + 1 else sizeClass len rounds (cap*2)

/-- `o9_string_new` on the bytes from `data` to the end of its block, where the allocations succeed. -/
def stringNew (block : List UInt8) (len : Int) : Result :=
  let len := if len < 0 then (block.takeWhile (· ≠ 0)).length else len.toNat
  if short : len < 2^32 - 1 then
    if len ≤ block.length ∧ len < sizeClass len 28 32 then
      .string ⟨block.take len,by rw [List.length_take]; omega⟩
    else .outside
  else .nil

/-- The sum of two 64-bit numbers, as the compilers of Plan 9 leave it. -/
def sum64 (a b : Int) : Int := Int.bmod (a + b) (2^64)

def stringSlice (s : Str) (start count : Int64) : Result :=
  let n : Int := s.data.length
  let start := if start.toInt < 0 then 0 else start.toInt
  let start := if start > n then n else start
  let count := if count.toInt < 0 then 0 else count.toInt
  let count := if sum64 start count > n then n - start else count
  stringNew ((s.data ++ [0]).drop start.toNat) count

/-- Up to `count` bytes of a string from `start` on. -/
def substring (s : Str) (start count : Int) : List UInt8 := (s.data.drop start.toNat).take count.toNat

theorem lt_sizeClass (short : len < 2^32) (enough : 2^32 ≤ cap * 2^rounds) : len < sizeClass len rounds cap := by
  induction rounds generalizing cap with
  | zero =>
    rw [sizeClass]
    omega
  | succ rounds ih =>
    rw [sizeClass]
    split
    · assumption
    · split
      · exact Nat.lt_succ_self len
      · exact ih (by rwa [Nat.mul_assoc,← Nat.pow_succ'])

theorem stringNew_string {count : Nat} (room : count ≤ block.length) (short : count < 2^32 - 1) :
    ∃ t, stringNew block count = .string t ∧ t.data = block.take count := by
  have fits : count < sizeClass count 28 32 := lt_sizeClass (by omega) (by decide)
  have notNegative : ¬(count : Int) < 0 := by omega
  simp only [stringNew,notNegative,if_false,Int.toNat_natCast,short,room,fits,and_self,dite_true,if_true]
  exact ⟨_,rfl,rfl⟩

theorem stringNew_nil {count : Nat} (long : 2^32 - 1 ≤ count) : stringNew block count = .nil := by
  have notNegative : ¬(count : Int) < 0 := by omega
  simp only [stringNew,notNegative,if_false,Int.toNat_natCast]
  exact dif_neg (by omega)

theorem sum64_cases {b : Nat} (bound : a + b < 2^64) :
    sum64 a b = if a + b < 2^63 then ((a + b : Nat) : Int) else a + b - 2^64 := by
  unfold sum64
  split
  · rw [Int.bmod_eq_of_le] <;> omega
  · rw [Int.bmod_def]
    omega

theorem stringSlice_eq (s : Str) {start count : Int64} {a : Nat}
    (first : min (max start.toInt 0) s.data.length = a) (amount : max count.toInt 0 = c) :
    stringSlice s start count = stringNew ((s.data ++ [0]).drop a)
      (if sum64 a c > s.data.length then s.data.length - a else c) := by
  have start_is : (if (if start.toInt < 0 then 0 else start.toInt) > (s.data.length : Int) then
      (s.data.length : Int) else if start.toInt < 0 then 0 else start.toInt) = a := by
    split_ifs <;> omega
  have count_is : (if count.toInt < 0 then 0 else count.toInt) = c := by
    split_ifs <;> omega
  simp only [stringSlice,start_is,count_is,Int.toNat_natCast]

theorem substring_eq (s : Str) {start count : Int} {a c : Nat} (first : min (max start 0) s.data.length = a)
    (amount : max count 0 = c) :
    substring s start count = ((s.data ++ [0]).drop a).take (min c (s.data.length - a)) := by
  have inside : a ≤ s.data.length := by omega
  rw [drop_append_of_le_length inside,take_append_of_le_length (by rw [length_drop]; omega)]
  unfold substring
  rcases Nat.lt_or_ge s.data.length start.toNat with past | within
  · obtain rfl : a = s.data.length := by omega
    simp [drop_eq_nil_of_le (Nat.le_of_lt past)]
  · obtain rfl : a = start.toNat := by omega
    rw [take_eq_take_iff,length_drop]
    omega

/-- A slice is the clamped substring, without a look outside the string, just if the clamped start and the count
have a sum of 64 bits. -/
theorem slice_clamped_iff (s : Str) (start count : Int64) :
    (∃ t, stringSlice s start count = .string t ∧ t.data = substring s start.toInt count.toInt) ↔
      min (max start.toInt 0) s.data.length + max count.toInt 0 < 2^63 := by
  have short := s.short
  have countBound := count.toInt_lt
  obtain ⟨a,first⟩ : ∃ a : Nat, min (max start.toInt 0) s.data.length = a := Int.eq_ofNat_of_zero_le (by omega)
  obtain ⟨c,amount⟩ : ∃ c : Nat, max count.toInt 0 = c := Int.eq_ofNat_of_zero_le (by omega)
  rw [stringSlice_eq s first amount,substring_eq s first amount,first,amount,sum64_cases (by omega)]
  by_cases small : a + c < 2^63
  · have copied : (if (if a + c < 2^63 then ((a + c : Nat) : Int) else a + c - 2^64) > s.data.length then
        (s.data.length : Int) - a else c) = (min c (s.data.length - a) : Nat) := by
      split_ifs <;> omega
    rw [copied]
    refine iff_of_true (stringNew_string ?_ ?_) (by omega)
    · simp only [length_drop,length_append]
      omega
    · omega
  · have unclamped : (if (if a + c < 2^63 then ((a + c : Nat) : Int) else a + c - 2^64) > s.data.length then
        (s.data.length : Int) - a else c) = c := by
      split_ifs <;> omega
    rw [unclamped,stringNew_nil (by omega)]
    refine iff_of_false ?_ (by omega)
    rintro ⟨t,none,_⟩
    cases none

/-- The rest of `abc` behind its first byte, asked for with the largest count, is not to be had. -/
theorem rest_of_string_nil : ¬∃ t, stringSlice ⟨[97,98,99],by decide⟩ 1 9223372036854775807 = .string t ∧
    t.data = substring ⟨[97,98,99],by decide⟩ 1 9223372036854775807 := by
  rintro ⟨t,some,_⟩
  have none : stringSlice ⟨[97,98,99],by decide⟩ 1 9223372036854775807 = .nil := by decide
  cases none.symm.trans some

end Objective9c.Runtime.Strings
