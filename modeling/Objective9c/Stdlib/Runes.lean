import Mathlib.Data.Nat.Find
import Mathlib.Order.WellFounded
import Objective9c.Runtime.Strings

/-! The functions of `rune.o9`, which count the runes of a string, fetch one, find it and cut some out: four loops
that have to agree on where a rune begins. -/
namespace Objective9c.Runes

open List Runtime.Strings

/-- `chartorune` at the bytes from a pointer on, up to the zero behind the string: the rune, and how many bytes it
takes. It takes some of the string, and what is behind them makes no difference. -/
structure Chartorune where
  read : List UInt8 → Int × Int
  within : ∀ rest ≠ [], 1 ≤ (read (rest ++ [0])).2 ∧ (read (rest ++ [0])).2 ≤ rest.length
  alone : ∀ rest ≠ [], ∀ behind, (read (rest ++ behind ++ [0])).2 ≤ rest.length →
    read (rest ++ [0]) = read (rest ++ behind ++ [0])

/-- A string and what reads its runes. -/
structure Text where
  chartorune : Chartorune
  data : List UInt8

namespace Text

variable (s : Text)

def read (i : Nat) : Int × Int := s.chartorune.read ((s.data ++ [0]).drop i)

/-- `if(k < 1) k = 1;` -/
def width (i : Nat) : Nat := if (s.read i).2 < 1 then 1 else (s.read i).2.toNat

theorem width_pos (i : Nat) : 0 < s.width i := by
  unfold width
  split <;> omega

def countFrom (i out : Nat) : Nat := if i < s.data.length then countFrom (i + s.width i) (out + 1) else out
termination_by s.data.length - i
decreasing_by have := s.width_pos i; omega

def runeCount : Nat := s.countFrom 0 0

def atFrom (index : Int) (i at_ : Nat) : Int :=
  if i < s.data.length then
    if at_ = index then (s.read i).1 else atFrom index (i + s.width i) (at_ + 1)
  else -1
termination_by s.data.length - i
decreasing_by have := s.width_pos i; omega

def runeAt (index : Int) : Int := if index ≥ 0 then s.atFrom index 0 0 else -1

def offsetFrom (index : Int) (i at_ : Nat) : Int :=
  if i < s.data.length then
    if at_ = index then i else offsetFrom index (i + s.width i) (at_ + 1)
  else if at_ = index ∧ i = s.data.length then s.data.length else -1
termination_by s.data.length - i
decreasing_by have := s.width_pos i; omega

def runeOffset (index : Int) : Int := if index ≥ 0 then s.offsetFrom index 0 0 else -1

/-- The loop of `RuneSliceRaw`: where the slice begins and ends, or `-1`. -/
def sliceFrom (start stop : Int) (i at_ : Nat) (b : Int) : Int × Int :=
  if i ≤ s.data.length then
    let b := if at_ = start ∧ b < 0 then (i : Int) else b
    if at_ = stop then (b,i)
    else if i = s.data.length then (b,-1)
    else sliceFrom start stop (i + s.width i) (at_ + 1) b
  else (b,-1)
termination_by s.data.length - i
decreasing_by have := s.width_pos i; omega

def runeSlice (start count : Int) : List UInt8 :=
  if start < 0 ∨ count < 0 then []
  else
    let (b,e) := s.sliceFrom start (sum64 start count) 0 0 (-1)
    if b ≥ 0 ∧ e ≥ b then (s.data.drop b.toNat).take (e - b).toNat else []

/-- The rune decoded at a byte of the string; there is none at its end. -/
def decoded (i : Nat) : Int := if i < s.data.length then (s.read i).1 else -1

/-- The part of a string from `b` to `e`. -/
def cut (b e : Nat) : Text := ⟨s.chartorune,(s.data.drop b).take (e - b)⟩

/-- Where the rune with this number begins. -/
def pos : Nat → Nat
  | 0 => 0
  | j+1 => pos j + s.width (pos j)

/-- The string is so many runes. -/
def Whole (n : Nat) : Prop := (∀ j < n, s.pos j < s.data.length) ∧ s.pos n = s.data.length

variable {s} {n i j c : Nat}

theorem strictMono_pos (s : Text) : StrictMono s.pos :=
  strictMono_nat_of_lt_succ fun _ => Nat.lt_add_of_pos_right (s.width_pos _)

theorem pos_le (le : i ≤ j) : s.pos i ≤ s.pos j := s.strictMono_pos.monotone le

theorem width_le (inside : i < s.data.length) : i + s.width i ≤ s.data.length := by
  have within := s.chartorune.within (s.data.drop i) (by simpa using inside)
  rw [← drop_append_of_le_length inside.le,length_drop] at within
  unfold width read
  split <;> omega

theorem exists_whole (s : Text) : ∃ n, s.Whole n := by
  have ends : ∃ n, s.data.length ≤ s.pos n := ⟨_,s.strictMono_pos.le_apply⟩
  refine ⟨Nat.find ends,fun j before => Nat.lt_of_not_le (Nat.find_min ends before),?_⟩
  refine Nat.le_antisymm ?_ (Nat.find_spec ends)
  cases first : Nat.find ends with
  | zero => exact Nat.zero_le _
  | succ m => exact width_le (Nat.lt_of_not_le (Nat.find_min ends (by omega)))

section

variable (whole : s.Whole n)

include whole

theorem Whole.count_eq : s.runeCount = n := by
  refine Nat.decreasingInduction (motive := fun j _ => s.countFrom (s.pos j) j = n)
    (fun j before later => ?_) ?_ (Nat.zero_le n)
  · rwa [countFrom,if_pos (whole.1 j before)]
  · rw [countFrom,if_neg whole.2.not_lt]

theorem Whole.at_eq (le : i ≤ n) : s.runeAt i = s.decoded (s.pos i) := by
  rw [runeAt,if_pos (by omega)]
  refine Nat.decreasingInduction (motive := fun j _ => s.atFrom i (s.pos j) j = _)
    (fun j before later => ?_) ?_ (Nat.zero_le i)
  · rwa [atFrom,if_pos (whole.1 j (by omega)),if_neg (by omega)]
  · rw [atFrom,if_pos rfl,decoded]

theorem Whole.offset_eq (le : i ≤ n) : s.runeOffset i = s.pos i := by
  rw [runeOffset,if_pos (by omega)]
  refine Nat.decreasingInduction (motive := fun j _ => s.offsetFrom i (s.pos j) j = _)
    (fun j before later => ?_) ?_ (Nat.zero_le i)
  · rwa [offsetFrom,if_pos (whole.1 j (by omega)),if_neg (by omega)]
  · rw [offsetFrom]
    rcases Nat.lt_or_eq_of_le le with inside | rfl
    · rw [if_pos (whole.1 i inside),if_pos rfl]
    · rw [whole.2,if_neg (Nat.lt_irrefl _),if_pos ⟨rfl,rfl⟩]

theorem Whole.sliceFrom_eq (le : i + c ≤ n) :
    s.sliceFrom i (i + c : Nat) 0 0 (-1) = (↑(s.pos i),↑(s.pos (i + c))) := by
  -- `b` is set when the loop comes to the first rune of the slice, and is kept from then on
  refine Nat.decreasingInduction (motive := fun j _ => s.sliceFrom i (i + c : Nat) (s.pos j) j
    (if j ≤ i then -1 else s.pos i) = _) (fun j before later => ?_) ?_ (Nat.zero_le (i + c))
  · have inside := whole.1 j (by omega)
    have next : s.pos (j + 1) = s.pos j + s.width (s.pos j) := rfl
    rw [sliceFrom,if_pos inside.le]
    grind
  · have inside : s.pos (i + c) ≤ s.data.length := whole.2 ▸ pos_le le
    rw [sliceFrom,if_pos inside]
    grind

theorem Whole.slice_eq (short : s.data.length < 2^63) (le : i + c ≤ n) :
    s.runeSlice i c = (s.cut (s.pos i) (s.pos (i + c))).data := by
  have few := whole.2 ▸ s.strictMono_pos.le_apply (x := n)
  have sum : sum64 i c = ((i + c : Nat) : Int) := Int.bmod_eq_of_le (by omega) (by omega)
  have ordered : s.pos i ≤ s.pos (i + c) := pos_le (Nat.le_add_right i c)
  rw [runeSlice,if_neg (by omega),sum,whole.sliceFrom_eq le]
  simp [cut,ordered]

end

theorem length_cut (inside : e ≤ s.data.length) : (s.cut b e).data.length = e - b := by
  simp only [cut,length_take,length_drop]
  omega

theorem read_cut (le : b ≤ i) (fits : i + s.width i ≤ e) (inside : e ≤ s.data.length) :
    (s.cut b e).read (i - b) = s.read i := by
  have positive := s.width_pos i
  have split : s.data.drop i = (s.cut i e).data ++ s.data.drop e := by
    nth_rewrite 1 [← take_append_drop (e - i) (s.data.drop i)]
    rw [drop_drop,Nat.add_sub_cancel' (by omega)]
    rfl
  have rest : (s.cut b e).data.drop (i - b) = (s.cut i e).data := by
    simp only [cut]
    rw [drop_take,drop_drop,Nat.add_sub_cancel' le,Nat.sub_sub_sub_cancel_right le]
  have long := length_cut (b := i) inside
  have alone := s.chartorune.alone (s.cut i e).data (ne_nil_of_length_pos (by omega)) (s.data.drop e)
  rw [← split,← drop_append_of_le_length (by omega)] at alone
  rw [read,drop_append_of_le_length (by rw [length_cut inside]; omega),rest]
  refine alone ?_
  unfold width read at fits
  split at fits <;> omega

/-- What is cut out between two runes has the runes that the string has there. -/
theorem Whole.cut (whole : s.Whole n) (le : i + c ≤ n) : (s.cut (s.pos i) (s.pos (i + c))).Whole c := by
  have inside : s.pos (i + c) ≤ s.data.length := whole.2 ▸ pos_le le
  have same : ∀ j ≤ c, (s.cut (s.pos i) (s.pos (i + c))).pos j = s.pos (i + j) - s.pos i := by
    intro j
    induction j with
    | zero => simp [pos]
    | succ j ih =>
      intro below
      have first := pos_le (s := s) (Nat.le_add_right i j)
      have here := read_cut first (pos_le (show i + j + 1 ≤ i + c by omega)) inside
      rw [pos,ih (by omega),width,here,← Nat.add_assoc,pos,width]
      omega
  refine ⟨fun j below => ?_,(same c le_rfl).trans (length_cut inside).symm⟩
  have first := pos_le (s := s) (Nat.le_add_right i j)
  have lt : s.pos (i + j) < s.pos (i + c) := s.strictMono_pos (by omega)
  rw [same j below.le,length_cut inside]
  omega

end Text

/-- The functions agree on the runes of a string. -/
theorem rune_laws (chartorune : Chartorune) (str : Str) (i c : Nat) :
    let s : Text := ⟨chartorune,str.data⟩
    i + c ≤ s.runeCount →
      s.runeSlice i c =
        (s.data.drop (s.runeOffset i).toNat).take (s.runeOffset (i + c : Nat) - s.runeOffset i).toNat ∧
      s.runeSlice 0 i ++ s.runeSlice i (s.runeCount - i : Nat) = s.data ∧
      Text.runeCount ⟨chartorune,s.runeSlice i c⟩ = c ∧
      s.runeAt i = s.decoded (s.runeOffset i).toNat := by
  intro s inside
  obtain ⟨n,whole⟩ := s.exists_whole
  have short : s.data.length < 2^63 := str.short.trans (by decide)
  rw [whole.count_eq] at inside ⊢
  rw [whole.offset_eq (by omega : i ≤ n),whole.offset_eq inside,whole.slice_eq short inside]
  refine ⟨?_,?_,(whole.cut inside).count_eq,whole.at_eq (by omega)⟩
  · rw [Int.toNat_natCast,Int.toNat_sub]
    rfl
  · have first := whole.slice_eq (i := 0) (c := i) short (by omega)
    have second := whole.slice_eq (i := i) (c := n - i) short (by omega)
    change s.runeSlice 0 i = _ at first
    rw [first,second,Nat.zero_add,Nat.add_sub_cancel' (by omega),whole.2]
    simp [Text.cut,Text.pos,take_of_length_le]

/-- A reader that takes every byte for a rune. -/
def ascii : Chartorune where
  read rest := (rest.headD 0 |>.toNat,1)
  within rest some := ⟨le_rfl,by have := length_pos_of_ne_nil some; dsimp only; omega⟩
  alone rest some behind _ := by
    obtain ⟨first,more,rfl⟩ := exists_cons_of_ne_nil some
    rfl

theorem rune_laws_abc :
    (⟨ascii,[97,98,99]⟩ : Text).runeSlice 0 1 ++ (⟨ascii,[97,98,99]⟩ : Text).runeSlice 1 2 = [97,98,99] := by
  have count : (⟨ascii,[97,98,99]⟩ : Text).runeCount = 3 := by
    simp [Text.runeCount,Text.countFrom,Text.width,Text.read,ascii]
  have laws := rune_laws ascii ⟨[97,98,99],by decide⟩ 1 2
  simp only [count] at laws
  exact (laws (by decide)).2.1

end Objective9c.Runes
