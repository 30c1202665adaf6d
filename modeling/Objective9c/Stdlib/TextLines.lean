import Objective9c.Lib.Text
import Objective9c.Lib.Lines
import Objective9c.Runtime.Strings

/-! The lines of a text view in `draw.o9`. One loop counts them and another one finds a line; both go from newline to
newline and cut what is between into pieces when the text is wrapped. -/
namespace Objective9c.TextLines

open Text List Runtime.Strings

/-- `seg == 0 ? 1 : (seg + cols - 1) / cols` of a wrapped text, else 1. -/
def pieces (cols : Int) (wrapText : Bool) (seg : Bytes) : Int :=
  if wrapText ∧ seg ≠ [] then (sum64 seg.length (cols - 1)).tdiv cols else 1

/-- The loop of `DrawTextLineCountRaw` over the segments between newlines. -/
def countFrom (cols : Int) (wrapText : Bool) : List Bytes → Int
  | [] => 0
  | seg :: rest => pieces cols wrapText seg + (if rest = [[]] then 1 else 0) + countFrom cols wrapText rest

def lineCount (value : Bytes) (columns : Int) (wrapText : Bool) : Int :=
  if value = [] then 0 else countFrom (max columns 1) wrapText (value.splitOn newline)

/-- What `DrawTextLineRaw` copies of a segment: its piece `row`, or all from a column on. -/
def cut (cols : Int) (wrapText : Bool) (firstColumn row : Int) (seg : Bytes) : Bytes :=
  if wrapText then (seg.drop (row * cols).toNat).take (min cols (seg.length - row * cols)).toNat
  else seg.drop (min (max firstColumn 0) seg.length).toNat

/-- The loop of `DrawTextLineRaw`, with `k` lines behind it. -/
def lineFrom (cols : Int) (wrapText : Bool) (line firstColumn k : Int) : List Bytes → Bytes
  | [] => []
  | seg :: rest =>
    if k ≤ line ∧ line < k + pieces cols wrapText seg then cut cols wrapText firstColumn (line - k) seg
    else if rest = [[]] ∧ line = k + pieces cols wrapText seg then []
    else lineFrom cols wrapText line firstColumn (k + pieces cols wrapText seg) rest

def textLine (value : Bytes) (columns : Int) (wrapText : Bool) (line firstColumn : Int) : Bytes :=
  if 0 ≤ line ∧ value ≠ [] then lineFrom (max columns 1) wrapText line firstColumn 0 (value.splitOn newline) else []

/-- The rows that a segment is shown in. -/
def cuts (cols : Nat) (wrapText : Bool) (seg : Bytes) : List Bytes :=
  if wrapText ∧ seg ≠ [] then
    (range ((seg.length + (cols - 1)) / cols)).map fun i => (seg.drop (i * cols)).take cols
  else [seg]

/-- The rows that a text is shown in, those of one segment together. -/
def shown (value : Bytes) (columns : Int) (wrapText : Bool) : List (List Bytes) :=
  if value = [] then [] else (value.splitOn newline).map (cuts (max columns 1).toNat wrapText)

variable {cols : Nat} {wrapText : Bool} {seg : Bytes} {segs : List Bytes}

theorem flatten_cuts (positive : 0 < cols) : (cuts cols wrapText seg).flatten = seg := by
  have upTo (n : Nat) : ((range n).map fun i => (seg.drop (i * cols)).take cols).flatten = seg.take (n * cols) := by
    induction n with
    | zero => simp
    | succ n ih => rw [range_succ,map_append,flatten_append,ih,Nat.succ_mul,take_add]; simp
  unfold cuts
  split
  · rw [upTo,take_of_length_le]
    have whole := Nat.div_add_mod (seg.length + (cols - 1)) cols
    have part := Nat.mod_lt (seg.length + (cols - 1)) positive
    rw [Nat.mul_comm]
    omega
  · simp

theorem pieces_eq (positive : 0 < cols) (small : wrapText → seg.length + cols < 2^63) :
    pieces cols wrapText seg = (cuts cols wrapText seg).length := by
  unfold pieces cuts
  split
  next wraps =>
    have small := small wraps.1
    have sum : (seg.length : Int) + (cols - 1) = (seg.length + (cols - 1) : Nat) := by omega
    rw [sum64,sum,Int.bmod_eq_of_le (by omega) (by omega),Int.tdiv_eq_ediv_of_nonneg (by omega),length_map,
      length_range]
    rfl
  next => rfl

theorem getElem?_cuts (inside : i < (cuts cols wrapText seg).length) :
    (cuts cols wrapText seg)[i]? = some (cut cols wrapText 0 i seg) := by
  unfold cuts cut at *
  by_cases wraps : wrapText = true
  · by_cases empty : seg = []
    · simp_all
    · simp only [wraps,empty,ne_eq,not_false_eq_true,and_self,if_true,length_map,length_range] at inside ⊢
      rw [getElem?_map,getElem?_range inside,Option.map_some,← Int.natCast_mul,Int.toNat_natCast]
      congr 1
      rw [take_eq_take_iff,length_drop]
      omega
  · have first : (min (0 : Int) seg.length).toNat = 0 := by omega
    simp_all [-Int.toNat_eq_zero]

section

variable (positive : 0 < cols) (small : ∀ seg ∈ segs, wrapText → seg.length + cols < 2^63)

include positive small

theorem lineFrom_eq (k : Int) (i : Nat) :
    lineFrom cols wrapText (k + i) 0 k segs = ((segs.flatMap (cuts cols wrapText))[i]?).getD [] := by
  induction segs generalizing k i with
  | nil => rfl
  | cons seg rest ih =>
    obtain ⟨here,later⟩ := forall_mem_cons.mp small
    rw [lineFrom,pieces_eq positive here,flatMap_cons]
    rcases Nat.lt_or_ge i (cuts cols wrapText seg).length with inside | beyond
    · rw [if_pos (by omega),getElem?_append_left inside,getElem?_cuts inside,show k + i - k = i by omega]
      rfl
    · rw [if_neg (by omega),getElem?_append_right beyond]
      split
      next last =>
        obtain rfl : i = (cuts cols wrapText seg).length := by omega
        simp [last.1,cuts]
      next =>
        rw [← ih later (k + (cuts cols wrapText seg).length)]
        congr 1
        omega

theorem countFrom_eq : countFrom cols wrapText segs =
      (segs.flatMap (cuts cols wrapText)).length + if segs.tail.getLast? = some [] then 1 else 0 := by
  induction segs with
  | nil => rfl
  | cons seg rest ih =>
    obtain ⟨here,later⟩ := forall_mem_cons.mp small
    rw [countFrom,pieces_eq positive here,ih later,flatMap_cons,length_append,tail_cons]
    match rest with
    | [] => simp
    | [a] => by_cases empty : a = [] <;> simp [empty]; omega
    | a :: b :: more =>
      rw [if_neg (by simp),getLast?_cons_cons,tail_cons]
      omega

end

/-- A text ends with a newline if its last segment is empty and not the only one. -/
theorem getLast?_splitOn (text : Bytes) :
    (text.splitOn newline).tail.getLast? = some [] ↔ text.getLast? = some newline := by
  induction text with
  | nil => simp
  | cons c rest ih =>
    cases rest with
    | nil => by_cases here : c = newline <;> simp [splitOn_cons_eq_if_modifyHead,here]
    | cons d rest =>
      obtain ⟨first,more,parts⟩ := exists_cons_of_ne_nil (splitOn_ne_nil newline (d :: rest))
      rw [splitOn_cons_eq_if_modifyHead,getLast?_cons_cons,← ih,parts]
      by_cases here : c = newline
      · cases more with
        | nil =>
          have whole : [newline].intercalate ((d :: rest).splitOn newline) = d :: rest := intercalate_splitOn newline
          rw [parts] at whole
          have begun : first ≠ [] := by
            rintro rfl
            cases whole
          simp [here,begun]
        | cons => simp [here]
      · simp [here]

/-- A view shows the rows of its text one after the other just when the text does not end with a newline. -/
theorem lines_partition_iff (value : Bytes) (columns : Int) (wrapText : Bool)
    (small : wrapText → value.length + max columns 1 < 2^63) :
    ((range (lineCount value columns wrapText).toNat).map (fun k : Nat => textLine value columns wrapText k 0) =
        (shown value columns wrapText).flatten ∧
      [newline].intercalate ((shown value columns wrapText).map flatten) = value) ↔ value.getLast? ≠ some newline := by
  by_cases empty : value = []
  · simp [empty,lineCount,shown]
  obtain ⟨cols,positive,same⟩ : ∃ cols : Nat, 0 < cols ∧ max columns 1 = cols :=
    ⟨(max columns 1).toNat,by omega,by omega⟩
  have fits : ∀ seg ∈ value.splitOn newline, wrapText → seg.length + cols < 2^63 := by
    intro seg member wraps
    have small := small wraps
    have short := (Lines.not_mem_of_mem_splitOn member).2.length_le
    omega
  have all : (shown value columns wrapText).flatten = (value.splitOn newline).flatMap (cuts cols wrapText) := by
    rw [shown,if_neg empty,same]
    rfl
  have line (i : Nat) : textLine value columns wrapText i 0 =
      (((value.splitOn newline).flatMap (cuts cols wrapText))[i]?).getD [] := by
    rw [textLine,if_pos ⟨by omega,empty⟩,same,← lineFrom_eq positive fits 0 i,Int.zero_add]
  have back : [newline].intercalate ((shown value columns wrapText).map flatten) = value := by
    rw [shown,if_neg empty,same,map_map]
    have whole : flatten ∘ cuts cols wrapText = id := funext fun seg => flatten_cuts positive
    rw [Int.toNat_natCast,whole,map_id,intercalate_splitOn]
  have ended := getLast?_splitOn value
  rw [and_iff_left back,all,lineCount,if_neg empty,same,countFrom_eq positive fits]
  by_cases last : value.getLast? = some newline
  · rw [if_pos (ended.mpr last)]
    refine iff_of_false (fun equal => ?_) (not_not_intro last)
    have long := congrArg length equal
    rw [length_map,length_range] at long
    omega
  · rw [if_neg (mt ended.mp last),Int.add_zero,Int.toNat_natCast]
    refine iff_of_true (ext_getElem? fun i => ?_) last
    rcases Nat.lt_or_ge i ((value.splitOn newline).flatMap (cuts cols wrapText)).length with inside | beyond
    · rw [getElem?_map,getElem?_range inside,Option.map_some,line,getElem?_eq_getElem inside]
      rfl
    · rw [getElem?_eq_none (by simpa using beyond),getElem?_eq_none beyond]

/-- Three lines are counted where there are two. -/
theorem ended_text_overcounted : ¬∀ (value : Bytes) (columns : Int) (wrapText : Bool),
    (range (lineCount value columns wrapText).toNat).map (fun k : Nat => textLine value columns wrapText k 0) =
        (shown value columns wrapText).flatten ∧
      [newline].intercalate ((shown value columns wrapText).map flatten) = value := by
  intro partition
  exact absurd (partition (ascii "a\n") 80 false).1 (by decide)

theorem wrapped_text_shown : (range (lineCount (ascii "abc\nd") 2 true).toNat).map
    (fun k : Nat => textLine (ascii "abc\nd") 2 true k 0) = (shown (ascii "abc\nd") 2 true).flatten :=
  ((lines_partition_iff (ascii "abc\nd") 2 true (fun _ => by decide)).mpr (by decide)).1

end Objective9c.TextLines
