import Mathlib.Data.List.Chain
import Objective9c.Compiler.RawText
import Objective9c.Lib.Lines

/-! The source text that the compiler puts into comments of the generated C: a line of it before a
statement, and every file as a whole. -/
namespace Objective9c.Compiler.SourceMap

open List Scan

def Wide (bytes : List Char) : Prop := bytes ≠ [] ∧ ∀ c ∈ bytes, 128 ≤ c.toNat

/-- The `%s` of `print`: ASCII stays, a run of other bytes becomes such a run, as bytes of no rune give U+FFFD, and
what begins like a rune that goes beyond the end is left out. -/
inductive Printed : List Char → List Char → Prop
  | done : Printed [] []
  | ascii : Printed s t → Printed (c :: s) (c :: t)
  | wide : Wide bytes → Wide out → Printed s t → Printed (bytes ++ s) (out ++ t)
  | cut : 128 ≤ c.toNat → Printed (c :: s) []

def control (c : Char) : Bool := (c < ' ' && c ≠ '\t') || c = '\x7f'

variable (print : List Char → List Char)

/-- `comment_text`, with what it has read since the last byte that it did not copy. -/
def commentText (slice : List Char) : List Char → List Char
  | [] => print slice
  | '*' :: '/' :: rest => print slice ++ '*' :: ' ' :: '/' :: commentText [] rest
  | c :: rest =>
    if c = '\r' then print slice ++ '\\' :: 'r' :: commentText [] rest
    else if control c then
      print slice ++ '\\' :: 'x' :: Nat.digitChar (c.toNat / 16) :: Nat.digitChar (c.toNat % 16) :: commentText [] rest
    else commentText (slice ++ [c]) rest

structure SourceFile where
  path : List Char
  text : List Char

def number (n : Nat) : List Char := Nat.toDigits 10 n

def skipLines : Nat → List Char → List Char
  | 0, text => text
  | _+1, [] => []
  | n+1, c :: rest => if c = '\n' then skipLines n rest else skipLines (n+1) rest

def lineText (text : List Char) (line : Nat) : List Char :=
  ((skipLines (line - 1) text).takeWhile (· ≠ '\n')).dropWhile fun c => c = ' ' || c = '\t'

def sourceComment (files : List SourceFile) (sourcefile : List Char) (sourceline : Nat) : Option (List Char) :=
  if sourceline < 1 then none
  else (files.find? (·.path = sourcefile)).map fun f =>
    "\t/* o9: ".toList ++ commentText print [] f.path ++ ':' :: number sourceline ++ " | ".toList ++
      commentText print [] (lineText f.text sourceline) ++ " */\n".toList

def numbered : Nat → List (List Char) → List Char
  | _, [] => " */\n".toList
  | n, line :: rest =>
    " * ".toList ++ number n ++ " | ".toList ++ commentText print [] line ++ '\n' :: numbered (n+1) rest

/-- `source_comments`, a block for each file. -/
def sourceComments (files : List SourceFile) : List (List Char) := files.map fun f =>
  "\n/* o9 source: ".toList ++ commentText print [] f.path ++ '\n' :: numbered print 1 (Lines.read '\n' [] f.text)

def generatedLine : List Char := "#line 1 \"<o9-generated>\"\n".toList

/-- `cprint` without a source location: `mapped` asks for a directive at the beginning of the next line. -/
def cprint (mapped bol : Bool) : List Char → List Char
  | [] => []
  | c :: rest => (if bol && mapped then generatedLine else []) ++ c :: cprint (mapped && !bol) (c = '\n') rest

/-- The second phase of translation: a line that ends in a backslash goes on in the next one. -/
def splice : List Char → List Char
  | '\\' :: '\n' :: rest => splice rest
  | c :: rest => c :: splice rest
  | [] => []

/-- The block is written as it is, behind a directive where one is due, and is blank and one comment, up to
the line end. -/
def Annotation (block : List Char) : Prop :=
  (∀ mapped, cprint mapped true block = (if mapped then generatedLine else []) ++ block) ∧
    ∃ c body, isSpace c ∧ Comment body ∧ splice block = c :: '/' :: '*' :: (body ++ ['\n'])

/-- No slash stands behind an asterisk or at the start of a line. -/
def Apart (a b : Char) : Prop := b = '/' → a ≠ '*' ∧ a ≠ '\n'

/-- Text that may follow any other. -/
def Fine (t : List Char) : Prop := List.IsChain Apart t ∧ t.head? ≠ some '/'

section Chains

theorem Fine.cons (other : c ≠ '/') (fine : Fine t) : Fine (c :: t) :=
  ⟨isChain_cons.mpr ⟨fun _ first slash => absurd (slash ▸ first) fine.2,fine.1⟩,by simpa using other⟩

theorem Fine.after (fine : Fine t) (chain : List.IsChain Apart s) : List.IsChain Apart (s ++ t) :=
  isChain_append.mpr ⟨chain,fine.1,fun _ _ _ first slash => absurd (slash ▸ first) fine.2⟩

theorem fine_words (chain : List.IsChain Apart t) (plain : '/' ∉ s) : Fine (s ++ ' ' :: t) := by
  induction s with
  | nil => exact ⟨isChain_cons.mpr ⟨fun _ _ _ => by decide,chain⟩,by simp⟩
  | cons c s ih =>
    rw [mem_cons,not_or] at plain
    exact (ih plain.2).cons (Ne.symm plain.1)

/-- The second text has no slash out of place that the first does not have. -/
def Keeps (s t : List Char) : Prop :=
  List.IsChain Apart s → List.IsChain Apart t ∧ (t.head? = some '/' → s.head? = some '/')

theorem Keeps.cons (keeps : Keeps s t) : Keeps (c :: s) (c :: t) := by
  intro chain
  obtain ⟨first,chain⟩ := isChain_cons.mp chain
  obtain ⟨chain,same⟩ := keeps chain
  refine ⟨isChain_cons.mpr ⟨?_,chain⟩,id⟩
  rintro _ head rfl
  exact first '/' (same head) rfl

theorem Printed.keeps (printed : Printed s t) : Keeps s t := by
  induction printed with
  | done => exact fun chain => ⟨chain,id⟩
  | ascii _ ih => exact ih.cons
  | @wide _ out _ _ _ wide _ ih =>
    intro chain
    have apart (c : Char) (member : c ∈ out) (d : Char) : Apart c d := by
      have high := wide.2 c member
      rintro -
      constructor <;> rintro rfl <;> revert high <;> decide
    have rest := (ih (isChain_append.mp chain).2.1).1
    refine ⟨isChain_append.mpr ⟨?_,rest,fun c last d _ => apart c (mem_of_getLast? last) d⟩,?_⟩
    · exact (pairwise_of_forall_mem_list fun c member d _ => apart c member d).isChain
    · rw [head?_append_of_ne_nil _ wide.1]
      exact fun slash => absurd (wide.2 '/' (mem_of_head? slash)) (by decide)
  | cut => exact fun _ => ⟨.nil,nofun⟩

theorem splice_keeps (s : List Char) : Keeps s (splice s) := by
  fun_induction splice s with
  | case1 rest ih =>
    intro chain
    obtain ⟨_,chain⟩ := isChain_cons.mp chain
    obtain ⟨first,chain⟩ := isChain_cons.mp chain
    obtain ⟨chain,same⟩ := ih chain
    exact ⟨chain,fun slash => absurd rfl (first '/' (same slash) rfl).2⟩
  | case2 c rest _ ih => exact ih.cons
  | case3 => exact fun chain => ⟨chain,id⟩

theorem splice_append (other : t.head? ≠ some '\n') : splice (s ++ t) = splice s ++ splice t := by
  fun_induction splice s with
  | case1 rest ih => exact ih
  | case2 c rest more ih =>
    rw [cons_append,splice,ih,cons_append]
    rintro rest' rfl starts
    cases rest with
    | nil => exact other (by simpa using congrArg head? starts)
    | cons => cases starts; exact more _ rfl rfl
  | case3 => rfl

theorem comment_of_chain (chain : List.IsChain Apart t) : Comment (t ++ ['*','/']) := by
  induction t with
  | nil => exact .close
  | cons c t ih =>
    obtain ⟨first,chain⟩ := isChain_cons.mp chain
    refine .plain ?_ (ih chain)
    rintro rfl
    cases t with
    | nil => nofun
    | cons d t =>
      rintro ⟨⟩
      exact (first '/' rfl rfl).1 rfl

theorem cprint_unmapped (bol : Bool) (text : List Char) : cprint false bol text = text := by
  induction text generalizing bol with
  | nil => rfl
  | cons c rest ih => simp [cprint,ih]

theorem Fine.annotation (fine : Fine t) (blank : c = '\t' ∨ c = '\n') :
    Annotation (c :: '/' :: '*' :: (t ++ ['*','/','\n'])) := by
  refine ⟨fun mapped => ?_,c,splice t ++ ['*','/'],?_,comment_of_chain (splice_keeps t fine.1).1,?_⟩
  · rw [cprint]
    simp [cprint_unmapped]
  · rcases blank with rfl | rfl <;> rfl
  · have last := splice_append (s := t) (t := ['*','/','\n']) (by simp)
    rcases blank with rfl | rfl <;> simp [splice,last]

end Chains

theorem slash_number (n : Nat) : '/' ∉ number n := fun member =>
  absurd (Nat.isDigit_of_mem_toDigits (by decide) (by decide) member) (by decide)

section Blocks

variable {print : List Char → List Char} (printed : ∀ s, '\x00' ∉ s → Printed s (print s))
include printed

theorem commentText_chain (fine : Fine t) (chain : List.IsChain Apart (slice ++ s.head?.toList))
    (clean : ∀ c ∈ slice, control c = false) : List.IsChain Apart (commentText print slice s ++ t) := by
  have flush {slice rest u : List Char} (chain : List.IsChain Apart (slice ++ rest))
      (clean : ∀ c ∈ slice, control c = false) (fine : Fine u) : List.IsChain Apart (print slice ++ u) := by
    refine fine.after ((printed slice fun member => ?_).keeps (isChain_append.mp chain).1).1
    exact absurd (clean _ member) (by decide)
  have digit (n : Nat) : (n % 16).digitChar ≠ '/' ∧ (n % 16).digitChar ≠ '*' ∧ (n % 16).digitChar ≠ '\n' := by
    have all : ∀ n < 16, n.digitChar ≠ '/' ∧ n.digitChar ≠ '*' ∧ n.digitChar ≠ '\n' := by decide
    exact all _ (Nat.mod_lt _ (by decide))
  fun_induction commentText print slice s with
  | case1 slice => exact flush chain clean fine
  | case2 slice rest ih | case3 slice rest _ ih | case4 slice c rest _ _ _ ih =>
    have later := ih (by cases rest <;> simp) nofun
    rw [append_assoc]
    exact flush chain clean ⟨by simp [isChain_cons,Apart,later,digit],by simp⟩
  | case5 slice c rest none other plain ih =>
    have plain : control c = false := by simpa using plain
    refine ih (isChain_append.mpr ⟨chain,by cases rest <;> simp,?_⟩) ?_
    · rintro _ last d next rfl
      obtain rfl : c = _ := by simpa using last
      constructor
      · rintro rfl
        cases rest <;> simp_all
      · rintro rfl
        exact absurd plain (by decide)
    · simpa [or_imp,forall_and,plain] using clean

theorem fine_text (fine : Fine t) (plain : '/' ∉ f) (s : List Char) :
    Fine (f ++ ' ' :: (commentText print [] s ++ t)) :=
  fine_words (commentText_chain printed fine (by cases s <;> simp) nofun) plain

theorem numbered_fine (n : Nat) (lines : List (List Char)) :
    ∃ t, numbered print n lines = t ++ ['*','/','\n'] ∧ Fine t := by
  induction lines generalizing n with
  | nil => exact ⟨[' '],rfl,by simp [Fine]⟩
  | cons line rest ih =>
    obtain ⟨t,is,fine⟩ := ih (n+1)
    have plain : '/' ∉ " * ".toList ++ number n ++ " |".toList := by
      simp [slash_number n]
    refine ⟨_,?_,fine_text printed (fine.cons (by decide : '\n' ≠ '/')) plain line⟩
    simp [numbered,is]

/-- Every annotation stays one comment. -/
theorem annotations_are_comments (files : List SourceFile) (sourcefile : List Char) (sourceline : Nat) :
    (∀ block ∈ sourceComment print files sourcefile sourceline, Annotation block) ∧
      ∀ block ∈ sourceComments print files, Annotation block := by
  constructor
  · intro block emitted
    unfold sourceComment at emitted
    split at emitted
    · cases emitted
    · obtain ⟨f,_,rfl⟩ := Option.map_eq_some_iff.mp emitted
      have plain : '/' ∉ ':' :: number sourceline ++ " |".toList := by simp [slash_number]
      have last : Fine [' '] := by simp [Fine]
      have line := fine_text printed last plain (lineText f.text sourceline)
      have whole := fine_text printed line (f := " o9:".toList) (by decide) f.path
      simpa using whole.annotation (.inl rfl)
  · intro block emitted
    obtain ⟨f,_,rfl⟩ := mem_map.mp emitted
    obtain ⟨t,is,fine⟩ := numbered_fine printed 1 (Lines.read '\n' [] f.text)
    have whole := fine_text printed (fine.cons (by decide : '\n' ≠ '/')) (f := " o9 source:".toList) (by decide) f.path
    simpa [is] using whole.annotation (.inr rfl)

end Blocks

theorem printed_self (s : List Char) : Printed s s := by
  induction s with
  | nil => exact .done
  | cons _ _ ih => exact ih.ascii

theorem closing_source_annotated :
    Annotation ("\n/* o9 source: a* /b\n * 1 | * /\\\n */\n".toList) := by
  have printed : ∀ s, '\x00' ∉ s → Printed s (id s) := fun s _ => printed_self s
  exact (annotations_are_comments printed [⟨"a*/b".toList,"*/\\".toList⟩] [] 0).2 _ (by decide)

end Objective9c.Compiler.SourceMap
