import Mathlib.Data.List.Basic

/-! The text the lexer keeps of a raw C block, and where it goes on. Without line continuations,
`Block` is how C itself tells braces from constants and comments. -/
namespace Objective9c.Compiler.Scan

/-- `isspace` in the C locale. -/
def isSpace (c : Char) : Bool := [' ','\t','\n','\x0b','\x0c','\r'].contains c

inductive RawMode where
  | normal | string | char | lineComment | blockComment
deriving DecidableEq

/-- The body of a raw block that begins behind white space. -/
def rawStartBlock (text : List Char) : Option (List Char) :=
  match text.dropWhile isSpace with
  | '{' :: rest => some rest
  | _ => none

/-- The loop of `try_raw_c_block`: what it appends to its buffer, and the text it leaves. -/
def rawCopy : RawMode → Nat → List Char → List Char × List Char
  | _, _, [] => ([],[])
  | .string, depth, '\\' :: c :: rest => keep ['\\',c] (rawCopy .string depth rest)
  | .string, depth, c :: rest => keep [c] (rawCopy (if c = '"' then .normal else .string) depth rest)
  | .char, depth, '\\' :: c :: rest => keep ['\\',c] (rawCopy .char depth rest)
  | .char, depth, c :: rest => keep [c] (rawCopy (if c = '\'' then .normal else .char) depth rest)
  | .lineComment, depth, c :: rest => keep [c] (rawCopy (if c = '\n' then .normal else .lineComment) depth rest)
  | .blockComment, depth, '*' :: '/' :: rest => keep ['*','/'] (rawCopy .normal depth rest)
  | .blockComment, depth, c :: rest => keep [c] (rawCopy .blockComment depth rest)
  | .normal, depth, '"' :: rest => keep ['"'] (rawCopy .string depth rest)
  | .normal, depth, '\'' :: rest => keep ['\''] (rawCopy .char depth rest)
  | .normal, depth, '/' :: '/' :: rest => keep ['/','/'] (rawCopy .lineComment depth rest)
  | .normal, depth, '/' :: '*' :: rest => keep ['/','*'] (rawCopy .blockComment depth rest)
  | .normal, depth, '{' :: rest => keep ['{'] (rawCopy .normal (depth+1) rest)
  | .normal, depth, '}' :: rest => if depth ≤ 1 then ([],rest) else keep ['}'] (rawCopy .normal (depth-1) rest)
  | .normal, depth, c :: rest => keep [c] (rawCopy .normal depth rest)
where
  keep (bytes : List Char) (copied : List Char × List Char) : List Char × List Char := (bytes ++ copied.1,copied.2)

attribute [simp] rawCopy.keep

/-- The block's text is the buffer as a C string. -/
def tryRawCBlock (text : List Char) : Option (List Char × List Char) :=
  (rawStartBlock text).map fun body =>
    ((rawCopy .normal 1 body).1.takeWhile (· ≠ '\x00'),(rawCopy .normal 1 body).2)

/-- A C string or character constant from behind its opening quote on. -/
inductive Quoted (q : Char) : List Char → Prop
  | close : Quoted q [q]
  | escape : Quoted q t → Quoted q ('\\' :: c :: t)
  | plain : c ≠ q → c ≠ '\\' → Quoted q t → Quoted q (c :: t)

/-- A C comment from behind its opening on. -/
inductive Comment : List Char → Prop
  | close : Comment ['*','/']
  | plain : (c = '*' → t.head? ≠ some '/') → Comment t → Comment (c :: t)

/-- C text that closes as many braces as it opens, and `depth` more, outside of constants and comments. -/
inductive Block : Nat → List Char → Prop
  | done : Block 0 []
  | open : Block (depth + 1) t → Block depth ('{' :: t)
  | close : Block depth t → Block (depth + 1) ('}' :: t)
  | string : Quoted '"' s → Block depth t → Block depth ('"' :: (s ++ t))
  | char : Quoted '\'' s → Block depth t → Block depth ('\'' :: (s ++ t))
  | line : '\n' ∉ s → Block depth t → Block depth ('/' :: '/' :: (s ++ '\n' :: t))
  | comment : Comment s → Block depth t → Block depth ('/' :: '*' :: (s ++ t))
  | other : c ∉ ['"','\'','{','}'] → (c = '/' → t.head? ∉ [some '/',some '*']) → Block depth t →
      Block depth (c :: t)

theorem Quoted.copied (quoted : Quoted q s) (kind : q = '"' ∧ mode = .string ∨ q = '\'' ∧ mode = .char)
    (depth : Nat) (t : List Char) :
    rawCopy mode depth (s ++ t) = rawCopy.keep s (rawCopy .normal depth t) := by
  rcases kind with ⟨rfl,rfl⟩ | ⟨rfl,rfl⟩ <;> induction quoted with
  | close => simp [rawCopy]
  | escape _ ih => simp [rawCopy,ih]
  | plain other bare _ ih => simp [rawCopy,other,bare,ih]

theorem rawCopy_line (line : '\n' ∉ s) (depth : Nat) (t : List Char) :
    rawCopy .lineComment depth (s ++ '\n' :: t) = rawCopy.keep (s ++ ['\n']) (rawCopy .normal depth t) := by
  induction s with
  | nil => simp [rawCopy]
  | cons c s ih =>
    obtain ⟨apart,line⟩ := not_or.mp (List.mem_cons.not.mp line)
    simp [rawCopy,Ne.symm apart,ih line]

theorem Comment.copied (comment : Comment s) (depth : Nat) (t : List Char) :
    rawCopy .blockComment depth (s ++ t) = rawCopy.keep s (rawCopy .normal depth t) := by
  induction comment with
  | close => simp [rawCopy]
  | @plain c s goes comment ih =>
    rw [List.cons_append,rawCopy,ih]
    · rfl
    · rintro rest rfl starts
      cases comment with
      | close => cases starts
      | plain => cases starts; exact goes rfl rfl

theorem Block.copied (block : Block depth body) (rest : List Char) :
    rawCopy .normal (depth + 1) (body ++ '}' :: rest) = (body,rest) := by
  induction block with
  | done => simp [rawCopy]
  | «open» _ ih => simp [rawCopy,ih]
  | close _ ih => simp [rawCopy,ih]
  | string quoted _ ih => simp [rawCopy,quoted.copied (.inl ⟨rfl,rfl⟩),ih]
  | char quoted _ ih => simp [rawCopy,quoted.copied (.inr ⟨rfl,rfl⟩),ih]
  | line line _ ih => simp [rawCopy,rawCopy_line line,ih]
  | comment comment _ ih => simp [rawCopy,comment.copied,ih]
  | @other c depth t plain slash block ih =>
    rw [List.cons_append,rawCopy,ih]
    · rfl
    all_goals simp_all
    -- behind a slash comes more of the block or the brace that ends it
    all_goals
      rintro _ rfl follows
      cases t <;> simp_all

theorem raw_block_exact (blank : ∀ c ∈ blanks, isSpace c) (block : Block 0 body) (rest : List Char) :
    tryRawCBlock (blanks ++ '{' :: (body ++ '}' :: rest)) = some (body.takeWhile (· ≠ '\x00'),rest) := by
  have starts : rawStartBlock (blanks ++ '{' :: (body ++ '}' :: rest)) = some (body ++ '}' :: rest) := by
    rw [rawStartBlock,List.dropWhile_append_of_pos blank]
    rfl
  rw [tryRawCBlock,starts,Option.map_some,block.copied]

theorem raw_block_exact_nested : tryRawCBlock [' ','{','{','}','"','}','"','}',';'] =
    some (['{','}','"','}','"'],[';']) := by
  have blank : ∀ c ∈ [' '], isSpace c := by simp [isSpace]
  exact raw_block_exact blank (.open (.close (.string (.plain (by decide) (by decide) .close) .done))) [';']

theorem raw_block_not_exact : ¬∀ blanks body rest, (∀ c ∈ blanks, isSpace c) → Block 0 body →
    tryRawCBlock (blanks ++ '{' :: (body ++ '}' :: rest)) = some (body,rest) := by
  intro holds
  have nul : Block 0 ['\x00'] := .other (by decide) (by decide) .done
  simpa [tryRawCBlock,rawStartBlock,isSpace,rawCopy] using holds [] _ [] nofun nul

end Objective9c.Compiler.Scan
