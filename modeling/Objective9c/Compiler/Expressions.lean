import Objective9c.Lib.CExpr

/-! The C text of expressions. A binary operator is written in parentheses, a unary one right in front of its
operand. -/
namespace Objective9c.Compiler.Expressions

open CExpr

section Source

/-- A word as the lexer reads it: letters, digits and underscores behind a first character of its own kind. -/
structure Word (start : Char → Bool) where
  first : Char
  rest : List Char
  starts : start first = true
  inside : ∀ c ∈ rest, identChar c = true

def Word.text (w : Word start) : List Char := w.first :: w.rest

inductive UnOp where
  | not | bitNot | neg
deriving DecidableEq

inductive BinOp where
  | add | sub | mul | div | mod | eq | ne | lt | le | gt | ge | and | or | bitAnd | bitOr | bitXor | lshift | rshift
deriving DecidableEq

/-- Trees of identifiers, integer literals and operators. -/
inductive Expr where
  | ident (name : Word identStart)
  | int (digits : Word Char.isDigit)
  | un (op : UnOp) (left : Expr)
  | bin (op : BinOp) (left right : Expr)

/-- Where an expression stands: the local names, and whether fields of `self` are in reach. -/
structure Scope where
  isLocal : List Char → Bool
  inClassContext : Bool

def BinOp.token : BinOp → Token
  | .add => ['+']
  | .sub => ['-']
  | .mul => ['*']
  | .div => ['/']
  | .mod => ['%']
  | .eq => ['=','=']
  | .ne => ['!','=']
  | .lt => ['<']
  | .le => ['<','=']
  | .gt => ['>']
  | .ge => ['>','=']
  | .and => ['&','&']
  | .or => ['|','|']
  | .bitAnd => ['&']
  | .bitOr => ['|']
  | .bitXor => ['^']
  | .lshift => ['<','<']
  | .rshift => ['>','>']

/-- `expr_binary_op` has a blank on both sides of each operator. -/
def exprBinaryOp (op : BinOp) : List Char := ' ' :: op.token ++ [' ']

def exprUnaryOp : UnOp → List Char
  | .not => ['!']
  | .bitNot => ['~']
  | .neg => ['-']

def genIdentExpr (s : Scope) (name : List Char) : List Char :=
  if s.isLocal name then name
  else if s.inClassContext then ['s','e','l','f','-','>'] ++ name
  else name

def genExpr (s : Scope) : Expr → List Char
  | .ident name => genIdentExpr s name.text
  | .int digits => digits.text
  | .un op e => exprUnaryOp op ++ genExpr s e
  | .bin op l r => ['('] ++ genExpr s l ++ exprBinaryOp op ++ genExpr s r ++ [')']

end Source

section Trees

variable (s : Scope)

def identTree (name : List Char) : Tree :=
  if s.isLocal name then .leaf name
  else if s.inClassContext then .member (.leaf ['s','e','l','f']) name
  else .leaf name

def tree : Expr → Tree
  | .ident name => identTree s name.text
  | .int digits => .leaf digits.text
  | .un op e => .un (exprUnaryOp op) (tree e)
  | .bin op l r => .bin op.token (tree l) (tree r)

/-- The tree that is read from the text: two minus signs are one token. -/
def munched : Expr → Tree
  | .ident name => identTree s name.text
  | .int digits => .leaf digits.text
  | .un .neg (.un .neg e) => .un ['-','-'] (munched e)
  | .un op e => .un (exprUnaryOp op) (munched e)
  | .bin op l r => .bin op.token (munched l) (munched r)

/-- No minus is the operand of a minus. -/
def noDoubleNeg : Expr → Bool
  | .ident _ => true
  | .int _ => true
  | .un .neg (.un .neg _) => false
  | .un _ e => noDoubleNeg e
  | .bin _ l r => noDoubleNeg l && noDoubleNeg r

theorem munched_eq_tree_iff (e : Expr) : munched s e = tree s e ↔ noDoubleNeg e = true := by
  induction e using noDoubleNeg.induct with
  | case1 | case2 => simp [munched,tree,noDoubleNeg]
  | case3 => simp [munched,tree,noDoubleNeg,exprUnaryOp]
  | case4 op e single ih =>
    rw [munched,tree,noDoubleNeg,Tree.un.injEq,ih]
    · simp
    · exact single
    · exact single
  | case5 op l r left right => simp [munched,tree,noDoubleNeg,left,right]

end Trees

section Lexing

variable (s : Scope)

def identTokens (name : List Char) : List Token :=
  if s.isLocal name then [name]
  else if s.inClassContext then [['s','e','l','f'],['-','>'],name]
  else [name]

def tokens : Expr → List Token
  | .ident name => identTokens s name.text
  | .int digits => [digits.text]
  | .un .neg (.un .neg e) => ['-','-'] :: tokens e
  | .un op e => exprUnaryOp op :: tokens e
  | .bin op l r => ['('] :: tokens l ++ op.token :: tokens r ++ [[')']]

/-- What follows an expression: nothing, a blank or a parenthesis. -/
def Closed (rest : List Char) : Prop := ∀ c ∈ rest.head?, c = ' ' ∨ c = ')'

theorem word_closed (starts : (identStart first || first.isDigit) = true) (closed : Closed rest) :
    lex (first :: begun) rest = (first :: begun) :: lex [] rest := by
  cases rest with
  | nil => exact lex_end (List.cons_ne_nil _ _)
  | cons c rest =>
    refine lex_break (List.cons_ne_nil _ _) ?_ rest
    have outside : identChar c = false ∧ c ≠ '.' ∧ c ≠ '+' ∧ c ≠ '-' := by
      rcases closed c rfl with rfl | rfl <;> decide
    by_cases ident : identStart first = true
    · simp [extends_,ident,outside]
    · have digit : first.isDigit = true := by simpa [ident] using starts
      simp [extends_,ident,digit,outside]

theorem start_visible (starts : (identStart first || first.isDigit) = true) : isSpace first = false := by
  unfold isSpace
  by_contra blank
  rw [Bool.not_eq_false,Bool.or_eq_true,Bool.or_eq_true,beq_iff_eq,beq_iff_eq,beq_iff_eq] at blank
  rcases blank with (rfl | rfl) | rfl <;> exact absurd starts (by decide)

theorem lex_text (w : Word start) (starts : (identStart w.first || w.first.isDigit) = true)
    (closed : Closed rest) : lex [] (w.text ++ rest) = w.text :: lex [] rest := by
  rw [Word.text,List.cons_append,lex_nil_cons,start_visible starts,if_neg (by decide),
    lex_word starts [] w.rest rest w.inside,List.nil_append,word_closed starts closed]

theorem ident_starts (name : Word identStart) : (identStart name.first || name.first.isDigit) = true := by
  rw [name.starts]
  rfl

theorem digits_start (digits : Word Char.isDigit) : (identStart digits.first || digits.first.isDigit) = true := by
  rw [digits.starts,Bool.or_true]

/-- The characters that an expression may begin with. -/
def Starts (c : Char) : Prop := (identStart c || c.isDigit) = true ∨ c ∈ ['(','!','~','-']

theorem identChar_of_starts (starts : (identStart c || c.isDigit) = true) : identChar c = true := by
  simp only [identStart,identChar,Char.isAlphanum,Bool.or_eq_true] at starts ⊢
  tauto

theorem word_not_punctuator (starts : (identStart c || c.isDigit) = true) (cur : Token) :
    punctuators.contains (cur ++ [c]) = false := by
  have symbols : (punctuators.all fun p => p.all fun d => !identChar d) = true := rfl
  rw [Bool.eq_false_iff]
  intro member
  have all := List.all_eq_true.mp symbols _ (List.contains_iff_mem.mp member)
  have none := List.all_eq_true.mp all c (by simp)
  rw [identChar_of_starts starts] at none
  contradiction

theorem breaks (cur : Token) (op : cur ∈ [['('],['!'],['~'],['-','-'],['-','>']]) (starts : Starts c) :
    extends_ cur c = false := by
  rcases starts with word | symbol
  · have outside := word_not_punctuator word cur
    simp only [List.mem_cons,List.not_mem_nil,or_false] at op
    rcases op with rfl | rfl | rfl | rfl | rfl <;> exact outside
  · simp only [List.mem_cons,List.not_mem_nil,or_false] at op symbol
    rcases op with rfl | rfl | rfl | rfl | rfl <;> rcases symbol with rfl | rfl | rfl | rfl <;> decide

theorem minus_breaks (starts : Starts c) (other : c ≠ '-') : extends_ ['-'] c = false := by
  rcases starts with word | symbol
  · exact word_not_punctuator word ['-']
  · simp only [List.mem_cons,List.not_mem_nil,or_false] at symbol
    rcases symbol with rfl | rfl | rfl | rfl
    · decide
    · decide
    · decide
    · contradiction

theorem lex_ident (name : Word identStart) (closed : Closed rest) :
    lex [] (genIdentExpr s name.text ++ rest) = identTokens s name.text ++ lex [] rest := by
  unfold genIdentExpr identTokens
  split
  · exact lex_text name (ident_starts name) closed
  split
  · have field : lex [] (['s','e','l','f','-','>'] ++ name.text ++ rest) =
        ['s','e','l','f'] :: lex ['-','>'] (name.text ++ rest) := rfl
    have ends : extends_ ['-','>'] name.first = false := breaks _ (by simp) (.inl (ident_starts name))
    have arrow : lex ['-','>'] (name.text ++ rest) = ['-','>'] :: lex [] (name.text ++ rest) :=
      lex_break (List.cons_ne_nil _ _) ends _
    rw [field,arrow,lex_text name (ident_starts name) closed]
    rfl
  · exact lex_text name (ident_starts name) closed

theorem genExpr_head (e : Expr) : ∃ c more, genExpr s e = c :: more ∧ Starts c ∧
    (c = '-' → ∃ left, e = .un .neg left) := by
  cases e with
  | ident name =>
    have plain : name.first ≠ '-' := by
      intro same
      exact absurd (ident_starts name) (by rw [same]; decide)
    unfold genExpr genIdentExpr
    split
    · exact ⟨_,_,rfl,.inl (ident_starts name),fun same => absurd same plain⟩
    split
    · exact ⟨'s',_,rfl,.inl (by decide),fun same => absurd same (by decide)⟩
    · exact ⟨_,_,rfl,.inl (ident_starts name),fun same => absurd same plain⟩
  | int digits =>
    refine ⟨_,_,rfl,.inl (digits_start digits),fun same => ?_⟩
    exact absurd (digits_start digits) (by rw [same]; decide)
  | un op left =>
    cases op with
    | not => exact ⟨'!',_,rfl,.inr (by simp),fun same => absurd same (by decide)⟩
    | bitNot => exact ⟨'~',_,rfl,.inr (by simp),fun same => absurd same (by decide)⟩
    | neg => exact ⟨'-',_,rfl,.inr (by simp),fun _ => ⟨left,rfl⟩⟩
  | bin => exact ⟨'(',_,rfl,.inr (by simp),fun same => absurd same (by decide)⟩

theorem lex_op (op : BinOp) (rest : List Char) : lex [] (exprBinaryOp op ++ rest) = op.token :: lex [] rest := by
  cases op <;> rfl

theorem lex_before (cur : Token) (begun : cur ≠ [])
    (ends : ∀ c more, genExpr s e = c :: more → extends_ cur c = false) (rest : List Char) :
    lex cur (genExpr s e ++ rest) = cur :: lex [] (genExpr s e ++ rest) := by
  obtain ⟨c,more,text,_⟩ := genExpr_head s e
  rw [text,List.cons_append]
  exact lex_break begun (ends c more text) _

theorem lex_after (cur : Token) (op : cur ∈ [['('],['!'],['~'],['-','-'],['-','>']]) (rest : List Char) :
    lex cur (genExpr s e ++ rest) = cur :: lex [] (genExpr s e ++ rest) := by
  have begun : cur ≠ [] := by
    rintro rfl
    exact absurd op (by decide)
  refine lex_before s cur begun (fun c more text => ?_) rest
  obtain ⟨c',more',text',starts,_⟩ := genExpr_head s e
  rw [text] at text'
  cases text'
  exact breaks cur op starts

theorem lex_unary (op : UnOp) (single : ∀ left, op = .neg → e ≠ .un .neg left) (rest : List Char) :
    lex [] (exprUnaryOp op ++ genExpr s e ++ rest) = exprUnaryOp op :: lex [] (genExpr s e ++ rest) := by
  cases op with
  | not => exact lex_after s ['!'] (by decide) rest
  | bitNot => exact lex_after s ['~'] (by decide) rest
  | neg =>
    refine lex_before s ['-'] (by decide) (fun c more text => ?_) rest
    obtain ⟨c',more',text',starts,minus⟩ := genExpr_head s e
    rw [text] at text'
    cases text'
    refine minus_breaks starts fun same => ?_
    obtain ⟨left,is⟩ := minus same
    exact single left rfl is

theorem lex_expr (e : Expr) (closed : Closed rest) : lex [] (genExpr s e ++ rest) = tokens s e ++ lex [] rest := by
  induction e using tokens.induct generalizing rest with
  | case1 name => exact lex_ident s name closed
  | case2 digits => exact lex_text digits (digits_start digits) closed
  | case3 e ih =>
    calc lex [] (genExpr s (.un .neg (.un .neg e)) ++ rest)
      _ = lex ['-','-'] (genExpr s e ++ rest) := rfl
      _ = ['-','-'] :: lex [] (genExpr s e ++ rest) := lex_after s _ (by decide) rest
      _ = tokens s (.un .neg (.un .neg e)) ++ lex [] rest := by rw [ih closed]; rfl
  | case4 op e single ih =>
    rw [genExpr,lex_unary s op (fun left neg same => single left neg same) rest,ih closed,tokens]
    · rfl
    · exact single
  | case5 op l r left right =>
    have blank : Closed (exprBinaryOp op ++ (genExpr s r ++ ([')'] ++ rest))) := fun c head => by
      cases head
      exact .inl rfl
    have paren : Closed ([')'] ++ rest) := fun c head => by
      cases head
      exact .inr rfl
    have last : lex [] ([')'] ++ rest) = [[')']] ++ lex [] rest := by
      cases rest with
      | nil => rfl
      | cons c =>
        rcases closed c rfl with rfl | rfl <;> rfl
    calc lex [] (genExpr s (.bin op l r) ++ rest)
      _ = lex ['('] (genExpr s l ++ (exprBinaryOp op ++ (genExpr s r ++ ([')'] ++ rest)))) := by
        simp only [genExpr,List.append_assoc]
        rfl
      _ = ['('] :: (tokens s l ++ (op.token :: (tokens s r ++ ([[')']] ++ lex [] rest)))) := by
        rw [lex_after s _ (by decide),left blank,lex_op,right paren,last]
      _ = tokens s (.bin op l r) ++ lex [] rest := by simp [tokens]

end Lexing

section Reading

variable (s : Scope)

/-- What follows does not belong to a postfix expression. -/
def Calm (rest : List Token) : Prop := ∀ t ∈ rest.head?, t ≠ ['-','>'] ∧ t ≠ ['+','+'] ∧ t ≠ ['-','-']

theorem suffixes_calm (calm : Calm rest) (e : Tree) : suffixes e rest = (e,rest) := by
  cases rest with
  | nil => rfl
  | cons t =>
    obtain ⟨arrow,up,down⟩ := calm t rfl
    rw [suffixes.eq_def]
    simp [arrow,up,down]

theorem reads_word (word : isOperand t = true) (calm : Calm rest) : Reads .unary (t :: rest) (.leaf t) rest := by
  have read := Reads.operand word rest
  rwa [suffixes_calm calm] at read

theorem reads_ident (name : Word identStart) (calm : Calm rest) :
    Reads .unary (identTokens s name.text ++ rest) (identTree s name.text) rest := by
  have word : isOperand name.text = true := ident_starts name
  unfold identTokens identTree
  split
  · exact reads_word word calm
  split
  · have read := Reads.operand (by decide : isOperand ['s','e','l','f'] = true) (['-','>'] :: name.text :: rest)
    have ident : isIdent name.text = true := name.starts
    have field : suffixes (.leaf ['s','e','l','f']) (['-','>'] :: name.text :: rest) =
        (.member (.leaf ['s','e','l','f']) name.text,rest) := by
      rw [suffixes,if_pos rfl,if_pos ident,suffixes_calm calm]
    rwa [field] at read
  · exact reads_word word calm

theorem op_level (op : BinOp) : ∃ j, level op.token = some (j + 1) ∧ j + 1 ≤ 10 := by
  cases op <;> exact ⟨_,rfl,by decide⟩

theorem op_calm (op : BinOp) (rest : List Token) : Calm (op.token :: rest) := by
  intro t head
  cases head
  cases op <;> decide

theorem paren_calm (rest : List Token) : Calm ([')'] :: rest) := by
  intro t head
  cases head
  decide

theorem paren_stops (rest : List Token) : Stops 10 ([')'] :: rest) := by
  intro t head j found
  cases head
  cases found

theorem reads_expr (e : Expr) (calm : Calm rest) : Reads .unary (tokens s e ++ rest) (munched s e) rest := by
  induction e using tokens.induct generalizing rest with
  | case1 name => exact reads_ident s name calm
  | case2 digits => exact reads_word (digits_start digits) calm
  | case3 e ih => exact (ih calm).un (by decide)
  | case4 op e single ih =>
    rw [tokens,munched]
    · exact (ih calm).un (by cases op <;> decide)
    · exact single
    · exact single
  | case5 op l r left right =>
    obtain ⟨j,here,le⟩ := op_level op
    have inner : Reads (.binary 10) (tokens s l ++ (op.token :: (tokens s r ++ ([')'] :: rest))))
        (.bin op.token (munched s l) (munched s r)) ([')'] :: rest) :=
      .pair here le (left (op_calm op _)) (right (paren_calm rest)) (paren_stops rest)
    have whole := inner.paren
    rw [suffixes_calm calm] at whole
    simpa [tokens,munched] using whole

theorem reparsed (e : Expr) : Parses (lex [] (genExpr s e)) (munched s e) := by
  have text : lex [] (genExpr s e ++ []) = tokens s e ++ lex [] [] := lex_expr s e (by simp [Closed])
  have read : Reads .unary (tokens s e ++ []) (munched s e) [] := reads_expr s e (by simp [Calm])
  rw [List.append_nil] at text
  rw [text]
  exact read.alone (by simp [Stops])

/-- The text of an expression is read as the expression itself, just if no minus is applied to a minus. -/
theorem expr_round_trip_iff (s : Scope) (e : Expr) :
    Parses (lex [] (genExpr s e)) (tree s e) ↔ noDoubleNeg e = true := by
  rw [← munched_eq_tree_iff s e]
  constructor
  · exact fun parsed => (reparsed s e).unique parsed
  · intro same
    rw [← same]
    exact reparsed s e

def local_ : Expr := .ident ⟨'x',[],by decide,by simp⟩

def inMain : Scope := ⟨fun _ => true,false⟩

/-- What was a double minus is read as a decrement. -/
theorem double_neg_decrements : ¬∀ (s : Scope) (e : Expr), Parses (lex [] (genExpr s e)) (tree s e) := by
  intro always
  have same := (reparsed inMain (.un .neg (.un .neg local_))).unique (always inMain (.un .neg (.un .neg local_)))
  cases same

end Reading

end Objective9c.Compiler.Expressions
