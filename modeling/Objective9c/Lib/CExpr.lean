import Mathlib.Data.List.Basic

/-! Expressions of C: the tokens of a text by the longest match, and the tree that the grammar gives to a list of
tokens. Operators that assign, `?:`, calls, subscripts and casts are left out, and so are literals in quotes. -/
namespace CExpr

open List Option

section Tokens

abbrev Token := List Char

def identStart (c : Char) : Bool := c.isAlpha || c == '_'

def identChar (c : Char) : Bool := c.isAlphanum || c == '_'

def isSpace (c : Char) : Bool := c == ' ' || c == '\t' || c == '\n'

/-- The punctuators of more than one character. What a longer one begins with is one of them too. -/
def punctuators : List Token := [
  ['-','>'],['+','+'],['-','-'],['<','<'],['>','>'],['<','='],['>','='],['=','='],['!','='],['&','&'],['|','|'],
  ['*','='],['/','='],['%','='],['+','='],['-','='],['&','='],['^','='],['|','='],['<','<','='],['>','>','=']]

/-- Whether the character belongs to the token that has been begun. A number goes on over a sign behind an
exponent mark. -/
def extends_ (cur : Token) (c : Char) : Bool :=
  match cur with
  | [] => false
  | first :: _ =>
    if identStart first then identChar c
    else if first.isDigit then
      identChar c || c == '.' || ((c == '+' || c == '-') && cur.getLast?.any fun e => "eEpP".toList.contains e)
    else punctuators.contains (cur ++ [c])

/-- The tokens of a text, with the one that has been begun. -/
def lex : Token → List Char → List Token
  | [], [] => []
  | cur, [] => [cur]
  | cur, c :: rest =>
    if extends_ cur c then lex (cur ++ [c]) rest
    else (if cur = [] then [] else [cur]) ++ if isSpace c then lex [] rest else lex [c] rest

theorem lex_nil_cons (c : Char) (rest : List Char) :
    lex [] (c :: rest) = if isSpace c then lex [] rest else lex [c] rest := rfl

theorem lex_break (begun : cur ≠ []) (ends : extends_ cur c = false) (rest : List Char) :
    lex cur (c :: rest) = cur :: lex [] (c :: rest) := by
  rw [lex.eq_3 cur c rest,ends,lex_nil_cons]
  simp [begun]

theorem lex_end (begun : cur ≠ []) : lex cur [] = [cur] := by
  cases cur with
  | nil => contradiction
  | cons => rfl

theorem lex_extend (more : extends_ cur c = true) (rest : List Char) :
    lex cur (c :: rest) = lex (cur ++ [c]) rest := by
  rw [lex.eq_3 cur c rest,more]
  rfl

theorem lex_word (start : (identStart first || first.isDigit) = true) (begun word rest : List Char)
    (inside : ∀ c ∈ word, identChar c = true) :
    lex (first :: begun) (word ++ rest) = lex (first :: (begun ++ word)) rest := by
  induction word generalizing begun with
  | nil => simp
  | cons c word ih =>
    have more : extends_ (first :: begun) c = true := by
      have here := inside c mem_cons_self
      unfold extends_
      by_cases ident : identStart first = true
      · simp [ident,here]
      · have digit : first.isDigit = true := by simpa [ident] using start
        simp [digit,here]
    rw [cons_append,lex_extend more,cons_append,
      ih (begun ++ [c]) fun c member => inside c (mem_cons_of_mem _ member)]
    simp

end Tokens

section Grammar

inductive Tree where
  | leaf (token : Token)
  | member (object : Tree) (name : Token)
  | post (op : Token) (operand : Tree)
  | un (op : Token) (operand : Tree)
  | bin (op : Token) (left right : Tree)
  deriving DecidableEq

def unaryOps : List Token := [['-'],['!'],['~'],['+'],['*'],['&'],['+','+'],['-','-']]

/-- The levels of the binary operators, those that bind tightest first. -/
def level (t : Token) : Option Nat :=
  if [['*'],['/'],['%']].contains t then some 1
  else if [['+'],['-']].contains t then some 2
  else if [['<','<'],['>','>']].contains t then some 3
  else if [['<'],['>'],['<','='],['>','=']].contains t then some 4
  else if [['=','='],['!','=']].contains t then some 5
  else if t = ['&'] then some 6
  else if t = ['^'] then some 7
  else if t = ['|'] then some 8
  else if t = ['&','&'] then some 9
  else if t = ['|','|'] then some 10
  else none

def isIdent (t : Token) : Bool := t.head?.any identStart

def isOperand (t : Token) : Bool := t.head?.any fun c => identStart c || c.isDigit

/-- The rest of a postfix expression. -/
def suffixes : Tree → List Token → Tree × List Token
  | e, t :: rest =>
    if t = ['-','>'] then match rest with
      | name :: rest => if isIdent name then suffixes (.member e name) rest else (e,t :: name :: rest)
      | [] => (e,[t])
    else if t = ['+','+'] ∨ t = ['-','-'] then suffixes (.post t e) rest
    else (e,t :: rest)
  | e, [] => (e,[])

/-- What the parser is to read: a unary expression, a binary expression of operators up to a level, or the rest of
one at the next level behind its left operand. -/
inductive Goal where
  | unary
  | binary (k : Nat)
  | climb (k : Nat) (left : Tree)

def parse : Nat → Goal → List Token → Option (Tree × List Token)
  | 0, _, _ => none
  | _+1, .unary, [] => none
  | fuel+1, .unary, t :: rest =>
    if unaryOps.contains t then (parse fuel .unary rest).map fun found => (.un t found.1,found.2)
    else if t = ['('] then match parse fuel (.binary 10) rest with
      | some (e,t :: rest) => if t = [')'] then some (suffixes e rest) else none
      | _ => none
    else if isOperand t then some (suffixes (.leaf t) rest)
    else none
  | fuel+1, .binary 0, toks => parse fuel .unary toks
  | fuel+1, .binary (k+1), toks =>
    (parse fuel (.binary k) toks).bind fun found => parse fuel (.climb k found.1) found.2
  | _+1, .climb _ left, [] => some (left,[])
  | fuel+1, .climb k left, t :: rest =>
    if level t = some (k+1) then
      (parse fuel (.binary k) rest).bind fun found => parse fuel (.climb k (.bin t left found.1)) found.2
    else some (left,t :: rest)

theorem parse_succ (fuel : Nat) (goal : Goal) (toks : List Token) (found : parse fuel goal toks = some result) :
    parse (fuel+1) goal toks = some result := by
  induction fuel generalizing goal toks result with
  | zero => cases found
  | succ fuel ih =>
    cases goal with
    | unary =>
      cases toks with
      | nil => cases found
      | cons t rest =>
        unfold parse at found ⊢
        split
        next unary =>
          rw [if_pos unary] at found
          obtain ⟨inner,read,rfl⟩ := map_eq_some_iff.mp found
          rw [ih _ _ read]
          rfl
        next other =>
          rw [if_neg other] at found
          split
          next paren =>
            rw [if_pos paren] at found
            cases read : parse fuel (.binary 10) rest with
            | none => simp [read] at found
            | some =>
              rw [ih _ _ read]
              rw [read] at found
              exact found
          next operand =>
            rw [if_neg operand] at found
            exact found
    | binary k =>
      cases k with
      | zero => exact ih _ _ found
      | succ =>
        obtain ⟨inner,read,later⟩ := bind_eq_some_iff.mp found
        exact bind_eq_some_iff.mpr ⟨inner,ih _ _ read,ih _ _ later⟩
    | climb =>
      cases toks with
      | nil => exact found
      | cons =>
        unfold parse at found ⊢
        split
        next here =>
          rw [if_pos here] at found
          obtain ⟨inner,read,later⟩ := bind_eq_some_iff.mp found
          exact bind_eq_some_iff.mpr ⟨inner,ih _ _ read,ih _ _ later⟩
        next other =>
          rw [if_neg other] at found
          exact found

theorem parse_mono (le : fuel ≤ more) (found : parse fuel goal toks = some result) :
    parse more goal toks = some result := by
  induction le with
  | refl => exact found
  | step _ ih => exact parse_succ _ _ _ ih

/-- The parser reads the goal and leaves the rest. -/
def Reads (goal : Goal) (toks : List Token) (tree : Tree) (rest : List Token) : Prop :=
  ∃ fuel, parse fuel goal toks = some (tree,rest)

/-- The tokens are an expression with this tree. -/
def Parses (toks : List Token) (tree : Tree) : Prop := Reads (.binary 10) toks tree []

theorem Parses.unique (first : Parses toks tree) (second : Parses toks tree') : tree = tree' := by
  obtain ⟨n,first⟩ := first
  obtain ⟨m,second⟩ := second
  have same := (parse_mono (Nat.le_max_left n m) first).symm.trans (parse_mono (Nat.le_max_right n m) second)
  cases same
  rfl

end Grammar

section Rules

theorem Reads.un (unary : unaryOps.contains op = true) (operand : Reads .unary toks tree rest) :
    Reads .unary (op :: toks) (.un op tree) rest := by
  obtain ⟨fuel,operand⟩ := operand
  refine ⟨fuel+1,?_⟩
  rw [parse,if_pos unary,operand]
  rfl

theorem Reads.paren (inner : Reads (.binary 10) toks tree ([')'] :: rest)) :
    Reads .unary (['('] :: toks) (suffixes tree rest).1 (suffixes tree rest).2 := by
  obtain ⟨fuel,inner⟩ := inner
  refine ⟨fuel+1,?_⟩
  rw [parse,if_neg (by decide),if_pos rfl,inner]
  rfl

theorem Reads.operand (operand : isOperand t = true) (rest : List Token) :
    Reads .unary (t :: rest) (suffixes (.leaf t) rest).1 (suffixes (.leaf t) rest).2 := by
  have word : unaryOps.contains t = false ∧ t ≠ ['('] := by
    constructor
    · by_contra unary
      have member : t ∈ unaryOps := by simpa using unary
      have all : ∀ t ∈ unaryOps, isOperand t = false := by decide
      rw [all t member] at operand
      contradiction
    · rintro rfl
      exact absurd operand (by decide)
  refine ⟨1,?_⟩
  rw [parse,word.1,if_neg (by decide),if_neg word.2,if_pos operand]

/-- The next token is no operator up to the level. -/
def Stops (k : Nat) (rest : List Token) : Prop := ∀ t ∈ rest.head?, ∀ j, level t = some j → k < j

theorem Reads.climb_stop (stops : Stops (k+1) rest) (left : Tree) : Reads (.climb k left) rest left rest := by
  refine ⟨1,?_⟩
  cases rest with
  | nil => rfl
  | cons t =>
    have other : ¬level t = some (k+1) := fun here => Nat.lt_irrefl _ (stops t rfl (k+1) here)
    rw [parse,if_neg other]

theorem Reads.binary_succ (left : Reads (.binary k) toks tree rest)
    (later : Reads (.climb k tree) rest whole final) : Reads (.binary (k+1)) toks whole final := by
  obtain ⟨n,left⟩ := left
  obtain ⟨m,later⟩ := later
  refine ⟨max n m + 1,?_⟩
  rw [parse,parse_mono (Nat.le_max_left n m) left]
  exact parse_mono (Nat.le_max_right n m) later

theorem Reads.climb_op (here : level op = some (k+1)) (right : Reads (.binary k) toks tree rest)
    (later : Reads (.climb k (.bin op left tree)) rest whole final) :
    Reads (.climb k left) (op :: toks) whole final := by
  obtain ⟨n,right⟩ := right
  obtain ⟨m,later⟩ := later
  refine ⟨max n m + 1,?_⟩
  rw [parse,if_pos here,parse_mono (Nat.le_max_left n m) right]
  exact parse_mono (Nat.le_max_right n m) later

theorem Stops.mono (stops : Stops k rest) (le : j ≤ k) : Stops j rest :=
  fun t member i found => Nat.lt_of_le_of_lt le (stops t member i found)

theorem Reads.up (read : Reads (.binary j) toks tree rest) (le : j ≤ k) (stops : Stops k rest) :
    Reads (.binary k) toks tree rest := by
  induction le with
  | refl => exact read
  | step _ ih => exact (ih (stops.mono (Nat.le_succ _))).binary_succ (.climb_stop stops tree)

theorem Reads.alone (read : Reads .unary toks tree rest) (stops : Stops k rest) :
    Reads (.binary k) toks tree rest := by
  obtain ⟨fuel,read⟩ := read
  have lowest : Reads (.binary 0) toks tree rest := ⟨fuel+1,read⟩
  exact lowest.up (Nat.zero_le k) stops

theorem Reads.pair (here : level op = some (j+1)) (le : j + 1 ≤ k) (left : Reads .unary toks l (op :: more))
    (right : Reads .unary more r rest) (stops : Stops k rest) : Reads (.binary k) toks (.bin op l r) rest := by
  have before : Stops j (op :: more) := by
    intro t member i found
    cases member
    rw [here] at found
    cases found
    exact Nat.lt_succ_self j
  have joined : Reads (.climb j l) (op :: more) (.bin op l r) rest :=
    .climb_op here (right.alone (stops.mono (by omega))) (.climb_stop (stops.mono le) _)
  exact ((left.alone before).binary_succ joined).up le stops

end Rules

end CExpr
