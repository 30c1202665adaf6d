import Objective9c.Lib.Joined
import Objective9c.Compiler.Validate

/-! The names of types in generated C. A dotted name and the arguments of an application are joined by the same
double underscore, and an array is marked at its end, so a name can be read back only if its parts can be told
apart. -/
namespace Objective9c.Compiler

open Joined Bool

section Words

/-- The words that the generated name of a name reads as: its dotted parts, where it has no other underscores. -/
def components (name : String) : List (List Char) := pieces '_' (mangleName name).toList

def arrMark : List Char := "_arr".toList

/-- The components of a name, the last of them marked `k` times. -/
def raised (k : Nat) : List (List Char) → List (List Char × Nat)
  | [] => []
  | [c] => [(c,k)]
  | c :: rest => (c,0) :: raised k rest

def bump : List (List Char × Nat) → List (List Char × Nat)
  | [] => []
  | [w] => [(w.1,w.2 + 1)]
  | w :: rest => w :: bump rest

mutual

/-- The words of a type's name. Pointers, which the checker rejects, have none. -/
def words : Ty → List (List Char × Nat)
  | .name n => raised 0 (components n)
  | .param n => raised 0 (components n)
  | .apply n args => raised 0 (components n) ++ wordsList args
  | .ptr _ => []
  | .array base => bump (words base)

def wordsList : TyList → List (List Char × Nat)
  | .nil => []
  | .cons type next => words type ++ wordsList next

end

theorem raised_cons_cons (k : Nat) (c d : List Char) (rest : List (List Char)) :
    raised k (c :: d :: rest) = (c,0) :: raised k (d :: rest) := rfl

theorem bump_cons (ws : List (List Char × Nat)) (nonempty : ws ≠ []) :
    bump (w :: ws) = w :: bump ws := by
  obtain ⟨v,rest,rfl⟩ := List.exists_cons_of_ne_nil nonempty
  rfl

theorem raised_fst (k : Nat) (cs : List (List Char)) : (raised k cs).map Prod.fst = cs := by
  induction cs with
  | nil => rfl
  | cons c rest ih =>
    cases rest with
    | nil => rfl
    | cons => simpa [raised] using ih

theorem length_raised (k : Nat) (cs : List (List Char)) : (raised k cs).length = cs.length := by
  rw [← List.length_map (f := Prod.fst),raised_fst]

theorem raised_ne_nil (k : Nat) (nonempty : cs ≠ []) : raised k cs ≠ [] := by
  rw [ne_eq,← List.length_eq_zero_iff,length_raised,List.length_eq_zero_iff]
  exact nonempty

theorem bump_raised (k : Nat) (cs : List (List Char)) : bump (raised k cs) = raised (k + 1) cs := by
  induction cs with
  | nil => rfl
  | cons c rest ih =>
    cases rest with
    | nil => rfl
    | cons =>
      rw [raised_cons_cons,raised_cons_cons,bump_cons _ (raised_ne_nil k (by simp)),ih]

theorem raised_injective (nonempty : cs ≠ []) (same : raised k cs = raised j cs) : k = j := by
  induction cs with
  | nil => exact absurd rfl nonempty
  | cons c rest ih =>
    cases rest with
    | nil => simpa [raised] using same
    | cons => exact ih (by simp) (by simpa [raised] using same)

theorem mem_raised (member : w ∈ raised k cs) : w.1 ∈ cs ∧ (0 < w.2 → 0 < k ∧ w.1 ∈ cs.getLast?) := by
  match cs with
  | [] => simp [raised] at member
  | [c] =>
    obtain rfl : w = (c,k) := by simpa [raised] using member
    simp
  | c :: d :: rest =>
    obtain rfl | later : w = (c,0) ∨ w ∈ raised k (d :: rest) := by simpa [raised] using member
    · simp
    · obtain ⟨part,last⟩ := mem_raised later
      exact ⟨List.mem_cons_of_mem c part,by simpa using last⟩

theorem components_ne_nil (name : String) : components name ≠ [] := pieces_ne_nil '_' _

theorem glue_components (name : String) : glue '_' (components name) = (mangleName name).toList := glue_pieces '_' _

theorem spaced_components (name : String) : Spaced '_' false (components name) := spaced_pieces '_' _

-- the lemmas above say what is needed of it; unfolded, it would be run wherever types are compared
attribute [irreducible] components

end Words

section Text

theorem bump_ne_nil (nonempty : ws ≠ []) : bump ws ≠ [] := by
  match ws with
  | [] => exact nonempty
  | [w] => simp [bump]
  | w :: v :: rest => simp [bump]

theorem glue_bump (ws : List (List Char × Nat)) (nonempty : ws ≠ []) :
    glue '_' ((bump ws).map (marked arrMark)) = glue '_' (ws.map (marked arrMark)) ++ arrMark := by
  induction ws with
  | nil => exact absurd rfl nonempty
  | cons w rest ih =>
    cases rest with
    | nil => simp [bump,glue,marked_succ]
    | cons v rest =>
      have inner := ih (by simp)
      obtain ⟨u,us,is⟩ := List.exists_cons_of_ne_nil (bump_ne_nil (List.cons_ne_nil v rest))
      rw [bump_cons _ (by simp),List.map_cons,glue_cons,List.map_cons,glue_cons]
      rw [is,List.map_cons] at inner ⊢
      simp [tail,inner]

theorem glue_raised (cs : List (List Char)) : (raised 0 cs).map (marked arrMark) = cs := by
  induction cs with
  | nil => rfl
  | cons c rest ih =>
    cases rest with
    | nil => simp [raised,marked]
    | cons =>
      rw [raised_cons_cons,List.map_cons,ih]
      simp [marked]

theorem arrMark_clean : Clean '_' arrMark where
  inner := by decide
  last := by decide

theorem spaced_raised (spaced : Spaced '_' true cs) (more : Bool) :
    Spaced '_' more ((raised k cs).map (marked arrMark)) := by
  match cs with
  | [] => exact .nil
  | [c] =>
    cases spaced with
    | last inner ending =>
      have clean := Clean.marked ⟨inner,ending rfl⟩ arrMark_clean (by decide) k
      exact .last clean.inner fun _ => clean.last
  | c :: d :: rest =>
    have later := raised_ne_nil k (List.cons_ne_nil d rest)
    rw [raised_cons_cons,List.map_cons,spaced_cons (by simpa using later)]
    rw [spaced_cons (by simp)] at spaced
    exact ⟨by simpa [marked] using spaced.1,spaced_raised spaced.2 more⟩

end Text

section Reading

/-- The names in the types of a program: those that something follows in the text of a type, those that arrays are
made of, and how many arguments each takes; a type parameter has none. -/
structure Naming where
  names : List String
  joined : List String
  arrayed : List String
  role : String → Option Nat

/-- A name that something follows does not end in an underscore, and no other name goes on where it ends; a name that
arrays are made of does not end in one, and no other looks like an array of it. -/
structure Clear (N : Naming) : Prop where
  distinct : ∀ n ∈ N.names, ∀ m ∈ N.names, mangleName n = mangleName m → n = m
  apart : ∀ n ∈ N.joined, ∀ m ∈ N.names, components n <+: components m → n = m
  closed : ∀ n, n ∈ N.joined ∨ n ∈ N.arrayed → (mangleName n).toList.getLast? ≠ some '_'
  unmarked : ∀ m ∈ N.arrayed, ∀ last ∈ (components m).getLast?, ∀ n ∈ N.names, ∀ c ∈ components n,
    ¬Feigns arrMark c last

/-- The name that an array, of arrays too, is made of. -/
def base : Ty → Option String
  | .name n | .param n => some n
  | .array type => base type
  | .apply _ _ | .ptr _ => none

mutual

/-- The names are known, each is a parameter or takes a number of arguments of its own, and only names are made
arrays of. -/
def readable (N : Naming) (more : Bool) : Ty → Bool
  | .name n => N.names.contains n && N.role n = some 0 && (!more || N.joined.contains n)
  | .param n => N.names.contains n && N.role n = none && (!more || N.joined.contains n)
  | .apply n args => N.names.contains n && N.joined.contains n && N.role n = some args.toList.length &&
      args != .nil && readableList N more args
  | .ptr _ => false
  | .array type => (base type).any N.arrayed.contains && readable N more type

def readableList (N : Naming) (more : Bool) : TyList → Bool
  | .nil => true
  | .cons type next => readable N (more || next != .nil) type && readableList N more next

end

variable {N : Naming}

theorem words_ne_nil (ok : readable N more t = true) : words t ≠ [] := by
  match t with
  | .name n | .param n => exact raised_ne_nil 0 (components_ne_nil n)
  | .apply n args => simp [words,raised_ne_nil 0 (components_ne_nil n)]
  | .ptr _ => simp [readable] at ok
  | .array type =>
    rw [readable,and_eq_true] at ok
    exact bump_ne_nil (words_ne_nil ok.2)

theorem wordsList_ne_nil (some : args ≠ .nil) (ok : readableList N more args = true) : wordsList args ≠ [] := by
  cases args with
  | nil => exact absurd rfl some
  | cons =>
    rw [readableList,and_eq_true] at ok
    simp [wordsList,words_ne_nil ok.1]

mutual

theorem typeCname_toList (t : Ty) (ok : readable N more t = true) :
    (typeCname t).toList = glue '_' ((words t).map (marked arrMark)) := by
  match t with
  | .name n | .param n => rw [typeCname,words,glue_raised,glue_components]
  | .apply n args =>
    simp only [readable,and_eq_true,bne_iff_ne] at ok
    obtain ⟨⟨-,some⟩,inner⟩ := ok
    have nonempty := wordsList_ne_nil some inner
    rw [typeCname,words,List.map_append,glue_append _ _ (by simpa using nonempty),glue_raised,
      if_neg (components_ne_nil n),String.toList_append,String.toList_append,glue_components,
      mangleList_toList args some inner]
    simp
  | .ptr _ => simp [readable] at ok
  | .array type =>
    rw [readable,and_eq_true] at ok
    rw [typeCname,words,glue_bump _ (words_ne_nil ok.2),String.toList_append,typeCname_toList type ok.2]
    rfl

theorem mangleList_toList (args : TyList) (some : args ≠ .nil) (ok : readableList N more args = true) :
    (mangleList args).toList = glue '_' ((wordsList args).map (marked arrMark)) := by
  match args with
  | .nil => exact absurd rfl some
  | .cons type .nil =>
    rw [readableList,and_eq_true] at ok
    rw [mangleList,wordsList,wordsList,List.append_nil,typeCname_toList type ok.1]
  | .cons type (.cons next rest) =>
    rw [readableList,and_eq_true] at ok
    have nonempty := words_ne_nil ok.1
    have later := wordsList_ne_nil (by simp) ok.2
    rw [mangleList,wordsList,List.map_append,glue_append _ _ (by simpa using later),
      if_neg (by simpa using nonempty),String.toList_append,String.toList_append,
      typeCname_toList type ok.1,mangleList_toList (.cons next rest) (by simp) ok.2]
    · simp
    · simp

end

def arrays : Nat → Ty → Ty
  | 0, t => t
  | k+1, t => .array (arrays k t)

/-- The name as the type it stands for where it has no arguments. -/
def leaf (role : String → Option Nat) (n : String) : Ty := if role n = none then .param n else .name n

/-- The type is a name made an array of as often as that. -/
structure Flat (N : Naming) (more : Bool) (t : Ty) (n : String) (k : Nat) : Prop where
  known : n ∈ N.names
  bare : N.role n = none ∨ N.role n = some 0
  followed : more → n ∈ N.joined
  arrayed : 0 < k → n ∈ N.arrayed
  shape : t = arrays k (leaf N.role n)
  text : words t = raised k (components n)
  named : base t = some n

theorem flat_of_readable (t : Ty) (ok : readable N more t = true) (plain : ∀ n args, t ≠ .apply n args) :
    ∃ n k, Flat N more t n k := by
  match t with
  | .name n | .param n =>
    simp only [readable,and_eq_true,List.contains_iff_mem,decide_eq_true_eq,or_eq_true,Bool.not_eq_true'] at ok
    obtain ⟨⟨known,role⟩,followed⟩ := ok
    exact ⟨n,0,known,by simp [role],fun more => followed.resolve_left (by simp [more]),by simp,
      by simp [arrays,leaf,role],rfl,rfl⟩
  | .apply n args => exact absurd rfl (plain n args)
  | .ptr _ => simp [readable] at ok
  | .array type =>
    rw [readable,and_eq_true] at ok
    obtain ⟨n,k,inner⟩ := flat_of_readable type ok.2 (by rintro n args rfl; simp [base] at ok)
    have made : n ∈ N.arrayed := by simpa [inner.named] using ok.1
    exact ⟨n,k + 1,inner.known,inner.bare,inner.followed,fun _ => made,by rw [inner.shape,arrays],
      by rw [words,inner.text,bump_raised],inner.named⟩

/-- The type is an application as it may stand. -/
structure Applied (N : Naming) (more : Bool) (n : String) (args : TyList) : Prop where
  known : n ∈ N.names
  followed : n ∈ N.joined
  arity : N.role n = some args.toList.length
  given : args ≠ .nil
  inner : readableList N more args = true

theorem applied_of_readable (ok : readable N more (.apply n args) = true) : Applied N more n args := by
  simp only [readable,and_eq_true,List.contains_iff_mem,bne_iff_ne,decide_eq_true_eq] at ok
  obtain ⟨⟨⟨⟨known,followed⟩,arity⟩,some⟩,inner⟩ := ok
  exact ⟨known,followed,arity,some,inner⟩

theorem head_eq (clear : Clear N) (known : n ∈ N.names) (known' : m ∈ N.names) (followed : x ≠ [] → n ∈ N.joined)
    (followed' : y ≠ [] → m ∈ N.joined) (same : raised k (components n) ++ x = raised j (components m) ++ y) :
    n = m ∧ k = j ∧ x = y := by
  have bases := congrArg (List.map Prod.fst) same
  rw [List.map_append,List.map_append,raised_fst,raised_fst] at bases
  have named : n = m := by
    by_cases equal : components n = components m
    · apply clear.distinct n known m known'
      rw [← String.toList_inj,← glue_components,← glue_components,equal]
    -- of two different names the one that ends first is followed by something
    obtain ⟨more,eq,rest⟩ | ⟨more,eq,rest⟩ := List.append_eq_append_iff.mp bases
    · have nonempty : x ≠ [] := by
        rintro rfl
        simp_all
      exact clear.apart n (followed nonempty) m known' ⟨more,eq.symm⟩
    · have nonempty : y ≠ [] := by
        rintro rfl
        simp_all
      exact (clear.apart m (followed' nonempty) n known ⟨more,eq.symm⟩).symm
  subst named
  obtain ⟨heads,rest⟩ := List.append_inj same (by rw [length_raised,length_raised])
  exact ⟨rfl,raised_injective (components_ne_nil n) heads,rest⟩

theorem Applied.not_bare (applied : Applied N more n args) : ¬(N.role n = none ∨ N.role n = some 0) := by
  have arity := applied.arity
  have nonempty := applied.given
  cases args with
  | nil => exact absurd rfl nonempty
  | cons => simp [arity]

theorem more_of_rest (followed : x ≠ [] → more = true) (some : wordsList next ++ x ≠ []) :
    (more || next != .nil) = true := by
  cases next with
  | nil => simp [followed (by simpa [wordsList] using some)]
  | cons => simp

theorem words_flat (clear : Clear N) (flat : Flat N more A n k) (B : Ty) (ok : readable N more' B = true)
    (followed : x ≠ [] → more = true) (followed' : y ≠ [] → more' = true) (same : words A ++ x = words B ++ y) :
    A = B ∧ x = y := by
  rw [flat.text] at same
  have before some := flat.followed (followed some)
  by_cases applied : ∃ m bs, B = .apply m bs
  · obtain ⟨m,bs,rfl⟩ := applied
    rw [words,List.append_assoc] at same
    have applied := applied_of_readable ok
    obtain ⟨rfl,-,-⟩ := head_eq clear flat.known applied.known before (fun _ => applied.followed) same
    exact absurd flat.bare applied.not_bare
  · obtain ⟨m,j,flat'⟩ := flat_of_readable B ok fun m bs is => applied ⟨m,bs,is⟩
    rw [flat'.text] at same
    obtain ⟨rfl,rfl,rest⟩ := head_eq clear flat.known flat'.known before
      (fun some => flat'.followed (followed' some)) same
    exact ⟨by rw [flat.shape,flat'.shape],rest⟩

mutual

theorem words_injective (clear : Clear N) (A B : Ty) (okA : readable N more A = true)
    (okB : readable N more' B = true) (followed : x ≠ [] → more = true) (followed' : y ≠ [] → more' = true)
    (same : words A ++ x = words B ++ y) : A = B ∧ x = y := by
  match A with
  | .apply n as =>
    have applied := applied_of_readable okA
    by_cases both : ∃ m bs, B = .apply m bs
    · obtain ⟨m,bs,rfl⟩ := both
      have applied' := applied_of_readable okB
      rw [words,words,List.append_assoc,List.append_assoc] at same
      obtain ⟨rfl,-,rest⟩ := head_eq clear applied.known applied'.known (fun _ => applied.followed)
        (fun _ => applied'.followed) same
      have lengths : as.toList.length = bs.toList.length :=
        Option.some.inj (applied.arity.symm.trans applied'.arity)
      obtain ⟨rfl,after⟩ := wordsList_injective clear as bs applied.inner applied'.inner followed followed' lengths
        rest
      exact ⟨rfl,after⟩
    · obtain ⟨m,j,flat⟩ := flat_of_readable B okB fun m bs is => both ⟨m,bs,is⟩
      obtain ⟨rfl,rest⟩ := words_flat clear flat _ okA followed' followed same.symm
      exact ⟨rfl,rest.symm⟩
  | .name _ | .param _ | .ptr _ | .array _ =>
    obtain ⟨n,k,flat⟩ := flat_of_readable _ okA (by simp)
    exact words_flat clear flat B okB followed followed' same

theorem wordsList_injective (clear : Clear N) (as bs : TyList) (okA : readableList N more as = true)
    (okB : readableList N more' bs = true) (followed : x ≠ [] → more = true) (followed' : y ≠ [] → more' = true)
    (lengths : as.toList.length = bs.toList.length) (same : wordsList as ++ x = wordsList bs ++ y) :
    as = bs ∧ x = y := by
  match as, bs with
  | .nil, .nil => exact ⟨rfl,same⟩
  | .nil, .cons _ _ => simp at lengths
  | .cons _ _, .nil => simp at lengths
  | .cons a as, .cons b bs =>
    rw [readableList,and_eq_true] at okA okB
    rw [wordsList,wordsList,List.append_assoc,List.append_assoc] at same
    obtain ⟨rfl,later⟩ := words_injective clear a b okA.1 okB.1 (more_of_rest followed) (more_of_rest followed') same
    have shorter : as.toList.length = bs.toList.length := by simpa using lengths
    obtain ⟨rfl,rest⟩ := wordsList_injective clear as bs okA.2 okB.2 followed followed' shorter later
    exact ⟨rfl,rest⟩

end

/-- The word stands in a known name, at its end if it is marked. -/
structure Known (N : Naming) (w : List Char × Nat) : Prop where
  part : ∃ n ∈ N.names, w.1 ∈ components n
  array : 0 < w.2 → ∃ n ∈ N.arrayed, w.1 ∈ (components n).getLast?

theorem known_raised (known : n ∈ N.names) (arrayed : 0 < k → n ∈ N.arrayed)
    (member : w ∈ raised k (components n)) : Known N w := by
  obtain ⟨part,last⟩ := mem_raised member
  exact ⟨⟨n,known,part⟩,fun some => ⟨n,arrayed (last some).1,(last some).2⟩⟩

theorem spaced_leaf (clear : Clear N) (followed : more = true → n ∈ N.joined) (arrayed : 0 < k → n ∈ N.arrayed) :
    Spaced '_' more ((raised k (components n)).map (marked arrMark)) := by
  by_cases closing : more = false ∧ k = 0
  · rw [closing.1,closing.2,glue_raised]
    exact spaced_components n
  · have named : n ∈ N.joined ∨ n ∈ N.arrayed := by
      cases more with
      | true => exact .inl (followed rfl)
      | false => exact .inr (arrayed (by simpa [Nat.pos_iff_ne_zero] using closing))
    apply spaced_raised
    apply spaced_true (spaced_components n)
    rw [glue_components]
    exact clear.closed n named

mutual

theorem words_told (clear : Clear N) (t : Ty) (ok : readable N more t = true) :
    Spaced '_' more ((words t).map (marked arrMark)) ∧ ∀ w ∈ words t, Known N w := by
  match t with
  | .apply n args =>
    have applied := applied_of_readable ok
    obtain ⟨spaced,known⟩ := wordsList_told clear args applied.inner
    have head : Spaced '_' true ((raised 0 (components n)).map _) :=
      spaced_leaf clear (fun _ => applied.followed) (by simp)
    rw [words,List.map_append]
    refine ⟨head.append spaced (by simpa using wordsList_ne_nil applied.given applied.inner),fun w member => ?_⟩
    obtain first | later := List.mem_append.mp member
    · exact known_raised applied.known (by simp) first
    · exact known w later
  | .name _ | .param _ | .ptr _ | .array _ =>
    obtain ⟨n,k,flat⟩ := flat_of_readable _ ok (by simp)
    rw [flat.text]
    exact ⟨spaced_leaf clear flat.followed flat.arrayed,fun w member => known_raised flat.known flat.arrayed member⟩

theorem wordsList_told (clear : Clear N) (args : TyList) (ok : readableList N more args = true) :
    Spaced '_' more ((wordsList args).map (marked arrMark)) ∧ ∀ w ∈ wordsList args, Known N w := by
  match args with
  | .nil => exact ⟨.nil,by simp [wordsList]⟩
  | .cons type next =>
    rw [readableList,and_eq_true] at ok
    obtain ⟨spaced,known⟩ := words_told clear type ok.1
    obtain ⟨spaced',known'⟩ := wordsList_told clear next ok.2
    rw [wordsList,List.map_append]
    refine ⟨?_,fun w member => (List.mem_append.mp member).elim (known w) (known' w)⟩
    cases next with
    | nil => simpa [wordsList] using spaced
    | cons =>
      rw [show (_ || _ != TyList.nil) = true by simp] at spaced
      exact spaced.append spaced' (by simpa using wordsList_ne_nil (by simp) ok.2)

end

theorem words_of_text {ws vs : List (List Char × Nat)} (clear : Clear N) (known : ∀ w ∈ ws, Known N w) (known' : ∀ v ∈ vs, Known N v)
    (texts : ws.map (marked arrMark) = vs.map (marked arrMark)) : ws = vs := by
  have apart (w v : List Char × Nat) (known : Known N w) (known' : Known N v) (less : w.2 < v.2) :
      ¬Feigns arrMark w.1 v.1 := by
    obtain ⟨n,named,part⟩ := known.part
    obtain ⟨m,arrayed,last⟩ := known'.array (by omega)
    exact clear.unmarked m arrayed v.1 last n named w.1 part
  induction ws generalizing vs with
  | nil => simpa [eq_comm] using texts
  | cons w ws ih =>
    cases vs with
    | nil => simp at texts
    | cons v =>
      rw [List.map_cons,List.map_cons,List.cons.injEq] at texts
      rw [List.forall_mem_cons] at known known'
      rw [marked_injective (apart w v known.1 known'.1) (apart v w known'.1 known.1) texts.1,
        ih known.2 known'.2 texts.2]

end Reading

section Distinct

variable {N : Naming}

mutual

theorem typeEqual_refl (t : Ty) : typeEqual t t = true := by
  match t with
  | .name _ | .param _ => simp [typeEqual]
  | .apply _ args => simp [typeEqual,typeListEqual_refl args]
  | .ptr base | .array base => simp [typeEqual,typeEqual_refl base]

theorem typeListEqual_refl (args : TyList) : typeListEqual args args = true := by
  match args with
  | .nil => rfl
  | .cons type next => simp [typeListEqual,typeEqual_refl type,typeListEqual_refl next]

end

theorem typeCname_injective (clear : Clear N) (okA : readable N false A = true) (okB : readable N false B = true)
    (same : typeCname A = typeCname B) : A = B := by
  have texts := congrArg String.toList same
  rw [typeCname_toList A okA,typeCname_toList B okB] at texts
  obtain ⟨spaced,known⟩ := words_told clear A okA
  obtain ⟨spaced',known'⟩ := words_told clear B okB
  have equal := words_of_text clear known known' (glue_injective spaced spaced' (by simpa using words_ne_nil okA)
    (by simpa using words_ne_nil okB) texts)
  exact (words_injective (x := []) (y := []) clear A B okA okB (by simp) (by simp) (by rw [equal])).1

theorem typeCname_apply_ne (clear : Clear N) (ok : readable N false (.apply n args) = true)
    (known : canonicalTypeName m ∈ N.names) : typeCname (.apply n args) ≠ mangleSourceName m := by
  intro same
  have applied := applied_of_readable ok
  have texts := congrArg String.toList same
  rw [mangleSourceName,typeName,typeCname_toList _ ok,typeCname,← glue_components,
    ← glue_raised (components (canonicalTypeName m))] at texts
  obtain ⟨spaced,parts⟩ := words_told clear _ ok
  have spaced' : Spaced '_' false ((raised 0 (components (canonicalTypeName m))).map _) :=
    spaced_leaf clear (by simp) (by simp)
  have nonempty := raised_ne_nil 0 (components_ne_nil (canonicalTypeName m))
  have equal := words_of_text clear parts (fun w member => known_raised known (by simp) member)
    (glue_injective spaced spaced' (by simpa using words_ne_nil ok) (by simpa using nonempty) texts)
  rw [words,← List.append_nil (raised 0 (components (canonicalTypeName m)))] at equal
  obtain ⟨-,-,empty⟩ := head_eq clear applied.known known (fun _ => applied.followed) (by simp) equal
  exact wordsList_ne_nil applied.given applied.inner empty

/-- Where joined names can be told apart, arrays are of names only and a name has one number of arguments: types with
one generated name are equal, no application has the name of a declared class, and an instantiation that finds its
class finds that of an equal type. -/
theorem generated_names_distinct (N : Naming) (clear : Clear N) (A : Ty) (okA : readable N false A = true) :
    (∀ B, readable N false B = true → typeCname A = typeCname B → typeEqual A B = true) ∧
    ∀ n args, A = .apply n args →
      (∀ m, canonicalTypeName m ∈ N.names → typeCname A ≠ mangleSourceName m) ∧
      ∀ (table : Table) (made : List Ty), (∀ B ∈ made, readable N false B = true) →
        (∀ d ∈ table, (∃ m, canonicalTypeName m ∈ N.names ∧ d.name = mangleSourceName m) ∨
          d.name ∈ made.map typeCname) →
        ∀ d, findClass table (typeCname A) = some d → ∃ B ∈ made, d.name = typeCname B ∧ typeEqual A B = true := by
  refine ⟨fun B okB same => ?_,?_⟩
  · rw [typeCname_injective clear okA okB same]
    exact typeEqual_refl B
  rintro n args rfl
  refine ⟨fun m known => typeCname_apply_ne clear okA known,fun table made readables origin d found => ?_⟩
  have named : d.name = typeCname (.apply n args) := by simpa [findClass] using List.find?_some found
  obtain ⟨m,known,same⟩ | instantiated := origin d (List.mem_of_find?_eq_some found)
  · exact absurd (named.symm.trans same) (typeCname_apply_ne clear okA known)
  · obtain ⟨B,member,same⟩ := List.mem_map.mp instantiated
    refine ⟨B,member,same.symm,?_⟩
    rw [typeCname_injective clear okA (readables B member) (named ▸ same).symm]
    exact typeEqual_refl B

def boxed (t : Ty) : Ty := .apply "Box" (.cons t .nil)

/-- Boxes of boxes and of arrays, beside names with underscores that nothing follows. -/
def boxNaming : Naming where
  names := ["Box","net","net.Link","int64","foo_","my__class","row_arr"]
  joined := ["Box"]
  arrayed := ["int64"]
  role n := if n = "Box" then some 1 else some 0

theorem boxNaming_clear : Clear boxNaming where
  distinct := by decide
  apart := by decide +kernel
  closed := by
    intro n member
    obtain rfl | rfl : n = "Box" ∨ n = "int64" := by simpa [boxNaming] using member
    · decide
    · decide
  unmarked := by decide +kernel

theorem box_of_arrays_distinct :
    readable boxNaming false (boxed (boxed (.array (.name "int64")))) = true ∧
      typeCname (boxed (boxed (.array (.name "int64")))) ≠ mangleSourceName "net.Link" :=
  ⟨by decide,((generated_names_distinct boxNaming boxNaming_clear (boxed (boxed (.array (.name "int64"))))
    (by decide)).2 _ _ rfl).1 "net.Link" (by decide)⟩

def boxTable : Table :=
  [{ name := "Box", params := ["T"], members := [.field { name := "value", type := some (.param "T") }] }]

/-- An array of boxes in a box, and a box of an array in a box. -/
theorem nested_arrays_collide : ¬∀ (table : Table) (A B : Ty), table.all (validateDecl table) = true →
    validateType table [] A = true → validateType table [] B = true →
    typeCname A = typeCname B → typeEqual A B = true := by
  intro always
  have equal := always boxTable (boxed (.array (boxed (.name "int64")))) (boxed (boxed (.array (.name "int64"))))
    (by decide) (by decide) (by decide) (by decide)
  exact absurd equal (by decide)

end Distinct

end Objective9c.Compiler
