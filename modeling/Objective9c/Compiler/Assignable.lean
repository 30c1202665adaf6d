import Objective9c.Compiler.Visibility

/-! Which types the checker lets stand for which. A value is accepted where its type is the expected one, where
both types come from one declaration, whatever their arguments, and where the generated name of its class leads
to the expected one through inherit members. -/
namespace Objective9c.Compiler

open Descent List Bool Option Function

section Source

variable (table : Table)

def typeScalarBuiltin : Ty → Bool
  | .name name => (findBuiltin name).any (·.abi == "scalar")
  | _ => false

def typeIsNil (t : Ty) : Bool := t == .name "nil"

def typeIsBool (t : Ty) : Bool := t == .name "bool"

def typeAcceptsNil : Ty → Bool
  | .array _ => true
  | .apply _ _ => true
  | .name name => ["string","chan","FileTree"].contains name ||
    (typeDeclNode table (.name name)).any fun d => d.kind == .nClass || d.kind == .nInterface
  | _ => false

def typeIsClassRef (t : Ty) : Bool :=
  (typeDeclNode table t).any fun d => d.kind == .nClass || d.kind == .nInterface

/-- The third way to be accepted. -/
def subclassRef (target actual : Ty) : Bool :=
  typeIsClassRef table target && typeIsClassRef table actual &&
    isSubclass table (typeCname actual) (typeCname target)

/-- An unknown type stands for any. -/
def typeAssignableSemantic : Option Ty → Option Ty → Bool
  | some target, some actual =>
    if typeIsNil actual then typeAcceptsNil table target
    else if typeIsNil target then typeIsNil actual
    else typeEqual target actual ||
      ((typeDeclNode table target).isSome && typeDeclNode table target == typeDeclNode table actual) ||
      subclassRef table target actual ||
      (typeScalarBuiltin target && typeScalarBuiltin actual && !typeIsBool target && !typeIsBool actual)
  | _, _ => true

end Source

section Canonical

mutual

@[simp] def Ty.canonical : Ty → Ty
  | .name name => .name (canonicalTypeName name)
  | .param name => .param (canonicalTypeName name)
  | .apply name args => .apply (canonicalTypeName name) args.canonical
  | .ptr base => .ptr base.canonical
  | .array base => .array base.canonical

@[simp] def TyList.canonical : TyList → TyList
  | .nil => .nil
  | .cons type next => .cons type.canonical next.canonical

end

mutual

theorem typeEqual_iff (a b : Ty) : typeEqual a b = true ↔ a.canonical = b.canonical := by
  match a with
  | .name _ | .param _ => cases b <;> simp [typeEqual]
  | .apply _ args => cases b <;> simp [typeEqual,typeListEqual_iff args]
  | .ptr base | .array base => cases b <;> simp [typeEqual,typeEqual_iff base]

theorem typeListEqual_iff (as bs : TyList) : typeListEqual as bs = true ↔ as.canonical = bs.canonical := by
  match as with
  | .nil => cases bs <;> simp [typeListEqual]
  | .cons type next =>
    cases bs <;> simp [typeListEqual,typeEqual_iff type,typeListEqual_iff next]

end

def Ty.args : Ty → TyList
  | .apply _ args => args
  | _ => .nil

def canonicalBindings (bindings : Bindings) : Bindings := bindings.map fun (name,type) => (name,type.canonical)

theorem args_canonical (t : Ty) : t.canonical.args = t.args.canonical := by
  cases t <;> rfl

theorem typeBindingsFor_args (c : Decl) (t : Ty) : typeBindingsFor c t = bindParams c.params t.args [] := by
  cases t with
  | apply => rfl
  | _ => cases found : c.params <;> simp [typeBindingsFor,Ty.args,bindParams]

theorem bindParams_canonical (params : List String) (args : TyList) (bindings : Bindings) :
    canonicalBindings (bindParams params args bindings) =
      bindParams params args.canonical (canonicalBindings bindings) := by
  induction params generalizing args bindings with
  | nil => simp [bindParams]
  | cons param params ih =>
    cases args with
    | nil => simp [bindParams]
    | cons =>
      rw [bindParams,ih]
      rfl

theorem bindings_congr (c : Decl) (same : t.args.canonical = u.args.canonical) :
    canonicalBindings (typeBindingsFor c t) = canonicalBindings (typeBindingsFor c u) := by
  rw [typeBindingsFor_args,typeBindingsFor_args,bindParams_canonical,bindParams_canonical,same]

theorem typeBindLookup_canonical (bindings : Bindings) (name : String) :
    typeBindLookup (canonicalBindings bindings) name = (typeBindLookup bindings name).map Ty.canonical := by
  simp only [typeBindLookup,canonicalBindings,find?_map,Option.map_map]
  rfl

mutual

theorem typeSubst_congr (same : canonicalBindings b = canonicalBindings d) (t : Ty) :
    (typeSubst b t).canonical = (typeSubst d t).canonical := by
  match t with
  | .name _ => rfl
  | .param name =>
    have bound : (typeBindLookup b name).map Ty.canonical = (typeBindLookup d name).map Ty.canonical := by
      rw [← typeBindLookup_canonical,← typeBindLookup_canonical,same]
    rw [typeSubst,typeSubst]
    cases left : typeBindLookup b name <;> cases right : typeBindLookup d name <;> simp_all
  | .apply name args => simp [typeApply,typeListSubst_congr same args]
  | .ptr base | .array base => simp [typeSubst_congr same base]

theorem typeListSubst_congr (same : canonicalBindings b = canonicalBindings d) (ts : TyList) :
    (typeListSubst b ts).canonical = (typeListSubst d ts).canonical := by
  match ts with
  | .nil => rfl
  | .cons type next =>
    simp [typeSubst_congr same type,typeListSubst_congr same next]

end

mutual

theorem typeSubst_nil (t : Ty) : (typeSubst [] t).canonical = t.canonical := by
  match t with
  | .name _ => simp [typeName,canonicalTypeName_idem]
  | .param _ => simp [typeBindLookup]
  | .apply _ args => simp [typeApply,canonicalTypeName_idem,typeListSubst_nil args]
  | .ptr base | .array base => simp [typeSubst_nil base]

theorem typeListSubst_nil (ts : TyList) : (typeListSubst [] ts).canonical = ts.canonical := by
  match ts with
  | .nil => rfl
  | .cons type next => simp [typeSubst_nil type,typeListSubst_nil next]

end

theorem typeDeclNode_canonical (table : Table) (t : Ty) :
    typeDeclNode table t.canonical = typeDeclNode table t := by
  cases t <;> simp [typeDeclNode,mangleSourceName,typeName,canonicalTypeName_idem]

theorem typeDeclNode_congr (table : Table) (same : t.canonical = u.canonical) :
    typeDeclNode table t = typeDeclNode table u := by
  rw [← typeDeclNode_canonical,same,typeDeclNode_canonical]

theorem typeEqual_decl (table : Table) (equal : typeEqual t u = true) :
    typeDeclNode table t = typeDeclNode table u :=
  typeDeclNode_congr table ((typeEqual_iff t u).mp equal)

end Canonical

section Signatures

def Member.params : Member → List Ty
  | .method m => m.params
  | _ => []

def sameSignature (a b : TypedMember) : Bool :=
  typeEqualOpt a.type b.type && paramsEqualBound a.bindings a.node.params b.bindings b.node.params

def TypedMember.signature (found : TypedMember) : Option Ty × List Ty :=
  (found.type.map Ty.canonical,found.node.params.map fun p => (typeSubst found.bindings p).canonical)

def TypedMember.canonical (found : TypedMember) : TypedMember :=
  { found with bindings := canonicalBindings found.bindings }

theorem typeEqualOpt_iff (a b : Option Ty) : typeEqualOpt a b = true ↔ a.map Ty.canonical = b.map Ty.canonical := by
  cases a <;> cases b <;> simp [typeEqualOpt,typeEqual_iff]

theorem paramsEqualBound_iff (abind bbind : Bindings) (as bs : List Ty) :
    paramsEqualBound abind as bbind bs = true ↔
      as.map (fun a => (typeSubst abind a).canonical) = bs.map fun b => (typeSubst bbind b).canonical := by
  induction as generalizing bs with
  | nil => cases bs <;> simp [paramsEqualBound]
  | cons a as ih =>
    cases bs with
    | nil => simp [paramsEqualBound]
    | cons b bs =>
      have rest := ih bs
      simp only [paramsEqualBound,and_eq_true,beq_iff_eq,length_cons,zip_cons_cons,all_cons,
        map_cons,cons.injEq,← rest,typeEqual_iff,Nat.add_right_cancel_iff]
      exact and_left_comm

theorem sameSignature_iff {a b : TypedMember} : sameSignature a b = true ↔ a.signature = b.signature := by
  rw [sameSignature,and_eq_true,typeEqualOpt_iff,paramsEqualBound_iff,TypedMember.signature,
    TypedMember.signature,Prod.mk.injEq]

theorem signature_congr {a b : TypedMember} (same : a.canonical = b.canonical) : a.signature = b.signature := by
  obtain ⟨node,owner,bound⟩ := a
  simp only [TypedMember.canonical,TypedMember.mk.injEq] at same
  obtain ⟨rfl,rfl,same⟩ := same
  simp only [TypedMember.signature,TypedMember.type,Option.map_map,Prod.mk.injEq]
  constructor
  · congr 1
    funext t
    exact typeSubst_congr same t
  · apply map_congr_left
    intro t _
    exact typeSubst_congr same t

theorem lookupIn_congr (table : Table) (depth : Nat) (c : Decl) (same : canonicalBindings b = canonicalBindings d)
    (name : String) (method : Bool) : (typedMemberLookupIn table depth c b name method).map TypedMember.canonical =
      (typedMemberLookupIn table depth c d name method).map TypedMember.canonical := by
  induction depth generalizing c b d with
  | zero => rfl
  | succ depth ih =>
    simp only [typedMemberLookupIn,map_findSome?]
    congr 1
    funext m
    cases m with
    | inherit parent type =>
      have types := typeSubst_congr same type
      simp only [comp_apply,typeDeclNode_congr table types]
      cases typeDeclNode table (typeSubst d type) with
      | none => rfl
      | some p =>
        have args : (typeSubst b type).args.canonical = (typeSubst d type).args.canonical := by
          rw [← args_canonical,types,args_canonical]
        exact ih p (bindings_congr p args)
    | _ =>
      simp only [comp_apply]
      split
      · simp [TypedMember.canonical,same]
      · rfl

end Signatures

section Receivers

variable {table : Table} {depth : Nat}

/-- A type of a declaration through which the search for members ends, whose name is not `nil` or a builtin scalar. -/
structure Declared (table : Table) (depth : Nat) where
  type : Ty
  decl : Decl
  found : typeDeclNode table type = some decl
  notEnum : decl.kind ≠ .nEnum
  notNil : typeIsNil type = false
  notScalar : typeScalarBuiltin type = false
  ends : Descent.ends (byType table) depth (decl,typeBindingsFor decl type)

def Declared.node (t : Declared table depth) : Decl × Bindings := (t.decl,typeBindingsFor t.decl t.type)

def Declared.lookup (t : Declared table depth) (name : String) (method : Bool) : Option TypedMember :=
  typedMemberLookup table depth t.type name method

theorem Declared.lookup_eq (t : Declared table depth) (name : String) (method : Bool) :
    t.lookup name method = typedMemberLookupIn table depth t.decl t.node.2 name method := by
  rw [Declared.lookup,typedMemberLookup,t.found]
  rfl

theorem assignable_iff (T U : Declared table depth) : typeAssignableSemantic table T.type U.type = true ↔
    T.decl = U.decl ∨ subclassRef table T.type U.type = true := by
  have equal : typeEqual T.type U.type = true → T.decl = U.decl := by
    intro equal
    have same := typeEqual_decl table equal
    rw [T.found,U.found] at same
    exact some.inj same
  simp only [typeAssignableSemantic,T.notNil,U.notNil,T.found,U.found,T.notScalar,false_eq_true,↓reduceIte,
    isSome_some,Bool.true_and,Bool.false_and,Bool.or_false,Bool.or_eq_true,beq_iff_eq,some.injEq]
  constructor
  · rintro ((same | same) | sub)
    · exact .inl (equal same)
    · exact .inl same
    · exact .inr sub
  · rintro (same | sub)
    · exact .inl (.inr same)
    · exact .inr sub

/-- Every member of the expected type is there in the actual one with the same signature, and instances of one
declaration have equal arguments. -/
def Sound (T U : Declared table depth) : Prop :=
  typeAssignableSemantic table T.type U.type →
    (∀ name method found, T.lookup name method = some found →
      ∃ other, U.lookup name method = some other ∧ sameSignature found other) ∧
    (T.decl = U.decl → typeListEqual T.type.args U.type.args)

/-- Inherit members lead from `U` to the type `T`, and `front` are the members that the search in `U` meets
before it comes to those of `T`. -/
def Way (U : Declared table depth) (front : List TypedMember) (T : Declared table depth) : Prop :=
  ∃ t, typeEqual t T.type ∧ Reaches (byType table) depth U.node front (T.decl,typeBindingsFor T.decl t)

/-- A member in front that has the name of one of `T` has its signature too. -/
def Unshadowed (front : List TypedMember) (T : Declared table depth) : Prop :=
  ∀ name method found first, T.lookup name method = some found →
    front.find? (·.node.answers name method) = some first → sameSignature found first

structure Keeps (T U : Declared table depth) : Prop where
  arguments : T.decl = U.decl → typeListEqual T.type.args U.type.args
  unshadowed : T.decl ≠ U.decl → subclassRef table T.type U.type → ∃ front, Way U front T ∧ Unshadowed front T

theorem lookup_of_args (T : Declared table depth) (same : t.args.canonical = T.type.args.canonical)
    (found : T.lookup name method = some member) :
    ∃ other, typedMemberLookupIn table depth T.decl (typeBindingsFor T.decl t) name method = some other ∧
      member.signature = other.signature := by
  have alike := lookupIn_congr table depth T.decl (bindings_congr T.decl same) name method
  rw [T.lookup_eq] at found
  rw [Declared.node] at found
  rw [found] at alike
  obtain ⟨other,is,canonical⟩ := map_eq_some_iff.mp alike
  exact ⟨other,is,(signature_congr canonical).symm⟩

/-- What the search in `U` finds for a member of `T`: one in front of `T`, or else the member itself. -/
theorem Way.lookup (way : Way U front T) (found : T.lookup name method = some member) :
    ∃ other, U.lookup name method = some other ∧ match front.find? (·.node.answers name method) with
      | some first => other = first
      | none => member.signature = other.signature := by
  obtain ⟨t,equal,reaches⟩ := way
  obtain ⟨behind,walk⟩ := reaches.items U.ends
  have args : t.args.canonical = T.type.args.canonical := by
    rw [← args_canonical,(typeEqual_iff t T.type).mp equal,args_canonical]
  obtain ⟨other,is,same⟩ := lookup_of_args T args found
  rw [typedMemberLookupIn_eq] at is
  rw [U.lookup_eq,typedMemberLookupIn_eq,show items _ _ (U.decl,U.node.2) = _ from walk,find?_append,find?_append,is]
  cases front.find? (·.node.answers name method) with
  | some first => exact ⟨first,rfl,rfl⟩
  | none => exact ⟨other,rfl,same⟩

theorem sound_of_keeps (keeps : Keeps T U) : Sound T U := by
  intro accepted
  refine ⟨?_,keeps.arguments⟩
  intro name method member found
  by_cases one : T.decl = U.decl
  · have args := (typeListEqual_iff T.type.args U.type.args).mp (keeps.arguments one)
    obtain ⟨other,is,same⟩ := lookup_of_args T args.symm found
    refine ⟨other,?_,(sameSignature_iff).mpr same⟩
    rw [U.lookup_eq,Declared.node,← one]
    exact is
  · have sub := ((assignable_iff T U).mp accepted).resolve_left one
    obtain ⟨front,way,unshadowed⟩ := keeps.unshadowed one sub
    obtain ⟨other,is,which⟩ := way.lookup found
    refine ⟨other,is,?_⟩
    split at which
    · rename_i first inFront
      rw [which]
      exact unshadowed name method member first found inFront
    · exact (sameSignature_iff).mpr which

/-- Where there is a way, soundness asks that nothing in front of the expected type hides its members. -/
theorem unshadowed_of_sound {U : Declared table depth} (sound : Sound T U)
    (accepted : typeAssignableSemantic table T.type U.type = true) (way : Way U front T) : Unshadowed front T := by
  intro name method member first found inFront
  obtain ⟨other,is,same⟩ := (sound accepted).1 name method member found
  obtain ⟨other',is',which⟩ := way.lookup found
  rw [is'] at is
  cases is
  rw [inFront] at which
  cases which
  exact same

end Receivers

section Spelling

variable {table : Table} {depth : Nat}

/-- The types whose generated names `is_subclass` goes by. -/
def Spells (table : Table) (U t : Ty) : Prop := t = U ∨ ∃ c ∈ table, ∃ name, .inherit name t ∈ c.members

/-- No class of the table has the generated name of another type than its own, and none of the types has that of `T`
but `T`. -/
structure Spelt (table : Table) (T U : Ty) : Prop where
  inherits : ∀ c ∈ table, ∀ name type, .inherit name type ∈ c.members → name = typeCname type
  plain : ∀ t, Spells table U t → (findClass table (typeCname t)).isSome →
    ∃ name, t = .name name ∧ canonicalTypeName name = name
  apart : ∀ t, Spells table U t → typeCname t = typeCname T → typeEqual t T

theorem isSubclassIn_step (sub : isSubclassIn table level child parent = true) (differ : child ≠ parent) :
    ∃ below c name type, level = below + 1 ∧ findClass table child = some c ∧ .inherit name type ∈ c.members ∧
      (name = parent ∨ isSubclassIn table below name parent = true) := by
  cases level with
  | zero => simp [isSubclassIn,differ] at sub
  | succ below =>
    cases found : findClass table child with
    | none => simp [isSubclassIn,differ,found] at sub
    | some c =>
      simp only [isSubclassIn,beq_eq_false_iff_ne.mpr differ,found,Bool.false_or,List.any_eq_true] at sub
      obtain ⟨m,member,is⟩ := sub
      cases m with
      | inherit name type => exact ⟨below,c,name,type,rfl,rfl,member,by simpa using is⟩
      | _ => cases is

theorem link_byType (member : .inherit name type ∈ c.members)
    (found : typeDeclNode table (typeSubst bindings type) = some p) :
    Link (byType table) (c,bindings) (p,typeBindingsFor p (typeSubst bindings type)) :=
  mem_flatMap.mpr ⟨_,member,by simp [found]⟩

theorem Spelt.named (spelt : Spelt table T U) (spells : Spells table U t)
    (found : findClass table (typeCname t) = some c) :
    typeDeclNode table (typeSubst [] t) = some c ∧ typeDeclNode table t = some c ∧
      typeBindingsFor c t = [] ∧ typeBindingsFor c (typeSubst [] t) = [] := by
  obtain ⟨name,rfl,canonical⟩ := spelt.plain t spells (by simp [found])
  have same : typeName name = .name name := by rw [typeName,canonical]
  have decl : typeDeclNode table (.name name) = some c := by
    rw [typeDeclNode,mangleSourceName,same]
    exact found
  exact ⟨by rw [typeSubst,same]; exact decl,decl,rfl,by rw [typeSubst,same]; rfl⟩

theorem reaches_of_subclass {T : Declared table depth} (spelt : Spelt table T.type U) (spells : Spells table U u)
    (found : findClass table (typeCname u) = some c)
    (sub : isSubclassIn table level (typeCname u) (typeCname T.type) = true)
    (differ : typeCname u ≠ typeCname T.type) : ∃ front t, typeEqual t T.type ∧
      Reaches (byType table) depth (c,[]) front (T.decl,typeBindingsFor T.decl t) := by
  induction level generalizing u c with
  | zero => simp [isSubclassIn,differ] at sub
  | succ level ih =>
    obtain ⟨below,c',name,type,same,found',member,rest⟩ := isSubclassIn_step sub differ
    cases same
    rw [found] at found'
    cases found'
    have declared := findClass_mem found
    have spellsType : Spells table U type := .inr ⟨c,declared,name,member⟩
    have spelling := spelt.inherits c declared name type member
    subst spelling
    by_cases last : typeCname type = typeCname T.type
    · have equal : (typeSubst [] type).canonical = T.type.canonical := by
        rw [typeSubst_nil]
        exact (typeEqual_iff _ _).mp (spelt.apart type spellsType last)
      have decl : typeDeclNode table (typeSubst [] type) = some T.decl := by
        rw [typeDeclNode_congr table equal,T.found]
      have link : Link (byType table) (c,[]) _ := link_byType member decl
      obtain ⟨front,reaches⟩ := link.reaches (.here : Reaches (byType table) depth _ [] _)
      exact ⟨front,_,(typeEqual_iff _ _).mpr equal,reaches⟩
    · have sub := rest.resolve_left last
      obtain ⟨_,p,_,_,_,foundParent,_⟩ := isSubclassIn_step sub last
      obtain ⟨front,t,equal,reaches⟩ := ih spellsType foundParent sub last
      obtain ⟨decl,_,_,bound⟩ := spelt.named spellsType foundParent
      have link : Link (byType table) (c,[]) _ := link_byType member decl
      rw [bound] at link
      obtain ⟨longer,reaches⟩ := link.reaches reaches
      exact ⟨longer,t,equal,reaches⟩

theorem way_of_subclass {U : Declared table depth} (spelt : Spelt table T.type U.type)
    (sub : subclassRef table T.type U.type = true) (differ : T.decl ≠ U.decl) : ∃ front, Way U front T := by
  have names : typeCname U.type ≠ typeCname T.type := by
    intro same
    have decl := typeEqual_decl table (spelt.apart U.type (.inl rfl) same)
    rw [U.found,T.found] at decl
    exact differ (some.inj decl).symm
  simp only [subclassRef,and_eq_true] at sub
  obtain ⟨_,c,_,_,_,found,_⟩ := isSubclassIn_step sub.2 names
  obtain ⟨_,decl,bound,_⟩ := spelt.named (.inl rfl) found
  rw [U.found] at decl
  cases decl
  obtain ⟨front,t,equal,reaches⟩ := reaches_of_subclass spelt (.inl rfl) found sub.2 names
  refine ⟨front,t,equal,?_⟩
  rw [Declared.node,bound]
  exact reaches

/-- Accepting a type is sound if instances of one declaration have equal arguments and no member above is hidden on
the way; where generated names stand for their types, only then. -/
theorem assignable_sound (T U : Declared table depth) :
    (Keeps T U → Sound T U) ∧ (Spelt table T.type U.type → Sound T U → Keeps T U) := by
  refine ⟨sound_of_keeps,fun spelt sound => ⟨?_,?_⟩⟩
  · intro one
    exact (sound ((assignable_iff T U).mpr (.inl one))).2 one
  · intro differ sub
    obtain ⟨front,way⟩ := way_of_subclass spelt sub differ
    exact ⟨front,way,unshadowed_of_sound sound ((assignable_iff T U).mpr (.inr sub)) way⟩

def label : Member := .field { name := "label", type := some (.name "string") }

def intBox : Ty := .apply "Box" (.cons (.name "int64") .nil)

/-- A generic class and a class below one of its instances. -/
def boxes : Table := [
  { name := "Box", params := ["T"], members := [
    .field { name := "value", type := some (.param "T") },.method { name := "get", type := .param "T" }] },
  { name := "Crate", members := [inheritDecl intBox,label] }]

def boxOf (arg : String) : Declared boxes 2 where
  type := .apply "Box" (.cons (.name arg) .nil)
  decl := boxes[0]
  found := by rfl
  notEnum := by decide
  notNil := by rfl
  notScalar := by rfl
  ends := by rfl

def crate : Declared boxes 2 where
  type := .name "Crate"
  decl := boxes[1]
  found := by decide
  notEnum := by decide
  notNil := by decide
  notScalar := by decide
  ends := by decide

theorem boxes_inherit (declared : c ∈ boxes) (member : .inherit name type ∈ c.members) :
    name = typeCname type ∧ type = intBox := by
  rcases mem_cons.mp declared with rfl | rest
  · simp at member
  · cases mem_singleton.mp rest
    have same : name = typeCname intBox ∧ type = intBox := by simpa [label] using member
    exact ⟨by rw [same.1,same.2],same.2⟩

theorem boxes_spelt : Spelt boxes intBox (.name "Crate") where
  inherits c declared name type member := (boxes_inherit declared member).1
  plain t spells := by
    rcases spells with rfl | ⟨c,declared,name,member⟩
    · exact fun _ => ⟨"Crate",rfl,by decide⟩
    · rw [(boxes_inherit declared member).2]
      exact fun found => absurd found (by decide)
  apart t spells := by
    rcases spells with rfl | ⟨c,declared,name,member⟩
    · exact fun same => absurd same (by decide)
    · rw [(boxes_inherit declared member).2]
      exact fun _ => by decide

theorem crate_keeps : Keeps (boxOf "int64") crate where
  arguments same := absurd same (by decide)
  unshadowed _ _ := by
    have first : byType boxes crate.node = [] ++ .inl (boxOf "int64").node :: [.inr ⟨label,boxes[1],[]⟩] := rfl
    have reaches : Reaches (byType boxes) 2 crate.node [] (boxOf "int64").node := .down first .here
    refine ⟨[],⟨intBox,by decide,reaches⟩,?_⟩
    intro name method found shadow _ inFront
    cases inFront

theorem crate_is_box : typeAssignableSemantic boxes (boxOf "int64").type crate.type = true ∧
    Spelt boxes (boxOf "int64").type crate.type ∧ Sound (boxOf "int64") crate :=
  ⟨by decide,boxes_spelt,(assignable_sound (boxOf "int64") crate).1 crate_keeps⟩

/-- A box of an integer is accepted for a box of a string. -/
theorem boxes_mixed : ¬∀ (table : Table) (depth : Nat) (T U : Declared table depth), Sound T U := by
  intro always
  obtain ⟨members,_⟩ := always boxes 2 (boxOf "string") (boxOf "int64") (by decide)
  obtain ⟨other,is,same⟩ := members "value" false _ rfl
  cases is
  exact absurd same (by decide)

end Spelling

end Objective9c.Compiler
