import Objective9c.Lib.Descent
import Objective9c.Compiler.Types

/-! The table of declared classes, structs, interfaces and enums and the searches through inherited members.
Searches follow inherit members by recursion; `depth` bounds that recursion. -/
namespace Objective9c.Compiler

open List Option

inductive Kind where
  | nClass | nStruct | nInterface | nEnum
deriving DecidableEq

/-- An `NMethod` member. `isDecl` marks a method declared without a body. -/
structure MethodDecl where
  name : String
  type : Ty := .name "void"
  params : List Ty := []
  isPrivate : Bool := false
  isInternal : Bool := false
  isAbstract : Bool := false
  isDecl : Bool := false
deriving DecidableEq

inductive Storage where
  | prop | state | stream
deriving DecidableEq

/-- An `NProp`, `NState` or `NStream` member; only a stream may come without a type. -/
structure Field where
  name : String
  type : Option Ty
  storage : Storage := .prop
  isPrivate : Bool := false
  isInternal : Bool := false
deriving DecidableEq

/-- A member of a class body. An inherit member has the parent's name in generated C beside its type. -/
inductive Member where
  | inherit (name : String) (type : Ty)
  | method (method : MethodDecl)
  | field (field : Field)
  | function (name : String)
  | destructor
deriving DecidableEq

structure Decl where
  name : String
  kind : Kind := .nClass
  isAbstract : Bool := false
  params : List String := []
  members : List Member := []
deriving DecidableEq

abbrev Table := List Decl

/-- The member that `typename ;` declares in a class body. -/
@[simp] def inheritDecl (type : Ty) : Member := .inherit (typeCname type) type

def methodHasBody (m : MethodDecl) : Bool := !(m.isAbstract || m.isDecl)

def Decl.isConcrete (c : Decl) : Bool := c.kind == .nClass && !c.isAbstract

/-- The members that a search for a method or for a stored member of the name accepts. -/
def Member.answers (m : Member) (name : String) (method : Bool) : Bool :=
  match m with
  | .method m => method && m.name == name
  | .field f => !method && f.name == name
  | _ => false

def Member.type : Member → Option Ty
  | .method m => some m.type
  | .field f => f.type
  | .inherit _ type => some type
  | _ => none

section Lookup

variable (table : Table)

def findClass (name : String) : Option Decl := table.find? (·.name == name)

def typeDeclNode : Ty → Option Decl
  | .name name => findClass table (mangleSourceName name)
  | .apply name _ => findClass table (mangleSourceName name)
  | _ => none

def typeBindingsFor (decl : Decl) : Ty → Bindings
  | .apply _ args => bindParams decl.params args []
  | _ => []

/-- `is_subclass` gives up below 64 recursive calls. -/
def isSubclassIn : Nat → String → String → Bool
  | 0, sub, parent => sub == parent
  | depth+1, sub, parent => sub == parent || match findClass table sub with
    | none => false
    | some c => c.members.any fun
      | .inherit name _ => name == parent || isSubclassIn depth name parent
      | _ => false

def isSubclass (sub parent : String) : Bool := isSubclassIn table 65 sub parent

/-- What a search through a receiver type finds: the member, the declaration it stands in, and the type
arguments in force there. -/
structure TypedMember where
  node : Member
  owner : Decl
  bindings : Bindings
deriving DecidableEq

def TypedMember.type (found : TypedMember) : Option Ty := found.node.type.map (typeSubst found.bindings)

def typedMemberLookupIn : Nat → Decl → Bindings → String → Bool → Option TypedMember
  | 0, _, _, _, _ => none
  | depth+1, c, bindings, name, method => c.members.findSome? fun
    | .inherit _ type =>
      let pt := typeSubst bindings type
      (typeDeclNode table pt).bind fun p => typedMemberLookupIn depth p (typeBindingsFor p pt) name method
    | m => if m.answers name method then some ⟨m,c,bindings⟩ else none

def typedMemberLookup (depth : Nat) (receiver : Ty) (name : String) (method : Bool) : Option TypedMember :=
  (typeDeclNode table receiver).bind fun c =>
    typedMemberLookupIn table depth c (typeBindingsFor c receiver) name method

/-- The same search by the generated names of the parents. -/
def memberNode : Nat → Decl → String → Bool → Option Member
  | 0, _, _, _ => none
  | depth+1, c, name, method => c.members.findSome? fun
    | .inherit parent _ => (findClass table parent).bind fun p => memberNode depth p name method
    | m => if m.answers name method then some m else none

def localMethodNode (c : Decl) (name : String) : Option MethodDecl := c.members.findSome? fun
  | .method m => if m.name == name then some m else none
  | _ => none

/-- The implementation of a method: the class's own, or the first one of a parent that is no interface. -/
def concreteMethodNode : Nat → Decl → String → Option (Decl × MethodDecl)
  | 0, _, _ => none
  | depth+1, c, name => match (localMethodNode c name).filter methodHasBody with
    | some m => some (c,m)
    | none => c.members.findSome? fun
      | .inherit parent _ => (findClass table parent).bind fun p =>
        if p.kind == .nInterface then none else concreteMethodNode depth p name
      | _ => none

end Lookup

section Walk

open Descent

/-- The members of a declaration in the order of the class body, its parents by their generated names. -/
def byName (table : Table) (c : Decl) : List (Decl ⊕ Decl × Member) := c.members.flatMap fun
  | .inherit name _ => (findClass table name).toList.map .inl
  | m => [.inr (c,m)]

/-- A table in which no walk through parents goes deeper than `depth`. -/
structure Hierarchy where
  table : Table
  depth : Nat
  ends : ∀ c ∈ table, Descent.ends (byName table) depth c

variable {table : Table}

theorem link_byName : Link (byName table) c p ↔ ∃ name type, .inherit name type ∈ c.members ∧
    findClass table name = some p := by
  simp only [Link,byName,mem_flatMap]
  constructor
  · rintro ⟨m,member,is⟩
    cases m with
    | inherit name type => exact ⟨name,type,member,by simpa using is⟩
    | _ => simp at is
  · rintro ⟨name,type,member,found⟩
    exact ⟨_,member,by simp [found]⟩

theorem own_byName (own : .inr (x,m) ∈ byName table c) : x = c ∧ m ∈ c.members := by
  obtain ⟨other,at_,eq⟩ := mem_flatMap.mp own
  cases other with
  | inherit => simp at eq
  | _ =>
    obtain ⟨rfl,rfl⟩ : x = c ∧ m = _ := by simpa using eq
    exact ⟨rfl,at_⟩

@[simp] def memberItems (table : Table) (depth : Nat) (c : Decl) : Member → List (Decl × Member)
  | .inherit name _ => ((findClass table name).map (items (byName table) depth)).getD []
  | m => [(c,m)]

theorem expand_byName (table : Table) (depth : Nat) (c : Decl) :
    (byName table c).flatMap (expand (byName table) depth) = c.members.flatMap (memberItems table depth c) := by
  rw [byName,flatMap_assoc]
  apply flatMap_congr
  intro m _
  cases m with
  | inherit name => cases found : findClass table name <;> simp [expand,found]
  | _ => rfl

theorem Hierarchy.items_members (H : Hierarchy) (declared : c ∈ H.table) :
    items (byName H.table) H.depth c = c.members.flatMap (memberItems H.table H.depth c) :=
  (items_unfold (H.ends c declared)).trans (expand_byName H.table H.depth c)

theorem localMethodNode_some (found : localMethodNode c name = some m) : .method m ∈ c.members ∧ m.name = name := by
  obtain ⟨member,at_,is⟩ := exists_of_findSome?_eq_some found
  cases member with
  | method =>
    obtain ⟨same,eq⟩ := ite_none_right_eq_some.mp is
    cases eq
    exact ⟨at_,by simpa using same⟩
  | _ => cases is

theorem concreteMethodNode_some (found : concreteMethodNode table depth c name = some (x,b)) :
    .method b ∈ x.members ∧ b.name = name ∧ methodHasBody b := by
  induction depth generalizing c with
  | zero => simp [concreteMethodNode] at found
  | succ depth ih =>
    simp only [concreteMethodNode] at found
    split at found
    · rename_i m own
      cases found
      obtain ⟨here,body⟩ := filter_eq_some_iff.mp own
      obtain ⟨member,same⟩ := localMethodNode_some here
      exact ⟨member,same,body⟩
    · obtain ⟨member,_,is⟩ := exists_of_findSome?_eq_some found
      cases member with
      | inherit =>
        obtain ⟨p,_,is⟩ := bind_eq_some_iff.mp is
        obtain ⟨_,is⟩ := ite_none_left_eq_some.mp is
        exact ih is
      | _ => cases is

theorem findClass_mem (found : findClass table name = some c) : c ∈ table := mem_of_find?_eq_some found

end Walk

end Objective9c.Compiler
