import Objective9c.Compiler.Dispatch

/-! Private methods. A message send is checked against the method that a search through the receiver's type
finds first, parents before the class's own members, while the object's switch runs the body nearest to its
class. -/
namespace Objective9c.Compiler

open Relation Descent List

section Search

variable {table : Table} {depth more : Nat} {c : Decl} {bindings : Bindings} {name : String} {method : Bool}

def byType (table : Table) (at_ : Decl × Bindings) : List ((Decl × Bindings) ⊕ TypedMember) :=
  at_.1.members.flatMap fun
    | .inherit _ type =>
      let pt := typeSubst at_.2 type
      (typeDeclNode table pt).toList.map fun p => .inl (p,typeBindingsFor p pt)
    | m => [.inr ⟨m,at_.1,at_.2⟩]

theorem typedMemberLookupIn_eq (table : Table) (depth : Nat) (c : Decl) (bindings : Bindings) (name : String)
    (method : Bool) : typedMemberLookupIn table depth c bindings name method =
      (items (byType table) depth (c,bindings)).find? fun found => found.node.answers name method := by
  induction depth generalizing c bindings with
  | zero => rfl
  | succ depth ih =>
    rw [typedMemberLookupIn,items,byType,flatMap_assoc,find?_flatMap]
    congr 1
    funext m
    cases m with
    | inherit parent type =>
      cases found : typeDeclNode table (typeSubst bindings type) <;> simp [found,ih]
    | _ => simp [find?_singleton]

end Search

section Privacy

/-- The declarations with the instances of the generic ones: what was written where one was made as an instance, and
that the searches by type end. -/
structure Declarations extends Hierarchy where
  written : Decl → Decl
  typed : ∀ c ∈ table, ∀ bindings, Descent.ends (byType table) depth (c,bindings)

variable {P : Declarations}

/-- A message send: the class whose body it stands in, the type of its receiver and the method name. -/
structure Send where
  scope : Option Decl
  receiver : Ty
  name : String
deriving DecidableEq

/-- The visibility checks of `typecheck_generic_msg`. -/
def sendAllowed (table : Table) (depth : Nat) (send : Send) : Bool :=
  (typedMemberLookup table depth send.receiver send.name false).isNone &&
    match typedMemberLookup table depth send.receiver send.name true with
    | some ⟨.method m,owner,_⟩ => !(m.isPrivate && send.scope != some owner)
    | _ => false

/-- A receiver of the type may be an object of the class: the class's ancestors, by the generated names of inherit
members, are the types it can be assigned to. -/
def MayHold (P : Declarations) (receiver : Ty) (object : Decl) : Prop :=
  object ∈ P.table ∧ object.isConcrete ∧
    ∃ t, findClass P.table (typeCname receiver) = some t ∧ ReflTransGen (Link (byName P.table)) object t

/-- No send outside a class runs a body that is written as private in it. -/
def PrivateStays (P : Declarations) : Prop :=
  ∀ send object x b, sendAllowed P.table P.depth send → MayHold P send.receiver object →
    runs P.table P.depth object (o9Hash send.name) = some (.impl x b) → b.isPrivate → send.scope = some (P.written x)

/-- The member of the name that the class body behind a type shows first, inherited ones where they stand. -/
def Shows (table : Table) (receiver : Ty) (name : String) (method : Bool) (found : TypedMember) : Prop :=
  ∃ c, typeDeclNode table receiver = some c ∧
    Nearest (byType table) (fun found => found.node.answers name method) (c,typeBindingsFor c receiver) found

/-- Where the body nearest to an object's class is private, a type that the object may be held as shows no other
method for its selector, unless a stored member of the name stands in the way. -/
def PrivateShown (P : Declarations) : Prop :=
  ∀ object x b name, Nearest (offering P.table object.name) (fun case => decide (case.selector = o9Hash name)) object
      ⟨o9Hash name,.impl x b⟩ → b.isPrivate →
    ∀ receiver, MayHold P receiver object → (∀ field, ¬Shows P.table receiver name false field) →
      ∀ m owner bindings, Shows P.table receiver name true ⟨.method m,owner,bindings⟩ →
        m.isPrivate ∧ owner = P.written x

theorem typeDeclNode_declared (found : typeDeclNode table type = some c) : c ∈ table := by
  cases type with
  | name | apply => exact findClass_mem found
  | param | ptr | array => cases found

theorem lookup_iff : typedMemberLookup P.table P.depth receiver name method = some found ↔
    Shows P.table receiver name method found := by
  rw [typedMemberLookup,Option.bind_eq_some_iff,Shows]
  apply exists_congr
  intro c
  apply and_congr_right
  intro declared
  rw [typedMemberLookupIn_eq,find?_items_iff _ (P.typed c (typeDeclNode_declared declared) _)]

theorem lookup_none : typedMemberLookup P.table P.depth receiver name method = none ↔
    ∀ found, ¬Shows P.table receiver name method found := by
  rw [Option.eq_none_iff_forall_ne_some]
  exact forall_congr' fun found => not_congr lookup_iff

def account : Decl := { name := "Account", members := [.method { name := "adjust" }] }

def vip : Decl :=
  { name := "Vip", members := [inheritDecl (.name "Account"),.method { name := "adjust", isPrivate := true }] }

def narrowing : Declarations where
  table := [account,vip]
  depth := 2
  ends := by decide
  written := id
  typed := by
    intro c declared bindings
    obtain rfl | rfl : c = account ∨ c = vip := by simpa using declared
    · rfl
    · rfl

end Privacy

end Objective9c.Compiler
