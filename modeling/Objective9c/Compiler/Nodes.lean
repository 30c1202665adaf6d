import Objective9c.Compiler.Contract
import Objective9c.Compiler.Validate

/-! The syntax tree of a program, the table of classes that the parser fills from it, and the checks that a
type declaration passes. -/
namespace Objective9c.Compiler.Ast

/-- The kinds of nodes that declare something; statements and expressions are `other`. -/
inductive NodeType where
  | decl (kind : Kind)
  | inherit | method | field (storage : Storage) | function | destructor | other
deriving DecidableEq

structure Flags where
  isPrivate : Bool := false
  isInternal : Bool := false
  isAbstract : Bool := false
  isDecl : Bool := false
deriving DecidableEq

/-- A node of the tree; those of one list hang together by `next`. A method has its parameters on the right and its
body on the left, a type declaration its members on the left. -/
inductive Node where
  | nil
  | node (type : NodeType) (flags : Flags) (name : String) (typeinfo : Option Ty) (params left right next : Node)
deriving DecidableEq

namespace Node

def params : Node → Node
  | nil => nil
  | node _ _ _ _ params _ _ _ => params

def left : Node → Node
  | nil => nil
  | node _ _ _ _ _ left _ _ => left

def names : Node → List String
  | nil => []
  | node _ _ name _ _ _ _ next => name :: names next

def listTypes : Node → List Ty
  | nil => []
  | node _ _ _ typeinfo _ _ _ next => typeinfo.toList ++ listTypes next

def toMember (type : NodeType) (flags : Flags) (name : String) (typeinfo : Option Ty) (right : Node) :
    Option Member :=
  match type with
  | .inherit => typeinfo.map (.inherit name)
  | .method => some (.method { flags with name, type := typeinfo.getD (.name "void"), params := listTypes right })
  | .field storage => some (.field { flags with name, type := typeinfo, storage })
  | .function => some (.function name)
  | .destructor => some .destructor
  | .decl _ | .other => none

def members : Node → List Member
  | nil => []
  | node type flags name typeinfo _ _ right next =>
    (toMember type flags name typeinfo right).toList ++ members next

/-- The declaration that stands in the table of classes under the name. -/
def toDecl (name : String) : Node → Option Decl
  | node (.decl kind) flags _ _ params left _ _ =>
    some { name, kind, isAbstract := flags.isAbstract, params := params.names, members := left.members }
  | _ => none

def bodies : Node → List Node
  | nil => []
  | node type _ _ _ _ left _ next => (if type = .method then [left] else []) ++ bodies next

end Node

section Classes

/-- `classes`: each name once, the last one added in front. -/
abbrev Classes := List (String × Node)

def findNode (classes : Classes) (name : String) : Option Node := (classes.find? (·.1 == name)).map Prod.snd

def addClass (name : String) (n : Node) (classes : Classes) : Classes :=
  if classes.any (·.1 == name) then classes.map fun c => if c.1 == name then (name,n) else c
  else (name,n) :: classes

/-- The parser adds each declaration when it has read it; a module has its declarations on the left. -/
def addClasses : Node → Classes → Classes
  | .nil, classes => classes
  | .node (.decl kind) flags name typeinfo params left right next, classes =>
    addClasses next (addClass name (.node (.decl kind) flags name typeinfo params left right .nil) classes)
  | .node _ _ _ _ _ left _ next, classes => addClasses next (addClasses left classes)

def tableOf (classes : Classes) : Table := classes.filterMap fun c => c.2.toDecl c.1

theorem findNode_cons : findNode ((name,n) :: classes) m = if name = m then some n else findNode classes m := by
  unfold findNode
  by_cases same : name = m
  · simp [same]
  · simp [same]

theorem addClass_of_absent (absent : findNode classes name = none) :
    addClass name n classes = (name,n) :: classes := by
  have none : classes.any (·.1 == name) = false := by
    simpa [findNode] using absent
  simp [addClass,none]

end Classes

section Checks

/-- A stored member whose type is the class it stands in. -/
def selfMember (c : Decl) (m : Member) : Bool :=
  match m.dataField with
  | some ⟨_,some (.name n),_,_,_⟩ => mangleSourceName n == c.name
  | _ => false

/-- What the checker asks of the declarations of a program. The verdict on a method body is a parameter; walks
through parents end. -/
structure Accepted (bodyOk : Decl → Node → Bool) (root : Node) : Prop where
  ends : ∃ depth,
    (∀ c ∈ tableOf (addClasses root []), Descent.ends (byName (tableOf (addClasses root []))) depth c) ∧
    passes (tableOf (addClasses root [])) depth
  valid : (tableOf (addClasses root [])).all (validateDecl (tableOf (addClasses root [])))
  selfFree : (tableOf (addClasses root [])).all fun c => c.members.all fun m => !selfMember c m
  bodies : ∀ c ∈ addClasses root [], ∀ d, c.2.toDecl c.1 = some d → ∀ body ∈ c.2.left.bodies, bodyOk d body

end Checks

end Objective9c.Compiler.Ast
