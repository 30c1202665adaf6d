import Objective9c.Compiler.Classes

/-! Which types the checker lets stand in a declaration. -/
namespace Objective9c.Compiler

@[simp] def TyList.toList : TyList → List Ty
  | .nil => []
  | .cons type next => type :: next.toList

/-- `type_arity_rule` and `type_arity_bad`: whether a builtin generic takes that many arguments. -/
def typeArityRule (name : String) : Option (Nat → Bool) :=
  if name = "List" then some (· == 1)
  else if name = "Task" then some (· == 1)
  else if name = "Dict" then some (· == 2)
  else if name = "function" then some (· == 0)
  else if name = "tabula" then some (· == 1)
  else if name = "Tuple" then some (2 ≤ ·)
  else none

def typeIsString (t : Ty) : Bool := t = .name "string"

def typeIsDouble (t : Ty) : Bool := t = .name "double"

def isScalarName : Ty → Bool
  | .name n => (findBuiltin n).any (·.abi == "scalar")
  | _ => false

def typeIsIntegralDictKey (t : Ty) : Bool := !typeIsString t && !typeIsDouble t && isScalarName t

def Member.dataField : Member → Option Field
  | .field f => if f.storage = .stream then none else some f
  | _ => none

section Validation

variable (table : Table)

/-- The record of a `tabula<T>`: a struct whose first field, the row id, is a string and whose fields are all
strings or scalars. -/
def tabulaRecordOk (args : List Ty) : Bool :=
  match (args.head?.bind (typeDeclNode table)).filter (·.kind == .nStruct) with
  | none => false
  | some st => match st.members.filterMap Member.dataField with
    | [] => false
    | id :: rest => id.type.any typeIsString &&
        (id :: rest).all fun f => f.type.any fun t => typeIsString t || isScalarName t

def validateBuiltinApply (name : String) (args : List Ty) (rule : Nat → Bool) : Bool :=
  rule args.length &&
  (name != "Dict" || args.head?.any fun kt => typeIsString kt || typeIsDouble kt || typeIsIntegralDictKey kt) &&
  (name != "tabula" || tabulaRecordOk table args)

def validateUserApply (name : String) (args : TyList) : Bool :=
  match typeDeclNode table (.apply name args) with
  | none => false
  | some d => d.params.length != 0 && d.params.length == args.toList.length

mutual

/-- `validate_type`, with the type parameters in scope. -/
def validateType (scope : List String) : Ty → Bool
  | .name n => (findBuiltin n).isSome || scope.contains n || match typeDeclNode table (.name n) with
    | none => false
    | some d => d.params.isEmpty
  | .param n => scope.contains n
  | .apply n args => (match typeArityRule n with
    | some rule => validateBuiltinApply table n args.toList rule
    | none => validateUserApply table n args) && validateTypeArgs scope args
  | .ptr _ => false
  | .array base => validateType scope base

def validateTypeArgs (scope : List String) : TyList → Bool
  | .nil => true
  | .cons type next => validateType scope type && validateTypeArgs scope next

end

def Member.types : Member → List Ty
  | .inherit _ type => [type]
  | .method m => m.type :: m.params
  | .field f => f.type.toList
  | .function _ | .destructor => []

def validateDecl (d : Decl) : Bool := d.members.all fun m => m.types.all (validateType table d.params)

end Validation

end Objective9c.Compiler
