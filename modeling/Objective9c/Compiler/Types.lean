import Mathlib.Data.List.Basic

/-! The compiler's types: names, generic parameters and applications, with their equality, the names they
get in generated C, and substitution of type arguments. -/
namespace Objective9c.Compiler

mutual

inductive Ty where
  | name (name : String)
  | param (name : String)
  | apply (name : String) (args : TyList)
  | ptr (base : Ty)
  | array (base : Ty)
deriving DecidableEq

inductive TyList where
  | nil
  | cons (type : Ty) (next : TyList)
deriving DecidableEq

end

def canonicalTypeName (name : String) : String := if name = "Tabula" then "tabula" else name

def typeName (name : String) : Ty := .name (canonicalTypeName name)

def typeApply (name : String) (args : TyList) : Ty := .apply (canonicalTypeName name) args

/-- A row of the table of builtin types: the C type that stores it and how it is passed. -/
structure Builtin where
  name : String
  plan9 : String
  abi : String

def builtins : List Builtin := [
  ⟨"bool","int","scalar"⟩,⟨"int64","vlong","scalar"⟩,⟨"uint64","uvlong","scalar"⟩,
  ⟨"int32","long","scalar"⟩,⟨"uint32","ulong","scalar"⟩,⟨"int16","short","scalar"⟩,
  ⟨"uint16","ushort","scalar"⟩,⟨"int8","char","scalar"⟩,⟨"uint8","uchar","scalar"⟩,
  ⟨"byte","uchar","scalar"⟩,⟨"double","double","scalar"⟩,⟨"void","void","none"⟩,
  ⟨"string","O9String*","pointer"⟩,⟨"function","void*","pointer"⟩,⟨"int","int","scalar"⟩,
  ⟨"uint","uint","scalar"⟩,⟨"short","short","scalar"⟩,⟨"long","long","scalar"⟩,
  ⟨"char","char","scalar"⟩,⟨"intptr","intptr","scalar"⟩,⟨"uintptr","uintptr","scalar"⟩,
  ⟨"vlong","vlong","scalar"⟩,⟨"uvlong","uvlong","scalar"⟩,⟨"ulong","ulong","scalar"⟩,
  ⟨"ushort","ushort","scalar"⟩,⟨"uchar","uchar","scalar"⟩,⟨"tabula","O9Tabula*","pointer"⟩,
  ⟨"MountTable","O9MountTable*","pointer"⟩,⟨"FileTree","O9FileTree*","pointer"⟩,
  ⟨"Vault","O9Vault*","pointer"⟩]

def findBuiltin (name : String) : Option Builtin := builtins.find? (·.name == canonicalTypeName name)

section Equality

mutual

def typeEqual : Ty → Ty → Bool
  | .name a, .name b => canonicalTypeName a == canonicalTypeName b
  | .param a, .param b => canonicalTypeName a == canonicalTypeName b
  | .apply a as, .apply b bs => canonicalTypeName a == canonicalTypeName b && typeListEqual as bs
  | .ptr a, .ptr b => typeEqual a b
  | .array a, .array b => typeEqual a b
  | _, _ => false

def typeListEqual : TyList → TyList → Bool
  | .cons a as, .cons b bs => typeEqual a b && typeListEqual as bs
  | .nil, .nil => true
  | _, _ => false

end

/-- Equality where a declaration may carry no type at all. -/
def typeEqualOpt : Option Ty → Option Ty → Bool
  | none, none => true
  | some a, some b => typeEqual a b
  | _, _ => false

end Equality

section Names

def mangleName (name : String) : String :=
  String.ofList (name.toList.flatMap fun c => if c = '.' then ['_','_'] else if c = '*' then ['p'] else [c])

mutual

def typeCname : Ty → String
  | .name name => mangleName name
  | .param name => mangleName name
  | .apply name args => mangleName name ++ "__" ++ mangleList args
  | .ptr base => typeCname base ++ "_ptr"
  | .array base => typeCname base ++ "_arr"

def mangleList : TyList → String
  | .nil => ""
  | .cons type .nil => typeCname type
  | .cons type next => typeCname type ++ "__" ++ mangleList next

end

def mangleSourceName (name : String) : String := typeCname (typeName name)

end Names

section Substitution

/-- `TypeBind`: the innermost binding of a parameter stands first. -/
abbrev Bindings := List (String × Ty)

def typeBindLookup (bindings : Bindings) (name : String) : Option Ty :=
  (bindings.find? (·.1 == name)).map (·.2)

mutual

@[simp] def typeSubst (bindings : Bindings) : Ty → Ty
  | .name name => typeName name
  | .param name => (typeBindLookup bindings name).getD (.param name)
  | .apply name args => typeApply name (typeListSubst bindings args)
  | .ptr base => .ptr (typeSubst bindings base)
  | .array base => .array (typeSubst bindings base)

@[simp] def typeListSubst (bindings : Bindings) : TyList → TyList
  | .nil => .nil
  | .cons type next => .cons (typeSubst bindings type) (typeListSubst bindings next)

end

/-- The loop of `type_bindings_for`: each parameter in turn is put in front of the bindings so far. -/
def bindParams : List String → TyList → Bindings → Bindings
  | param :: params, .cons type next, bindings => bindParams params next ((param,type) :: bindings)
  | _, _, bindings => bindings

end Substitution

end Objective9c.Compiler
