import Objective9c.Lib.StructLayout
import Objective9c.Compiler.Contract

/-! The structure that holds an object. It begins with the same members for every class, and the fields of a
parent stand where the class body names the parent. -/
namespace Objective9c.Compiler

section Storage

variable (table : Table)

def clientStorageName (t : Ty) : String :=
  match typeDeclNode table t with
  | none => typeCname t
  | some d => match d.kind with
    | .nEnum => "int"
    | .nStruct => typeCname t
    | .nClass | .nInterface => typeCname t ++ "_Client"

def namedStorageForCodegen (name : String) : String :=
  if name = "chan" then "Channel*"
  else match findBuiltin name with
    | some builtin => builtin.plan9
    | none => clientStorageName table (.name name)

def applyStorageForCodegen (name : String) (args : TyList) : String :=
  if name = "List" then "O9Slice"
  else if name = "Dict" then "O9Dict"
  else if name = "Task" then "O9Task*"
  else if canonicalTypeName name = "tabula" then "O9Tabula*"
  else if name = "Tuple" then typeCname (.apply name args) ++ "*"
  else match (typeDeclNode table (.apply name args)).filter (·.params ≠ []) with
    | some d =>
      if d.kind = .nStruct then typeCname (.apply name args) else typeCname (.apply name args) ++ "_Client"
    | none => clientStorageName table (typeName name)

def typeStorageForCodegen : Ty → String
  | .name name => namedStorageForCodegen table name
  | .param _ => "void*"
  | .apply name args => applyStorageForCodegen table name args
  | .array _ => "O9Slice"
  | .ptr base => typeStorageForCodegen base ++ "*"

end Storage

section Fields

open Descent List

structure CField where
  storage : String
  name : String
deriving DecidableEq

/-- The line that a stored member of a class body becomes. -/
def Field.toCField (table : Table) (f : Field) : CField :=
  if f.storage = .stream then ⟨"Channel *",f.name⟩
  else ⟨(f.type.map (typeStorageForCodegen table)).getD "void",f.name⟩

def genInternalFields (table : Table) : Nat → Decl → List CField
  | 0, _ => []
  | depth+1, c => c.members.flatMap fun
    | .inherit name _ => match findClass table name with
      | some p => genInternalFields table depth p
      | none => []
    | .field f => [f.toCField table]
    | _ => []

/-- What stands in front of the fields in `gen_class_shared_decls`. -/
def internalHeader : List CField := [
  ⟨"ArcLedger","ledger"⟩,⟨"long","ref"⟩,⟨"int","distance"⟩,⟨"int","tid"⟩,⟨"O9State *","state"⟩,
  ⟨"char[4096]","data"⟩,⟨"char[256]","error"⟩,⟨"char[64]","oid"⟩,⟨"void *","objdir"⟩]

def ownFields (table : Table) : Decl × Member → List CField
  | (_,.field f) => [f.toCField table]
  | _ => []

theorem genInternalFields_eq (table : Table) (depth : Nat) (c : Decl) :
    genInternalFields table depth c = (items (byName table) depth c).flatMap (ownFields table) := by
  induction depth generalizing c with
  | zero => rfl
  | succ depth ih =>
    rw [genInternalFields,items_succ,expand_byName,flatMap_assoc]
    apply flatMap_congr
    intro m _
    cases m with
    | inherit name => cases found : findClass table name <;> simp [found,ih]
    | _ => rfl

def Hierarchy.fields (H : Hierarchy) (c : Decl) : List CField := genInternalFields H.table H.depth c

def Hierarchy.memberFields (H : Hierarchy) : Member → List CField
  | .inherit name _ => ((findClass H.table name).map H.fields).getD []
  | .field f => [f.toCField H.table]
  | _ => []

theorem Hierarchy.fields_members (H : Hierarchy) (declared : c ∈ H.table) :
    H.fields c = c.members.flatMap H.memberFields := by
  rw [fields,genInternalFields_eq,H.items_members declared,flatMap_assoc]
  apply flatMap_congr
  intro m _
  cases m with
  | inherit name =>
    cases found : findClass H.table name <;>
      simp [Hierarchy.memberFields,fields,genInternalFields_eq,found]
  | _ => rfl

end Fields

section Layout

/-- What is taken of the C compiler: every type has a size and an alignment that divides it, and no alignment is
stricter than that of a pointer. -/
structure Abi where
  size : String → Nat
  align : String → Nat
  size_pos : ∀ t, 0 < size t
  align_pos : ∀ t, 0 < align t
  whole : ∀ t, align t ∣ size t
  strictest : ∀ t, align t ∣ align "void *"

variable (abi : Abi) (H : Hierarchy)

def Abi.offsets (start : Nat) (fields : List CField) : List Nat :=
  StructLayout.offsets (abi.size ·.storage) (abi.align ·.storage) start fields

def Abi.stop (start : Nat) (fields : List CField) : Nat :=
  StructLayout.stop (abi.size ·.storage) (abi.align ·.storage) start fields

def Abi.headerEnd : Nat := abi.stop 0 internalHeader

def internalLayout (c : Decl) : List (CField × Nat) :=
  (H.fields c).zip (abi.offsets abi.headerEnd (H.fields c))

/-- The structure of `c` has the fields `before` and then those of `p`, on the way up from `c` to `p`. -/
inductive Embeds : Decl → List CField → Decl → Prop where
  | here : Embeds c [] c
  | up (front back name type) : c.members = front ++ .inherit name type :: back → findClass H.table name = some q →
      Embeds q before p → Embeds c (front.flatMap H.memberFields ++ before) p

/-- The fields of `p` have the same types and offsets in the structure of `c`. -/
def LayoutKept (c p : Decl) : Prop :=
  ∀ before, Embeds H c before p → ∀ i f, (internalLayout abi H p)[i]? = some f →
    (internalLayout abi H c)[before.length + i]? = some f

/-- No class on the way up has a field in front of its parent, unless there is none to inherit. -/
def ParentsFirst (c p : Decl) : Prop := ∀ before, Embeds H c before p → before = [] ∨ H.fields p = []

variable {abi H}

theorem Embeds.split (embeds : Embeds H c before p) (declared : c ∈ H.table) :
    ∃ after, H.fields c = before ++ (H.fields p ++ after) := by
  induction embeds with
  | here => exact ⟨[],by simp⟩
  | @up q before p c front back name type members found _ ih =>
    obtain ⟨after,fields⟩ := ih (findClass_mem found)
    refine ⟨after ++ back.flatMap H.memberFields,?_⟩
    have inherited : H.memberFields (.inherit name type) = H.fields q := by
      simp [Hierarchy.memberFields,found]
    rw [H.fields_members declared,members,List.flatMap_append,List.flatMap_cons,inherited,fields]
    simp only [List.append_assoc]

theorem Embeds.inv (embeds : Embeds H c before p) : (before = [] ∧ c = p) ∨ ∃ front back name type q rest,
    c.members = front ++ .inherit name type :: back ∧ findClass H.table name = some q ∧ Embeds H q rest p ∧
      before = front.flatMap H.memberFields ++ rest := by
  cases embeds with
  | here => exact .inl ⟨rfl,rfl⟩
  | up front back name type members found rest =>
    exact .inr ⟨front,back,name,type,_,_,members,found,rest,rfl⟩

theorem Abi.headerEnd_aligned (abi : Abi) (t : String) : abi.align t ∣ abi.headerEnd := by
  have pointer : internalHeader = internalHeader.dropLast ++ [⟨"void *","objdir"⟩] := rfl
  rw [Abi.headerEnd,pointer,Abi.stop,StructLayout.stop_append,StructLayout.stop,StructLayout.stop]
  exact Nat.dvd_trans (abi.strictest t)
    (Nat.dvd_add (StructLayout.dvd_alignUp (abi.align_pos _) _) (abi.whole "void *"))

/-- The fields of `p` in the structure of `c` lie as if they began where those in front of them end. -/
theorem layout_embedded (fields : H.fields c = before ++ (H.fields p ++ after)) (bound : i < (H.fields p).length) :
    (internalLayout abi H c)[before.length + i]? =
      ((H.fields p).zip (abi.offsets (abi.stop abi.headerEnd before) (H.fields p)))[i]? := by
  have lengths (start : Nat) (list : List CField) : list.length = (abi.offsets start list).length :=
    (StructLayout.length_offsets ..).symm
  have places : abi.offsets abi.headerEnd (H.fields c) = abi.offsets abi.headerEnd before ++
      (abi.offsets (abi.stop abi.headerEnd before) (H.fields p) ++
        abi.offsets (abi.stop (abi.stop abi.headerEnd before) (H.fields p)) after) := by
    rw [fields]
    simp only [Abi.offsets,StructLayout.offsets_append,Abi.stop]
  rw [internalLayout,places,fields,List.zip_append (lengths _ before),List.zip_append (lengths _ (H.fields p))]
  have short (start : Nat) (list : List CField) : (list.zip (abi.offsets start list)).length = list.length := by
    rw [List.length_zip,← lengths,Nat.min_self]
  rw [List.getElem?_append_right (by rw [short]; omega),short,Nat.add_sub_cancel_left,
    List.getElem?_append_left (by rw [short]; exact bound)]

theorem layout_bound (found : (internalLayout abi H p)[i]? = some f) : i < (H.fields p).length := by
  have bound := (getElem?_eq_some_iff.mp found).1
  rw [internalLayout,List.length_zip] at bound
  omega

/-- The fields of an ancestor lie in the structure of a class as they do in its own, just if no field stands in
front of a parent on the way. -/
theorem inherited_layout_kept_iff (abi : Abi) (H : Hierarchy) (declared : c ∈ H.table) (p : Decl) :
    LayoutKept abi H c p ↔ ParentsFirst H c p := by
  constructor
  · intro kept before embeds
    obtain ⟨after,fields⟩ := embeds.split declared
    by_contra neither
    obtain ⟨shifted,inherits⟩ := not_or.mp neither
    obtain ⟨first,rest,list⟩ := List.exists_cons_of_ne_nil inherits
    -- the first field of the ancestor begins where the header ends, and later in the class
    have own : (internalLayout abi H p)[0]? = some (first,abi.headerEnd) := by
      rw [internalLayout,list,Abi.offsets,StructLayout.offsets,
        StructLayout.alignUp_of_dvd (abi.headerEnd_aligned first.storage)]
      rfl
    have moved := kept before embeds 0 _ own
    rw [layout_embedded fields (by rw [list]; exact Nat.zero_lt_succ _),list,Abi.offsets,
      StructLayout.offsets] at moved
    have place : StructLayout.alignUp (abi.stop abi.headerEnd before) (abi.align first.storage) =
        abi.headerEnd := by
      simpa using moved
    have after := StructLayout.lt_stop (abi.size ·.storage) (abi.align ·.storage) (fun m => abi.size_pos m.storage)
      abi.headerEnd shifted
    have later := StructLayout.le_alignUp (abi.stop abi.headerEnd before) (abi.align first.storage)
    rw [place] at later
    exact absurd (Nat.lt_of_lt_of_le after later) (Nat.lt_irrefl _)
  · intro parentsFirst before embeds i f found
    obtain ⟨after,fields⟩ := embeds.split declared
    have bound := layout_bound found
    rcases parentsFirst before embeds with rfl | none
    · rw [layout_embedded fields bound]
      exact found
    · rw [none] at bound
      contradiction

/-- Sizes and alignments of a machine with words of eight bytes, for what the examples declare. -/
def eightBytes : Abi where
  size _ := 8
  align _ := 8
  size_pos _ := by decide
  align_pos _ := by decide
  whole _ := Nat.dvd_refl 8
  strictest _ := Nat.dvd_refl 8

def counter : Decl := { name := "Counter", members := [.field ⟨"count",some (.name "int64"),.prop,false,false⟩] }

def nameField : Member := .field ⟨"name",some (.name "string"),.prop,false,false⟩

def named : Decl := { name := "Named", members := [inheritDecl (.name "Counter"),nameField] }

def late : Decl := { name := "Late", members := [nameField,inheritDecl (.name "Counter")] }

def counters : Program where
  table := [counter,named,late]
  depth := 2
  ends := by decide
  accepted := by decide
  kinds := by decide

theorem named_parentsFirst : ParentsFirst counters.toHierarchy named counter := by
  intro before embeds
  left
  rcases embeds.inv with ⟨_,same⟩ | ⟨front,back,name,type,q,rest,members,found,above,rfl⟩
  · exact absurd same (by decide)
  have first : front = [] := by
    match front, members with
    | [], _ => rfl
    | [_], members => cases members
    | _ :: _ :: more, members => cases more <;> cases members
  subst first
  cases members
  cases found
  rcases above.inv with ⟨rfl,_⟩ | ⟨front,_,_,_,_,_,members,_⟩
  · rfl
  · match front, members with
    | [], members => cases members
    | _ :: more, members => cases more <;> cases members

theorem named_layout_kept : (named ∈ counters.table ∧ Embeds counters.toHierarchy named [] counter) ∧
    LayoutKept eightBytes counters.toHierarchy named counter :=
  ⟨⟨by decide,.up [] [nameField] "Counter" (.name "Counter") rfl rfl .here⟩,
    (inherited_layout_kept_iff eightBytes counters.toHierarchy (by decide) counter).mpr named_parentsFirst⟩

/-- A field in front of the parent moves what is inherited. -/
theorem late_parent_moves_fields : ¬∀ (abi : Abi) (P : Program) (c p : Decl), c ∈ P.table → c.isConcrete →
    p.isConcrete → LayoutKept abi P.toHierarchy c p := by
  intro always
  have embeds : Embeds counters.toHierarchy late [⟨"O9String*","name"⟩] counter :=
    .up [nameField] [] "Counter" (.name "Counter") rfl rfl .here
  have kept := always eightBytes counters late counter (by decide) (by decide) (by decide) _ embeds 0
    (⟨"vlong","count"⟩,72) (by decide)
  exact absurd kept (by decide)

end Layout

end Objective9c.Compiler
