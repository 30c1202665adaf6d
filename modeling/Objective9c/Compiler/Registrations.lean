import Mathlib.Data.Nat.Digits.Lemmas
import Objective9c.Lib.Table
import Objective9c.Compiler.Dispatch

/-! The method store. At startup a class registers its methods under their selectors, inherited ones where the
inherit member stands in the class body, and a later registration of a selector replaces an earlier one. -/
namespace Objective9c.Compiler

open Relation Descent Option Layers

section Store

/-- The arguments of a generated `o9_method_register` call; the thunk is `o9_ctrl_<owner>_<method>`. -/
structure Registration where
  cls : String
  method : String
  sel : Nat
  argc : Nat
  ret : String
  sig : String
  thunk : Decl × MethodDecl
deriving DecidableEq

structure Row where
  key : String
  data : Registration
deriving DecidableEq

def hexDigit (d : Nat) : Char := Char.ofNat (if d < 10 then 48+d else 87+d)

/-- The format `%lux`. -/
def hexText (n : Nat) : List Char := if n = 0 then ['0'] else ((Nat.digits 16 n).map hexDigit).reverse

/-- The key of a row is cut to the 160 bytes of its buffer. -/
def methodKey (cls : String) (sel : Nat) : String :=
  String.ofList ((cls.toList ++ ['/','0','x'] ++ hexText sel).take 159)

def methodRow (store : List Row) (cls : String) (sel : Nat) : Option Row :=
  store.find? fun row => decide (row.key = methodKey cls sel)

def methodRegister (store : List Row) (r : Registration) : List Row :=
  Table.upsert Row.key ⟨methodKey r.cls r.sel,r⟩ store

def methodThunk (store : List Row) (cls : String) (sel : Nat) : Option (Decl × MethodDecl) :=
  (methodRow store cls sel).map (·.data.thunk)

theorem methodThunk_register (store : List Row) (r : Registration) (cls : String) (sel : Nat) :
    methodThunk (methodRegister store r) cls sel =
      if methodKey r.cls r.sel = methodKey cls sel then some r.thunk else methodThunk store cls sel := by
  simp only [methodThunk,methodRow,methodRegister,Table.find?_upsert]
  split <;> rfl

theorem methodThunk_registers (regs : List Registration) (store : List Row) (cls : String) (sel : Nat) :
    methodThunk (regs.foldl methodRegister store) cls sel =
      ((regs.filter fun r => decide (methodKey r.cls r.sel = methodKey cls sel)).getLast?.map
        Registration.thunk).or (methodThunk store cls sel) := by
  induction regs using List.reverseRecOn with
  | nil => rfl
  | append_singleton regs r ih =>
    rw [List.foldl_append,List.foldl_cons,List.foldl_nil,methodThunk_register,ih,List.filter_append]
    by_cases same : methodKey r.cls r.sel = methodKey cls sel <;> simp [same]

theorem o9Hash_lt (s : String) : o9Hash s < 2^32 := Nat.mod_lt _ (by decide)

def hexValue (c : Char) : Nat := if c.toNat < 58 then c.toNat-48 else c.toNat-87

theorem hexValue_hexDigit : ∀ d < 16, hexValue (hexDigit d) = d := by decide

theorem hexText_value (n : Nat) : Nat.ofDigits 16 ((hexText n).reverse.map hexValue) = n := by
  unfold hexText
  split
  · subst n
    decide
  · have digits : ((Nat.digits 16 n).map hexDigit).map hexValue = Nat.digits 16 n := by
      rw [List.map_map]
      refine (List.map_congr_left fun d member => ?_).trans (List.map_id _)
      exact hexValue_hexDigit d (Nat.digits_lt_base (by decide) member)
    rw [List.reverse_reverse,digits,Nat.ofDigits_digits]

theorem hexText_length (small : n < 2^32) : (hexText n).length ≤ 8 := by
  unfold hexText
  split
  · decide
  · have digits := (Nat.digits_length_le_iff (by decide : 1 < 16) n (k := 8)).mpr (by omega)
    simpa using digits

/-- Keys of a class with a name of up to 148 characters keep their selectors apart. -/
theorem methodKey_inj (short : cls.toList.length ≤ 148) (ha : a < 2^32) (hb : b < 2^32) :
    methodKey cls a = methodKey cls b ↔ a = b := by
  constructor
  · intro same
    have whole : ∀ n, n < 2^32 → (cls.toList ++ ['/','0','x'] ++ hexText n).take 159 =
        cls.toList ++ ['/','0','x'] ++ hexText n := by
      intro n small
      apply List.take_of_length_le
      have := hexText_length small
      simp only [List.length_append,List.length_cons,List.length_nil]
      omega
    have texts := String.ofList_injective same
    rw [whole a ha,whole b hb,List.append_cancel_left_eq] at texts
    rw [← hexText_value a,texts,hexText_value]
  · rintro rfl
    rfl

end Store

section Generator

/-- The methods of a class that its clients may call through the store. -/
def registrable (c : Decl) (m : MethodDecl) : Bool :=
  methodHasBody m && c.isConcrete && !(m.isPrivate || m.isInternal) && m.name != c.name

def signatureText (m : MethodDecl) : String :=
  String.ofList ((",".intercalate (m.params.map typeCname)).toList.take 255)

def registration (concrete c : Decl) (m : MethodDecl) : Registration :=
  ⟨concrete.name,m.name,o9Hash m.name,m.params.length,typeCname m.type,signatureText m,(c,m)⟩

variable (table : Table)

def genMethodRegistrations : Nat → Decl → Decl → List Registration
  | 0, _, _ => []
  | depth+1, c, concrete => c.members.flatMap fun
    | .inherit name _ => match findClass table name with
      | some p => genMethodRegistrations depth p concrete
      | none => []
    | .method m => if registrable c m then [registration concrete c m] else []
    | _ => []

end Generator

section Walk

def exported : Decl × Member → Option (Decl × MethodDecl)
  | (c,.method m) => if registrable c m then some (c,m) else none
  | _ => none

/-- The bodies that a class registers under a selector, in order. -/
def Hierarchy.registers (H : Hierarchy) (s : Nat) (c : Decl) : List (Decl × MethodDecl) :=
  ((items (byName H.table) H.depth c).filterMap exported).filter fun r => decide (o9Hash r.2.name = s)

theorem genMethodRegistrations_eq (table : Table) (depth : Nat) (c concrete : Decl) :
    genMethodRegistrations table depth c concrete =
      ((items (byName table) depth c).filterMap exported).map fun r => registration concrete r.1 r.2 := by
  induction depth generalizing c with
  | zero => rfl
  | succ depth ih =>
    rw [genMethodRegistrations,items_succ,expand_byName,List.filterMap_flatMap,List.map_flatMap]
    apply List.flatMap_congr
    intro m member
    cases m with
    | inherit name => cases found : findClass table name <;> simp [found,ih]
    | method m => cases has : registrable c m <;> simp [exported,has]
    | _ => rfl

theorem methodThunk_of_class (H : Hierarchy) (c : Decl) (store : List Row) (short : c.name.toList.length ≤ 148)
    (small : s < 2^32) (fresh : methodThunk store c.name s = none) :
    methodThunk ((genMethodRegistrations H.table H.depth c c).foldl methodRegister store) c.name s =
      (H.registers s c).getLast? := by
  rw [methodThunk_registers,fresh,Option.or_none,genMethodRegistrations_eq,List.filter_map,List.getLast?_map,
    Option.map_map]
  have keys : ((fun r : Registration => decide (methodKey r.cls r.sel = methodKey c.name s)) ∘
      fun r : Decl × MethodDecl => registration c r.1 r.2) = fun r => decide (o9Hash r.2.name = s) := by
    funext r
    simp [registration,methodKey_inj short (o9Hash_lt r.2.name) small]
  have thunks : (Registration.thunk ∘ fun r : Decl × MethodDecl => registration c r.1 r.2) = id := rfl
  rw [keys,thunks,map_id]
  rfl

end Walk

section Tiers

/-- The bodies that one member of a class registers under a selector. -/
def Hierarchy.memberRegisters (H : Hierarchy) (s : Nat) (c : Decl) (m : Member) : List (Decl × MethodDecl) :=
  ((memberItems H.table H.depth c m).filterMap exported).filter fun r => decide (o9Hash r.2.name = s)

/-- The first body offered for the selector is exported and nothing behind it in the class body registers the selector
again, or the class has no body for it and a concrete parent is written that way. -/
inductive Tiered (H : Hierarchy) (child : String) (s : Nat) : Decl → Prop
  | own (split : c.members = before ++ .method b :: after) (exported : registrable c b)
      (selector : o9Hash b.name = s) (first : ∀ m ∈ before, ∀ case ∈ offersOf child c m, case.selector ≠ s)
      (last : ∀ m ∈ after, H.memberRegisters s c m = []) : Tiered H child s c
  | inherited (none : ∀ m ∈ c.members, ∀ case ∈ offersOf child c m, case.selector ≠ s)
      (parent : ConcreteParent H.table c p) (above : Tiered H child s p) : Tiered H child s c

end Tiers

section Agreement

variable {P : Program} {c p : Decl} {s : Nat} {child : String}

theorem Hierarchy.registers_members (H : Hierarchy) (declared : c ∈ H.table) :
    H.registers s c = c.members.flatMap (H.memberRegisters s c) := by
  rw [Hierarchy.registers,H.items_members declared,List.filterMap_flatMap,List.filter_flatMap]
  rfl

@[simp] theorem Hierarchy.memberRegisters_method (H : Hierarchy) (c : Decl) (m : MethodDecl) :
    H.memberRegisters s c (.method m) = if registrable c m ∧ o9Hash m.name = s then [(c,m)] else [] := by
  by_cases has : registrable c m <;> by_cases same : o9Hash m.name = s <;>
    simp [Hierarchy.memberRegisters,exported,has,same]

theorem Hierarchy.memberRegisters_inherit (H : Hierarchy) (found : findClass H.table name = some p) :
    H.memberRegisters s c (.inherit name type) = H.registers s p := by
  simp [Hierarchy.memberRegisters,found,Hierarchy.registers]

theorem mem_registers (declared : c ∈ P.table) (member : (p,b) ∈ P.registers s c) :
    ReflTransGen (Link (byName P.table)) c p ∧ .method b ∈ p.members ∧ registrable p b ∧ o9Hash b.name = s := by
  obtain ⟨member,same⟩ := List.mem_filter.mp member
  obtain ⟨⟨owner,m⟩,inside,is⟩ := List.mem_filterMap.mp member
  obtain ⟨node,path,own⟩ := (mem_items (P.ends c declared)).mp inside
  obtain ⟨rfl,at_⟩ := own_byName own
  cases m with
  | method =>
    obtain ⟨has,eq⟩ := ite_none_right_eq_some.mp is
    cases eq
    exact ⟨path,at_,has,by simpa using same⟩
  | _ => cases is

theorem registers_interface (declared : c ∈ P.table) (kind : c.kind = .nInterface) : P.registers s c = [] := by
  apply List.eq_nil_iff_forall_not_mem.mpr
  rintro ⟨owner,b⟩ member
  obtain ⟨path,_,has,_⟩ := mem_registers declared member
  have kind := (links_interface declared kind path).2
  simp [registrable,Decl.isConcrete,kind] at has

/-- The last registration from `c` upwards is the first offer to the switch. -/
def Matches (H : Hierarchy) (child : String) (s : Nat) (c : Decl) : Prop :=
  ∀ x b, (H.registers s c).getLast? = some (x,b) →
    Layers.first Case.selector s (H.offersTo child c) = some ⟨s,.impl x b⟩

theorem offersOf_exported (exported : registrable c b) :
    offersOf child c (.method b) = [⟨o9Hash b.name,.impl c b⟩] := by
  simp only [registrable,Bool.and_eq_true,bne_iff_ne,ne_eq] at exported
  obtain ⟨⟨⟨body,_⟩,_⟩,name⟩ := exported
  simp [offersOf,body,dispatchNeedsCtorAlias,name]

theorem registers_split (declared : c ∈ P.table) (split : c.members = before ++ .method b :: after)
    (exported : registrable c b) (selector : o9Hash b.name = s) :
    P.registers s c = before.flatMap (P.memberRegisters s c) ++ (c,b) :: after.flatMap (P.memberRegisters s c) := by
  rw [P.registers_members declared,split]
  simp [exported,selector]

theorem not_registered_behind (declared : c ∈ P.table) (kind : c.kind = .nClass)
    (split : c.members = before ++ .method b :: after) (member : m ∈ after) : (c,b) ∉ P.memberRegisters s c m := by
  intro inside
  cases m with
  | method other =>
    simp only [Hierarchy.memberRegisters_method] at inside
    split at inside
    · obtain ⟨_,rfl⟩ : c = c ∧ b = other := by simpa using inside
      have distinct := conflicts_nodup (passes_conflicts P.accepted declared (by simp [kind]))
      rw [split,List.filterMap_append,List.filterMap_cons_some (f := Member.localName) rfl] at distinct
      have fresh := (List.nodup_cons.mp (List.nodup_append.mp distinct).2.1).1
      exact fresh (List.mem_filterMap.mpr ⟨_,member,rfl⟩)
    · cases inside
  | inherit name type =>
    cases found : findClass P.table name with
    | none => simp [Hierarchy.memberRegisters,found] at inside
    | some p =>
      rw [P.memberRegisters_inherit found] at inside
      have link : Link (byName P.table) c p := link_byName.mpr ⟨name,type,by simp [split,member],found⟩
      exact links_irrefl declared link (mem_registers (findClass_mem found) inside).1
  | _ => simp [Hierarchy.memberRegisters,exported] at inside

theorem matches_own (declared : c ∈ P.table) (kind : c.kind = .nClass)
    (found : Layers.first Case.selector s (c.members.flatMap (offersOf child c)) = some case) :
    Matches P.toHierarchy child s c ↔ P.registers s c = [] ∨ Tiered P.toHierarchy child s c := by
  have offered : Layers.first Case.selector s (P.offersTo child c) = some case := by
    rw [P.offersTo_unfold child declared,Layers.first,List.find?_append,← Layers.first,found]
    rfl
  constructor
  · intro agree
    by_cases empty : P.registers s c = []
    · exact .inl empty
    right
    obtain ⟨⟨x,b⟩,last⟩ := ne_none_iff_exists'.mp (mt List.getLast?_eq_none_iff.mp empty)
    obtain ⟨before,b',after,split,rfl,_,first⟩ := first_own found
    obtain ⟨rfl,rfl⟩ : c = x ∧ b' = b := by
      have same := agree x b last
      rw [offered] at same
      simpa using same
    obtain ⟨_,_,exported,selector⟩ := mem_registers declared (List.mem_of_getLast? last)
    refine .own split exported selector first ?_
    by_contra more
    obtain ⟨m,member,some⟩ := by simpa using more
    have tail : after.flatMap (P.memberRegisters s c) ≠ [] := by
      simpa using ⟨m,member,some⟩
    rw [registers_split declared split exported selector,List.getLast?_append_cons,
      List.getLast?_cons_of_ne_nil tail] at last
    obtain ⟨m,member,inside⟩ := List.mem_flatMap.mp (List.mem_of_getLast? last)
    exact not_registered_behind declared kind split member inside
  · rintro (empty | tiered) x b last
    · simp [empty] at last
    · cases tiered with
      | @own before after _ b' split exported selector first behind =>
        have nothing : after.flatMap (P.memberRegisters s c) = [] := by
          simpa using behind
        rw [registers_split declared split exported selector,nothing] at last
        obtain ⟨rfl,rfl⟩ : c = x ∧ b' = b := by simpa using last
        rw [P.offersTo_unfold child declared,split,List.flatMap_append,List.flatMap_cons,offersOf_exported exported,
          selector]
        have none := first_none_iff.mpr fun case offer =>
          (List.mem_flatMap.mp offer).elim fun m both => first m both.1 case both.2
        rw [Layers.first] at none
        simp [Layers.first,none]
      | inherited none =>
        rw [first_own_none.mpr none] at found
        cases found

/-- The part of a class's registrations that comes from its parents. -/
@[simp] def Hierarchy.inheritedRegisters (H : Hierarchy) (s : Nat) (c : Decl) : Member → List (Decl × MethodDecl)
  | .inherit name type => H.memberRegisters s c (.inherit name type)
  | _ => []

theorem registers_inherited (declared : c ∈ P.table)
    (none : ∀ m ∈ c.members, ∀ case ∈ offersOf child c m, case.selector ≠ s) :
    P.registers s c = c.members.flatMap (P.inheritedRegisters s c) := by
  rw [P.registers_members declared]
  apply List.flatMap_congr
  intro m member
  cases m with
  | method b =>
    by_cases exported : registrable c b
    · have other : o9Hash b.name ≠ s := none _ member ⟨_,_⟩ (by rw [offersOf_exported exported]; exact .head _)
      simp [other]
    · simp [exported]
  | _ => rfl

theorem memberRegisters_interface (found : ∀ p, findClass P.table name = some p → p.kind = .nInterface) :
    P.memberRegisters s c (.inherit name type) = [] := by
  cases is : findClass P.table name with
  | none => simp [Hierarchy.memberRegisters,is]
  | some p => rw [P.memberRegisters_inherit is,registers_interface (findClass_mem is) (found p is)]

theorem interface_members {members : List Member} (interfaces : ∀ name type p, .inherit name type ∈ members →
      findClass P.table name = some p → p.kind = .nInterface) :
    members.flatMap (P.inheritedRegisters s c) = [] ∧ members.filterMap (dispatchParentClass P.table) = [] := by
  constructor
  · apply List.flatMap_eq_nil_iff.mpr
    intro m member
    cases m with
    | inherit name type => exact memberRegisters_interface fun p found => interfaces name type p member found
    | _ => rfl
  · apply List.filterMap_eq_nil_iff.mpr
    intro m member
    cases m with
    | inherit name type => exact dispatchParentClass_interface fun p found => interfaces name type p member found
    | _ => rfl

theorem tiered_inherited_iff (none : ∀ m ∈ c.members, ∀ case ∈ offersOf child c m, case.selector ≠ s) :
    Tiered P.toHierarchy child s c ↔ ∃ p, ConcreteParent P.table c p ∧ Tiered P.toHierarchy child s p := by
  constructor
  · intro tiered
    cases tiered with
    | @own before after _ b split exported selector =>
      have member : .method b ∈ c.members := by simp [split]
      have other := none _ member ⟨_,_⟩ (by rw [offersOf_exported exported]; exact .head _)
      exact absurd selector other
    | inherited _ parent above => exact ⟨_,parent,above⟩
  · rintro ⟨p,parent,above⟩
    exact .inherited none parent above

/-- Without a body of its own, a class agrees as its class parent does, and an abstract one must have
nothing to register. -/
theorem matches_inherited (declared : c ∈ P.table) (kind : c.kind = .nClass)
    (none : ∀ m ∈ c.members, ∀ case ∈ offersOf child c m, case.selector ≠ s)
    (above : ∀ p, Link (byName P.table) c p → p.kind = .nClass →
      (Matches P.toHierarchy child s p ↔ P.registers s p = [] ∨ Tiered P.toHierarchy child s p)) :
    Matches P.toHierarchy child s c ↔ P.registers s c = [] ∨ Tiered P.toHierarchy child s c := by
  have own : first Case.selector s (c.members.flatMap (offersOf child c)) = Option.none :=
    first_own_none.mpr none
  have offered : first Case.selector s (P.offersTo child c) = first Case.selector s
      ((c.members.filterMap (dispatchParentClass P.table)).flatMap (P.offersTo child)) := by
    rw [P.offersTo_unfold child declared,first,List.find?_append,← first,own]
    rfl
  have inherited := registers_inherited declared none
  rw [tiered_inherited_iff none]
  obtain interfaces | ⟨before,name,type,after,p,split,found,classKind,others⟩ := class_parent declared kind
  · rw [(interface_members interfaces).1] at inherited
    simp [Matches,inherited]
  · have front := interface_members (P := P) (s := s) (c := c) fun name type q member found =>
      others name type q (List.mem_append_left after member) found
    have back := interface_members (P := P) (s := s) (c := c) fun name type q member found =>
      others name type q (List.mem_append_right before member) found
    have member : .inherit name type ∈ c.members := by simp [split]
    have link : Link (byName P.table) c p := link_byName.mpr ⟨name,type,member,found⟩
    have same : P.registers s c = P.registers s p := by
      rw [inherited,split,List.flatMap_append,List.flatMap_cons,front.1,back.1]
      simp [P.memberRegisters_inherit found]
    have parents : c.members.filterMap (dispatchParentClass P.table) = if p.isAbstract then [] else [p] := by
      rw [split,List.filterMap_append,List.filterMap_cons,front.2,back.2]
      cases abstract : p.isAbstract <;>
        simp [found,Option.filter,Decl.isConcrete,classKind,abstract]
    have only : ∀ q, ConcreteParent P.table c q ↔ q ∈ if p.isAbstract then [] else [p] := by
      intro q
      rw [← parents,List.mem_filterMap]
      rfl
    simp only [only,same]
    unfold Matches
    rw [same,offered,parents]
    cases abstract : p.isAbstract with
    | true =>
      have nothing : (∀ x b, (P.registers s p).getLast? = some (x,b) → False) ↔ P.registers s p = [] := by
        constructor
        · intro never
          by_contra some
          obtain ⟨⟨x,b⟩,last⟩ := ne_none_iff_exists'.mp (mt List.getLast?_eq_none_iff.mp some)
          exact never x b last
        · intro empty x b last
          simp [empty] at last
      simpa [first] using nothing
    | false => simpa [Matches] using above p link classKind

theorem matches_iff (declared : c ∈ P.table) (kind : c.kind = .nClass) :
    Matches P.toHierarchy child s c ↔ P.registers s c = [] ∨ Tiered P.toHierarchy child s c := by
  have ended := P.ends c declared
  revert declared kind
  refine links_induction (motive := fun c => c ∈ P.table → c.kind = .nClass →
    (Matches P.toHierarchy child s c ↔ P.registers s c = [] ∨ Tiered P.toHierarchy child s c)) ?_ ended
  intro c ih declared kind
  cases found : first Case.selector s (c.members.flatMap (offersOf child c)) with
  | some => exact matches_own declared kind found
  | none =>
    exact matches_inherited declared kind (first_own_none.mp found) fun p link => ih p link (link_declared link)

/-- For every selector under which the store has a thunk for the class, the switch runs the method that the
thunk belongs to. -/
def TiersAgree (P : Program) (c : Decl) (store : List Row) (s : Nat) : Prop :=
  ∀ x b, methodThunk ((genMethodRegistrations P.table P.depth c c).foldl methodRegister store) c.name s = some (x,b) →
    runs P.table P.depth c s = some (.impl x b)

/-- A class that overrides a method and names its parent before or behind the override. -/
def overridingTable (parentFirst : Bool) : Table :=
  let parent := inheritDecl (.name "Base")
  let method := Member.method { name := "id", type := .name "int64" }
  [{ name := "Base", members := [method] },
   { name := "Derived", members := if parentFirst then [parent,method] else [method,parent] }]

def overriding (parentFirst : Bool) : Program where
  table := overridingTable parentFirst
  depth := 2
  ends := by cases parentFirst <;> decide
  accepted := by cases parentFirst <;> decide
  kinds := by cases parentFirst <;> decide

end Agreement

end Objective9c.Compiler
