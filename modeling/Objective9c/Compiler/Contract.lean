import Objective9c.Compiler.Classes

/-! `check_inheritance_contract`: what the checker asks of each declaration before code is generated for
it. A check returns the texts of its errors; a table passes when every declaration has none. -/
namespace Objective9c.Compiler

open List

variable (table : Table) (depth : Nat)

def paramsEqualBound (abind : Bindings) (as : List Ty) (bbind : Bindings) (bs : List Ty) : Bool :=
  as.length == bs.length &&
    (as.zip bs).all fun (a,b) => typeEqual (typeSubst abind a) (typeSubst bbind b)

def methodSignatureEqualBound (a : MethodDecl) (abind : Bindings) (b : MethodDecl) (bbind : Bindings) : Bool :=
  typeEqual (typeSubst abind a.type) (typeSubst bbind b.type) && paramsEqualBound abind a.params bbind b.params

def requireMethodImplBound (owner : Decl) (req : MethodDecl) (reqbind : Bindings) : List String :=
  match concreteMethodNode table depth owner req.name with
  | none => ["class '" ++ owner.name ++ "' must implement method '" ++ req.name ++ "'"]
  | some (_,impl) =>
    (if methodSignatureEqualBound impl [] req reqbind then [] else
      ["method '" ++ req.name ++ "' implementation in '" ++ owner.name ++
        "' does not match inherited signature"]) ++
    (if impl.isInternal == req.isInternal then [] else
      ["method '" ++ req.name ++ "' in '" ++ owner.name ++ "' must match inherited internal visibility"])

/-- The contract of a parent, followed upwards for at most 65 levels. -/
def requireContractMethodsBound (owner : Decl) : Nat → Decl → Bindings → List String
  | 0, _, _ => []
  | level+1, contract, bindings => contract.members.flatMap fun
    | .inherit _ type =>
      let pt := typeSubst bindings type
      match typeDeclNode table pt with
      | some p => requireContractMethodsBound owner level p (typeBindingsFor p pt)
      | none => []
    | .method m =>
      if contract.kind == .nInterface || m.isAbstract || m.isDecl then
        requireMethodImplBound table depth owner m bindings
      else []
    | _ => []

def generatedInternalFieldName (name : String) : Bool :=
  ["ledger","ref","distance","state","data","error","oid","objdir","dispatch_chan"].contains name

/-- The name under which a member takes part in the search for duplicates. -/
def Member.localName : Member → Option String
  | .method m => some m.name
  | .field f => some f.name
  | .function name => some name
  | _ => none

def checkLocalMemberConflicts (c : Decl) : List Member → List String
  | [] => []
  | a :: rest =>
    (match a with
      | .field f => if generatedInternalFieldName f.name then
          ["field name '" ++ f.name ++ "' is reserved by generated runtime storage in '" ++ c.name ++ "'"] else []
      | _ => []) ++
    (match a.localName with
      | some name => (rest.filter (·.localName == some name)).map fun _ =>
          "duplicate member '" ++ name ++ "' in '" ++ c.name ++ "'"
      | none => []) ++
    checkLocalMemberConflicts c rest

def checkOverrideCompat (c : Decl) : List String :=
  c.members.flatMap fun
    | .method m => c.members.flatMap fun
      | .inherit _ type =>
        let pt := typeSubst [] type
        match typeDeclNode table pt with
        | none => []
        | some parent => match memberNode table depth parent m.name true with
          | some (.method inherited) =>
            if methodSignatureEqualBound m [] inherited (typeBindingsFor parent pt) then [] else
              ["method '" ++ m.name ++ "' in '" ++ c.name ++ "' does not match inherited signature"]
          | _ => []
      | _ => []
    | _ => []

def checkInterfaceMemberContract (c : Decl) (m : Member) : List String :=
  if c.kind ≠ .nInterface then [] else match m with
    | .inherit _ _ => []
    | .method m =>
      (if m.isDecl then [] else ["interface method '" ++ m.name ++ "' cannot have a body"]) ++
      (if m.isPrivate then ["interface method '" ++ m.name ++ "' cannot be private"] else [])
    | _ => ["interface '" ++ c.name ++ "' may only declare methods or inherit interfaces"]

def checkInheritMemberContract (c : Decl) (classparents : Nat) (m : Member) : Nat × List String :=
  match m with
  | .inherit name type => match typeDeclNode table (typeSubst [] type) with
    | none => (classparents,[])
    | some parent =>
      let cycle := if parent == c || isSubclass table parent.name c.name then
        ["inheritance cycle involving '" ++ c.name ++ "'"] else []
      match c.kind, parent.kind with
      | .nStruct, _ => (classparents,cycle ++ ["struct '" ++ c.name ++ "' cannot inherit '" ++ name ++ "'"])
      | .nInterface, .nInterface => (classparents,cycle)
      | .nInterface, _ => (classparents,cycle ++ ["interface '" ++ c.name ++ "' can only inherit interfaces"])
      | _, .nClass => (classparents+1,cycle ++ if classparents+1 > 1 then
          ["class '" ++ c.name ++ "' cannot inherit more than one class"] else [])
      | _, .nInterface => (classparents,cycle)
      | _, _ => (classparents,cycle ++
          ["class '" ++ c.name ++ "' cannot inherit non-class/interface '" ++ name ++ "'"])
  | _ => (classparents,[])

def checkMemberContracts (c : Decl) : Nat → List Member → List String
  | _, [] => []
  | classparents, m :: rest =>
    let (counted,errs) := checkInheritMemberContract table c classparents m
    checkInterfaceMemberContract c m ++ errs ++ checkMemberContracts c counted rest

def checkConcreteContractImpls (c : Decl) : List String :=
  if !c.isConcrete then [] else c.members.flatMap fun
    | .method m => if m.isAbstract || m.isDecl then requireMethodImplBound table depth c m [] else []
    | .inherit _ type =>
      let pt := typeSubst [] type
      match typeDeclNode table pt with
      | some parent => requireContractMethodsBound table depth c 65 parent (typeBindingsFor parent pt)
      | none => []
    | _ => []

def checkInheritanceContract (c : Decl) : List String :=
  if c.kind == .nEnum then [] else
    checkLocalMemberConflicts c c.members ++ checkMemberContracts table c 0 c.members ++
      checkOverrideCompat table depth c ++ checkConcreteContractImpls table depth c

def passes : Bool := table.all fun c => (checkInheritanceContract table depth c).isEmpty

/-- Whether the generator, by the generated name of an inherit member, and the checker, by its type, find declarations
of one kind: for a type with arguments the instance and the template. -/
def kindsAgree (table : Table) : Member → Bool
  | .inherit name type => (findClass table name).all fun p => (typeDeclNode table type).any (·.kind == p.kind)
  | _ => true

/-- A program that the checker accepts and whose parents are of the same kinds for checker and generator. -/
structure Program extends Hierarchy where
  accepted : passes table depth
  kinds : ∀ c ∈ table, ∀ m ∈ c.members, kindsAgree table m

section Accepted

variable {table : Table} {depth : Nat} {c p : Decl}

theorem canonicalTypeName_idem (name : String) :
    canonicalTypeName (canonicalTypeName name) = canonicalTypeName name := by
  unfold canonicalTypeName
  split
  · rfl
  · simp [*]

theorem typeDeclNode_subst_nil (table : Table) (type : Ty) :
    typeDeclNode table (typeSubst [] type) = typeDeclNode table type := by
  cases type <;> simp [typeDeclNode,typeName,typeApply,mangleSourceName,canonicalTypeName_idem,
    typeBindLookup]

variable (accepted : passes table depth) (declared : c ∈ table)
include accepted declared

theorem passes_contract :
    checkInheritanceContract table depth c = [] := by
  simpa using all_eq_true.mp accepted c declared

theorem passes_conflicts (kind : c.kind ≠ .nEnum) :
    checkLocalMemberConflicts c c.members = [] := by
  have contract := passes_contract accepted declared
  simp only [checkInheritanceContract,beq_iff_eq,kind,↓reduceIte,append_eq_nil_iff] at contract
  exact contract.1.1.1

theorem passes_members (kind : c.kind ≠ .nEnum) :
    checkMemberContracts table c 0 c.members = [] := by
  have contract := passes_contract accepted declared
  simp only [checkInheritanceContract,beq_iff_eq,kind,↓reduceIte,append_eq_nil_iff] at contract
  exact contract.1.1.2

omit accepted declared

theorem conflicts_nodup (clean : checkLocalMemberConflicts c members = []) :
    (members.filterMap Member.localName).Nodup := by
  induction members with
  | nil => exact nodup_nil
  | cons a rest ih =>
    simp only [checkLocalMemberConflicts,append_eq_nil_iff] at clean
    obtain ⟨⟨_,single⟩,clean⟩ := clean
    cases named : a.localName with
    | none => simpa [filterMap_cons,named] using ih clean
    | some =>
      simp only [named,map_eq_nil_iff,filter_eq_nil_iff] at single
      rw [filterMap_cons_some named,nodup_cons]
      refine ⟨fun member => ?_,ih clean⟩
      obtain ⟨b,inside,same⟩ := mem_filterMap.mp member
      exact single b inside (by simp [same])

@[simp] def isClassParent (table : Table) : Member → Bool
  | .inherit _ type => (typeDeclNode table type).any (·.kind == .nClass)
  | _ => false

theorem members_of_class (kind : c.kind = .nClass) (clean : checkMemberContracts table c counted members = []) :
    (∀ name type, .inherit name type ∈ members → ∀ p, typeDeclNode table type = some p →
      p.kind = .nClass ∨ p.kind = .nInterface) ∧ (members.filter (isClassParent table)).length ≤ 1 - counted := by
  induction members generalizing counted with
  | nil => simp
  | cons m rest ih =>
    simp only [checkMemberContracts,append_eq_nil_iff] at clean
    obtain ⟨⟨_,single⟩,clean⟩ := clean
    obtain ⟨kinds,few⟩ := ih clean
    cases m with
    | inherit name type =>
      simp only [checkInheritMemberContract,typeDeclNode_subst_nil,kind] at single clean few
      cases found : typeDeclNode table type with
      | none =>
        refine ⟨?_,by simpa [found] using few⟩
        rintro name' type' member p is
        obtain eq | member := mem_cons.mp member
        · cases eq
          simp [found] at is
        · exact kinds name' type' member p is
      | some parent =>
        simp only [found] at single few
        have parentKind : (parent.kind = .nClass ∧ counted = 0) ∨ parent.kind = .nInterface := by
          cases k : parent.kind with
          | nClass => left; simp [k] at single; exact ⟨rfl,by omega⟩
          | nInterface => right; rfl
          | nStruct | nEnum => simp [k] at single
        constructor
        · rintro name' type' member p is
          obtain eq | member := mem_cons.mp member
          · cases eq
            rw [found] at is
            cases is
            exact parentKind.imp And.left id
          · exact kinds name' type' member p is
        · obtain ⟨k,rfl⟩ | k := parentKind
          · simpa [found,k] using few
          · simpa [found,k] using few
    | _ =>
      refine ⟨?_,by simpa [checkInheritMemberContract] using few⟩
      rintro name type member p is
      exact kinds name type (by simpa using member) p is

theorem members_of_interface (kind : c.kind = .nInterface)
    (clean : checkMemberContracts table c counted members = []) :
    (∀ name type, .inherit name type ∈ members → ∀ p, typeDeclNode table type = some p → p.kind = .nInterface) ∧
    (∀ m, .method m ∈ members → methodHasBody m = false) ∧ ∀ f, .field f ∉ members := by
  induction members generalizing counted with
  | nil => simp
  | cons m rest ih =>
    simp only [checkMemberContracts,append_eq_nil_iff] at clean
    obtain ⟨⟨own,single⟩,clean⟩ := clean
    obtain ⟨kinds,bodies,fields⟩ := ih clean
    cases m with
    | inherit =>
      refine ⟨?_,by simpa using bodies,by simpa using fields⟩
      rintro name' type' member p is
      obtain eq | member := mem_cons.mp member
      · cases eq
        simp only [checkInheritMemberContract,typeDeclNode_subst_nil,is,kind] at single
        cases k : p.kind <;> simp_all
      · exact kinds name' type' member p is
    | method m =>
      have bodiless : m.isDecl = true := by
        by_contra body
        simp [checkInterfaceMemberContract,kind,body] at own
      refine ⟨by simpa using kinds,?_,by simpa using fields⟩
      intro m' member
      obtain eq | member := mem_cons.mp member
      · cases eq
        simp [methodHasBody,bodiless]
      · exact bodies m' member
    | _ => simp [checkInterfaceMemberContract,kind] at own

end Accepted

section Parents

open Relation Descent

variable {P : Program} {c p : Decl}

theorem link_declared (link : Link (byName P.table) c p) : p ∈ P.table := by
  obtain ⟨_,_,_,found⟩ := link_byName.mp link
  exact findClass_mem found

variable (declared : c ∈ P.table)
include declared

theorem Program.found_by_type (member : .inherit name type ∈ c.members)
    (found : findClass P.table name = some p) : ∃ q, typeDeclNode P.table type = some q ∧ q.kind = p.kind := by
  have agree := P.kinds c declared _ member
  simpa [kindsAgree,found,Option.any_eq_true] using agree

theorem links_interface (kind : c.kind = .nInterface)
    (path : ReflTransGen (Link (byName P.table)) c p) : p ∈ P.table ∧ p.kind = .nInterface := by
  induction path with
  | refl => exact ⟨declared,kind⟩
  | tail _ link ih =>
    obtain ⟨declared,kind⟩ := ih
    obtain ⟨name,type,member,found⟩ := link_byName.mp link
    have checked := passes_members P.accepted declared (by simp [kind])
    obtain ⟨q,byType,same⟩ := Program.found_by_type declared member found
    exact ⟨findClass_mem found,same.symm.trans ((members_of_interface kind checked).1 name type member q byType)⟩

theorem links_irrefl (link : Link (byName P.table) c p)
    (path : ReflTransGen (Link (byName P.table)) p c) : False := by
  have every : ∀ q, Descent.ends (byName P.table) P.depth q → ReflTransGen (Link (byName P.table)) q c →
      ReflTransGen (Link (byName P.table)) c q → False := by
    intro q ended
    refine links_induction (motive := fun q => ReflTransGen (Link (byName P.table)) q c →
      ReflTransGen (Link (byName P.table)) c q → False) ?_ ended
    intro q ih down up
    obtain rfl | ⟨next,first,rest⟩ := ReflTransGen.cases_head down
    · exact ih p link path (.single link)
    · exact ih next first rest (up.tail first)
  exact every c (P.ends c declared) .refl .refl

theorem class_parent (kind : c.kind = .nClass) :
    (∀ name type p, .inherit name type ∈ c.members → findClass P.table name = some p → p.kind = .nInterface) ∨
    ∃ before name type after p, c.members = before ++ .inherit name type :: after ∧
      findClass P.table name = some p ∧ p.kind = .nClass ∧
      ∀ name type q, .inherit name type ∈ before ++ after → findClass P.table name = some q →
        q.kind = .nInterface := by
  obtain ⟨kinds,few⟩ := members_of_class kind (passes_members P.accepted declared (by simp [kind]))
  have interface : ∀ name type p, .inherit name type ∈ c.members → findClass P.table name = some p →
      isClassParent P.table (.inherit name type) = false → p.kind = .nInterface := by
    intro name type p member found no
    obtain ⟨q,byType,same⟩ := Program.found_by_type declared member found
    obtain k | k := kinds name type member q byType
    · simp [byType,k] at no
    · exact same.symm.trans k
  cases parents : c.members.filter (isClassParent P.table) with
  | nil =>
    left
    intro name type p member found
    exact interface name type p member found (by simpa using filter_eq_nil_iff.mp parents _ member)
  | cons m rest =>
    obtain rfl : rest = [] := by simpa [parents] using few
    obtain ⟨before,after,split,none,is,last⟩ := filter_eq_cons_iff.mp parents
    have others : ∀ name type q, .inherit name type ∈ before ++ after → findClass P.table name = some q →
        q.kind = .nInterface := by
      intro name type q other found
      refine interface name type q ?_ found ?_
      · rw [split]
        obtain other | other := mem_append.mp other
        · exact mem_append_left _ other
        · exact mem_append_right _ (mem_cons_of_mem _ other)
      · obtain other | other := mem_append.mp other
        · simpa using none _ other
        · simpa using filter_eq_nil_iff.mp last _ other
    cases m with
    | inherit name type =>
      obtain ⟨q,byType,k⟩ : ∃ q, typeDeclNode P.table type = some q ∧ q.kind = .nClass := by
        simpa [Option.any_eq_true] using is
      cases found : findClass P.table name with
      | none =>
        -- a class that is inherited with arguments and was not instantiated is not there for the generator
        left
        intro name' type' p member there
        obtain front | rfl | back : .inherit name' type' ∈ before ∨ name' = name ∨ .inherit name' type' ∈ after := by
          simp only [split,mem_append,mem_cons] at member
          grind
        · exact others name' type' p (mem_append_left _ front) there
        · cases found.symm.trans there
        · exact others name' type' p (mem_append_right _ back) there
      | some p =>
        have member : .inherit name type ∈ c.members := by simp [split]
        obtain ⟨q',byType',same⟩ := Program.found_by_type declared member found
        obtain rfl : q = q' := Option.some.inj (byType.symm.trans byType')
        exact .inr ⟨before,name,type,after,p,split,found,same.symm.trans k,others⟩
    | _ => cases is

end Parents

end Objective9c.Compiler
