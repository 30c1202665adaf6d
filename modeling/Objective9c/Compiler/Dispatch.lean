import Mathlib.Data.Int.Lemmas
import Objective9c.Lib.Layers
import Objective9c.Compiler.Contract

/-! The dispatch switch of a class. The generator emits one case for each method body, the class's own
before those of its parents, and leaves out a body whose selector has a case already. It goes on to a
parent only if that is a concrete class, while the checker's search for an implementation goes through
abstract classes as well. -/
namespace Objective9c.Compiler

open Relation Descent Option Layers

section Generator

/-- `o9_hash` over a name of ASCII characters. -/
def o9Hash (s : String) : Nat := (s.toList.foldl (fun hash c => ((hash <<< 5) + hash) + c.toNat) 5381) % 2^32

/-- What a case of the switch runs: `o9_impl_<owner>_<method>`, or the cleanup of the object. -/
inductive Target where
  | impl (owner : Decl) (method : MethodDecl)
  | cleanup
deriving DecidableEq

structure Case where
  selector : Nat
  target : Target
deriving DecidableEq

def dispatchHashSeen (emitted : List Case) (h : Nat) : Bool := emitted.any (·.selector == h)

def dispatchNeedsCtorAlias (c : Decl) (m : MethodDecl) (childname : String) : Bool :=
  m.name == c.name && c.name != childname

def genDispatchCtorAlias (c : Decl) (m : MethodDecl) (childname : String) (emitted : List Case) : List Case :=
  if !dispatchNeedsCtorAlias c m childname then emitted else
    let h := o9Hash childname
    if dispatchHashSeen emitted h then emitted else emitted ++ [⟨h,.impl c m⟩]

def genDispatchMethodCase (c : Decl) (childname : String) (emitted : List Case) : Member → List Case
  | .method m => if !methodHasBody m then emitted else
    let emitted := genDispatchCtorAlias c m childname emitted
    let h := o9Hash m.name
    if dispatchHashSeen emitted h then emitted else emitted ++ [⟨h,.impl c m⟩]
  | _ => emitted

def genDispatchMemberCases (c : Decl) (childname : String) (emitted : List Case) : List Case :=
  c.members.foldl (genDispatchMethodCase c childname) emitted

variable (table : Table)

@[simp] def dispatchParentClass : Member → Option Decl
  | .inherit name _ => (findClass table name).filter Decl.isConcrete
  | _ => none

def genDispatchCases : Nat → Decl → String → List Case → List Case
  | 0, _, _, emitted => emitted
  | depth+1, c, childname, emitted =>
    c.members.foldl (fun emitted m => match dispatchParentClass table m with
      | some p => genDispatchCases depth p childname emitted
      | none => emitted) (genDispatchMemberCases c childname emitted)

/-- The cases of `gen_class_dispatch_loop`, the one for `destroy` last. -/
def dispatchSwitch (depth : Nat) (c : Decl) : List Case :=
  genDispatchCases table depth c c.name [] ++ [⟨o9Hash "destroy",.cleanup⟩]

/-- The slots of `emitted_hashes`. A switch with more cases writes past them. -/
def maxEmittedHashes : Nat := 1024

end Generator

section Walk

/-- The cases that a method body is offered for, the alias of an inherited constructor first. -/
def offersOf (childname : String) (c : Decl) : Member → List Case
  | .method m => if methodHasBody m then
      (if dispatchNeedsCtorAlias c m childname then [⟨o9Hash childname,.impl c m⟩] else []) ++
        [⟨o9Hash m.name,.impl c m⟩]
    else []
  | _ => []

/-- A class body as the generator walks it: own cases, then the parents that are concrete classes. -/
def offering (table : Table) (childname : String) (c : Decl) : List (Decl ⊕ Case) :=
  (c.members.flatMap (offersOf childname c)).map .inr ++ (c.members.filterMap (dispatchParentClass table)).map .inl

/-- The cases offered to the switch of `child` from `c` upwards, in order and with those it leaves out. -/
def Hierarchy.offersTo (H : Hierarchy) (child : String) (c : Decl) : List Case :=
  items (offering H.table child) H.depth c

def Hierarchy.offers (H : Hierarchy) (c : Decl) : List Case := H.offersTo c.name c

/-- The parents whose bodies the switch of a class takes in. -/
def ConcreteParent (table : Table) (c p : Decl) : Prop := ∃ m ∈ c.members, dispatchParentClass table m = some p

variable {table : Table} {childname : String} {c p : Decl} {depth : Nat}

theorem link_offering : Link (offering table childname) c p ↔ ConcreteParent table c p := by
  simp [Link,offering,ConcreteParent]

theorem own_offering : .inr case ∈ offering table childname c ↔ ∃ m ∈ c.members, case ∈ offersOf childname c m := by
  simp [offering]

theorem dispatchParentClass_some (parent : dispatchParentClass table m = some p) :
    ∃ name type, m = .inherit name type ∧ findClass table name = some p ∧ p.isConcrete := by
  cases m with
  | inherit name type =>
    obtain ⟨found,concrete⟩ := filter_eq_some_iff.mp parent
    exact ⟨name,type,rfl,found,concrete⟩
  | _ => cases parent

theorem offering_ends (ended : ends (byName table) depth c) : ends (offering table childname) depth c := by
  refine ends_of_fewer (fun a b link => ?_) ended
  obtain ⟨m,member,parent⟩ := link_offering.mp link
  obtain ⟨name,type,rfl,found,_⟩ := dispatchParentClass_some parent
  exact link_byName.mpr ⟨name,type,member,found⟩

theorem mem_offersOf (offer : case ∈ offersOf child c m) :
    ∃ b, m = .method b ∧ methodHasBody b ∧ case.target = .impl c b := by
  cases m with
  | method b =>
    by_cases body : methodHasBody b
    · exact ⟨b,rfl,body,by grind [offersOf]⟩
    · simp [offersOf,body] at offer
  | _ => cases offer

theorem Hierarchy.offersTo_unfold (H : Hierarchy) (child : String) (declared : c ∈ H.table) :
    H.offersTo child c = c.members.flatMap (offersOf child c) ++
      (c.members.filterMap (dispatchParentClass H.table)).flatMap (H.offersTo child) := by
  rw [Hierarchy.offersTo,items_unfold (offering_ends (H.ends c declared)),offering,List.flatMap_append,
    List.flatMap_map,List.flatMap_map]
  exact congrArg (· ++ _) (List.flatMap_singleton' _)

end Walk

section Cases

theorem addNew_case (emitted : List Case) (h : Nat) (target : Target) :
    (if dispatchHashSeen emitted h then emitted else emitted ++ [⟨h,target⟩]) =
      addNew Case.selector emitted ⟨h,target⟩ := by
  simp [addNew,dispatchHashSeen]

theorem genDispatchMethodCase_eq (c : Decl) (childname : String) (emitted : List Case) (m : Member) :
    genDispatchMethodCase c childname emitted m =
      (offersOf childname c m).foldl (addNew Case.selector) emitted := by
  cases m with
  | method m =>
    simp only [genDispatchMethodCase,genDispatchCtorAlias,offersOf,addNew_case]
    cases methodHasBody m <;> cases dispatchNeedsCtorAlias c m childname <;> simp
  | _ => rfl

theorem genDispatchMemberCases_eq (c : Decl) (childname : String) (emitted : List Case) :
    genDispatchMemberCases c childname emitted =
      (c.members.flatMap (offersOf childname c)).foldl (addNew Case.selector) emitted := by
  rw [List.foldl_flatMap]
  unfold genDispatchMemberCases
  congr 1
  funext emitted m
  exact genDispatchMethodCase_eq c childname emitted m

theorem genDispatchCases_eq (table : Table) (depth : Nat) (c : Decl) (childname : String) (emitted : List Case) :
    genDispatchCases table depth c childname emitted =
      (items (offering table childname) depth c).foldl (addNew Case.selector) emitted := by
  induction depth generalizing c emitted with
  | zero => rfl
  | succ depth ih =>
    simp only [genDispatchCases,items,offering,List.flatMap_append,List.foldl_append,List.flatMap_map,
      genDispatchMemberCases_eq,ih,List.foldl_flatMap,List.foldl_filterMap,List.foldl_cons,List.foldl_nil]
    congr 1
    funext emitted m
    cases dispatchParentClass table m <;> rfl

theorem genDispatchCases_extends (H : Hierarchy) (c : Decl) :
    Layers.Extends Case.selector (fun h => first Case.selector h (H.offers c)) []
      (genDispatchCases H.table H.depth c c.name []) := by
  rw [genDispatchCases_eq]
  exact extends_foldl_addNew _ _

theorem filter_dispatchSwitch (H : Hierarchy) (c : Decl) (h : Nat) :
    (dispatchSwitch H.table H.depth c).filter (·.selector = h) =
      (first Case.selector h (H.offers c)).toList ++
        if o9Hash "destroy" = h then [⟨o9Hash "destroy",.cleanup⟩] else [] := by
  have cases := genDispatchCases_extends H c
  rw [dispatchSwitch,List.filter_append,filter_of_nodup (cases.distinct List.nodup_nil),cases.first]
  by_cases same : o9Hash "destroy" = h <;> simp [same,first]

def runs (table : Table) (depth : Nat) (c : Decl) (s : Nat) : Option Target :=
  (Layers.first Case.selector s (dispatchSwitch table depth c)).map Case.target

theorem runs_impl (H : Hierarchy) (c x : Decl) (b : MethodDecl) (s : Nat) :
    runs H.table H.depth c s = some (.impl x b) ↔
      first Case.selector s (H.offers c) = some ⟨s,.impl x b⟩ := by
  have cases := genDispatchCases_extends H c
  have whole : first Case.selector s (dispatchSwitch H.table H.depth c) =
      (first Case.selector s (H.offers c)).or
        (first Case.selector s [⟨o9Hash "destroy",.cleanup⟩]) := by
    rw [dispatchSwitch,first,List.find?_append,← first,cases.first]
    rfl
  rw [runs,whole]
  cases found : first Case.selector s (H.offers c) with
  | none => by_cases same : o9Hash "destroy" = s <;> simp [first,same]
  | some case =>
    have selector : case.selector = s := by simpa using List.find?_some found
    cases case
    cases selector
    simp

theorem first_none_iff : first Case.selector s list = none ↔ ∀ case ∈ list, case.selector ≠ s := by
  simp [first]

end Cases

section Nearest

variable {P : Program} {H : Hierarchy} {c p x : Decl} {b : MethodDecl} {child : String} {s : Nat}

theorem first_own_none : first Case.selector s (c.members.flatMap (offersOf child c)) = none ↔
    ∀ m ∈ c.members, ∀ case ∈ offersOf child c m, case.selector ≠ s := by
  rw [first_none_iff]
  constructor
  · intro none m member case offer
    exact none case (List.mem_flatMap.mpr ⟨m,member,offer⟩)
  · intro none case offer
    obtain ⟨m,member,offer⟩ := List.mem_flatMap.mp offer
    exact none m member case offer

theorem first_own (found : first Case.selector s (c.members.flatMap (offersOf child c)) = some case) :
    ∃ before b after, c.members = before ++ .method b :: after ∧ case = ⟨s,.impl c b⟩ ∧
      (∃ case ∈ offersOf child c (.method b), case.selector = s) ∧
      ∀ m ∈ before, ∀ case ∈ offersOf child c m, case.selector ≠ s := by
  rw [first,List.find?_flatMap] at found
  obtain ⟨before,m,after,split,here,none⟩ := List.findSome?_eq_some_iff.mp found
  have offer := List.mem_of_find?_eq_some here
  have selector : case.selector = s := by simpa using List.find?_some here
  obtain ⟨b,rfl,_,target⟩ := mem_offersOf offer
  refine ⟨before,b,after,split,?_,⟨case,offer,selector⟩,fun m member => first_none_iff.mp (none m member)⟩
  cases case
  cases selector
  cases target
  rfl

theorem dispatchParentClass_interface (found : ∀ p, findClass P.table name = some p → p.kind = .nInterface) :
    dispatchParentClass P.table (.inherit name type) = none := by
  cases is : findClass P.table name with
  | none => simp [is]
  | some p => simp [is,Option.filter,Decl.isConcrete,found p is]

/-- The switch runs the body that is nearest to the class, its own members before those of its concrete parents. -/
theorem runs_iff (declared : c ∈ H.table) : runs H.table H.depth c s = some (.impl x b) ↔
    Nearest (offering H.table c.name) (fun case => decide (case.selector = s)) c ⟨s,.impl x b⟩ := by
  rw [runs_impl H,Hierarchy.offers,Hierarchy.offersTo,first,
    find?_items_iff _ (offering_ends (H.ends c declared))]

end Nearest

section Implementation

variable {H : Hierarchy} {c x : Decl} {b : MethodDecl} {name : String}

/-- The generated switch has exactly one case for the method's selector, which runs the body of `x`, and
the hashes noted for it fit their array. -/
structure RunsOnly (H : Hierarchy) (c : Decl) (name : String) (x : Decl) (b : MethodDecl) : Prop where
  fits : (genDispatchCases H.table H.depth c c.name []).length ≤ maxEmittedHashes
  only : (dispatchSwitch H.table H.depth c).filter (·.selector = o9Hash name) = [⟨o9Hash name,.impl x b⟩]

theorem only_iff (case : Case) (impl : case.target ≠ .cleanup) :
    (dispatchSwitch H.table H.depth c).filter (·.selector = h) = [case] ↔
      first Case.selector h (H.offers c) = some case ∧ h ≠ o9Hash "destroy" := by
  rw [filter_dispatchSwitch]
  by_cases destroys : o9Hash "destroy" = h
  · have unequal : (⟨o9Hash "destroy",.cleanup⟩ : Case) ≠ case := fun eq => impl (eq ▸ rfl)
    cases first Case.selector h (H.offers c) <;> simp [destroys,destroys ▸ unequal]
  · have other : h ≠ o9Hash "destroy" := fun eq => destroys eq.symm
    cases first Case.selector h (H.offers c) <;> simp [destroys,other]

/-- A body is offered to the switch exactly if only concrete classes lead up to it. -/
theorem offered_iff (declared : c ∈ H.table) (member : .method b ∈ x.members) (body : methodHasBody b) :
    ⟨o9Hash b.name,.impl x b⟩ ∈ H.offers c ↔ ReflTransGen (ConcreteParent H.table) c x := by
  have links : Link (offering H.table c.name) = ConcreteParent H.table := by
    funext a p
    exact propext link_offering
  rw [Hierarchy.offers,Hierarchy.offersTo,mem_items (offering_ends (H.ends c declared)),links]
  constructor
  · rintro ⟨owner,path,own⟩
    obtain ⟨m,_,offer⟩ := own_offering.mp own
    obtain rfl : owner = x := by
      cases m with
      | method => grind [offersOf]
      | _ => cases offer
    exact path
  · intro path
    exact ⟨x,path,own_offering.mpr ⟨_,member,by simp [offersOf,body]⟩⟩

/-- The switch runs what the checker takes for the implementation of a method just when no abstract class stands
between, no earlier case has its selector, the selector is not that of `destroy`, and the selectors fit the array of
emitted hashes. -/
theorem switch_runs_implementation_iff (declared : c ∈ H.table)
    (found : concreteMethodNode H.table H.depth c name = some (x,b)) :
    RunsOnly H c name x b ↔
      ReflTransGen (ConcreteParent H.table) c x ∧
      (∀ earlier ∈ (H.offers c).takeWhile (· ≠ ⟨o9Hash name,.impl x b⟩), earlier.selector ≠ o9Hash name) ∧
      o9Hash name ≠ o9Hash "destroy" ∧
      ((H.offers c).map Case.selector).dedup.length ≤ maxEmittedHashes := by
  obtain ⟨member,rfl,body⟩ := concreteMethodNode_some found
  have count : (genDispatchCases H.table H.depth c c.name []).length =
      ((H.offers c).map Case.selector).dedup.length := by
    rw [genDispatchCases_eq,Layers.length_foldl_addNew]
    rfl
  have runs := only_iff (H := H) (c := c) (h := o9Hash b.name) ⟨o9Hash b.name,.impl x b⟩ (by simp)
  rw [Layers.first_eq_some_iff_before,offered_iff declared member body] at runs
  constructor
  · rintro ⟨fits,only⟩
    obtain ⟨⟨path,_,clear⟩,kept⟩ := runs.mp only
    exact ⟨path,clear,kept,count ▸ fits⟩
  · rintro ⟨path,clear,kept,fits⟩
    exact ⟨count ▸ fits,runs.mpr ⟨⟨path,rfl,clear⟩,kept⟩⟩

/-- A concrete class below an abstract one with a method body, as in `inherit_contracts.o9`. -/
def contractsTable : Table := [
  { name := "Base", isAbstract := true, members := [.method { name := "touch" }] },
  { name := "Worker", members := [inheritDecl (.name "Base"),.method { name := "put" }] }]

def contracts : Hierarchy where
  table := contractsTable
  depth := 2
  ends := by decide

theorem abstract_body_has_no_case :
    ¬∀ (H : Hierarchy) (c x : Decl) (name : String) (b : MethodDecl), passes H.table H.depth → c ∈ H.table →
      c.isConcrete → concreteMethodNode H.table H.depth c name = some (x,b) → RunsOnly H c name x b := by
  intro every
  have only := (every contracts contractsTable[1] contractsTable[0] "touch" { name := "touch" }
    (by decide) (by decide) (by decide) (by decide)).only
  revert only
  decide

/-- The same class's own method gets its case. -/
theorem own_body_has_its_case : RunsOnly contracts contractsTable[1] "put" contractsTable[1] { name := "put" } :=
  (switch_runs_implementation_iff (by decide) (by decide)).mpr ⟨.refl,by decide,by decide,by decide⟩

end Implementation

end Objective9c.Compiler
