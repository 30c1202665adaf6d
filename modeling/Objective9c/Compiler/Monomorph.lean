import Mathlib.Algebra.Order.BigOperators.Group.List
import Mathlib.Algebra.Order.Group.Nat
import Objective9c.Compiler.Nodes
import Objective9c.Compiler.TypeSizes

/-! Monomorphisation. Every application of a generic class that stands in the tree becomes a class of its own,
a copy of the template with the arguments put in, and the copy is scanned in turn. The recursion of
`mono_instantiate` is bounded by fuel; `none` says that the fuel ran out. -/
namespace Objective9c.Compiler.Ast

open List Option

section Pass

/-- The table of classes and `mono_list`. -/
structure Mono where
  classes : Classes
  instances : List String := []

/-- `name_tail`: what follows the last separator, found from the left. -/
def nameTailFrom : List Char → List Char → List Char
  | _, '_' :: '_' :: rest => nameTailFrom rest rest
  | last, _ :: rest => nameTailFrom last rest
  | last, [] => last

def nameTail (name : String) : String := String.ofList (nameTailFrom name.toList name.toList)

def copyNodeSubst (b : Bindings) : Node → Node
  | .nil => .nil
  | .node type flags name typeinfo params left right next =>
    .node type flags name (typeinfo.map (typeSubst b)) (copyNodeSubst b params) (copyNodeSubst b left)
      (copyNodeSubst b right) (copyNodeSubst b next)

/-- The constructors of the copy take the generated name. -/
def retarget (tail cn : String) : Node → Node
  | .nil => .nil
  | .node type flags name typeinfo params left right next =>
    .node type flags (if type = .method ∧ name = tail then cn else name) typeinfo params left right
      (retarget tail cn next)

/-- The loop of `type_bindings_for` over the parameter nodes of the template. -/
def bindingsFor (tmpl : Node) : Ty → Bindings
  | .apply _ args => bindParams tmpl.params.names args []
  | _ => []

def instanceBody (tmpl : Node) (app : Ty) : Node :=
  match tmpl with
  | .nil => .nil
  | .node _ _ name _ _ left _ _ =>
    retarget (nameTail name) (typeCname app) (copyNodeSubst (bindingsFor tmpl app) left)

def instanceNode (tmpl : Node) (app : Ty) : Node :=
  match tmpl with
  | .nil => .nil
  | .node type flags _ _ _ _ right _ =>
    .node type flags (typeCname app) none .nil (instanceBody tmpl app) right .nil

/-- The generic declaration that an application of the name instantiates. -/
def template (classes : Classes) (name : String) : Option Node :=
  if name = "List" ∨ name = "Dict" then none
  else (findNode classes (mangleSourceName name)).filter (·.params ≠ .nil)

mutual

def monoScanType (instantiate : Node → Ty → Mono → Option Mono) : Ty → Mono → Option Mono
  | .name _, s | .param _, s => some s
  | .apply name args, s =>
    (match template s.classes name with
      | some d => instantiate d (.apply name args) s
      | none => some s).bind (monoScanArgs instantiate args)
  | .ptr base, s | .array base, s => monoScanType instantiate base s

def monoScanArgs (instantiate : Node → Ty → Mono → Option Mono) : TyList → Mono → Option Mono
  | .nil, s => some s
  | .cons type next, s => (monoScanType instantiate type s).bind (monoScanArgs instantiate next)

end

/-- Templates are scanned only when instantiated. -/
def isTemplate : NodeType → Node → Bool
  | .decl .nEnum, _ => false
  | .decl _, params => params ≠ .nil
  | _, _ => false

def monoScanNode (instantiate : Node → Ty → Mono → Option Mono) : Node → Mono → Option Mono
  | .nil, s => some s
  | .node type _ _ typeinfo params left right next, s =>
    if isTemplate type params then monoScanNode instantiate next s else
      (match typeinfo with
        | some t => monoScanType instantiate t s
        | none => some s).bind fun s =>
      (monoScanNode instantiate params s).bind fun s =>
      (monoScanNode instantiate left s).bind fun s =>
      (monoScanNode instantiate right s).bind fun s => monoScanNode instantiate next s

def monoInstantiate : Nat → Node → Ty → Mono → Option Mono
  | 0, _, _, _ => none
  | fuel+1, tmpl, app, s =>
    if (findNode s.classes (typeCname app)).isSome then some s else
      monoScanNode (monoInstantiate fuel) (instanceBody tmpl app)
        ⟨addClass (typeCname app) (instanceNode tmpl app) s.classes,s.instances ++ [typeCname app]⟩

/-- The pass over a program, as `codegen` starts it. -/
def monomorphise (fuel : Nat) (root : Node) (classes : Classes) : Option Mono :=
  monoScanNode (monoInstantiate fuel) root { classes }

/-- From some recursion depth on the pass comes to one and the same end. -/
def Terminates (root : Node) (classes : Classes) : Prop :=
  ∃ fuel final, ∀ more, fuel ≤ more → monomorphise more root classes = some final

end Pass

section Fuel

variable {less more : Node → Ty → Mono → Option Mono}

/-- Whatever the one brings to an end, the other brings to the same end. -/
def Extends (less more : Node → Ty → Mono → Option Mono) : Prop :=
  ∀ d t s final, less d t s = some final → more d t s = some final

mutual

theorem scanType_extends (wider : Extends less more) (t : Ty) (ended : monoScanType less t s = some final) :
    monoScanType more t s = some final := by
  match t with
  | .name _ | .param _ => exact ended
  | .apply name args =>
    obtain ⟨mid,first,rest⟩ := bind_eq_some_iff.mp ended
    refine bind_eq_some_iff.mpr ⟨mid,?_,scanArgs_extends wider args rest⟩
    cases found : template s.classes name with
    | none => simpa [found] using first
    | some => exact wider _ _ _ _ (by simpa [found] using first)
  | .ptr base | .array base => exact scanType_extends wider base ended

theorem scanArgs_extends (wider : Extends less more) (ts : TyList) (ended : monoScanArgs less ts s = some final) :
    monoScanArgs more ts s = some final := by
  match ts with
  | .nil => exact ended
  | .cons t next =>
    obtain ⟨mid,first,rest⟩ := bind_eq_some_iff.mp ended
    exact bind_eq_some_iff.mpr ⟨mid,scanType_extends wider t first,scanArgs_extends wider next rest⟩

end

theorem scanNode_extends (wider : Extends less more) (n : Node) (ended : monoScanNode less n s = some final) :
    monoScanNode more n s = some final := by
  induction n generalizing s final with
  | nil => exact ended
  | node type flags name typeinfo params left right next ihParams ihLeft ihRight ihNext =>
    unfold monoScanNode at ended ⊢
    by_cases skipped : isTemplate type params
    · rw [if_pos skipped] at ended ⊢
      exact ihNext ended
    · rw [if_neg skipped] at ended ⊢
      simp only [bind_eq_some_iff] at ended ⊢
      obtain ⟨a,own,b,onParams,c,onLeft,d,onRight,onNext⟩ := ended
      refine ⟨a,?_,b,ihParams onParams,c,ihLeft onLeft,d,ihRight onRight,ihNext onNext⟩
      cases typeinfo with
      | none => exact own
      | some t => exact scanType_extends wider t own

theorem instantiate_extends (le : fuel ≤ ample) : Extends (monoInstantiate fuel) (monoInstantiate ample) := by
  induction fuel generalizing ample with
  | zero => simp [Extends,monoInstantiate]
  | succ fuel ih =>
    obtain ⟨ample,rfl⟩ : ∃ k, ample = k + 1 := ⟨ample - 1,by omega⟩
    intro d t s final ended
    unfold monoInstantiate at ended ⊢
    by_cases present : (findNode s.classes (typeCname t)).isSome
    · rw [if_pos present] at ended ⊢
      exact ended
    · rw [if_neg present] at ended ⊢
      exact scanNode_extends (ih (by omega)) _ ended

end Fuel

section Uses

/-- An application of a template in a type: the template's name in the table, its declaration, the arguments. -/
structure Use where
  name : String
  tmpl : Node
  args : TyList

/-- The arguments that are bound, each with its parameter. -/
def Use.bound (use : Use) : List (String × Ty) := use.tmpl.params.names.zip use.args.toList

variable (classes : Classes)

mutual

def uses : Ty → List Use
  | .name _ | .param _ => []
  | .apply name args => ((template classes name).toList.map fun d => ⟨mangleSourceName name,d,args⟩) ++ usesList args
  | .ptr base | .array base => uses base

@[simp] def usesList : TyList → List Use
  | .nil => []
  | .cons type next => uses type ++ usesList next

end

/-- The types of a tree that the scan comes to. -/
def scanned : Node → List Ty
  | .nil => []
  | .node type _ _ typeinfo params left right next =>
    (if isTemplate type params then [] else typeinfo.toList ++ scanned params ++ scanned left ++ scanned right) ++
      scanned next

/-- The templates that are instantiated: for the program's own types, and for the bodies of such templates. -/
inductive Reached (root : Node) : String → Prop
  | root : t ∈ scanned root → use ∈ uses classes t → Reached root use.name
  | body : Reached root name → findNode classes name = some d → t ∈ scanned d.left → use ∈ uses classes t →
      Reached root use.name

/-- An argument that is a parameter goes to a parameter of its own level or above, one with parameters inside it
to a parameter above all their levels. -/
def fits (own : String → Nat) (level : Nat) : Ty → Bool
  | .param n => own n ≤ level
  | a => a.params.all fun n => own n < level

/-- Levels for the parameters of the templates reached that no application in one of them goes down in. -/
def Levelled (root : Node) (level : String → String → Nat) : Prop :=
  ∀ name d, Reached classes root name → findNode classes name = some d →
    ∀ t ∈ scanned d.left, ∀ use ∈ uses classes t, ∀ bound ∈ use.bound,
      fits (level name) (level use.name bound.1) bound.2

variable {classes}

theorem template_found (is : template classes name = some d) : findNode classes (mangleSourceName name) = some d := by
  unfold template at is
  split at is
  · simp at is
  · simp only [filter_eq_some_iff] at is
    exact is.1

theorem mem_uses_apply : use ∈ uses classes (.apply name args) ↔
    (∃ d, template classes name = some d ∧ use = ⟨mangleSourceName name,d,args⟩) ∨ use ∈ usesList classes args := by
  simp [uses,eq_comm]

theorem mem_usesList : use ∈ usesList classes args ↔ ∃ a ∈ args.toList, use ∈ uses classes a := by
  match args with
  | .nil => simp
  | .cons t next => simp [mem_usesList]

mutual

theorem height_of_use (t : Ty) (member : use ∈ uses classes t) : use.args.height ≤ t.height := by
  match t with
  | .name _ | .param _ => simp [uses] at member
  | .apply name args =>
    rw [Ty.height]
    obtain ⟨d,-,rfl⟩ | inner := mem_uses_apply.mp member
    · exact Nat.le_succ _
    · exact (height_of_useList args inner).trans (Nat.le_succ _)
  | .ptr base | .array base => exact (height_of_use base member).trans (Nat.le_succ _)

theorem height_of_useList (ts : TyList) (member : use ∈ usesList classes ts) : use.args.height ≤ ts.height := by
  match ts with
  | .nil => simp at member
  | .cons t next =>
    obtain first | later := mem_append.mp member
    · exact (height_of_use t first).trans (Nat.le_max_left _ _)
    · exact (height_of_useList next later).trans (Nat.le_max_right _ _)

end

theorem height_of_bound (member : use ∈ uses classes t) (bound : b ∈ use.bound) : b.2.height ≤ t.height :=
  (height_of_arg (of_mem_zip bound).2).trans (height_of_use t member)

theorem template_canonical (name : String) : template classes (canonicalTypeName name) = template classes name := by
  by_cases tabula : name = "Tabula"
  · subst tabula
    rfl
  · simp [canonicalTypeName,tabula]

theorem mangleSourceName_canonical (name : String) :
    mangleSourceName (canonicalTypeName name) = mangleSourceName name := by
  simp [mangleSourceName,typeName,canonicalTypeName_idem]

mutual

/-- A template applied in a substituted type was applied there before, or in what a parameter was replaced by. -/
theorem uses_subst (t : Ty) (member : use ∈ uses classes (typeSubst b t)) :
    (∃ before ∈ uses classes t, use = { before with args := typeListSubst b before.args }) ∨
      ∃ n u, typeBindLookup b n = some u ∧ use ∈ uses classes u := by
  match t with
  | .name _ => simp [typeName,uses] at member
  | .param n =>
    cases bound : typeBindLookup b n with
    | none => simp [bound,uses] at member
    | some u => exact .inr ⟨n,u,bound,by simpa [bound] using member⟩
  | .apply name args =>
    obtain ⟨d,is,rfl⟩ | inner := mem_uses_apply.mp member
    · rw [template_canonical] at is
      rw [mangleSourceName_canonical]
      exact .inl ⟨_,mem_uses_apply.mpr (.inl ⟨d,is,rfl⟩),rfl⟩
    · obtain ⟨before,stands,same⟩ | rest := uses_substList args inner
      · exact .inl ⟨before,mem_uses_apply.mpr (.inr stands),same⟩
      · exact .inr rest
  | .ptr base | .array base => exact uses_subst base member

theorem uses_substList (ts : TyList) (member : use ∈ usesList classes (typeListSubst b ts)) :
    (∃ before ∈ usesList classes ts, use = { before with args := typeListSubst b before.args }) ∨
      ∃ n u, typeBindLookup b n = some u ∧ use ∈ uses classes u := by
  match ts with
  | .nil => simp at member
  | .cons t next =>
    obtain first | later := mem_append.mp member
    · exact (uses_subst t first).imp_left fun ⟨before,stands,same⟩ => ⟨before,mem_append_left _ stands,same⟩
    · exact (uses_substList next later).imp_left fun ⟨before,stands,same⟩ => ⟨before,mem_append_right _ stands,same⟩

end

end Uses

section Ends

theorem lookup_bindParams (found : typeBindLookup (bindParams params args acc) n = some u) :
    (n,u) ∈ params.zip args.toList ∨ typeBindLookup acc n = some u := by
  induction params generalizing args acc with
  | nil => exact .inr found
  | cons p params ih =>
    cases args with
    | nil => exact .inr found
    | cons a =>
      obtain later | first := ih found
      · exact .inl (mem_cons_of_mem _ later)
      · by_cases own : p = n
        · subst own
          have same : a = u := by simpa [typeBindLookup] using first
          exact .inl (by simp [same])
        · exact .inr (by simpa [typeBindLookup,own] using first)

variable {classes : Classes} {root : Node} {level : String → String → Nat}

theorem bound_of_lookup (found : typeBindLookup (bindingsFor d (.apply name args)) n = some u) :
    (n,u) ∈ d.params.names.zip args.toList :=
  (lookup_bindParams found).resolve_right (by simp [typeBindLookup])

/-- Sizes that the program and all templates keep to. -/
structure Limits (root : Node) (classes : Classes) (level : String → String → Nat) where
  names : List String
  width : Nat
  height : Nat
  top : Nat
  canonical : ∀ n ∈ names, canonicalTypeName n ∈ names
  here : ∀ t ∈ scanned root, Sized names width height t
  within : ∀ name d, findNode classes name = some d → ∀ t ∈ scanned d.left, Sized names width height t
  levels : ∀ name d, findNode classes name = some d → ∀ p ∈ d.params.names, level name p ≤ top

/-- A type as the pass meets it: an argument is the deeper the higher its parameter's level is. -/
structure Limits.Fit (L : Limits root classes level) (t : Ty) : Prop where
  reached : ∀ use ∈ uses classes t, Reached classes root use.name
  low : ∀ use ∈ uses classes t, ∀ b ∈ use.bound, b.2.height ≤ L.height * (level use.name b.1 + 1)
  sized : Sized L.names L.width (L.height * (L.top + 2)) t

namespace Limits

variable (L : Limits root classes level)

theorem fit_root (stands : t ∈ scanned root) : L.Fit t where
  reached use member := .root stands member
  low use member b bound := by
    calc b.2.height
      _ ≤ t.height := height_of_bound member bound
      _ ≤ L.height := (L.here t stands).2.2
      _ ≤ L.height * (level use.name b.1 + 1) := Nat.le_mul_of_pos_right _ (by omega)
  sized := by
    obtain ⟨known,narrow,short⟩ := L.here t stands
    exact ⟨known,narrow,short.trans (Nat.le_mul_of_pos_right _ (by omega))⟩

variable {L}

theorem Fit.arg (fit : L.Fit (.apply name args)) (arg : a ∈ args.toList) : L.Fit a where
  reached use member := fit.reached use (mem_uses_apply.mpr (.inr (mem_usesList.mpr ⟨a,arg,member⟩)))
  low use member := fit.low use (mem_uses_apply.mpr (.inr (mem_usesList.mpr ⟨a,arg,member⟩)))
  sized := by
    obtain ⟨known,narrow,short⟩ := fit.sized
    simp only [Ty.names,cons_subset,Ty.width,max_le_iff,Ty.height] at known narrow short
    refine ⟨List.Subset.trans (names_of_arg arg) known.2,(width_of_arg arg).trans narrow.2,?_⟩
    have := height_of_arg arg
    omega

theorem Fit.under (outer : t = .ptr base ∨ t = .array base) (fit : L.Fit t) : L.Fit base := by
  obtain ⟨reached,low,known,narrow,short⟩ := fit
  obtain rfl | rfl := outer
  · exact ⟨reached,low,known,narrow,(Nat.le_succ _).trans short⟩
  · exact ⟨reached,low,known,narrow,(Nat.le_succ _).trans short⟩

section

variable (fit : L.Fit (.apply name args)) (is : template classes name = some d)

include fit is

theorem Fit.bound (found : typeBindLookup (bindingsFor d (.apply name args)) n = some u) :
    u.height ≤ L.height * (level (mangleSourceName name) n + 1) :=
  fit.low _ (mem_uses_apply.mpr (.inl ⟨d,is,rfl⟩)) _ (bound_of_lookup found)

theorem height_fits (short : a.height ≤ L.height) (up : fits (level (mangleSourceName name)) l a) :
    (typeSubst (bindingsFor d (.apply name args)) a).height ≤ L.height * (l + 1) := by
  by_cases bare : ∃ n, a = .param n
  · obtain ⟨n,rfl⟩ := bare
    have le : level (mangleSourceName name) n ≤ l := by simpa [fits] using up
    cases found : typeBindLookup (bindingsFor d (.apply name args)) n with
    | none => simp [found]
    | some =>
      simp only [typeSubst,found,getD_some]
      exact (fit.bound is found).trans (Nat.mul_le_mul_left _ (by omega))
  · have above : ∀ n ∈ a.params, level (mangleSourceName name) n < l := by
      cases a with
      | param n => exact absurd ⟨n,rfl⟩ bare
      | name | apply | ptr | array => simpa [fits] using up
    have deep : ∀ n ∈ a.params, ∀ u, typeBindLookup (bindingsFor d (.apply name args)) n = some u →
        u.height ≤ L.height * l := by
      intro n occurs u found
      exact (fit.bound is found).trans (Nat.mul_le_mul_left _ (above n occurs))
    calc (typeSubst (bindingsFor d (.apply name args)) a).height
      _ ≤ a.height + L.height * l := height_subst a deep
      _ ≤ L.height * (l + 1) := by rw [Nat.mul_succ]; omega

end

theorem Fit.subst (levelled : Levelled classes root level) (fit : L.Fit (.apply name args))
    (is : template classes name = some d) (stands : t ∈ scanned d.left) :
    L.Fit (typeSubst (bindingsFor d (.apply name args)) t) := by
  have found := template_found is
  have reached := fit.reached _ (mem_uses_apply.mpr (.inl ⟨d,is,rfl⟩))
  have own : Sized L.names L.width L.height t := L.within _ d found t stands
  have arg : ∀ n u, typeBindLookup (bindingsFor d (.apply name args)) n = some u → L.Fit u :=
    fun n u bound => fit.arg (of_mem_zip (bound_of_lookup bound)).2
  constructor
  · intro use member
    obtain ⟨before,applied,rfl⟩ | ⟨n,u,bound,inner⟩ := uses_subst t member
    · exact (reached.body found stands applied : Reached classes root before.name)
    · exact (arg n u bound).reached use inner
  · intro use member b bound
    obtain ⟨before,applied,rfl⟩ | ⟨n,u,bound',inner⟩ := uses_subst t member
    · rw [Use.bound,toList_subst,zip_map_right] at bound
      obtain ⟨b,before_bound,rfl⟩ := mem_map.mp bound
      have short := (height_of_bound applied before_bound).trans own.2.2
      exact height_fits fit is short (levelled _ d reached found t stands before applied b before_bound)
    · exact (arg n u bound').low use inner b bound
  · refine ⟨names_subst t L.canonical own.1 fun n u bound => (arg n u bound).sized.1,
      width_subst t own.2.1 fun n u bound => (arg n u bound).sized.2.1,?_⟩
    have deep : ∀ n ∈ t.params, ∀ u, typeBindLookup (bindingsFor d (.apply name args)) n = some u →
        u.height ≤ L.height * (L.top + 1) := by
      intro n _ u bound
      have top := L.levels _ d found n (of_mem_zip (bound_of_lookup bound)).1
      exact (fit.bound is bound).trans (Nat.mul_le_mul_left _ (by omega))
    calc (typeSubst (bindingsFor d (.apply name args)) t).height
      _ ≤ t.height + L.height * (L.top + 1) := height_subst t deep
      _ ≤ L.height * (L.top + 2) := by rw [Nat.mul_succ _ (L.top + 1)]; have := own.2.2; omega

end Limits

/-- The table has only grown by instances. -/
structure Grown (classes : Classes) (s : Mono) : Prop where
  kept : ∀ name d, findNode classes name = some d → findNode s.classes name = some d
  fresh : ∀ name d, findNode s.classes name = some d → findNode classes name = some d ∨ d.params = .nil

theorem Grown.template_eq (grown : Grown classes s) (name : String) :
    template s.classes name = template classes name := by
  unfold template
  split
  · rfl
  cases before : findNode classes (mangleSourceName name) with
  | some d => rw [grown.kept _ d before]
  | none =>
    cases now : findNode s.classes (mangleSourceName name) with
    | none => rfl
    | some d =>
      obtain old | plain := grown.fresh _ d now
      · simp [before] at old
      · simp [plain]

theorem Grown.added (grown : Grown classes s) (absent : findNode s.classes cn = none) (plain : n.params = .nil) :
    Grown classes ⟨addClass cn n s.classes,made⟩ where
  kept name d found := by
    have other : cn ≠ name := by
      rintro rfl
      simp [grown.kept _ d found] at absent
    simpa [addClass_of_absent absent,findNode_cons,other] using grown.kept name d found
  fresh name d found := by
    rw [addClass_of_absent absent,findNode_cons] at found
    split at found
    · cases found
      exact .inr plain
    · exact grown.fresh name d found

namespace Limits

/-- The names that instances can get. -/
noncomputable def candidates (L : Limits root classes level) : Finset String :=
  (finite_sized L.names L.width (L.height * (L.top + 2))).toFinset.image typeCname

/-- How many instances can still be made. -/
noncomputable def room (L : Limits root classes level) (s : Mono) : Nat :=
  (L.candidates.filter fun cn => findNode s.classes cn = none).card

variable {L : Limits root classes level}

theorem Fit.candidate (fit : L.Fit t) : typeCname t ∈ L.candidates :=
  Finset.mem_image_of_mem _ ((Set.Finite.mem_toFinset _).mpr fit.sized)

theorem room_added (n : Node) (made : List String) (candidate : cn ∈ L.candidates)
    (absent : findNode s.classes cn = none) : L.room ⟨addClass cn n s.classes,made⟩ < L.room s := by
  apply Finset.card_lt_card
  rw [addClass_of_absent absent]
  refine ⟨fun name member => ?_,fun all => ?_⟩
  · simp only [Finset.mem_filter,findNode_cons] at member ⊢
    refine ⟨member.1,?_⟩
    by_cases same : cn = name
    · simp [same] at member
    · simpa [same] using member.2
  · have still := all (Finset.mem_filter.mpr ⟨candidate,absent⟩)
    simp [findNode_cons] at still

/-- The scan came to an end, and the table has grown within the limits. -/
def Through (L : Limits root classes level) (s : Mono) (result : Option Mono) : Prop :=
  ∃ next, result = some next ∧ Grown classes next ∧ L.room next ≤ L.room s

theorem Through.bind (first : L.Through s result)
    (rest : ∀ next, Grown classes next → L.room next ≤ L.room s → L.Through next (more next)) :
    L.Through s (result.bind more) := by
  obtain ⟨mid,is,grown,less⟩ := first
  obtain ⟨next,ended,grown',less'⟩ := rest mid grown less
  exact ⟨next,by simp [is,ended],grown',less'.trans less⟩

/-- The instantiation comes to an end as long as there is no more than that room. -/
def Serves (L : Limits root classes level) (room : Nat) (instantiate : Node → Ty → Mono → Option Mono) : Prop :=
  ∀ s d name args, Grown classes s → L.room s ≤ room → template classes name = some d →
    L.Fit (.apply name args) → L.Through s (instantiate d (.apply name args) s)

variable {instantiate : Node → Ty → Mono → Option Mono}

mutual

theorem scanType_through (serves : L.Serves r instantiate) (t : Ty) (fit : L.Fit t) (grown : Grown classes s)
    (less : L.room s ≤ r) : L.Through s (monoScanType instantiate t s) := by
  match t with
  | .name _ | .param _ => exact ⟨s,rfl,grown,le_rfl⟩
  | .apply name args =>
    refine Through.bind ?_ fun next grown' less' =>
      scanArgs_through serves args (fun a arg => fit.arg arg) grown' (less'.trans less)
    rw [grown.template_eq]
    cases is : template classes name with
    | none => exact ⟨s,rfl,grown,le_rfl⟩
    | some d => exact serves s d name args grown less is fit
  | .ptr inner => exact scanType_through serves inner (fit.under (.inl rfl)) grown less
  | .array inner => exact scanType_through serves inner (fit.under (.inr rfl)) grown less

theorem scanArgs_through (serves : L.Serves r instantiate) (ts : TyList) (fit : ∀ t ∈ ts.toList, L.Fit t)
    (grown : Grown classes s) (less : L.room s ≤ r) : L.Through s (monoScanArgs instantiate ts s) := by
  match ts with
  | .nil => exact ⟨s,rfl,grown,le_rfl⟩
  | .cons t next =>
    simp only [TyList.toList,forall_mem_cons] at fit
    exact Through.bind (scanType_through serves t fit.1 grown less) fun mid grown' less' =>
      scanArgs_through serves next fit.2 grown' (less'.trans less)

end

theorem scanNode_through (serves : L.Serves r instantiate) (n : Node) (fit : ∀ t ∈ scanned n, L.Fit t)
    (grown : Grown classes s) (less : L.room s ≤ r) : L.Through s (monoScanNode instantiate n s) := by
  induction n generalizing s with
  | nil => exact ⟨s,rfl,grown,le_rfl⟩
  | node type flags name typeinfo params left right next ihParams ihLeft ihRight ihNext =>
    unfold monoScanNode
    by_cases skipped : isTemplate type params
    · rw [if_pos skipped]
      exact ihNext (fun t stands => fit t (by simp [scanned,stands])) grown less
    rw [if_neg skipped]
    simp only [scanned,if_neg skipped,mem_append,or_imp,forall_and] at fit
    obtain ⟨⟨⟨⟨own,onParams⟩,onLeft⟩,onRight⟩,onNext⟩ := fit
    refine Through.bind ?_ fun a grownA lessA => Through.bind (ihParams onParams grownA (lessA.trans less))
      fun b grownB lessB => Through.bind (ihLeft onLeft grownB (by omega)) fun c grownC lessC =>
      Through.bind (ihRight onRight grownC (by omega)) fun d grownD lessD => ihNext onNext grownD (by omega)
    cases typeinfo with
    | none => exact ⟨s,rfl,grown,le_rfl⟩
    | some t => exact scanType_through serves t (own t (by simp)) grown less

theorem isTemplate_copy (b : Bindings) (type : NodeType) (params : Node) :
    isTemplate type (copyNodeSubst b params) = isTemplate type params := by
  cases params with
  | nil => rfl
  | node => cases type with
    | decl kind => cases kind <;> rfl
    | _ => rfl

theorem scanned_copy (b : Bindings) (n : Node) : scanned (copyNodeSubst b n) = (scanned n).map (typeSubst b) := by
  induction n with
  | nil => rfl
  | node type flags name typeinfo params left right next ihParams ihLeft ihRight ihNext =>
    rw [copyNodeSubst,scanned,scanned,isTemplate_copy,ihParams,ihLeft,ihRight,ihNext]
    cases typeinfo <;> split <;> simp

theorem scanned_retarget (tail cn : String) (n : Node) : scanned (retarget tail cn n) = scanned n := by
  induction n with
  | nil => rfl
  | node type flags name typeinfo params left right next _ _ _ ihNext => rw [retarget,scanned,scanned,ihNext]

theorem scanned_instance (tmpl : Node) (app : Ty) :
    scanned (instanceBody tmpl app) = (scanned tmpl.left).map (typeSubst (bindingsFor tmpl app)) := by
  cases tmpl with
  | nil => rfl
  | node => simp [instanceBody,scanned_retarget,scanned_copy,Node.left]

/-- Each nested instantiation has less room than the one around it. -/
theorem serves_instantiate (levelled : Levelled classes root level) (enough : r < fuel) :
    L.Serves r (monoInstantiate fuel) := by
  induction fuel generalizing r with
  | zero => omega
  | succ fuel ih =>
    intro s d name args grown less is fit
    unfold monoInstantiate
    split
    · exact ⟨s,rfl,grown,le_rfl⟩
    case isFalse present =>
      have absent : findNode s.classes (typeCname (.apply name args)) = none := by simpa using present
      have shrunk := room_added (instanceNode d (.apply name args))
        (s.instances ++ [typeCname (.apply name args)]) fit.candidate absent
      have body : ∀ t ∈ scanned (instanceBody d (.apply name args)), L.Fit t := by
        rw [scanned_instance]
        intro t member
        obtain ⟨u,stands,rfl⟩ := mem_map.mp member
        exact Fit.subst levelled fit is stands
      obtain ⟨next,ended,grown',less'⟩ := scanNode_through (ih (r := r - 1) (by omega)) _ body
        (grown.added absent (by cases d <;> rfl)) (Nat.le_sub_one_of_lt (shrunk.trans_le less))
      exact ⟨next,ended,grown',less'.trans shrunk.le⟩

end Limits

theorem findNode_mem (found : findNode classes name = some d) : (name,d) ∈ classes := by
  obtain ⟨⟨name',d'⟩,is,rfl⟩ := map_eq_some_iff.mp found
  have same : name' = name := by simpa using find?_some is
  exact same ▸ mem_of_find?_eq_some is

theorem limits_exist (root : Node) (classes : Classes) (level : String → String → Nat) :
    Nonempty (Limits root classes level) := by
  let all := scanned root ++ classes.flatMap fun c => scanned c.2.left
  let names := all.flatMap Ty.names
  let params := classes.flatMap fun c => c.2.params.names.map fun p => level c.1 p
  have sized : ∀ t ∈ all, Sized (names ++ names.map canonicalTypeName) (all.map Ty.width).sum
      (all.map Ty.height).sum t := by
    intro t member
    refine ⟨fun n occurs => mem_append_left _ (mem_flatMap.mpr ⟨t,member,occurs⟩),?_,?_⟩
    · exact le_sum_of_mem (mem_map_of_mem member)
    · exact le_sum_of_mem (mem_map_of_mem member)
  refine ⟨⟨_,_,_,params.sum,?_,fun t stands => sized t (mem_append_left _ stands),?_,?_⟩⟩
  · intro n known
    obtain own | image := mem_append.mp known
    · exact mem_append_right _ (mem_map_of_mem own)
    · obtain ⟨m,own,rfl⟩ := mem_map.mp image
      rw [canonicalTypeName_idem]
      exact known
  · intro name d found t stands
    exact sized t (mem_append_right _ (mem_flatMap.mpr ⟨_,findNode_mem found,stands⟩))
  · intro name d found p param
    refine le_sum_of_mem (mem_flatMap.mpr ⟨_,findNode_mem found,?_⟩)
    exact mem_map_of_mem param

/-- With levels for the parameters of the templates reached the pass makes finitely many instances and ends. -/
theorem monomorphisation_terminates (root : Node) (classes : Classes) (level : String → String → Nat)
    (levelled : Levelled classes root level) : Terminates root classes := by
  obtain ⟨L⟩ := limits_exist root classes level
  have start : Grown classes { classes } := ⟨fun _ _ found => found,fun _ _ found => .inl found⟩
  have serves := L.serves_instantiate levelled (Nat.lt_succ_self (L.room { classes }))
  obtain ⟨final,ended,-⟩ := Limits.scanNode_through serves root (fun _ stands => L.fit_root stands) start le_rfl
  exact ⟨_,final,fun _ le => scanNode_extends (instantiate_extends le) root ended⟩

end Ends

section Programs

/-- Names among which the applications in the program and in the templates of these names stay. -/
theorem levelled_of_closed (names : List String)
    (here : ∀ t ∈ scanned root, ∀ use ∈ uses classes t, use.name ∈ names)
    (within : ∀ c ∈ classes, c.1 ∈ names → ∀ t ∈ scanned c.2.left, ∀ use ∈ uses classes t,
      use.name ∈ names ∧ ∀ b ∈ use.bound, fits (level c.1) (level use.name b.1) b.2 = true) :
    Levelled classes root level := by
  have known : ∀ name, Reached classes root name → name ∈ names := by
    intro name reached
    induction reached with
    | root stands applied => exact here _ stands _ applied
    | body _ found stands applied known => exact (within _ (findNode_mem found) known _ stands _ applied).1
  intro name d reached found t stands use applied
  exact (within _ (findNode_mem found) (known name reached) t stands use applied).2

def classNode (name : String) (params : List String) (fields : List (String × Ty)) (next : Node) : Node :=
  .node (.decl .nClass) {} name none
    (params.foldr (fun p rest => .node .other {} p none .nil .nil .nil rest) .nil)
    (fields.foldr (fun f rest => .node (.field .prop) {} f.1 (some f.2) .nil .nil .nil rest) .nil) .nil next

def one (name : String) (arg : Ty) : Ty := .apply name (.cons arg .nil)

def two (name : String) (a b : Ty) : Ty := .apply name (.cons a (.cons b .nil))

/-- A pair that mentions its swapped self and boxes a list of one side, beside a template that no type needs. -/
def pairProgram : Node :=
  classNode "Nest" ["T"] [("inner",one "Nest" (one "List" (.param "T")))] <|
  classNode "Box" ["T"] [("value",.param "T")] <|
  classNode "Pair" ["A","B"] [("first",one "Box" (.param "A")),("second",one "Box" (one "List" (.param "B"))),
    ("swapped",two "Pair" (.param "B") (.param "A"))] <|
  classNode "Main" [] [("pair",two "Pair" (.name "int64") (one "Box" (.name "string")))] .nil

theorem pair_program_terminates : Terminates pairProgram (addClasses pairProgram []) :=
  monomorphisation_terminates pairProgram _ (fun c _ => if c = "Box" then 1 else 0)
    (levelled_of_closed ["Box","Pair"] (by decide) (by decide))

/-- A class that holds itself for lists of what it is for. -/
def nestTemplate : Node :=
  classNode "Nest" ["T"] [("inner",one "Nest" (one "List" (.param "T")))] .nil

def nestProgram : Node :=
  classNode "Nest" ["T"] [("inner",one "Nest" (one "List" (.param "T")))] <|
  classNode "Main" [] [("top",one "Nest" (.name "int64"))] .nil

def nested : Nat → Ty
  | 0 => .name "int64"
  | n+1 => one "List" (nested n)

theorem length_nested (n : Nat) : (typeCname (nested n)).length = 6 * n + 5 := by
  induction n with
  | zero => decide
  | succ n ih =>
    have own : (mangleName "List" ++ "__").length = 6 := by decide
    simp only [nested,one,typeCname,mangleList,String.length_append,ih] at own ⊢
    omega

theorem nest_longer (n : Nat) : 4 < (typeCname (one "Nest" (nested n))).length := by
  simp only [one,typeCname,mangleList,String.length_append,length_nested]
  omega

theorem nest_cname_injective (same : typeCname (one "Nest" (nested m)) = typeCname (one "Nest" (nested n))) :
    m = n := by
  have lengths := congrArg String.length same
  simp only [one,typeCname,mangleList,String.length_append,length_nested] at lengths
  omega

theorem scan_nest (out : instantiate nestTemplate (one "Nest" t) s = none)
    (known : findNode s.classes "Nest" = some nestTemplate) : monoScanType instantiate (one "Nest" t) s = none := by
  have generated : mangleSourceName "Nest" = "Nest" := by decide
  have is : template s.classes "Nest" = some nestTemplate := by
    unfold template
    rw [if_neg (by decide),generated,known]
    rfl
  simp only [one,monoScanType,is] at out ⊢
  rw [out]
  rfl

/-- Each instance asks for the next one before anything else. -/
theorem nest_runs_out (fuel n : Nat) (s : Mono) (known : findNode s.classes "Nest" = some nestTemplate)
    (ahead : ∀ m, n ≤ m → findNode s.classes (typeCname (one "Nest" (nested m))) = none) :
    monoInstantiate fuel nestTemplate (one "Nest" (nested n)) s = none := by
  induction fuel generalizing n s with
  | zero => rfl
  | succ fuel ih =>
    have absent := ahead n le_rfl
    have body : instanceBody nestTemplate (one "Nest" (nested n)) =
        .node (.field .prop) {} "inner" (some (one "Nest" (nested (n + 1)))) .nil .nil .nil .nil := rfl
    have apart : typeCname (one "Nest" (nested n)) ≠ "Nest" :=
      fun same => absurd (nest_longer n) (by rw [same]; decide)
    unfold monoInstantiate
    rw [if_neg (by simp [absent]),body,addClass_of_absent absent]
    simp only [monoScanNode,isTemplate,Bool.false_eq_true,if_false]
    have still : findNode ((typeCname (one "Nest" (nested n)),instanceNode nestTemplate (one "Nest" (nested n))) ::
        s.classes) "Nest" = some nestTemplate := by
      rw [findNode_cons,if_neg apart,known]
    have out := ih (n + 1) ⟨_,s.instances ++ [typeCname (one "Nest" (nested n))]⟩ still fun m le => by
      have other : typeCname (one "Nest" (nested n)) ≠ typeCname (one "Nest" (nested m)) := by
        intro same
        have := nest_cname_injective same
        omega
      rw [findNode_cons,if_neg other]
      exact ahead m (by omega)
    rw [scan_nest out still]
    rfl

theorem nest_accepted : Accepted bodyOk nestProgram where
  ends := ⟨1,by decide,by decide⟩
  valid := by decide
  selfFree := by decide
  bodies := by
    have none : ∀ c ∈ addClasses nestProgram [], c.2.left.bodies = [] := by decide
    intro c member d _ body inside
    simp [none c member] at inside

/-- The checker accepts a program for which the pass makes instance after instance. -/
theorem nested_instances_never_end :
    ¬∀ bodyOk root, Accepted bodyOk root → Terminates root (addClasses root []) := by
  intro always
  obtain ⟨fuel,final,ended⟩ := always (fun _ _ => true) nestProgram (nest_accepted)
  have known : findNode (addClasses nestProgram []) "Nest" = some nestTemplate := by decide
  have short : ∀ c ∈ addClasses nestProgram [], c.1.length = 4 := by decide
  have ahead : ∀ m, 0 ≤ m → findNode (addClasses nestProgram []) (typeCname (one "Nest" (nested m))) = none := by
    intro m _
    refine map_eq_none_iff.mpr (find?_eq_none.mpr fun c member same => ?_)
    have longer := nest_longer m
    rw [← eq_of_beq same,short c member] at longer
    exact Nat.lt_irrefl 4 longer
  have out := scan_nest (nest_runs_out fuel 0 { classes := addClasses nestProgram [] } known ahead) known
  have scanned : monomorphise fuel nestProgram (addClasses nestProgram []) = none := by
    unfold nestProgram at out ⊢
    simp only [monomorphise,classNode,List.foldr,monoScanNode,isTemplate,nested] at out ⊢
    simp [out]
  simp [ended fuel le_rfl] at scanned

end Programs

end Objective9c.Compiler.Ast
