import Mathlib.Data.Set.Finite.Lattice
import Mathlib.Data.Finite.Prod
import Objective9c.Compiler.Validate

/-! Sizes of types: how deep the applications nest, which names occur and how many arguments stand beside each
other. -/
namespace Objective9c.Compiler

open List

mutual

@[simp] def Ty.height : Ty → Nat
  | .name _ | .param _ => 0
  | .apply _ args => args.height + 1
  | .ptr base | .array base => base.height + 1

@[simp] def TyList.height : TyList → Nat
  | .nil => 0
  | .cons type next => max type.height next.height

end

mutual

@[simp] def Ty.names : Ty → List String
  | .name n | .param n => [n]
  | .apply n args => n :: args.names
  | .ptr base | .array base => base.names

@[simp] def TyList.names : TyList → List String
  | .nil => []
  | .cons type next => type.names ++ next.names

end

mutual

def Ty.params : Ty → List String
  | .name _ => []
  | .param n => [n]
  | .apply _ args => args.params
  | .ptr base | .array base => base.params

@[simp] def TyList.params : TyList → List String
  | .nil => []
  | .cons type next => type.params ++ next.params

end

mutual

/-- The largest number of arguments of an application. -/
def Ty.width : Ty → Nat
  | .name _ | .param _ => 0
  | .apply _ args => max args.toList.length args.width
  | .ptr base | .array base => base.width

def TyList.width : TyList → Nat
  | .nil => 0
  | .cons type next => max type.width next.width

end

section Substitution

variable {bindings : Bindings}

mutual

theorem height_subst (t : Ty) (low : ∀ n ∈ t.params, ∀ u, typeBindLookup bindings n = some u → u.height ≤ h) :
    (typeSubst bindings t).height ≤ t.height + h := by
  match t with
  | .name _ => simp [typeName]
  | .param n =>
    cases bound : typeBindLookup bindings n with
    | none => simp [bound]
    | some u => simpa [bound] using low n (by simp [Ty.params]) u bound
  | .apply _ args =>
    have args_low := height_substList args low
    simp only [typeSubst,typeApply,Ty.height]
    omega
  | .ptr base | .array base =>
    have base_low := height_subst base low
    simp only [typeSubst,Ty.height]
    omega

theorem height_substList (ts : TyList)
    (low : ∀ n ∈ ts.params, ∀ u, typeBindLookup bindings n = some u → u.height ≤ h) :
    (typeListSubst bindings ts).height ≤ ts.height + h := by
  match ts with
  | .nil => simp
  | .cons t next =>
    have first := height_subst t fun n occurs => low n (by simp [occurs])
    have rest := height_substList next fun n occurs => low n (by simp [occurs])
    simp only [typeListSubst,TyList.height]
    omega

end

mutual

theorem names_subst {names : List String} (t : Ty) (canonical : ∀ n ∈ names, canonicalTypeName n ∈ names)
    (known : t.names ⊆ names) (bound : ∀ n u, typeBindLookup bindings n = some u → u.names ⊆ names) :
    (typeSubst bindings t).names ⊆ names := by
  match t with
  | .name n => simpa [typeName] using canonical n (known (by simp))
  | .param n =>
    cases is : typeBindLookup bindings n with
    | none => simpa [is] using known
    | some u => simpa [is] using bound n u is
  | .apply n args =>
    have args_known : args.names ⊆ names := fun m occurs => known (by simp [occurs])
    have own := canonical n (known (by simp))
    simpa [typeApply,own] using names_substList args canonical args_known bound
  | .ptr base | .array base =>
    simpa using names_subst base canonical known bound

theorem names_substList {names : List String} (ts : TyList)
    (canonical : ∀ n ∈ names, canonicalTypeName n ∈ names) (known : ts.names ⊆ names)
    (bound : ∀ n u, typeBindLookup bindings n = some u → u.names ⊆ names) :
    (typeListSubst bindings ts).names ⊆ names := by
  match ts with
  | .nil => simp
  | .cons t next =>
    simp only [TyList.names,append_subset] at known
    simpa using
      ⟨names_subst t canonical known.1 bound,names_substList next canonical known.2 bound⟩

end

theorem toList_subst (bindings : Bindings) (ts : TyList) :
    (typeListSubst bindings ts).toList = ts.toList.map (typeSubst bindings) := by
  match ts with
  | .nil => rfl
  | .cons t next => simp [toList_subst bindings next]

mutual

theorem width_subst (t : Ty) (fits : t.width ≤ w)
    (bound : ∀ n u, typeBindLookup bindings n = some u → u.width ≤ w) : (typeSubst bindings t).width ≤ w := by
  match t with
  | .name _ => simp [typeName,Ty.width]
  | .param n =>
    cases is : typeBindLookup bindings n with
    | none => simp [is,Ty.width]
    | some u => simpa [is] using bound n u is
  | .apply _ args =>
    simp only [Ty.width,max_le_iff] at fits
    simp only [typeSubst,typeApply,Ty.width,toList_subst,length_map,max_le_iff]
    exact ⟨fits.1,width_substList args fits.2 bound⟩
  | .ptr base | .array base => simpa [Ty.width] using width_subst base fits bound

theorem width_substList (ts : TyList) (fits : ts.width ≤ w)
    (bound : ∀ n u, typeBindLookup bindings n = some u → u.width ≤ w) : (typeListSubst bindings ts).width ≤ w := by
  match ts with
  | .nil => simp [TyList.width]
  | .cons t next =>
    simp only [TyList.width,max_le_iff] at fits
    simp only [typeListSubst,TyList.width,max_le_iff]
    exact ⟨width_subst t fits.1 bound,width_substList next fits.2 bound⟩

end

end Substitution

section Arguments

theorem height_of_arg {args : TyList} (arg : a ∈ args.toList) : a.height ≤ args.height := by
  match args with
  | .nil => simp at arg
  | .cons t next =>
    obtain rfl | later : a = t ∨ a ∈ next.toList := by simpa using arg
    · simp
    · exact (height_of_arg later).trans (by simp)

theorem names_of_arg {args : TyList} (arg : a ∈ args.toList) : a.names ⊆ args.names := by
  match args with
  | .nil => simp at arg
  | .cons t next =>
    obtain rfl | later : a = t ∨ a ∈ next.toList := by simpa using arg
    · simp
    · exact List.Subset.trans (names_of_arg later) (by simp)

theorem width_of_arg {args : TyList} (arg : a ∈ args.toList) : a.width ≤ args.width := by
  match args with
  | .nil => simp at arg
  | .cons t next =>
    obtain rfl | later : a = t ∨ a ∈ next.toList := by simpa using arg
    · simp [TyList.width]
    · exact (width_of_arg later).trans (by simp [TyList.width])

end Arguments

section Finite

def Sized (names : List String) (width height : Nat) (t : Ty) : Prop :=
  t.names ⊆ names ∧ t.width ≤ width ∧ t.height ≤ height

theorem finite_lists {members : Set Ty} (finite : members.Finite) (length : Nat) :
    {ts : TyList | ts.toList.length ≤ length ∧ ∀ t ∈ ts.toList, t ∈ members}.Finite := by
  induction length with
  | zero =>
    refine (Set.finite_singleton TyList.nil).subset fun ts ⟨short,_⟩ => ?_
    cases ts with
    | nil => rfl
    | cons => simp at short
  | succ length ih =>
    have longer := finite.image2 TyList.cons ih
    refine ((Set.finite_singleton TyList.nil).union longer).subset fun ts ⟨short,all⟩ => ?_
    cases ts with
    | nil => exact .inl rfl
    | cons t next =>
      simp only [TyList.toList,length_cons,forall_mem_cons] at short all
      exact .inr ⟨t,all.1,next,⟨by omega,all.2⟩,rfl⟩

theorem finite_sized (names : List String) (width height : Nat) : {t | Sized names width height t}.Finite := by
  have known : {n | n ∈ names}.Finite := names.finite_toSet
  induction height with
  | zero =>
    refine ((known.image Ty.name).union (known.image Ty.param)).subset fun t ⟨within,_,flat⟩ => ?_
    cases t with
    | name n => exact .inl ⟨n,within (by simp),rfl⟩
    | param n => exact .inr ⟨n,within (by simp),rfl⟩
    | apply | ptr | array => simp at flat
  | succ height ih =>
    have applied := known.image2 Ty.apply (finite_lists ih width)
    have pointed := (ih.image Ty.ptr).union (ih.image Ty.array)
    have named := (known.image Ty.name).union (known.image Ty.param)
    refine (named.union (applied.union pointed)).subset fun t ⟨within,fits,low⟩ => ?_
    cases t with
    | name n => exact .inl (.inl ⟨n,within (by simp),rfl⟩)
    | param n => exact .inl (.inr ⟨n,within (by simp),rfl⟩)
    | apply n args =>
      simp only [Ty.names,cons_subset,Ty.width,max_le_iff,Ty.height,Nat.add_le_add_iff_right] at within fits low
      refine .inr (.inl ⟨n,within.1,args,⟨fits.1,fun a arg => ?_⟩,rfl⟩)
      exact ⟨List.Subset.trans (names_of_arg arg) within.2,(width_of_arg arg).trans fits.2,
        (height_of_arg arg).trans low⟩
    | ptr base =>
      exact .inr (.inr (.inl ⟨base,⟨within,fits,by simpa using low⟩,rfl⟩))
    | array base =>
      exact .inr (.inr (.inr ⟨base,⟨within,fits,by simpa using low⟩,rfl⟩))

end Finite

end Objective9c.Compiler
