import Objective9c.Filetree.Invariant

/-! `o9_filetree_apply_specs` against the specs applied one at a time. The batch works on
planned copies of the mount lists; its cycle check reads nothing that another spec of the
same batch changes, since all of them mount into one tree and the search stops there. -/
namespace Objective9c.Filetree

open List

/-- The directory a spec names and what it does to that directory's mount list. -/
def specChange (s : Store) (t : Addr) (spec : MountSpec) : Option (Addr × (List Mount → List Mount)) :=
  match ftTarget s t spec.target with
  | none => none
  | some target =>
    if spec.unmount then some (target,fun _ => [])
    else if spec.mode < 0 || spec.mode > 2 then none
    else match spec.source with
      | none => none
      | some id =>
        match ftResolve s id with
        | none => none
        | some source => some (target,addMount ⟨source,spec.mode⟩)

/-- What a spec applied alone adds, replaces or removes. -/
def applyAlone (s : Store) (t : Addr) (mounts : Addr → List Mount) (spec : MountSpec) :
    Addr → List Mount :=
  match specChange s t spec with
  | none => mounts
  | some (target,change) => fun e => if e = target then change (mounts e) else mounts e

/-- The specs in calls of their own, each with its allocations, as long as all succeed. -/
def applyOneByOne (caller t : Addr) : List (MountSpec × (Nat → Bool)) → Store → Option Store
  | [], s => some s
  | (spec,memory) :: rest, s =>
    let applied := filetreeApplySpecs s caller t (some [spec]) memory
    if applied.2 = 0 then applyOneByOne caller t rest applied.1 else none

/-- The mount list of `e` once the plans are committed. -/
def plannedAt (s : Store) (plans : List Plan) (e : Addr) : List Mount :=
  match ftPlanFor plans e with
  | some p => p.mounts
  | none => s.mountsAt e

section Plans

variable {s : Store} {t : Addr} {plans : List Plan}

theorem planSpec_eq (s : Store) (t : Addr) (plans : List Plan) (spec : MountSpec) :
    planSpec s t plans spec = (specChange s t spec).map fun change =>
      updatePlan (planTarget s plans change.1) change.1 change.2 := by
  unfold planSpec specChange
  cases ftTarget s t spec.target with
  | none => rfl
  | some =>
    dsimp only
    split
    · rfl
    split
    · rfl
    cases spec.source with
    | none => rfl
    | some id =>
      dsimp only
      cases ftResolve s id <;> rfl

theorem ftPlanFor_update (plans : List Plan) (target e : Addr) (change : List Mount → List Mount) :
    ftPlanFor (updatePlan plans target change) e = (ftPlanFor plans e).map fun p =>
      if e = target then { p with mounts := change p.mounts } else p := by
  induction plans with
  | nil => rfl
  | cons p plans ih =>
    simp only [ftPlanFor,updatePlan] at ih ⊢
    by_cases here : p.target = e
    · subst here
      by_cases same : p.target = target <;> simp [same]
    · by_cases same : p.target = target
      · subst same
        simpa [map_cons,find?_cons,here] using ih
      · simpa [map_cons,find?_cons,here,same] using ih

theorem plannedAt_update (s : Store) (plans : List Plan) (target e : Addr) (change : List Mount → List Mount) :
    plannedAt s (updatePlan (planTarget s plans target) target change) e =
      if e = target then change (plannedAt s plans e) else plannedAt s plans e := by
  unfold plannedAt planTarget
  rw [ftPlanFor_update]
  by_cases same : e = target
  · subst same
    cases planned : ftPlanFor plans e with
    | some => simp [planned]
    | none => simp [ftPlanFor]
  · cases known : ftPlanFor plans target with
    | some => cases ftPlanFor plans e <;> simp [same]
    | none =>
      have other : ftPlanFor (⟨target,s.mountsAt target⟩ :: plans) e = ftPlanFor plans e := by
        simp [ftPlanFor,Ne.symm same]
      simp only [other,same,↓reduceIte]
      cases ftPlanFor plans e <;> rfl

theorem plannedAt_planSpec (planned : planSpec s t plans spec = some plans') :
    plannedAt s plans' = applyAlone s t (plannedAt s plans) spec := by
  rw [planSpec_eq,Option.map_eq_some_iff] at planned
  obtain ⟨⟨target,change⟩,found,rfl⟩ := planned
  funext e
  rw [plannedAt_update]
  simp only [applyAlone,found]

theorem plannedAt_planSpecs (memory : Nat → Bool) (specs : List MountSpec) (i : Nat)
    (plans : List Plan) (planned : planSpecs s t memory i plans specs = some plans') :
    plannedAt s plans' = specs.foldl (applyAlone s t) (plannedAt s plans) := by
  induction specs generalizing i plans with
  | nil => cases planned; rfl
  | cons spec rest ih =>
    simp only [planSpecs] at planned
    split at planned
    · split at planned
      · contradiction
      next next one => rw [ih (i+1) next planned,plannedAt_planSpec one]; rfl
    · contradiction

theorem plannedMounts_eq (he : s.entries e = some x) : plannedMounts plans e x = plannedAt s plans e := by
  unfold plannedMounts plannedAt
  cases ftPlanFor plans e <;> simp [he]

/-- Planned lists belong to allocated directories, so committing them is what one reads. -/
theorem remounted_mountsAt (valid : PlansIn s t plans) (e : Addr) :
    (s.remounted plans).mountsAt e = plannedAt s plans e := by
  cases he : s.entries e with
  | some => simp [he,plannedMounts_eq he]
  | none =>
    have unplanned : ftPlanFor plans e = none := by
      simp only [ftPlanFor,find?_eq_none,beq_iff_eq]
      rintro p member rfl
      obtain ⟨x,hx,_⟩ := valid.inTree p member
      rw [he] at hx
      contradiction
    simp [he,plannedAt,unplanned]

end Plans

section Remounted

variable {s : Store} {t : Addr} {plans : List Plan}

theorem remounted_entries (e : Addr) :
    (s.remounted plans).entries e = (s.entries e).map fun x => { x with mounts := plannedMounts plans e x } :=
  rfl

theorem ftFind_remounted (dir : Addr) (name : Bytes) : ftFind (s.remounted plans) dir name = ftFind s dir name := by
  unfold ftFind
  rw [remounted_entries]
  cases s.entries dir with
  | none => rfl
  | some =>
    dsimp only [Option.map_some]
    split
    · congr 1
      funext e
      rw [remounted_entries]
      cases s.entries e <;> rfl
    · rfl

theorem isDir_remounted (e : Addr) : (s.remounted plans).isDir e = s.isDir e := by
  simp only [Store.isDir,remounted_entries]
  cases s.entries e <;> rfl

theorem ftTargetFrom_remounted (parts : List Bytes) (e : Addr) :
    ftTargetFrom (s.remounted plans) e parts = ftTargetFrom s e parts := by
  induction parts generalizing e with
  | nil => rfl
  | cons name rest ih => simp only [ftTargetFrom,ftFind_remounted,isDir_remounted,ih]

theorem specChange_remounted (spec : MountSpec) : specChange (s.remounted plans) t spec = specChange s t spec := by
  have target : ftTarget (s.remounted plans) t spec.target = ftTarget s t spec.target := by
    unfold ftTarget
    simp only [ftTargetFrom_remounted]
    rfl
  unfold specChange
  rw [target]
  rfl

theorem PlansIn.unplanned (valid : PlansIn s t plans) (he : s.entries e = some x) (other : x.tree ≠ t) :
    e ∉ plans.map Plan.target := by
  intro planned
  obtain ⟨p,member,rfl⟩ := mem_map.mp planned
  obtain ⟨y,hy,_,home⟩ := valid.inTree p member
  cases he.symm.trans hy
  exact other home

/-- The search for `t` stops at `t`, and the entries of every other tree are unplanned. -/
theorem ftReaches_remounted (wf : WellFormed s) (valid : PlansIn s t plans)
    (again : PlansIn s t later) (room : Nat) (tree : Addr) (seen : List Addr) :
    ftReaches (s.remounted plans) later t room tree seen = ftReaches s [] t room tree seen := by
  induction room generalizing tree seen with
  | zero => rfl
  | succ room ih =>
    simp only [ftReaches]
    split
    · rfl
    next other =>
      split
      · rfl
      have trees : (s.remounted plans).trees tree = s.trees tree := rfl
      rw [trees]
      cases ht : s.trees tree with
      | none => rfl
      | some node =>
        rw [Bool.eq_iff_iff,any_eq_true,any_eq_true]
        refine exists_congr fun e => and_congr_right fun member => ?_
        obtain ⟨x,he,home⟩ := wf.member tree node ht e member
        have elsewhere : x.tree ≠ t := home ▸ other
        have none : e ∉ ([] : List Plan).map Plan.target := not_mem_nil
        simp only [remounted_entries,he,Option.map_some,ih,
          plannedMounts_unplanned (valid.unplanned he elsewhere),
          plannedMounts_unplanned (again.unplanned he elsewhere),plannedMounts_unplanned none]

/-- The check a batch makes, in the store before it. -/
def Clear (s : Store) (t : Addr) (mounts : List Mount) : Prop :=
  ∀ m ∈ mounts, ftReaches s [] t 256 m.source [] = false

theorem remounted_self : s.remounted [] = s := by
  simp [plannedMounts,ftPlanFor]

theorem remounted_remounted (planned : ∀ e x, s.entries e = some x →
      plannedMounts later e { x with mounts := plannedMounts plans e x } = plannedMounts plans' e x) :
    (s.remounted plans).remounted later = s.remounted plans' := by
  simp only [Store.remounted,Option.map_map]
  congr
  funext e
  cases he : s.entries e with
  | none => rfl
  | some x => simp [planned e x he]

theorem empty_plansIn : PlansIn s t [] := ⟨by simp,by simp,by simp⟩

theorem filetreeApplySpecs_success (wf : WellFormed s) :
    filetreeApplySpecs s caller t (some specs) memory = (s',0) ↔
      ftOwned s caller t = true ∧ ∃ plans, planSpecs s t memory 0 [] specs = some plans ∧
        (∀ p ∈ plans, Clear s t p.mounts) ∧ s' = s.remounted plans := by
  unfold filetreeApplySpecs
  cases owned : ftOwned s caller t with
  | false => simp
  | true =>
    obtain ⟨tree,ht,_⟩ := ftOwned_tree owned
    simp only [Bool.not_true,Bool.false_eq_true,↓reduceIte,true_and]
    cases planned : planSpecs s t memory 0 [] specs with
    | none => simp
    | some plans =>
      have valid := planSpecs_plansIn wf ht memory specs 0 [] plans empty_plansIn planned
      have search (u : Addr) : ftReaches s plans t 256 u [] = ftReaches s [] t 256 u [] := by
        simpa only [remounted_self] using ftReaches_remounted wf empty_plansIn valid 256 u []
      simp only [search,commitPlans_eq s plans valid.once,Option.some.injEq,exists_eq_left']
      split
      next closes =>
        simp only [any_eq_true] at closes
        obtain ⟨p,hp,m,hm,reached⟩ := closes
        simp only [Prod.mk.injEq,Int.reduceNeg,Int.reduceEq,and_false,false_iff,not_and]
        intro clear
        rw [clear p hp m hm] at reached
        contradiction
      next opens =>
        simp only [any_eq_true,not_exists,not_and,Bool.not_eq_true] at opens
        simp only [Prod.mk.injEq,and_true]
        exact ⟨fun same => ⟨opens,same.symm⟩,fun both => both.2.symm⟩

theorem plannedAt_of_mem (valid : PlansIn s t plans) (member : p ∈ plans) :
    plannedAt s plans p.target = p.mounts := by
  have found : ftPlanFor plans p.target = some p := by
    have once := valid.once
    clear valid
    induction plans with
    | nil => contradiction
    | cons q plans ih =>
      rcases mem_cons.mp member with rfl | old
      · simp [ftPlanFor]
      · have other : q.target ≠ p.target := fun same =>
          (nodup_cons.mp once).1 (same ▸ mem_map_of_mem old)
        simpa [ftPlanFor,other] using ih old (nodup_cons.mp once).2
  simp [plannedAt,found]

theorem mem_planTarget (listed : e ∈ (planTarget s plans target).map Plan.target) (other : e ≠ target) :
    e ∈ plans.map Plan.target := by
  unfold planTarget at listed
  split at listed
  · exact listed
  · simpa [other] using listed

/-- One more spec of a batch, next to the same spec applied alone to what the batch would
have left so far. -/
theorem planSpec_of_alone (wf : WellFormed s) (ht : s.trees t = some tree) (valid : PlansIn s t plans)
    (clear : ∀ p ∈ plans, Clear s t p.mounts)
    (alone : filetreeApplySpecs (s.remounted plans) caller t (some [spec]) memory = (s',0)) :
    ∃ plans', planSpec s t plans spec = some plans' ∧ (∀ p ∈ plans', Clear s t p.mounts) ∧
      s' = s.remounted plans' := by
  have wf' : WellFormed (s.remounted plans) := wf.of_bare (remounted_bare s plans)
  obtain ⟨_,single,planned,cleared,rfl⟩ := (filetreeApplySpecs_success wf').mp alone
  obtain ⟨target,change,found,rfl⟩ : ∃ target change, specChange s t spec = some (target,change) ∧
      single = updatePlan (planTarget (s.remounted plans) [] target) target change := by
    simp only [planSpecs,planSpec_eq,specChange_remounted] at planned
    split at planned
    · cases found : specChange s t spec with
      | none => simp [found] at planned
      | some both => exact ⟨both.1,both.2,rfl,by simpa [found] using planned.symm⟩
    · contradiction
  have here (e : Addr) := plannedAt_update (s.remounted plans) [] target e change
  have there (e : Addr) := plannedAt_update s plans target e change
  have same (e : Addr) :
      plannedAt (s.remounted plans) (updatePlan (planTarget (s.remounted plans) [] target) target change) e =
        plannedAt s (updatePlan (planTarget s plans target) target change) e := by
    have start : plannedAt (s.remounted plans) [] e = plannedAt s plans e := remounted_mountsAt valid e
    rw [here,there,start]
  have planned' : planSpec s t plans spec =
      some (updatePlan (planTarget s plans target) target change) := by
    simp [planSpec_eq,found]
  have valid' := planSpec_plansIn wf ht valid planned'
  refine ⟨_,planned',?_,remounted_remounted fun e x he => ?_⟩
  · intro p member
    rw [← plannedAt_of_mem valid' member,there]
    split
    next touched =>
      -- the call of its own checked this list, in a store whose other trees are the same
      rw [touched]
      intro m listed
      rw [← ftReaches_remounted wf valid empty_plansIn 256 m.source []]
      refine cleared ⟨target,change ((s.remounted plans).mountsAt target)⟩ ?_ m ?_
      · simp [updatePlan,planTarget,ftPlanFor]
      · rwa [remounted_mountsAt valid]
    next other =>
      have listed : p.target ∈ (planTarget s plans target).map Plan.target := by
        rw [← updatePlan_targets _ target change]
        exact mem_map_of_mem member
      obtain ⟨q,hq,at'⟩ := mem_map.mp (mem_planTarget listed other)
      rw [← at',plannedAt_of_mem valid hq]
      exact clear q hq
  · refine (plannedMounts_eq ?_).trans ((same e).trans (plannedMounts_eq he).symm)
    rw [remounted_entries,he]
    rfl

theorem planSpecs_of_oneByOne (wf : WellFormed s) (ht : s.trees t = some tree) (memory : Nat → Bool)
    (calls : List (MountSpec × (Nat → Bool))) (i : Nat)
    (granted : ∀ j, i ≤ j → j < i + calls.length → memory j = true) (plans : List Plan)
    (valid : PlansIn s t plans) (clear : ∀ p ∈ plans, Clear s t p.mounts)
    (applied : applyOneByOne caller t calls (s.remounted plans) = some s') :
    ∃ plans', planSpecs s t memory i plans (calls.map Prod.fst) = some plans' ∧
      (∀ p ∈ plans', Clear s t p.mounts) ∧ s' = s.remounted plans' := by
  induction calls generalizing i plans with
  | nil => cases applied; exact ⟨plans,rfl,clear,rfl⟩
  | cons call rest ih =>
    obtain ⟨spec,own⟩ := call
    simp only [applyOneByOne] at applied
    generalize outcome : filetreeApplySpecs (s.remounted plans) caller t (some [spec]) own = result
      at applied
    obtain ⟨made,code⟩ := result
    split at applied
    next succeeded =>
      obtain rfl : code = 0 := succeeded
      obtain ⟨next,planned,cleared,rfl⟩ := planSpec_of_alone wf ht valid clear outcome
      obtain ⟨plans',rest',finished⟩ := ih (i+1)
        (fun j low high => granted j (by omega) (by simp only [length_cons]; omega)) next
        (planSpec_plansIn wf ht valid planned) cleared applied
      refine ⟨plans',?_,finished⟩
      simp only [map_cons,planSpecs,granted i (Nat.le_refl i) (by simp),↓reduceIte,planned]
      exact rest'
    next => contradiction

theorem oneByOne_owned (applied : applyOneByOne caller t (call :: rest) s = some s') :
    ftOwned s caller t = true := by
  simp only [applyOneByOne] at applied
  split at applied
  next succeeded =>
    cases owned : ftOwned s caller t with
    | true => rfl
    | false => simp [filetreeApplySpecs,owned] at succeeded
  next => contradiction

end Remounted

/-- A batch that fails changes no mount list, and one that succeeds leaves the fold of its
specs. -/
def AllOrNothing (s : Store) (caller t : Addr) (specs : Option (List MountSpec)) (memory : Nat → Bool) :
    Prop :=
  let applied := filetreeApplySpecs s caller t specs memory
  (applied.2 = 0 ∨ applied.2 = -1) ∧ (applied.2 = -1 → applied.1.mountsAt = s.mountsAt) ∧
    (applied.2 = 0 → ∃ list, specs = some list ∧
      applied.1.mountsAt = list.foldl (applyAlone s t) s.mountsAt)

/-- Calls of their own that all succeed leave what one batch of their specs leaves. -/
def SameAsOneByOne (s : Store) (caller t : Addr) (calls : List (MountSpec × (Nat → Bool)))
    (memory : Nat → Bool) : Prop :=
  (∀ i < calls.length, memory i = true) → ∀ s', applyOneByOne caller t calls s = some s' →
    filetreeApplySpecs s caller t (some (calls.map Prod.fst)) memory = (s',0)

theorem filetreeApplySpecs_outcome (s : Store) (caller t : Addr) (specs : Option (List MountSpec))
    (memory : Nat → Bool) : (∃ s', filetreeApplySpecs s caller t specs memory = (s',0)) ∨
      filetreeApplySpecs s caller t specs memory = (s,-1) := by
  fun_cases filetreeApplySpecs s caller t specs memory with
  | case5 => exact .inl ⟨_,rfl⟩
  | _ => exact .inr rfl

theorem filetreeApplySpecs_mountsAt (wf : WellFormed s)
    (applied : filetreeApplySpecs s caller t specs memory = (s',0)) :
    ∃ list, specs = some list ∧ s'.mountsAt = list.foldl (applyAlone s t) s.mountsAt := by
  cases specs with
  | none => cases applied
  | some list =>
    obtain ⟨owned,plans,planned,_,rfl⟩ := (filetreeApplySpecs_success wf).mp applied
    obtain ⟨tree,ht,_⟩ := ftOwned_tree owned
    have valid := planSpecs_plansIn wf ht memory list 0 [] plans empty_plansIn planned
    refine ⟨list,rfl,funext fun e => ?_⟩
    rw [remounted_mountsAt valid,plannedAt_planSpecs memory list 0 [] planned]
    rfl

/-- A batch is all or nothing, and does what its specs do one at a time; an empty batch needs
the caller to own the tree all the same. -/
theorem apply_specs_is_fold (reachable : Reachable s) (caller t : Addr) :
    (∀ specs memory, AllOrNothing s caller t specs memory) ∧
      ∀ calls memory, calls ≠ [] ∨ ftOwned s caller t = true → SameAsOneByOne s caller t calls memory := by
  have wf := reachable.wellFormed
  refine ⟨fun specs memory => ?_,fun calls memory owner granted s' applied => ?_⟩
  · rcases filetreeApplySpecs_outcome s caller t specs memory with ⟨s',applied⟩ | failed
    · refine ⟨.inl (by rw [applied]),by rw [applied]; nofun,fun _ => ?_⟩
      rw [applied]
      exact filetreeApplySpecs_mountsAt wf applied
    · exact ⟨.inr (by rw [failed]),fun _ => by rw [failed],by rw [failed]; nofun⟩
  · have owned : ftOwned s caller t = true := by
      rcases owner with some' | owned
      · obtain ⟨call,rest,rfl⟩ := exists_cons_of_ne_nil some'
        exact oneByOne_owned applied
      · exact owned
    obtain ⟨tree,ht,_⟩ := ftOwned_tree owned
    rw [← remounted_self (s := s)] at applied
    obtain ⟨plans,planned,clear,same⟩ := planSpecs_of_oneByOne wf ht memory calls 0
      (fun j _ high => granted j (by simpa using high)) [] empty_plansIn (by simp) applied
    exact (filetreeApplySpecs_success wf).mpr ⟨owned,plans,planned,clear,same⟩

def registeredPair : List Op :=
  [.new 7 1 2 true,.new 7 3 4 true,.register 7 3 (some [98]) true true]

def twoMounts : List (MountSpec × (Nat → Bool)) :=
  [(⟨some [46],some [98],2,false⟩,fun _ => true),(⟨some [46],some [98],1,false⟩,fun _ => true)]

theorem twoMounts_fold : ∃ s, Transition.run step registeredPair Store.empty = some s ∧
    AllOrNothing s 7 1 (some (twoMounts.map Prod.fst)) (fun _ => true) ∧
    SameAsOneByOne s 7 1 twoMounts (fun _ => true) ∧
    (applyOneByOne 7 1 twoMounts s).map (fun s' => s'.mountsAt 2) = some [⟨3,1⟩,⟨3,2⟩] :=
  ⟨_,rfl,(apply_specs_is_fold ⟨registeredPair,rfl⟩ 7 1).1 _ _,
    (apply_specs_is_fold ⟨registeredPair,rfl⟩ 7 1).2 _ _ (.inl nofun),by decide⟩

/-- No spec is no call, which cannot fail, but an empty batch on the tree of another actor does. -/
theorem empty_batch_refused : ¬∀ s, Reachable s → ∀ caller t,
    (∀ specs memory, AllOrNothing s caller t specs memory) ∧
      ∀ calls memory, SameAsOneByOne s caller t calls memory := by
  intro all
  obtain ⟨s,ran,refused⟩ : ∃ s, Transition.run step registeredPair Store.empty = some s ∧
      (filetreeApplySpecs s 8 1 (some []) (fun _ => true)).2 = -1 := ⟨_,rfl,by decide⟩
  have batch := (all s ⟨registeredPair,ran⟩ 8 1).2 [] (fun _ => true) (by simp) s rfl
  rw [List.map_nil] at batch
  rw [batch] at refused
  contradiction

end Objective9c.Filetree
