import Objective9c.Filetree.Store

/-! What one operation can do to the store (`Change`), and the representation invariant
every reachable store keeps (`WellFormed`). -/
namespace Objective9c.Filetree

open List

structure WellFormed (s : Store) : Prop where
  nilEntry : s.entries nil = none
  nilTree : s.trees nil = none
  root : ∀ t tree, s.trees t = some tree → tree.root ∈ tree.all ∧ s.isDir tree.root = true
  member : ∀ t tree, s.trees t = some tree → ∀ e ∈ tree.all,
    ∃ x, s.entries e = some x ∧ x.tree = t
  home : ∀ e x, s.entries e = some x → ∃ tree, s.trees x.tree = some tree ∧ e ∈ tree.all
  child : ∀ d x, s.entries d = some x → ∀ b, ∀ c ∈ x.buckets b,
    ∃ y, s.entries c = some y ∧ y.removed = false ∧ ftBucket y.name = b ∧ y.tree = x.tree ∧
      y.parent = d
  /-- One name occurs at most once in a chain. -/
  names : ∀ d x, s.entries d = some x → ∀ b, (x.buckets b).Pairwise fun c c' =>
    ∀ y y', s.entries c = some y → s.entries c' = some y' → y.name ≠ y'.name

theorem empty_wellFormed : WellFormed Store.empty := by
  constructor <;> simp [Store.empty]

section

variable (s : Store)

@[simp] theorem setEntry_entries (a b : Addr) (e : Entry) :
    (s.setEntry a e).entries b = if b = a then some e else s.entries b := rfl

@[simp] theorem setEntry_trees (a : Addr) (e : Entry) : (s.setEntry a e).trees = s.trees := rfl

@[simp] theorem setEntry_sources (a : Addr) (e : Entry) : (s.setEntry a e).sources = s.sources := rfl

@[simp] theorem setEntry_treeList (a : Addr) (e : Entry) : (s.setEntry a e).treeList = s.treeList := rfl

@[simp] theorem setTree_entries (a : Addr) (t : FileTree) : (s.setTree a t).entries = s.entries := rfl

@[simp] theorem setTree_trees (a b : Addr) (t : FileTree) :
    (s.setTree a t).trees b = if b = a then some t else s.trees b := rfl

@[simp] theorem setTree_sources (a : Addr) (t : FileTree) : (s.setTree a t).sources = s.sources := rfl

@[simp] theorem setTree_treeList (a : Addr) (t : FileTree) : (s.setTree a t).treeList = s.treeList := rfl

end

theorem ftFind_some (found : ftFind s dir name = some e) :
    ∃ d x, s.entries dir = some d ∧ d.kind = .dir ∧ e ∈ d.buckets (ftBucket name) ∧
      s.entries e = some x ∧ x.removed = false ∧ x.name = name := by
  revert found
  fun_cases ftFind s dir name with
  | case2 d hd isDir =>
    intro found
    have test := find?_some found
    cases hx : s.entries e with
    | none => simp [hx] at test
    | some x =>
      simp only [hx,Bool.and_eq_true,Bool.not_eq_true',beq_iff_eq] at test
      exact ⟨d,x,hd,isDir,mem_of_find?_eq_some found,rfl,test⟩
  | _ => nofun

theorem ftFind_none (missing : ftFind s dir name = none) (hd : s.entries dir = some d)
    (isDir : d.kind = .dir) (member : e ∈ d.buckets (ftBucket name)) (he : s.entries e = some x)
    (present : x.removed = false) : x.name ≠ name := by
  intro same
  simp only [ftFind,hd,isDir,↓reduceIte,find?_eq_none] at missing
  have := missing e member
  simp [he,present,same] at this

theorem isDir_iff {s : Store} : s.isDir a = true ↔ ∃ x, s.entries a = some x ∧ x.kind = .dir := by
  cases h : s.entries a <;> simp [Store.isDir,h]

/-- `a` is a directory of the tree `t`. -/
def Store.DirIn (s : Store) (t a : Addr) : Prop :=
  ∃ x, s.entries a = some x ∧ x.kind = .dir ∧ x.tree = t

variable (wf : WellFormed s)
include wf

theorem rootOf_dirIn (ht : s.trees t = some tree) : s.DirIn t (s.rootOf t) := by
  obtain ⟨member,isDir⟩ := wf.root t tree ht
  obtain ⟨x,hx,inTree⟩ := wf.member t tree ht tree.root member
  obtain ⟨y,hy,dir⟩ := isDir_iff.mp isDir
  cases hx.symm.trans hy
  exact ⟨x,by simpa [ht] using hx,dir,inTree⟩

theorem ftFind_dirIn (found : ftFind s dir name = some child)
    (start : s.DirIn t dir) (isDir : s.isDir child = true) : s.DirIn t child := by
  obtain ⟨d,hd,_,inTree⟩ := start
  obtain ⟨d',x,hd',_,member,_,_,_⟩ := ftFind_some found
  cases hd.symm.trans hd'
  obtain ⟨y,hy,_,_,same,_⟩ := wf.child dir d hd _ child member
  obtain ⟨z,hz,kind⟩ := isDir_iff.mp isDir
  cases hy.symm.trans hz
  exact ⟨y,hy,kind,same.trans inTree⟩

theorem ftParentFrom_dirIn (parts : List Bytes) (dir : Addr)
    (start : s.DirIn t dir) (resolved : ftParentFrom s dir parts = some (parent,leaf)) :
    s.DirIn t parent ∧ ftNameOk leaf = true ∧ (dir = parent ∨ ∃ x, s.entries parent = some x ∧ x.removed = false) := by
  fun_induction ftParentFrom s dir parts with
  | case2 dir leaf ok =>
    cases resolved
    exact ⟨start,ok,.inl rfl⟩
  | case5 dir name rest _ ok child found isDir ih =>
    obtain ⟨inTree,leafOk,shown⟩ := ih (ftFind_dirIn wf found start isDir) resolved
    refine ⟨inTree,leafOk,.inr ?_⟩
    rcases shown with rfl | shown
    · obtain ⟨_,x,_,_,_,hx,present,_⟩ := ftFind_some found
      exact ⟨x,hx,present⟩
    · exact shown
  | _ => contradiction

theorem ftParent_dirIn (ht : s.trees t = some tree)
    (resolved : ftParent s t path = some (parent,leaf)) : s.DirIn t parent ∧ ftNameOk leaf = true ∧
      (s.rootOf t = parent ∨ ∃ x, s.entries parent = some x ∧ x.removed = false) := by
  unfold ftParent at resolved
  split at resolved
  · contradiction
  · exact ftParentFrom_dirIn wf _ _ (rootOf_dirIn wf ht) resolved

theorem ftTargetFrom_dirIn (parts : List Bytes) (e : Addr)
    (start : s.DirIn t e) (resolved : ftTargetFrom s e parts = some target) :
    s.DirIn t target := by
  fun_induction ftTargetFrom s e parts with
  | case1 =>
    cases resolved
    exact start
  | case3 e name rest ok child found isDir ih => exact ih (ftFind_dirIn wf found start isDir) resolved
  | _ => contradiction

theorem ftTarget_dirIn (ht : s.trees t = some tree)
    (resolved : ftTarget s t path = some target) : s.DirIn t target := by
  revert resolved
  fun_cases ftTarget s t path with
  | case3 =>
    rintro ⟨⟩
    exact rootOf_dirIn wf ht
  | case4 => exact ftTargetFrom_dirIn wf _ _ (rootOf_dirIn wf ht)
  | _ => nofun

omit wf

/-- The store after `ftEntry` linked `e` under a directory `p` of the tree. -/
@[simp] def Store.linked (s : Store) (t parent entry : Addr) (tree : FileTree) (p e : Entry) : Store :=
  { entries := fun a => if a = parent then some (p.pushBucket (ftBucket e.name) entry)
      else if a = entry then some e else s.entries a
    trees := fun a => if a = t then some { tree with all := entry :: tree.all } else s.trees a
    treeList := s.treeList
    sources := s.sources
    nextId := (s.nextId + 1) % 2^64 }

/-- The store after `ftEntry` made the root of a tree that has no entry yet. -/
@[simp] def Store.planted (s : Store) (caller t entry : Addr) (e : Entry) : Store :=
  { entries := fun a => if a = entry then some e else s.entries a
    trees := fun a => if a = t then some ⟨caller,true,entry,[entry]⟩ else s.trees a
    treeList := t :: s.treeList
    sources := s.sources
    nextId := (s.nextId + 1) % 2^64 }

/-- The store after the plans' mount lists took effect. -/
@[simp] def Store.remounted (s : Store) (plans : List Plan) : Store :=
  { s with
    entries := fun a => (s.entries a).map fun x => { x with mounts := plannedMounts plans a x } }

/-- Everything one operation can do, with what it has checked before. -/
inductive Change (s : Store) : Store → Prop where
  | same : Change s s
  | plant (caller t entry : Addr) (e : Entry) : t ≠ nil → entry ≠ nil → s.trees t = none →
      s.entries entry = none → e.kind = .dir → e.removed = false → e.tree = t → e.mounts = [] →
      (∀ b, e.buckets b = []) → e.parent = nil → e.id = s.nextId → Change s (s.planted caller t entry e)
  | link (t parent entry : Addr) (tree : FileTree) (p e : Entry) : entry ≠ nil →
      s.entries entry = none → s.trees t = some tree → s.entries parent = some p →
      p.kind = .dir → p.tree = t → ftFind s parent e.name = none →
      e.removed = false → e.tree = t → e.parent = parent → e.mounts = [] →
      (∀ b, e.buckets b = []) → ftNameOk e.name = true → e.id = s.nextId →
      (p.removed = false ∨ tree.root = parent) → Change s (s.linked t parent entry tree p e)
  | write (e : Addr) (old : Entry) (data : Option Bytes) (writable : Bool) :
      s.entries e = some old → Change s (s.setEntry e { old with data, writable })
  | unlink (parent e : Addr) (name : Bytes) (old : Entry) : s.entries e = some old →
      ftFind s parent name = some e → (∀ i < ftBuckets, old.buckets i = []) →
      Change s (s.unlink parent e name old)
  | revoke (t : Addr) (tree : FileTree) : s.trees t = some tree →
      Change s { s.setTree t { tree with alive := false } with
        sources := s.sources.filter (·.tree != t) }
  | register (id : Bytes) (t : Addr) (tree : FileTree) : s.trees t = some tree →
      tree.alive = true → (∀ src ∈ s.sources, src.id ≠ id) →
      Change s { s with sources := ⟨id,t⟩ :: s.sources }
  | mount (t : Addr) (tree : FileTree) (plans : List Plan) : s.trees t = some tree →
      (∀ p ∈ plans, s.DirIn t p.target) →
      (∀ p ∈ plans, ∀ m ∈ p.mounts, ftReaches s plans t 256 m.source [] = false) →
      (∀ p ∈ plans, ∀ m ∈ p.mounts, m ∈ s.mountsAt p.target ∨ ∃ id, ftResolve s id = some m.source) →
      Change s (s.remounted plans)
  | destroy (t : Addr) (tree : FileTree) : s.trees t = some tree → tree.alive = false →
      (∀ src ∈ s.sources, src.tree ≠ t) →
      (∀ other ∈ s.treeList, other ≠ t → ∀ m ∈ s.mountsOf other, m.source ≠ t) →
      t ∈ s.treeList →
      Change s { s with
        entries := fun a => if a ∈ tree.all then none else s.entries a
        trees := fun a => if a = t then none else s.trees a
        treeList := s.treeList.erase t }

theorem allocates_entry {s : Store} (answer : s.allocates a = true) (got : a ≠ nil) :
    s.entries a = none ∧ s.trees a = none := by
  simpa [Store.allocates,got] using answer

theorem ftEntry_some (made : ftEntry s t parent name kind data writable entry strdup = some s')
    (ht : s.trees t = some tree) : entry ≠ nil ∧
      s' = Store.pushBucket ⟨((s.setEntry entry (s.newEntry t parent name kind data writable)).entries),
        (s.setTree t { tree with all := entry :: tree.all }).trees,s.treeList,s.sources,
        (s.nextId + 1) % 2^64⟩ parent (ftBucket name) entry := by
  unfold ftEntry at made
  split at made
  · contradiction
  next ok =>
    simp only [ht,Option.some.injEq] at made
    refine ⟨?_,made.symm⟩
    intro isNil
    simp [isNil] at ok

theorem filetreeNew_change (freshTree : s.allocates tree = true)
    (freshEntry : s.allocates entry = true) :
    Change s (filetreeNew s caller tree entry strdup).1 := by
  unfold filetreeNew
  split
  · exact .same
  next treeOk =>
    dsimp only
    split
    · exact .same
    next made h =>
      obtain ⟨entryOk,rfl⟩ := ftEntry_some h (if_pos rfl)
      have result := Change.plant (s := s) caller tree entry
        (s.newEntry tree nil [46] .dir none false) treeOk entryOk
        (allocates_entry freshTree treeOk).2 (allocates_entry freshEntry entryOk).1
        rfl rfl rfl rfl (fun _ => rfl) rfl rfl
      convert result using 1
      simp only [Store.pushBucket,↓reduceIte,Store.planted,Store.setEntry,Store.setTree,
        Store.newEntry,Store.mk.injEq,true_and,and_true]
      funext b
      by_cases same : b = tree <;> simp [same]

theorem ftEntry_change (wf : WellFormed s) (freshEntry : s.allocates entry = true)
    (ht : s.trees t = some tree) (start : s.DirIn t parent)
    (missing : ftFind s parent name = none) (ok : ftNameOk name = true)
    (shown : s.rootOf t = parent ∨ ∃ x, s.entries parent = some x ∧ x.removed = false)
    (made : ftEntry s t parent name kind data writable entry strdup = some s') : Change s s' := by
  obtain ⟨entryOk,rfl⟩ := ftEntry_some made ht
  obtain ⟨p,hp,isDir,inTree⟩ := start
  have unused := (allocates_entry freshEntry entryOk).1
  have apart : parent ≠ entry := by rintro rfl; simp [hp] at unused
  have parentOk : parent ≠ nil := by rintro rfl; simp [wf.nilEntry] at hp
  have shown : p.removed = false ∨ tree.root = parent := by
    rcases shown with root | ⟨x,hx,present⟩
    · exact .inr (by simpa [ht] using root)
    · cases hp.symm.trans hx
      exact .inl present
  have result := Change.link t parent entry tree p (s.newEntry t parent name kind data writable)
    entryOk unused ht hp isDir inTree missing rfl rfl rfl rfl (fun _ => rfl) ok rfl shown
  convert result using 1
  simp [Store.pushBucket,parentOk,Store.setTree,Store.setEntry,apart,hp,Store.newEntry]

theorem ftOwned_tree (owned : ftOwned s caller t = true) :
    ∃ tree, s.trees t = some tree ∧ tree.alive = true := by
  cases h : s.trees t with
  | none => simp [ftOwned,h] at owned
  | some tree =>
    simp only [ftOwned,h,Bool.and_eq_true] at owned
    exact ⟨tree,rfl,owned.1⟩

theorem ftPut_change (wf : WellFormed s) (freshEntry : s.allocates memory.entry = true) :
    Change s (ftPut s caller t path kind data writable memory).1 := by
  fun_cases ftPut s caller t path kind data writable memory with
  | case5 path ok parent leaf resolved missing made h =>
    simp only [Bool.or_eq_true,not_or,Bool.not_eq_true',Bool.not_eq_false] at ok
    obtain ⟨tree,ht,_⟩ := ftOwned_tree ok.1.1
    obtain ⟨start,leafOk,shown⟩ := ftParent_dirIn wf ht resolved
    exact ftEntry_change wf freshEntry ht start missing leafOk shown h
  | case9 path ok parent leaf resolved e found old ho => exact .write e old data writable ho
  | _ => exact .same

theorem filetreeRemove_change : Change s (filetreeRemove s caller t path copied).1 := by
  fun_cases filetreeRemove s caller t path copied with
  | case6 path _ parent leaf _ e found old ho empty =>
    refine .unlink parent e leaf old ho found ?_
    intro i inside
    simpa using all_eq_true.mp empty i (mem_range.mpr inside)
  | _ => exact .same

theorem filetreeRevoke_change : Change s (filetreeRevoke s t) := by
  unfold filetreeRevoke
  split
  · exact .same
  next tree ht => exact .revoke t tree ht

theorem filetreeRegister_change {id : Option Bytes} :
    Change s (filetreeRegister s caller t id copied made).1 := by
  fun_cases filetreeRegister s caller t id copied made with
  | case6 id name owned _ _ unused =>
    simp only [Bool.or_eq_true,not_or,Bool.not_eq_true',Bool.not_eq_false] at owned
    obtain ⟨tree,ht,alive⟩ := ftOwned_tree owned.1
    exact .register (cstr id) t tree ht alive (by simpa using unused)
  | _ => exact .same

theorem filetreeDestroy_change : Change s (filetreeDestroy s caller t).1 := by
  fun_cases filetreeDestroy s caller t with
  | case6 tree ht closed unregistered unmounted listed =>
    simp only [Bool.or_eq_true,not_or] at closed
    refine .destroy t tree ht ?_ ?_ ?_ (by simpa using listed)
    · simpa using closed.2
    · simpa using unregistered
    · simpa using unmounted
  | _ => exact .same

/-- Planning only ever touches directories of the tree it is called on, each once, and mounts what it has resolved. -/
structure PlansIn (s : Store) (t : Addr) (plans : List Plan) : Prop where
  inTree : ∀ p ∈ plans, s.DirIn t p.target
  once : (plans.map Plan.target).Nodup
  sources : ∀ p ∈ plans, ∀ m ∈ p.mounts, m ∈ s.mountsAt p.target ∨ ∃ id, ftResolve s id = some m.source

theorem updatePlan_targets (plans : List Plan) (target : Addr) (change : List Mount → List Mount) :
    (updatePlan plans target change).map Plan.target = plans.map Plan.target := by
  simp only [updatePlan,map_map]
  apply map_congr_left
  intro p _
  by_cases same : p.target = target <;> simp [same]

theorem PlansIn.update (valid : PlansIn s t plans) (target : Addr)
    (changed : ∀ mounts, ∀ m ∈ change mounts, m ∈ mounts ∨ ∃ id, ftResolve s id = some m.source) :
    PlansIn s t (updatePlan plans target change) := by
  refine ⟨?_,by rw [updatePlan_targets]; exact valid.once,?_⟩
  · intro p member
    obtain ⟨q,hq,rfl⟩ := mem_map.mp member
    split <;> exact valid.inTree q hq
  · intro p member m listed
    obtain ⟨q,hq,rfl⟩ := mem_map.mp member
    split at listed
    next here =>
      rw [if_pos here]
      rcases changed _ m listed with old | new
      · exact valid.sources q hq m old
      · exact .inr new
    next other =>
      rw [if_neg other]
      exact valid.sources q hq m listed

theorem PlansIn.target {target : Addr} (valid : PlansIn s t plans) (inTree : s.DirIn t target) :
    PlansIn s t (planTarget s plans target) := by
  unfold planTarget
  split
  · exact valid
  next unplanned =>
    refine ⟨forall_mem_cons.mpr ⟨inTree,valid.inTree⟩,?_,forall_mem_cons.mpr ⟨fun m => .inl,valid.sources⟩⟩
    refine nodup_cons.mpr ⟨?_,valid.once⟩
    intro again
    obtain ⟨q,hq,same⟩ := mem_map.mp again
    simp only [ftPlanFor,find?_eq_none,beq_iff_eq] at unplanned
    exact unplanned q hq same

theorem addMount_mem (member : m ∈ addMount new mounts) : m ∈ mounts ∨ m = new := by
  unfold addMount at member
  dsimp only at member
  have kept : ∀ m ∈ (if new.mode = 0 then [] else mounts), m ∈ mounts := by
    intro m listed
    split at listed
    · contradiction
    · exact listed
  split at member
  · rcases mem_cons.mp member with same | listed
    · exact .inr same
    · exact .inl (kept m listed)
  · rcases mem_append.mp member with listed | same
    · exact .inl (kept m listed)
    · exact .inr (mem_singleton.mp same)

theorem planSpec_plansIn (wf : WellFormed s) (ht : s.trees t = some tree)
    (valid : PlansIn s t plans) (planned : planSpec s t plans spec = some plans') :
    PlansIn s t plans' := by
  revert planned
  fun_cases planSpec s t plans spec with
  | case2 target resolved =>
    rintro ⟨⟩
    exact (valid.target (ftTarget_dirIn wf ht resolved)).update _ nofun
  | case6 target resolved _ _ _ id _ source found =>
    rintro ⟨⟩
    refine (valid.target (ftTarget_dirIn wf ht resolved)).update _ ?_
    intro mounts m member
    rcases addMount_mem member with old | rfl
    · exact .inl old
    · exact .inr ⟨id,found⟩
  | _ => nofun

theorem planSpecs_plansIn (wf : WellFormed s) (ht : s.trees t = some tree)
    (memory : Nat → Bool) (specs : List MountSpec) (i : Nat) (plans plans' : List Plan)
    (valid : PlansIn s t plans) (planned : planSpecs s t memory i plans specs = some plans') :
    PlansIn s t plans' := by
  fun_induction planSpecs s t memory i plans specs with
  | case1 =>
    cases planned
    exact valid
  | case3 i plans spec rest _ mid one ih => exact ih (planSpec_plansIn wf ht valid one) planned
  | _ => contradiction

theorem plannedMounts_cons (p : Plan) (plans : List Plan) (a : Addr) (x : Entry) :
    plannedMounts (p :: plans) a x = if p.target = a then p.mounts else plannedMounts plans a x := by
  by_cases same : p.target = a <;> simp [plannedMounts,ftPlanFor,same]

theorem plannedMounts_unplanned (absent : a ∉ plans.map Plan.target) (x : Entry) :
    plannedMounts plans a x = x.mounts := by
  have none : ftPlanFor plans a = none := by
    simp only [ftPlanFor,find?_eq_none,beq_iff_eq]
    intro p member same
    exact absent (mem_map.mpr ⟨p,member,same⟩)
  simp [plannedMounts,none]

theorem setMounts_eq (s : Store) (target : Addr) (mounts : List Mount) :
    s.setMounts target mounts = { s with
      entries := fun a => (s.entries a).map fun x =>
        { x with mounts := if target = a then mounts else x.mounts } } := by
  obtain ⟨entries,trees,treeList,sources,nextId⟩ := s
  unfold Store.setMounts
  split
  next h =>
    congr
    funext a
    by_cases same : target = a
    · subst same
      dsimp only at h
      simp [h]
    · simp [same]
  next e h =>
    simp only [Store.setEntry]
    congr
    funext a
    by_cases same : target = a
    · subst same
      dsimp only at h
      simp [h]
    · simp [same,Ne.symm same]

/-- With one plan a directory, committing them one by one is committing them at once. -/
theorem commitPlans_eq (s : Store) (plans : List Plan) (once : (plans.map Plan.target).Nodup) :
    commitPlans s plans = s.remounted plans := by
  induction plans generalizing s with
  | nil => simp [commitPlans,plannedMounts,ftPlanFor]
  | cons p plans ih =>
    have absent : p.target ∉ plans.map Plan.target := (nodup_cons.mp once).1
    change commitPlans (s.setMounts p.target p.mounts) plans = _
    rw [ih _ (nodup_cons.mp once).2,setMounts_eq]
    simp only [Store.remounted,Option.map_map]
    congr
    funext a
    congr
    funext x
    simp only [Function.comp,plannedMounts_cons]
    by_cases same : p.target = a
    · subst same
      simp [plannedMounts_unplanned absent]
    · simp only [same,↓reduceIte]

theorem filetreeApplySpecs_change (wf : WellFormed s) :
    Change s (filetreeApplySpecs s caller t specs memory).1 := by
  fun_cases filetreeApplySpecs s caller t specs memory with
  | case5 specs owned plans planned acyclic =>
    obtain ⟨tree,ht,_⟩ := ftOwned_tree (by simpa using owned)
    have valid := planSpecs_plansIn wf ht memory specs 0 [] plans ⟨by simp,by simp,by simp⟩ planned
    rw [commitPlans_eq s plans valid.once]
    exact .mount t tree plans ht valid.inTree (by simpa using acyclic) valid.sources
  | _ => exact .same

/-- One inversion for all operations: later invariants only look at `Change`. -/
theorem step_change (wf : WellFormed s) (stepped : step op s = some s') : Change s s' := by
  cases op <;> simp only [step] at stepped <;> split at stepped <;>
    first | contradiction | skip
  all_goals
    rename_i ok
    cases stepped
    try simp only [Bool.and_eq_true] at ok
  case new => exact filetreeNew_change ok.1 ok.2
  case dir => exact ftPut_change wf ok.2
  case text => exact ftPut_change wf ok.2
  case live => exact ftPut_change wf ok.2
  case remove => exact filetreeRemove_change
  case register => exact filetreeRegister_change
  case applySpecs => exact filetreeApplySpecs_change wf
  case revoke => exact filetreeRevoke_change
  case close =>
    unfold filetreeClose
    split
    · exact filetreeRevoke_change
    · exact .same
  case destroy => exact filetreeDestroy_change

/-- What the invariant looks at: no data and no mounts, and of a tree its root and its entries. -/
def Store.bare (s : Store) : Store where
  entries a := (s.entries a).map fun x => { x with id := 0, data := none, writable := false, mounts := [] }
  trees t := (s.trees t).map fun tree => { tree with owner := nil, alive := false }
  treeList := []
  sources := []
  nextId := 0

theorem bare_isDir (s : Store) (a : Addr) : s.bare.isDir a = s.isDir a := by
  cases h : s.entries a <;> simp [Store.isDir,Store.bare,h]

theorem bare_names (s : Store) (c c' : Addr) :
    (∀ y y', s.bare.entries c = some y → s.bare.entries c' = some y' → y.name ≠ y'.name) ↔
      ∀ y y', s.entries c = some y → s.entries c' = some y' → y.name ≠ y'.name := by
  cases hc : s.entries c <;> cases hc' : s.entries c' <;> simp [Store.bare,hc,hc']

theorem bare_wellFormed {s : Store} : WellFormed s.bare ↔ WellFormed s := by
  constructor
  · rintro ⟨nilEntry,nilTree,root,member,home,child,names⟩
    simp only [bare_isDir,bare_names] at root names
    simp [Store.bare] at nilEntry nilTree root member home child names
    exact ⟨nilEntry,nilTree,root,member,home,child,names⟩
  · rintro ⟨nilEntry,nilTree,root,member,home,child,names⟩
    constructor <;> try simp only [bare_isDir,bare_names]
    all_goals simpa [Store.bare]

theorem WellFormed.of_bare (wf : WellFormed s) (same : s'.bare = s.bare) : WellFormed s' :=
  bare_wellFormed.mp (same ▸ bare_wellFormed.mpr wf)

theorem remounted_bare (s : Store) (plans : List Plan) : (s.remounted plans).bare = s.bare := by
  simp only [Store.bare,Store.remounted,Option.map_map]
  rfl

theorem alive_bare {s : Store} (ht : s.trees t = some tree) (alive : Bool) (sources : List Source) :
    Store.bare { s.setTree t { tree with alive } with sources } = s.bare := by
  simp only [Store.bare,Store.setTree,Store.mk.injEq,true_and,and_true]
  funext u
  by_cases same : u = t <;> simp [same,ht]

theorem WellFormed.of_eq (wf : WellFormed s) (entries : s'.entries = s.entries) (trees : s'.trees = s.trees) :
    WellFormed s' :=
  wf.of_bare (by simp only [Store.bare,entries,trees])

/-- An entry may be rewritten in place if its new chains are as they should be, and if no chain
holds it when its removed mark changes. -/
theorem WellFormed.setEntry (wf : WellFormed s) (ha : s.entries a = some old) (new : Entry)
    (keeps : old.name = new.name ∧ old.kind = new.kind ∧ old.tree = new.tree ∧ old.parent = new.parent)
    (shown : ∀ d x b, (s.setEntry a new).entries d = some x → a ∈ x.buckets b → old.removed = new.removed)
    (child : ∀ b, ∀ c ∈ new.buckets b, ∃ y, s.entries c = some y ∧ y.removed = false ∧ ftBucket y.name = b ∧
      y.tree = old.tree ∧ y.parent = a)
    (names : ∀ b, (new.buckets b).Pairwise fun c c' =>
      ∀ y y', s.entries c = some y → s.entries c' = some y' → y.name ≠ y'.name) : WellFormed (s.setEntry a new) := by
  obtain ⟨name,kind,tree,parent⟩ := keeps
  have forth (c y) (hy : s.entries c = some y) : ∃ y', (s.setEntry a new).entries c = some y' ∧
      y.name = y'.name ∧ y.kind = y'.kind ∧ y.tree = y'.tree ∧ y.parent = y'.parent := by
    by_cases here : c = a
    · subst here
      cases ha.symm.trans hy
      exact ⟨new,by simp,name,kind,tree,parent⟩
    · exact ⟨y,by simpa [here] using hy,rfl,rfl,rfl,rfl⟩
  have back {c y'} (hy : (s.setEntry a new).entries c = some y') :
      (c = a ∧ y' = new) ∨ (c ≠ a ∧ s.entries c = some y') := by
    by_cases here : c = a
    · exact .inl ⟨here,by simpa [here] using hy.symm⟩
    · exact .inr ⟨here,by simpa [here] using hy⟩
  have named {c y'} (hy : (s.setEntry a new).entries c = some y') :
      ∃ y, s.entries c = some y ∧ y.name = y'.name ∧ y.tree = y'.tree := by
    rcases back hy with ⟨rfl,rfl⟩ | ⟨_,hy⟩
    · exact ⟨old,ha,name,tree⟩
    · exact ⟨y',hy,rfl,rfl⟩
  refine ⟨?_,wf.nilTree,fun t tree ht => ?_,fun t tree ht c member => ?_,fun c y hy => ?_,
    fun d x hx b c member => ?_,fun d x hx b => ?_⟩
  · have apart : nil ≠ a := by rintro rfl; simp [wf.nilEntry] at ha
    simpa [apart] using wf.nilEntry
  · obtain ⟨member,isDir⟩ := wf.root t tree ht
    obtain ⟨x,hx,dir⟩ := isDir_iff.mp isDir
    obtain ⟨x',hx',_,same,_⟩ := forth _ x hx
    exact ⟨member,isDir_iff.mpr ⟨x',hx',same ▸ dir⟩⟩
  · obtain ⟨x,hx,inTree⟩ := wf.member t tree ht c member
    obtain ⟨x',hx',_,_,same,_⟩ := forth c x hx
    exact ⟨x',hx',same ▸ inTree⟩
  · obtain ⟨x,hx,_,same⟩ := named hy
    exact same ▸ wf.home c x hx
  · have before : ∃ y, s.entries c = some y ∧ y.removed = false ∧ ftBucket y.name = b ∧ y.tree = x.tree ∧
        y.parent = d := by
      rcases back hx with ⟨rfl,rfl⟩ | ⟨_,hx⟩
      · exact tree ▸ child b c member
      · exact wf.child d x hx b c member
    obtain ⟨y,hy,present,hash,inTree,above⟩ := before
    obtain ⟨y',hy',name',_,tree',parent'⟩ := forth c y hy
    refine ⟨y',hy',?_,name' ▸ hash,tree' ▸ inTree,parent' ▸ above⟩
    rcases back hy' with ⟨rfl,rfl⟩ | ⟨_,same⟩
    · cases ha.symm.trans hy
      exact shown d x b hx member ▸ present
    · cases hy.symm.trans same
      exact present
  · have before : (x.buckets b).Pairwise fun c c' =>
        ∀ y y', s.entries c = some y → s.entries c' = some y' → y.name ≠ y'.name := by
      rcases back hx with ⟨rfl,rfl⟩ | ⟨_,hx⟩
      · exact names b
      · exact wf.names d x hx b
    refine before.imp fun apart y y' hy hy' => ?_
    obtain ⟨z,hz,same,_⟩ := named hy
    obtain ⟨z',hz',same',_⟩ := named hy'
    rw [← same,← same']
    exact apart z z' hz hz'

/-- A new entry without children may be listed in a tree, or be the root of a new one. -/
theorem WellFormed.adopt (wf : WellFormed s) (treeOk : t ≠ nil) (entryOk : entry ≠ nil)
    (fresh : s.entries entry = none) (inTree : e.tree = t) (empty : ∀ b, e.buckets b = []) (tree : FileTree)
    (all : ∀ a, a ∈ tree.all ↔ a = entry ∨ ∃ old, s.trees t = some old ∧ a ∈ old.all)
    (root : (tree.root = entry ∧ e.kind = .dir) ∨ ∃ old, s.trees t = some old ∧ tree.root = old.root) :
    WellFormed ((s.setEntry entry e).setTree t tree) := by
  have forth {a x} (hx : s.entries a = some x) : ((s.setEntry entry e).setTree t tree).entries a = some x := by
    have apart : a ≠ entry := by rintro rfl; simp [fresh] at hx
    simpa [apart] using hx
  have dir {u old} (hu : s.trees u = some old) :
      old.root ∈ old.all ∧ ((s.setEntry entry e).setTree t tree).isDir old.root = true := by
    obtain ⟨member,isDir⟩ := wf.root u old hu
    obtain ⟨x,hx,dir⟩ := isDir_iff.mp isDir
    exact ⟨member,isDir_iff.mpr ⟨x,forth hx,dir⟩⟩
  have listed {u old a} (hu : s.trees u = some old) (member : a ∈ old.all) :
      ∃ x, ((s.setEntry entry e).setTree t tree).entries a = some x ∧ x.tree = u := by
    obtain ⟨x,hx,inTree⟩ := wf.member u old hu a member
    exact ⟨x,forth hx,inTree⟩
  refine ⟨?_,?_,fun u tree' hu => ?_,fun u tree' hu a member => ?_,fun a x hx => ?_,
    fun d x hx b c member => ?_,fun d x hx b => ?_⟩
  · simpa [Ne.symm entryOk] using wf.nilEntry
  · simpa [Ne.symm treeOk] using wf.nilTree
  · by_cases same : u = t
    · obtain rfl : tree = tree' := by simpa [same] using hu
      rcases root with ⟨new,kind⟩ | ⟨old,ht,new⟩
      · exact ⟨(all _).mpr (.inl new),by simp [Store.isDir,new,kind]⟩
      · rw [new]
        exact ⟨(all _).mpr (.inr ⟨old,ht,(dir ht).1⟩),(dir ht).2⟩
    · exact dir (by simpa [same] using hu)
  · by_cases same : u = t
    · obtain rfl : tree = tree' := by simpa [same] using hu
      rcases (all a).mp member with rfl | ⟨old,ht,member⟩
      · exact ⟨e,by simp,same ▸ inTree⟩
      · rw [same]
        exact listed ht member
    · exact listed (by simpa [same] using hu) member
  · by_cases new : a = entry
    · obtain rfl : e = x := by simpa [new] using hx
      exact ⟨tree,by simp [inTree],(all a).mpr (.inl new)⟩
    · obtain ⟨old,ht,member⟩ := wf.home a x (by simpa [new] using hx)
      by_cases same : x.tree = t
      · exact ⟨tree,by simp [same],(all a).mpr (.inr ⟨old,same ▸ ht,member⟩)⟩
      · exact ⟨old,by simpa [same] using ht,member⟩
  all_goals
    by_cases new : d = entry
    · obtain rfl : e = x := by simpa [new] using hx
      simp [empty] at *
    have hx : s.entries d = some x := by simpa [new] using hx
  · obtain ⟨y,hy,rest⟩ := wf.child d x hx b c member
    exact ⟨y,forth hy,rest⟩
  · apply List.Pairwise.imp_of_mem _ (wf.names d x hx b)
    intro c c' hc hc' apart y y' hy hy'
    obtain ⟨z,hz,_⟩ := wf.child d x hx b c hc
    obtain ⟨z',hz',_⟩ := wf.child d x hx b c' hc'
    cases (forth hz).symm.trans hy
    cases (forth hz').symm.trans hy'
    exact apart y y' hz hz'

theorem planted_wellFormed (wf : WellFormed s) (treeOk : t ≠ nil) (entryOk : entry ≠ nil)
    (freshTree : s.trees t = none) (freshEntry : s.entries entry = none)
    (isDir : e.kind = .dir) (inTree : e.tree = t) (empty : ∀ b, e.buckets b = []) :
    WellFormed (s.planted caller t entry e) := by
  refine (wf.adopt treeOk entryOk freshEntry inTree empty ⟨caller,true,entry,[entry]⟩ ?_
    (.inl ⟨rfl,isDir⟩)).of_eq rfl rfl
  simp [freshTree]

section Linked

variable {s : Store} {t parent entry : Addr} {tree : FileTree} {p e : Entry}

theorem linked_wellFormed (wf : WellFormed s) (entryOk : entry ≠ nil)
    (freshEntry : s.entries entry = none) (ht : s.trees t = some tree)
    (hp : s.entries parent = some p) (isDir : p.kind = .dir) (pTree : p.tree = t)
    (missing : ftFind s parent e.name = none) (present : e.removed = false) (eTree : e.tree = t)
    (up : e.parent = parent) (empty : ∀ b, e.buckets b = []) :
    WellFormed (s.linked t parent entry tree p e) := by
  have treeOk : t ≠ nil := by rintro rfl; simp [wf.nilTree] at ht
  have listed := wf.adopt treeOk entryOk freshEntry eTree empty { tree with all := entry :: tree.all }
    (by simp [ht]) (.inr ⟨tree,ht,rfl⟩)
  have apart {a x} (hx : s.entries a = some x) : a ≠ entry := by rintro rfl; simp [freshEntry] at hx
  have hp' : ((s.setEntry entry e).setTree t { tree with all := entry :: tree.all }).entries parent = some p := by
    simpa [apart hp] using hp
  refine (listed.setEntry hp' (p.pushBucket (ftBucket e.name) entry) ⟨rfl,rfl,rfl,rfl⟩ (fun _ _ _ _ _ => rfl)
    (fun b c member => ?_) (fun b => ?_)).of_eq rfl rfl
  · simp only [Entry.pushBucket] at member
    split at member
    next here =>
      rcases mem_cons.mp member with rfl | member
      · exact ⟨e,by simp,present,here.symm,by rw [eTree,pTree],up⟩
      · exact listed.child parent p hp' b c member
    next => exact listed.child parent p hp' b c member
  · simp only [Entry.pushBucket]
    split
    next here =>
      refine pairwise_cons.mpr ⟨?_,listed.names parent p hp' b⟩
      -- The new entry heads the chain; `ft_find` missed its name, so nothing behind has it.
      intro c member y y' hy hy'
      obtain ⟨z,hz,notRemoved,_⟩ := wf.child parent p hp b c member
      obtain rfl : e = y := by simpa using hy
      obtain rfl : z = y' := by simpa [apart hz,hz] using hy'
      exact (ftFind_none missing hp isDir (here ▸ member) hz notRemoved).symm
    next => exact listed.names parent p hp' b

end Linked

theorem chain_nodup (wf : WellFormed s) (hd : s.entries d = some x) : (x.buckets b).Nodup := by
  apply nodup_iff_pairwise_ne.mpr
  apply List.Pairwise.imp_of_mem _ (wf.names d x hd b)
  rintro c c' hc _ apart rfl
  obtain ⟨y,hy,_⟩ := wf.child d x hd b c hc
  exact apart y y hy hy rfl

section Unlinked

variable {s : Store} {parent e : Addr} {name : Bytes} {old : Entry}

theorem unlink_apart (he : s.entries e = some old) (found : ftFind s parent name = some e)
    (empty : ∀ i < ftBuckets, old.buckets i = []) : parent ≠ e := by
  rintro rfl
  obtain ⟨d,_,hd,_,member,_⟩ := ftFind_some found
  cases he.symm.trans hd
  have bound : ftBucket name < ftBuckets := Nat.mod_lt _ (by decide)
  simp [empty _ bound] at member

theorem unlink_entries (hp : s.entries parent = some p) (apart : parent ≠ e) (a : Addr) :
    (s.unlink parent e name old).entries a =
      if a = parent then some (p.dropBucket (ftBucket name) e)
      else if a = e then some { old with removed := true } else s.entries a := by
  simp [Store.unlink,apart,hp]

theorem unlink_trees : (s.unlink parent e name old).trees = s.trees := by
  unfold Store.unlink
  dsimp only
  split <;> rfl

theorem unlink_sources : (s.unlink parent e name old).sources = s.sources := by
  unfold Store.unlink
  dsimp only
  split <;> rfl

theorem unlink_wellFormed (wf : WellFormed s) (he : s.entries e = some old)
    (found : ftFind s parent name = some e) (empty : ∀ i < ftBuckets, old.buckets i = []) :
    WellFormed (s.unlink parent e name old) := by
  have apart := unlink_apart he found empty
  obtain ⟨p,old',hp,_,inChain,he',_,named⟩ := ftFind_some found
  cases he.symm.trans he'
  obtain ⟨_,hc,_,_,_,up⟩ := wf.child parent p hp _ e inChain
  cases he.symm.trans hc
  have shorter (b : Nat) : (p.dropBucket (ftBucket name) e).buckets b <+ p.buckets b := by
    simp only [Entry.dropBucket]
    split
    · exact erase_sublist
    · exact .refl _
  have dropped := wf.setEntry hp (p.dropBucket (ftBucket name) e) ⟨rfl,rfl,rfl,rfl⟩ (fun _ _ _ _ _ => rfl)
    (fun b c member => wf.child parent p hp b c ((shorter b).subset member))
    (fun b => (wf.names parent p hp b).sublist (shorter b))
  have he' : (s.setEntry parent (p.dropBucket (ftBucket name) e)).entries e = some old := by
    simpa [Ne.symm apart] using he
  refine (dropped.setEntry he' { old with removed := true } ⟨rfl,rfl,rfl,rfl⟩ (fun d x b hx member => ?_)
    (dropped.child e old he') (dropped.names e old he')).of_eq ?_ unlink_trees
  · -- `e` is in no chain any more: only its parent held it, once.
    have before : ∃ x', (s.setEntry parent (p.dropBucket (ftBucket name) e)).entries d = some x' ∧
        e ∈ x'.buckets b := by
      by_cases here : d = e
      · obtain rfl : { old with removed := true } = x := by simpa [here] using hx
        exact ⟨old,here ▸ he',member⟩
      · exact ⟨x,by simpa [here] using hx,member⟩
    obtain ⟨x',hx',member⟩ := before
    obtain ⟨y,hy,_,hash,_,above⟩ := dropped.child d x' hx' b e member
    cases he'.symm.trans hy
    obtain rfl : d = parent := above.symm.trans up
    obtain rfl : p.dropBucket (ftBucket name) e = x' := by simpa using hx'
    rw [← hash,named] at member
    simp only [Entry.dropBucket,if_true] at member
    exact absurd rfl ((List.Nodup.mem_erase_iff (chain_nodup wf hp)).mp member).1
  · funext a
    rw [unlink_entries hp apart]
    by_cases here : a = parent
    · simp [here,apart]
    · simp [here]

end Unlinked

theorem destroyed_wellFormed (wf : WellFormed s) (ht : s.trees t = some tree) (treeList : List Addr) :
    WellFormed { s with
      entries := fun a => if a ∈ tree.all then none else s.entries a
      trees := fun a => if a = t then none else s.trees a
      treeList } := by
  have outside : ∀ a x, s.entries a = some x → (a ∉ tree.all ↔ x.tree ≠ t) := by
    intro a x hx
    constructor
    · intro absent same
      obtain ⟨tree',ht',member⟩ := wf.home a x hx
      cases ht.symm.trans (same ▸ ht')
      exact absent member
    · intro other member
      obtain ⟨y,hy,inTree⟩ := wf.member t tree ht a member
      cases hx.symm.trans hy
      exact other inTree
  have back : ∀ a x, (if a ∈ tree.all then none else s.entries a) = some x →
      s.entries a = some x ∧ x.tree ≠ t := by
    intro a x h
    split at h
    · contradiction
    next absent => exact ⟨h,(outside a x h).mp absent⟩
  have forth : ∀ a x, s.entries a = some x → x.tree ≠ t →
      (if a ∈ tree.all then none else s.entries a) = some x := by
    intro a x hx other
    rw [if_neg ((outside a x hx).mpr other),hx]
  constructor
  · simp [wf.nilEntry]
  · simp [wf.nilTree]
  · intro u tree' hu
    by_cases same : u = t
    · simp [same] at hu
    · have hu : s.trees u = some tree' := by simpa [same] using hu
      obtain ⟨member,isDir⟩ := wf.root u tree' hu
      obtain ⟨x,hx,inTree⟩ := wf.member u tree' hu _ member
      obtain ⟨y,hy,kind⟩ := isDir_iff.mp isDir
      cases hx.symm.trans hy
      exact ⟨member,isDir_iff.mpr ⟨x,forth _ x hx (inTree ▸ same),kind⟩⟩
  · intro u tree' hu a member
    by_cases same : u = t
    · simp [same] at hu
    · obtain ⟨x,hx,inTree⟩ := wf.member u tree' (by simpa [same] using hu) a member
      exact ⟨x,forth a x hx (inTree ▸ same),inTree⟩
  · intro a x hx
    obtain ⟨hx,other⟩ := back a x hx
    obtain ⟨tree',hu,member⟩ := wf.home a x hx
    exact ⟨tree',by simpa [other] using hu,member⟩
  · intro d x hx b c member
    obtain ⟨hx,other⟩ := back d x hx
    obtain ⟨y,hy,present,hash,inTree,above⟩ := wf.child d x hx b c member
    exact ⟨y,forth c y hy (inTree ▸ other),present,hash,inTree,above⟩
  · intro d x hx b
    apply (wf.names d x (back d x hx).1 b).imp
    intro c c' differ y y' hy hy'
    exact differ y y' (back c y hy).1 (back c' y' hy').1

theorem Change.wellFormed (wf : WellFormed s) (change : Change s s') : WellFormed s' := by
  cases change with
  | same => exact wf
  | plant caller t entry e treeOk entryOk freshTree freshEntry isDir _ inTree _ empty =>
    exact planted_wellFormed wf treeOk entryOk freshTree freshEntry isDir inTree empty
  | link t parent entry tree p e entryOk freshEntry ht hp isDir pTree missing present eTree up _ empty =>
    exact linked_wellFormed wf entryOk freshEntry ht hp isDir pTree missing present eTree up empty
  | write e old data writable he =>
    exact wf.setEntry he _ ⟨rfl,rfl,rfl,rfl⟩ (fun _ _ _ _ _ => rfl) (wf.child e old he) (wf.names e old he)
  | unlink parent e name old he found empty => exact unlink_wellFormed wf he found empty
  | revoke t tree ht => exact wf.of_bare (alive_bare ht _ _)
  | register => exact wf.of_eq rfl rfl
  | mount t tree plans => exact wf.of_bare (remounted_bare s plans)
  | destroy t tree ht => exact destroyed_wellFormed wf ht _

theorem step_wellFormed (wf : WellFormed s) (stepped : step op s = some s') : WellFormed s' :=
  (step_change wf stepped).wellFormed wf

theorem Reachable.wellFormed (reachable : Reachable s) : WellFormed s := by
  obtain ⟨ops,ran⟩ := reachable
  exact Transition.run_invariant WellFormed (fun _ _ _ wf stepped => step_wellFormed wf stepped)
    ops _ _ empty_wellFormed ran

end Objective9c.Filetree
