import Objective9c.Filetree.Batch
import Objective9c.Filetree.Mounts

/-! Trees are referred to by mounts, also those of removed directories, and by registered sources.
`o9_filetree_destroy` scans for both before it frees a tree. -/
namespace Objective9c.Filetree

open List

structure Listed (s : Store) : Prop where
  listed : ∀ t, t ∈ s.treeList ↔ ∃ tree, s.trees t = some tree
  once : s.treeList.Nodup
  sources : ∀ src ∈ s.sources, s.treeAlive src.tree = true
  ids : (s.sources.map Source.id).Nodup

structure Referenced (s : Store) : Prop extends Listed s where
  mounts : ∀ e x, s.entries e = some x → ∀ m ∈ x.mounts, m.source ∈ s.treeList ∧ m.source ≠ x.tree

theorem empty_referenced : Referenced Store.empty := by
  refine ⟨⟨?_,?_,?_,?_⟩,?_⟩ <;> simp [Store.empty]

section Frames

variable {s s' : Store}

theorem treeAlive_iff : s.treeAlive t = true ↔ ∃ tree, s.trees t = some tree ∧ tree.alive = true := by
  unfold Store.treeAlive
  split
  next tree ht => simp [ht]
  next ht => simp [ht]

theorem mountsAt_of_entry (he : s.entries e = some x) : s.mountsAt e = x.mounts := by
  simp [he]

end Frames

section References

variable {s s' : Store}

theorem resolve_source (id : Bytes) (resolved : ftResolve s id = some t) : ∃ tree, s.trees t = some tree := by
  obtain ⟨src,found,rfl⟩ := Option.map_eq_some_iff.mp resolved
  have both := find?_some found
  simp only [Bool.and_eq_true] at both
  obtain ⟨tree,ht,_⟩ := treeAlive_iff.mp both.2
  exact ⟨tree,ht⟩

theorem find_source {sources : List Source} (agrees : ∀ other ∈ sources, test other = (other.id == src.id))
    (ids : (sources.map Source.id).Nodup) (member : src ∈ sources) : sources.find? test = some src := by
  induction sources with
  | nil => contradiction
  | cons first rest ih =>
    rw [map_cons,nodup_cons] at ids
    have here := agrees first mem_cons_self
    rcases mem_cons.mp member with rfl | later
    · simp [here]
    · have other : first.id ≠ src.id := fun same => ids.1 (same ▸ mem_map_of_mem later)
      have skipped : test first = false := here.trans (beq_eq_false_iff_ne.mpr other)
      rw [find?_cons_of_neg (by simp [skipped])]
      exact ih (fun next listed => agrees next (mem_cons_of_mem first listed)) ids.2 later

theorem Listed.resolve (inv : Listed s) (member : src ∈ s.sources) : ftResolve s src.id = some src.tree := by
  unfold ftResolve
  rw [find_source (fun other listed => by simp [inv.sources other listed]) inv.ids member]
  rfl

theorem Listed.same (inv : Listed s) (trees : s'.trees = s.trees) (treeList : s'.treeList = s.treeList)
    (sources : s'.sources = s.sources) : Listed s' := by
  obtain ⟨listed,once,alive,ids⟩ := inv
  refine ⟨?_,?_,?_,?_⟩ <;> simp only [Store.treeAlive,trees,treeList,sources] <;> assumption

theorem unlink_treeList : (s.unlink parent e name old).treeList = s.treeList := by
  unfold Store.unlink
  dsimp only
  split <;> rfl

theorem Change.listed (inv : Listed s) (change : Change s s') : Listed s' := by
  cases change with
  | same => exact inv
  | write | mount => exact inv.same rfl rfl rfl
  | unlink => exact inv.same unlink_trees unlink_treeList unlink_sources
  | plant caller t entry e tOk entryOk freshTree =>
    obtain ⟨listed,once,alive,ids⟩ := inv
    have new : t ∉ s.treeList := by simp [listed,freshTree]
    refine ⟨fun u => ?_,nodup_cons.mpr ⟨new,once⟩,fun src member => ?_,ids⟩
    · by_cases same : u = t <;> simp [same,listed]
    · obtain ⟨tree,ht,living⟩ := treeAlive_iff.mp (alive src member)
      have other : src.tree ≠ t := by
        rintro same
        rw [same,freshTree] at ht
        contradiction
      exact treeAlive_iff.mpr ⟨tree,by simpa [other] using ht,living⟩
  | link t parent entry tree p e entryOk freshEntry ht =>
    obtain ⟨listed,once,alive,ids⟩ := inv
    refine ⟨fun u => ?_,once,fun src member => ?_,ids⟩
    · by_cases same : u = t <;> simp [same,listed,ht]
    · obtain ⟨own,hs,living⟩ := treeAlive_iff.mp (alive src member)
      by_cases same : src.tree = t
      · rw [same,ht] at hs
        cases hs
        exact treeAlive_iff.mpr ⟨{ tree with all := entry :: tree.all },by simp [same],living⟩
      · exact treeAlive_iff.mpr ⟨own,by simpa [same] using hs,living⟩
  | revoke t tree ht =>
    obtain ⟨listed,once,alive,ids⟩ := inv
    refine ⟨fun u => ?_,once,fun src member => ?_,?_⟩
    · by_cases same : u = t <;> simp [same,listed,ht]
    · have kept := mem_filter.mp member
      have other : src.tree ≠ t := by simpa using kept.2
      obtain ⟨own,hs,living⟩ := treeAlive_iff.mp (alive src kept.1)
      exact treeAlive_iff.mpr ⟨own,by simpa [other] using hs,living⟩
    · exact ids.sublist (filter_sublist.map Source.id)
  | register id t tree ht living unused =>
    obtain ⟨listed,once,alive,ids⟩ := inv
    refine ⟨listed,once,fun src member => ?_,?_⟩
    · rcases mem_cons.mp member with rfl | old
      · exact treeAlive_iff.mpr ⟨tree,ht,living⟩
      · exact alive src old
    · refine nodup_cons.mpr ⟨fun again => ?_,ids⟩
      obtain ⟨src,member,same⟩ := mem_map.mp again
      exact unused src member same
  | destroy t tree ht closed unregistered =>
    obtain ⟨listed,once,alive,ids⟩ := inv
    refine ⟨fun u => ?_,once.erase t,fun src registered => ?_,ids⟩
    · rw [once.mem_erase_iff]
      by_cases same : u = t <;> simp [same,listed]
    · obtain ⟨own,hs,living⟩ := treeAlive_iff.mp (alive src registered)
      exact treeAlive_iff.mpr ⟨own,by simpa [unregistered src registered] using hs,living⟩

section

variable (wf : WellFormed s) (inv : Referenced s)

include wf inv

/-- A tree that is destroyed was not mounted: not on another tree, by the scan, and not on
itself. -/
theorem Referenced.unmounted (scanned : ∀ other ∈ s.treeList, other ≠ t → ∀ m ∈ s.mountsOf other, m.source ≠ t)
    (he : s.entries e = some x) (member : m ∈ x.mounts) : m.source ≠ t := by
  by_cases own : x.tree = t
  · exact own ▸ (inv.mounts e x he m member).2
  · obtain ⟨tree,ht,inTree⟩ := wf.home e x he
    refine scanned x.tree ((inv.listed _).mpr ⟨tree,ht⟩) own m ?_
    simp only [Store.mountsOf,ht,mem_flatMap]
    exact ⟨e,inTree,by rwa [mountsAt_of_entry he]⟩

theorem Change.treeList (change : Change s s')
    (he : s.entries e = some x) (member : m ∈ x.mounts) (listed : u ∈ s.treeList) (source : u = m.source) :
    u ∈ s'.treeList := by
  cases change with
  | same | write | mount | revoke | register | link => exact listed
  | unlink => rwa [unlink_treeList]
  | plant => exact mem_cons_of_mem _ listed
  | destroy t tree ht closed unregistered scanned =>
    exact inv.once.mem_erase_iff.mpr ⟨source ▸ inv.unmounted wf scanned he member,listed⟩

theorem step_referenced (stepped : step op s = some s') : Referenced s' := by
  have change := step_change wf stepped
  refine ⟨change.listed inv.toListed,fun e x' hx' m member => ?_⟩
  by_cases mounted : Mounted s s'
  · obtain ⟨t,plans,rfl,inTree,apart,sources⟩ := mounted
    obtain ⟨x,hx,rfl⟩ := Option.map_eq_some_iff.mp hx'
    cases planned : ftPlanFor plans e with
    | none =>
      have kept : m ∈ x.mounts := by simpa [plannedMounts,planned] using member
      exact inv.mounts e x hx m kept
    | some p =>
      have checked : m ∈ p.mounts := by simpa [plannedMounts,planned] using member
      have there := mem_of_find?_eq_some planned
      have at' : p.target = e := by simpa using find?_some planned
      refine ⟨?_,?_⟩
      · rcases sources p there m checked with old | ⟨id,resolved⟩
        · rw [at',mountsAt_of_entry hx] at old
          exact (inv.mounts e x hx m old).1
        · exact (inv.listed _).mpr (resolve_source id resolved)
      · -- the search from a planned source answers at once if the source is the tree itself
        have apart := apart p there m checked
        obtain ⟨y,hy,_,home⟩ := inTree p there
        rw [at',hx] at hy
        cases hy
        intro same
        rw [same,home] at apart
        simp [ftReaches] at apart
  · cases change.comes wf hx' with
    | new _ none => simp [none] at member
    | old x hx lasts mounts =>
      rw [mounts.resolve_right mounted] at member
      obtain ⟨listed,other⟩ := inv.mounts e x hx m member
      exact ⟨change.treeList wf inv hx member listed rfl,lasts.tree ▸ other⟩

end

end References

theorem Reachable.referenced (reachable : Reachable s) : Referenced s := by
  obtain ⟨ops,ran⟩ := reachable
  refine (Transition.run_invariant (fun s => WellFormed s ∧ Referenced s) ?_
    ops _ _ ⟨empty_wellFormed,empty_referenced⟩ ran).2
  rintro op s next ⟨wf,inv⟩ stepped
  exact ⟨step_wellFormed wf stepped,step_referenced wf inv stepped⟩

theorem filetreeDestroy_success (freed : (filetreeDestroy s caller t).2 = 0) : (∀ src ∈ s.sources, src.tree ≠ t) ∧
      ∀ other ∈ s.treeList, other ≠ t → ∀ m ∈ s.mountsOf other, m.source ≠ t := by
  revert freed
  fun_cases filetreeDestroy s caller t <;> rintro ⟨⟩
  case case6 unregistered unmounted _ => exact ⟨by simpa using unregistered,by simpa using unmounted⟩

/-- Mounts and registered sources refer to trees that are listed and allocated, each registered id resolves to its own
tree, and a tree is only freed when nothing refers to it. -/
theorem references_stay_valid (reachable : Reachable s) :
    (∀ e x m, s.entries e = some x → m ∈ x.mounts →
      m.source ∈ s.treeList ∧ (s.trees m.source).isSome) ∧
    (∀ src ∈ s.sources, src.tree ∈ s.treeList ∧ (s.trees src.tree).isSome ∧
      ftResolve s src.id = some src.tree) ∧
    (s.sources.map Source.id).Nodup ∧
    ∀ caller t, (filetreeDestroy s caller t).2 = 0 → (∀ src ∈ s.sources, src.tree ≠ t) ∧
      ∀ e x m, s.entries e = some x → m ∈ x.mounts → m.source ≠ t := by
  have inv := reachable.referenced
  have allocated {t : Addr} (listed : t ∈ s.treeList) : (s.trees t).isSome := by
    obtain ⟨tree,ht⟩ := (inv.listed t).mp listed
    simp [ht]
  refine ⟨?_,?_,inv.ids,?_⟩
  · intro e x m he member
    obtain ⟨listed,_⟩ := inv.mounts e x he m member
    exact ⟨listed,allocated listed⟩
  · intro src member
    obtain ⟨tree,ht,_⟩ := treeAlive_iff.mp (inv.sources src member)
    have listed := (inv.listed _).mpr ⟨tree,ht⟩
    exact ⟨listed,allocated listed,inv.toListed.resolve member⟩
  · intro caller t freed
    obtain ⟨unregistered,scanned⟩ := filetreeDestroy_success freed
    exact ⟨unregistered,fun e x m he member => inv.unmounted reachable.wellFormed scanned he member⟩

/-- A tree with a mount, next to one that is closed and can be destroyed. -/
def closedTree : List Op :=
  [.new 7 1 2 true,.new 7 3 4 true,.new 7 5 6 true,.register 7 3 (some [98]) true true,
    .applySpecs 7 1 (some [⟨some [46],some [98],0,false⟩]) fun _ => true,.close 7 3,.close 7 5]

theorem closedTree_references : ∃ s, Transition.run step closedTree Store.empty = some s ∧
    s.mountsAt 2 = [⟨3,0⟩] ∧ (3 ∈ s.treeList ∧ (s.trees 3).isSome) ∧
    (filetreeDestroy s 7 3).2 = -1 ∧ (filetreeDestroy s 7 5).2 = 0 ∧ ∀ src ∈ s.sources, src.tree ≠ 5 :=
  have valid := references_stay_valid ⟨closedTree,rfl⟩
  ⟨_,rfl,rfl,valid.1 2 _ ⟨3,0⟩ rfl (mem_singleton.mpr rfl),rfl,rfl,(valid.2.2.2 7 5 rfl).1⟩

end Objective9c.Filetree
