import Objective9c.Lib.Reach
import Objective9c.Filetree.Lasting

/-! The mount graph between trees. `o9_filetree_apply_specs` only searches from the sources it is about to
mount, with the planned lists in place of the current ones. -/
namespace Objective9c.Filetree

open List Option Transition

/-- A directory of tree `t`, not removed, has `u` mounted on it. -/
def Store.mountEdge (s : Store) (t u : Addr) : Prop :=
  ∃ e x, s.entries e = some x ∧ x.tree = t ∧ x.kind = .dir ∧ x.removed = false ∧
    ∃ m ∈ x.mounts, m.source = u

/-- The trees `ftReaches` goes on to from `tree`. -/
def plannedSources (s : Store) (plans : List Plan) (tree : Addr) : List Addr :=
  match s.trees tree with
  | none => []
  | some t => t.all.flatMap fun e =>
    match s.entries e with
    | none => []
    | some x => if x.removed then [] else (plannedMounts plans e x).map (·.source)

theorem ftReaches_eq_search (s : Store) (plans : List Plan) (goal : Addr) (room : Nat)
    (tree : Addr) (seen : List Addr) : ftReaches s plans goal room tree seen =
      Reach.search (plannedSources s plans) goal room tree seen := by
  induction room generalizing tree seen with
  | zero => rfl
  | succ room ih =>
    simp only [ftReaches,Reach.search,ih]
    split
    · rfl
    split
    · rfl
    cases ht : s.trees tree with
    | none => simp [plannedSources,ht]
    | some t =>
      have sources : plannedSources s plans tree = t.all.flatMap fun e =>
          match s.entries e with
          | none => []
          | some x => if x.removed then [] else (plannedMounts plans e x).map (·.source) := by
        simp only [plannedSources,ht]
      rw [sources,any_flatMap]
      apply congrArg t.all.any
      funext e
      cases s.entries e with
      | none => rfl
      | some x => cases removed : x.removed <;> simp [removed,List.any_map,Function.comp_def]

theorem mountEdge_planned (wf : WellFormed s) (edge : (s.remounted plans).mountEdge a b) :
    b ∈ plannedSources s plans a := by
  obtain ⟨e,x',hx',rfl,_,present,m,member,rfl⟩ := edge
  obtain ⟨x,hx,rfl⟩ := map_eq_some_iff.mp hx'
  obtain ⟨tree,ht,inTree⟩ := wf.home e x hx
  have present : x.removed = false := present
  simp only [plannedSources,ht,mem_flatMap]
  exact ⟨e,inTree,by simpa [hx,present] using ⟨m,member,rfl⟩⟩

theorem remounted_acyclic (wf : WellFormed s) (acyclic : Reach.Acyclic s.mountEdge)
    (inTree : ∀ p ∈ plans, s.DirIn t p.target)
    (apart : ∀ p ∈ plans, ∀ m ∈ p.mounts, ftReaches s plans t 256 m.source [] = false) :
    Reach.Acyclic (s.remounted plans).mountEdge := by
  apply acyclic.redirect t
  · rintro a b other ⟨e,x',hx',rfl,dir,present,m,member,rfl⟩
    obtain ⟨x,hx,rfl⟩ := map_eq_some_iff.mp hx'
    have unplanned : e ∉ plans.map Plan.target := by
      intro planned
      obtain ⟨p,hp,rfl⟩ := mem_map.mp planned
      obtain ⟨y,hy,_,inT⟩ := inTree p hp
      cases hx.symm.trans hy
      exact other inT
    exact ⟨e,x,hx,rfl,dir,present,m,by simpa [plannedMounts_unplanned unplanned] using member,rfl⟩
  · rintro b ⟨e,x',hx',here,dir,present,m,member,rfl⟩
    obtain ⟨x,hx,rfl⟩ := map_eq_some_iff.mp hx'
    cases planned : ftPlanFor plans e with
    | none =>
      have kept : m ∈ x.mounts := by simpa [plannedMounts,planned] using member
      exact .inl ⟨e,x,hx,here,dir,present,m,kept,rfl⟩
    | some p =>
      -- The search ran from this source, over every edge the new store has.
      have checked : m ∈ p.mounts := by simpa [plannedMounts,planned] using member
      have answer := apart p (mem_of_find?_eq_some planned) m checked
      rw [ftReaches_eq_search] at answer
      refine .inr fun path => Reach.search_false_not_reach 256 answer ?_
      exact Relation.ReflTransGen.mono (fun _ _ => mountEdge_planned wf) _ _ path

theorem Change.mountEdge (wf : WellFormed s) (change : Change s s') (unmounted : ¬Mounted s s') (t u : Addr)
    (edge : s'.mountEdge t u) : s.mountEdge t u := by
  obtain ⟨e,x',hx',inTree,dir,present,m,member,target⟩ := edge
  cases change.comes wf hx' with
  | new _ none => simp [none] at member
  | old x hx lasts mounts removed =>
    have kept := mounts.resolve_right unmounted
    refine ⟨e,x,hx,lasts.tree ▸ inTree,lasts.kind ▸ dir,?_,m,kept ▸ member,target⟩
    rcases removed with same | ⟨shown,_⟩
    · exact same ▸ present
    · exact shown

theorem Change.acyclic (wf : WellFormed s) (acyclic : Reach.Acyclic s.mountEdge)
    (change : Change s s') : Reach.Acyclic s'.mountEdge := by
  by_cases mounted : Mounted s s'
  · obtain ⟨t,plans,rfl,inTree,apart,_⟩ := mounted
    exact remounted_acyclic wf acyclic inTree apart
  · exact acyclic.mono (change.mountEdge wf mounted)

theorem empty_acyclic : Reach.Acyclic Store.empty.mountEdge := by
  intro t cycle
  obtain ⟨_,⟨e,x,hx,_⟩,_⟩ := Relation.TransGen.head'_iff.mp cycle
  simp [Store.empty] at hx

theorem Reachable.acyclic (reachable : Reachable s) : Reach.Acyclic s.mountEdge := by
  obtain ⟨ops,ran⟩ := reachable
  refine (run_invariant (fun s => WellFormed s ∧ Reach.Acyclic s.mountEdge) ?_
    ops _ _ ⟨empty_wellFormed,empty_acyclic⟩ ran).2
  rintro op s next ⟨wf,acyclic⟩ stepped
  exact ⟨step_wellFormed wf stepped,(step_change wf stepped).acyclic wf acyclic⟩

/-- No tree reaches itself through mounts, and no batch of specs makes one do so. -/
theorem mount_graph_acyclic (reachable : Reachable s) : Reach.Acyclic s.mountEdge ∧
    ∀ caller t specs memory,
      Reach.Acyclic (filetreeApplySpecs s caller t specs memory).1.mountEdge :=
  ⟨reachable.acyclic,fun _ _ _ _ =>
    (filetreeApplySpecs_change reachable.wellFormed).acyclic reachable.wellFormed reachable.acyclic⟩

/-- Two trees, each registered, the second mounted on the first one's root. -/
def mountedPair : List Op :=
  [.new 7 1 2 true,.new 7 3 4 true,.register 7 1 (some [97]) true true,
    .register 7 3 (some [98]) true true,
    .applySpecs 7 1 (some [⟨some [46],some [98],0,false⟩]) fun _ => true]

theorem mountedPair_acyclic : ∃ s, Transition.run step mountedPair Store.empty = some s ∧
    s.mountEdge 1 3 ∧ Reach.Acyclic s.mountEdge ∧
    (filetreeApplySpecs s 7 3 (some [⟨some [46],some [97],2,false⟩]) fun _ => true).2 = -1 :=
  ⟨_,rfl,⟨2,_,rfl,rfl,rfl,rfl,⟨3,0⟩,mem_singleton.mpr rfl,rfl⟩,
    (mount_graph_acyclic ⟨mountedPair,rfl⟩).1,by decide⟩

end Objective9c.Filetree
