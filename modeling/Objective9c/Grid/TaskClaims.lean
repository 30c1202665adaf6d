import Mathlib.Data.Finset.Card
import Objective9c.Grid.TaskKept

/-! How many workers run one task at a time. A claim is a directory, made by the worker that
takes the task, and removed by whichever worker or sweep releases it first. -/
namespace Objective9c.Grid

open Text Finset Option Transition

variable {s s' : State} {t t' : Tree} {id : Id}

/-- The task a worker has claimed and not yet released. -/
def Worker.holds : Worker → Option Id
  | .claimFile id | .reading id | .running id _ | .locking id _ | .checking id _ | .rechecking id
  | .creating id _ | .writing id _ _ | .dropResult id | .dropLock id | .finishTask id
  | .releaseFile id | .releaseDir id => some id
  | _ => none

def Proc.holds : Proc → Option Id
  | .worker w => w.holds
  | _ => none

/-- The step in which a sweep releases the claim on `id`. -/
def releases (id : Id) : Label → State → Bool
  | .act p (.remove ok), s =>
    match s.procs p with
    | .sweep (.dropDir _ other) => ok && other == id && s.tree.claimed.lookup id == some false
    | _ => false
  | _, _ => false

def releaseCount (id : Id) : List Label → State → Nat
  | [], _ => 0
  | l :: rest, s => (releases id l s).toNat + (step l s).elim 0 (releaseCount id rest)

theorem removeClaimFile_keeps (t : Tree) (id : Id) (member : other ∈ t.claimed) :
    other ∈ (removeClaimFile t id).claimed := by
  fun_cases removeClaimFile t id
  next => exact (AList.mem_insert _).mpr (.inr member)
  next => exact member

theorem refresh_keeps (t : Tree) (id : Id) (member : other ∈ t.claimed) : other ∈ (refresh t id).claimed := by
  unfold refresh
  split
  · exact (AList.mem_insert _).mpr (.inr member)
  · exact member

/-- Only its own claim directory is removed, and only when it is empty. -/
theorem removeClaimDir_keeps (t : Tree) (id : Id) (member : other ∈ t.claimed)
    (kept : other = id → t.claimed.lookup id ≠ some false) : other ∈ (removeClaimDir t id).claimed := by
  fun_cases removeClaimDir t id
  next bare => exact AList.mem_erase.mpr ⟨fun same => kept same bare,member⟩
  next => exact member

/-- A worker leaves the claim on a task, makes it as it takes the task, or lets the task go. -/
theorem workerStep_holds (stepped : workerStep a t w = some (t',w')) (id : Id) :
    ((id ∈ t.claimed → id ∈ t'.claimed) ∧ (w'.holds = some id → w.holds = some id)) ∨
      (id ∉ t.claimed ∧ id ∈ t'.claimed) ∨ (w.holds = some id ∧ w'.holds ≠ some id) := by
  have inserted {other : Id} {value : Bool} (member : id ∈ t.claimed) :
      id ∈ t.claimed.insert other value := (AList.mem_insert _).mpr (.inr member)
  revert stepped
  fun_cases workerStep a t w <;> rintro ⟨⟩
  case case11 other _ absent =>
    by_cases same : id = other
    · subst same
      exact .inr (.inl ⟨absent.2,(AList.mem_insert _).mpr (.inl rfl)⟩)
    · refine .inl ⟨inserted,fun holds => ?_⟩
      cases holds
      contradiction
  case case32 other ok =>
    by_cases same : other = id
    · subst same
      exact .inr (.inr ⟨rfl,by rintro ⟨⟩⟩)
    · refine .inl ⟨fun member => ?_,by rintro ⟨⟩⟩
      split
      · exact removeClaimDir_keeps t other member (fun here => absurd here.symm same)
      · exact member
  all_goals left
  all_goals first
    | exact ⟨fun member => member,fun holds => holds⟩
    | (split <;> exact ⟨fun member => member,fun holds => holds⟩)
    | (refine ⟨fun member => ?_,fun holds => holds⟩
       first
         | exact refresh_keeps t _ member
         | (split <;> first | exact member | exact inserted member | exact removeClaimFile_keeps t _ member))

theorem sweepStep_releases (stepped : sweepStep a t sweep = some (t',sweep')) (id : Id) :
    (id ∈ t.claimed → id ∈ t'.claimed) ∨
      ∃ round, a = .remove true ∧ sweep = .dropDir round id ∧ t.claimed.lookup id = some false := by
  revert stepped
  fun_cases sweepStep a t sweep <;> rintro ⟨⟩
  case case21 round other ok =>
    by_cases bare : ok = true ∧ id = other ∧ t.claimed.lookup other = some false
    · obtain ⟨rfl,rfl,bare⟩ := bare
      exact .inr ⟨round,rfl,rfl,bare⟩
    · left
      intro member
      split
      next done => exact removeClaimDir_keeps t other member fun same found => bare ⟨done,same,found⟩
      next => exact member
  all_goals left
  all_goals first
    | exact fun member => member
    | (intro member; split <;> first | exact member | exact removeClaimFile_keeps t _ member)

/-- The workers that hold the task, against its claim directory and `n` releases by sweeps. -/
def Bounded (id : Id) (n : Nat) (s : State) : Prop :=
  ∀ busy : Finset Nat, (∀ p ∈ busy, (s.procs p).holds = some id) →
    busy.card ≤ (if id ∈ s.tree.claimed then 1 else 0) + n

theorem Bounded.step (bounded : Bounded id n s) (stepped : step l s = some s') :
    Bounded id (n + (releases id l s).toNat) s' := by
  intro busy holds
  have more : n ≤ n + (releases id l s).toNat := Nat.le_add_right ..
  cases step_moved stepped with
  | publish => exact Nat.le_trans (bounded busy holds) (Nat.add_le_add_left more _)
  | crash p =>
    refine Nat.le_trans (bounded busy fun q member => ?_) (Nat.add_le_add_left more _)
    have after := holds q member
    simp only [State.setProc] at after
    split at after
    · rcases crash_cases (s.procs p) with gone | ⟨_,gone⟩ <;> rw [gone] at after <;> contradiction
    · exact after
  | proc p a t next moved =>
    have elsewhere (q : Nat) (member : q ∈ busy) (apart : q ≠ p) : (s.procs q).holds = some id := by
      simpa [State.setProc,apart] using holds q member
    have here (member : p ∈ busy) : next.holds = some id := by simpa using holds p member
    have before (back : p ∈ busy → (s.procs p).holds = some id) := bounded busy fun q member =>
      if same : q = p then same ▸ back (same ▸ member) else elsewhere q member same
    generalize at_ : s.procs p = proc at moved before
    cases proc with
    | dead => contradiction
    | orphan other =>
      cases procStep_ran moved with
      | orphan _ _ same =>
        subst same
        have before := before fun member => by cases here member
        have kept : id ∈ s.tree.claimed → _ := refresh_keeps s.tree other
        grind
    | worker =>
      obtain ⟨⟨_,w'⟩,worked,same⟩ := map_eq_some_iff.mp moved
      cases same
      rcases workerStep_holds worked id with ⟨kept,back⟩ | ⟨absent,present⟩ | ⟨held,dropped⟩
      · have before := before fun member => back (here member)
        grind
      · -- The claim was not there, so that all others are accounted for by releases.
        have others := bounded (busy.erase p) fun q member =>
          elsewhere q (mem_of_mem_erase member) (ne_of_mem_erase member)
        have := pred_card_le_card_erase (s := busy) (a := p)
        grind
      · have apart : p ∉ busy := fun member => dropped (here member)
        have all := bounded (insert p busy) fun q member => by
          rcases mem_insert.mp member with rfl | member
          · rw [at_]
            exact held
          · exact elsewhere q member (ne_of_mem_of_not_mem member apart)
        grind
    | sweep =>
      obtain ⟨⟨_,sweep'⟩,swept,same⟩ := map_eq_some_iff.mp moved
      cases same
      have before := before fun member => by cases here member
      rcases sweepStep_releases swept id with kept | ⟨round,rfl,rfl,bare⟩
      · grind
      · have released : releases id (.act p (.remove true)) s = true := by simp [releases,at_,bare]
        grind

theorem Bounded.run (bounded : Bounded id n s)
    (ran : run Grid.step labels s = some s') : Bounded id (n + releaseCount id labels s) s' := by
  induction labels generalizing n s with
  | nil =>
    cases ran
    exact bounded
  | cons l rest ih =>
    obtain ⟨next,stepped,ran⟩ := run_cons_some.mp ran
    have later := ih (bounded.step stepped) ran
    rw [releaseCount,stepped]
    rwa [Nat.add_assoc] at later

/-- In every run, the workers that are at once between claiming a task and releasing it are at
most one more than the times sweeps have released its claim. -/
theorem claimants_le_releases (start s : State) (labels : List Label) (id : Id) (busy : Finset Nat)
    (fresh : start.fresh) (ran : Transition.run step labels start = some s)
    (claimed : ∀ p ∈ busy, (s.procs p).holds = some id) : busy.card ≤ 1 + releaseCount id labels start := by
  have nobody : Bounded id 0 start := by
    intro none holds
    have empty : none = ∅ := by
      refine eq_empty_of_forall_notMem fun p member => ?_
      have held := holds p member
      rcases fresh p with idle | idle | idle <;> rw [idle] at held <;> contradiction
    simp [empty]
  have bound := nobody.run ran busy claimed
  split at bound <;> omega

/-- A sweep releases the claim of a worker that is still at its task, and another takes it. -/
def overlapT : List Label :=
  claimT 0 ++ retireT ++ [.act 2 (.read false),.act 2 (.create false),.act 2 (.remove false),
    .act 2 (.remove true),.act 2 (.remove true)] ++ claimT 1

theorem overlapT_claimants :
    ∃ s, Transition.run step overlapT startT = some s ∧
      (∀ p ∈ ({0,1} : Finset Nat), (s.procs p).holds = some taskT) ∧
      #({0,1} : Finset Nat) ≤ 1 + releaseCount taskT overlapT startT := by
  have both : (Transition.run step overlapT startT).any
      (fun s => decide (∀ p ∈ ({0,1} : Finset Nat), (s.procs p).holds = some taskT)) = true := by
    decide +kernel
  obtain ⟨s,ran,held⟩ := (any_eq_true _ _).mp both
  have held := of_decide_eq_true held
  exact ⟨s,ran,held,claimants_le_releases startT s _ taskT {0,1} startT_fresh ran held⟩

end Objective9c.Grid
