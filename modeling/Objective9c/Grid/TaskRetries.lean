import Mathlib.Order.OrderIsoNat
import Mathlib.Order.Filter.Finite
import Objective9c.Grid.TaskScans

/-! Bounded retries. Under the conditions on single steps every published task gets a whole result and is then
left alone. -/
namespace Objective9c.Grid
open Text Option Bool Transition AList Filter
open Filter (atTop)
open Transition (Path)

variable {path : Path step} {since : Nat} {id : Id}

theorem live_always (fresh : (path.state 0).fresh) (sound : (path.state 0).tree.Sound)
    (ok : ∀ now, advances (path.label now) (path.state now)) (now : Nat) : Live (path.state now) := by
  induction now with
  | zero => exact fresh.live sound
  | succ now ih => exact ih.step (ok now) (path.next now)

theorem Fair.calm (fair : Fair path) (fresh : (path.state 0).fresh) (sound : (path.state 0).tree.Sound)
    (published : ∀ᶠ now in atTop, ∀ id data, path.label now ≠ .publish id data)
    (ok : ∀ now, advances (path.label now) (path.state now)) : ∃ since, Calm path since := by
  obtain ⟨since,quiet⟩ :=
    eventually_atTop.mp (published.and (fair.crashes.and fair.failures))
  refine ⟨since,live_always fresh sound ok,ok,?_,fun now late => (quiet now late).2.2,fair.goes_on⟩
  intro now late
  obtain ⟨fixed,alive,_⟩ := quiet now late
  cases label : path.label now with
  | publish id data => exact absurd label (fixed id data)
  | act p a =>
    refine ⟨p,a,rfl,?_⟩
    rintro rfl
    exact alive p label

/-- The pending tasks without a whole result. -/
def undone (t : Tree) : Finset Id := t.pending.keys.toFinset.filter (fun id => t.finished id = false)

theorem mem_undone : id ∈ undone t ↔ id ∈ t.pending ∧ t.finished id = false := by
  simp [undone,AList.mem_keys]

theorem Calm.finishes (calm : Calm path since) (finished : (path.state now).tree.finished id = true) :
    ∀ later, now ≤ later → (path.state later).tree.finished id = true := by
  refine always_of_step (P := fun t => (path.state t).tree.finished id = true) ?_
    (Nat.zero_le now) finished
  intro t _ finished
  exact (calm.live t).kept.finishes (path.next t) (calm.ok t).1 finished

theorem Calm.undone_shrinks (calm : Calm path since) (late : since ≤ now) :
    undone (path.state (now + 1)).tree ⊆ undone (path.state now).tree := by
  intro id member
  rw [mem_undone] at member ⊢
  refine ⟨calm.pending_shrinks late id member.1,?_⟩
  by_contra finished
  have after := calm.finishes (eq_true_of_not_eq_false finished) (now + 1) (Nat.le_succ now)
  rw [member.2] at after
  contradiction

/-- From some time on no task is finished any more. -/
theorem Calm.settles (calm : Calm path since) :
    ∃ after, since ≤ after ∧ ∀ now, after ≤ now → undone (path.state now).tree = undone (path.state after).tree := by
  have antitone : Antitone fun n => undone (path.state (since + n)).tree :=
    antitone_nat_of_succ_le fun n => calm.undone_shrinks (Nat.le_add_right since n)
  obtain ⟨n,same⟩ := WellFoundedLT.antitone_chain_condition antitone
  refine ⟨since + n,Nat.le_add_right since n,?_⟩
  intro now late
  have here := same (now - since) (by omega)
  rw [show since + (now - since) = now by omega] at here
  exact here.symm

theorem Known.mono (known : Known path since id) (later : since ≤ after) : Known path after id := by
  rcases known with present | free
  · exact .inl (fun now late => present now (Nat.le_trans later late))
  · exact .inr
      { free.toStuck.mono later with
        absent := fun now late => free.absent now (Nat.le_trans later late)
        unlocked := fun now late => free.unlocked now (Nat.le_trans later late) }

/-- A time from which on nothing changes for good: every pending task has a result file for
ever, or nothing in its way for ever. -/
structure Settled (path : Path step) (since : Nat) : Prop where
  calm : Calm path since
  stuck : ∀ id ∈ undone (path.state since).tree, Stuck path since id
  known : ∀ id ∈ (path.state since).tree.pending, Known path since id

theorem Calm.settled (calm : Calm path since) : ∃ after, since ≤ after ∧ Settled path after := by
  obtain ⟨middle,late,same⟩ := calm.settles
  have calm' := calm.mono late
  have stuck : ∀ id ∈ undone (path.state middle).tree, Stuck path middle id := by
    intro id member
    have always : ∀ now, middle ≤ now → id ∈ undone (path.state now).tree := by
      intro now le
      rw [same now le]
      exact member
    exact ⟨fun now le => (mem_undone.mp (always now le)).1,fun now le => (mem_undone.mp (always now le)).2⟩
  have known : ∀ id ∈ (path.state middle).tree.pending.keys.toFinset,
      ∀ᶠ after in atTop, Known path after id := by
    intro id member
    rw [List.mem_toFinset] at member
    by_cases finished : (path.state middle).tree.finished id = true
    · have present : Known path middle id :=
        .inl (fun now le => mem_results_of_finished (calm.finishes finished now le))
      exact Filter.eventually_atTop.mpr ⟨middle,fun after le => present.mono le⟩
    · have open_ := Bool.eq_false_of_not_eq_true finished
      rcases present_or_free calm' (stuck id (mem_undone.mpr ⟨member,open_⟩)) with present | ⟨after,_,free⟩
      · exact Filter.eventually_atTop.mpr ⟨middle,fun after le => Known.mono (.inl present) le⟩
      · exact Filter.eventually_atTop.mpr ⟨after,fun later le => Known.mono (.inr free) le⟩
  obtain ⟨after,all⟩ := Filter.eventually_atTop.mp ((Filter.eventually_all_finset _).mpr known)
  refine ⟨max middle after,Nat.le_trans late (Nat.le_max_left _ _),calm'.mono (Nat.le_max_left _ _),?_,?_⟩
  · intro id member
    rw [same _ (Nat.le_max_left _ _)] at member
    exact (stuck id member).mono (Nat.le_max_left _ _)
  · intro id member
    refine all _ (Nat.le_max_right _ _) id ?_
    rw [List.mem_toFinset]
    exact calm'.pending_since (Nat.le_max_left _ _) id member

theorem sweepStep_claims (stepped : sweepStep a t sweep = some (t',sweep'))
    (member : id ∈ t'.claimed) : id ∈ t.claimed := by
  revert stepped
  fun_cases sweepStep a t sweep <;> rintro ⟨⟩
  all_goals first
    | exact member
    | (split at member <;> first
        | exact member
        | exact mem_of_removeClaimFile member
        | exact mem_of_removeClaimDir member)

theorem procStep_claims (stepped : procStep a t p = some (t',p'))
    (absent : id ∉ t.claimed) (present : id ∈ t'.claimed) : p' = .worker (.claimFile id) := by
  cases procStep_ran stepped with
  | worker moved =>
    rcases workerStep_claims moved present with before | ⟨_,_,_,rfl⟩
    · exact absurd before absent
    · rfl
  | sweep moved => exact absurd (sweepStep_claims moved present) absent
  | orphan _ _ same =>
    subst same
    exact absurd (mem_of_refresh present) absent

section Settled

variable {p : Nat} (settled : Settled path since) (keeps : Keeps path p)
include settled keeps

/-- The worker comes to a task that stays undone, with nothing in its way. -/
theorem visits_undone (late : since ≤ now) (undone : id ∈ undone (path.state since).tree) :
    ∃ later scan, now ≤ later ∧ (path.state later).procs p = .worker (.claiming scan id) ∧ Free path since id := by
  have stuck := settled.stuck id undone
  obtain ⟨start,le,idle⟩ := reaches_idle settled.calm keeps late
  have late' := Nat.le_trans late le
  obtain ⟨later,scan,le',dropping | claiming⟩ := visits settled.calm keeps settled.known late' idle
    (fun later le => stuck.pending later (Nat.le_trans late' le))
  · exact absurd (by rw [dropping]; rfl) (not_due settled.calm stuck (Nat.le_trans late' le'))
  · obtain ⟨w,here,passing⟩ :=
      passing_for_ever settled.calm keeps settled.known late' idle later le'
    cases claiming.symm.trans here
    exact ⟨later,scan,Nat.le_trans le le',claiming,passing.2⟩

/-- Its claim is there whenever the worker comes to it, so it is there always. -/
theorem claimed_always (late : since ≤ now) (undone : id ∈ undone (path.state since).tree) :
    id ∈ (path.state now).tree.claimed := by
  by_contra absent
  obtain ⟨_,_,_,_,free⟩ := visits_undone settled keeps late undone
  have never : ∀ later, now ≤ later → id ∉ (path.state later).tree.claimed := by
    refine always_of_step (P := fun t => id ∉ (path.state t).tree.claimed) ?_ late absent
    intro t late' absent present
    obtain ⟨q,a,next,turn⟩ := settled.calm.step_turn late'
    exact not_claimFile settled.calm free (Nat.le_succ_of_le late')
      (turn.after.trans (procStep_claims turn.stepped absent present))
  obtain ⟨visit,scan,le,claiming,_⟩ := visits_undone settled keeps late undone
  have late' := Nat.le_trans late le
  obtain ⟨later,a,next,le',_,turn⟩ := settled.calm.turn late' claiming rfl
  have claims := worker_brings turn.stepped turn.succeeds (never later (Nat.le_trans le le'))
  exact not_claimFile settled.calm free (Nat.le_succ_of_le (Nat.le_trans late' le')) (turn.after.trans claims)

/-- Then a sweep finds the claim stale and is bound to finish the task. -/
theorem nothing_undone (fair : Fair path) : undone (path.state since).tree = ∅ := by
  by_contra some
  obtain ⟨id,member⟩ := Finset.nonempty_iff_ne_empty.mpr some
  obtain ⟨_,_,_,_,free⟩ := visits_undone settled keeps (Nat.le_refl since) member
  obtain ⟨later,late,q,time,maxattempts,rest,label,listing⟩ := fair.stale id since (by
    intro later late
    refine ⟨claimed_always settled keeps late member,?_⟩
    intro q refreshes
    generalize here : (path.state later).procs q = proc at refreshes
    revert refreshes
    fun_cases Proc.refreshes proc <;> rintro ⟨⟩
    · exact not_claimFile settled.calm free late here
    · exact not_running settled.calm free late here
    · exact (settled.calm.live later).tended q _ here)
  obtain ⟨next,turn⟩ := settled.calm.turn_of_label late label
  have stepped := turn.stepped
  rw [listing] at stepped
  have testing : Proc.sweep (.testing ⟨time,maxattempts,rest⟩ id) = next :=
    (Prod.mk.inj (Option.some.inj stepped)).2
  exact not_due settled.calm (settled.stuck id member) (Nat.le_succ_of_le late)
    (by rw [turn.after,← testing]; rfl)

theorem removes_pending (finished : (path.state since).tree.finished id = true) :
    ∃ later, since ≤ later ∧ id ∉ (path.state later).tree.pending := by
  by_contra never
  have pending : ∀ later, since ≤ later → id ∈ (path.state later).tree.pending := by
    intro later le
    by_contra absent
    exact never ⟨later,le,absent⟩
  obtain ⟨start,late,idle⟩ := reaches_idle settled.calm keeps (Nat.le_refl since)
  obtain ⟨later,scan,le,dropping | claiming⟩ := visits settled.calm keeps settled.known late idle
    (fun later le => pending later (Nat.le_trans late le))
  · have late' := Nat.le_trans late le
    obtain ⟨last,a,next,le',_,turn⟩ := settled.calm.turn late' dropping rfl
    exact worker_brings turn.stepped turn.succeeds
      (pending (last + 1) (Nat.le_succ_of_le (Nat.le_trans late' le')))
  · obtain ⟨w,here,passing⟩ := passing_for_ever settled.calm keeps settled.known late idle later le
    cases claiming.symm.trans here
    have unfinished := passing.2.unfinished since (Nat.le_refl since)
    rw [finished] at unfinished
    contradiction

end Settled

theorem moved_finite (path : Path step) (now : Nat) :
    {q | (path.state now).procs q ≠ (path.state 0).procs q}.Finite := by
  induction now with
  | zero => simp
  | succ now ih =>
    have one : {q | Moves path q now}.Subsingleton := by
      rintro q ⟨_,_,first⟩ r ⟨_,_,second⟩
      cases first.symm.trans second
      rfl
    refine (ih.union one.finite).subset ?_
    intro q changed
    by_cases moves : Moves path q now
    · exact .inr moves
    · left
      change (path.state (now + 1)).procs q ≠ _ at changed
      rw [procs_of_not_moves moves] at changed
      exact changed

/-- A worker is about to claim a task for which it has found no result file. -/
theorem workerStep_claiming (stepped : workerStep a t w = some (t',w'))
    (claiming : w' = .claiming scan id) : id ∉ t.results := by
  revert stepped
  fun_cases workerStep a t w <;> rintro ⟨⟩
  all_goals first
    | contradiction
    | (split at claiming <;> contradiction)
    | cases claiming
  assumption

section Finished

variable {q now : Nat} (calm : Calm path since) (finished : (path.state since).tree.finished id = true)
include calm finished

theorem not_claiming_step (late : since ≤ now)
    (free : ∀ scan, (path.state now).procs q ≠ .worker (.claiming scan id)) :
    ∀ scan, (path.state (now + 1)).procs q ≠ .worker (.claiming scan id) := by
  intro scan claiming
  by_cases moves : Moves path q now
  · obtain ⟨a,_,label⟩ := moves
    obtain ⟨next,turn⟩ := calm.turn_of_label late label
    have stepped := turn.stepped
    rw [← turn.after,claiming] at stepped
    generalize (path.state now).procs q = proc at stepped
    cases procStep_ran stepped with
    | worker moved =>
      exact workerStep_claiming moved rfl (mem_results_of_finished (calm.finishes finished now late))
  · exact free scan ((procs_of_not_moves moves).symm.trans claiming)

theorem stops_claiming (q : Nat) :
    ∀ᶠ now in atTop, ∀ scan, (path.state now).procs q ≠ .worker (.claiming scan id) := by
  have stays := fun now (late : since ≤ now) => not_claiming_step (q := q) calm finished late
  by_cases here : ∃ scan, (path.state since).procs q = .worker (.claiming scan id)
  · obtain ⟨scan,here⟩ := here
    obtain ⟨later,a,next,late,_,turn⟩ := calm.turn (Nat.le_refl since) here rfl
    refine eventually_of_step stays (Nat.le_succ_of_le late) ?_
    intro scan' again
    have stepped := turn.stepped
    rw [← turn.after,again] at stepped
    obtain ⟨w',moved,same⟩ := procStep_worker stepped
    exact workerStep_claiming moved (Proc.worker.inj same).symm (mem_results_of_finished (calm.finishes finished later late))
  · refine eventually_of_step stays (Nat.le_refl since) ?_
    exact fun scan claiming => here ⟨scan,claiming⟩

theorem no_claims (fresh : (path.state 0).fresh) :
    ∀ᶠ now in atTop, ∀ q scan, (path.state now).procs q ≠ .worker (.claiming scan id) := by
  have moved := (eventually_all_finite (moved_finite path since)).mpr
    (fun q _ => stops_claiming calm finished q)
  filter_upwards [moved,eventually_ge_atTop since] with now stopped late
  intro q
  by_cases mover : (path.state since).procs q = (path.state 0).procs q
  · refine always_of_step
      (P := fun t => ∀ scan, (path.state t).procs q ≠ .worker (.claiming scan id))
      (fun t late' => not_claiming_step calm finished late') (Nat.le_refl since) ?_ now late
    intro scan claiming
    rw [mover] at claiming
    rcases fresh q with idle | idle | idle <;> cases idle.symm.trans claiming
  · exact stopped q mover

end Finished

theorem Calm.safe (calm : Calm path since) (safe : (path.state now).safe id) :
    ∀ later, now ≤ later → (path.state later).safe id := by
  refine always_of_step (P := fun t => (path.state t).safe id) ?_ (Nat.zero_le now) safe
  intro t _ safe
  exact ((calm.live t).kept.step (path.next t) (calm.ok t).1).2 id safe

theorem mem_pending_of_ready {t : Tree} (ready : t.ready id = true) : id ∈ t.pending := by
  obtain ⟨file,found,_⟩ := (any_eq_true _ _).mp ready
  exact lookup_isSome.mp (by rw [found]; rfl)

/-- In every fair run in which finitely many tasks are published and whose steps all meet the conditions, a task that
is pending at some time has, from some time on, a whole result, and nobody claims it or starts its gate. -/
theorem published_task_finishes (path : Path step) (fresh : (path.state 0).fresh)
    (sound : (path.state 0).tree.Sound) (fair : Fair path)
    (published : ∀ᶠ now in atTop, ∀ id data, path.label now ≠ .publish id data)
    (ok : ∀ now, advances (path.label now) (path.state now)) (id : Id) (before : Nat)
    (pending : id ∈ (path.state before).tree.pending) :
    ∀ᶠ now in atTop, (path.state now).tree.finished id = true ∧ ¬Claims path id now ∧
      ¬StartsGate path id now := by
  obtain ⟨early,calm⟩ := fair.calm fresh sound published ok
  obtain ⟨since,late,settled⟩ := (calm.mono (Nat.le_max_left early before)).settled
  obtain ⟨p,w,worker,often⟩ := fair.worker
  have keeps : Keeps path p := ⟨⟨w,worker⟩,often⟩
  have finished : (path.state since).tree.finished id = true := by
    by_contra open_
    have safe := calm.safe ((calm.live before).safe id pending) since
      (Nat.le_trans (Nat.le_max_right early before) late)
    have member : id ∈ undone (path.state since).tree :=
      mem_undone.mpr ⟨mem_pending_of_ready (safe.resolve_right open_),eq_false_of_not_eq_true open_⟩
    rw [nothing_undone settled keeps fair] at member
    exact absurd member (Finset.notMem_empty id)
  obtain ⟨gone,le,absent⟩ := removes_pending settled keeps finished
  have removed : ∀ᶠ now in atTop, id ∉ (path.state now).tree.pending := by
    refine eventually_of_step ?_ le absent
    exact fun t late' absent member => absent (settled.calm.pending_shrinks late' id member)
  have whole : ∀ᶠ now in atTop, (path.state now).tree.finished id = true :=
    eventually_atTop.mpr ⟨since,settled.calm.finishes finished⟩
  filter_upwards [whole,removed,no_claims settled.calm finished fresh] with now finished absent nobody
  refine ⟨finished,?_,?_⟩
  · rintro ⟨q,scan,_,claiming,_⟩
    exact nobody q scan claiming
  · rintro ⟨q,_,_,ready⟩
    exact absent (mem_pending_of_ready ready)

section Runs

theorem Tree.ext_iff {t' : Tree} : t = t' ↔ t.pending.entries = t'.pending.entries ∧
    t.claimed.entries = t'.claimed.entries ∧ t.results.entries = t'.results.entries ∧
    t.locks.entries = t'.locks.entries ∧ t.qids = t'.qids := by
  cases t
  cases t'
  simp [AList.ext_iff]

instance (t t' : Tree) : Decidable (t = t') := decidable_of_iff _ Tree.ext_iff.symm

/-- The process that takes the step. -/
def Label.actor : Label → Option Nat
  | .publish _ _ => none
  | .act p _ => some p

def Label.crashes : Label → Bool
  | .act _ .crash => true
  | _ => false

theorem step_procs (stepped : step l s = some s') (other : l.actor ≠ some q) : s'.procs q = s.procs q := by
  cases step_moved stepped with
  | publish => rfl
  | crash | proc =>
    refine setProc_of_ne _ _ ?_
    rintro rfl
    exact other rfl

theorem run_procs (ran : run step labels s = some s')
    (others : ∀ l ∈ labels, l.actor ≠ some q) : s'.procs q = s.procs q := by
  induction labels generalizing s with
  | nil =>
    cases ran
    rfl
  | cons l rest ih =>
    obtain ⟨next,stepped,ran⟩ := run_cons_some.mp ran
    exact (ih ran (fun l member => others l (List.mem_cons_of_mem _ member))).trans
      (step_procs stepped (others l List.mem_cons_self))

theorem State.ext {s' : State} (tree : s.tree = s'.tree) (procs : ∀ q, s.procs q = s'.procs q) : s = s' := by
  cases s
  congr
  exact funext procs

theorem loop_of_same (actors : ∀ l ∈ cycle, l.actor.all (· < 3) = true)
    (same : (run step cycle knot).any (fun s : State =>
      decide (s.tree = knot.tree ∧ ∀ q : Nat, q < 3 → s.procs q = knot.procs q)) = true) :
    run step cycle knot = some knot := by
  obtain ⟨s,ran,both⟩ := (any_eq_true _ _).mp same
  obtain ⟨tree,procs⟩ := of_decide_eq_true both
  rw [ran]
  refine congrArg some (State.ext tree ?_)
  intro q
  by_cases early : q < 3
  · exact procs q early
  · refine run_procs ran ?_
    intro l member here
    have bound := actors l member
    rw [here] at bound
    exact early (of_decide_eq_true bound)

variable {pre cycle : List Label} {start knot : State}
  (first : Transition.run step pre start = some knot) (loop : Transition.run step cycle knot = some knot)
  (moves : 0 < cycle.length)

/-- A process that takes no part in a run that repeats itself is always where it was. -/
theorem lasso_procs (others : ∀ l ∈ pre ++ cycle, l.actor ≠ some q) (now : Nat) :
    ((lasso pre cycle first loop moves).state now).procs q = start.procs q :=
  run_procs (lasso_state pre cycle first loop moves now)
    (fun l member => others l (List.mem_of_mem_take member))

theorem lasso_any (f : State → Bool) (now : Nat)
    (holds : (run step ((pre ++ cycle).take (spot pre.length cycle.length now)) start).any f
      = true) : f ((lasso pre cycle first loop moves).state now) = true := by
  rw [lasso_state pre cycle first loop moves now] at holds
  exact holds

theorem lasso_published (acts : ∀ l ∈ cycle, l.actor.isSome = true) :
    ∀ᶠ now in atTop, ∀ id data, (lasso pre cycle first loop moves).label now ≠ .publish id data := by
  refine eventually_atTop.mpr ⟨pre.length,fun now late id data publish => ?_⟩
  have act := acts _ (lasso_late pre cycle first loop moves late)
  rw [publish] at act
  contradiction

/-- A run that repeats a pass of a worker and a sweep, in which nothing fails and after which
nothing is claimed. -/
theorem lasso_fair (within : i < cycle.length) (within' : j < cycle.length)
    (passes : cycle[i] = .act w .openDir) (sweeps : cycle[j] = .act v (.sweep time maxattempts claims))
    (succeeds : ∀ now, fails ((lasso pre cycle first loop moves).label now)
      ((lasso pre cycle first loop moves).state now) = false)
    (alive : ∀ l ∈ cycle, l.crashes = false) (worker : start.procs w = .worker .idle)
    (others : ∀ p, p ≠ w → p ≠ v → ∀ now, (((lasso pre cycle first loop moves).state now).procs p).busy = true →
      ∃ later, now ≤ later ∧ Moves (lasso pre cycle first loop moves) p later)
    (unclaimed : knot.tree.claimed.keys = []) : Fair (lasso pre cycle first loop moves) := by
  have runs : ∀ now, ∃ later, now ≤ later ∧ Moves (lasso pre cycle first loop moves) w later := by
    intro now
    obtain ⟨later,le,label,_⟩ := lasso_often pre cycle first loop moves within now
    exact ⟨later,le,.openDir,by simp,label.trans passes⟩
  have sweeping : ∀ now, ∃ later, now ≤ later ∧
      (lasso pre cycle first loop moves).label later = .act v (.sweep time maxattempts claims) := by
    intro now
    obtain ⟨later,le,label,_⟩ := lasso_often pre cycle first loop moves within' now
    exact ⟨later,le,label.trans sweeps⟩
  refine ⟨?_,?_,?_,⟨w,.idle,?_,runs⟩,⟨v,?_⟩,?_⟩
  · refine eventually_atTop.mpr ⟨pre.length,fun now late p crash => ?_⟩
    have live := alive _ (lasso_late pre cycle first loop moves late)
    rw [crash] at live
    contradiction
  · exact Filter.Eventually.of_forall succeeds
  · intro p now busy
    by_cases mine : p = w
    · subst mine
      exact runs now
    · by_cases other : p = v
      · subst other
        obtain ⟨later,le,label⟩ := sweeping now
        exact ⟨later,le,_,by simp,label⟩
      · exact others p mine other now busy
  · rw [lasso_start]
    exact worker
  · intro now
    obtain ⟨later,le,label⟩ := sweeping now
    exact ⟨later,time,maxattempts,claims,le,label⟩
  · intro id now claimed
    obtain ⟨later,le,_,here⟩ := lasso_often pre cycle first loop moves moves now
    have at_knot : knot = (lasso pre cycle first loop moves).state later := some.inj here
    have present := (claimed later le).1
    rw [← at_knot,AList.mem_keys,unclaimed] at present
    exact absurd present List.not_mem_nil

/-- A task is published, claimed and finished. -/
def finishPre : List Label :=
  .publish taskT rowT :: claimT 0 ++ resultT 0 ++
    [.act 0 (.remove true),.act 0 (.remove true),.act 0 (.remove true)]

/-- Then the worker and the sweep find nothing to do. -/
def finishCycle : List Label :=
  [.act 0 .openDir,.act 0 .endDir,.act 2 (.sweep 500 3 []),.act 2 .endSweep]

theorem finishPre_isSome : (run step finishPre emptyT).isSome = true := by decide +kernel

def finishKnot : State := (Transition.run step finishPre emptyT).get finishPre_isSome

theorem finish_first : run step finishPre emptyT = some finishKnot := (some_get _).symm

theorem finish_loop : run step finishCycle finishKnot = some finishKnot :=
  loop_of_same (by decide) (by decide +kernel)

def finishPath : Path step := Transition.lasso finishPre finishCycle finish_first finish_loop (by decide)

theorem finish_checked (now : Nat) : fails (finishPath.label now) (finishPath.state now) = false ∧
    advances (finishPath.label now) (finishPath.state now) := by
  have both := lasso_checks _ _ finish_first finish_loop (by decide)
    (fun l s => !fails l s && (keepsAlone l s && orderly l s)) (by decide +kernel) now
  obtain ⟨succeeds,ok⟩ := and_eq_true_iff.mp both
  obtain ⟨keeps,ok⟩ := and_eq_true_iff.mp ok
  exact ⟨(not_eq_true' _).mp succeeds,keepsWork_of_keepsAlone _ _ keeps,ok⟩

theorem emptyT_sound : emptyT.tree.Sound :=
  ⟨fun _ member => absurd member (notMem_empty _),fun _ member => absurd member (notMem_empty _),
    fun _ member => absurd member (notMem_empty _)⟩

theorem emptyT_idle (p : Nat) : (emptyT.procs p).busy = false := by
  rcases startT_fresh p with idle | idle | idle <;> rw [show emptyT.procs p = _ from idle] <;> rfl

theorem finishPath_fair : Fair finishPath := by
  refine lasso_fair finish_first finish_loop (by decide) (i := 0) (j := 2) (by decide) (by decide) rfl rfl
    (fun now => (finish_checked now).1) (by decide) rfl ?_ (by decide +kernel)
  intro p worker sweep now busy
  have others : ∀ l ∈ finishPre ++ finishCycle, l.actor ≠ some p := by
    intro l member here
    have actors : ∀ l ∈ finishPre ++ finishCycle, l.actor.all (fun q => q = 0 ∨ q = 2) = true := by decide
    have which := actors l member
    rw [here] at which
    rcases of_decide_eq_true which with rfl | rfl
    · exact worker rfl
    · exact sweep rfl
  rw [lasso_procs finish_first finish_loop _ others now,emptyT_idle p] at busy
  contradiction

/-- The task that is published first is finished, and left alone then. -/
theorem finishPath_finishes :
    ∀ᶠ now in atTop, (finishPath.state now).tree.finished taskT = true ∧ ¬Claims finishPath taskT now ∧
      ¬StartsGate finishPath taskT now := by
  have start : finishPath.state 0 = emptyT := lasso_start _ _ _ _ _
  refine published_task_finishes finishPath (by rw [start]; exact startT_fresh)
    (by rw [start]; exact emptyT_sound) finishPath_fair ?_ ?_ taskT 1 ?_
  · exact lasso_published finish_first finish_loop (by decide) (by decide)
  · exact fun now => (finish_checked now).2
  · exact of_decide_eq_true (lasso_any finish_first finish_loop (by decide)
      (fun s => decide (taskT ∈ s.tree.pending)) 1 (by decide))

def requeueT : List Label :=
  [.act 2 (.sweep 400 3 [taskT]),.act 2 (.stale true),.act 2 .access,.act 2 (.read true),.act 2 (.create true),
    .act 2 (.print 4096),.act 2 (.print 4096),.act 2 (.remove true),.act 2 (.remove true),.act 2 .endSweep]

/-- The worker that has claimed the task crashes, and the sweep requeues the task. -/
def requeuePre : List Label :=
  .publish taskT rowT :: claimT 0 ++ .act 0 .crash :: requeueT

/-- The row it has written has two newlines at its end, and no worker accepts it: it is claimed,
read and released over and over. -/
def requeueCycle : List Label :=
  [.act 1 .openDir,.act 1 (.dirread [taskT]),.act 1 .access,.act 1 (.mkdir true),.act 1 (.create true),
    .act 1 (.read true),.act 1 (.remove true),.act 1 (.remove true),
    .act 2 (.sweep 500 3 []),.act 2 .endSweep]

theorem requeuePre_isSome : (run step requeuePre emptyT).isSome = true := by decide +kernel

def requeueKnot : State := (Transition.run step requeuePre emptyT).get requeuePre_isSome

theorem requeue_first : run step requeuePre emptyT = some requeueKnot := (some_get _).symm

theorem requeue_loop : run step requeueCycle requeueKnot = some requeueKnot :=
  loop_of_same (by decide) (by decide +kernel)

def requeuePath : Path step := Transition.lasso requeuePre requeueCycle requeue_first requeue_loop (by decide)

def accepts : Label → Bool
  | .publish id data => (readTask id data).isSome
  | .act _ _ => true

theorem requeue_checked (now : Nat) : fails (requeuePath.label now) (requeuePath.state now) = false ∧
    (requeuePath.state now).tree.finished taskT = false ∧ accepts (requeuePath.label now) = true := by
  have all := lasso_checks _ _ requeue_first requeue_loop (by decide)
    (fun l s => !fails l s && (!s.tree.finished taskT && accepts l)) (by decide +kernel) now
  obtain ⟨succeeds,both⟩ := and_eq_true_iff.mp all
  obtain ⟨unfinished,accepted⟩ := and_eq_true_iff.mp both
  exact ⟨(not_eq_true' _).mp succeeds,(not_eq_true' _).mp unfinished,accepted⟩

theorem requeuePath_crash (now : Nat) (busy : ((requeuePath.state now).procs 0).busy = true) :
    ∃ later, now ≤ later ∧ Moves requeuePath 0 later := by
  by_cases early : now ≤ 8
  · exact ⟨8,early,.crash,by simp,lasso_early _ _ requeue_first requeue_loop (by decide) (by decide)⟩
  · have dead : (requeuePath.state 9).procs 0 = .dead :=
      of_decide_eq_true (lasso_any requeue_first requeue_loop (by decide)
        (fun s => decide (s.procs 0 = .dead)) 9 (by decide +kernel))
    have stays : ∀ t, 9 ≤ t → (requeuePath.state t).procs 0 = .dead → (requeuePath.state (t + 1)).procs 0 = .dead :=
      fun t _ dead => (procs_of_not_moves (not_moves_of_dead dead)).trans dead
    have gone : (requeuePath.state now).procs 0 = .dead :=
      always_of_step (P := fun t => (requeuePath.state t).procs 0 = .dead) stays
        (Nat.le_refl 9) dead now (by omega)
    rw [gone] at busy
    contradiction

theorem requeuePath_fair : Fair requeuePath := by
  refine lasso_fair requeue_first requeue_loop (by decide) (i := 0) (j := 8) (by decide) (by decide) rfl rfl
    (fun now => (requeue_checked now).1) (by decide) rfl ?_ (by decide +kernel)
  intro p worker sweep now busy
  by_cases crashes : p = 0
  · subst crashes
    exact requeuePath_crash now busy
  · have others : ∀ l ∈ requeuePre ++ requeueCycle, l.actor ≠ some p := by
      intro l member here
      have actors : ∀ l ∈ requeuePre ++ requeueCycle, l.actor.all (fun q => q = 0 ∨ q = 1 ∨ q = 2) = true := by
        decide
      have which := actors l member
      rw [here] at which
      rcases of_decide_eq_true which with rfl | rfl | rfl
      · exact crashes rfl
      · exact worker rfl
      · exact sweep rfl
    rw [lasso_procs requeue_first requeue_loop _ others now,emptyT_idle p] at busy
    contradiction

/-- A task with an acceptable row, one crash, no failure, and no result in all time. -/
theorem requeued_task_never_finishes :
    ¬∀ path : Path step, (path.state 0).fresh → (path.state 0).tree.Sound → Fair path →
      (∀ᶠ now in atTop, ∀ id data, path.label now ≠ .publish id data) →
      (∀ now id data, path.label now = .publish id data → (readTask id data).isSome = true) →
      ∀ id before, id ∈ (path.state before).tree.pending →
        ∀ᶠ now in atTop, (path.state now).tree.finished id = true ∧ ¬Claims path id now ∧
          ¬StartsGate path id now := by
  intro all
  have start : requeuePath.state 0 = emptyT := lasso_start _ _ _ _ _
  have finishes := all requeuePath (by rw [start]; exact startT_fresh) (by rw [start]; exact emptyT_sound)
    requeuePath_fair (lasso_published requeue_first requeue_loop (by decide) (by decide)) ?_ taskT 1
    (of_decide_eq_true (lasso_any requeue_first requeue_loop (by decide)
      (fun s => decide (taskT ∈ s.tree.pending)) 1 (by decide)))
  · obtain ⟨now,whole,_⟩ := finishes.exists
    rw [(requeue_checked now).2.1] at whole
    contradiction
  · intro now id data publish
    have accepted := (requeue_checked now).2.2
    rw [publish] at accepted
    exact accepted

end Runs

end Objective9c.Grid
