import Objective9c.Grid.TaskProgress

/-! What cannot be in a run once crashes, failures and publications have ended, for a task that never gets a
result: a process that is bound to finish it. -/
namespace Objective9c.Grid
open Text Option AList Transition
open Transition (Path)

variable {s s' : State} {t t' : Tree} {path : Path step} {since : Nat}

/-- From `since` on nothing is published, crashes or fails. -/
structure Calm (path : Path step) (since : Nat) : Prop where
  live : ∀ now, Live (path.state now)
  ok : ∀ now, advances (path.label now) (path.state now)
  acts : ∀ now, since ≤ now → ∃ p a, path.label now = .act p a ∧ a ≠ .crash
  succeeds : ∀ now, since ≤ now → fails (path.label now) (path.state now) = false
  goes_on : ∀ p now, ((path.state now).procs p).busy = true → ∃ later, now ≤ later ∧ Moves path p later

structure Turn (path : Path step) (p : Nat) (proc : Proc) (now : Nat) (a : Act) (next : Proc) : Prop where
  stepped : procStep a (path.state now).tree proc = some ((path.state (now + 1)).tree,next)
  after : (path.state (now + 1)).procs p = next
  succeeds : proc.fails a = false
  clears : ∀ id, proc.clears a = some id → (path.state now).tree.finished id = true
  requeues : ∀ round id text, proc = .sweep (.requeueing round id text) → a ≠ .create true

theorem procStep_beat (stepped : procStep .beat t p = some (t',p')) : p' = p := by
  cases procStep_ran stepped with
  | @worker w _ moved =>
    cases w <;> simp [workerStep] at moved
    rw [moved.2]
  | @sweep s _ moved => cases s <;> simp [sweepStep] at moved
  | orphan => rfl

theorem procs_of_not_moves (stays : ¬Moves path p now) :
    (path.state (now + 1)).procs p = (path.state now).procs p := by
  have moved := step_moved (path.next now)
  generalize path.state (now + 1) = after at moved
  generalize here : path.label now = l at moved
  cases moved with
  | publish => rfl
  | crash =>
    refine setProc_of_ne _ _ ?_
    rintro rfl
    exact stays ⟨.crash,by simp,here⟩
  | proc q a t next stepped =>
    by_cases mine : p = q
    · subst mine
      have beat : a = .beat := by
        by_contra other
        exact stays ⟨a,other,here⟩
      subst beat
      dsimp only
      rw [setProc_self]
      exact procStep_beat stepped
    · exact setProc_of_ne _ _ mine

variable (calm : Calm path since) (late : since ≤ now)
include calm late

theorem Calm.turn_of_label (label : path.label now = .act p a) :
    ∃ next, Turn path p ((path.state now).procs p) now a next := by
  have ok := calm.ok now
  have succeeds := calm.succeeds now late
  obtain ⟨q,b,label',live⟩ := calm.acts now late
  cases label.symm.trans label'
  rw [label] at ok succeeds
  have moved := step_moved (path.next now)
  rw [label] at moved
  generalize after : path.state (now + 1) = final at moved
  cases moved with
  | crash => exact absurd rfl live
  | proc _ _ t next stepped =>
    refine ⟨next,?_,?_,succeeds,?_,?_⟩
    · rw [after]
      exact stepped
    · rw [after]
      exact setProc_self _ _ _
    · intro id clears
      exact (calm.live now).kept.cleared ok.1 clears
    · rintro round id text here rfl
      have careful := ok.1.2.1
      rw [here] at careful
      contradiction

theorem Calm.step_turn :
    ∃ p a next, Turn path p ((path.state now).procs p) now a next := by
  obtain ⟨p,a,label,_⟩ := calm.acts now late
  obtain ⟨next,turn⟩ := calm.turn_of_label late label
  exact ⟨p,a,next,turn⟩

theorem Calm.turn_of_moves
    (here : (path.state now).procs p = proc) (comes : ∃ later, now ≤ later ∧ Moves path p later) :
    ∃ later a next, now ≤ later ∧ a ≠ .beat ∧ Turn path p proc later a next := by
  obtain ⟨later,le,moves⟩ := comes
  obtain ⟨first,le,⟨a,beat,label⟩,same⟩ :=
    path.unchanged_until (fun s => s.procs p) (Moves path p) (fun _ => procs_of_not_moves) le moves
  obtain ⟨next,turn⟩ := calm.turn_of_label (Nat.le_trans late le) label
  rw [same,here] at turn
  exact ⟨first,a,next,le,beat,turn⟩

theorem Calm.turn
    (here : (path.state now).procs p = proc) (busy : proc.busy = true) :
    ∃ later a next, now ≤ later ∧ a ≠ .beat ∧ Turn path p proc later a next :=
  calm.turn_of_moves late here (calm.goes_on p now (by rw [here]; exact busy))

omit calm late

/-- The task a process is bound to finish if none of its calls fails, and how many calls it is
from removing the pending file. -/
def Proc.due : Proc → Option (Id × Nat)
  | .worker (.dropFinished _ id) | .worker (.finishTask id) => some (id,0)
  | .worker (.writing id _ _) => some (id,1)
  | .sweep (.dropPending _ id) | .sweep (.requeueing _ id _) => some (id,0)
  | .sweep (.printingResult _ id _ _ texts) => some (id,texts.length)
  | .sweep (.retiring _ id _) => some (id,3)
  | .sweep (.reading _ id) => some (id,4)
  | .sweep (.testing _ id) => some (id,5)
  | _ => none

theorem due_busy {p : Proc} (due : p.due = some d) : p.busy = true := by
  revert due
  fun_cases Proc.due p <;> intro due <;> first | rfl | contradiction

theorem judgeStale_due {round : Round} {id : Id} :
    ∃ n < 4, (Proc.sweep (judgeStale round id data)).due = some (id,n) := by
  fun_cases judgeStale round id data
  · exact ⟨3,by decide,rfl⟩
  · exact ⟨3,by decide,rfl⟩
  · exact ⟨0,by decide,rfl⟩

theorem workerStep_due {id : Id} (stepped : workerStep a t w = some (t',w'))
    (due : (Proc.worker w).due = some (id,n)) (succeeds : (Proc.worker w).fails a = false) :
    (Proc.worker w).clears a = some id ∨ ∃ m < n, (Proc.worker w').due = some (id,m) := by
  revert stepped due succeeds
  fun_cases workerStep a t w <;> rintro ⟨⟩ due succeeds
  all_goals cases due
  · rename_i scan ok
    cases ok with
    | true => exact .inl rfl
    | false => contradiction
  · rename_i text qid count closed bound
    have whole : count = text.length ∧ closed = true := by simpa using succeeds
    rw [if_pos whole]
    exact .inr ⟨0,by decide,rfl⟩
  · rename_i ok
    cases ok with
    | true => exact .inl rfl
    | false => contradiction

theorem sweepStep_due {id : Id} (stepped : sweepStep a t sweep = some (t',sweep'))
    (due : (Proc.sweep sweep).due = some (id,n)) (succeeds : (Proc.sweep sweep).fails a = false) :
    (Proc.sweep sweep).clears a = some id ∨ ∃ m < n, (Proc.sweep sweep').due = some (id,m) := by
  revert stepped due succeeds
  fun_cases sweepStep a t sweep <;> rintro ⟨⟩ due succeeds
  all_goals cases due
  · exact .inr ⟨0,by decide,rfl⟩
  · exact .inr ⟨4,by decide,rfl⟩
  · exact .inr (judgeStale_due)
  · exact .inr ⟨2,by decide,rfl⟩
  · exact .inr ⟨0,by decide,rfl⟩
  · right
    split
    next last => exact ⟨0,Nat.zero_lt_succ _,rfl⟩
    next more => exact ⟨_,Nat.lt_succ_self _,rfl⟩
  · exact .inl rfl
  · rename_i ok failed
    cases ok with
    | true => exact absurd rfl failed
    | false => contradiction
  · rename_i ok
    cases ok with
    | true => exact .inl rfl
    | false => contradiction

theorem procStep_due {id : Id} (stepped : procStep a t p = some (t',p')) (due : p.due = some (id,n))
    (succeeds : p.fails a = false) : p.clears a = some id ∨ ∃ m < n, p'.due = some (id,m) := by
  cases procStep_ran stepped with
  | worker moved => exact workerStep_due moved due succeeds
  | sweep moved => exact sweepStep_due moved due succeeds
  | orphan => contradiction

section Calls

variable {id : Id} {text : Bytes} {next : Proc}

theorem procStep_worker (stepped : procStep a t (.worker w) = some (t',next)) :
    ∃ w', workerStep a t w = some (t',w') ∧ next = .worker w' := by
  cases procStep_ran stepped with
  | worker moved => exact ⟨_,moved,rfl⟩

/-- What a call of a worker brings about when it succeeds and nothing is in its way. -/
def Worker.Brings (a : Act) (t t' : Tree) (next : Proc) : Worker → Prop
  | .dropFinished _ id => id ∉ t'.pending
  | .claiming _ id => id ∉ t.claimed → next = .worker (.claimFile id)
  | .claimFile id => next = .worker (.reading id)
  | .reading id => t.ready id = true → ∃ task, next = .worker (.running id task)
  | .running id _ => a ≠ .beat → ∃ text, next = .worker (.locking id text)
  | .locking id text => id ∉ t.locks → next = .worker (.checking id text)
  | .checking id text => id ∉ t.results → next = .worker (.creating id text)
  | .creating id text => id ∉ t.results → text.length < 8191 → next = .worker (.writing id text t.qids)
  | .dropResult id => next = .worker (.dropLock id)
  | .dropLock id => id ∉ t'.locks
  | _ => True

theorem worker_brings (stepped : procStep a t (.worker w) = some (t',next))
    (succeeds : (Proc.worker w).fails a = false) : w.Brings a t t' next := by
  obtain ⟨w',moved,rfl⟩ := procStep_worker stepped
  revert moved
  fun_cases workerStep a t w <;> rintro ⟨⟩ <;> try exact trivial
  case case10 | case29 => simp_all [Worker.Brings,mem_erase]
  case case15 =>
    intro ready
    obtain ⟨file,found,taken⟩ := (any_eq_true _ _).mp ready
    simp_all
  case case24 =>
    intro _ short
    rw [if_neg (Nat.not_le.mpr short)]
  all_goals first
    | exact rfl
    | exact fun _ => rfl
    | exact fun _ => ⟨_,rfl⟩
    | (intro clear; simp_all)

end Calls

theorem Calm.dropLock_unlocks (calm : Calm path since) {id : Id} (late : since ≤ now)
    (here : (path.state now).procs p = .worker (.dropLock id)) :
    ∃ later, now ≤ later ∧ id ∉ (path.state later).tree.locks := by
  obtain ⟨later,a,next,le,_,turn⟩ := calm.turn late here rfl
  exact ⟨later + 1,Nat.le_succ_of_le le,worker_brings turn.stepped turn.succeeds⟩

/-- A task that is pending and without a whole result for ever. -/
structure Stuck (path : Path step) (since : Nat) (id : Id) : Prop where
  pending : ∀ now, since ≤ now → id ∈ (path.state now).tree.pending
  unfinished : ∀ now, since ≤ now → (path.state now).tree.finished id = false

section Stuck

variable {id : Id} {p now : Nat} (calm : Calm path since) (stuck : Stuck path since id)
include calm stuck

theorem not_due (late : since ≤ now) : ((path.state now).procs p).due ≠ some (id,n) := by
  induction n using Nat.strongRecOn generalizing now with
  | ind n ih =>
    intro due
    obtain ⟨later,a,next,le,_,turn⟩ := calm.turn late rfl (due_busy due)
    have late' := Nat.le_trans late le
    rcases procStep_due turn.stepped due turn.succeeds with clears | ⟨m,lower,due'⟩
    · have finished := turn.clears id clears
      rw [stuck.unfinished later late'] at finished
      contradiction
    · rw [← turn.after] at due'
      exact ih m lower (Nat.le_succ_of_le late') due'

theorem absent_step (late : since ≤ now) (absent : id ∉ (path.state now).tree.results) :
    id ∉ (path.state (now + 1)).tree.results := by
  intro present
  obtain ⟨p,a,next,turn⟩ := calm.step_turn late
  rcases ((procStep_touch turn.stepped).makes absent present).2 with ⟨text,here⟩ | ⟨round,text,here⟩
  · have stepped := turn.stepped
    have succeeds := turn.succeeds
    have short := (calm.live now).short p
    rw [here] at stepped succeeds short
    have writing := turn.after.trans (worker_brings stepped succeeds absent short)
    exact not_due calm stuck (Nat.le_succ_of_le late) (by rw [writing]; rfl)
  · exact not_due calm stuck late (by rw [here]; rfl)

end Stuck

/-- From `since` on there is no result file of the task. -/
structure Bare (path : Path step) (since : Nat) (id : Id) : Prop extends Stuck path since id where
  absent : ∀ now, since ≤ now → id ∉ (path.state now).tree.results

section Bare

variable {id : Id} {p now : Nat} (calm : Calm path since) (bare : Bare path since id)
include calm bare

theorem not_creating (late : since ≤ now) : (path.state now).procs p ≠ .worker (.creating id text) := by
  intro here
  have short := (calm.live now).short p
  rw [here] at short
  obtain ⟨later,a,next,le,_,turn⟩ := calm.turn late here rfl
  have late' := Nat.le_trans late le
  have writing := turn.after.trans (worker_brings turn.stepped turn.succeeds (bare.absent later late') short)
  exact not_due calm bare.toStuck (Nat.le_succ_of_le late') (by rw [writing]; rfl)

theorem not_checking (late : since ≤ now) : (path.state now).procs p ≠ .worker (.checking id text) := by
  intro here
  obtain ⟨later,a,next,le,_,turn⟩ := calm.turn late here rfl
  have late' := Nat.le_trans late le
  exact not_creating calm bare (Nat.le_succ_of_le late')
    (turn.after.trans (worker_brings turn.stepped turn.succeeds (bare.absent later late')))

theorem unlocked_step (late : since ≤ now) (absent : id ∉ (path.state now).tree.locks) :
    id ∉ (path.state (now + 1)).tree.locks := by
  intro present
  obtain ⟨p,a,next,turn⟩ := calm.step_turn late
  have touch := procStep_locks ((calm.live now).kept.busy.fits p) turn.stepped
  rcases touch.made id present with before | ⟨text,checking⟩
  · exact absent before
  · exact not_checking calm bare (Nat.le_succ_of_le late) (turn.after.trans checking)

theorem unlocks (late : since ≤ now) : ∃ later, now ≤ later ∧ id ∉ (path.state later).tree.locks := by
  by_cases locked : id ∈ (path.state now).tree.locks
  · rcases (calm.live now).locked id locked with finished | present | ⟨p,holds⟩
    · rw [bare.unfinished now late] at finished
      contradiction
    · exact absurd present (bare.absent now late)
    · generalize here : (path.state now).procs p = proc at holds
      revert holds
      fun_cases Proc.locks proc <;> rintro ⟨⟩
      · exact absurd here (not_checking calm bare late)
      · exact absurd here (not_creating calm bare late)
      · exact absurd (by rw [here]; rfl) (not_due calm bare.toStuck late)
      · obtain ⟨later,a,next,le,_,turn⟩ := calm.turn late here rfl
        have dropping := turn.after.trans (worker_brings turn.stepped turn.succeeds)
        obtain ⟨last,le',absent⟩ :=
          calm.dropLock_unlocks (Nat.le_succ_of_le (Nat.le_trans late le)) dropping
        exact ⟨last,Nat.le_trans le (Nat.le_of_succ_le le'),absent⟩
      · exact calm.dropLock_unlocks late here
  · exact ⟨now,Nat.le_refl now,locked⟩

end Bare

/-- From `since` on nothing is in the way of a worker that claims the task. -/
structure Free (path : Path step) (since : Nat) (id : Id) : Prop extends Bare path since id where
  unlocked : ∀ now, since ≤ now → id ∉ (path.state now).tree.locks

section Free

variable {id : Id} {p now : Nat} (calm : Calm path since) (free : Free path since id)
include calm free

theorem not_locking (late : since ≤ now) : (path.state now).procs p ≠ .worker (.locking id text) := by
  intro here
  obtain ⟨later,a,next,le,_,turn⟩ := calm.turn late here rfl
  have late' := Nat.le_trans late le
  exact not_checking calm free.toBare (Nat.le_succ_of_le late')
    (turn.after.trans (worker_brings turn.stepped turn.succeeds (free.unlocked later late')))

theorem not_running (late : since ≤ now) : (path.state now).procs p ≠ .worker (.running id task) := by
  intro here
  obtain ⟨later,a,next,le,moves,turn⟩ := calm.turn late here rfl
  obtain ⟨text,locking⟩ := worker_brings turn.stepped turn.succeeds moves
  exact not_locking calm free (Nat.le_succ_of_le (Nat.le_trans late le)) (turn.after.trans locking)

theorem Free.ready (late : since ≤ now) : (path.state now).tree.ready id = true := by
  rcases (calm.live now).safe id (free.pending now late) with ready | finished
  · exact ready
  · rw [free.unfinished now late] at finished
    contradiction

theorem not_reading (late : since ≤ now) : (path.state now).procs p ≠ .worker (.reading id) := by
  intro here
  obtain ⟨later,a,next,le,_,turn⟩ := calm.turn late here rfl
  have late' := Nat.le_trans late le
  obtain ⟨task,running⟩ := worker_brings turn.stepped turn.succeeds (free.ready calm late')
  exact not_running calm free (Nat.le_succ_of_le late') (turn.after.trans running)

theorem not_claimFile (late : since ≤ now) : (path.state now).procs p ≠ .worker (.claimFile id) := by
  intro here
  obtain ⟨later,a,next,le,_,turn⟩ := calm.turn late here rfl
  exact not_reading calm free (Nat.le_succ_of_le (Nat.le_trans late le))
    (turn.after.trans (worker_brings turn.stepped turn.succeeds))

end Free

theorem Calm.mono (calm : Calm path since) (later : since ≤ after) : Calm path after where
  live := calm.live
  ok := calm.ok
  acts now late := calm.acts now (Nat.le_trans later late)
  succeeds now late := calm.succeeds now (Nat.le_trans later late)
  goes_on := calm.goes_on

theorem Stuck.mono {id : Id} (stuck : Stuck path since id) (later : since ≤ after) : Stuck path after id where
  pending now late := stuck.pending now (Nat.le_trans later late)
  unfinished now late := stuck.unfinished now (Nat.le_trans later late)

/-- The result file of a stuck task stays for ever, or from some time on nothing is in the way
of the task. -/
theorem present_or_free {id : Id} (calm : Calm path since) (stuck : Stuck path since id) :
    (∀ now, since ≤ now → id ∈ (path.state now).tree.results) ∨ ∃ after, since ≤ after ∧ Free path after id := by
  by_cases present : ∀ now, since ≤ now → id ∈ (path.state now).tree.results
  · exact .inl present
  · simp only [not_forall] at present
    obtain ⟨now,late,absent⟩ := present
    have bare : Bare path now id :=
      { stuck.mono late with
        absent := always_of_step (P := fun t => id ∉ (path.state t).tree.results)
          (fun _ => absent_step calm stuck) late absent }
    obtain ⟨later,le,unlocked⟩ := unlocks (calm.mono late) bare (Nat.le_refl now)
    refine .inr ⟨later,Nat.le_trans late le,?_⟩
    exact
      { stuck.mono (Nat.le_trans late le) with
        absent := fun t late' => bare.absent t (Nat.le_trans le late')
        unlocked := always_of_step (P := fun t => id ∉ (path.state t).tree.locks)
          (fun _ => unlocked_step (calm.mono late) bare) le unlocked }

end Objective9c.Grid
