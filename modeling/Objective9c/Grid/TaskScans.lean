import Mathlib.Data.Prod.Lex
import Mathlib.Data.Finset.Card
import Objective9c.Grid.TaskTurns

/-! The passes of a worker over `tasks/pending`. A worker that keeps running comes back to the
start again and again, and once it has no claim to make, each of its passes looks at every task
that stays pending. -/
namespace Objective9c.Grid
open Text List Transition Finset
open Transition (Path)

variable {s s' : State} {t t' : Tree} {path : Path step} {since : Nat}

theorem sweepStep_shrinks (stepped : sweepStep a t sweep = some (t',sweep'))
    (keeps : ∀ round id text, sweep = .requeueing round id text → a ≠ .create true) :
    ∀ id ∈ t'.pending, id ∈ t.pending := by
  revert stepped
  fun_cases sweepStep a t sweep <;> rintro ⟨⟩
  all_goals first
    | exact fun _ member => member
    | exact absurd rfl (keeps _ _ _ rfl)
    | exact fun _ member => mem_writeFile.mp member
    | (split <;> intro _ member <;> first | exact mem_of_erase member | simpa using member)

theorem Calm.pending_shrinks (calm : Calm path since) (late : since ≤ now) :
    ∀ id ∈ (path.state (now + 1)).tree.pending, id ∈ (path.state now).tree.pending := by
  obtain ⟨p,a,next,turn⟩ := calm.step_turn late
  have stepped := turn.stepped
  have keeps := turn.requeues
  generalize (path.state now).procs p = proc at stepped keeps
  cases procStep_ran stepped with
  | worker moved => exact workerStep_shrinks moved
  | sweep moved =>
    refine sweepStep_shrinks moved ?_
    rintro round id text rfl
    exact keeps round id text rfl
  | orphan id _ same =>
    rw [same,refresh_pending]
    exact fun _ member => member

def Worker.scan : Worker → Option Scan
  | .scanning scan | .dropFinished scan _ | .claiming scan _ => some scan
  | _ => none

/-- The pending tasks that a pass has not come to. -/
def unseen (t : Tree) (scan : Scan) : Nat := (t.pending.keys.toFinset \ scan.seen.toFinset).card

/-- How far a worker is from the start: the tasks its pass has yet to come to, and then the calls
it has yet to make. -/
def Worker.rank (t : Tree) : Worker → Nat ×ₗ Nat
  | .scanning scan => toLex (unseen t scan + 1,2 * scan.batch.length)
  | .dropFinished scan _ | .claiming scan _ => toLex (unseen t scan + 1,2 * scan.batch.length + 1)
  | .claimFile _ => toLex (0,11)
  | .reading _ => toLex (0,10)
  | .running _ _ => toLex (0,9)
  | .locking _ _ => toLex (0,8)
  | .checking _ _ => toLex (0,7)
  | .creating _ _ => toLex (0,6)
  | .writing _ _ _ => toLex (0,5)
  | .dropResult _ | .rechecking _ => toLex (0,4)
  | .dropLock _ | .finishTask _ => toLex (0,3)
  | .releaseFile _ => toLex (0,2)
  | .releaseDir _ => toLex (0,1)
  | .idle | .stopped => toLex (0,0)

theorem unseen_le (shrinks : ∀ id ∈ t'.pending, id ∈ t.pending) (scan : Scan) : unseen t' scan ≤ unseen t scan := by
  refine card_le_card (sdiff_subset_sdiff ?_ (Finset.Subset.refl _))
  intro id member
  rw [mem_toFinset] at member ⊢
  exact shrinks id member

def Proc.rank (t : Tree) : Proc → Nat ×ₗ Nat
  | .worker w => w.rank t
  | _ => toLex (0,0)

theorem rank_le (shrinks : ∀ id ∈ t'.pending, id ∈ t.pending) (w : Worker) : w.rank t' ≤ w.rank t := by
  fun_cases Worker.rank t w
  all_goals first
    | exact le_refl _
    | exact Prod.Lex.toLex_mono ⟨Nat.succ_le_succ (unseen_le shrinks _),le_refl _⟩

theorem unseen_lt (some : batch ≠ []) (fresh : ∀ id ∈ batch, id ∈ t.pending ∧ id ∉ scan.seen) :
    unseen t { scan with seen := scan.seen ++ batch, batch } < unseen t scan := by
  refine card_lt_card (ssubset_iff_of_subset ?_ |>.mpr ?_)
  · intro id member
    simp only [toFinset_append,mem_sdiff,mem_union,not_or] at member ⊢
    exact ⟨member.1,member.2.1⟩
  · obtain ⟨id,member⟩ := exists_mem_of_ne_nil batch some
    obtain ⟨pending,new⟩ := fresh id member
    refine ⟨id,?_,?_⟩
    · simp only [mem_sdiff,mem_toFinset]
      exact ⟨pending,new⟩
    · simp [member]

theorem pass_lt {b' : Nat} (pass : u' ≤ u) (call : b' < b) : toLex (u' + 1,b') < toLex (u + 1,b) :=
  Prod.Lex.toLex_strictMono (Prod.mk_lt_mk.mpr (.inr ⟨Nat.succ_le_succ pass,call⟩))

theorem workerStep_rank (stepped : workerStep a t w = some (t',w')) (moves : a ≠ .beat) (busy : w ≠ .idle) :
    w' = .idle ∨ w'.rank t' < w.rank t := by
  have shrinks := workerStep_shrinks stepped
  revert stepped moves busy shrinks
  fun_cases workerStep a t w <;> rintro ⟨⟩ moves busy shrinks
  all_goals first
    | exact .inl rfl
    | exact absurd rfl busy
    | exact absurd rfl moves
    | exact .inr (Prod.Lex.toLex_lt_toLex.mpr (.inr ⟨rfl,by decide⟩))
    | exact .inr (Prod.Lex.toLex_lt_toLex.mpr (.inl (Nat.succ_pos _)))
    | (split <;> exact .inr (Prod.Lex.toLex_lt_toLex.mpr (.inr ⟨rfl,by decide⟩)))
    | skip
  -- What is left are the calls of a pass.
  · rename_i scan batch possible
    exact .inr (Prod.Lex.toLex_lt_toLex.mpr (.inl (Nat.succ_lt_succ (unseen_lt possible.2.1 possible.2.2))))
  · rename_i scan id rest head present
    refine .inr (pass_lt (le_refl _) ?_)
    rw [head]
    exact Nat.lt_succ_self _
  · rename_i scan id rest head absent
    refine .inr (pass_lt (le_refl _) ?_)
    rw [head]
    exact Nat.lt_succ_self _
  · exact .inr (pass_lt (unseen_le shrinks _) (Nat.lt_succ_self _))
  · exact .inr (pass_lt (le_refl _) (Nat.lt_succ_self _))

structure Keeps (path : Path step) (p : Nat) : Prop where
  worker : ∃ w, (path.state 0).procs p = .worker w
  often : ∀ now, ∃ later, now ≤ later ∧ Moves path p later

theorem not_moves_of_dead (dead : (path.state now).procs p = .dead) : ¬Moves path p now := by
  rintro ⟨a,_,label⟩
  have stepped := path.next now
  rw [label] at stepped
  cases a <;> simp [step,dead,procStep] at stepped

theorem Keeps.alive (keeps : Keeps path p) (now : Nat) : (path.state now).procs p ≠ .dead := by
  intro dead
  obtain ⟨later,le,moves⟩ := keeps.often now
  obtain ⟨first,_,moves,same⟩ :=
    path.unchanged_until (fun s => s.procs p) (Moves path p) (fun _ => procs_of_not_moves) le moves
  exact not_moves_of_dead (same.trans dead) moves

theorem Keeps.not_orphan (keeps : Keeps path p) (now : Nat) (id : Id) : (path.state now).procs p ≠ .orphan id := by
  intro orphan
  obtain ⟨later,le,moves⟩ := keeps.often now
  obtain ⟨first,_,⟨a,beat,label⟩,same⟩ :=
    path.unchanged_until (fun s => s.procs p) (Moves path p) (fun _ => procs_of_not_moves) le moves
  have here := same.trans orphan
  have alive := keeps.alive (first + 1)
  have stepped := path.next first
  rw [label] at stepped
  cases a <;> simp [step,here,procStep,Proc.crash] at stepped beat
  exact alive (by rw [← stepped]; exact setProc_self _ _ _)

theorem Keeps.is_worker (keeps : Keeps path p) (now : Nat) : ∃ w, (path.state now).procs p = .worker w := by
  induction now with
  | zero => exact keeps.worker
  | succ now ih =>
    have alive := keeps.alive (now + 1)
    have tended := keeps.not_orphan (now + 1)
    obtain ⟨w,here⟩ := ih
    have moved := step_moved (path.next now)
    generalize path.state (now + 1) = after at moved alive tended
    generalize path.label now = l at moved
    cases moved with
    | publish => exact ⟨w,here⟩
    | crash q =>
      by_cases mine : p = q
      · subst mine
        rcases crash_cases ((path.state now).procs p) with gone | ⟨id,gone⟩
        · exact absurd ((setProc_self _ _ _).trans gone) alive
        · exact absurd ((setProc_self _ _ _).trans gone) (tended id)
      · exact ⟨w,(setProc_of_ne _ _ mine).trans here⟩
    | proc q a t next stepped =>
      by_cases mine : p = q
      · subst mine
        rw [here] at stepped
        obtain ⟨w',_,rfl⟩ := procStep_worker stepped
        exact ⟨w',setProc_self _ _ _⟩
      · exact ⟨w,(setProc_of_ne _ _ mine).trans here⟩

theorem Calm.rank_step (calm : Calm path since) (late : since ≤ now) (here : (path.state now).procs p = .worker w) (busy : w ≠ .idle)
    (after : (path.state (now + 1)).procs p = .worker w') :
    w' = .idle ∨ w'.rank (path.state (now + 1)).tree ≤ w.rank (path.state now).tree ∧
      (Moves path p now → w'.rank (path.state (now + 1)).tree < w.rank (path.state now).tree) := by
  by_cases moves : Moves path p now
  · obtain ⟨a,beat,label⟩ := moves
    obtain ⟨next,turn⟩ := calm.turn_of_label late label
    have stepped := turn.stepped
    rw [here] at stepped
    obtain ⟨w'',moved,rfl⟩ := procStep_worker stepped
    cases after.symm.trans turn.after
    rcases workerStep_rank moved beat busy with idle | lower
    · exact .inl idle
    · exact .inr ⟨le_of_lt lower,fun _ => lower⟩
  · have same := procs_of_not_moves moves
    rw [here,after] at same
    cases same
    exact .inr ⟨rank_le (calm.pending_shrinks late) _,fun moving => absurd moving moves⟩

section Passes

variable {p now : Nat} (calm : Calm path since) (keeps : Keeps path p)
include calm keeps

theorem not_stopped (late : since ≤ now) : (path.state now).procs p ≠ .worker .stopped := by
  intro here
  obtain ⟨later,a,next,_,_,turn⟩ := calm.turn_of_moves late here (keeps.often now)
  obtain ⟨w',moved,_⟩ := procStep_worker turn.stepped
  cases a <;> simp [workerStep] at moved

theorem reaches_idle (late : since ≤ now) : ∃ later, now ≤ later ∧ (path.state later).procs p = .worker .idle := by
  let rank (t : Nat) := ((path.state t).procs p).rank (path.state t).tree
  have both : ∀ t, now ≤ t → ¬(path.state t).procs p = .worker .idle →
      (path.state (t + 1)).procs p = .worker .idle ∨
        rank (t + 1) ≤ rank t ∧ (Moves path p t → rank (t + 1) < rank t) := by
    intro t le busy
    obtain ⟨w,here⟩ := keeps.is_worker t
    obtain ⟨w',after⟩ := keeps.is_worker (t + 1)
    have distinct : w ≠ .idle := by
      rintro rfl
      exact busy here
    rcases calm.rank_step (Nat.le_trans late le) here distinct after with rfl | falls
    · exact .inl after
    · right
      simpa only [rank,here,after,Proc.rank] using falls
  refine reaches_of_rank rank _ (Moves path p) now ?_ ?_ keeps.often
  · intro t le busy
    exact (both t le busy).imp_right And.left
  · intro t le busy moves
    exact (both t le busy).imp_right (fun falls => falls.2 moves)

end Passes

/-- A worker that comes to the task finds a result file, or nothing in its way. -/
def Known (path : Path step) (since : Nat) (id : Id) : Prop :=
  (∀ now, since ≤ now → id ∈ (path.state now).tree.results) ∨ Free path since id

/-- A worker in a pass over known tasks, with no claim. -/
def Passing (path : Path step) (since : Nat) : Worker → Prop
  | .idle => True
  | .scanning scan | .dropFinished scan _ => ∀ id ∈ scan.batch, Known path since id
  | .claiming scan id => (∀ id ∈ scan.batch, Known path since id) ∧ Free path since id
  | _ => False

theorem Calm.pending_since (calm : Calm path since) (late : since ≤ now) :
    ∀ id ∈ (path.state now).tree.pending, id ∈ (path.state since).tree.pending := by
  induction now, late using Nat.le_induction with
  | base => exact fun _ member => member
  | succ now late ih => exact fun id member => ih id (calm.pending_shrinks late id member)

/-- A call of a pass: the worker is done with the pass, is in it, or has made a claim. -/
theorem workerStep_passing (stepped : workerStep a t w = some (t',w')) (passing : Passing path since w)
    (known : ∀ id ∈ t.pending, Known path since id)
    (present : ∀ id, (∀ now, since ≤ now → id ∈ (path.state now).tree.results) → id ∈ t.results) :
    Passing path since w' ∨ w' = .stopped ∨ ∃ id, w' = .claimFile id ∧ Free path since id := by
  revert stepped passing
  fun_cases workerStep a t w <;> rintro ⟨⟩ passing
  all_goals first
    | exact absurd passing id
    | exact .inl trivial
    | exact .inl passing
    | exact .inr (.inl rfl)
    | skip
  · exact .inl (fun _ member => absurd member not_mem_nil)
  · rename_i scan batch possible
    exact .inl (fun id member => known id (possible.2.2 id member).1)
  · rename_i scan id rest head _
    exact .inl (fun other member => passing other (by rw [head]; exact mem_cons_of_mem id member))
  · rename_i scan id rest head absent
    refine .inl ⟨fun other member => passing other (by rw [head]; exact mem_cons_of_mem id member),?_⟩
    rcases passing id (by rw [head]; exact mem_cons_self) with always | free
    · exact absurd (present id always) absent
    · exact free
  · rename_i scan id ok possible
    exact .inr (.inr ⟨id,rfl,passing.2⟩)
  · exact .inl passing.1

/-- A pass that has not come to the task, or is about to look at it. -/
def Ahead (id : Id) (scan : Scan) : Prop := id ∈ scan.start ∧ (id ∈ scan.seen → id ∈ scan.batch)

theorem workerStep_ahead {id : Id} (stepped : workerStep a t w = some (t',w')) (here : w.scan = some scan)
    (ahead : Ahead id scan) (pending : id ∈ t.pending) : (∃ scan', w'.scan = some scan' ∧ Ahead id scan') ∨
      (∃ scan', w' = .dropFinished scan' id ∨ w' = .claiming scan' id) ∨ ∃ other, w' = .claimFile other := by
  revert stepped here
  fun_cases workerStep a t w <;> rintro ⟨⟩ here
  all_goals first
    | contradiction
    | (cases here; exact .inl ⟨_,rfl,ahead⟩)
    | cases here
  · rename_i batch possible
    refine .inl ⟨_,rfl,ahead.1,?_⟩
    intro seen
    rcases mem_append.mp seen with seen | seen
    · have empty := ahead.2 seen
      rw [possible.1] at empty
      exact absurd empty not_mem_nil
    · exact seen
  · rename_i possible
    have empty := ahead.2 (possible.2 id ahead.1 pending)
    rw [possible.1] at empty
    exact absurd empty not_mem_nil
  on_goal 3 => exact .inr (.inr ⟨_,rfl⟩)
  all_goals
    rename_i other rest _ head
    by_cases same : id = other
    · subst same
      exact .inr (.inl ⟨_,by first | exact .inl rfl | exact .inr rfl⟩)
    · refine .inl ⟨_,rfl,ahead.1,fun seen => ?_⟩
      have member := ahead.2 seen
      rw [head] at member
      exact (mem_cons.mp member).resolve_left same

section Visits

variable {p now : Nat} (calm : Calm path since) (keeps : Keeps path p)
  (known : ∀ id ∈ (path.state since).tree.pending, Known path since id)
include calm keeps known

theorem passing_step (late : since ≤ now) (here : (path.state now).procs p = .worker w)
    (passing : Passing path since w) :
    ∃ w', (path.state (now + 1)).procs p = .worker w' ∧ Passing path since w' := by
  by_cases moves : Moves path p now
  · obtain ⟨a,beat,label⟩ := moves
    obtain ⟨next,turn⟩ := calm.turn_of_label late label
    have stepped := turn.stepped
    rw [here] at stepped
    obtain ⟨w',moved,rfl⟩ := procStep_worker stepped
    refine ⟨w',turn.after,?_⟩
    rcases workerStep_passing moved passing
      (fun id member => known id (calm.pending_since late id member))
      (fun id always => always now late) with passing | rfl | ⟨id,rfl,free⟩
    · exact passing
    · exact absurd turn.after (not_stopped calm keeps (Nat.le_succ_of_le late))
    · exact absurd turn.after (not_claimFile calm free (Nat.le_succ_of_le late))
  · exact ⟨w,(procs_of_not_moves moves).trans here,passing⟩

section

variable (late : since ≤ now) (idle : (path.state now).procs p = .worker .idle)

include late idle

/-- Once back at the start, the worker makes no claim any more. -/
theorem passing_for_ever :
    ∀ later, now ≤ later → ∃ w, (path.state later).procs p = .worker w ∧ Passing path since w := by
  refine always_of_step
    (P := fun t => ∃ w, (path.state t).procs p = .worker w ∧ Passing path since w) ?_ late ⟨_,idle,trivial⟩
  rintro t late' ⟨w,here,passing⟩
  exact passing_step calm keeps known late' here passing

theorem visits {id : Id} (pending : ∀ later, now ≤ later → id ∈ (path.state later).tree.pending) :
    ∃ later scan, now ≤ later ∧ ((path.state later).procs p = .worker (.dropFinished scan id) ∨
      (path.state later).procs p = .worker (.claiming scan id)) := by
  by_contra never
  have passing := passing_for_ever calm keeps known late idle
  let inPass (t : Nat) : Prop :=
    ∃ w scan, (path.state t).procs p = .worker w ∧ w.scan = some scan ∧ Ahead id scan
  obtain ⟨first,a,next,le,_,turn⟩ := calm.turn_of_moves late idle (keeps.often now)
  have begins : inPass (first + 1) := by
    obtain ⟨w,moved,rfl⟩ := procStep_worker turn.stepped
    cases a <;> simp only [workerStep,reduceCtorEq] at moved
    · obtain ⟨_,rfl⟩ := Prod.mk.inj (Option.some.inj moved)
      exact ⟨_,_,turn.after,rfl,pending first le,fun seen => absurd seen not_mem_nil⟩
    · obtain ⟨_,rfl⟩ := Prod.mk.inj (Option.some.inj moved)
      exact absurd turn.after (not_stopped calm keeps (Nat.le_succ_of_le (Nat.le_trans late le)))
  have goes : ∀ t, now ≤ t → inPass t → inPass (t + 1) := by
    rintro t le ⟨w,scan,here,within,ahead⟩
    by_cases moves : Moves path p t
    · obtain ⟨a,_,label⟩ := moves
      obtain ⟨next,turn⟩ := calm.turn_of_label (Nat.le_trans late le) label
      have stepped := turn.stepped
      rw [here] at stepped
      obtain ⟨w',moved,rfl⟩ := procStep_worker stepped
      rcases workerStep_ahead moved within ahead (pending t le) with
        ⟨scan',within',ahead'⟩ | ⟨scan',visit⟩ | ⟨other,rfl⟩
      · exact ⟨w',scan',turn.after,within',ahead'⟩
      · refine absurd ⟨t + 1,scan',Nat.le_succ_of_le le,?_⟩ never
        rcases visit with rfl | rfl
        · exact .inl turn.after
        · exact .inr turn.after
      · obtain ⟨w'',here',passing'⟩ := passing (t + 1) (Nat.le_succ_of_le le)
        cases turn.after.symm.trans here'
        exact absurd passing' not_false
    · exact ⟨w,scan,(procs_of_not_moves moves).trans here,within,ahead⟩
  have le' := Nat.le_succ_of_le le
  obtain ⟨later,after,back⟩ := reaches_idle calm keeps (Nat.le_trans late le')
  obtain ⟨w,scan,here,within,_⟩ := always_of_step goes le' begins later after
  cases back.symm.trans here
  contradiction

end

end Visits

end Objective9c.Grid
