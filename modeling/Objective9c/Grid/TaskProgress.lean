import Objective9c.Lib.Paths
import Objective9c.Grid.TaskKept

/-! What it takes for every published task to get a result: infinite runs of the grid in which
processes go on and failures end, and the conditions on single steps under which nothing is left
behind that would be retried for ever. -/
namespace Objective9c.Grid
open Text Option Bool AList
open Filter (atTop)
open Transition (Path)

/-- The call of a process fails for no reason of the tree, or writes only a part. -/
@[simp] def Proc.fails : Proc → Act → Bool
  | _, .mkdir ok | _, .create ok | _, .read ok | _, .remove ok => !ok
  | .worker (.writing _ text _), .write count closed => !(count == text.length && closed)
  | .sweep (.printingResult _ _ _ _ (text :: _)), .print count => count < text.length
  | .sweep (.printingPending _ _ _ _ (text :: _)), .print count => count < text.length
  | _, _ => false

def fails : Label → State → Bool
  | .publish _ _, _ => false
  | .act p a, s => (s.procs p).fails a

/-- The process is in the middle of something. -/
def Proc.busy : Proc → Bool
  | .worker .idle | .worker .stopped | .sweep .idle | .orphan _ | .dead => false
  | _ => true

/-- The task whose `claim.tab` the process writes, or keeps writing while the gate runs. -/
def Proc.refreshes : Proc → Option Id
  | .worker (.claimFile id) | .worker (.running id _) | .orphan id => some id
  | _ => none

/-- The task whose `resultlock` the process has made and not yet removed. -/
def Proc.locks : Proc → Option Id
  | .worker (.checking id _) | .worker (.creating id _) | .worker (.writing id _ _)
  | .worker (.dropResult id) | .worker (.dropLock id) => some id
  | _ => none

/-- A process takes a step, and one that is more than a heartbeat. -/
def Moves (path : Path step) (p t : Nat) : Prop := ∃ a, a ≠ .beat ∧ path.label t = .act p a

def FindsStale (path : Path step) (id : Id) (t : Nat) : Prop :=
  ∃ p now maxattempts rest, path.label t = .act p (.stale true) ∧
    (path.state t).procs p = .sweep (.listing ⟨now,maxattempts,id :: rest⟩)

def Claims (path : Path step) (id : Id) (t : Nat) : Prop :=
  ∃ p scan, path.label t = .act p (.mkdir true) ∧
    (path.state t).procs p = .worker (.claiming scan id) ∧ id ∉ (path.state t).tree.claimed

/-- A worker that has claimed the task accepts its row and starts its gate. -/
def StartsGate (path : Path step) (id : Id) (t : Nat) : Prop :=
  ∃ p, path.label t = .act p (.read true) ∧ (path.state t).procs p = .worker (.reading id) ∧
    (path.state t).tree.ready id = true

/-- Crashes and failures end, a process in the middle of something goes on (so every gate terminates), a worker and a
sweep keep running, and a claim that is not refreshed is found stale. -/
structure Fair (path : Path step) : Prop where
  crashes : ∀ᶠ t in atTop, ∀ p, path.label t ≠ .act p .crash
  failures : ∀ᶠ t in atTop, fails (path.label t) (path.state t) = false
  goes_on : ∀ p t, ((path.state t).procs p).busy = true → ∃ later, t ≤ later ∧ Moves path p later
  worker : ∃ p w, (path.state 0).procs p = .worker w ∧ ∀ t, ∃ later, t ≤ later ∧ Moves path p later
  sweep : ∃ p, ∀ t, ∃ later now maxattempts claims, t ≤ later ∧
    path.label later = .act p (.sweep now maxattempts claims)
  stale : ∀ id t, (∀ later, t ≤ later → id ∈ (path.state later).tree.claimed ∧
      ∀ p, ((path.state later).procs p).refreshes ≠ some id) →
    ∃ later, t ≤ later ∧ FindsStale path id later

/-- A result fits `buf[8192]`, no `resultlock` is left behind by a task without a result, and no
heartbeat by a worker. -/
def Proc.orderly (t : Tree) : Proc → Act → Bool
  | p, .crash => p.crash = .dead && p.locks.all t.finished
  | .worker (.dropLock id), .remove ok => ok || t.finished id
  | .worker (.running id task), .gate report => (resultText id task report).length < 8191
  | _, _ => true

/-- Rows that are published are accepted. -/
def orderly : Label → State → Bool
  | .publish id data, _ => (readTask id data).isSome
  | .act p a, s => (s.procs p).orderly s.tree a

def advances (l : Label) (s : State) : Prop := keepsWork l s ∧ orderly l s = true

/-- The text of the result a worker has yet to write. -/
def Proc.text : Proc → Bytes
  | .worker (.locking _ text) | .worker (.checking _ text) | .worker (.creating _ text) => text
  | _ => []

/-- A tree that nothing has been left behind in. -/
def Tree.Sound (t : Tree) : Prop :=
  (∀ id ∈ t.pending, t.ready id = true ∨ t.finished id = true) ∧ (∀ id ∈ t.locks, t.finished id = true) ∧
    ∀ id ∈ t.results, t.finished id = true

/-- What the conditions keep up. A `resultlock` without a result is in someone's hands. -/
structure Live (s : State) : Prop where
  kept : Kept s
  safe : ∀ id ∈ s.tree.pending, s.safe id
  locked : ∀ id ∈ s.tree.locks, s.tree.finished id = true ∨ id ∈ s.tree.results ∨
    ∃ p, (s.procs p).locks = some id
  short : ∀ p, (s.procs p).text.length < 8191
  tended : ∀ p id, s.procs p ≠ .orphan id

variable {s s' : State} {t t' : Tree}

theorem mem_createFile {id : Id} (member : other ∈ dir) : other ∈ (createFile dir fresh id).1 := by
  fun_cases createFile dir fresh id <;> exact (mem_insert _).mpr (.inr member)

@[simp] theorem removeClaimFile_locks (t : Tree) (id : Id) : (removeClaimFile t id).locks = t.locks := by
  unfold removeClaimFile
  split <;> rfl

@[simp] theorem refresh_locks (t : Tree) (id : Id) : (refresh t id).locks = t.locks := by
  unfold refresh
  split <;> rfl

@[simp] theorem removeClaimDir_locks (t : Tree) (id : Id) : (removeClaimDir t id).locks = t.locks := by
  unfold removeClaimDir
  split <;> rfl

theorem procStep_results (stepped : procStep a t p = some (t',p')) {id : Id} (present : id ∈ t.results) :
    id ∈ t'.results ∨ p'.locks = some id := by
  cases procStep_touch stepped with
  | leave same =>
    rw [same]
    exact .inl present
  | make other text absent made =>
    rw [made]
    exact .inl ((mem_insert _).mpr (.inr present))
  | fill _ _ _ _ _ filled | fail _ _ _ _ _ filled =>
    rw [filled]
    exact .inl (mem_writeFile.mpr present)
  | drop other ok dropped =>
    by_cases here : id = other
    · subst here
      exact .inr rfl
    · rw [dropped]
      left
      split
      · exact mem_erase.mpr ⟨here,present⟩
      · exact present
  | retire round other text made =>
    rw [made]
    exact .inl (mem_createFile present)
  | print round other qid offset count text more printed =>
    rw [printed]
    exact .inl (mem_writeFile.mpr present)
  | finish round other qid offset count text printed =>
    rw [printed]
    exact .inl (mem_writeFile.mpr present)

/-- Every way a step can treat the locks. -/
structure LockTouch (t : Tree) (a : Act) (p : Proc) (t' : Tree) (p' : Proc) : Prop where
  made : ∀ id ∈ t'.locks, id ∈ t.locks ∨ ∃ text, p' = .worker (.checking id text)
  left : ∀ id, p.locks = some id → p'.locks = some id ∨ id ∈ t.results ∨ id ∉ t'.locks ∨
    p = .worker (.dropLock id) ∧ a = .remove false

theorem LockTouch.hold (same : t'.locks = t.locks)
    (held : ∀ id, p.locks = some id → p'.locks = some id ∨ id ∈ t.results) : LockTouch t a p t' p' := by
  refine ⟨fun id member => .inl (same ▸ member),?_⟩
  intro id locks
  rcases held id locks with holds | present
  · exact .inl holds
  · exact .inr (.inl present)

theorem LockTouch.leave (same : t'.locks = t.locks) (before : p.locks = none) : LockTouch t a p t' p' := by
  refine .hold same ?_
  intro id locks
  rw [before] at locks
  contradiction

theorem workerStep_locks (fits : Fits t (.worker w)) (stepped : workerStep a t w = some (t',w')) :
    LockTouch t a (.worker w) t' (.worker w') := by
  revert stepped
  fun_cases workerStep a t w <;> rintro ⟨⟩
  all_goals first
    | exact .leave rfl rfl
    | exact .hold rfl (fun _ locks => .inl locks)
    | exact .leave (refresh_locks ..) rfl
    | (refine .leave ?_ rfl; split <;> simp)
    | skip
  · rename_i id text ok possible
    constructor
    · intro other member
      rcases (mem_insert _).mp member with rfl | member
      · exact .inr ⟨text,rfl⟩
      · exact .inl member
    · intro other locks
      contradiction
  · rename_i id text present
    refine .hold rfl ?_
    intro other locks
    cases locks
    exact .inr present
  · refine .hold rfl ?_
    intro other locks
    cases locks
    left
    split <;> rfl
  · refine .hold rfl ?_
    intro other locks
    cases locks
    exact .inr (lookup_isSome.mp (by rw [show t.results.lookup _ = _ from fits]; rfl))
  · refine .hold ?_ (fun _ locks => .inl locks)
    split <;> rfl
  · rename_i id ok
    cases ok with
    | true =>
      refine ⟨fun other member => .inl (mem_erase.mp member).2,?_⟩
      intro other locks
      cases locks
      exact .inr (.inr (.inl (fun member => (mem_erase.mp member).1 rfl)))
    | false =>
      refine ⟨fun other member => .inl member,?_⟩
      intro other locks
      cases locks
      exact .inr (.inr (.inr ⟨rfl,rfl⟩))

theorem sweepStep_locks (stepped : sweepStep a t sweep = some (t',sweep')) : t'.locks = t.locks := by
  revert stepped
  fun_cases sweepStep a t sweep <;> rintro ⟨⟩
  all_goals first
    | rfl
    | (split <;> simp)

theorem procStep_locks (fits : Fits t p) (stepped : procStep a t p = some (t',p')) : LockTouch t a p t' p' := by
  cases procStep_ran stepped with
  | worker moved => exact workerStep_locks fits moved
  | sweep moved => exact .leave (sweepStep_locks moved) rfl
  | orphan id _ same =>
    subst same
    exact .leave (refresh_locks t id) rfl

theorem workerStep_text (stepped : workerStep a t w = some (t',w')) (short : (Proc.worker w).text.length < 8191)
    (gate : ∀ id task report, w = .running id task → a = .gate report → (resultText id task report).length < 8191) :
    (Proc.worker w').text.length < 8191 := by
  revert stepped
  fun_cases workerStep a t w <;> rintro ⟨⟩
  all_goals first
    | exact short
    | exact Nat.zero_lt_succ _
    | exact Nat.lt_of_le_of_lt (cut_begins _ _).length_le (gate _ _ _ rfl rfl)
    | (split <;> exact Nat.zero_lt_succ _)

theorem procStep_text (stepped : procStep a t p = some (t',p')) (short : p.text.length < 8191)
    (gate : ∀ id task report, p = .worker (.running id task) → a = .gate report →
      (resultText id task report).length < 8191) : p'.text.length < 8191 := by
  cases procStep_ran stepped with
  | worker moved =>
    refine workerStep_text moved short ?_
    rintro id task report rfl
    exact gate id task report rfl
  | sweep | orphan => exact Nat.zero_lt_succ _

theorem mem_of_procStep (kept : Kept s) (keeps : keepsWork (.act p a) s)
    (stepped : procStep a s.tree (s.procs p) = some (t,next)) {id : Id} (member : id ∈ t.pending) :
    id ∈ s.tree.pending ∨ s.tree.finished id = true := by
  by_cases cleared : (s.procs p).clears a = some id
  · exact .inr (kept.cleared keeps cleared)
  · left
    have same := (procStep_pending stepped).elsewhere id cleared (by simp [kept.rewrites p])
    rw [← lookup_isSome,← same]
    exact lookup_isSome.mpr member

theorem Live.locked_step (live : Live s) (ok : orderly (.act p a) s = true)
    (stepped : procStep a s.tree (s.procs p) = some (t,next)) {id : Id}
    (finishes : s.tree.finished id = true → t.finished id = true) (member : id ∈ t.locks) :
    t.finished id = true ∨ id ∈ t.results ∨ ∃ q, (s.setProc p next q).locks = some id := by
  have mine : next.locks = some id → ∃ q, (s.setProc p next q).locks = some id := by
    intro locks
    exact ⟨p,by rw [setProc_self]; exact locks⟩
  have beside : id ∈ s.tree.results → id ∈ t.results ∨ ∃ q, (s.setProc p next q).locks = some id := by
    intro present
    rcases procStep_results stepped present with present | locks
    · exact .inl present
    · exact .inr (mine locks)
  have touch := procStep_locks (live.kept.busy.fits p) stepped
  rcases touch.made id member with before | ⟨text,rfl⟩
  · rcases live.locked id before with finished | present | ⟨q,locks⟩
    · exact .inl (finishes finished)
    · exact .inr (beside present)
    · by_cases here : q = p
      · subst here
        rcases touch.left id locks with locks | present | gone | ⟨dropping,rfl⟩
        · exact .inr (.inr (mine locks))
        · exact .inr (beside present)
        · exact absurd member gone
        · left
          refine finishes ?_
          rw [orderly,dropping] at ok
          exact ok
      · exact .inr (.inr ⟨q,by rw [setProc_of_ne s next here]; exact locks⟩)
  · exact .inr (.inr (mine rfl))

theorem procStep_orphan {id : Id} (stepped : procStep a t p = some (t',.orphan id)) : p = .orphan id := by
  cases procStep_ran stepped with
  | orphan => rfl

theorem Live.step (live : Live s) (advances : advances l s) (stepped : step l s = some s') : Live s' := by
  obtain ⟨keeps,ok⟩ := advances
  obtain ⟨kept,safes⟩ := live.kept.step stepped keeps
  cases step_moved stepped with
  | publish id data =>
    refine ⟨kept,?_,live.locked,live.short,live.tended⟩
    intro other member
    rcases (mem_insert _).mp member with rfl | member
    · have taken : (readTask other data).isSome = true := ok
      left
      simpa [Tree.ready] using taken
    · exact safes other (live.safe other member)
  | crash p =>
    obtain ⟨dead,held⟩ := and_eq_true_iff.mp ok
    replace dead := of_decide_eq_true dead
    refine ⟨kept,live.safe,?_,?_,?_⟩
    · intro id member
      rcases live.locked id member with finished | present | ⟨q,locks⟩
      · exact .inl finished
      · exact .inr (.inl present)
      · by_cases here : q = p
        · subst here
          left
          simpa [locks] using held
        · refine .inr (.inr ⟨q,?_⟩)
          dsimp only
          rw [setProc_of_ne s _ here]
          exact locks
    · rw [dead]
      exact forall_setProc (P := fun _ proc => proc.text.length < 8191) (Nat.zero_lt_succ _) fun q _ => live.short q
    · rw [dead]
      exact forall_setProc (P := fun _ proc => ∀ id, proc ≠ .orphan id) (by simp) fun q _ => live.tended q
  | proc p a t next moved =>
    refine ⟨kept,?_,?_,?_,?_⟩
    · intro id member
      rcases mem_of_procStep live.kept keeps moved member with member | finished
      · exact safes id (live.safe id member)
      · exact safes id (.inr finished)
    · intro id member
      exact live.locked_step ok moved (live.kept.finishes stepped keeps) member
    · refine forall_setProc (P := fun _ proc => proc.text.length < 8191) ?_ fun q _ => live.short q
      refine procStep_text moved (live.short p) ?_
      rintro id task report running rfl
      rw [orderly,running] at ok
      exact of_decide_eq_true ok
    · refine forall_setProc (P := fun _ proc => ∀ id, proc ≠ .orphan id) ?_ fun q _ => live.tended q
      rintro id rfl
      exact live.tended p id (procStep_orphan moved)

theorem State.fresh.live (fresh : s.fresh) (sound : s.tree.Sound) : Live s := by
  refine ⟨fresh.kept sound.2.2,sound.1,fun id member => .inl (sound.2.1 id member),?_,?_⟩ <;> intro p <;>
    rcases fresh p with idle | idle | idle <;> rw [idle] <;> first | exact Nat.zero_lt_succ _ | exact fun _ => nofun

end Objective9c.Grid
