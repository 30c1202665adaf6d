import Objective9c.Grid.Manifest
import Objective9c.Grid.TaskKept

/-! Drain detection. `O9MutWaitDrainRaw` counts four directories one after another, while
queue workers turn chunks into tasks and task workers turn tasks into results. Every call on
the tree is one step; the `done` markers of chunks, which no modelled step reads, are left out. -/
namespace Objective9c.Grid.Drain

open Text Option Transition

/-- The tree of the tasks, `queue/chunks/pending` and `queue/chunks/claimed`. -/
structure Files where
  tasks : Tree
  chunks : Dir Bytes
  chunkClaims : Dir Unit

/-- The chunk a queue worker expands: its name, the lines still to come, and `badchunk`. -/
structure Expansion where
  name : Id
  lines : List Bytes
  badchunk : Bool
  deriving DecidableEq

/-- Where `O9MutQueueWorkerRaw` is; each state is named for the call it makes next. -/
inductive QueueWorker where
  | idle
  | listing (names : List Id)
  | reading (name : Id)
  | expanding (e : Expansion)
  | testing (e : Expansion) (r : ManifestRow)
  | creating (e : Expansion) (r : ManifestRow)
  | writing (e : Expansion) (id : Id) (text : Bytes) (qid : Nat)
  | dropTask (e : Expansion) (id : Id)
  | marking (name : Id)
  | dropChunk (name : Id)
  | dropClaim (name : Id)
  | stopped
  deriving DecidableEq

inductive QueueAct where
  | list (names : List Id)
  | stop
  | mkdir (ok : Bool)
  | read (ok : Bool)
  | line (opens : Bool)
  | access
  | create (ok : Bool) (now : Int)
  | write (count : Nat) (closed : Bool)
  | mark (ok : Bool)
  | remove (ok : Bool)
  deriving DecidableEq

def Files.setPending (f : Files) (pending : Dir File) : Files :=
  { f with tasks := { f.tasks with pending } }

def queueStep (maxPending : Nat) (a : QueueAct) (f : Files) (w : QueueWorker) :
    Option (Files × QueueWorker) :=
  match w, a with
  | .idle, .list names => if names.isPerm f.chunks.keys then some (f,.listing names) else none
  | .idle, .stop => some (f,.stopped)
  | .listing names, .mkdir ok =>
    match names with
    | [] => none
    | name :: rest =>
      if ok ∧ name ∉ f.chunkClaims then
        some ({ f with chunkClaims := f.chunkClaims.insert name () },.reading name)
      else some (f,.listing rest)
  -- Nothing was claimed in the whole pass.
  | .listing names, .stop => if names = [] then some (f,.stopped) else none
  | .reading name, .read ok =>
    match if ok then f.chunks.lookup name else none with
    | some data =>
      if readable data then some (f,.expanding ⟨name,rowLines data,false⟩) else some (f,.dropClaim name)
    | none => some (f,.dropClaim name)
  | .expanding e, .line opens =>
    match e.lines with
    | [] => some (f,if e.badchunk then .dropClaim e.name else .marking e.name)
    | line :: rest =>
      match sixFields line with
      | none => some (f,.expanding { e with lines := rest, badchunk := true })
      | some r =>
        if opens ∧ maxPending ≤ f.tasks.pending.keys.length then some (f,.expanding e)
        else some (f,.testing { e with lines := rest } r)
  | .testing e r, .access =>
    if sanitise r.id ∈ f.tasks.pending then some (f,.expanding e) else some (f,.creating e r)
  | .creating e r, .create ok now =>
    if ok ∧ sanitise r.id ∉ f.tasks.pending then
      some ({ f with tasks := { f.tasks with
          pending := f.tasks.pending.insert (sanitise r.id) ⟨f.tasks.qids,[]⟩, qids := f.tasks.qids + 1 } },
        .writing e (sanitise r.id) (taskText now r) f.tasks.qids)
    else some (f,.expanding { e with badchunk := true })
  | .writing e id text qid, .write count closed =>
    if count ≤ text.length then
      -- A row that does not fit `taskrow[4096]` is not written at all.
      let written := if text.length < 4095 then text.take count else []
      some (f.setPending (writeFile f.tasks.pending id qid 0 written),
        if text.length < 4095 ∧ count = text.length ∧ closed then .expanding e else .dropTask e id)
    else none
  | .dropTask e id, .remove ok =>
    some (if ok then f.setPending (f.tasks.pending.erase id) else f,.expanding { e with badchunk := true })
  | .marking name, .mark ok => some (f,if ok then .dropChunk name else .dropClaim name)
  | .dropChunk name, .remove ok =>
    some (if ok then { f with chunks := f.chunks.erase name } else f,.dropClaim name)
  | .dropClaim name, .remove ok =>
    some (if ok then { f with chunkClaims := f.chunkClaims.erase name } else f,.idle)
  | _, _ => none

/-- Where `O9MutWaitDrainRaw` is: each of its counts so far, under the source's name. -/
inductive Call where
  | pending
  | claimed (pend : Nat)
  | chunks (pend claim : Nat)
  | chunkClaims (pend claim cpend : Nat)
  | judging (pend claim cpend cclaim : Nat)
  | drained
  | timedOut
  deriving DecidableEq

inductive CallAct where
  | count (opens : Bool)
  | judge (expired : Bool)
  deriving DecidableEq

/-- `o9_count_dir`: a directory that cannot be opened counts as empty. -/
def countDir (opens : Bool) (dir : Dir α) : Nat := if opens then dir.keys.length else 0

def callStep (a : CallAct) (f : Files) (c : Call) : Option Call :=
  match c, a with
  | .pending, .count opens => some (.claimed (countDir opens f.tasks.pending))
  | .claimed pend, .count opens => some (.chunks pend (countDir opens f.tasks.claimed))
  | .chunks pend claim, .count opens => some (.chunkClaims pend claim (countDir opens f.chunks))
  | .chunkClaims pend claim cpend, .count opens =>
    some (.judging pend claim cpend (countDir opens f.chunkClaims))
  | .judging pend claim cpend cclaim, .judge expired =>
    if pend = 0 ∧ claim = 0 ∧ cpend = 0 ∧ cclaim = 0 then some .drained
    else if expired then some .timedOut
    else some .pending
  | _, _ => none

structure State where
  files : Files
  maxPending : Nat
  workers : Nat → Worker
  queues : Nat → QueueWorker
  call : Call

inductive Label where
  | worker (p : Nat) (a : Act)
  | queue (q : Nat) (a : QueueAct)
  | call (a : CallAct)
  deriving DecidableEq

def step : Label → State → Option State
  | .worker p a, s =>
    (workerStep a s.files.tasks (s.workers p)).map (fun next =>
      { s with files := { s.files with tasks := next.1 }, workers := Function.update s.workers p next.2 })
  | .queue q a, s =>
    (queueStep s.maxPending a s.files (s.queues q)).map (fun next =>
      { s with files := next.1, queues := Function.update s.queues q next.2 })
  | .call a, s => (callStep a s.files s.call).map (fun call => { s with call })

def Files.Quiet (f : Files) : Prop :=
  ∀ id, id ∉ f.tasks.pending ∧ id ∉ f.tasks.claimed ∧ id ∉ f.chunks ∧ id ∉ f.chunkClaims

/-- How many directories the pass has read, if it has found nothing in them. -/
@[simp] def Call.clear : Call → Nat
  | .claimed pend => if pend = 0 then 1 else 0
  | .chunks pend claim => if pend = 0 ∧ claim = 0 then 2 else 0
  | .chunkClaims pend claim cpend => if pend = 0 ∧ claim = 0 ∧ cpend = 0 then 3 else 0
  | .judging pend claim cpend cclaim =>
    if pend = 0 ∧ claim = 0 ∧ cpend = 0 ∧ cclaim = 0 then 4 else 0
  | _ => 0

/-- The directories can be opened; and while a pass has found nothing, no task is published,
and a claim is taken only on a task or chunk that is still pending. -/
def steady : Label → State → Bool
  | .call (.count opens), _ => opens
  | .queue q (.create ok _), s =>
    match s.queues q with
    | .creating _ r => decide (ok = true ∧ sanitise r.id ∉ s.files.tasks.pending → s.call.clear = 0)
    | _ => true
  | .queue q (.mkdir ok), s =>
    match s.queues q with
    | .listing (name :: _) =>
      decide (ok = true ∧ name ∉ s.files.chunkClaims ∧ 0 < s.call.clear → name ∈ s.files.chunks)
    | _ => true
  | .worker p (.mkdir ok), s =>
    match s.workers p with
    | .claiming _ id =>
      decide (ok = true ∧ id ∉ s.files.tasks.claimed ∧ 0 < s.call.clear → id ∈ s.files.tasks.pending)
    | _ => true
  | _, _ => true

/-- What a pass has read as empty is empty. -/
structure Cleared (s : State) : Prop where
  pending : 1 ≤ s.call.clear → ∀ id, id ∉ s.files.tasks.pending
  claimed : 2 ≤ s.call.clear → ∀ id, id ∉ s.files.tasks.claimed
  chunks : 3 ≤ s.call.clear → ∀ id, id ∉ s.files.chunks
  chunkClaims : 4 ≤ s.call.clear → ∀ id, id ∉ s.files.chunkClaims

variable {s s' : State} {f f' : Files} {t t' : Tree}

/-- No directory gets an entry it did not have. -/
structure Within (f f' : Files) : Prop where
  pending : ∀ id ∈ f'.tasks.pending, id ∈ f.tasks.pending
  claimed : ∀ id ∈ f'.tasks.claimed, id ∈ f.tasks.claimed
  chunks : ∀ id ∈ f'.chunks, id ∈ f.chunks
  chunkClaims : ∀ id ∈ f'.chunkClaims, id ∈ f.chunkClaims

theorem Within.refl (f : Files) : Within f f :=
  ⟨fun _ member => member,fun _ member => member,fun _ member => member,fun _ member => member⟩

theorem Within.tasks (pending : ∀ id ∈ t.pending, id ∈ f.tasks.pending)
    (claimed : ∀ id ∈ t.claimed, id ∈ f.tasks.claimed) : Within f { f with tasks := t } :=
  ⟨pending,claimed,fun _ member => member,fun _ member => member⟩

theorem workerStep_within (stepped : workerStep a f.tasks w = some (t',w')) : Within f { f with tasks := t' } ∨
      ∃ scan id, w = .claiming scan id ∧ a = .mkdir true ∧ id ∉ f.tasks.claimed := by
  by_cases claimed : ∀ id ∈ t'.claimed, id ∈ f.tasks.claimed
  · exact .inl (.tasks (workerStep_shrinks stepped) claimed)
  · simp only [not_forall] at claimed
    obtain ⟨id,member,absent⟩ := claimed
    rcases workerStep_claims stepped member with before | ⟨scan,here,mkdir,_⟩
    · exact absurd before absent
    · exact .inr ⟨scan,id,here,mkdir,absent⟩

theorem queueStep_within (stepped : queueStep maxPending a f w = some (f',w')) : Within f f' ∨
      (∃ e r now, w = .creating e r ∧ a = .create true now ∧ sanitise r.id ∉ f.tasks.pending) ∨
      ∃ name rest, w = .listing (name :: rest) ∧ a = .mkdir true ∧ name ∉ f.chunkClaims ∧
        f' = { f with chunkClaims := f.chunkClaims.insert name () } := by
  revert stepped
  fun_cases queueStep maxPending a f w <;> rintro ⟨⟩
  all_goals try exact .inl (.refl f)
  case case5 ok name rest possible =>
    obtain ⟨rfl,absent⟩ := possible
    exact .inr (.inr ⟨name,rest,rfl,rfl,absent,rfl⟩)
  case case18 e r ok now possible =>
    obtain ⟨rfl,absent⟩ := possible
    exact .inr (.inl ⟨e,r,now,rfl,rfl,absent⟩)
  case case20 => exact .inl (.tasks (fun _ member => mem_writeFile.mp member) fun _ member => member)
  all_goals
    left
    split
    next => constructor <;> first | exact fun _ => mem_of_erase | exact fun _ member => member
    next => exact .refl f

theorem Cleared.within (cleared : Cleared s) (within : Within s.files f) (queues : Nat → QueueWorker)
    (workers : Nat → Worker) : Cleared ⟨f,s.maxPending,workers,queues,s.call⟩ :=
  ⟨fun read id member => cleared.pending read id (within.pending id member),
    fun read id member => cleared.claimed read id (within.claimed id member),
    fun read id member => cleared.chunks read id (within.chunks id member),
    fun read id member => cleared.chunkClaims read id (within.chunkClaims id member)⟩

/-- A pass that has found something, or has yet to begin, says nothing. -/
theorem Cleared.of_clear (none : s.call.clear = 0) : Cleared s := by
  constructor <;> intro read <;> rw [none] at read <;> contradiction

theorem Cleared.worker (cleared : Cleared s) (ok : steady (.worker p a) s = true)
    (stepped : step (.worker p a) s = some s') : Cleared s' := by
  obtain ⟨⟨t,w⟩,moved,rfl⟩ := map_eq_some_iff.mp stepped
  rcases workerStep_within moved with within | ⟨scan,id,here,rfl,absent⟩
  · exact cleared.within within _ _
  · -- A claim on a pending task: the pass has not found `tasks/pending` empty.
    refine .of_clear ?_
    by_contra begun
    have pending : id ∈ s.files.tasks.pending := by
      simp only [steady,here,decide_eq_true_eq] at ok
      exact ok ⟨trivial,absent,Nat.pos_of_ne_zero begun⟩
    exact cleared.pending (Nat.pos_of_ne_zero begun) id pending

theorem Cleared.queue (cleared : Cleared s) (ok : steady (.queue q a) s = true)
    (stepped : step (.queue q a) s = some s') : Cleared s' := by
  obtain ⟨⟨f,w⟩,moved,rfl⟩ := map_eq_some_iff.mp stepped
  rcases queueStep_within moved with within | ⟨e,r,now,here,rfl,absent⟩ | ⟨name,rest,here,rfl,absent,rfl⟩
  · exact cleared.within within _ _
  · refine .of_clear ?_
    simp only [steady,here,decide_eq_true_eq] at ok
    exact ok ⟨trivial,absent⟩
  · refine ⟨cleared.pending,cleared.claimed,cleared.chunks,?_⟩
    intro read
    -- The chunk is still pending, so the pass has not found the chunks empty.
    have pending : name ∈ s.files.chunks := by
      simp only [steady,here,decide_eq_true_eq] at ok
      exact ok ⟨trivial,absent,Nat.lt_of_lt_of_le (by decide) read⟩
    exact absurd pending (cleared.chunks (Nat.le_trans (by decide) read) name)

theorem not_mem_of_countDir (empty : countDir true dir = 0) (id : Id) : id ∉ dir := by
  rw [AList.mem_keys]
  have none : dir.keys = [] := List.length_eq_zero_iff.mp empty
  rw [none]
  exact List.not_mem_nil

theorem Cleared.call (cleared : Cleared s) (ok : steady (.call a) s = true)
    (stepped : step (.call a) s = some s') : Cleared s' := by
  obtain ⟨call,moved,rfl⟩ := map_eq_some_iff.mp stepped
  obtain ⟨pending,claimed,chunks,_⟩ := cleared
  revert moved
  generalize s.call = before at pending claimed chunks
  fun_cases callStep a s.files before <;> rintro ⟨⟩
  -- Either the pass has found something by now, or what it has just read is empty too.
  case case1 opens =>
    subst ok
    refine ⟨?_,?_,?_,?_⟩ <;> dsimp only [Call.clear] <;> split <;> intro read <;> try contradiction
    next empty => exact not_mem_of_countDir empty
  case case2 pend opens =>
    subst ok
    refine ⟨?_,?_,?_,?_⟩ <;> dsimp only [Call.clear] <;> split <;> intro read <;> try contradiction
    next empty => exact pending (by simp [empty])
    next empty => exact not_mem_of_countDir empty.2
  case case3 pend claim opens =>
    subst ok
    refine ⟨?_,?_,?_,?_⟩ <;> dsimp only [Call.clear] <;> split <;> intro read <;> try contradiction
    next empty => exact pending (by simp [empty])
    next empty => exact claimed (by simp [empty])
    next empty => exact not_mem_of_countDir empty.2.2
  case case4 pend claim cpend opens =>
    subst ok
    refine ⟨?_,?_,?_,?_⟩ <;> dsimp only [Call.clear] <;> split <;> intro read <;> try contradiction
    next empty => exact pending (by simp [empty])
    next empty => exact claimed (by simp [empty])
    next empty => exact chunks (by simp [empty])
    next empty => exact not_mem_of_countDir empty.2.2.2
  all_goals exact .of_clear rfl

theorem Cleared.step (cleared : Cleared s) (ok : steady l s = true) (stepped : step l s = some s') :
    Cleared s' := by
  cases l with
  | worker => exact cleared.worker ok stepped
  | queue => exact cleared.queue ok stepped
  | call => exact cleared.call ok stepped

theorem callStep_drained (judged : callStep a f c = some .drained) : c.clear = 4 := by
  revert judged
  fun_cases callStep a f c <;> rintro ⟨⟩
  next zero => exact if_pos zero

/-- When the call returns `drained`, nothing is pending and nothing claimed, in every run in which the directories can
be opened and, while a pass has found nothing, no task is published and only pending work is claimed. -/
theorem drained_call_quiet (start s : State) (labels : List Label) (expired : Bool)
    (called : start.call = .pending)
    (ran : Transition.run step (labels ++ [.call (.judge expired)]) start = some s)
    (held : Transition.Meets step (fun l s => steady l s = true)
      (labels ++ [.call (.judge expired)]) start)
    (drained : s.call = .drained) : s.files.Quiet := by
  rw [run_append,bind_eq_some_iff] at ran
  obtain ⟨before,ran,last⟩ := ran
  have cleared : Cleared before :=
    run_invariant_of_meets Cleared (fun _ _ _ cleared ok stepped => cleared.step ok stepped)
      labels start before (meets_append held ran).1 (.of_clear (by rw [called]; rfl)) ran
  obtain ⟨after,stepped,same⟩ := run_cons_some.mp last
  cases same
  obtain ⟨call,judged,rfl⟩ := map_eq_some_iff.mp stepped
  cases drained
  have four := callStep_drained judged
  intro id
  exact ⟨cleared.pending (by omega) id,cleared.claimed (by omega) id,cleared.chunks (by omega) id,
    cleared.chunkClaims (by omega) id⟩

section Runs

def chunkC : Id := ascii "c0.tab"

/-- A chunk of one row, a queue worker, and a call that begins. -/
def startC : State :=
  ⟨⟨⟨∅,∅,∅,∅,0⟩,(∅ : Dir Bytes).insert chunkC (ascii "t\ta.c\tm/a.c\ttrue\t1000\t1\n"),∅⟩,512,
    fun _ => .idle,fun _ => .idle,.pending⟩

def rowC : ManifestRow :=
  ⟨ascii "t",ascii "a.c",ascii "m/a.c",ascii "true",ascii "1000",ascii "1"⟩

/-- The queue worker claims the chunk, publishes its task and removes the chunk and the claim. -/
def expandC : List Label :=
  [.queue 0 (.list [chunkC]),.queue 0 (.mkdir true),.queue 0 (.read true),.queue 0 (.line true),
    .queue 0 .access,.queue 0 (.create true 7),.queue 0 (.write (taskText 7 rowC).length true),
    .queue 0 (.line true),.queue 0 (.mark true),.queue 0 (.remove true),.queue 0 (.remove true)]

def countC : Label := .call (.count true)

def judgeC : Label := .call (.judge false)

/-- The chunk is expanded and its task run before the call begins a pass. -/
def workC : List Label :=
  expandC ++ [.worker 0 .openDir,.worker 0 (.dirread [ascii "t"]),.worker 0 .access,
    .worker 0 (.mkdir true),.worker 0 (.create true),.worker 0 (.read true),.worker 0 (.gate reportT),
    .worker 0 (.mkdir true),.worker 0 .access,.worker 0 (.create true),
    .worker 0 (.write (resultText (ascii "t")
      ⟨ascii "a.c",ascii "m/a.c",ascii "true",ascii "1000",ascii "1",ascii "0"⟩ reportT).length true),
    .worker 0 (.remove true),.worker 0 (.remove true),.worker 0 (.remove true)]

theorem worked_call_quiet :
    ∃ s, Transition.run step (workC ++ [countC,countC,countC,countC] ++ [judgeC]) startC = some s ∧
      s.call = .drained ∧ s.files.Quiet := by
  have whole : (run step (workC ++ [countC,countC,countC,countC] ++ [judgeC]) startC).any
      (fun s => decide (s.call = .drained)) = true := by
    decide +kernel
  obtain ⟨s,ran,drained⟩ := (any_eq_true _ _).mp whole
  refine ⟨s,ran,of_decide_eq_true drained,drained_call_quiet startC s _ false rfl ran ?_
    (of_decide_eq_true drained)⟩
  exact meets_of_checks (fun _ _ ok => ok) _ _ (by decide +kernel)

/-- The chunk becomes a task after `tasks/pending` has been counted and before the chunks are. -/
theorem drained_with_task_pending :
    ¬∀ (start s : State) (labels : List Label) (expired : Bool), start.call = .pending →
      Transition.run step (labels ++ [.call (.judge expired)]) start = some s →
      s.call = .drained → s.files.Quiet := by
  intro quiet
  have missed : (run step ([countC,countC] ++ expandC ++ [countC,countC] ++ [judgeC]) startC).any
      (fun s => decide (s.call = .drained ∧ ascii "t" ∈ s.files.tasks.pending)) = true := by
    decide +kernel
  obtain ⟨s,ran,both⟩ := (any_eq_true _ _).mp missed
  obtain ⟨drained,pending⟩ := of_decide_eq_true both
  exact (quiet startC s _ false rfl ran drained (ascii "t")).1 pending

end Runs

end Objective9c.Grid.Drain
