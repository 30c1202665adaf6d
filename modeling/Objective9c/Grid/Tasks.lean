import Mathlib.Data.List.AList
import Objective9c.Lib.Transition
import Objective9c.Grid.TaskRow

/-! The task half of the grid: `O9MutWorkerRaw` and the task sweep of `O9MutRequeueStaleRaw`
over one shared tree. Every system call on the tree is one step, a label says which process
takes it and how the call ends, and a process may crash between any two steps. Journal,
heartbeat and done-marker files, which no modelled step reads, are left out. -/
namespace Objective9c.Grid

open Text

abbrev Id := Bytes

/-- A directory, by the task id its entries are named for. -/
abbrev Dir (α : Type) := AList (fun _ : Id => α)

/-- A file with the identity it keeps while it is rewritten under its name. -/
structure File where
  qid : Nat
  data : Bytes
  deriving DecidableEq

/-- `create` without `OEXCL`: the file is emptied, or made with the identity `fresh`. -/
def createFile (dir : Dir File) (fresh : Nat) (id : Id) : Dir File × Nat :=
  match dir.lookup id with
  | some file => (dir.insert id { file with data := [] },file.qid)
  | none => (dir.insert id ⟨fresh,[]⟩,fresh)

/-- A write to an open file, which is no longer the file of its name if that was removed. -/
def writeFile (dir : Dir File) (id : Id) (qid offset : Nat) (text : Bytes) : Dir File :=
  match dir.lookup id with
  | some file =>
    if file.qid = qid then dir.insert id { file with data := overwrite file.data offset text } else dir
  | none => dir

/-- `tasks/pending`, `tasks/claimed` with whether a claim has its `claim.tab`, `results`, the
`resultlock` directories of `tasks/done`, and the next identity of a file. -/
structure Tree where
  pending : Dir File
  claimed : Dir Bool
  results : Dir File
  locks : Dir Unit
  qids : Nat

/-- A pass over `tasks/pending`: its entries when it was opened, those returned so far, and
those of them not yet looked at. -/
structure Scan where
  start : List Id
  seen : List Id
  batch : List Id
  deriving DecidableEq

/-- Where a worker is; each state is named for the call it makes next. -/
inductive Worker where
  | idle
  | scanning (scan : Scan)
  | dropFinished (scan : Scan) (id : Id)
  | claiming (scan : Scan) (id : Id)
  | claimFile (id : Id)
  | reading (id : Id)
  | running (id : Id) (task : Task)
  | locking (id : Id) (text : Bytes)
  | checking (id : Id) (text : Bytes)
  | rechecking (id : Id)
  | creating (id : Id) (text : Bytes)
  | writing (id : Id) (text : Bytes) (qid : Nat)
  | dropResult (id : Id)
  | dropLock (id : Id)
  | finishTask (id : Id)
  | releaseFile (id : Id)
  | releaseDir (id : Id)
  | stopped
  deriving DecidableEq

/-- What a sweep knows from its start, and the claims it has still to look at. -/
structure Round where
  now : Int
  maxattempts : Int
  rest : List Id
  deriving DecidableEq

inductive Sweep where
  | idle
  | listing (round : Round)
  | testing (round : Round) (id : Id)
  | reading (round : Round) (id : Id)
  | retiring (round : Round) (id : Id) (text : Bytes)
  | printingResult (round : Round) (id : Id) (qid offset : Nat) (texts : List Bytes)
  | requeueing (round : Round) (id : Id) (text : Bytes)
  | printingPending (round : Round) (id : Id) (qid offset : Nat) (texts : List Bytes)
  | dropPending (round : Round) (id : Id)
  | dropFile (round : Round) (id : Id)
  | dropDir (round : Round) (id : Id)
  deriving DecidableEq

/-- An orphan is the heartbeat, forked for a gate, of a worker that crashed. -/
inductive Proc where
  | worker (w : Worker)
  | sweep (s : Sweep)
  | orphan (id : Id)
  | dead
  deriving DecidableEq

/-- A call and how it ends. `ok := false` is a call that fails for no reason of the tree. -/
inductive Act where
  | openDir
  | stop
  | dirread (batch : List Id)
  | endDir
  | access
  | mkdir (ok : Bool)
  | create (ok : Bool)
  | read (ok : Bool)
  | beat
  | gate (report : Report)
  | write (count : Nat) (closed : Bool)
  | remove (ok : Bool)
  | sweep (now maxattempts : Int) (claims : List Id)
  | stale (yes : Bool)
  | print (count : Nat)
  | endSweep
  | crash
  deriving DecidableEq

inductive Label where
  | publish (id : Id) (data : Bytes)
  | act (p : Nat) (a : Act)
  deriving DecidableEq

/-- The text of a result, with its heading, before it is cut to `buf[8192]`; a task without a gate is not run. -/
def resultText (id : Id) (task : Task) (report : Report) : Bytes :=
  resultHeader ++ resultRow id task.source task.mutant
    (if task.gate = [] then missingGate report.worker report.logpath report.finished else report)

def removeClaimFile (t : Tree) (id : Id) : Tree :=
  match t.claimed.lookup id with
  | some _ => { t with claimed := t.claimed.insert id false }
  | none => t

/-- `remove` of the claim directory, which fails while `claim.tab` is in it. -/
def removeClaimDir (t : Tree) (id : Id) : Tree :=
  match t.claimed.lookup id with
  | some false => { t with claimed := t.claimed.erase id }
  | _ => t

/-- A heartbeat: `claim.tab` is written anew. -/
def refresh (t : Tree) (id : Id) : Tree :=
  if id ∈ t.claimed then { t with claimed := t.claimed.insert id true } else t

def workerStep (a : Act) (t : Tree) (w : Worker) : Option (Tree × Worker) :=
  match w, a with
  | .idle, .openDir => some (t,.scanning ⟨t.pending.keys,[],[]⟩)
  | .idle, .stop => some (t,.stopped)
  | .scanning scan, .dirread batch =>
    if scan.batch = [] ∧ batch ≠ [] ∧ (∀ id ∈ batch, id ∈ t.pending ∧ id ∉ scan.seen) then
      some (t,.scanning { scan with seen := scan.seen ++ batch, batch })
    else none
  | .scanning scan, .endDir =>
    if scan.batch = [] ∧ ∀ id ∈ scan.start, id ∈ t.pending → id ∈ scan.seen then some (t,.idle) else none
  | .scanning scan, .access =>
    match scan.batch with
    | [] => none
    | id :: rest =>
      if id ∈ t.results then some (t,.dropFinished { scan with batch := rest } id)
      else some (t,.claiming { scan with batch := rest } id)
  | .dropFinished scan id, .remove ok =>
    some (if ok then { t with pending := t.pending.erase id } else t,.scanning scan)
  | .claiming scan id, .mkdir ok =>
    if ok ∧ id ∉ t.claimed then some ({ t with claimed := t.claimed.insert id false },.claimFile id)
    else some (t,.scanning scan)
  | .claimFile id, .create ok =>
    some (if ok ∧ id ∈ t.claimed then { t with claimed := t.claimed.insert id true } else t,.reading id)
  | .reading id, .read ok =>
    match if ok then (t.pending.lookup id).bind (readTask id ·.data) else none with
    | some task => some (t,.running id task)
    | none => some (t,.releaseFile id)
  | .running id task, .beat => some (refresh t id,.running id task)
  | .running id task, .gate report => some (t,.locking id (cut 8191 (resultText id task report)))
  | .locking id text, .mkdir ok =>
    if ok ∧ id ∉ t.locks then some ({ t with locks := t.locks.insert id () },.checking id text)
    else some (t,.rechecking id)
  | .checking id text, .access =>
    if id ∈ t.results then some (t,.rechecking id) else some (t,.creating id text)
  | .rechecking id, .access =>
    if id ∈ t.results then some (t,.finishTask id) else some (t,.releaseFile id)
  | .creating id text, .create ok =>
    if ok ∧ id ∉ t.results then
      some ({ t with results := t.results.insert id ⟨t.qids,[]⟩, qids := t.qids + 1 },
        if 8191 ≤ text.length then .dropResult id else .writing id text t.qids)
    else some (t,.dropLock id)
  | .writing id text qid, .write count closed =>
    if count ≤ text.length then
      some ({ t with results := writeFile t.results id qid 0 (text.take count) },
        if count = text.length ∧ closed then .finishTask id else .dropResult id)
    else none
  | .dropResult id, .remove ok =>
    some (if ok then { t with results := t.results.erase id } else t,.dropLock id)
  | .dropLock id, .remove ok =>
    some (if ok then { t with locks := t.locks.erase id } else t,.releaseFile id)
  | .finishTask id, .remove ok =>
    some (if ok then { t with pending := t.pending.erase id } else t,.releaseFile id)
  | .releaseFile id, .remove ok => some (if ok then removeClaimFile t id else t,.releaseDir id)
  | .releaseDir id, .remove ok => some (if ok then removeClaimDir t id else t,.idle)
  | _, _ => none

/-- What the sweep does with a stale claim that has no result, from the pending file as read. -/
def judgeStale (round : Round) (id : Id) (data : Option Bytes) : Sweep :=
  match sweepFields data with
  | none => .retiring round id (retireRow id [] [] (ascii "unreadable_pending") round.now)
  | some fields =>
    let attempt := strtol (fields 6) + 1
    if attempt > round.maxattempts then
      .retiring round id (retireRow id (fields 1) (fields 2) (ascii "max_attempts_exceeded") round.now)
    else .requeueing round id (requeueRow fields attempt)

/-- The calls of `fprint` on one open file: each may write only the first bytes of its text. -/
def printNext (offset count : Nat) (text : Bytes) : Nat := offset + min count text.length

def sweepStep (a : Act) (t : Tree) (s : Sweep) : Option (Tree × Sweep) :=
  match s, a with
  | .idle, .sweep now maxattempts claims =>
    if claims.isPerm t.claimed.keys then some (t,.listing ⟨now,maxattempts,claims⟩) else none
  | .listing round, .stale yes =>
    match round.rest with
    | [] => none
    | id :: rest =>
      if yes then some (t,.testing { round with rest } id) else some (t,.listing { round with rest })
  | .listing round, .endSweep => if round.rest = [] then some (t,.idle) else none
  | .testing round id, .access =>
    if id ∈ t.results then some (t,.dropPending round id) else some (t,.reading round id)
  | .reading round id, .read ok =>
    some (t,judgeStale round id (if ok then (t.pending.lookup id).map File.data else none))
  | .retiring round id text, .create ok =>
    if ok then
      let made := createFile t.results t.qids id
      some ({ t with results := made.1, qids := t.qids + 1 },
        .printingResult round id made.2 0 [resultHeader,text])
    else some (t,.dropPending round id)
  | .printingResult round id qid offset texts, .print count =>
    match texts with
    | [] => none
    | text :: more =>
      some ({ t with results := writeFile t.results id qid offset (text.take count) },
        if more = [] then .dropPending round id
        else .printingResult round id qid (printNext offset count text) more)
  | .requeueing round id text, .create ok =>
    if ok then
      let made := createFile t.pending t.qids id
      some ({ t with pending := made.1, qids := t.qids + 1 },
        .printingPending round id made.2 0 [taskHeader,text])
    else some (t,.dropFile round id)
  | .printingPending round id qid offset texts, .print count =>
    match texts with
    | [] => none
    | text :: more =>
      some ({ t with pending := writeFile t.pending id qid offset (text.take count) },
        if more = [] then .dropFile round id
        else .printingPending round id qid (printNext offset count text) more)
  | .dropPending round id, .remove ok =>
    some (if ok then { t with pending := t.pending.erase id } else t,.dropFile round id)
  | .dropFile round id, .remove ok => some (if ok then removeClaimFile t id else t,.dropDir round id)
  | .dropDir round id, .remove ok => some (if ok then removeClaimDir t id else t,.listing round)
  | _, _ => none

structure State where
  tree : Tree
  procs : Nat → Proc

def State.setProc (s : State) (p : Nat) (proc : Proc) : Nat → Proc :=
  fun q => if q = p then proc else s.procs q

def procStep (a : Act) (t : Tree) : Proc → Option (Tree × Proc)
  | .worker w => (workerStep a t w).map (fun next => (next.1,.worker next.2))
  | .sweep s => (sweepStep a t s).map (fun next => (next.1,.sweep next.2))
  | .orphan id => if a = .beat then some (refresh t id,.orphan id) else none
  | .dead => none

/-- What a crash leaves: the heartbeat is a process of its own. -/
def Proc.crash : Proc → Proc
  | .worker (.running id _) => .orphan id
  | _ => .dead

def step : Label → State → Option State
  | .publish id data, s =>
    if id ∈ s.tree.pending then none
    else
      some { s with
        tree := { s.tree with pending := s.tree.pending.insert id ⟨s.tree.qids,data⟩, qids := s.tree.qids + 1 } }
  | .act p .crash, s =>
    if s.procs p = .dead then none else some { s with procs := s.setProc p (s.procs p).crash }
  | .act p a, s => (procStep a s.tree (s.procs p)).map (fun next => ⟨next.1,s.setProc p next.2⟩)

def Tree.ready (t : Tree) (id : Id) : Bool :=
  (t.pending.lookup id).any (fun file => (readTask id file.data).isSome)

def Tree.finished (t : Tree) (id : Id) : Bool :=
  (t.results.lookup id).any (fun file => isResult id file.data)

def State.fresh (s : State) : Prop :=
  ∀ p, s.procs p = .worker .idle ∨ s.procs p = .sweep .idle ∨ s.procs p = .dead

end Objective9c.Grid
