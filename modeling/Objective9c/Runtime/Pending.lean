import Objective9c.Lib.Table
import Objective9c.Lib.Transition

/-! Completion of synchronous calls and spawned tasks in `o9_runtime.c`: the caller, the
replying actor and the reaper meet at the pending table. Each critical section, channel
operation and reference-count operation is one step.

A call is identified with its `O9SyncWait` or `O9Task`, which owns the reply channel; an
actor with its dispatch channel, and its thread id is a function of it. The fields
`registered`, `posted`, `takes`, `got`, `frees` and `misused` of a call are history: no
step of the program reads them. -/
namespace Objective9c.Pending

abbrev CallId := Nat
abbrev ActorId := Nat

def maxPending : Nat := 512
def maxActorTids : Nat := 512
def dispatchCap : Nat := 10

inductive Kind where
  | sync | task
  deriving DecidableEq

/-- `call` is the call whose message or slot this reply was made for. -/
structure Reply where
  call : CallId
  err : Option String
  ret : Int
  deriving DecidableEq

/-- Where the caller is in `obj9_msgSendN`, or in `o9_spawn_call` and `o9_task_take`. -/
inductive Pc where
  | made (tid : Int)
  | looked (tid : Int) (started : Bool)
  | listed
  | unlisted
  | sent
  | finishing
  | completing
  | dropping
  | closed
  deriving DecidableEq

structure Call where
  kind : Kind
  chan : ActorId
  pc : Pc
  ref : Int
  replyc : List Reply
  registered : Bool
  posted : Bool
  takes : Nat
  got : List Reply
  frees : Nat
  misused : Bool
  deriving DecidableEq

structure Slot where
  call : CallId
  chan : ActorId
  tid : Int
  started : Bool
  deriving DecidableEq

structure ActorTid where
  chan : ActorId
  tid : Int
  deriving DecidableEq

/-- `leaving` is between the two steps of a cleanup, `closing` after it and before the thread exits. -/
inductive Life where
  | unborn | live | leaving | closing | gone
  deriving DecidableEq

/-- What an actor does with a message; `holds` says that it took the slot, and with it
the table's reference. -/
inductive Work where
  | idle
  | running (call : CallId)
  | taken (call : CallId) (holds : Bool)
  | replied (call : CallId) (holds : Bool)
  deriving DecidableEq

structure Actor where
  life : Life
  closed : Bool
  queue : List CallId
  work : Work
  deriving DecidableEq

inductive Reaper where
  | idle
  | found (call : CallId) (chan : ActorId)
  | answered (call : CallId) (chan : ActorId)
  | dropped (chan : ActorId)
  deriving DecidableEq

/-- The tables are kept up to the highest entry ever used. -/
structure State where
  calls : CallId → Option Call
  nextCall : CallId
  actors : ActorId → Actor
  pending : List (Option Slot)
  tids : List (Option ActorTid)
  reaper : Reaper

def initial : State :=
  ⟨fun _ => none,0,fun _ => ⟨.unborn,false,[],.idle⟩,[],[],.idle⟩

def threadId (a : ActorId) : Int := a + 1

/-- A thread that has not run yet may have no pid. -/
def Life.hasPid : Life → Bool
  | .live | .leaving | .closing => true
  | .unborn | .gone => false

def State.threadAlive (s : State) (tid : Int) : Bool := (s.actors (tid - 1).toNat).life.hasPid

/-- Using the object; it must not have been freed. -/
def Call.touch (c : Call) : Call := { c with misused := c.misused || c.frees != 0 }

def Call.retain (c : Call) : Call := { c.touch with ref := c.ref + 1 }

/-- `o9_sync_release` and `o9_task_close`: the last reference drains the channel. -/
def Call.release (c : Call) : Call :=
  { c.touch with
    ref := c.ref - 1
    replyc := if c.ref - 1 = 0 then [] else c.replyc
    frees := if c.ref - 1 = 0 then c.frees + 1 else c.frees }

@[simp] def Call.goto (c : Call) (pc : Pc) : Call := { c with pc }

@[simp] def State.setCall (s : State) (k : CallId) (c : Call) : State :=
  { s with calls := fun j => if j = k then some c else s.calls j }

@[simp] def State.setActor (s : State) (a : ActorId) (x : Actor) : State :=
  { s with actors := fun b => if b = a then x else s.actors b }

def tidForChan (tids : List (Option ActorTid)) (chan : ActorId) : Int :=
  match Table.lookup ActorTid.chan chan tids with
  | some e => e.tid
  | none => 0

/-- Replace the channel's entry, or take the first free one, or else the first. -/
def actorTidPut (tids : List (Option ActorTid)) (chan : ActorId) (tid : Int) :
    List (Option ActorTid) :=
  match Table.replaceFirst (Table.has ActorTid.chan chan) (some ⟨chan,tid⟩) tids with
  | some written => written
  | none =>
    match Table.insert maxActorTids ⟨chan,tid⟩ tids with
    | some filled => filled
    | none => tids.set 0 (some ⟨chan,tid⟩)

def actorTidRemove (tids : List (Option ActorTid)) (chan : ActorId) : List (Option ActorTid) :=
  (Table.clear ActorTid.chan chan tids).1

/-- `o9_pending_take`: deactivate the slot of a reply channel, if there is one. -/
def pendingTake (call : CallId) (pending : List (Option Slot)) : List (Option Slot) × Bool :=
  Table.clear Slot.call call pending

/-- The tid the reaper tests; seeing the actor's tid records it in the slot. -/
def slotTid (tids : List (Option ActorTid)) (slot : Slot) : Int × Slot :=
  if tidForChan tids slot.chan > 0 then
    (tidForChan tids slot.chan,{ slot with tid := tidForChan tids slot.chan, started := true })
  else if slot.started || slot.tid < 0 then (slot.tid,slot)
  else (0,slot)

/-- One pass over the table, up to the first slot of a dead actor, which is taken. -/
def reaperScan (tids : List (Option ActorTid)) (alive : Int → Bool) :
    List (Option Slot) → List (Option Slot) × Option (Slot × Int)
  | [] => ([],none)
  | none :: rest => (none :: (reaperScan tids alive rest).1,(reaperScan tids alive rest).2)
  | some slot :: rest =>
    let (tid,seen) := slotTid tids slot
    if tid < 0 || (tid > 0 && !alive tid) then (none :: rest,some (seen,tid))
    else (some seen :: (reaperScan tids alive rest).1,(reaperScan tids alive rest).2)

/-- The other slots of the dead actor get its tid, which is about to be forgotten. -/
def reaperMark (chan : ActorId) (tid : Int) (pending : List (Option Slot)) : List (Option Slot) :=
  if tid > 0 then pending.map fun e => e.map fun slot =>
    if slot.chan = chan then { slot with tid, started := true } else slot
  else pending

inductive Label where
  /-- `o9_sync_new`, or `o9_task_new` with the tid given to `o9_pending_register`. -/
  | begin (kind : Kind) (chan : ActorId) (ownTid : Bool)
  | lookup (k : CallId)
  | insert (k : CallId)
  | send (k : CallId)
  | receive (k : CallId)
  | complete (k : CallId)
  | releaseTaken (k : CallId)
  | drop (k : CallId)
  | enter (a : ActorId)
  | accept (a : ActorId)
  | take (a : ActorId)
  | reply (a : ActorId) (err : Option String) (ret : Int)
  | releaseReplied (a : ActorId)
  | cleanup (a : ActorId)
  | chanclose (a : ActorId)
  | exit (a : ActorId)
  | crash (a : ActorId)
  | scan
  | answer (allocated : Bool)
  | reaperRelease
  | forget
  deriving DecidableEq

def beginCall (kind : Kind) (chan : ActorId) (ownTid : Bool) : Call :=
  match kind with
  | .sync => ⟨.sync,chan,.made 0,1,[],false,false,0,[],0,false⟩
  | .task => ⟨.task,chan,.made (if ownTid then threadId chan else 0),2,[],false,false,0,[],0,false⟩

/-- `o9_pending_register` before its lock; a sync call lends the table a reference. -/
def lookupStep (s : State) (k : CallId) (c : Call) : Option State :=
  match c.pc with
  | .made tid =>
    let looked := if tidForChan s.tids c.chan > 0 then Pc.looked (tidForChan s.tids c.chan) true
      else .looked tid false
    match c.kind with
    | .sync => some (s.setCall k (c.retain.goto looked))
    | .task => some (s.setCall k (c.goto looked))
  | _ => none

def insertStep (s : State) (k : CallId) (c : Call) : Option State :=
  match c.pc with
  | .looked tid started =>
    match Table.insert maxPending ⟨k,c.chan,tid,started⟩ s.pending with
    | some pending =>
      some { s.setCall k { c.goto .listed with registered := true } with pending }
    | none =>
      match c.kind with
      | .sync => some (s.setCall k (c.release.goto .dropping))
      | .task => some (s.setCall k (c.release.goto .unlisted))
  | _ => none

/-- A send on a closed channel fails; a spawned task does not look at the result. -/
def sendStep (s : State) (k : CallId) (c : Call) : Option State :=
  if c.pc = .listed ∨ c.pc = .unlisted then
    let x := s.actors c.chan
    if x.closed then
      match c.kind with
      | .sync => some (s.setCall k (c.goto .finishing))
      | .task => some (s.setCall k (c.goto .sent))
    else if x.queue.length < dispatchCap then
      some ((s.setCall k { c.goto .sent with posted := true }).setActor c.chan
        { x with queue := x.queue ++ [k] })
    else none
  else none

def receiveStep (s : State) (k : CallId) (c : Call) : Option State :=
  match c.pc, c.replyc with
  | .sent, r :: rest =>
    let after := match c.kind with
      | .sync => Pc.finishing
      | .task => .dropping
    some (s.setCall k { c.touch.goto after with replyc := rest, got := c.got ++ [r] })
  | _, _ => none

def completeStep (s : State) (k : CallId) (c : Call) : Option State :=
  match c.pc with
  | .finishing =>
    if (pendingTake k s.pending).2 then
      some { s.setCall k { c.touch.goto .completing with takes := c.takes + 1 } with
        pending := (pendingTake k s.pending).1 }
    else some (s.setCall k (c.touch.goto .dropping))
  | _ => none

def releaseTakenStep (s : State) (k : CallId) (c : Call) : Option State :=
  if c.pc = .completing then some (s.setCall k (c.release.goto .dropping)) else none

def dropStep (s : State) (k : CallId) (c : Call) : Option State :=
  if c.pc = .dropping then some (s.setCall k (c.release.goto .closed)) else none

def enterStep (s : State) (a : ActorId) : Option State :=
  let x := s.actors a
  if x.life = .unborn then
    some { s.setActor a { x with life := .live } with tids := actorTidPut s.tids a (threadId a) }
  else none

def acceptStep (s : State) (a : ActorId) : Option State :=
  let x := s.actors a
  match x.life, x.work, x.queue with
  | .live, .idle, k :: rest => some (s.setActor a { x with work := .running k, queue := rest })
  | _, _, _ => none

/-- The part of `o9_msg_reply` up to the send; for a task it reads `task->done`. -/
def takeStep (s : State) (a : ActorId) : Option State :=
  let x := s.actors a
  match x.work with
  | .running k =>
    if x.life = .live ∨ x.life = .closing then
      match s.calls k with
      | none => none
      | some c =>
        let read := match c.kind with
          | .sync => c
          | .task => c.touch
        let found := (pendingTake k s.pending).2
        let counted := if found then { read with takes := c.takes + 1 } else read
        some { (s.setCall k counted).setActor a { x with work := .taken k found } with
          pending := (pendingTake k s.pending).1 }
    else none
  | _ => none

/-- The send blocks while the reply channel, of one element, is full. -/
def replyStep (s : State) (a : ActorId) (err : Option String) (ret : Int) : Option State :=
  let x := s.actors a
  match x.work with
  | .taken k holds =>
    match s.calls k with
    | none => none
    | some c =>
      if c.replyc = [] then
        some ((s.setCall k { c.touch with replyc := [⟨k,err,ret⟩] }).setActor a
          { x with work := .replied k holds })
      else none
  | _ => none

def releaseRepliedStep (s : State) (a : ActorId) : Option State :=
  let x := s.actors a
  match x.work with
  | .replied k holds =>
    match s.calls k with
    | none => none
    | some c =>
      some ((s.setCall k (if holds then c.release else c)).setActor a { x with work := .idle })
  | _ => none

/-- The cleanup of a class, between messages or for a destroy message that is answered after it:
`o9_dag_actor_exit`, and then the channel is closed. -/
def cleanupStep (s : State) (a : ActorId) : Option State :=
  let x := s.actors a
  match x.life, x.work with
  | .live, .idle | .live, .running _ =>
    some { s.setActor a { x with life := .leaving } with tids := actorTidRemove s.tids a }
  | _, _ => none

def chancloseStep (s : State) (a : ActorId) : Option State :=
  let x := s.actors a
  if x.life = .leaving then some (s.setActor a { x with life := .closing, closed := true }) else none

def exitStep (s : State) (a : ActorId) : Option State :=
  let x := s.actors a
  match x.life, x.work with
  | .closing, .idle => some (s.setActor a { x with life := .gone })
  | _, _ => none

/-- The thread dies outside `o9_msg_reply`, without cleaning up. -/
def crashStep (s : State) (a : ActorId) : Option State :=
  let x := s.actors a
  match x.life, x.work with
  | .live, .idle | .live, .running _ => some (s.setActor a { x with life := .gone })
  | _, _ => none

def scanStep (s : State) : Option State :=
  match s.reaper with
  | .idle =>
    match reaperScan s.tids s.threadAlive s.pending with
    | (pending,none) => some { s with pending }
    | (pending,some (slot,tid)) =>
      match s.calls slot.call with
      | none => none
      | some c =>
        some { s.setCall slot.call { c with takes := c.takes + 1 } with
          pending := reaperMark slot.chan tid pending
          reaper := .found slot.call slot.chan }
  | _ => none

/-- The error reply is sent without blocking, and freed if the channel is full. -/
def answerStep (s : State) (allocated : Bool) : Option State :=
  match s.reaper with
  | .found k chan =>
    match s.calls k with
    | none => none
    | some c =>
      let told := if c.replyc = [] then
          { c.touch with replyc := [⟨k,some "actor exited without reply",0⟩] }
        else c.touch
      some { s.setCall k (if allocated then told else c) with reaper := .answered k chan }
  | _ => none

def reaperReleaseStep (s : State) : Option State :=
  match s.reaper with
  | .answered k chan =>
    match s.calls k with
    | none => none
    | some c => some { s.setCall k c.release with reaper := .dropped chan }
  | _ => none

def forgetStep (s : State) : Option State :=
  match s.reaper with
  | .dropped chan => some { s with tids := actorTidRemove s.tids chan, reaper := .idle }
  | _ => none

def State.onCall (s : State) (k : CallId) (f : State → CallId → Call → Option State) :
    Option State :=
  match s.calls k with
  | none => none
  | some c => f s k c

def step : Label → State → Option State
  | .begin kind chan ownTid, s =>
    some { s.setCall s.nextCall (beginCall kind chan ownTid) with nextCall := s.nextCall + 1 }
  | .lookup k, s => s.onCall k lookupStep
  | .insert k, s => s.onCall k insertStep
  | .send k, s => s.onCall k sendStep
  | .receive k, s => s.onCall k receiveStep
  | .complete k, s => s.onCall k completeStep
  | .releaseTaken k, s => s.onCall k releaseTakenStep
  | .drop k, s => s.onCall k dropStep
  | .enter a, s => enterStep s a
  | .accept a, s => acceptStep s a
  | .take a, s => takeStep s a
  | .reply a err ret, s => replyStep s a err ret
  | .releaseReplied a, s => releaseRepliedStep s a
  | .cleanup a, s => cleanupStep s a
  | .chanclose a, s => chancloseStep s a
  | .exit a, s => exitStep s a
  | .crash a, s => crashStep s a
  | .scan, s => scanStep s
  | .answer allocated, s => answerStep s allocated
  | .reaperRelease, s => reaperReleaseStep s
  | .forget, s => forgetStep s

end Objective9c.Pending
