import Objective9c.Runtime.Pending

/-! The request router of `o9_runtime.c`: submitted requests wait in the ring of their
actor's mailbox, a worker of the mailbox passes them on to the actor one by one, and
`o9_router_unregister_actor` closes the mailbox and fails what is left in it.

Each critical section under the router's lock that other processes can look into, each
access to a ring or a channel, and each unlocked access to a mailbox is one step. A mailbox
is never freed and is found by class and object id, so it is identified with them; an actor
is identified with its dispatch channel. The fields `place` and `done` of a request and
`current` of a mailbox are history: no step of the program reads them, except that an
error put into a reply channel remembers the request it was made for. -/
namespace Objective9c.Router

open Pending (dispatchCap)

abbrev ReqId := Nat
abbrev WorkerId := Nat
abbrev ChanId := Nat

def maxObjects : Nat := 256
def ringSize : Nat := 64
def maxIdle : Nat := 50

/-- `target_class` and `oid`, as the slots and the table hold them: cut to 63 bytes. -/
structure Key where
  targetClass : String
  oid : String
  deriving DecidableEq

/-- An object table handle, `gen << 16 | idx` in 32 bits. -/
structure Handle where
  gen : Nat
  idx : Nat
  deriving DecidableEq

structure ObjEntry where
  gen : Nat
  active : Bool
  key : Key
  chan : Option ChanId
  mb : Option Key
  deriving DecidableEq

structure Slot where
  req : ReqId
  handle : Handle
  deriving DecidableEq

/-- `req` is the request whose message or slot this reply was made for. -/
structure Reply where
  req : ReqId
  err : Option String
  ret : Int
  deriving DecidableEq

def terminated (r : ReqId) : Reply := ⟨r,some "actor terminated",0⟩

structure Mailbox where
  replyc : List Reply
  ring : List Slot
  workerRunning : Bool
  inFlight : Bool
  closed : Bool
  current : ReqId
  deriving DecidableEq

def Mailbox.new : Mailbox := ⟨[],[],false,false,false,0⟩

/-- Where a worker is in `o9_router_worker`; `leaving` is its last critical section. The condition under which
a slot is passed on is read in four steps. -/
inductive Pc where
  | top
  | consume
  | idle (n : Nat)
  | idleConsume (n : Nat)
  | checkIdle (got : Option Slot)
  | lenCheck
  | resolve (slot : Slot)
  | channel (slot : Slot)
  | closing (slot : Slot)
  | recheck (slot : Slot)
  | ready (slot : Slot)
  | send (slot : Slot)
  | recv (slot : Slot) (chan : ChanId)
  | clear (slot : Slot) (reply : Reply)
  | complete (slot : Slot) (reply : Reply)
  | leaving (idle : Bool)
  | dead
  | faulted
  deriving DecidableEq

structure Worker where
  mb : Key
  pc : Pc
  deriving DecidableEq

structure Msg where
  req : ReqId
  mb : Key
  deriving DecidableEq

/-- An actor that quits reads no more messages; its channel is closed after that. -/
inductive Phase where
  | running | quitting | closed
  deriving DecidableEq

structure Actor where
  phase : Phase
  queue : List Msg
  serving : Option Msg
  deriving DecidableEq

inductive Status where
  | unused
  | entering (key : Key) (handle : Handle)
  | accepted
  | rejected
  deriving DecidableEq

inductive Place where
  | outside
  | queued (mb : Key)
  | held (w : WorkerId)
  | finished
  | dropped
  deriving DecidableEq

structure Request where
  status : Status
  place : Place
  done : List (Option Reply)
  deriving DecidableEq

/-- Who is inside the router's lock between two steps. -/
inductive Lock where
  | free
  | submitting (req : ReqId) (mb : Key)
  | draining (mb : Key)
  deriving DecidableEq

structure State where
  entries : List ObjEntry
  mailboxes : Key → Option Mailbox
  workers : WorkerId → Option Worker
  nextWorker : WorkerId
  actors : ChanId → Actor
  requests : ReqId → Request
  nextReq : ReqId
  unregs : List Key
  lock : Lock

def initial : State where
  entries := []
  mailboxes := fun _ => none
  workers := fun _ => none
  nextWorker := 0
  actors := fun _ => ⟨.running,[],none⟩
  requests := fun _ => ⟨.unused,.outside,[]⟩
  nextReq := 0
  unregs := []
  lock := .free

def State.setMailbox (s : State) (k : Key) (m : Mailbox) : State :=
  { s with mailboxes := fun j => if j = k then some m else s.mailboxes j }

def State.setWorker (s : State) (w : WorkerId) (k : Key) (pc : Pc) : State :=
  { s with workers := fun v => if v = w then some ⟨k,pc⟩ else s.workers v }

@[simp] def State.setActor (s : State) (d : ChanId) (x : Actor) : State :=
  { s with actors := fun e => if e = d then x else s.actors e }

@[simp] def State.setRequest (s : State) (r : ReqId) (q : Request) : State :=
  { s with requests := fun p => if p = r then q else s.requests p }

def State.spawnWorker (s : State) (k : Key) : State :=
  { s.setWorker s.nextWorker k .top with nextWorker := s.nextWorker + 1 }

def State.setPlace (s : State) (r : ReqId) (place : Place) : State :=
  s.setRequest r { s.requests r with place }

def State.complete (s : State) (r : ReqId) (reply : Reply) : State :=
  s.setRequest r { s.requests r with place := .finished, done := (s.requests r).done ++ [some reply] }

/-- `o9_router_fail_request`, and `o9_router_submit` returns -1. -/
def State.reject (s : State) (r : ReqId) : State :=
  s.setRequest r { s.requests r with status := .rejected, done := (s.requests r).done ++ [none] }

/-- The generation counter is 32 bits wide and skips 0. -/
def nextGen (gen : Nat) : Nat := if (gen + 1) % 2 ^ 32 = 0 then 1 else (gen + 1) % 2 ^ 32

/-- The upper half of the generation does not fit into a handle; handle 0 is none. -/
def mkHandle (gen idx : Nat) : Option Handle :=
  if gen % 2 ^ 16 = 0 ∧ idx = 0 then none else some ⟨gen % 2 ^ 16,idx⟩

def objtabFind (entries : List ObjEntry) (key : Key) : Option Nat :=
  entries.findIdx? fun e => e.active && e.key = key

/-- The entry of the object, or a free one; none when all are active. -/
def objtabRegister (entries : List ObjEntry) (key : Key) (chan : ChanId) :
    List ObjEntry × Option Handle :=
  match objtabFind entries key with
  | some i =>
    (entries.modify i fun e => { e with chan := some chan },
      (entries[i]?).bind fun e => mkHandle e.gen i)
  | none =>
    match entries.findIdx? fun e => !e.active with
    | some i =>
      let gen := nextGen ((entries[i]?).elim 0 ObjEntry.gen)
      (entries.set i ⟨gen,true,key,some chan,none⟩,mkHandle gen i)
    | none =>
      if entries.length < maxObjects then
        (entries ++ [⟨1,true,key,some chan,none⟩],mkHandle 1 entries.length)
      else (entries,none)

def objtabResolve (entries : List ObjEntry) (handle : Handle) : Option ObjEntry :=
  (entries[handle.idx]?).filter fun e => e.active && e.gen = handle.gen

def objtabUnregister (entries : List ObjEntry) (key : Key) : List ObjEntry :=
  match objtabFind entries key with
  | some i => entries.modify i fun e =>
      { e with gen := (e.gen + 1) % 2 ^ 32, active := false, chan := none, mb := none }
  | none => entries

inductive Label where
  /-- `o9_router_submit` up to its lock; `spare` says that memory for the arguments is
  there. -/
  | submit (key : Key) (chan : Option ChanId) (spare : Bool)
  | enqueue (r : ReqId) (allocated : Bool)
  | spawn (created : Bool)
  /-- The next step of a worker; `created` is the outcome of `proccreate` if it is one
  that starts a successor. -/
  | work (w : WorkerId) (created : Bool)
  /-- `o9_router_unregister_actor` up to its lock. -/
  | unregister (key : Key)
  | close (key : Key)
  | drain
  | serve (d : ChanId)
  | reply (d : ChanId) (err : Option String) (ret : Int)
  | quit (d : ChanId)
  | chanclose (d : ChanId)
  deriving DecidableEq

def submitStep (s : State) (key : Key) (chan : Option ChanId) (spare : Bool) : State :=
  let next := { s with nextReq := s.nextReq + 1 }
  match chan with
  | none => next.reject s.nextReq
  | some d =>
    if (s.actors d).phase = .closed then next.reject s.nextReq
    else
      match objtabRegister s.entries key d with
      | (entries,none) => { next with entries }.reject s.nextReq
      | (entries,some handle) =>
        if spare then
          { next with entries }.setRequest s.nextReq ⟨.entering key handle,.outside,[]⟩
        else { next with entries }.reject s.nextReq

/-- `o9_router_get_mailbox_locked` reopens the mailbox, or makes one. -/
def getMailbox (s : State) (key : Key) (allocated : Bool) : Option Mailbox :=
  match s.mailboxes key with
  | some m => some { m with closed := false }
  | none => if allocated then some .new else none

def openMailbox (s : State) (handle : Handle) : Option (Key × Mailbox) :=
  match (s.entries[handle.idx]?).bind ObjEntry.mb with
  | some k => ((s.mailboxes k).filter fun m => !m.closed).map fun m => (k,m)
  | none => none

/-- The mailbox a request goes to, and the table that points there. -/
def chooseMailbox (s : State) (key : Key) (handle : Handle) (allocated : Bool) :
    List ObjEntry × Option (Key × Mailbox) :=
  match openMailbox s handle with
  | some found => (s.entries,some found)
  | none =>
    match getMailbox s key allocated with
    | some m => (s.entries.modify handle.idx fun e => { e with mb := some key },some (key,m))
    | none => (s.entries,none)

def enqueueStep (s : State) (r : ReqId) (allocated : Bool) : Option State :=
  match s.lock, (s.requests r).status with
  | .free, .entering key handle =>
    match chooseMailbox s key handle allocated with
    | (_,none) => some (s.reject r)
    | (entries,some (k,m)) =>
      if m.ring.length < ringSize then
        let queued := { m with ring := m.ring ++ [⟨r,handle⟩] }
        some { ({ s with entries }.setMailbox k queued).setPlace r (.queued k) with
          lock := .submitting r k }
      else some (({ s with entries }.setMailbox k m).reject r)
  | _, _ => none

/-- The rest of the critical section. When no worker can be started, a slot is taken back
from the ring. -/
def spawnStep (s : State) (created : Bool) : Option State :=
  match s.lock with
  | .submitting r k =>
    match s.mailboxes k with
    | none => none
    | some m =>
      let accept (t : State) : State :=
        { t.setRequest r { t.requests r with status := .accepted } with lock := .free }
      if m.workerRunning then some (accept s)
      else if created then
        some (accept ((s.setMailbox k { m with workerRunning := true }).spawnWorker k))
      else
        match m.ring with
        | [] => some { s.reject r with lock := .free }
        | slot :: rest =>
          some { ((s.setMailbox k { m with ring := rest }).setPlace slot.req .dropped).reject r with
            lock := .free }
  | _ => none

def State.takeSlot (s : State) (w : WorkerId) (k : Key) (m : Mailbox) (slot : Slot)
    (rest : List Slot) (pc : Pc) : State :=
  ((s.setMailbox k { m with ring := rest }).setPlace slot.req (.held w)).setWorker w k pc

/-- `ent->dispatch_chan`, read anew at each use. -/
def State.dispatchChan (s : State) (slot : Slot) : Option ChanId :=
  (s.entries[slot.handle.idx]?).bind ObjEntry.chan

/-- Neither `chanclosing` nor `sendp` can do with a nil channel. -/
def State.fault (s : State) (w : WorkerId) (k : Key) (slot : Slot) : State :=
  (s.setPlace slot.req .dropped).setWorker w k .faulted

def sendStep (s : State) (w : WorkerId) (k : Key) (slot : Slot) : Option State :=
  match s.dispatchChan slot with
  | none => some (s.fault w k slot)
  | some d =>
    let x := s.actors d
    if x.phase = .closed then some (s.setWorker w k (.clear slot (terminated slot.req)))
    else if x.queue.length < dispatchCap then
      some ((s.setActor d { x with queue := x.queue ++ [⟨slot.req,k⟩] }).setWorker w k
        (.recv slot d))
    else none

def leaveStep (s : State) (w : WorkerId) (k : Key) (m : Mailbox) (created : Bool) : State :=
  let gone := s.setWorker w k .dead
  if !m.closed && !m.ring.isEmpty then
    let next := gone.setMailbox k { m with workerRunning := true }
    if created then next.spawnWorker k else next
  else gone.setMailbox k { m with workerRunning := false }

def workerStep (s : State) (w : WorkerId) (k : Key) (m : Mailbox) (created : Bool) :
    Pc → Option State
  | .top => some (s.setWorker w k (if m.closed then .leaving false else .consume))
  | .consume =>
    match m.ring with
    | [] => some (s.setWorker w k (.idle 0))
    | slot :: rest => some (s.takeSlot w k m slot rest (.resolve slot))
  | .idle n =>
    some (s.setWorker w k (if maxIdle ≤ n || m.closed then .checkIdle none else .idleConsume n))
  | .idleConsume n =>
    match m.ring with
    | [] => some (s.setWorker w k (.idle (n + 1)))
    | slot :: rest => some (s.takeSlot w k m slot rest (.checkIdle (some slot)))
  | .checkIdle got =>
    match got with
    | none => some (s.setWorker w k (if m.closed then .leaving false else .lenCheck))
    | some slot =>
      if m.closed then some ((s.setPlace slot.req .dropped).setWorker w k (.leaving false))
      else some (s.setWorker w k (.resolve slot))
  | .lenCheck =>
    if s.lock = .free then
      if m.ring.isEmpty then
        some ((s.setMailbox k { m with workerRunning := false }).setWorker w k (.leaving true))
      else some (s.setWorker w k .top)
    else none
  | .resolve slot =>
    some (s.setWorker w k (if (objtabResolve s.entries slot.handle).isSome then .channel slot
      else .complete slot (terminated slot.req)))
  | .channel slot =>
    some (s.setWorker w k (if (s.dispatchChan slot).isSome then .closing slot
      else .complete slot (terminated slot.req)))
  | .closing slot =>
    match s.dispatchChan slot with
    | none => some (s.fault w k slot)
    | some d => some (s.setWorker w k (if (s.actors d).phase = .closed then .complete slot (terminated slot.req)
        else .recheck slot))
  | .recheck slot =>
    some (s.setWorker w k (if m.closed then .complete slot (terminated slot.req) else .ready slot))
  | .ready slot =>
    some ((s.setMailbox k { m with inFlight := true, current := slot.req }).setWorker w k (.send slot))
  | .send slot => sendStep s w k slot
  | .recv slot _ =>
    match m.replyc with
    | [] => none
    | x :: rest => some ((s.setMailbox k { m with replyc := rest }).setWorker w k (.clear slot x))
  | .clear slot x =>
    some ((s.setMailbox k { m with inFlight := false }).setWorker w k (.complete slot x))
  | .complete slot x => some ((s.complete slot.req x).setWorker w k .top)
  | .leaving _ => if s.lock = .free then some (leaveStep s w k m created) else none
  | .dead | .faulted => none

def workStep (s : State) (w : WorkerId) (created : Bool) : Option State :=
  match s.workers w with
  | none => none
  | some ⟨k,pc⟩ =>
    match s.mailboxes k with
    | none => none
    | some m => workerStep s w k m created pc

/-- A request in flight gets an error through the reply channel, unless that is full. -/
def closeStep (s : State) (key : Key) : Option State :=
  if key ∈ s.unregs ∧ s.lock = .free then
    let left := { s with unregs := s.unregs.erase key }
    match s.mailboxes key with
    | none => some left
    | some m =>
      some { left.setMailbox key { m with
          closed := true
          replyc := if m.inFlight && m.replyc.isEmpty then [terminated m.current] else m.replyc } with
        lock := .draining key }
  else none

def drainStep (s : State) : Option State :=
  match s.lock with
  | .draining k =>
    match s.mailboxes k with
    | none => none
    | some m =>
      match m.ring with
      | [] => some { s with lock := .free }
      | slot :: rest =>
        some ((s.setMailbox k { m with ring := rest }).complete slot.req (terminated slot.req))
  | _ => none

def serveStep (s : State) (d : ChanId) : Option State :=
  let x := s.actors d
  match x.phase, x.serving, x.queue with
  | .running, none, msg :: rest => some (s.setActor d { x with queue := rest, serving := some msg })
  | _, _, _ => none

/-- The reply channel of a mailbox holds one reply; the actor waits for room. -/
def replyStep (s : State) (d : ChanId) (err : Option String) (ret : Int) : Option State :=
  let x := s.actors d
  match x.serving with
  | none => none
  | some msg =>
    match s.mailboxes msg.mb with
    | none => none
    | some m =>
      if m.replyc.isEmpty then
        some ((s.setMailbox msg.mb { m with replyc := [⟨msg.req,err,ret⟩] }).setActor d
          { x with serving := none })
      else none

def quitStep (s : State) (d : ChanId) : Option State :=
  let x := s.actors d
  if x.phase = .running ∧ x.serving = none then some (s.setActor d { x with phase := .quitting })
  else none

def chancloseStep (s : State) (d : ChanId) : Option State :=
  let x := s.actors d
  if x.phase = .quitting then some (s.setActor d { x with phase := .closed }) else none

def step : Label → State → Option State
  | .submit key chan spare, s => some (submitStep s key chan spare)
  | .enqueue r allocated, s => enqueueStep s r allocated
  | .spawn created, s => spawnStep s created
  | .work w created, s => workStep s w created
  | .unregister key, s =>
    some { s with entries := objtabUnregister s.entries key, unregs := key :: s.unregs }
  | .close key, s => closeStep s key
  | .drain, s => drainStep s
  | .serve d, s => serveStep s d
  | .reply d err ret, s => replyStep s d err ret
  | .quit d, s => quitStep s d
  | .chanclose d, s => chancloseStep s d

end Objective9c.Router
