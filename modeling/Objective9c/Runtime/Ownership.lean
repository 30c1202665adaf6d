import Objective9c.Runtime.Pending

/-! Who frees an `O9Msg`. The senders are the `obj9_msgSend` family of `o9_runtime.c`, the
router's workers, and the generated `o9_spawn`, `o9_spawn_call` and `o9_destroyfid`
functions. Each of them chooses where its message is stored and whether its `sync` field is
set. The generated loop of the receiving actor copies the message and frees it iff `sync`
is nil.

A block from `mallocz` keeps its identity after it is freed, and each call that allocates
a message allocates one, so both are numbered alike. The fields `frees` of a cell and
`placed` of an actor are history. -/
namespace Objective9c.Ownership

open Pending (dispatchCap)

/-- The actor of an object, or the one-shot actor that a spawn of a function makes. -/
inductive ActorId where
  | object (a : Nat)
  | spawned (n : Nat)
  deriving DecidableEq

/-- A process of `o9_router_worker` and the mailbox it serves. -/
structure WorkerId where
  mailbox : Nat
  proc : Nat
  deriving DecidableEq

/-- Where a message is stored: in a block from `mallocz`, or in the variable `m` of a
router worker's stack frame. -/
inductive Addr where
  | heap (n : Nat)
  | stack (w : WorkerId)
  deriving DecidableEq

/-- A reply channel: of an `O9SyncWait`, of an `O9Task`, or of a mailbox. -/
inductive Port where
  | sync (n : Nat)
  | task (n : Nat)
  | mailbox (k : Nat)
  deriving DecidableEq

/-- The selectors the generated loop tells apart. -/
inductive Sel where
  | run
  | destroy
  | method (hash : Nat)
  deriving DecidableEq

/-- `sync` says whether the field is set. -/
structure Msg where
  sel : Sel
  replyc : Option Port
  sync : Bool
  deriving DecidableEq

inductive Owner where
  | sender
  | loop (a : ActorId)
  deriving DecidableEq

structure Cell where
  msg : Msg
  frees : List Owner
  deriving DecidableEq

/-- `sync` is a call of the `obj9_msgSend` family, `post` one that ignores the result of
`sendp` and does not wait. -/
inductive Kind where
  | sync
  | post
  | route
  deriving DecidableEq

inductive Pc where
  | made
  | registering
  | sending
  | waiting
  | returned
  deriving DecidableEq

structure Sender where
  kind : Kind
  target : ActorId
  pc : Pc
  deriving DecidableEq

/-- Where the generated loop stands. -/
inductive Loop where
  | recv
  | serving (m : Msg)
  | served (m : Msg)
  | closing (m : Msg)
  | gone
  deriving DecidableEq

def Loop.running : Loop → Bool
  | .recv | .serving _ | .served _ => true
  | .closing _ | .gone => false

structure Actor where
  queue : List Addr
  closed : Bool
  loop : Loop
  placed : List Addr
  deriving DecidableEq

structure State where
  senders : Addr → Option Sender
  mem : Addr → Cell
  actors : ActorId → Actor
  replies : Port → Nat
  nextMsg : Nat

def initial : State where
  senders _ := none
  mem _ := ⟨⟨.run,none,false⟩,[]⟩
  actors _ := ⟨[],false,.recv,[]⟩
  replies _ := 0
  nextMsg := 0

@[simp] def State.setSender (s : State) (x : Addr) (sender : Sender) : State :=
  { s with senders := fun y => if y = x then some sender else s.senders y }

def State.setMsg (s : State) (x : Addr) (m : Msg) : State :=
  { s with mem := fun y => if y = x then { s.mem x with msg := m } else s.mem y }

@[simp] def State.free (s : State) (x : Addr) (owner : Owner) : State :=
  { s with mem := fun y =>
      if y = x then { s.mem x with frees := (s.mem x).frees ++ [owner] } else s.mem y }

@[simp] def State.setActor (s : State) (a : ActorId) (actor : Actor) : State :=
  { s with actors := fun b => if b = a then actor else s.actors b }

def State.reply (s : State) : Option Port → State
  | none => s
  | some port => { s with replies := fun q => if q = port then s.replies q + 1 else s.replies q }

/-- `mallocz` of a message together with what its sender sets at once. -/
def State.alloc (s : State) (sender : Sender) (m : Msg) : State :=
  { (s.setSender (.heap s.nextMsg) sender).setMsg (.heap s.nextMsg) m with nextMsg := s.nextMsg + 1 }

inductive Label where
  | call (a : Nat) (sel : Sel)
  | syncNew (n : Nat) (ok : Bool)
  | register (n : Nat) (ok : Bool)
  | spawn
  | spawnCall (a : Nat)
  | destroyfid (a : Nat)
  | route (w : WorkerId) (a : Nat) (sel : Sel)
  | put (x : Addr)
  | awake (x : Addr)
  | reap (n : Nat)
  | terminate (k : Nat)
  | receive (a : ActorId)
  | handle (a : ActorId)
  | next (a : ActorId)
  | crash (a : ActorId)
  deriving DecidableEq

/-- `obj9_msgSendN` up to its `mallocz`. -/
def callStep (a : Nat) (sel : Sel) (s : State) : State :=
  s.alloc ⟨.sync,.object a,.made⟩ ⟨sel,none,false⟩

def syncNewStep (n : Nat) (ok : Bool) (s : State) : Option State :=
  match s.senders (.heap n) with
  | some ⟨kind,target,.made⟩ =>
    if ok then
      let m := (s.mem (.heap n)).msg
      some ((s.setMsg (.heap n) { m with replyc := some (.sync n), sync := true }).setSender
        (.heap n) ⟨kind,target,.registering⟩)
    else some ((s.free (.heap n) .sender).setSender (.heap n) ⟨kind,target,.returned⟩)
  | _ => none

/-- `o9_pending_register` finds a slot iff `ok`. -/
def registerStep (n : Nat) (ok : Bool) (s : State) : Option State :=
  match s.senders (.heap n) with
  | some ⟨kind,target,.registering⟩ =>
    if ok then some (s.setSender (.heap n) ⟨kind,target,.sending⟩)
    else some ((s.free (.heap n) .sender).setSender (.heap n) ⟨kind,target,.returned⟩)
  | _ => none

/-- `o9_spawn`, with the instance and its loop's thread. -/
def spawnStep (s : State) : State :=
  s.alloc ⟨.post,.spawned s.nextMsg,.sending⟩ ⟨.run,some (.task s.nextMsg),false⟩

def spawnCallStep (a : Nat) (s : State) : State :=
  s.alloc ⟨.post,.object a,.sending⟩ ⟨.run,some (.task s.nextMsg),false⟩

def destroyfidStep (a : Nat) (s : State) : State :=
  s.alloc ⟨.post,.object a,.sending⟩ ⟨.destroy,none,false⟩

/-- The worker fills its local `m` for the next slot of its ring. -/
def routeStep (w : WorkerId) (a : Nat) (sel : Sel) (s : State) : Option State :=
  if (s.senders (.stack w)).all (fun sender => sender.pc = .returned) then
    some ((s.setMsg (.stack w) ⟨sel,some (.mailbox w.mailbox),false⟩).setSender (.stack w)
      ⟨.route,.object a,.sending⟩)
  else none

def putStep (x : Addr) (s : State) : Option State :=
  match s.senders x with
  | some ⟨kind,target,.sending⟩ =>
    let actor := s.actors target
    if actor.closed then
      match kind with
      | .sync => some ((s.free x .sender).setSender x ⟨kind,target,.returned⟩)
      | .post | .route => some (s.setSender x ⟨kind,target,.returned⟩)
    else if actor.queue.length < dispatchCap then
      let s := s.setActor target
        { actor with queue := actor.queue ++ [x], placed := actor.placed ++ [x] }
      match kind with
      | .post => some (s.setSender x ⟨kind,target,.returned⟩)
      | .sync | .route => some (s.setSender x ⟨kind,target,.waiting⟩)
    else none
  | _ => none

def Addr.port : Addr → Port
  | .heap n => .sync n
  | .stack w => .mailbox w.mailbox

def awakeStep (x : Addr) (s : State) : Option State :=
  match s.senders x with
  | some ⟨kind,target,.waiting⟩ =>
    if 0 < s.replies x.port then
      let s := { s with replies := fun q => if q = x.port then s.replies q - 1 else s.replies q }
      match kind with
      | .sync => some ((s.free x .sender).setSender x ⟨kind,target,.returned⟩)
      | .post | .route => some (s.setSender x ⟨kind,target,.returned⟩)
    else none
  | _ => none

/-- The reaper answers a caller whose callee's thread is gone. -/
def reapStep (n : Nat) (s : State) : Option State :=
  match s.senders (.heap n) with
  | some ⟨.sync,target,.waiting⟩ =>
    if (s.actors target).loop = .gone ∧ s.replies (.sync n) = 0 then some (s.reply (some (.sync n)))
    else none
  | _ => none

/-- `__m = *m; if(__m.sync == nil) free(m);` -/
def receiveStep (a : ActorId) (s : State) : Option State :=
  let actor := s.actors a
  match actor.loop,actor.queue with
  | .recv,x :: rest =>
    let m := (s.mem x).msg
    let s := s.setActor a { actor with queue := rest, loop := .serving m }
    some (if m.sync then s else s.free x (.loop a))
  | _,_ => none

/-- One case of the switch. `destroy` runs the cleanup, which closes the channel. -/
def handleStep (a : ActorId) (s : State) : Option State :=
  let actor := s.actors a
  match actor.loop with
  | .serving m =>
    if m.sel = .destroy then some (s.setActor a { actor with closed := true, loop := .closing m })
    else some ((s.setActor a { actor with loop := .served m }).reply m.replyc)
  | _ => none

/-- The one-shot actor of a spawned function exits after its `run`. -/
def ActorId.oneShot : ActorId → Bool
  | .object _ => false
  | .spawned _ => true

def nextStep (a : ActorId) (s : State) : Option State :=
  let actor := s.actors a
  match actor.loop with
  | .served m =>
    if a.oneShot = true ∧ m.sel = .run then
      some (s.setActor a { actor with closed := true, loop := .gone })
    else some (s.setActor a { actor with loop := .recv })
  | .closing m => some ((s.setActor a { actor with loop := .gone }).reply m.replyc)
  | _ => none

def crashStep (a : ActorId) (s : State) : Option State :=
  if (s.actors a).loop = .gone then none else some (s.setActor a { s.actors a with loop := .gone })

def step : Label → State → Option State
  | .call a sel, s => some (callStep a sel s)
  | .syncNew n ok, s => syncNewStep n ok s
  | .register n ok, s => registerStep n ok s
  | .spawn, s => some (spawnStep s)
  | .spawnCall a, s => some (spawnCallStep a s)
  | .destroyfid a, s => some (destroyfidStep a s)
  | .route w a sel, s => routeStep w a sel s
  | .put x, s => putStep x s
  | .awake x, s => awakeStep x s
  | .reap n, s => reapStep n s
  | .terminate k, s => some (s.reply (some (.mailbox k)))
  | .receive a, s => receiveStep a s
  | .handle a, s => handleStep a s
  | .next a, s => nextStep a s
  | .crash a, s => crashStep a s

/-- Where a message that was sent leaves its sender. -/
def Kind.afterSend : Kind → Pc
  | .post => .returned
  | .sync | .route => .waiting

/-- A step of a sender before its `sendp`. -/
def Label.prepares : Label → Bool
  | .call _ _ | .syncNew _ _ | .register _ _ | .spawn | .spawnCall _ | .destroyfid _ => true
  | _ => false

/-- What a step of each kind does, with what it has checked. -/
inductive Move (s : State) : Label → State → Prop where
  | call : Move s (.call a sel) (s.alloc ⟨.sync,.object a,.made⟩ ⟨sel,none,false⟩)
  | post (target : ActorId) (sel : Sel) (replyc : Option Port)
      (other : ∀ n, replyc ≠ some (.sync n)) (prepares : label.prepares = true) :
      Move s label (s.alloc ⟨.post,target,.sending⟩ ⟨sel,replyc,false⟩)
  | syncNew (here : s.senders (.heap n) = some ⟨kind,target,.made⟩) :
      Move s (.syncNew n true)
        ((s.setMsg (.heap n) ⟨(s.mem (.heap n)).msg.sel,some (.sync n),true⟩).setSender (.heap n)
          ⟨kind,target,.registering⟩)
  | register (here : s.senders (.heap n) = some ⟨kind,target,.registering⟩) :
      Move s (.register n true) (s.setSender (.heap n) ⟨kind,target,.sending⟩)
  | abandon (here : s.senders (.heap n) = some ⟨kind,target,pc⟩)
      (before : pc = .made ∨ pc = .registering) (prepares : label.prepares = true) :
      Move s label ((s.free (.heap n) .sender).setSender (.heap n) ⟨kind,target,.returned⟩)
  | route (ready : ∀ sender, s.senders (.stack w) = some sender → sender.pc = .returned) :
      Move s (.route w a sel) ((s.setMsg (.stack w) ⟨sel,some (.mailbox w.mailbox),false⟩).setSender
        (.stack w) ⟨.route,.object a,.sending⟩)
  | refused (here : s.senders x = some ⟨.sync,target,.sending⟩)
      (closed : (s.actors target).closed = true) :
      Move s (.put x) ((s.free x .sender).setSender x ⟨.sync,target,.returned⟩)
  | ignored (here : s.senders x = some ⟨kind,target,.sending⟩) (other : kind ≠ .sync)
      (closed : (s.actors target).closed = true) :
      Move s (.put x) (s.setSender x ⟨kind,target,.returned⟩)
  | put (here : s.senders x = some ⟨kind,target,.sending⟩)
      (opened : (s.actors target).closed = false) :
      Move s (.put x) ((s.setActor target { s.actors target with
        queue := (s.actors target).queue ++ [x],
        placed := (s.actors target).placed ++ [x] }).setSender x
          ⟨kind,target,kind.afterSend⟩)
  | finish (here : s.senders x = some ⟨.sync,target,.waiting⟩) (answered : 0 < s.replies x.port) :
      Move s (.awake x) (({ s with replies := fun q =>
        if q = x.port then s.replies q - 1 else s.replies q }.free x .sender).setSender x
          ⟨.sync,target,.returned⟩)
  | routed (here : s.senders x = some ⟨kind,target,.waiting⟩) (other : kind ≠ .sync) :
      Move s (.awake x) ({ s with replies := fun q =>
        if q = x.port then s.replies q - 1 else s.replies q }.setSender x ⟨kind,target,.returned⟩)
  | reap (here : s.senders (.heap n) = some ⟨.sync,target,.waiting⟩)
      (gone : (s.actors target).loop = .gone) : Move s (.reap n) (s.reply (some (.sync n)))
  | terminate : Move s (.terminate k) (s.reply (some (.mailbox k)))
  | keep (loop : (s.actors a).loop = .recv) (queue : (s.actors a).queue = x :: rest)
      (sync : (s.mem x).msg.sync = true) :
      Move s (.receive a) (s.setActor a { s.actors a with
        queue := rest, loop := .serving (s.mem x).msg })
  | release (loop : (s.actors a).loop = .recv) (queue : (s.actors a).queue = x :: rest)
      (sync : (s.mem x).msg.sync = false) :
      Move s (.receive a) ((s.setActor a { s.actors a with
        queue := rest, loop := .serving (s.mem x).msg }).free x (.loop a))
  | cleanup (loop : (s.actors a).loop = .serving m) (destroy : m.sel = .destroy) :
      Move s (.handle a) (s.setActor a { s.actors a with closed := true, loop := .closing m })
  | serve (loop : (s.actors a).loop = .serving m) (other : m.sel ≠ .destroy) :
      Move s (.handle a) ((s.setActor a { s.actors a with loop := .served m }).reply m.replyc)
  | retire (loop : (s.actors a).loop = .served m) (oneShot : a.oneShot = true) (run : m.sel = .run) :
      Move s (.next a) (s.setActor a { s.actors a with closed := true, loop := .gone })
  | again (loop : (s.actors a).loop = .served m) (other : ¬(a.oneShot = true ∧ m.sel = .run)) :
      Move s (.next a) (s.setActor a { s.actors a with loop := .recv })
  | exit (loop : (s.actors a).loop = .closing m) :
      Move s (.next a) ((s.setActor a { s.actors a with loop := .gone }).reply m.replyc)
  | crash : Move s (.crash a) (s.setActor a { s.actors a with loop := .gone })

theorem put_move (stepped : putStep x s = some s') : Move s (.put x) s' := by
  unfold putStep at stepped
  split at stepped
  next kind target here =>
    dsimp only at stepped
    split at stepped
    next closed =>
      cases kind with
      | sync => cases stepped; exact .refused here closed
      | post | route => cases stepped; exact .ignored here nofun closed
    next opened =>
      split at stepped
      · cases kind <;> (cases stepped; exact .put here (by simpa using opened))
      · contradiction
  next => contradiction

theorem awake_move (stepped : awakeStep x s = some s') : Move s (.awake x) s' := by
  unfold awakeStep at stepped
  split at stepped
  next kind target here =>
    split at stepped
    next answered =>
      cases kind with
      | sync => cases stepped; exact .finish here answered
      | post | route => cases stepped; exact .routed here nofun
    next => contradiction
  next => contradiction

theorem loop_move (stepped : step label s = some s')
    (loop : label = .receive a ∨ label = .handle a ∨ label = .next a) : Move s label s' := by
  rcases loop with rfl | rfl | rfl
  · simp only [step,receiveStep] at stepped
    split at stepped
    next x rest loop queue =>
      by_cases sync : (s.mem x).msg.sync = true
      · rw [if_pos sync] at stepped; cases stepped; exact .keep loop queue sync
      · rw [if_neg sync] at stepped; cases stepped; exact .release loop queue (by simpa using sync)
    next => contradiction
  · simp only [step,handleStep] at stepped
    split at stepped
    next m loop =>
      split at stepped
      next destroy => cases stepped; exact .cleanup loop destroy
      next other => cases stepped; exact .serve loop other
    next => contradiction
  · simp only [step,nextStep] at stepped
    split at stepped
    next m loop =>
      split at stepped
      next exits => cases stepped; exact .retire loop exits.1 exits.2
      next other => cases stepped; exact .again loop other
    next m loop => cases stepped; exact .exit loop
    next => contradiction

theorem step_move (stepped : step label s = some s') : Move s label s' := by
  cases label with
  | call => cases stepped; exact .call
  | spawn | spawnCall | destroyfid => cases stepped; exact .post _ _ _ nofun rfl
  | syncNew n ok =>
    simp only [step,syncNewStep] at stepped
    split at stepped
    next kind target here =>
      cases ok <;> cases stepped
      · exact .abandon here (.inl rfl) rfl
      · exact .syncNew here
    next => contradiction
  | register n ok =>
    simp only [step,registerStep] at stepped
    split at stepped
    next kind target here =>
      cases ok <;> cases stepped
      · exact .abandon here (.inr rfl) rfl
      · exact .register here
    next => contradiction
  | route =>
    simp only [step,routeStep] at stepped
    split at stepped
    next ready =>
      cases stepped
      refine .route fun sender here => ?_
      simpa [here] using ready
    next => contradiction
  | put => exact put_move stepped
  | awake => exact awake_move stepped
  | reap =>
    simp only [step,reapStep] at stepped
    split at stepped
    next target here =>
      split at stepped
      next allowed => cases stepped; exact .reap here allowed.1
      next => contradiction
    next => contradiction
  | terminate => cases stepped; exact .terminate
  | receive => exact loop_move stepped (.inl rfl)
  | handle => exact loop_move stepped (.inr (.inl rfl))
  | next => exact loop_move stepped (.inr (.inr rfl))
  | crash =>
    simp only [step,crashStep] at stepped
    split at stepped
    · contradiction
    · cases stepped; exact .crash

end Objective9c.Ownership
