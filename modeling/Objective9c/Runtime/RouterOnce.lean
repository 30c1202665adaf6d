import Objective9c.Runtime.Router

/-! In every run of the router a request is in one place at a time: in one ring, with one
worker, or completed. -/
namespace Objective9c.Router

open Transition List

/-- The slot a worker has taken from its ring and not yet completed. -/
def Pc.slot : Pc → Option Slot
  | .checkIdle got => got
  | .resolve slot | .channel slot | .closing slot | .recheck slot | .ready slot | .send slot | .recv slot _
  | .clear slot _ | .complete slot _ => some slot
  | _ => none

/-- The slot whose channel the worker is about to use. -/
def Pc.uses : Pc → Option Slot
  | .closing slot | .send slot => some slot
  | _ => none

theorem Pc.slot_of_uses {pc : Pc} (uses : pc.uses = some taken) : pc.slot = some taken := by
  cases pc <;> first | exact uses | cases uses

/-- A step that only moves the worker on. -/
inductive LocalMove (s : State) (m : Mailbox) : Pc → Pc → Prop where
  | stop : m.closed = true → LocalMove s m .top (.leaving false)
  | look : LocalMove s m .top .consume
  | empty : LocalMove s m .consume (.idle 0)
  | idled (n : Nat) : LocalMove s m (.idle n) (.checkIdle none)
  | idle (n : Nat) : LocalMove s m (.idle n) (.idleConsume n)
  | idleEmpty (n : Nat) : LocalMove s m (.idleConsume n) (.idle (n + 1))
  | idleStop : m.closed = true → LocalMove s m (.checkIdle none) (.leaving false)
  | idleDone : LocalMove s m (.checkIdle none) .lenCheck
  | idleGot (slot : Slot) : LocalMove s m (.checkIdle (some slot)) (.resolve slot)
  | again : LocalMove s m .lenCheck .top
  | resolved (slot : Slot) : LocalMove s m (.resolve slot) (.channel slot)
  | unresolved (slot : Slot) : LocalMove s m (.resolve slot) (.complete slot (terminated slot.req))
  | set (slot : Slot) : LocalMove s m (.channel slot) (.closing slot)
  | unset (slot : Slot) : LocalMove s m (.channel slot) (.complete slot (terminated slot.req))
  | runs (slot : Slot) : LocalMove s m (.closing slot) (.recheck slot)
  | ended (slot : Slot) : LocalMove s m (.closing slot) (.complete slot (terminated slot.req))
  | open (slot : Slot) : LocalMove s m (.recheck slot) (.ready slot)
  | shut (slot : Slot) : LocalMove s m (.recheck slot) (.complete slot (terminated slot.req))
  | refused (slot : Slot) (d : ChanId) : (s.actors d).phase = .closed →
      LocalMove s m (.send slot) (.clear slot (terminated slot.req))

/-- What the step of a worker at a given place can do. -/
inductive WorkerMove (s : State) (w : WorkerId) (k : Key) (m : Mailbox) (created : Bool) :
    Pc → State → Prop where
  | go : LocalMove s m pc pc' → WorkerMove s w k m created pc (s.setWorker w k pc')
  | take (slot : Slot) (rest : List Slot) : m.ring = slot :: rest →
      WorkerMove s w k m created .consume (s.takeSlot w k m slot rest (.resolve slot))
  | idleTake (n : Nat) (slot : Slot) (rest : List Slot) : m.ring = slot :: rest →
      WorkerMove s w k m created (.idleConsume n) (s.takeSlot w k m slot rest (.checkIdle (some slot)))
  | drop (slot : Slot) : m.closed = true → WorkerMove s w k m created (.checkIdle (some slot))
      ((s.setPlace slot.req .dropped).setWorker w k (.leaving false))
  | idleExit : s.lock = .free → m.ring = [] → WorkerMove s w k m created .lenCheck
      ((s.setMailbox k { m with workerRunning := false }).setWorker w k (.leaving true))
  | ready (slot : Slot) : WorkerMove s w k m created (.ready slot)
      ((s.setMailbox k { m with inFlight := true, current := slot.req }).setWorker w k (.send slot))
  | fault (slot : Slot) : pc.uses = some slot → s.dispatchChan slot = none →
      WorkerMove s w k m created pc (s.fault w k slot)
  | send (slot : Slot) (d : ChanId) : s.dispatchChan slot = some d →
      (s.actors d).phase ≠ .closed →
      WorkerMove s w k m created (.send slot)
        ((s.setActor d { s.actors d with queue := (s.actors d).queue ++ [⟨slot.req,k⟩] }).setWorker w k
          (.recv slot d))
  | recv (slot : Slot) (d : ChanId) (x : Reply) (rest : List Reply) : m.replyc = x :: rest →
      WorkerMove s w k m created (.recv slot d)
        ((s.setMailbox k { m with replyc := rest }).setWorker w k (.clear slot x))
  | clear (slot : Slot) (x : Reply) : WorkerMove s w k m created (.clear slot x)
      ((s.setMailbox k { m with inFlight := false }).setWorker w k (.complete slot x))
  | complete (slot : Slot) (x : Reply) : WorkerMove s w k m created (.complete slot x)
      ((s.complete slot.req x).setWorker w k .top)
  | leave (idle : Bool) : s.lock = .free → WorkerMove s w k m created (.leaving idle)
      (leaveStep s w k m created)

theorem workerStep_move (stepped : workerStep s w k m created pc = some s') : WorkerMove s w k m created pc s' := by
  revert stepped
  fun_cases workerStep s w k m created pc <;> try rintro ⟨⟩
  case case1 =>
    split
    next closed => exact .go (.stop closed)
    next => exact .go .look
  case case2 => exact .go .empty
  case case3 slot rest ring => exact .take slot rest ring
  case case4 n =>
    split
    · exact .go (.idled n)
    · exact .go (.idle n)
  case case5 n _ => exact .go (.idleEmpty n)
  case case6 n slot rest ring => exact .idleTake n slot rest ring
  case case7 =>
    split
    next closed => exact .go (.idleStop closed)
    next => exact .go .idleDone
  case case8 slot closed => exact .drop slot closed
  case case9 slot _ => exact .go (.idleGot slot)
  case case10 free empty => exact .idleExit free (isEmpty_iff.mp empty)
  case case11 => exact .go .again
  case case13 slot =>
    split
    · exact .go (.resolved slot)
    · exact .go (.unresolved slot)
  case case14 slot =>
    split
    · exact .go (.set slot)
    · exact .go (.unset slot)
  case case15 slot missing => exact .fault slot rfl missing
  case case16 slot d found =>
    split
    · exact .go (.ended slot)
    · exact .go (.runs slot)
  case case17 slot =>
    split
    · exact .go (.shut slot)
    · exact .go (.open slot)
  case case18 slot => exact .ready slot
  case case19 slot =>
    fun_cases sendStep s w k slot <;> rintro ⟨⟩
    case case1 missing => exact .fault slot rfl missing
    case case2 d _ _ closed => exact .go (.refused slot d closed)
    case case3 d found _ opened _ => exact .send slot d found opened
  case case21 slot d x rest waiting => exact .recv slot d x rest waiting
  case case22 slot x => exact .clear slot x
  case case23 slot x => exact .complete slot x
  case case24 idle free => exact .leave idle free

/-- The mailbox that a request is put into: an open one, one that is reopened, or a new one. -/
def Chosen (s : State) (k : Key) (m : Mailbox) : Prop :=
  m.closed = false ∧ ((∃ old, s.mailboxes k = some old ∧ m = { old with closed := false }) ∨
    (s.mailboxes k = none ∧ m = .new))

theorem chooseMailbox_some (chosen : chooseMailbox s key handle allocated = (entries,some (k,m))) :
    Chosen s k m := by
  revert chosen
  fun_cases chooseMailbox s key handle allocated <;> rintro ⟨⟩
  case case1 opened =>
    revert opened
    fun_cases openMailbox s handle with
    | case1 =>
      intro opened
      obtain ⟨old,there,same⟩ := Option.map_eq_some_iff.mp opened
      cases same
      obtain ⟨box,isOpen⟩ := Option.filter_eq_some_iff.mp there
      have isOpen : m.closed = false := by simpa using isOpen
      exact ⟨isOpen,.inl ⟨m,box,by rw [← isOpen]⟩⟩
    | case2 => nofun
  case case2 got =>
    revert got
    fun_cases getMailbox s key allocated <;> rintro ⟨⟩
    case case1 old box => exact ⟨rfl,.inl ⟨old,box,rfl⟩⟩
    case case2 missing _ => exact ⟨rfl,.inr ⟨missing,rfl⟩⟩

/-- What entering the lock with a new request can do. -/
inductive EnqueueMove (s : State) (r : ReqId) (allocated : Bool) : State → Prop where
  | noMailbox : EnqueueMove s r allocated (s.reject r)
  | queue (key : Key) (handle : Handle) (entries : List ObjEntry) (k : Key) (m : Mailbox) :
      (s.requests r).status = .entering key handle →
      chooseMailbox s key handle allocated = (entries,some (k,m)) →
      EnqueueMove s r allocated
        { ({ s with entries }.setMailbox k { m with ring := m.ring ++ [Slot.mk r handle] }).setPlace r
          (.queued k) with lock := .submitting r k }
  | full (entries : List ObjEntry) (k : Key) (m : Mailbox) : Chosen s k m →
      EnqueueMove s r allocated (({ s with entries }.setMailbox k m).reject r)

theorem enqueue_move (stepped : enqueueStep s r allocated = some s') :
    s.lock = .free ∧ (∃ key handle, (s.requests r).status = .entering key handle) ∧
      EnqueueMove s r allocated s' := by
  revert stepped
  fun_cases enqueueStep s r allocated <;> rintro ⟨⟩
  case case1 key handle entering free _ _ => exact ⟨free,⟨key,handle,entering⟩,.noMailbox⟩
  case case2 key handle entering free entries k m chosen _ _ =>
    exact ⟨free,⟨key,handle,entering⟩,.queue key handle entries k m entering chosen⟩
  case case3 key handle entering free entries k m chosen _ =>
    exact ⟨free,⟨key,handle,entering⟩,.full entries k m (chooseMailbox_some chosen)⟩

/-- What leaving it with the request can do. -/
inductive SpawnMove (s : State) (r : ReqId) (k : Key) (m : Mailbox) : State → Prop where
  | running : m.workerRunning = true →
      SpawnMove s r k m { s.setRequest r { s.requests r with status := .accepted } with lock := .free }
  | created (t : State) : t = (s.setMailbox k { m with workerRunning := true }).spawnWorker k →
      m.workerRunning = false →
      SpawnMove s r k m { t.setRequest r { t.requests r with status := .accepted } with lock := .free }
  | failed (m' : Mailbox) (q : Request) : m.workerRunning = false →
      m' = { m with ring := m.ring.tail } → q.status = .rejected →
      q.place = (if m.ring = [] then (s.requests r).place else .dropped) →
      q.done = (s.requests r).done ++ [none] →
      SpawnMove s r k m { (s.setMailbox k m').setRequest r q with lock := .free }

/-- Everything a step can do, with what it has checked. -/
inductive Stepped (s : State) : Label → State → Prop where
  | refused {entries : List ObjEntry}
      (table : entries = s.entries ∨ ∃ d, chan = some d ∧ entries = (objtabRegister s.entries key d).1) :
      Stepped s (.submit key chan spare) (State.reject { s with entries, nextReq := s.nextReq + 1 } s.nextReq)
  | entered {entries : List ObjEntry} (registered : objtabRegister s.entries key d = (entries,some handle)) :
      Stepped s (.submit key (some d) spare) (State.setRequest { s with entries, nextReq := s.nextReq + 1 }
        s.nextReq ⟨.entering key handle,.outside,[]⟩)
  | enqueued (moved : enqueueStep s r allocated = some s') : Stepped s (.enqueue r allocated) s'
  | spawned (moved : spawnStep s created = some s') : Stepped s (.spawn created) s'
  | worked (here : s.workers w = some ⟨k,pc⟩) (box : s.mailboxes k = some m)
      (move : WorkerMove s w k m created pc s') : Stepped s (.work w created) s'
  | unregistered : Stepped s (.unregister key)
      { s with entries := objtabUnregister s.entries key, unregs := key :: s.unregs }
  | left (free : s.lock = .free) (missing : s.mailboxes key = none) :
      Stepped s (.close key) { s with unregs := s.unregs.erase key }
  | closed (free : s.lock = .free) (box : s.mailboxes key = some m) : Stepped s (.close key)
      { State.setMailbox { s with unregs := s.unregs.erase key } key { m with
          closed := true
          replyc := if m.inFlight && m.replyc.isEmpty then [terminated m.current] else m.replyc } with
        lock := .draining key }
  | unlocked (lock : s.lock = .draining k) (box : s.mailboxes k = some m) (empty : m.ring = []) :
      Stepped s .drain { s with lock := .free }
  | drained (lock : s.lock = .draining k) (box : s.mailboxes k = some m) (ring : m.ring = slot :: rest) :
      Stepped s .drain ((s.setMailbox k { m with ring := rest }).complete slot.req (terminated slot.req))
  | served (phase : (s.actors d).phase = .running) (idle : (s.actors d).serving = none)
      (queue : (s.actors d).queue = msg :: rest) :
      Stepped s (.serve d) (s.setActor d { s.actors d with queue := rest, serving := some msg })
  | replied (busy : (s.actors d).serving = some msg) (box : s.mailboxes msg.mb = some m) :
      Stepped s (.reply d err ret) ((s.setMailbox msg.mb { m with replyc := [⟨msg.req,err,ret⟩] }).setActor d
        { s.actors d with serving := none })
  | quits (idle : (s.actors d).serving = none) :
      Stepped s (.quit d) (s.setActor d { s.actors d with phase := .quitting })
  | chanclosed (quitting : (s.actors d).phase = .quitting) :
      Stepped s (.chanclose d) (s.setActor d { s.actors d with phase := .closed })

theorem step_stepped (stepped : step label s = some s') : Stepped s label s' := by
  cases label with
  | submit key chan spare =>
    cases stepped
    fun_cases submitStep s key chan spare with
    | case1 | case2 => exact .refused (.inl rfl)
    | case3 _ d _ entries registered | case5 _ d _ entries handle registered =>
      exact .refused (.inr ⟨d,rfl,by rw [registered]⟩)
    | case4 _ d _ entries handle registered => exact .entered registered
  | enqueue => exact .enqueued stepped
  | spawn => exact .spawned stepped
  | work =>
    simp only [step,workStep] at stepped
    repeat' split at stepped
    all_goals try contradiction
    next k pc here _ m box => exact .worked here box (workerStep_move stepped)
  | unregister =>
    cases stepped
    exact .unregistered
  | close =>
    simp only [step,closeStep] at stepped
    split at stepped
    next enabled =>
      split at stepped <;> cases stepped
      next missing => exact .left enabled.2 missing
      next m box => exact .closed enabled.2 box
    · contradiction
  | drain =>
    simp only [step,drainStep] at stepped
    repeat' split at stepped
    all_goals cases stepped
    next k lock _ m box _ empty => exact .unlocked lock box empty
    next k lock _ m box _ slot rest ring => exact .drained lock box ring
  | serve =>
    simp only [step,serveStep] at stepped
    split at stepped <;> cases stepped
    next phase idle queue => exact .served phase idle queue
  | reply =>
    simp only [step,replyStep] at stepped
    repeat' split at stepped
    all_goals cases stepped
    next msg busy _ m box _ => exact .replied busy box
  | quit =>
    simp only [step,quitStep] at stepped
    split at stepped <;> cases stepped
    next enabled => exact .quits enabled.2
  | chanclose =>
    simp only [step,chancloseStep] at stepped
    split at stepped <;> cases stepped
    next quitting => exact .chanclosed quitting

def State.waiting (s : State) (k : Key) : List ReqId :=
  match s.mailboxes k with
  | some m => m.ring.map Slot.req
  | none => []

/-- The places of requests, and what the rings, the workers and the lock say about them. -/
structure Placed (s : State) : Prop where
  newRequest : ∀ r, s.nextReq ≤ r → s.requests r = ⟨.unused,.outside,[]⟩
  newWorker : ∀ w, s.nextWorker ≤ w → s.workers w = none
  mailbox : ∀ w k pc, s.workers w = some ⟨k,pc⟩ → ∃ m, s.mailboxes k = some m
  queued : ∀ r k, (s.requests r).place = .queued k ↔ r ∈ s.waiting k
  ringOnce : ∀ k, (s.waiting k).Nodup
  withWorker : ∀ w k pc slot, s.workers w = some ⟨k,pc⟩ → pc.slot = some slot →
    (s.requests slot.req).place = .held w
  held : ∀ r w, (s.requests r).place = .held w →
    ∃ k pc slot, s.workers w = some ⟨k,pc⟩ ∧ pc.slot = some slot ∧ slot.req = r
  entering : ∀ r key handle, (s.requests r).status = .entering key handle →
    (s.requests r).place = .outside ∨ ∃ k, s.lock = .submitting r k
  submitting : ∀ r k, s.lock = .submitting r k → (∃ m, s.mailboxes k = some m) ∧
    (s.requests r).place ≠ .outside ∧ ∃ key handle, (s.requests r).status = .entering key handle
  accepted : ∀ r, (s.requests r).status = .accepted → (s.requests r).place ≠ .outside
  done : ∀ r, (s.requests r).status ≠ .rejected →
    (s.requests r).done.length = if (s.requests r).place = .finished then 1 else 0
  closedEmpty : ∀ k m, s.mailboxes k = some m → m.closed = true → m.ring = [] ∨ s.lock = .draining k
  idleEmpty : ∀ k m, s.mailboxes k = some m → m.workerRunning = false → m.ring = [] ∨
    ∃ r, s.lock = .submitting r k ∧ ∀ slot ∈ m.ring, slot.req = r
  draining : ∀ k, s.lock = .draining k → ∃ m, s.mailboxes k = some m

theorem initial_placed : Placed initial := by
  constructor <;> simp [initial,State.waiting]

section Effects

variable {s : State} {k : Key} {m m' : Mailbox} {w : WorkerId} {pc pc' : Pc} {slot : Slot}

theorem waiting_setMailbox (s : State) (k : Key) (m : Mailbox) (j : Key) :
    (s.setMailbox k m).waiting j = if j = k then m.ring.map Slot.req else s.waiting j := by
  by_cases here : j = k <;> simp [State.waiting,State.setMailbox,here]

theorem waiting_mk (s : State) (j : Key) : State.waiting ⟨entries,s.mailboxes,workers,nextWorker,actors,requests,
    nextReq,unregs,lock⟩ j = s.waiting j := rfl

theorem waiting_of (box : s.mailboxes k = some m) : s.waiting k = m.ring.map Slot.req := by
  simp [State.waiting,box]

theorem waiting_same (box : s.mailboxes k = some m) (ring : m'.ring = m.ring) (j : Key) :
    (s.setMailbox k m').waiting j = s.waiting j := by
  rw [waiting_setMailbox]
  split
  next eq => rw [eq,waiting_of box,ring]
  next => rfl

theorem Placed.setWorker (placed : Placed s) (here : s.workers w = some ⟨k,pc⟩)
    (same : pc'.slot = pc.slot) : Placed (s.setWorker w k pc') := by
  cases placed
  constructor <;> dsimp only [State.setWorker] <;> first | assumption | grind -linarith

theorem Placed.setMailbox (placed : Placed s) (here : s.mailboxes k = some m) (ring : m'.ring = m.ring)
    (closed : m'.closed = true → m.closed = true ∨ m.ring = [] ∨ s.lock = .draining k)
    (running : m'.workerRunning = false → m.workerRunning = false ∨ m.ring = []) : Placed (s.setMailbox k m') := by
  have same := waiting_same here ring
  cases placed
  constructor <;> try simp only [same]
  all_goals try dsimp only [State.setMailbox]
  all_goals first | assumption | grind -linarith

variable (placed : Placed s)
include placed

theorem Placed.head (box : s.mailboxes k = some m) (ring : m.ring = slot :: rest) :
    s.waiting k = slot.req :: rest.map Slot.req ∧ (s.requests slot.req).place = .queued k := by
  have before : s.waiting k = slot.req :: rest.map Slot.req := by rw [waiting_of box,ring]; rfl
  exact ⟨before,(placed.queued _ k).mpr (by simp [before])⟩

theorem Placed.takeSlot (here : s.workers w = some ⟨k,pc⟩)
    (box : s.mailboxes k = some m) (ring : m.ring = slot :: rest) (free : pc.slot = none)
    (taken : pc'.slot = some slot) : Placed (s.takeSlot w k m slot rest pc') := by
  obtain ⟨before,place⟩ := placed.head box ring
  have after (j : Key) : (s.takeSlot w k m slot rest pc').waiting j =
      if j = k then rest.map Slot.req else s.waiting j :=
    waiting_setMailbox s k { m with ring := rest } j
  cases placed
  constructor <;> try simp only [after]
  all_goals try dsimp only [State.takeSlot,State.setWorker,State.setPlace,State.setRequest,State.setMailbox]
  all_goals first | assumption | grind -linarith

theorem Placed.newMailbox (missing : s.mailboxes k = none) : Placed (s.setMailbox k .new) := by
  have same (j : Key) : (s.setMailbox k .new).waiting j = s.waiting j := by
    rw [waiting_setMailbox]
    split
    next eq => simp [eq,State.waiting,missing,Mailbox.new]
    next => rfl
  cases placed
  constructor <;> try simp only [same]
  all_goals try dsimp only [State.setMailbox]
  all_goals first | assumption | grind -linarith [Mailbox.new]

theorem Placed.letGo (here : s.workers w = some ⟨k,pc⟩)
    (holds : pc.slot = some slot) (free : pc'.slot = none) (status : q.status = (s.requests slot.req).status)
    (out : (q.place = .finished ∧ q.done.length = (s.requests slot.req).done.length + 1) ∨
      (q.place = .dropped ∧ q.done = (s.requests slot.req).done)) :
    Placed ((s.setRequest slot.req q).setWorker w k pc') := by
  cases placed
  constructor <;> try dsimp only [State.setWorker,State.setRequest,waiting_mk]
  all_goals first | assumption | grind -linarith

theorem Placed.finishSlot (box : s.mailboxes k = some m)
    (ring : m.ring = slot :: rest) (status : q.status = (s.requests slot.req).status)
    (place : q.place = .finished) (length : q.done.length = (s.requests slot.req).done.length + 1) :
    Placed ((s.setMailbox k { m with ring := rest }).setRequest slot.req q) := by
  obtain ⟨before,place'⟩ := placed.head box ring
  have after (j : Key) : ((s.setMailbox k { m with ring := rest }).setRequest slot.req q).waiting j =
      if j = k then rest.map Slot.req else s.waiting j :=
    waiting_setMailbox s k { m with ring := rest } j
  cases placed
  constructor <;> try simp only [after]
  all_goals try dsimp only [State.setRequest,State.setMailbox]
  all_goals first | assumption | grind -linarith

theorem Placed.spawnWorker (box : s.mailboxes k = some m) : Placed (s.spawnWorker k) := by
  cases placed
  constructor <;> try dsimp only [State.spawnWorker,State.setWorker]
  all_goals first | assumption | grind -linarith [Pc.slot]

theorem Placed.unlock (lock : s.lock = .draining k) (box : s.mailboxes k = some m)
    (empty : m.ring = []) : Placed { s with lock := .free } := by
  cases placed
  constructor <;> first | assumption | grind -linarith

theorem Placed.close (lock : s.lock = .free) (box : s.mailboxes k = some m)
    (ring : m'.ring = m.ring) (running : m'.workerRunning = m.workerRunning) :
    Placed { s.setMailbox k m' with lock := .draining k } := by
  have same := waiting_same box ring
  cases placed
  constructor <;> try simp only [waiting_mk,same]
  all_goals try dsimp only [State.setMailbox]
  all_goals first | assumption | grind -linarith

theorem Placed.accept (lock : s.lock = .submitting r k)
    (box : s.mailboxes k = some m) (running : m.workerRunning = true) :
    Placed { s.setRequest r { s.requests r with status := .accepted } with lock := .free } := by
  cases placed
  constructor <;> try dsimp only [State.setRequest,waiting_mk]
  all_goals first | assumption | grind -linarith

theorem Placed.reject (known : r < s.nextReq)
    (outside : ∀ k, s.lock ≠ .submitting r k) : Placed (s.reject r) := by
  cases placed
  constructor <;> try dsimp only [State.reject,State.setRequest,waiting_mk]
  all_goals first | assumption | grind -linarith

omit placed

/-- No worker could be started: the slot is taken back, unless somebody else took it. -/
theorem Placed.giveUp (placed : Placed s) (lock : s.lock = .submitting r k)
    (box : s.mailboxes k = some m) (idle : m.workerRunning = false) (ring : m'.ring = m.ring.tail)
    (closed : m'.closed = m.closed) (place : q.place = if m.ring = [] then (s.requests r).place else .dropped)
    (status : q.status = .rejected) : Placed { (s.setMailbox k m').setRequest r q with lock := .free } := by
  have alone : m.ring = [] ∨ ∃ slot, m.ring = [slot] ∧ slot.req = r := by
    have once := placed.ringOnce k
    rw [waiting_of box] at once
    rcases placed.idleEmpty k m box idle with empty | ⟨r',lock',own⟩
    · exact .inl empty
    · obtain rfl : r = r' := by rw [lock] at lock'; cases lock'; rfl
      match ring : m.ring with
      | [] => exact .inl rfl
      | [slot] => exact .inr ⟨slot,rfl,own slot (by simp [ring])⟩
      | slot :: slot' :: rest =>
        simp only [ring,map_cons,nodup_cons,mem_cons,not_or] at once
        exact absurd ((own slot (by simp [ring])).trans (own slot' (by simp [ring])).symm) once.1.1
  have after (j : Key) : State.waiting { (s.setMailbox k m').setRequest r q with lock := .free } j =
      if j = k then [] else s.waiting j := by
    refine (waiting_setMailbox s k m' j).trans ?_
    rcases alone with empty | ⟨slot,one,_⟩
    · simp [ring,empty]
    · simp [ring,one]
  have before : s.waiting k = if m.ring = [] then [] else [r] := by
    rw [waiting_of box]
    rcases alone with empty | ⟨slot,one,own⟩
    · simp [empty]
    · simp [one,own]
  have own : m.ring ≠ [] → (s.requests r).place = .queued k := fun full =>
    (placed.queued r k).mpr (by simp [before,full])
  cases placed
  constructor <;> try simp only [after]
  all_goals try dsimp only [State.setRequest,State.setMailbox]
  all_goals first | assumption | grind -linarith

theorem Placed.enqueue (placed : Placed s) (lock : s.lock = .free)
    (status : (s.requests r).status = .entering key handle)
    (box : s.mailboxes k = some m ∨ (s.mailboxes k = none ∧ m = .new))
    (ring : m'.ring = m.ring ++ [⟨r,handle⟩]) (running : m'.workerRunning = m.workerRunning)
    (closed : m'.closed = false) : Placed { ({ s with entries }.setMailbox k m').setPlace r (.queued k) with
      lock := .submitting r k } := by
  have before : s.waiting k = m.ring.map Slot.req := by
    rcases box with box | ⟨box,rfl⟩
    · exact waiting_of box
    · simp [State.waiting,box,Mailbox.new]
  have after (j : Key) : State.waiting { ({ s with entries }.setMailbox k m').setPlace r (.queued k) with
      lock := .submitting r k } j = if j = k then s.waiting k ++ [r] else s.waiting j :=
    (waiting_setMailbox s k m' j).trans (by simp [ring,before])
  have idle : m.workerRunning = false → m.ring = [] := by
    intro stopped
    rcases box with box | ⟨_,rfl⟩
    · rcases placed.idleEmpty k m box stopped with empty | ⟨_,held,_⟩
      · exact empty
      · rw [lock] at held; cases held
    · rfl
  cases placed
  constructor <;> try simp only [after]
  all_goals try dsimp only [State.setPlace,State.setRequest,State.setMailbox]
  all_goals first | assumption | grind -linarith

end Effects

theorem setMailbox_self {s : State} (box : s.mailboxes k = some m) : s.setMailbox k m = s := by
  have same : (fun j => if j = k then some m else s.mailboxes j) = s.mailboxes := by
    funext j
    by_cases here : j = k
    · subst here; simpa using box.symm
    · simp [here]
  rw [State.setMailbox,same]

theorem setRequest_twice (s : State) (r : ReqId) (q q' : Request) :
    (s.setRequest r q).setRequest r q' = s.setRequest r q' := by
  simp only [State.setRequest,State.mk.injEq,and_true,true_and]
  funext p
  by_cases here : p = r <;> simp [here]

theorem reject_dropped (s : State) (r : ReqId) : (s.setPlace r .dropped).reject r =
    s.setRequest r { status := .rejected, place := .dropped, done := (s.requests r).done ++ [none] } := by
  rw [State.reject,State.setPlace,setRequest_twice]
  simp

variable (placed : Placed s)
include placed

theorem spawn_move (stepped : spawnStep s created = some s') :
    ∃ r k m, s.lock = .submitting r k ∧ s.mailboxes k = some m ∧ SpawnMove s r k m s' := by
  unfold spawnStep at stepped
  split at stepped
  next r k lock =>
    split at stepped
    · contradiction
    next m box =>
      refine ⟨r,k,m,lock,box,?_⟩
      split at stepped
      next running => cases stepped; exact .running running
      next idle =>
        have idle : m.workerRunning = false := Bool.eq_false_iff.mpr idle
        split at stepped
        · cases stepped; exact .created _ rfl idle
        · split at stepped
          next empty =>
            cases stepped
            have move : SpawnMove s r k m _ := .failed m
              { s.requests r with status := .rejected, done := (s.requests r).done ++ [none] } idle
              (by rw [empty]; cases m; cases empty; rfl) rfl (by rw [if_pos empty]) rfl
            rwa [setMailbox_self box] at move
          next slot rest ring =>
            cases stepped
            obtain rfl : slot.req = r := by
              rcases placed.idleEmpty k m box idle with empty | ⟨r',lock',own⟩
              · rw [empty] at ring; cases ring
              · rw [lock] at lock'; cases lock'
                exact own slot (by simp [ring])
            have move : SpawnMove s slot.req k m _ := .failed { m with ring := rest }
              { s.requests slot.req with
                status := .rejected, place := .dropped, done := (s.requests slot.req).done ++ [none] }
              idle (by rw [ring]; rfl) rfl (by simp [ring]) rfl
            rw [reject_dropped]
            exact move
  next => contradiction

theorem leave_placed (here : s.workers w = some ⟨k,.leaving idle⟩)
    (box : s.mailboxes k = some m) (free : s.lock = .free) : Placed (leaveStep s w k m created) := by
  have gone : Placed (s.setWorker w k .dead) := placed.setWorker here rfl
  unfold leaveStep
  split
  next more =>
    have running : Placed ((s.setWorker w k .dead).setMailbox k { m with workerRunning := true }) :=
      gone.setMailbox box rfl .inl nofun
    split
    · exact running.spawnWorker (if_pos rfl)
    · exact running
  next done =>
    refine gone.setMailbox box rfl .inl fun _ => .inr ?_
    by_cases closed : m.closed = true
    · rcases placed.closedEmpty k m box closed with empty | draining
      · exact empty
      · rw [free] at draining; cases draining
    · simpa [closed] using done

theorem work_placed (here : s.workers w = some ⟨k,pc⟩)
    (box : s.mailboxes k = some m) (move : WorkerMove s w k m created pc s') : Placed s' := by
  cases move with
  | go move => exact placed.setWorker here (by cases move <;> rfl)
  | take slot rest ring => exact placed.takeSlot here box ring rfl rfl
  | idleTake n slot rest ring => exact placed.takeSlot here box ring rfl rfl
  | drop => exact placed.letGo here rfl rfl rfl (.inr ⟨rfl,rfl⟩)
  | fault slot uses => exact placed.letGo here (Pc.slot_of_uses uses) rfl rfl (.inr ⟨rfl,rfl⟩)
  | idleExit free empty => exact .setWorker (placed.setMailbox box rfl .inl fun _ => .inr empty) here rfl
  | ready | recv | clear => exact .setWorker (placed.setMailbox box rfl .inl .inl) here rfl
  | send slot d =>
    have sent : Placed (s.setActor d { s.actors d with queue := (s.actors d).queue ++ [⟨slot.req,k⟩] }) :=
      { placed with }
    exact sent.setWorker here rfl
  | complete => exact placed.letGo here rfl rfl rfl (.inl ⟨rfl,by simp⟩)
  | leave idle free => exact leave_placed placed here box free

theorem Placed.newcomer
    (status : q.status = .rejected ∨ ∃ key handle, q.status = .entering key handle)
    (place : q.place = .outside) (done : q.status ≠ .rejected → q.done = []) :
    Placed (State.setRequest { s with entries, nextReq := s.nextReq + 1 } s.nextReq q) := by
  cases placed
  constructor <;> try dsimp only [State.setRequest,waiting_mk]
  all_goals first | assumption | grind -linarith

theorem enqueue_placed (stepped : enqueueStep s r allocated = some s') : Placed s' := by
  obtain ⟨free,⟨key,handle,status⟩,move⟩ := enqueue_move stepped
  have known : r < s.nextReq := by
    by_contra late
    rw [placed.newRequest r (Nat.le_of_not_lt late)] at status
    cases status
  have outside (k : Key) : s.lock ≠ .submitting r k := by rw [free]; nofun
  cases move with
  | noMailbox => exact placed.reject known outside
  | queue key' handle' entries k m status' chosen =>
    obtain ⟨isOpen,old | new⟩ := chooseMailbox_some chosen
    · obtain ⟨m',box,rfl⟩ := old
      exact placed.enqueue free status' (.inl box) rfl rfl rfl
    · exact placed.enqueue free status' (.inr new) rfl rfl isOpen
  | full entries k m chosen =>
    have table : Placed { s with entries } := { placed with }
    obtain ⟨isOpen,⟨old,box,rfl⟩ | ⟨missing,rfl⟩⟩ := chosen
    · have reopened : Placed (State.setMailbox { s with entries } k { old with closed := false }) :=
        table.setMailbox box rfl nofun .inl
      exact reopened.reject known outside
    · exact (table.newMailbox missing).reject known outside

theorem spawn_placed (stepped : spawnStep s created = some s') : Placed s' := by
  obtain ⟨r,k,m,lock,box,move⟩ := spawn_move placed stepped
  cases move with
  | running running => exact placed.accept lock box running
  | created t same =>
    subst same
    have marked : Placed (s.setMailbox k { m with workerRunning := true }) :=
      placed.setMailbox box rfl .inl nofun
    have spawned := marked.spawnWorker (k := k) (if_pos rfl)
    exact spawned.accept lock (if_pos rfl) rfl
  | failed m' q idle same status place =>
    subst same
    exact placed.giveUp lock box idle rfl rfl place status

theorem step_placed (stepped : step label s = some s') : Placed s' := by
  cases step_stepped stepped with
  | refused => exact placed.newcomer (.inl rfl) (by simp [placed.newRequest s.nextReq (Nat.le_refl _)]) (by simp)
  | entered => exact placed.newcomer (.inr ⟨_,_,rfl⟩) rfl (fun _ => rfl)
  | enqueued moved => exact enqueue_placed placed moved
  | spawned moved => exact spawn_placed placed moved
  | worked here box move => exact work_placed placed here box move
  | @closed key m free box =>
    have left : Placed { s with unregs := s.unregs.erase key } := { placed with }
    exact left.close free box rfl rfl
  | unlocked lock box empty => exact placed.unlock lock box empty
  | drained lock box ring => exact placed.finishSlot box ring rfl rfl (by simp; rfl)
  | @replied d msg m err ret busy box =>
    have replied : Placed (s.setMailbox msg.mb { m with replyc := [⟨msg.req,err,ret⟩] }) :=
      placed.setMailbox box rfl .inl .inl
    exact { replied with }
  | _ => exact { placed with }

omit placed

theorem run_placed (ran : run step labels initial = some s) : Placed s :=
  run_invariant Placed (fun _ _ _ placed stepped => step_placed placed stepped) labels initial s
    initial_placed ran

end Objective9c.Router
