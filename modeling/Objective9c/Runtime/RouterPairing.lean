import Objective9c.Runtime.RouterOnce

/-! Requests and replies of the router: with one worker to a mailbox and no error put into
the reply channel of a request that may still be answered, each reply reaches the request
it was made for, and if no step loses a request, none waits for nothing. -/
namespace Objective9c.Router

open Transition List Option

def Pc.live : Pc → Bool
  | .dead | .faulted => false
  | _ => true

/-- A live worker that has not given up `worker_running` yet. -/
def Pc.inLoop : Pc → Bool
  | .dead | .faulted | .leaving true => false
  | _ => true

theorem Pc.live_of_inLoop {pc : Pc} (loop : pc.inLoop = true) : pc.live = true := by
  cases pc <;> first | rfl | cases loop

/-- The slot that `current` of the mailbox speaks of. -/
def Pc.flying : Pc → Option Slot
  | .send slot | .recv slot _ => some slot
  | _ => none

def Pc.carried : Pc → Option (Slot × Reply)
  | .clear slot x | .complete slot x => some (slot,x)
  | _ => none

/-- The router's messages that an actor has not answered. -/
@[simp] def Actor.unanswered (x : Actor) : List Msg := x.serving.toList ++ x.queue

/-- No request comes in between the two critical sections of an exiting worker, and no mailbox is closed with a
request in flight, except one unread in the channel of an actor that has quit. -/
def Orderly : Label → State → Prop
  | .enqueue r allocated, s => ∀ key handle entries k m w,
      (s.requests r).status = .entering key handle →
      chooseMailbox s key handle allocated = (entries,some (k,m)) →
      s.workers w ≠ some ⟨k,.leaving true⟩
  | .close k, s => ∀ m, s.mailboxes k = some m → m.inFlight = true →
      ∃ w slot d, s.workers w = some ⟨k,.recv slot d⟩ ∧ ⟨slot.req,k⟩ ∈ (s.actors d).queue ∧
        (s.actors d).phase ≠ .running
  | _, _ => True

structure Paired (s : State) : Prop where
  unique : ∀ w w' k pc pc', s.workers w = some ⟨k,pc⟩ → s.workers w' = some ⟨k,pc'⟩ →
    pc.live = true → pc'.live = true → w = w'
  running : ∀ w k pc m, s.workers w = some ⟨k,pc⟩ → pc.inLoop = true → s.mailboxes k = some m →
    m.workerRunning = true
  entering : ∀ r k w, s.lock = .submitting r k → s.workers w ≠ some ⟨k,.leaving true⟩
  current : ∀ w k pc slot m, s.workers w = some ⟨k,pc⟩ → pc.flying = some slot →
    s.mailboxes k = some m → m.current = slot.req
  replies : ∀ k m x, s.mailboxes k = some m → x ∈ m.replyc →
    ∃ w slot d, s.workers w = some ⟨k,.recv slot d⟩ ∧ slot.req = x.req
  oneReply : ∀ k m, s.mailboxes k = some m → m.replyc.length ≤ 1
  messages : ∀ d msg, (s.actors d).phase = .running → msg ∈ (s.actors d).unanswered →
    ∃ w slot m, s.workers w = some ⟨msg.mb,.recv slot d⟩ ∧ slot.req = msg.req ∧
      s.mailboxes msg.mb = some m ∧ m.replyc = []
  once : ∀ d, (s.actors d).phase = .running → ((s.actors d).unanswered.map Msg.mb).Nodup
  serving : ∀ d, (s.actors d).serving ≠ none → (s.actors d).phase = .running
  own : ∀ w k pc slot x, s.workers w = some ⟨k,pc⟩ → pc.carried = some (slot,x) → x.req = slot.req
  done : ∀ r x, some x ∈ (s.requests r).done → x.req = r

theorem initial_paired : Paired initial := by
  constructor <;> simp [initial]

attribute [grind] Pc.inLoop Pc.flying Pc.carried Pc.live

section Effects

variable {s : State} {k : Key} {m m' : Mailbox} {w : WorkerId} {pc pc' : Pc} {slot : Slot}

variable (paired : Paired s)
include paired

theorem Paired.alone (here : s.workers w = some ⟨k,pc⟩) (live : pc.live = true) :
    ∀ w' pc', s.workers w' = some ⟨k,pc'⟩ → pc'.live = true → w = w' :=
  fun w' pc' there live' => paired.unique w w' k pc pc' here there live live'

theorem Paired.setWorker (here : s.workers w = some ⟨k,pc⟩)
    (loop : pc.inLoop = true) (waits : ∀ slot d, pc ≠ .recv slot d) (stays : pc' ≠ .leaving true)
    (flying : ∀ slot, pc'.flying ≠ some slot) (carried : ∀ slot x, pc'.carried = some (slot,x) → x.req = slot.req) :
    Paired (s.setWorker w k pc') := by
  have live := Pc.live_of_inLoop loop
  cases paired
  constructor <;> try dsimp only [State.setWorker]
  all_goals first | assumption | grind -linarith

theorem Paired.setMailbox (box : s.mailboxes k = some m)
    (replyc : m'.replyc = m.replyc) (current : m'.current = m.current)
    (running : ∀ w pc, s.workers w = some ⟨k,pc⟩ → pc.inLoop = true → m.workerRunning = true →
      m'.workerRunning = true) : Paired (s.setMailbox k m') := by
  cases paired
  constructor <;> try dsimp only [State.setMailbox]
  all_goals first | assumption | grind -linarith

theorem Paired.setRequest
    (done : ∀ x, some x ∈ q.done → some x ∈ (s.requests r).done ∨ x.req = r) : Paired (s.setRequest r q) := by
  refine { paired with done := ?_ }
  intro p x member
  by_cases here : p = r
  · subst here
    rcases done x (by simpa using member) with old | own
    · exact paired.done p x old
    · exact own
  · exact paired.done p x (by simpa [here] using member)

theorem Paired.idleExit (here : s.workers w = some ⟨k,.lenCheck⟩)
    (box : s.mailboxes k = some m) (free : s.lock = .free) :
    Paired ((s.setMailbox k { m with workerRunning := false }).setWorker w k (.leaving true)) := by
  cases paired
  constructor <;> try dsimp only [State.setMailbox,State.setWorker]
  all_goals first | assumption | grind -linarith [Pc.live_of_inLoop]

theorem Paired.ready (here : s.workers w = some ⟨k,.ready slot⟩)
    (box : s.mailboxes k = some m) :
    Paired ((s.setMailbox k { m with inFlight := true, current := slot.req }).setWorker w k (.send slot)) := by
  have flies : ∀ pc : Pc, pc.flying ≠ none → pc.live = true := by
    intro pc; cases pc <;> simp [Pc.flying,Pc.live]
  cases paired
  constructor <;> try dsimp only [State.setMailbox,State.setWorker]
  all_goals first | assumption | grind -linarith

/-- A mailbox whose worker does not wait for a reply has none, and no message with a
running actor. -/
theorem Paired.nothing (here : s.workers w = some ⟨k,pc⟩) (live : pc.live = true)
    (waits : ∀ slot d, pc ≠ .recv slot d) : (∀ m, s.mailboxes k = some m → m.replyc = []) ∧
      ∀ d msg, (s.actors d).phase = .running → msg ∈ (s.actors d).unanswered → msg.mb ≠ k := by
  have absent : ∀ w' slot d, s.workers w' ≠ some ⟨k,.recv slot d⟩ := by
    intro w' slot d there
    obtain rfl := paired.unique w w' k _ _ here there live rfl
    rw [here] at there
    cases there
    exact waits slot d rfl
  refine ⟨?_,?_⟩
  · intro m box
    by_contra full
    obtain ⟨x,member⟩ := exists_mem_of_ne_nil _ full
    obtain ⟨w',slot,d,there,_⟩ := paired.replies k m x box member
    exact absent w' slot d there
  · rintro d msg running member rfl
    obtain ⟨w',slot,_,there,_⟩ := paired.messages d msg running member
    exact absent w' slot d there

theorem Paired.send (here : s.workers w = some ⟨k,.send slot⟩)
    (box : s.mailboxes k = some m) (d : ChanId) :
    Paired ((s.setActor d { s.actors d with queue := (s.actors d).queue ++ [⟨slot.req,k⟩] }).setWorker
      w k (.recv slot d)) := by
  obtain ⟨empty,absent⟩ := paired.nothing here rfl nofun
  have messages := paired.messages
  have once := paired.once
  cases paired
  constructor <;> try dsimp only [State.setActor,State.setWorker]
  case messages =>
    intro e msg phase member
    have split : ((s.actors e).phase = .running ∧ msg ∈ (s.actors e).unanswered) ∨
        (e = d ∧ msg = ⟨slot.req,k⟩) := by
      by_cases there : e = d
      · subst there
        simp only [↓reduceIte,Actor.unanswered,mem_append,mem_singleton] at phase member ⊢
        tauto
      · simp only [there,↓reduceIte] at phase member
        exact .inl ⟨phase,member⟩
    rcases split with ⟨before,old⟩ | ⟨rfl,rfl⟩
    · obtain ⟨w',slot',m',there,same,box',empty'⟩ := messages e msg before old
      have apart : w' ≠ w := by
        rintro rfl
        rw [here] at there
        cases there
      exact ⟨w',slot',m',by simp [apart,there],same,box',empty'⟩
    · exact ⟨w,slot,m,if_pos rfl,rfl,box,empty m box⟩
  case once =>
    intro e phase
    by_cases there : e = d
    · subst there
      simp only [↓reduceIte] at phase ⊢
      have new : Actor.unanswered { s.actors e with queue := (s.actors e).queue ++ [⟨slot.req,k⟩] } =
          (s.actors e).unanswered ++ [⟨slot.req,k⟩] := by simp
      rw [new,map_append,nodup_append]
      refine ⟨once e phase,by simp,?_⟩
      intro j old j' last same
      obtain ⟨msg,member,rfl⟩ := mem_map.mp old
      obtain rfl : j' = k := by simpa using last
      exact absent e msg phase member same
    · simp only [there,↓reduceIte] at phase ⊢
      exact once e phase
  all_goals first | assumption | grind -linarith

theorem Paired.recv (here : s.workers w = some ⟨k,.recv slot d⟩)
    (box : s.mailboxes k = some m) (waiting : m.replyc = x :: rest) :
    Paired ((s.setMailbox k { m with replyc := rest }).setWorker w k (.clear slot x)) := by
  have alone := paired.alone here rfl
  have mine : x.req = slot.req := by
    obtain ⟨w',slot',d',there,same⟩ := paired.replies k m x box (by simp [waiting])
    obtain rfl := alone w' _ there rfl
    rw [here] at there
    cases there
    exact same.symm
  cases paired
  constructor <;> try dsimp only [State.setMailbox,State.setWorker]
  all_goals first | assumption | grind -linarith

theorem Paired.die (here : s.workers w = some ⟨k,.leaving idle⟩) :
    Paired (s.setWorker w k .dead) ∧
      ∀ w' pc, (s.setWorker w k .dead).workers w' = some ⟨k,pc⟩ → pc.live = false := by
  cases paired
  refine ⟨?_,?_⟩
  · constructor <;> try dsimp only [State.setWorker]
    all_goals first | assumption | grind -linarith
  · dsimp only [State.setWorker]
    grind

theorem Paired.spawnWorker (placed : Placed s) (box : s.mailboxes k = some m)
    (marked : m.workerRunning = true)
    (nobody : ∀ w pc, s.workers w = some ⟨k,pc⟩ → pc.live = false) : Paired (s.spawnWorker k) := by
  have fresh := placed.newWorker s.nextWorker (Nat.le_refl _)
  cases paired
  constructor <;> try dsimp only [State.spawnWorker,State.setWorker]
  all_goals first | assumption | grind -linarith

theorem Paired.setLock
    (entering : ∀ r k w, lock = .submitting r k → s.workers w ≠ some ⟨k,.leaving true⟩) : Paired { s with lock } :=
  { paired with entering := entering }

theorem Paired.newMailbox (placed : Placed s) (missing : s.mailboxes k = none)
    (empty : m.replyc = []) : Paired (s.setMailbox k m) := by
  have nobody : ∀ w pc, s.workers w ≠ some ⟨k,pc⟩ := by
    intro w pc there
    obtain ⟨m,box⟩ := placed.mailbox w k pc there
    rw [missing] at box
    cases box
  cases paired
  constructor <;> try dsimp only [State.setMailbox]
  all_goals first | assumption | grind -linarith

theorem Paired.close (box : s.mailboxes k = some m)
    (orderly : m.inFlight = true → ∃ w slot d, s.workers w = some ⟨k,.recv slot d⟩ ∧
      ⟨slot.req,k⟩ ∈ (s.actors d).queue ∧ (s.actors d).phase ≠ .running)
    (running : m'.workerRunning = m.workerRunning) (current : m'.current = m.current)
    (replyc : m'.replyc = if m.inFlight && m.replyc.isEmpty then [terminated m.current] else m.replyc) :
    Paired (s.setMailbox k m') := by
  by_cases flies : (m.inFlight && m.replyc.isEmpty) = true
  · obtain ⟨w,slot,d,here,_,quit⟩ := orderly (by simp_all)
    have mine : m.current = slot.req := paired.current w k _ slot m here rfl box
    have alone := paired.alone here rfl
    have absent : ∀ e msg, (s.actors e).phase = .running → msg ∈ (s.actors e).unanswered → msg.mb ≠ k := by
      rintro e msg phase member rfl
      obtain ⟨w',slot',_,there,_⟩ := paired.messages e msg phase member
      obtain rfl := alone w' _ there rfl
      rw [here] at there
      cases there
      exact quit phase
    cases paired
    constructor <;> try dsimp only [State.setMailbox]
    all_goals first | assumption | grind -linarith [terminated]
  · rw [if_neg flies] at replyc
    exact paired.setMailbox box replyc current fun _ _ _ _ marked => running.trans marked

theorem Paired.serve (phase : (s.actors d).phase = .running)
    (idle : (s.actors d).serving = none) (queue : (s.actors d).queue = msg :: rest) :
    Paired (s.setActor d { s.actors d with queue := rest, serving := some msg }) := by
  have same (e : ChanId) : ((s.setActor d { s.actors d with queue := rest, serving := some msg }).actors
      e).unanswered = (s.actors e).unanswered ∧
      ((s.setActor d { s.actors d with queue := rest, serving := some msg }).actors e).phase =
        (s.actors e).phase := by
    by_cases here : e = d
    · subst here; simp [idle,queue]
    · simp [here]
  refine { paired with messages := ?_, once := ?_, serving := ?_ }
  · intro e m running member
    rw [(same e).1] at member
    rw [(same e).2] at running
    exact paired.messages e m running member
  · intro e running
    rw [(same e).2] at running
    rw [(same e).1]
    exact paired.once e running
  · intro e busy
    rw [(same e).2]
    by_cases here : e = d
    · exact here ▸ phase
    · exact paired.serving e (by simpa [here] using busy)

theorem Paired.reply (busy : (s.actors d).serving = some msg)
    (box : s.mailboxes msg.mb = some m) (x : Reply) (own' : x.req = msg.req) :
    Paired ((s.setMailbox msg.mb { m with replyc := [x] }).setActor d { s.actors d with serving := none }) := by
  have phase : (s.actors d).phase = .running := paired.serving d (by simp [busy])
  have split : (s.actors d).unanswered = msg :: (s.actors d).queue := by simp [busy]
  obtain ⟨w,slot,m₀,here,mine,box₀,empty⟩ := paired.messages d msg phase (by simp [busy])
  have alone := paired.alone here rfl
  have absent : ∀ e msg', (s.actors e).phase = .running → msg' ∈ (s.actors e).unanswered → e ≠ d →
      msg'.mb ≠ msg.mb := by
    intro e msg' running member other same
    obtain ⟨w',slot',_,there,_⟩ := paired.messages e msg' running member
    rw [same] at there
    obtain rfl := alone w' _ there rfl
    rw [here] at there
    cases there
    exact other rfl
  have left : Actor.unanswered { s.actors d with serving := none } = (s.actors d).queue := by
    simp
  cases paired
  constructor <;> try dsimp only [State.setMailbox,State.setActor]
  all_goals first | assumption | grind -linarith

theorem Paired.stop (phase : p ≠ .running) (idle : (s.actors d).serving = none) :
    Paired (s.setActor d { s.actors d with phase := p }) := by
  cases paired
  constructor <;> try dsimp only [State.setActor]
  all_goals first | assumption | grind -linarith

theorem leave_paired (placed : Placed s)
    (here : s.workers w = some ⟨k,.leaving idle⟩) (box : s.mailboxes k = some m) :
    Paired (leaveStep s w k m created) := by
  obtain ⟨gone,nobody⟩ := paired.die here
  have dead {w' : WorkerId} {pc : Pc} (there : (s.setWorker w k .dead).workers w' = some ⟨k,pc⟩)
      (loop : pc.inLoop = true) : False := by
    have := nobody w' pc there
    rw [Pc.live_of_inLoop loop] at this
    cases this
  have marked (b : Bool) : Paired ((s.setWorker w k .dead).setMailbox k { m with workerRunning := b }) :=
    gone.setMailbox box rfl rfl fun _ _ there loop => (dead there loop).elim
  have gone' : Placed (s.setWorker w k .dead) := placed.setWorker here rfl
  have placed' : Placed ((s.setWorker w k .dead).setMailbox k { m with workerRunning := true }) :=
    gone'.setMailbox box rfl .inl nofun
  unfold leaveStep
  split
  · split
    · exact (marked true).spawnWorker placed' (if_pos rfl) rfl nobody
    · exact marked true
  · exact marked false

end Effects

/-- An orderly step that loses no request: a worker that took a slot while idling finds its mailbox open, a successor
can be started when work is left, the object keeps its channel between the worker's first look at it and its send, and
an actor closes its channel only when each request unread in it has been given its error. -/
def NoLostRequest : Label → State → Prop
  | .work w created, s => ∀ k pc m, s.workers w = some ⟨k,pc⟩ → s.mailboxes k = some m →
      (∀ slot, pc = .checkIdle (some slot) → m.closed = false) ∧
      (∀ idle, pc = .leaving idle → m.closed = false → m.ring ≠ [] → created = true) ∧
      (∀ slot, pc.uses = some slot → s.dispatchChan slot ≠ none)
  | .chanclose d, s => ∀ w k slot m, s.workers w = some ⟨k,.recv slot d⟩ → s.mailboxes k = some m →
      ⟨slot.req,k⟩ ∈ (s.actors d).queue → m.replyc ≠ []
  | label, s => Orderly label s

theorem NoLostRequest.orderly (kept : NoLostRequest label s) : Orderly label s := by
  cases label <;> first | exact kept | trivial

/-- Every mailbox that counts on a worker has one, every waiting worker has something to
wait for, and no request is dropped. -/
structure Served (s : State) : Prop where
  alive : ∀ k m, s.mailboxes k = some m → m.workerRunning = true →
    ∃ w pc, s.workers w = some ⟨k,pc⟩ ∧ pc.inLoop = true
  waits : ∀ w k slot d m, s.workers w = some ⟨k,.recv slot d⟩ → s.mailboxes k = some m →
    m.replyc = [] → (s.actors d).serving = some ⟨slot.req,k⟩ ∨
      (⟨slot.req,k⟩ ∈ (s.actors d).queue ∧ (s.actors d).phase ≠ .closed)
  kept : ∀ r, (s.requests r).status ≠ .rejected → (s.requests r).place ≠ .dropped

theorem initial_served : Served initial := by
  constructor <;> simp [initial]

section Serving

variable {s : State} {k : Key} {m m' : Mailbox} {w : WorkerId} {pc pc' : Pc} {slot : Slot}

section

variable (served : Served s)

include served

theorem Served.setWorker (here : s.workers w = some ⟨k,pc⟩)
    (loop : pc.inLoop = true → pc'.inLoop = true) (waits : ∀ slot d, pc' ≠ .recv slot d) :
    Served (s.setWorker w k pc') := by
  obtain ⟨alive,waits',kept⟩ := served
  constructor <;> try dsimp only [State.setWorker]
  all_goals first | assumption | grind -linarith

theorem Served.setMailbox (box : s.mailboxes k = some m) (replyc : m'.replyc = [] → m.replyc = [])
    (running : m'.workerRunning = true → m.workerRunning = true) : Served (s.setMailbox k m') := by
  obtain ⟨alive,waits,kept⟩ := served
  constructor <;> try dsimp only [State.setMailbox]
  all_goals first | assumption | grind -linarith

theorem Served.setRequest (kept : q.status ≠ .rejected → q.place ≠ .dropped) : Served (s.setRequest r q) := by
  obtain ⟨alive,waits,kept'⟩ := served
  constructor <;> try dsimp only [State.setRequest]
  all_goals first | assumption | grind -linarith

theorem Served.newMailbox (placed : Placed s) (missing : s.mailboxes k = none)
    (idle : m.workerRunning = false) : Served (s.setMailbox k m) := by
  have mailbox := placed.mailbox
  obtain ⟨alive,waits,kept⟩ := served
  constructor <;> try dsimp only [State.setMailbox]
  all_goals first | assumption | grind -linarith

theorem Served.idleExit (here : s.workers w = some ⟨k,.lenCheck⟩) (box : s.mailboxes k = some m) :
    Served ((s.setMailbox k { m with workerRunning := false }).setWorker w k (.leaving true)) := by
  obtain ⟨alive,waits,kept⟩ := served
  constructor <;> try dsimp only [State.setMailbox,State.setWorker]
  all_goals first | assumption | grind -linarith

end

variable (served : Served s)
include served

/-- The mailbox of a worker that is gone counts on nobody, or on a new worker. -/
theorem Served.leave (placed : Placed s)
    (here : s.workers w = some ⟨k,.leaving idle⟩) (box : s.mailboxes k = some m)
    (created' : m.closed = false → m.ring ≠ [] → created = true) : Served (leaveStep s w k m created) := by
  have fresh := placed.newWorker s.nextWorker (Nat.le_refl _)
  obtain ⟨alive,waits,kept⟩ := served
  unfold leaveStep
  split
  next more =>
    obtain rfl : created = true := created' (by simp_all) (by simp_all)
    constructor <;> try dsimp only [State.spawnWorker,State.setMailbox,State.setWorker]
    all_goals first | assumption | grind -linarith
  next =>
    constructor <;> try dsimp only [State.setMailbox,State.setWorker]
    all_goals first | assumption | grind -linarith

theorem Served.send (here : s.workers w = some ⟨k,.send slot⟩)
    (opened : (s.actors d).phase ≠ .closed) :
    Served ((s.setActor d { s.actors d with queue := (s.actors d).queue ++ [⟨slot.req,k⟩] }).setWorker
      w k (.recv slot d)) := by
  obtain ⟨alive,waits,kept⟩ := served
  constructor <;> try dsimp only [State.setActor,State.setWorker]
  all_goals first | assumption | grind -linarith

theorem Served.recv (paired : Paired s) (here : s.workers w = some ⟨k,.recv slot d⟩) :
    Served ((s.setMailbox k { m with replyc := rest }).setWorker w k (.clear slot x)) := by
  have alone := paired.alone here rfl
  obtain ⟨alive,waits,kept⟩ := served
  constructor <;> try dsimp only [State.setMailbox,State.setWorker]
  all_goals first | assumption | grind -linarith

theorem Served.start (placed : Placed s) (box : s.mailboxes k = some m) :
    Served ((s.setMailbox k { m with workerRunning := true }).spawnWorker k) := by
  have fresh := placed.newWorker s.nextWorker (Nat.le_refl _)
  obtain ⟨alive,waits,kept⟩ := served
  constructor <;> try dsimp only [State.spawnWorker,State.setMailbox,State.setWorker]
  all_goals first | assumption | grind -linarith [Pc.inLoop]

theorem Served.serve (idle : (s.actors d).serving = none)
    (phase : (s.actors d).phase = .running) (queue : (s.actors d).queue = msg :: rest) :
    Served (s.setActor d { s.actors d with queue := rest, serving := some msg }) := by
  obtain ⟨alive,waits,kept⟩ := served
  constructor <;> try dsimp only [State.setActor]
  all_goals first | assumption | grind -linarith

theorem Served.reply (busy : (s.actors d).serving = some msg)
    (box : s.mailboxes msg.mb = some m) (x : Reply) :
    Served ((s.setMailbox msg.mb { m with replyc := [x] }).setActor d { s.actors d with serving := none }) := by
  obtain ⟨alive,waits,kept⟩ := served
  constructor <;> try dsimp only [State.setMailbox,State.setActor]
  all_goals first | assumption | grind -linarith

theorem Served.quit (idle : (s.actors d).serving = none) :
    Served (s.setActor d { s.actors d with phase := .quitting }) := by
  obtain ⟨alive,waits,kept⟩ := served
  constructor <;> try dsimp only [State.setActor]
  all_goals first | assumption | grind -linarith

theorem Served.chanclose (guard : NoLostRequest (.chanclose d) s) :
    Served (s.setActor d { s.actors d with phase := .closed }) := by
  simp only [NoLostRequest] at guard
  obtain ⟨alive,waits,kept⟩ := served
  constructor <;> try dsimp only [State.setActor]
  all_goals first | assumption | grind -linarith

end Serving

/-- What a run keeps: the pairing, and where it loses no request that all of them are served. -/
structure Held (lossless : Prop) (s : State) : Prop where
  paired : Paired s
  served : lossless → Served s

section Steps

variable {s s' : State} {lossless : Prop}

variable (held : Held lossless s)
include held

theorem Held.setWorker (here : s.workers w = some ⟨k,pc⟩) (loop : pc.inLoop = true)
    (waits : ∀ slot d, pc ≠ .recv slot d) (loop' : pc'.inLoop = true) (flying : pc'.flying = none)
    (carried : ∀ slot x, pc'.carried = some (slot,x) → x.req = slot.req) : Held lossless (s.setWorker w k pc') := by
  have flies (slot : Slot) : pc'.flying ≠ some slot := by simp [flying]
  refine ⟨held.paired.setWorker here loop waits ?_ flies carried,fun keeps =>
    (held.served keeps).setWorker here (fun _ => loop') ?_⟩
  · rintro rfl
    contradiction
  · rintro slot d rfl
    contradiction

theorem Held.setMailbox (box : s.mailboxes k = some m) (replyc : m'.replyc = m.replyc)
    (current : m'.current = m.current) (running : m'.workerRunning = m.workerRunning) :
    Held lossless (s.setMailbox k m') where
  paired := held.paired.setMailbox box replyc current fun _ _ _ _ marked => running.trans marked
  served keeps := (held.served keeps).setMailbox box (fun empty => replyc ▸ empty) fun marked => running ▸ marked

theorem Held.setRequest (done : ∀ x, some x ∈ q.done → some x ∈ (s.requests r).done ∨ x.req = r)
    (kept : q.status ≠ .rejected → q.place ≠ .dropped) : Held lossless (s.setRequest r q) :=
  ⟨held.paired.setRequest done,fun keeps => (held.served keeps).setRequest kept⟩

theorem Held.complete (own : x.req = r) : Held lossless (s.complete r x) := by
  refine held.setRequest (fun y member => ?_) nofun
  simp only [mem_append,mem_singleton,some.injEq] at member
  rcases member with old | rfl
  · exact .inl old
  · exact .inr own

theorem Held.setLock (entering : ∀ r k w, lock = .submitting r k → s.workers w ≠ some ⟨k,.leaving true⟩) :
    Held lossless { s with lock } :=
  ⟨held.paired.setLock entering,fun keeps => { held.served keeps with }⟩

theorem Held.tables (entries : List ObjEntry) (nextReq : ReqId) (unregs : List Key) :
    Held lossless { s with entries, nextReq, unregs } :=
  ⟨{ held.paired with },fun keeps => { held.served keeps with }⟩

theorem work_held (placed : Placed s) (guard : lossless → NoLostRequest (.work w created) s)
    (here : s.workers w = some ⟨k,pc⟩) (box : s.mailboxes k = some m)
    (move : WorkerMove s w k m created pc s') : Held lossless s' := by
  have paired := held.paired
  have served := held.served
  have guard (keeps : lossless) := guard keeps k pc m here box
  have taken (r : ReqId) (rest : List Slot) :
      Held lossless ((s.setMailbox k { m with ring := rest }).setPlace r (.held w)) := by
    have shorter : Held lossless (s.setMailbox k { m with ring := rest }) := held.setMailbox box rfl rfl rfl
    exact shorter.setRequest (fun _ => .inl) nofun
  have place (r : ReqId) (p : Place) : Paired (s.setPlace r p) := paired.setRequest fun _ => .inl
  cases move with
  | go move => cases move <;> exact held.setWorker here rfl nofun rfl rfl (by simp [Pc.carried,terminated])
  | take slot rest | idleTake _ slot rest =>
    exact (taken slot.req rest).setWorker here rfl nofun rfl rfl nofun
  | drop slot closed =>
    refine ⟨(place slot.req .dropped).setWorker here rfl nofun nofun nofun nofun,fun keeps => ?_⟩
    rw [(guard keeps).1 slot rfl] at closed
    contradiction
  | fault slot uses missing =>
    have loop : pc.inLoop = true ∧ ∀ slot d, pc ≠ .recv slot d := by
      cases pc with
      | closing | send => exact ⟨rfl,nofun⟩
      | _ => cases uses
    exact ⟨(place slot.req .dropped).setWorker here loop.1 loop.2 nofun nofun nofun,
      fun keeps => absurd missing ((guard keeps).2.2 slot uses)⟩
  | idleExit free => exact ⟨paired.idleExit here box free,fun keeps => (served keeps).idleExit here box⟩
  | ready slot =>
    refine ⟨paired.ready here box,fun keeps => ?_⟩
    have ready : Served (s.setMailbox k { m with inFlight := true, current := slot.req }) :=
      (served keeps).setMailbox box id id
    exact ready.setWorker here (fun _ => rfl) nofun
  | send slot d found opened =>
    exact ⟨paired.send here box d,fun keeps => (served keeps).send here opened⟩
  | recv slot d x rest waiting =>
    exact ⟨paired.recv here box waiting,fun keeps => (served keeps).recv paired here⟩
  | clear slot x =>
    have mine := paired.own w k _ slot x here rfl
    have cleared : Held lossless (s.setMailbox k { m with inFlight := false }) := held.setMailbox box rfl rfl rfl
    refine cleared.setWorker here rfl nofun rfl rfl ?_
    rintro _ _ ⟨⟩
    exact mine
  | complete slot x =>
    exact (held.complete (paired.own w k _ slot x here rfl)).setWorker here rfl nofun rfl rfl nofun
  | leave idle =>
    exact ⟨leave_paired paired placed here box,
      fun keeps => (served keeps).leave placed here box ((guard keeps).2.1 idle rfl)⟩

theorem reject_held (r : ReqId) : Held lossless (s.reject r) :=
  held.setRequest (fun x member => .inl (by simpa using member)) fun kept => absurd rfl kept

theorem chosen_held (placed : Placed s) (chosen : Chosen s k m)
    (entries : List ObjEntry) (ring : List Slot) :
    Held lossless (State.setMailbox { s with entries } k { m with ring }) := by
  have table : Held lossless { s with entries } := held.tables entries s.nextReq s.unregs
  have table' : Placed { s with entries } := { placed with }
  obtain ⟨_,⟨old,box,rfl⟩ | ⟨missing,rfl⟩⟩ := chosen
  · exact table.setMailbox box rfl rfl rfl
  · exact ⟨table.paired.newMailbox table' missing rfl,fun keeps => (table.served keeps).newMailbox table' missing rfl⟩

theorem enqueue_held (placed : Placed s) (orderly : Orderly (.enqueue r allocated) s)
    (stepped : enqueueStep s r allocated = some s') : Held lossless s' := by
  obtain ⟨_,_,move⟩ := enqueue_move stepped
  cases move with
  | noMailbox => exact reject_held held r
  | queue key handle entries k m status chosen =>
    have queued := chosen_held held placed (chooseMailbox_some chosen) entries
      (m.ring ++ [⟨r,handle⟩])
    have placed : Held lossless ((State.setMailbox { s with entries } k
        { m with ring := m.ring ++ [Slot.mk r handle] }).setPlace r (.queued k)) :=
      queued.setRequest (fun _ => .inl) nofun
    refine placed.setLock ?_
    rintro _ _ w ⟨⟩
    exact orderly key handle entries k m w status chosen
  | full entries k m chosen =>
    exact reject_held (chosen_held held placed chosen entries m.ring) r

theorem accept_held (status : (s.requests r).status ≠ .rejected) :
    Held lossless { s.setRequest r { s.requests r with status := .accepted } with lock := .free } := by
  have accepted : Held lossless (s.setRequest r { s.requests r with status := .accepted }) :=
    ⟨held.paired.setRequest fun _ => .inl,
      fun keeps => (held.served keeps).setRequest fun _ => (held.served keeps).kept r status⟩
  exact accepted.setLock nofun

theorem spawn_held (placed : Placed s) (stepped : spawnStep s created = some s') : Held lossless s' := by
  obtain ⟨r,k,m,lock,box,move⟩ := spawn_move placed stepped
  have status : (s.requests r).status ≠ .rejected := by
    obtain ⟨_,_,key,handle,entering⟩ := placed.submitting r k lock
    rw [entering]
    nofun
  have paired := held.paired
  cases move with
  | running => exact accept_held held status
  | created t same idle =>
    subst same
    have nobody (w : WorkerId) (pc : Pc) (there : s.workers w = some ⟨k,pc⟩) : pc.live = false := by
      by_contra live
      have stopped : pc.inLoop ≠ true := fun loop => by
        simp [paired.running w k pc m there loop box] at idle
      have exiting : pc = .leaving true := by
        cases pc with
        | leaving b => cases b <;> simp_all [Pc.inLoop]
        | _ => simp_all [Pc.inLoop,Pc.live]
      exact paired.entering r k w lock (exiting ▸ there)
    have marked : Paired (s.setMailbox k { m with workerRunning := true }) :=
      paired.setMailbox box rfl rfl fun _ _ _ _ _ => rfl
    have marked' : Placed (s.setMailbox k { m with workerRunning := true }) :=
      placed.setMailbox box rfl .inl nofun
    have spawned : Held lossless ((s.setMailbox k { m with workerRunning := true }).spawnWorker k) :=
      ⟨marked.spawnWorker marked' (if_pos rfl) rfl nobody,fun keeps => (held.served keeps).start placed box⟩
    exact accept_held spawned status
  | failed m' q idle same status' place done =>
    subst same
    have taken : Held lossless (s.setMailbox k { m with ring := m.ring.tail }) := held.setMailbox box rfl rfl rfl
    refine (taken.setRequest (fun x member => .inl ?_) fun kept => absurd status' kept).setLock nofun
    rw [done] at member
    have old : some x ∈ (s.requests r).done := by simpa using member
    exact old

theorem step_held (placed : Placed s) (orderly : Orderly label s) (guard : lossless → NoLostRequest label s)
    (stepped : step label s = some s') : Held lossless s' := by
  have paired := held.paired
  have served := held.served
  cases step_stepped stepped with
  | @refused _ _ _ entries => exact reject_held (held.tables entries (s.nextReq + 1) s.unregs) _
  | @entered _ _ _ _ entries => exact (held.tables entries (s.nextReq + 1) s.unregs).setRequest nofun nofun
  | enqueued moved => exact enqueue_held held placed orderly moved
  | spawned moved => exact spawn_held held placed moved
  | worked here box move => exact work_held held placed guard here box move
  | unregistered | left => exact held.tables _ s.nextReq _
  | @closed key m _ box =>
    have left := held.tables s.entries s.nextReq (s.unregs.erase key)
    have closed : Held lossless (State.setMailbox { s with unregs := s.unregs.erase key } key { m with
        closed := true
        replyc := if m.inFlight && m.replyc.isEmpty then [terminated m.current] else m.replyc }) := by
      refine ⟨left.paired.close box (orderly m box) rfl rfl rfl,fun keeps => (left.served keeps).setMailbox box ?_ id⟩
      split <;> simp
    exact closed.setLock nofun
  | unlocked => exact held.setLock nofun
  | @drained k m slot rest _ box ring =>
    have taken : Held lossless (s.setMailbox k { m with ring := rest }) := held.setMailbox box rfl rfl rfl
    exact taken.complete rfl
  | served phase idle queue =>
    exact ⟨paired.serve phase idle queue,fun keeps => (served keeps).serve idle phase queue⟩
  | replied busy box => exact ⟨paired.reply busy box _ rfl,fun keeps => (served keeps).reply busy box _⟩
  | quits idle => exact ⟨paired.stop nofun idle,fun keeps => (served keeps).quit idle⟩
  | @chanclosed d quitting =>
    refine ⟨paired.stop nofun ?_,fun keeps => (served keeps).chanclose (guard keeps)⟩
    by_contra busy
    simp [paired.serving d busy] at quitting

end Steps

/-- At most one worker of a mailbox is alive. -/
def OneWorker (s : State) : Prop :=
  ∀ w w' k pc pc', s.workers w = some ⟨k,pc⟩ → s.workers w' = some ⟨k,pc'⟩ →
    pc.live = true → pc'.live = true → w = w'

/-- No request is completed with a reply, or an error, that was made for another one. -/
def OwnReplies (s : State) : Prop :=
  ∀ r x, some x ∈ (s.requests r).done → x.req = r

/-- In an orderly run each mailbox has one worker and each request gets its own reply. -/
theorem orderly_replies_paired (meets : Meets step Orderly labels initial)
    (ran : run step labels initial = some s) : OneWorker s ∧ OwnReplies s := by
  have kept : Placed s ∧ Held False s := run_invariant_of_meets (fun s => Placed s ∧ Held False s)
    (fun _ _ _ both orderly stepped =>
      ⟨step_placed both.1 stepped,step_held both.2 both.1 orderly nofun stepped⟩)
    labels initial s meets ⟨initial_placed,initial_paired,nofun⟩ ran
  exact ⟨kept.2.paired.unique,kept.2.paired.done⟩

def someKey : Key := ⟨"Counter","c0"⟩

/-- A request for the actor of channel 0, from its submission to its acceptance. -/
def submitted (r : ReqId) : List Label :=
  [.submit someKey (some 0) true,.enqueue r true,.spawn true]

def works (w n : Nat) : List Label := List.replicate n (.work w true)

/-- The actor of channel 0 takes the request in its channel and answers with `code`. -/
def answered (code : Int) : List Label := [.serve 0,.reply 0 none code]

/-- One request, submitted, passed on by its worker, answered and completed. -/
def servedRequest : List Label :=
  submitted 0 ++ works 0 8 ++ answered 7 ++ works 0 3

theorem servedRequest_end : (run step servedRequest initial).map (fun s => (s.workers 0,(s.requests 0).done)) =
      some (some ⟨someKey,.top⟩,[some ⟨0,none,7⟩]) := by
  decide

theorem servedRequest_orderly : Meets step Orderly servedRequest initial := by
  refine ⟨trivial,fun s₁ first => ⟨?_,fun s₂ _ => meets_of_labels _ s₂ ?_⟩⟩
  · cases first
    nofun
  · simp [works,answered,Orderly]

theorem servedRequest_paired : ∃ s, run step servedRequest initial = some s ∧
    (s.requests 0).done = [some ⟨0,none,7⟩] ∧ OneWorker s ∧ OwnReplies s := by
  obtain ⟨s,ran,last⟩ := Option.map_eq_some_iff.mp servedRequest_end
  simp only [Prod.mk.injEq] at last
  exact ⟨s,ran,last.2,orderly_replies_paired servedRequest_orderly ran⟩

/-- The first worker runs idle and gives up `worker_running`. Before its last critical
section, where it clears the flag again, the second request starts a second worker, so
that the third request starts a third one. The third worker then takes the answer to the
second request. -/
def overtaken : List Label :=
  submitted 0 ++ works 0 8 ++ answered 7 ++ works 0 (3 + 2 + 2 * maxIdle + 3) ++
  submitted 1 ++ works 1 8 ++ works 0 1 ++
  submitted 2 ++ works 2 8 ++ answered 8 ++ works 2 3

theorem overtaken_end : (run step overtaken initial).map (fun s => (s.workers 1,s.workers 2,(s.requests 2).done)) =
      some (some ⟨someKey,.recv ⟨1,1,0⟩ 0⟩,some ⟨someKey,.top⟩,[some ⟨1,none,8⟩]) := by
  decide

/-- Without the condition both parts fail, in one run. -/
theorem overtaken_request_mispaired : (¬∀ labels s, run step labels initial = some s → OneWorker s) ∧
    ¬∀ labels s, run step labels initial = some s → OwnReplies s := by
  obtain ⟨s,ran,last⟩ := Option.map_eq_some_iff.mp overtaken_end
  simp only [Prod.mk.injEq] at last
  obtain ⟨second,third,done⟩ := last
  refine ⟨fun all => ?_,fun all => ?_⟩
  · exact absurd (all overtaken s ran 1 2 someKey _ _ second third rfl rfl) (by decide)
  · exact absurd (all overtaken s ran 2 _ (done ▸ mem_singleton_self _)) (by decide)

end Objective9c.Router
