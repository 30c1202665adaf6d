import Objective9c.Runtime.Ownership

/-! Each message on a dispatch channel is freed once, by its owner, iff no router worker
places one, no posted message reaches a loop that has stopped, and no loop stops before it
has read those it owns. -/
namespace Objective9c.Ownership

open Transition Option

def Sender.owner (sender : Sender) : Owner :=
  match sender.kind with
  | .sync | .route => .sender
  | .post => .loop sender.target

/-- The owner of a message on the channel of `a` can still free it: the sender has not
returned, or the message waits to be received by a loop that runs. -/
def Held (s : State) (a : ActorId) (n : Nat) (sender : Sender) : Prop :=
  match sender.owner with
  | .sender => sender.pc ≠ .returned
  | .loop _ => .heap n ∈ (s.actors a).queue ∧ (s.actors a).loop.running = true

/-- Each message that was placed on a dispatch channel is a heap block; it is not freed
while its owner holds it, and then freed once, by its owner. -/
structure Owned (s : State) : Prop where
  heap : ∀ a x, x ∈ (s.actors a).placed → ∃ n sender, x = .heap n ∧ s.senders x = some sender
  kept : ∀ a n sender, .heap n ∈ (s.actors a).placed → s.senders (.heap n) = some sender →
    Held s a n sender → (s.mem (.heap n)).frees = []
  freed : ∀ a n sender, .heap n ∈ (s.actors a).placed → s.senders (.heap n) = some sender →
    ¬Held s a n sender → (s.mem (.heap n)).frees = [sender.owner]
  stack : ∀ w, (s.mem (.stack w)).frees = []

/-- No message that the loop owns is unread. -/
def NoneUnread (s : State) (a : ActorId) : Prop :=
  ∀ x ∈ (s.actors a).queue, ∀ sender, s.senders x = some sender → sender.kind ≠ .post

/-- A router's message is never placed, a posted one only where a loop runs, and a loop
exits only with no message of its own unread. -/
def KeepsOwner : Label → State → Prop
  | .put x, s => ∀ sender, s.senders x = some sender →
      (s.actors sender.target).closed = true ∨ sender.kind = .sync ∨
        (sender.kind = .post ∧ (s.actors sender.target).loop.running = true)
  | .handle a, s => ∀ m, (s.actors a).loop = .serving m → m.sel = .destroy → NoneUnread s a
  | .next a, s => ∀ m, (s.actors a).loop = .served m → a.oneShot = true → m.sel = .run → NoneUnread s a
  | .crash a, s => (s.actors a).loop.running = true → NoneUnread s a
  | _, _ => True

structure Wired (s : State) : Prop where
  new : ∀ n, s.nextMsg ≤ n → s.senders (.heap n) = none
  stack : ∀ w sender, s.senders (.stack w) = some sender → sender.kind = .route
  heap : ∀ n sender, s.senders (.heap n) = some sender → sender.kind ≠ .route
  posts : ∀ n sender, s.senders (.heap n) = some sender → sender.kind = .post → sender.pc ≠ .waiting
  known : ∀ a n, .heap n ∈ (s.actors a).placed → s.senders (.heap n) ≠ none
  placed : ∀ a n sender, .heap n ∈ (s.actors a).placed → s.senders (.heap n) = some sender →
    sender.target = a ∧ (sender.pc = .waiting ∨ sender.pc = .returned)
  queue : ∀ a x, x ∈ (s.actors a).queue → x ∈ (s.actors a).placed

theorem initial_wired : Wired initial := by
  constructor <;> simp [initial]

theorem step_wired (wired : Wired s) (move : Move s label s') : Wired s' := by
  have sent (kind : Kind) : (kind.afterSend = .waiting ∧ kind ≠ .post) ∨ kind.afterSend = .returned := by
    cases kind <;> simp [Kind.afterSend]
  obtain ⟨new,stack,heap,posts,known,placed,queue⟩ := wired
  cases move <;> constructor <;> try dsimp only [State.alloc,State.setSender,State.setMsg,State.free,
    State.setActor,State.reply]
  all_goals first | assumption | grind -linarith

/-- Where the message of one sender stands. -/
structure Fits (s : State) (n : Nat) (sender : Sender) : Prop where
  syncSet : sender.kind = .sync → sender.pc ≠ .made → sender.pc ≠ .returned →
    (s.mem (.heap n)).msg.sync = true
  syncNil : sender.kind = .post → (s.mem (.heap n)).msg.sync = false
  callKept : sender.kind = .sync → sender.pc ≠ .returned → (s.mem (.heap n)).frees = []
  callFreed : sender.kind = .sync → sender.pc = .returned → (s.mem (.heap n)).frees = [.sender]
  unsent : sender.kind = .post → sender.pc ≠ .returned →
    sender.pc = .sending ∧ (s.mem (.heap n)).frees = []
  unread : sender.kind = .post → .heap n ∈ (s.actors sender.target).queue →
    (s.mem (.heap n)).frees = [] ∧ (s.actors sender.target).loop.running = true
  read : sender.kind = .post → .heap n ∈ (s.actors sender.target).placed →
    .heap n ∉ (s.actors sender.target).queue → (s.mem (.heap n)).frees = [.loop sender.target]
  pending : sender.kind = .sync → .heap n ∈ (s.actors sender.target).queue →
    (s.actors sender.target).loop.running = true → sender.pc = .waiting ∧ s.replies (.sync n) = 0
  unanswered : sender.kind = .sync → sender.pc ≠ .waiting → sender.pc ≠ .returned →
    s.replies (.sync n) = 0

/-- What every state keeps of its channels as long as each step keeps the owners. -/
structure Tidy (s : State) : Prop extends Wired s where
  onHeap : ∀ a w, .stack w ∉ (s.actors a).placed
  untouched : ∀ w, (s.mem (.stack w)).frees = []
  fresh : ∀ n, s.nextMsg ≤ n → (s.mem (.heap n)).frees = [] ∧ s.replies (.sync n) = 0
  nodup : ∀ a, (s.actors a).queue.Nodup
  port : ∀ n k, (s.mem (.heap n)).msg.replyc = some (.sync k) → k = n
  current : ∀ a m n, (s.actors a).loop = .serving m ∨ (s.actors a).loop = .closing m →
    m.replyc = some (.sync n) → .heap n ∈ (s.actors a).placed ∧ .heap n ∉ (s.actors a).queue

structure Kept (s : State) : Prop extends Tidy s where
  fits : ∀ n sender, s.senders (.heap n) = some sender → Fits s n sender

theorem initial_kept : Kept initial := by
  refine ⟨⟨initial_wired,?_,?_,?_,?_,?_,?_⟩,?_⟩ <;> simp [initial]

section Messages

variable {s s' : State} {n : Nat} {sender : Sender}

/-- No one has had the chance to answer the message. -/
def Unanswered (s : State) (n : Nat) (sender : Sender) : Prop :=
  (sender.pc ≠ .waiting ∧ sender.pc ≠ .returned) ∨
    (.heap n ∈ (s.actors sender.target).queue ∧ (s.actors sender.target).loop.running = true)

theorem Fits.frame (fits : Fits s n sender) (cell : s'.mem (.heap n) = s.mem (.heap n))
    (queue : .heap n ∈ (s'.actors sender.target).queue ↔ .heap n ∈ (s.actors sender.target).queue)
    (placed : .heap n ∈ (s'.actors sender.target).placed ↔ .heap n ∈ (s.actors sender.target).placed)
    (running : (s'.actors sender.target).loop.running = (s.actors sender.target).loop.running)
    (replies : Unanswered s n sender → s'.replies (.sync n) = s.replies (.sync n)) :
    Fits s' n sender := by
  obtain ⟨syncSet,syncNil,callKept,callFreed,unsent,unread,read,pending,unanswered⟩ := fits
  constructor <;> try simp only [cell,queue,placed,running]
  all_goals try assumption
  · intro call waits runs
    rw [replies (.inr ⟨waits,runs⟩)]
    exact pending call waits runs
  · intro call early going
    rw [replies (.inl ⟨early,going⟩)]
    exact unanswered call early going

/-- A step that leaves the actors alone, and all replies to unread messages. -/
theorem Fits.elsewhere (fits : Fits s n sender) (cell : s'.mem (.heap n) = s.mem (.heap n))
    (actors : s'.actors = s.actors)
    (replies : Unanswered s n sender → s'.replies (.sync n) = s.replies (.sync n)) :
    Fits s' n sender :=
  fits.frame cell (by rw [actors]) (by rw [actors]) (by rw [actors]) replies

theorem Wired.unplaced (wired : Wired s) (here : s.senders (.heap n) = some sender)
    (before : sender.pc ≠ .waiting ∧ sender.pc ≠ .returned) (a : ActorId) :
    .heap n ∉ (s.actors a).placed ∧ .heap n ∉ (s.actors a).queue := by
  have absent : .heap n ∉ (s.actors a).placed := by
    intro member
    rcases (wired.placed a n sender member here).2 with same | same
    · exact before.1 same
    · exact before.2 same
  exact ⟨absent,fun member => absent (wired.queue a _ member)⟩

theorem Wired.new_unplaced (wired : Wired s) (a : ActorId) :
    .heap s.nextMsg ∉ (s.actors a).placed ∧ .heap s.nextMsg ∉ (s.actors a).queue := by
  have absent : .heap s.nextMsg ∉ (s.actors a).placed := fun member =>
    wired.known a _ member (wired.new _ (Nat.le_refl _))
  exact ⟨absent,fun member => absent (wired.queue a _ member)⟩

theorem setSender_cases (here : (s.setSender x made).senders (.heap n) = some sender) :
    (x = .heap n ∧ made = sender) ∨ (x ≠ .heap n ∧ s.senders (.heap n) = some sender) := by
  simp only [State.setSender] at here
  split at here
  next same => exact .inl ⟨same.symm,some.inj here⟩
  next other => exact .inr ⟨Ne.symm other,here⟩

variable (inv : Kept s)
include inv

theorem Kept.alloc_fits (m : Msg) (made : Sender)
    (kind : (made.kind = .sync ∧ made.pc = .made) ∨
      (made.kind = .post ∧ made.pc = .sending ∧ m.sync = false))
    (here : (s.alloc made m).senders (.heap n) = some sender) : Fits (s.alloc made m) n sender := by
  rcases setSender_cases (s := s) here with ⟨same,rfl⟩ | ⟨other,old⟩
  · obtain ⟨absent,unqueued⟩ := inv.toWired.new_unplaced made.target
    obtain ⟨frees,none⟩ := inv.fresh s.nextMsg (Nat.le_refl _)
    constructor <;> dsimp only [State.alloc,State.setMsg,State.setSender] <;> grind -linarith
  · exact (inv.fits n sender old).elsewhere
      (by simp [State.alloc,State.setMsg,Ne.symm other]) rfl (fun _ => rfl)

theorem Kept.abandon_fits (old : s.senders x = some ⟨kind,target,pc⟩)
    (before : pc ≠ .waiting ∧ pc ≠ .returned) (other : pc = .sending → kind = .sync)
    (here : ((s.free x .sender).setSender x ⟨kind,target,.returned⟩).senders (.heap n) = some sender) :
    Fits ((s.free x .sender).setSender x ⟨kind,target,.returned⟩) n sender := by
  rcases setSender_cases here with ⟨rfl,rfl⟩ | ⟨apart,old'⟩
  · cases inv.fits n _ old
    constructor <;> dsimp only [State.free,State.setSender] <;> grind -linarith
  · exact (inv.fits n sender old').elsewhere (by simp [Ne.symm apart]) rfl
      (fun _ => rfl)

theorem Kept.syncNew_fits (old : s.senders (.heap k) = some ⟨kind,target,.made⟩)
    (here : ((s.setMsg (.heap k) ⟨sel,replyc,true⟩).setSender (.heap k)
      ⟨kind,target,.registering⟩).senders (.heap n) = some sender) :
    Fits ((s.setMsg (.heap k) ⟨sel,replyc,true⟩).setSender (.heap k) ⟨kind,target,.registering⟩) n
      sender := by
  rcases setSender_cases here with ⟨same,rfl⟩ | ⟨apart,old'⟩
  · cases same
    cases inv.fits n _ old
    constructor <;> dsimp only [State.setMsg,State.setSender] <;> grind -linarith
  · exact (inv.fits n sender old').elsewhere (by simp [State.setMsg,Ne.symm apart]) rfl
      (fun _ => rfl)

theorem Kept.goto_fits (old : s.senders x = some ⟨kind,target,pc⟩)
    (before : pc ≠ .waiting ∧ pc ≠ .returned)
    (goes : (pc = .registering ∧ pc' = .sending) ∨ (kind ≠ .sync ∧ pc' = .returned))
    (here : (s.setSender x ⟨kind,target,pc'⟩).senders (.heap n) = some sender) :
    Fits (s.setSender x ⟨kind,target,pc'⟩) n sender := by
  rcases setSender_cases here with ⟨rfl,rfl⟩ | ⟨_,old'⟩
  · cases inv.fits n _ old
    constructor <;> dsimp only [State.setSender] <;> grind -linarith
  · exact (inv.fits n sender old').elsewhere rfl rfl (fun _ => rfl)

theorem Kept.put_fits (old : s.senders x = some ⟨kind,target,.sending⟩)
    (allowed : kind = .sync ∨ (kind = .post ∧ (s.actors target).loop.running = true))
    (here : ((s.setActor target { s.actors target with
        queue := (s.actors target).queue ++ [x],
        placed := (s.actors target).placed ++ [x] }).setSender x
          ⟨kind,target,kind.afterSend⟩).senders (.heap n) = some sender) :
    Fits ((s.setActor target { s.actors target with
        queue := (s.actors target).queue ++ [x],
        placed := (s.actors target).placed ++ [x] }).setSender x
          ⟨kind,target,kind.afterSend⟩) n sender := by
  rcases setSender_cases here with ⟨rfl,rfl⟩ | ⟨apart,old'⟩
  · cases inv.fits n _ old
    constructor <;> dsimp only [State.setSender,State.setActor] <;> grind -linarith [Kind.afterSend]
  · refine (inv.fits n sender old').frame rfl ?_ ?_ ?_ (fun _ => rfl)
    all_goals dsimp only [State.setSender,State.setActor]; grind -linarith

theorem Kept.finish_fits
    (old : s.senders x = some ⟨.sync,target,.waiting⟩) (answered : 0 < s.replies x.port)
    (others : ∀ q, q ≠ x.port → replies q = s.replies q)
    (here : (({ s with replies }.free x .sender).setSender x ⟨.sync,target,.returned⟩).senders
      (.heap n) = some sender) :
    Fits (({ s with replies }.free x .sender).setSender x ⟨.sync,target,.returned⟩) n sender := by
  rcases setSender_cases here with ⟨rfl,rfl⟩ | ⟨apart,old'⟩
  · cases inv.fits n _ old
    simp only [Addr.port] at answered
    constructor <;> dsimp only [State.free,State.setSender] <;> grind -linarith
  · refine (inv.fits n sender old').elsewhere ?_ rfl (fun _ => others _ ?_)
    · simp [Ne.symm apart]
    · cases x <;> simp_all [Addr.port,eq_comm]

theorem Kept.receive_fits (loop : (s.actors a).loop = .recv)
    (queue : (s.actors a).queue = x :: rest) (old : s.senders (.heap n) = some sender)
    (cell : s'.mem (.heap n) =
      if .heap n = x ∧ (s.mem x).msg.sync = false then
        { s.mem x with frees := (s.mem x).frees ++ [.loop a] } else s.mem (.heap n))
    (actors : s'.actors = (s.setActor a { s.actors a with
      queue := rest, loop := .serving (s.mem x).msg }).actors) (replies : s'.replies = s.replies) :
    Fits s' n sender := by
  have distinct := inv.nodup a
  have target := inv.placed a n sender
  have subset := inv.queue a (.heap n)
  have fits := inv.fits n sender old
  by_cases same : .heap n = x
  · cases fits
    constructor <;> simp only [cell,actors,replies,State.setActor] <;> grind -linarith [Loop.running]
  · rw [if_neg (fun both => same both.1)] at cell
    refine fits.frame cell ?_ ?_ ?_ (fun _ => by rw [replies])
    all_goals rw [actors]; dsimp only [State.setActor]; grind -linarith [Loop.running]

theorem Kept.loop_fits
    (old : s.senders (.heap n) = some sender)
    (running : loop.running = (s.actors a).loop.running ∨ (loop.running = false ∧ NoneUnread s a))
    (mem : s'.mem = s.mem)
    (actors : s'.actors = (s.setActor a { s.actors a with closed, loop }).actors)
    (replies : Unanswered s n sender → s'.replies (.sync n) = s.replies (.sync n)) :
    Fits s' n sender := by
  have fits := inv.fits n sender old
  rcases running with same | ⟨stopped,unread⟩
  · refine fits.frame (by rw [mem]) ?_ ?_ ?_ replies
    all_goals rw [actors]; dsimp only [State.setActor]; grind -linarith
  · have none := fun member => unread (.heap n) member sender old
    by_cases here : sender.target = a
    · cases fits
      constructor <;> try simp only [mem,actors,State.setActor]
      all_goals first | assumption | grind -linarith [Unanswered]
    · refine fits.frame (by rw [mem]) ?_ ?_ ?_ replies
      all_goals rw [actors]; simp [here]

theorem Kept.answer_elsewhere (old : s.senders (.heap n) = some sender)
    (loop : (s.actors a).loop = .serving m ∨ (s.actors a).loop = .closing m)
    (early : Unanswered s n sender) : m.replyc ≠ some (.sync n) := by
  intro port
  obtain ⟨placed,read⟩ := inv.current a m n loop port
  obtain ⟨rfl,past⟩ := inv.placed a n sender placed old
  rcases early with ⟨one,two⟩ | ⟨unread,_⟩
  · exact past.elim one two
  · exact read unread

omit inv

theorem reply_other (other : replyc ≠ some q) :
    (s.reply replyc).replies q = s.replies q := by
  cases replyc with
  | none => rfl
  | some port => simp [State.reply,show q ≠ port from fun same => other (by rw [same])]

@[simp] theorem reply_senders (replyc : Option Port) : (s.reply replyc).senders = s.senders := by
  cases replyc <;> rfl

@[simp] theorem reply_mem : (s.reply replyc).mem = s.mem := by
  cases replyc <;> rfl

@[simp] theorem reply_actors : (s.reply replyc).actors = s.actors := by
  cases replyc <;> rfl

theorem Kept.step_fits (inv : Kept s) (guard : KeepsOwner label s) (move : Move s label s')
    (here : s'.senders (.heap n) = some sender) : Fits s' n sender := by
  cases move with
  | call => exact inv.alloc_fits _ _ (.inl ⟨rfl,rfl⟩) here
  | post => exact inv.alloc_fits _ _ (.inr ⟨rfl,rfl,rfl⟩) here
  | syncNew old => exact inv.syncNew_fits old here
  | register old => exact inv.goto_fits old ⟨nofun,nofun⟩ (.inl ⟨rfl,rfl⟩) here
  | abandon old before =>
    rcases before with rfl | rfl
    · exact inv.abandon_fits old ⟨nofun,nofun⟩ nofun here
    · exact inv.abandon_fits old ⟨nofun,nofun⟩ nofun here
  | route => exact (inv.fits n sender here).elsewhere rfl rfl (fun _ => rfl)
  | refused old => exact inv.abandon_fits old ⟨nofun,nofun⟩ (fun _ => rfl) here
  | ignored old other => exact inv.goto_fits old ⟨nofun,nofun⟩ (.inr ⟨other,rfl⟩) here
  | put old opened =>
    refine inv.put_fits old ?_ here
    simpa [opened] using guard _ old
  | finish old answered => exact inv.finish_fits old answered (fun q other => if_neg other) here
  | @routed x kind target old other =>
    rcases setSender_cases here with ⟨rfl,rfl⟩ | ⟨apart,old'⟩
    · cases kind with
      | sync => exact absurd rfl other
      | route => exact absurd rfl (inv.heap n _ old)
      | post => exact absurd rfl (inv.posts n _ old rfl)
    · refine (inv.fits n sender old').elsewhere rfl rfl (fun _ => if_neg ?_)
      cases x with
      | heap => exact fun same => apart (by cases same; rfl)
      | stack => nofun
  | reap old gone =>
    refine (inv.fits n sender here).elsewhere rfl rfl (fun early => reply_other ?_)
    rintro same
    cases same
    cases old.symm.trans here
    rcases early with ⟨waits,_⟩ | ⟨_,runs⟩
    · exact waits rfl
    · simp [gone,Loop.running] at runs
  | terminate =>
    exact (inv.fits n sender here).elsewhere rfl rfl (fun _ => reply_other nofun)
  | keep loop queue sync =>
    exact inv.receive_fits loop queue here (by simp [sync]) rfl rfl
  | release loop queue sync =>
    refine inv.receive_fits loop queue here ?_ rfl rfl
    simp [sync]
  | cleanup loop destroy =>
    exact inv.loop_fits here (.inr ⟨rfl,guard _ loop destroy⟩) rfl rfl (fun _ => rfl)
  | serve loop =>
    rw [reply_senders] at here
    exact inv.loop_fits here (.inl (by rw [loop]; rfl)) (reply_mem) (reply_actors)
      (fun early => reply_other (inv.answer_elsewhere here (.inl loop) early))
  | retire loop oneShot run =>
    exact inv.loop_fits here (.inr ⟨rfl,guard _ loop oneShot run⟩) rfl rfl (fun _ => rfl)
  | again loop => exact inv.loop_fits here (.inl (by rw [loop]; rfl)) rfl rfl (fun _ => rfl)
  | exit loop =>
    rw [reply_senders] at here
    exact inv.loop_fits here (.inl (by rw [loop]; rfl)) (reply_mem) (reply_actors)
      (fun early => reply_other (inv.answer_elsewhere here (.inr loop) early))
  | @crash a =>
    refine inv.loop_fits here ?_ rfl rfl (fun _ => rfl)
    cases runs : (s.actors a).loop.running with
    | false => exact .inl rfl
    | true => exact .inr ⟨rfl,guard runs⟩

end Messages

section Channels

variable {s s' : State}

theorem Tidy.head (tidy : Tidy s) (queue : (s.actors a).queue = x :: rest) :
    ∃ n, x = .heap n ∧ .heap n ∈ (s.actors a).placed ∧ .heap n ∉ rest ∧ rest.Nodup := by
  have member := tidy.queue a x (by simp [queue])
  have distinct := tidy.nodup a
  rw [queue,List.nodup_cons] at distinct
  cases x with
  | heap n => exact ⟨n,rfl,member,distinct.1,distinct.2⟩
  | stack w => exact absurd member (tidy.onHeap a w)

theorem Tidy.put (tidy : Tidy s) (old : s.senders x = some ⟨kind,target,.sending⟩)
    (allowed : kind ≠ .route) (wired : Wired s') (mem : s'.mem = s.mem) (replies : s'.replies = s.replies)
    (nextMsg : s'.nextMsg = s.nextMsg)
    (actors : s'.actors = (s.setActor target { s.actors target with
        queue := (s.actors target).queue ++ [x],
        placed := (s.actors target).placed ++ [x] }).actors) : Tidy s' := by
  obtain ⟨n,rfl⟩ : ∃ n, x = .heap n := by
    cases x with
    | heap n => exact ⟨n,rfl⟩
    | stack w => exact absurd (tidy.stack w _ old) allowed
  have absent := tidy.toWired.unplaced old ⟨nofun,nofun⟩
  obtain ⟨_,onHeap,untouched,fresh,nodup,port,current⟩ := tidy
  refine .mk wired ?_ ?_ ?_ ?_ ?_ ?_ <;> simp only [mem,replies,nextMsg,actors]
  case refine_4 =>
    intro a
    by_cases same : a = target
    · subst same
      simpa using (nodup a).concat (absent a).2
    · simpa [same] using nodup a
  all_goals first | assumption | (dsimp only [State.setActor]; grind -linarith)

theorem Tidy.receive (tidy : Tidy s) (queue : (s.actors a).queue = x :: rest) (wired : Wired s')
    (cells : ∀ y, (s'.mem y).msg = (s.mem y).msg ∧ (y ≠ x → s'.mem y = s.mem y))
    (replies : s'.replies = s.replies) (nextMsg : s'.nextMsg = s.nextMsg)
    (actors : s'.actors = (s.setActor a { s.actors a with
      queue := rest, loop := .serving (s.mem x).msg }).actors) : Tidy s' := by
  obtain ⟨n,rfl,member,unread,distinct⟩ := tidy.head queue
  obtain ⟨⟨new,_⟩,onHeap,untouched,fresh,nodup,port,current⟩ := tidy
  refine .mk wired ?_ ?_ ?_ ?_ ?_ ?_ <;> try simp only [replies,nextMsg,actors,State.setActor]
  all_goals grind -linarith

theorem step_tidy (tidy : Tidy s) (guard : KeepsOwner label s) (move : Move s label s') : Tidy s' := by
  have wired := step_wired tidy.toWired move
  cases move
  case put old opened =>
    refine tidy.put old ?_ wired rfl rfl rfl rfl
    rintro rfl
    simpa [opened] using guard _ old
  case keep loop queue sync => exact tidy.receive queue wired (fun _ => ⟨rfl,fun _ => rfl⟩) rfl rfl rfl
  case release x _ loop queue sync =>
    refine tidy.receive queue wired (fun y => ⟨?_,fun other => if_neg other⟩) rfl rfl rfl
    by_cases same : y = x <;> simp [same]
  all_goals
    obtain ⟨⟨new,stack,heap,posts,known,placed,queue⟩,onHeap,untouched,fresh,nodup,port,current⟩ := tidy
    refine .mk wired ?_ ?_ ?_ ?_ ?_ ?_ <;> try dsimp only [State.alloc,State.setSender,State.setMsg,
      State.free,State.setActor,State.reply]
    all_goals first | assumption | grind -linarith [State.reply]

end Channels

theorem step_kept (inv : Kept s) (guard : KeepsOwner label s) (move : Move s label s') : Kept s' :=
  ⟨step_tidy inv.toTidy guard move,fun _ _ here => inv.step_fits guard move here⟩

theorem Kept.owned (inv : Kept s) : Owned s := by
  refine ⟨?_,?_,?_,inv.untouched⟩
  · intro a x member
    cases x with
    | heap n =>
      obtain ⟨sender,here⟩ := ne_none_iff_exists'.mp (inv.known a n member)
      exact ⟨n,sender,rfl,here⟩
    | stack w => exact absurd member (inv.onHeap a w)
  all_goals
    intro a n sender member here held
    obtain ⟨rfl,_⟩ := inv.placed a n sender member here
    have fits := inv.fits n sender here
    cases kind : sender.kind with
    | route => exact absurd kind (inv.heap n sender here)
    | sync =>
      simp only [Held,Sender.owner,kind,not_not] at held ⊢
      first | exact fits.callKept kind held | exact fits.callFreed kind held
    | post =>
      simp only [Held,Sender.owner,kind] at held ⊢
      first
      | exact (fits.unread kind held.1).1
      | exact fits.read kind member fun queued => held ⟨queued,(fits.unread kind queued).2⟩

/-- A message from a worker's stack was placed, or one that its loop owns is lost. -/
structure Broken (s : State) : Prop extends Wired s where
  lost : (∃ a w, .stack w ∈ (s.actors a).placed) ∨
    ∃ a n sender, .heap n ∈ (s.actors a).placed ∧ s.senders (.heap n) = some sender ∧
      sender.kind = .post ∧ (s.mem (.heap n)).frees = [] ∧
      ¬(.heap n ∈ (s.actors a).queue ∧ (s.actors a).loop.running = true)

theorem Owned.not_broken (owned : Owned s) : ¬Broken s := by
  rintro ⟨wired,⟨a,w,member⟩ | ⟨a,n,sender,member,here,kind,frees,read⟩⟩
  · obtain ⟨n,_,same,_⟩ := owned.heap a _ member
    contradiction
  · have freed := owned.freed a n sender member here (by simpa [Held,Sender.owner,kind] using read)
    rw [frees] at freed
    contradiction

theorem step_broken (broken : Broken s) (move : Move s label s') : Broken s' := by
  refine ⟨step_wired broken.toWired move,?_⟩
  obtain ⟨⟨new,stack,heap,posts,known,placed,queue⟩,⟨a,w,member⟩ | ⟨a,n,sender,member,here,kind,frees,read⟩⟩ :=
    broken
  · refine .inl ⟨a,w,?_⟩
    cases move <;> try dsimp only [State.alloc,State.setSender,State.setMsg,State.free,
      State.setActor,State.reply]
    all_goals first | assumption | grind -linarith [State.reply]
  · refine .inr ⟨a,n,sender,?_⟩
    cases move <;> try dsimp only [State.alloc,State.setSender,State.setMsg,State.free,
      State.setActor,State.reply]
    all_goals first | exact ⟨member,here,kind,frees,read⟩ | grind -linarith [State.reply,Loop.running]

theorem Kept.stop_broken (inv : Kept s) (unread : ¬NoneUnread s a)
    (stopped : loop.running = false) (wired : Wired (s.setActor a { s.actors a with closed, loop })) :
    Broken (s.setActor a { s.actors a with closed, loop }) := by
  simp only [NoneUnread,not_forall,not_not] at unread
  obtain ⟨x,queued,sender,here,kind⟩ := unread
  have member := inv.queue a x queued
  refine ⟨wired,.inr ?_⟩
  cases x with
  | stack w => exact absurd member (inv.onHeap a w)
  | heap n =>
    obtain ⟨rfl,_⟩ := inv.placed a n sender member here
    have frees := ((inv.fits n sender here).unread kind queued).1
    refine ⟨sender.target,n,sender,?_,here,kind,frees,?_⟩ <;> simp [member,stopped]

theorem breaks_owner (inv : Kept s) (loses : ¬KeepsOwner label s) (move : Move s label s') :
    Broken s' := by
  have wired := step_wired inv.toWired move
  cases move with
  | call | syncNew | register | route | finish | routed | reap | terminate | keep | release =>
    exact absurd trivial loses
  | post target sel replyc other prepares | abandon old before prepares =>
    refine absurd ?_ loses
    cases label <;> trivial
  | refused old closed | ignored old other closed =>
    exact absurd (fun sender here => .inl (by cases old.symm.trans here; exact closed)) loses
  | @put x kind target old opened =>
    refine ⟨wired,?_⟩
    cases x with
    | stack w => exact .inl ⟨target,w,by simp⟩
    | heap n =>
      have fits := inv.fits n _ old
      have stopped : kind = .post ∧ (s.actors target).loop.running = false := by
        have route := inv.heap n _ old
        simp only [KeepsOwner,old,some.injEq,forall_eq',opened,reduceCtorEq,false_or,not_or,
          not_and,Bool.not_eq_true] at loses
        cases kind with
        | sync => exact absurd rfl loses.1
        | post => exact ⟨rfl,loses.2 rfl⟩
        | route => exact absurd rfl route
      obtain ⟨rfl,stopped⟩ := stopped
      refine .inr ⟨target,n,⟨.post,target,.returned⟩,?_,?_,rfl,(fits.unsent rfl nofun).2,?_⟩ <;>
        simp [stopped,Kind.afterSend]
  | cleanup =>
    refine inv.stop_broken (fun none => loses fun m here _ => none) rfl wired
  | serve loop other =>
    exact absurd (fun m here destroy => by cases loop.symm.trans here; exact absurd destroy other) loses
  | retire =>
    exact inv.stop_broken (fun none => loses fun m here _ _ => none) rfl wired
  | again loop other =>
    exact absurd (fun m here oneShot run => by
      cases loop.symm.trans here; exact absurd ⟨oneShot,run⟩ other) loses
  | exit loop => exact absurd (fun m here => by rw [loop] at here; contradiction) loses
  | crash => exact inv.stop_broken (fun none => loses fun _ => none) rfl wired

/-- In every run the messages on the dispatch channels are heap blocks that their owners,
and no one else, free exactly once, iff every step keeps the owners. -/
theorem messages_freed_once_by_owner (ran : run step labels initial = some s) :
    Owned s ↔ Meets step KeepsOwner labels initial := by
  have guarded := meets_iff_not_broken (fun a s next inv met stepped => step_kept inv met (step_move stepped))
    (fun a s next inv lost stepped => breaks_owner inv lost (step_move stepped))
    (fun a s next broken stepped => step_broken broken (step_move stepped))
    (fun s inv => inv.owned.not_broken) labels initial s initial_kept ran
  constructor
  · intro owned
    exact guarded.mpr owned.not_broken
  · intro meets
    exact (run_invariant_of_meets Kept (fun a s next inv met stepped =>
      step_kept inv met (step_move stepped)) labels initial s meets initial_kept ran).owned

/-- A call that is served, and a destroy message that ends the actor. -/
def servedMessages : List Label :=
  [.call 0 (.method 7),.syncNew 0 true,.register 0 true,.put (.heap 0),.receive (.object 0),
    .handle (.object 0),.awake (.heap 0),.next (.object 0),.destroyfid 0,.put (.heap 1),
    .receive (.object 0),.handle (.object 0),.next (.object 0)]

theorem servedMessages_end : (run step servedMessages initial).map
    (fun s => ((s.mem (.heap 0)).frees,(s.mem (.heap 1)).frees)) =
      some ([.sender],[.loop (.object 0)]) := by
  decide

/-- The condition, computed for loops that have read everything. -/
def keepsOwner : Label → State → Bool
  | .put x, s => (s.senders x).all fun sender => sender.kind = .sync ∨
      (sender.kind = .post ∧ (s.actors sender.target).loop.running = true)
  | .handle a, s | .next a, s | .crash a, s => (s.actors a).queue.isEmpty
  | _, _ => true

theorem keepsOwner_sound (label : Label) (s : State) (checked : keepsOwner label s = true) :
    KeepsOwner label s := by
  have none (a : ActorId) (empty : (s.actors a).queue.isEmpty = true) : NoneUnread s a := by
    simp [NoneUnread,List.isEmpty_iff.mp empty]
  cases label with
  | put =>
    intro sender here
    exact .inr (by simpa [keepsOwner,here] using checked)
  | handle a => exact fun _ _ _ => none a checked
  | next a => exact fun _ _ _ _ => none a checked
  | crash a => exact fun _ => none a checked
  | _ => trivial

theorem servedMessages_owned : ∃ s, run step servedMessages initial = some s ∧
    Meets step KeepsOwner servedMessages initial ∧ Owned s := by
  obtain ⟨s,ran,_⟩ := map_eq_some_iff.mp servedMessages_end
  have meets : Meets step KeepsOwner servedMessages initial :=
    meets_of_checks keepsOwner_sound _ _ (by decide)
  exact ⟨s,ran,meets,(messages_freed_once_by_owner ran).mpr meets⟩

/-- One router request, placed and received. -/
def routedMessage : List Label :=
  [.route ⟨0,0⟩ 0 (.method 7),.put (.stack ⟨0,0⟩),.receive (.object 0)]

theorem routedMessage_end : (run step routedMessage initial).map
    (fun s => (s.mem (.stack ⟨0,0⟩)).frees) = some [.loop (.object 0)] := by
  decide

/-- The loop frees a router worker's stack variable. -/
theorem worker_stack_freed : ¬∀ labels s, run step labels initial = some s → Owned s := by
  intro all
  obtain ⟨s,ran,frees⟩ := map_eq_some_iff.mp routedMessage_end
  rw [(all routedMessage s ran).stack] at frees
  contradiction

end Objective9c.Ownership
