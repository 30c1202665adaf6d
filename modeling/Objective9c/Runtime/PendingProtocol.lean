import Objective9c.Runtime.Pending

/-! The protocol of one call: what the caller, the callee, the reaper and the tables can
do to it, and the invariant they keep. Other calls only show as changes of the callee's
life and of what the tables know about it. -/
namespace Objective9c.Pending

/-- Where the message of a call is, seen from its callee. -/
inductive Msg where
  | absent
  | queued
  | running
  | taken (holds : Bool)
  | replied (holds : Bool)
  deriving DecidableEq

def Msg.holds : Msg → Bool
  | .taken h => h
  | .replied h => h
  | _ => false

inductive Reap where
  | none | found | answered
  deriving DecidableEq

def Reap.holds : Reap → Bool
  | .none => false
  | _ => true

/-- Everything the state says about one call. `mapped` says that the callee's tid is in
the actor-tid table, `watched` that the reaper is busy with the callee. -/
structure View where
  call : Call
  slot : Option Slot
  msg : Msg
  reap : Reap
  life : Life
  closed : Bool
  mapped : Bool
  watched : Bool

inductive Party where
  | caller | registration | table | actor | reaper
  deriving DecidableEq

/-- The caller carries the table's reference before the slot is filled and after
`o9_pending_complete` emptied it. -/
def Call.carries (c : Call) : Bool :=
  match c.kind, c.pc with
  | .task, .made _ => true
  | _, .looked _ _ => true
  | _, .completing => true
  | _, _ => false

def View.holders (v : View) : List Party :=
  (if v.call.pc = .closed then [] else [.caller]) ++
  (if v.call.carries then [.registration] else []) ++
  (if v.slot.isSome then [.table] else []) ++
  (if v.msg.holds then [.actor] else []) ++
  (if v.reap.holds then [.reaper] else [])

/-- The caller registers. With `good`, here and below, a step meets the conditions under
which no reply is lost. -/
inductive RegisterStep (good : Bool) (v : View) : View → Prop where
  | lookup (tid tid' : Int) : v.call.pc = .made tid →
      (good = true → v.life = .unborn ∨ (v.life = .live ∧ v.mapped = true) ∨
        (v.closed = true ∧ v.call.kind = .sync)) →
      RegisterStep good v { v with
        call := (if v.call.kind = .sync then v.call.retain else v.call).goto (.looked tid' v.mapped) }
  | insert (tid : Int) (started : Bool) (slot : Slot) : v.call.pc = .looked tid started →
      slot.started = started →
      RegisterStep good v { v with
        call := { v.call.goto .listed with registered := true }, slot := some slot }
  | refuse (tid : Int) (started : Bool) : v.call.pc = .looked tid started →
      (good = true → v.call.kind = .sync) →
      RegisterStep good v { v with
        call := v.call.release.goto (if v.call.kind = .sync then .dropping else .unlisted) }

inductive SendStep (good : Bool) (v : View) : View → Prop where
  | send : v.call.pc = .listed ∨ v.call.pc = .unlisted → v.closed = false →
      SendStep good v { v with
        call := { v.call.goto .sent with posted := true }, msg := .queued }
  | sendFail : v.call.pc = .listed ∨ v.call.pc = .unlisted → v.closed = true →
      v.call.kind = .sync → SendStep good v { v with call := v.call.goto .finishing }
  | sendLost : good = false → v.call.pc = .listed ∨ v.call.pc = .unlisted →
      v.call.kind = .task → SendStep good v { v with call := v.call.goto .sent }

inductive FinishStep (v : View) : View → Prop where
  | receive (r : Reply) (rest : List Reply) : v.call.pc = .sent → v.call.replyc = r :: rest →
      FinishStep v { v with
        call := { v.call.touch.goto (if v.call.kind = .sync then .finishing else .dropping) with
          replyc := rest, got := v.call.got ++ [r] } }
  | complete : v.call.pc = .finishing → v.slot.isSome = true →
      FinishStep v { v with
        call := { v.call.touch.goto .completing with takes := v.call.takes + 1 }, slot := none }
  | completed : v.call.pc = .finishing → v.slot.isSome = false →
      FinishStep v { v with call := v.call.touch.goto .dropping }
  | releaseTaken : v.call.pc = .completing →
      FinishStep v { v with call := v.call.release.goto .dropping }
  | drop : v.call.pc = .dropping → FinishStep v { v with call := v.call.release.goto .closed }

inductive ActorStep (k : CallId) (v : View) : View → Prop where
  | accept : v.msg = .queued → v.life = .live → ActorStep k v { v with msg := .running }
  | take : v.msg = .running → v.life = .live ∨ v.life = .closing → v.slot.isSome = true →
      ActorStep k v { v with
        call := { (if v.call.kind = .sync then v.call else v.call.touch) with
          takes := v.call.takes + 1 }
        slot := none, msg := .taken true }
  | takeNone : v.msg = .running → v.life = .live ∨ v.life = .closing → v.slot.isSome = false →
      ActorStep k v { v with
        call := if v.call.kind = .sync then v.call else v.call.touch, msg := .taken false }
  | reply (holds : Bool) (r : Reply) : v.msg = .taken holds → r.call = k →
      ActorStep k v { v with
        call := { v.call.touch with replyc := [r] }, msg := .replied holds }
  | releaseReplied (holds : Bool) : v.msg = .replied holds →
      ActorStep k v { v with
        call := if holds then v.call.release else v.call, msg := .absent }

/-- What happens to the callee, and to its entry in the actor-tid table. -/
inductive LifeStep (good : Bool) (v : View) : View → Prop where
  | enter : v.life = .unborn → LifeStep good v { v with life := .live, mapped := true }
  | cleanup : v.life = .live → LifeStep good v { v with life := .leaving, mapped := false }
  | chanclose : v.life = .leaving →
      (good = true → v.call.pc = .sent → ∀ slot, v.slot = some slot → slot.started = true) →
      LifeStep good v { v with life := .closing, closed := true }
  | exit : v.life = .closing → v.msg = .absent ∨ v.msg = .queued →
      LifeStep good v { v with life := .gone }
  | crash : v.life = .live → v.msg = .absent ∨ v.msg = .queued ∨ v.msg = .running →
      (good = true → v.call.pc ≠ .listed ∧ ∀ tid started, v.call.pc ≠ .looked tid started) →
      LifeStep good v { v with life := .gone }
  | overwrite : good = false → LifeStep good v { v with mapped := false }

/-- Steps of the reaper: recording the tid in the slot, finding another slot of the
callee dead, finding this one dead, and what follows. -/
inductive ReaperStep (good : Bool) (k : CallId) (v : View) : View → Prop where
  | refresh (slot seen : Slot) : v.slot = some slot → seen.started = true →
      ReaperStep good k v { v with slot := some seen }
  | watch (seen : Option Slot) : v.life = .gone → v.slot.isSome = seen.isSome →
      (∀ slot, seen = some slot → slot.started = true) →
      ReaperStep good k v { v with slot := seen, watched := true }
  | reap : v.slot.isSome = true → v.life = .gone →
      ReaperStep good k v { v with
        call := { v.call with takes := v.call.takes + 1 }, slot := none, reap := .found,
        watched := true }
  | answer (r : Reply) : v.reap = .found → r.call = k →
      ReaperStep good k v { v with
        call := { v.call.touch with replyc := if v.call.replyc = [] then [r] else v.call.replyc }
        reap := .answered }
  | answerFail : good = false → v.reap = .found → ReaperStep good k v { v with reap := .answered }
  | reaperRelease : v.reap = .answered →
      ReaperStep good k v { v with call := v.call.release, reap := .none }
  | forget : v.watched = true →
      ReaperStep good k v { v with mapped := false, watched := false }

/-- One step of one call, whoever makes it. -/
inductive CallStep (good : Bool) (k : CallId) (v v' : View) : Prop where
  | register : RegisterStep good v v' → CallStep good k v v'
  | send : SendStep good v v' → CallStep good k v v'
  | finish : FinishStep v v' → CallStep good k v v'
  | actor : ActorStep k v v' → CallStep good k v v'
  | life : LifeStep good v v' → CallStep good k v v'
  | reaper : ReaperStep good k v v' → CallStep good k v v'

/-- How far the caller, the slot, the message and the replies of a call can be apart. -/
structure Stage (v : View) : Prop where
  early : (∃ tid, v.call.pc = .made tid) ∨ (∃ tid started, v.call.pc = .looked tid started) →
    v.slot.isSome = false ∧ v.msg = .absent ∧ v.reap = .none ∧ v.call.replyc = [] ∧ v.call.got = [] ∧
    v.call.registered = false ∧ v.call.posted = false
  slot : v.slot.isSome = true → (v.call.pc = .listed ∨ v.call.pc = .sent ∨ v.call.pc = .finishing) ∧
    v.call.replyc = [] ∧ v.call.got = [] ∧ v.call.registered = true ∧ v.reap = .none ∧
    (v.msg = .absent ∨ v.msg = .queued ∨ v.msg = .running)
  takes : v.call.takes = if v.call.registered = true ∧ v.slot.isSome = false then 1 else 0
  completing : v.call.pc = .completing → v.slot.isSome = false ∧ v.msg = .absent ∧ v.reap = .none ∧
    v.call.replyc = [] ∧ v.call.got = [] ∧ v.call.registered = true
  taken : ∀ h, v.msg = .taken h → v.call.pc = .sent ∧ v.call.replyc = [] ∧ v.call.got = [] ∧
    v.reap = .none ∧ v.slot.isSome = false ∧ v.call.registered = h ∧ v.life ≠ .gone
  replied : ∀ h, v.msg = .replied h → v.reap = .none ∧ v.slot.isSome = false ∧ v.life ≠ .gone
  waiting : v.msg = .queued ∨ v.msg = .running → v.life ≠ .gone → v.call.pc = .sent ∧
    v.call.replyc = [] ∧ v.reap = .none ∧ (v.slot.isSome = true ∨ v.call.registered = false)
  reap : v.reap ≠ .none → v.slot.isSome = false ∧ v.call.registered = true ∧ v.life = .gone
  found : v.reap = .found → v.call.replyc = [] ∧ v.call.got = []
  before : v.call.pc = .listed ∨ v.call.pc = .unlisted →
    v.call.got = [] ∧ v.msg = .absent ∧ v.call.posted = false
  sent : v.call.pc = .sent → v.call.got = []
  posted : v.call.posted = true → v.call.pc ≠ .sent → v.call.got.length = 1
  unposted : v.call.posted = false → v.msg = .absent
  listed : v.call.pc = .listed → v.call.registered = true ∧
    (v.slot.isSome = true ∨ v.life = .gone)
  unlisted : v.call.pc = .unlisted → v.call.registered = false ∧ v.slot.isSome = false ∧ v.reap = .none ∧
    v.call.replyc = [] ∧ v.call.kind ≠ .sync
  syncOnly : v.call.pc = .finishing ∨ v.call.pc = .completing → v.call.kind = .sync
  once : (v.call.replyc ++ v.call.got).length ≤ 1

/-- The reference count is the number of holders, and nobody uses what is freed. -/
structure Counted (v : View) : Prop where
  ref : v.call.ref = v.holders.length
  frees : v.call.frees = if v.call.ref = 0 then 1 else 0
  used : v.call.misused = false

theorem holders_length (v : View) : v.holders.length =
    (if v.call.pc = .closed then 0 else 1) + (if v.call.carries then 1 else 0) +
    (if v.slot.isSome then 1 else 0) + (if v.msg.holds then 1 else 0) + (if v.reap.holds then 1 else 0) := by
  simp only [View.holders,List.length_append]
  congr 1
  · congr 1
    · congr 1
      · congr 1
        · split <;> rfl
        · split <;> rfl
      · split <;> rfl
    · split <;> rfl
  · split <;> rfl

attribute [grind] Call.touch Call.retain Call.release Call.goto

section Steps

variable {v v' : View} {good : Bool} {k : CallId}

theorem RegisterStep.stage (stage : Stage v) (step : RegisterStep good v v') : Stage v' := by
  cases stage
  cases step <;> constructor <;>
    first | assumption | grind -linarith

theorem SendStep.stage (stage : Stage v) (step : SendStep good v v') : Stage v' := by
  cases stage
  cases step <;> constructor <;> first | assumption | grind -linarith

theorem FinishStep.stage (stage : Stage v) (step : FinishStep v v') : Stage v' := by
  cases stage
  cases step <;> constructor <;> first | assumption | grind -linarith

theorem ActorStep.stage (stage : Stage v) (step : ActorStep k v v') : Stage v' := by
  cases stage
  cases step <;> constructor <;> first | assumption | grind -linarith

theorem LifeStep.stage (stage : Stage v) (step : LifeStep good v v') : Stage v' := by
  cases stage
  cases step <;> constructor <;> first | assumption | grind -linarith [Msg.holds]

theorem ReaperStep.stage (stage : Stage v) (step : ReaperStep good k v v') : Stage v' := by
  cases stage
  cases step <;> constructor <;> first | assumption | grind -linarith

theorem CallStep.stage (stage : Stage v) (step : CallStep good k v v') : Stage v' := by
  cases step with
  | register step | send step | finish step | actor step | life step | reaper step => exact step.stage stage

theorem carries_iff (c : Call) : c.carries = true ↔
    (c.kind ≠ .sync ∧ ∃ tid, c.pc = .made tid) ∨ (∃ tid started, c.pc = .looked tid started) ∨
      c.pc = .completing := by
  unfold Call.carries
  split <;> simp_all
  cases kind : c.kind <;> simp_all

/-- A task whose slot was refused is still held by its caller when the actor replies. -/
theorem ActorStep.counted (stage : Stage v) (counted : Counted v) (step : ActorStep k v v') : Counted v' := by
  obtain ⟨ref,frees,used⟩ := counted
  have taken := stage.taken
  have waiting := stage.waiting
  cases step <;> constructor <;> rw [holders_length] at * <;>
    grind -linarith [Call.carries,Msg.holds]

theorem CallStep.counted (stage : Stage v) (counted : Counted v) (step : CallStep good k v v') : Counted v' := by
  obtain ⟨ref,frees,used⟩ := counted
  have early := stage.early
  have before := stage.before
  have reap := stage.reap
  cases step with
  | register step => cases step <;> constructor <;> rw [holders_length] at * <;> grind -linarith [carries_iff]
  | actor step => exact step.counted stage ⟨ref,frees,used⟩
  | life step => cases step <;> exact ⟨ref,frees,used⟩
  | send step | finish step | reaper step =>
    cases step <;> constructor <;> rw [holders_length] at * <;> grind -linarith [Call.carries,Msg.holds,Reap.holds]

structure Ok (k : CallId) (v : View) : Prop where
  stage : Stage v
  counted : Counted v
  own : ∀ r ∈ v.call.replyc ++ v.call.got, r.call = k

theorem CallStep.own (own : ∀ r ∈ v.call.replyc ++ v.call.got, r.call = k)
    (step : CallStep good k v v') : ∀ r ∈ v'.call.replyc ++ v'.call.got, r.call = k := by
  cases step with
  | register step | finish step | actor step | reaper step => cases step <;> grind -linarith
  | send step | life step => cases step <;> exact own

theorem CallStep.ok (ok : Ok k v) (step : CallStep good k v v') : Ok k v' :=
  ⟨step.stage ok.stage,step.counted ok.stage ok.counted,step.own ok.own⟩

end Steps

/-- A call that has been sent is going to be answered: its message is with a callee that will serve it, the reaper can
tell that the callee is dead, or a reply is on its way. -/
structure Due (v : View) : Prop where
  closing : v.life = .closing → v.closed = true
  closed : v.closed = true → v.life = .closing ∨ v.life = .gone
  present : (∃ tid started, v.call.pc = .looked tid started) ∨ v.call.pc = .listed →
    v.life = .gone → v.closed = true
  looked : ∀ tid, v.call.pc = .looked tid false →
    v.mapped = true ∨ v.life = .unborn ∨ v.life = .leaving ∨ v.closed = true
  recorded : ∀ slot, v.slot = some slot → slot.started = true ∨ v.mapped = true ∨
    v.life = .unborn ∨ v.life = .leaving ∨ (v.closed = true ∧ v.call.pc ≠ .sent)
  watched : v.watched = true → v.life = .gone ∧
    (v.call.pc = .sent → ∀ slot, v.slot = some slot → slot.started = true)
  kept : v.call.pc ≠ .unlisted
  failed : v.call.pc = .finishing → v.slot.isSome = true → v.closed = true
  served : v.call.pc = .sent → v.call.posted = true ∧ v.call.registered = true ∧
    (v.slot.isSome = true → v.msg = .queued ∨ v.msg = .running)
  answered : v.call.pc = .sent → v.slot.isSome = false → v.call.replyc = [] →
    v.reap = .found ∨ ∃ holds, v.msg = .taken holds

section Answers

variable {v v' : View}

/-- The caller's own reference keeps the reply in the channel when the actor drops its. -/
theorem ActorStep.due (counted : Counted v) (due : Due v) (step : ActorStep k v v') : Due v' := by
  cases due
  have ref := counted.ref
  rw [holders_length] at ref
  cases step <;> constructor <;> first | assumption | grind -linarith [Msg.holds]

theorem ReaperStep.due (stage : Stage v) (counted : Counted v) (due : Due v)
    (step : ReaperStep true k v v') : Due v' := by
  cases due
  have slot := stage.slot
  have ref := counted.ref
  rw [holders_length] at ref
  cases step <;> constructor <;> first | assumption | grind -linarith [Reap.holds]

theorem CallStep.due (ok : Ok k v) (due : Due v) (step : CallStep true k v v') : Due v' := by
  cases step with
  | actor step => exact step.due ok.counted due
  | reaper step => exact step.due ok.stage ok.counted due
  -- a message goes into an open channel, so its callee has not died and the slot is there
  | register step | send step | finish step | life step =>
    cases due
    have slot := ok.stage.slot
    have listed := ok.stage.listed
    cases step <;> constructor <;> first | assumption | grind -linarith

end Answers

end Objective9c.Pending
