import Objective9c.Runtime.PendingWiring

/-! Runs of the completion machinery: what holds of every call in every run, and what is
left to do when nothing moves any more. -/
namespace Objective9c.Pending

open Transition Option Table

section Fresh

variable {s : State}

theorem fresh_view (wired : Wired s) (c : Call) :
    (s.view s.nextCall c).slot = none ∧ (s.view s.nextCall c).msg = .absent ∧
      (s.view s.nextCall c).reap = .none := by
  have unknown (there : ∃ d, s.calls s.nextCall = some d) : False := by
    obtain ⟨d,hd⟩ := there
    simp [wired.fresh_call] at hd
  refine ⟨?_,?_,?_⟩
  · refine lookup_none.mpr fun there => ?_
    obtain ⟨x,member,same⟩ := mem_keys.mp there
    obtain ⟨d,hd,_⟩ := wired.slot x member
    exact unknown ⟨d,same ▸ hd⟩
  · have idle : (s.actors c.chan).work.on s.nextCall = .absent := by
      by_contra busy
      obtain ⟨⟨d,hd,_⟩,_⟩ := wired.work c.chan s.nextCall busy
      exact unknown ⟨d,hd⟩
    have unqueued : s.nextCall ∉ (s.actors c.chan).queue := by
      intro queued
      obtain ⟨d,hd,_⟩ := wired.queue c.chan s.nextCall queued
      exact unknown ⟨d,hd⟩
    simp [State.view,Actor.msg,idle,unqueued]
  · by_contra on
    exact unknown (wired.reaper s.nextCall on)

theorem begin_ok (wired : Wired s) (kind : Kind) (chan : ActorId) (own : Bool) :
    Ok s.nextCall (s.view s.nextCall (beginCall kind chan own)) := by
  obtain ⟨slot,msg,reap⟩ := fresh_view wired (beginCall kind chan own)
  have call : (s.view s.nextCall (beginCall kind chan own)).call = beginCall kind chan own := rfl
  generalize s.view s.nextCall (beginCall kind chan own) = v at slot msg reap call ⊢
  refine ⟨?_,?_,?_⟩
  · cases kind <;> constructor <;> simp [slot,msg,reap,call,beginCall]
  · cases kind <;> constructor <;>
      simp [holders_length,slot,msg,reap,call,beginCall,Call.carries,Msg.holds,Reap.holds]
  · cases kind <;> simp [call,beginCall]

theorem begin_due (wired : Wired s) (kind : Kind) (chan : ActorId) (own : Bool) :
    Due (s.view s.nextCall (beginCall kind chan own)) := by
  obtain ⟨slot,msg,reap⟩ := fresh_view wired (beginCall kind chan own)
  have call : (s.view s.nextCall (beginCall kind chan own)).call = beginCall kind chan own := rfl
  have made : ∃ tid, (beginCall kind chan own).pc = .made tid := by
    cases kind <;> exact ⟨_,rfl⟩
  obtain ⟨tid,made⟩ := made
  refine ⟨wired.closing _,wired.closed _,?_,?_,?_,?_,?_,?_,?_,?_⟩
  all_goals simp only [call,made,slot]
  case refine_4 =>
    intro watched
    exact ⟨wired.reaperGone _ (of_decide_eq_true watched),nofun⟩
  all_goals simp

end Fresh

/-- What every reachable state keeps. -/
structure Sound (s : State) : Prop where
  wired : Wired s
  ok : ∀ k c, s.calls k = some c → Ok k (s.view k c)

theorem initial_sound : Sound initial := ⟨initial_wired,by simp [initial]⟩

theorem step_views {P : CallId → View → Prop} (good : Bool) (sound : Sound s)
    (guard : good = true → NoLostReply label s)
    (fresh : ∀ kind chan own, P s.nextCall (s.view s.nextCall (beginCall kind chan own)))
    (kept : ∀ k v v', Ok k v → P k v → CallStep good k v v' → P k v')
    (holds : ∀ k c, s.calls k = some c → P k (s.view k c)) (stepped : step label s = some s') :
    ∀ k c, s'.calls k = some c → P k (s'.view k c) := by
  intro k c' hk'
  by_cases new : ∃ kind chan own, label = .begin kind chan own
  · obtain ⟨kind,chan,own,rfl⟩ := new
    cases stepped
    by_cases here : k = s.nextCall
    · subst here
      obtain rfl : beginCall kind chan own = c' := by simpa using hk'
      exact fresh kind chan own
    · exact holds k c' (by simpa [here] using hk')
  · have old : ∀ kind chan own, label ≠ .begin kind chan own :=
      fun kind chan own same => new ⟨kind,chan,own,same⟩
    obtain ⟨c,hk,same | move⟩ := step_moves sound.wired sound.ok guard old stepped k c' hk'
    · rw [same]; exact holds k c hk
    · exact kept k _ _ (sound.ok k c hk) (holds k c hk) move

theorem step_sound (sound : Sound s) (stepped : step label s = some s') : Sound s' := by
  refine ⟨step_wired sound.wired sound.ok stepped,?_⟩
  exact step_views false sound nofun (begin_ok sound.wired)
    (fun k v v' ok _ move => move.ok ok) sound.ok stepped

/-- What a state reached without losing a reply keeps. -/
structure Answering (s : State) : Prop extends Sound s where
  due : ∀ k c, s.calls k = some c → Due (s.view k c)

theorem initial_answering : Answering initial := ⟨initial_sound,by simp [initial]⟩

theorem step_answering (answering : Answering s) (guard : NoLostReply label s)
    (stepped : step label s = some s') : Answering s' := by
  refine ⟨step_sound answering.toSound stepped,?_⟩
  exact step_views (P := fun _ v => Due v) true answering.toSound (fun _ => guard)
    (begin_due answering.wired) (fun k v v' ok due move => move.due ok due) answering.due stepped

theorem run_sound (ran : run step labels initial = some s) : Sound s :=
  run_invariant Sound (fun _ _ _ sound stepped => step_sound sound stepped) labels initial s
    initial_sound ran

theorem run_answering (meets : Meets step NoLostReply labels initial)
    (ran : run step labels initial = some s) : Answering s :=
  run_invariant_of_meets Answering
    (fun _ _ _ answering guard stepped => step_answering answering guard stepped)
    labels initial s meets initial_answering ran

/-- The steps the program is bound to take; calls, cleanups and crashes may stay away, and
an actor has to start only once it is called. -/
def Label.internal : Label → Bool
  | .begin _ _ _ | .enter _ | .cleanup _ | .crash _ => false
  | _ => true

/-- Nothing is left to do: every callee has started, and no step changes anything. -/
structure Quiescent (s : State) : Prop where
  born : ∀ k c, s.calls k = some c → (s.actors c.chan).life ≠ .unborn
  still : ∀ label, label.internal = true → ∀ s', step label s = some s' → s' = s

section Quiet

variable {s : State}

variable (quiet : Quiescent s)
include quiet

theorem Quiescent.call_still (label : Label) (hk : s.calls k = some c)
    (internal : label.internal = true) (stepped : step label s = some s')
    (hk' : s'.calls k = some c') : c' = c := by
  rw [quiet.still label internal s' stepped,hk] at hk'
  exact (some.inj hk').symm

theorem Quiescent.reaper_idle (wired : Wired s) : s.reaper = .idle := by
  cases busy : s.reaper with
  | idle => rfl
  | found k =>
    obtain ⟨c,hk⟩ := wired.reaper k (by simp [busy,Reaper.on])
    have same := quiet.still (.answer true) rfl _ (by simp only [step,answerStep,busy,hk]; rfl)
    simpa [busy] using congrArg State.reaper same
  | answered k =>
    obtain ⟨c,hk⟩ := wired.reaper k (by simp [busy,Reaper.on])
    have same := quiet.still .reaperRelease rfl _ (by simp only [step,reaperReleaseStep,busy,hk]; rfl)
    simpa [busy] using congrArg State.reaper same
  | dropped =>
    have same := quiet.still .forget rfl _ (by simp only [step,forgetStep,busy]; rfl)
    simpa [busy] using congrArg State.reaper same

theorem Quiescent.work_idle (sound : Sound s) (a : ActorId)
    (alive : (s.actors a).life = .live ∨ (s.actors a).life = .closing) : (s.actors a).work = .idle := by
  have changed (label : Label) {s' : State} (internal : label.internal = true)
      (stepped : step label s = some s') : (s'.actors a).work = (s.actors a).work := by
    rw [quiet.still label internal s' stepped]
  cases busy : (s.actors a).work with
  | idle => rfl
  | running k =>
    obtain ⟨⟨c,hk,rfl⟩,_⟩ := sound.wired.work a k (by simp [busy,Work.on])
    have same := changed (.take c.chan) rfl
      (by simp only [step,takeStep,busy,if_pos alive,hk]; rfl)
    simp [busy] at same
  | taken k holds =>
    obtain ⟨⟨c,hk,rfl⟩,_⟩ := sound.wired.work a k (by simp [busy,Work.on])
    have empty : c.replyc = [] :=
      ((sound.ok k c hk).stage.taken holds (by simp [State.view,Actor.msg,busy,Work.on])).2.1
    have same := changed (.reply c.chan none 0) rfl
      (by simp only [step,replyStep,busy,hk,empty,↓reduceIte]; rfl)
    simp [busy] at same
  | replied k =>
    obtain ⟨⟨c,hk,rfl⟩,_⟩ := sound.wired.work a k (by simp [busy,Work.on])
    have same := changed (.releaseReplied c.chan) rfl
      (by simp only [step,releaseRepliedStep,busy,hk]; rfl)
    simp [busy] at same

theorem Quiescent.queue_empty (sound : Sound s)
    (live : (s.actors a).life = .live) : (s.actors a).queue = [] := by
  have idle := quiet.work_idle sound a (.inl live)
  cases queue : (s.actors a).queue with
  | nil => rfl
  | cons =>
    have same := quiet.still (.accept a) rfl _ (by simp only [step,acceptStep,live,idle,queue]; rfl)
    have work := congrArg (fun s => (s.actors a).work) same
    simp [idle] at work

theorem Quiescent.not_closing (sound : Sound s) (a : ActorId) :
    (s.actors a).life ≠ .closing := by
  intro closing
  have idle := quiet.work_idle sound a (.inr closing)
  have same := quiet.still (.exit a) rfl _ (by simp only [step,exitStep,closing,idle]; rfl)
  have life := congrArg (fun s => (s.actors a).life) same
  simp [closing] at life

theorem Quiescent.not_leaving (a : ActorId) : (s.actors a).life ≠ .leaving := by
  intro leaving
  have same := quiet.still (.chanclose a) rfl _ (by simp only [step,chancloseStep,leaving,↓reduceIte]; rfl)
  have life := congrArg (fun s => (s.actors a).life) same
  simp [leaving] at life

theorem Quiescent.callee (sound : Sound s) (hk : s.calls k = some c) :
    ((s.actors c.chan).life = .live ∧ (s.actors c.chan).queue = []) ∨ (s.actors c.chan).life = .gone := by
  cases life : (s.actors c.chan).life with
  | unborn => exact absurd life (quiet.born k c hk)
  | live => exact .inl ⟨rfl,quiet.queue_empty sound life⟩
  | leaving => exact absurd life (quiet.not_leaving c.chan)
  | closing => exact absurd life (quiet.not_closing sound c.chan)
  | gone => exact .inr rfl

theorem Quiescent.none_dead (wired : Wired s) (member : some x ∈ s.pending) :
    deadTid s.threadAlive (slotTid s.tids x).1 = false := by
  have idle := quiet.reaper_idle wired
  cases scanned : reaperScan s.tids s.threadAlive s.pending with
  | mk pending found =>
    cases found with
    | none => exact (reaperScan_none (by rw [scanned])).2 x member
    | some slot =>
      obtain ⟨before,y,after,split,same,_⟩ := reaperScan_some (by rw [scanned])
      obtain ⟨c,hk,_⟩ := wired.slot y (by simp [split])
      have known : s.calls slot.1.call = some c := by rw [same,seen_call]; exact hk
      have still := quiet.still .scan rfl _ (by simp only [step,scanStep,idle,scanned,known]; rfl)
      simpa [idle] using congrArg State.reaper still

omit quiet

/-- A slot whose actor has started, by its own record or by the table, shows the reaper
that actor's tid. -/
theorem slotTid_known (wired : Wired s) (member : some x ∈ s.pending) (chan : a = x.chan)
    (known : x.started = true ∨ 0 < tidForChan s.tids a) : (slotTid s.tids x).1 = threadId a := by
  subst chan
  unfold slotTid
  split
  next pos => exact (wired.tidForChan_eq pos).1
  next unmapped =>
    rcases known with started | mapped
    · rw [if_pos (by simp [started])]
      exact ((wired.slotTid x member).2 started).1
    · exact absurd mapped unmapped

/-- A callee that is not gone empties its channel, and a gone one has closed it. -/
theorem Quiescent.not_listed (quiet : Quiescent s) (answering : Answering s)
    (hk : s.calls k = some c) : c.pc ≠ .listed := by
  intro pc
  have changed {s' : State} {c' : Call} (stepped : step (.send k) s = some s')
      (hk' : s'.calls k = some c') : c'.pc = .listed := by
    rw [quiet.call_still (.send k) hk rfl stepped hk',pc]
  by_cases closed : (s.actors c.chan).closed = true
  · cases kind : c.kind with
    | sync | task =>
      have same := changed
        (by simp only [step,State.onCall,hk,sendStep,pc,true_or,↓reduceIte,closed,kind]; rfl)
        (if_pos rfl)
      simp at same
  · rcases quiet.callee answering.toSound hk with ⟨live,queue⟩ | gone
    · have room : (s.actors c.chan).queue.length < dispatchCap := by rw [queue]; decide
      have same := changed
        (by simp only [step,State.onCall,hk,sendStep,pc,true_or,if_true,if_neg closed,if_pos room]; rfl)
        (if_pos rfl)
      simp at same
    · exact closed ((answering.due k c hk).present (.inr pc) gone)

theorem Quiescent.caller (quiet : Quiescent s) (answering : Answering s) (hk : s.calls k = some c) :
    c.pc = .closed ∨ (c.pc = .sent ∧ c.replyc = []) := by
  have changed (label : Label) {s' : State} {c' : Call} (internal : label.internal = true)
      (stepped : step label s = some s') (hk' : s'.calls k = some c') : c'.pc = c.pc := by
    rw [quiet.call_still label hk internal stepped hk']
  cases pc : c.pc with
  | made =>
    cases kind : c.kind with
    | sync | task =>
      have same := changed (.lookup k) rfl
        (by simp only [step,State.onCall,hk,lookupStep,pc,kind]; rfl) (if_pos rfl)
      by_cases known : tidForChan s.tids c.chan > 0 <;> simp [known,pc] at same
  | looked tid started =>
    cases inserted : insert maxPending ⟨k,c.chan,tid,started⟩ s.pending with
    | some =>
      have same := changed (.insert k) rfl
        (by simp only [step,State.onCall,hk,insertStep,pc,inserted]; rfl) (if_pos rfl)
      simp [pc] at same
    | none =>
      cases kind : c.kind with
      | sync | task =>
        have same := changed (.insert k) rfl
          (by simp only [step,State.onCall,hk,insertStep,pc,inserted,kind]; rfl) (if_pos rfl)
        simp [pc] at same
  | listed => exact absurd pc (quiet.not_listed answering hk)
  | unlisted => exact absurd pc (answering.due k c hk).kept
  | sent =>
    cases replyc : c.replyc with
    | nil => exact .inr ⟨rfl,rfl⟩
    | cons =>
      have same := changed (.receive k) rfl
        (by simp only [step,State.onCall,hk,receiveStep,pc,replyc]; rfl) (if_pos rfl)
      cases kind : c.kind <;> simp [pc,kind] at same
  | finishing =>
    by_cases found : (pendingTake k s.pending).2 = true
    · have same := changed (.complete k) rfl
        (by simp only [step,State.onCall,hk,completeStep,pc,if_pos found]; rfl) (if_pos rfl)
      simp [pc] at same
    · have same := changed (.complete k) rfl
        (by simp only [step,State.onCall,hk,completeStep,pc,if_neg found]; rfl) (if_pos rfl)
      simp [pc] at same
  | completing =>
    have same := changed (.releaseTaken k) rfl
      (by simp only [step,State.onCall,hk,releaseTakenStep,if_pos pc]; rfl) (if_pos rfl)
    simp [pc] at same
  | dropping =>
    have same := changed (.drop k) rfl
      (by simp only [step,State.onCall,hk,dropStep,if_pos pc]; rfl) (if_pos rfl)
    simp [pc] at same
  | closed => exact .inl rfl

/-- A caller that waits has a callee to serve it, a reply on its way, or a dead callee that
the reaper knows. -/
theorem Quiescent.not_waiting (quiet : Quiescent s) (answering : Answering s)
    (hk : s.calls k = some c) : ¬(c.pc = .sent ∧ c.replyc = []) := by
  rintro ⟨sent,empty⟩
  have sound := answering.toSound
  have due := answering.due k c hk
  have noReap : (s.view k c).reap = .none := by
    simp [State.view,quiet.reaper_idle sound.wired,Reaper.on]
  cases there : (s.view k c).slot with
  | none =>
    rcases due.answered sent (by rw [there]; rfl) empty with found | ⟨holds,taken⟩
    · rw [noReap] at found
      contradiction
    · have alive := ((sound.ok k c hk).stage.taken holds taken).2.2.2.2.2.2
      rcases quiet.callee sound hk with ⟨live,queue⟩ | gone
      · have idle := quiet.work_idle sound c.chan (.inl live)
        simp [State.view,Actor.msg,idle,Work.on,queue] at taken
      · exact alive gone
  | some x =>
    obtain ⟨member,rfl⟩ := lookup_some there
    obtain ⟨c',hk',chan⟩ := sound.wired.slot x member
    cases hk.symm.trans hk'
    rcases quiet.callee sound hk with ⟨live,queue⟩ | gone
    · have idle := quiet.work_idle sound c.chan (.inl live)
      have waiting := (due.served sent).2.2 (by rw [there]; rfl)
      simp [State.view,Actor.msg,idle,Work.on,queue] at waiting
    · have noTid := quiet.none_dead sound.wired member
      have dead : deadTid s.threadAlive (threadId c.chan) = true := by
        simp [deadTid,threadAlive_threadId,gone,Life.hasPid,threadId_pos]
      have tested : (slotTid s.tids x).1 = threadId c.chan := by
        rcases due.recorded x there with started | mapped | unborn | leaving | ⟨_,unsent⟩
        · exact slotTid_known sound.wired member chan (.inl started)
        · exact slotTid_known sound.wired member chan (.inr (of_decide_eq_true mapped))
        · simp [State.view,gone] at unborn
        · simp [State.view,gone] at leaving
        · exact absurd sent unsent
      rw [tested,dead] at noTid
      contradiction

theorem quiescent_of (calls : ∀ k c, s.calls k = some c →
      (c.pc = .closed ∨ (c.pc = .sent ∧ c.replyc = [])) ∧ (s.actors c.chan).life ≠ .unborn)
    (actors : ∀ a, (s.actors a).work = .idle ∧ (s.actors a).life ≠ .leaving ∧ (s.actors a).life ≠ .closing ∧
      ((s.actors a).life = .live → (s.actors a).queue = [])) (reaper : s.reaper = .idle)
    (scanned : reaperScan s.tids s.threadAlive s.pending = (s.pending,none)) : Quiescent s := by
  refine ⟨fun k c hk => (calls k c hk).2,?_⟩
  intro label internal s' stepped
  obtain ⟨table,alive⟩ := reaperScan_none (congrArg Prod.snd scanned)
  rw [scanned] at table
  rcases step_stepped stepped with called | acted | reaped
  · cases called with
    | begin => contradiction
    | receive hk here waiting =>
      rcases (calls _ _ hk).1 with h | ⟨_,empty⟩
      · simp [h] at here
      · simp [empty] at waiting
    | lookup hk here | insert hk here _ | refuse hk here _ | sendFail hk here _ | send hk here _ | complete hk here _
    | completed hk here _ | releaseTaken hk here | drop hk here =>
      rcases (calls _ _ hk).1 with h | ⟨h,_⟩ <;> simp [h] at here
  · cases acted with
    | enter | cleanup | crash => contradiction
    | accept live idle queue => simp [(actors _).2.2.2 live] at queue
    | chanclose leaving => exact absurd leaving (actors _).2.1
    | take busy | reply busy | releaseReplied busy => simp [(actors _).1] at busy
    | exit closing => exact absurd closing (actors _).2.2.1
  · cases reaped with
    | scan => rw [← table]
    | @reap before x after c idle split dead => simp [alive x (by simp [split])] at dead
    | answer busy | answerFail busy | reaperRelease busy | forget busy => simp [reaper] at busy

end Quiet

/-- What may never go wrong with a call: its slot is taken once, it gets one reply, its
own, and it lives exactly as long as somebody holds it. -/
structure Exact (s : State) (k : CallId) (c : Call) : Prop where
  takenOnce : c.takes ≤ 1
  slot : (c.registered = true ∧ c.takes = 0) ↔ (s.view k c).slot.isSome = true
  oneReply : (c.replyc ++ c.got).length ≤ 1
  ownReply : ∀ r ∈ c.replyc ++ c.got, r.call = k
  counted : c.ref = (s.view k c).holders.length
  freed : c.frees = if (s.view k c).holders = [] then 1 else 0
  used : c.misused = false

theorem Ok.exact (ok : Ok k (s.view k c)) : Exact s k c := by
  obtain ⟨stage,counted,own⟩ := ok
  have call : (s.view k c).call = c := rfl
  have takes := stage.takes
  have slot := stage.slot
  have ref := counted.ref
  have frees := counted.frees
  rw [call] at takes ref frees
  refine ⟨?_,?_,stage.once,own,ref,?_,counted.used⟩
  · rw [takes]
    split <;> decide
  · rw [takes]
    constructor
    · rintro ⟨registered,untaken⟩
      by_contra free
      rw [if_pos ⟨registered,Bool.eq_false_iff.mpr free⟩] at untaken
      contradiction
    · intro there
      exact ⟨(slot there).2.2.2.1,by simp [there]⟩
  · rw [frees,ref]
    simp

/-- What has to come to a call in the end. -/
structure Completed (c : Call) : Prop where
  taken : c.registered = true → c.takes = 1
  replied : c.posted = true → c.got.length = 1
  freed : c.frees = 1

theorem Quiescent.completed (quiet : Quiescent s) (answering : Answering s)
    (hk : s.calls k = some c) : Completed c := by
  have sound := answering.toSound
  obtain ⟨stage,counted,_⟩ := sound.ok k c hk
  have closed : (s.view k c).call.pc = .closed := by
    rcases quiet.caller answering hk with closed | waiting
    · exact closed
    · exact absurd waiting (quiet.not_waiting answering hk)
  have slot : (s.view k c).slot.isSome = false := by
    refine Bool.eq_false_iff.mpr fun there => ?_
    simpa [closed] using (stage.slot there).1
  have noReap : (s.view k c).reap = .none := by
    simp [State.view,quiet.reaper_idle sound.wired,Reaper.on]
  have noMsg : (s.view k c).msg.holds = false := by
    rcases quiet.callee sound hk with ⟨live,_⟩ | gone
    · rcases msg_free (.inl (quiet.work_idle sound c.chan (.inl live))) k with h | h | h <;>
        simp [State.view,h,Msg.holds]
    · cases msg : (s.view k c).msg with
      | taken holds => exact absurd gone (stage.taken holds msg).2.2.2.2.2.2
      | replied holds => exact absurd gone (stage.replied holds msg).2.2
      | absent | queued | running => rfl
  have free : (s.view k c).holders.length = 0 := by
    rw [holders_length]
    simp [closed,Call.carries,slot,noReap,noMsg,Reap.holds]
  refine ⟨fun registered => ?_,fun posted => ?_,?_⟩
  · exact stage.takes.trans (if_pos ⟨registered,slot⟩)
  · exact stage.posted posted (by simp [closed])
  · exact counted.frees.trans (if_pos (by rw [counted.ref,free]; rfl))

/-- An actor that has not entered its loop does nothing. -/
def Actor.asleep (x : Actor) : Prop := x.life = .unborn ∧ x.work = .idle

theorem setActor_asleep {s : State} (asleep : (s.actors a).asleep)
    (same : (s.actors b).asleep → x.asleep) : ((s.setActor b x).actors a).asleep := by
  by_cases here : a = b
  · subst here; simpa using same asleep
  · simpa [here] using asleep

theorem step_asleep (asleep : (s.actors a).asleep) (other : label ≠ .enter a)
    (stepped : step label s = some s') : (s'.actors a).asleep := by
  have busy (b : ActorId) (x : Actor) (awake : (s.actors b).work ≠ .idle ∨ (s.actors b).life ≠ .unborn) :
      ((s.setActor b x).actors a).asleep :=
    setActor_asleep asleep fun still => by rcases awake with h | h <;> simp [still.1,still.2] at h
  rcases step_stepped stepped with called | acted | reaped
  · cases called with
    | send => exact setActor_asleep asleep id
    | _ => exact asleep
  · cases acted with
    | @enter b =>
      have apart : a ≠ b := by rintro rfl; exact other rfl
      simpa [apart] using asleep
    | take running | reply running | releaseReplied running => exact busy _ _ (.inl (by simp [running]))
    | accept live | cleanup live | chanclose live | crash live | exit live => exact busy _ _ (.inr (by simp [live]))
  · cases reaped with
    | _ => exact asleep

theorem run_asleep (asleep : (s.actors a).asleep) (never : .enter a ∉ labels)
    (ran : run step labels s = some s') : (s'.actors a).asleep :=
  run_invariant_of_meets (fun s => (s.actors a).asleep)
    (fun _ _ _ asleep other stepped => step_asleep asleep other stepped) labels s s'
    (meets_of_labels labels s fun _ member _ same => never (same ▸ member)) asleep ran

/-- What a run leaves behind for two calls of one actor. -/
structure Scene where
  nextCall : CallId
  first : Option Call
  second : Option Call
  actor : Actor
  pending : List (Option Slot)
  tids : List (Option ActorTid)
  reaper : Reaper
  deriving DecidableEq

def State.scene (s : State) : Scene :=
  ⟨s.nextCall,s.calls 0,s.calls 1,s.actors 0,s.pending,s.tids,s.reaper⟩

/-- A run that starts no actor but the first is quiescent when its two calls are settled. -/
theorem quiescent_scene (ran : run step labels initial = some s)
    (alone : ∀ a, .enter a ∈ labels → a = 0) (few : s.nextCall ≤ 2)
    (calls : ∀ c, s.calls 0 = some c ∨ s.calls 1 = some c →
      (c.pc = .closed ∨ (c.pc = .sent ∧ c.replyc = [])) ∧ c.chan = 0) (born : (s.actors 0).life ≠ .unborn)
    (actor : (s.actors 0).work = .idle ∧ (s.actors 0).life ≠ .leaving ∧ (s.actors 0).life ≠ .closing ∧
      ((s.actors 0).life = .live → (s.actors 0).queue = [])) (reaper : s.reaper = .idle)
    (scanned : reaperScan s.tids s.threadAlive s.pending = (s.pending,none)) : Quiescent s := by
  refine quiescent_of ?_ ?_ reaper scanned
  · intro k c hk
    have early := (run_sound ran).wired.fresh k c hk
    have here : s.calls 0 = some c ∨ s.calls 1 = some c := by
      match k with
      | 0 => exact .inl hk
      | 1 => exact .inr hk
      | k + 2 => exact absurd (Nat.lt_of_lt_of_le early few) (Nat.not_lt.mpr (Nat.le_add_left 2 k))
    exact ⟨(calls c here).1,by rw [(calls c here).2]; exact born⟩
  · intro a
    by_cases here : a = 0
    · exact here ▸ actor
    · obtain ⟨life,work⟩ := run_asleep (a := a) ⟨rfl,rfl⟩ (fun there => here (alone a there)) ran
      exact ⟨work,by simp [life],by simp [life],by simp [life]⟩

/-- In every run each call is dealt with at most once and is held as counted; if no step loses a reply, each call has
been completed once nothing moves. -/
theorem calls_completed_once (ran : run step labels initial = some s) :
    (∀ k c, s.calls k = some c → Exact s k c) ∧
      (Meets step NoLostReply labels initial → Quiescent s →
        ∀ k c, s.calls k = some c → Completed c) :=
  ⟨fun k c hk => ((run_sound ran).ok k c hk).exact,
    fun meets quiet _ _ hk => quiet.completed (run_answering meets ran) hk⟩

/-- A call of an actor that starts, answers and goes on waiting for messages. -/
def servedCall : List Label :=
  [.begin .sync 0 false,.enter 0,.lookup 0,.insert 0,.send 0,.accept 0,.take 0,.reply 0 none 7,
    .releaseReplied 0,.receive 0,.complete 0,.drop 0]

theorem servedCall_end : (run step servedCall initial).map State.scene = some
    ⟨1,some ⟨.sync,0,.closed,0,[],true,true,1,[⟨0,none,7⟩],1,false⟩,none,
      ⟨.live,false,[],.idle⟩,[none],[some ⟨0,1⟩],.idle⟩ := by
  decide

theorem servedCall_meets : Meets step NoLostReply servedCall initial := by
  refine ⟨trivial,fun s₁ h₁ => ⟨?_,fun s₂ h₂ => ⟨?_,fun s₃ h₃ => ⟨?_,fun s₄ h₄ => ⟨?_,
    fun s₅ h₅ => ⟨trivial,fun s₆ h₆ => ⟨trivial,fun s₇ h₇ => ⟨trivial,fun s₈ h₈ => ⟨trivial,fun s₉ h₉ => 
    ⟨trivial,fun s₁₀ h₁₀ => ⟨trivial,fun s₁₁ h₁₁ => ⟨trivial,fun s₁₂ h₁₂ => trivial⟩⟩⟩⟩⟩⟩⟩⟩⟩⟩⟩⟩
  · cases h₁; exact .inr (by decide)
  · cases h₁; cases h₂
    rintro c ⟨⟩
    exact .inr (.inl ⟨rfl,by decide⟩)
  · cases h₁; cases h₂; cases h₃
    rintro c ⟨⟩ task
    cases task
  · cases h₁; cases h₂; cases h₃; cases h₄
    rintro c ⟨⟩ task
    cases task

theorem servedCall_completed : ∃ s, run step servedCall initial = some s ∧
    Meets step NoLostReply servedCall initial ∧ Quiescent s ∧ (∃ c, s.calls 0 = some c) ∧
    ∀ k c, s.calls k = some c → Exact s k c ∧ Completed c := by
  obtain ⟨s,ran,last⟩ := map_eq_some_iff.mp servedCall_end
  simp only [State.scene,Scene.mk.injEq] at last
  obtain ⟨next,first,second,actor,pending,tids,reaper⟩ := last
  have quiet : Quiescent s := by
    refine quiescent_scene ran (by simp [servedCall]) (by rw [next]; decide) ?_ (by rw [actor]; decide)
      (by rw [actor]; decide) reaper (by rw [pending]; rfl)
    rintro c (hc | hc)
    · cases first.symm.trans hc; decide
    · cases second.symm.trans hc
  obtain ⟨exact,completed⟩ := calls_completed_once ran
  exact ⟨s,ran,servedCall_meets,quiet,⟨_,first⟩,
    fun k c hk => ⟨exact k c hk,completed servedCall_meets quiet k c hk⟩⟩

/-- The first call of a crashed actor is answered by the reaper, which then forgets the
actor's tid; the second call finds no tid and waits for good. -/
def orphanedCall : List Label :=
  [.begin .sync 0 false,.enter 0,.lookup 0,.insert 0,.send 0,.crash 0,.scan,.answer true,
    .reaperRelease,.forget,.receive 0,.complete 0,.drop 0,
    .begin .sync 0 false,.lookup 1,.insert 1,.send 1]

theorem orphanedCall_end : (run step orphanedCall initial).map State.scene = some ⟨2,
      some ⟨.sync,0,.closed,0,[],true,true,1,[⟨0,some "actor exited without reply",0⟩],1,false⟩,
      some ⟨.sync,0,.sent,2,[],true,true,0,[],0,false⟩,
      ⟨.gone,false,[0,1],.idle⟩,[some ⟨1,0,0,false⟩],[none],.idle⟩ := by
  decide

theorem orphanedCall_quiescent (ran : run step orphanedCall initial = some s) : Quiescent s := by
  have last := orphanedCall_end
  rw [ran] at last
  simp only [map_some,some.injEq,State.scene,Scene.mk.injEq] at last
  obtain ⟨next,first,second,actor,pending,tids,reaper⟩ := last
  refine quiescent_scene ran (by simp [orphanedCall]) (Nat.le_of_eq next) ?_ (by rw [actor]; decide)
    (by rw [actor]; decide) reaper (by rw [pending,tids]; rfl)
  rintro c (hc | hc)
  · cases first.symm.trans hc; decide
  · cases second.symm.trans hc; decide

/-- Calls may stay without a reply, their slots in the table and their storage held. -/
theorem orphaned_call_never_completed : ¬∀ labels s, run step labels initial = some s →
    (∀ k c, s.calls k = some c → Exact s k c) ∧
      (Quiescent s → ∀ k c, s.calls k = some c → Completed c) := by
  intro all
  obtain ⟨s,ran,last⟩ := map_eq_some_iff.mp orphanedCall_end
  simp only [State.scene,Scene.mk.injEq] at last
  have completed := (all orphanedCall s ran).2 (orphanedCall_quiescent ran) 1 _ last.2.2.1
  exact absurd (completed.replied rfl) (by decide)

end Objective9c.Pending
