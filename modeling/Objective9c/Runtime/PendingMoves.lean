import Objective9c.Runtime.PendingProtocol

/-! Every step of the completion machinery is, for each call, a step of that call's
protocol or none at all. -/
namespace Objective9c.Pending

open Option Table

section Tids

variable {tids : List (Option ActorTid)} {a : ActorId}

theorem actorTidPut_mem (distinct : (keys ActorTid.chan tids).Nodup) (member : some e ∈ actorTidPut tids a tid) :
    e = ⟨a,tid⟩ ∨ (some e ∈ tids ∧ e.chan ≠ a) := by
  unfold actorTidPut at member
  split at member
  next written => simpa using (replace_mem distinct written).mp member
  next missing =>
    have absent : ∀ x, some x ∈ tids → x.chan ≠ a := by
      intro x there same
      have := replaceFirst_none.mp missing _ there
      simp [has,same] at this
    split at member
    next filled =>
      rcases (insert_mem filled).mp member with rfl | old
      · exact .inl rfl
      · exact .inr ⟨old,absent e old⟩
    next =>
      rcases List.mem_or_eq_of_mem_set member with old | new
      · exact .inr ⟨old,absent e old⟩
      · exact .inl (some.inj new)

theorem actorTidPut_self (tids : List (Option ActorTid)) (a : ActorId) (tid : Int) :
    some ⟨a,tid⟩ ∈ actorTidPut tids a tid := by
  unfold actorTidPut
  split
  next written =>
    obtain ⟨before,x,after,_,_,rfl⟩ := replaceFirst_some written
    simp
  next =>
    split
    next filled => exact (insert_mem filled).mpr (.inl rfl)
    next full =>
      have long := (insert_none.mp full).2
      cases tids with
      | nil => exact absurd long (by decide)
      | cons => simp

theorem actorTidPut_keeps (distinct : (keys ActorTid.chan tids).Nodup)
    (room : none ∈ tids ∨ tids.length < maxActorTids) (member : some e ∈ tids) (other : e.chan ≠ a) :
    some e ∈ actorTidPut tids a tid := by
  unfold actorTidPut
  split
  next written => exact (replace_mem distinct written).mpr (.inr ⟨member,other⟩)
  next =>
    split
    next filled => exact (insert_mem filled).mpr (.inr member)
    next full =>
      obtain ⟨noFree,long⟩ := insert_none.mp full
      rcases room with free | short
      · exact absurd free noFree
      · omega

theorem actorTidPut_keys (distinct : (keys ActorTid.chan tids).Nodup) :
    (keys ActorTid.chan (actorTidPut tids a tid)).Nodup := by
  unfold actorTidPut
  split
  next written => rw [overwrite_keys (by rfl) written]; exact distinct
  next missing =>
    have absent : a ∉ keys ActorTid.chan tids := by
      rw [mem_keys]
      rintro ⟨x,there,same⟩
      have := replaceFirst_none.mp missing _ there
      simp [has,same] at this
    split
    next filled =>
      exact (insert_keys filled).nodup_iff.mpr (List.nodup_cons.mpr ⟨absent,distinct⟩)
    next =>
      cases tids with
      | nil => simpa using distinct
      | cons x rest =>
        have short : (keys ActorTid.chan rest).Sublist (keys ActorTid.chan (x :: rest)) := by
          cases x <;> simp [keys]
        refine List.nodup_cons.mpr ⟨fun again => absent (short.subset again),distinct.sublist short⟩

end Tids

def Work.on (w : Work) (k : CallId) : Msg :=
  match w with
  | .idle => .absent
  | .running j => if j = k then .running else .absent
  | .taken j h => if j = k then .taken h else .absent
  | .replied j h => if j = k then .replied h else .absent

def Actor.msg (x : Actor) (k : CallId) : Msg :=
  match x.work.on k with
  | .absent => if k ∈ x.queue then .queued else .absent
  | m => m

def Reaper.on (r : Reaper) (k : CallId) : Reap :=
  match r with
  | .found j _ => if j = k then .found else .none
  | .answered j _ => if j = k then .answered else .none
  | _ => .none

def Reaper.chan : Reaper → Option ActorId
  | .idle => none
  | .found _ a => some a
  | .answered _ a => some a
  | .dropped a => some a

def State.view (s : State) (k : CallId) (c : Call) : View where
  call := c
  slot := Table.lookup Slot.call k s.pending
  msg := (s.actors c.chan).msg k
  reap := s.reaper.on k
  life := (s.actors c.chan).life
  closed := (s.actors c.chan).closed
  mapped := decide (0 < tidForChan s.tids c.chan)
  watched := decide (s.reaper.chan = some c.chan)

/-- A tid on record is the callee's; it is known only once the callee has started. -/
def TidOk (s : State) (a : ActorId) (tid : Int) (started : Bool) : Prop :=
  (tid = 0 ∨ tid = threadId a) ∧
    (started = true → tid = threadId a ∧ (s.actors a).life ≠ .unborn)

/-- How calls, slots, messages and tids point at each other. -/
structure Wired (s : State) : Prop where
  fresh : ∀ k c, s.calls k = some c → k < s.nextCall
  slots : (Table.keys Slot.call s.pending).Nodup
  slot : ∀ x, some x ∈ s.pending → ∃ c, s.calls x.call = some c ∧ c.chan = x.chan
  slotTid : ∀ x, some x ∈ s.pending → TidOk s x.chan x.tid x.started
  looked : ∀ k c tid started, s.calls k = some c → c.pc = .looked tid started →
    TidOk s c.chan tid started
  made : ∀ k c tid, s.calls k = some c → c.pc = .made tid → TidOk s c.chan tid false
  tids : (Table.keys ActorTid.chan s.tids).Nodup
  tid : ∀ e, some e ∈ s.tids → e.tid = threadId e.chan ∧ (s.actors e.chan).life ≠ .unborn
  queue : ∀ a k, k ∈ (s.actors a).queue → ∃ c, s.calls k = some c ∧ c.chan = a
  queueOnce : ∀ a, (s.actors a).queue.Nodup
  work : ∀ a k, (s.actors a).work.on k ≠ .absent →
    (∃ c, s.calls k = some c ∧ c.chan = a) ∧ k ∉ (s.actors a).queue
  reaper : ∀ k, s.reaper.on k ≠ .none → ∃ c, s.calls k = some c
  reaperGone : ∀ a, s.reaper.chan = some a → (s.actors a).life = .gone
  closing : ∀ a, (s.actors a).life = .closing → (s.actors a).closed = true
  closed : ∀ a, (s.actors a).closed = true → (s.actors a).life = .closing ∨ (s.actors a).life = .gone

theorem threadId_pos (a : ActorId) : 0 < threadId a := by
  unfold threadId
  omega

theorem tidForChan_pos (real : ∀ e, some e ∈ tids → 0 < e.tid) (a : ActorId) :
    0 < tidForChan tids a ↔ ∃ e, some e ∈ tids ∧ e.chan = a := by
  unfold tidForChan
  split
  next e found =>
    obtain ⟨member,rfl⟩ := lookup_some found
    exact ⟨fun _ => ⟨e,member,rfl⟩,fun _ => real e member⟩
  next missing =>
    have absent := lookup_none.mp missing
    rw [mem_keys] at absent
    exact ⟨fun pos => absurd pos (by decide),fun there => absurd there absent⟩

theorem Wired.real (wired : Wired s) : ∀ e, some e ∈ s.tids → 0 < e.tid := by
  intro e member
  rw [(wired.tid e member).1]
  exact threadId_pos e.chan

theorem Wired.tidForChan_eq (wired : Wired s) (known : 0 < tidForChan s.tids a) :
    tidForChan s.tids a = threadId a ∧ (s.actors a).life ≠ .unborn := by
  unfold tidForChan at known ⊢
  split at known
  next e found =>
    obtain ⟨member,rfl⟩ := lookup_some found
    exact wired.tid e member
  next => exact absurd known (by decide)

theorem initial_wired : Wired initial := by
  constructor <;> simp [initial,keys,Work.on,Reaper.on,Reaper.chan]

/-- Each call makes at most one step of its protocol. -/
def Moves (good : Bool) (s s' : State) : Prop :=
  ∀ j c', s'.calls j = some c' → ∃ c, s.calls j = some c ∧
    (s'.view j c' = s.view j c ∨ CallStep good j (s.view j c) (s'.view j c'))

theorem moves_at (hk : s.calls k = some c) (hk' : s'.calls k = some c')
    (move : CallStep good k (s.view k c) (s'.view k c')) (others : ∀ j, j ≠ k → s'.calls j = s.calls j ∧
      ∀ d, s.calls j = some d → s'.view j d = s.view j d) : Moves good s s' := by
  intro j d' hd'
  by_cases here : j = k
  · subst here
    cases hk'.symm.trans hd'
    exact ⟨c,hk,.inr move⟩
  · obtain ⟨same,view⟩ := others j here
    rw [same] at hd'
    exact ⟨d',hd',.inl (view d' hd')⟩

theorem moves_call (hk : s.calls k = some c) (chan : c'.chan = c.chan)
    (slots : ∀ j, j ≠ k → lookup Slot.call j pending = lookup Slot.call j s.pending)
    (life : x.life = (s.actors c.chan).life) (closed : x.closed = (s.actors c.chan).closed)
    (msgs : ∀ j, j ≠ k → x.msg j = (s.actors c.chan).msg j) (move : CallStep good k (s.view k c)
      { s.view k c with call := c', slot := lookup Slot.call k pending, msg := x.msg k }) :
    Moves good s { (s.setCall k c').setActor c.chan x with pending } := by
  refine moves_at hk (if_pos rfl) ?_ ?_
  · convert move using 1
    simp only [State.view,State.setCall,State.setActor,chan,↓reduceIte,life,closed]
  · intro j other
    refine ⟨if_neg other,fun d _ => ?_⟩
    by_cases here : d.chan = c.chan
    · simp only [State.view,State.setCall,State.setActor,here,↓reduceIte,life,closed,msgs j other,
        slots j other]
    · simp only [State.view,State.setCall,State.setActor,here,↓reduceIte,slots j other]
      rfl

theorem setActor_self (s : State) (a : ActorId) : s.setActor a (s.actors a) = s := by
  cases s
  simp only [State.setActor,State.mk.injEq,true_and,and_true]
  funext b
  by_cases here : b = a <;> simp [here]

theorem moves_setCall_pending (hk : s.calls k = some c) (chan : c'.chan = c.chan)
    (slots : ∀ j, j ≠ k → lookup Slot.call j pending = lookup Slot.call j s.pending)
    (move : CallStep good k (s.view k c) { s.view k c with call := c', slot := lookup Slot.call k pending }) :
    Moves good s { s.setCall k c' with pending } := by
  have moved := moves_call (x := s.actors c.chan) hk chan slots rfl rfl (fun _ _ => rfl) move
  rwa [show (s.setCall k c').setActor c.chan (s.actors c.chan) = s.setCall k c' from
    setActor_self (s.setCall k c') c.chan] at moved

theorem moves_setCall (hk : s.calls k = some c) (chan : c'.chan = c.chan)
    (move : CallStep good k (s.view k c) { s.view k c with call := c' }) : Moves good s (s.setCall k c') :=
  moves_setCall_pending hk chan (fun _ _ => rfl) move

/-- What the guard of a step must exclude for no reply to be lost. -/
def NoLostReply : Label → State → Prop
  | .lookup k, s => ∀ c, s.calls k = some c → (s.actors c.chan).life = .unborn ∨
      ((s.actors c.chan).life = .live ∧ 0 < tidForChan s.tids c.chan) ∨
      ((s.actors c.chan).closed = true ∧ c.kind = .sync)
  | .insert k, s => ∀ c, s.calls k = some c → c.kind = .task →
      none ∈ s.pending ∨ s.pending.length < maxPending
  | .send k, s => ∀ c, s.calls k = some c → c.kind = .task → (s.actors c.chan).closed = false
  | .enter _, s => none ∈ s.tids ∨ s.tids.length < maxActorTids
  | .chanclose a, s => ∀ k c, s.calls k = some c → c.chan = a → c.pc = .sent →
      ∀ x, Table.lookup Slot.call k s.pending = some x → x.started = true
  | .crash a, s => ∀ k c, s.calls k = some c → c.chan = a →
      c.pc ≠ .listed ∧ ∀ tid started, c.pc ≠ .looked tid started
  | .answer allocated, _ => allocated = true
  | _, _ => True

theorem onCall_some (stepped : State.onCall s k f = some s') : ∃ c, s.calls k = some c ∧ f s k c = some s' := by
  unfold State.onCall at stepped
  split at stepped
  · contradiction
  next c hk => exact ⟨c,hk,stepped⟩

/-- The slot as the reaper leaves it when the actor is not dead. -/
def seen (tids : List (Option ActorTid)) (x : Slot) : Slot := (slotTid tids x).2

section

variable (tids : List (Option ActorTid)) (x : Slot)

theorem seen_cases : seen tids x = x ∨ (0 < tidForChan tids x.chan ∧
      seen tids x = { x with tid := tidForChan tids x.chan, started := true }) := by
  unfold seen slotTid
  by_cases known : tidForChan tids x.chan > 0
  · exact .inr ⟨known,by rw [if_pos known]⟩
  · refine .inl ?_
    rw [if_neg known]
    split <;> rfl

@[simp] theorem seen_call : (seen tids x).call = x.call := by
  rcases seen_cases tids x with same | ⟨_,new⟩
  · rw [same]
  · rw [new]

@[simp] theorem seen_chan : (seen tids x).chan = x.chan := by
  rcases seen_cases tids x with same | ⟨_,new⟩
  · rw [same]
  · rw [new]

end

def deadTid (alive : Int → Bool) (tid : Int) : Bool := tid < 0 || (tid > 0 && !alive tid)

theorem reaperScan_none (nobody : (reaperScan tids alive pending).2 = none) :
    (reaperScan tids alive pending).1 = pending.map (Option.map (seen tids)) ∧
      ∀ x, some x ∈ pending → deadTid alive (slotTid tids x).1 = false := by
  induction pending with
  | nil => exact ⟨rfl,by simp⟩
  | cons e rest ih =>
    cases e with
    | none =>
      simp only [reaperScan] at nobody ⊢
      obtain ⟨table,dead⟩ := ih nobody
      exact ⟨by rw [table]; rfl,by simpa using dead⟩
    | some =>
      simp only [reaperScan] at nobody ⊢
      split at nobody
      · contradiction
      next alive' =>
        rw [if_neg alive']
        obtain ⟨table,dead⟩ := ih nobody
        refine ⟨by rw [table]; rfl,?_⟩
        intro y member
        rcases List.mem_cons.mp member with same | later
        · cases same; simpa [deadTid] using alive'
        · exact dead y later

theorem reaperScan_some (found : (reaperScan tids alive pending).2 = some (y,tid)) :
    ∃ before x after, pending = before ++ some x :: after ∧ y = seen tids x ∧
      tid = (slotTid tids x).1 ∧ deadTid alive tid = true ∧
      (reaperScan tids alive pending).1 = before.map (Option.map (seen tids)) ++ none :: after := by
  induction pending with
  | nil => contradiction
  | cons e rest ih =>
    cases e with
    | none =>
      simp only [reaperScan] at found ⊢
      obtain ⟨before,x,after,rfl,rfl,rfl,dead,table⟩ := ih found
      exact ⟨none :: before,x,after,rfl,rfl,rfl,dead,by rw [table]; rfl⟩
    | some x =>
      simp only [reaperScan] at found ⊢
      split at found
      next dead =>
        cases found
        rw [if_pos dead]
        exact ⟨[],x,rest,rfl,rfl,rfl,dead,rfl⟩
      next alive' =>
        rw [if_neg alive']
        obtain ⟨before,z,after,rfl,rfl,rfl,dead,table⟩ := ih found
        exact ⟨some x :: before,z,after,rfl,rfl,rfl,dead,by rw [table]; rfl⟩

/-- What a step of a caller has found and done. -/
inductive Called (s : State) : Label → State → Prop where
  | begin : Called s (.begin kind chan own)
      { s.setCall s.nextCall (beginCall kind chan own) with nextCall := s.nextCall + 1 }
  | lookup (hk : s.calls k = some c) (here : c.pc = .made tid) : Called s (.lookup k) (s.setCall k
      ((if c.kind = .sync then c.retain else c).goto
        (.looked (if 0 < tidForChan s.tids c.chan then tidForChan s.tids c.chan else tid)
          (decide (0 < tidForChan s.tids c.chan)))))
  | insert (hk : s.calls k = some c) (here : c.pc = .looked tid started)
      (inserted : Table.insert maxPending ⟨k,c.chan,tid,started⟩ s.pending = some pending) :
      Called s (.insert k) { s.setCall k { c.goto .listed with registered := true } with pending }
  | refuse (hk : s.calls k = some c) (here : c.pc = .looked tid started)
      (full : Table.insert maxPending ⟨k,c.chan,tid,started⟩ s.pending = none) :
      Called s (.insert k) (s.setCall k (c.release.goto (if c.kind = .sync then .dropping else .unlisted)))
  | sendFail (hk : s.calls k = some c) (here : c.pc = .listed ∨ c.pc = .unlisted)
      (closed : (s.actors c.chan).closed = true) :
      Called s (.send k) (s.setCall k (c.goto (if c.kind = .sync then .finishing else .sent)))
  | send (hk : s.calls k = some c) (here : c.pc = .listed ∨ c.pc = .unlisted)
      (opened : (s.actors c.chan).closed = false) :
      Called s (.send k) ((s.setCall k { c.goto .sent with posted := true }).setActor c.chan
        { s.actors c.chan with queue := (s.actors c.chan).queue ++ [k] })
  | receive (hk : s.calls k = some c) (here : c.pc = .sent) (waiting : c.replyc = r :: rest) :
      Called s (.receive k) (s.setCall k
        { c.touch.goto (if c.kind = .sync then .finishing else .dropping) with
          replyc := rest, got := c.got ++ [r] })
  | complete (hk : s.calls k = some c) (here : c.pc = .finishing) (taken : (pendingTake k s.pending).2 = true) :
      Called s (.complete k) { s.setCall k { c.touch.goto .completing with takes := c.takes + 1 } with
        pending := (pendingTake k s.pending).1 }
  | completed (hk : s.calls k = some c) (here : c.pc = .finishing)
      (missing : (pendingTake k s.pending).2 = false) :
      Called s (.complete k) (s.setCall k (c.touch.goto .dropping))
  | releaseTaken (hk : s.calls k = some c) (here : c.pc = .completing) :
      Called s (.releaseTaken k) (s.setCall k (c.release.goto .dropping))
  | drop (hk : s.calls k = some c) (here : c.pc = .dropping) :
      Called s (.drop k) (s.setCall k (c.release.goto .closed))

/-- What a step of an actor has found and done. -/
inductive Acted (s : State) : Label → State → Prop where
  | enter (unborn : (s.actors a).life = .unborn) :
      Acted s (.enter a) { s.setActor a { s.actors a with life := .live } with
        tids := actorTidPut s.tids a (threadId a) }
  | accept (live : (s.actors a).life = .live) (idle : (s.actors a).work = .idle)
      (queue : (s.actors a).queue = k :: rest) :
      Acted s (.accept a) (s.setActor a { s.actors a with work := .running k, queue := rest })
  | take (running : (s.actors a).work = .running k)
      (alive : (s.actors a).life = .live ∨ (s.actors a).life = .closing) (hk : s.calls k = some c)
      (read : c' = if c.kind = .sync then c else c.touch) :
      Acted s (.take a) { (s.setCall k (if (pendingTake k s.pending).2 then { c' with takes := c.takes + 1 } else c')).setActor a
          { s.actors a with work := .taken k (pendingTake k s.pending).2 } with
        pending := (pendingTake k s.pending).1 }
  | reply (taken : (s.actors a).work = .taken k holds) (hk : s.calls k = some c) (empty : c.replyc = []) :
      Acted s (.reply a err ret) ((s.setCall k { c.touch with replyc := [⟨k,err,ret⟩] }).setActor a
        { s.actors a with work := .replied k holds })
  | releaseReplied (replied : (s.actors a).work = .replied k holds) (hk : s.calls k = some c) :
      Acted s (.releaseReplied a) ((s.setCall k (if holds then c.release else c)).setActor a
        { s.actors a with work := .idle })
  | cleanup (live : (s.actors a).life = .live)
      (free : (s.actors a).work = .idle ∨ ∃ j, (s.actors a).work = .running j) :
      Acted s (.cleanup a) { s.setActor a { s.actors a with life := .leaving } with
        tids := actorTidRemove s.tids a }
  | chanclose (leaving : (s.actors a).life = .leaving) :
      Acted s (.chanclose a) (s.setActor a { s.actors a with life := .closing, closed := true })
  | exit (closing : (s.actors a).life = .closing) (idle : (s.actors a).work = .idle) :
      Acted s (.exit a) (s.setActor a { s.actors a with life := .gone })
  | crash (live : (s.actors a).life = .live)
      (free : (s.actors a).work = .idle ∨ ∃ j, (s.actors a).work = .running j) :
      Acted s (.crash a) (s.setActor a { s.actors a with life := .gone })

/-- What a step of the reaper has found and done. -/
inductive Reaped (s : State) : Label → State → Prop where
  | scan (idle : s.reaper = .idle) : Reaped s .scan { s with pending := s.pending.map (Option.map (seen s.tids)) }
  | reap (idle : s.reaper = .idle) (split : s.pending = before ++ some x :: after)
      (dead : deadTid s.threadAlive (slotTid s.tids x).1 = true) (hk : s.calls x.call = some c) :
      Reaped s .scan { s.setCall x.call { c with takes := c.takes + 1 } with
        pending := reaperMark x.chan (slotTid s.tids x).1 (before.map (Option.map (seen s.tids)) ++ none :: after)
        reaper := .found x.call x.chan }
  | answer (found : s.reaper = .found k chan) (hk : s.calls k = some c) :
      Reaped s (.answer true) { s.setCall k { c.touch with
          replyc := if c.replyc = [] then [⟨k,some "actor exited without reply",0⟩] else c.replyc } with
        reaper := .answered k chan }
  | answerFail (found : s.reaper = .found k chan) (hk : s.calls k = some c) :
      Reaped s (.answer false) { s.setCall k c with reaper := .answered k chan }
  | reaperRelease (answered : s.reaper = .answered k chan) (hk : s.calls k = some c) :
      Reaped s .reaperRelease { s.setCall k c.release with reaper := .dropped chan }
  | forget (dropped : s.reaper = .dropped chan) :
      Reaped s .forget { s with tids := actorTidRemove s.tids chan, reaper := .idle }

theorem step_stepped (stepped : step label s = some s') :
    Called s label s' ∨ Acted s label s' ∨ Reaped s label s' := by
  cases label with
  | begin => cases stepped; exact .inl .begin
  | lookup =>
    obtain ⟨c,hk,stepped⟩ := onCall_some stepped
    unfold lookupStep at stepped
    split at stepped
    next tid here =>
      have done := Called.lookup hk here
      refine .inl ?_
      by_cases known : 0 < tidForChan s.tids c.chan <;> cases kind : c.kind <;>
        simp only [kind,known,if_true,if_false,decide_true,decide_false,reduceCtorEq] at stepped done <;>
        cases stepped <;> exact done
    next => contradiction
  | insert =>
    obtain ⟨c,hk,stepped⟩ := onCall_some stepped
    unfold insertStep at stepped
    split at stepped
    next tid started here =>
      split at stepped
      next pending inserted => cases stepped; exact .inl (.insert hk here inserted)
      next full =>
        have done := Called.refuse hk here full
        refine .inl ?_
        split at stepped <;> cases stepped <;> simpa [*] using done
    next => contradiction
  | send =>
    obtain ⟨c,hk,stepped⟩ := onCall_some stepped
    unfold sendStep at stepped
    dsimp only at stepped
    split at stepped
    next here =>
      split at stepped
      next closed =>
        have done := Called.sendFail hk here closed
        refine .inl ?_
        split at stepped <;> cases stepped <;> simpa [*] using done
      next opened =>
        split at stepped
        · cases stepped; exact .inl (.send hk here (by simpa using opened))
        · contradiction
    next => contradiction
  | receive =>
    obtain ⟨c,hk,stepped⟩ := onCall_some stepped
    unfold receiveStep at stepped
    split at stepped
    next r rest here waiting =>
      have done := Called.receive hk here waiting
      refine .inl ?_
      cases kind : c.kind <;> simp only [kind] at stepped <;> cases stepped <;> simpa [kind] using done
    next => contradiction
  | complete k | releaseTaken k | drop k =>
    obtain ⟨c,hk,stepped⟩ := onCall_some stepped
    simp only [completeStep,releaseTakenStep,dropStep] at stepped
    repeat' split at stepped
    all_goals first
      | contradiction
      | (cases stepped; exact .inl (by constructor <;> first | assumption | simp_all))
  | take =>
    simp only [step,takeStep] at stepped
    split at stepped
    next k running =>
      split at stepped
      next alive =>
        split at stepped
        · contradiction
        next c hk =>
          have done := Acted.take running alive hk rfl
          refine .inr (.inl ?_)
          cases kind : c.kind <;> simp only [kind] at stepped <;> cases stepped <;> simpa [kind] using done
      next => contradiction
    next => contradiction
  | releaseReplied =>
    simp only [step,releaseRepliedStep] at stepped
    split at stepped
    next k holds replied =>
      split at stepped
      · contradiction
      next c hk => cases stepped; exact .inr (.inl (.releaseReplied replied hk))
    next => contradiction
  | enter a | accept a | reply a err ret | exit a | cleanup a | chanclose a | crash a =>
    simp only [step,enterStep,acceptStep,replyStep,exitStep,cleanupStep,chancloseStep,crashStep] at stepped
    repeat' split at stepped
    all_goals first
      | contradiction
      | (cases stepped; exact .inr (.inl (by constructor <;> first | assumption | simp_all)))
  | scan =>
    simp only [step,scanStep] at stepped
    split at stepped
    next idle =>
      split at stepped
      next pending scanned =>
        have table := (reaperScan_none (by rw [scanned])).1
        rw [scanned] at table
        obtain rfl : pending = _ := table
        cases stepped
        exact .inr (.inr (.scan idle))
      next pending y tid scanned =>
        obtain ⟨before,x,after,split,rfl,rfl,dead,table⟩ := reaperScan_some (by rw [scanned])
        rw [scanned] at table
        obtain rfl : pending = _ := table
        split at stepped
        · contradiction
        next c hk =>
          cases stepped
          rw [seen_call] at hk
          rw [seen_call,seen_chan]
          exact .inr (.inr (.reap idle split dead hk))
    next => contradiction
  | answer allocated =>
    simp only [step,answerStep] at stepped
    split at stepped
    next k chan found =>
      split at stepped
      · contradiction
      next c hk =>
        have done := Reaped.answer found hk
        refine .inr (.inr ?_)
        cases stepped
        cases allocated with
        | false => exact .answerFail found hk
        | true => by_cases empty : c.replyc = [] <;> simpa [empty,Call.touch] using done
    next => contradiction
  | reaperRelease | forget =>
    simp only [step,reaperReleaseStep,forgetStep] at stepped
    repeat' split at stepped
    all_goals first
      | contradiction
      | (cases stepped; exact .inr (.inr (by constructor <;> assumption)))

section CallerMoves

theorem msg_push (x : Actor) (other : j ≠ k) : { x with queue := x.queue ++ [k] }.msg j = x.msg j := by
  simp [Actor.msg,other]

theorem msg_pushed {x : Actor} (absent : x.msg k = .absent) :
    { x with queue := x.queue ++ [k] }.msg k = .queued := by
  unfold Actor.msg at absent ⊢
  split at absent
  next idle => simp [idle]
  next m busy => exact absurd absent busy

theorem Called.moves (wired : Wired s) (ok : ∀ k c, s.calls k = some c → Ok k (s.view k c))
    (guard : good = true → NoLostReply label s) (old : ∀ kind chan own, label ≠ .begin kind chan own)
    (called : Called s label s') : Moves good s s' := by
  cases called with
  | begin => exact absurd rfl (old _ _ _)
  | @lookup k c tid hk here =>
    refine moves_setCall hk (by split <;> rfl) (.register (.lookup tid _ here fun isGood => ?_))
    simpa [State.view] using guard isGood c hk
  | @insert k c tid started pending hk here inserted =>
    have free : (s.view k c).slot = none := by
      simpa using ((ok k c hk).stage.early (.inr ⟨tid,started,here⟩)).1
    have absent : k ∉ keys Slot.call s.pending := lookup_none.mp free
    refine moves_setCall_pending hk rfl
      (fun j other => lookup_insert_other wired.slots absent inserted other) (.register ?_)
    have mine : Table.lookup Slot.call k pending = some ⟨k,c.chan,tid,started⟩ :=
      lookup_insert_self wired.slots absent inserted
    rw [mine]
    exact .insert tid started _ here rfl
  | @refuse k c tid started hk here full =>
    refine moves_setCall hk rfl (.register (.refuse tid started here fun isGood => ?_))
    by_contra other
    have task : c.kind = .task := by cases kind : c.kind <;> simp_all [State.view]
    obtain ⟨noFree,long⟩ := insert_none.mp full
    rcases guard isGood c hk task with free | short
    · exact noFree free
    · omega
  | @sendFail k c hk here closed =>
    cases kind : c.kind with
    | sync =>
      exact moves_setCall hk rfl (.send (.sendFail here closed kind))
    | task =>
      refine moves_setCall hk rfl (.send (.sendLost ?_ here kind))
      by_contra isGood
      have := guard (by simpa using isGood) c hk kind
      simp [closed] at this
  | @send k c hk here opened =>
    have absent : (s.actors c.chan).msg k = .absent := ((ok k c hk).stage.before here).2.1
    refine moves_call hk rfl (fun _ _ => rfl) rfl rfl (fun j other => msg_push _ other) ?_
    rw [msg_pushed absent]
    exact .send (.send here opened)
  | receive hk here waiting => exact moves_setCall hk rfl (.finish (.receive _ _ here waiting))
  | @complete k c hk here taken =>
    refine moves_setCall_pending hk rfl
      (fun j other => lookup_clear_other wired.slots other) (.finish ?_)
    rw [show Table.lookup Slot.call k (pendingTake k s.pending).1 = none from
      lookup_clear_self wired.slots]
    exact .complete here ((clear_found Slot.call k s.pending).symm.trans taken)
  | @completed k c hk here missing =>
    exact moves_setCall hk rfl (.finish (.completed here ((clear_found Slot.call k s.pending).symm.trans missing)))
  | releaseTaken hk here => exact moves_setCall hk rfl (.finish (.releaseTaken here))
  | drop hk here => exact moves_setCall hk rfl (.finish (.drop here))

end CallerMoves

section ActorMoves

variable {s s' : State} {a : ActorId} {good : Bool}

theorem setCall_self (hk : s.calls k = some c) : s.setCall k c = s := by
  cases s
  simp only [State.setCall,State.mk.injEq,and_true]
  funext j
  by_cases here : j = k
  · subst here; simpa using hk.symm
  · simp [here]

/-- A step in the life of the actor `a`: for its calls a step of their callee's life, and
for the others at most the loss of their callee's tid. -/
theorem moves_life {x : Actor} (tids : List (Option ActorTid))
    (work : x.work = (s.actors a).work) (queue : x.queue = (s.actors a).queue)
    (mine : ∀ k c, s.calls k = some c → c.chan = a → LifeStep good (s.view k c) { s.view k c with
        life := x.life, closed := x.closed, mapped := decide (0 < tidForChan tids c.chan) })
    (others : ∀ b, b ≠ a → (0 < tidForChan tids b ↔ 0 < tidForChan s.tids b) ∨
      (good = false ∧ ¬0 < tidForChan tids b)) :
    Moves good s { s.setActor a x with tids } := by
  intro k c hk
  refine ⟨c,hk,?_⟩
  have msg : x.msg k = (s.actors a).msg k := by simp [Actor.msg,work,queue]
  by_cases here : c.chan = a
  · refine .inr (.life ?_)
    have step := mine k c hk here
    simp only [State.view,State.setActor,here,↓reduceIte,msg] at step ⊢
    exact step
  · rcases others c.chan here with same | ⟨bad,lost⟩
    · left
      simp only [State.view,State.setActor,here,↓reduceIte,same]
      rfl
    · refine .inr (.life ?_)
      have step := LifeStep.overwrite (v := s.view k c) bad
      simp only [State.view,State.setActor,here,↓reduceIte,lost,decide_false] at step ⊢
      exact step

theorem removed_pos (wired : Wired s) (a b : ActorId) :
    0 < tidForChan (actorTidRemove s.tids a) b ↔ b ≠ a ∧ 0 < tidForChan s.tids b := by
  have kept (e : ActorTid) : some e ∈ actorTidRemove s.tids a ↔ some e ∈ s.tids ∧ e.chan ≠ a :=
    clear_mem wired.tids
  rw [tidForChan_pos (fun e member => wired.real e ((kept e).mp member).1),
    tidForChan_pos wired.real]
  constructor
  · rintro ⟨e,member,rfl⟩
    exact ⟨((kept e).mp member).2,e,((kept e).mp member).1,rfl⟩
  · rintro ⟨other,e,member,rfl⟩
    exact ⟨e,(kept e).mpr ⟨member,other⟩,rfl⟩

theorem msg_free {x : Actor} (free : x.work = .idle ∨ ∃ j, x.work = .running j) (k : CallId) :
    x.msg k = .absent ∨ x.msg k = .queued ∨ x.msg k = .running := by
  unfold Actor.msg
  rcases free with idle | ⟨j,running⟩
  · rw [idle]
    by_cases queued : k ∈ x.queue <;> simp [Work.on,queued]
  · rw [running]
    by_cases here : j = k
    · simp [Work.on,here]
    · by_cases queued : k ∈ x.queue <;> simp [Work.on,here,queued]

theorem Wired.busy (wired : Wired s) (hk : s.calls k = some c) (busy : (s.actors a).work.on k ≠ .absent) :
    a = c.chan ∧ (s.view k c).msg = (s.actors a).work.on k := by
  obtain ⟨⟨d,hd,rfl⟩,_⟩ := wired.work a k busy
  cases hk.symm.trans hd
  refine ⟨rfl,?_⟩
  simp only [State.view,Actor.msg]

theorem moves_work (hk : s.calls k = some c) (busy : (s.actors c.chan).work.on k ≠ .absent)
    (other : ∀ j, j ≠ k → w.on j = .absent) (chan : c'.chan = c.chan)
    (slots : ∀ j, j ≠ k → lookup Slot.call j pending = lookup Slot.call j s.pending)
    (move : ActorStep k (s.view k c) { s.view k c with
      call := c', slot := lookup Slot.call k pending, msg := { s.actors c.chan with work := w }.msg k }) :
    Moves good s { (s.setCall k c').setActor c.chan { s.actors c.chan with work := w } with pending } := by
  have before (j : CallId) (apart : j ≠ k) : (s.actors c.chan).work.on j = .absent := by
    cases work : (s.actors c.chan).work <;> simp [work,Work.on] at busy ⊢ <;> grind
  refine moves_call hk chan slots rfl rfl (fun j apart => ?_) (.actor move)
  simp [Actor.msg,before j apart,other j apart]

theorem Acted.moves (wired : Wired s) (guard : good = true → NoLostReply label s) (acted : Acted s label s') :
    Moves good s s' := by
  cases acted with
  | @enter a unborn =>
    have real : ∀ e, some e ∈ actorTidPut s.tids a (threadId a) → 0 < e.tid := by
      intro e member
      rcases actorTidPut_mem wired.tids member with rfl | ⟨old,_⟩
      · exact threadId_pos a
      · exact wired.real e old
    have known : 0 < tidForChan (actorTidPut s.tids a (threadId a)) a :=
      (tidForChan_pos real a).mpr ⟨_,actorTidPut_self s.tids a (threadId a),rfl⟩
    refine moves_life _ rfl rfl ?_ ?_
    · rintro k c hk rfl
      simp only [known,decide_true]
      exact .enter unborn
    · intro b other
      by_cases lost : 0 < tidForChan (actorTidPut s.tids a (threadId a)) b
      · refine .inl ⟨fun _ => ?_,fun _ => lost⟩
        obtain ⟨e,member,here⟩ := (tidForChan_pos real b).mp lost
        rcases actorTidPut_mem wired.tids member with rfl | ⟨old,_⟩
        · exact absurd here.symm other
        · exact (tidForChan_pos wired.real b).mpr ⟨e,old,here⟩
      · by_cases isGood : good = true
        · refine .inl ⟨fun pos => absurd pos lost,fun pos => absurd ?_ lost⟩
          obtain ⟨e,member,here⟩ := (tidForChan_pos wired.real b).mp pos
          exact (tidForChan_pos real b).mpr ⟨e,actorTidPut_keeps wired.tids (guard isGood) member (here ▸ other),here⟩
        · exact .inr ⟨by simpa using isGood,lost⟩
  | @accept a k rest live idle queue =>
    obtain ⟨c,hk,rfl⟩ := wired.queue a k (by simp [queue])
    have queued : (s.actors c.chan).msg k = .queued := by simp [Actor.msg,idle,Work.on,queue]
    have running : { s.actors c.chan with work := .running k, queue := rest }.msg k = .running := by
      simp [Actor.msg,Work.on]
    have moved : Moves good s { (s.setCall k c).setActor c.chan
        { s.actors c.chan with work := .running k, queue := rest } with pending := s.pending } := by
      refine moves_call hk rfl (fun _ _ => rfl) rfl rfl ?_ ?_
      · intro j other
        simp [Actor.msg,idle,Work.on,queue,other,Ne.symm other]
      · rw [running]
        exact .actor (.accept queued live)
    rwa [setCall_self hk] at moved
  | @take a k c c' running alive hk read =>
    have busy : (s.actors a).work.on k ≠ .absent := by simp [running,Work.on]
    obtain ⟨rfl,here⟩ := wired.busy hk busy
    have cleared : lookup Slot.call k (pendingTake k s.pending).1 = none := lookup_clear_self wired.slots
    have found : (pendingTake k s.pending).2 = (s.view k c).slot.isSome := clear_found Slot.call k s.pending
    refine moves_work hk busy (fun j other => by simp [Work.on,Ne.symm other])
      (by rw [read]; split <;> split <;> rfl) (fun j other => lookup_clear_other wired.slots other) ?_
    have taken (h : Bool) : { s.actors c.chan with work := .taken k h }.msg k = .taken h := by simp [Actor.msg,Work.on]
    rw [running,Work.on,if_pos rfl] at here
    rw [cleared,taken,found,read]
    cases there : (s.view k c).slot with
    | some => exact .take here alive (by rw [there]; rfl)
    | none =>
      have move := ActorStep.takeNone (k := k) here alive (by rw [there]; rfl)
      rw [there] at move
      exact move
  | @reply a k holds c err ret taken hk =>
    have busy : (s.actors a).work.on k ≠ .absent := by simp [taken,Work.on]
    obtain ⟨rfl,here⟩ := wired.busy hk busy
    have replied : { s.actors c.chan with work := .replied k holds }.msg k = .replied holds := by simp [Actor.msg,Work.on]
    refine moves_work hk busy (fun j other => by simp [Work.on,Ne.symm other]) rfl (fun _ _ => rfl) ?_
    rw [taken,Work.on,if_pos rfl] at here
    rw [replied]
    exact .reply holds ⟨k,err,ret⟩ here rfl
  | @releaseReplied a k holds c replied hk =>
    have busy : (s.actors a).work.on k ≠ .absent := by simp [replied,Work.on]
    obtain ⟨rfl,here⟩ := wired.busy hk busy
    have idle : { s.actors c.chan with work := .idle }.msg k = .absent := by
      simp [Actor.msg,Work.on,(wired.work c.chan k busy).2]
    refine moves_work hk busy (fun j other => rfl) (by split <;> rfl) (fun _ _ => rfl) ?_
    rw [replied,Work.on,if_pos rfl] at here
    rw [idle]
    exact .releaseReplied holds here
  | @cleanup a live free =>
    refine moves_life _ rfl rfl ?_ ?_
    · rintro k c hk rfl
      have lost : ¬0 < tidForChan (actorTidRemove s.tids c.chan) c.chan := by simp [removed_pos wired]
      simp only [lost,decide_false]
      exact .cleanup live
    · intro b other
      exact .inl (by simp [removed_pos wired,other])
  | @chanclose a leaving =>
    refine moves_life s.tids rfl rfl ?_ (fun _ _ => .inl Iff.rfl)
    rintro k c hk rfl
    exact .chanclose leaving fun isGood sent => guard isGood k c hk rfl sent
  | @exit a closing idle =>
    refine moves_life s.tids rfl rfl ?_ (fun _ _ => .inl Iff.rfl)
    rintro k c hk rfl
    refine .exit closing ?_
    by_cases queued : k ∈ (s.actors c.chan).queue <;> simp [State.view,Actor.msg,idle,Work.on,queued]
  | @crash a live free =>
    refine moves_life s.tids rfl rfl ?_ (fun _ _ => .inl Iff.rfl)
    rintro k c hk rfl
    exact .crash live (msg_free free k) fun isGood => guard isGood k c hk rfl

end ActorMoves

section ReaperMoves

variable {s s' : State} {good : Bool}

theorem threadAlive_threadId (s : State) (a : ActorId) : s.threadAlive (threadId a) = (s.actors a).life.hasPid := by
  simp [State.threadAlive,threadId]

/-- The reaper is never wrong: a slot it finds dead belongs to an actor that is gone. -/
theorem deadTid_gone (wired : Wired s) (member : some x ∈ s.pending)
    (dead : deadTid s.threadAlive (slotTid s.tids x).1 = true) :
    (s.actors x.chan).life = .gone ∧ (slotTid s.tids x).1 = threadId x.chan := by
  obtain ⟨known,started⟩ := wired.slotTid x member
  have tested : (slotTid s.tids x).1 = 0 ∨
      ((slotTid s.tids x).1 = threadId x.chan ∧ (s.actors x.chan).life ≠ .unborn) := by
    unfold slotTid
    split
    next pos => exact .inr (wired.tidForChan_eq pos)
    next =>
      split
      next recorded =>
        have negative : ¬x.tid < 0 := by
          rcases known with h | h
          · omega
          · have := threadId_pos x.chan; omega
        simp only [negative,decide_false,Bool.or_false] at recorded
        exact .inr (started recorded)
      next => exact .inl rfl
  rcases tested with zero | ⟨own,born⟩
  · simp [deadTid,zero] at dead
  · refine ⟨?_,own⟩
    have pos := threadId_pos x.chan
    rw [own] at dead
    simp only [deadTid,threadAlive_threadId,Bool.or_eq_true,decide_eq_true_eq,Bool.and_eq_true,
      Bool.not_eq_true'] at dead
    cases life : (s.actors x.chan).life with
    | gone => rfl
    | unborn => exact absurd life born
    | live | leaving | closing => simp [life,Life.hasPid] at dead; omega

/-- A slot that is as before or has the tid recorded is at most a refresh for its call. -/
theorem view_seen (tids : List (Option ActorTid)) (slot : slot' = v.slot ∨ slot' = v.slot.map (seen tids)) :
    { v with slot := slot' } = v ∨ CallStep good k v { v with slot := slot' } := by
  rcases slot with rfl | rfl
  · exact .inl rfl
  · cases there : v.slot with
    | none =>
      left
      rw [map_none,← there]
    | some x =>
      rcases seen_cases tids x with same | ⟨_,started⟩
      · exact .inl (by rw [map_some,same,← there])
      · exact .inr (.reaper (.refresh x _ there (by rw [started])))

theorem lookup_scanned (slots : (keys Slot.call (before ++ some x :: after)).Nodup)
    (tids : List (Option ActorTid)) (k : CallId) :
    (k = x.call → lookup Slot.call k (before.map (Option.map (seen tids)) ++ none :: after) = none) ∧
    (k ≠ x.call → lookup Slot.call k (before.map (Option.map (seen tids)) ++ none :: after) =
        lookup Slot.call k (before ++ some x :: after) ∨
      lookup Slot.call k (before.map (Option.map (seen tids)) ++ none :: after) =
        (lookup Slot.call k (before ++ some x :: after)).map (seen tids)) := by
  have scanned : lookup Slot.call k (before.map (Option.map (seen tids)) ++ none :: after) =
      ((lookup Slot.call k before).map (seen tids)).or (lookup Slot.call k after) := by
    rw [lookup_append,lookup_map _ (seen_call tids),lookup_cons_none]
  have whole : k ≠ x.call → lookup Slot.call k (before ++ some x :: after) =
      (lookup Slot.call k before).or (lookup Slot.call k after) := by
    intro other
    rw [lookup_append,lookup_cons_some,if_neg (Ne.symm other)]
  refine ⟨?_,?_⟩
  · rintro rfl
    have absent (part : List (Option Slot)) (sub : ∀ y, some y ∈ part → some y ∈ before ++ after) :
        lookup Slot.call x.call part = none := by
      rw [lookup_none,mem_keys]
      rintro ⟨y,member,same⟩
      exact keys_elsewhere slots (sub y member) same
    rw [scanned,absent before (fun y => List.mem_append_left _),
      absent after (fun y => List.mem_append_right _)]
    rfl
  · intro other
    rw [scanned,whole other]
    cases lookup Slot.call k before with
    | none => exact .inl rfl
    | some => exact .inr rfl

def mark (chan : ActorId) (tid : Int) (x : Slot) : Slot :=
  if x.chan = chan then { x with tid, started := true } else x

@[simp] theorem mark_call (chan : ActorId) (tid : Int) (x : Slot) : (mark chan tid x).call = x.call := by
  unfold mark
  split <;> rfl

theorem lookup_mark (pos : 0 < tid) (k : CallId) : lookup Slot.call k (reaperMark chan tid pending) =
      (lookup Slot.call k pending).map (mark chan tid) := by
  rw [reaperMark,if_pos pos]
  exact lookup_map (mark chan tid) (mark_call chan tid) k pending

theorem slot_chan (wired : Wired s) (hd : s.calls j = some d)
    (slot : found = (s.view j d).slot ∨ found = (s.view j d).slot.map (seen s.tids))
    (here : found = some y) : y.chan = d.chan := by
  have own (z : Slot) (there : (s.view j d).slot = some z) : z.chan = d.chan := by
    obtain ⟨member,rfl⟩ := lookup_some there
    obtain ⟨c,hc,chan⟩ := wired.slot z member
    cases hd.symm.trans hc
    exact chan.symm
  rcases slot with same | new
  · exact own y (same ▸ here)
  · obtain ⟨z,there,rfl⟩ := map_eq_some_iff.mp (new ▸ here)
    rw [seen_chan]
    exact own z there

theorem found_moves (wired : Wired s)
    (idle : s.reaper = .idle) (there : some x ∈ s.pending) (hk : s.calls x.call = some c)
    (chan : c.chan = x.chan) (gone : (s.actors x.chan).life = .gone) (mine : lookup Slot.call x.call scanned = none)
    (others : ∀ j, j ≠ x.call → lookup Slot.call j scanned = lookup Slot.call j s.pending ∨
      lookup Slot.call j scanned = (lookup Slot.call j s.pending).map (seen s.tids)) :
    Moves good s { s.setCall x.call { c with takes := c.takes + 1 } with
      pending := reaperMark x.chan (threadId x.chan) scanned
      reaper := .found x.call x.chan } := by
  intro j d hd
  have marked : lookup Slot.call j (reaperMark x.chan (threadId x.chan) scanned) =
      (lookup Slot.call j scanned).map (mark x.chan (threadId x.chan)) :=
    lookup_mark (threadId_pos x.chan) j
  by_cases here : j = x.call
  · subst here
    obtain rfl : { c with takes := c.takes + 1 } = d := by simpa using hd
    refine ⟨c,hk,.inr (.reaper ?_)⟩
    have slot : (s.view x.call c).slot = some x := (lookup_iff wired.slots).mpr ⟨there,rfl⟩
    have move : ReaperStep good x.call (s.view x.call c) _ :=
      .reap (by rw [slot]; rfl) (by rw [← gone,← chan]; rfl)
    rw [mine] at marked
    simp only [State.view,State.setCall,marked,map_none,Reaper.on,Reaper.chan,↓reduceIte,chan,
      decide_true] at move ⊢
    exact move
  · have hd : s.calls j = some d := by simpa [here] using hd
    refine ⟨d,hd,?_⟩
    have reap : (Reaper.found x.call x.chan).on j = s.reaper.on j := by
      simp [idle,Reaper.on,Ne.symm here]
    have onChan (y : Slot) (found : lookup Slot.call j scanned = some y) : y.chan = d.chan :=
      slot_chan wired hd (others j here) found
    by_cases same : d.chan = x.chan
    · refine .inr (.reaper ?_)
      have present : (s.view j d).slot.isSome = (lookup Slot.call j
          (reaperMark x.chan (threadId x.chan) scanned)).isSome := by
        rw [marked,isSome_map]
        rcases others j here with eq | eq <;> simp [State.view,eq]
      have started : ∀ y, lookup Slot.call j
          (reaperMark x.chan (threadId x.chan) scanned) = some y → y.started = true := by
        intro y found
        rw [marked] at found
        obtain ⟨z,at',rfl⟩ := map_eq_some_iff.mp found
        simp [mark,onChan z at',same]
      have move : ReaperStep good j (s.view j d) _ :=
        .watch _ (by rw [← gone,← same]; rfl) present started
      simp only [State.view,State.setCall,Reaper.chan,same,decide_true,reap] at move ⊢
      exact move
    · have unmarked : lookup Slot.call j (reaperMark x.chan (threadId x.chan) scanned) =
          lookup Slot.call j scanned := by
        rw [marked]
        cases found : lookup Slot.call j scanned with
        | none => rfl
        | some y =>
          have apart : y.chan ≠ x.chan := fun eq => same ((onChan y found).symm.trans eq)
          simp [mark,apart]
      have view : State.view { s.setCall x.call { c with takes := c.takes + 1 } with
          pending := reaperMark x.chan (threadId x.chan) scanned
          reaper := .found x.call x.chan } j d =
          { s.view j d with slot := lookup Slot.call j scanned } := by
        simp [State.view,unmarked,reap,idle,Reaper.chan,Ne.symm same]
      rw [view]
      exact view_seen s.tids (others j here)

theorem moves_reaper (hk : s.calls k = some c) (chan : c'.chan = c.chan) (same : reaper.chan = s.reaper.chan)
    (others : ∀ j, j ≠ k → reaper.on j = s.reaper.on j)
    (move : CallStep good k (s.view k c) { s.view k c with call := c', reap := reaper.on k }) :
    Moves good s { s.setCall k c' with reaper } := by
  refine moves_at hk (if_pos rfl) ?_ ?_
  · convert move using 1
    simp only [State.view,State.setCall,chan,same]
  · intro j other
    refine ⟨if_neg other,fun d _ => ?_⟩
    simp only [State.view,State.setCall,same,others j other]
    rfl

theorem Reaped.moves (wired : Wired s) (guard : good = true → NoLostReply label s) (reaped : Reaped s label s') :
    Moves good s s' := by
  cases reaped with
  | scan =>
    intro k c hk
    refine ⟨c,hk,view_seen (v := s.view k c) s.tids (.inr ?_)⟩
    exact lookup_map _ (seen_call s.tids) k s.pending
  | @reap before x after c idle split dead hk =>
    have member : some x ∈ s.pending := by simp [split]
    obtain ⟨gone,own⟩ := deadTid_gone wired member dead
    obtain ⟨c₀,hc₀,chan⟩ := wired.slot x member
    cases hk.symm.trans hc₀
    have slots := wired.slots
    rw [split] at slots
    rw [own]
    refine found_moves wired idle member hk chan gone ?_ ?_
    · exact (lookup_scanned slots s.tids x.call).1 rfl
    · intro j other
      rw [split]
      exact (lookup_scanned slots s.tids j).2 other
  | @answer k chan c found hk =>
    have answered : (Reaper.answered k chan).on k = .answered := by simp [Reaper.on]
    refine moves_reaper hk rfl (by rw [found]; rfl) (fun j other => by simp [found,Reaper.on,Ne.symm other]) ?_
    rw [answered]
    exact .reaper (.answer _ (by simp [State.view,found,Reaper.on]) rfl)
  | @answerFail k chan c found hk =>
    have answered : (Reaper.answered k chan).on k = .answered := by simp [Reaper.on]
    refine moves_reaper hk rfl (by rw [found]; rfl) (fun j other => by simp [found,Reaper.on,Ne.symm other]) ?_
    rw [answered]
    refine .reaper (.answerFail ?_ (by simp [State.view,found,Reaper.on]))
    by_contra isGood
    exact absurd (guard (by simpa using isGood)) (by simp [NoLostReply])
  | @reaperRelease k chan c answered hk =>
    refine moves_reaper hk rfl (by rw [answered]; rfl) ?_ ?_
    · intro j other
      simp [answered,Reaper.on,Ne.symm other]
    · exact .reaper (.reaperRelease (by simp [State.view,answered,Reaper.on]))
  | @forget chan dropped =>
    intro k c hk
    refine ⟨c,hk,?_⟩
    by_cases here : c.chan = chan
    · refine .inr (.reaper ?_)
      have move : ReaperStep good k (s.view k c) _ :=
        .forget (by simp [State.view,dropped,Reaper.chan,here])
      have lost : ¬0 < tidForChan (actorTidRemove s.tids chan) c.chan := by
        simp [removed_pos wired,here]
      simp only [State.view,dropped,Reaper.on,Reaper.chan,lost,decide_false] at move ⊢
      simpa using move
    · left
      simp [State.view,dropped,Reaper.on,Reaper.chan,removed_pos wired,here,Ne.symm here]

end ReaperMoves

theorem step_moves (wired : Wired s) (ok : ∀ k c, s.calls k = some c → Ok k (s.view k c))
    (guard : good = true → NoLostReply label s) (old : ∀ kind chan own, label ≠ .begin kind chan own)
    (stepped : step label s = some s') : Moves good s s' := by
  rcases step_stepped stepped with called | acted | reaped
  · exact called.moves wired ok guard old
  · exact acted.moves wired guard
  · exact reaped.moves wired guard

end Objective9c.Pending
