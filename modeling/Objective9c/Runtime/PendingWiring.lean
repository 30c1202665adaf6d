import Objective9c.Runtime.PendingMoves

/-! Every step of the completion machinery keeps its wiring: slots, messages and tids go
on pointing at the calls and actors they are for. -/
namespace Objective9c.Pending

open Option Table

section Wiring

variable {s : State}

theorem TidOk.mono (ok : TidOk s a tid started)
    (born : (s'.actors a).life = .unborn → (s.actors a).life = .unborn) : TidOk s' a tid started :=
  ⟨ok.1,fun st => ⟨(ok.2 st).1,fun unborn => (ok.2 st).2 (born unborn)⟩⟩

theorem Wired.withCalls (wired : Wired s)
    (kept : ∀ k c, s.calls k = some c → ∃ c', calls k = some c' ∧ c'.chan = c.chan)
    (ok : ∀ k c, calls k = some c → k < nextCall ∧
      (∀ tid started, c.pc = .looked tid started → TidOk s c.chan tid started) ∧
      ∀ tid, c.pc = .made tid → TidOk s c.chan tid false) : Wired { s with calls, nextCall } := by
  have keptOn {k : CallId} {a : ActorId} (there : ∃ c, s.calls k = some c ∧ c.chan = a) :
      ∃ c, calls k = some c ∧ c.chan = a := by
    obtain ⟨c,hk,rfl⟩ := there
    exact kept k c hk
  refine { wired with fresh := ?_, slot := ?_, looked := ?_, made := ?_, queue := ?_, work := ?_, reaper := ?_ }
  · exact fun k c hk => (ok k c hk).1
  · exact fun x member => keptOn (wired.slot x member)
  · exact fun k c tid started hk => (ok k c hk).2.1 tid started
  · exact fun k c tid hk => (ok k c hk).2.2 tid
  · exact fun a k queued => keptOn (wired.queue a k queued)
  · exact fun a k busy => ⟨keptOn (wired.work a k busy).1,(wired.work a k busy).2⟩
  · intro k on
    obtain ⟨c,hk⟩ := wired.reaper k on
    obtain ⟨c',there,_⟩ := kept k c hk
    exact ⟨c',there⟩

theorem Wired.setCall (wired : Wired s) (hk : s.calls k = some c) (chan : c'.chan = c.chan)
    (looked : ∀ tid started, c'.pc = .looked tid started → TidOk s c.chan tid started)
    (made : ∀ tid, c'.pc = .made tid → TidOk s c.chan tid false) : Wired (s.setCall k c') := by
  refine wired.withCalls ?_ ?_
  · intro j d hd
    by_cases here : j = k
    · subst here
      cases hk.symm.trans hd
      exact ⟨c',if_pos rfl,chan⟩
    · exact ⟨d,(if_neg here).trans hd,rfl⟩
  · intro j d hd
    by_cases here : j = k
    · subst here
      cases (if_pos rfl).symm.trans hd
      exact ⟨wired.fresh j c hk,chan ▸ looked,chan ▸ made⟩
    · have old : s.calls j = some d := (if_neg here).symm.trans hd
      exact ⟨wired.fresh j d old,fun tid started => wired.looked j d tid started old,fun tid => wired.made j d tid old⟩

theorem Wired.withPending (wired : Wired s) (slots : (keys Slot.call pending).Nodup)
    (members : ∀ x, some x ∈ pending → (∃ c, s.calls x.call = some c ∧ c.chan = x.chan) ∧
      TidOk s x.chan x.tid x.started) : Wired { s with pending } :=
  { wired with
    slots := slots
    slot := fun x member => (members x member).1
    slotTid := fun x member => (members x member).2 }

theorem Wired.withReaper {reaper : Reaper} (wired : Wired s)
    (on : ∀ k, reaper.on k ≠ .none → ∃ c, s.calls k = some c)
    (gone : ∀ a, reaper.chan = some a → (s.actors a).life = .gone) : Wired { s with reaper } :=
  { wired with reaper := on, reaperGone := gone }

theorem Wired.withTids {tids : List (Option ActorTid)} (wired : Wired s) (distinct : (keys ActorTid.chan tids).Nodup)
    (members : ∀ e, some e ∈ tids → e.tid = threadId e.chan ∧ (s.actors e.chan).life ≠ .unborn) :
    Wired { s with tids } :=
  { wired with tids := distinct, tid := members }

theorem Wired.setActor (wired : Wired s) (born : x.life = .unborn → (s.actors a).life = .unborn)
    (gone : (s.actors a).life = .gone → x.life = .gone) (closing : x.life = .closing → x.closed = true)
    (closed : x.closed = true → x.life = .closing ∨ x.life = .gone)
    (queue : ∀ k ∈ x.queue, ∃ c, s.calls k = some c ∧ c.chan = a) (once : x.queue.Nodup)
    (work : ∀ k, x.work.on k ≠ .absent → (∃ c, s.calls k = some c ∧ c.chan = a) ∧ k ∉ x.queue) :
    Wired (s.setActor a x) := by
  have born' (b : ActorId) : ((s.setActor a x).actors b).life = .unborn →
      (s.actors b).life = .unborn := by
    by_cases here : b = a
    · subst here; simpa using born
    · simp [here]
  have split {P : ActorId → Actor → Prop} (mine : P a x) (others : ∀ b, P b (s.actors b)) (b : ActorId) :
      P b ((s.setActor a x).actors b) := by
    by_cases here : b = a
    · subst here; simpa using mine
    · simpa [here] using others b
  refine { wired with slotTid := ?_, looked := ?_, made := ?_, tid := ?_, queue := ?_, queueOnce := ?_, work := ?_, reaperGone := ?_, closing := ?_, closed := ?_ }
  · intro y member
    exact (wired.slotTid y member).mono (born' _)
  · intro k c tid started hk pc
    exact (wired.looked k c tid started hk pc).mono (born' _)
  · intro k c tid hk pc
    exact (wired.made k c tid hk pc).mono (born' _)
  · intro e member
    exact ⟨(wired.tid e member).1,fun unborn => (wired.tid e member).2 (born' _ unborn)⟩
  · exact split (P := fun b y => ∀ k, k ∈ y.queue → ∃ c, s.calls k = some c ∧ c.chan = b) queue wired.queue
  · exact split (P := fun _ y => y.queue.Nodup) once wired.queueOnce
  · exact split (P := fun b y => ∀ k, y.work.on k ≠ .absent →
      (∃ c, s.calls k = some c ∧ c.chan = b) ∧ k ∉ y.queue) work wired.work
  · intro b watched
    have before := wired.reaperGone b watched
    by_cases here : b = a
    · subst here; simpa using gone before
    · simpa [here] using before
  · exact split (P := fun _ y => y.life = .closing → y.closed = true) closing wired.closing
  · exact split (P := fun _ y => y.closed = true → y.life = .closing ∨ y.life = .gone) closed wired.closed

theorem Wired.setWork (wired : Wired s) (kept : ∀ j, w.on j ≠ .absent → (s.actors a).work.on j ≠ .absent) :
    Wired (s.setActor a { s.actors a with work := w }) :=
  wired.setActor id id (wired.closing a) (wired.closed a) (wired.queue a) (wired.queueOnce a)
    fun k busy => wired.work a k (kept k busy)

theorem Wired.clearSlot (wired : Wired s) (k : CallId) : Wired { s with pending := (pendingTake k s.pending).1 } :=
  wired.withPending (wired.slots.sublist (clear_keys Slot.call k s.pending)) fun x member =>
    have old := ((clear_mem wired.slots).mp member).1
    ⟨wired.slot x old,wired.slotTid x old⟩

theorem Wired.removeTid (wired : Wired s) (a : ActorId) : Wired { s with tids := actorTidRemove s.tids a } :=
  wired.withTids (wired.tids.sublist (clear_keys ActorTid.chan a s.tids)) fun e member =>
    wired.tid e ((clear_mem wired.tids).mp member).1

/-- Slots may be dropped, and get the tid of their actor if it has started. -/
theorem Wired.rewriteSlots (wired : Wired s) (slots : (keys Slot.call pending).Nodup)
    (members : ∀ x, some x ∈ pending → ∃ y, some y ∈ s.pending ∧ x.call = y.call ∧ x.chan = y.chan ∧
      ((x.tid = y.tid ∧ x.started = y.started) ∨ (x.tid = threadId y.chan ∧ (s.actors y.chan).life ≠ .unborn))) :
    Wired { s with pending } := by
  refine wired.withPending slots fun x member => ?_
  obtain ⟨y,old,call,chan,tids⟩ := members x member
  refine ⟨call ▸ chan ▸ wired.slot y old,?_⟩
  rcases tids with ⟨tid,started⟩ | ⟨tid,born⟩
  · rw [chan,tid,started]
    exact wired.slotTid y old
  · rw [chan,tid]
    exact ⟨.inr rfl,fun _ => ⟨rfl,born⟩⟩

end Wiring

theorem msg_absent {x : Actor} (absent : x.msg k = .absent) : k ∉ x.queue ∧ x.work.on k = .absent := by
  unfold Actor.msg at absent
  split at absent
  next idle =>
    refine ⟨fun queued => ?_,idle⟩
    simp [queued] at absent
  next m busy => exact absurd absent busy

section Steps

variable {s s' : State}

theorem Wired.fresh_call (wired : Wired s) : s.calls s.nextCall = none := by
  cases there : s.calls s.nextCall with
  | none => rfl
  | some c => exact absurd (wired.fresh _ c there) (Nat.lt_irrefl _)

theorem begin_wired (wired : Wired s) (kind : Kind) (chan : ActorId) (own : Bool) :
    Wired { s.setCall s.nextCall (beginCall kind chan own) with nextCall := s.nextCall + 1 } := by
  refine wired.withCalls ?_ ?_
  · intro j d hd
    exact ⟨d,(if_neg (Nat.ne_of_lt (wired.fresh j d hd))).trans hd,rfl⟩
  · intro j d hd
    by_cases here : j = s.nextCall
    · subst here
      cases (if_pos rfl).symm.trans hd
      refine ⟨Nat.lt_succ_self _,?_,?_⟩
      · intro tid started pc
        cases kind <;> cases pc
      · intro tid pc
        cases kind with
        | sync => cases pc; exact ⟨.inl rfl,nofun⟩
        | task =>
          cases pc
          cases own
          · exact ⟨.inl rfl,nofun⟩
          · exact ⟨.inr rfl,nofun⟩
    · have old : s.calls j = some d := (if_neg here).symm.trans hd
      exact ⟨Nat.lt_succ_of_lt (wired.fresh j d old),fun tid started => wired.looked j d tid started old,
        fun tid => wired.made j d tid old⟩

theorem Wired.goto (wired : Wired s) (hk : s.calls k = some c) (chan : c'.chan = c.chan)
    (looked : ∀ tid started, c'.pc ≠ .looked tid started) (made : ∀ tid, c'.pc ≠ .made tid) :
    Wired (s.setCall k c') :=
  wired.setCall hk chan (fun tid started same => absurd same (looked tid started)) fun tid same => absurd same (made tid)

theorem Called.wired (wired : Wired s) (ok : ∀ k c, s.calls k = some c → Ok k (s.view k c))
    (called : Called s label s') : Wired s' := by
  cases called with
  | begin => exact begin_wired wired _ _ _
  | @lookup k c tid hk here =>
    refine wired.setCall hk (by split <;> rfl) ?_ nofun
    intro tid' started looked
    cases looked
    split
    next known => exact ⟨.inr (wired.tidForChan_eq known).1,fun _ => wired.tidForChan_eq known⟩
    next unknown => simpa [unknown] using wired.made k c tid hk here
  | @insert k c tid started pending hk here inserted =>
    have free : (s.view k c).slot = none := by
      simpa using ((ok k c hk).stage.early (.inr ⟨tid,started,here⟩)).1
    have absent : k ∉ keys Slot.call s.pending := lookup_none.mp free
    have after : Wired (s.setCall k { c.goto .listed with registered := true }) := wired.goto hk rfl nofun nofun
    refine after.withPending (insert_nodup wired.slots absent inserted) fun x member => ?_
    rcases (insert_mem inserted).mp member with rfl | old
    · exact ⟨⟨_,if_pos rfl,rfl⟩,wired.looked k c tid started hk here⟩
    · exact ⟨after.slot x old,after.slotTid x old⟩
  | @send k c hk here =>
    have absent : (s.actors c.chan).msg k = .absent := ((ok k c hk).stage.before here).2.1
    have after : Wired (s.setCall k { c.goto .sent with posted := true }) := wired.goto hk rfl nofun nofun
    obtain ⟨unqueued,free⟩ := msg_absent absent
    refine after.setActor id id (after.closing c.chan) (after.closed c.chan) ?_ ?_ ?_
    · intro j queued
      rcases List.mem_append.mp queued with old | new
      · exact after.queue c.chan j old
      · obtain rfl := List.mem_singleton.mp new
        exact ⟨_,if_pos rfl,rfl⟩
    · exact List.nodup_append.mpr ⟨wired.queueOnce c.chan,List.nodup_singleton k,by
        intro x old y new same
        obtain rfl := List.mem_singleton.mp new
        exact unqueued (same ▸ old)⟩
    · intro j busy
      obtain ⟨there,out⟩ := after.work c.chan j busy
      refine ⟨there,fun queued => ?_⟩
      rcases List.mem_append.mp queued with old | new
      · exact out old
      · obtain rfl := List.mem_singleton.mp new
        exact busy free
  | refuse hk | sendFail hk | receive hk =>
    exact wired.goto hk rfl (by intros; split <;> nofun) (by intros; split <;> nofun)
  | @complete k c hk =>
    have after : Wired (s.setCall k { c.touch.goto .completing with takes := c.takes + 1 }) :=
      wired.goto hk rfl nofun nofun
    exact after.clearSlot k
  | completed hk | releaseTaken hk | drop hk => exact wired.goto hk rfl nofun nofun

theorem Wired.updateCall (wired : Wired s) (hk : s.calls k = some c) (chan : c'.chan = c.chan)
    (pc : c'.pc = c.pc) : Wired (s.setCall k c') := by
  refine wired.setCall hk chan ?_ ?_
  · intro tid started looked
    exact wired.looked k c tid started hk (pc ▸ looked)
  · intro tid made
    exact wired.made k c tid hk (pc ▸ made)

theorem Wired.setGone (wired : Wired s) : Wired (s.setActor a { s.actors a with life := .gone }) := by
  refine wired.setActor ?_ ?_ ?_ ?_ (wired.queue a) (wired.queueOnce a) (wired.work a) <;> simp

theorem Acted.wired (wired : Wired s) (acted : Acted s label s') : Wired s' := by
  cases acted with
  | @enter a unborn =>
    have after : Wired (s.setActor a { s.actors a with life := .live }) := by
      refine wired.setActor (by simp) (by simp [unborn]) (by simp) ?_ (wired.queue a)
        (wired.queueOnce a) (wired.work a)
      intro closed
      rcases wired.closed a closed with h | h <;> simp [unborn] at h
    refine after.withTids (actorTidPut_keys wired.tids) ?_
    intro e member
    rcases actorTidPut_mem wired.tids member with rfl | ⟨old,_⟩
    · exact ⟨rfl,by simp⟩
    · exact after.tid e old
  | @accept a k rest live idle queue =>
    have once := wired.queueOnce a
    rw [queue] at once
    have later (j : CallId) (queued : j ∈ rest) : j ∈ (s.actors a).queue := by simp [queue,queued]
    refine wired.setActor id id (wired.closing a) (wired.closed a)
      (fun j queued => wired.queue a j (later j queued)) (List.nodup_cons.mp once).2 ?_
    intro j busy
    obtain rfl : k = j := by by_contra other; simp [Work.on,other] at busy
    exact ⟨wired.queue a k (by simp [queue]),(List.nodup_cons.mp once).1⟩
  | @take a k c c' running alive hk read =>
    refine (Wired.clearSlot (Wired.setWork (wired.updateCall hk ?_ ?_) ?_) k)
    · rw [read]
      split <;> split <;> rfl
    · rw [read]
      split <;> split <;> rfl
    · intro j busy
      simpa [running,Work.on] using busy
  | reply taken hk =>
    refine Wired.setWork (wired.updateCall hk rfl rfl) ?_
    intro j busy
    simpa [taken,Work.on] using busy
  | releaseReplied replied hk =>
    refine Wired.setWork (wired.updateCall hk ?_ ?_) ?_
    · split <;> rfl
    · split <;> rfl
    · intro j busy
      exact absurd rfl busy
  | @cleanup a live =>
    have after : Wired (s.setActor a { s.actors a with life := .leaving }) := by
      have closed := wired.closed a
      rw [live] at closed
      refine wired.setActor ?_ ?_ ?_ ?_ (wired.queue a) (wired.queueOnce a) (wired.work a) <;> simp_all
    exact after.removeTid a
  | @chanclose a leaving =>
    refine wired.setActor ?_ ?_ ?_ ?_ (wired.queue a) (wired.queueOnce a) (wired.work a) <;> simp [leaving]
  | exit | crash => exact wired.setGone

theorem seen_tid (wired : Wired s) (x : Slot) :
    ((seen s.tids x).tid = x.tid ∧ (seen s.tids x).started = x.started) ∨
      ((seen s.tids x).tid = threadId x.chan ∧ (s.actors x.chan).life ≠ .unborn) := by
  rcases seen_cases s.tids x with same | ⟨known,new⟩
  · exact .inl ⟨by rw [same],by rw [same]⟩
  · rw [new]
    exact .inr (wired.tidForChan_eq known)

theorem Wired.mapSlots (wired : Wired s) (call : ∀ x, (f x).call = x.call)
    (tids : ∀ x, (f x).chan = x.chan ∧ (((f x).tid = x.tid ∧ (f x).started = x.started) ∨
      ((f x).tid = threadId x.chan ∧ (s.actors x.chan).life ≠ .unborn))) :
    Wired { s with pending := s.pending.map (Option.map f) } := by
  refine wired.rewriteSlots ?_ ?_
  · rw [keys_map _ call]
    exact wired.slots
  · intro x member
    obtain ⟨e,there,eq⟩ := List.mem_map.mp member
    obtain ⟨y,rfl,rfl⟩ := map_eq_some_iff.mp eq
    exact ⟨y,there,call y,tids y⟩

theorem scanned_keys (before after : List (Option Slot)) (x : Slot) :
    (keys Slot.call (before.map (Option.map (seen tids)) ++ none :: after)).Sublist
      (keys Slot.call (before ++ some x :: after)) := by
  have first := keys_map (seen tids) (seen_call tids) before
  simp only [keys,List.filterMap_append] at first ⊢
  rw [first]
  exact (List.Sublist.refl _).append (by simp)

theorem Wired.takeSlot (wired : Wired s) (split : s.pending = before ++ some x :: after) :
    Wired { s with pending := before.map (Option.map (seen s.tids)) ++ none :: after } := by
  have slots := wired.slots
  rw [split] at slots
  refine wired.rewriteSlots (slots.sublist (scanned_keys before after x)) ?_
  intro y member
  simp only [List.mem_append,List.mem_cons,reduceCtorEq,false_or] at member
  rcases member with first | rest
  · obtain ⟨e,there,eq⟩ := List.mem_map.mp first
    obtain ⟨z,rfl,rfl⟩ := map_eq_some_iff.mp eq
    exact ⟨z,by simp [split,there],seen_call s.tids z,seen_chan s.tids z,seen_tid wired z⟩
  · exact ⟨y,by simp [split,rest],rfl,rfl,.inl ⟨rfl,rfl⟩⟩

theorem Wired.markSlots (wired : Wired s) (gone : (s.actors a).life = .gone) :
    Wired { s with pending := reaperMark a (threadId a) s.pending } := by
  have marked : reaperMark a (threadId a) s.pending =
      s.pending.map (Option.map (mark a (threadId a))) := if_pos (threadId_pos a)
  rw [marked]
  refine wired.mapSlots (mark_call a (threadId a)) fun y => ?_
  by_cases here : y.chan = a
  · simp [mark,here,gone]
  · simp [mark,here]

theorem Wired.answered (wired : Wired s) (hk : s.calls k = some c) (found : s.reaper = .found k chan)
    (same : c'.chan = c.chan) (pc : c'.pc = c.pc) : Wired { s.setCall k c' with reaper := .answered k chan } := by
  have wired := wired.updateCall hk same pc
  refine wired.withReaper ?_ ?_
  · intro j on
    refine wired.reaper j ?_
    simpa [found,Reaper.on] using on
  · intro a watched
    exact wired.reaperGone a (by rw [← watched]; simp [found,Reaper.chan])

theorem Reaped.wired (wired : Wired s) (reaped : Reaped s label s') : Wired s' := by
  cases reaped with
  | scan => exact wired.mapSlots (seen_call s.tids) fun x => ⟨seen_chan s.tids x,seen_tid wired x⟩
  | @reap before x after c idle split dead hk =>
    obtain ⟨gone,own⟩ := deadTid_gone wired (by simp [split]) dead
    rw [own]
    have taken : Wired (s.setCall x.call { c with takes := c.takes + 1 }) := wired.updateCall hk rfl rfl
    refine Wired.withReaper ((taken.takeSlot split).markSlots (a := x.chan) gone) ?_ ?_
    · intro k on
      obtain rfl : x.call = k := by by_contra other; simp [Reaper.on,other] at on
      exact ⟨_,if_pos rfl⟩
    · rintro a watched
      cases watched
      exact gone
  | answer found hk | answerFail found hk => exact wired.answered hk found rfl rfl
  | @reaperRelease k chan c answered hk =>
    have after : Wired (s.setCall k c.release) := wired.updateCall hk rfl rfl
    refine after.withReaper (fun j on => absurd rfl on) ?_
    intro a watched
    exact wired.reaperGone a (by rw [← watched,answered]; rfl)
  | forget =>
    exact (wired.removeTid _).withReaper (fun j on => absurd rfl on) (by simp [Reaper.chan])

end Steps

theorem step_wired (wired : Wired s) (ok : ∀ k c, s.calls k = some c → Ok k (s.view k c))
    (stepped : step label s = some s') : Wired s' := by
  rcases step_stepped stepped with called | acted | reaped
  · exact called.wired wired ok
  · exact acted.wired wired
  · exact reaped.wired wired

end Objective9c.Pending
