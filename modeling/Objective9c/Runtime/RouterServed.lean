import Objective9c.Runtime.RouterPairing

/-! Completion of the router's requests: none is completed twice, and when no step loses
one and nothing moves any more, each accepted request has been completed. -/
namespace Objective9c.Router

open Transition List Option

/-- What a run that loses no request keeps. -/
structure Settling (s : State) : Prop where
  placed : Placed s
  paired : Paired s
  served : Served s

theorem run_settling (meets : Meets step NoLostRequest labels initial)
    (ran : run step labels initial = some s) : Settling s := by
  have kept : Placed s ∧ Held True s := run_invariant_of_meets (fun s => Placed s ∧ Held True s)
    (fun _ _ _ both guard stepped =>
      ⟨step_placed both.1 stepped,step_held both.2 both.1 guard.orderly (fun _ => guard) stepped⟩)
    labels initial s meets ⟨initial_placed,initial_paired,fun _ => initial_served⟩ ran
  exact ⟨kept.1,kept.2.paired,kept.2.served trivial⟩

/-- The steps that are bound to be taken: requests, unregistrations and the end of an actor
may stay away, but what has begun goes on. -/
def Label.internal : Label → Bool
  | .submit _ _ _ | .unregister _ | .quit _ => false
  | _ => true

def Quiescent (s : State) : Prop := ∀ label, label.internal = true → step label s = none

section Quiet

variable {s : State}

section

variable (quiet : Quiescent s)

include quiet

theorem Quiescent.unlocked (placed : Placed s) : s.lock = .free := by
  cases lock : s.lock with
  | free => rfl
  | submitting r k =>
    obtain ⟨⟨m,box⟩,_⟩ := placed.submitting r k lock
    have blocked := quiet (.spawn true) rfl
    simp only [step,spawnStep,lock,box] at blocked
    repeat' split at blocked
    all_goals contradiction
  | draining k =>
    obtain ⟨m,box⟩ := placed.draining k lock
    have blocked := quiet .drain rfl
    simp only [step,drainStep,lock,box] at blocked
    split at blocked <;> contradiction

theorem Quiescent.actor (paired : Paired s) (d : ChanId) :
    (s.actors d).serving = none ∧ ((s.actors d).queue = [] ∨ (s.actors d).phase = .closed) := by
  have idle : (s.actors d).serving = none := by
    cases busy : (s.actors d).serving with
    | none => rfl
    | some msg =>
      have phase := paired.serving d (by simp [busy])
      obtain ⟨_,_,m,_,_,box,empty⟩ := paired.messages d msg phase (by simp [busy])
      have blocked := quiet (.reply d none 0) rfl
      simp [step,replyStep,busy,box,empty] at blocked
  refine ⟨idle,?_⟩
  cases phase : (s.actors d).phase with
  | running =>
    cases queue : (s.actors d).queue with
    | nil => exact .inl rfl
    | cons =>
      have blocked := quiet (.serve d) rfl
      simp [step,serveStep,phase,idle,queue] at blocked
  | quitting =>
    have blocked := quiet (.chanclose d) rfl
    simp [step,chancloseStep,phase] at blocked
  | closed => exact .inr rfl

theorem Quiescent.worker (inv : Settling s) (here : s.workers w = some ⟨k,pc⟩) : pc.live = false := by
  obtain ⟨m,box⟩ := inv.placed.mailbox w k pc here
  have free := quiet.unlocked inv.placed
  have blocked : workerStep s w k m true pc = none := by
    have := quiet (.work w true) rfl
    simpa only [step,workStep,here,box] using this
  cases pc with
  | dead | faulted => rfl
  | send =>
    exfalso
    simp only [workerStep,sendStep] at blocked
    split at blocked
    · contradiction
    next d _ =>
      obtain ⟨_,empty | closed⟩ := quiet.actor inv.paired d
      · simp only [empty,length_nil,Pending.dispatchCap] at blocked
        split at blocked <;> simp at blocked
      · simp [closed] at blocked
  | recv slot d =>
    exfalso
    have empty : m.replyc = [] := by
      cases replyc : m.replyc with
      | nil => rfl
      | cons => simp [workerStep,replyc] at blocked
    obtain ⟨idle,done⟩ := quiet.actor inv.paired d
    rcases inv.served.waits w k slot d m here box empty with busy | ⟨queued,opened⟩
    · rw [idle] at busy
      cases busy
    · rcases done with nothing | closed
      · simp [nothing] at queued
      · exact opened closed
  | _ =>
    exfalso
    simp only [workerStep,free,↓reduceIte] at blocked
    repeat' split at blocked
    all_goals contradiction

theorem Quiescent.finished (inv : Settling s)
    (accepted : (s.requests r).status = .accepted) : (s.requests r).place = .finished := by
  cases place : (s.requests r).place with
  | finished => rfl
  | outside => exact absurd place (inv.placed.accepted r accepted)
  | dropped => exact absurd place (inv.served.kept r (by rw [accepted]; nofun))
  | held w =>
    obtain ⟨k,pc,slot,here,holds,_⟩ := inv.placed.held r w place
    have dead := quiet.worker inv here
    cases pc <;> simp [Pc.live,Pc.slot] at dead holds
  | queued k =>
    have waiting := (inv.placed.queued r k).mp place
    cases box : s.mailboxes k with
    | none => simp [State.waiting,box] at waiting
    | some m =>
      exfalso
      have full : m.ring ≠ [] := by
        rintro empty
        simp [State.waiting,box,empty] at waiting
      have marked : m.workerRunning = true := by
        by_contra idle
        rcases inv.placed.idleEmpty k m box (Bool.eq_false_iff.mpr idle) with empty | ⟨_,lock,_⟩
        · exact full empty
        · rw [quiet.unlocked inv.placed] at lock
          cases lock
      obtain ⟨w,pc,here,loop⟩ := inv.served.alive k m box marked
      have dead := quiet.worker inv here
      rw [Pc.live_of_inLoop loop] at dead
      contradiction

end

end Quiet

section Untouched

variable {s s' : State} {d : ChanId} {entries : List ObjEntry}

theorem mem_modify (member : e ∈ entries.modify i f) : ∃ e' ∈ entries, e = e' ∨ e = f e' := by
  obtain ⟨j,here⟩ := mem_iff_getElem?.mp member
  rw [getElem?_modify] at here
  obtain ⟨e',there,rfl⟩ := map_eq_some_iff.mp here
  refine ⟨e',mem_of_getElem? there,?_⟩
  split
  · exact .inr rfl
  · exact .inl rfl

/-- No object is served through the channel `d`. -/
def Unused (entries : List ObjEntry) (d : ChanId) : Prop := ∀ e ∈ entries, e.chan ≠ some d

theorem Unused.modify (unused : Unused entries d)
    (other : ∀ e, (f e).chan ≠ some d ∨ (f e).chan = e.chan) : Unused (entries.modify i f) d := by
  intro e member
  obtain ⟨e',there,rfl | rfl⟩ := mem_modify member
  · exact unused e there
  · rcases other e' with new | same
    · exact new
    · rw [same]; exact unused e' there

theorem Unused.register (unused : Unused entries d) (key : Key) (other : chan ≠ d) :
    Unused (objtabRegister entries key chan).1 d := by
  fun_cases objtabRegister entries key chan with
  | case1 => exact unused.modify fun e => .inl (by simpa using other)
  | case2 =>
    intro e member
    rcases mem_or_eq_of_mem_set member with old | rfl
    · exact unused e old
    · simpa using other
  | case3 =>
    intro e member
    rcases mem_append.mp member with old | new
    · exact unused e old
    · obtain rfl := mem_singleton.mp new
      simpa using other
  | case4 => exact unused

theorem Unused.unregister (unused : Unused entries d) : Unused (objtabUnregister entries key) d := by
  unfold objtabUnregister
  split
  · exact unused.modify fun e => .inl nofun
  · exact unused

theorem Unused.choose (unused : Unused s.entries d) (key : Key) (handle : Handle) (allocated : Bool) :
    Unused (chooseMailbox s key handle allocated).1 d := by
  unfold chooseMailbox
  split
  · exact unused
  · split
    · exact unused.modify fun e => .inr rfl
    · exact unused

/-- The labels that can make something happen to the actor of the channel `d`. -/
def Label.names (d : ChanId) : Label → Prop
  | .submit _ chan _ => chan = some d
  | .serve e | .reply e _ _ | .quit e | .chanclose e => e = d
  | _ => False

/-- An actor nobody has ever addressed. -/
def Untouched (s : State) (d : ChanId) : Prop :=
  s.actors d = ⟨.running,[],none⟩ ∧ Unused s.entries d

section

variable (untouched : Untouched s d)

include untouched

theorem Untouched.setActor (other : e ≠ d) : Untouched (s.setActor e x) d :=
  ⟨by simpa [Ne.symm other] using untouched.1,untouched.2⟩

theorem enqueue_untouched (stepped : enqueueStep s r allocated = some s') : Untouched s' d := by
  revert stepped
  fun_cases enqueueStep s r allocated <;> rintro ⟨⟩
  case case1 => exact untouched
  case case2 key handle _ _ entries k m chosen _ _ | case3 key handle _ _ entries k m chosen _ =>
    have table := untouched.2.choose key handle allocated
    rw [chosen] at table
    exact ⟨untouched.1,table⟩

theorem work_untouched (move : WorkerMove s w k m created pc s') : Untouched s' d := by
  cases move with
  | send slot e found =>
    have other : e ≠ d := by
      rintro rfl
      obtain ⟨entry,there,chan⟩ := bind_eq_some_iff.mp found
      exact untouched.2 entry (mem_of_getElem? there) chan
    exact untouched.setActor other
  | leave => fun_cases leaveStep s w k m created <;> exact untouched
  | _ => exact untouched

theorem step_untouched (other : ¬label.names d) (stepped : step label s = some s') : Untouched s' d := by
  cases step_stepped stepped with
  | refused table =>
    refine ⟨untouched.1,?_⟩
    obtain rfl | ⟨e,rfl,rfl⟩ := table
    · exact untouched.2
    · exact untouched.2.register _ fun same => other (congrArg some same)
  | @entered key e _ _ entries registered =>
    have table := untouched.2.register key fun same : e = d => other (congrArg some same)
    rw [registered] at table
    exact ⟨untouched.1,table⟩
  | enqueued moved => exact enqueue_untouched untouched moved
  | spawned moved =>
    simp only [spawnStep] at moved
    repeat' split at moved
    all_goals first | contradiction | (cases moved; exact untouched)
  | worked _ _ move => exact work_untouched untouched move
  | unregistered => exact ⟨untouched.1,untouched.2.unregister⟩
  | served | quits | chanclosed => exact untouched.setActor other
  | replied => exact Untouched.setActor untouched other
  | _ => exact untouched

end

theorem run_untouched (never : ∀ label ∈ labels, ¬label.names d)
    (ran : run step labels initial = some s) : (s.actors d) = ⟨.running,[],none⟩ := by
  have untouched : Untouched s d :=
    run_invariant_of_meets (fun s => Untouched s d)
      (fun _ _ _ untouched other stepped => step_untouched untouched other stepped) labels initial s
      (meets_of_labels labels initial fun label member _ => never label member) ⟨rfl,nofun⟩ ran
  exact untouched.1

end Untouched

/-- What a run with one actor and one worker leaves behind. -/
structure Outcome where
  requests : List Request
  workers : List (Option Worker)
  actor : Actor
  unregs : List Key
  lock : Lock
  deriving DecidableEq

def State.outcome (s : State) : Outcome :=
  ⟨(List.range s.nextReq).map s.requests,(List.range s.nextWorker).map s.workers,s.actors 0,s.unregs,
    s.lock⟩

theorem State.outcome_request {s : State} (known : s.outcome.requests[r]? = some q) : s.requests r = q := by
  simp only [State.outcome,getElem?_map,map_eq_some_iff] at known
  obtain ⟨_,found,rfl⟩ := known
  rw [List.getElem?_range (by simpa using (List.getElem?_eq_some_iff.mp found).1)] at found
  cases found
  rfl

theorem quiescent_of_outcome (ran : run step labels initial = some s)
    (alone : ∀ label ∈ labels, ∀ d, label.names d → d = 0)
    (last : s.outcome = ⟨requests,workers,⟨.running,[],none⟩,[],.free⟩)
    (accepted : ∀ q ∈ requests, q.status = .accepted)
    (dead : ∀ v ∈ workers, v = some ⟨someKey,.dead⟩) : Quiescent s := by
  have placed := run_placed ran
  simp only [State.outcome,Outcome.mk.injEq] at last
  obtain ⟨rfl,rfl,actor,unregs,lock⟩ := last
  have actors (d : ChanId) : s.actors d = ⟨.running,[],none⟩ := by
    by_cases here : d = 0
    · exact here ▸ actor
    · exact run_untouched (fun label member names => here (alone label member d names)) ran
  have settled (r : ReqId) (key : Key) (handle : Handle) :
      (s.requests r).status ≠ .entering key handle := by
    by_cases known : r < s.nextReq
    · rw [accepted (s.requests r) (mem_map_of_mem (mem_range.mpr known))]
      nofun
    · rw [placed.newRequest r (Nat.le_of_not_lt known)]
      nofun
  have gone (w : WorkerId) : s.workers w = none ∨ s.workers w = some ⟨someKey,.dead⟩ := by
    by_cases known : w < s.nextWorker
    · exact .inr (dead (s.workers w) (mem_map_of_mem (mem_range.mpr known)))
    · exact .inl (placed.newWorker w (Nat.le_of_not_lt known))
  intro label internal
  cases label with
  | submit | unregister | quit => contradiction
  | enqueue r =>
    simp only [step,enqueueStep]
    split
    next key handle _ entering => exact absurd entering (settled r key handle)
    next => rfl
  | spawn => simp [step,spawnStep,lock]
  | work w =>
    rcases gone w with missing | exited
    · simp [step,workStep,missing]
    · simp only [step,workStep,exited]
      split <;> rfl
  | close => simp [step,closeStep,unregs]
  | drain => simp [step,drainStep,lock]
  | serve d => simp [step,serveStep,actors d]
  | reply d => simp [step,replyStep,actors d]
  | chanclose d => simp [step,chancloseStep,actors d]

/-- In every run a request is completed at most once; if moreover no step loses a request,
then once nothing moves each accepted request has been completed. -/
theorem requests_completed_once (ran : run step labels initial = some s) :
    (∀ r, (s.requests r).status = .accepted → (s.requests r).done.length ≤ 1) ∧
      (Meets step NoLostRequest labels initial → Quiescent s →
        ∀ r, (s.requests r).status = .accepted → (s.requests r).done.length = 1) := by
  have placed := run_placed ran
  have count (r : ReqId) (accepted : (s.requests r).status = .accepted) :=
    placed.done r (by rw [accepted]; nofun)
  refine ⟨fun r accepted => ?_,fun meets quiet r accepted => ?_⟩
  · rw [count r accepted]
    split <;> decide
  · rw [count r accepted,if_pos (quiet.finished (run_settling meets ran) accepted)]

/-- A served request, after which the worker runs idle and exits. -/
def settledRequest : List Label :=
  servedRequest ++ works 0 (2 + 2 * maxIdle + 3 + 1)

theorem settledRequest_end : (run step settledRequest initial).map State.outcome = some
    ⟨[⟨.accepted,.finished,[some ⟨0,none,7⟩]⟩],[some ⟨someKey,.dead⟩],⟨.running,[],none⟩,[],.free⟩ := by
  decide

/-- The condition on a worker's step, computed. -/
def workLosesNothing : Label → State → Bool
  | .work w created, s =>
    match s.workers w with
    | none => true
    | some v =>
      match s.mailboxes v.mb,v.pc with
      | some m,.checkIdle (some _) => !m.closed
      | some m,.leaving _ => m.closed || m.ring.isEmpty || created
      | some _,pc => pc.uses.all fun slot => (s.dispatchChan slot).isSome
      | none,_ => true
  | .spawn _, _ | .serve _, _ | .reply _ _ _, _ => true
  | _, _ => false

theorem workLosesNothing_sound (label : Label) (s : State) (checked : workLosesNothing label s = true) :
    NoLostRequest label s := by
  cases label with
  | work =>
    intro k pc m here box
    simp only [workLosesNothing,here,box] at checked
    refine ⟨?_,?_,?_⟩
    · rintro slot rfl
      simpa using checked
    · rintro idle rfl opened pending
      simpa [opened,pending] using checked
    · intro slot uses
      cases pc with
      | closing | send =>
        cases uses
        exact isSome_iff_ne_none.mp (by simpa [Pc.uses] using checked)
      | _ => cases uses
  | spawn | serve | reply => trivial
  | submit | enqueue | unregister | close | drain | quit | chanclose => simp [workLosesNothing] at checked

theorem settledRequest_meets : Meets step NoLostRequest settledRequest initial := by
  refine ⟨trivial,fun s₁ first => ⟨?_,fun s₂ second => ?_⟩⟩
  · cases first
    nofun
  · cases first
    cases second
    exact meets_of_checks workLosesNothing_sound _ _ (by decide +kernel)

theorem settledRequest_completed : ∃ s, run step settledRequest initial = some s ∧
    Meets step NoLostRequest settledRequest initial ∧ Quiescent s ∧
    (s.requests 0).done.length = 1 := by
  obtain ⟨s,ran,last⟩ := map_eq_some_iff.mp settledRequest_end
  have quiet : Quiescent s := quiescent_of_outcome ran
    (by simp [settledRequest,servedRequest,submitted,works,answered,Label.names]) last (by decide) (by decide)
  have accepted : (s.requests 0).status = .accepted := by
    rw [State.outcome_request (by rw [last]; rfl)]
  exact ⟨s,ran,settledRequest_meets,quiet,
    (requests_completed_once ran).2 settledRequest_meets quiet 0 accepted⟩

/-- A worker that idles takes the second request, and the actor is unregistered before the
worker looks at its mailbox again. -/
def droppedRequest : List Label :=
  servedRequest ++ works 0 3 ++ submitted 1 ++
    [.work 0 true,.unregister someKey,.close someKey,.drain,.work 0 true,.work 0 true]

theorem droppedRequest_end : (run step droppedRequest initial).map State.outcome = some
    ⟨[⟨.accepted,.finished,[some ⟨0,none,7⟩]⟩,⟨.accepted,.dropped,[]⟩],[some ⟨someKey,.dead⟩],
      ⟨.running,[],none⟩,[],.free⟩ := by
  decide

/-- An accepted request may never be completed. -/
theorem dropped_request_never_completed : ¬∀ labels s, run step labels initial = some s →
    (∀ r, (s.requests r).status = .accepted → (s.requests r).done.length ≤ 1) ∧
      (Quiescent s → ∀ r, (s.requests r).status = .accepted → (s.requests r).done.length = 1) := by
  intro all
  obtain ⟨s,ran,last⟩ := map_eq_some_iff.mp droppedRequest_end
  have quiet : Quiescent s := quiescent_of_outcome ran
    (by simp [droppedRequest,servedRequest,submitted,works,answered,Label.names]) last (by decide) (by decide)
  have second : s.requests 1 = ⟨.accepted,.dropped,[]⟩ :=
    State.outcome_request (by rw [last]; rfl)
  have completed := (all droppedRequest s ran).2 quiet 1 (by rw [second])
  rw [second] at completed
  contradiction

/-- The worker has taken the request out of a ring and not let it go. -/
def State.Holds (s : State) (w : WorkerId) (r : ReqId) : Prop :=
  ∃ k pc slot, s.workers w = some ⟨k,pc⟩ ∧ pc.slot = some slot ∧ slot.req = r

/-- Whatever is unregistered in between, a request is in one ring, once, or with one worker or in neither, as once it
was answered; and outside the critical sections a ring with requests is open, `worker_running` set. -/
theorem request_in_one_place (ran : run step labels initial = some s) (r : ReqId) :
    (∃ place : Place, (∀ k, r ∈ s.waiting k ↔ place = .queued k) ∧ (∀ w, s.Holds w r ↔ place = .held w) ∧
      ((s.requests r).status = .accepted → (s.requests r).done ≠ [] → place = .finished)) ∧
    ∀ k m, s.mailboxes k = some m → (s.waiting k).Nodup ∧
      (s.lock = .free → m.ring ≠ [] → m.workerRunning = true ∧ m.closed = false) := by
  have placed := run_placed ran
  refine ⟨⟨(s.requests r).place,fun k => (placed.queued r k).symm,fun w => ⟨?_,placed.held r w⟩,?_⟩,
    fun k m box => ⟨placed.ringOnce k,fun free waits => ⟨?_,?_⟩⟩⟩
  · rintro ⟨k,pc,slot,here,has,rfl⟩
    exact placed.withWorker w k pc slot here has
  · intro accepted answered
    by_contra other
    have none := placed.done r (by simp [accepted])
    rw [if_neg other,length_eq_zero_iff] at none
    exact answered none
  · by_contra stopped
    obtain empty | ⟨_,busy,_⟩ := placed.idleEmpty k m box (by simpa using stopped)
    · exact waits empty
    · simp [free] at busy
  · by_contra closed
    obtain empty | busy := placed.closedEmpty k m box (by simpa using closed)
    · exact waits empty
    · simp [free] at busy

/-- A second request comes in while the worker has the first one. -/
def twoRequests : List Label := submitted 0 ++ List.replicate 3 (.work 0 true) ++ submitted 1

theorem twoRequests_end : (run step twoRequests initial).map (fun s => (s.workers 0,s.mailboxes someKey,s.lock)) =
    some (some ⟨someKey,.channel ⟨0,1,0⟩⟩,some ⟨[],[⟨1,1,0⟩],true,false,false,0⟩,.free) := by
  decide

theorem twoRequests_in_one_place : ∃ s, run step twoRequests initial = some s ∧
    (∀ w, s.Holds w 0 ↔ w = 0) ∧ (∀ k, 0 ∉ s.waiting k) ∧
    ∃ m, s.mailboxes someKey = some m ∧ m.ring = [⟨1,1,0⟩] ∧ m.workerRunning = true ∧ m.closed = false := by
  obtain ⟨s,ran,last⟩ := Option.map_eq_some_iff.mp twoRequests_end
  simp only [Prod.mk.injEq] at last
  obtain ⟨worker,box,free⟩ := last
  obtain ⟨⟨place,queued,held,-⟩,boxes⟩ := request_in_one_place ran 0
  obtain rfl : place = .held 0 := (held 0).mp ⟨someKey,_,_,worker,rfl,rfl⟩
  refine ⟨s,ran,fun w => (held w).trans ⟨?_,?_⟩,fun k waits => ?_,_,box,rfl,(boxes someKey _ box).2 free (by simp)⟩
  · rintro ⟨⟩
    rfl
  · rintro rfl
    rfl
  · cases (queued k).mp waits

end Objective9c.Router
