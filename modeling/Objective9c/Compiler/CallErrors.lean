import Mathlib.Data.List.Basic

/-! The call error. Every thread has one, each way to call a method leaves one behind, and the check that is
written out for a `try` reads it. -/
namespace Objective9c.CallErrors

open Option

section Wrappers

/-- What `o9_get_call_err` gives. -/
abbrev CallErr := Option String

/-- A reply: its error, and the size of the value it brings in a buffer. -/
structure Reply where
  err : Option String := none
  buf : Option Nat := none
  deriving DecidableEq

/-- The result type of a method; `copied` are those of `type_needs_reply_copy`. -/
inductive Ret where
  | void
  | value
  | double
  | copied (size : Nat)
  deriving DecidableEq

/-- The control thunk, behind the call of the method (`gen_ctrl_reply_store`). -/
def ctrlReplyStore (r : Reply) : CallErr :=
  match r.err with
  | some err => some err
  | none => none

@[simp] def selfReplyValue (ret : Ret) (r : Reply) : CallErr :=
  match ret, r.err with
  | _, some err => some err
  | .copied size, none =>
    match r.buf with
    | none => some "object method returned no handle data"
    | some retsz => if retsz > size then some "object method returned no handle data" else none
  | _, none => none

/-- The wrapper of `gen_method_self_artifact`, with the call error that the method has left. -/
def methodSelf (ret : Ret) (r : Reply) (callErr : CallErr) : CallErr :=
  match ret with
  -- only the error string of the thread is set
  | .void => callErr
  | _ => selfReplyValue ret r

/-- `obj9_msgSendN`, `obj9_msgSendDoubleN`, `obj9_msgSendObjectN` and `obj9_msgSendStructN`. -/
inductive Send where
  | value
  | double
  | object (outsiz : Nat)
  | struct (outsiz : Nat)
  deriving DecidableEq

def Send.badDestination : Send → Option String
  | .value | .double => none
  | .object _ => some "bad object return destination"
  | .struct _ => some "bad struct return destination"

def Send.localOnly : Send → String
  | .value | .double => "object method dispatch is local-only"
  | .object _ => "object returns are local-only"
  | .struct _ => "struct returns are local-only"

/-- What a send meets; `dag` is the error that `o9_dag_call_begin` puts into the context. -/
structure Attempt where
  destination : Bool
  chan : Bool
  closing : Bool
  stale : Bool
  dag : Option String
  memory : Bool
  pending : Bool
  sent : Bool
  replied : Bool
  deriving DecidableEq

def Attempt.refusal (send : Send) (a : Attempt) : Option String :=
  match send.badDestination, a.destination with
  | some text, false => some text
  | _, _ =>
    if !a.chan then some send.localOnly
    else if a.closing then some "stale object handle"
    else if a.stale then some "stale object handle"
    else match a.dag with
      | some text => some text
      | none =>
        if !a.memory then some "out of memory"
        else if !a.pending then some "too many pending calls"
        else if !a.sent then some "stale object handle"
        else none

/-- A reply that brings a value of at most that size. -/
def received (noData oversized : String) (outsiz : Nat) (r : Reply) : CallErr :=
  match r.err with
  | some err => some err
  | none =>
    match r.buf with
    | none => some noData
    | some retsz => if retsz = 0 then some noData else if retsz > outsiz then some oversized else none

def Send.received : Send → Option Reply → CallErr
  | _, none => some "object method produced no reply"
  | .value, some r | .double, some r =>
    match r.err with
    | some err => some err
    | none => none
  | .object outsiz, some r =>
    CallErrors.received "object method returned no handle data" "object method returned oversized handle" outsiz r
  | .struct outsiz, some r =>
    CallErrors.received "object method returned no struct data" "object method returned oversized struct" outsiz r

end Wrappers

section Tries

/-- Where a `try` stands: on the whole value of a declaration, a statement, a `return` or an assignment, or inside of
something. An assignment has a check if it is to an identifier of a class type, or of a struct type from a message. -/
inductive Target where
  | struct
  | object
  | other
  deriving DecidableEq

inductive Place where
  | declared
  | statement
  | returned
  | assigned (target : Target) (message : Bool)
  | inner
  deriving DecidableEq

/-- The places where `gen_try_check` is written out. -/
def Place.checked : Place → Bool
  | .declared | .statement | .returned => true
  | .assigned .struct message => message
  | .assigned .object _ => true
  | .assigned .other _ => false
  | .inner => false

end Tries

section Runs

/-- The ways to call a method. A channel leads to another thread, which has a call error of its own. -/
inductive Via where
  | self (ret : Ret)
  | ctrl
  | channel (send : Send) (attempt : Attempt) (own : CallErr)
  deriving DecidableEq

/-- A call as it is written, and whether it has a `try`. -/
structure Form where
  via : Via
  tried : Option Place
  deriving DecidableEq

def Form.checked (form : Form) : Bool := form.tried.any Place.checked

/-- What a method body comes to, with the methods it calls: calls, and at the end a `fail`, a `return` or the end of
the body. A statement that is no method call leaves any call error. -/
inductive Run where
  | done
  | call (form : Form) (body defers rest : Run)
  | fail (error : String)
  | ret (size : Option Nat)
  | super (body defers rest : Run)
  | other (callErr : CallErr) (rest : Run)

/-- A call that has returned: what its callee replied, the call error after it, and the error its `try` has
raised. -/
structure Event where
  tried : Bool
  reply : Option Reply
  after : CallErr
  raised : Option String
  deriving DecidableEq

structure Outcome where
  callErr : CallErr
  reply : Reply
  log : List Event
  deriving DecidableEq

def Form.settle (form : Form) (reply : Option Reply) (after : CallErr) (log : List Event) (r : Reply)
    (rest : CallErr → Reply → Outcome) : Outcome :=
  let raised := if form.checked then after else none
  let log := log ++ [⟨form.tried.isSome,reply,after,raised⟩]
  match raised with
  | some err => ⟨after,{ r with err := some err },log⟩
  | none =>
    let o := rest after r
    { o with log := log ++ o.log }

/-- A method body; `r` is its reply so far. -/
def Run.exec : Run → CallErr → Reply → Outcome
  | .done, callErr, r => ⟨callErr,r,[]⟩
  | .fail error, callErr, r => ⟨callErr,{ r with err := some error },[]⟩
  | .ret size, callErr, r => ⟨callErr,{ r with buf := size },[]⟩
  | .other callErr rest, _, r => rest.exec callErr r
  -- the reply of the parent's constructor is thrown away
  | .super body defers rest, callErr, r =>
    let b := body.exec callErr {}
    let d := defers.exec b.callErr {}
    let o := rest.exec d.callErr r
    { o with log := b.log ++ d.log ++ o.log }
  | .call form body defers rest, callErr, r =>
    match form.via with
    | .self result =>
      let b := body.exec callErr {}
      let d := defers.exec b.callErr {}
      form.settle (some b.reply) (methodSelf result b.reply d.callErr) (b.log ++ d.log) r rest.exec
    | .ctrl =>
      let b := body.exec callErr {}
      let d := defers.exec b.callErr {}
      form.settle (some b.reply) (ctrlReplyStore b.reply) (b.log ++ d.log) r rest.exec
    | .channel send attempt own =>
      match attempt.refusal send with
      | some text => form.settle none (some text) [] r rest.exec
      | none =>
        let b := body.exec own {}
        let d := defers.exec b.callErr {}
        let reply := if attempt.replied then some b.reply else none
        form.settle reply (send.received reply) (b.log ++ d.log) r rest.exec

/-- The call error is the failure of the callee, and the `try` has raised it. -/
structure Event.Exact (event : Event) : Prop where
  after : ∀ r, event.reply = some r → event.after = r.err
  unanswered : event.reply = none → event.after ≠ none
  raised : event.tried = true → event.raised = event.after

/-- Not a method without a result that is called on the object itself, and no `try` without its check. -/
def Form.Careful (form : Form) : Prop :=
  form.via ≠ .self .void ∧ ∀ place, form.tried = some place → place.checked = true

/-- The size of the value that has to come with the reply. -/
def Via.size : Via → Option Nat
  | .self (.copied size) => some size
  | .channel (.object outsiz) _ _ => some outsiz
  | .channel (.struct outsiz) _ _ => some outsiz
  | _ => none

/-- The body does not come to its end without a value of at most that size. -/
def Run.Returns (size : Nat) : Run → Prop
  | .done => False
  | .fail _ => True
  | .ret value => ∃ retsz, value = some retsz ∧ 0 < retsz ∧ retsz ≤ size
  | .call _ _ _ rest | .super _ _ rest | .other _ rest => rest.Returns size

def Run.Careful : Run → Prop
  | .call form body defers rest => form.Careful ∧ (∀ size, form.via.size = some size → body.Returns size) ∧
      body.Careful ∧ defers.Careful ∧ rest.Careful
  | .super body defers rest => body.Careful ∧ defers.Careful ∧ rest.Careful
  | .other _ rest => rest.Careful
  | .done | .fail _ | .ret _ => True

end Runs

section Exactness

theorem ctrlReplyStore_eq {r : Reply} : ctrlReplyStore r = r.err := by
  unfold ctrlReplyStore
  split <;> simp_all

def Reply.Full (size : Nat) (r : Reply) : Prop :=
  r.err ≠ none ∨ ∃ retsz, r.buf = some retsz ∧ 0 < retsz ∧ retsz ≤ size

theorem Form.settle_reply (form : Form) (reply : Option Reply) (after : CallErr) (log : List Event) (r : Reply)
    (rest : CallErr → Reply → Outcome) : (form.settle reply after log r rest).reply.err ≠ none ∨
      (form.settle reply after log r rest).reply = (rest after r).reply := by
  unfold Form.settle
  dsimp only
  split
  · exact .inl (some_ne_none _)
  · exact .inr rfl

theorem Run.Returns.full (run : Run) (returns : run.Returns size) (callErr : CallErr) (r : Reply) :
    (run.exec callErr r).reply.Full size := by
  induction run generalizing callErr r with
  | done => exact returns.elim
  | fail => exact .inl (some_ne_none _)
  | ret =>
    obtain ⟨retsz,rfl,fits⟩ := returns
    exact .inr ⟨retsz,rfl,fits⟩
  | super body defers rest _ _ ih => exact ih returns _ r
  | other _ rest ih => exact ih returns _ r
  | call form body defers rest _ _ ih =>
    have settled (reply after log) : (form.settle reply after log r rest.exec).reply.Full size := by
      rcases form.settle_reply reply after log r rest.exec with err | same
      · exact .inl err
      · rw [same]
        exact ih returns after r
    unfold Run.exec
    split
    · exact settled ..
    · exact settled ..
    · split
      · exact settled ..
      · exact settled ..

theorem methodSelf_eq (other : ret ≠ .void) (full : ∀ size, ret = .copied size → r.Full size) (callErr : CallErr) :
    methodSelf ret r callErr = r.err := by
  cases ret with
  | void => contradiction
  | value | double => cases err : r.err <;> simp [methodSelf,err]
  | copied size =>
    cases err : r.err with
    | some => simp [methodSelf,err]
    | none =>
      rcases full size rfl with failed | ⟨retsz,buf,_,fits⟩
      · contradiction
      · simp [methodSelf,err,buf,fits]

theorem received_eq (full : r.Full outsiz) : received noData oversized outsiz r = r.err := by
  unfold received
  rcases full with failed | ⟨retsz,buf,positive,fits⟩
  · cases err : r.err with
    | none => contradiction
    | some => rfl
  · have small : ¬retsz > outsiz := by omega
    have there : retsz ≠ 0 := by omega
    cases err : r.err with
    | some => rfl
    | none => simp [buf,small,there]

theorem Send.received_eq (send : Send) (attempt : Attempt) (own : CallErr)
    (full : ∀ size, (Via.channel send attempt own).size = some size → r.Full size) :
    send.received (some r) = r.err := by
  cases send with
  | value | double => cases err : r.err <;> simp [Send.received,err]
  | object outsiz | struct outsiz => exact CallErrors.received_eq (full outsiz rfl)

theorem Form.settle_exact {form : Form} (careful : form.Careful) (here : ∀ event ∈ log, event.Exact)
    (answered : ∀ r, reply = some r → after = r.err) (unanswered : reply = none → after ≠ none)
    (later : ∀ event ∈ (rest after r).log, event.Exact) :
    ∀ event ∈ (form.settle reply after log r rest).log, event.Exact := by
  have own : Event.Exact ⟨form.tried.isSome,reply,after,if form.checked then after else none⟩ := by
    refine ⟨answered,unanswered,fun tried => ?_⟩
    obtain ⟨place,found⟩ := isSome_iff_exists.mp tried
    have checked : form.checked = true := by simp [Form.checked,found,careful.2 place found]
    exact if_pos checked
  have upTo (event : Event) (member : event ∈ log ++
      [⟨form.tried.isSome,reply,after,if form.checked then after else none⟩]) : event.Exact := by
    rcases List.mem_append.mp member with member | member
    · exact here event member
    · rw [List.mem_singleton.mp member]
      exact own
  intro event member
  unfold Form.settle at member
  dsimp only at member
  split at member
  · exact upTo event member
  · rcases List.mem_append.mp member with member | member
    · exact upTo event member
    · exact later event member

theorem Run.Careful.exact (run : Run) (careful : run.Careful) (callErr : CallErr) (r : Reply) :
    ∀ event ∈ (run.exec callErr r).log, event.Exact := by
  induction run generalizing callErr r with
  | done | fail | ret => simp [Run.exec]
  | other _ rest ih => exact ih careful _ r
  | super body defers rest inBody inDefers ih =>
    intro event member
    rcases List.mem_append.mp member with member | member
    · rcases List.mem_append.mp member with member | member
      · exact inBody careful.1 _ _ event member
      · exact inDefers careful.2.1 _ _ event member
    · exact ih careful.2.2 _ _ event member
  | call form body defers rest inBody inDefers ih =>
    obtain ⟨written,returns,carefulBody,carefulDefers,carefulRest⟩ := careful
    have inside (start : CallErr) : ∀ event ∈ (body.exec start {}).log ++
        (defers.exec (body.exec start {}).callErr {}).log, event.Exact := by
      intro event member
      rcases List.mem_append.mp member with member | member
      · exact inBody carefulBody _ _ event member
      · exact inDefers carefulDefers _ _ event member
    unfold Run.exec
    split
    next result via =>
      refine Form.settle_exact written (inside callErr) (fun reply same => ?_) (fun none => by cases none)
        (ih carefulRest _ r)
      cases same
      refine methodSelf_eq (fun void => written.1 (by rw [via,void])) (fun size copied => ?_) _
      exact Run.Returns.full body (returns size (by rw [via,copied]; rfl)) callErr {}
    next via =>
      refine Form.settle_exact written (inside callErr) (fun reply same => ?_) (fun none => by cases none)
        (ih carefulRest _ r)
      cases same
      exact ctrlReplyStore_eq
    next send attempt own via =>
      split
      next text refused =>
        exact Form.settle_exact written (by simp) (fun reply same => by cases same)
          (fun _ => some_ne_none text) (ih carefulRest _ r)
      next =>
        refine Form.settle_exact written (inside own) (fun reply same => ?_) (fun none => ?_) (ih carefulRest _ r)
        · rw [same]
          split at same
          · cases same
            refine send.received_eq attempt own fun size copied => ?_
            exact Run.Returns.full body (returns size (via ▸ copied)) own {}
          · cases same
        · rw [none]
          simp [Send.received]

theorem Form.settle_own (form : Form) (reply : Option Reply) (after : CallErr) (log : List Event) (r : Reply)
    (rest : CallErr → Reply → Outcome) : ⟨form.tried.isSome,reply,after,if form.checked then after else none⟩ ∈
      (form.settle reply after log r rest).log := by
  unfold Form.settle
  dsimp only
  split
  · simp
  · simp

def Form.ofFailing (form : Form) : Run := .call form (.fail "failed") .done .done

theorem Form.ofFailing_event (form : Form) : ∃ reply after,
    ⟨form.tried.isSome,reply,after,if form.checked then after else none⟩ ∈ (form.ofFailing.exec none {}).log ∧
    (∀ r, reply = some r → r.err = some "failed") ∧ (form.via = .self .void → reply ≠ none ∧ after = none) := by
  unfold Form.ofFailing Run.exec
  split
  next result via =>
    refine ⟨_,_,form.settle_own ..,fun r same => ?_,fun void => ⟨some_ne_none _,?_⟩⟩
    · cases same
      rfl
    · cases via.symm.trans void
      rfl
  next via =>
    refine ⟨_,_,form.settle_own ..,fun r same => ?_,fun void => ?_⟩
    · cases same
      rfl
    · cases via.symm.trans void
  next send attempt own via =>
    split
    · exact ⟨_,_,form.settle_own ..,fun r same => (by cases same),fun void => (by cases via.symm.trans void)⟩
    · refine ⟨_,_,form.settle_own ..,fun r same => ?_,fun void => ?_⟩
      · split at same
        · cases same
          rfl
        · cases same
      · cases via.symm.trans void

/-- Calls of this form are exact, whatever careful method is called and in any state. -/
def Form.Reliable (form : Form) : Prop :=
  ∀ body defers : Run, body.Careful → defers.Careful → (∀ size, form.via.size = some size → body.Returns size) →
    ∀ callErr r, ∀ event ∈ ((Run.call form body defers .done).exec callErr r).log, event.Exact

theorem Form.Reliable.careful {form : Form} (reliable : form.Reliable) : form.Careful := by
  obtain ⟨reply,after,member,failed,unset⟩ := form.ofFailing_event
  have exact := reliable (.fail "failed") .done trivial trivial (fun _ _ => trivial) none {} _ member
  refine ⟨fun void => ?_,fun place found => ?_⟩
  · obtain ⟨answered,rfl⟩ := unset void
    obtain ⟨r,same⟩ := ne_none_iff_exists'.mp answered
    have err := exact.after r same
    rw [failed r same] at err
    cases err
  · by_contra unchecked
    have checked : form.checked = false := by simpa [Form.checked,found] using unchecked
    have raised := exact.raised (by simp [found])
    simp only [checked,Bool.false_eq_true,if_false] at raised
    -- the call error is set, and nothing was raised
    cases reply with
    | none => exact exact.unanswered rfl raised.symm
    | some r =>
      have err := exact.after r rfl
      rw [failed r rfl,← raised] at err
      cases err

/-- In every run of careful calls the call error after each call is the failure of the callee, which `try` raises; and
careful are just the calls for which that is so whatever is called. -/
theorem calls_carry_errors (run : Run) (callErr : CallErr) (r : Reply) (form : Form) :
    (run.Careful → ∀ event ∈ (run.exec callErr r).log, event.Exact) ∧ (form.Reliable ↔ form.Careful) := by
  refine ⟨fun careful => Run.Careful.exact run careful callErr r,?_,?_⟩
  · exact fun reliable => reliable.careful
  · intro careful body defers carefulBody carefulDefers returns callErr r
    exact Run.Careful.exact (.call form body defers .done)
      ⟨careful,returns,carefulBody,carefulDefers,trivial⟩ callErr r

/-- `spend` declares a variable by a `try` of `withdraw`, which fails, and has a deferred call over a channel. -/
def spend : Run :=
  .call ⟨.self .value,none⟩
    (.call ⟨.self .value,some .declared⟩ (.fail "insufficient funds") .done (.ret none))
    (.call ⟨.channel .value ⟨true,true,false,false,none,true,true,true,true⟩ none,none⟩ .done .done .done) .done

theorem spend_exact : spend.Careful ∧ ((spend.exec none {}).log.map Event.after =
      [some "insufficient funds",none,some "insufficient funds"]) ∧
    ∀ event ∈ (spend.exec none {}).log, event.Exact := by
  have careful : spend.Careful := by
    simp [spend,Run.Careful,Form.Careful,Via.size,Place.checked]
  exact ⟨careful,by decide,(calls_carry_errors spend none {} ⟨.ctrl,none⟩).1 careful⟩

/-- A method without a result is called on the object itself with a `try`, and fails. -/
def unnoticed : Run := .call ⟨.self .void,some .statement⟩ (.fail "insufficient funds") .done .done

/-- The `try` does not see the failure. -/
theorem void_failure_missed : ¬∀ (run : Run) (callErr : CallErr) (r : Reply),
    ∀ event ∈ (run.exec callErr r).log, event.Exact := by
  intro always
  have exact := always unnoticed none {} ⟨true,some ⟨some "insufficient funds",none⟩,none,none⟩ (by decide)
  cases exact.after _ rfl

end Exactness

end Objective9c.CallErrors
