import Objective9c.Compiler.Defer

/-! The paths through a body and the `defer` statements they execute, against the calls that the
generated method makes. -/
namespace Objective9c.Compiler

open List Bool
open Flow (Behaviour)

variable {α : Type}

section Paths

open Flow

/-- Some run has no more events than there are statements for, and some run that leaves, if one can; without statements
no run has an event. -/
structure Fits (behaviour : Behaviour α) (mayLeave : Bool) (n : Nat) : Prop where
  within : Within behaviour n
  leaves : mayLeave = true → LeavesWithin behaviour n
  stays : mayLeave = false → Stays behaviour
  silent : n = 0 → Silent behaviour

theorem Fits.seq (one : Fits first may n) (other : Fits second may' m) :
    Fits (Flow.seq first second) (may || may') (n+m) := by
  refine ⟨within_seq one.within other.within,fun either => ?_,fun neither => ?_,fun none => ?_⟩
  · rcases or_eq_true_iff.mp either with here | later
    · exact leaves_seq_left (one.leaves here) m
    · exact leaves_seq_right one.within (other.leaves later)
  · rw [or_eq_false_iff] at neither
    exact stays_seq (one.stays neither.1) (other.stays neither.2)
  · exact silent_seq (one.silent (by omega)) (other.silent (by omega))

theorem Fits.either (one : Fits first may n) (other : Fits second may' m) :
    Fits (Flow.either first second) (may || may') (n+m) := by
  obtain ⟨events,left,ran,short⟩ := one.within
  refine ⟨⟨events,left,.inl ran,Nat.le_add_right_of_le short⟩,fun any => ?_,fun neither => ?_,fun none => ?_⟩
  · rcases or_eq_true_iff.mp any with here | there
    · obtain ⟨events,ran,short⟩ := one.leaves here
      exact ⟨events,.inl ran,Nat.le_add_right_of_le short⟩
    · obtain ⟨events,ran,short⟩ := other.leaves there
      exact ⟨events,.inr ran,Nat.le_add_left_of_le short⟩
  · rw [or_eq_false_iff] at neither
    exact stays_either (one.stays neither.1) (other.stays neither.2)
  · exact silent_either (one.silent (by omega)) (other.silent (by omega))

theorem Fits.loop (one : Fits body may n) : Fits (Loop body) may n :=
  ⟨within_loop body n,fun may => leaves_loop (one.leaves may),fun may => stays_loop (one.stays may),
    fun none => silent_loop (one.silent none)⟩

theorem fits_skip : Fits (skip : Behaviour α) false 0 :=
  ⟨⟨[],false,⟨rfl,rfl⟩,Nat.le_refl _⟩,nofun,(fun _ _ ran => nomatch ran.2),fun _ => silent_skip⟩

theorem fits_leave (n : Nat) : Fits (leave : Behaviour α) true n :=
  ⟨⟨[],true,⟨rfl,rfl⟩,Nat.zero_le _⟩,fun _ => ⟨[],⟨rfl,rfl⟩,Nat.zero_le _⟩,nofun,fun _ => silent_leave⟩

theorem fits_emit (call : α) : Fits (emit call) false 1 :=
  ⟨⟨[call],false,⟨rfl,rfl⟩,Nat.le_refl _⟩,nofun,(fun _ _ ran => nomatch ran.2),nofun⟩

mutual

theorem path_fits : (body : Stmts α) → Fits body.path body.mayLeave body.defers.length
  | .nil => fits_skip
  | .plain rest => path_fits rest
  | .attempt rest => by
    have short := (fits_leave 0).either (path_fits rest)
    rw [Nat.zero_add,Bool.true_or] at short
    exact short
  | .leave rest => fits_leave _
  | .defer call rest => by
    have short := (fits_emit call).seq (path_fits rest)
    rw [Nat.add_comm] at short
    exact short
  | .cond body clause rest => by
    have short := ((path_fits body).either (clause_fits clause)).seq (path_fits rest)
    simpa only [Stmts.path,Stmts.mayLeave,Stmts.defers,length_append] using short
  | .loop body rest => by
    have short := (path_fits body).loop.seq (path_fits rest)
    simpa only [Stmts.path,Stmts.mayLeave,Stmts.defers,length_append] using short
  | .alt arms rest => by
    have short := (arms_fits arms).seq (path_fits rest)
    simpa only [Stmts.path,Stmts.mayLeave,Stmts.defers,length_append] using short

theorem clause_fits : (clause : Clause α) → Fits clause.path clause.mayLeave clause.defers.length
  | .none => fits_skip
  | .els body => path_fits body
  | .elif body clause => by
    have short := (path_fits body).either (clause_fits clause)
    simpa only [Clause.path,Clause.mayLeave,Clause.defers,length_append] using short

theorem arms_fits : (arms : Arms α) → Fits arms.path arms.mayLeave arms.defers.length
  | .last body => path_fits body
  | .arm body rest => by
    have short := (path_fits body).either (arms_fits rest)
    simpa only [Arms.path,Arms.mayLeave,Arms.defers,length_append] using short

end

theorem seq_events {after : List α} (fits : Fits first may n)
    (one : ∀ events left, first events left → events = before) (last : (!may || after.isEmpty) = true)
    (other : ∀ events left, second events left → events = after) (ran : seq first second events left) :
    events = before ++ after := by
  rcases ran with ⟨rfl,ran⟩ | ⟨begun,ended,ran,later,rfl⟩
  · cases may with
    | true => rw [one events true ran,isEmpty_iff.mp last,append_nil]
    | false => exact absurd ran (fits.stays rfl events)
  · rw [one begun false ran,other ended left later]

theorem path_of_straight : (body : Stmts α) → body.straight = true → ∀ events left, body.path events left →
    events = body.defers
  | .nil, _, events, left, ran => ran.1
  | .plain rest, straight, events, left, ran => path_of_straight rest straight events left ran
  | .attempt rest, straight, events, left, ran => by
    have empty := isEmpty_iff.mp straight
    exact ((path_fits (.attempt rest)).silent (congrArg length empty) events left ran).trans empty.symm
  | .leave rest, straight, events, left, ran => by
    rw [Stmts.defers,isEmpty_iff.mp straight]
    exact ran.1
  | .defer call rest, straight, events, left, ran =>
    seq_events (fits_emit call) (fun _ _ out => out.1) rfl (path_of_straight rest straight) ran
  | .cond body clause rest, straight, events, left, ran => by
    simp only [Stmts.straight,and_eq_true,List.isEmpty_iff] at straight
    obtain ⟨⟨⟨noneInside,noneBeside⟩,last⟩,straight⟩ := straight
    have fits := (path_fits body).either (clause_fits clause)
    rw [Stmts.defers,noneInside,noneBeside]
    exact seq_events fits (fits.silent (by simp [noneInside,noneBeside])) last (path_of_straight rest straight) ran
  | .loop body rest, straight, events, left, ran => by
    simp only [Stmts.straight,and_eq_true,List.isEmpty_iff] at straight
    obtain ⟨⟨noneInside,last⟩,straight⟩ := straight
    have fits := (path_fits body).loop
    rw [Stmts.defers,noneInside]
    exact seq_events fits (fits.silent (by simp [noneInside])) last (path_of_straight rest straight) ran
  | .alt (.last body) rest, straight, events, left, ran => by
    simp only [Stmts.straight,and_eq_true] at straight
    obtain ⟨⟨inside,last⟩,straight⟩ := straight
    exact seq_events (path_fits body) (path_of_straight body inside) last (path_of_straight rest straight) ran
  | .alt (.arm body arms) rest, straight, events, left, ran => by
    simp only [Stmts.straight,and_eq_true,List.isEmpty_iff] at straight
    obtain ⟨⟨⟨noneInside,noneBeside⟩,last⟩,straight⟩ := straight
    have fits := (path_fits body).either (arms_fits arms)
    rw [Stmts.defers,Arms.defers,noneInside,noneBeside]
    exact seq_events fits (fits.silent (by simp [noneInside,noneBeside])) last (path_of_straight rest straight) ran

/-- If all runs of two parts in turn have the same events, and no fewer than there are statements, so have those of
each part, and nothing comes behind a part that can leave. -/
theorem seq_constant (one : Fits first may n) (other : Fits second may' m)
    (constant : ∀ out left, seq first second out left → out = events) (enough : n + m ≤ events.length) :
    (may = true → m = 0) ∧ (∃ before, (∀ out left, first out left → out = before) ∧ n ≤ before.length) ∧
    ∃ after, (∀ out left, second out left → out = after) ∧ m ≤ after.length := by
  have last (can : may = true) : m = 0 := by
    obtain ⟨out,ran,short⟩ := one.leaves can
    have same := constant out true (seq_leave ran)
    subst same
    omega
  obtain ⟨begun,left,ran,short⟩ := one.within
  obtain ⟨ended,left',later,short'⟩ := other.within
  cases left with
  | true =>
    have same := constant begun true (seq_leave ran)
    subst same
    have none : m = 0 := by omega
    refine ⟨last,⟨begun,fun out left ran' => ?_,by omega⟩,[],other.silent none,by simp [none]⟩
    cases left with
    | true => exact constant out true (seq_leave ran')
    | false =>
      have whole := constant (out ++ ended) left' (seq_on ran' later)
      rwa [other.silent none ended left' later,append_nil] at whole
  | false =>
    have whole := constant (begun ++ ended) left' (seq_on ran later)
    subst whole
    rw [length_append] at enough
    refine ⟨last,⟨begun,fun out left ran' => ?_,by omega⟩,ended,fun out left later' => ?_,by omega⟩
    · cases left with
      | false => exact append_cancel_right (constant (out ++ ended) left' (seq_on ran' later))
      | true =>
        cases may with
        | false => exact absurd ran' (one.stays rfl out)
        | true =>
          have same := constant out true (seq_leave ran')
          rwa [other.silent (last rfl) ended left' later,append_nil] at same
    · exact append_cancel_left (constant (begun ++ out) left (seq_on ran later'))

theorem either_constant (one : Fits first may n)
    (other : Fits second may' m) (constant : ∀ out left, either first second out left → out = events)
    (enough : n + m ≤ events.length) : n = 0 ∧ m = 0 := by
  obtain ⟨out,left,ran,short⟩ := one.within
  obtain ⟨out',left',ran',short'⟩ := other.within
  have same := constant out left (.inl ran)
  have same' := constant out' left' (.inr ran')
  subst same
  subst same'
  omega

theorem isEmpty_of_length {calls : List α} (none : calls.length = 0) : calls.isEmpty = true :=
  isEmpty_iff.mpr (length_eq_zero_iff.mp none)

theorem behind_of_last {calls : List α} (last : may = true → calls.length = 0) :
    (!may || calls.isEmpty) = true := by
  cases may with
  | false => rfl
  | true => exact isEmpty_of_length (last rfl)

/-- If all paths execute the same calls, and no fewer than the body has, the body is straight. -/
theorem straight_of_constant : (body : Stmts α) → (events : List α) →
    (∀ out left, body.path out left → out = events) → body.defers.length ≤ events.length → body.straight = true
  | .nil, _, _, _ => rfl
  | .plain rest, events, constant, enough => straight_of_constant rest events constant enough
  | .attempt rest, events, constant, enough => by
    have empty := constant [] true (.inl ⟨rfl,rfl⟩)
    subst empty
    exact isEmpty_of_length (Nat.le_zero.mp enough)
  | .leave rest, events, constant, enough => by
    have empty := constant [] true ⟨rfl,rfl⟩
    subst empty
    exact isEmpty_of_length (Nat.le_zero.mp enough)
  | .defer call rest, events, constant, enough => by
    rw [Stmts.defers,length_cons,Nat.add_comm] at enough
    obtain ⟨_,_,after,constant,enough⟩ := seq_constant (fits_emit call) (path_fits rest) constant enough
    exact straight_of_constant rest after constant enough
  | .cond body clause rest, events, constant, enough => by
    rw [Stmts.defers,length_append,length_append] at enough
    obtain ⟨last,⟨before,same,long⟩,after,constant,enough⟩ :=
      seq_constant ((path_fits body).either (clause_fits clause)) (path_fits rest) constant enough
    obtain ⟨noneInside,noneBeside⟩ := either_constant (path_fits body) (clause_fits clause) same long
    simp only [Stmts.straight,and_eq_true]
    exact ⟨⟨⟨isEmpty_of_length noneInside,isEmpty_of_length noneBeside⟩,behind_of_last last⟩,
      straight_of_constant rest after constant enough⟩
  | .loop body rest, events, constant, enough => by
    rw [Stmts.defers,length_append] at enough
    obtain ⟨last,⟨before,same,long⟩,after,constant,enough⟩ :=
      seq_constant (path_fits body).loop (path_fits rest) constant enough
    -- the path that does not enter the loop
    have empty := same [] false .stop
    subst empty
    simp only [Stmts.straight,and_eq_true]
    exact ⟨⟨isEmpty_of_length (Nat.le_zero.mp long),behind_of_last last⟩,
      straight_of_constant rest after constant enough⟩
  | .alt (.last body) rest, events, constant, enough => by
    rw [Stmts.defers,length_append] at enough
    obtain ⟨last,⟨before,same,long⟩,after,constant,enough⟩ :=
      seq_constant (path_fits body) (path_fits rest) constant enough
    simp only [Stmts.straight,and_eq_true]
    exact ⟨⟨straight_of_constant body before same long,behind_of_last last⟩,
      straight_of_constant rest after constant enough⟩
  | .alt (.arm body arms) rest, events, constant, enough => by
    rw [Stmts.defers,Arms.defers,length_append,length_append] at enough
    obtain ⟨last,⟨before,same,long⟩,after,constant,enough⟩ :=
      seq_constant ((path_fits body).either (arms_fits arms)) (path_fits rest) constant enough
    obtain ⟨noneInside,noneBeside⟩ := either_constant (path_fits body) (arms_fits arms) same long
    simp only [Stmts.straight,and_eq_true]
    exact ⟨⟨⟨isEmpty_of_length noneInside,isEmpty_of_length noneBeside⟩,behind_of_last last⟩,
      straight_of_constant rest after constant enough⟩

end Paths

section Methods

open Flow

/-- No run has an event, and some run comes to an end. -/
def Bounded (behaviour : Behaviour α) : Prop := Silent behaviour ∧ ∃ left, behaviour [] left

theorem Bounded.seq {one other : Behaviour α} (first : Bounded one) (rest : Bounded other) : Bounded (seq one other) := by
  refine ⟨silent_seq first.1 rest.1,?_⟩
  obtain ⟨left,ran⟩ := first.2
  cases left with
  | true => exact ⟨true,seq_leave ran⟩
  | false =>
    obtain ⟨left,later⟩ := rest.2
    exact ⟨left,seq_on ran later⟩

theorem code_bounded (code : Code) : Bounded (code.runs : Behaviour α) := by
  induction code with
  | nil => exact ⟨silent_skip,false,rfl,rfl⟩
  | plain rest ih => exact ih
  | check rest ih => exact ⟨silent_either silent_leave ih.1,true,.inl ⟨rfl,rfl⟩⟩
  | gotoDone => exact ⟨silent_leave,true,rfl,rfl⟩
  | branch yes no rest first other ih =>
    obtain ⟨left,ran⟩ := first.2
    exact Bounded.seq ⟨silent_either first.1 other.1,left,.inl ran⟩ ih
  | loop body rest first ih => exact Bounded.seq ⟨silent_loop first.1,false,.stop⟩ ih
  | scope body rest first ih => exact first.seq ih

theorem calls_iff {m : Method α} : m.Calls calls ↔ calls = m.cleanup := by
  obtain ⟨silent,left,ran⟩ : Bounded (m.body.runs : Behaviour α) := code_bounded m.body
  constructor
  · rintro ⟨events,left,ran,rfl⟩
    rw [silent events left ran,nil_append]
  · rintro rfl
    exact ⟨[],left,ran,rfl⟩

/-- The calls made at the exit are on every path those that were scheduled just if every `defer`
statement is one that all paths come by. -/
theorem defers_run_iff_straight (body : Stmts α) : DefersRun body ↔ body.straight = true := by
  have cleanup : (genMethodBody (parse body)).cleanup = (gen (parse body) []).2 := rfl
  constructor
  · intro run
    refine straight_of_constant body (gen (parse body) []).2.reverse (fun out left ran => ?_) ?_
    · have same := run out left ran _ ((calls_iff).mpr rfl)
      rw [← cleanup,same,reverse_reverse]
    · obtain ⟨extra,is,enough,_⟩ := (gen_collects body).1
      simpa [is] using enough
  · intro straight executed left ran calls made
    rw [(calls_iff).mp made,cleanup,(gen_of_straight body straight []).1,
      path_of_straight body straight executed left ran,append_nil]

/-- A `defer` under an `if` is run on the path around it too. -/
theorem skipped_defer_runs : ¬DefersRun (.cond (.defer "cleanup" .nil) .none .nil) := by
  intro run
  have around := run [] false (.inr ⟨[],[],.inr ⟨rfl,rfl⟩,⟨rfl,rfl⟩,rfl⟩) ["cleanup"] ((calls_iff).mpr rfl)
  cases around

end Methods

end Objective9c.Compiler
