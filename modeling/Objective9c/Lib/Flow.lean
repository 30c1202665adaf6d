import Mathlib.Data.List.Basic

/-! Structured control flow as relations. A behaviour gives the events of a run and says whether
the run has left the code early; conditions are open, so every branch can be taken. -/
namespace Flow

variable {ε : Type u}

def Behaviour (ε : Type u) := List ε → Bool → Prop

def skip : Behaviour ε := fun events left => events = [] ∧ left = false

def leave : Behaviour ε := fun events left => events = [] ∧ left = true

def emit (e : ε) : Behaviour ε := fun events left => events = [e] ∧ left = false

def seq (first second : Behaviour ε) : Behaviour ε := fun events left =>
  left = true ∧ first events true ∨ ∃ before after, first before false ∧ second after left ∧ events = before ++ after

def either (first second : Behaviour ε) : Behaviour ε := fun events left => first events left ∨ second events left

inductive Loop (body : Behaviour ε) : Behaviour ε where
  | stop : Loop body [] false
  | leave (ran : body events true) : Loop body events true
  | again (ran : body before false) (later : Loop body after left) : Loop body (before ++ after) left

def Silent (behaviour : Behaviour ε) : Prop := ∀ events left, behaviour events left → events = []

/-- Some run has at most `n` events. -/
def Within (behaviour : Behaviour ε) (n : Nat) : Prop := ∃ events left, behaviour events left ∧ events.length ≤ n

/-- Some run that leaves has at most `n` events. -/
def LeavesWithin (behaviour : Behaviour ε) (n : Nat) : Prop := ∃ events, behaviour events true ∧ events.length ≤ n

variable {first second body : Behaviour ε} {events : List ε} {left : Bool}

theorem silent_skip : Silent (skip : Behaviour ε) := fun _ _ ran => ran.1

theorem silent_leave : Silent (leave : Behaviour ε) := fun _ _ ran => ran.1

theorem silent_either (one : Silent first) (other : Silent second) : Silent (either first second) := by
  intro events left ran
  exact ran.elim (one events left) (other events left)

theorem silent_seq (one : Silent first) (other : Silent second) : Silent (seq first second) := by
  rintro events left (⟨_,ran⟩ | ⟨before,after,ran,later,rfl⟩)
  · exact one events true ran
  · rw [one before false ran,other after left later]
    rfl

theorem silent_loop (quiet : Silent body) : Silent (Loop body) := by
  intro events left ran
  induction ran with
  | stop => rfl
  | leave ran => exact quiet _ _ ran
  | again ran later ih =>
    rw [quiet _ _ ran,ih]
    rfl

theorem seq_leave (ran : first events true) : seq first second events true := .inl ⟨rfl,ran⟩

theorem seq_on (ran : first before false) (later : second after left) : seq first second (before ++ after) left :=
  .inr ⟨before,after,ran,later,rfl⟩

theorem within_seq (one : Within first n) (other : Within second m) : Within (seq first second) (n+m) := by
  obtain ⟨before,left,ran,short⟩ := one
  cases left with
  | true => exact ⟨before,true,seq_leave ran,Nat.le_add_right_of_le short⟩
  | false =>
    obtain ⟨after,left,later,short'⟩ := other
    refine ⟨before ++ after,left,seq_on ran later,?_⟩
    rw [List.length_append]
    exact Nat.add_le_add short short'

theorem leaves_seq_left (one : LeavesWithin first n) (m : Nat) : LeavesWithin (seq first second) (n+m) := by
  obtain ⟨events,ran,short⟩ := one
  exact ⟨events,seq_leave ran,Nat.le_add_right_of_le short⟩

theorem leaves_seq_right (one : Within first n) (other : LeavesWithin second m) :
    LeavesWithin (seq first second) (n+m) := by
  obtain ⟨before,left,ran,short⟩ := one
  cases left with
  | true => exact leaves_seq_left ⟨before,ran,short⟩ m
  | false =>
    obtain ⟨after,later,short'⟩ := other
    refine ⟨before ++ after,seq_on ran later,?_⟩
    rw [List.length_append]
    exact Nat.add_le_add short short'

theorem within_loop (body : Behaviour ε) (n : Nat) : Within (Loop body) n := ⟨[],false,.stop,Nat.zero_le n⟩

theorem leaves_loop (leaves : LeavesWithin body n) : LeavesWithin (Loop body) n := by
  obtain ⟨events,ran,short⟩ := leaves
  exact ⟨events,.leave ran,short⟩

/-- No run leaves. -/
def Stays (behaviour : Behaviour ε) : Prop := ∀ events, ¬behaviour events true

theorem stays_either (one : Stays first) (other : Stays second) : Stays (either first second) :=
  fun events ran => ran.elim (one events) (other events)

theorem stays_seq (one : Stays first) (other : Stays second) : Stays (seq first second) := by
  rintro events (⟨_,ran⟩ | ⟨before,after,_,later,_⟩)
  · exact one events ran
  · exact other after later

theorem stays_loop (one : Stays body) : Stays (Loop body) := by
  have general (events : List ε) (left : Bool) (ran : Loop body events left) : left = false := by
    induction ran with
    | stop => rfl
    | leave ran => exact absurd ran (one _)
    | again _ _ ih => exact ih
  intro events ran
  exact nomatch general events true ran

end Flow
