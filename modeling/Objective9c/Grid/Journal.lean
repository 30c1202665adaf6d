import Mathlib.Data.List.Basic
import Objective9c.Lib.Transition

/-! The numbers of the events in the journal. `o9_event_seq` belongs to a process: a task worker appends events under
its origin, and so does the child it forks for the time of a gate, with a copy of the counter. -/
namespace Objective9c.Grid.Journal

open List Transition

/-- `++o9_event_seq`. -/
def nextSeq (n : Int) : Int := Int.bmod (n + 1) (2^32)

/-- A task worker with the counter of its heartbeat child and the numbers appended under its origin. It is `silent`
until it has appended an event again after a child was killed. -/
structure Worker where
  seq : Int
  child : Option Int
  silent : Bool
  numbers : List Int
  deriving DecidableEq

def started : Worker := ⟨0,none,true,[]⟩

inductive Act where
  | emit | fork | beat | kill
  deriving DecidableEq

/-- The worker waits for the child to be killed before it appends the outcome of the gate, and appends `gate_start`
before it forks. -/
def act : Act → Worker → Option Worker
  | .emit, w =>
    if w.child.isSome then none
    else some { w with seq := nextSeq w.seq, silent := false, numbers := w.numbers ++ [nextSeq w.seq] }
  | .fork, w => if w.child.isSome || w.silent then none else some { w with child := some w.seq }
  | .beat, w => w.child.map fun n => { w with child := some (nextSeq n), numbers := w.numbers ++ [nextSeq n] }
  | .kill, w => if w.child.isNone then none else some { w with child := none, silent := true }

/-- The worker appends nothing after a heartbeat of a child. -/
def unheard : List Act → Bool
  | [] => true
  | .beat :: rest => .emit ∉ rest
  | _ :: rest => unheard rest

/-- The number of the `n`th event of one process. -/
def number : Nat → Int
  | 0 => 0
  | n+1 => nextSeq (number n)

def firstNumbers (n : Nat) : List Int := (range n).map fun i => number (i + 1)

theorem firstNumbers_succ (n : Nat) : firstNumbers n ++ [nextSeq (number n)] = firstNumbers (n + 1) := by
  simp [firstNumbers,range_succ,number]

theorem number_eq (few : n < 2^31) : number n = n := by
  induction n with
  | zero => rfl
  | succ n ih =>
    rw [number,ih (by omega),nextSeq,Int.bmod_eq_of_le (by omega) (by omega)]
    omega

theorem pairwise_firstNumbers : (firstNumbers n).Pairwise (· < ·) ↔ n < 2^31 := by
  rw [firstNumbers,pairwise_map]
  constructor
  · intro increasing
    by_contra many
    obtain ⟨i,is⟩ : ∃ i, i + 2 = 2^31 := ⟨2^31 - 2,by decide⟩
    have wrapped := pairwise_iff_getElem.mp increasing i (i + 1) (by rw [length_range]; omega)
      (by rw [length_range]; omega) (Nat.lt_succ_self i)
    rw [getElem_range,getElem_range,number.eq_2 (i + 1),number_eq (by omega),nextSeq,Int.bmod_def] at wrapped
    omega
  · intro few
    refine pairwise_lt_range.imp_of_mem fun {i j} _ member less => ?_
    have small : j < n := mem_range.mp member
    rw [number_eq (by omega),number_eq (by omega)]
    omega

/-- What a step has found and done. -/
inductive Acted (w : Worker) : Act → Worker → Prop where
  | emit (alone : w.child = none) :
      Acted w .emit { w with seq := nextSeq w.seq, silent := false, numbers := w.numbers ++ [nextSeq w.seq] }
  | fork (alone : w.child = none) (heard : w.silent = false) : Acted w .fork { w with child := some w.seq }
  | beat (has : w.child = some n) :
      Acted w .beat { w with child := some (nextSeq n), numbers := w.numbers ++ [nextSeq n] }
  | kill (has : w.child = some n) : Acted w .kill { w with child := none, silent := true }

theorem act_acted (acted : act a w = some w') : Acted w a w' := by
  cases a <;> cases child : w.child <;> simp [act,child] at acted
  case emit.none => exact acted ▸ child ▸ .emit child
  case fork.none => exact acted.2 ▸ .fork child acted.1
  case beat.some => exact acted ▸ .beat child
  case kill.some => exact acted ▸ .kill child

variable (ran : run act acts w = some w')
include ran

theorem run_numbers : w.numbers <+: w'.numbers := by
  refine run_invariant (fun v => w.numbers <+: v.numbers) (fun a v next before acted => ?_) acts w w' (prefix_refl _) ran
  cases act_acted acted with
  | emit | beat => exact before.trans (prefix_append ..)
  | fork | kill => exact before

theorem numbers_repeat (emits : .emit ∈ acts) (seq : w.seq = number n)
    (used : nextSeq (number n) ∈ w.numbers) : ¬w'.numbers.Pairwise (· < ·) := by
  induction acts generalizing w with
  | nil => cases emits
  | cons a rest ih =>
    obtain ⟨next,acted,ran⟩ := run_cons_some.mp ran
    cases act_acted acted with
    | emit =>
      intro increasing
      have again := pairwise_append.mp (increasing.sublist (run_numbers ran).sublist)
      rw [seq] at again
      exact Int.lt_irrefl _ (again.2.2 _ used _ (mem_singleton_self _))
    | fork | kill => exact ih ran (by simpa using emits) seq used
    | beat => exact ih ran (by simpa using emits) seq (mem_append_left _ used)

theorem numbers_beaten (silent : .emit ∉ acts) (none : w.child = none → w.silent = true)
    (child : ∀ c, w.child = some c → c = number n) (numbers : w.numbers = firstNumbers n) :
    ∃ m, w'.numbers = firstNumbers m := by
  induction acts generalizing w n with
  | nil =>
    cases ran
    exact ⟨n,numbers⟩
  | cons a rest ih =>
    obtain ⟨next,acted,ran⟩ := run_cons_some.mp ran
    cases act_acted acted with
    | emit => simp at silent
    | fork alone heard => simp [none alone] at heard
    | @beat c has =>
      obtain rfl := child c has
      refine ih (n := n + 1) ran (by simpa using silent) (by simp) (by simp [number]) ?_
      rw [numbers,firstNumbers_succ]
    | kill => exact ih ran (by simpa using silent) (fun _ => rfl) (by simp) numbers

theorem numbers_run (seq : w.seq = number n)
    (child : ∀ c, w.child = some c → c = number n) (numbers : w.numbers = firstNumbers n) :
    if unheard acts then ∃ m, w'.numbers = firstNumbers m else ¬w'.numbers.Pairwise (· < ·) := by
  induction acts generalizing w n with
  | nil =>
    cases ran
    exact ⟨n,numbers⟩
  | cons a rest ih =>
    obtain ⟨next,acted,ran⟩ := run_cons_some.mp ran
    cases act_acted acted with
    | emit alone =>
      refine ih (n := n + 1) ran ?_ (by simp [alone]) ?_
      · rw [seq,number]
      · rw [numbers,seq,firstNumbers_succ]
    | fork => exact ih ran seq (by simp [seq]) numbers
    | kill => exact ih ran seq (by simp) numbers
    | @beat c has =>
      obtain rfl := child c has
      have more : w.numbers ++ [nextSeq (number n)] = firstNumbers (n + 1) := by
        rw [numbers,firstNumbers_succ]
      by_cases emits : .emit ∈ rest
      · rw [unheard,if_neg (by simpa using emits)]
        exact numbers_repeat ran emits seq (by simp)
      · rw [unheard,if_pos (by simpa using emits)]
        exact numbers_beaten (n := n + 1) ran emits (by simp) (by simp [number]) more

omit ran

/-- The numbers under the origin of a worker increase just if the worker appends nothing after a heartbeat of a
child and the counter does not wrap round. -/
theorem numbers_increase_iff (ran : run act acts started = some w) :
    w.numbers.Pairwise (· < ·) ↔ unheard acts = true ∧ w.numbers.length < 2^31 := by
  have counted := numbers_run (n := 0) ran rfl (by simp [started]) rfl
  cases quiet : unheard acts with
  | false =>
    rw [quiet,if_neg (by decide)] at counted
    simp [counted]
  | true =>
    rw [quiet,if_pos rfl] at counted
    obtain ⟨m,is⟩ := counted
    rw [is,pairwise_firstNumbers]
    simp [firstNumbers]

theorem short_gate_increases : run act [.emit,.fork,.kill,.emit] started = some ⟨2,none,false,[1,2]⟩ ∧
    ([1,2] : List Int).Pairwise (· < ·) := by
  have ran : run act [.emit,.fork,.kill,.emit] started = some ⟨2,none,false,[1,2]⟩ := rfl
  exact ⟨ran,(numbers_increase_iff ran).mpr ⟨rfl,by decide⟩⟩

/-- The outcome of a gate that took longer than a heartbeat has the number of the heartbeat. -/
theorem heartbeat_number_repeats : ¬∀ acts w, run act acts started = some w → w.numbers.Pairwise (· < ·) := by
  intro increase
  have repeated : run act [.emit,.fork,.beat,.kill,.emit] started = some ⟨2,none,false,[1,2,2]⟩ := rfl
  exact absurd (increase _ _ repeated) (by decide)

end Objective9c.Grid.Journal
