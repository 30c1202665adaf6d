import Objective9c.Lib.Transition

/-! Critical sections under a lock. Each operation is a list of small actions on the shared state and on its own
local variables, and processes are interleaved between the actions. -/
namespace Mutex

open Transition

variable {ι : Type u} {ο : Type v} {σ : Type w} {τ : Type x}

/-- The actions of an operation, between taking the lock and giving it back, and its local variables before. -/
structure Sections (ο : Type v) (σ : Type w) (τ : Type x) where
  locals : ο → τ
  body : ο → List (σ → τ → σ × τ)

/-- The process that has the lock and what it still has to do. -/
structure Holder (ι : Type u) (ο : Type v) (σ : Type w) (τ : Type x) where
  process : ι
  op : ο
  left : List (σ → τ → σ × τ)
  locals : τ

/-- The log has the operations that gave the lock back, with their local variables then. -/
structure State (ι : Type u) (ο : Type v) (σ : Type w) (τ : Type x) where
  shared : σ
  holder : Option (Holder ι ο σ τ) := none
  log : List (ι × ο × τ) := []

inductive Label (ι : Type u) (ο : Type v) where
  | lock (process : ι) (op : ο)
  | advance (process : ι)
  | unlock (process : ι)

def step [DecidableEq ι] (S : Sections ο σ τ) : Label ι ο → State ι ο σ τ → Option (State ι ο σ τ)
  | .lock p op, s => match s.holder with
    | none => some { s with holder := some ⟨p,op,S.body op,S.locals op⟩ }
    | some _ => none
  | .advance p, s => match s.holder with
    | some ⟨q,op,act :: left,locals⟩ =>
      if p = q then some { s with
        shared := (act s.shared locals).1, holder := some ⟨q,op,left,(act s.shared locals).2⟩ }
      else none
    | _ => none
  | .unlock p, s => match s.holder with
    | some ⟨q,op,[],locals⟩ =>
      if p = q then some { s with holder := none, log := s.log ++ [(p,op,locals)] } else none
    | _ => none

def exec : List (σ → τ → σ × τ) → σ → τ → σ × τ
  | [], s, l => (s,l)
  | act :: rest, s, l => exec rest (act s l).1 (act s l).2

def perform (S : Sections ο σ τ) (op : ο) (s : σ) : σ × τ := exec (S.body op) s (S.locals op)

/-- The logged operations, one after the other, lead from the first state to the second and leave the logged
local variables. -/
inductive Serial (S : Sections ο σ τ) (start : σ) : List (ι × ο × τ) → σ → Prop where
  | nil : Serial S start [] start
  | snoc (p : ι) (op : ο) : Serial S start log s →
      Serial S start (log ++ [(p,op,(perform S op s).2)]) (perform S op s).1

/-- The shared state is where the logged operations lead to, and the holder has gone so far from there. -/
def Between (S : Sections ο σ τ) (start : σ) (s : State ι ο σ τ) : Prop :=
  ∃ last, Serial S start s.log last ∧ match s.holder with
    | none => s.shared = last
    | some h => ∃ done, S.body h.op = done ++ h.left ∧ exec done last (S.locals h.op) = (s.shared,h.locals)

theorem exec_append (first second : List (σ → τ → σ × τ)) (s : σ) (l : τ) :
    exec (first ++ second) s l = exec second (exec first s l).1 (exec first s l).2 := by
  induction first generalizing s l with
  | nil => rfl
  | cons act rest ih => exact ih (act s l).1 (act s l).2

/-- What each operation preserves between the log and the shared state, all of them preserve. -/
theorem Serial.invariant (serial : Serial S start log last)
    (inv : List (ι × ο × τ) → σ → Prop) (initial : inv [] start)
    (kept : ∀ log s p op, inv log s → inv (log ++ [(p,op,(perform S op s).2)]) (perform S op s).1) :
    inv log last := by
  induction serial with
  | nil => exact initial
  | snoc p op _ ih => exact kept _ _ p op ih

variable [DecidableEq ι] {S : Sections ο σ τ} {start : σ}

theorem Between.kept {a : Label ι ο} (between : Between S start s)
    (stepped : step S a s = some next) : Between S start next := by
  obtain ⟨last,serial,place⟩ := between
  obtain ⟨shared,holder,log⟩ := s
  cases a with
  | lock =>
    cases holder with
    | some => simp [step] at stepped
    | none =>
      cases stepped
      obtain rfl : shared = last := place
      exact ⟨shared,serial,[],rfl,rfl⟩
  | advance p =>
    match holder, place with
    | none, _ => simp [step] at stepped
    | some ⟨q,op,[],locals⟩, _ => simp [step] at stepped
    | some ⟨q,op,act :: left,locals⟩, ⟨done,split,there⟩ =>
      by_cases same : p = q
      · obtain rfl : _ = next := by simpa [step,same] using stepped
        refine ⟨last,serial,done ++ [act],by simpa using split,?_⟩
        rw [exec_append,there]
        rfl
      · simp [step,same] at stepped
  | unlock p =>
    match holder, place with
    | none, _ => simp [step] at stepped
    | some ⟨q,op,act :: left,locals⟩, _ => simp [step] at stepped
    | some ⟨q,op,[],locals⟩, ⟨done,split,there⟩ =>
      by_cases same : p = q
      · obtain rfl : _ = next := by simpa [step,same] using stepped
        have whole : perform S op last = (shared,locals) := by
          rw [perform,split,List.append_nil]
          exact there
        refine ⟨shared,?_,rfl⟩
        have logged := serial.snoc q op
        simpa [whole] using logged
      · simp [step,same] at stepped

/-- However the processes are interleaved, their operations take effect one after the other. -/
theorem run_between (labels : List (Label ι ο))
    (ran : run (step S) labels { shared := start } = some final) : Between S start final :=
  run_invariant (Between S start) (fun _ _ _ between stepped => between.kept stepped) labels _ final
    ⟨start,.nil,rfl⟩ ran

end Mutex
