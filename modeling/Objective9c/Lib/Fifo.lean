import Mathlib.Data.List.Basic

/-! Bounded queues as their history shows them. What was put in and not yet taken out is the queue; a put fails
when it is full and a take when it is empty. -/
namespace Fifo

open List

variable {α : Type u}

inductive Event (α : Type u) where
  | put (item : α) (accepted : Bool)
  | take (result : Option α)
deriving DecidableEq

def Event.entered : Event α → Option α
  | .put item true => some item
  | _ => none

def Event.left : Event α → Option α
  | .take result => result
  | _ => none

/-- All items that were accepted, in that order. -/
def entered (history : List (Event α)) : List α := history.filterMap Event.entered

/-- All items that were taken, in that order. -/
def left (history : List (Event α)) : List α := history.filterMap Event.left

def Answers (capacity : Nat) (queue : List α) : Event α → Prop
  | .put _ accepted => accepted = false ↔ queue.length = capacity
  | .take result => result = queue.head?

/-- At each event the items that are in and not out are no more than the capacity, in the order in which they went in,
and the event is answered as their queue has to. -/
def Obeys (capacity : Nat) (history : List (Event α)) : Prop :=
  ∀ before event after, history = before ++ event :: after →
    ∃ queue, entered before = left before ++ queue ∧ queue.length ≤ capacity ∧ Answers capacity queue event

theorem entered_snoc (history : List (Event α)) (event : Event α) :
    entered (history ++ [event]) = entered history ++ event.entered.toList := by
  cases held : event.entered <;> simp [entered,held]

theorem left_snoc (history : List (Event α)) (event : Event α) :
    left (history ++ [event]) = left history ++ event.left.toList := by
  cases held : event.left <;> simp [left,held]

theorem Obeys.nil : Obeys capacity ([] : List (Event α)) := by
  intro before event after split
  simp at split

theorem Obeys.snoc (obeys : Obeys capacity history)
    (queued : entered history = left history ++ queue) (fits : queue.length ≤ capacity)
    (answered : Answers capacity queue event) : Obeys capacity (history ++ [event]) := by
  intro before event' after split
  rcases eq_nil_or_concat after with rfl | ⟨after,last,rfl⟩
  · obtain ⟨rfl,same⟩ := append_inj' split rfl
    obtain rfl := singleton_inj.mp same
    exact ⟨queue,queued,fits,answered⟩
  · have shifted : history ++ [event] = (before ++ event' :: after) ++ [last] := by simpa using split
    exact obeys before event' after (append_inj' shifted rfl).1

end Fifo
