import Mathlib.Data.List.Basic

/-! Open addressing. A search walks the cells in a fixed order and stops at the first empty one, so what was
stored stays in reach as long as no cell before it becomes empty again; a removed item leaves a mark. -/
namespace Probing

open List Function

inductive Cell (ι : Type u) where
  | empty
  | gone
  | holds (i : ι)
deriving DecidableEq

variable {κ : Type u} {ι : Type v}

/-- The first cell of the walk whose item satisfies `p`. -/
def find (cells : κ → Cell ι) (p : ι → Bool) : List κ → Option (κ × ι)
  | [] => none
  | c :: rest => match cells c with
    | .empty => none
    | .gone => find cells p rest
    | .holds i => if p i then some (c,i) else find cells p rest

/-- The first cell of the walk that an item can be stored in. -/
def free (cells : κ → Cell ι) : List κ → Option κ
  | [] => none
  | c :: rest => match cells c with
    | .holds _ => free cells rest
    | _ => some c

/-- The walk comes to the cell without meeting an empty one. -/
def Reaches (cells : κ → Cell ι) (walk : List κ) (c : κ) : Prop :=
  ∃ before after, walk = before ++ c :: after ∧ ∀ d ∈ before, cells d ≠ .empty

section Search

variable {cells : κ → Cell ι} {p : ι → Bool} {walk : List κ}

theorem find_some (found : find cells p walk = some (c,i)) : cells c = .holds i ∧ p i = true := by
  induction walk with
  | nil => simp [find] at found
  | cons d rest ih =>
    unfold find at found
    cases content : cells d with
    | empty => simp [content] at found
    | gone => exact ih (by simpa [content] using found)
    | holds j =>
      by_cases matched : p j = true
      · obtain ⟨rfl,rfl⟩ : d = c ∧ j = i := by simpa [content,matched] using found
        exact ⟨content,matched⟩
      · exact ih (by simpa [content,matched] using found)

theorem find_isSome (reaches : Reaches cells walk c) (stored : cells c = .holds i) (matched : p i = true) :
    (find cells p walk).isSome := by
  obtain ⟨before,after,rfl,filled⟩ := reaches
  induction before with
  | nil => simp [find,stored,matched]
  | cons d rest ih =>
    have later := ih fun e member => filled e (mem_cons_of_mem d member)
    have here := filled d mem_cons_self
    rw [cons_append]
    unfold find
    cases content : cells d with
    | empty => exact absurd content here
    | gone => exact later
    | holds j => cases matched' : p j <;> simp [matched',later]

theorem free_some (room : free cells walk = some c) : Reaches cells walk c ∧ ∀ i, cells c ≠ .holds i := by
  induction walk with
  | nil => simp [free] at room
  | cons d rest ih =>
    unfold free at room
    cases content : cells d with
    | empty | gone =>
      obtain rfl : d = c := by simpa [content] using room
      exact ⟨⟨[],rest,rfl,by simp⟩,by simp [content]⟩
    | holds =>
      obtain ⟨⟨before,after,rfl,filled⟩,vacant⟩ := ih (by simpa [content] using room)
      refine ⟨⟨d :: before,after,rfl,?_⟩,vacant⟩
      rintro e (_ | ⟨_,member⟩)
      · simp [content]
      · exact filled e member

theorem free_isSome (member : c ∈ walk) (vacant : ∀ i, cells c ≠ .holds i) : (free cells walk).isSome := by
  induction walk with
  | nil => simp at member
  | cons d rest ih =>
    unfold free
    cases content : cells d with
    | empty => rfl
    | gone => rfl
    | holds j =>
      rcases mem_cons.mp member with rfl | member
      · exact absurd content (vacant j)
      · exact ih member

theorem Reaches.update [DecidableEq κ] (reaches : Reaches cells walk c) (filled : content ≠ .empty) :
    Reaches (update cells d content) walk c := by
  obtain ⟨before,after,split,before_filled⟩ := reaches
  refine ⟨before,after,split,fun e member => ?_⟩
  by_cases same : e = d
  · subst same
    simpa using filled
  · rw [update_of_ne same]
    exact before_filled e member

end Search

end Probing
