import Mathlib.Data.List.TakeWhile

/-! Rows of separated fields. `split` is the usual loop over a row that is allowed a number of
fields: a separator begins the next field, a stop character ends the row, and the last allowed
field takes the rest as it is, separators and stop characters included. -/
namespace Fields

open List

variable {α : Type u} [DecidableEq α] {sep : α} {stop : α → Bool}

/-- Neither a separator nor a stop character. -/
def plain (sep : α) (stop : α → Bool) (c : α) : Bool := c ≠ sep && !stop c

def split (sep : α) (stop : α → Bool) : Nat → List α → List (List α)
  | 0, _ => []
  | 1, text => [text]
  | n+2, text =>
    let field := text.takeWhile (plain sep stop)
    match text.dropWhile (plain sep stop) with
    | [] => [field]
    | c :: rest => if c = sep then field :: split sep stop (n+1) rest else [field]

def join (sep : α) : List (List α) → List α
  | [] => []
  | [field] => field
  | field :: rest => field ++ sep :: join sep rest

def Clean (sep : α) (stop : α → Bool) (field : List α) : Prop := ∀ c ∈ field, c ≠ sep ∧ stop c = false

theorem plain_iff : plain sep stop c = true ↔ c ≠ sep ∧ stop c = false := by
  simp [plain]

theorem takeWhile_clean (clean : Clean sep stop field) (rest : List α)
    (ends : ∀ c ∈ rest.head?, plain sep stop c = false) : (field ++ rest).takeWhile (plain sep stop) = field ∧
      (field ++ rest).dropWhile (plain sep stop) = rest := by
  have all : ∀ c ∈ field, plain sep stop c = true := fun c member => plain_iff.mpr (clean c member)
  rw [takeWhile_append_of_pos all,dropWhile_append_of_pos all]
  cases rest with
  | nil => simp
  | cons c =>
    have here : plain sep stop c = false := ends c rfl
    simp [here]

theorem split_sep (n : Nat) (clean : Clean sep stop field) (rest : List α) :
    split sep stop (n+2) (field ++ sep :: rest) = field :: split sep stop (n+1) rest := by
  obtain ⟨taken,dropped⟩ := takeWhile_clean clean (sep :: rest) (by simp [plain])
  simp only [split,taken,dropped]
  simp

theorem split_end (n : Nat) (clean : Clean sep stop field) : split sep stop (n+2) field = [field] := by
  obtain ⟨taken,dropped⟩ := takeWhile_clean clean [] (by simp)
  rw [append_nil] at taken dropped
  simp only [split,taken,dropped]

theorem split_stop (n : Nat) (clean : Clean sep stop field) (apart : c ≠ sep) (stops : stop c = true)
    (rest : List α) : split sep stop (n+2) (field ++ c :: rest) = [field] := by
  obtain ⟨taken,dropped⟩ := takeWhile_clean clean (c :: rest) (by simp [plain,stops])
  simp only [split,taken,dropped]
  simp [apart]

omit [DecidableEq α] in
theorem join_cons (field : List α) (more : rest ≠ []) :
    join sep (field :: rest) = field ++ sep :: join sep rest := by
  cases rest with
  | nil => contradiction
  | cons => rfl

theorem split_join (fields : List (List α)) (last : List α) (clean : ∀ field ∈ fields, Clean sep stop field) :
    split sep stop (fields.length + 1) (join sep (fields ++ [last])) = fields ++ [last] := by
  induction fields with
  | nil => rfl
  | cons field rest ih =>
    rw [cons_append,join_cons field (by simp),length_cons,
      split_sep rest.length (clean field (mem_cons_self ..)),
      ih (fun f member => clean f (mem_cons_of_mem _ member))]

/-- Where the loop ends: at the end of a clean text, or at the first character that is not. -/
theorem split_cases (sep : α) (stop : α → Bool) (n : Nat) (text : List α) :
    (Clean sep stop text ∧ split sep stop (n+2) text = [text]) ∨
    (∃ field rest, text = field ++ sep :: rest ∧ Clean sep stop field ∧
      split sep stop (n+2) text = field :: split sep stop (n+1) rest) ∨
    (∃ field c rest, text = field ++ c :: rest ∧ Clean sep stop field ∧ c ≠ sep ∧ stop c = true ∧
      split sep stop (n+2) text = [field]) := by
  have cut : text.takeWhile (plain sep stop) ++ text.dropWhile (plain sep stop) = text :=
    takeWhile_append_dropWhile
  have clean : Clean sep stop (text.takeWhile (plain sep stop)) :=
    fun c member => plain_iff.mp (mem_takeWhile_imp member)
  have ends : ∀ c ∈ (text.dropWhile (plain sep stop)).head?, plain sep stop c = false := by
    intro c here
    simpa [Option.mem_def.mp here] using head?_dropWhile_not (plain sep stop) text
  generalize text.takeWhile (plain sep stop) = field at cut clean
  generalize text.dropWhile (plain sep stop) = rest at cut ends
  subst cut
  cases rest with
  | nil =>
    rw [append_nil]
    exact .inl ⟨clean,split_end n clean⟩
  | cons c rest =>
    by_cases same : c = sep
    · subst same
      exact .inr (.inl ⟨field,rest,rfl,clean,split_sep n clean rest⟩)
    · have stops : stop c = true := by
        have bad := ends c rfl
        simpa [plain,same] using bad
      exact .inr (.inr ⟨field,c,rest,rfl,clean,same,stops,split_stop n clean same stops rest⟩)

theorem join_of_split (n : Nat) (text : List α) (full : (split sep stop (n+1) text).length = n+1) :
    ∃ fields last, fields.length = n ∧ (∀ field ∈ fields, Clean sep stop field) ∧
      text = join sep (fields ++ [last]) ∧ split sep stop (n+1) text = fields ++ [last] := by
  induction n generalizing text with
  | zero => exact ⟨[],text,rfl,by simp,rfl,rfl⟩
  | succ n ih =>
    rcases split_cases sep stop n text with ⟨_,eq⟩ | ⟨field,rest,rfl,clean,eq⟩ | ⟨_,_,_,_,_,_,_,eq⟩
    · simp [eq] at full
    · rw [eq,length_cons,Nat.add_right_cancel_iff] at full
      obtain ⟨fields,last,count,cleans,joined,again⟩ := ih rest full
      refine ⟨field :: fields,last,by simp [count],?_,?_,?_⟩
      · intro f member
        rcases mem_cons.mp member with rfl | member
        · exact clean
        · exact cleans f member
      · rw [cons_append,join_cons field (by simp),joined]
      · rw [eq,again,cons_append]
    · simp [eq] at full

end Fields
