import Mathlib.Data.List.Forall2

/-! Texts and their lines. A text is cut at every line end; a loop that reads line by line does not
see the empty line behind the last line end. -/
namespace Lines

open List

theorem modifyHead_nil_append (lines : List (List α)) : lines.modifyHead ([] ++ ·) = lines := by
  cases lines <;> rfl

variable {α : Type u} [DecidableEq α] {nl : α}

/-- The loop: `line` is what was read since the last line end. -/
def read (nl : α) (line : List α) : List α → List (List α)
  | [] => if line = [] then [] else [line]
  | c :: rest => if c = nl then line :: read nl [] rest else read nl (line ++ [c]) rest

/-- Without a last element that is empty. -/
def seen (lines : List (List α)) : List (List α) := if lines.getLast? = some [] then lines.dropLast else lines

theorem seen_cons (line : List α) (more : lines ≠ []) : seen (line :: lines) = line :: seen lines := by
  unfold seen
  rw [getLast?_cons_of_ne_nil more,dropLast_cons_of_ne_nil more]
  split <;> rfl

theorem read_eq (line text : List α) : read nl line text = seen ((text.splitOn nl).modifyHead (line ++ ·)) := by
  induction text generalizing line with
  | nil =>
    by_cases empty : line = [] <;> simp [read,seen,empty]
  | cons c rest ih =>
    rw [splitOn_cons_eq_if_modifyHead,read]
    by_cases ends : c = nl
    · subst ends
      rw [if_pos rfl,if_pos (by simp),modifyHead_cons,append_nil,
        seen_cons line (splitOn_ne_nil c rest),ih,modifyHead_nil_append]
    · rw [if_neg ends,if_neg (by simpa using ends),modifyHead_modifyHead,ih]
      congr 2
      funext part
      simp

theorem read_append (clean : nl ∉ part) (line rest : List α) : read nl line (part ++ rest) = read nl (line ++ part) rest := by
  induction part generalizing line with
  | nil => simp
  | cons c part ih =>
    rw [mem_cons,not_or] at clean
    rw [cons_append,read,if_neg (Ne.symm clean.1),ih clean.2,append_assoc,singleton_append]

theorem length_read (line : List α) (some : text ≠ []) : (read nl line text).length = (read nl [] text).length := by
  have begun (text : List α) {first second : List α} (left : first ≠ []) (right : second ≠ []) :
      (read nl first text).length = (read nl second text).length := by
    induction text generalizing first second with
    | nil => simp [read,left,right]
    | cons c rest ih =>
      rw [read,read]
      split
      · rfl
      · exact ih (by simp) (by simp)
  obtain ⟨c,rest,rfl⟩ := exists_cons_of_ne_nil some
  rw [read,read]
  split
  · rfl
  · exact begun rest (by simp) (by simp)

theorem not_mem_of_mem_splitOn {text : List α} (member : line ∈ text.splitOn nl) : nl ∉ line ∧ line.Sublist text := by
  induction text generalizing line with
  | nil => simp_all
  | cons c rest ih =>
    rw [splitOn_cons_eq_if_modifyHead] at member
    split at member
    next here =>
      rcases mem_cons.mp member with rfl | member
      · simp
      · obtain ⟨clean,sub⟩ := ih member
        exact ⟨clean,sub.cons _⟩
    next here =>
      obtain ⟨first,more,parts⟩ := exists_cons_of_ne_nil (splitOn_ne_nil nl rest)
      rw [parts,modifyHead_cons,mem_cons] at member
      rw [parts] at ih
      rcases member with rfl | member
      · obtain ⟨clean,sub⟩ := ih mem_cons_self
        have apart : nl ≠ c := by
          rintro rfl
          simp at here
        refine ⟨?_,sub.cons_cons _⟩
        simp [apart,clean]
      · obtain ⟨clean,sub⟩ := ih (mem_cons_of_mem _ member)
        exact ⟨clean,sub.cons _⟩

/-- The numbers of the lines behind line `n`. -/
def counts (nl : α) (n : Nat) : List α → List Nat
  | [] => []
  | c :: rest => if c = nl then (n + 1) :: counts nl (n + 1) rest else counts nl n rest

theorem counts_eq (n : Nat) (text : List α) : n :: counts nl n text = List.range' n (text.splitOn nl).length := by
  induction text generalizing n with
  | nil => simp [counts]
  | cons c rest ih =>
    rw [splitOn_cons_eq_if_modifyHead,counts]
    by_cases ends : c = nl
    · rw [if_pos ends,if_pos (by simp [ends]),ih,length_cons,range'_succ]
    · rw [if_neg ends,if_neg (by simpa using ends),length_modifyHead,ih]

theorem forall₂_splitOn (ends : ∀ a b, r a b → (a = nl ↔ b = nl)) (agree : List.Forall₂ r s t) :
    List.Forall₂ (List.Forall₂ r) (s.splitOn nl) (t.splitOn nl) := by
  induction agree with
  | nil => simp
  | @cons a b s t here _ ih =>
    rw [splitOn_cons_eq_if_modifyHead,splitOn_cons_eq_if_modifyHead]
    by_cases first : a = nl
    · have second := (ends a b here).mp first
      rw [if_pos (by simp [first]),if_pos (by simp [second])]
      exact .cons .nil ih
    · have second : b ≠ nl := fun same => first ((ends a b here).mpr same)
      rw [if_neg (by simpa using first),if_neg (by simpa using second)]
      obtain ⟨p,ps,left⟩ := exists_cons_of_ne_nil (splitOn_ne_nil nl s)
      obtain ⟨q,qs,right⟩ := exists_cons_of_ne_nil (splitOn_ne_nil nl t)
      rw [left,right] at ih ⊢
      obtain ⟨head,tail⟩ := forall₂_cons.mp ih
      exact .cons (.cons here head) tail

end Lines
