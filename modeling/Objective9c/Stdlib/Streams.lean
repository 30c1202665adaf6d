import Mathlib.Data.List.DropRight
import Objective9c.Lib.Text
import Objective9c.Lib.Lines

/-! The line readers of `io.o9`, `StreamReader` and `Lines`, over a `Biobuf`. What is left to read is one text:
the buffer only limits how far `Brdline` can look. -/
namespace Objective9c.Streams

open Text List

/-- `Brdline(b, '\n')` with a buffer of `size` bytes: the line and what follows it, or nothing if the file or the
buffer ends before the newline. -/
def brdline (size : Nat) (left : Bytes) : Option (Bytes × Bytes) :=
  match left.dropWhile (· ≠ newline) with
  | [] => none
  | c :: rest =>
    if (left.takeWhile (· ≠ newline)).length < size then some (left.takeWhile (· ≠ newline) ++ [c],rest) else none

/-- `while(n > 0 && (line[n-1] == '\n' || line[n-1] == '\r')) n--;` -/
def bare (line : Bytes) : Bytes := line.rdropWhile fun c => c = newline || c = carriage

/-- `O9StreamReadLineRaw` -/
def readLine (size : Nat) (left : Bytes) : Bytes × Bytes :=
  match brdline size left with
  | some (line,rest) => (bare line,rest)
  | none => ([],left)

/-- `O9StreamEofRaw`: `Bgetc`, and `Bungetc` if there was a byte. -/
def eof (left : Bytes) : Bool := left.isEmpty

/-- `while(!r.eof()) take(r.next());` and the lines taken, if it ends in fewer rounds than `fuel`. -/
def takeLines (size : Nat) : Nat → Bytes → Option (List Bytes)
  | 0, _ => none
  | fuel+1, left =>
    if eof left then some []
    else (takeLines size fuel (readLine size left).2).map ((readLine size left).1 :: ·)

/-- The lines of a file, without carriage returns at their ends. -/
def fileLines (file : Bytes) : List Bytes := (Lines.read newline [] file).map bare

variable {size : Nat} {line file : Bytes}

theorem brdline_line (clean : newline ∉ line) (rest : Bytes) : brdline size (line ++ newline :: rest) =
    if line.length < size then some (line ++ [newline],rest) else none := by
  have all : ∀ c ∈ line, decide (c ≠ newline) = true := by
    intro c member
    exact decide_eq_true (ne_of_mem_of_not_mem member clean)
  rw [brdline,dropWhile_append_of_pos all,takeWhile_append_of_pos all]
  simp

theorem brdline_none (clean : newline ∉ file) : brdline size file = none := by
  have all : ∀ c ∈ file, decide (c ≠ newline) = true := by
    intro c member
    exact decide_eq_true (ne_of_mem_of_not_mem member clean)
  rw [brdline,dropWhile_eq_nil_iff.mpr all]

/-- What `Brdline` does not give is still there at the next test for the end. -/
theorem takeLines_stuck (more : file ≠ []) (stuck : brdline size file = none) (fuel : Nat) :
    takeLines size fuel file = none := by
  induction fuel with
  | zero => rfl
  | succ fuel ih => simp [takeLines,eof,readLine,stuck,more,ih]

theorem read_line (clean : newline ∉ line) (rest : Bytes) :
    Lines.read newline [] (line ++ newline :: rest) = line :: Lines.read newline [] rest := by
  rw [Lines.read_append clean,nil_append,Lines.read,if_pos rfl]

theorem takeLines_line (clean : newline ∉ line) (fits : line.length < size) (rest : Bytes) :
    (∃ fuel, takeLines size fuel (line ++ newline :: rest) = some (fileLines (line ++ newline :: rest))) ↔
      ∃ fuel, takeLines size fuel rest = some (fileLines rest) := by
  have read : readLine size (line ++ newline :: rest) = (bare line,rest) := by
    simp [readLine,brdline_line clean,fits,bare]
  have step (fuel : Nat) : takeLines size (fuel+1) (line ++ newline :: rest) =
      (takeLines size fuel rest).map (bare line :: ·) := by
    simp [takeLines,eof,read]
  have lines : fileLines (line ++ newline :: rest) = bare line :: fileLines rest := by
    simp [fileLines,read_line clean]
  constructor
  · rintro ⟨_ | fuel,ended⟩
    · cases ended
    · rw [step,lines] at ended
      exact ⟨fuel,by simpa using ended⟩
  · rintro ⟨fuel,ended⟩
    exact ⟨fuel+1,by rw [step,lines,ended]; rfl⟩

/-- The loop ends with the lines of the file just when the last line has its newline and every line fits into the
buffer. -/
theorem lines_complete_iff (size : Nat) (file : Bytes) :
    (∃ fuel, takeLines size fuel file = some (fileLines file)) ↔
      (∀ c ∈ file.getLast?, c = newline) ∧ ∀ line ∈ Lines.read newline [] file, line.length < size := by
  induction long : file.length using Nat.strong_induction_on generalizing file with | _ n ih =>
  by_cases ends : newline ∈ file
  · obtain ⟨line,rest,rfl,clean⟩ := eq_append_cons_of_mem ends
    have last : (∀ c ∈ (line ++ newline :: rest).getLast?, c = newline) ↔ ∀ c ∈ rest.getLast?, c = newline := by
      cases rest <;> simp [getLast?_append]
    rw [last,read_line clean,forall_mem_cons]
    by_cases fits : line.length < size
    · rw [takeLines_line clean fits,ih rest.length (by simp [← long]; omega) rest rfl]
      simp [fits]
    · have stuck (fuel : Nat) : takeLines size fuel (line ++ newline :: rest) = none :=
        takeLines_stuck (by simp) (by simp [brdline_line clean,fits]) fuel
      simp [stuck,fits]
  · rcases eq_nil_or_concat file with rfl | ⟨front,c,rfl⟩
    · simp only [getLast?_nil,Lines.read]
      exact ⟨fun _ => by simp,fun _ => ⟨1,rfl⟩⟩
    · have other : c ≠ newline := by
        rintro rfl
        simp at ends
      have stuck (fuel : Nat) : takeLines size fuel (front.concat c) = none :=
        takeLines_stuck (by simp) (brdline_none ends) fuel
      simp_all

/-- With no buffer is every file read to its end: not one whose last line has no newline. -/
theorem unended_line_hangs : ¬∃ size, ∀ file, ∃ fuel, takeLines size fuel file = some (fileLines file) := by
  rintro ⟨size,complete⟩
  obtain ⟨fuel,ended⟩ := complete [97]
  rw [takeLines_stuck (by simp) (brdline_none (by decide))] at ended
  cases ended

end Objective9c.Streams
