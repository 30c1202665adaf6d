import Objective9c.Lib.Text

/-! Whole files sent to and fetched from a 9P server, in messages that ought to fit what `o9_connect` agreed on. -/
namespace Objective9c.Runtime.Transfer

open Text List

section Model

/-- The msize of a connection: 4096 is proposed, and the server may answer with less. -/
def agreed (server : Nat) : Nat := min 4096 server

/-- The length of a T-message, and that of the longest reply it asks for. -/
structure Sent where
  length : Nat
  reply : Nat

/-- What a transfer ends with, `none` for -1, and the messages it sent. -/
structure Outcome where
  result : Option Bytes
  sent : List Sent

def Outcome.after (t : Sent) (o : Outcome) : Outcome := ⟨o.result,t :: o.sent⟩

/-- The most that a Twrite takes along, from the size of `tx`, and that a Tread asks for, from the size of `rx`. -/
def writeMax : Nat := 8192 - 23

def readMax : Nat := 8192 - 12

/-- `o9_9p_write_bytes_all` from `off` on, with the remote file as its result. An answer is the count of an Rwrite or
an error; without a further one the connection has ended. -/
def o9WriteBytesAll (data : Bytes) (off : Nat) (file : Bytes) (answers : List (Option Nat)) : Outcome :=
  if data.length ≤ off then ⟨some file,[]⟩
  else
    let chunk := min (data.length - off) writeMax
    let t : Sent := ⟨23 + chunk,11⟩
    match answers with
    | some got :: rest =>
      if got = 0 ∨ chunk < got then ⟨none,[t]⟩
      else (o9WriteBytesAll data (off + got) (overwrite file off ((data.drop off).take got)) rest).after t
    | _ => ⟨none,[t]⟩

/-- `o9_9p_read_file_all` with `buf` read so far. An answer is how many bytes but one the server is ready to give; it
gives none only at the end of the file. -/
def o9ReadFileAll (file buf : Bytes) (answers : List (Option Nat)) : Outcome :=
  let t : Sent := ⟨23,11 + readMax⟩
  match answers with
  | some most :: rest =>
    let part := (file.drop buf.length).take (min (most + 1) readMax)
    if part = [] then ⟨some buf,[t]⟩
    else if 4 * 1024 * 1024 < buf.length + part.length then ⟨none,[t]⟩
    else (o9ReadFileAll file (buf ++ part) rest).after t
  | _ => ⟨none,[t]⟩

/-- The bytes are right or failure is reported, and no message is too long. -/
structure Outcome.Good (right : Bytes → Prop) (msize : Nat) (o : Outcome) : Prop where
  result : ∀ bytes, o.result = some bytes → right bytes
  sent : ∀ t ∈ o.sent, t.length ≤ msize ∧ t.reply ≤ msize

inductive Op where
  | write (data file : Bytes)
  | read (file : Bytes)

def Op.Proper (msize : Nat) : Op → Prop
  | .write data file => ∀ answers, (o9WriteBytesAll data 0 file answers).Good (·.take data.length = data) msize
  | .read file => ∀ answers, (o9ReadFileAll file [] answers).Good (· = file) msize

/-- No message is sent, or the longest one fits. -/
def Op.Fits (msize : Nat) : Op → Prop
  | .write data _ => data = [] ∨ 23 + min data.length writeMax ≤ msize
  | .read _ => 11 + readMax ≤ msize

end Model

section Transfers

variable {right : Bytes → Prop} {msize : Nat} {t : Sent} {o : Outcome} {data file buf : Bytes}

theorem Outcome.Good.failed (fits : t.length ≤ msize ∧ t.reply ≤ msize) : Outcome.Good right msize ⟨none,[t]⟩ :=
  ⟨nofun,by simpa using fits⟩

theorem Outcome.Good.after (good : o.Good right msize) (fits : t.length ≤ msize ∧ t.reply ≤ msize) :
    (o.after t).Good right msize :=
  ⟨good.result,forall_mem_cons.mpr ⟨fits,good.sent⟩⟩

theorem take_overwrite (inside : off ≤ file.length) (part : Bytes) :
    (overwrite file off part).take (off + part.length) = file.take off ++ part := by
  unfold overwrite
  rw [Nat.sub_eq_zero_of_le inside,replicate_zero,append_nil]
  exact take_left' (by simp [inside])

/-- What the remote file has up to `off` is what the data has. -/
theorem write_good (fits : 23 + min data.length writeMax ≤ msize) (answers : List (Option Nat))
    (below : off ≤ data.length) (same : file.take off = data.take off) :
    (o9WriteBytesAll data off file answers).Good (·.take data.length = data) msize := by
  fun_induction o9WriteBytesAll data off file answers with
  | case1 off file answers all =>
    refine ⟨?_,nofun⟩
    rintro bytes ⟨⟩
    rwa [Nat.le_antisymm below all,take_length] at same
  | case2 | case4 => exact .failed ⟨by grind,by grind⟩
  | case3 off file short chunk t got rest good ih =>
    have whole : ((data.drop off).take got).length = got := by grind
    have inside : off ≤ file.length := by
      have lengths := congrArg List.length same
      grind
    refine (ih (by grind) ?_).after ⟨by grind,by grind⟩
    have written := take_overwrite inside ((data.drop off).take got)
    rwa [whole,same,← take_add] at written

theorem read_good (fits : 11 + readMax ≤ msize) (answers : List (Option Nat)) (same : file.take buf.length = buf) :
    (o9ReadFileAll file buf answers).Good (· = file) msize := by
  have room : 23 ≤ msize ∧ 11 + readMax ≤ msize := ⟨Nat.le_trans (by decide) fits,fits⟩
  fun_induction o9ReadFileAll file buf answers with
  | case1 buf t most rest part last =>
    refine ⟨?_,by simpa [t] using room⟩
    rintro bytes ⟨⟩
    have ended : file.drop buf.length = [] := by simpa [part,readMax] using last
    rw [← same]
    exact take_of_length_le (drop_eq_nil_iff.mp ended)
  | case2 | case4 => exact .failed room
  | case3 buf t most rest part more small ih =>
    refine (ih ?_).after room
    rw [length_append,take_add,same]
    simp [part,take_eq_take_iff]

theorem Op.Proper.fits (op : Op) (proper : op.Proper msize) : op.Fits msize := by
  cases op with
  | write data =>
    by_cases none : data = []
    · exact .inl none
    · refine .inr ((proper []).sent ⟨23 + min data.length writeMax,11⟩ ?_).1
      simp [o9WriteBytesAll,none]
  | read => exact ((proper []).sent _ (mem_singleton.mpr rfl)).2

theorem proper_iff (op : Op) (server : Nat) : op.Proper (agreed server) ↔ op.Fits (agreed server) := by
  refine ⟨Op.Proper.fits op,?_⟩
  intro fits
  cases op with
  | write =>
    intro answers
    rcases fits with rfl | fits
    · rw [o9WriteBytesAll]
      exact ⟨fun bytes _ => rfl,nofun⟩
    · exact write_good fits answers (Nat.zero_le _) rfl
  | read => exact fun answers => read_good fits answers rfl

/-- A read of an empty file asks for 8180 bytes over a connection that was set up for messages of 4096. -/
theorem read_beyond_msize : ¬(Op.read []).Proper (agreed 8192) := by
  intro proper
  have fits : 11 + readMax ≤ agreed 8192 := Op.Proper.fits _ proper
  exact absurd fits (by decide)

end Transfers

end Objective9c.Runtime.Transfer
