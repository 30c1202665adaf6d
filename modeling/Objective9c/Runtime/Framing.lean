import Objective9c.Runtime.Numbers

/-! The reply to a 9P request, read from a connection that may hand its bytes over in any pieces. -/
namespace Objective9c.Runtime.Framing

open Text Numbers List

section Model

/-- The bytes of the reply that have not been read, and how many bytes but one each read will find. -/
structure Fd where
  pending : Bytes
  cuts : List Nat

def read (want : Nat) (fd : Fd) : Bytes × Fd :=
  let n := min want (min fd.pending.length (fd.cuts.headD want + 1))
  (fd.pending.take n,⟨fd.pending.drop n,fd.cuts.tail⟩)

/-- Reads until there are `target` bytes, asking for `ask n` when there are `n`. A read of nothing fails. -/
def readTo (target : Nat) (ask : Nat → Nat) : Nat → Bytes → Fd → Bool × Bytes × Fd
  | 0, rx, fd => (decide (target ≤ rx.length),rx,fd)
  | fuel + 1, rx, fd =>
    if target ≤ rx.length then (true,rx,fd)
    else
      let (got,after) := read (ask rx.length) fd
      if got = [] then (false,rx,after) else readTo target ask fuel (rx ++ got) after

def asInt (n : Nat) : Int := if n < 2 ^ 31 then n else n - 2 ^ 32

def o9Drain (nleft : Int) (fd : Fd) : Fd :=
  (readTo nleft.toNat (fun n => min (nleft.toNat - n) 512) nleft.toNat [] fd).2.2

/-- The result, the buffer, and the text that `werrstr` is given. -/
structure Reply where
  result : Option Nat
  rx : Bytes
  errstr : Option Bytes

def o9ErrorText (rx : Bytes) : Bytes :=
  let elen := min (littleValue ((rx.drop 7).take 2)) 127
  let err := if 9 + elen ≤ rx.length then cstr ((rx.drop 9).take elen) else []
  if err = [] then ascii "9P error" else err

def o9Judge (want : UInt8) (size : Nat) (rx : Bytes) : Reply :=
  match rx[4]? with
  | none => ⟨none,rx,none⟩
  | some type =>
    if type = 107 then ⟨none,rx,some (o9ErrorText rx)⟩
    else if want ≠ 0 ∧ type ≠ want then ⟨none,rx,none⟩
    else ⟨some size,rx,none⟩

/-- `o9_9p_rpc` from its first read on. That read is a turn of the loop to four bytes, which finds none before it. -/
def o9Rpc (nrx : Nat) (want : UInt8) (fd : Fd) : Reply × Fd :=
  match readTo 4 (nrx - ·) 4 [] fd with
  | (false,rx,fd) => (⟨none,rx,none⟩,fd)
  | (true,rx,fd) =>
    let size := littleValue (rx.take 4)
    if size < 5 then (⟨none,rx,none⟩,fd)
    else if nrx < size then
      match readTo nrx (nrx - ·) nrx rx fd with
      | (false,rx,fd) => (⟨none,rx,none⟩,fd)
      | (true,rx,fd) => (⟨none,rx,none⟩,o9Drain (asInt (size - nrx)) fd)
    else
      match readTo size (size - ·) size rx fd with
      | (false,rx,fd) => (⟨none,rx,none⟩,fd)
      | (true,rx,fd) => (o9Judge want size rx,fd)

/-- A reply whose size field is right. -/
structure Message where
  bytes : Bytes
  sized : littleValue (bytes.take 4) = bytes.length
  header : 7 ≤ bytes.length

/-- However the reply comes in, the call ends alike and nothing of it is left for the next one. -/
def Aligned (nrx : Nat) (want : UInt8) (m : Message) : Prop :=
  ∃ reply, ∀ cuts, (o9Rpc nrx want ⟨m.bytes,cuts⟩).1 = reply ∧ (o9Rpc nrx want ⟨m.bytes,cuts⟩).2.pending = []

end Model

section Framing

variable {m : Bytes} {target n : Nat} (fuel : Nat) (ask : Nat → Nat)

/-- The loop reads some beginning of the message, of `target` bytes or more. -/
theorem readTo_takes (limit : Nat) (asks : ∀ n < target, 0 < ask n ∧ n + ask n ≤ limit) (enough : target ≤ m.length)
    (within : n ≤ limit) (inside : n ≤ m.length) (turns : target ≤ n + fuel) (cuts : List Nat) :
    ∃ n' cuts', readTo target ask fuel (m.take n) ⟨m.drop n,cuts⟩ = (true,m.take n',⟨m.drop n',cuts'⟩) ∧
      target ≤ n' ∧ n' ≤ limit ∧ n' ≤ m.length := by
  have length : (m.take n).length = n := by simpa using inside
  induction fuel generalizing n cuts with
  | zero => exact ⟨n,cuts,by simp [readTo,length,show target ≤ n from turns],turns,within,inside⟩
  | succ fuel ih =>
    rw [readTo,length]
    split
    next done => exact ⟨n,cuts,rfl,done,within,inside⟩
    next short =>
      obtain ⟨positive,most⟩ := asks n (by omega)
      obtain ⟨k,count⟩ : ∃ k, k = min (ask n) (min (m.drop n).length (cuts.headD (ask n) + 1)) := ⟨_,rfl⟩
      rw [length_drop] at count
      have got : (m.drop n).take k ≠ [] := by simp; omega
      have next : m.take n ++ (m.drop n).take k = m.take (n + k) := take_add.symm
      simp only [read,length_drop,← count]
      rw [if_neg got,next,drop_drop]
      exact ih (by omega) (by omega) (by omega) _ (by simp; omega)

theorem readTo_exact (asks : ∀ n < target, 0 < ask n ∧ n + ask n ≤ target) (enough : target ≤ m.length)
    (within : n ≤ target) (turns : target ≤ n + fuel) (cuts : List Nat) :
    ∃ cuts', readTo target ask fuel (m.take n) ⟨m.drop n,cuts⟩ = (true,m.take target,⟨m.drop target,cuts'⟩) := by
  obtain ⟨n',cuts',reads,least,most,-⟩ := readTo_takes fuel ask target asks enough within (by omega) turns cuts
  obtain rfl : n' = target := by omega
  exact ⟨cuts',reads⟩

/-- A count that does not fit an int is negative, and then nothing is drained. -/
theorem o9Drain_asInt (small : m.length < 2 ^ 32) (cuts : List Nat) :
    ∃ cuts', o9Drain (asInt m.length) ⟨m,cuts⟩ = ⟨if m.length < 2 ^ 31 then [] else m,cuts'⟩ := by
  unfold asInt o9Drain
  split
  next =>
    obtain ⟨cuts',reads⟩ := readTo_exact (n := 0) m.length (fun n => min (m.length - n) 512) (by omega)
      (le_refl m.length) (Nat.zero_le _) (by omega) cuts
    rw [take_zero,drop_zero] at reads
    exact ⟨cuts',by rw [Int.toNat_natCast,reads,drop_length]⟩
  next =>
    have negative : ((m.length : Int) - 2 ^ 32).toNat = 0 := by omega
    exact ⟨cuts,by rw [negative]; rfl⟩

def o9Answer (nrx : Nat) (want : UInt8) (m : Bytes) : Reply :=
  if nrx < m.length then ⟨none,m.take nrx,none⟩ else o9Judge want m.length m

/-- What the call ends with and what is left of the reply, whatever the pieces. -/
theorem o9Rpc_eq (room : 4 ≤ nrx) (want : UInt8) (m : Message) (cuts : List Nat) :
    ∃ cuts', o9Rpc nrx want ⟨m.bytes,cuts⟩ =
      (o9Answer nrx want m.bytes,⟨if m.bytes.length < nrx + 2 ^ 31 then [] else m.bytes.drop nrx,cuts'⟩) := by
  obtain ⟨m,sized,header⟩ := m
  simp only [o9Answer]
  obtain ⟨n,cuts,first,least,most,inside⟩ :=
    readTo_takes (n := 0) 4 (nrx - ·) nrx (by omega) (by omega : 4 ≤ m.length) (by omega)
      (by omega) (by omega : 4 ≤ 0 + 4) cuts
  have size : littleValue ((m.take n).take 4) = m.length := by rw [take_take,Nat.min_eq_left least,sized]
  rw [take_zero,drop_zero] at first
  simp only [o9Rpc,first,size]
  rw [if_neg (by omega)]
  split
  next longer =>
    obtain ⟨cuts,second⟩ := readTo_exact nrx (nrx - ·) (by omega) longer.le most (by omega) cuts
    have small : (m.drop nrx).length < 2 ^ 32 := by
      have bound := littleValue_lt (m.take 4)
      rw [sized,length_take,Nat.min_eq_left (by omega)] at bound
      rw [length_drop]
      omega
    obtain ⟨cuts,drained⟩ := o9Drain_asInt small cuts
    rw [length_drop] at drained
    have same : m.length - nrx < 2 ^ 31 ↔ m.length < nrx + 2 ^ 31 := by omega
    exact ⟨cuts,by simp only [second,drained,same]⟩
  next fits =>
    obtain ⟨cuts,third⟩ := readTo_exact m.length (m.length - ·) (by omega) le_rfl inside (by omega) cuts
    refine ⟨cuts,?_⟩
    simp only [third]
    rw [take_length,drop_length,if_pos (by omega)]

theorem Aligned.narrow {m : Message} (room : 4 ≤ nrx) (aligned : Aligned nrx want m) : m.bytes.length < nrx + 2 ^ 31 := by
  obtain ⟨reply,alike⟩ := aligned
  obtain ⟨cuts,ends⟩ := o9Rpc_eq room want m []
  have rest := (alike []).2
  rw [ends] at rest
  by_contra wide
  rw [if_neg wide,drop_eq_nil_iff] at rest
  omega

theorem aligned_iff (room : 4 ≤ nrx) (want : UInt8) (m : Message) :
    Aligned nrx want m ↔ m.bytes.length < nrx + 2 ^ 31 := by
  refine ⟨Aligned.narrow room,?_⟩
  intro narrow
  refine ⟨o9Answer nrx want m.bytes,?_⟩
  intro cuts
  obtain ⟨cuts',ends⟩ := o9Rpc_eq room want m cuts
  rw [ends]
  exact ⟨rfl,if_pos narrow⟩

theorem clunk_reply_aligned : Aligned 64 121 ⟨[7,0,0,0,121,0,0],rfl,le_rfl⟩ := by
  refine (aligned_iff (by decide) 121 _).mpr ?_
  norm_num

def longReply : Message where
  bytes := [64,0,0,128] ++ replicate (2 ^ 31 + 60) 0
  sized := by
    rw [show 4 = length [(64 : UInt8),0,0,128] from rfl,take_left,length_append,length_replicate]
    simp [littleValue]
  header := by
    rw [length_append,length_replicate]
    norm_num

theorem long_reply_misaligned : ¬Aligned 64 121 longReply := by
  intro aligned
  have short := aligned.narrow (by decide)
  rw [longReply,length_append,length_replicate] at short
  norm_num at short

end Framing

end Objective9c.Runtime.Framing
