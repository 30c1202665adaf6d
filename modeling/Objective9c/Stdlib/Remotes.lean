import Objective9c.Lib.Transition
import Mathlib.Data.List.Basic

/-! Pinned remotes of `net.o9`. A remote identity is set from host, algorithm and public key, which gives its
fingerprint, or loaded from a file, which may bring one of its own. Known remotes are compared by fingerprint.
The table in the file is taken to return what was last flushed; `pinned` is what the last successful pin or
replace stored for a host, and the program has none. -/
namespace Objective9c.Remotes

open Transition List Function

abbrev Text := List UInt8

section Identity

def colon : UInt8 := 58

structure Identity where
  host : Text := []
  algo : Text := []
  pub : Text := []
  fingerprint : Text := []
deriving DecidableEq

def joined (host algo pub : Text) : Text := host ++ colon :: algo ++ colon :: pub

def compute (hash : Text → Text) (host algo pub : Text) : Text := hash (joined host algo pub)

def set (hash : Text → Text) (host algo pub : Text) : Identity := ⟨host,algo,pub,compute hash host algo pub⟩

/-- The row of the server in the file, if it has one. -/
def load (hash : Text → Text) (row : Option Identity) (id : Identity) : Identity :=
  match row with
  | none => id
  | some r => if r.fingerprint = [] then set hash r.host r.algo r.pub else r

def valid (id : Identity) : Bool := id.host ≠ [] && id.algo ≠ [] && id.pub ≠ [] && id.fingerprint ≠ []

/-- An identity as a program can have it. -/
inductive Made (hash : Text → Text) : Identity → Prop
  | new : Made hash {}
  | set (host algo pub : Text) : Made hash (set hash host algo pub)
  | load (row : Option Identity) {id : Identity} : Made hash id → Made hash (load hash row id)

end Identity

section Known

structure Pin where
  algo : Text
  pub : Text
  fingerprint : Text
deriving DecidableEq

structure State where
  table : Text → Option Pin := fun _ => none
  pinned : Text → Option (Text × Text) := fun _ => none

def known (host : Text) (s : State) : Bool := (s.table host).isSome

def verifyFingerprint (host fp : Text) (s : State) : Bool :=
  if !known host s then false else ((s.table host).map Pin.fingerprint).getD [] = fp

/-- `flushed` says whether the table could be written. -/
def storeFields (host algo pub fp : Text) (flushed : Bool) (s : State) : State × Bool :=
  if host = [] || algo = [] || pub = [] || fp = [] then (s,false)
  else if flushed then
    (⟨Function.update s.table host (some ⟨algo,pub,fp⟩),Function.update s.pinned host (some (algo,pub))⟩,true)
  else (s,false)

def verify (host : Text) (id : Identity) (s : State) : Bool := verifyFingerprint host id.fingerprint s

def pin (host : Text) (id : Identity) (flushed : Bool) (s : State) : State × Bool :=
  if known host s || !valid id then (s,false) else storeFields host id.algo id.pub id.fingerprint flushed s

def verifyOrPin (host : Text) (id : Identity) (flushed : Bool) (s : State) : State × Bool :=
  if !valid id then (s,false)
  else if known host s then (s,verifyFingerprint host id.fingerprint s)
  else storeFields host id.algo id.pub id.fingerprint flushed s

def replace (host : Text) (id : Identity) (flushed : Bool) (s : State) : State × Bool :=
  if !valid id then (s,false) else storeFields host id.algo id.pub id.fingerprint flushed s

inductive Op where
  | pin | verifyOrPin | replace
deriving DecidableEq

structure Call where
  op : Op
  host : Text
  id : Identity
  flushed : Bool := true
deriving DecidableEq

def step (c : Call) (s : State) : Option State :=
  match c.op with
  | .pin => some (pin c.host c.id c.flushed s).1
  | .verifyOrPin => some (verifyOrPin c.host c.id c.flushed s).1
  | .replace => some (replace c.host c.id c.flushed s).1

end Known

section Fingerprints

variable {hash : Text → Text} {id other : Identity}

/-- The fingerprint is that of the fields, and the fields can be told apart in the text it is made of. -/
structure Honest (hash : Text → Text) (id : Identity) : Prop where
  fingerprint : id.fingerprint = compute hash id.host id.algo id.pub
  host : colon ∉ id.host
  algo : colon ∉ id.algo

theorem split_at_colon (clean : colon ∉ a) (clean' : colon ∉ a')
    (same : a ++ colon :: b = a' ++ colon :: b') : a = a' ∧ b = b' := by
  have parts := congrArg (splitOn colon) same
  rw [splitOn_append_cons_self_of_not_mem clean,splitOn_append_cons_self_of_not_mem clean'] at parts
  obtain rfl := (cons.inj parts).1
  exact ⟨rfl,by simpa using same⟩

theorem honest_unique (injective : Function.Injective hash) (honest : Honest hash id) (honest' : Honest hash other)
    (same : id.fingerprint = other.fingerprint) : id.algo = other.algo ∧ id.pub = other.pub := by
  rw [honest.fingerprint,honest'.fingerprint] at same
  have texts := injective same
  simp only [joined,append_assoc,cons_append] at texts
  obtain ⟨-,rest⟩ := split_at_colon honest.host honest'.host texts
  exact split_at_colon honest.algo honest'.algo rest

end Fingerprints

section Runs

variable {hash : Text → Text} {s next : State} {id : Identity}

/-- What is in the table came from an honest identity and is what was pinned. -/
structure Sound (hash : Text → Text) (s : State) : Prop where
  pinned : s.pinned host = (s.table host).map fun p => (p.algo,p.pub)
  honest : s.table host = some p → ∃ id, Honest hash id ∧ p = ⟨id.algo,id.pub,id.fingerprint⟩

def Guard (hash : Text → Text) (c : Call) (_ : State) : Prop := Honest hash c.id

theorem Sound.storeFields (sound : Sound hash s) (honest : Honest hash id) (host : Text) (flushed : Bool) :
    Sound hash (storeFields host id.algo id.pub id.fingerprint flushed s).1 := by
  unfold Remotes.storeFields
  split
  · exact sound
  split
  · constructor
    · intro other
      by_cases same : other = host
      · subst same
        simp
      · simpa [same] using sound.pinned
    · intro other p stored
      by_cases same : other = host
      · subst same
        exact ⟨id,honest,by simpa [eq_comm] using stored⟩
      · exact sound.honest (by simpa [same] using stored)
  · exact sound

theorem step_cases (stepped : step c s = some next) :
    next = s ∨ next = (storeFields c.host c.id.algo c.id.pub c.id.fingerprint c.flushed s).1 := by
  obtain ⟨op,host,id,flushed⟩ := c
  cases op <;> simp only [step,Option.some.injEq] at stepped <;> subst stepped
  · unfold pin
    split
    · exact .inl rfl
    · exact .inr rfl
  · unfold verifyOrPin
    split
    · exact .inl rfl
    split
    · exact .inl rfl
    · exact .inr rfl
  · unfold replace
    split
    · exact .inl rfl
    · exact .inr rfl

theorem Sound.step (sound : Sound hash s) (guard : Guard hash c s) (stepped : Remotes.step c s = some next) :
    Sound hash next := by
  obtain rfl | rfl := step_cases stepped
  · exact sound
  · exact sound.storeFields guard _ _

theorem verifyFingerprint_true (verified : verifyFingerprint host fp s = true) :
    ∃ p, s.table host = some p ∧ p.fingerprint = fp := by
  unfold verifyFingerprint known at verified
  cases stored : s.table host with
  | none => simp [stored] at verified
  | some p => exact ⟨p,rfl,by simpa [stored] using verified⟩

theorem Sound.verified (sound : Sound hash s) (injective : Function.Injective hash) (honest : Honest hash id)
    (verified : verifyFingerprint host id.fingerprint s = true) : s.pinned host = some (id.algo,id.pub) := by
  obtain ⟨p,stored,same⟩ := verifyFingerprint_true verified
  obtain ⟨other,honest',rfl⟩ := sound.honest stored
  obtain ⟨algo,pub⟩ := honest_unique injective honest' honest same
  rw [sound.pinned,stored,Option.map_some,algo,pub]

/-- Among identities whose fingerprints are their own, a true answer means the pinned algorithm and key. -/
theorem verified_is_pinned (hash : Text → Text) (injective : Function.Injective hash) (calls : List Call)
    (meets : Meets step (Guard hash) calls {}) (ran : run step calls {} = some s) (host : Text) (id : Identity)
    (honest : Honest hash id) (flushed : Bool) :
    (verify host id s = true → s.pinned host = some (id.algo,id.pub)) ∧
    (known host s = true → (verifyOrPin host id flushed s).2 = true → s.pinned host = some (id.algo,id.pub)) := by
  have sound : Sound hash s := run_invariant_of_meets (Sound hash)
    (fun _ _ _ sound guard stepped => sound.step guard stepped) calls {} s meets
    ⟨rfl,by simp⟩ ran
  refine ⟨fun verified => sound.verified injective honest verified,fun isKnown answered => ?_⟩
  unfold verifyOrPin at answered
  split at answered
  · cases answered
  · exact sound.verified injective honest answered

def trusted : Identity := set (fun text => text) [104] [101] [49]

theorem same_identity_verified : ∃ s, run step [⟨.pin,[104],trusted,true⟩] {} = some s ∧
    verify [104] trusted s = true ∧ s.pinned [104] = some (trusted.algo,trusted.pub) := by
  have honest : Honest (fun text => text) trusted := ⟨rfl,by decide,by decide⟩
  refine ⟨_,rfl,by decide,?_⟩
  exact (verified_is_pinned (fun text => text) (fun _ _ same => same) [⟨.pin,[104],trusted,true⟩]
    ⟨honest,fun _ _ => trivial⟩ rfl [104] trusted honest true).1 (by decide)

/-- A file with another key and the fingerprint of the trusted one. -/
def forged : Identity := load (fun text => text) (some { trusted with pub := [50] }) {}

theorem forged_file_verified : ¬∀ (hash : Text → Text), Function.Injective hash →
    ∀ (calls : List Call) (s : State) (host : Text) (id : Identity), (∀ c ∈ calls, Made hash c.id) →
      Made hash id → run step calls {} = some s → verify host id s = true →
      s.pinned host = some (id.algo,id.pub) := by
  intro always
  have pinned := always (fun text => text) (fun _ _ same => same) [⟨.pin,[104],trusted,true⟩] _ [104] forged
    (by simpa [trusted] using Made.set [104] [101] [49]) (.load _ .new) rfl (by decide)
  exact absurd pinned (by decide)

end Runs

end Objective9c.Remotes
