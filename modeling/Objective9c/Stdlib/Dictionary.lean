import Mathlib.Data.Finset.Card
import Objective9c.Runtime.DictText

/-! The `dictionary<T>` of `collections.o9`. Nothing is ever taken out of the two dictionaries behind it, which
are finite maps (`run_maps`): an entry is there as long as its stamp is the current generation. -/
namespace Objective9c.Collections

open Text Finset Function

structure Dictionary (α : Type u) where
  values : Bytes → Option α
  stamps : Bytes → Option (BitVec 64)
  generation : BitVec 64
  count : Int

namespace Dictionary

variable {α : Type u} {d : Dictionary α} {m : Bytes → Option α}

def new : Dictionary α := ⟨fun _ => none,fun _ => none,1,0⟩

def length (d : Dictionary α) : Int := d.count

def has (d : Dictionary α) (key : Bytes) : Bool :=
  match d.stamps key with
  | none => false
  | some stamp => stamp == d.generation

def set (d : Dictionary α) (key : Bytes) (value : α) : Dictionary α :=
  { d with
    count := if !d.has key then d.count + 1 else d.count
    stamps := update d.stamps key (some d.generation)
    values := update d.values key (some value) }

/-- `zero` is what an unset variable of the element type holds. -/
def get (d : Dictionary α) (zero : α) (key : Bytes) : α :=
  if !d.has key then zero else (d.values key).getD zero

def remove (d : Dictionary α) (key : Bytes) : Dictionary α × Bool :=
  if !d.has key then (d,false)
  else ({ d with stamps := update d.stamps key (some 0), count := d.count - 1 },true)

def clear (d : Dictionary α) : Dictionary α := { d with generation := d.generation + 1, count := 0 }

/-- The calls that change a dictionary. -/
inductive Call (α : Type u) where
  | set (key : Bytes) (value : α)
  | remove (key : Bytes)
  | clear

def call (d : Dictionary α) : Call α → Dictionary α
  | .set key value => d.set key value
  | .remove key => (d.remove key).1
  | .clear => d.clear

/-- What a dictionary is for. -/
def mapped (m : Bytes → Option α) : Call α → Bytes → Option α
  | .set key value => update m key (some value)
  | .remove key => update m key none
  | .clear => fun _ => none

def Call.clears : Call α → Bool
  | .clear => true
  | _ => false

/-- The dictionary after `n` clears holds the map `m`. -/
structure Holds (n : Nat) (d : Dictionary α) (m : Bytes → Option α) : Prop where
  generation : d.generation.toNat = n + 1
  stamped : ∀ k stamp, d.stamps k = some stamp → stamp.toNat ≤ n + 1
  has : ∀ k, d.has k = (m k).isSome
  values : ∀ k, d.has k = true → d.values k = m k
  counted : ∃ keys : Finset Bytes, (∀ k, k ∈ keys ↔ d.has k = true) ∧ d.count = keys.card

theorem Holds.get (holds : Holds n d m) (zero : α) (k : Bytes) : d.get zero k = (m k).getD zero := by
  unfold Dictionary.get
  cases present : d.has k with
  | true => simp [holds.values k present]
  | false =>
    have absent := holds.has k
    simp_all

/-- One key gets a new stamp, which is the current generation if the key is to be there. -/
theorem Holds.restamp (holds : Holds n d m) (key : Bytes) (new : Option α) (stamp : BitVec 64)
    (values : Bytes → Option α) (count : Int) (bound : stamp.toNat ≤ n + 1)
    (current : (stamp == d.generation) = new.isSome) (elsewhere : ∀ k ≠ key, values k = d.values k)
    (here : new.isSome → values key = new)
    (counted : count = d.count + (if new.isSome then 1 else 0) - (if d.has key then 1 else 0)) :
    Holds n ⟨values,update d.stamps key (some stamp),d.generation,count⟩ (update m key new) := by
  have has' (k : Bytes) : Dictionary.has ⟨values,update d.stamps key (some stamp),d.generation,count⟩ k =
      if k = key then new.isSome else d.has k := by
    by_cases same : k = key
    · simp [Dictionary.has,same,current]
    · simp [Dictionary.has,same]
  obtain ⟨keys,listed,card⟩ := holds.counted
  refine ⟨holds.generation,fun k found stamped => ?_,fun k => ?_,fun k present => ?_,
    if new.isSome then insert key keys else keys.erase key,fun k => ?_,?_⟩
  · by_cases same : k = key
    · obtain rfl : stamp = found := by simpa [same] using stamped
      exact bound
    · exact holds.stamped k found (by simpa [same] using stamped)
  · by_cases same : k = key <;> simp [has',same,holds.has]
  · rw [has'] at present
    by_cases same : k = key
    · simpa [same] using here (by simpa [same] using present)
    · simpa [same,elsewhere k same] using holds.values k (by simpa [same] using present)
  · by_cases same : k = key <;> by_cases there : new.isSome = true <;> simp [has',same,there,listed]
  · have := listed key
    grind [erase_eq_of_notMem]

theorem Holds.call (holds : Holds n d m) (c : Call α) (few : n + 2 < 2 ^ 64) :
    Holds (n + c.clears.toNat) (d.call c) (mapped m c) := by
  have generation := holds.generation
  cases c with
  | set key value =>
    refine holds.restamp key (some value) d.generation _ _ generation.le (by simp)
      (fun k other => by simp [other]) (fun _ => by simp) ?_
    cases d.has key <;> simp
  | remove key =>
    cases present : d.has key with
    | true =>
      have kept : d.call (.remove key) = ⟨d.values,update d.stamps key (some 0),d.generation,d.count - 1⟩ := by
        simp [Dictionary.call,Dictionary.remove,present]
      rw [kept]
      refine holds.restamp key none 0 _ _ (Nat.zero_le _) ?_ (fun _ _ => rfl) nofun (by simp [present])
      refine beq_eq_false_iff_ne.mpr ?_
      rintro same
      simp [← same] at generation
    | false =>
      have kept : d.call (.remove key) = d := by simp [Dictionary.call,Dictionary.remove,present]
      have absent : m key = none := by simpa [present] using (holds.has key).symm
      rw [kept,mapped,← absent,update_eq_self]
      exact holds
  | clear =>
    have next : (d.generation + 1).toNat = n + 2 := by
      rw [BitVec.toNat_add,generation]
      exact Nat.mod_eq_of_lt few
    have gone (k : Bytes) : d.clear.has k = false := by
      simp only [Dictionary.has,Dictionary.clear]
      split
      · rfl
      next stamp found =>
        have old := holds.stamped k stamp found
        refine beq_eq_false_iff_ne.mpr ?_
        rintro rfl
        omega
    exact ⟨next,fun k stamp found => Nat.le_succ_of_le (holds.stamped k stamp found),gone,
      fun k present => absurd present (Bool.eq_false_iff.mp (gone k)),∅,fun k => by simp [Dictionary.call,gone],rfl⟩

theorem Holds.run (holds : Holds n d m) (calls : List (Call α)) (few : n + calls.countP Call.clears < 2 ^ 63) :
    Holds (n + calls.countP Call.clears) (calls.foldl Dictionary.call d) (calls.foldl mapped m) := by
  induction calls generalizing n d m with
  | nil => exact holds
  | cons c rest ih =>
    have counted : (c :: rest).countP Call.clears = c.clears.toNat + rest.countP Call.clears := by
      rw [List.countP_cons]
      cases c.clears <;> simp [Nat.add_comm]
    rw [counted,← Nat.add_assoc] at few ⊢
    exact ih (holds.call c (by omega)) few

theorem mapped_none (later : List (Call α)) (unset : ∀ value, .set k value ∉ later) (absent : m k = none) :
    later.foldl mapped m k = none := by
  induction later generalizing m with
  | nil => exact absent
  | cons c rest ih =>
    refine ih (fun value member => unset value (.tail _ member)) ?_
    cases c with
    | set key value =>
      have other : k ≠ key := by
        rintro rfl
        exact unset value (.head _)
      simpa [mapped,other] using absent
    | remove key => by_cases same : k = key <;> simp [mapped,same,absent]
    | clear => rfl

/-- After any calls with fewer than `2^63` clears, a dictionary answers as the map does, has no key that was removed
or cleared and not set again, and counts the keys it has. -/
theorem dictionary_refines_map (calls : List (Call α)) (zero : α) (few : calls.countP Call.clears < 2 ^ 63) :
    let d := calls.foldl call new
    let m := calls.foldl mapped fun _ => none
    (∀ k, d.has k = (m k).isSome ∧ d.get zero k = (m k).getD zero ∧ (d.remove k).2 = (m k).isSome) ∧
    (∀ k before c later, calls = before ++ c :: later → c = .remove k ∨ c = .clear →
      (∀ value, .set k value ∉ later) → d.has k = false) ∧
    ∃ keys : Finset Bytes, (∀ k, k ∈ keys ↔ d.has k = true) ∧ d.length = keys.card := by
  have start : Holds 0 (new : Dictionary α) (fun _ => none) :=
    ⟨rfl,nofun,fun _ => rfl,nofun,∅,by simp [Dictionary.has,new],rfl⟩
  have holds := start.run calls (by omega)
  refine ⟨fun k => ⟨holds.has k,holds.get zero k,?_⟩,?_,holds.counted⟩
  · rw [← holds.has]
    unfold Dictionary.remove
    split <;> simp_all
  · rintro k before c later rfl taken unset
    rw [holds.has,List.foldl_append,List.foldl_cons,mapped_none later unset]
    · rfl
    · rcases taken with rfl | rfl <;> simp [mapped]

theorem cleared_key_absent :
    (([.set [97] 1,.clear,.set [98] 2] : List (Call Nat)).foldl call new).has [97] = false :=
  (dictionary_refines_map [.set [97] 1,.clear,.set [98] 2] 0 (by decide)).2.1 [97] [.set [97] 1] .clear
    [.set [98] 2] rfl (.inr rfl) (by simp)

section Tables

/-- The two dictionaries behind it, with string keys. -/
structure Tables (values stamps : DictText.Shape) (α : Type u) where
  values : DictText.Table { values with keykind := .string } α
  stamps : DictText.Table { stamps with keykind := .string } (BitVec 64)
  generation : BitVec 64
  count : Int

variable {values stamps : DictText.Shape}

/-- What is in them. -/
def Tables.maps (t : Tables values stamps α) : Dictionary α :=
  ⟨DictText.getv t.values,DictText.getv t.stamps,t.generation,t.count⟩

def Tables.call (t : Tables values stamps α) : Call α → Tables values stamps α
  | .set key value =>
    { t with
      count := if !t.maps.has key then t.count + 1 else t.count
      stamps := DictText.setv t.stamps key t.generation
      values := DictText.setv t.values key value }
  | .remove key =>
    if !t.maps.has key then t else { t with stamps := DictText.setv t.stamps key 0, count := t.count - 1 }
  | .clear => { t with generation := t.generation + 1, count := 0 }

theorem getv_setv_update {shape : DictText.Shape} (t : DictText.Table { shape with keykind := .string } ν) (key : Bytes)
    (v : ν) : DictText.getv (DictText.setv t key v) = update (β := fun _ : Bytes => Option ν) (DictText.getv t) key (some v) := by
  funext k
  apply (DictText.getv_setv t key k v).trans
  by_cases same : k = key
  · subst same
    exact (if_pos rfl).trans (update_self (β := fun _ : Bytes => Option ν) k (some v) (DictText.getv t)).symm
  · exact (if_neg same).trans (update_of_ne same ..).symm

theorem call_maps (t : Tables values stamps α) (c : Call α) : (t.call c).maps = t.maps.call c := by
  cases c with
  | set key value =>
    exact congrArg₂ (fun values stamps => Dictionary.mk values stamps t.generation _)
      (getv_setv_update t.values key value) (getv_setv_update t.stamps key t.generation)
  | remove key =>
    simp only [Tables.call,Dictionary.call,Dictionary.remove]
    split
    · rfl
    · exact congrArg (fun stamps => Dictionary.mk _ stamps t.generation (t.count - 1)) (getv_setv_update t.stamps key 0)
  | clear => rfl

/-- The dictionary's maps are what its two tables hold, after any calls. -/
theorem run_maps (calls : List (Call α)) (t : Tables values stamps α) :
    (calls.foldl Tables.call t).maps = calls.foldl call t.maps := by
  induction calls generalizing t with
  | nil => rfl
  | cons c rest ih => rw [List.foldl_cons,List.foldl_cons,ih,call_maps]

end Tables

end Dictionary

end Objective9c.Collections
