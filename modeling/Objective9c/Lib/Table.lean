import Mathlib.Data.List.Nodup
import Mathlib.Data.List.Perm.Basic

/-! Fixed arrays of optional records that are searched by a key: finding a record,
filling a free place, overwriting and clearing a record. -/
namespace Table

open Option

variable {α : Type u} {κ : Type v} {key : α → κ}

/-- Replace the first element with `p`; none if there is no such element. -/
def replaceFirst (p : α → Bool) (new : α) : List α → Option (List α)
  | [] => none
  | x :: rest => if p x then some (new :: rest) else (replaceFirst p new rest).map (x :: ·)

theorem replaceFirst_some (replaced : replaceFirst p new list = some list') :
    ∃ before x after, list = before ++ x :: after ∧ p x = true ∧ list' = before ++ new :: after := by
  induction list generalizing list' with
  | nil => contradiction
  | cons x rest ih =>
    unfold replaceFirst at replaced
    split at replaced
    next here => cases replaced; exact ⟨[],x,rest,rfl,here,rfl⟩
    next =>
      obtain ⟨rest',later,rfl⟩ := map_eq_some_iff.mp replaced
      obtain ⟨before,y,after,rfl,hy,rfl⟩ := ih later
      exact ⟨x :: before,y,after,rfl,hy,rfl⟩

theorem replaceFirst_none : replaceFirst p new list = none ↔ ∀ x ∈ list, p x = false := by
  induction list with
  | nil => simp [replaceFirst]
  | cons x rest ih =>
    by_cases here : p x = true <;> simp [replaceFirst,here,ih]

/-- Put a record in the place of the first one with its key, or behind all others. -/
def upsert [DecidableEq κ] (key : α → κ) (new : α) (list : List α) : List α :=
  (replaceFirst (fun x => decide (key x = key new)) new list).getD (list ++ [new])

theorem upsert_cons [DecidableEq κ] (new x : α) (rest : List α) :
    upsert key new (x :: rest) = if key x = key new then new :: rest else x :: upsert key new rest := by
  unfold upsert
  rw [replaceFirst]
  by_cases same : key x = key new
  · simp [same]
  · cases later : replaceFirst (fun x => decide (key x = key new)) new rest <;> simp [same]

theorem find?_upsert [DecidableEq κ] (new : α) (list : List α) (k : κ) :
    (upsert key new list).find? (fun x => decide (key x = k)) =
      if key new = k then some new else list.find? fun x => decide (key x = k) := by
  induction list with
  | nil => by_cases here : key new = k <;> simp [upsert,replaceFirst,here]
  | cons x rest ih =>
    rw [upsert_cons]
    by_cases same : key x = key new
    · by_cases here : key new = k <;> simp [same,here]
    · by_cases here : key new = k
      · have other : key x ≠ k := fun eq => same (eq.trans here.symm)
        simp [here ▸ ih,here,other]
      · rw [if_neg same,List.find?_cons,List.find?_cons,ih,if_neg here,if_neg here]

def keys (key : α → κ) (table : List (Option α)) : List κ := table.filterMap (Option.map key)

theorem mem_keys : k ∈ keys key table ↔ ∃ a, some a ∈ table ∧ key a = k := by
  simp [keys]

theorem keys_elsewhere (distinct : (keys key (before ++ some a :: after)).Nodup)
    (member : some b ∈ before ++ after) : key b ≠ key a := by
  intro again
  have there : key a ∈ keys key (before ++ after) := mem_keys.mpr ⟨b,member,again⟩
  simp only [keys,List.filterMap_append,List.filterMap_cons,map_some,
    List.nodup_middle,List.nodup_cons] at distinct there
  exact distinct.1 there

theorem same_of_key (distinct : (keys key table).Nodup) (ha : some a ∈ table) (hb : some b ∈ table)
    (same : key a = key b) : a = b := by
  obtain ⟨before,after,rfl⟩ := List.append_of_mem ha
  by_contra apart
  have elsewhere : some b ∈ before ++ after := by
    simp only [List.mem_append,List.mem_cons,some.injEq,Ne.symm apart,false_or] at hb ⊢
    exact hb
  exact keys_elsewhere distinct elsewhere same.symm

/-- Fill the first free place of a table of `size` places. -/
def insert (size : Nat) (a : α) (table : List (Option α)) : Option (List (Option α)) :=
  match replaceFirst (·.isNone) (some a) table with
  | some filled => some filled
  | none => if table.length < size then some (table ++ [some a]) else none

theorem insert_mem (inserted : insert size a table = some table') : some b ∈ table' ↔ b = a ∨ some b ∈ table := by
  unfold insert at inserted
  split at inserted
  next filled =>
    cases inserted
    obtain ⟨before,x,after,rfl,free,rfl⟩ := replaceFirst_some filled
    obtain rfl := isNone_iff_eq_none.mp free
    simp only [List.mem_append,List.mem_cons,some.injEq,reduceCtorEq,false_or]
    tauto
  next =>
    split at inserted
    · cases inserted
      simp only [List.mem_append,List.mem_singleton,some.injEq]
      tauto
    · contradiction

theorem insert_keys (inserted : insert size a table = some table') :
    (keys key table').Perm (key a :: keys key table) := by
  unfold insert at inserted
  split at inserted
  next filled =>
    cases inserted
    obtain ⟨before,x,after,rfl,free,rfl⟩ := replaceFirst_some filled
    obtain rfl := isNone_iff_eq_none.mp free
    simp [keys]
  next =>
    split at inserted
    · cases inserted; simp [keys]
    · contradiction

theorem insert_none : insert size a table = none ↔ none ∉ table ∧ size ≤ table.length := by
  cases filled : replaceFirst (·.isNone) (some a) table with
  | some =>
    obtain ⟨before,x,after,rfl,free,_⟩ := replaceFirst_some filled
    obtain rfl := isNone_iff_eq_none.mp free
    simp [insert,filled]
  | none =>
    have full : none ∉ table := fun member => by simpa using replaceFirst_none.mp filled _ member
    simp [insert,filled,full]

theorem insert_nodup (distinct : (keys key table).Nodup) (absent : key a ∉ keys key table)
    (inserted : insert size a table = some table') : (keys key table').Nodup :=
  (insert_keys inserted).nodup_iff.mpr (List.nodup_cons.mpr ⟨absent,distinct⟩)

theorem keys_map (f : α → α) (kept : ∀ a, key (f a) = key a) (table : List (Option α)) :
    keys key (table.map (Option.map f)) = keys key table := by
  simp only [keys,List.filterMap_map]
  congr 1
  funext e
  cases e <;> simp [kept]

variable [DecidableEq κ]

/-- The record with key `k`. -/
def lookup (key : α → κ) (k : κ) (table : List (Option α)) : Option α :=
  table.findSome? fun e => e.filter fun a => decide (key a = k)

def has (key : α → κ) (k : κ) (e : Option α) : Bool := e.any fun a => decide (key a = k)

theorem has_iff : has key k e = true ↔ ∃ a, e = some a ∧ key a = k := by
  cases e <;> simp [has]

theorem lookup_some (found : lookup key k table = some a) : some a ∈ table ∧ key a = k := by
  obtain ⟨e,member,picked⟩ := List.exists_of_findSome?_eq_some found
  obtain ⟨rfl,same⟩ := filter_eq_some_iff.mp picked
  exact ⟨member,by simpa using same⟩

theorem lookup_none : lookup key k table = none ↔ k ∉ keys key table := by
  rw [mem_keys]
  simp only [lookup,List.findSome?_eq_none_iff]
  constructor
  · rintro none ⟨a,member,rfl⟩
    have := none (some a) member
    simp [Option.filter] at this
  · intro absent e member
    cases e with
    | none => rfl
    | some a =>
      have differ : key a ≠ k := fun same => absent ⟨a,member,same⟩
      simp [Option.filter,differ]

theorem lookup_iff (distinct : (keys key table).Nodup) :
    lookup key k table = some a ↔ some a ∈ table ∧ key a = k := by
  refine ⟨lookup_some,?_⟩
  rintro ⟨member,rfl⟩
  cases found : lookup key (key a) table with
  | none => exact absurd (mem_keys.mpr ⟨a,member,rfl⟩) (lookup_none.mp found)
  | some =>
    obtain ⟨hb,same⟩ := lookup_some found
    rw [same_of_key distinct hb member same]

theorem replace_mem (distinct : (keys key table).Nodup)
    (replaced : replaceFirst (has key k) new table = some table') :
    some b ∈ table' ↔ some b = new ∨ (some b ∈ table ∧ key b ≠ k) := by
  obtain ⟨before,x,after,rfl,there,rfl⟩ := replaceFirst_some replaced
  obtain ⟨a,rfl,rfl⟩ := has_iff.mp there
  have elsewhere (member : some b ∈ before ++ after) : key b ≠ key a :=
    keys_elsewhere distinct member
  simp only [List.mem_append,List.mem_cons,some.injEq] at elsewhere ⊢
  tauto

/-- Clear the record of a key, and say whether it was there. -/
def clear (key : α → κ) (k : κ) (table : List (Option α)) : List (Option α) × Bool :=
  match replaceFirst (has key k) none table with
  | some cleared => (cleared,true)
  | none => (table,false)

theorem clear_mem (distinct : (keys key table).Nodup) :
    some b ∈ (clear key k table).1 ↔ some b ∈ table ∧ key b ≠ k := by
  unfold clear
  split
  next cleared => simpa using replace_mem distinct cleared
  next missing =>
    have missing := replaceFirst_none.mp missing
    refine ⟨fun member => ⟨member,fun same => ?_⟩,And.left⟩
    have := missing _ member
    simp [has,same] at this

theorem clear_found (key : α → κ) (k : κ) (table : List (Option α)) :
    (clear key k table).2 = (lookup key k table).isSome := by
  unfold clear
  split
  next cleared =>
    obtain ⟨before,x,after,rfl,there,_⟩ := replaceFirst_some cleared
    obtain ⟨a,rfl,same⟩ := has_iff.mp there
    cases found : lookup key k (before ++ some a :: after) with
    | none => exact absurd (mem_keys.mpr ⟨a,by simp,same⟩) (lookup_none.mp found)
    | some => rfl
  next missing =>
    have missing := replaceFirst_none.mp missing
    have absent : lookup key k table = none := by
      rw [lookup_none,mem_keys]
      rintro ⟨a,member,same⟩
      have := missing _ member
      simp [has,same] at this
    rw [absent]
    rfl

theorem clear_keys (key : α → κ) (k : κ) (table : List (Option α)) :
    (keys key (clear key k table).1).Sublist (keys key table) := by
  unfold clear
  split
  next cleared =>
    obtain ⟨before,x,after,rfl,_,rfl⟩ := replaceFirst_some cleared
    cases x <;> simp [keys]
  next => exact List.Sublist.refl _

theorem lookup_clear_self (distinct : (keys key table).Nodup) : lookup key k (clear key k table).1 = none := by
  rw [lookup_none,mem_keys]
  rintro ⟨b,member,same⟩
  exact ((clear_mem distinct).mp member).2 same

theorem lookup_clear_other (distinct : (keys key table).Nodup) (other : j ≠ k) :
    lookup key j (clear key k table).1 = lookup key j table := by
  apply ext
  intro b
  rw [lookup_iff (distinct.sublist (clear_keys key k table)),lookup_iff distinct,
    clear_mem distinct]
  constructor
  · rintro ⟨⟨member,_⟩,same⟩
    exact ⟨member,same⟩
  · rintro ⟨member,rfl⟩
    exact ⟨⟨member,other⟩,rfl⟩

theorem lookup_insert_self (distinct : (keys key table).Nodup) (absent : key a ∉ keys key table)
    (inserted : insert size a table = some table') : lookup key (key a) table' = some a :=
  (lookup_iff (insert_nodup distinct absent inserted)).mpr
    ⟨(insert_mem inserted).mpr (.inl rfl),rfl⟩

theorem lookup_insert_other (distinct : (keys key table).Nodup) (absent : key a ∉ keys key table)
    (inserted : insert size a table = some table') (other : j ≠ key a) :
    lookup key j table' = lookup key j table := by
  apply ext
  intro b
  rw [lookup_iff (insert_nodup distinct absent inserted),lookup_iff distinct,insert_mem inserted]
  constructor
  · rintro ⟨rfl | member,same⟩
    · exact absurd same.symm other
    · exact ⟨member,same⟩
  · rintro ⟨member,same⟩
    exact ⟨.inr member,same⟩

theorem lookup_append (table table' : List (Option α)) :
    lookup key k (table ++ table') = (lookup key k table).or (lookup key k table') := by
  simp [lookup,List.findSome?_append]

@[simp] theorem lookup_cons_none (table : List (Option α)) :
    lookup key k (none :: table) = lookup key k table := rfl

@[simp] theorem lookup_cons_some (a : α) (table : List (Option α)) :
    lookup key k (some a :: table) = if key a = k then some a else lookup key k table := by
  by_cases same : key a = k <;> simp [lookup,Option.filter,same]

theorem lookup_map (f : α → α) (kept : ∀ a, key (f a) = key a) (k : κ) (table : List (Option α)) :
    lookup key k (table.map (Option.map f)) = (lookup key k table).map f := by
  induction table with
  | nil => rfl
  | cons e rest ih =>
    cases e with
    | none => simpa using ih
    | some a => by_cases same : key a = k <;> simp [kept,same,ih]

theorem overwrite_keys (here : key a = k) (written : replaceFirst (has key k) (some a) table = some table') :
    keys key table' = keys key table := by
  obtain ⟨before,x,after,rfl,there,rfl⟩ := replaceFirst_some written
  obtain ⟨b,rfl,same⟩ := has_iff.mp there
  simp [keys,same,here]

end Table
