import Mathlib.Data.List.Nodup
import Mathlib.Data.List.Perm.Basic
import Mathlib.Data.List.Range

/-! Chained hash tables: an array of chains, each entry in the chain its key hashes to, a new
entry at the head of its chain, and a walk over all chains in the order of the array. -/
namespace Buckets

open List

variable {κ : Type u} {ε : Type v} [DecidableEq κ] {key : ε → κ} {hash : κ → Nat} {size : Nat}
variable {tab : Nat → List ε} {f : ε → ε}

def find (key : ε → κ) (hash : κ → Nat) (tab : Nat → List ε) (k : κ) : Option ε :=
  (tab (hash k)).find? (fun e => key e = k)

def insert (key : ε → κ) (hash : κ → Nat) (tab : Nat → List ε) (new : ε) : Nat → List ε :=
  fun h => if h = hash (key new) then new :: tab h else tab h

/-- A write through the pointer that a search for `k` returned. -/
def modify (key : ε → κ) (hash : κ → Nat) (tab : Nat → List ε) (k : κ) (f : ε → ε) : Nat → List ε :=
  fun h => if h = hash k then (tab h).map (fun e => if key e = k then f e else e) else tab h

/-- Chain after chain. -/
def entries (size : Nat) (tab : Nat → List ε) : List ε := (List.range size).flatMap tab

def keys (key : ε → κ) (size : Nat) (tab : Nat → List ε) : List κ := (entries size tab).map key

/-- Every entry is in the chain of its key, and no chain has a key twice. -/
structure Sound (key : ε → κ) (hash : κ → Nat) (tab : Nat → List ε) : Prop where
  home : ∀ h, ∀ e ∈ tab h, hash (key e) = h
  once : ∀ h, ((tab h).map key).Nodup

omit [DecidableEq κ] in
theorem sound_empty : Sound key hash (fun _ => []) where
  home := by simp
  once := by simp

theorem find_key (found : find key hash tab k = some e) : key e = k := by
  simpa using find?_some found

theorem find_mem (found : find key hash tab k = some e) : e ∈ tab (hash k) :=
  mem_of_find?_eq_some found

theorem find_none : find key hash tab k = none ↔ ∀ e ∈ tab (hash k), key e ≠ k := by
  simp [find]

omit [DecidableEq κ] in
theorem mem_entries (bound : ∀ k, hash k < size) (sound : Sound key hash tab) :
    e ∈ entries size tab ↔ e ∈ tab (hash (key e)) := by
  simp only [entries,mem_flatMap,mem_range]
  constructor
  · rintro ⟨h,_,member⟩
    rwa [sound.home h e member]
  · intro member
    exact ⟨hash (key e),bound _,member⟩

theorem Sound.find_of_mem (sound : Sound key hash tab) (member : e ∈ tab (hash (key e))) :
    find key hash tab (key e) = some e := by
  cases found : find key hash tab (key e) with
  | none => exact absurd rfl (find_none.mp found e member)
  | some other =>
    have same : other = e :=
      inj_on_of_nodup_map (sound.once _) (find_mem found) member (find_key found)
    rw [same]

theorem Sound.find_iff (bound : ∀ k, hash k < size) (sound : Sound key hash tab) :
    find key hash tab k = some e ↔ e ∈ entries size tab ∧ key e = k := by
  rw [mem_entries bound sound]
  constructor
  · intro found
    rw [find_key found]
    exact ⟨find_mem found,rfl⟩
  · rintro ⟨member,rfl⟩
    exact sound.find_of_mem member

theorem Sound.mem_keys (bound : ∀ k, hash k < size) (sound : Sound key hash tab) :
    k ∈ keys key size tab ↔ ∃ e, find key hash tab k = some e := by
  simp only [keys,mem_map,sound.find_iff bound]

theorem Sound.insert (sound : Sound key hash tab) (fresh : find key hash tab (key new) = none) :
    Sound key hash (insert key hash tab new) where
  home := by
    intro h e member
    unfold Buckets.insert at member
    split at member
    next here =>
      rcases mem_cons.mp member with rfl | member
      · exact here.symm
      · exact sound.home h e member
    next => exact sound.home h e member
  once := by
    intro h
    unfold Buckets.insert
    split
    next here =>
      subst here
      refine nodup_cons.mpr ⟨?_,sound.once _⟩
      intro again
      obtain ⟨e,member,same⟩ := mem_map.mp again
      exact find_none.mp fresh e member same
    next => exact sound.once h

omit [DecidableEq κ] in
/-- Two keys of the walk are apart because their chains are, or because one chain has both. -/
theorem Sound.keys_nodup (sound : Sound key hash tab) : (keys key size tab).Nodup := by
  rw [keys,entries,map_flatMap,nodup_flatMap]
  refine ⟨fun h _ => sound.once h,?_⟩
  refine nodup_range.imp ?_
  intro h h' apart k first second
  obtain ⟨e,member,rfl⟩ := mem_map.mp first
  obtain ⟨e',member',same⟩ := mem_map.mp second
  exact apart ((sound.home h e member).symm.trans (same ▸ sound.home h' e' member'))

theorem modify_keys_map (keeps : ∀ e, key (f e) = key e) (h : Nat) :
    (modify key hash tab k f h).map key = (tab h).map key := by
  unfold modify
  split
  next =>
    rw [map_map]
    refine map_congr_left ?_
    intro e _
    by_cases here : key e = k <;> simp [here,keeps]
  next => rfl

theorem keys_modify (keeps : ∀ e, key (f e) = key e) :
    keys key size (modify key hash tab k f) = keys key size tab := by
  simp only [keys,entries,map_flatMap,modify_keys_map keeps]

theorem Sound.modify (sound : Sound key hash tab) (keeps : ∀ e, key (f e) = key e) :
    Sound key hash (modify key hash tab k f) where
  home := by
    intro h e member
    have there : key e ∈ (Buckets.modify key hash tab k f h).map key := mem_map_of_mem member
    rw [modify_keys_map keeps] at there
    obtain ⟨old,was,same⟩ := mem_map.mp there
    rw [← same]
    exact sound.home h old was
  once := by
    intro h
    rw [modify_keys_map keeps]
    exact sound.once h

theorem find_map_keeps (keeps : ∀ e, key (f e) = key e) (chain : List ε) (k' : κ) :
    (chain.map (fun e => if key e = k then f e else e)).find? (fun e => key e = k') =
      (chain.find? (fun e => key e = k')).map (fun e => if key e = k then f e else e) := by
  rw [find?_map]
  congr 2
  funext e
  by_cases here : key e = k <;> simp [here,keeps]

theorem find_modify (keeps : ∀ e, key (f e) = key e) (k' : κ) : find key hash (modify key hash tab k f) k' =
      if k' = k then (find key hash tab k).map f else find key hash tab k' := by
  unfold find modify
  split_ifs with chain same same
  · subst same
    rw [find_map_keeps keeps]
    refine Option.map_congr ?_
    intro e found
    simp [show key e = k' by simpa using find?_some found]
  · rw [find_map_keeps keeps]
    cases found : (tab (hash k')).find? (fun e => key e = k') with
    | none => rfl
    | some e =>
      have named : key e = k' := by simpa using find?_some found
      simp [named,same]
  · subst same
    exact absurd rfl chain
  · rfl

omit [DecidableEq κ] in
theorem keys_insert (bound : hash (key new) < size) :
    (keys key size (insert key hash tab new)).Perm (key new :: keys key size tab) := by
  obtain ⟨before,after,chains⟩ := append_of_mem (mem_range.mpr bound)
  have distinct : (before ++ hash (key new) :: after).Nodup := chains ▸ nodup_range
  have elsewhere : ∀ part : List Nat, hash (key new) ∉ part →
      part.flatMap (insert key hash tab new) = part.flatMap tab := by
    intro part absent
    refine flatMap_congr ?_
    intro h member
    have apart : h ≠ hash (key new) := by
      rintro rfl
      exact absent member
    simp [insert,apart]
  rw [nodup_middle,nodup_cons,mem_append,not_or] at distinct
  simp only [keys,entries,chains,flatMap_append,flatMap_cons,elsewhere _ distinct.1.1,
    elsewhere _ distinct.1.2]
  simp [insert]

theorem find_insert (new : ε) (k : κ) :
    find key hash (insert key hash tab new) k = if k = key new then some new else find key hash tab k := by
  by_cases same : k = key new
  · subst same
    simp [find,insert]
  · by_cases chain : hash k = hash (key new)
    · simp [find,insert,chain,same,Ne.symm same]
    · simp [find,insert,chain,same]

section Pairs

variable {ν : Type w} {pairs : Nat → List (κ × ν)}

/-- A write under a key: through the entry that has it, or in a new one. -/
def put (hash : κ → Nat) (pairs : Nat → List (κ × ν)) (k : κ) (v : ν) : Nat → List (κ × ν) :=
  match find Prod.fst hash pairs k with
  | some _ => modify Prod.fst hash pairs k fun e => (e.1,v)
  | none => insert Prod.fst hash pairs (k,v)

theorem Sound.put (sound : Sound Prod.fst hash pairs) (k : κ) (v : ν) :
    Sound Prod.fst hash (put hash pairs k v) := by
  unfold Buckets.put
  split
  next => exact sound.modify fun _ => rfl
  next fresh => exact sound.insert fresh

theorem find_put (k k' : κ) (v : ν) :
    find Prod.fst hash (put hash pairs k v) k' = if k' = k then some (k,v) else find Prod.fst hash pairs k' := by
  unfold put
  split
  next e found =>
    rw [find_modify (f := fun e : κ × ν => (e.1,v)) fun _ => rfl,found,Option.map_some,find_key found]
  next fresh => exact find_insert (k,v) k'

end Pairs

end Buckets
