import Mathlib.Data.List.Pairwise
import Objective9c.Lib.Layers
import Objective9c.Filetree.Invariant

/-! Union directories: `o9_filetree_lookup` stops at the first layer that has a name,
`o9_filetree_entries` collects all layers and drops later duplicates. -/
namespace Objective9c.Filetree

open List Option Layers

/-- `room` is 65 less the depth: a lookup deeper than 64 mounts finds nothing. -/
def ftLookupMount (s : Store) (name : Bytes) : Nat → Addr → Option Addr
  | 0, _ => none
  | room+1, dir =>
    match s.entries dir with
    | none => none
    | some d =>
      if d.kind ≠ .dir || d.removed || !s.treeAlive d.tree then none
      else
        let replace := d.mounts.any (·.mode == 0)
        match d.mounts.findSome? fun m =>
          if m.mode = 0 || m.mode = 1 then ftLookupMount s name room (s.rootOf m.source) else none with
        | some e => some e
        | none =>
          match if replace then none else ftFind s dir name with
          | some e => some e
          | none => d.mounts.findSome? fun m =>
            if m.mode = 2 then ftLookupMount s name room (s.rootOf m.source) else none

def filetreeLookup (s : Store) (t parent : Addr) (name : Option Bytes) : Option Addr :=
  match name with
  | none => none
  | some name => if s.treeAlive t then ftLookupMount s name 65 parent else none

/-- `O9FTList`; `n` is the length of `v`. -/
structure Listing where
  v : List Addr
  cap : Nat
  deriving DecidableEq

def Store.nameOf (s : Store) (e : Addr) : Bytes :=
  match s.entries e with
  | some x => x.name
  | none => []

def Listing.grown (list : Listing) : Nat := if list.cap = 0 then 8 else list.cap * 2

/-- `memory cap` says whether the array can grow to `cap` elements. -/
def ftListAdd (s : Store) (memory : Nat → Bool) (list : Listing) (e : Addr) : Option Listing :=
  if list.v.any (fun other => s.nameOf other == s.nameOf e) then some list
  else if list.v.length = list.cap then
    if memory list.grown then some ⟨list.v ++ [e],list.grown⟩ else none
  else some ⟨list.v ++ [e],list.cap⟩

def ftCollect (s : Store) (memory : Nat → Bool) : Nat → Addr → Listing → Option Listing
  | 0, _, _ => none
  | room+1, dir, list =>
    match s.entries dir with
    | none => none
    | some d =>
      if d.kind ≠ .dir || d.removed || !s.treeAlive d.tree then none
      else
        let replace := d.mounts.any (·.mode == 0)
        (d.mounts.foldlM (fun list m =>
          if m.mode = 0 || m.mode = 1 then ftCollect s memory room (s.rootOf m.source) list
          else some list) list).bind fun list =>
        (if replace then some list
          else ((List.range ftBuckets).flatMap d.buckets).foldlM (ftListAdd s memory) list).bind
            fun list =>
        d.mounts.foldlM (fun list m =>
          if m.mode = 2 then ftCollect s memory room (s.rootOf m.source) list
          else some list) list

/-- `none` is the return value -1; the count is the length of the list. -/
def filetreeEntries (s : Store) (t dir : Addr) (memory : Nat → Bool) : Option (List Addr) :=
  if s.isDir dir && s.treeAlive t then (ftCollect s memory 65 dir ⟨[],0⟩).map (·.v) else none

theorem ftListAdd_extends (added : ftListAdd s memory list e = some list') :
    Layers.Extends s.nameOf (only s.nameOf e) list.v list'.v := by
  revert added
  fun_cases ftListAdd s memory list e <;> rintro ⟨⟩
  case case1 known =>
    apply extends_known
    obtain ⟨other,member,same⟩ := any_eq_true.mp known
    exact mem_map.mpr ⟨other,member,beq_iff_eq.mp same⟩
  case case2 new _ _ | case4 new _ => exact extends_append (by simpa using new)

theorem chain_name_once (wf : WellFormed s) (hd : s.entries dir = some d)
    (hc : c ∈ d.buckets b) (hc' : c' ∈ d.buckets b) (hy : s.entries c = some y)
    (hy' : s.entries c' = some y') (same : y.name = y'.name) : c = c' := by
  by_contra apart
  have symmetric : Std.Symm fun c c' => ∀ y y', s.entries c = some y →
      s.entries c' = some y' → y.name ≠ y'.name :=
    ⟨fun _ _ differ y y' hy hy' => (differ y' y hy' hy).symm⟩
  exact (wf.names dir d hd b).forall hc hc' apart y y' hy hy' same

theorem chains_find (wf : WellFormed s) (hd : s.entries dir = some d) (isDir : d.kind = .dir)
    (name : Bytes) : ((range ftBuckets).flatMap d.buckets).findSome?
      (fun e => only s.nameOf e name) = ftFind s dir name := by
  have own (b : Nat) (c : Addr) (hc : c ∈ d.buckets b) :
      only s.nameOf c name = if s.named name c then some c else none := by
    obtain ⟨y,hy,_⟩ := wf.child dir d hd b c hc
    simp [only,Store.nameOf,Store.named,hy]
  cases found : ftFind s dir name with
  | none =>
    rw [findSome?_eq_none_iff]
    intro c member
    obtain ⟨b,_,hc⟩ := mem_flatMap.mp member
    obtain ⟨y,hy,present,hash,_⟩ := wf.child dir d hd b c hc
    have differ : y.name ≠ name := by
      intro same
      exact ftFind_none found hd isDir (by rw [← same,hash]; exact hc) hy present same
    simp [own b c hc,Store.named,hy,differ]
  | some e =>
    obtain ⟨d',x,hd',_,inChain,hx,_,named⟩ := ftFind_some found
    cases hd.symm.trans hd'
    have bound : ftBucket name < ftBuckets := Nat.mod_lt _ (by decide)
    have listed : e ∈ (range ftBuckets).flatMap d.buckets :=
      mem_flatMap.mpr ⟨_,mem_range.mpr bound,inChain⟩
    cases answer : ((range ftBuckets).flatMap d.buckets).findSome?
        (fun e => only s.nameOf e name) with
    | none =>
      have := findSome?_eq_none_iff.mp answer e listed
      simp [only,Store.nameOf,hx,named] at this
    | some c =>
      obtain ⟨c',member,picked⟩ := exists_of_findSome?_eq_some answer
      obtain ⟨b,_,hc⟩ := mem_flatMap.mp member
      obtain ⟨y,hy,_,hash,_⟩ := wf.child dir d hd b c' hc
      rw [own b c' hc] at picked
      split at picked
      next same =>
        obtain rfl := some.inj picked
        have yName : y.name = name := by simpa [Store.named,hy] using same
        -- Both are in the chain of `name`, where a name occurs once.
        have hc : c' ∈ d.buckets (ftBucket name) := by rw [← yName,hash]; exact hc
        rw [chain_name_once wf hd hc inChain hy hx (yName.trans named.symm)]
      · contradiction

theorem ftCollect_extends (wf : WellFormed s) (room : Nat) (dir : Addr) (list list' : Listing)
    (collected : ftCollect s memory room dir list = some list') :
    Layers.Extends s.nameOf (fun name => ftLookupMount s name room dir) list.v list'.v := by
  induction room generalizing dir list list' with
  | zero => contradiction
  | succ room ih =>
    unfold ftCollect at collected
    split at collected
    · contradiction
    next d hd =>
      split at collected
      · contradiction
      next ok =>
        have isDir : d.kind = .dir := by
          by_contra other
          simp [other] at ok
        simp only [bind_eq_some_iff] at collected
        obtain ⟨list₁,before,list₂,here,after⟩ := collected
        -- A mount of the pass is its source's union, any other mount is an empty layer.
        have pass (use : Mount → Bool) : ∀ (m : Mount) (l l' : Listing),
            (if use m then ftCollect s memory room (s.rootOf m.source) l else some l) = some l' →
            Layers.Extends s.nameOf (fun name =>
              if use m then ftLookupMount s name room (s.rootOf m.source) else none) l.v l'.v := by
          intro m l l' ran
          cases used : use m with
          | true =>
            rw [used,if_pos rfl] at ran
            simpa using ih _ l l' ran
          | false =>
            rw [used] at ran
            cases ran
            simpa using Layers.Extends.refl l.v
        have one := extends_foldlM Listing.v _ _
          (pass fun m => m.mode = 0 || m.mode = 1) d.mounts list list₁ (by simpa using before)
        have three := extends_foldlM Listing.v _ _
          (pass fun m => m.mode = 2) d.mounts list₂ list' (by simpa using after)
        have two : Layers.Extends s.nameOf (fun name =>
            if d.mounts.any (·.mode == 0) then none else ftFind s dir name) list₁.v list₂.v := by
          cases replace : d.mounts.any (·.mode == 0) with
          | true =>
            rw [replace,if_pos rfl] at here
            cases here
            simpa using Layers.Extends.refl list₁.v
          | false =>
            have scan := extends_foldlM Listing.v (ftListAdd s memory) _
              (fun e l l' => ftListAdd_extends) _ list₁ list₂ (by simpa [replace] using here)
            simpa [chains_find wf hd isDir] using scan
        have all := (one.trans two).trans three
        refine ⟨fun name => ?_,all.distinct⟩
        rw [all.first]
        congr 1
        simp only [ftLookupMount,hd,ok,Bool.false_eq_true,↓reduceIte]
        cases d.mounts.findSome? fun m =>
            if m.mode = 0 || m.mode = 1 then ftLookupMount s name room (s.rootOf m.source) else none with
        | some e => rfl
        | none =>
          cases (if d.mounts.any (·.mode == 0) then none else ftFind s dir name) with
          | some => rfl
          | none => simp

theorem ftLookupMount_found (room : Nat) (dir : Addr)
    (found : ftLookupMount s name room dir = some e) : ∃ layer, ftFind s layer name = some e := by
  induction room generalizing dir with
  | zero => contradiction
  | succ room ih =>
    have mount (use : Mount → Bool) (m : Mount)
        (h : (if use m then ftLookupMount s name room (s.rootOf m.source) else none) = some e) :
        ∃ layer, ftFind s layer name = some e := by
      split at h
      · exact ih _ h
      · contradiction
    simp only [ftLookupMount] at found
    split at found
    · contradiction
    split at found
    · contradiction
    split at found
    next before =>
      cases found
      obtain ⟨m,_,h⟩ := exists_of_findSome?_eq_some before
      exact mount (fun m => m.mode = 0 || m.mode = 1) m (by simpa using h)
    split at found
    next here =>
      cases found
      split at here
      · contradiction
      · exact ⟨dir,here⟩
    · obtain ⟨m,_,h⟩ := exists_of_findSome?_eq_some found
      exact mount (fun m => m.mode = 2) m (by simpa using h)

theorem filetreeLookup_found (found : filetreeLookup s t dir name = some e) :
    ∃ n layer, name = some n ∧ ftFind s layer n = some e := by
  cases name with
  | none => contradiction
  | some n =>
    simp only [filetreeLookup] at found
    split at found
    · obtain ⟨layer,here⟩ := ftLookupMount_found 65 dir found
      exact ⟨n,layer,rfl,here⟩
    · contradiction

theorem filetreeLookup_named (found : filetreeLookup s t dir (some name) = some e) : s.named name e = true := by
  obtain ⟨_,_,⟨⟩,here⟩ := filetreeLookup_found found
  obtain ⟨_,x,_,_,_,hx,_,named⟩ := ftFind_some here
  simp [Store.named,hx,named]

theorem nameOf_of_named {s : Store} (named : s.named name e = true) : s.nameOf e = name := by
  unfold Store.named at named
  unfold Store.nameOf
  split at named <;> simp_all

theorem filetreeEntries_first (wf : WellFormed s) (listed : filetreeEntries s t dir memory = some result) :
    (result.map s.nameOf).Nodup ∧ ∀ n, first s.nameOf n result = filetreeLookup s t dir (some n) := by
  unfold filetreeEntries at listed
  split at listed
  next ok =>
    simp only [Bool.and_eq_true] at ok
    obtain ⟨list,collected,rfl⟩ := Option.map_eq_some_iff.mp listed
    have union := ftCollect_extends wf 65 dir ⟨[],0⟩ list collected
    refine ⟨union.distinct (by simp),fun n => ?_⟩
    rw [union.first]
    simp [first,filetreeLookup,ok.2]
  · contradiction

/-- A listed union directory has each name once, and the entry listed under a name is
the one a lookup of that name returns. -/
theorem entries_agree_with_lookup (reachable : Reachable s)
    (listed : filetreeEntries s t dir memory = some result) :
    result.Pairwise (fun a b => s.nameOf a ≠ s.nameOf b) ∧
      ∀ n e, (e ∈ result ∧ s.named n e = true) ↔ filetreeLookup s t dir (some n) = some e := by
  obtain ⟨distinct,agree⟩ := filetreeEntries_first reachable.wellFormed listed
  refine ⟨pairwise_map.mp distinct,fun n e => ?_⟩
  rw [← agree,first_eq_some_iff distinct]
  constructor
  · rintro ⟨member,named⟩
    exact ⟨member,nameOf_of_named named⟩
  · rintro ⟨member,named⟩
    refine ⟨member,filetreeLookup_named ((agree n).symm.trans ?_)⟩
    exact (first_eq_some_iff distinct).mpr ⟨member,named⟩

/-- Tree 1 holds `f` and `g`; tree 3 holds its own `f` and is mounted before tree 1's root. -/
def shadowedPair : List Op :=
  [.new 7 1 2 true,.new 7 3 4 true,.live 7 1 (some [102]) 0 ⟨true,5,true⟩,
    .live 7 1 (some [103]) 0 ⟨true,6,true⟩,.live 7 3 (some [102]) 0 ⟨true,8,true⟩,
    .register 7 3 (some [98]) true true,
    .applySpecs 7 1 (some [⟨some [46],some [98],1,false⟩]) fun _ => true]

theorem shadowedPair_listing : ∃ s, Transition.run step shadowedPair Store.empty = some s ∧
    filetreeEntries s 1 2 (fun _ => true) = some [8,6] ∧
    filetreeLookup s 1 2 (some [102]) = some 8 :=
  have listed : filetreeEntries _ 1 2 (fun _ => true) = some [8,6] := rfl
  ⟨_,rfl,listed,((entries_agree_with_lookup ⟨shadowedPair,rfl⟩ listed).2 [102] 8).mp
    ⟨by decide,by decide⟩⟩

end Objective9c.Filetree
