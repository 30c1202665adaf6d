import Mathlib.Data.List.Dedup

/-! Lists built layer by layer in which the first element with a key wins, compared
with looking a key up in the layers in the same order. -/
namespace Layers

open List Option

variable {α : Type u} {β : Type v} {κ : Type w} {σ : Type x} [DecidableEq κ] {key : α → κ}

def first (key : α → κ) (k : κ) (list : List α) : Option α := list.find? fun a => decide (key a = k)

/-- `list'` is `list` with a layer added behind it that answers `pick`. -/
structure Extends (key : α → κ) (pick : κ → Option α) (list list' : List α) : Prop where
  first : ∀ k, first key k list' = (first key k list).or (pick k)
  distinct : (list.map key).Nodup → (list'.map key).Nodup

theorem Extends.refl (list : List α) : Extends key (fun _ => none) list list :=
  ⟨by simp,id⟩

theorem Extends.trans (one : Extends key pick₁ list list') (two : Extends key pick₂ list' list'') :
    Extends key (fun k => (pick₁ k).or (pick₂ k)) list list'' :=
  ⟨fun k => by rw [two.first,one.first,Option.or_assoc],fun h => two.distinct (one.distinct h)⟩

def only (key : α → κ) (a : α) (k : κ) : Option α := if key a = k then some a else none

theorem extends_known (known : key a ∈ list.map key) : Extends key (only key a) list list := by
  refine ⟨fun k => ?_,id⟩
  by_cases same : key a = k
  · obtain ⟨b,hb,eq⟩ := mem_map.mp known
    have found : (first key k list).isSome := by
      simp only [first,find?_isSome,decide_eq_true_eq]
      exact ⟨b,hb,eq.trans same⟩
    obtain ⟨c,hc⟩ := isSome_iff_exists.mp found
    simp [hc]
  · simp [only,same]

theorem extends_append (new : key a ∉ list.map key) : Extends key (only key a) list (list ++ [a]) := by
  refine ⟨fun k => ?_,fun distinct => ?_⟩
  · by_cases same : key a = k <;> simp [first,only,same]
  · simpa [nodup_append,distinct] using new

theorem extends_foldlM (view : σ → List α) (f : σ → β → Option σ) (pick : β → κ → Option α)
    (step : ∀ b s s', f s b = some s' → Extends key (pick b) (view s) (view s'))
    (layers : List β) (s s' : σ) (ran : layers.foldlM f s = some s') :
    Extends key (fun k => layers.findSome? fun b => pick b k) (view s) (view s') := by
  induction layers generalizing s with
  | nil => cases ran; exact .refl _
  | cons b rest ih =>
    obtain ⟨next,one,ran⟩ := bind_eq_some_iff.mp ran
    have both := (step b s next one).trans (ih next ran)
    refine ⟨fun k => ?_,both.distinct⟩
    rw [both.first,findSome?_cons]
    cases pick b k <;> rfl

/-- A list with one more element, unless its key is known already. -/
def addNew (key : α → κ) (list : List α) (a : α) : List α := if key a ∈ list.map key then list else list ++ [a]

theorem extends_addNew (list : List α) (a : α) : Extends key (only key a) list (addNew key list a) := by
  unfold addNew
  split
  · exact extends_known ‹_›
  · exact extends_append ‹_›

theorem extends_foldl_addNew (layer list : List α) :
    Extends key (fun k => first key k layer) list (layer.foldl (addNew key) list) := by
  induction layer generalizing list with
  | nil => exact .refl list
  | cons a rest ih =>
    have both := (extends_addNew list a).trans (ih (addNew key list a))
    refine ⟨fun k => ?_,both.distinct⟩
    rw [foldl_cons,both.first]
    by_cases same : key a = k <;> simp [first,only,same]

theorem first_isSome : (first key k list).isSome ↔ k ∈ list.map key := by
  simp [first]

theorem length_foldl_addNew (list : List α) :
    (list.foldl (addNew key) []).length = (list.map key).dedup.length := by
  have added : Extends key (fun k => first key k list) [] (list.foldl (addNew key) []) :=
    extends_foldl_addNew list []
  have perm : ((list.foldl (addNew key) []).map key).Perm (list.map key).dedup := by
    apply (perm_ext_iff_of_nodup (added.distinct nodup_nil) (nodup_dedup _)).mpr
    intro k
    rw [mem_dedup,← first_isSome,← first_isSome,added.first]
    rfl
  simpa using perm.length_eq

theorem first_eq_some_iff_before [DecidableEq α] :
    first key k list = some a ↔ a ∈ list ∧ key a = k ∧ ∀ b ∈ list.takeWhile (· ≠ a), key b ≠ k := by
  induction list with
  | nil => simp [first]
  | cons c rest ih =>
    by_cases same : c = a
    · subst same
      by_cases here : key c = k
      · simp [first,here]
      · constructor
        · intro found
          exact absurd (by simpa using find?_some found) here
        · rintro ⟨_,this,_⟩
          exact absurd this here
    · have other : a ≠ c := fun eq => same eq.symm
      by_cases here : key c = k
      · have found : first key k (c :: rest) = some c := by simp [first,here]
        rw [found]
        constructor
        · intro eq
          exact absurd (some.inj eq) same
        · rintro ⟨_,_,clear⟩
          exact absurd here (clear c (by simp [same]))
      · have skipped : first key k (c :: rest) = first key k rest := by simp [first,here]
        rw [skipped,ih]
        simp [same,other,here]

theorem first_eq_some_iff (distinct : (list.map key).Nodup) : first key k list = some a ↔ a ∈ list ∧ key a = k := by
  constructor
  · intro found
    exact ⟨mem_of_find?_eq_some found,by simpa using find?_some found⟩
  · rintro ⟨member,rfl⟩
    cases found : first key (key a) list with
    | none =>
      have := find?_eq_none.mp found a member
      simp at this
    | some b =>
      have same : key b = key a := by simpa using find?_some found
      rw [inj_on_of_nodup_map distinct (mem_of_find?_eq_some found) member same]

theorem filter_of_nodup (distinct : (list.map key).Nodup) (k : κ) :
    list.filter (fun a => decide (key a = k)) = (first key k list).toList := by
  induction list with
  | nil => rfl
  | cons a rest ih =>
    obtain ⟨fresh,distinct⟩ := nodup_cons.mp distinct
    by_cases same : key a = k
    · have others : rest.filter (fun a => decide (key a = k)) = [] := by
        apply filter_eq_nil_iff.mpr
        intro b member
        have apart : key b ≠ key a := fun eq => fresh (eq ▸ mem_map_of_mem member)
        simpa [← same] using apart
      simp [first,same,others]
    · simpa [first,same] using ih distinct

end Layers
