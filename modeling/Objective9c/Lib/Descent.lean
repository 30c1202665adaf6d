import Mathlib.Logic.Relation
import Mathlib.Data.List.Basic

/-! Walks over nodes whose members are either links to further nodes or items of their own. A walk takes
the members in their order and follows a link where it stands, down to a given depth. -/
namespace Descent

open Relation

variable {α : Type u} {β : Type v}

/-- The items met on the walk from a node. -/
def items (members : α → List (α ⊕ β)) : Nat → α → List β
  | 0, _ => []
  | depth+1, a => (members a).flatMap fun
    | .inl b => items members depth b
    | .inr item => [item]

/-- What a member contributes to a walk. -/
def expand (members : α → List (α ⊕ β)) (depth : Nat) : α ⊕ β → List β
  | .inl b => items members depth b
  | .inr item => [item]

/-- Whether the walk from a node comes to its end within the depth. -/
def ends (members : α → List (α ⊕ β)) : Nat → α → Bool
  | 0, _ => false
  | depth+1, a => (members a).all fun
    | .inl b => ends members depth b
    | .inr _ => true

def Link (members : α → List (α ⊕ β)) (a b : α) : Prop := .inl b ∈ members a

variable {members : α → List (α ⊕ β)} {depth more : Nat} {a b : α}

theorem items_succ : items members (depth+1) a = (members a).flatMap (expand members depth) := rfl

theorem ends_link (ended : ends members (depth+1) a) (link : Link members a b) : ends members depth b := by
  have all := List.all_eq_true.mp ended _ link
  exact all

variable (ended : ends members depth a)
include ended

theorem ends_mono (le : depth ≤ more) : ends members more a := by
  induction depth generalizing more a with
  | zero => cases ended
  | succ depth ih =>
    obtain ⟨more,rfl⟩ : ∃ k, more = k+1 := ⟨more-1,by omega⟩
    apply List.all_eq_true.mpr
    intro m member
    cases m with
    | inl => exact ih (ends_link ended member) (by omega)
    | inr => rfl

theorem items_of_ends (le : depth ≤ more) :
    items members more a = items members depth a := by
  induction depth generalizing more a with
  | zero => cases ended
  | succ depth ih =>
    obtain ⟨more,rfl⟩ : ∃ k, more = k+1 := ⟨more-1,by omega⟩
    apply List.flatMap_congr
    intro m member
    cases m with
    | inl => exact ih (ends_link ended member) (by omega)
    | inr => rfl

theorem items_unfold :
    items members depth a = (members a).flatMap (expand members depth) := by
  cases depth with
  | zero => cases ended
  | succ depth =>
    apply List.flatMap_congr
    intro m member
    cases m with
    | inl => exact (items_of_ends (ends_link ended member) (Nat.le_succ depth)).symm
    | inr => rfl

theorem ends_of_link (link : Link members a b) : ends members depth b := by
  cases depth with
  | zero => cases ended
  | succ depth => exact ends_mono (ends_link ended link) (Nat.le_succ depth)

omit ended

theorem ends_of_fewer (sub : ∀ a b, Link fewer a b → Link members a b)
    (ended : ends members depth a) : ends fewer depth a := by
  induction depth generalizing a with
  | zero => cases ended
  | succ depth ih =>
    apply List.all_eq_true.mpr
    intro m member
    cases m with
    | inl b => exact ih (ends_link ended (sub a b member))
    | inr => rfl

/-- Induction along the links below a node whose walk ends. -/
theorem links_induction {motive : α → Prop}
    (step : ∀ a, (∀ b, Link members a b → motive b) → motive a) (ended : ends members depth a) : motive a := by
  induction depth generalizing a with
  | zero => cases ended
  | succ depth ih =>
    apply step
    intro b link
    exact ih (ends_link ended link)

/-- The items of a walk that ends are those of the nodes it can reach. -/
theorem mem_items (ended : ends members depth a) :
    item ∈ items members depth a ↔ ∃ b, ReflTransGen (Link members) a b ∧ .inr item ∈ members b := by
  constructor
  · intro member
    induction depth generalizing a with
    | zero => cases ended
    | succ depth ih =>
      obtain ⟨m,at_,inside⟩ := List.mem_flatMap.mp member
      cases m with
      | inl =>
        obtain ⟨c,links,own⟩ := ih (ends_link ended at_) inside
        exact ⟨c,.head at_ links,own⟩
      | inr =>
        obtain rfl := List.mem_singleton.mp inside
        exact ⟨a,.refl,at_⟩
  · rintro ⟨b,links,own⟩
    induction links using ReflTransGen.head_induction_on with
    | refl =>
      rw [items_unfold ended]
      exact List.mem_flatMap.mpr ⟨_,own,List.mem_singleton_self item⟩
    | head link _ ih =>
      rw [items_unfold ended]
      exact List.mem_flatMap.mpr ⟨_,link,ih (ends_of_link ended link)⟩

/-- No item that is met from the member on is looked for. -/
def Barren (members : α → List (α ⊕ β)) (wanted : β → Bool) : α ⊕ β → Prop
  | .inl a => ∀ b, ReflTransGen (Link members) a b → ∀ item, .inr item ∈ members b → wanted item = false
  | .inr item => wanted item = false

/-- The first item that is looked for on the walk from a node: in the node itself or below one of its links, with
nothing such in front of it. -/
inductive Nearest (members : α → List (α ⊕ β)) (wanted : β → Bool) : α → β → Prop where
  | own : members x = before ++ .inr item :: after → (∀ m ∈ before, Barren members wanted m) → wanted item →
      Nearest members wanted x item
  | down : members x = before ++ .inl y :: after → (∀ m ∈ before, Barren members wanted m) →
      Nearest members wanted y item → Nearest members wanted x item

theorem find?_expand_none (wanted : β → Bool) (ended : ends members (depth+1) a) (member : m ∈ members a) :
    (expand members depth m).find? wanted = none ↔ Barren members wanted m := by
  cases m with
  | inl b =>
    simp only [expand,List.find?_eq_none,Bool.not_eq_true,Barren,mem_items (ends_link ended member)]
    constructor
    · intro none c links item own
      exact none item ⟨c,links,own⟩
    · rintro none item ⟨c,links,own⟩
      exact none c links item own
  | inr item => simp [expand,Barren]

theorem find?_items_iff (wanted : β → Bool) (ended : ends members depth a) :
    (items members depth a).find? wanted = some item ↔ Nearest members wanted a item := by
  induction depth generalizing a with
  | zero => cases ended
  | succ depth ih =>
    rw [items_succ,List.find?_flatMap,List.findSome?_eq_some_iff]
    constructor
    · rintro ⟨before,m,after,split,here,none⟩
      have front : ∀ m ∈ before, Barren members wanted m := by
        intro m member
        exact (find?_expand_none wanted ended (by simp [split,member])).mp (none m member)
      cases m with
      | inl b => exact .down split front ((ih (ends_link ended (by simp [Link,split]))).mp here)
      | inr found =>
        obtain ⟨rfl,yes⟩ : found = item ∧ wanted found = true := by simpa [expand,and_comm] using here
        exact .own split front yes
    · intro nearest
      cases nearest with
      | own split front yes =>
        refine ⟨_,_,_,split,by simpa [expand] using yes,fun m member => ?_⟩
        exact (find?_expand_none wanted ended (by simp [split,member])).mpr (front m member)
      | down split front rest =>
        refine ⟨_,_,_,split,(ih (ends_link ended (by simp [Link,split]))).mpr rest,fun m member => ?_⟩
        exact (find?_expand_none wanted ended (by simp [split,member])).mpr (front m member)

/-- The walk from `a` comes to `b` with the items `front` behind it. -/
inductive Reaches (members : α → List (α ⊕ β)) (depth : Nat) : α → List β → α → Prop where
  | here : Reaches members depth x [] x
  | down : members x = before ++ .inl y :: after → Reaches members depth y front z →
      Reaches members depth x (before.flatMap (expand members depth) ++ front) z

theorem Reaches.items (reaches : Reaches members depth a front c) (ended : ends members depth a) :
    ∃ behind, items members depth a = front ++ (items members depth c ++ behind) := by
  induction reaches with
  | here => exact ⟨[],by simp⟩
  | @down a before after b front c split _ ih =>
    have link : Link members a b := by simp [Link,split]
    obtain ⟨behind,inner⟩ := ih (ends_of_link ended link)
    refine ⟨behind ++ after.flatMap (expand members depth),?_⟩
    rw [items_unfold ended,split,List.flatMap_append,List.flatMap_cons,expand,inner]
    simp only [List.append_assoc]

theorem Link.reaches (link : Link members a b) (reaches : Reaches members depth b front c) :
    ∃ longer, Reaches members depth a longer c := by
  obtain ⟨before,after,split⟩ := List.append_of_mem link
  exact ⟨_,.down split reaches⟩

end Descent
