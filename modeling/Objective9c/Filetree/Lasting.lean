import Objective9c.Filetree.Union

/-! What lasts of an entry while its tree is there, and the names a lookup can find. -/
namespace Objective9c.Filetree

open Option

/-- What is never assigned again. -/
structure Entry.Lasts (x x' : Entry) : Prop where
  name : x'.name = x.name
  id : x'.id = x.id
  kind : x'.kind = x.kind
  tree : x'.tree = x.tree
  parent : x'.parent = x.parent

theorem Entry.Lasts.refl (x : Entry) : x.Lasts x := ⟨rfl,rfl,rfl,rfl,rfl⟩

/-- `o9_filetree_apply_specs` changes the mounts of one tree's directories, and never to a source
from which that tree is reached. -/
def Mounted (s s' : Store) : Prop := ∃ t plans, s' = s.remounted plans ∧ (∀ p ∈ plans, s.DirIn t p.target) ∧
  (∀ p ∈ plans, ∀ m ∈ p.mounts, ftReaches s plans t 256 m.source [] = false) ∧
  ∀ p ∈ plans, ∀ m ∈ p.mounts, m ∈ s.mountsAt p.target ∨ ∃ id, ftResolve s id = some m.source

/-- The entry at `a` is new, or an old one of which the removed mark, the chains or, by `Mounted` only, the mounts may
have changed. -/
inductive Comes (s s' : Store) (a : Addr) (x' : Entry) : Prop where
  | new (fresh : s.entries a = none) (unmounted : x'.mounts = []) (present : x'.removed = false)
      (empty : ∀ b, x'.buckets b = []) (id : x'.id = s.nextId ∧ s'.nextId = (s.nextId + 1) % 2^64)
      (only : ∀ b, s.entries b = none → (s'.entries b).isSome = true → b = a)
      (up : (x'.parent = nil ∧ s'.rootOf x'.tree = a) ∨
        (ftNameOk x'.name = true ∧ ∃ p, s.entries x'.parent = some p ∧ p.tree = x'.tree))
  | old (x : Entry) (hx : s.entries a = some x) (lasts : x.Lasts x') (mounts : x'.mounts = x.mounts ∨ Mounted s s')
      (removed : x'.removed = x.removed ∨
        (x.removed = false ∧ x.parent ≠ nil ∧ x'.buckets = x.buckets ∧ ∀ i < ftBuckets, x.buckets i = []))
      (chains : (∀ b, x'.buckets b ⊆ x.buckets b) ∨ x.removed = false ∨ s.rootOf x.tree = a)

theorem Comes.same {s s' : Store} (hx : s.entries a = some x) : Comes s s' a x :=
  .old x hx (.refl x) (.inl rfl) (.inl rfl) (.inl fun _ _ => id)

section

variable (wf : WellFormed s) (change : Change s s')

include wf change

theorem Change.comes (hx' : s'.entries a = some x') : Comes s s' a x' := by
  cases change with
  | same | revoke | register => exact .same hx'
  | plant caller t entry e _ _ _ fresh _ present inTree unmounted empty root id =>
    by_cases new : a = entry
    · obtain rfl : e = x' := by simpa [new] using hx'
      refine .new (new ▸ fresh) unmounted present empty ⟨id,rfl⟩ (fun b free taken => ?_) (.inl ⟨root,by simp [inTree,new]⟩)
      by_contra other
      simp [new ▸ other,free] at taken
    · exact .same (by simpa [new] using hx')
  | link t parent entry tree p e _ fresh ht hp _ inTree _ present eTree up unmounted empty ok id shown =>
    by_cases here : a = parent
    · obtain rfl : p.pushBucket (ftBucket e.name) entry = x' := by simpa [here] using hx'
      exact .old p (here ▸ hp) ⟨rfl,rfl,rfl,rfl,rfl⟩ (.inl rfl) (.inl rfl) (.inr (by simpa [here,inTree,ht] using shown))
    · by_cases new : a = entry
      · subst new
        obtain rfl : e = x' := by simpa [here] using hx'
        refine .new fresh unmounted present empty ⟨id,rfl⟩ (fun b free taken => ?_)
          (.inr ⟨ok,p,up ▸ hp,inTree.trans eTree.symm⟩)
        by_contra other
        have apart : b ≠ parent := by rintro rfl; simp [hp] at free
        simp [apart,other,free] at taken
      · exact .same (by simpa [here,new] using hx')
  | write e old data writable he =>
    rw [setEntry_entries] at hx'
    split at hx'
    next here => cases hx'; exact .old old (here ▸ he) ⟨rfl,rfl,rfl,rfl,rfl⟩ (.inl rfl) (.inl rfl) (.inl fun _ _ => id)
    · exact .same hx'
  | unlink parent e name old he found empty =>
    obtain ⟨p,_,hp,_,inChain,_⟩ := ftFind_some found
    rw [unlink_entries hp (unlink_apart he found empty)] at hx'
    split at hx'
    next here =>
      cases hx'
      refine .old p (here ▸ hp) ⟨rfl,rfl,rfl,rfl,rfl⟩ (.inl rfl) (.inl rfl) (.inl fun b => ?_)
      dsimp only [Entry.dropBucket]
      split
      · exact List.erase_subset
      · exact List.Subset.refl _
    · split at hx'
      next gone =>
        cases hx'
        obtain ⟨y,hy,present,_,_,up⟩ := wf.child parent p hp _ e inChain
        cases he.symm.trans hy
        have inside : old.parent ≠ nil := by
          intro outside
          rw [← up,outside,wf.nilEntry] at hp
          contradiction
        exact .old old (gone ▸ he) ⟨rfl,rfl,rfl,rfl,rfl⟩ (.inl rfl) (.inr ⟨present,inside,rfl,empty⟩) (.inl fun _ _ => id)
      · exact .same hx'
  | mount t tree plans ht inTree apart sources =>
    obtain ⟨x,hx,rfl⟩ := map_eq_some_iff.mp hx'
    exact .old x hx ⟨rfl,rfl,rfl,rfl,rfl⟩ (.inr ⟨t,plans,rfl,inTree,apart,sources⟩) (.inl rfl) (.inl fun _ _ => id)
  | destroy t tree =>
    dsimp only at hx'
    split at hx'
    · contradiction
    · exact .same hx'

theorem Change.persists (hx : s.entries a = some x) (stays : (s'.trees x.tree).isSome = true) :
    (s'.entries a).isSome = true := by
  cases change with
  | same | revoke | register | mount => simp [hx]
  | plant =>
    dsimp only [Store.planted]
    split <;> simp [hx]
  | link =>
    dsimp only [Store.linked]
    split
    · rfl
    · split <;> simp [hx]
  | write =>
    rw [setEntry_entries]
    split <;> simp [hx]
  | unlink parent e name old he found empty =>
    obtain ⟨p,_,hp,_⟩ := ftFind_some found
    rw [unlink_entries hp (unlink_apart he found empty)]
    split
    · rfl
    · split <;> simp [hx]
  | destroy t tree ht =>
    by_cases freed : a ∈ tree.all
    · obtain ⟨x',hx',home⟩ := wf.member t tree ht a freed
      cases hx.symm.trans hx'
      simp [home] at stays
    · simp [freed,hx]

theorem Change.lasts (hx : s.entries a = some x) (stays : (s'.trees x.tree).isSome = true) :
    ∃ x', s'.entries a = some x' ∧ x.Lasts x' := by
  obtain ⟨x',hx'⟩ := isSome_iff_exists.mp (change.persists wf hx stays)
  refine ⟨x',hx',?_⟩
  cases change.comes wf hx' with
  | new fresh => simp [hx] at fresh
  | old y hy lasts =>
    cases hx.symm.trans hy
    exact lasts

end

theorem Change.rootOf (change : Change s s') (ht : (s.trees t).isSome = true)
    (stays : (s'.trees t).isSome = true) : s'.rootOf t = s.rootOf t := by
  cases change with
  | same => rfl
  | plant caller t' entry e treeOk entryOk freshTree =>
    have other : t ≠ t' := by rintro rfl; simp [freshTree] at ht
    simp [other]
  | link t' parent entry tree p e entryOk freshEntry ht' =>
    by_cases here : t = t'
    · subst here
      simp [ht']
    · simp [here]
  | write => rfl
  | unlink => simp only [Store.rootOf,unlink_trees]
  | revoke t' tree ht' =>
    by_cases here : t = t'
    · subst here
      simp [ht']
    · simp [here]
  | register => rfl
  | mount => rfl
  | destroy t' =>
    have other : t ≠ t' := by rintro rfl; simp at stays
    simp [other]

/-- An entry is a root or has a name that `ft_name_ok` accepts. -/
def Entry.Tagged (x : Entry) : Prop := x.parent = nil ∨ ftNameOk x.name = true

def Store.Tagged (s : Store) : Prop := ∀ a x, s.entries a = some x → x.Tagged

/-- Only a tree's root has no parent, and a new entry under a parent has passed `ft_name_ok`. -/
theorem Change.tagged (wf : WellFormed s) (tagged : s.Tagged) (change : Change s s') : s'.Tagged := by
  intro a x' hx'
  cases change.comes wf hx' with
  | new _ _ _ _ _ _ up => exact up.imp And.left And.left
  | old x hx lasts =>
    rw [Entry.Tagged,lasts.name,lasts.parent]
    exact tagged a x hx

theorem empty_tagged : Store.empty.Tagged := by
  intro a x hx
  cases hx

theorem filetreeLookup_ok (wf : WellFormed s) (tagged : s.Tagged)
    (found : filetreeLookup s t dir (some name) = some e) :
    ∃ x, s.entries e = some x ∧ x.name = name ∧ ftNameOk name = true := by
  obtain ⟨_,layer,⟨⟩,here⟩ := filetreeLookup_found found
  obtain ⟨d,x,hd,_,member,hx,_,named⟩ := ftFind_some here
  obtain ⟨y,hy,_,_,_,parent⟩ := wf.child layer d hd _ _ member
  cases hx.symm.trans hy
  refine ⟨x,hx,named,?_⟩
  rcases tagged _ x hx with root | ok
  · rw [← parent,root,wf.nilEntry] at hd
    contradiction
  · rwa [← named]

theorem ftNameOk_slash (ok : ftNameOk name = true) : (47 : UInt8) ∉ name := by
  intro member
  simp only [ftNameOk,Bool.and_eq_true,List.all_eq_true] at ok
  have := ok.2 47 member
  contradiction

end Objective9c.Filetree
