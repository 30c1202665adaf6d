import Objective9c.Filetree.Mounts

/-! Union directories after `o9_filetree_revoke`. A lookup passes over a layer whose tree is
revoked, a listing fails at it. -/
namespace Objective9c.Filetree

open List Option

/-- Looked through before the directory's own entries. -/
def Mount.leads (m : Mount) : Bool := m.mode = 0 || m.mode = 1

/-- Looked through after them. -/
def Mount.trails (m : Mount) : Bool := m.mode = 2

def Store.layerEdge (s : Store) (dir layer : Addr) : Prop :=
  ∃ d m, s.entries dir = some d ∧ m ∈ d.mounts ∧ (m.leads || m.trails) = true ∧
    layer = s.rootOf m.source

/-- The directories a union directory is made of: itself and, through mounts, roots. -/
abbrev Store.Layer (s : Store) : Addr → Addr → Prop := Relation.ReflTransGen s.layerEdge

def Store.InUnion (s : Store) (dir t : Addr) : Prop :=
  ∃ layer d, s.Layer dir layer ∧ s.entries layer = some d ∧ d.tree = t

/-- Every mount of `source` is removed. -/
def Store.withoutMounts (s : Store) (source : Addr) : Store :=
  { s with entries := fun a => (s.entries a).map fun e =>
      { e with mounts := e.mounts.filter (·.source != source) } }

theorem findSome?_passed (use : α → Bool) (f : α → Option β) (l : List α) :
    l.findSome? (fun a => if use a then f a else none) = (l.filter use).findSome? f := by
  induction l with
  | nil => rfl
  | cons a l ih => cases used : use a <;> simp [findSome?_cons,used,ih]

theorem foldlM_ran {l : List α} (ran : l.foldlM f b = some b')
    (member : a ∈ l) : ∃ c c', f c a = some c' := by
  induction l generalizing b with
  | nil => cases member
  | cons x l ih =>
    simp only [foldlM_cons,bind_eq_bind,bind_eq_some_iff] at ran
    obtain ⟨c,first,rest⟩ := ran
    cases member with
    | head => exact ⟨b,c,first⟩
    | tail _ member => exact ih rest member

theorem replace_eq (mounts : List Mount) :
    mounts.any (·.mode == 0) = (mounts.filter Mount.leads).any (·.mode == 0) := by
  rw [List.any_filter]
  congr 1
  funext m
  by_cases zero : m.mode = 0 <;> simp [Mount.leads,zero]

theorem ftLookupMount_succ (hd : s.entries dir = some d) (isDir : d.kind = .dir)
    (present : d.removed = false) (alive : s.treeAlive d.tree = true) : ftLookupMount s name (room+1) dir =
      (((d.mounts.filter Mount.leads).findSome? fun m => ftLookupMount s name room (s.rootOf m.source)).or
        (if (d.mounts.filter Mount.leads).any (·.mode == 0) then none else ftFind s dir name)).or
        ((d.mounts.filter Mount.trails).findSome? fun m => ftLookupMount s name room (s.rootOf m.source)) := by
  have before : (d.mounts.findSome? fun m =>
      if m.mode = 0 || m.mode = 1 then ftLookupMount s name room (s.rootOf m.source) else none) =
      (d.mounts.filter Mount.leads).findSome? fun m =>
        ftLookupMount s name room (s.rootOf m.source) := findSome?_passed Mount.leads _ _
  have after : (d.mounts.findSome? fun m =>
      if m.mode = 2 then ftLookupMount s name room (s.rootOf m.source) else none) =
      (d.mounts.filter Mount.trails).findSome? fun m =>
        ftLookupMount s name room (s.rootOf m.source) := by
    rw [← findSome?_passed]
    simp [Mount.trails]
  rw [← replace_eq]
  simp only [ftLookupMount,hd,isDir,present,alive,ne_eq,not_true_eq_false,decide_false,
    Bool.not_true,Bool.or_self,Bool.false_eq_true,↓reduceIte,before,after]
  cases (d.mounts.filter Mount.leads).findSome? fun m =>
      ftLookupMount s name room (s.rootOf m.source) with
  | some e => rfl
  | none => cases (if d.mounts.any (·.mode == 0) then none else ftFind s dir name) <;> rfl

theorem ftCollect_succ (hd : s.entries dir = some d) (isDir : d.kind = .dir)
    (present : d.removed = false) (alive : s.treeAlive d.tree = true) : ftCollect s memory (room+1) dir list =
      ((d.mounts.filter Mount.leads).foldlM (fun list m =>
        ftCollect s memory room (s.rootOf m.source) list) list).bind fun list =>
      (if (d.mounts.filter Mount.leads).any (·.mode == 0) then some list
        else ((range ftBuckets).flatMap d.buckets).foldlM (ftListAdd s memory) list).bind fun list =>
      (d.mounts.filter Mount.trails).foldlM (fun list m =>
        ftCollect s memory room (s.rootOf m.source) list) list := by
  simp only [foldlM_filter,← replace_eq]
  simp [ftCollect,hd,isDir,present,alive,Mount.leads,Mount.trails]

theorem ftCollect_some (collected : ftCollect s memory (room+1) dir list = some list') :
    ∃ d, s.entries dir = some d ∧ d.kind = .dir ∧ d.removed = false ∧
      s.treeAlive d.tree = true ∧ ∀ m ∈ d.mounts, (m.leads || m.trails) = true →
        ∃ l l', ftCollect s memory room (s.rootOf m.source) l = some l' := by
  have opened := collected
  unfold ftCollect at opened
  split at opened
  · contradiction
  next d hd =>
    split at opened
    · contradiction
    next ok =>
      simp only [ne_eq,Bool.or_eq_true,decide_eq_true_eq,Bool.not_eq_true',not_or,not_not,
        Bool.not_eq_true,Bool.not_eq_false] at ok
      obtain ⟨⟨isDir,present⟩,alive⟩ := ok
      refine ⟨d,hd,isDir,present,alive,fun m member passed => ?_⟩
      rw [ftCollect_succ hd isDir present alive] at collected
      simp only [bind_eq_some_iff] at collected
      obtain ⟨_,before,_,_,after⟩ := collected
      cases leads : m.leads with
      | true => exact foldlM_ran before (mem_filter.mpr ⟨member,leads⟩)
      | false =>
        have trails : m.trails = true := by simpa [leads] using passed
        exact foldlM_ran after (mem_filter.mpr ⟨member,trails⟩)

theorem collected_layers_alive (collected : ftCollect s memory room dir list = some list')
    (layer : s.Layer dir a) : ∃ d, s.entries a = some d ∧ s.treeAlive d.tree = true := by
  induction room generalizing dir list list' with
  | zero => contradiction
  | succ room ih =>
    obtain ⟨d,hd,_,_,alive,below⟩ := ftCollect_some collected
    rcases layer.cases_head with rfl | ⟨next,edge,rest⟩
    · exact ⟨d,hd,alive⟩
    · obtain ⟨d',m,hd',member,passed,rfl⟩ := edge
      cases hd.symm.trans hd'
      obtain ⟨l,l',inner⟩ := below m member passed
      exact ih inner rest

/-- The name and the mark of removal, all that a scan of a chain reads. -/
def Store.face (s : Store) (a : Addr) : Option (Bytes × Bool) :=
  (s.entries a).map fun e => (e.name,e.removed)

/-- Two stores give the same union at the layers below `dir`. -/
structure SameUnion (s s' : Store) (dir : Addr) : Prop where
  face : s'.face = s.face
  layer : ∀ a, s.Layer dir a → ∀ d, s.entries a = some d → ∃ d', s'.entries a = some d' ∧
    d'.kind = d.kind ∧ d'.removed = d.removed ∧ s'.treeAlive d'.tree = s.treeAlive d.tree ∧
    d'.buckets = d.buckets ∧ d'.mounts.filter Mount.leads = d.mounts.filter Mount.leads ∧
    d'.mounts.filter Mount.trails = d.mounts.filter Mount.trails
  rootOf : ∀ t, s'.rootOf t = s.rootOf t

theorem SameUnion.below (same : SameUnion s s' dir) (edge : s.layerEdge dir a) : SameUnion s s' a :=
  ⟨same.face,fun b path => same.layer b (.head edge path),same.rootOf⟩

theorem layerEdge_of_leads {s : Store} (hd : s.entries dir = some d) (member : m ∈ d.mounts.filter Mount.leads) :
    s.layerEdge dir (s.rootOf m.source) :=
  have ⟨member,leads⟩ := mem_filter.mp member
  ⟨d,m,hd,member,by simp [leads],rfl⟩

theorem layerEdge_of_trails {s : Store} (hd : s.entries dir = some d)
    (member : m ∈ d.mounts.filter Mount.trails) : s.layerEdge dir (s.rootOf m.source) :=
  have ⟨member,trails⟩ := mem_filter.mp member
  ⟨d,m,hd,member,by simp [trails],rfl⟩

theorem nameOf_congr {s s' : Store} (face : s'.face = s.face) : s'.nameOf = s.nameOf := by
  funext a
  have same := congrFun face a
  unfold Store.face at same
  unfold Store.nameOf
  cases hs : s.entries a <;> cases hs' : s'.entries a <;> simp_all

theorem ftListAdd_congr (face : s'.face = s.face) : ftListAdd s' memory = ftListAdd s memory := by
  funext list e
  simp [ftListAdd,nameOf_congr face]

theorem ftFind_congr (face : s'.face = s.face) (hd : s.entries dir = some d)
    (hd' : s'.entries dir = some d') (kind : d'.kind = d.kind) (buckets : d'.buckets = d.buckets) :
    ftFind s' dir name = ftFind s dir name := by
  simp only [ftFind,hd,hd',kind,buckets]
  congr 2
  funext a
  have same := congrFun face a
  unfold Store.face at same
  cases hs : s.entries a <;> cases hs' : s'.entries a <;> simp_all

theorem findSome?_congr {l : List α} (same : ∀ a ∈ l, f a = g a) : l.findSome? f = l.findSome? g := by
  induction l with
  | nil => rfl
  | cons a l ih =>
    simp only [findSome?_cons,same a mem_cons_self,
      ih fun b member => same b (mem_cons_of_mem a member)]

theorem foldlM_congr {g : β → α → Option β} {l : List α} (same : ∀ a ∈ l, ∀ b, f b a = g b a)
    (b : β) : l.foldlM f b = l.foldlM g b := by
  induction l generalizing b with
  | nil => rfl
  | cons a l ih =>
    simp only [foldlM_cons,same a mem_cons_self]
    exact congrArg _ (funext fun c => ih (fun x member => same x (mem_cons_of_mem a member)) c)

theorem SameUnion.missing (same : SameUnion s s' dir) (absent : s.entries dir = none) : s'.entries dir = none := by
  have face := congrFun same.face dir
  simpa [Store.face,absent] using face

theorem SameUnion.lookup (same : SameUnion s s' dir) (room : Nat) :
    ftLookupMount s' name room dir = ftLookupMount s name room dir := by
  induction room generalizing dir with
  | zero => rfl
  | succ room ih =>
    cases hd : s.entries dir with
    | none => simp [ftLookupMount,hd,same.missing hd]
    | some d =>
      obtain ⟨d',hd',kind,removed,alive,buckets,leads,trails⟩ := same.layer dir .refl d hd
      by_cases ok : d.kind = .dir ∧ d.removed = false ∧ s.treeAlive d.tree = true
      · rw [ftLookupMount_succ hd ok.1 ok.2.1 ok.2.2,
          ftLookupMount_succ hd' (kind.trans ok.1) (removed.trans ok.2.1) (alive.trans ok.2.2),
          ftFind_congr same.face hd hd' kind buckets,leads,trails]
        congr 1
        · congr 1
          exact findSome?_congr fun m member => by
            rw [same.rootOf,ih (same.below (layerEdge_of_leads hd member))]
        · exact findSome?_congr fun m member => by
            rw [same.rootOf,ih (same.below (layerEdge_of_trails hd member))]
      · have closed : (d.kind ≠ .dir || d.removed || !s.treeAlive d.tree) = true := by
          by_cases isDir : d.kind = .dir <;> cases gone : d.removed <;> simp_all
        simp only [ftLookupMount,hd,hd',kind,removed,alive,closed,↓reduceIte]

theorem SameUnion.collect (same : SameUnion s s' dir) (room : Nat) (list : Listing) :
    ftCollect s' memory room dir list = ftCollect s memory room dir list := by
  induction room generalizing dir list with
  | zero => rfl
  | succ room ih =>
    cases hd : s.entries dir with
    | none => simp [ftCollect,hd,same.missing hd]
    | some d =>
      obtain ⟨d',hd',kind,removed,alive,buckets,leads,trails⟩ := same.layer dir .refl d hd
      by_cases ok : d.kind = .dir ∧ d.removed = false ∧ s.treeAlive d.tree = true
      · rw [ftCollect_succ hd ok.1 ok.2.1 ok.2.2,
          ftCollect_succ hd' (kind.trans ok.1) (removed.trans ok.2.1) (alive.trans ok.2.2),
          ftListAdd_congr same.face,buckets,leads,trails]
        congr 1
        · exact foldlM_congr (fun m member l => by
            rw [same.rootOf,ih (same.below (layerEdge_of_leads hd member))]) list
        · funext l
          congr 1
          funext l
          exact foldlM_congr (fun m member l => by
            rw [same.rootOf,ih (same.below (layerEdge_of_trails hd member))]) l
      · have closed : (d.kind ≠ .dir || d.removed || !s.treeAlive d.tree) = true := by
          by_cases isDir : d.kind = .dir <;> cases gone : d.removed <;> simp_all
        simp only [ftCollect,hd,hd',kind,removed,alive,closed,↓reduceIte]

theorem revoke_entries (s : Store) (t : Addr) : (filetreeRevoke s t).entries = s.entries := by
  unfold filetreeRevoke
  split <;> rfl

theorem revoke_rootOf (s : Store) (t a : Addr) : (filetreeRevoke s t).rootOf a = s.rootOf a := by
  unfold filetreeRevoke
  split
  · rfl
  next tree known =>
    by_cases same : a = t
    · subst same
      simp [known]
    · simp [same]

theorem revoke_alive (s : Store) (t : Addr) (other : a ≠ t) : (filetreeRevoke s t).treeAlive a = s.treeAlive a := by
  unfold filetreeRevoke
  split
  · rfl
  · simp [Store.treeAlive,other]

theorem revoke_dead (s : Store) (t : Addr) : (filetreeRevoke s t).treeAlive t = false := by
  unfold filetreeRevoke
  split
  next unknown => simp [Store.treeAlive,unknown]
  · simp [Store.treeAlive]

theorem revoke_layer (s : Store) (t : Addr) : (filetreeRevoke s t).Layer = s.Layer := by
  have edges : (filetreeRevoke s t).layerEdge = s.layerEdge := by
    funext a b
    simp only [Store.layerEdge,revoke_entries,revoke_rootOf]
  unfold Store.Layer
  rw [edges]

theorem withoutMounts_isDir {s : Store} : (s.withoutMounts t).isDir a = s.isDir a := by
  simp only [Store.isDir,Store.withoutMounts]
  cases s.entries a <;> rfl

theorem sameUnion_revoke (outside : ¬s.InUnion dir t) : SameUnion s (filetreeRevoke s t) dir := by
  refine ⟨by simp [Store.face,revoke_entries,funext_iff],fun a layer d hd => ?_,revoke_rootOf s t⟩
  have other : d.tree ≠ t := fun same => outside ⟨a,d,layer,hd,same⟩
  exact ⟨d,by rw [revoke_entries,hd],rfl,rfl,revoke_alive s t other,rfl,rfl,rfl⟩

/-- So do its mounts, when no layer below `dir` mounts it. -/
theorem sameUnion_withoutMounts (unmounted : ∀ a, s.Layer dir a → ∀ d,
    s.entries a = some d → ∀ m ∈ d.mounts, (m.leads || m.trails) = true → m.source ≠ t) :
    SameUnion s (s.withoutMounts t) dir := by
  have kept (a : Addr) (layer : s.Layer dir a) (d : Entry) (hd : s.entries a = some d)
      (use : Mount → Bool) (passed : ∀ m, use m = true → (m.leads || m.trails) = true) :
      (d.mounts.filter (·.source != t)).filter use = d.mounts.filter use := by
    rw [List.filter_filter]
    apply filter_congr
    intro m member
    cases used : use m with
    | false => rfl
    | true => simpa using unmounted a layer d hd m member (passed m used)
  refine ⟨?_,fun a layer d hd => ?_,fun _ => rfl⟩
  · funext a
    cases hd : s.entries a <;> simp [Store.face,Store.withoutMounts,hd]
  · refine ⟨{ d with mounts := d.mounts.filter (·.source != t) },by simp [Store.withoutMounts,hd],
      rfl,rfl,rfl,rfl,?_,?_⟩
    · exact kept a layer d hd Mount.leads fun m leads => by simp [leads]
    · exact kept a layer d hd Mount.trails fun m trails => by simp [trails]

theorem filetreeEntries_congr (same : SameUnion s s' dir)
    (isDir : s'.isDir dir = s.isDir dir) (alive : s'.treeAlive t = s.treeAlive t) :
    filetreeEntries s' t dir memory = filetreeEntries s t dir memory := by
  simp only [filetreeEntries,isDir,alive,same.collect]

theorem filetreeLookup_congr (same : SameUnion s s' dir) (alive : s'.treeAlive t = s.treeAlive t) :
    filetreeLookup s' t dir name = filetreeLookup s t dir name := by
  cases name with
  | none => rfl
  | some => simp only [filetreeLookup,alive,same.lookup]

theorem filetreeEntries_some (listed : filetreeEntries s t dir memory = some result) :
    s.treeAlive t = true ∧ ∃ list, ftCollect s memory 65 dir ⟨[],0⟩ = some list := by
  unfold filetreeEntries at listed
  split at listed
  next ok =>
    simp only [Bool.and_eq_true] at ok
    obtain ⟨list,collected,_⟩ := map_eq_some_iff.mp listed
    exact ⟨ok.2,list,collected⟩
  · contradiction

/-- A listed union that mounts a tree has that tree's root among its layers. -/
theorem inUnion_of_mount (wf : WellFormed s)
    (collected : ftCollect s memory room dir list = some list') (layer : s.Layer dir a)
    (hd : s.entries a = some d) (member : m ∈ d.mounts)
    (passed : (m.leads || m.trails) = true) : s.InUnion dir m.source := by
  have path : s.Layer dir (s.rootOf m.source) := layer.tail ⟨d,m,hd,member,passed,rfl⟩
  obtain ⟨root,hroot,_⟩ := collected_layers_alive collected path
  cases known : s.trees m.source with
  | none =>
    rw [Store.rootOf,known] at hroot
    simp [wf.nilEntry] at hroot
  | some tree =>
    have inTree := (wf.root m.source tree known).1
    obtain ⟨x,hx,home⟩ := wf.member m.source tree known tree.root inTree
    refine ⟨_,x,path,?_,home⟩
    rw [Store.rootOf,known]
    exact hx

/-- The listing still succeeds after `source` is revoked, and the listing and every lookup are
those of the store with the mounts of `source` taken out. -/
def ActsEmpty (s : Store) (t dir source : Addr) (memory : Nat → Bool) : Prop :=
  (∃ result, filetreeEntries (filetreeRevoke s source) t dir memory = some result) ∧
  filetreeEntries (filetreeRevoke s source) t dir memory =
    filetreeEntries ((filetreeRevoke s source).withoutMounts source) t dir memory ∧
  ∀ name, filetreeLookup (filetreeRevoke s source) t dir name =
    filetreeLookup ((filetreeRevoke s source).withoutMounts source) t dir name

/-- A revoked source acts as an empty layer of a listed directory exactly when it is none of its
layers: the listing fails at a dead layer. -/
theorem revoked_acts_empty_iff (reachable : Reachable s) (other : t ≠ source)
    (listed : filetreeEntries s t dir memory = some result) :
    ActsEmpty s t dir source memory ↔ ¬s.InUnion dir source := by
  obtain ⟨_,list,collected⟩ := filetreeEntries_some listed
  constructor
  · rintro ⟨⟨_,still⟩,_⟩ ⟨layer,d,path,hd,home⟩
    obtain ⟨_,_,after⟩ := filetreeEntries_some still
    rw [← revoke_layer s source] at path
    obtain ⟨d',hd',alive⟩ := collected_layers_alive after path
    rw [revoke_entries,hd] at hd'
    cases hd'
    rw [home,revoke_dead] at alive
    contradiction
  · intro outside
    have revoked := sameUnion_revoke outside
    have unmounted : SameUnion (filetreeRevoke s source)
        ((filetreeRevoke s source).withoutMounts source) dir := by
      apply sameUnion_withoutMounts
      rw [revoke_layer,revoke_entries]
      intro a layer d hd m member passed same
      exact outside (same ▸ inUnion_of_mount reachable.wellFormed collected layer hd member passed)
    refine ⟨⟨result,?_⟩,?_,fun name => ?_⟩
    · rw [filetreeEntries_congr revoked (by simp [Store.isDir,revoke_entries]) (revoke_alive s source other),
        listed]
    · exact (filetreeEntries_congr unmounted (withoutMounts_isDir) rfl).symm
    · exact (filetreeLookup_congr unmounted rfl).symm

/-- Tree 3 is mounted on the directory `d` of tree 1. -/
def mountedBelow : List Op :=
  [.new 7 1 2 true,.new 7 3 4 true,.dir 7 1 (some [100]) ⟨true,5,true⟩,
    .live 7 3 (some [102]) 0 ⟨true,6,true⟩,.register 7 3 (some [98]) true true,
    .applySpecs 7 1 (some [⟨some [100],some [98],0,false⟩]) fun _ => true]

/-- The root of tree 1 is no union, so revoking tree 3 leaves its listing. -/
theorem mountedBelow_acts_empty : ∃ s, Transition.run step mountedBelow Store.empty = some s ∧
    filetreeEntries s 1 2 (fun _ => true) = some [5] ∧ ActsEmpty s 1 2 3 fun _ => true := by
  refine ⟨_,rfl,rfl,?_⟩
  apply (revoked_acts_empty_iff ⟨mountedBelow,rfl⟩ (by decide) (show _ = some [5] from rfl)).mpr
  rintro ⟨layer,d,path,hd,home⟩
  rcases path.cases_head with rfl | ⟨next,⟨d',m,hd',member,_⟩,_⟩
  · cases hd
    contradiction
  · cases hd'
    cases member

/-- Tree 3 is a layer of tree 1's root: once it is revoked, the root cannot be listed. -/
theorem dead_layer_fails_listing : ¬∀ s t dir source memory result, Reachable s → t ≠ source →
    Relation.TransGen s.mountEdge t source → filetreeEntries s t dir memory = some result →
    ActsEmpty s t dir source memory := by
  intro claimed
  obtain ⟨⟨result,listed⟩,_⟩ := claimed _ 1 2 3 (fun _ => true) [8,6] ⟨shadowedPair,rfl⟩ (by decide)
    (.single ⟨2,_,rfl,rfl,rfl,rfl,⟨3,1⟩,mem_singleton_self _,rfl⟩) rfl
  cases listed

end Objective9c.Filetree
