import Objective9c.Facade.ViewLifecycle

/-! Which requests the guard of a multi-user application lets through. A fid inside a session slot carries the
generation the slot had when the fid came in, never the 0 that passes any generation. Generations are 64 bits
wide and skip 0: after 2^64-1 conversations a slot is back at an earlier one. -/
namespace Objective9c.Facade

open List Option Transition

/-- The generation of a slot that has been handed out so many times. -/
def generationOf : Nat → Nat
  | 0 => 0
  | n+1 => n % (2^64 - 1) + 1

theorem bump_last (last : g + 1 = 2^64) : bump g = 1 := by
  unfold bump
  rw [last]
  rfl

theorem bump_next (fits : g + 1 < 2^64) : bump g = g + 1 := by
  unfold bump
  rw [Nat.mod_eq_of_lt fits,if_neg (by omega)]

theorem bump_generationOf (n : Nat) : bump (generationOf n) = generationOf (n+1) := by
  cases n with
  | zero => rfl
  | succ n =>
    have here : generationOf (n+1) = n % (2^64 - 1) + 1 := rfl
    have next : generationOf (n+1+1) = (n+1) % (2^64 - 1) + 1 := rfl
    by_cases last : generationOf (n+1) + 1 = 2^64
    · rw [bump_last last,next]
      omega
    · rw [bump_next (by omega),next]
      omega

theorem generationOf_pos (some' : 1 ≤ n) : generationOf n ≠ 0 := by
  cases n with
  | zero => omega
  | succ => simp [generationOf]

theorem generationOf_again (first : 1 ≤ m) (later : m ≤ n) (same : generationOf m = generationOf n) :
    m = n ∨ m + (2^64 - 1) ≤ n := by
  cases m with
  | zero => omega
  | succ =>
    cases n with
    | zero => omega
    | succ =>
      simp only [generationOf] at same
      omega

structure Slot.Sound (slot : Slot) : Prop where
  generation : slot.generation = generationOf slot.conversations
  used : slot.inuse = true → 1 ≤ slot.conversations

/-- A fid inside a slot carries the generation of a conversation the slot has had. -/
def Fid.Sound (slots : List Slot) (f : Fid) : Prop := ∀ i, f.place.file.session = some i →
  ∃ slot, slots[i]? = some slot ∧ 1 ≤ f.entered ∧ f.entered ≤ slot.conversations ∧
    f.generation = generationOf f.entered

structure Numbered (s : State) : Prop where
  slots : ∀ slot ∈ s.slots, slot.Sound
  fids : ∀ f, some f ∈ s.fids → f.Sound s.slots

def Grows (slots slots' : List Slot) : Prop := ∀ (i : Nat) (slot : Slot), slots[i]? = some slot →
  ∃ slot' : Slot, slots'[i]? = some slot' ∧ slot.conversations ≤ slot'.conversations

section Steps

variable {id i : Nat} {f g : Fid} {file : File} {slot : Slot} {slots slots' slots'' : List Slot} {s next mid : State} {cfg : Config}

theorem Grows.refl (slots : List Slot) : Grows slots slots := fun _ slot found => ⟨slot,found,Nat.le_refl _⟩

theorem Grows.trans (first : Grows slots slots') (second : Grows slots' slots'') : Grows slots slots'' := by
  intro i slot found
  obtain ⟨slot',found',le⟩ := first i slot found
  obtain ⟨slot'',found'',le'⟩ := second i slot' found'
  exact ⟨slot'',found'',Nat.le_trans le le'⟩

theorem Fid.Sound.grows (sound : f.Sound slots) (grows : Grows slots slots') : f.Sound slots' := by
  intro i inside
  obtain ⟨slot,found,first,later,same⟩ := sound i inside
  obtain ⟨slot',found',le⟩ := grows i slot found
  exact ⟨slot',found',first,Nat.le_trans later le,same⟩

structure Keeps (change : Slot → Slot) : Prop where
  generation : ∀ slot, (change slot).generation = slot.generation
  conversations : ∀ slot, (change slot).conversations = slot.conversations
  used : ∀ slot, (change slot).inuse = true → slot.inuse = true

theorem Keeps.sound (keeps : Keeps change) (sound : slot.Sound) : (change slot).Sound := by
  refine ⟨?_,fun used => ?_⟩
  · rw [keeps.generation,keeps.conversations,sound.generation]
  · rw [keeps.conversations]
    exact sound.used (keeps.used slot used)

theorem grows_modify {slots : List Slot}
    (more : ∀ slot, slot.conversations ≤ (change slot).conversations) : Grows slots (slots.modify i change) := by
  intro j slot found
  by_cases same : i = j
  · exact ⟨change slot,by simp [same,found],more slot⟩
  · exact ⟨slot,by simp [same,found],Nat.le_refl _⟩

theorem sound_modify (sound : ∀ slot ∈ slots, slot.Sound) (i : Nat) (change : Slot → Slot)
    (kept : ∀ slot, slot.Sound → (change slot).Sound) : ∀ slot ∈ slots.modify i change, slot.Sound := by
  intro slot member
  obtain ⟨j,bound,rfl⟩ := mem_iff_getElem.mp member
  rw [length_modify] at bound
  rw [getElem_modify]
  split
  · exact kept _ (sound _ (getElem_mem bound))
  · exact sound _ (getElem_mem bound)

/-- A fid that has only moved inside its slot, or elsewhere outside all slots. -/
structure Like (g f : Fid) : Prop where
  place : f.place.file.session = g.place.file.session
  generation : f.generation = g.generation
  entered : f.entered = g.entered

theorem Like.refl (f : Fid) : Like f f := ⟨rfl,rfl,rfl⟩

theorem Like.sound (like : Like g f) (sound : g.Sound slots) : f.Sound slots := by
  intro i inside
  rw [like.place] at inside
  rw [like.generation,like.entered]
  exact sound i inside

/-- What the parts of a step do to the numbers: slots only move on, and a fid is like one that
was there or carries the generation of its slot. -/
structure Advance (s next : State) : Prop where
  slots : (∀ slot ∈ s.slots, slot.Sound) → ∀ slot ∈ next.slots, slot.Sound
  grows : Grows s.slots next.slots
  fids : ∀ f, some f ∈ next.fids → (∃ g, some g ∈ s.fids ∧ Like g f) ∨ f.Sound next.slots

theorem Advance.trans (first : Advance s mid) (second : Advance mid next) : Advance s next where
  slots := fun sound => second.slots (first.slots sound)
  grows := first.grows.trans second.grows
  fids := by
    intro f member
    rcases second.fids f member with ⟨g,member,like⟩ | sound
    · rcases first.fids g member with ⟨h,member,like'⟩ | sound
      · exact .inl ⟨h,member,like.place.trans like'.place,like.generation.trans like'.generation,
          like.entered.trans like'.entered⟩
      · exact .inr ((like.sound sound).grows second.grows)
    · exact .inr sound

theorem Advance.same (slots : next.slots = s.slots) (fids : next.fids = s.fids) : Advance s next where
  slots := by rw [slots]; exact fun sound => sound
  grows := by rw [slots]; exact Grows.refl _
  fids := by rw [fids]; exact fun f member => .inl ⟨f,member,Like.refl f⟩

theorem Advance.setSlot (i : Nat) (change : Slot → Slot) (keeps : Keeps change) :
    Advance s (s.setSlot i change) where
  slots := fun sound => sound_modify sound i change fun _ => keeps.sound
  grows := grows_modify fun slot => Nat.le_of_eq (keeps.conversations slot).symm
  fids := fun f member => .inl ⟨f,member,Like.refl f⟩

theorem Advance.setFids (fids : ∀ f, some f ∈ next.fids → some f ∈ s.fids ∨ f = g) (slots : next.slots = s.slots)
    (fresh : (∃ h, some h ∈ s.fids ∧ Like h g) ∨ g.Sound s.slots) : Advance s next where
  slots := by rw [slots]; exact fun sound => sound
  grows := by rw [slots]; exact Grows.refl _
  fids := by
    intro f member
    rw [slots]
    rcases fids f member with old | rfl
    · exact .inl ⟨f,old,Like.refl f⟩
    · exact fresh

theorem mem_set {fids : List (Option Fid)} (member : some f ∈ fids.set id (some g)) : some f ∈ fids ∨ f = g := by
  rcases mem_or_eq_of_mem_set member with old | new
  · exact .inl old
  · exact .inr (some.inj new)

theorem mem_of_fid? (found : s.fid? id = some f) : some f ∈ s.fids := by
  rw [State.fid?,join_eq_some_iff] at found
  exact mem_of_getElem? found

theorem Numbered.advance (numbered : Numbered s) (advance : Advance s next) : Numbered next where
  slots := advance.slots numbered.slots
  fids := by
    intro f member
    rcases advance.fids f member with ⟨g,member,like⟩ | sound
    · exact (like.sound (numbered.fids g member)).grows advance.grows
    · exact sound

/-- A part of a step that leaves the fids and does to the slots at most one change that keeps counts and conversations. -/
def Tends (s next : State) : Prop := next.fids = s.fids ∧ ∃ i change, next.slots = s.slots.modify i change ∧
  Keeps change ∧ ∀ slot, (change slot).ref = slot.ref

theorem Tends.same (slots : next.slots = s.slots) (fids : next.fids = s.fids) : Tends s next :=
  ⟨fids,0,id,by rw [slots,modify_id],⟨fun _ => rfl,fun _ => rfl,fun _ used => used⟩,fun _ => rfl⟩

theorem Tends.advance (tends : Tends s next) : Advance s next := by
  obtain ⟨fids,i,change,slots,keeps,_⟩ := tends
  exact (Advance.setSlot i change keeps).trans (.same slots fids)

theorem closeSession_tends (s : State) (i : Nat) : Tends s (closeSession cfg s i) :=
  ⟨by simp,i,_,closeSession_slots s cfg i,⟨fun _ => rfl,fun _ => rfl,fun _ used => nomatch used⟩,fun _ => rfl⟩

theorem sessionStarted_tends : Tends s (sessionStarted s i) :=
  ⟨by simp,i,_,sessionStarted_slots s i,⟨fun _ => rfl,fun _ => rfl,fun _ used => used⟩,fun _ => rfl⟩

theorem answer_tends :
    Tends s (answer s session status data) := by
  cases session with
  | none => exact .same (answer_slots_none s _ _) (by simp)
  | some i =>
    exact ⟨by simp,i,_,answer_slots_some s i status data,⟨fun _ => rfl,fun _ => rfl,fun _ used => used⟩,fun _ => rfl⟩

theorem loggedIn_tends {s : State} :
    Tends s (s.setSlot i (Slot.loggedIn user outcome)) := by
  refine ⟨rfl,i,_,rfl,⟨fun slot => ?_,fun slot => ?_,fun slot => ?_⟩,fun slot => ?_⟩ <;> unfold Slot.loggedIn <;> split
  all_goals first | rfl | exact fun used => used

theorem Commanded.tends (commanded : Commanded cfg s id f session next) : Tends s next := by
  cases commanded with
  | @viewClosed v =>
    cases session with
    | none => exact .same (by simp [putStatus]) (by simp)
    | some i =>
      exact ⟨by simp,i,_,congrArg (modify · i _) (deactivate_frame s v).1,
        ⟨fun _ => rfl,fun _ => rfl,fun _ used => used⟩,fun _ => rfl⟩
  | closed => exact closeSession_tends s _
  | nothing | login | called => exact .same rfl rfl
  | @logout i => exact ⟨rfl,i,_,rfl,⟨fun _ => rfl,fun _ => rfl,fun _ used => used⟩,fun _ => rfl⟩
  | answered => exact answer_tends

theorem begin_sound (owner : String) (sound : slot.Sound) : (slot.begin cfg owner).Sound where
  generation := by
    change bump slot.generation = generationOf (slot.conversations + 1)
    rw [sound.generation,bump_generationOf]
  used := fun _ => Nat.le_add_left 1 _

theorem allocSession_advance (allocated : allocSession cfg s owner = .ok next) :
    Advance s next := by
  unfold allocSession at allocated
  split at allocated
  · cases allocated
  · cases allocated
    have blank : Slot.blank.Sound := ⟨rfl,fun used => nomatch used⟩
    refine ⟨fun sound => sound_modify ?_ _ _ fun slot => begin_sound owner,?_,fun f member =>
      .inl ⟨f,member,Like.refl f⟩⟩
    · split
      · exact sound
      · intro slot member
        rcases mem_append.mp member with old | new
        · exact sound slot old
        · rw [mem_singleton.mp new]
          exact blank
    · have begun (slots : List Slot) (i : Nat) : Grows slots (slots.modify i (Slot.begin cfg owner)) :=
        grows_modify fun slot => Nat.le_add_right _ _
      refine Grows.trans ?_ (begun _ _)
      split
      · exact Grows.refl _
      · intro i slot found
        exact ⟨slot,by rw [List.getElem?_append_left (List.getElem?_eq_some_iff.mp found).1,found],Nat.le_refl _⟩

section

variable (multiuser : cfg.multiuser = true)

include multiuser

theorem sessionGuard_some (inside : file.session = some i) :
    sessionGuard cfg slots uid file oldgen = some generation ↔ ∃ slot, slots[i]? = some slot ∧
      slot.inuse = true ∧ slot.owner = uid ∧ (oldgen = 0 ∨ oldgen = slot.generation) ∧
      generation = slot.generation := by
  simp only [sessionGuard,multiuser,inside,Bool.not_true,Bool.false_eq_true,if_false]
  cases found : slots[i]? with
  | none => simp
  | some =>
    simp only [Bool.and_eq_true,beq_iff_eq,Bool.or_eq_true,some.injEq,exists_eq_left']
    constructor
    · intro passes
      split at passes
      next ok =>
        cases passes
        exact ⟨ok.1.1,ok.1.2.symm,ok.2,rfl⟩
      next => cases passes
    · rintro ⟨used,owner,old,rfl⟩
      rw [if_pos ⟨⟨used,owner.symm⟩,old⟩]

theorem entered_sound (numbered : Numbered s) (member : some f ∈ s.fids)
    (passes : sessionGuard cfg s.slots f.uid file f.generation = some generation) (inside : file.session = some i) :
    ∃ slot, s.slots[i]? = some slot ∧ slot.inuse = true ∧ slot.owner = f.uid ∧ generation = slot.generation ∧
      1 ≤ f.enteredAt s.slots file ∧ f.enteredAt s.slots file ≤ slot.conversations ∧
      slot.generation = generationOf (f.enteredAt s.slots file) := by
  obtain ⟨slot,found,used,owner,old,rfl⟩ := (sessionGuard_some multiuser inside).mp passes
  have sound := numbered.slots slot (mem_of_getElem? found)
  refine ⟨slot,found,used,owner,rfl,?_⟩
  simp only [Fid.enteredAt,inside]
  split
  next before =>
    -- the fid was in this slot, and its generation is no wildcard
    obtain ⟨slot',found',first,later,same⟩ := numbered.fids f member i before
    cases found.symm.trans found'
    refine ⟨first,later,?_⟩
    rcases old with zero | equal
    · exact absurd (same.symm.trans zero) (generationOf_pos first)
    · rw [← equal,same]
  next =>
    simp only [found,map_some,getD_some]
    exact ⟨sound.used used,Nat.le_refl _,sound.generation⟩

theorem walk1_advance (numbered : Numbered s) (member : some f ∈ s.fids)
    (walked : Walked cfg s id f names next) : Advance s next := by
  cases walked with
  | here | freed => exact .same rfl rfl
  | @enter old file generation v fixed named allowed reached passes =>
    rw [named] at reached
    have inside : file.session = old.session := by
      rcases walkfile_view reached with ⟨rfl,rfl⟩ | ⟨i,rfl,rfl⟩ <;> rfl
    refine .setFids (fun _ => mem_set) rfl (.inr ?_)
    intro i within
    obtain ⟨slot,found,_,_,same,first,later,generation⟩ := entered_sound multiuser numbered member passes
      (inside.trans within)
    have stays : f.enteredAt s.slots file = f.entered := by
      simp only [Fid.enteredAt,inside.trans within,fixed]
      exact if_pos within
    rw [stays] at first later generation
    exact ⟨slot,found,first,later,same.trans generation⟩
  | @move old file generation fixed allowed reached passes =>
    obtain ⟨view,fids⟩ := settle_fids s cfg id { f with
      place := .fixed file
      generation := generation
      entered := f.enteredAt s.slots file } file
    refine .setFids (g := { f with
      place := .fixed file
      generation := generation
      entered := f.enteredAt s.slots file
      view := view }) (fun _ => fids ▸ mem_set) (by simp) (.inr ?_)
    intro i within
    obtain ⟨slot,found,_,_,same,first,later,generation⟩ := entered_sound multiuser numbered member passes within
    exact ⟨slot,found,first,later,same.trans generation⟩
  | climb tree allowed holds below =>
    refine .setFids (fun _ => mem_set) rfl (.inl ⟨f,member,?_,rfl,rfl⟩)
    rw [tree,Place.file]
    exact congrArg File.session below

end

theorem addRef_advance (s : State) (file : File) (delta : Int) : Advance s (s.addRef file delta) := by
  unfold State.addRef
  split
  · exact .setSlot _ _ ⟨fun _ => rfl,fun _ => rfl,fun _ used => used⟩
  · exact .same rfl rfl

theorem setFid_advance (found : s.fid? id = some f) (like : Like f g) : Advance s (s.setFid id g) :=
  .setFids (fun _ => mem_set) rfl (.inl ⟨f,mem_of_fid? found,like⟩)

theorem finish_advance (s : State) (req : Nat) : Advance s (s.finish req) := .same rfl rfl

theorem destroyFid_advance (s : State) (id : Nat) (f : Fid) : Advance s (destroyFid s id f) := by
  have closing : Advance s (s.closeFid f) := by
    unfold State.closeFid
    split
    · exact addRef_advance s _ _
    · exact .same rfl rfl
  have fids : (s.closeFid f).fids = s.fids := by simp
  refine closing.trans ⟨fun sound => by simpa using sound,by simp [Grows.refl],
    fun g member => ?_⟩
  rcases mem_or_eq_of_mem_set member with old | new
  · exact .inl ⟨g,by rwa [fids],Like.refl g⟩
  · cases new

theorem Advance.addFid (slots : next.slots = s.slots) (fids : next.fids = s.fids ++ [some g])
    (fresh : (∃ h, some h ∈ s.fids ∧ Like h g) ∨ g.Sound s.slots) : Advance s next := by
  refine .setFids (fun f member => ?_) slots fresh
  rw [fids] at member
  rcases mem_append.mp member with old | new
  · exact .inl old
  · exact .inr (some.inj (mem_singleton.mp new))

theorem attach_advance (s : State) (uid : String) (controller : Bool) : Advance s (attach cfg s uid controller) := by
  have outside : Fid.Sound s.slots ⟨uid,false,.fixed .root,0,none,0⟩ := by
    intro i inside
    cases inside
  unfold attach
  split
  · exact .addFid rfl rfl (.inr outside)
  · exact .addFid rfl rfl (.inr outside)

theorem step_numbered (multiuser : cfg.multiuser = true) (op : Op) (s next : State) (numbered : Numbered s)
    (stepped : step cfg op s = some next) : Numbered next := by
  refine numbered.advance ?_
  cases step_stepped stepped with
  | attach => exact attach_advance s _ _
  | @clone _ f found => exact .addFid (shareView_frame s f).1 rfl (.inl ⟨f,mem_of_fid? found,rfl,rfl,rfl⟩)
  | walk found shut walked => exact walk1_advance multiuser numbered (mem_of_fid? found) walked
  | @openFile n f file _ _ found =>
    have still : (s.addRef file 1).fid? n = some f := by simpa [State.fid?] using found
    exact (addRef_advance s file 1).trans (setFid_advance still ⟨rfl,rfl,rfl⟩)
  | openDir found | openTree found => exact setFid_advance found ⟨rfl,rfl,rfl⟩
  | openFreed => exact .same rfl rfl
  | handed found single allocated => exact allocSession_advance allocated
  | starting found multi allocated => exact (allocSession_advance allocated).trans (.same rfl rfl)
  | refused found multi allocated => exact (allocSession_advance allocated).trans (closeSession_tends _ _).advance
  | write found opened allowed ctl done => exact (command_commanded done).tends.advance
  | started => exact (finish_advance s _).trans (sessionStarted_tends).advance
  | notStarted => exact (finish_advance s _).trans (closeSession_tends _ _).advance
  | attached waits found =>
    exact .setFids (fun _ => mem_set) rfl (.inl ⟨_,mem_of_fid? found,rfl,rfl,rfl⟩)
  | notAttached => exact finish_advance s _
  | loggedIn => exact (finish_advance s _).trans (loggedIn_tends).advance
  | replied => exact (finish_advance s _).trans (answer_tends).advance
  | destroy => exact destroyFid_advance s _ _

theorem initial_numbered : Numbered initial := by
  refine ⟨fun slot member => ?_,fun f member => ?_⟩ <;> cases member

/-- The slot is in use for the user of the fid, in the generation in which the fid came in: still in that
conversation, or handed out 2^64-1 times since. -/
def Belongs (slots : List Slot) (f : Fid) (i : Nat) : Prop := ∃ slot, slots[i]? = some slot ∧
  slot.inuse = true ∧ slot.owner = f.uid ∧ slot.generation = generationOf f.entered ∧
  (slot.conversations = f.entered ∨ f.entered + (2^64 - 1) ≤ slot.conversations)

theorem belongs_of_generation (sound : slot.Sound) (found : s.slots[i]? = some slot) (used : slot.inuse = true)
    (owner : slot.owner = f.uid) (first : 1 ≤ f.entered) (later : f.entered ≤ slot.conversations)
    (same : slot.generation = generationOf f.entered) : Belongs s.slots f i := by
  refine ⟨slot,found,used,owner,same,?_⟩
  rcases generationOf_again first later (same.symm.trans sound.generation) with equal | again
  · exact .inl equal.symm
  · exact .inr again

theorem authorize_belongs (multiuser : cfg.multiuser = true) (numbered : Numbered s) (member : some f ∈ s.fids)
    (inside : f.place.file.session = some i) (passes : authorize cfg s f = true) : Belongs s.slots f i := by
  obtain ⟨generation,passes⟩ := isSome_iff_exists.mp passes
  obtain ⟨slot,found,used,owner,_,first,later,same⟩ := entered_sound multiuser numbered member passes inside
  have stays : f.enteredAt s.slots f.place.file = f.entered := by simp [Fid.enteredAt,inside]
  rw [stays] at first later same
  exact belongs_of_generation (numbered.slots slot (mem_of_getElem? found)) found used owner first later same

theorem fid?_setFid (found : s.fid? id = some f) (set : (s.setFid id g).fid? id = some h) : h = g := by
  rw [State.fid?,join_eq_some_iff] at found
  simp only [State.fid?,State.setFid,List.getElem?_set_self (List.getElem?_eq_some_iff.mp found).1] at set
  exact (Option.some.inj set).symm

theorem walked_belongs (multiuser : cfg.multiuser = true) (balanced : Balanced cfg s) (numbered : Numbered s)
    (found : s.fid? id = some f) (walked : Walked cfg s id f names next) (reached : next.fid? id = some g)
    (inside : g.place.file.session = some i) : Belongs s.slots g i := by
  have member := mem_of_fid? found
  cases walked with
  | here named allowed =>
    cases found.symm.trans reached
    exact authorize_belongs multiuser numbered member inside allowed
  | freed has gone => exact absurd gone (balanced.ledger.present found has)
  | enter fixed named allowed =>
    cases fid?_setFid found reached
    obtain ⟨slot,there,used,owner,rest⟩ := authorize_belongs multiuser numbered member (by rw [fixed]; exact inside) allowed
    exact ⟨slot,there,used,owner,rest⟩
  | @move old file generation fixed allowed reached' passes =>
    obtain ⟨view,fids⟩ := settle_fids s cfg id { f with
      place := .fixed file
      generation := generation
      entered := f.enteredAt s.slots file } file
    have there := found
    rw [State.fid?,join_eq_some_iff] at there
    rw [State.fid?,fids,List.getElem?_set_self (List.getElem?_eq_some_iff.mp there).1] at reached
    cases reached
    obtain ⟨slot,there,used,owner,_,first,later,same⟩ := entered_sound multiuser numbered member passes inside
    exact belongs_of_generation (numbered.slots slot (mem_of_getElem? there)) there used owner first later same
  | climb tree allowed has below =>
    cases fid?_setFid found reached
    have inside' : f.place.file.session = some i := by
      rw [tree]
      exact (congrArg File.session below).symm.trans inside
    obtain ⟨slot,there,used,owner,rest⟩ := authorize_belongs multiuser numbered member inside' allowed
    exact ⟨slot,there,used,owner,rest⟩

/-- In a multi-user application a request on a file inside a slot, or a walk to one, passes only
for the slot's owner and in the conversation the fid came in with, up to the generation's wrapping round. -/
theorem authorization (cfg : Config) (multiuser : cfg.multiuser = true) (ops : List Op) (s : State)
    (ran : Transition.run (step cfg) ops initial = some s) (id : Nat) (f : Fid) (found : s.fid? id = some f) :
    (∀ i, f.place.file.session = some i → authorize cfg s f = true → Belongs s.slots f i) ∧
    (∀ names alive entry next g i, step cfg (.walk id names alive entry) s = some next → next.fid? id = some g →
      g.place.file.session = some i → Belongs s.slots g i) := by
  have numbered := run_invariant Numbered (step_numbered multiuser) ops initial s initial_numbered ran
  refine ⟨fun i inside passes => authorize_belongs multiuser numbered (mem_of_fid? found) inside passes,?_⟩
  intro names alive entry next g i stepped reached inside
  cases step_stepped stepped with
  | walk found' shut walked =>
    exact walked_belongs multiuser (run_balanced ops ran) numbered found' walked reached inside

/-- A user opens a session and walks into it. -/
def entering : List Op :=
  [.attach "glenda" false,.clone 0,.walk 1 [.clone] true none,.open 1 true true,.readClone 1 true,
    .walk 0 [.number 0] true none]

theorem entering_belongs : ∃ s f, Transition.run (step ⟨true,false⟩) entering initial = some s ∧
    s.fid? 0 = some f ∧ authorize ⟨true,false⟩ s f = true ∧ Belongs s.slots f 0 := by
  refine ⟨_,_,rfl,rfl,by decide,?_⟩
  exact (authorization ⟨true,false⟩ rfl entering _ rfl 0 _ rfl).1 0 rfl (by decide)

/-- The fid of `entering` after its slot was closed, the slot having been handed out `n` times. -/
def idle (generation n : Nat) : State where
  slots := [⟨false,"glenda",generation,0,false,"","","closed\n",none,n⟩]
  fids := [some ⟨"glenda",false,.fixed (.slot 0),1,none,1⟩,some ⟨"glenda",true,.fixed (.top .clone),0,none,0⟩]
  views := []
  waiting := [none]
  closed := []
  lastdata := ""
  fault := false

theorem idle_turn (generation n : Nat) :
    step ⟨true,false⟩ (.readClone 1 false) (idle generation n) = some (idle (bump generation) (n+1)) := rfl

theorem idle_turns (k n : Nat) : run (step ⟨true,false⟩) (replicate k (.readClone 1 false))
    (idle (generationOf n) n) = some (idle (generationOf (n+k)) (n+k)) := by
  induction k generalizing n with
  | zero => rfl
  | succ k ih =>
    have moved : n + 1 + k = n + (k + 1) := by omega
    rw [replicate_succ,run,idle_turn,bump_generationOf,bind_some,ih (n+1),moved]

theorem stale_fid_passes_again : ∃ ops s f slot, Transition.run (step ⟨true,false⟩) ops initial = some s ∧
    s.fid? 0 = some f ∧ f.place = .fixed (.slot 0) ∧ s.slots[0]? = some slot ∧ authorize ⟨true,false⟩ s f = true ∧
    f.entered = 1 ∧ slot.conversations = 2^64 := by
  have closed : run (step ⟨true,false⟩) (entering ++ [.displayed 0 false]) initial =
    some (idle (generationOf 1) 1) := rfl
  have turned := idle_turns (2^64 - 2) 1
  have count : 1 + (2^64 - 2) = 2^64 - 1 := by decide
  have wrapped : bump (generationOf (2^64 - 1)) = 1 := by
    rw [bump_generationOf]
    decide
  rw [count] at turned
  have last : ∃ s, step ⟨true,false⟩ (.readClone 1 true) (idle (generationOf (2^64 - 1)) (2^64 - 1)) = some s ∧
      s.slots = [⟨true,"glenda",bump (generationOf (2^64 - 1)),0,false,"","","ready\n",none,2^64 - 1 + 1⟩] ∧
      s.fid? 0 = some ⟨"glenda",false,.fixed (.slot 0),1,none,1⟩ := ⟨_,rfl,rfl,rfl⟩
  obtain ⟨s,stepped,slots,found⟩ := last
  refine ⟨entering ++ [.displayed 0 false] ++ replicate (2^64 - 2) (.readClone 1 false) ++ [.readClone 1 true],s,
    _,_,?_,found,rfl,by rw [slots]; rfl,?_,rfl,by decide⟩
  · rw [run_append,run_append,closed,bind_some,turned,bind_some,run,
      stepped]
    rfl
  · unfold authorize
    rw [slots,wrapped]
    decide

end Steps

end Objective9c.Facade
