import Objective9c.Facade.Authorization

/-! The reference count of a session slot. `o9app_open` counts an open, but the opens of
directories and of files in a view are answered by `o9_view_open` before it, and
`o9app_destroyfid` counts down for every open fid on a file of the slot, the directories
among them. -/
namespace Objective9c.Facade

open List Option Transition Tally
open Tally (one count)

@[simp] def openIn (i : Nat) (f : Option Fid) : Bool := f.any fun f => f.isOpen && f.place.file.session == some i

def State.openOn (s : State) (i : Nat) : Int := count (openIn i) s.fids

/-- `s->ref` of a slot. -/
def refOf (slots : List Slot) (i : Nat) : Int := (slots[i]?.map Slot.ref).getD 0

/-- The count of a slot is that of the open fids inside it, so that the slot can be handed out
again just when it is closed and none is left. -/
def Counted (cfg : Config) (s : State) : Prop := ∀ i slot, s.slots[i]? = some slot →
  slot.ref = s.openOn i ∧ (slot.reusable cfg = true ↔ slot.inuse = false ∧ s.openOn i = 0)

/-- A file whose opening `o9app_open` gets to see. -/
@[simp] def Place.counts : Place → Bool
  | .fixed file => !file.isDir
  | .tree _ _ _ => false

/-- The slot in which an open is not counted. -/
@[simp] def uncounted (s : State) : Op → Option Nat
  | .open id _ _ =>
    match s.fid? id with
    | some f => if f.place.counts then none else f.place.file.session
    | none => none
  | _ => none

def Seen (s : State) : Prop := ∀ f i, some f ∈ s.fids → f.isOpen = true → f.place.file.session = some i →
  f.place.counts = true

structure Exact (s : State) : Prop where
  counted : ∀ i, refOf s.slots i = s.openOn i
  seen : Seen s

/-- Neither the counts nor the open fids change. -/
structure Steady (s next : State) : Prop where
  refs : ∀ i, refOf next.slots i = refOf s.slots i
  opens : ∀ i, next.openOn i = s.openOn i
  places : ∀ f', some f' ∈ next.fids → f'.isOpen = true → ∃ f, some f ∈ s.fids ∧ f.isOpen = true ∧ f'.place = f.place

section Steps

variable {cfg : Config} {s mid next : State} {id i : Nat} {f g : Fid} {slots : List Slot} {slot : Slot}

theorem Steady.trans (first : Steady s mid) (second : Steady mid next) : Steady s next where
  refs := fun i => (second.refs i).trans (first.refs i)
  opens := fun i => (second.opens i).trans (first.opens i)
  places := by
    intro f'' member opened
    obtain ⟨f',member,opened,same'⟩ := second.places f'' member opened
    obtain ⟨f,member,opened,same⟩ := first.places f' member opened
    exact ⟨f,member,opened,same'.trans same⟩

theorem Steady.of_fids (refs : ∀ i, refOf next.slots i = refOf s.slots i) (fids : next.fids = s.fids) :
    Steady s next := by
  refine ⟨refs,fun i => ?_,fun f' member opened => ⟨f',by rwa [fids] at member,opened,rfl⟩⟩
  unfold State.openOn
  rw [fids]

theorem Steady.same (slots : next.slots = s.slots) (fids : next.fids = s.fids) : Steady s next :=
  .of_fids (fun i => by rw [slots]) fids

theorem Exact.steady (exact' : Exact s) (steady : Steady s next) : Exact next := by
  refine ⟨fun i => ?_,fun f' i member opened inside => ?_⟩
  · rw [steady.refs,steady.opens,exact'.counted]
  · obtain ⟨f,member,opened,same⟩ := steady.places f' member opened
    rw [same] at inside ⊢
    exact exact'.seen f i member opened inside

theorem refOf_modify (change : Slot → Slot) (same : ∀ slot, (change slot).ref = slot.ref) (i j : Nat) :
    refOf (slots.modify i change) j = refOf slots j := by
  unfold refOf
  rw [getElem?_modify]
  cases slots[j]? with
  | none => rfl
  | some =>
    by_cases here : i = j
    · simp [here,same]
    · simp [here]

theorem Tends.steady (tends : Tends s next) : Steady s next := by
  obtain ⟨fids,i,change,slots,_,ref⟩ := tends
  exact .of_fids (fun j => by rw [slots,refOf_modify change ref]) fids

theorem openOn_setFid (found : s.fid? id = some f) (g : Fid) (i : Nat) :
    (s.setFid id g).openOn i = s.openOn i - one (openIn i (some f)) + one (openIn i (some g)) := by
  rw [State.fid?,join_eq_some_iff] at found
  exact count_set found _

theorem Steady.moveFid (found : s.fid? id = some f) (same : g.isOpen = f.isOpen)
    (stays : f.isOpen = true → g.place = f.place) : Steady s (s.setFid id g) := by
  have member := found
  rw [State.fid?,join_eq_some_iff] at member
  refine ⟨fun _ => rfl,fun i => ?_,fun f' changed opened => ?_⟩
  · rw [openOn_setFid found]
    have alike : openIn i (some g) = openIn i (some f) := by
      cases opened : f.isOpen with
      | false => simp [same,opened]
      | true => simp [same,stays opened]
    rw [alike]
    omega
  · rcases mem_set changed with old | rfl
    · exact ⟨f',old,opened,rfl⟩
    · rw [same] at opened
      exact ⟨f,mem_of_getElem? member,opened,stays opened⟩

theorem Steady.addFid (slots : ∀ i, refOf next.slots i = refOf s.slots i) (fids : next.fids = s.fids ++ [some g])
    (shut : g.isOpen = false) : Steady s next := by
  refine ⟨slots,fun i => ?_,fun f' member opened => ?_⟩
  · have none' : openIn i (some g) = false := by simp [shut]
    unfold State.openOn
    rw [fids,count_concat,none',one_false]
    omega
  · rw [fids] at member
    rcases mem_append.mp member with old | new
    · exact ⟨f',old,opened,rfl⟩
    · cases some.inj (mem_singleton.mp new)
      exact nomatch shut.symm.trans opened

/-- In a multi-user application a slot that is handed out has the count 0 already. -/
theorem allocSession_steady (multiuser : cfg.multiuser = true) (owner : String)
    (allocated : allocSession cfg s owner = .ok next) : Steady s next := by
  unfold allocSession at allocated
  split at allocated
  · cases allocated
  · cases allocated
    refine .of_fids (fun j => ?_) rfl
    split
    next old =>
      have reusable := findIdx_getElem (w := old)
      have zero : (s.slots[pickSlot cfg s.slots]).ref = 0 := by
        simp only [pickSlot,Slot.reusable,multiuser,Bool.not_true,Bool.false_or,Bool.and_eq_true,beq_iff_eq] at reusable ⊢
        exact reusable.2
      unfold refOf
      by_cases here : pickSlot cfg s.slots = j
      · subst here
        simp [getElem?_eq_getElem old,zero,Slot.begin]
      · simp [here]
    next new =>
      have last : pickSlot cfg s.slots = s.slots.length :=
        Nat.le_antisymm findIdx_le_length (Nat.not_lt.mp new)
      unfold refOf
      rw [last,getElem?_modify]
      rcases Nat.lt_trichotomy j s.slots.length with below | rfl | beyond
      · rw [getElem?_append_left below]
        simp [Nat.ne_of_gt below]
      · simp [Slot.begin]
      · rw [getElem?_eq_none (by simp; omega),getElem?_eq_none (by omega)]
        rfl

theorem Walked.steady (found : s.fid? id = some f) (shut : f.isOpen = false) (walked : Walked cfg s id f names next) :
    Steady s next := by
  have still (g : Fid) (same : g.isOpen = f.isOpen) : Steady s (s.setFid id g) :=
    .moveFid found same fun opened => nomatch shut.symm.trans opened
  cases walked with
  | here | freed => exact .same rfl rfl
  | enter | climb => exact still _ rfl
  | @move old file generation fixed =>
    obtain ⟨view,fids⟩ := settle_fids s cfg id { f with
      place := .fixed file
      generation := generation
      entered := f.enteredAt s.slots file } file
    refine (still _ ?_).trans (.same (settle_frame s cfg id _ file).1 fids)
    rfl

theorem Numbered.inside (numbered : Numbered s) (member : some f ∈ s.fids)
    (inside : f.place.file.session = some i) : i < s.slots.length := by
  obtain ⟨slot,found,_⟩ := numbered.fids f member i inside
  exact (List.getElem?_eq_some_iff.mp found).1

theorem refOf_addRef (numbered : Numbered s) (member : some f ∈ s.fids) (fixed : f.place = .fixed file) (delta : Int)
    (i : Nat) : refOf (s.addRef file delta).slots i = refOf s.slots i + delta * one (file.session == some i) := by
  unfold State.addRef
  split
  next j inside =>
    have there := numbered.inside member (by rw [fixed]; exact inside)
    unfold refOf State.setSlot
    rw [getElem?_modify,inside]
    by_cases here : j = i
    · subst here
      simp [getElem?_eq_getElem there]
    · have apart : (some j == some i) = false := by simpa using here
      simp [here,apart]
  next outside => simp [outside]

theorem openIn_of_shut (shut : f.isOpen = false) (i : Nat) : openIn i (some f) = false := by simp [shut]

theorem Exact.openFile (exact' : Exact s) (numbered : Numbered s) (found : s.fid? id = some f) (shut : f.isOpen = false)
    (fixed : f.place = .fixed file) (plain : file.isDir = false) :
    Exact ((s.addRef file 1).setFid id { f with isOpen := true }) := by
  have still : (s.addRef file 1).fid? id = some f := by simpa [State.fid?] using found
  refine ⟨fun i => ?_,fun f' i member opened inside => ?_⟩
  · have before : (s.addRef file 1).openOn i = s.openOn i := by simp [State.openOn]
    have refs := refOf_addRef numbered (mem_of_fid? found) fixed 1 i
    have opened : openIn i (some { f with isOpen := true }) = (file.session == some i) := by
      simp [fixed,Place.file]
    rw [openOn_setFid still,before,openIn_of_shut shut,opened,one_false]
    have counted := exact'.counted i
    have same : refOf ((s.addRef file 1).setFid id { f with isOpen := true }).slots i =
      refOf (s.addRef file 1).slots i := rfl
    omega
  · rcases mem_set member with old | rfl
    · exact exact'.seen f' i (by simpa using old) opened inside
    · simp [fixed,plain]

theorem Exact.openOutside (exact' : Exact s) (found : s.fid? id = some f) (shut : f.isOpen = false)
    (outside : f.place.file.session = none) : Exact (s.setFid id { f with isOpen := true }) := by
  refine ⟨fun i => ?_,fun f' i member opened inside => ?_⟩
  · have apart : openIn i (some { f with isOpen := true }) = false := by simp [outside]
    rw [openOn_setFid found,openIn_of_shut shut,apart,one_false]
    have counted := exact'.counted i
    have same : refOf (s.setFid id { f with isOpen := true }).slots i = refOf s.slots i := rfl
    omega
  · rcases mem_set member with old | rfl
    · exact exact'.seen f' i old opened inside
    · exact nomatch outside.symm.trans inside

theorem closeFid_refOf (numbered : Numbered s) (seen : Seen s) (member : some f ∈ s.fids) (i : Nat) :
    refOf (s.closeFid f).slots i = refOf s.slots i - one (openIn i (some f)) := by
  unfold State.closeFid
  split
  next file opened fixed =>
    have refs := refOf_addRef numbered member fixed (-1) i
    have same : openIn i (some f) = (file.session == some i) := by simp [opened,fixed,Place.file]
    rw [same]
    omega
  next uncounted' =>
    have none' : openIn i (some f) = false := by
      cases opened : f.isOpen with
      | false => exact openIn_of_shut opened i
      | true =>
        cases place : f.place with
        | fixed file => exact absurd place (uncounted' file opened)
        | tree =>
          by_cases inside : f.place.file.session = some i
          · have counts := seen f i member opened inside
            rw [place] at counts
            cases counts
          · simpa [opened] using inside
    rw [none',one_false]
    omega

theorem Exact.destroyFid (exact' : Exact s) (numbered : Numbered s) (found : s.fid? id = some f) :
    Exact (destroyFid s id f) := by
  have member := mem_of_fid? found
  rw [State.fid?,join_eq_some_iff] at found
  refine ⟨fun i => ?_,fun f' i member opened inside => ?_⟩
  · have slots : (Facade.destroyFid s id f).slots = (s.closeFid f).slots := by simp [Facade.destroyFid]
    have opens : (Facade.destroyFid s id f).openOn i = s.openOn i - one (openIn i (some f)) + one (openIn i none) :=
      count_set found none
    have counted := exact'.counted i
    have gone : openIn i none = false := rfl
    rw [slots,closeFid_refOf numbered exact'.seen member,opens,gone,one_false]
    omega
  · refine exact'.seen f' i ?_ opened inside
    rcases mem_or_eq_of_mem_set member with old | new
    · exact old
    · cases new

theorem step_exact (multiuser : cfg.multiuser = true) (op : Op) (s next : State) (numbered : Numbered s)
    (exact' : Exact s) (met : uncounted s op = none) (stepped : step cfg op s = some next) : Exact next := by
  have finished (req : Nat) : Steady s (s.finish req) := .same rfl rfl
  cases step_stepped stepped with
  | @attach =>
    refine exact'.steady ?_
    unfold attach
    split <;> exact .addFid (fun _ => rfl) rfl rfl
  | clone => exact exact'.steady (.addFid (fun i => by simp) rfl rfl)
  | walk found shut walked => exact exact'.steady (walked.steady found shut)
  | openFile found shut allowed fixed plain => exact exact'.openFile numbered found shut fixed plain
  | openDir found shut allowed fixed dir =>
    refine exact'.openOutside found shut ?_
    simpa [found,fixed,dir] using met
  | openTree found shut allowed tree =>
    refine exact'.openOutside found shut ?_
    simpa [found,tree] using met
  | openFreed => exact exact'.steady (.same rfl rfl)
  | handed found single => exact nomatch multiuser.symm.trans single
  | starting found multi allocated =>
    exact exact'.steady ((allocSession_steady multiuser _ allocated).trans (.same rfl rfl))
  | refused found multi allocated =>
    exact exact'.steady ((allocSession_steady multiuser _ allocated).trans (closeSession_tends _ _).steady)
  | write found opened allowed ctl done => exact exact'.steady (command_commanded done).tends.steady
  | started => exact exact'.steady ((finished _).trans (sessionStarted_tends).steady)
  | notStarted => exact exact'.steady ((finished _).trans (closeSession_tends _ _).steady)
  | @attached req id f waits found =>
    have made : Steady s (s.finish req).newView := .same rfl rfl
    have still : (s.finish req).newView.fid? id = some f := found
    exact exact'.steady (made.trans (.moveFid still rfl fun _ => rfl))
  | notAttached => exact exact'.steady (finished _)
  | loggedIn => exact exact'.steady ((finished _).trans (loggedIn_tends).steady)
  | replied => exact exact'.steady ((finished _).trans (answer_tends).steady)
  | destroy found => exact exact'.destroyFid numbered found

theorem refOf_of_found (found : slots[i]? = some slot) : refOf slots i = slot.ref := by
  unfold refOf
  rw [found]
  rfl

theorem Exact.counted_slots (multiuser : cfg.multiuser = true) (exact' : Exact s) : Counted cfg s := by
  intro i slot found
  have counted := exact'.counted i
  rw [refOf_of_found found] at counted
  refine ⟨counted,?_⟩
  simp [Slot.reusable,multiuser,counted]

theorem step_uncounted (op : Op) (balanced : Balanced cfg s) (numbered : Numbered s) (counted : Counted cfg s)
    (unmet : ¬uncounted s op = none) (stepped : step cfg op s = some next) : ¬Counted cfg next := by
  obtain ⟨i,here⟩ := ne_none_iff_exists'.mp unmet
  have behind (id : Nat) (f : Fid) (found : s.fid? id = some f) (shut : f.isOpen = false) (inside : f.place.file.session = some i) :
      ¬Counted cfg (s.setFid id { f with isOpen := true }) := by
    intro counted'
    obtain ⟨slot,there,_⟩ := numbered.fids f (mem_of_fid? found) i inside
    have before := (counted i slot there).1
    have after := (counted' i slot there).1
    have opened : openIn i (some { f with isOpen := true }) = true := by simp [inside]
    rw [openOn_setFid found,openIn_of_shut shut,opened,one_false,one_true] at after
    omega
  cases step_stepped stepped with
  | openFile found shut allowed fixed plain => simp [found,fixed,plain] at here
  | openDir found shut allowed fixed dir =>
    refine behind _ _ found shut ?_
    simpa [found,fixed,dir] using here
  | openTree found shut allowed tree =>
    refine behind _ _ found shut ?_
    simpa [found,tree] using here
  | openFreed found has gone => exact absurd gone (balanced.ledger.present found has)
  | _ => cases here

/-- The counts are right in every state of a run just as long as nobody opens a directory of a
slot or a file of its view. -/
theorem slot_references (cfg : Config) (multiuser : cfg.multiuser = true) (ops : List Op) (s : State)
    (ran : Transition.run (step cfg) ops initial = some s) :
    Transition.Throughout (step cfg) (Counted cfg) ops initial ↔
      Transition.Meets (step cfg) (fun op s => uncounted s op = none) ops initial := by
  have always (op : Op) (s next : State) (inv : Balanced cfg s ∧ Numbered s) (stepped : step cfg op s = some next) :
      Balanced cfg next ∧ Numbered next :=
    ⟨step_balanced op s next inv.1 stepped,step_numbered multiuser op s next inv.2 stepped⟩
  have kept (op : Op) (s next : State) (inv : Balanced cfg s ∧ Numbered s) (exact' : Exact s)
      (met : uncounted s op = none) (stepped : step cfg op s = some next) : Exact next :=
    step_exact multiuser op s next inv.2 exact' met stepped
  have breaks (op : Op) (s next : State) (inv : Balanced cfg s ∧ Numbered s) (counted : Counted cfg s)
      (unmet : ¬uncounted s op = none) (stepped : step cfg op s = some next) : ¬Counted cfg next :=
    step_uncounted op inv.1 inv.2 counted unmet stepped
  have start : Exact initial := ⟨fun i => rfl,fun f i member => nomatch member⟩
  exact throughout_iff_meets always kept (fun s exact' => exact'.counted_slots multiuser) breaks ops initial s
    ⟨initial_balanced,initial_numbered⟩ start ran

/-- A user opens a session, gives it a command and closes it. -/
def conversation : List Op :=
  [.attach "glenda" false,.clone 0,.walk 1 [.clone] true none,.open 1 true true,.readClone 1 true,
    .walk 0 [.number 0] true none,.walk 0 [.ctl] true none,.open 0 false true,.write 0 .whoami,.write 0 .close,
    .destroy 0]

theorem conversation_counted : ∃ s, Transition.run (step ⟨true,false⟩) conversation initial = some s ∧
    Transition.Throughout (step ⟨true,false⟩) (Counted ⟨true,false⟩) conversation initial := by
  have sound (op : Op) (s : State) (checked : (uncounted s op).isNone = true) : uncounted s op = none :=
    isNone_iff_eq_none.mp checked
  have ran : ∃ s, run (step ⟨true,false⟩) conversation initial = some s := ⟨_,rfl⟩
  obtain ⟨s,ran⟩ := ran
  exact ⟨s,ran,(slot_references _ rfl conversation s ran).mpr
    (meets_of_checks sound conversation initial (by decide))⟩

/-- The user lists the directory of the session before closing it. -/
def listing : List Op :=
  [.attach "glenda" false,.clone 0,.walk 1 [.clone] true none,.open 1 true true,.readClone 1 true,
    .walk 0 [.number 0] true none,.clone 0,.open 0 true true,.destroy 0,
    .walk 2 [.ctl] true none,.open 2 false true,.write 2 .close,.destroy 2]

/-- The slot is closed, no fid is open inside it, and it is never handed out again. -/
theorem listing_spoils_count : ∃ s slot, Transition.run (step ⟨true,false⟩) listing initial = some s ∧
    s.slots[0]? = some slot ∧ slot.ref = -1 ∧ s.openOn 0 = 0 ∧ slot.inuse = false ∧
    slot.reusable ⟨true,false⟩ = false ∧ ¬Counted ⟨true,false⟩ s := by
  have ran : ∃ s slot, run (step ⟨true,false⟩) listing initial = some s ∧ s.slots[0]? = some slot ∧
      slot.ref = -1 ∧ s.openOn 0 = 0 ∧ slot.inuse = false ∧ slot.reusable ⟨true,false⟩ = false := by
    refine ⟨_,_,rfl,rfl,?_⟩
    decide
  obtain ⟨s,slot,ran,found,ref,opens,closed,stuck⟩ := ran
  refine ⟨s,slot,ran,found,ref,opens,closed,stuck,fun counted => ?_⟩
  have same := (counted 0 slot found).1
  rw [ref,opens] at same
  cases same

end Steps

end Objective9c.Facade
