import Objective9c.Lib.Tally
import Objective9c.Facade.Served

/-! The references to the views of `o9_view.c`. A handler takes and drops references one at a
time, so its parts are followed with a ledger of the references it has in hand; between two
requests there are none, and a view is counted by the fids and session entries that hold it. -/
namespace Objective9c.Facade

open List Option Transition Tally
open Tally (one count)

/-- The references of a view, none if it is not there. -/
def State.refs (s : State) (v : Nat) : Int :=
  match s.views[v]?.join with
  | some view => view.refs
  | none => 0

def holds (view : Option Nat) (v : Nat) : Int := one (view == some v)

@[simp] def State.held (s : State) (v : Nat) : Int :=
  count (fun f => f.bind Fid.view == some v) s.fids + count (fun slot => slot.sessionView == some v) s.slots

/-- A freed view the controller is not told of. -/
def State.Lost (s : State) (v : Nat) : Prop := s.views[v]? = some none ∧ v ∉ s.closed

/-- The view that goes when a fid that was the last to hold `view` comes to a file of the facade: in session mode a
walk to the root, or to a session with another view, drops the view of the fid. -/
def dropped (cfg : Config) (s : State) (view : Option Nat) (file : File) : Option Nat :=
  match view with
  | some v =>
    if cfg.multiuser && s.refs v == 1 && (file == .root || (lookupSession s.slots file).any (· ≠ v)) then some v
    else none
  | none => none

/-- The view that a step frees without queueing it: `o9_view_walk1` does not look at what
`view_release_locked` returns. -/
def abandoned (cfg : Config) (s : State) : Op → Option Nat
  | .walk id names _ _ =>
    match s.fid? id with
    | some f =>
      match f.place with
      | .fixed old => (walkfile cfg s.slots.length old names).bind (dropped cfg s f.view)
      | .tree _ _ _ => none
    | none => none
  | _ => none

/-- The handler that began in `s` has come to `t` with the references `owed` in hand, and `gone`
is the view it has freed without queueing it. -/
structure Ledger (s t : State) (owed : Nat → Int) (gone : Option Nat) : Prop where
  counted : ∀ v, t.refs v = t.held v + owed v
  positive : ∀ (v : Nat) (view : View), t.views[v]?.join = some view → 0 < view.refs
  once : ∀ v, t.closed.count v ≤ 1 ∧ (v ∈ t.closed → t.views[v]? = some none)
  whole : t.fault = false
  lost : ∀ v, t.Lost v ↔ s.Lost v ∨ gone = some v

section Ledgers

variable {s t t' : State} {owed owed' delta : Nat → Int} {gone : Option Nat} {v id i : Nat} {view view' : View}
  {f g : Fid} {slot : Slot}

theorem refs_of_live (live : s.views[v]?.join = some view) : s.refs v = view.refs := by
  simp only [State.refs,live]

theorem holds_nonneg (view : Option Nat) (v : Nat) : 0 ≤ holds view v := one_nonneg

@[simp] theorem holds_self (v : Nat) : holds (some v) v = 1 := by simp [holds]

@[simp] theorem holds_none (v : Nat) : holds none v = 0 := rfl

theorem holds_ne (other : v ≠ w) : holds (some v) w = 0 := by
  have differ : (some v == some w) = false := by simpa using other
  rw [holds,differ,one_false]

theorem held_of_fid (found : s.fid? id = some f) (has : f.view = some v) : 0 < s.held v := by
  rw [State.fid?,join_eq_some_iff] at found
  have here : 0 < count (fun f => f.bind Fid.view == some v) s.fids :=
    count_pos (mem_of_getElem? found) (by simp [has])
  have slots := count_nonneg (fun slot : Slot => slot.sessionView == some v) s.slots
  unfold State.held
  omega

theorem held_of_slot (found : s.slots[i]? = some slot) (has : slot.sessionView = some v) : 0 < s.held v := by
  have here : 0 < count (fun slot : Slot => slot.sessionView == some v) s.slots :=
    count_pos (mem_of_getElem? found) (by simp [has])
  have fids := count_nonneg (fun f : Option Fid => f.bind Fid.view == some v) s.fids
  unfold State.held
  omega

theorem Ledger.owe (ledger : Ledger s t owed gone) (same : ∀ v, owed v = owed' v) : Ledger s t owed' gone :=
  ⟨fun v => by rw [ledger.counted,same],ledger.positive,ledger.once,ledger.whole,ledger.lost⟩

theorem Ledger.live (ledger : Ledger s t owed gone) (held : 0 < t.held v + owed v) :
    ∃ view, t.views[v]?.join = some view := by
  cases found : t.views[v]?.join with
  | some view => exact ⟨view,rfl⟩
  | none =>
    have refs := ledger.counted v
    simp only [State.refs,found] at refs
    omega

theorem Ledger.present (ledger : Ledger s s (fun _ => 0) none) (found : s.fid? id = some f) (has : f.view = some v) :
    s.views[v]?.join ≠ none := by
  obtain ⟨view,live⟩ := ledger.live (by rw [Int.add_zero]; exact held_of_fid found has)
  rw [live]
  exact some_ne_none view

theorem unfreed_of_live (live : t.views[v]?.join = some view) : t.views[v]? ≠ some none := by
  intro freed
  rw [freed] at live
  cases live

theorem bound_of_live (live : t.views[v]?.join = some view) : v < t.views.length := by
  rw [join_eq_some_iff] at live
  exact (List.getElem?_eq_some_iff.mp live).1

section

variable (ledger : Ledger s t owed gone)

include ledger

/-- What a change of one view, which was not freed before, does to the counts. -/
theorem Ledger.rewrite (new : Option View)
    (here : views[v]? = some new) (elsewhere : ∀ w, w ≠ v → views[w]? = t.views[w]?)
    (unfreed : t.views[v]? ≠ some none) (positive : ∀ view, new = some view → 0 < view.refs) (change : Int)
    (changed : State.refs { t with views } v = t.refs v + change) :
    (∀ w, State.refs { t with views } w = t.held w + (owed w + change * holds (some v) w)) ∧
    (∀ (w : Nat) (view : View), views[w]?.join = some view → 0 < view.refs) ∧
    ∀ w, views[w]? = some none ↔ t.views[w]? = some none ∨ (w = v ∧ new = none) := by
  refine ⟨fun w => ?_,fun w view stays => ?_,fun w => ?_⟩
  · have before := ledger.counted w
    by_cases same : w = v
    · subst same
      rw [changed,holds_self]
      omega
    · have after : State.refs { t with views } w = t.refs w := by simp only [State.refs,elsewhere w same]
      rw [after,holds_ne (Ne.symm same)]
      omega
  · by_cases same : w = v
    · rw [same,here,join_some] at stays
      exact positive view stays
    · rw [elsewhere w same] at stays
      exact ledger.positive w view stays
  · by_cases same : w = v
    · subst same
      simp [here,unfreed]
    · simp [elsewhere w same,same]

theorem Ledger.place (here : views[v]? = some (some view))
    (elsewhere : ∀ w, w ≠ v → views[w]? = t.views[w]?) (unfreed : t.views[v]? ≠ some none) (positive : 0 < view.refs)
    (change : Int) (changed : view.refs = t.refs v + change)
    (shift : ∀ w, owed' w = owed w + change * holds (some v) w) : Ledger s { t with views } owed' gone := by
  obtain ⟨counted,stays,freed⟩ := ledger.rewrite (some view) here elsewhere unfreed
    (fun _ same => Option.some.inj same ▸ positive) change (by simpa [State.refs,here] using changed)
  simp only [reduceCtorEq,and_false,or_false] at freed
  refine ⟨fun w => ?_,stays,fun w => ⟨(ledger.once w).1,fun member => ?_⟩,ledger.whole,fun w => ?_⟩
  · rw [counted,shift]
    rfl
  · exact (freed w).mpr ((ledger.once w).2 member)
  · rw [← ledger.lost w]
    exact and_congr_left fun _ => freed w

theorem Ledger.update (live : t.views[v]?.join = some view)
    (positive : 0 < view'.refs) (change : Int) (changed : view'.refs = view.refs + change)
    (shift : ∀ w, owed' w = owed w + change * holds (some v) w) :
    Ledger s { t with views := t.views.set v (some view') } owed' gone :=
  ledger.place (getElem?_set_self (bound_of_live live)) (fun w other => getElem?_set_ne (Ne.symm other))
    (unfreed_of_live live) positive change (by rw [changed,refs_of_live live]) shift

theorem Ledger.deactivate (held : 0 < t.held v + owed v) : Ledger s (t.deactivate v) owed gone := by
  obtain ⟨view,live⟩ := ledger.live held
  simp only [State.deactivate,live]
  exact ledger.update live (ledger.positive v view live) 0 (by simp) fun w => by simp

theorem Ledger.retain (held : 0 < t.held v + owed v) :
    Ledger s (t.retain v) (fun w => owed w + holds (some v) w) gone := by
  obtain ⟨view,live⟩ := ledger.live held
  have positive := ledger.positive v view live
  simp only [State.retain,live]
  exact ledger.update live (by dsimp only; omega) 1 rfl fun w => by omega

end

theorem Ledger.free (ledger : Ledger s t owed none) (live : t.views[v]?.join = some view) (last : view.refs = 1) :
    (∀ w, State.refs { t with views := t.views.set v none } w = t.held w + (owed w - holds (some v) w)) ∧
    (∀ (w : Nat) (found : View), (t.views.set v none)[w]?.join = some found → 0 < found.refs) ∧
    (∀ w, (t.views.set v none)[w]? = some none ↔ t.views[w]? = some none ∨ w = v) ∧
    v ∉ t.closed := by
  have here := getElem?_set_self (a := (none : Option View)) (bound_of_live live)
  obtain ⟨counted,stays,freed⟩ := ledger.rewrite none here (fun w other => getElem?_set_ne (Ne.symm other))
    (unfreed_of_live live) nofun (-1) (by rw [refs_of_live live,last]; simp [State.refs,here])
  refine ⟨fun w => ?_,stays,by simpa using freed,fun member => ?_⟩
  · rw [counted]
    omega
  · exact unfreed_of_live live ((ledger.once v).2 member)

theorem Ledger.release_kept (ledger : Ledger s t owed gone) (held : 0 < t.held v + owed v) (more : t.refs v ≠ 1)
    (queue : Bool) : Ledger s (t.release v queue) (fun w => owed w - holds (some v) w) gone := by
  obtain ⟨view,live⟩ := ledger.live held
  have positive := ledger.positive v view live
  rw [refs_of_live live] at more
  have stays : ¬view.refs - 1 = 0 := by omega
  simp only [State.release,live,if_neg stays]
  exact ledger.update live (by dsimp only; omega) (-1) rfl fun w => by omega

theorem Ledger.release (ledger : Ledger s t owed none) (held : 0 < t.held v + owed v) :
    Ledger s (t.release v true) (fun w => owed w - holds (some v) w) none := by
  by_cases more : t.refs v ≠ 1
  · exact ledger.release_kept held more true
  obtain ⟨view,live⟩ := ledger.live held
  rw [refs_of_live live,not_not] at more
  obtain ⟨counted,positive,freed,unqueued⟩ := ledger.free live more
  have last : view.refs - 1 = 0 := by omega
  simp only [State.release,live,if_pos last,if_true]
  refine ⟨counted,positive,fun w => ?_,ledger.whole,fun w => ?_⟩
  · by_cases here : v = w
    · subst here
      simp [count_eq_zero.mpr unqueued,bound_of_live live]
    · simpa [here,Ne.symm here] using ledger.once w
  · rw [← ledger.lost w]
    have there := unfreed_of_live live
    simp only [State.Lost,freed,mem_append,mem_singleton,not_or]
    constructor
    · rintro ⟨here | here,unseen,other⟩
      · exact ⟨here,unseen⟩
      · exact absurd here other
    · rintro ⟨here,unseen⟩
      refine ⟨.inl here,unseen,?_⟩
      rintro rfl
      exact there here

theorem Ledger.release_last (ledger : Ledger s t owed none) (held : 0 < t.held v + owed v) (last : t.refs v = 1) :
    Ledger s (t.release v false) (fun w => owed w - holds (some v) w) (some v) := by
  obtain ⟨view,live⟩ := ledger.live held
  rw [refs_of_live live] at last
  obtain ⟨counted,positive,freed,unqueued⟩ := ledger.free live last
  have zero : view.refs - 1 = 0 := by omega
  simp only [State.release,live,if_pos zero]
  refine ⟨counted,positive,fun w => ⟨(ledger.once w).1,fun member => ?_⟩,ledger.whole,fun w => ?_⟩
  · exact (freed w).mpr (.inl ((ledger.once w).2 member))
  · have before : t.Lost w ↔ s.Lost w := by simpa using ledger.lost w
    rw [← before,some.injEq]
    simp only [State.Lost,freed]
    constructor
    · rintro ⟨here | here,unseen⟩
      · exact .inl ⟨here,unseen⟩
      · exact .inr here.symm
    · rintro (⟨here,unseen⟩ | rfl)
      · exact ⟨.inl here,unseen⟩
      · exact ⟨.inr rfl,unqueued⟩

theorem Ledger.hand (ledger : Ledger s t owed gone) (views : t'.views = t.views) (closed : t'.closed = t.closed)
    (fault : t'.fault = t.fault) (held : ∀ v, t'.held v = t.held v + owed v - owed' v) : Ledger s t' owed' gone := by
  have refs (v : Nat) : t'.refs v = t.refs v := by unfold State.refs; rw [views]
  refine ⟨fun v => ?_,?_,?_,?_,fun v => ?_⟩
  · rw [refs,held,ledger.counted]
    omega
  · rw [views]
    exact ledger.positive
  · rw [views,closed]
    exact ledger.once
  · rw [fault]
    exact ledger.whole
  · unfold State.Lost
    rw [views,closed]
    exact ledger.lost v

theorem held_setFid (found : s.fid? id = some f) (g : Fid) (v : Nat) :
    (s.setFid id g).held v = s.held v - holds f.view v + holds g.view v := by
  rw [State.fid?,join_eq_some_iff] at found
  unfold State.held State.setFid holds
  rw [count_set found]
  simp only [bind_some]
  omega

theorem held_setSlot (found : s.slots[i]? = some slot) (change : Slot → Slot) (v : Nat) :
    (s.setSlot i change).held v = s.held v - holds slot.sessionView v + holds (change slot).sessionView v := by
  unfold State.held State.setSlot holds
  rw [count_modify found]
  dsimp only
  omega

section

variable (ledger : Ledger s t owed gone)

include ledger

theorem Ledger.setFid (found : t.fid? id = some f) (g : Fid)
    (shift : ∀ v, owed' v = owed v + holds f.view v - holds g.view v) : Ledger s (t.setFid id g) owed' gone := by
  refine ledger.hand rfl rfl rfl fun v => ?_
  rw [held_setFid found,shift]
  omega

theorem Ledger.setSlot (found : t.slots[i]? = some slot) (change : Slot → Slot)
    (shift : ∀ v, owed' v = owed v + holds slot.sessionView v - holds (change slot).sessionView v) :
    Ledger s (t.setSlot i change) owed' gone := by
  refine ledger.hand rfl rfl rfl fun v => ?_
  rw [held_setSlot found,shift]
  omega

theorem Ledger.setContents (i : Nat) (change : Slot → Slot)
    (same : ∀ slot, (change slot).sessionView = slot.sessionView) : Ledger s (t.setSlot i change) owed gone := by
  refine ledger.hand rfl rfl rfl fun v => ?_
  have slots := count_modify_same (p := fun slot : Slot => slot.sessionView == some v) (l := t.slots) i change
    fun slot => by rw [same]
  unfold State.held State.setSlot
  dsimp only
  omega

theorem Ledger.same (views : t'.views = t.views) (closed : t'.closed = t.closed)
    (fault : t'.fault = t.fault) (fids : t'.fids = t.fids) (slots : t'.slots = t.slots) : Ledger s t' owed gone := by
  refine ledger.hand views closed fault fun v => ?_
  unfold State.held
  rw [fids,slots]
  omega

theorem Ledger.addFid (g : Fid) (shift : ∀ v, owed' v = owed v - holds g.view v) :
    Ledger s { t with fids := t.fids ++ [some g] } owed' gone := by
  refine ledger.hand rfl rfl rfl fun v => ?_
  unfold State.held holds at *
  rw [count_concat,shift]
  simp only [bind_some]
  omega

theorem Ledger.newView : Ledger s t.newView (fun w => owed w + holds (some t.views.length) w) gone := by
  refine ledger.place getElem?_concat_length (fun w other => ?_) (by simp) (by decide) 1
    (by simp [State.refs]) fun w => by omega
  rcases Nat.lt_or_gt_of_ne other with below | above
  · exact getElem?_append_left below
  · rw [getElem?_eq_none (by simp; omega),getElem?_eq_none (by omega)]

theorem addRef_ledger (file : File) (delta : Int) : Ledger s (t.addRef file delta) owed gone := by
  unfold State.addRef
  split
  · exact ledger.setContents _ _ fun slot => rfl
  · exact ledger

end

section

variable (ledger : Ledger s t (fun _ => 0) none)

include ledger

theorem viewSessionClose_ledger (i : Nat) : Ledger s (viewSessionClose t i) (fun _ => 0) none := by
  unfold viewSessionClose
  split
  next v entry =>
    obtain ⟨slot,found,has⟩ := bind_eq_some_iff.mp entry
    have held := held_of_slot found has
    have shut := ledger.deactivate (v := v) (by omega)
    have held' : (t.deactivate v).held v = t.held v := by simp
    have found' : ((t.deactivate v).release v true).slots[i]? = some slot := by simpa using found
    refine (shut.release (v := v) (by omega)).setSlot found' _ fun w => ?_
    rw [has,holds_none]
    omega
  next => exact ledger

theorem closeSession_ledger (cfg : Config) (i : Nat) : Ledger s (closeSession cfg t i) (fun _ => 0) none := by
  refine Ledger.setContents ?_ i _ fun slot => rfl
  split
  · exact viewSessionClose_ledger ledger i
  · exact ledger

theorem sessionStarted_ledger (there : i < t.slots.length) : Ledger s (sessionStarted t i) (fun _ => 0) none := by
  have found : t.newView.slots[i]? = some t.slots[i] := getElem?_eq_getElem there
  have made := ledger.newView
  unfold sessionStarted
  dsimp only
  split
  next old entry =>
    rw [found,bind_some] at entry
    have held := held_of_slot found entry
    have nonneg := holds_nonneg (some t.views.length) old
    have shut := made.deactivate (v := old) (by omega)
    have held' : (t.newView.deactivate old).held old = t.newView.held old := by simp
    have found' : ((t.newView.deactivate old).release old true).slots[i]? = some t.slots[i] := by simp
    refine (shut.release (v := old) (by omega)).setSlot found' _ fun w => ?_
    rw [entry]
    dsimp only
    omega
  next entry =>
    rw [found,bind_some] at entry
    refine made.setSlot found _ fun w => ?_
    rw [entry,holds_none]
    dsimp only
    omega

end

section

variable (ledger : Ledger s t owed gone)

include ledger

theorem allocSession_ledger (owner : String)
    (allocated : allocSession cfg t owner = .ok t') : Ledger s t' owed gone := by
  unfold allocSession at allocated
  split at allocated
  · cases allocated
  · cases allocated
    have grown : Ledger s { t with slots := if pickSlot cfg t.slots < t.slots.length then t.slots
        else t.slots ++ [Slot.blank] } owed gone := by
      split
      · exact ledger
      · refine ledger.hand rfl rfl rfl fun v => ?_
        have blank : (Slot.blank.sessionView == some v) = false := rfl
        unfold State.held
        rw [count_concat,blank,one_false]
        dsimp only
        omega
    exact grown.setContents _ _ fun slot => rfl

theorem putStatus_ledger (session : Option Nat) (text : String) :
    Ledger s (putStatus t session text) owed gone := by
  cases session with
  | none => exact ledger
  | some i => exact ledger.setContents i _ fun slot => rfl

theorem putResult_ledger (session : Option Nat) (text : String) :
    Ledger s (putResult t session text) owed gone := by
  cases session with
  | none =>
    exact ledger.same rfl rfl rfl rfl rfl
  | some i => exact ledger.setContents i _ fun slot => rfl

theorem answer_ledger (session : Option Nat) (status data : String) :
    Ledger s (answer t session status data) owed gone :=
  putResult_ledger (putStatus_ledger ledger session status) session data

theorem Ledger.refs_retain (held : 0 < t.held v + owed v) (w : Nat) :
    (t.retain v).refs w = t.refs w + holds (some v) w := by
  have before := ledger.counted w
  have after := (ledger.retain held).counted w
  have same : (t.retain v).held w = t.held w := by simp
  omega

end

theorem lookupSession_held (found : lookupSession s.slots file = some v) : 0 < s.held v ∧ file ≠ .root := by
  cases file with
  | slot =>
    obtain ⟨slot,found,has⟩ := bind_eq_some_iff.mp found
    exact ⟨held_of_slot found has,by simp⟩
  | root => cases found
  | top => cases found
  | inSlot => cases found

theorem Ledger.leave (ledger : Ledger s t owed none) (held : 0 < t.held v + owed v) :
    Ledger s (t.release v false) (fun w => owed w - holds (some v) w) (if t.refs v = 1 then some v else none) := by
  split
  next last => exact ledger.release_last held last
  next more => exact ledger.release_kept held more false

theorem settle_ledger (ledger : Ledger s s (fun _ => 0) none) (found : s.fid? id = some f) (g : Fid)
    (same : g.view = f.view) (file : File) :
    Ledger s (settle cfg s id g file) (fun _ => 0) (dropped cfg s f.view file) := by
  have stay (kept : dropped cfg s f.view file = none) :
      Ledger s (s.setFid id g) (fun _ => 0) (dropped cfg s f.view file) := by
    rw [kept]
    exact ledger.setFid found g fun w => by rw [same]; omega
  unfold settle
  split
  next single =>
    refine stay ?_
    unfold dropped
    split
    · rw [Bool.not_eq_true'] at single
      rw [single]
      rfl
    · rfl
  next multi =>
    have multi : cfg.multiuser = true := by simpa using multi
    rw [same]
    split
    next v old entry has =>
      obtain ⟨held,notRoot⟩ := lookupSession_held entry
      have mine := held_of_fid found has
      have taken := ledger.retain (v := v) (by omega)
      have refs := ledger.refs_retain (v := v) (by omega) old
      have nonneg := holds_nonneg (some v) old
      have count : (s.retain v).held old = s.held old := by simp
      have left := taken.leave (v := old) (by omega)
      have positive := ledger.counted old
      have gone : (if (s.retain v).refs old = 1 then some old else none) = dropped cfg s f.view file := by
        unfold dropped
        rw [has,refs,entry,multi]
        by_cases here : v = old
        · subst here
          rw [holds_self,if_neg (by omega)]
          simp [notRoot]
        · rw [holds_ne here]
          simp [here]
      rw [gone] at left
      refine left.setFid (f := f) (by simpa [State.fid?] using found) _ fun w => ?_
      rw [has]
      dsimp only
      omega
    next v entry has =>
      obtain ⟨held,_⟩ := lookupSession_held entry
      have taken := ledger.retain (v := v) (by omega)
      rw [has]
      refine taken.setFid (f := f) (by simpa [State.fid?] using found) _ fun w => ?_
      rw [has]
      dsimp only
      rw [holds_none]
      omega
    next old entry has =>
      split
      next root =>
        have mine := held_of_fid found has
        have left := ledger.leave (v := old) (by omega)
        have gone : (if s.refs old = 1 then some old else none) = dropped cfg s f.view file := by
          unfold dropped
          rw [has,multi,root]
          simp
        rw [gone] at left
        refine left.setFid (f := f) (by simpa [State.fid?] using found) _ fun w => ?_
        rw [has]
        rw [holds_none]
        omega
      next notRoot =>
        refine stay ?_
        unfold dropped
        rw [has,entry]
        simp [notRoot]
    next entry has =>
      refine stay ?_
      rw [has]
      rfl

theorem walkfile_dot (old : File) : walkfile cfg n old [.dot] = none := by
  cases old <;> simp [walkfile,walkfile1]

theorem Walked.ledger (ledger : Ledger s s (fun _ => 0) none) (found : s.fid? id = some f)
    (walked : Walked cfg s id f names t) : Ledger s t (fun _ => 0) (abandoned cfg s (.walk id names alive entry)) := by
  simp only [abandoned,found]
  cases walked with
  | here named =>
    rw [named]
    cases place : f.place with
    | fixed =>
      dsimp only
      rw [walkfile_dot]
      exact ledger
    | tree => exact ledger
  | freed has gone => exact absurd gone (ledger.present found has)
  | @enter old file generation v fixed named allowed reached passes known has =>
    rw [fixed]
    dsimp only
    rw [reached,bind_some]
    rw [named] at reached
    have kept : dropped cfg s f.view file = none := by
      rcases walkfile_view reached with ⟨_,rfl⟩ | ⟨i,_,rfl⟩ <;> simp [has,dropped,lookupSession]
    rw [kept]
    exact ledger.setFid found _ fun w => by dsimp only; omega
  | @move old file generation fixed allowed reached =>
    rw [fixed]
    dsimp only
    rw [reached,bind_some]
    have same : Fid.view { f with
      place := .fixed file
      generation := generation
      entered := f.enteredAt s.slots file } = f.view := rfl
    exact settle_ledger ledger found _ same file
  | climb tree =>
    rw [tree]
    exact ledger.setFid found _ fun w => by dsimp only; omega

end Ledgers

/-- What the waiting requests rely on: the fid of an attach has no view yet, and the slot that
a session view is made for is there. -/
structure Waits (cfg : Config) (s : State) : Prop where
  single : ∀ id, some (.attach id) ∈ s.waiting → cfg.multiuser = false
  known : ∀ id, some (.attach id) ∈ s.waiting → id < s.fids.length
  unheld : ∀ id f, some (.attach id) ∈ s.waiting → s.fid? id = some f → f.view = none
  apart : ∀ req req' id : Nat, s.waiting[req]? = some (some (.attach id)) →
    s.waiting[req']? = some (some (.attach id)) → req = req'
  slots : ∀ id i : Nat, some (.start id i) ∈ s.waiting → i < s.slots.length

/-- The fids that were there are gone or hold the views they held. -/
def SameViews (s next : State) : Prop := ∀ id f', id < s.fids.length → next.fid? id = some f' →
  ∃ f, s.fid? id = some f ∧ f'.view = f.view

section Waits

variable {s next : State} {cfg : Config} {id i req : Nat} {f g : Fid} {w : Waiting}

theorem SameViews.of_fids (same : next.fids = s.fids) : SameViews s next := by
  intro id f' _ found
  exact ⟨f',by rwa [State.fid?,same] at found,rfl⟩

theorem SameViews.setFid (found : s.fid? id = some f) (same : next.fids = s.fids.set id (some g))
    (view : g.view = f.view) : SameViews s next := by
  intro id' f' _ found'
  rw [State.fid?,same] at found'
  by_cases here : id = id'
  · subst here
    rw [State.fid?,join_eq_some_iff] at found
    rw [List.getElem?_set_self (List.getElem?_eq_some_iff.mp found).1] at found'
    cases found'
    exact ⟨f,by rw [State.fid?,found]; rfl,view⟩
  · rw [getElem?_set_ne here] at found'
    exact ⟨f',found',rfl⟩

theorem SameViews.clearFid (same : next.fids = s.fids.set id none) : SameViews s next := by
  intro id' f' _ found'
  rw [State.fid?,same,getElem?_set] at found'
  split at found'
  · split at found' <;> cases found'
  · exact ⟨f',found',rfl⟩

theorem SameViews.addFid (same : next.fids = s.fids ++ [some g]) : SameViews s next := by
  intro id' f' bound found'
  rw [State.fid?,same,getElem?_append_left bound] at found'
  exact ⟨f',found',rfl⟩

theorem Waits.frame (waits : Waits cfg s) (waiting : next.waiting = s.waiting)
    (slots : s.slots.length ≤ next.slots.length) (fids : s.fids.length ≤ next.fids.length)
    (views : cfg.multiuser = false → SameViews s next) : Waits cfg next where
  single := by rw [waiting]; exact waits.single
  known := by
    rw [waiting]
    exact fun id member => Nat.lt_of_lt_of_le (waits.known id member) fids
  unheld := by
    rw [waiting]
    intro id f' member found'
    obtain ⟨f,found,same⟩ := views (waits.single id member) id f' (waits.known id member) found'
    rw [same]
    exact waits.unheld id f member found
  apart := by rw [waiting]; exact waits.apart
  slots := by
    rw [waiting]
    exact fun id i member => Nat.lt_of_lt_of_le (waits.slots id i member) slots

theorem Waits.same (waits : Waits cfg s) (waiting : next.waiting = s.waiting)
    (slots : next.slots.length = s.slots.length) (fids : next.fids = s.fids) : Waits cfg next :=
  waits.frame waiting (Nat.le_of_eq slots.symm) (Nat.le_of_eq (by rw [fids])) fun _ => .of_fids fids

theorem Waits.setFid (waits : Waits cfg s) (found : s.fid? id = some f) (g : Fid) (view : g.view = f.view) :
    Waits cfg (s.setFid id g) :=
  waits.frame rfl (Nat.le_refl _) (by simp) fun _ => .setFid found rfl view

theorem mem_wait (member : some w' ∈ (s.wait w).waiting) : some w' ∈ s.waiting ∨ w' = w := by
  rcases mem_append.mp member with old | new
  · exact .inl old
  · exact .inr (some.inj (mem_singleton.mp new))

theorem Waits.rest (waits : Waits cfg s) (attach : ∀ req id : Nat, waiting[req]? = some (some (.attach id)) →
      s.waiting[req]? = some (some (.attach id)))
    (slots : ∀ id i : Nat, some (.start id i) ∈ waiting → i < s.slots.length) : Waits cfg { s with waiting } := by
  have old (id : Nat) (member : some (.attach id) ∈ waiting) : some (.attach id) ∈ s.waiting := by
    obtain ⟨req,found⟩ := mem_iff_getElem?.mp member
    exact mem_of_getElem? (attach req id found)
  exact ⟨fun id member => waits.single id (old id member),fun id member => waits.known id (old id member),
    fun id f member => waits.unheld id f (old id member),fun req req' id first second =>
    waits.apart req req' id (attach req id first) (attach req' id second),slots⟩

theorem Waits.wait (waits : Waits cfg s) (noAttach : ∀ id, w ≠ .attach id)
    (slots : ∀ id i, w = .start id i → i < s.slots.length) : Waits cfg (s.wait w) := by
  refine waits.rest (fun req id found => ?_) fun id i member => ?_
  · rw [getElem?_append] at found
    split at found
    · exact found
    · have new := mem_singleton.mp (mem_of_getElem? found)
      exact absurd (some.inj new).symm (noAttach id)
  · rcases mem_wait member with old | new
    · exact waits.slots id i old
    · exact slots id i new.symm

theorem Waits.finish (waits : Waits cfg s) (req : Nat) : Waits cfg (s.finish req) := by
  refine waits.rest (fun req' id found => ?_) fun id i member => ?_
  · rw [getElem?_set] at found
    split at found
    · split at found <;> cases found
    · exact found
  · rcases mem_or_eq_of_mem_set member with old | new
    · exact waits.slots id i old
    · cases new

theorem mem_of_waiting (found : s.waiting[req]?.join = some w) : some w ∈ s.waiting := by
  rw [join_eq_some_iff] at found
  exact mem_of_getElem? found

theorem attach_waits (waits : Waits cfg s) (uid : String) (controller : Bool) :
    Waits cfg (attach cfg s uid controller) := by
  have added : Waits cfg { s with fids := s.fids ++ [some ⟨uid,false,.fixed .root,0,none,0⟩] } :=
    waits.frame rfl (Nat.le_refl _) (by simp) fun _ => .addFid rfl
  unfold attach
  split
  · exact added
  next single =>
    have single : cfg.multiuser = false := by
      cases multi : cfg.multiuser with
      | false => rfl
      | true => simp [multi] at single
    have fresh (req id : Nat) (found : s.waiting[req]? = some (some (.attach id))) : id ≠ s.fids.length :=
      Nat.ne_of_lt (waits.known id (mem_of_getElem? found))
    have place (req id : Nat) (found : (s.waiting ++ [some (.attach s.fids.length)])[req]? = some (some (.attach id))) :
        s.waiting[req]? = some (some (.attach id)) ∨ req = s.waiting.length ∧ id = s.fids.length := by
      rw [getElem?_append] at found
      split at found
      · exact .inl found
      next beyond =>
        have bound := (List.getElem?_eq_some_iff.mp found).1
        simp only [length_singleton] at bound
        have new := mem_singleton.mp (mem_of_getElem? found)
        cases new
        exact .inr ⟨by omega,rfl⟩
    refine ⟨fun id _ => single,fun id member => ?_,fun id f member found => ?_,fun req req' id first second => ?_,
      fun id i member => ?_⟩
    · rcases mem_wait member with old | new
      · exact added.known id old
      · cases new
        simp [State.wait]
    · rcases mem_wait member with old | new
      · exact added.unheld id f old found
      · cases new
        simp only [State.fid?,State.wait,getElem?_concat_length] at found
        cases found
        rfl
    · rcases place req id first with old | ⟨rfl,rfl⟩
      · rcases place req' id second with old' | ⟨rfl,new⟩
        · exact waits.apart req req' id old old'
        · exact absurd new (fresh req id old)
      · rcases place req' s.fids.length second with old' | ⟨rfl,_⟩
        · exact absurd rfl (fresh req' _ old')
        · rfl
    · rcases mem_wait member with old | new
      · exact added.slots id i old
      · cases new

/-- The one fid that an attach gives a view to has no other attach waiting. -/
theorem attached_waits (waits : Waits cfg s) (waiting : s.waiting[req]?.join = some (.attach id)) (v : Option Nat) :
    Waits cfg ((s.finish req).newView.setFid id { f with view := v }) := by
  have rest := waits.finish req
  have other (id' : Nat) (member : some (.attach id') ∈ (s.finish req).waiting) : id' ≠ id := by
    rintro rfl
    rw [join_eq_some_iff] at waiting
    obtain ⟨req',bound,found⟩ := mem_iff_getElem.mp member
    have found : (s.waiting.set req none)[req']? = some (some (.attach id')) :=
      List.getElem?_eq_some_iff.mpr ⟨bound,found⟩
    rw [getElem?_set] at found
    split at found
    · split at found <;> cases found
    next apart => exact apart (waits.apart req req' id' waiting found)
  refine ⟨rest.single,fun id' member => ?_,fun id' f' member found => ?_,rest.apart,rest.slots⟩
  · simpa using rest.known id' member
  · refine rest.unheld id' f' member ?_
    have apart : id ≠ id' := Ne.symm (other id' member)
    simpa [State.fid?,apart] using found

theorem Commanded.waits (waits : Waits cfg s) (commanded : Commanded cfg s id f session next) : Waits cfg next := by
  cases commanded with
  | viewClosed | closed | answered => exact waits.same (by simp) (by simp) (by simp)
  | nothing => exact waits
  | login | called => exact waits.wait (by simp) (by simp)
  | logout => exact waits.same rfl (by simp) rfl

theorem Walked.waits (waits : Waits cfg s) (found : s.fid? id = some f) (walked : Walked cfg s id f names next) :
    Waits cfg next := by
  cases walked with
  | here => exact waits
  | freed => exact waits.same rfl rfl rfl
  | enter | climb => exact waits.setFid found _ rfl
  | @move old file generation fixed =>
    obtain ⟨view,fids⟩ := settle_fids s cfg id { f with
      place := .fixed file
      generation := generation
      entered := f.enteredAt s.slots file } file
    cases multi : cfg.multiuser with
    | true => exact waits.frame (by simp) (by simp) (by rw [fids]; simp) fun single => nomatch multi.symm.trans single
    | false =>
      simp only [settle,multi,Bool.not_false,if_true]
      exact waits.setFid found _ rfl

/-- Between two requests no references are in hand. -/
structure Balanced (cfg : Config) (s : State) : Prop where
  ledger : Ledger s s (fun _ => 0) none
  waits : Waits cfg s

theorem destroyFid_ledger (ledger : Ledger s s (fun _ => 0) none) (found : s.fid? id = some f) :
    Ledger s (destroyFid s id f) (fun _ => 0) none := by
  have shut : Ledger s (s.closeFid f) (fun _ => 0) none := by
    unfold State.closeFid
    split
    · exact addRef_ledger ledger _ _
    · exact ledger
  have fids : (s.closeFid f).fids = s.fids := by simp
  have slots : ((s.closeFid f).dropView f).slots = (s.closeFid f).slots := by simp
  have there := found
  rw [State.fid?,join_eq_some_iff] at there
  have held (v : Nat) : (destroyFid s id f).held v = (s.closeFid f).held v - holds f.view v := by
    unfold State.held destroyFid holds
    rw [count_set there,slots,fids]
    simp only [bind_none,bind_some]
    have gone : ((none : Option Nat) == some v) = false := rfl
    rw [gone,one_false]
    omega
  have dropping : Ledger s ((s.closeFid f).dropView f) (fun w => -holds f.view w) none := by
    unfold State.dropView
    split
    next v has =>
      have mine : 0 < (s.closeFid f).held v := held_of_fid (by rwa [State.fid?,fids]) has
      exact (shut.release (v := v) (by omega)).owe fun w => by rw [has]; omega
    next has => exact shut.owe fun w => by simp [has]
  have same (v : Nat) : ((s.closeFid f).dropView f).held v = (s.closeFid f).held v := by
    unfold State.held State.dropView
    split <;> simp
  refine dropping.hand rfl rfl rfl fun v => ?_
  rw [held,same]
  omega

theorem step_ledger (balanced : Balanced cfg s) (stepped : step cfg op s = some next) :
    Ledger s next (fun _ => 0) (abandoned cfg s op) := by
  obtain ⟨ledger,waits⟩ := balanced
  have finished (req : Nat) : Ledger s (s.finish req) (fun _ => 0) none := ledger.same rfl rfl rfl rfl rfl
  cases step_stepped stepped with
  | @attach uid =>
    have added : Ledger s { s with fids := s.fids ++ [some ⟨uid,false,.fixed .root,0,none,0⟩] } (fun _ => 0) none :=
      ledger.addFid _ fun w => rfl
    unfold attach
    split
    · exact added
    · exact added.same rfl rfl rfl rfl rfl
  | @clone n f found =>
    have shared : Ledger s (s.shareView f) (holds f.view) none := by
      unfold State.shareView
      split
      next v has =>
        have held := held_of_fid found has
        exact (ledger.retain (v := v) (by omega)).owe fun w => by rw [has]; omega
      next has => exact ledger.owe fun w => by rw [has,holds_none]
    have fids : s.fids = (s.shareView f).fids := by simp
    unfold cloneFid
    rw [fids]
    exact shared.addFid _ fun w => by dsimp only; omega
  | walk found shut walked => exact walked.ledger ledger found
  | @openFile n f file _ _ found =>
    exact (addRef_ledger ledger file 1).setFid (f := f) (by simpa [State.fid?] using found) _ fun w => by dsimp only; omega
  | openDir found | openTree found => exact ledger.setFid found _ fun w => by dsimp only; omega
  | openFreed found has gone => exact absurd gone (ledger.present found has)
  | handed found single allocated => exact allocSession_ledger ledger _ allocated
  | starting found multi allocated => exact (allocSession_ledger ledger _ allocated).same rfl rfl rfl rfl rfl
  | refused found multi allocated => exact closeSession_ledger (allocSession_ledger ledger _ allocated) cfg _
  | write found opened allowed ctl done =>
    cases command_commanded done with
    | viewClosed has =>
      have held := held_of_fid found has
      exact putStatus_ledger (ledger.deactivate (by rw [Int.add_zero]; exact held)) _ _
    | closed => exact closeSession_ledger ledger cfg _
    | nothing => exact ledger
    | login | called => exact ledger.same rfl rfl rfl rfl rfl
    | logout => exact ledger.setContents _ _ fun slot => rfl
    | answered => exact answer_ledger ledger _ _ _
  | started waiting => exact sessionStarted_ledger (finished _) (waits.slots _ _ (mem_of_waiting waiting))
  | notStarted => exact closeSession_ledger (finished _) cfg _
  | @attached req id f waiting found =>
    have none' := waits.unheld id f (mem_of_waiting waiting) found
    refine (finished req).newView.setFid (f := f) found _ fun w => ?_
    rw [none',holds_none]
    dsimp only
    have same : (s.finish req).views.length = s.views.length := rfl
    rw [same]
    omega
  | notAttached => exact finished _
  | loggedIn =>
    refine (finished _).setContents _ _ fun slot => ?_
    unfold Slot.loggedIn
    split <;> rfl
  | replied => exact answer_ledger (finished _) _ _ _
  | destroy found => exact destroyFid_ledger ledger found

theorem step_waits (waits : Waits cfg s) (stepped : step cfg op s = some next) : Waits cfg next := by
  have allocate (owner : String) (mid : State) (allocated : allocSession cfg s owner = .ok mid) :
      Waits cfg mid ∧ pickSlot cfg s.slots < mid.slots.length := by
    obtain ⟨rest,grown,there⟩ := allocSession_frame s cfg owner allocated
    have fids : mid.fids = s.fids := by rw [rest]
    refine ⟨waits.frame ?_ grown (Nat.le_of_eq (by rw [fids])) fun _ => .of_fids fids,there⟩
    rw [rest]
  cases step_stepped stepped with
  | attach => exact attach_waits waits _ _
  | clone => exact waits.frame (by simp) (by simp) (by simp) fun _ => .addFid rfl
  | walk found shut walked => exact walked.waits waits found
  | @openFile n f file _ _ found =>
    have counted : Waits cfg (s.addRef file 1) := waits.same (by simp) (by simp) (by simp)
    exact counted.setFid (f := f) (by simpa [State.fid?] using found) _ rfl
  | openDir found | openTree found => exact waits.setFid found _ rfl
  | openFreed => exact waits.same rfl rfl rfl
  | handed found single allocated => exact (allocate _ _ allocated).1
  | starting found multi allocated =>
    obtain ⟨kept,there⟩ := allocate _ _ allocated
    refine kept.wait (by simp) fun id i same => ?_
    cases same
    exact there
  | refused found multi allocated => exact (allocate _ _ allocated).1.same (by simp) (by simp) (by simp)
  | write found opened allowed ctl done => exact (command_commanded done).waits waits
  | @started req | @notStarted req | @replied req => exact (waits.finish req).same (by simp) (by simp) (by simp)
  | attached waiting => exact attached_waits waits waiting _
  | notAttached => exact waits.finish _
  | @loggedIn req => exact (waits.finish req).same rfl (by simp) rfl
  | destroy =>
    exact waits.frame (by simp) (by simp) (by simp) fun _ => .clearFid rfl

end Waits

/-- Each view is held as often as its count says, is freed just when nothing holds it, is not
used afterwards, and is then queued for closing, once. -/
structure Lifecycle (s : State) : Prop where
  counted : ∀ (v : Nat) (view : View), s.views[v]? = some (some view) → view.refs = s.held v
  freed : ∀ v < s.views.length, s.views[v]? = some none ↔ s.held v = 0
  unused : s.fault = false
  queued : ∀ v, s.closed.count v = if s.views[v]? = some none then 1 else 0

section Runs

variable {cfg : Config} {s t next : State} {id : Nat}

theorem Ledger.rebase (ledger : Ledger s t (fun _ => 0) gone) : Ledger t t (fun _ => 0) none :=
  ⟨ledger.counted,ledger.positive,ledger.once,ledger.whole,fun v => by simp⟩

theorem step_balanced (op : Op) (s next : State) (balanced : Balanced cfg s) (stepped : step cfg op s = some next) :
    Balanced cfg next :=
  ⟨(step_ledger balanced stepped).rebase,step_waits balanced.waits stepped⟩

theorem initial_balanced : Balanced cfg initial := by
  refine ⟨⟨fun v => rfl,fun v view found => ?_,fun v => ⟨Nat.zero_le _,fun member => ?_⟩,rfl,fun v => by simp⟩,
    ⟨fun id member => ?_,fun id member => ?_,fun id f member => ?_,fun req req' id found => ?_,fun id i member => ?_⟩⟩
  all_goals first | cases member | simp [initial] at found

theorem run_balanced (ops : List Op) (ran : run (step cfg) ops initial = some s) : Balanced cfg s :=
  run_invariant (Balanced cfg) step_balanced ops initial s initial_balanced ran

theorem Balanced.lifecycle_iff (balanced : Balanced cfg s) : Lifecycle s ↔ ¬∃ v, s.Lost v := by
  have ledger := balanced.ledger
  constructor
  · rintro lifecycle ⟨v,freed,unqueued⟩
    have once := lifecycle.queued v
    rw [if_pos freed,count_eq_zero.mpr unqueued] at once
    cases once
  · intro noneLost
    refine ⟨fun v view there => ?_,fun v bound => ⟨fun freed => ?_,fun unheld => ?_⟩,ledger.whole,fun v => ?_⟩
    · have counted := ledger.counted v
      rw [refs_of_live (by rw [there]; rfl)] at counted
      omega
    · have counted := ledger.counted v
      simp only [State.refs,freed,join_some] at counted
      omega
    · cases there : s.views[v]? with
      | none => exact absurd bound (Nat.not_lt.mpr (getElem?_eq_none_iff.mp there))
      | some entry =>
        cases entry with
        | none => rfl
        | some view =>
          have counted := ledger.counted v
          have live : s.views[v]?.join = some view := by rw [there]; rfl
          have positive := ledger.positive v view live
          rw [refs_of_live live] at counted
          omega
    · obtain ⟨atMost,onlyFreed⟩ := ledger.once v
      split
      next freed =>
        have queued : v ∈ s.closed := by
          by_contra unqueued
          exact noneLost ⟨v,freed,unqueued⟩
        have := count_pos_iff.mpr queued
        omega
      next there => exact count_eq_zero.mpr fun member => there (onlyFreed member)

theorem step_lost (balanced : Balanced cfg s) (stepped : step cfg op s = some next) :
    (∃ v, next.Lost v) ↔ (∃ v, s.Lost v) ∨ abandoned cfg s op ≠ none := by
  have lost := (step_ledger balanced stepped).lost
  simp only [lost,exists_or,ne_none_iff_exists']

/-- A session is opened and closed while a second fid is in it. -/
def visit : List Op :=
  [.attach "glenda" false,.clone 0,.walk 1 [.clone] true none,.open 1 true true,.readClone 1 true,.displayed 0 true,
    .clone 0,.walk 2 [.number 0] true none,.walk 2 [.ctl] true none,.open 2 false true,.write 2 .close,.destroy 2]

/-- Two clone reads wait for their views; the slot of the first is closed and given to the
second. The view of the first comes, a fid walks in and takes it, the view of the second
replaces it, and the fid walks back to the root. -/
def overtaken : List Op :=
  [.attach "glenda" false,.clone 0,.walk 1 [.clone] true none,.open 1 true true,.readClone 1 true,
    .clone 0,.walk 2 [.number 0] true none,.walk 2 [.ctl] true none,.open 2 false true,.write 2 .close,.destroy 2,
    .readClone 1 true,.displayed 0 true,.walk 0 [.number 0] true none,.displayed 1 true,.walk 0 [.dotdot] true none]

/-- Also in a run that loses a view, no handler uses one that was freed, a view that is held is there with its exact
count, and none is queued for closing while it is held, or twice. -/
theorem held_views_present (cfg : Config) (ops : List Op) (s : State)
    (ran : Transition.run (step cfg) ops initial = some s) :
    s.fault = false ∧ ∀ v, s.closed.count v ≤ 1 ∧
      (0 < s.held v → v ∉ s.closed ∧ ∃ view, s.views[v]? = some (some view) ∧ view.refs = s.held v) := by
  have ledger := (run_balanced ops ran).ledger
  refine ⟨ledger.whole,fun v => ⟨(ledger.once v).1,fun held => ?_⟩⟩
  obtain ⟨view,live⟩ := ledger.live (by rwa [Int.add_zero])
  refine ⟨fun queued => unfreed_of_live live ((ledger.once v).2 queued),view,join_eq_some_iff.mp live,?_⟩
  rw [← refs_of_live live,ledger.counted,Int.add_zero]

theorem overtaken_view_present : ∃ s, Transition.run (step ⟨true,false⟩) overtaken initial = some s ∧
    s.fault = false ∧ s.held 1 = 1 ∧ 1 ∉ s.closed ∧ ∃ view, s.views[1]? = some (some view) ∧ view.refs = s.held 1 := by
  obtain ⟨whole,views⟩ := held_views_present ⟨true,false⟩ overtaken _ rfl
  exact ⟨_,rfl,whole,by decide,(views 1).2 (by decide)⟩

end Runs

end Objective9c.Facade
