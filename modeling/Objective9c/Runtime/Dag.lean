import Mathlib.Data.List.Nodup
import Objective9c.Lib.Reach
import Objective9c.Lib.SwapRemove
import Objective9c.Lib.Text
import Objective9c.Lib.Transition

/-! The wait-for graph of synchronous actor calls (`o9_dag_*` in `o9_runtime.c`). An
actor is its dispatch channel; nil is the caller outside every actor. `o9_dag_lock`
makes each operation one step. `State.waiting` is not in the program: it says which
accepted call each actor is blocked in, whether or not the table has recorded it. -/
namespace Objective9c.Dag

open Relation List Option Transition

abbrev Actor := Nat

def nil : Actor := 0
def maxCallEdges : Nat := 1024

structure CallEdge where
  caller : Actor
  callee : Actor
  deriving DecidableEq

/-- The callee of the first recorded call of `a`. -/
def calleeOf (edges : List CallEdge) (a : Actor) : Option Actor :=
  (edges.find? (·.caller == a)).map (·.callee)

/-- `o9_path_exists_locked`: one recorded call an actor, as many hops as there are calls. -/
def pathExists (edges : List CallEdge) (start target : Actor) : Bool :=
  if start = nil || target = nil then false
  else if start = target then true
  else Reach.chase (calleeOf edges) target edges.length start

/-- The buffer holds 192 bytes with the terminator. -/
def snprintErr (text : String) : String := String.ofList (Text.fitting 191 text.toList)

def selfErr (method : Option String) : String :=
  snprintErr ("sync actor call to self" ++ (method.elim "" fun m => " for " ++ m ++ "()") ++
    "; use a direct method call")

def cycleErr (method : Option String) : String :=
  snprintErr ("actor call cycle detected" ++ (method.elim "" fun m => " on " ++ m ++ "()"))

/-- The table afterwards and the call error; no error is the return value 0. -/
structure Begun where
  edges : List CallEdge
  err : Option String
  deriving DecidableEq

def callBegin (edges : List CallEdge) (caller callee : Actor) (method : Option String) : Begun :=
  if callee = nil then ⟨edges,none⟩
  else if caller = nil then ⟨edges,none⟩
  else if caller = callee then ⟨edges,some (selfErr method)⟩
  else if pathExists edges callee caller then ⟨edges,some (cycleErr method)⟩
  else if edges.length < maxCallEdges then ⟨edges ++ [⟨caller,callee⟩],none⟩
  else ⟨edges,none⟩

def callEnd (edges : List CallEdge) (caller callee : Actor) : List CallEdge :=
  if callee = nil || caller = nil then edges
  else SwapRemove.removeFirst (fun e => e.caller == caller && e.callee == callee) edges

def actorExit (edges : List CallEdge) (actor : Actor) : List CallEdge :=
  if actor = nil then edges
  else SwapRemove.removeAll (fun e => e.caller == actor || e.callee == actor) edges.length 0 edges

structure State where
  edges : List CallEdge
  waiting : Actor → Option Actor
  exited : Actor → Bool

@[simp] def initial : State := ⟨[],fun _ => none,fun _ => false⟩

inductive Label where
  | callBegin (caller callee : Actor) (method : Option String)
  | callEnd (caller : Actor)
  | actorExit (actor : Actor)
  deriving DecidableEq

@[simp] def State.wait (s : State) (caller : Actor) (callee : Option Actor) : Actor → Option Actor :=
  fun a => if a = caller then callee else s.waiting a

/-- An actor that is blocked or has exited begins no call; a call ends when it is
outstanding. Exit may come from the actor or from the reaper, also more than once. -/
def step : Label → State → Option State
  | .callBegin caller callee method, s =>
    if s.exited caller || (s.waiting caller).isSome then none
    else
      let begun := callBegin s.edges caller callee method
      if begun.err = none ∧ caller ≠ nil ∧ callee ≠ nil then
        some { s with edges := begun.edges, waiting := s.wait caller (some callee) }
      else some { s with edges := begun.edges }
  | .callEnd caller, s =>
    match s.waiting caller with
    | none => none
    | some callee =>
      some { s with edges := callEnd s.edges caller callee, waiting := s.wait caller none }
  | .actorExit actor, s =>
    if actor = nil then some s
    else some ⟨actorExit s.edges actor,s.wait actor none,
      fun a => if a = actor then true else s.exited a⟩

/-- `a` is blocked in an accepted synchronous call of `b`. -/
@[simp] def State.Waits (s : State) (a b : Actor) : Prop := s.waiting a = some b

/-- Everything a step can do to the table and to the outstanding calls. -/
inductive Change (s : State) : Label → State → Prop where
  | same (label : Label) : Change s label s
  | record (caller callee : Actor) (method : Option String) : caller ≠ nil → callee ≠ nil →
      caller ≠ callee → s.exited caller = false → s.waiting caller = none →
      pathExists s.edges callee caller = false → s.edges.length < maxCallEdges →
      Change s (.callBegin caller callee method) { s with
        edges := s.edges ++ [⟨caller,callee⟩], waiting := s.wait caller (some callee) }
  | forget (caller callee : Actor) (method : Option String) : caller ≠ nil → callee ≠ nil →
      s.exited caller = false → s.waiting caller = none → ¬s.edges.length < maxCallEdges →
      Change s (.callBegin caller callee method)
        { s with waiting := s.wait caller (some callee) }
  | finish (caller callee : Actor) : s.waiting caller = some callee →
      Change s (.callEnd caller) { s with
        edges := callEnd s.edges caller callee, waiting := s.wait caller none }
  | exit (actor : Actor) : actor ≠ nil →
      Change s (.actorExit actor) ⟨actorExit s.edges actor,s.wait actor none,
        fun a => if a = actor then true else s.exited a⟩

theorem step_change (stepped : step label s = some s') : Change s label s' := by
  revert stepped
  fun_cases step label s <;> rintro ⟨⟩
  case case2 caller callee method busy begun allowed =>
    simp only [Bool.or_eq_true,not_or,Bool.not_eq_true,isSome_eq_false_iff,isNone_iff_eq_none] at busy
    revert allowed
    simp only [begun]
    fun_cases callBegin s.edges caller callee method with
    | case5 noCallee noCaller self path room =>
      intro _
      exact .record caller callee method noCaller noCallee self busy.1 busy.2 (by simpa using path) room
    | case6 noCallee noCaller _ _ room =>
      intro _
      exact .forget caller callee method noCaller noCallee busy.1 busy.2 room
    | _ => simp_all
  case case3 caller callee method busy begun refused =>
    revert refused
    simp only [begun]
    fun_cases callBegin s.edges caller callee method with
    | case5 | case6 => simp_all
    | _ => exact fun _ => .same _
  case case5 caller callee waits => exact .finish caller callee waits
  case case6 => exact .same _
  case case7 actor real => exact .exit actor real

theorem callEnd_mem (once : (edges.map CallEdge.caller).Nodup)
    (kept : e ∈ callEnd edges caller callee) : e ∈ edges ∧ (callee ≠ nil → caller ≠ nil → e ≠ ⟨caller,callee⟩) := by
  unfold callEnd at kept
  split at kept
  next isNil =>
    refine ⟨kept,fun calleeOk callerOk => ?_⟩
    simp [calleeOk,callerOk] at isNil
  next =>
    have kept := (SwapRemove.removeFirst_perm _ edges).mem_iff.mp kept
    have listed := mem_of_mem_eraseP kept
    refine ⟨listed,fun _ _ same => ?_⟩
    subst same
    obtain ⟨c,before,after,_,hc,split,erased⟩ := exists_of_eraseP
      (p := fun e => e.caller == caller && e.callee == callee) listed (by simp)
    simp only [Bool.and_eq_true,beq_iff_eq] at hc
    rw [erased] at kept
    rw [split] at once
    -- The erased edge has the same caller, and a caller occurs once.
    have other : c.caller ∈ (before ++ after).map CallEdge.caller :=
      mem_map.mpr ⟨_,kept,hc.1.symm⟩
    simp only [map_append,map_cons,nodup_middle,nodup_cons] at once
    exact once.1 (by simpa using other)

theorem callEnd_keeps (kept : e ∈ edges) (other : e.caller ≠ caller) : e ∈ callEnd edges caller callee := by
  unfold callEnd
  split
  · exact kept
  · apply (SwapRemove.removeFirst_perm _ edges).mem_iff.mpr
    exact mem_eraseP_of_neg (by simp [other]) |>.mpr kept

theorem callEnd_once (once : (edges.map CallEdge.caller).Nodup) :
    ((callEnd edges caller callee).map CallEdge.caller).Nodup := by
  unfold callEnd
  split
  · exact once
  · apply ((SwapRemove.removeFirst_perm _ edges).map _).nodup_iff.mpr
    exact once.sublist (eraseP_sublist.map _)

theorem actorExit_perm (edges : List CallEdge) (real : actor ≠ nil) : (actorExit edges actor).Perm
      (edges.filter fun e => !(e.caller == actor || e.callee == actor)) := by
  simpa [actorExit,real] using
    SwapRemove.removeAll_perm (fun e => e.caller == actor || e.callee == actor)
      edges.length [] edges (Nat.le_refl _)

theorem actorExit_mem (real : actor ≠ nil) :
    e ∈ actorExit edges actor ↔ e ∈ edges ∧ e.caller ≠ actor ∧ e.callee ≠ actor := by
  rw [(actorExit_perm edges real).mem_iff]
  simp

/-- The table only holds outstanding calls, one an actor. -/
structure Sound (s : State) : Prop where
  recorded : ∀ e ∈ s.edges, s.Waits e.caller e.callee
  once : (s.edges.map CallEdge.caller).Nodup
  gone : ∀ a, s.exited a = true → s.waiting a = none
  real : ∀ a b, s.Waits a b → a ≠ nil ∧ b ≠ nil

theorem initial_sound : Sound initial := by
  constructor <;> simp

theorem Sound.caller_absent (sound : Sound s) (free : s.waiting caller = none) :
    ∀ e ∈ s.edges, e.caller ≠ caller := by
  intro e listed same
  have waits := sound.recorded e listed
  simp [same,free] at waits

/-- Accepting a call, recorded or not, keeps what does not depend on the new edge. -/
theorem Sound.accept (sound : Sound s) (callerOk : caller ≠ nil) (calleeOk : callee ≠ nil)
    (present : s.exited caller = false) (free : s.waiting caller = none) :
    Sound { s with waiting := s.wait caller (some callee) } where
  recorded e listed := by
    have other := sound.caller_absent free e listed
    simpa [other] using sound.recorded e listed
  once := sound.once
  gone a hasExited := by
    have other : a ≠ caller := by rintro rfl; simp [present] at hasExited
    simpa [other] using sound.gone a hasExited
  real a b waits := by
    by_cases here : a = caller
    · obtain rfl : callee = b := by simpa [here] using waits
      exact ⟨here ▸ callerOk,calleeOk⟩
    · exact sound.real a b (by simpa [here] using waits)

theorem waits_of_cleared {s : State} (waits : s.wait caller none a = some b) : a ≠ caller ∧ s.Waits a b := by
  by_cases here : a = caller
  · simp [here] at waits
  · exact ⟨here,by simpa [here] using waits⟩

theorem Change.sound (sound : Sound s) (change : Change s label s') : Sound s' := by
  cases change with
  | same => exact sound
  | record caller callee method callerOk calleeOk _ present free =>
    have accepted := sound.accept callerOk calleeOk present free
    refine ⟨?_,?_,accepted.gone,accepted.real⟩
    · intro e listed
      rcases mem_append.mp listed with old | new
      · exact accepted.recorded e old
      · obtain rfl := mem_singleton.mp new
        simp
    · simpa [nodup_append,sound.once] using sound.caller_absent free
  | forget caller callee method callerOk calleeOk present free =>
    exact sound.accept callerOk calleeOk present free
  | finish caller callee waits =>
    obtain ⟨callerOk,calleeOk⟩ := sound.real caller callee waits
    refine ⟨?_,callEnd_once sound.once,?_,fun a b h => sound.real a b (waits_of_cleared h).2⟩
    · intro e listed
      obtain ⟨old,other⟩ := callEnd_mem sound.once listed
      have oldWaits := sound.recorded e old
      have apart : e.caller ≠ caller := by
        intro same
        obtain rfl : e.callee = callee := by
          simpa [same,waits,eq_comm] using oldWaits
        exact other calleeOk callerOk (by rw [← same])
      simpa [apart] using oldWaits
    · intro a hasExited
      by_cases here : a = caller <;> simp [here,sound.gone a hasExited]
  | exit actor real =>
    refine ⟨?_,?_,?_,fun a b h => sound.real a b (waits_of_cleared h).2⟩
    · intro e listed
      obtain ⟨old,apart,_⟩ := (actorExit_mem real).mp listed
      simpa [apart] using sound.recorded e old
    · apply ((actorExit_perm s.edges real).map _).nodup_iff.mpr
      exact sound.once.sublist (filter_sublist.map _)
    · intro a hasExited
      by_cases here : a = actor
      · simp [here]
      · have hasExited : s.exited a = true := by simpa [here] using hasExited
        simpa [here] using sound.gone a hasExited

theorem calleeOf_mem (found : calleeOf edges a = some b) : ⟨a,b⟩ ∈ edges := by
  obtain ⟨e,here,rfl⟩ := map_eq_some_iff.mp found
  obtain rfl : e.caller = a := by simpa using find?_some here
  exact mem_of_find?_eq_some here

theorem calleeOf_eq (once : (edges.map CallEdge.caller).Nodup) (listed : ⟨a,b⟩ ∈ edges) :
    calleeOf edges a = some b := by
  cases found : calleeOf edges a with
  | none =>
    have := find?_eq_none.mp (map_eq_none_iff.mp found) _ listed
    simp at this
  | some =>
    have same := inj_on_of_nodup_map once (calleeOf_mem found) listed rfl
    rw [(CallEdge.mk.inj same).2]

/-- A refusal is never wrong: the callee waits for the caller, directly or not. -/
theorem Sound.refused (sound : Sound s) (err : (callBegin s.edges caller callee method).err = some text) :
    ReflTransGen s.Waits callee caller := by
  revert err
  fun_cases callBegin s.edges caller callee method <;> rintro ⟨⟩
  case case3 same => rw [same]
  case case4 path =>
    revert path
    fun_cases pathExists s.edges callee caller with
    | case1 => nofun
    | case2 _ same => rw [same]; intro; rfl
    | case3 =>
      intro path
      refine (TransGen.mono (fun a b found => ?_) _ _ (Reach.chase_reach _ _ path)).to_reflTransGen
      exact sound.recorded _ (calleeOf_mem found)

/-- Every outstanding call of an actor that has not exited is in the table. -/
structure Tracked (s : State) : Prop extends Sound s where
  complete : ∀ a b, s.Waits a b → s.exited b = true ∨ ⟨a,b⟩ ∈ s.edges
  acyclic : Reach.Acyclic s.Waits

theorem initial_tracked : Tracked initial where
  toSound := initial_sound
  complete := by simp
  acyclic := by
    intro a cycle
    obtain ⟨b,first,_⟩ := TransGen.head'_iff.mp cycle
    simp at first

theorem Tracked.path (tracked : Tracked s) (present : s.exited b = false)
    (path : TransGen s.Waits a b) : TransGen (fun x y => calleeOf s.edges x = some y) a b := by
  have recorded {x y : Actor} (waits : s.Waits x y) (present : s.exited y = false) :
      calleeOf s.edges x = some y := by
    rcases tracked.complete x y waits with gone | listed
    · simp [present] at gone
    · exact calleeOf_eq tracked.once listed
  induction path with
  | single last => exact .single (recorded last present)
  | @tail c b _ last ih =>
    have alive : s.exited c = false := by
      by_contra hasExited
      have cleared := tracked.gone c (by simpa using hasExited)
      simp [cleared] at last
    exact .tail (ih alive) (recorded last present)

theorem Tracked.no_path (tracked : Tracked s) (callerOk : caller ≠ nil) (calleeOk : callee ≠ nil)
    (present : s.exited caller = false)
    (path : pathExists s.edges callee caller = false) : ¬ReflTransGen s.Waits callee caller := by
  intro waits
  have recordedAcyclic : Reach.Acyclic fun x y => calleeOf s.edges x = some y :=
    tracked.acyclic.mono fun a b found => tracked.recorded _ (calleeOf_mem found)
  have covers : ∀ a, calleeOf s.edges a ≠ none → a ∈ s.edges.map CallEdge.caller := by
    intro a found
    obtain ⟨b,found⟩ := ne_none_iff_exists'.mp found
    exact mem_map.mpr ⟨_,calleeOf_mem found,rfl⟩
  rcases reflTransGen_iff_eq_or_transGen.mp waits with same | waits
  · simp [pathExists,calleeOk,same] at path
  · have found := Reach.chase_of_reach recordedAcyclic _ covers (tracked.path present waits)
    rw [length_map] at found
    by_cases same : callee = caller <;> simp [pathExists,callerOk,calleeOk,same,found] at path

def RoomLeft : Label → State → Prop
  | .callBegin _ _ _, s => s.edges.length < maxCallEdges
  | _, _ => True

theorem Change.tracked (tracked : Tracked s) (room : RoomLeft label s)
    (change : Change s label s') : Tracked s' := by
  refine { toSound := change.sound tracked.toSound, complete := ?_, acyclic := ?_ }
  · cases change with
    | same => exact tracked.complete
    | record caller callee =>
      intro a b waits
      by_cases here : a = caller
      · obtain rfl : callee = b := by simpa [here] using waits
        exact .inr (by simp [here])
      · have waits : s.Waits a b := by simpa [here] using waits
        exact (tracked.complete a b waits).imp id (mem_append_left _)
    | forget caller callee method _ _ _ _ full => exact absurd room full
    | finish caller callee waits =>
      intro a b left
      obtain ⟨other,waits⟩ := waits_of_cleared left
      exact (tracked.complete a b waits).imp id fun listed => callEnd_keeps listed other
    | exit actor real =>
      intro a b left
      obtain ⟨other,waits⟩ := waits_of_cleared left
      by_cases here : b = actor
      · exact .inl (by simp [here])
      · rcases tracked.complete a b waits with gone | listed
        · exact .inl (by simp [gone])
        · exact .inr ((actorExit_mem real).mpr ⟨listed,other,here⟩)
  · cases change with
    | same => exact tracked.acyclic
    | record caller callee method callerOk calleeOk _ present _ path =>
      have off : ∀ a b, a ≠ caller → s.wait caller (some callee) a = some b → s.Waits a b := by
        intro a b other waits
        simpa [other] using waits
      refine tracked.acyclic.redirect caller off ?_
      intro b waits
      obtain rfl : callee = b := by simpa using waits
      refine .inr fun back => tracked.no_path callerOk calleeOk present path ?_
      exact Reach.reach_of_first_arrival off back
    | forget caller callee method _ _ _ _ full => exact absurd room full
    | finish | exit =>
      exact tracked.acyclic.mono fun a b left => (waits_of_cleared left).2

theorem run_sound (ran : run step labels initial = some s) : Sound s :=
  run_invariant Sound (fun _ _ _ sound stepped => (step_change stepped).sound sound)
    labels _ _ initial_sound ran

/-- No run refuses a call whose callee does not wait for the caller; and the outstanding calls have no cycle if every
call finds room in the table. -/
theorem outstanding_calls_acyclic_with_room (ran : Transition.run step labels initial = some s) :
    (∀ caller callee method, (callBegin s.edges caller callee method).err ≠ none →
      ReflTransGen s.Waits callee caller) ∧
    (Transition.Meets step RoomLeft labels initial → Reach.Acyclic s.Waits) := by
  refine ⟨?_,?_⟩
  · intro caller callee method refused
    obtain ⟨text,err⟩ := ne_none_iff_exists'.mp refused
    exact (run_sound ran).refused err
  · intro meets
    exact (run_invariant_of_meets Tracked
      (fun _ _ _ tracked room stepped => (step_change stepped).tracked tracked room)
      labels _ _ meets initial_tracked ran).acyclic

/-- Actor 1 waits for 2 and 2 for 3; the call that would close the cycle is refused. -/
def chainCalls : List Label := [.callBegin 1 2 none,.callBegin 2 3 none]

theorem chainCalls_meets : Transition.Meets step RoomLeft chainCalls initial := by
  refine ⟨by simp [RoomLeft,maxCallEdges],fun next stepped => ⟨?_,fun _ _ => trivial⟩⟩
  obtain rfl : { initial with edges := [⟨1,2⟩], waiting := initial.wait 1 (some 2) } = next :=
    some.inj stepped
  simp [RoomLeft,maxCallEdges]

theorem chainCalls_acyclic : ∃ s, Transition.run step chainCalls initial = some s ∧
    (callBegin s.edges 3 1 (some "get")).err = some "actor call cycle detected on get()" ∧
    ReflTransGen s.Waits 1 3 ∧ Reach.Acyclic s.Waits :=
  have ran : run step chainCalls initial = some _ := rfl
  have both := outstanding_calls_acyclic_with_room ran
  ⟨_,rfl,by decide,both.1 3 1 none (by decide),both.2 chainCalls_meets⟩

/-- `n` actors, from 3 on, wait for actor 1. -/
def crowd (n : Nat) : State :=
  ⟨(List.range n).map fun i => ⟨i+3,1⟩,fun (a : Nat) => if 3 ≤ a ∧ a < n+3 then some 1 else none,
    fun _ => false⟩

theorem pathExists_idle (apart : start ≠ target) (idle : calleeOf edges start = none) :
    pathExists edges start target = false := by
  unfold pathExists
  cases edges.length <;> simp [apart,Reach.chase,idle]

theorem crowd_idle (n a : Nat) (few : a < 3) : calleeOf (crowd n).edges a = none := by
  simp only [calleeOf,crowd,map_eq_none_iff,find?_eq_none,List.mem_map,mem_range]
  rintro e ⟨i,_,rfl⟩
  simpa using Nat.ne_of_gt (Nat.lt_of_lt_of_le few (Nat.le_add_left 3 i))

theorem crowd_run (n : Nat) (room : n ≤ 1024) : run step ((range n).map fun i => .callBegin (i+3) 1 none) initial =
      some (crowd n) := by
  induction n with
  | zero =>
    have none : (fun (a : Nat) => if 3 ≤ a ∧ a < 0+3 then some 1 else none) =
        fun _ => (none : Option Actor) := by
      funext a
      exact if_neg (by omega)
    simp [crowd,none]
  | succ n ih =>
    rw [range_succ,map_append,run_append,ih (by omega)]
    have path : pathExists (crowd n).edges 1 (n+3) = false :=
      pathExists_idle (by simp) (crowd_idle n 1 (by omega))
    have begun : callBegin (crowd n).edges (n+3) 1 none =
        ⟨(crowd n).edges ++ [⟨n+3,1⟩],none⟩ := by
      have more : (crowd n).edges.length < maxCallEdges := by
        simp only [crowd,length_map,length_range,maxCallEdges]
        omega
      simp [callBegin,nil,path,more]
    have waits : (crowd n).wait (n+3) (some 1) = (crowd (n+1)).waiting := by
      funext (a : Nat)
      simp only [State.wait,crowd]
      by_cases here : a = n+3
      · rw [if_pos here,if_pos (by omega)]
      · rw [if_neg here]
        congr 1
        simp only [eq_iff_iff]
        omega
    simp only [map_cons,map_nil,run,bind_some,step,begun,waits]
    simp [crowd,nil,range_succ]

theorem step_full (caller callee : Actor) (method : Option String) (full : ¬s.edges.length < maxCallEdges) (callerOk : caller ≠ nil)
    (calleeOk : callee ≠ nil) (apart : caller ≠ callee) (present : s.exited caller = false)
    (free : s.waiting caller = none) (path : pathExists s.edges callee caller = false) :
    step (.callBegin caller callee method) s = some { s with waiting := s.wait caller (some callee) } := by
  have begun : callBegin s.edges caller callee method = ⟨s.edges,none⟩ := by
    simp [callBegin,callerOk,calleeOk,apart,path,full]
  simp only [step,begun,present,free,isSome_none,Bool.or_self,Bool.false_eq_true,
    ↓reduceIte,callerOk,calleeOk,ne_eq,not_false_eq_true,and_self]

theorem full_mutual_calls (full : ¬s.edges.length < maxCallEdges)
    (present : ∀ a, s.exited a = false) (free₁ : s.waiting 1 = none) (free₂ : s.waiting 2 = none)
    (idle₁ : calleeOf s.edges 1 = none) (idle₂ : calleeOf s.edges 2 = none) :
    ∃ s', run step [.callBegin 2 1 none,.callBegin 1 2 none] s = some s' ∧ s'.Waits 2 1 ∧ s'.Waits 1 2 := by
  have first := step_full (s := s) 2 1 none full (by decide) (by decide) (by decide) (present 2)
    free₂ (pathExists_idle (by decide) idle₁)
  have second := step_full (s := { s with waiting := s.wait 2 (some 1) }) 1 2 none full
    (by decide) (by decide) (by decide) (present 1) free₁ (pathExists_idle (by decide) idle₂)
  exact ⟨_,run_cons_some.mpr ⟨_,first,run_cons_some.mpr ⟨_,second,rfl⟩⟩,rfl,rfl⟩

/-- While 1024 actors wait for actor 1, actor 2 may call 1 and 1 may call 2. -/
theorem full_table_admits_cycle :
    ¬∀ labels s, Transition.run step labels initial = some s → Reach.Acyclic s.Waits ∧
      ∀ caller callee method, (callBegin s.edges caller callee method).err ≠ none →
        ReflTransGen s.Waits callee caller := by
  intro claim
  have full : ¬(crowd 1024).edges.length < maxCallEdges := by simp [crowd,maxCallEdges]
  obtain ⟨s,ran,two,one⟩ := full_mutual_calls full (fun _ => rfl) rfl rfl
    (crowd_idle 1024 1 (by decide)) (crowd_idle 1024 2 (by decide))
  have whole : run step ((range 1024).map (fun i => .callBegin (i+3) 1 none) ++
      [.callBegin 2 1 none,.callBegin 1 2 none]) initial = some s := by
    rw [run_append,crowd_run 1024 (by decide),bind_some,ran]
  exact (claim _ s whole).1 1 (.head one (.single two))

@[simp] def State.Recorded (s : State) (a b : Actor) : Prop := ⟨a,b⟩ ∈ s.edges

theorem Change.recorded_acyclic (sound : Sound s) (acyclic : Reach.Acyclic s.Recorded)
    (change : Change s label s') : Reach.Acyclic s'.Recorded := by
  cases change with
  | same | forget => exact acyclic
  | record caller callee method callerOk calleeOk _ _ free path =>
    -- The recorded calls by themselves are a state in which none is missing.
    have table : Tracked ⟨s.edges,calleeOf s.edges,fun _ => false⟩ := by
      refine ⟨⟨fun e => calleeOf_eq sound.once,sound.once,nofun,fun a b waits => ?_⟩,
        fun a b waits => .inr (calleeOf_mem waits),acyclic.mono fun a b => calleeOf_mem⟩
      exact sound.real a b (sound.recorded _ (calleeOf_mem waits))
    have off (a b : Actor) (other : a ≠ caller) (listed : ⟨a,b⟩ ∈ s.edges ++ [⟨caller,callee⟩]) : s.Recorded a b := by
      simpa [other] using listed
    refine acyclic.redirect caller off fun b new => .inr fun back => ?_
    obtain old | rfl : s.Recorded caller b ∨ b = callee := by simpa using new
    · exact sound.caller_absent free _ old rfl
    · refine table.no_path callerOk calleeOk rfl path ?_
      exact ReflTransGen.mono (fun a b => calleeOf_eq sound.once) _ _ (Reach.reach_of_first_arrival off back)
  | finish => exact acyclic.mono fun a b kept => (callEnd_mem sound.once kept).1
  | exit actor real => exact acyclic.mono fun a b kept => ((actorExit_mem real).mp kept).1

/-- Also after calls that found no room, the recorded calls are outstanding and have no cycle. -/
theorem recorded_calls_acyclic (ran : Transition.run step labels initial = some s) :
    (∀ a b, s.Recorded a b → s.Waits a b) ∧ Reach.Acyclic s.Recorded := by
  have kept (label : Label) (s s' : State) (inv : Sound s ∧ Reach.Acyclic s.Recorded)
      (stepped : step label s = some s') : Sound s' ∧ Reach.Acyclic s'.Recorded :=
    ⟨(step_change stepped).sound inv.1,(step_change stepped).recorded_acyclic inv.1 inv.2⟩
  have start : Sound initial ∧ Reach.Acyclic initial.Recorded :=
    ⟨initial_sound,initial_tracked.acyclic.mono fun a b => by simp⟩
  have inv := run_invariant _ kept labels _ _ start ran
  exact ⟨fun a b => inv.1.recorded ⟨a,b⟩,inv.2⟩

theorem chainCalls_recorded : ∃ s, Transition.run step chainCalls initial = some s ∧ Reach.Acyclic s.Recorded :=
  ⟨_,rfl,(@recorded_calls_acyclic chainCalls _ rfl).2⟩

end Objective9c.Dag
