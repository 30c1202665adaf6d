import Objective9c.Facade.Served

/-! What the slots of the session pool hold. A conversation is a small machine of its own: it begins with a
ready slot, and each of its commands writes into the slot, some at once and some when the authentication server
or the actor has answered. -/
namespace Objective9c.Facade

open List Option Transition

/-- What a client of the conversation sees. -/
structure Content where
  data : String
  status : String
  blessed : Bool
  authuser : String
  deriving DecidableEq

def Content.ready : Content := ⟨"","ready\n",false,""⟩

def Slot.content (slot : Slot) : Content := ⟨slot.data,slot.status,slot.blessed,slot.authuser⟩

/-- What a command comes to. -/
inductive Effect where
  | note (status : String)
  | answer (status data : String)
  | whoami (uid : String)
  | logout
  | login (user : String) (outcome : Bool × String)
  deriving DecidableEq

/-- The conversation's own machine. -/
def Content.apply (cfg : Config) (content : Content) : Effect → Content
  | .note status => { content with status := clip 256 status }
  | .answer status data => { content with status := clip 256 status, data := clip 4096 data }
  | .whoami uid =>
    let user := if content.blessed && content.authuser ≠ "" then content.authuser else uid
    let blessed := if content.blessed || (cfg.authRequired && uid ≠ "none") then "1" else "0"
    { content with
      status := clip 256 "ok\n"
      data := clip 4096 (clip 96 (clip 64 user ++ " " ++ blessed ++ "\n")) }
  | .logout => { content with blessed := false, authuser := "", status := "ok logout\n", data := "" }
  | .login user (true,_) =>
    ⟨clip 4096 (user ++ "\n"),clip 256 ("ok login " ++ user ++ "\n"),true,clip 64 user⟩
  | .login _ (false,err) =>
    ⟨"",clip 256 ("error: login failed: " ++ (if err ≠ "" then err else "auth failed") ++ "\n"),false,""⟩

/-- What a command line writes at once. -/
def Line.effect (uid : String) : Line → Option Effect
  | .view true => some (.note "ok\n")
  | .login [_,_] => none
  | .login _ => some (.answer "error: want login user password\n" "")
  | .logout => some .logout
  | .whoami => some (.whoami uid)
  | .new _ inst => some (.answer (clip 128 ("ok new " ++ inst ++ "\n")) (clip 128 ("ok new " ++ inst ++ "\n")))
  | .method (.arity name want got) =>
    some (.answer (clip 96 ("error: " ++ name ++ " takes " ++ toString want ++ " arg(s), got " ++
      toString got ++ "\n")) "")
  | .method (.unsupported name) =>
    some (.answer ("error: " ++ name ++ ": object arguments are not callable over ctl\n") "")
  | _ => none

def Reply.effect : Reply → Effect
  | .failed err => .answer (clip 256 ("error: " ++ err ++ "\n")) ""
  | .value text => .answer "ok\n" text
  | .unavailable => .answer "error: router unavailable\n" ""

/-- Something written into a slot, with the conversation its command was written in. -/
structure Write where
  slot : Nat
  conversation : Nat
  effect : Effect
  deriving DecidableEq

def written (s : State) : Op → Option Write
  | .write id line =>
    match s.fid? id with
    | some f =>
      match f.place with
      | .fixed (.inSlot i .ctl) => (line.effect f.uid).map (⟨i,s.conversation (some i),·⟩)
      | _ => none
    | none => none
  | .loggedIn req server err =>
    match s.waiting[req]?.join with
    | some (.login _ i user pass conversation) => some ⟨i,conversation,.login user (authLogin user pass server err)⟩
    | _ => none
  | .replied req reply =>
    match s.waiting[req]?.join with
    | some (.call _ (some i) conversation) => some ⟨i,conversation,reply.effect⟩
    | _ => none
  | _ => none

def writes (cfg : Config) : List Op → State → List Write
  | [], _ => []
  | op :: rest, s =>
    match step cfg op s with
    | some next => (written s op).toList ++ writes cfg rest next
    | none => []

def ownEffects (log : List Write) (i conversation : Nat) : List Effect :=
  (log.filter fun w => w.slot = i ∧ w.conversation = conversation).map Write.effect

/-- Every slot in use holds what the commands of its conversation have written, and nothing else. -/
def Isolated (cfg : Config) (ops : List Op) (s : State) : Prop := ∀ i slot, s.slots[i]? = some slot →
  slot.inuse = true →
  slot.content = (ownEffects (writes cfg ops initial) i slot.conversations).foldl (Content.apply cfg) .ready

def handedOut (cfg : Config) (s : State) : Op → Option Nat
  | .readClone _ _ => some (pickSlot cfg s.slots)
  | _ => none

/-- The slot and the conversation of a command that will still write. -/
def Waiting.writes : Waiting → Option (Nat × Nat)
  | .login _ i _ _ conversation => some (i,conversation)
  | .call _ (some i) conversation => some (i,conversation)
  | _ => none

/-- A slot is handed out only if no command is on its way to it. -/
def Quiet (cfg : Config) (op : Op) (s : State) : Prop := ∀ w i conversation, some w ∈ s.waiting →
  w.writes = some (i,conversation) → handedOut cfg s op ≠ some i

/-- How a slot goes on when `effect` is written into it. -/
def Slot.Follows (cfg : Config) (effect : Option Effect) (slot slot' : Slot) : Prop :=
  slot'.conversations = slot.conversations ∧ (slot'.inuse = true → slot.inuse = true ∧
    slot'.content = effect.elim slot.content (slot.content.apply cfg))

def effectOn (w : Option Write) (i : Nat) : Option Effect := w.bind fun w => if w.slot = i then some w.effect else none

structure Leads (cfg : Config) (s next : State) (w : Option Write) : Prop where
  length : next.slots.length = s.slots.length
  slots : ∀ (i : Nat) (slot' : Slot), next.slots[i]? = some slot' →
    ∃ slot : Slot, s.slots[i]? = some slot ∧ slot.Follows cfg (effectOn w i) slot'

section Steps

variable {cfg : Config} {s mid next : State} {id i : Nat} {f : Fid} {slot : Slot} {w : Option Write}

theorem Leads.same (slots : next.slots = s.slots) : Leads cfg s next none := by
  refine ⟨by rw [slots],fun i slot found => ?_⟩
  rw [slots] at found
  exact ⟨slot,found,rfl,fun used => ⟨used,rfl⟩⟩

theorem Leads.after (first : Leads cfg s mid none) (second : Leads cfg mid next w) : Leads cfg s next w := by
  refine ⟨second.length.trans first.length,fun i slot'' found => ?_⟩
  obtain ⟨slot',found,conversations,used⟩ := second.slots i slot'' found
  obtain ⟨slot,found,conversations',used'⟩ := first.slots i slot' found
  refine ⟨slot,found,conversations.trans conversations',fun inuse => ?_⟩
  obtain ⟨inuse,content⟩ := used inuse
  obtain ⟨inuse,content'⟩ := used' inuse
  rw [content'] at content
  exact ⟨inuse,content⟩

theorem Leads.modify (slots : next.slots = s.slots.modify i change)
    (mine : ∀ slot, s.slots[i]? = some slot → slot.Follows cfg (effectOn w i) (change slot))
    (others : ∀ j, i ≠ j → effectOn w j = none) : Leads cfg s next w := by
  refine ⟨by rw [slots,length_modify],fun j slot' found => ?_⟩
  rw [slots,getElem?_modify] at found
  cases there : s.slots[j]? with
  | none => simp [there] at found
  | some slot =>
    refine ⟨slot,rfl,?_⟩
    by_cases here : i = j
    · subst here
      simp only [there,if_true,Option.map_eq_map,Option.map_some,Option.some.injEq] at found
      subst found
      exact mine slot there
    · simp only [there,here,if_false,Option.map_eq_map,Option.map_some,Option.some.injEq] at found
      subst found
      rw [others j here]
      exact ⟨rfl,fun used => ⟨used,rfl⟩⟩

theorem Leads.write (conversation : Nat) (effect : Effect) (change : Slot → Slot)
    (slots : next.slots = s.slots.modify i change)
    (follows : ∀ slot, s.slots[i]? = some slot → slot.Follows cfg (some effect) (change slot)) :
    Leads cfg s next (some ⟨i,conversation,effect⟩) :=
  .modify slots (by simpa [effectOn] using follows) fun j other => by simp [effectOn,other]

theorem closeSession_leads (s : State) (i : Nat) : Leads cfg s (closeSession cfg s i) none :=
  .modify (closeSession_slots s cfg i) (fun _ _ => ⟨rfl,fun used => nomatch used⟩) fun _ _ => rfl

theorem sessionStarted_leads : Leads cfg s (sessionStarted s i) none :=
  .modify (sessionStarted_slots s i) (fun _ _ => ⟨rfl,fun used => ⟨used,rfl⟩⟩) fun _ _ => rfl

theorem addRef_leads (s : State) (file : File) (delta : Int) : Leads cfg s (s.addRef file delta) none := by
  unfold State.addRef
  split
  · exact .modify rfl (fun _ _ => ⟨rfl,fun used => ⟨used,rfl⟩⟩) fun _ _ => rfl
  · exact .same rfl

theorem answer_leads (s : State) (i conversation : Nat) (status data : String) :
    Leads cfg s (answer s (some i) status data) (some ⟨i,conversation,.answer status data⟩) :=
  .write conversation _ _ (answer_slots_some s i status data) fun _ _ => ⟨rfl,fun used => ⟨used,rfl⟩⟩

theorem loggedIn_content (slot : Slot) :
    slot.Follows cfg (some (.login user outcome)) (slot.loggedIn user outcome) := by
  obtain ⟨accepted,err⟩ := outcome
  cases accepted with
  | true | false => exact ⟨rfl,fun used => ⟨used,rfl⟩⟩

theorem whoami_content (found : s.slots[i]? = some slot) :
    slot.content.apply cfg (.whoami f.uid) = { slot.content with
      status := clip 256 "ok\n"
      data := clip 4096 (clip 96 (clip 64 (reqUser s f (some i)) ++ " " ++
        (if reqBlessed cfg s f (some i) then "1" else "0") ++ "\n")) } := by
  simp only [Content.apply,reqUser,reqBlessed,bind_some,found,any_some,Slot.content]
  rfl

theorem command_leads {line : Line} (done : command cfg s id f (some i) line = .ok next) :
    Leads cfg s next ((line.effect f.uid).map (⟨i,conversation,·⟩)) := by
  revert done
  generalize here : some i = session
  fun_cases command cfg s id f session line <;> rintro ⟨⟩ <;> cases here
  case case2 v _ =>
    have shut : Leads cfg s (s.deactivate v) none := .same (by simp)
    exact shut.after (.write conversation (.note "ok\n") _ rfl fun _ _ => ⟨rfl,fun used => ⟨used,rfl⟩⟩)
  case case4 => exact closeSession_leads s i
  case case8 | case18 => exact .same rfl
  case case9 args _ other =>
    -- only a line of two arguments goes on to the authentication server
    obtain _ | ⟨user,_ | ⟨pass,_ | ⟨extra,more⟩⟩⟩ := args
    case cons.cons.nil => exact absurd rfl (other user pass)
    all_goals exact answer_leads s i conversation _ _
  case case11 => exact .write conversation .logout _ rfl fun _ _ => ⟨rfl,fun used => ⟨used,rfl⟩⟩
  case case12 =>
    refine .write conversation (.whoami f.uid) _ (answer_slots_some s i _ _) fun slot found => ⟨rfl,fun used => ⟨used,?_⟩⟩
    exact (whoami_content found).symm
  all_goals exact answer_leads s i conversation _ _

theorem rootCommand_leads (commanded : Commanded cfg s id f none next) : Leads cfg s next none := by
  cases commanded with
  | viewClosed => exact .same (by simp [putStatus])
  | closed named => cases named
  | nothing | called => exact .same rfl
  | login single named => cases named
  | logout named => cases named
  | answered => exact .same (answer_slots_none s _ _)

/-- What a step does to the slots: it writes what `written` says, and may hand one out. -/
structure Moves (cfg : Config) (s next : State) (w : Option Write) (handed : Option Nat) : Prop where
  grows : s.slots.length ≤ next.slots.length
  slots : ∀ (i : Nat) (slot' : Slot), next.slots[i]? = some slot' →
    (∃ slot : Slot, s.slots[i]? = some slot ∧ slot.Follows cfg (effectOn w i) slot') ∨
    handed = some i ∧ slot'.conversations = s.conversation (some i) + 1 ∧
      (slot'.inuse = true → slot'.content = .ready)

theorem Leads.moves (leads : Leads cfg s next w) : Moves cfg s next w none :=
  ⟨Nat.le_of_eq leads.length.symm,fun i slot' found => .inl (leads.slots i slot' found)⟩

theorem conversation_of_found (found : s.slots[i]? = some slot) : s.conversation (some i) = slot.conversations := by
  simp [found]

theorem allocSession_moves (allocated : allocSession cfg s owner = .ok next) :
    Moves cfg s next none (some (pickSlot cfg s.slots)) := by
  obtain ⟨_,grown,_⟩ := allocSession_frame s cfg owner allocated
  unfold allocSession at allocated
  split at allocated
  · cases allocated
  · cases allocated
    refine ⟨grown,fun i slot' found => ?_⟩
    rw [getElem?_modify] at found
    by_cases here : pickSlot cfg s.slots = i
    · refine .inr ⟨by rw [here],?_⟩
      simp only [here,if_true,Option.map_eq_map,Option.map_eq_some_iff] at found
      obtain ⟨slot,found,rfl⟩ := found
      refine ⟨?_,fun _ => rfl⟩
      have same : s.conversation (some i) = slot.conversations := by
        split at found
        · exact conversation_of_found found
        next beyond =>
          rw [← here] at found ⊢
          have last : pickSlot cfg s.slots = s.slots.length :=
            Nat.le_antisymm findIdx_le_length (Nat.not_lt.mp (by rw [here]; exact beyond))
          rw [last,getElem?_concat_length] at found
          cases found
          simp [last,Slot.blank]
      rw [same]
      rfl
    · left
      simp only [here,if_false,Option.map_eq_map,Option.map_id'] at found
      refine ⟨slot',?_,rfl,fun used => ⟨used,rfl⟩⟩
      split at found
      · exact found
      next beyond =>
        have last : pickSlot cfg s.slots = s.slots.length :=
          Nat.le_antisymm findIdx_le_length (Nat.not_lt.mp beyond)
        have bound := (List.getElem?_eq_some_iff.mp found).1
        simp only [length_append,length_singleton] at bound
        rwa [getElem?_append_left (by omega)] at found

/-- The slot is handed out and then closed, or only waits for its view. -/
theorem Moves.after (first : Moves cfg s mid none handed) (second : Leads cfg mid next none) :
    Moves cfg s next none handed := by
  refine ⟨Nat.le_trans first.grows (Nat.le_of_eq second.length.symm),fun i slot'' found => ?_⟩
  obtain ⟨slot',found,conversations,used⟩ := second.slots i slot'' found
  rcases first.slots i slot' found with ⟨slot,found,conversations',used'⟩ | ⟨here,conversations',ready⟩
  · refine .inl ⟨slot,found,conversations.trans conversations',fun inuse => ?_⟩
    obtain ⟨inuse,content⟩ := used inuse
    obtain ⟨inuse,content'⟩ := used' inuse
    exact ⟨inuse,Eq.trans content content'⟩
  · refine .inr ⟨here,conversations.trans conversations',fun inuse => ?_⟩
    obtain ⟨inuse,content⟩ := used inuse
    exact Eq.trans content (ready inuse)

theorem step_moves (stepped : step cfg op s = some next) : Moves cfg s next (written s op) (handedOut cfg s op) := by
  have finished (req : Nat) : Leads cfg s (s.finish req) none := .same rfl
  cases step_stepped stepped with
  | attach =>
    refine Leads.moves (.same ?_)
    unfold attach
    split <;> rfl
  | clone => exact Leads.moves (.same (by simp))
  | walk found shut walked =>
    refine Leads.moves (.same ?_)
    cases walked with
    | move => simp
    | _ => rfl
  | openFile =>
    exact Leads.moves ((addRef_leads s _ 1).after (.same rfl))
  | openDir | openTree | openFreed | attached => exact Leads.moves (.same rfl)
  | handed found single allocated => exact allocSession_moves allocated
  | starting found multi allocated => exact (allocSession_moves allocated).after (.same rfl)
  | refused found multi allocated => exact (allocSession_moves allocated).after (closeSession_leads _ _)
  | write found opened allowed ctl done =>
    refine Leads.moves ?_
    rcases ctl with ⟨place,rfl⟩ | ⟨place,rfl⟩
    · simp only [written,found,place]
      exact command_leads done
    · simp only [written,found,place]
      exact rootCommand_leads (command_commanded done)
  | started => exact ((finished _).after (sessionStarted_leads)).moves
  | notStarted => exact ((finished _).after (closeSession_leads _ _)).moves
  | notAttached => exact (finished _).moves
  | loggedIn waits =>
    simp only [written,waits]
    exact Leads.moves (.write _ _ _ rfl fun slot _ => loggedIn_content slot)
  | @replied req reply session status data n conversation waits done =>
    refine Leads.moves ?_
    simp only [written,waits]
    cases session with
    | none => exact (finished _).after (.same (answer_slots_none _ _ _))
    | some i =>
      simp only [replied,waits] at done
      cases reply <;> injection done with same <;> rw [← same]
      all_goals exact (finished _).after (answer_leads _ i conversation _ _)
  | @destroy n f =>
    have closing : Leads cfg s (s.closeFid f) none := by
      unfold State.closeFid
      split
      · exact addRef_leads s _ _
      · exact .same rfl
    exact (closing.after (.same (by simp))).moves

theorem Moves.conversation (moves : Moves cfg s next w handed) (other : handed ≠ some i) :
    next.conversation (some i) = s.conversation (some i) := by
  cases found : next.slots[i]? with
  | some slot' =>
    rcases moves.slots i slot' found with ⟨slot,there,same,_⟩ | ⟨here,_⟩
    · rw [conversation_of_found found,conversation_of_found there,same]
    · exact absurd here other
  | none =>
    have beyond := getElem?_eq_none_iff.mp found
    have before : s.slots[i]? = none := getElem?_eq_none_iff.mpr (Nat.le_trans moves.grows beyond)
    simp [found,before]

theorem Moves.conversation_le (moves : Moves cfg s next w handed) (i : Nat) :
    s.conversation (some i) ≤ next.conversation (some i) := by
  by_cases here : handed = some i
  · cases found : next.slots[i]? with
    | some slot' =>
      rcases moves.slots i slot' found with ⟨slot,there,same,_⟩ | ⟨_,more,_⟩
      · exact Nat.le_of_eq (by rw [conversation_of_found found,conversation_of_found there,same])
      · rw [conversation_of_found found,more]
        exact Nat.le_succ _
    | none =>
      have beyond := getElem?_eq_none_iff.mp found
      have before : s.slots[i]? = none := getElem?_eq_none_iff.mpr (Nat.le_trans moves.grows beyond)
      simp [before]
  · exact Nat.le_of_eq (moves.conversation here).symm

theorem step_waiting (stepped : step cfg op s = some next) (member : some pending ∈ next.waiting)
    (aims : pending.writes = some (i,conversation)) :
    some pending ∈ s.waiting ∨ conversation = s.conversation (some i) ∧ handedOut cfg s op = none := by
  have old (t : State) (same : t.waiting = s.waiting) (member : some pending ∈ t.waiting) : some pending ∈ s.waiting := by
    rwa [same] at member
  have rest (req : Nat) (t : State) (same : t.waiting = (s.finish req).waiting) (member : some pending ∈ t.waiting) :
      some pending ∈ s.waiting := by
    rw [same] at member
    rcases mem_or_eq_of_mem_set member with old | new
    · exact old
    · cases new
  have added (t : State) (w' : Waiting) (same : t.waiting = s.waiting) (member : some pending ∈ (t.wait w').waiting) :
      some pending ∈ s.waiting ∨ pending = w' := by
    rcases mem_append.mp member with old | new
    · rw [same] at old
      exact .inl old
    · exact .inr (some.inj (mem_singleton.mp new))
  have allocate (owner : String) (mid : State) (allocated : allocSession cfg s owner = .ok mid) :
      mid.waiting = s.waiting := by
    rw [(allocSession_frame s cfg owner allocated).1]
  cases step_stepped stepped with
  | attach =>
    unfold attach at member
    split at member
    · exact .inl (old _ rfl member)
    · rcases added _ _ rfl member with old | rfl
      · exact .inl old
      · cases aims
  | clone => exact .inl (old _ (by simp) member)
  | walk found shut walked =>
    refine .inl (old _ ?_ member)
    cases walked with
    | move => simp
    | _ => rfl
  | openFile => exact .inl (old _ (by simp) member)
  | openDir | openTree | openFreed => exact .inl (old _ rfl member)
  | handed found single allocated => exact .inl (old _ (allocate _ _ allocated) member)
  | starting found multi allocated =>
    rcases added _ _ (allocate _ _ allocated) member with old | rfl
    · exact .inl old
    · cases aims
  | refused found multi allocated => exact .inl (old _ (by simp [allocate _ _ allocated]) member)
  | write found opened allowed ctl done =>
    cases command_commanded done with
    | viewClosed | closed | answered => exact .inl (old _ (by simp) member)
    | nothing => exact .inl member
    | login single named =>
      rcases added _ _ rfl member with old | rfl
      · exact .inl old
      · cases aims
        exact .inr ⟨by rw [named],rfl⟩
    | logout => exact .inl (old _ rfl member)
    | @called =>
      rcases added _ _ rfl member with old | rfl
      · exact .inl old
      · rcases ctl with ⟨_,rfl⟩ | ⟨_,rfl⟩
        · cases aims
          exact .inr ⟨rfl,rfl⟩
        · cases aims
  | started => exact .inl (rest _ _ (sessionStarted_frame _).2.1 member)
  | notStarted => exact .inl (rest _ _ (closeSession_frame _ _).2.1 member)
  | attached | notAttached | loggedIn => exact .inl (rest _ _ rfl member)
  | replied => exact .inl (rest _ _ (answer_frame _).2.1 member)
  | destroy => exact .inl (old _ (by simp) member)

/-- The slots hold what the log says, the log speaks of no conversation to come, and the commands on their way are of
the conversations that the slots are in. -/
structure Trace (cfg : Config) (log : List Write) (s : State) : Prop where
  contents : ∀ (i : Nat) (slot : Slot), s.slots[i]? = some slot → slot.inuse = true →
    slot.content = (ownEffects log i slot.conversations).foldl (Content.apply cfg) .ready
  past : ∀ w ∈ log, w.conversation ≤ s.conversation (some w.slot)
  waiting : ∀ (w : Waiting) (i conversation : Nat), some w ∈ s.waiting → w.writes = some (i,conversation) →
    conversation = s.conversation (some i)

theorem Trace.written_current {w : Write} (trace : Trace cfg log s) (op : Op) (wrote : written s op = some w) :
    w.conversation = s.conversation (some w.slot) := by
  have waiting (req : Nat) (pending : Waiting) (found : s.waiting[req]?.join = some pending) : some pending ∈ s.waiting := by
    rw [join_eq_some_iff] at found
    exact mem_of_getElem? found
  revert wrote
  fun_cases written s op <;> try rintro ⟨⟩
  case case1 =>
    intro wrote
    obtain ⟨effect,_,rfl⟩ := map_eq_some_iff.mp wrote
    rfl
  case case4 found | case6 found => exact trace.waiting _ _ _ (waiting _ _ found) rfl

theorem ownEffects_append (log later : List Write) (i conversation : Nat) :
    ownEffects (log ++ later) i conversation = ownEffects log i conversation ++ ownEffects later i conversation := by
  simp [ownEffects]

theorem ownEffects_written (trace : Trace cfg log s) (op : Op) (found : s.slots[i]? = some slot) :
    ownEffects (written s op).toList i slot.conversations = (effectOn (written s op) i).toList := by
  cases wrote : written s op with
  | none => rfl
  | some w =>
    have current := trace.written_current op wrote
    by_cases here : w.slot = i
    · rw [here,conversation_of_found found] at current
      simp [ownEffects,effectOn,here,current]
    · simp [ownEffects,effectOn,here]

theorem Trace.step (trace : Trace cfg log s) (quiet : Quiet cfg op s) (stepped : step cfg op s = some next) :
    Trace cfg (log ++ (written s op).toList) next := by
  have moves := step_moves stepped
  refine ⟨fun i slot' found used => ?_,fun w member => ?_,fun pending i conversation member aims => ?_⟩
  · rcases moves.slots i slot' found with ⟨slot,there,conversations,follows⟩ | ⟨here,conversations,ready⟩
    · obtain ⟨inuse,content⟩ := follows used
      rw [conversations,ownEffects_append,ownEffects_written trace op there,foldl_append,
        ← trace.contents i slot there inuse,content]
      cases effectOn (written s op) i <;> rfl
    · -- nothing has been written in a conversation that only begins
      have none' : written s op = none := by
        cases op with
        | readClone => rfl
        | _ => cases here
      have empty : ownEffects log i slot'.conversations = [] := by
        unfold ownEffects
        rw [map_eq_nil_iff,filter_eq_nil_iff]
        intro w member same
        have earlier := trace.past w member
        obtain ⟨rfl,same⟩ : w.slot = i ∧ w.conversation = slot'.conversations := by simpa using same
        omega
      rw [none',toList_none,append_nil,empty,ready used]
      rfl
  · refine Nat.le_trans ?_ (moves.conversation_le w.slot)
    rcases mem_append.mp member with old | new
    · exact trace.past w old
    · exact Nat.le_of_eq (trace.written_current op (mem_toList.mp new))
  · rcases step_waiting stepped member aims with old | ⟨current,nothing⟩
    · rw [moves.conversation (quiet pending i conversation old aims)]
      exact trace.waiting pending i conversation old aims
    · rw [moves.conversation (by rw [nothing]; exact fun h => nomatch h)]
      exact current

theorem writes_concat (ops : List Op) (op : Op) (start : State) (ran : run (Facade.step cfg) ops start = some s)
    (stepped : Facade.step cfg op s = some next) :
    writes cfg (ops ++ [op]) start = writes cfg ops start ++ (written s op).toList := by
  induction ops generalizing start with
  | nil =>
    cases ran
    simp [writes,stepped]
  | cons first rest ih =>
    obtain ⟨mid,begun,ran⟩ := run_cons_some.mp ran
    simp only [cons_append,writes,begun,ih mid ran,append_assoc]

/-- Two conversations, one after the other, in the slot 0; the login of the first is answered
before it is closed. -/
def inTurn : List Op :=
  [.attach "none" false,.clone 0,.walk 1 [.clone] true none,.open 1 true true,.readClone 1 true,
    .clone 0,.walk 2 [.number 0] true none,.walk 2 [.ctl] true none,.open 2 false true,
    .write 2 (.login ["glenda","secret"]),.loggedIn 0 true "",.write 2 .close,.readClone 1 true,.write 2 (.method .call),
    .replied 1 (.value "42")]

/-- The first conversation is closed while its login is still on its way, and the slot is handed
out again before the answer comes. -/
def overtakenLogin : List Op :=
  [.attach "none" false,.clone 0,.walk 1 [.clone] true none,.open 1 true true,.readClone 1 true,
    .clone 0,.walk 2 [.number 0] true none,.walk 2 [.ctl] true none,.open 2 false true,
    .write 2 (.login ["glenda","secret"]),.write 2 .close,.readClone 1 true,.loggedIn 0 true ""]

end Steps

end Objective9c.Facade
