import Objective9c.Grid.Tasks

/-! What keeps a result once it is there, and a task until it has one. A result file is only
filled by the process that made it, unless a sweep retires a task whose result was made after
the sweep had looked for it. -/
namespace Objective9c.Grid

open Text Option Transition AList

/-- The task whose result file a process has open, or is about to remove again. -/
def Proc.owns : Proc → Option Id
  | .worker (.writing id _ _) => some id
  | .worker (.dropResult id) => some id
  | .sweep (.printingResult _ id _ _ _) => some id
  | _ => none

/-- Every way a step can treat `results`. -/
inductive Touch (t : Tree) : Act → Proc → Tree → Proc → Prop
  | leave (same : t'.results = t.results) (before : p.owns = none) (after : p'.owns = none) :
      Touch t a p t' p'
  | make (id : Id) (text : Bytes) (absent : id ∉ t.results)
      (made : t'.results = t.results.insert id ⟨t.qids,[]⟩)
      (next : w = .writing id text t.qids ∨ w = .dropResult id) :
      Touch t (.create true) (.worker (.creating id text)) t' (.worker w)
  | fill (id : Id) (text : Bytes) (qid count : Nat) (closed : Bool)
      (filled : t'.results = writeFile t.results id qid 0 (text.take count))
      (whole : count = text.length ∧ closed = true) :
      Touch t (.write count closed) (.worker (.writing id text qid)) t' (.worker (.finishTask id))
  | fail (id : Id) (text : Bytes) (qid count : Nat) (closed : Bool)
      (filled : t'.results = writeFile t.results id qid 0 (text.take count))
      (short : ¬(count = text.length ∧ closed = true)) :
      Touch t (.write count closed) (.worker (.writing id text qid)) t' (.worker (.dropResult id))
  | drop (id : Id) (ok : Bool)
      (dropped : t'.results = if ok then t.results.erase id else t.results) :
      Touch t (.remove ok) (.worker (.dropResult id)) t' (.worker (.dropLock id))
  | retire (round : Round) (id : Id) (text : Bytes)
      (made : t'.results = (createFile t.results t.qids id).1) :
      Touch t (.create true) (.sweep (.retiring round id text)) t'
        (.sweep (.printingResult round id (createFile t.results t.qids id).2 0 [resultHeader,text]))
  | print (round : Round) (id : Id) (qid offset count : Nat) (text : Bytes) (more : List Bytes)
      (printed : t'.results = writeFile t.results id qid offset (text.take count)) (left : more ≠ []) :
      Touch t (.print count) (.sweep (.printingResult round id qid offset (text :: more))) t'
        (.sweep (.printingResult round id qid (printNext offset count text) more))
  | finish (round : Round) (id : Id) (qid offset count : Nat) (text : Bytes)
      (printed : t'.results = writeFile t.results id qid offset (text.take count)) :
      Touch t (.print count) (.sweep (.printingResult round id qid offset [text])) t'
        (.sweep (.dropPending round id))

variable {s s' : State} {t t' : Tree}

@[simp] theorem removeClaimFile_results (t : Tree) (id : Id) : (removeClaimFile t id).results = t.results := by
  unfold removeClaimFile
  split <;> rfl

@[simp] theorem refresh_results (t : Tree) (id : Id) : (refresh t id).results = t.results := by
  unfold refresh
  split <;> rfl

@[simp] theorem removeClaimDir_results (t : Tree) (id : Id) : (removeClaimDir t id).results = t.results := by
  unfold removeClaimDir
  split <;> rfl

theorem workerStep_touch (stepped : workerStep a t w = some (t',w')) : Touch t a (.worker w) t' (.worker w') := by
  revert stepped
  fun_cases workerStep a t w <;> rintro ⟨⟩
  -- All but the calls on the result file leave it.
  all_goals try exact .leave rfl rfl rfl
  all_goals try exact .leave (refresh_results ..) rfl rfl
  all_goals try exact .leave (by split <;> simp) rfl rfl
  · rename_i id text ok possible
    obtain ⟨rfl,absent⟩ := possible
    refine .make id text absent rfl ?_
    split
    · exact .inr rfl
    · exact .inl rfl
  · rename_i id text qid count closed bound
    split
    next whole => exact .fill id text qid count closed rfl whole
    next short => exact .fail id text qid count closed rfl short
  · rename_i id ok
    exact .drop id ok (by split <;> rfl)

theorem judgeStale_owns {round : Round} {id : Id} :
    (Proc.sweep (judgeStale round id data)).owns = none := by
  fun_cases judgeStale round id data <;> rfl

theorem sweepStep_touch (stepped : sweepStep a t sweep = some (t',sweep')) :
    Touch t a (.sweep sweep) t' (.sweep sweep') := by
  revert stepped
  fun_cases sweepStep a t sweep <;> rintro ⟨⟩
  all_goals try exact .leave rfl rfl rfl
  all_goals try exact .leave (by split <;> simp) rfl rfl
  · exact .leave rfl rfl (judgeStale_owns)
  · exact .retire _ _ _ rfl
  · rename_i round id qid offset count text more
    split
    next last =>
      subst last
      exact .finish round id qid offset count text rfl
    next left => exact .print round id qid offset count text more rfl left
  · refine .leave rfl rfl ?_
    split <;> rfl

/-- The loop a call of a process belongs to. -/
inductive Ran (a : Act) (t t' : Tree) : Proc → Proc → Prop
  | worker (moved : workerStep a t w = some (t',w')) : Ran a t t' (.worker w) (.worker w')
  | sweep (moved : sweepStep a t w = some (t',w')) : Ran a t t' (.sweep w) (.sweep w')
  | orphan (id : Id) (beats : a = .beat) (same : t' = refresh t id) : Ran a t t' (.orphan id) (.orphan id)

theorem procStep_ran (stepped : procStep a t p = some (t',p')) : Ran a t t' p p' := by
  cases p with
  | dead => contradiction
  | orphan id =>
    rw [procStep] at stepped
    split at stepped
    next beats =>
      cases stepped
      exact .orphan id beats rfl
    next => contradiction
  | _ =>
    obtain ⟨_,moved,same⟩ := map_eq_some_iff.mp stepped
    cases same
    constructor
    exact moved

theorem procStep_touch (stepped : procStep a t p = some (t',p')) : Touch t a p t' p' := by
  cases procStep_ran stepped with
  | worker moved => exact workerStep_touch moved
  | sweep moved => exact sweepStep_touch moved
  | orphan id _ same =>
    subst same
    exact .leave (refresh_results t id) rfl rfl

@[simp] theorem crash_owns (p : Proc) : p.crash.owns = none := by fun_cases Proc.crash p <;> rfl

/-- How a step of the whole grid comes about. -/
inductive Moved (s : State) : Label → State → Prop
  | publish (id : Id) (data : Bytes) (absent : id ∉ s.tree.pending) :
      Moved s (.publish id data)
        { s with tree := { s.tree with
            pending := s.tree.pending.insert id ⟨s.tree.qids,data⟩, qids := s.tree.qids + 1 } }
  | crash (p : Nat) : Moved s (.act p .crash) { s with procs := s.setProc p (s.procs p).crash }
  | proc (p : Nat) (a : Act) (t : Tree) (next : Proc) (stepped : procStep a s.tree (s.procs p) = some (t,next)) :
      Moved s (.act p a) ⟨t,s.setProc p next⟩

theorem step_moved (stepped : step l s = some s') : Moved s l s' := by
  revert stepped
  fun_cases step l s
  all_goals intro stepped
  · contradiction
  · cases stepped
    exact .publish _ _ (by assumption)
  · contradiction
  · cases stepped
    exact .crash _
  · obtain ⟨⟨t,next⟩,moved,rfl⟩ := map_eq_some_iff.mp stepped
    exact .proc _ _ t next moved

@[simp] theorem setProc_self (s : State) (p : Nat) (proc : Proc) : s.setProc p proc p = proc := by
  simp [State.setProc]

theorem setProc_of_ne (s : State) (proc : Proc) (apart : q ≠ p) : s.setProc p proc q = s.procs q := by
  simp [State.setProc,apart]

/-- A result file in the making: empty before the heading, at most the heading before the row. -/
def Begun (texts : List Bytes) (offset : Nat) (data : Bytes) : Prop :=
  (∃ text, texts = [resultHeader,text] ∧ offset = 0 ∧ data = []) ∨
  (∃ text, texts = [text] ∧ data.length ≤ resultHeader.length)

/-- The result file a process is busy with, as it left it. -/
def Fits (t : Tree) : Proc → Prop
  | .worker (.writing id _ qid) => t.results.lookup id = some ⟨qid,[]⟩
  | .worker (.dropResult id) => ∃ file, t.results.lookup id = some file ∧ isResult id file.data = false
  | .sweep (.printingResult _ id qid offset texts) =>
    ∃ data, t.results.lookup id = some ⟨qid,data⟩ ∧ Begun texts offset data
  | _ => True

/-- Each process finds its result file as it left it, and no two are busy with one result. -/
structure Busy (s : State) : Prop where
  fits : ∀ p, Fits s.tree (s.procs p)
  alone : ∀ p q id, (s.procs p).owns = some id → (s.procs q).owns = some id → p = q

theorem Begun.short (begun : Begun texts offset data) : data.length ≤ resultHeader.length := by
  rcases begun with ⟨_,_,_,rfl⟩ | ⟨_,_,short⟩
  · exact Nat.zero_le _
  · exact short

theorem fits_of_owns_none (t : Tree) (none : p.owns = none) : Fits t p := by
  fun_cases Proc.owns p
  all_goals try contradiction
  rename_i writing dropping printing
  fun_cases Fits t p
  · exact absurd rfl (writing _ _ _)
  · exact absurd rfl (dropping _)
  · exact absurd rfl (printing _ _ _ _ _)
  · trivial

theorem Fits.present {id : Id} (fits : Fits t p) (owns : p.owns = some id) :
    ∃ file, t.results.lookup id = some file ∧ isResult id file.data = false := by
  revert owns
  fun_cases Proc.owns p <;> intro owns <;> cases owns
  · exact ⟨_,fits,isResult_of_short (Nat.zero_le _)⟩
  · exact fits
  · obtain ⟨data,found,begun⟩ := fits
    exact ⟨_,found,isResult_of_short begun.short⟩

theorem Fits.congr (fits : Fits t p)
    (same : ∀ id, p.owns = some id → t'.results.lookup id = t.results.lookup id) : Fits t' p := by
  cases owned : p.owns with
  | none => exact fits_of_owns_none t' owned
  | some id =>
    have here := same id owned
    revert owned fits
    fun_cases Proc.owns p <;> intro fits owned <;> cases owned
    · exact here.trans fits
    · obtain ⟨file,found,rest⟩ := fits
      exact ⟨file,here.trans found,rest⟩
    · obtain ⟨data,found,rest⟩ := fits
      exact ⟨data,here.trans found,rest⟩

theorem Busy.change (busy : Busy s) (same : ∀ q, q ≠ p → ∀ id, (s.procs q).owns = some id →
      t.results.lookup id = s.tree.results.lookup id) (fits : Fits t next)
    (alone : ∀ q, q ≠ p → ∀ id, next.owns = some id → (s.procs q).owns ≠ some id) : Busy ⟨t,s.setProc p next⟩ := by
  constructor
  · intro q
    by_cases here : q = p
    · subst here
      simpa using fits
    · dsimp only
      rw [setProc_of_ne s next here]
      exact (busy.fits q).congr (same q here)
  · intro q r id first second
    dsimp only at first second
    by_cases hq : q = p <;> by_cases hr : r = p
    · rw [hq,hr]
    · subst hq
      rw [setProc_self] at first
      rw [setProc_of_ne s next hr] at second
      exact absurd second (alone r hr id first)
    · subst hr
      rw [setProc_self] at second
      rw [setProc_of_ne s next hq] at first
      exact absurd first (alone q hq id second)
    · rw [setProc_of_ne s next hq] at first
      rw [setProc_of_ne s next hr] at second
      exact busy.alone q r id first second

/-- A sweep retires a task only while there is no result file, and a write that fails, or whose
close fails, has not left a whole result. -/
def writesOnce : Label → State → Bool
  | .publish _ _, _ => true
  | .act p a, s =>
    match s.procs p, a with
    | .sweep (.retiring _ id _), .create true => id ∉ s.tree.results
    | .worker (.writing id text _), .write count closed =>
      (count == text.length && closed) || !isResult id (text.take count)
    | _, _ => true

theorem mem_results_of_finished {id : Id} (finished : t.finished id = true) : id ∈ t.results := by
  obtain ⟨file,found,_⟩ := (any_eq_true _ _).mp finished
  exact lookup_isSome.mp (by rw [found]; rfl)

theorem writeFile_elsewhere {dir : Dir File} {text : Bytes} {id : Id}
    (apart : other ≠ id) : (writeFile dir id qid offset text).lookup other = dir.lookup other := by
  fun_cases writeFile dir id qid offset text
  · exact lookup_insert_ne apart
  · rfl
  · rfl

theorem mem_writeFile {id : Id} : other ∈ writeFile dir id qid offset text ↔ other ∈ dir := by
  fun_cases writeFile dir id qid offset text
  next file found _ =>
    rw [mem_insert]
    refine ⟨?_,.inr⟩
    rintro (rfl | member)
    · exact lookup_isSome.mp (by rw [found]; rfl)
    · exact member
  next => rfl
  next => rfl

theorem writeFile_self {dir : Dir File} {id : Id} {text : Bytes}
    (found : dir.lookup id = some ⟨qid,data⟩) :
    (writeFile dir id qid offset text).lookup id = some ⟨qid,overwrite data offset text⟩ := by
  unfold writeFile
  rw [found]
  simp

theorem createFile_absent {dir : Dir File} {id : Id} (absent : id ∉ dir) :
    createFile dir fresh id = (dir.insert id ⟨fresh,[]⟩,fresh) := by
  unfold createFile
  rw [lookup_eq_none.mpr absent]

theorem Busy.free (busy : Busy s) {id : Id} (absent : id ∉ s.tree.results) (q : Nat) :
    (s.procs q).owns ≠ some id := by
  intro owns
  obtain ⟨file,found,_⟩ := (busy.fits q).present owns
  rw [lookup_eq_none.mpr absent] at found
  contradiction

theorem Busy.not_finished (busy : Busy s) {id : Id} (owns : (s.procs q).owns = some id) :
    s.tree.finished id = false := by
  obtain ⟨file,found,part⟩ := (busy.fits q).present owns
  simp [Tree.finished,found,part]

section Touch

variable {next : Proc} (touch : Touch t a p t' next)
  (once : ∀ round id text, p = .sweep (.retiring round id text) → a = .create true → id ∉ t.results)
include touch once

/-- A result file that is there and not in the hands of the process stays as it is. -/
theorem Touch.frame {id : Id} (present : id ∈ t.results) (apart : p.owns ≠ some id) :
    t'.results.lookup id = t.results.lookup id := by
  cases touch with
  | leave same => rw [same]
  | make other text absent made =>
    rw [made,lookup_insert_ne (ne_of_mem_of_not_mem present absent)]
  | fill other text qid count closed filled | fail other text qid count closed filled =>
    rw [filled,writeFile_elsewhere (fun same => apart (congrArg some same.symm))]
  | drop other ok dropped =>
    rw [dropped]
    split
    · exact lookup_erase_ne (fun same => apart (congrArg some same.symm))
    · rfl
  | retire round other text made =>
    have absent := once round other text rfl rfl
    rw [made,createFile_absent absent,lookup_insert_ne (ne_of_mem_of_not_mem present absent)]
  | print round other qid offset count text more printed =>
    rw [printed,writeFile_elsewhere (fun same => apart (congrArg some same.symm))]
  | finish round other qid offset count text printed =>
    rw [printed,writeFile_elsewhere (fun same => apart (congrArg some same.symm))]

/-- A process that has a result file open had it open before, or has made it. -/
theorem Touch.owned {id : Id} (owns : next.owns = some id) : p.owns = some id ∨ id ∉ t.results := by
  cases touch with
  | leave _ _ after =>
    rw [after] at owns
    contradiction
  | make other text absent made after =>
    rcases after with rfl | rfl <;> cases owns <;> exact .inr absent
  | retire round other text made =>
    cases owns
    exact .inr (once round id text rfl rfl)
  | fail | print => exact .inl owns
  | fill | drop | finish => contradiction

theorem Touch.fits (fits : Fits t p) (unfinished : ∀ id text qid count closed, p = .worker (.writing id text qid) →
      a = .write count closed → ¬(count = text.length ∧ closed = true) → isResult id (text.take count) = false) :
    Fits t' next := by
  cases touch with
  | leave _ _ after => exact fits_of_owns_none _ after
  | make id text absent made after =>
    rcases after with rfl | rfl
    · rw [Fits,made,lookup_insert]
    · exact ⟨_,by rw [made,lookup_insert],isResult_of_short (Nat.zero_le _)⟩
  | fill | drop | finish => trivial
  | fail id text qid count closed filled short =>
    refine ⟨_,by rw [filled,writeFile_self fits],?_⟩
    rw [overwrite_nil]
    exact unfinished id text qid count closed rfl rfl short
  | retire round id text made =>
    rw [createFile_absent (once round id text rfl rfl)] at made ⊢
    exact ⟨[],by rw [made,lookup_insert],.inl ⟨text,rfl,rfl,rfl⟩⟩
  | print round id qid offset count text more printed left =>
    obtain ⟨data,found,⟨text',same,rfl,rfl⟩ | ⟨_,same,_⟩⟩ := fits
    · cases same
      refine ⟨_,by rw [printed,writeFile_self found],.inr ⟨text',rfl,?_⟩⟩
      rw [overwrite_nil,List.length_take]
      exact Nat.min_le_right _ _
    · cases same
      exact absurd rfl left

end Touch

theorem writesOnce_absent (once : writesOnce (.act p a) s = true) (round : Round) (id : Id) (text : Bytes)
    (here : s.procs p = .sweep (.retiring round id text)) (creates : a = .create true) : id ∉ s.tree.results := by
  subst creates
  simpa [writesOnce,here] using once

theorem Busy.frame (busy : Busy s) (touch : Touch s.tree a (s.procs p) t next)
    (once : writesOnce (.act p a) s = true) (apart : q ≠ p) {id : Id} (owns : (s.procs q).owns = some id) :
    t.results.lookup id = s.tree.results.lookup id := by
  obtain ⟨file,found,_⟩ := (busy.fits q).present owns
  refine touch.frame (writesOnce_absent once) (lookup_isSome.mp (by rw [found]; rfl)) ?_
  exact fun mine => apart (busy.alone q p id owns mine)

/-- A step that writes once keeps the processes apart and leaves whole results alone. -/
theorem Busy.touch (busy : Busy s) (touch : Touch s.tree a (s.procs p) t next)
    (once : writesOnce (.act p a) s = true) : Busy ⟨t,s.setProc p next⟩ ∧
      ∀ id, s.tree.finished id = true → t.results.lookup id = s.tree.results.lookup id := by
  refine ⟨busy.change (fun q apart id => busy.frame touch once apart) ?_ ?_,?_⟩
  · refine touch.fits (writesOnce_absent once) (busy.fits p) ?_
    rintro id text qid count closed here rfl short
    simpa [writesOnce,here,short] using once
  · intro q apart id owns again
    rcases touch.owned (writesOnce_absent once) owns with mine | absent
    · exact apart (busy.alone q p id again mine)
    · exact busy.free absent q again
  · intro id finished
    refine touch.frame (writesOnce_absent once) (mem_results_of_finished finished) ?_
    intro mine
    rw [busy.not_finished mine] at finished
    contradiction

theorem Busy.crash (busy : Busy s) (p : Nat) : Busy { s with procs := s.setProc p (s.procs p).crash } := by
  refine busy.change (fun _ _ _ _ => rfl) (fits_of_owns_none _ (crash_owns _)) ?_
  intro q _ id owns
  rw [crash_owns] at owns
  contradiction

theorem Busy.step (busy : Busy s) (stepped : step l s = some s') (once : writesOnce l s = true) :
    Busy s' ∧ ∀ id, s.tree.finished id = true → s'.tree.results.lookup id = s.tree.results.lookup id := by
  cases step_moved stepped with
  | publish => exact ⟨⟨busy.fits,busy.alone⟩,fun _ _ => rfl⟩
  | crash p => exact ⟨busy.crash p,fun _ _ => rfl⟩
  | proc p a t next moved => exact busy.touch (procStep_touch moved) once

theorem State.fresh.busy (fresh : s.fresh) : Busy s := by
  have none : ∀ p, (s.procs p).owns = none := by
    intro p
    rcases fresh p with idle | idle | idle <;> rw [idle] <;> rfl
  refine ⟨fun p => fits_of_owns_none _ (none p),?_⟩
  intro p q id owns
  rw [none p] at owns
  contradiction

/-- In every run in which sweeps retire no task that has a result file, and no failed write
leaves a whole result, a whole result stays as it is. -/
theorem results_written_once (start s s' : State) (before later : List Label) (id : Id)
    (fresh : start.fresh) (ran : Transition.run step before start = some s)
    (ran' : Transition.run step later s = some s')
    (once : Transition.Meets step (fun l s => writesOnce l s = true) (before ++ later) start)
    (finished : s.tree.finished id = true) :
    s'.tree.results.lookup id = s.tree.results.lookup id := by
  obtain ⟨first,second⟩ := meets_append once ran
  have busy : Busy s :=
    run_invariant_of_meets Busy (fun _ _ _ busy ok stepped => (busy.step stepped ok).1)
      before start s first fresh.busy ran
  let kept (now : State) : Prop :=
    Busy now ∧ now.tree.results.lookup id = s.tree.results.lookup id
  have keeps : kept s' := by
    refine run_invariant_of_meets kept ?_ later s s' second ⟨busy,rfl⟩ ran'
    rintro l now next ⟨busy,same⟩ ok stepped
    obtain ⟨busy',whole⟩ := busy.step stepped ok
    refine ⟨busy',(whole id ?_).trans same⟩
    simpa [Tree.finished,same] using finished
  exact keeps.2

section Runs

def taskT : Id := ascii "t"

def rowT : Bytes :=
  taskHeader ++ row [taskT,ascii "a.c",ascii "m/a.c",ascii "true",ascii "1000",ascii "1",ascii "0",ascii "7"]

def treeT : Tree := ⟨(∅ : Dir File).insert taskT ⟨0,rowT⟩,∅,∅,∅,1⟩

/-- A task, two workers and a sweep. -/
def startT : State :=
  ⟨treeT,fun p => match p with
    | 0 | 1 => .worker .idle
    | 2 => .sweep .idle
    | _ => .dead⟩

theorem startT_fresh : startT.fresh := by
  intro p
  match p with
  | 0 | 1 => exact .inl rfl
  | 2 => exact .inr (.inl rfl)
  | _+3 => exact .inr (.inr rfl)

def reportT : Report := ⟨ascii "w",.survived,0,3,ascii "logs/t",ascii "gate passed",9⟩

/-- A worker that finds the task, claims it and runs its gate. -/
def claimT (p : Nat) : List Label :=
  [.act p .openDir,.act p (.dirread [taskT]),.act p .access,.act p (.mkdir true),
    .act p (.create true),.act p (.read true),.act p (.gate reportT)]

/-- The worker writes its result. -/
def resultT (p : Nat) : List Label :=
  [.act p (.mkdir true),.act p .access,.act p (.create true),
    .act p (.write (resultText taskT ⟨ascii "a.c",ascii "m/a.c",ascii "true",ascii "1000",ascii "1",ascii "0"⟩
      reportT).length true)]

theorem claimT_written_once :
    ∃ s s', Transition.run step (claimT 0 ++ resultT 0) startT = some s ∧
      Transition.run step [.act 0 (.remove true),.act 1 .openDir] s = some s' ∧
      s.tree.finished taskT = true ∧
      s'.tree.results.lookup taskT = s.tree.results.lookup taskT := by
  have whole : (run step (claimT 0 ++ resultT 0) startT).any (fun s =>
      s.tree.finished taskT &&
        (run step [.act 0 (.remove true),.act 1 .openDir] s).isSome) = true := by
    decide +kernel
  obtain ⟨s,ran,both⟩ := (any_eq_true _ _).mp whole
  obtain ⟨finished,more⟩ := Bool.and_eq_true_iff.mp both
  obtain ⟨s',ran'⟩ := isSome_iff_exists.mp more
  exact ⟨s,s',ran,ran',finished,results_written_once startT s s' _ _ taskT startT_fresh ran ran'
    (meets_of_checks (fun _ _ ok => ok) _ _ (by decide +kernel)) finished⟩

/-- A sweep takes a slow worker's claim for stale and finds no result; the worker writes its result and removes the
pending file; the sweep cannot read the task and retires it over the result. -/
def retireT : List Label :=
  [.act 2 (.sweep 400 3 [taskT]),.act 2 (.stale true),.act 2 .access]

theorem retired_over_result :
    ¬∀ (start s s' : State) (before later : List Label) (id : Id), start.fresh →
      Transition.run step before start = some s → Transition.run step later s = some s' →
      s.tree.finished id = true → s'.tree.results.lookup id = s.tree.results.lookup id := by
  intro kept
  have lost : (run step (claimT 0 ++ retireT ++ resultT 0) startT).any (fun s =>
      s.tree.finished taskT &&
        (run step [.act 0 (.remove true),.act 2 (.read true),.act 2 (.create true)] s).any
          (fun s' => decide (s'.tree.results.lookup taskT ≠ s.tree.results.lookup taskT))) = true := by
    decide +kernel
  obtain ⟨s,ran,both⟩ := (any_eq_true _ _).mp lost
  obtain ⟨finished,more⟩ := Bool.and_eq_true_iff.mp both
  obtain ⟨s',ran',differ⟩ := (any_eq_true _ _).mp more
  exact of_decide_eq_true differ (kept startT s s' _ _ taskT startT_fresh ran ran' finished)

end Runs

end Objective9c.Grid
