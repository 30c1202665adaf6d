import Objective9c.Grid.TaskSafety

/-! What keeps a published task: its pending file stays until there is a whole result. A process
removes a pending file when it has filled the result file, or has found one: so result files
must be found by others only when they have been filled. -/
namespace Objective9c.Grid

open Text Option Transition AList Bool

variable {s s' : State} {t t' : Tree}

/-- The task whose pending file a sweep is writing. -/
def Proc.rewrites : Proc → Option Id
  | .sweep (.printingPending _ id _ _ _) => some id
  | _ => none

/-- The task whose pending file the process is about to remove, as it has made or found a result. -/
def Proc.sure : Proc → Option Id
  | .worker (.dropFinished _ id) | .worker (.finishTask id) | .sweep (.dropPending _ id) => some id
  | _ => none

/-- The task whose pending file the process removes or empties. -/
def Proc.clears (p : Proc) (a : Act) : Option Id :=
  match p, a with
  | p, .remove true => p.sure
  | .sweep (.requeueing _ id _), .create true => some id
  | _, _ => none

/-- A step leaves `pending`, clears a pending file or writes on in one. Only a sweep that has just emptied a pending
file writes on in it. -/
structure PendingTouch (t : Tree) (a : Act) (p : Proc) (t' : Tree) (p' : Proc) : Prop where
  elsewhere : ∀ id, p.clears a ≠ some id → p.rewrites ≠ some id →
    t'.pending.lookup id = t.pending.lookup id
  begins : ∀ id, p'.rewrites = some id →
    (∃ round text, p = .sweep (.requeueing round id text) ∧ a = .create true) ∨ p.rewrites = some id

@[simp] theorem removeClaimFile_pending (t : Tree) (id : Id) : (removeClaimFile t id).pending = t.pending := by
  unfold removeClaimFile
  split <;> rfl

@[simp] theorem refresh_pending (t : Tree) (id : Id) : (refresh t id).pending = t.pending := by
  unfold refresh
  split <;> rfl

@[simp] theorem removeClaimDir_pending (t : Tree) (id : Id) : (removeClaimDir t id).pending = t.pending := by
  unfold removeClaimDir
  split <;> rfl

theorem mem_of_insert {dir : Dir α} {id : Id} (present : id ∈ dir)
    (member : other ∈ dir.insert id value) : other ∈ dir := by
  rcases (mem_insert _).mp member with rfl | member
  · exact present
  · exact member

theorem mem_of_erase {dir : Dir α} {id : Id} (member : other ∈ dir.erase id) : other ∈ dir :=
  (mem_erase.mp member).2

theorem mem_of_removeClaimFile {id : Id} (member : other ∈ (removeClaimFile t id).claimed) : other ∈ t.claimed := by
  revert member
  fun_cases removeClaimFile t id
  next found => exact mem_of_insert (lookup_isSome.mp (by rw [found]; rfl))
  next => exact fun member => member

theorem mem_of_removeClaimDir {id : Id} (member : other ∈ (removeClaimDir t id).claimed) : other ∈ t.claimed := by
  revert member
  fun_cases removeClaimDir t id
  · exact mem_of_erase
  · exact fun member => member

theorem mem_of_refresh {id : Id} (member : other ∈ (refresh t id).claimed) : other ∈ t.claimed := by
  unfold refresh at member
  split at member
  next present => exact mem_of_insert present member
  next => exact member

theorem PendingTouch.leave (same : t'.pending = t.pending) (after : p'.rewrites = none) :
    PendingTouch t a p t' p' := by
  refine ⟨fun _ _ _ => by rw [same],?_⟩
  intro id begins
  rw [after] at begins
  contradiction

theorem PendingTouch.clear (id : Id) (ok : Bool) (clears : ok = true → p.clears a = some id)
    (cleared : t'.pending = if ok then t.pending.erase id else t.pending) (after : p'.rewrites = none) :
    PendingTouch t a p t' p' := by
  constructor
  · intro other apart _
    rw [cleared]
    split
    next here =>
      rw [clears here] at apart
      refine lookup_erase_ne ?_
      rintro rfl
      exact apart rfl
    next => rfl
  · intro other begins
    rw [after] at begins
    contradiction

theorem createFile_elsewhere {dir : Dir File} {id : Id} (apart : other ≠ id) :
    (createFile dir fresh id).1.lookup other = dir.lookup other := by
  fun_cases createFile dir fresh id <;> exact lookup_insert_ne apart

section

variable (stepped : workerStep a t w = some (t',w'))
include stepped

theorem workerStep_pending :
    PendingTouch t a (.worker w) t' (.worker w') := by
  revert stepped
  fun_cases workerStep a t w <;> rintro ⟨⟩
  -- What is left after the calls that leave `pending` are the two removals of a pending file.
  all_goals first
    | exact .leave rfl rfl
    | exact .leave (refresh_pending ..) rfl
    | (refine .leave ?_ rfl; split <;> simp; done)
    | rename_i id ok
  all_goals exact .clear id ok (by rintro rfl; rfl) (by split <;> rfl) rfl

theorem workerStep_shrinks : ∀ id ∈ t'.pending, id ∈ t.pending := by
  revert stepped
  fun_cases workerStep a t w <;> rintro ⟨⟩
  all_goals first
    | exact fun _ member => member
    | (rw [refresh_pending]; exact fun _ member => member)
    | (split <;> intro _ member <;> first | exact mem_of_erase member | simpa using member)

theorem workerStep_claims {id : Id} (member : id ∈ t'.claimed) :
    id ∈ t.claimed ∨ ∃ scan, w = .claiming scan id ∧ a = .mkdir true ∧ w' = .claimFile id := by
  revert stepped
  fun_cases workerStep a t w <;> rintro ⟨⟩
  all_goals first
    | exact .inl member
    | exact .inl (mem_of_refresh member)
    | (left; split at member <;> first
        | exact member
        | exact mem_of_removeClaimFile member
        | exact mem_of_removeClaimDir member
        | (rename_i present; exact mem_of_insert present.2 member))
    | skip
  rename_i scan other ok possible
  rcases (mem_insert _).mp member with rfl | before
  · obtain ⟨rfl,_⟩ := possible
    exact .inr ⟨scan,rfl,rfl,rfl⟩
  · exact .inl before

end

theorem judgeStale_sure {round : Round} {id : Id} : (Proc.sweep (judgeStale round id data)).sure = none := by
  fun_cases judgeStale round id data <;> rfl

theorem judgeStale_rewrites {round : Round} {id : Id} :
    (Proc.sweep (judgeStale round id data)).rewrites = none := by
  fun_cases judgeStale round id data <;> rfl

theorem sweepStep_pending (stepped : sweepStep a t sweep = some (t',sweep')) :
    PendingTouch t a (.sweep sweep) t' (.sweep sweep') := by
  revert stepped
  fun_cases sweepStep a t sweep <;> rintro ⟨⟩
  all_goals first
    | exact .leave rfl rfl
    | exact .leave rfl (judgeStale_rewrites)
    | (refine .leave ?_ rfl; split <;> simp; done)
    | (refine .leave rfl ?_; split <;> rfl)
    | skip
  · constructor
    · intro other apart _
      refine createFile_elsewhere ?_
      rintro rfl
      exact apart rfl
    · rintro other ⟨⟩
      exact .inl ⟨_,_,rfl,rfl⟩
  · constructor
    · intro other _ apart
      refine writeFile_elsewhere ?_
      rintro rfl
      exact apart rfl
    · intro other begins
      split at begins
      · contradiction
      · exact .inr begins
  · rename_i round id ok
    exact .clear id ok (by rintro rfl; rfl) (by split <;> rfl) rfl

theorem procStep_pending (stepped : procStep a t p = some (t',p')) : PendingTouch t a p t' p' := by
  cases procStep_ran stepped with
  | worker moved => exact workerStep_pending moved
  | sweep moved => exact sweepStep_pending moved
  | orphan id _ same =>
    subst same
    exact .leave (refresh_pending t id) rfl

/-- The task whose result file the call looks for, to decide whether the task is done. -/
def Proc.asks : Proc → Act → Option Id
  | .worker (.scanning scan), .access => scan.batch.head?
  | .worker (.rechecking id), .access | .sweep (.testing _ id), .access => some id
  | _, _ => none

/-- No crash or failure leaves a result file that is not whole: no process crashes while it has one open, a file that
could not be filled is removed, a result is not cut in front of a character, and a task that is retired gets its row.
No task is requeued. -/
def Proc.careful : Proc → Act → Bool
  | p, .crash => p.owns = none
  | .worker (.running id task), .gate report =>
    let text := resultText id task report
    text.length < 8192 || (cut 8191 text).length = 8191
  | .worker (.dropResult _), .remove ok | .sweep (.retiring _ _ _), .create ok => ok
  | .sweep (.requeueing _ _ _), .create ok => !ok
  | .sweep (.printingResult _ _ _ _ (text :: _)), .print count => text.length ≤ count
  | _, _ => true

/-- On top of `writesOnce`: the calls are careful, and a process that looks for a result file does
not find one that another has open. -/
def keepsWork : Label → State → Prop
  | .publish _ _, _ => True
  | .act p a, s => writesOnce (.act p a) s = true ∧ (s.procs p).careful a = true ∧
      ∀ id, (s.procs p).asks a = some id → id ∈ s.tree.results → ∀ q, (s.procs q).owns ≠ some id

/-- What a process writes, or is about to write, ends in a whole result. -/
def Writes (t : Tree) : Proc → Prop
  | .worker (.locking id text) | .worker (.checking id text) | .worker (.creating id text) =>
    text.length < 8191 → isResult id text = true
  | .worker (.writing id text _) => isResult id text = true
  | .sweep (.retiring _ id text) => isResult id (resultHeader ++ text) = true
  | .sweep (.printingResult _ id qid offset texts) => ∃ data, t.results.lookup id = some ⟨qid,data⟩ ∧
    offset = data.length ∧ isResult id (data ++ texts.flatten) = true
  | _ => True

theorem isResult_row (id : Id) (rest : List Bytes) (more : rest ≠ []) :
    isResult id (resultHeader ++ row (id :: rest)) = true := by
  rw [isResult,Bool.and_eq_true_iff,row,Fields.join_cons id more]
  refine ⟨List.isPrefixOf_iff_prefix.mpr ?_,?_⟩
  · simp
  · rw [← List.append_assoc,List.getLast?_concat]
    rfl

theorem Writes.congr (writes : Writes t p)
    (same : ∀ id, p.owns = some id → t'.results.lookup id = t.results.lookup id) : Writes t' p := by
  cases p with
  | worker w => cases w <;> exact writes
  | sweep s =>
    cases s
    case printingResult =>
      obtain ⟨data,found,rest⟩ := writes
      exact ⟨data,(same _ rfl).trans found,rest⟩
    all_goals exact writes
  | _ => trivial

theorem workerStep_writes (stepped : workerStep a t w = some (t',w')) (writes : Writes t (.worker w))
    (careful : (Proc.worker w).careful a = true) : Writes t' (.worker w') := by
  revert stepped writes careful
  fun_cases workerStep a t w <;> rintro ⟨⟩ writes careful
  case case17 id task report =>
    intro short
    rcases Bool.or_eq_true_iff.mp careful with fits | full
    · rw [cut_of_length_le (Nat.le_of_lt_succ (of_decide_eq_true fits))]
      exact isResult_row _ _ (by simp)
    · rw [of_decide_eq_true full] at short
      contradiction
  all_goals first
    | exact trivial
    | exact writes
    | skip
  · split
    · trivial
    next short => exact writes (Nat.lt_of_not_le short)
  · split <;> trivial

theorem judgeStale_writes (t : Tree) (round : Round) (id : Id) (data : Option Bytes) :
    Writes t (.sweep (judgeStale round id data)) := by
  fun_cases judgeStale round id data
  · exact isResult_row _ _ (by simp)
  · exact isResult_row _ _ (by simp)
  · trivial

theorem sweepStep_writes (stepped : sweepStep a t sweep = some (t',sweep')) (writes : Writes t (.sweep sweep))
    (absent : ∀ round id text, sweep = .retiring round id text → a = .create true → id ∉ t.results)
    (careful : (Proc.sweep sweep).careful a = true) : Writes t' (.sweep sweep') := by
  revert stepped writes absent careful
  fun_cases sweepStep a t sweep <;> rintro ⟨⟩ writes absent careful
  all_goals first
    | exact trivial
    | exact judgeStale_writes _ _ _ _
    | skip
  · rename_i round id text made
    have new : createFile t.results t.qids id = _ := createFile_absent (absent round id text rfl rfl)
    refine ⟨[],?_,rfl,?_⟩
    · simp [made,new]
    · have whole : isResult id (resultHeader ++ text) = true := writes
      simpa using whole
  · rename_i round id qid offset count text more
    obtain ⟨data,found,rfl,whole⟩ := writes
    have all : text.length ≤ count := of_decide_eq_true careful
    split
    · trivial
    · refine ⟨data ++ text,?_,?_,?_⟩
      · rw [List.take_of_length_le all,writeFile_self found,overwrite_length]
      · rw [printNext,Nat.min_eq_right all,List.length_append]
      · simpa using whole
  · split <;> trivial

theorem procStep_writes (stepped : procStep a t p = some (t',p')) (writes : Writes t p)
    (absent : ∀ round id text, p = .sweep (.retiring round id text) → a = .create true → id ∉ t.results)
    (careful : p.careful a = true) : Writes t' p' := by
  cases procStep_ran stepped with
  | worker moved => exact workerStep_writes moved writes careful
  | sweep moved =>
    refine sweepStep_writes moved writes ?_ careful
    rintro round id text rfl
    exact absent round id text rfl
  | orphan => trivial

/-- Why a process removes a pending file: it has found a result, or has just filled one. -/
inductive Assured (t : Tree) (id : Id) : Proc → Act → Prop
  | found (asks : p.asks a = some id) (present : id ∈ t.results) : Assured t id p a
  | filled : Assured t id (.worker (.writing id text qid)) (.write text.length true)
  | printed {round : Round} : Assured t id (.sweep (.printingResult round id qid offset [text])) (.print count)
  | unmade {round : Round} : Assured t id (.sweep (.retiring round id text)) (.create false)

theorem procStep_sure (stepped : procStep a t p = some (t',p')) {id : Id} (sure : p'.sure = some id) :
    Assured t id p a := by
  cases procStep_ran stepped with
  | @worker w w' moved =>
    revert moved sure
    fun_cases workerStep a t w <;> rintro ⟨⟩ sure
    all_goals first
      | contradiction
      | (split at sure <;> contradiction)
      | (cases sure; exact .found rfl ‹_›)
      | skip
    · rename_i batch present
      cases sure
      exact .found (by simp [Proc.asks,batch]) present
    · split at sure
      next whole =>
        obtain ⟨rfl,rfl⟩ := whole
        cases sure
        exact .filled
      next => contradiction
  | @sweep w w' moved =>
    revert moved sure
    fun_cases sweepStep a t w <;> rintro ⟨⟩ sure
    all_goals first
      | contradiction
      | (split at sure <;> contradiction)
      | (cases sure; exact .found rfl ‹_›)
      | skip
    · rw [judgeStale_sure] at sure
      contradiction
    · rename_i ok failed
      cases sure
      rw [eq_false_of_not_eq_true failed]
      exact .unmade
    · split at sure
      next last =>
        subst last
        cases sure
        exact .printed
      next => contradiction
  | orphan => contradiction

/-- A pending file is removed under a whole result. -/
theorem Assured.finished {id : Id} (assured : Assured t id p a) (stepped : procStep a t p = some (t',p')) (fits : Fits t p)
    (writes : Writes t p) (careful : p.careful a = true)
    (found : p.asks a = some id → id ∈ t.results → t'.finished id = true) : t'.finished id = true := by
  have touch := procStep_touch stepped
  cases assured with
  | found asks present => exact found asks present
  | filled =>
    cases touch with
    | leave _ before => contradiction
    | fill _ _ _ _ _ filled =>
      rw [Tree.finished,filled,List.take_length,writeFile_self fits,overwrite_nil]
      exact writes
    | fail _ _ _ _ _ _ short => exact absurd ⟨rfl,rfl⟩ short
  | printed =>
    cases touch with
    | leave _ before => contradiction
    | print _ _ _ _ _ _ _ _ left => exact absurd rfl left
    | finish _ _ _ _ _ _ printed =>
      obtain ⟨data,there,rfl,whole⟩ := writes
      rw [Tree.finished,printed,List.take_of_length_le (of_decide_eq_true careful),writeFile_self there,
        overwrite_length]
      simpa using whole
  | unmade => contradiction

theorem Touch.makes {id : Id} {next : Proc} (touch : Touch t a p t' next) (absent : id ∉ t.results)
    (present : id ∈ t'.results) : next.owns = some id ∧
      ((∃ text, p = .worker (.creating id text)) ∨ ∃ round text, p = .sweep (.retiring round id text)) := by
  cases touch with
  | leave same =>
    rw [same] at present
    exact absurd present absent
  | make other text absent' made after =>
    rw [made] at present
    rcases (mem_insert _).mp present with rfl | present
    · refine ⟨?_,.inl ⟨text,rfl⟩⟩
      rcases after with rfl | rfl <;> rfl
    · exact absurd present absent
  | fill _ _ _ _ _ filled | fail _ _ _ _ _ filled =>
    rw [filled] at present
    exact absurd (mem_writeFile.mp present) absent
  | drop other ok dropped =>
    rw [dropped] at present
    split at present
    · exact absurd (mem_erase.mp present).2 absent
    · exact absurd present absent
  | retire round other text made =>
    by_cases here : id = other
    · subst here
      exact ⟨rfl,.inr ⟨round,text,rfl⟩⟩
    · rw [made,← lookup_isSome,createFile_elsewhere here,lookup_isSome] at present
      exact absurd present absent
  | print _ _ _ _ _ _ _ printed | finish _ _ _ _ _ _ printed =>
    rw [printed] at present
    exact absurd (mem_writeFile.mp present) absent

/-- A process that leaves a result file it had open has removed it or is done with it. -/
theorem Touch.closes {id : Id} {next : Proc} (touch : Touch t a p t' next) (careful : p.careful a = true)
    (owns : p.owns = some id) (present : id ∈ t'.results) : next.owns = some id ∨ Assured t id p a := by
  cases touch with
  | leave _ before =>
    rw [before] at owns
    contradiction
  | make | retire => contradiction
  | fill _ _ _ _ _ _ whole =>
    obtain ⟨rfl,rfl⟩ := whole
    cases owns
    exact .inr .filled
  | fail | print => exact .inl owns
  | drop other ok dropped =>
    cases owns
    rw [dropped,if_pos (show ok = true from careful)] at present
    exact absurd rfl (mem_erase.mp present).1
  | finish =>
    cases owns
    exact .inr .printed

/-- Every result file is whole or open, a process that is about to remove a pending file has a whole result behind it,
and none writes a pending file. -/
structure Kept (s : State) : Prop where
  busy : Busy s
  whole : ∀ id ∈ s.tree.results, s.tree.finished id = true ∨ ∃ p, (s.procs p).owns = some id
  sure : ∀ p id, (s.procs p).sure = some id → s.tree.finished id = true
  writes : ∀ p, Writes s.tree (s.procs p)
  rewrites : ∀ p, (s.procs p).rewrites = none

def State.safe (s : State) (id : Id) : Prop := s.tree.ready id = true ∨ s.tree.finished id = true

theorem finished_congr {id : Id} (same : t'.results.lookup id = t.results.lookup id) :
    t'.finished id = t.finished id := by
  rw [Tree.finished,same,Tree.finished]

theorem ready_congr {id : Id} (same : t'.pending.lookup id = t.pending.lookup id) : t'.ready id = t.ready id := by
  rw [Tree.ready,same,Tree.ready]

theorem keepsWork.once (keeps : keepsWork l s) : writesOnce l s = true := by
  cases l with
  | publish => rfl
  | act => exact keeps.1

theorem Kept.finishes (kept : Kept s) (stepped : step l s = some s') (keeps : keepsWork l s) {id : Id}
    (finished : s.tree.finished id = true) : s'.tree.finished id = true := by
  rw [finished_congr ((kept.busy.step stepped keeps.once).2 id finished)]
  exact finished

theorem Kept.cleared (kept : Kept s) (keeps : keepsWork (.act p a) s) {id : Id}
    (clears : (s.procs p).clears a = some id) : s.tree.finished id = true := by
  have careful := keeps.2.1
  have sure := kept.sure p id
  generalize s.procs p = proc at clears careful sure
  revert clears
  fun_cases Proc.clears proc a <;> intro clears
  · exact sure clears
  · contradiction
  · contradiction

theorem crash_cases (p : Proc) : p.crash = .dead ∨ ∃ id, p.crash = .orphan id := by
  fun_cases Proc.crash p
  · exact .inr ⟨_,rfl⟩
  · exact .inl rfl

theorem forall_setProc {P : Nat → Proc → Prop} (here : P p next) (elsewhere : ∀ q, q ≠ p → P q (s.procs q)) (q : Nat) :
    P q (s.setProc p next q) := by
  by_cases same : q = p
  · subst same
    rw [setProc_self]
    exact here
  · rw [setProc_of_ne s next same]
    exact elsewhere q same

theorem Kept.crash (kept : Kept s) (keeps : keepsWork (.act p .crash) s) :
    Kept { s with procs := s.setProc p (s.procs p).crash } := by
  have none : (s.procs p).owns = none := of_decide_eq_true keeps.2.1
  refine ⟨kept.busy.crash p,?_,?_,?_,?_⟩
  · intro id present
    rcases kept.whole id present with finished | ⟨q,owns⟩
    · exact .inl finished
    · refine .inr ⟨q,?_⟩
      dsimp only
      rw [setProc_of_ne s _ (by rintro rfl; rw [none] at owns; contradiction)]
      exact owns
  · refine forall_setProc (P := fun _ proc => ∀ id, proc.sure = some id → s.tree.finished id = true) ?_
      (fun q _ => kept.sure q)
    rcases crash_cases (s.procs p) with gone | ⟨_,gone⟩ <;> rw [gone] <;> exact fun _ sure => nomatch sure
  · refine forall_setProc (P := fun _ proc => Writes s.tree proc) ?_ (fun q _ => kept.writes q)
    rcases crash_cases (s.procs p) with gone | ⟨_,gone⟩ <;> rw [gone] <;> trivial
  · refine forall_setProc (P := fun _ proc => proc.rewrites = Option.none) ?_ (fun q _ => kept.rewrites q)
    rcases crash_cases (s.procs p) with gone | ⟨_,gone⟩ <;> rw [gone] <;> rfl

theorem Kept.proc (kept : Kept s) (keeps : keepsWork (.act p a) s)
    (moved : procStep a s.tree (s.procs p) = some (t,next)) : Kept ⟨t,s.setProc p next⟩ := by
  obtain ⟨once,careful,unowned⟩ := keeps
  have touch := procStep_touch moved
  have absent := writesOnce_absent once
  obtain ⟨busy,same⟩ := kept.busy.touch touch once
  have finishes (id : Id) (finished : s.tree.finished id = true) : t.finished id = true := by
    rw [finished_congr (same id finished)]
    exact finished
  have assured (id : Id) (assured : Assured s.tree id (s.procs p) a) : t.finished id = true := by
    refine assured.finished moved (kept.busy.fits p) (kept.writes p) careful ?_
    intro asks present
    rcases kept.whole id present with finished | ⟨q,owns⟩
    · exact finishes id finished
    · exact absurd owns (unowned id asks present q)
  refine ⟨busy,?_,?_,?_,?_⟩
  · intro id present
    have mine (owns : next.owns = some id) : ∃ q, (s.setProc p next q).owns = some id :=
      ⟨p,by rw [setProc_self]; exact owns⟩
    by_cases owned : (s.procs p).owns = some id
    · rcases touch.closes careful owned present with owns | done
      · exact .inr (mine owns)
      · exact .inl (assured id done)
    by_cases before : id ∈ s.tree.results
    · rcases kept.whole id before with finished | ⟨q,owns⟩
      · exact .inl (finishes id finished)
      · refine .inr ⟨q,?_⟩
        dsimp only
        rw [setProc_of_ne s next (by rintro rfl; exact owned owns)]
        exact owns
    · exact .inr (mine (touch.makes before present).1)
  · refine forall_setProc (P := fun _ proc => ∀ id, proc.sure = some id → t.finished id = true) ?_ ?_
    · exact fun id sure => assured id (procStep_sure moved sure)
    · exact fun q _ id sure => finishes id (kept.sure q id sure)
  · refine forall_setProc (P := fun _ proc => Writes t proc) ?_ ?_
    · exact procStep_writes moved (kept.writes p) absent careful
    · exact fun q apart => (kept.writes q).congr fun id owns => kept.busy.frame touch once apart owns
  · refine forall_setProc (P := fun _ proc => proc.rewrites = none) ?_ (fun q _ => kept.rewrites q)
    cases begun : next.rewrites with
    | none => rfl
    | some id =>
      rcases (procStep_pending moved).begins id begun with ⟨round,text,here,rfl⟩ | before
      · rw [here] at careful
        contradiction
      · rw [kept.rewrites p] at before
        contradiction

theorem Kept.step (kept : Kept s) (stepped : step l s = some s') (keeps : keepsWork l s) :
    Kept s' ∧ ∀ id, s.safe id → s'.safe id := by
  have finishes {id : Id} (finished : s.tree.finished id = true) := kept.finishes stepped keeps finished
  cases step_moved stepped with
  | publish id data absent =>
    refine ⟨⟨⟨kept.busy.fits,kept.busy.alone⟩,kept.whole,kept.sure,?_,kept.rewrites⟩,?_⟩
    · exact fun p => (kept.writes p).congr fun _ _ => rfl
    rintro other (ready | finished)
    · left
      have apart : other ≠ id := by
        rintro rfl
        simp [Tree.ready,lookup_eq_none.mpr absent] at ready
      rw [ready_congr (lookup_insert_ne apart)]
      exact ready
    · exact .inr finished
  | crash p => exact ⟨kept.crash keeps,fun _ safe => safe⟩
  | proc p a t next moved =>
    refine ⟨kept.proc keeps moved,?_⟩
    rintro id (ready | finished)
    · by_cases finished : s.tree.finished id = true
      · exact .inr (finishes finished)
      · left
        rw [ready_congr ((procStep_pending moved).elsewhere id (fun here => finished (kept.cleared keeps here))
          (by simp [kept.rewrites p]))]
        exact ready
    · exact .inr (finishes finished)

theorem State.fresh.kept (fresh : s.fresh) (whole : ∀ id ∈ s.tree.results, s.tree.finished id = true) : Kept s := by
  refine ⟨fresh.busy,fun id present => .inl (whole id present),?_,?_,?_⟩ <;> intro p <;>
    rcases fresh p with idle | idle | idle <;> rw [idle] <;> first | trivial | rfl | exact fun _ sure => nomatch sure

/-- In every run in which no part of a result is left behind, no task is requeued and result files are come upon only
when they are filled, a published task is pending or has a whole result. -/
theorem published_task_kept (start s : State) (before later : List Label) (id : Id) (data : Bytes)
    (fresh : start.fresh) (whole : ∀ id ∈ start.tree.results, start.tree.finished id = true)
    (taken : (readTask id data).isSome = true)
    (ran : Transition.run step (before ++ .publish id data :: later) start = some s)
    (keeps : Transition.Meets step keepsWork (before ++ .publish id data :: later) start) : s.safe id := by
  rw [run_append,bind_eq_some_iff] at ran
  obtain ⟨middle,first,ran⟩ := ran
  obtain ⟨next,stepped,second⟩ := run_cons_some.mp ran
  obtain ⟨early,late⟩ := meets_append keeps first
  have kept : Kept middle :=
    run_invariant_of_meets Kept (fun _ _ _ kept ok stepped => (kept.step stepped ok).1)
      before start middle early (fresh.kept whole) first
  have kept' := (kept.step stepped late.1).1
  have published : next.safe id := by
    cases step_moved stepped with
    | publish =>
      left
      simpa [Tree.ready] using taken
  let good (now : State) : Prop := Kept now ∧ now.safe id
  have final : good s := by
    refine run_invariant_of_meets good ?_ later next s (late.2 next stepped)
      ⟨kept',published⟩ second
    rintro l now after ⟨kept,safe⟩ ok stepped
    obtain ⟨kept',safes⟩ := kept.step stepped ok
    exact ⟨kept',safes id safe⟩
  exact final.2

/-- `startT` before its task is published. -/
def emptyT : State := { startT with tree := ⟨∅,∅,∅,∅,0⟩ }

/-- `keepsWork` as it is checked where nobody finds a result file. -/
def keepsAlone : Label → State → Bool
  | .publish _ _, _ => true
  | .act p a, s => writesOnce (.act p a) s && ((s.procs p).careful a && ((s.procs p).asks a).all (· ∉ s.tree.results))

theorem keepsWork_of_keepsAlone (l : Label) (s : State) (ok : keepsAlone l s = true) : keepsWork l s := by
  cases l with
  | publish => trivial
  | act p a =>
    obtain ⟨once,careful,none⟩ := by simpa [keepsAlone] using ok
    refine ⟨once,careful,fun id asks present => ?_⟩
    simp [asks,present] at none

theorem claimT_kept :
    ∃ s, Transition.run step
        (.publish taskT rowT :: claimT 0 ++ resultT 0 ++ [.act 0 (.remove true)]) emptyT = some s ∧
      s.safe taskT := by
  have ran : (run step
      (.publish taskT rowT :: claimT 0 ++ resultT 0 ++ [.act 0 (.remove true)]) emptyT).isSome = true := by
    decide +kernel
  have checked : checks step keepsAlone
      (.publish taskT rowT :: claimT 0 ++ resultT 0 ++ [.act 0 (.remove true)]) emptyT = true := by
    decide +kernel
  obtain ⟨s,ran⟩ := isSome_iff_exists.mp ran
  exact ⟨s,ran,published_task_kept emptyT s [] _ taskT rowT startT_fresh
    (fun _ member => absurd member (notMem_empty _)) (by decide) ran
    (meets_of_checks keepsWork_of_keepsAlone _ _ checked)⟩

/-- The worker that claimed the task crashes, and a sweep that begins to requeue the task crashes
when it has emptied the pending file. -/
theorem requeue_empties_pending :
    ¬∀ (start s : State) (before later : List Label) (id : Id) (data : Bytes), start.fresh →
      (∀ id ∈ start.tree.results, start.tree.finished id = true) → (readTask id data).isSome = true →
      Transition.run step (before ++ .publish id data :: later) start = some s → s.safe id := by
  intro kept
  let labels : List Label := claimT 0 ++ [.act 0 .crash] ++
    [.act 2 (.sweep 400 3 [taskT]),.act 2 (.stale true),.act 2 .access,.act 2 (.read true),
      .act 2 (.create true),.act 2 .crash]
  have lost : (run step (.publish taskT rowT :: labels) emptyT).any
      (fun s => !s.tree.ready taskT && !s.tree.finished taskT) = true := by
    decide +kernel
  obtain ⟨s,ran,neither⟩ := (any_eq_true _ _).mp lost
  have safe := kept emptyT s [] labels taskT rowT startT_fresh
    (fun _ member => absurd member (notMem_empty _)) (by decide) ran
  obtain ⟨unready,unfinished⟩ := Bool.and_eq_true_iff.mp neither
  rcases safe with ready | finished
  · simp [ready] at unready
  · simp [finished] at unfinished

end Objective9c.Grid
