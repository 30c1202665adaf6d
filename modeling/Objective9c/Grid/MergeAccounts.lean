import Mathlib.Data.List.Perm.Lattice
import Objective9c.Lib.Transition
import Objective9c.Grid.Merge

/-! Accounting of `o9mutmerge`. What a file says does not depend on the table, so a merge is a fold over the
verdicts on what it reads. -/
namespace Objective9c.Merge

open List Transition
open Objective9c.Text (Bytes ascii)

/-- What is known of something read before the table is consulted. -/
inductive Verdict where
  | malformed (path : Bytes) (reason : Reason)
  | unnamed (file : Bytes)
  | result (root file row : Bytes)
  deriving DecidableEq

def idOf (row : Bytes) : Bytes := field row 1 512

def Verdict.row : Verdict → Option Bytes
  | .result _ _ row => some row
  | _ => none

/-- The result file a verdict is about; a directory that does not open is none. -/
def Verdict.file : Verdict → Option Bytes
  | .malformed _ .missingResultsDir => none
  | .malformed path .emptyOrMissingResultRow => some path
  | .unnamed file => some file
  | .result _ file _ => some file

def judge (root file : Bytes) (content : Option Bytes) : Verdict :=
  match secondLine content maxrow with
  | none => .malformed file .emptyOrMissingResultRow
  | some row =>
    if row = [] then .malformed file .emptyOrMissingResultRow
    else if idOf row = [] then .unnamed file
    else .result root file row

def settle (s : State) : Verdict → State
  | .malformed path reason => malformed s path reason
  | .unnamed file => unexpected s (ascii "-") file
  | .result root file row =>
    match lookup s (idOf row) with
    | none => unexpected s (idOf row) file
    | some e =>
      if e.seen then
        if sameResult e.row row then duplicate s (idOf row) e file
        else conflict s (idOf row) e file row
      else record s (idOf row) root file row

theorem mergeFile_eq_settle (root file : Bytes) (content : Option Bytes) (s : State) :
    mergeFile root file content s = settle s (judge root file content) := by
  unfold mergeFile judge
  cases secondLine content maxrow with
  | none => rfl
  | some row =>
    dsimp only
    split
    next => rfl
    next =>
      change (if idOf row = [] then _ else _) = _
      split <;> rfl

mutual

def nodeVerdicts (root dir : Bytes) : Node → List Verdict
  | .file name content => if isTab name then [judge root (join dir name) content] else []
  | .dir name opens entries =>
    if opens then nodesVerdicts root (join dir name) entries
    else [.malformed root .missingResultsDir]

def nodesVerdicts (root dir : Bytes) : List Node → List Verdict
  | [] => []
  | node :: rest => nodeVerdicts root dir node ++ nodesVerdicts root dir rest

end

mutual

theorem mergeNode_eq (root dir : Bytes) (node : Node) (s : State) :
    mergeNode root dir node s = (nodeVerdicts root dir node).foldl settle s := by
  cases node with
  | file =>
    unfold mergeNode nodeVerdicts
    split
    next => simp [mergeFile_eq_settle]
    next => rfl
  | dir name opens entries =>
    unfold mergeNode nodeVerdicts
    split
    next => exact mergeNodes_eq root (join dir name) entries s
    next => rfl

theorem mergeNodes_eq (root dir : Bytes) (nodes : List Node) (s : State) :
    mergeNodes root dir nodes s = (nodesVerdicts root dir nodes).foldl settle s := by
  cases nodes with
  | nil => rfl
  | cons node rest =>
    rw [mergeNodes,nodesVerdicts,foldl_append,mergeNode_eq root dir node s]
    exact mergeNodes_eq root dir rest _

end

def resultsVerdicts (root dir : Bytes) (opens : Bool) (entries : List Node) : List Verdict :=
  if opens then nodesVerdicts root dir entries else [.malformed root .missingResultsDir]

def Root.verdicts (root : Root) : List Verdict :=
  match root.results with
  | some (opens,entries) => resultsVerdicts root.name (join root.name (ascii "results")) opens entries
  | none => resultsVerdicts root.name root.name root.opens root.entries

theorem mergeResults_eq {entries : List Node} :
    mergeResults root dir opens entries s = (resultsVerdicts root dir opens entries).foldl settle s := by
  unfold mergeResults resultsVerdicts
  split
  next => exact mergeNodes_eq root dir entries s
  next => rfl

theorem mergeRoot_eq (s : State) (root : Root) : mergeRoot s root = root.verdicts.foldl settle s := by
  unfold mergeRoot Root.verdicts
  cases root.results with
  | none | some => exact mergeResults_eq

theorem merge_eq (manifest : Bytes) (roots : List Root) : merge manifest roots =
      (roots.flatMap Root.verdicts).foldl settle (readManifest manifest initial) := by
  unfold merge
  generalize readManifest manifest initial = s
  induction roots generalizing s with
  | nil => rfl
  | cons root rest ih =>
    rw [foldl_cons,flatMap_cons,foldl_append,← mergeRoot_eq]
    exact ih _

theorem hstr_lt (id : Bytes) : hstr id < nhash := Nat.mod_lt _ (by decide)

/-- The table as the manifest leaves it: its ids are those of the manifest, each once. -/
structure Loaded (ids : List Bytes) (s : State) : Prop where
  sound : Buckets.Sound Entry.id hstr s.tab
  mem_ids : ∀ id, id ∈ Buckets.keys Entry.id nhash s.tab ↔ id ∈ ids
  total : s.manifestTotal = (Buckets.keys Entry.id nhash s.tab).length
  unseen : ∀ id e, lookup s id = some e → e.seen = false
  rest : s = { initial with tab := s.tab, manifestTotal := s.manifestTotal }

theorem Loaded.create (loaded : Loaded ids s) (id : Bytes) : Loaded (ids ++ [id]) (lookupCreate s id) := by
  unfold lookupCreate
  cases found : lookup s id with
  | some e =>
    have there : id ∈ ids :=
      (loaded.mem_ids id).mp ((loaded.sound.mem_keys hstr_lt).mpr ⟨e,found⟩)
    refine ⟨loaded.sound,?_,loaded.total,loaded.unseen,loaded.rest⟩
    intro other
    rw [loaded.mem_ids,mem_append,mem_singleton]
    constructor
    · exact Or.inl
    · rintro (member | rfl)
      · exact member
      · exact there
  | none =>
    let new : Entry := ⟨id,[],[],false⟩
    have sound' : Buckets.Sound Entry.id hstr (Buckets.insert Entry.id hstr s.tab new) :=
      loaded.sound.insert found
    have added : (Buckets.keys Entry.id nhash (Buckets.insert Entry.id hstr s.tab new)).Perm
        (id :: Buckets.keys Entry.id nhash s.tab) := Buckets.keys_insert (hstr_lt id)
    refine ⟨sound',?_,?_,?_,?_⟩
    · intro other
      rw [added.mem_iff,mem_cons,loaded.mem_ids,mem_append,mem_singleton,or_comm]
    · rw [added.length_eq,length_cons,loaded.total]
    · intro other e now
      obtain ⟨member,rfl⟩ := (sound'.find_iff hstr_lt).mp now
      have chain := (Buckets.mem_entries hstr_lt sound').mp member
      unfold Buckets.insert at chain
      split at chain
      next =>
        rcases mem_cons.mp chain with rfl | old
        · rfl
        · exact loaded.unseen e.id e (loaded.sound.find_of_mem old)
      next => exact loaded.unseen e.id e (loaded.sound.find_of_mem chain)
    · rw [loaded.rest]

theorem readManifest_loaded (manifest : Bytes) : Loaded (manifestIds manifest) (readManifest manifest initial) := by
  refine foldl_invariant _ (fun _ _ id loaded => loaded.create id) [] _ initial
    ⟨Buckets.sound_empty,?_,?_,?_,rfl⟩
  · simp [Buckets.keys,Buckets.entries]
  · simp [Buckets.keys,Buckets.entries]
  · simp [lookup,Buckets.find]

/-- Every way a verdict can change the state. -/
inductive Settled (s : State) : Verdict → State → Prop
  | malformed (path : Bytes) (reason : Reason) :
      Settled s (.malformed path reason) (malformed s path reason)
  | unnamed (file : Bytes) : Settled s (.unnamed file) (unexpected s (ascii "-") file)
  | stranger (root file row : Bytes) (unknown : lookup s (idOf row) = none) :
      Settled s (.result root file row) (unexpected s (idOf row) file)
  | duplicate (root file row : Bytes) (e : Entry) (found : lookup s (idOf row) = some e)
      (seen : e.seen = true) (same : sameResult e.row row = true) :
      Settled s (.result root file row) (duplicate s (idOf row) e file)
  | conflict (root file row : Bytes) (e : Entry) (found : lookup s (idOf row) = some e)
      (seen : e.seen = true) (differ : sameResult e.row row = false) :
      Settled s (.result root file row) (conflict s (idOf row) e file row)
  | record (root file row : Bytes) (e : Entry) (found : lookup s (idOf row) = some e)
      (unseen : e.seen = false) :
      Settled s (.result root file row) (record s (idOf row) root file row)

theorem settle_settled (s : State) (v : Verdict) : Settled s v (settle s v) := by
  cases v with
  | malformed path reason => exact .malformed path reason
  | unnamed file => exact .unnamed file
  | result root file row =>
    simp only [settle]
    split
    next unknown => exact .stranger root file row unknown
    next e found =>
      cases seen : e.seen with
      | false => exact .record root file row e found seen
      | true =>
        cases same : sameResult e.row row with
        | true => exact .duplicate root file row e found seen same
        | false => exact .conflict root file row e found seen same

theorem record_eq (s : State) (id root file row : Bytes) : ∃ killed survived timeout infra setup equivalent,
      record s id root file row = { s with
          tab := Buckets.modify Entry.id hstr s.tab id (fun e => { e with seen := true, row, file })
          dedupedTotal := s.dedupedTotal + 1
          reportb := s.reportb ++ [(row,root,file)]
          killedTotal := killed
          survivedTotal := survived
          timeoutTotal := timeout
          infraTotal := infra
          setupTotal := setup
          equivalentTotal := equivalent } := by
  unfold record countResult
  dsimp only
  split_ifs <;> exact ⟨_,_,_,_,_,_,rfl⟩

theorem lookup_record (s : State) (id root file row other : Bytes) : lookup (record s id root file row) other =
      if other = id then (lookup s id).map (fun e => { e with seen := true, row, file }) else lookup s other := by
  obtain ⟨_,_,_,_,_,_,eq⟩ := record_eq s id root file row
  have keeps : ∀ e : Entry, Entry.id { e with seen := true, row, file } = e.id := fun _ => rfl
  rw [eq]
  exact Buckets.find_modify keeps other

/-- The rows that are looked up. -/
def rows (done : List Verdict) : List Bytes := done.filterMap Verdict.row

@[simp] def Verdict.unexpected (ids : List Bytes) : Verdict → Bool
  | .malformed _ _ => false
  | .unnamed _ => true
  | .result _ _ row => idOf row ∉ ids

@[simp] def Verdict.isMalformed : Verdict → Bool
  | .malformed _ _ => true
  | _ => false

/-- Two rows of one task of the manifest tell different things. -/
def Conflicting (ids : List Bytes) (done : List Verdict) : Prop :=
  ∃ a ∈ rows done, ∃ b ∈ rows done, idOf a = idOf b ∧ idOf a ∈ ids ∧ sameResult a b = false

theorem sameResult_iff : sameResult a b = true ↔ ∀ n ∈ stable, field a n maxrow = field b n maxrow := by
  simp [sameResult]

theorem sameResult_symm (same : sameResult a b = true) : sameResult b a = true := by
  rw [sameResult_iff] at same ⊢
  exact fun n member => (same n member).symm

theorem sameResult_trans (first : sameResult a b = true) (second : sameResult b c = true) :
    sameResult a c = true := by
  rw [sameResult_iff] at first second ⊢
  exact fun n member => (first n member).trans (second n member)

/-- What the state is after the verdicts `done`, for a table with the keys `ids`. -/
structure Accounted (ids : List Bytes) (done : List Verdict) (s : State) : Prop where
  sound : Buckets.Sound Entry.id hstr s.tab
  keys : Buckets.keys Entry.id nhash s.tab = ids
  seen : ∀ id e, lookup s id = some e → (e.seen = true ↔ id ∈ (rows done).map idOf)
  first : ∀ id e, lookup s id = some e → e.seen = true → e.row ∈ rows done ∧ idOf e.row = id
  deduped : s.dedupedTotal = ids.countP (· ∈ (rows done).map idOf)
  again : s.dedupedTotal + s.duplicateTotal + s.conflictTotal = (rows done).countP (idOf · ∈ ids)
  conflicts : s.conflictTotal ≠ 0 ↔ Conflicting ids done
  strangers : s.unexpectedTotal = done.countP (Verdict.unexpected ids)
  broken : s.malformedTotal = done.countP Verdict.isMalformed

theorem rows_append_result (done : List Verdict) (root file row : Bytes) :
    rows (done ++ [.result root file row]) = rows done ++ [row] := by
  simp [rows,Verdict.row]

theorem rows_append_other (done : List Verdict) (none : v.row = none) : rows (done ++ [v]) = rows done := by
  simp [rows,none]

theorem countP_add_one {l : List α} (distinct : l.Nodup) (member : a ∈ l)
    (before : p a = false) (after : q a = true) (others : ∀ x ∈ l, x ≠ a → q x = p x) :
    l.countP q = l.countP p + 1 := by
  obtain ⟨first,last,rfl⟩ := append_of_mem member
  rw [nodup_middle,nodup_cons] at distinct
  have same : ∀ x ∈ first ++ last, q x = p x := by
    intro x there
    refine others x ?_ ?_
    · simp only [mem_append,mem_cons] at there ⊢
      tauto
    · rintro rfl
      exact distinct.1 there
  have firsts : first.countP q = first.countP p :=
    countP_congr (fun x there => by rw [same x (mem_append_left _ there)])
  have lasts : last.countP q = last.countP p :=
    countP_congr (fun x there => by rw [same x (mem_append_right _ there)])
  simp only [countP_append,countP_cons,firsts,lasts,before,after]
  simp
  omega

variable {ids : List Bytes} {done : List Verdict} {s : State}

theorem Accounted.mem_ids (accounted : Accounted ids done s) {id : Bytes} :
    id ∈ ids ↔ ∃ e, lookup s id = some e := by
  rw [← accounted.keys]
  exact accounted.sound.mem_keys hstr_lt

theorem Conflicting.append (conflicting : Conflicting ids done) (v : Verdict) : Conflicting ids (done ++ [v]) := by
  obtain ⟨a,ha,b,hb,rest⟩ := conflicting
  simp only [Conflicting,rows,filterMap_append,mem_append]
  exact ⟨a,.inl ha,b,.inl hb,rest⟩

variable (accounted : Accounted ids done s)
include accounted

/-- While nothing conflicts, a row that agrees with the recorded row of its task agrees with
all rows of the task. -/
theorem Accounted.agree (found : lookup s (idOf row) = some e)
    (seen : e.seen = true) (same : sameResult e.row row = true) (calm : ¬Conflicting ids done)
    (member : other ∈ rows done) (task : idOf other = idOf row) : sameResult other row = true := by
  obtain ⟨recorded,named⟩ := accounted.first _ e found seen
  have known : idOf other ∈ ids := task ▸ accounted.mem_ids.mpr ⟨e,found⟩
  by_contra differ
  refine calm ⟨other,member,e.row,recorded,task.trans named.symm,known,?_⟩
  rw [Bool.eq_false_iff]
  intro agrees
  exact differ (sameResult_trans agrees same)

theorem Accounted.step_other (none : v.row = none)
    (tab : s'.tab = s.tab) (deduped' : s'.dedupedTotal = s.dedupedTotal)
    (duplicate' : s'.duplicateTotal = s.duplicateTotal) (conflict' : s'.conflictTotal = s.conflictTotal)
    (unexpected' : s'.unexpectedTotal = (done ++ [v]).countP (Verdict.unexpected ids))
    (malformed' : s'.malformedTotal = (done ++ [v]).countP Verdict.isMalformed) :
    Accounted ids (done ++ [v]) s' := by
  have lookups : lookup s' = lookup s := by
    unfold lookup
    rw [tab]
  constructor
  · rw [tab]
    exact accounted.sound
  · rw [tab]
    exact accounted.keys
  · rw [lookups,rows_append_other done none]
    exact accounted.seen
  · rw [lookups,rows_append_other done none]
    exact accounted.first
  · rw [deduped',rows_append_other done none]
    exact accounted.deduped
  · rw [deduped',duplicate',conflict',rows_append_other done none]
    exact accounted.again
  · rw [conflict',Conflicting,rows_append_other done none]
    exact accounted.conflicts
  · exact unexpected'
  · exact malformed'

section

variable (root file : Bytes)

theorem Accounted.step_stranger (unknown : lookup s (idOf row) = none) :
    Accounted ids (done ++ [.result root file row]) (unexpected s (idOf row) file) := by
  have stranger : idOf row ∉ ids := by
    rw [accounted.mem_ids,unknown]
    simp
  have other : ∀ id ∈ ids, id ≠ idOf row := fun id member same => stranger (same ▸ member)
  have same := rows_append_result done root file row
  constructor
  · exact accounted.sound
  · exact accounted.keys
  · intro id e found
    have apart := other id (accounted.mem_ids.mpr ⟨e,found⟩)
    rw [accounted.seen id e found,same]
    simp [apart]
  · intro id e found seen
    obtain ⟨member,named⟩ := accounted.first id e found seen
    rw [same]
    exact ⟨mem_append_left _ member,named⟩
  · rw [unexpected,accounted.deduped,same]
    refine countP_congr ?_
    intro id member
    simp [other id member]
  · rw [unexpected,same,countP_append,← accounted.again]
    simp [stranger]
  · refine accounted.conflicts.trans ⟨fun conflicting => conflicting.append _,?_⟩
    rintro ⟨a,ha,b,hb,task,known,differ⟩
    rw [same,mem_append,mem_singleton] at ha hb
    have notA : a ≠ row := fun eq => other _ known (by rw [eq])
    have notB : b ≠ row := fun eq => other _ known (by rw [task,eq])
    exact ⟨a,ha.resolve_right notA,b,hb.resolve_right notB,task,known,differ⟩
  · rw [unexpected,accounted.strangers,countP_append]
    simp [stranger]
  · rw [unexpected,accounted.broken,countP_append]
    simp

section

variable (found : lookup s (idOf row) = some e) (seen : e.seen = true)

include found seen

theorem Accounted.step_again (tab : s'.tab = s.tab) (deduped' : s'.dedupedTotal = s.dedupedTotal)
    (total : s'.duplicateTotal + s'.conflictTotal = s.duplicateTotal + s.conflictTotal + 1)
    (conflicts' : s'.conflictTotal ≠ 0 ↔ Conflicting ids (done ++ [.result root file row]))
    (unexpected' : s'.unexpectedTotal = s.unexpectedTotal) (malformed' : s'.malformedTotal = s.malformedTotal) :
    Accounted ids (done ++ [.result root file row]) s' := by
  have known : idOf row ∈ ids := accounted.mem_ids.mpr ⟨e,found⟩
  have reported : idOf row ∈ (rows done).map idOf := (accounted.seen _ e found).mp seen
  have same := rows_append_result done root file row
  have nothing : ∀ id, id ∈ (rows done ++ [row]).map idOf ↔ id ∈ (rows done).map idOf := by
    intro id
    rw [map_append,mem_append]
    refine or_iff_left_of_imp ?_
    intro here
    rw [mem_map] at here
    obtain ⟨_,here,rfl⟩ := here
    rwa [mem_singleton.mp here]
  have lookups : lookup s' = lookup s := by
    unfold lookup
    rw [tab]
  constructor
  · rw [tab]
    exact accounted.sound
  · rw [tab]
    exact accounted.keys
  · intro id e' found'
    rw [lookups] at found'
    rw [accounted.seen id e' found',same,nothing]
  · intro id e' found' seen'
    rw [lookups] at found'
    obtain ⟨member,named⟩ := accounted.first id e' found' seen'
    rw [same]
    exact ⟨mem_append_left _ member,named⟩
  · rw [deduped',accounted.deduped,same]
    simp only [nothing]
  · have before := accounted.again
    rw [same,countP_append,← before,deduped']
    simp only [countP_cons,countP_nil,known,decide_true]
    simp
    omega
  · exact conflicts'
  · rw [unexpected',accounted.strangers,countP_append]
    simp [known]
  · rw [malformed',accounted.broken,countP_append]
    simp

theorem Accounted.step_duplicate (same : sameResult e.row row = true) :
    Accounted ids (done ++ [.result root file row]) (duplicate s (idOf row) e file) := by
  refine accounted.step_again root file found seen rfl rfl ?_ ?_ rfl rfl
  · simp [duplicate]
    omega
  · refine accounted.conflicts.trans ⟨fun conflicting => conflicting.append _,?_⟩
    rintro ⟨a,ha,b,hb,task,known,differ⟩
    rw [rows_append_result,mem_append,mem_singleton] at ha hb
    by_contra calm
    -- A conflict would need the new row, and the new row agrees with all rows of its task.
    rcases ha with ha | rfl <;> rcases hb with hb | rfl
    · exact calm ⟨a,ha,b,hb,task,known,differ⟩
    · have agrees := accounted.agree found seen same calm ha task
      rw [agrees] at differ
      contradiction
    · have agrees := sameResult_symm (accounted.agree found seen same calm hb task.symm)
      rw [agrees] at differ
      contradiction
    · rw [sameResult_iff.mpr (fun _ _ => rfl)] at differ
      contradiction

theorem Accounted.step_conflict (differ : sameResult e.row row = false) :
    Accounted ids (done ++ [.result root file row]) (conflict s (idOf row) e file row) := by
  refine accounted.step_again root file found seen rfl rfl ?_ ?_ rfl rfl
  · simp [conflict]
    omega
  · obtain ⟨recorded,named⟩ := accounted.first _ e found seen
    have known : idOf row ∈ ids := accounted.mem_ids.mpr ⟨e,found⟩
    refine iff_of_true (Nat.succ_ne_zero _) ⟨e.row,?_,row,?_,named,named ▸ known,differ⟩
    · simp [rows_append_result,recorded]
    · simp [rows_append_result]

end

theorem Accounted.step_record (found : lookup s (idOf row) = some e) (unseen : e.seen = false) :
    Accounted ids (done ++ [.result root file row]) (record s (idOf row) root file row) := by
  have known : idOf row ∈ ids := accounted.mem_ids.mpr ⟨e,found⟩
  have fresh : idOf row ∉ (rows done).map idOf := by
    rw [← accounted.seen _ e found,unseen]
    exact Bool.false_ne_true
  have same := rows_append_result done root file row
  have keeps : ∀ e : Entry, Entry.id { e with seen := true, row, file } = e.id := fun _ => rfl
  have distinct : ids.Nodup := accounted.keys ▸ accounted.sound.keys_nodup
  have lookups := lookup_record s (idOf row) root file row
  obtain ⟨_,_,_,_,_,_,eq⟩ := record_eq s (idOf row) root file row
  constructor
  · rw [eq]
    exact accounted.sound.modify keeps
  · rw [eq]
    exact (Buckets.keys_modify keeps).trans accounted.keys
  · intro id e' found'
    rw [lookups] at found'
    rw [same,map_append,mem_append]
    split at found'
    next here =>
      rw [found] at found'
      cases found'
      simp [here]
    next apart =>
      rw [accounted.seen id e' found']
      simp [apart]
  · intro id e' found' seen'
    rw [lookups] at found'
    rw [same]
    split at found'
    next here =>
      rw [found] at found'
      cases found'
      exact ⟨mem_append_right _ (mem_singleton_self _),here.symm⟩
    next =>
      obtain ⟨member,named⟩ := accounted.first id e' found' seen'
      exact ⟨mem_append_left _ member,named⟩
  · rw [eq,same]
    rw [accounted.deduped]
    refine (countP_add_one distinct known ?_ ?_ ?_).symm
    · simpa using fresh
    · simp
    · intro id _ apart
      simp [apart]
  · have before := accounted.again
    rw [eq,same,countP_append,← before]
    simp only [countP_cons,countP_nil,known,decide_true]
    simp
    omega
  · rw [eq]
    refine accounted.conflicts.trans ⟨fun conflicting => conflicting.append _,?_⟩
    rintro ⟨a,ha,b,hb,task,inIds,differ⟩
    rw [same,mem_append,mem_singleton] at ha hb
    -- The new row is the first of its task, so a conflict is between two older rows.
    have new : ∀ c ∈ rows done, idOf c ≠ idOf row := by
      intro c member task
      exact fresh (mem_map.mpr ⟨c,member,task⟩)
    rcases ha with ha | rfl <;> rcases hb with hb | rfl
    · exact ⟨a,ha,b,hb,task,inIds,differ⟩
    · exact absurd task (new a ha)
    · exact absurd task.symm (new b hb)
    · rw [sameResult_iff.mpr (fun _ _ => rfl)] at differ
      contradiction
  · rw [eq,countP_append,← accounted.strangers]
    simp [known]
  · rw [eq,countP_append,← accounted.broken]
    simp

end

theorem Accounted.step (v : Verdict) :
    Accounted ids (done ++ [v]) (settle s v) := by
  have settled := settle_settled s v
  generalize settle s v = s' at settled
  cases settled with
  | malformed | unnamed =>
    refine accounted.step_other rfl rfl rfl rfl rfl ?_ ?_
    · simp [malformed,unexpected,accounted.strangers]
    · simp [malformed,unexpected,accounted.broken]
  | stranger root file row unknown => exact accounted.step_stranger root file unknown
  | duplicate root file row e found seen same =>
    exact accounted.step_duplicate root file found seen same
  | conflict root file row e found seen differ =>
    exact accounted.step_conflict root file found seen differ
  | record root file row e found unseen => exact accounted.step_record root file found unseen

omit accounted

def tableIds (manifest : Bytes) : List Bytes :=
  Buckets.keys Entry.id nhash (readManifest manifest initial).tab

theorem merge_accounted (manifest : Bytes) (roots : List Root) :
    Accounted (tableIds manifest) (roots.flatMap Root.verdicts) (merge manifest roots) := by
  have loaded := readManifest_loaded manifest
  have unseen := loaded.unseen
  rw [merge_eq]
  refine foldl_invariant _ (fun _ _ v accounted => accounted.step v) [] _ _ ?_
  refine ⟨loaded.sound,rfl,?_,?_,?_,?_,?_,?_,?_⟩
  · intro id e found
    simp [rows,unseen id e found]
  · intro id e found seen
    rw [unseen id e found] at seen
    contradiction
  all_goals rw [loaded.rest]
  · simp [rows]
  · simp [rows]
  · simp [rows,Conflicting]
  · simp
  · simp

theorem Accounted.missing_eq (accounted : Accounted ids done s) :
    s.missing = ids.filter (· ∉ (rows done).map idOf) := by
  rw [State.missing,← accounted.keys,Buckets.keys,filter_map]
  refine congrArg (List.map Entry.id) (filter_congr ?_)
  intro e member
  have found : lookup s e.id = some e := (accounted.sound.find_iff hstr_lt).mpr ⟨member,rfl⟩
  have seen := accounted.seen e.id e found
  cases now : e.seen with
  | true | false => simpa [now] using seen

theorem Accounted.deduped_add_missing (accounted : Accounted ids done s) :
    s.dedupedTotal + s.missingTotal = ids.length := by
  have parts := length_eq_countP_add_countP (fun id => decide (id ∈ (rows done).map idOf)) (l := ids)
  rw [State.missingTotal,accounted.missing_eq,accounted.deduped,← countP_eq_length_filter,parts]
  simp

end Objective9c.Merge
