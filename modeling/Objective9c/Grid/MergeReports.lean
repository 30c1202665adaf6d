import Mathlib.Data.List.Dedup
import Objective9c.Grid.MergeAccounts

/-! The output files of `o9mutmerge` against what it read, and what the order of reading
leaves alone. -/
namespace Objective9c.Merge

open List Transition
open Objective9c.Text (Bytes ascii)

mutual

/-- The result files below a node, in the order they are read. -/
def nodeTabs (dir : Bytes) : Node → List Bytes
  | .file name _ => if isTab name then [join dir name] else []
  | .dir name opens entries => if opens then nodesTabs (join dir name) entries else []

def nodesTabs (dir : Bytes) : List Node → List Bytes
  | [] => []
  | node :: rest => nodeTabs dir node ++ nodesTabs dir rest

end

def resultsTabs (dir : Bytes) (opens : Bool) (entries : List Node) : List Bytes :=
  if opens then nodesTabs dir entries else []

def Root.tabs (root : Root) : List Bytes :=
  match root.results with
  | some (opens,entries) => resultsTabs (join root.name (ascii "results")) opens entries
  | none => resultsTabs root.name root.opens root.entries

theorem judge_file (root file : Bytes) (content : Option Bytes) : (judge root file content).file = some file := by
  unfold judge
  cases secondLine content maxrow with
  | none => rfl
  | some =>
    dsimp only
    split_ifs <;> rfl

mutual

theorem nodeVerdicts_files (root dir : Bytes) (node : Node) :
    (nodeVerdicts root dir node).filterMap Verdict.file = nodeTabs dir node := by
  cases node with
  | file =>
    unfold nodeVerdicts nodeTabs
    split
    next => simp [judge_file]
    next => rfl
  | dir name opens entries =>
    unfold nodeVerdicts nodeTabs
    split
    next => exact nodesVerdicts_files root (join dir name) entries
    next => rfl

theorem nodesVerdicts_files (root dir : Bytes) (nodes : List Node) :
    (nodesVerdicts root dir nodes).filterMap Verdict.file = nodesTabs dir nodes := by
  cases nodes with
  | nil => rfl
  | cons node rest =>
    rw [nodesVerdicts,nodesTabs,filterMap_append,nodeVerdicts_files root dir node,
      nodesVerdicts_files root dir rest]

end

theorem resultsVerdicts_files {entries : List Node} :
    (resultsVerdicts root dir opens entries).filterMap Verdict.file = resultsTabs dir opens entries := by
  unfold resultsVerdicts resultsTabs
  split
  next => exact nodesVerdicts_files root dir entries
  next => rfl

theorem Root.verdicts_files (root : Root) : root.verdicts.filterMap Verdict.file = root.tabs := by
  unfold Root.verdicts Root.tabs
  cases root.results with
  | none | some => exact resultsVerdicts_files

/-- The ids of the lines of `report.tab`. -/
def State.reportedIds (s : State) : List Bytes := s.reportb.map (fun line => idOf line.1)

@[simp] def State.malformedFiles (s : State) : List Bytes :=
  (s.badb.filter (fun line => line.2 = .emptyOrMissingResultRow)).map (·.1)

/-- The result files of the lines of the five output files. -/
def State.listed (s : State) : List Bytes :=
  s.reportb.map (·.2.2) ++ s.dupb.map (·.2.2) ++ s.confb.map (·.2.2.1) ++ s.unexpb.map (·.2) ++
    s.malformedFiles

/-- The lines of the output files against the verdicts. -/
structure Listed (done : List Verdict) (s : State) : Prop where
  files : ∀ file, (done.filterMap Verdict.file).count file = s.listed.count file
  report : s.dedupedTotal = s.reportb.length
  dup : s.duplicateTotal = s.dupb.length
  conf : s.conflictTotal = s.confb.length
  unexp : s.unexpectedTotal = s.unexpb.length
  bad : s.malformedTotal = s.badb.length
  once : s.reportedIds.Nodup
  seen : ∀ id, id ∈ s.reportedIds ↔ ∃ e, lookup s id = some e ∧ e.seen = true

theorem count_files_append (done : List Verdict) (v : Verdict) (file : Bytes) :
    ((done ++ [v]).filterMap Verdict.file).count file =
      (done.filterMap Verdict.file).count file + v.file.toList.count file := by
  cases found : v.file <;> simp [found]

theorem State.count_listed (s : State) (file : Bytes) : s.listed.count file =
      (s.reportb.map (·.2.2)).count file + (s.dupb.map (·.2.2)).count file +
        (s.confb.map (·.2.2.1)).count file + (s.unexpb.map (·.2)).count file + s.malformedFiles.count file := by
  simp only [State.listed,count_append]

theorem Listed.step (listed : Listed done s) (v : Verdict) : Listed (done ++ [v]) (settle s v) := by
  have settled := settle_settled s v
  obtain ⟨files,report,dup,conf,unexp,bad,once,seen⟩ := listed
  generalize settle s v = s' at settled
  cases settled with
  | malformed path reason =>
    refine ⟨?_,report,dup,conf,unexp,?_,once,seen⟩
    · intro file
      rw [count_files_append,files file,State.count_listed,State.count_listed]
      cases reason <;> simp [malformed,Verdict.file]
      omega
    · simp [malformed,bad]
  | unnamed | stranger | duplicate | conflict =>
    refine ⟨?_,report,?_,?_,?_,bad,once,seen⟩
    · intro file
      rw [count_files_append,files file,State.count_listed,State.count_listed]
      simp [unexpected,duplicate,conflict,Verdict.file]
      omega
    all_goals simp [unexpected,duplicate,conflict,dup,conf,unexp]
  | record root path row e found unseen =>
    have lookups := lookup_record s (idOf row) root path row
    have fresh : idOf row ∉ s.reportedIds := by
      rw [seen]
      rintro ⟨other,there,already⟩
      cases found.symm.trans there
      rw [unseen] at already
      contradiction
    obtain ⟨_,_,_,_,_,_,eq⟩ := record_eq s (idOf row) root path row
    have ids : (record s (idOf row) root path row).reportedIds = s.reportedIds ++ [idOf row] := by
      rw [eq]
      simp [State.reportedIds]
    refine ⟨?_,?_,?_,?_,?_,?_,?_,?_⟩
    · intro file
      rw [eq,count_files_append,files file,State.count_listed,State.count_listed]
      simp [Verdict.file]
      omega
    · simp [eq,report]
    · simp [eq,dup]
    · simp [eq,conf]
    · simp [eq,unexp]
    · simp [eq,bad]
    · rw [ids]
      exact nodup_append.mpr ⟨once,nodup_singleton _,by
        rintro a ha b hb rfl
        exact fresh (mem_singleton.mp hb ▸ ha)⟩
    · intro id
      rw [ids,mem_append,mem_singleton,seen,lookups]
      by_cases here : id = idOf row
      · subst here
        simp [found]
      · simp [here]

theorem merge_listed (manifest : Bytes) (roots : List Root) :
    Listed (roots.flatMap Root.verdicts) (merge manifest roots) := by
  have loaded := readManifest_loaded manifest
  have unseen := loaded.unseen
  rw [merge_eq]
  refine foldl_invariant _ (fun _ _ v listed => listed.step v) [] _ _ ?_
  have rest := loaded.rest
  generalize readManifest manifest initial = s at unseen rest
  constructor
  case seen =>
    intro id
    have none : s.reportedIds = [] := by
      rw [rest]
      rfl
    rw [none]
    constructor
    · intro member
      contradiction
    · rintro ⟨e,found,seen⟩
      rw [unseen id e found] at seen
      contradiction
  all_goals rw [rest]
  all_goals simp [State.listed,State.reportedIds]

theorem settle_manifestTotal (s : State) (v : Verdict) : (settle s v).manifestTotal = s.manifestTotal := by
  have settled := settle_settled s v
  generalize settle s v = s' at settled
  cases settled with
  | record root file row =>
    obtain ⟨_,_,_,_,_,_,eq⟩ := record_eq s (idOf row) root file row
    rw [eq]
  | malformed | unnamed | stranger | duplicate | conflict => rfl

theorem tableIds_perm (manifest : Bytes) : (tableIds manifest).Perm (manifestIds manifest).dedup := by
  have loaded := readManifest_loaded manifest
  refine (perm_ext_iff_of_nodup loaded.sound.keys_nodup (nodup_dedup _)).mpr ?_
  intro id
  rw [mem_dedup]
  exact loaded.mem_ids id

theorem merge_manifestTotal (manifest : Bytes) (roots : List Root) :
    (merge manifest roots).manifestTotal = (manifestIds manifest).dedup.length := by
  rw [merge_eq,← (tableIds_perm manifest).length_eq]
  refine foldl_invariant (fun _ s => s.manifestTotal = (tableIds manifest).length)
    (fun _ s v kept => (settle_manifestTotal s v).trans kept) [] _ _ ?_
  exact (readManifest_loaded manifest).total

/-- The five output files share out the result files, each one's total is the number of its lines, no id is reported
twice, and an id of the manifest is reported or missing. -/
theorem merge_accounts_for_every_file (manifest : Bytes) (roots : List Root) :
    let s := merge manifest roots
    (roots.flatMap Root.tabs).Perm s.listed ∧
    (s.dedupedTotal = s.reportb.length ∧ s.duplicateTotal = s.dupb.length ∧
      s.conflictTotal = s.confb.length ∧ s.unexpectedTotal = s.unexpb.length ∧
      s.malformedTotal = s.badb.length) ∧
    s.reportedIds.Nodup ∧ (∀ id ∈ s.reportedIds, id ∈ manifestIds manifest) ∧
    s.manifestTotal = (manifestIds manifest).dedup.length ∧
    s.reportedIds.length + s.missingTotal = s.manifestTotal := by
  intro s
  have accounted := merge_accounted manifest roots
  have listed := merge_listed manifest roots
  have total := merge_manifestTotal manifest roots
  refine ⟨?_,⟨listed.report,listed.dup,listed.conf,listed.unexp,listed.bad⟩,listed.once,?_,total,?_⟩
  · rw [perm_iff_count]
    intro file
    rw [← listed.files file,filterMap_flatMap]
    simp only [Root.verdicts_files]
  · intro id member
    obtain ⟨e,found,_⟩ := (listed.seen id).mp member
    rw [← mem_dedup,← (tableIds_perm manifest).mem_iff]
    exact accounted.mem_ids.mpr ⟨e,found⟩
  · have reported : s.reportedIds.length = s.dedupedTotal := by
      rw [State.reportedIds,length_map]
      exact listed.report.symm
    rw [reported,total,← (tableIds_perm manifest).length_eq]
    exact accounted.deduped_add_missing

/-- The same directory entries in another order, at every depth. -/
inductive Shuffled : List Node → List Node → Prop
  | nil : Shuffled [] []
  | file (rest : Shuffled l l') : Shuffled (.file name content :: l) (.file name content :: l')
  | dir (below : Shuffled entries entries') (rest : Shuffled l l') :
      Shuffled (.dir name opens entries :: l) (.dir name opens entries' :: l')
  | swap : Shuffled (a :: b :: l) (b :: a :: l)
  | trans (first : Shuffled l l') (second : Shuffled l' l'') : Shuffled l l''

structure Root.Shuffled (root root' : Root) : Prop where
  name : root.name = root'.name
  opens : root.opens = root'.opens
  entries : Merge.Shuffled root.entries root'.entries
  results : Option.Rel (fun below below' => below.1 = below'.1 ∧ Merge.Shuffled below.2 below'.2)
    root.results root'.results

/-- The same roots in another order, with the entries of their directories in another order. -/
def Rearranged (roots roots' : List Root) : Prop :=
  ∃ middle, roots.Perm middle ∧ List.Forall₂ Root.Shuffled middle roots'

theorem Shuffled.verdicts (shuffled : Shuffled nodes nodes') (root dir : Bytes) :
    (nodesVerdicts root dir nodes).Perm (nodesVerdicts root dir nodes') := by
  induction shuffled generalizing dir with
  | nil => exact .refl _
  | file rest ih =>
    exact (ih dir).append_left _
  | @dir _ _ _ _ name opens below rest ihBelow ih =>
    refine List.Perm.append ?_ (ih dir)
    cases opens with
    | true => exact ihBelow (join dir name)
    | false => exact .refl _
  | swap =>
    simp only [nodesVerdicts,← append_assoc]
    exact perm_append_comm.append_right _
  | trans _ _ first second => exact (first dir).trans (second dir)

theorem Shuffled.resultsVerdicts (shuffled : Shuffled nodes nodes') (root dir : Bytes) (opens : Bool) :
    (resultsVerdicts root dir opens nodes).Perm (resultsVerdicts root dir opens nodes') := by
  cases opens with
  | true => exact shuffled.verdicts root dir
  | false => exact .refl _

theorem Root.Shuffled.verdicts {root : Root} (shuffled : root.Shuffled root') :
    root.verdicts.Perm root'.verdicts := by
  obtain ⟨name,opens,entries,results⟩ := shuffled
  unfold Root.verdicts
  rw [← name,← opens]
  generalize root.results = below,root'.results = below' at results
  cases results with
  | none => exact entries.resultsVerdicts _ _ _
  | @some below below' same =>
    obtain ⟨opened,below⟩ := below
    obtain ⟨rfl,shuffled⟩ := same
    exact shuffled.resultsVerdicts _ _ _

theorem Rearranged.verdicts (rearranged : Rearranged roots roots') :
    (roots.flatMap Root.verdicts).Perm (roots'.flatMap Root.verdicts) := by
  obtain ⟨middle,order,shuffled⟩ := rearranged
  refine (order.flatMap_right _).trans ?_
  clear order
  induction shuffled with
  | nil => exact .refl _
  | cons here _ ih => exact here.verdicts.append ih

variable {ids : List Bytes} {done done' : List Verdict} {s s' : State}

theorem Conflicting.perm (order : done.Perm done') (conflicting : Conflicting ids done) :
    Conflicting ids done' := by
  obtain ⟨a,ha,b,hb,rest⟩ := conflicting
  have same := order.filterMap Verdict.row
  exact ⟨a,same.mem_iff.mp ha,b,same.mem_iff.mp hb,rest⟩

section SameVerdicts

variable (first : Accounted ids done s) (second : Accounted ids done' s') (order : done.Perm done')

include first second order

theorem missing_of_perm : s.missing = s'.missing := by
  have same := (order.filterMap Verdict.row).map idOf
  rw [first.missing_eq,second.missing_eq]
  refine filter_congr ?_
  intro id _
  exact decide_eq_decide.mpr (not_congr same.mem_iff)

theorem dedupedTotal_of_perm : s.dedupedTotal = s'.dedupedTotal := by
  have same := (order.filterMap Verdict.row).map idOf
  rw [first.deduped,second.deduped]
  refine countP_congr ?_
  intro id _
  rw [decide_eq_true_eq,decide_eq_true_eq]
  exact same.mem_iff

/-- Which of the further rows of a task are duplicates depends on its first row; how many
further rows there are does not. -/
theorem again_of_perm : s.duplicateTotal + s.conflictTotal = s'.duplicateTotal + s'.conflictTotal := by
  have deduped := dedupedTotal_of_perm first second order
  have known := (order.filterMap Verdict.row).countP_eq (fun row => decide (idOf row ∈ ids))
  have again := first.again
  have again' := second.again
  rw [rows] at again again'
  omega

theorem conflictTotal_of_perm : s.conflictTotal ≠ 0 ↔ s'.conflictTotal ≠ 0 := by
  rw [first.conflicts,second.conflicts]
  exact ⟨Conflicting.perm order,Conflicting.perm order.symm⟩

theorem exitStatus_of_perm : s.exitStatus = s'.exitStatus := by
  have strangers : s.unexpectedTotal = s'.unexpectedTotal := by
    rw [first.strangers,second.strangers,order.countP_eq]
  have broken : s.malformedTotal = s'.malformedTotal := by
    rw [first.broken,second.broken,order.countP_eq]
  unfold State.exitStatus State.missingTotal
  simp only [missing_of_perm first second order,conflictTotal_of_perm first second order,strangers,
    broken]

end SameVerdicts

/-- Reading the roots, or the entries of any directory, in another order gives the same exit status, missing ids, and
numbers of reported ids, duplicates and conflicts. -/
theorem merge_order_independent (manifest : Bytes) (roots roots' : List Root)
    (rearranged : Rearranged roots roots') :
    let s := merge manifest roots
    let s' := merge manifest roots'
    s.exitStatus = s'.exitStatus ∧ s.missing = s'.missing ∧
      s.reportedIds.dedup.length = s'.reportedIds.dedup.length ∧
      s.duplicateTotal + s.conflictTotal = s'.duplicateTotal + s'.conflictTotal := by
  intro s s'
  have order := rearranged.verdicts
  have first := merge_accounted manifest roots
  have second := merge_accounted manifest roots'
  have listed := merge_listed manifest roots
  have listed' := merge_listed manifest roots'
  refine ⟨exitStatus_of_perm first second order,missing_of_perm first second order,?_,
    again_of_perm first second order⟩
  rw [listed.once.dedup,listed'.once.dedup,State.reportedIds,State.reportedIds,length_map,
    length_map,← listed.report,← listed'.report]
  exact dedupedTotal_of_perm first second order

/-- Two results of one task that differ in their outcome. -/
def killedTask : Node := .file (ascii "a.tab") (some (ascii "task_id\nt1\tw1\ts\tm\tkilled\t1\t2\n"))
def survivedTask : Node := .file (ascii "b.tab") (some (ascii "task_id\nt1\tw2\ts\tm\tsurvived\t0\t3\n"))

def flatRoot (name : String) (entries : List Node) : Root := ⟨ascii name,none,true,entries⟩

theorem twoOutcomes_order_independent :
    let s := merge (ascii "task_id\nt1\n") [flatRoot "r" [killedTask,survivedTask],flatRoot "q" []]
    let s' := merge (ascii "task_id\nt1\n") [flatRoot "q" [],flatRoot "r" [survivedTask,killedTask]]
    s.exitStatus = s'.exitStatus ∧ s.missing = s'.missing ∧
      s.reportedIds.dedup.length = s'.reportedIds.dedup.length ∧
      s.duplicateTotal + s.conflictTotal = s'.duplicateTotal + s'.conflictTotal := by
  refine merge_order_independent _ _ _ ⟨_,List.Perm.swap _ _ _,?_⟩
  exact .cons ⟨rfl,rfl,.nil,.none⟩ (.cons ⟨rfl,rfl,.swap,.none⟩ .nil)

/-- More roots only take ids off the missing ones, so what is missing and how many ids are reported depends on which
roots there are, not on their order or how often one is merged. -/
theorem merge_subset (manifest : Bytes) (sub : roots ⊆ more) :
    (merge manifest more).missing.Sublist (merge manifest roots).missing ∧
      (merge manifest roots).dedupedTotal ≤ (merge manifest more).dedupedTotal := by
  have less := merge_accounted manifest roots
  have both := merge_accounted manifest more
  have seen : (rows (roots.flatMap Root.verdicts)).map idOf ⊆ (rows (more.flatMap Root.verdicts)).map idOf := by
    refine map_subset _ fun row member => ?_
    simp only [rows,mem_filterMap,mem_flatMap] at member ⊢
    obtain ⟨v,⟨root,merged,judged⟩,read⟩ := member
    exact ⟨v,⟨root,sub merged,judged⟩,read⟩
  rw [both.missing_eq,less.missing_eq,both.deduped,less.deduped]
  constructor
  · refine monotone_filter_right _ fun id unseen => ?_
    exact decide_eq_true (mt (@seen id) (of_decide_eq_true unseen))
  · exact countP_mono_left fun id _ reported => decide_eq_true (seen (of_decide_eq_true reported))

theorem twoRoots_missing : (merge (ascii "task_id\nt1\n") [flatRoot "q" [],flatRoot "r" [killedTask]]).missing.Sublist
    (merge (ascii "task_id\nt1\n") [flatRoot "q" []]).missing :=
  (merge_subset _ (by simp)).1

end Objective9c.Merge
