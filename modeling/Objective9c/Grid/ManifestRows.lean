import Objective9c.Grid.Manifest
import Objective9c.Lib.Lines

/-! Which rows of a manifest reach a worker. -/
namespace Objective9c.Grid

open Text List Fields

/-- A text that stays one line and one C string. -/
def OneLine (text : Bytes) : Prop := ∀ c ∈ text, c ≠ 0 ∧ c ≠ newline

theorem OneLine.of_subset (line : OneLine text) (sub : part ⊆ text) : OneLine part :=
  fun c member => line c (sub member)

theorem rowLines_oneLine (member : line ∈ rowLines data) : line ≠ [] ∧ OneLine line := by
  obtain ⟨piece,nonempty⟩ := mem_filter.mp member
  obtain ⟨clean,sub⟩ := Lines.not_mem_of_mem_splitOn piece
  refine ⟨by simpa using nonempty,?_⟩
  intro c there
  refine ⟨?_,?_⟩
  · simpa using mem_takeWhile_imp (sub.subset there)
  · rintro rfl
    exact clean there

/-- A row of one-line fields whose first five have no tab and no carriage return. -/
structure Tidy (r : ManifestRow) : Prop where
  id : r.id ≠ []
  gate : r.gate ≠ []
  oneLine : ∀ field ∈ [r.id,r.source,r.mutant,r.gate,r.timeout,r.priority], OneLine field
  clean : ∀ field ∈ [r.id,r.source,r.mutant,r.gate,r.timeout], Fields.Clean tabChar (· = carriage) field

def lineOf (r : ManifestRow) : Bytes :=
  Fields.join tabChar [r.id,r.source,r.mutant,r.gate,r.timeout,r.priority]

theorem mem_join (member : field ∈ fields) : field ⊆ join tabChar fields := by
  induction fields with
  | nil => contradiction
  | cons first rest ih =>
    cases rest with
    | nil => simp_all [join]
    | cons =>
      rcases mem_cons.mp member with rfl | member
      · exact subset_append_left _ _
      · intro c there
        exact mem_append_right _ (mem_cons_of_mem _ (ih member there))

theorem join_oneLine (lines : ∀ field ∈ fields, OneLine field) : OneLine (join tabChar fields) := by
  induction fields with
  | nil =>
    intro c member
    contradiction
  | cons first rest ih =>
    cases rest with
    | nil => exact lines first (mem_singleton_self _)
    | cons =>
      intro c member
      rcases mem_append.mp member with here | there
      · exact lines first (mem_cons_self ..) c here
      · rcases mem_cons.mp there with rfl | later
        · decide
        · exact ih (fun field member => lines field (mem_cons_of_mem _ member)) c later

theorem sixFields_tidy (line : OneLine text) (split : sixFields text = some r) : Tidy r ∧ text = lineOf r := by
  unfold sixFields at split
  split at split
  next id source mutant gate timeout priority fields =>
    split at split
    · contradiction
    next present =>
      cases split
      rw [not_or] at present
      obtain ⟨firsts,last,count,clean,joined,again⟩ :=
        join_of_split 5 text (by rw [fields]; rfl)
      rw [fields] at again
      have same : firsts = [id,source,mutant,gate,timeout] ∧ last = priority := by
        have cut : [id,source,mutant,gate,timeout] ++ [priority] = firsts ++ [last] := again
        exact ⟨(append_inj cut (by simp [count])).1.symm,
          by simpa using (append_inj cut (by simp [count])).2.symm⟩
      obtain ⟨rfl,rfl⟩ := same
      refine ⟨⟨present.1,present.2,?_,clean⟩,joined⟩
      intro field member
      exact line.of_subset (joined ▸ mem_join member)
  · contradiction

theorem Tidy.sixFields (tidy : Tidy r) : sixFields (lineOf r) = some r := by
  have split := split_join [r.id,r.source,r.mutant,r.gate,r.timeout] r.priority tidy.clean
  unfold Grid.sixFields
  rw [show Fields.split tabChar (· = carriage) 6 (lineOf r) = _ from split]
  simp [tidy.id,tidy.gate]

theorem sanitiseChar_clean (c : UInt8) :
    sanitiseChar c ≠ tabChar ∧ sanitiseChar c ≠ newline ∧ sanitiseChar c ≠ carriage := by
  unfold sanitiseChar
  split_ifs <;> simp_all [underscore,tabChar,newline,carriage,slash]

def sanitised (r : ManifestRow) : ManifestRow := { r with id := sanitise r.id }

theorem Tidy.sanitised (tidy : Tidy r) : Tidy (sanitised r) := by
  have chars : ∀ c ∈ sanitise r.id, c ≠ 0 ∧ c ≠ tabChar ∧ c ≠ newline ∧ c ≠ carriage := by
    intro c member
    obtain ⟨d,there,rfl⟩ := mem_map.mp member
    obtain ⟨notTab,notLine,notReturn⟩ := sanitiseChar_clean d
    refine ⟨?_,notTab,notLine,notReturn⟩
    have nonzero := (tidy.oneLine r.id (by simp) d (mem_of_mem_take there)).1
    unfold sanitiseChar
    split_ifs
    · decide
    · exact nonzero
  have oneLine := tidy.oneLine
  have clean := tidy.clean
  refine ⟨?_,tidy.gate,?_,?_⟩
  · have near := (boundary_le r.id 3 255).2
    rw [Grid.sanitised,sanitise,ne_eq,map_eq_nil_iff,cut,take_eq_nil_iff]
    rintro (zero | none)
    · omega
    · exact tidy.id none
  · simp only [forall_mem_cons] at oneLine ⊢
    exact ⟨fun c member => ⟨(chars c member).1,(chars c member).2.2.1⟩,oneLine.2⟩
  · simp only [forall_mem_cons] at clean ⊢
    refine ⟨?_,clean.2⟩
    intro c member
    exact ⟨(chars c member).2.1,decide_eq_false (chars c member).2.2.2⟩

theorem Tidy.lineOf (tidy : Tidy r) : lineOf r ≠ [] ∧ OneLine (lineOf r) := by
  constructor
  · have nonempty := tidy.id
    simp [Grid.lineOf,join,nonempty]
  · exact join_oneLine tidy.oneLine

theorem rowLines_chunkData (chunk : Chunk) (tidy : ∀ r ∈ chunk, Tidy r)
    (whole : ∀ r ∈ chunk, (chunkText r).length < 4096) :
    rowLines (chunkData chunk) = chunk.map (fun r => lineOf (sanitised r)) := by
  have rows : chunkData chunk = chunk.flatMap (fun r => lineOf (sanitised r) ++ [newline]) := by
    refine flatMap_congr fun r member => ?_
    exact cut_of_length_le (Nat.le_of_lt_succ (whole r member))
  have zeros : cstr (chunkData chunk) = chunkData chunk := by
    refine cstr_eq_self ?_
    intro c member
    rw [rows] at member
    obtain ⟨r,there,here⟩ := mem_flatMap.mp member
    rw [mem_append,mem_singleton] at here
    rcases here with here | rfl
    · exact ((tidy r there).sanitised.lineOf.2 c here).1
    · decide
  rw [rowLines,zeros,rows]
  clear zeros rows whole
  induction chunk with
  | nil => simp
  | cons r rest ih =>
    obtain ⟨nonempty,oneLine⟩ := (tidy r (mem_cons_self ..)).sanitised.lineOf
    have clean : newline ∉ lineOf (sanitised r) := fun member => (oneLine _ member).2 rfl
    rw [flatMap_cons,append_assoc,singleton_append,
      splitOn_append_cons_self_of_not_mem clean,filter_cons_of_pos (by simpa using nonempty)]
    exact congrArg _ (ih (fun r member => tidy r (mem_cons_of_mem _ member)))

/-- What a row of a chunk does to the task files, at the time of the row. -/
def publish (pending : Published) (stamped : Int × ManifestRow) : Published :=
  if sanitise stamped.2.id ∈ pending then pending
  else if fits stamped.1 stamped.2 then
    pending.insert (sanitise stamped.2.id) (taskRow stamped.1 stamped.2)
  else pending

/-- The rows that a chunk is read as, with the time of each. -/
def readRows (time : Nat → Int) (data : Bytes) : List (Int × ManifestRow) :=
  if readable data then
    (rowLines data).zipIdx.filterMap (fun line => (sixFields line.1).map (fun r => (time line.2,r)))
  else []

/-- The rows in the order they are expanded. -/
def taken (time : Nat → Nat → Int) (order : List Chunk) : List (Int × ManifestRow) :=
  order.zipIdx.flatMap (fun chunk => readRows (time chunk.2) (chunkData chunk.1))

theorem expandChunk_eq (time : Nat → Int) (pending : Published) (data : Bytes) :
    expandChunk time pending data = (readRows time data).foldl publish pending := by
  unfold expandChunk readRows
  split
  · rw [foldl_map,foldl_filterMap]
    refine foldl_ext _ _ _ ?_
    intro pending line _
    cases split : sixFields line.1 <;> simp [expandRow,split,publish]
  · rfl

theorem expandChunks_eq (order : List Chunk) (time : Nat → Nat → Int) :
    expandChunks time (order.map chunkData) = (taken time order).foldl publish ∅ := by
  rw [expandChunks,taken,zipIdx_map,foldl_map,foldl_flatMap]
  refine foldl_ext _ _ _ ?_
  intro pending chunk _
  exact expandChunk_eq _ pending _

theorem taken_tidy (member : x ∈ taken time order) : Tidy x.2 := by
  obtain ⟨chunk,_,here⟩ := mem_flatMap.mp member
  unfold readRows at here
  split at here
  · obtain ⟨line,there,found⟩ := mem_filterMap.mp here
    obtain ⟨r,split,rfl⟩ := Option.map_eq_some_iff.mp found
    exact (sixFields_tidy (rowLines_oneLine (fst_mem_of_mem_zipIdx there)).2 split).1
  · contradiction

/-- Chunks whose rows are whole are read as their rows, with the ids sanitised. -/
theorem taken_whole (time : Nat → Nat → Int) (order : List Chunk) (tidy : ∀ chunk ∈ order, ∀ r ∈ chunk, Tidy r)
    (whole : ∀ chunk ∈ order, ∀ r ∈ chunk, (chunkText r).length < 4096) :
    taken time order = order.zipIdx.flatMap (fun chunk => if readable (chunkData chunk.1) then
      chunk.1.zipIdx.map (fun r => (time chunk.2 r.2,sanitised r.1)) else []) := by
  refine flatMap_congr fun chunk member => ?_
  have there := fst_mem_of_mem_zipIdx member
  rw [readRows]
  split
  · rw [rowLines_chunkData chunk.1 (tidy _ there) (whole _ there),zipIdx_map,filterMap_map,← filterMap_eq_map]
    refine filterMap_congr fun r inChunk => ?_
    have split := (tidy _ there r.1 (fst_mem_of_mem_zipIdx inChunk)).sanitised.sixFields
    simp [split]
  · rfl

theorem lookup_publish (rows : List (Int × ManifestRow)) (pending : Published) (id : Bytes) :
    (rows.foldl publish pending).lookup id = (pending.lookup id).or
        ((rows.find? (fun x => sanitise x.2.id = id && fits x.1 x.2)).map (fun x => taskRow x.1 x.2)) := by
  induction rows generalizing pending with
  | nil => simp
  | cons x rest ih =>
    rw [foldl_cons,ih,publish]
    by_cases here : sanitise x.2.id = id
    · subst here
      by_cases there : sanitise x.2.id ∈ pending
      · obtain ⟨data,found⟩ := Option.isSome_iff_exists.mp (AList.lookup_isSome.mpr there)
        simp [there,found]
      · rw [if_neg there,AList.lookup_eq_none.mpr there]
        by_cases room : fits x.1 x.2 = true
        · simp [room]
        · simp [room,AList.lookup_eq_none.mpr there]
    · have skip : (decide (sanitise x.2.id = id) && fits x.1 x.2) = false := by simp [here]
      rw [find?_cons_of_neg (by simp [skip])]
      split_ifs
      · rfl
      · rw [AList.lookup_insert_ne (Ne.symm here)]
      · rfl

/-- What a worker reads of a last field: up to its first tab, if no carriage return comes before
its second tab. -/
def PriorityRead (priority read : Bytes) : Prop :=
  (priority.splitOn tabChar).head? = some read ∧
    ∀ part ∈ (priority.splitOn tabChar).take 2, carriage ∉ part

theorem decimal_oneLine (n : Int) : OneLine (decimal n) := by
  have digits : ∀ c ∈ (Nat.toDigits 10 n.natAbs).map (fun c => c.toNat.toUInt8), c ≠ 0 ∧ c ≠ newline := by
    intro c member
    obtain ⟨d,there,rfl⟩ := mem_map.mp member
    have digit := Nat.isDigit_of_mem_toDigits (by decide : 0 < 10) (by decide) there
    simp only [Char.isDigit,Bool.and_eq_true,decide_eq_true_eq] at digit
    have low : 48 ≤ d.toNat := digit.1
    have high : d.toNat ≤ 57 := digit.2
    generalize d.toNat = n at low high
    constructor <;> intro same
    all_goals
      have value := congrArg UInt8.toNat same
      simp [newline] at value
      omega
  unfold decimal
  intro c member
  split at member
  · rcases mem_cons.mp member with rfl | member
    · decide
    · exact digits c member
  · exact digits c member

theorem OneLine.clean (oneLine : OneLine field) (noTab : tabChar ∉ field) (noReturn : carriage ∉ field) :
    Fields.Clean tabChar rowEnd field := by
  intro c member
  refine ⟨?_,?_⟩
  · rintro rfl
    exact noTab member
  · have line := (oneLine c member).2
    have back : c ≠ carriage := by
      rintro rfl
      exact noReturn member
    simp [rowEnd,line,back]

theorem OneLine.split_carriage (n : Nat) (oneLine : OneLine field) (noTab : tabChar ∉ field)
    (back : carriage ∈ field) (rest : Bytes) : (split tabChar rowEnd (n+2) (field ++ rest)).length = 1 := by
  obtain ⟨first,last,rfl,before⟩ := eq_append_cons_of_mem back
  have clean : Fields.Clean tabChar rowEnd first := by
    refine OneLine.clean (oneLine.of_subset (subset_append_left _ _)) ?_ before
    intro member
    exact noTab (mem_append_left _ member)
  rw [append_assoc,cons_append,split_stop n clean (by decide) (by decide)]
  rfl

/-- The first part of a field that is followed by a tab: the loop ends in it, takes it with the
field, or goes on with what follows its tab. -/
theorem OneLine.split_part (n : Nat) (oneLine : OneLine field) (rest : Bytes) :
    let read := split tabChar rowEnd (n+2) (field ++ tabChar :: rest)
    ∃ first more, field.splitOn tabChar = first :: more ∧
      ((carriage ∈ first ∧ read.length = 1) ∨
        (carriage ∉ first ∧ read = first :: split tabChar rowEnd (n+1) rest ∧ more = []) ∨
        (carriage ∉ first ∧ ∃ next, OneLine next ∧ more = next.splitOn tabChar ∧
          read = first :: split tabChar rowEnd (n+1) (next ++ tabChar :: rest))) := by
  intro read
  by_cases tab : tabChar ∈ field
  · obtain ⟨first,next,rfl,noTab⟩ := eq_append_cons_of_mem tab
    have lineFirst : OneLine first := oneLine.of_subset (subset_append_left _ _)
    refine ⟨first,_,splitOn_append_cons_self_of_not_mem noTab _,?_⟩
    by_cases back : carriage ∈ first
    · left
      refine ⟨back,?_⟩
      simp only [read,append_assoc]
      exact lineFirst.split_carriage n noTab back _
    · right
      right
      refine ⟨back,next,?_,rfl,?_⟩
      · exact oneLine.of_subset (fun c member => mem_append_right _ (mem_cons_of_mem _ member))
      · simp only [read,append_assoc,cons_append]
        exact split_sep n (lineFirst.clean noTab back) _
  · refine ⟨field,[],splitOn_eq_singleton tab,?_⟩
    by_cases back : carriage ∈ field
    · exact .inl ⟨back,oneLine.split_carriage n tab back _⟩
    · exact .inr (.inl ⟨back,split_sep n (oneLine.clean tab back) _,rfl⟩)

/-- The last field as a worker reads it: three fields, or fewer if it has a carriage return where
a worker takes it for the end of the row. -/
theorem OneLine.split_priority (oneLine : OneLine priority) (last : Bytes) (nonempty : last ≠ []) :
    let read := split tabChar rowEnd 3 (priority ++ tabChar :: (ascii "0" ++ tabChar :: last))
    (∃ first attempt created, read = [first,attempt,created] ∧ created ≠ [] ∧ PriorityRead priority first) ∨
      (read.length < 3 ∧ ∀ first, ¬PriorityRead priority first) := by
  intro read
  have zero : Fields.Clean tabChar rowEnd (ascii "0") := by
    intro c member
    simp [ascii] at member
    subst member
    decide
  obtain ⟨first,more,parts,⟨back,short⟩ | ⟨back,eq,rfl⟩ | ⟨back,next,lineNext,rfl,eq⟩⟩ :=
    oneLine.split_part 1 (ascii "0" ++ tabChar :: last)
  · right
    refine ⟨by simp only [read,short]; decide,?_⟩
    rintro first' ⟨_,none⟩
    exact none first (by simp [parts]) back
  · left
    refine ⟨first,ascii "0",last,?_,nonempty,?_⟩
    · simp only [read,eq,split_sep 0 zero]
      rfl
    · simp [PriorityRead,parts,back]
  · obtain ⟨second,rest,parts',cases⟩ := lineNext.split_part 0 (ascii "0" ++ tabChar :: last)
    rw [parts'] at parts
    rcases cases with ⟨back',short⟩ | ⟨back',eq',rfl⟩ | ⟨back',other,_,_,eq'⟩
    · right
      constructor
      · simp only [read,eq,length_cons,short]
        decide
      · rintro first' ⟨_,none⟩
        exact none second (by simp [parts]) back'
    · left
      refine ⟨first,second,ascii "0" ++ tabChar :: last,?_,by simp,?_⟩
      · simp only [read,eq,eq']
        rfl
      · simp [PriorityRead,parts,back,back']
    · left
      refine ⟨first,second,other ++ tabChar :: (ascii "0" ++ tabChar :: last),?_,by simp,?_⟩
      · simp only [read,eq,eq']
        rfl
      · simp [PriorityRead,parts,back,back']

theorem afterNewline_taskHeader (text : Bytes) : afterNewline (taskHeader ++ text) = some text := by
  have header : taskHeader = taskHeader.dropLast ++ [newline] := by decide
  have clean : newline ∉ taskHeader.dropLast := by decide
  rw [header,append_assoc,singleton_append]
  exact afterNewline_append clean text

def taskFields (now : Int) (r : ManifestRow) : List Bytes :=
  [sanitise r.id,r.source,r.mutant,r.gate,r.timeout,r.priority,ascii "0",decimal now]

theorem Tidy.split_taskText (tidy : Tidy r) (now : Int) : split tabChar rowEnd 8
        (row (taskFields now r)) =
      sanitise r.id :: r.source :: r.mutant :: r.gate :: r.timeout :: split tabChar rowEnd 3
          (r.priority ++ tabChar :: (ascii "0" ++ tabChar :: (decimal now ++ [newline]))) := by
  have tidy' := tidy.sanitised
  have clean : ∀ field ∈ [sanitise r.id,r.source,r.mutant,r.gate,r.timeout],
      Fields.Clean tabChar rowEnd field := by
    intro field member
    have chars := tidy'.clean field member
    refine OneLine.clean (tidy'.oneLine field ?_) ?_ ?_
    · exact mem_append_left [r.priority] member
    · intro there
      exact (chars _ there).1 rfl
    · intro there
      have apart := (chars _ there).2
      simp at apart
  simp only [forall_mem_cons] at clean
  obtain ⟨cleanId,cleanSource,cleanMutant,cleanGate,cleanTimeout,_⟩ := clean
  simp only [row,taskFields,join,append_assoc,cons_append]
  rw [split_sep _ cleanId,split_sep _ cleanSource,split_sep _ cleanMutant,
    split_sep _ cleanGate,split_sep _ cleanTimeout]

theorem Tidy.oneRow (tidy : Tidy r) (now : Int) : OneLine (join tabChar (taskFields now r)) := by
  refine join_oneLine ?_
  intro field member
  have six : field ∈ [sanitise r.id,r.source,r.mutant,r.gate,r.timeout,r.priority] ∨
      field = ascii "0" ∨ field = decimal now := by
    simpa [taskFields,or_assoc] using member
  rcases six with six | rfl | rfl
  · exact tidy.sanitised.oneLine field six
  · intro c member
    simp [ascii] at member
    subst member
    decide
  · exact decimal_oneLine now

theorem cstr_taskHeader (line : OneLine text) (ends : ∀ c ∈ rest, c = newline) :
    cstr (taskHeader ++ (text ++ rest)) = taskHeader ++ (text ++ rest) := by
  refine cstr_eq_self ?_
  intro c member
  rcases mem_append.mp member with header | here
  · have nonzero : 0 ∉ taskHeader := by decide
    exact fun zero => nonzero (zero ▸ header)
  · rcases mem_append.mp here with there | last
    · exact (line c there).1
    · rw [ends c last]
      decide

def SameTask (task : Task) (r : ManifestRow) : Prop :=
  task.source = r.source ∧ task.mutant = r.mutant ∧ task.gate = r.gate ∧ task.timeout = r.timeout ∧
    task.priority = r.priority

/-- The row `w` makes a task file from which a worker reads the task of `r`. -/
def Stands (w r : ManifestRow) : Prop :=
  w.source = r.source ∧ r.source ≠ [] ∧ w.mutant = r.mutant ∧ r.mutant ≠ [] ∧ w.gate = r.gate ∧
    w.timeout = r.timeout ∧ PriorityRead w.priority r.priority

/-- A task file that ends within its row is refused. -/
theorem Tidy.readTask_cut (tidy : Tidy w) (long : 4096 ≤ (taskText now w).length) (taskid : Bytes) :
    readTask taskid (taskRow now w) = none := by
  have near := boundary_le (taskText now w) 3 4095
  have header : taskHeader.length < 4092 := by decide
  obtain ⟨k,stops⟩ := Nat.exists_eq_add_of_le (show taskHeader.length ≤ boundary (taskText now w) 3 4095 by omega)
  have inside : k ≤ (join tabChar (taskFields now w)).length := by
    simp only [taskText,row,length_append,length_singleton] at long
    rw [taskFields]
    omega
  have part : taskRow now w = taskHeader ++ ((join tabChar (taskFields now w)).take k ++ []) := by
    rw [taskRow,cut,stops,taskText,take_length_add_append,row,append_nil]
    exact congrArg _ (take_append_of_le_length inside)
  have line : OneLine ((join tabChar (taskFields now w)).take k) :=
    (tidy.oneRow now).of_subset ( take_subset _ _)
  have unended : afterNewline ((join tabChar (taskFields now w)).take k) = none := by
    have none : ∀ c ∈ (join tabChar (taskFields now w)).take k, decide (c ≠ newline) = true :=
      fun c member => decide_eq_true (line c member).2
    rw [afterNewline,dropWhile_eq_nil_iff.mpr none]
  rw [readTask,part,cstr_taskHeader line (by simp),afterNewline_taskHeader,append_nil]
  simp [unended]

theorem Tidy.readTask_iff (tidy : Tidy w) (short : (taskText now w).length < 4096) (r : ManifestRow) :
    (∃ task, readTask (sanitise w.id) (taskRow now w) = some task ∧ SameTask task r) ↔ Stands w r := by
  have line := tidy.oneRow now
  have whole : cstr (taskText now w) = taskHeader ++ row (taskFields now w) := cstr_taskHeader line (by simp)
  have ended : afterNewline (row (taskFields now w)) = some [] :=
    afterNewline_append (fun member => (line _ member).2 rfl) []
  rw [taskRow,cut_of_length_le (Nat.le_of_lt_succ short)]
  have some : (taskText now w).length ≠ 0 := by
    have header : 0 < taskHeader.length := by decide
    simp only [taskText,length_append]
    omega
  have bounds : ¬((taskText now w).length = 0 ∨ 8192 ≤ (taskText now w).length) := by omega
  have split := tidy.split_taskText now
  have priority := (tidy.oneLine w.priority (by simp)).split_priority (decimal now ++ [newline]) (by simp)
  simp only [readTask,if_neg bounds,whole,afterNewline_taskHeader,ended,split]
  rcases priority with ⟨first,attempt,created,eq,nonempty,read⟩ | ⟨few,none⟩
  · have unique : ∀ other, PriorityRead w.priority other ↔ first = other := by
      intro other
      constructor
      · intro again
        exact Option.some.inj (read.1.symm.trans again.1)
      · rintro rfl
        exact read
    rw [eq]
    simp only [ne_eq,not_true_eq_false,if_false,nonempty,not_false_eq_true,and_true,true_and,Stands,unique]
    constructor
    · rintro ⟨task,found,source,mutant,gate,timeout,priority⟩
      split at found
      next present =>
        cases found
        exact ⟨source,source ▸ present.1,mutant,mutant ▸ present.2,gate,timeout,priority⟩
      next => cases found
    · rintro ⟨source,hasSource,mutant,hasMutant,gate,timeout,priority⟩
      rw [if_pos ⟨source ▸ hasSource,mutant ▸ hasMutant⟩]
      exact ⟨_,rfl,source,mutant,gate,timeout,priority⟩
  · constructor
    · rintro ⟨task,found,_⟩
      simp only [ne_eq,not_true_eq_false,if_false] at found
      split at found
      next fields =>
        have count := congrArg length fields
        simp only [length_cons,length_nil] at count
        omega
      next => cases found
    · rintro ⟨_,_,_,_,_,_,read⟩
      exact absurd read (none _)

/-- The rows a manifest enqueues, in the order of its lines. -/
def counted (line : Bytes) : Option ManifestRow :=
  (sixFields line).filter (fun r => (chunkRow r).length < 4095)

def enqueued (manifest : Bytes) : List ManifestRow := ((rowLines manifest).drop 1).filterMap counted

theorem Chunking.room_files (chunkSize : Nat) (s : Chunking) :
    (s.room chunkSize).files.flatten = s.files.flatten ∧ (s.room chunkSize).count = s.count ∧
      ∃ chunk, (s.room chunkSize).current = some chunk := by
  unfold Chunking.room
  split
  next chunk open_ =>
    split
    · simp [open_]
    · exact ⟨rfl,rfl,chunk,open_⟩
  next shut => simp [shut]

def Counted (lines : List Bytes) (s : Chunking) : Prop :=
  s.files.flatten = lines.filterMap counted ∧ s.count = (lines.filterMap counted).length

theorem Counted.skip (sofar : Counted lines s) (uncounted : counted line = none)
    (files : s'.files.flatten = s.files.flatten) (count : s'.count = s.count) : Counted (lines ++ [line]) s' := by
  have same : (lines ++ [line]).filterMap counted = lines.filterMap counted := by simp [uncounted]
  rw [Counted,same,files,count]
  exact sofar

theorem Counted.row (sofar : Counted lines s) (chunkSize : Nat) (line : Bytes) :
    Counted (lines ++ [line]) (manifestRow chunkSize s line) := by
  obtain ⟨same,again,chunk,current⟩ := s.room_files chunkSize
  unfold manifestRow
  cases split : sixFields line with
  | none => exact sofar.skip (by simp [counted,split]) rfl rfl
  | some r =>
    dsimp only
    split
    next long => exact sofar.skip (by simp [counted,split,long]) same again
    next short =>
      have isCounted : counted line = some r := by
        simp [counted,split,Nat.lt_of_not_ge short]
      obtain ⟨rows,count⟩ := sofar
      constructor
      · rw [filterMap_append,← rows,← same]
        simp [current,isCounted]
      · simp [isCounted,again,count]

theorem chunkManifest_counted (chunkSize : Nat) (manifest : Bytes) :
    Counted ((rowLines manifest).drop 1) (chunkManifest chunkSize manifest) :=
  Transition.foldl_invariant Counted (fun _ _ line sofar => sofar.row chunkSize line) [] _ _ ⟨rfl,rfl⟩

theorem enqueued_tidy (member : r ∈ enqueued manifest) : Tidy r := by
  obtain ⟨line,there,found⟩ := mem_filterMap.mp member
  have split := (Option.filter_eq_some_iff.mp found).1
  exact (sixFields_tidy (rowLines_oneLine (mem_of_mem_drop there)).2 split).1

/-- A task file from which a worker reads the row, under the id of the row as sanitised. -/
def Survives (time : Nat → Nat → Int) (order : List Chunk) (r : ManifestRow) : Prop :=
  ∃ data task, (expandChunks time (order.map chunkData)).lookup (sanitise r.id) = some data ∧
    readTask (sanitise r.id) data = some task ∧ SameTask task r

/-- The first of the rows with the sanitised id of `r` that gets a task file has room in it and stands for `r`. -/
def Carried (time : Nat → Nat → Int) (order : List Chunk) (r : ManifestRow) : Prop :=
  ∃ now w, (taken time order).find? (fun x => sanitise x.2.id = sanitise r.id && fits x.1 x.2) =
    some (now,w) ∧ (taskText now w).length < 4096 ∧ Stands w r

def Repeated (manifest : Bytes) (i : Nat) (r : ManifestRow) : Prop :=
  ∃ j other, j ≠ i ∧ (enqueued manifest)[j]? = some other ∧ other.id = r.id

theorem survives_iff (time : Nat → Nat → Int) (order : List Chunk) (r : ManifestRow) :
    Survives time order r ↔ Carried time order r := by
  unfold Survives Carried
  rw [expandChunks_eq order time,lookup_publish,AList.lookup_empty,Option.none_or]
  constructor
  · rintro ⟨data,task,found,read⟩
    obtain ⟨⟨now,w⟩,first,rfl⟩ := Option.map_eq_some_iff.mp found
    have chosen := find?_some first
    rw [Bool.and_eq_true,decide_eq_true_eq] at chosen
    have tidy := taken_tidy (mem_of_find?_eq_some first)
    rw [← chosen.1] at read
    have short : (taskText now w).length < 4096 := by
      by_contra long
      rw [tidy.readTask_cut (Nat.le_of_not_lt long)] at read
      exact absurd read.1 (by simp)
    exact ⟨now,w,first,short,(tidy.readTask_iff short r).mp ⟨task,read⟩⟩
  · rintro ⟨now,w,first,short,stands⟩
    have chosen := find?_some first
    rw [Bool.and_eq_true,decide_eq_true_eq] at chosen
    have tidy := taken_tidy (mem_of_find?_eq_some first)
    obtain ⟨task,read⟩ := (tidy.readTask_iff short r).mpr stands
    rw [chosen.1] at read
    exact ⟨_,task,by rw [first]; rfl,read⟩

def oneRow : Bytes := ascii "id\tsource\tmutant\tgate\ttimeout\tpriority\nt/1\ta.c\tm/a.c\ttrue\t1000\t1\n"

theorem oneRow_enqueued : 0 < (enqueued oneRow).length := by decide

/-- A manifest row without a source, which the workers refuse. -/
def noSource : Bytes := ascii "id\tsource\tmutant\tgate\ttimeout\tpriority\nt1\t\tm/a.c\ttrue\t1000\t1\n"

theorem noSource_enqueued : 0 < (enqueued noSource).length := by decide

end Objective9c.Grid
