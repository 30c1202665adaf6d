import Mathlib.Data.List.Basic
import Objective9c.Lib.Transition

/-! The import files of the app facade. A fid that opens one for writing works on a stage of
its own, and the stage replaces the file's content when the fid is clunked. Readers only see
the file. One import file is followed, from its creation on, with any number of fids. -/
namespace Objective9c.Facade.Imports

open Option Transition

abbrev Bytes := List UInt8

structure Stage where
  data : Bytes
  wrote : Bool
  commit : Bool
  failed : Bool
  deriving DecidableEq

/-- `o9app_import_stage_new`, with the content of the file. -/
def importStageNew (imp : Bytes) (copy : Bool) : Stage := ⟨if copy then imp else [],false,false,false⟩

def vlong (n : Int) : Int := n.bmod (2^64)

def int32 (n : Int) : Int := n.bmod (2^32)

/-- `memset` and `memmove` into a buffer; `none` when they leave it. -/
def store (buffer : Bytes) (start : Int) (bytes : Bytes) : Option Bytes :=
  if start < 0 ∨ start + bytes.length > buffer.length then none
  else some (buffer.take start.toNat ++ bytes ++ buffer.drop (start.toNat + bytes.length))

def clear (buffer : Bytes) (start len : Int) : Option Bytes :=
  if len < 0 then none else store buffer start (List.replicate len.toNat 0)

/-- `realloc` to a larger size: the new cells hold anything. -/
def grow (junk : Nat → UInt8) (data : Bytes) (size : Nat) : Bytes :=
  data ++ (List.range (size - data.length)).map junk

inductive Written where
  | stored (st : Stage)
  | refused (st : Stage) (why : String)
  | fault
  deriving DecidableEq

def importLimit : Int := 4*1024*1024

/-- The end of `o9app_import_write`, on the buffer the request works on. -/
def importStore (st : Stage) (buffer : Option Bytes) (off : Int) (bytes : Bytes) : Written :=
  match buffer with
  | none => .fault
  | some buffer =>
    match (if bytes.length > 0 then store buffer (int32 off) bytes else some buffer) with
    | none => .fault
    | some data => .stored { st with data := data, wrote := true, commit := true }

/-- `o9app_import_write` on the fid's stage. `memory` says whether `realloc` succeeds. -/
def importWrite (memory : Bool) (junk : Nat → UInt8) (st : Stage) (off : Int) (bytes : Bytes) : Written :=
  let sum := vlong (off + bytes.length)
  if off < 0 ∨ sum > importLimit then .refused { st with failed := true } "import too large"
  else
    let need := int32 sum
    if need > st.data.length then
      if !memory then .refused { st with failed := true } "no memory"
      else
        let np := grow junk st.data need.toNat
        let np := if off > st.data.length then clear np st.data.length (int32 (off - st.data.length))
          else some np
        importStore st np off bytes
    else importStore st (some st.data) off bytes

/-- What `o9app_root_read` copies out of an import file. -/
def rootRead (data : Bytes) (off count : Nat) : Bytes :=
  if off ≥ data.length then []
  else
    let count := if off + count > data.length then data.length - off else count
    (data.drop off).take count

/-- A fid on the file; `omode` is none until it is opened. -/
structure Fid where
  omode : Option Nat
  stage : Option Stage
  deriving DecidableEq

/-- `corrupt` is set once a handler has left the buffer it works on. -/
structure State where
  file : Option Bytes
  linked : Bool
  fids : Nat → Option Fid
  corrupt : Bool

@[simp] def initial : State := ⟨none,false,fun _ => none,false⟩

/-- Requests on the file; `memory` says whether the handler's allocations succeed. -/
inductive Op where
  | create (fid mode : Nat) (memory : Bool)
  | walk (fid : Nat)
  | open (fid mode : Nat) (memory : Bool)
  | write (fid : Nat) (off : Int) (bytes : Bytes) (memory : Bool) (junk : Nat → UInt8)
  | read (fid off count : Nat)
  | clunk (fid : Nat)
  | remove (fid : Nat)

inductive Reply where
  | done
  | count (n : Nat)
  | data (bytes : Bytes)
  | error (text : String)
  deriving DecidableEq

@[simp] def State.setFid (s : State) (id : Nat) (f : Option Fid) : State :=
  { s with fids := fun i => if i = id then f else s.fids i }

def truncates (mode : Nat) : Bool := mode.testBit 4

def writes (mode : Nat) : Bool := mode % 4 == 1 || mode % 4 == 2

/-- The import branch of `o9app_open`. -/
def openImport (file : Bytes) (mode : Nat) (memory : Bool) : Option (Option Stage) :=
  if writes mode || truncates mode then
    if !memory then none
    else
      let st := importStageNew file !truncates mode
      some (some (if truncates mode then { st with commit := true } else st))
  else some none

/-- `o9app_import_commit`, as `o9app_destroyfid` calls it. -/
def importCommit (s : State) (id : Nat) (f : Fid) : State :=
  match f.stage with
  | some st =>
    if st.commit && !st.failed then ({ s with file := some st.data }).setFid id none else s.setFid id none
  | none => s.setFid id none

/-- One request and its reply. An unknown fid, an open of an open fid, and a write through a fid that is not open for
it are refused by the 9P library and no steps. -/
def serve : Op → State → Option (State × Reply)
  | .create id mode memory, s =>
    if s.corrupt || (s.fids id).isSome then none
    else if s.file.isSome then some (s,.error "file exists")
    else if !memory then some (s,.error "no memory")
    else
      let st := { importStageNew [] false with commit := true }
      some (({ s with file := some [], linked := true }).setFid id (some ⟨some mode,some st⟩),.done)
  | .walk id, s =>
    if s.corrupt || (s.fids id).isSome || !s.linked then none
    else some (s.setFid id (some ⟨none,none⟩),.done)
  | .open id mode memory, s =>
    match s.corrupt, s.file, s.fids id with
    | false, some file, some ⟨none,stage⟩ =>
      match openImport file mode memory with
      | none => some (s,.error "no memory")
      | some fresh => some (s.setFid id (some ⟨some mode,fresh.or stage⟩),.done)
    | _, _, _ => none
  | .write id off bytes memory junk, s =>
    match s.corrupt, s.file, s.fids id with
    | false, some file, some ⟨some mode,stage⟩ =>
      if !writes mode || off < -2^63 || off ≥ 2^63 || bytes.length ≥ 2^31 then none
      else
        let st := stage.getD (importStageNew file true)
        match importWrite memory junk st off bytes with
        | .stored st => some (s.setFid id (some ⟨some mode,some st⟩),.count bytes.length)
        | .refused st why => some (s.setFid id (some ⟨some mode,some st⟩),.error why)
        | .fault => some ({ s with corrupt := true },.count bytes.length)
    | _, _, _ => none
  | .read id off count, s =>
    match s.corrupt, s.file, s.fids id with
    | false, some file, some ⟨some _,_⟩ => some (s,.data (rootRead file off count))
    | _, _, _ => none
  | .clunk id, s =>
    match s.corrupt, s.fids id with
    | false, some f => some (importCommit s id f,.done)
    | _, _ => none
  | .remove id, s =>
    match s.corrupt, s.fids id with
    | false, some f =>
      if s.linked then some (importCommit { s with linked := false } id f,.done)
      else some (importCommit s id f,.error "remove prohibited")
    | _, _ => none

def step (op : Op) (s : State) : Option State := (serve op s).map Prod.fst

/-- A write into a sparse file: a gap before it reads as zeros. -/
def overlay (content : Bytes) (off : Nat) (bytes : Bytes) : Bytes :=
  let padded := content ++ List.replicate (off - content.length) 0
  padded.take off ++ bytes ++ padded.drop (off + bytes.length)

/-- The fold of a fid's writes over what it started from. -/
def staged (base : Bytes) (writes : List (Nat × Bytes)) : Bytes :=
  writes.foldl (fun content write => overlay content write.1 write.2) base

def writesOf (id : Nat) : List Op → List (Nat × Bytes) :=
  List.filterMap fun
    | .write fid off bytes _ _ => if fid = id then some (off.toNat,bytes) else none
    | _ => none

/-- The request opens the file, and `base` is what the fid's stage starts from. -/
def Opens (s : State) (id : Nat) (base : Bytes) : Op → Prop
  | .create fid _ _ => fid = id ∧ base = []
  | .open fid mode _ => fid = id ∧ if truncates mode then base = [] else s.file = some base
  | _ => False

def Op.Ends (id : Nat) (op : Op) : Prop := op = .clunk id ∨ op = .remove id

def Answered (id : Nat) (op : Op) (s : State) : Prop :=
  ∀ off bytes memory junk, op = .write id off bytes memory junk →
    ∃ next n, serve op s = some (next,.count n)

/-- The fid was opened in the run and not ended since; `base` is what it started from and
`during` what was served since then. -/
structure Opened (past : List Op) (id : Nat) (base : Bytes) (during : List Op) (t : State) : Prop where
  origin : ∃ before opening s, past = before ++ opening :: during ∧
    Transition.run step before initial = some s ∧ step opening s = some t ∧ Opens s id base opening
  lasts : ∀ op ∈ during, ¬op.Ends id

/-- The content is all that one fid has staged, which was then ended without a failed write. -/
def Committed (past : List Op) (content : Bytes) : Prop :=
  ∃ earlier ending later id base during t, past = earlier ++ ending :: later ∧
    Opened earlier id base during t ∧ ending.Ends id ∧
    Transition.Meets step (Answered id) during t ∧ content = staged base (writesOf id during)

/-- The file is empty or holds what one fid has committed, reads return its bytes, and no
handler has left its buffer. -/
structure Atomic (past : List Op) (s : State) : Prop where
  whole : s.corrupt = false
  file : ∀ content, s.file = some content → content = [] ∨ Committed past content
  reads : ∀ id off count next reply, serve (.read id off count) s = some (next,reply) →
    ∃ content, s.file = some content ∧ reply = .data ((content.drop off).take count)

/-- A write does not reach past the largest offset there is. -/
def Op.Fits : Op → Prop
  | .write _ off bytes _ _ => off + bytes.length < 2^63
  | _ => True

section Handlers

theorem rootRead_eq (data : Bytes) (off count : Nat) : rootRead data off count = (data.drop off).take count := by
  unfold rootRead
  split
  next past => rw [List.drop_of_length_le past,List.take_nil]
  next =>
    split
    · rw [List.take_of_length_le (by simp),List.take_of_length_le (by simp; omega)]
    · rfl

theorem vlong_eq (low : -2^63 ≤ n) (high : n < 2^63) : vlong n = n := by
  unfold vlong
  rw [Int.bmod_eq_of_le] <;> omega

theorem int32_eq (low : -2^31 ≤ n) (high : n < 2^31) : int32 n = n := by
  unfold int32
  rw [Int.bmod_eq_of_le] <;> omega

theorem store_natCast (buffer bytes : Bytes) (start : Nat) (inside : start + bytes.length ≤ buffer.length) :
    store buffer start bytes = some (buffer.take start ++ bytes ++ buffer.drop (start + bytes.length)) := by
  rw [store,if_neg (by omega)]
  rfl

theorem importStore_of_inside (st : Stage) (buffer bytes : Bytes) (off : Nat) (small : off < 2^31)
    (inside : off + bytes.length ≤ buffer.length) :
    importStore st (some buffer) off bytes = .stored { st with
      data := buffer.take off ++ bytes ++ buffer.drop (off + bytes.length), wrote := true, commit := true } := by
  unfold importStore
  dsimp only
  rw [int32_eq (by omega) (by omega),store_natCast buffer bytes off inside]
  by_cases some' : bytes.length > 0
  · rw [if_pos some']
  · have empty : bytes = [] := List.eq_nil_of_length_eq_zero (by omega)
    subst empty
    simp

/-- A write that fits either lands in the stage as a sparse write or marks it as failed. -/
theorem importWrite_cases (memory : Bool) (junk : Nat → UInt8) (st : Stage) (off : Int) (bytes : Bytes)
    (low : -2^63 ≤ off) (short : bytes.length < 2^31) (fits : off + bytes.length < 2^63) :
    (∃ why, importWrite memory junk st off bytes = .refused { st with failed := true } why) ∨
      importWrite memory junk st off bytes = .stored { st with
        data := overlay st.data off.toNat bytes, wrote := true, commit := true } := by
  unfold importWrite
  dsimp only
  rw [vlong_eq (by omega) fits]
  split
  next => exact .inl ⟨_,rfl⟩
  next inside =>
    simp only [importLimit,not_or,Int.not_lt] at inside
    obtain ⟨start,rfl⟩ := Int.eq_ofNat_of_zero_le inside.1
    rw [int32_eq (by omega) (by omega)]
    simp only [overlay,Int.toNat_natCast]
    split
    next grows =>
      split
      next => exact .inl ⟨_,rfl⟩
      next =>
        right
        have size : (grow junk st.data (start + bytes.length : Int).toNat).length = start + bytes.length := by
          simp only [grow,List.length_append,List.length_map,List.length_range]
          omega
        have old (n : Nat) (bound : n ≤ st.data.length) :
            (grow junk st.data (start + bytes.length : Int).toNat).take n = st.data.take n :=
          List.take_append_of_le_length bound
        generalize grow junk st.data (start + bytes.length : Int).toNat = np at size old
        split
        next gap =>
          -- the gap is cleared, and the write fills what is left of the new cells
          rw [int32_eq (by omega) (by omega),clear,if_neg (by omega),store_natCast _ _ _ (by simp; omega),
            old _ (Nat.le_refl _),List.take_length]
          have zeros : (start - st.data.length : Int).toNat = start - st.data.length := by omega
          rw [zeros,importStore_of_inside st _ bytes start (by omega) (by simp; omega),
            List.take_append_of_le_length (by simp; omega),List.drop_of_length_le (by simp; omega),
            List.drop_of_length_le (by simp; omega)]
        next adjoins =>
          have none : start - st.data.length = 0 := by omega
          rw [importStore_of_inside st _ bytes start (by omega) (by omega),old start (by omega),
            List.drop_of_length_le (show np.length ≤ _ by omega),none,List.replicate_zero]
          simp only [List.append_nil]
          rw [List.drop_of_length_le (show st.data.length ≤ _ by omega),List.append_nil]
    next fits' =>
      right
      rw [importStore_of_inside st _ bytes start (by omega) (by omega)]
      have none : start - st.data.length = 0 := by omega
      simp [none]

end Handlers

section Runs

variable {past during : List Op} {s next t : State} {id : Nat}

theorem writesOf_append (id : Nat) (first second : List Op) :
    writesOf id (first ++ second) = writesOf id first ++ writesOf id second := List.filterMap_append

/-- What a fid has staged, as far as no write of it has failed. -/
def Holds (past : List Op) (id : Nat) (st : Stage) : Prop := ∃ base during t, Opened past id base during t ∧
  (st.failed = false → Transition.Meets step (Answered id) during t ∧ st.data = staged base (writesOf id during))

/-- The stages and the file are what the requests so far have made of them. -/
structure Traced (past : List Op) (s : State) : Prop where
  whole : s.corrupt = false
  stages : ∀ id f st, s.fids id = some f → f.stage = some st → Holds past id st
  writers : ∀ id f mode, s.fids id = some f → f.omode = some mode → writes mode = true → f.stage.isSome = true
  unopened : ∀ id f, s.fids id = some f → f.omode = none → f.stage = none
  file : ∀ content, s.file = some content → content = [] ∨ Committed past content

theorem Opened.run (opened : Opened past id base during t) (reached : run step past initial = some s) :
    run step during t = some s := by
  obtain ⟨before,opening,start,rfl,ran,stepped,_⟩ := opened.origin
  rw [run_append,ran] at reached
  simpa [run,stepped] using reached

theorem Opened.concat (opened : Opened past id base during t) (op : Op) (lasts : ¬op.Ends id) :
    Opened (past ++ [op]) id base (during ++ [op]) t := by
  obtain ⟨before,opening,start,rfl,ran,stepped,opens⟩ := opened.origin
  refine ⟨⟨before,opening,start,by simp,ran,stepped,opens⟩,fun other member => ?_⟩
  rcases List.mem_append.mp member with earlier | here
  · exact opened.lasts other earlier
  · rwa [List.mem_singleton.mp here]

theorem Holds.frame (holds : Holds past id st) (reached : run step past initial = some s)
    (op : Op) (lasts : ¬op.Ends id) (other : ∀ off bytes memory junk, op ≠ .write id off bytes memory junk) :
    Holds (past ++ [op]) id st := by
  obtain ⟨base,during,t,opened,content⟩ := holds
  refine ⟨base,during ++ [op],t,opened.concat op lasts,fun sound => ?_⟩
  obtain ⟨answered,data⟩ := content sound
  refine ⟨meets_concat answered (opened.run reached) fun off bytes memory junk same =>
    absurd same (other off bytes memory junk),?_⟩
  rw [data,writesOf_append]
  cases op with
  | write fid off bytes memory junk =>
    have apart : fid ≠ id := fun same => other off bytes memory junk (by rw [same])
    simp [writesOf,apart]
  | _ => simp [writesOf]

theorem Committed.concat (committed : Committed past content) (op : Op) : Committed (past ++ [op]) content := by
  obtain ⟨earlier,ending,later,id,base,during,t,rfl,rest⟩ := committed
  exact ⟨earlier,ending,later ++ [op],id,base,during,t,by simp,rest⟩

theorem holds_of_opens (reached : run step past initial = some s) (op : Op)
    (stepped : step op s = some next) (opens : Opens s id base op) (data : st.data = base) :
    Holds (past ++ [op]) id st := by
  refine ⟨base,[],next,⟨⟨past,op,s,rfl,reached,stepped,opens⟩,by simp⟩,fun _ => ⟨trivial,data⟩⟩

theorem Holds.write (holds : Holds past id st) (reached : run step past initial = some s)
    (op : Op) (same : op = .write id off bytes memory junk)
    (wrote : (st'.failed = false → st.failed = false ∧ st'.data = overlay st.data off.toNat bytes ∧
      ∃ next n, serve op s = some (next,.count n))) : Holds (past ++ [op]) id st' := by
  obtain ⟨base,during,t,opened,content⟩ := holds
  have lasts : ¬op.Ends id := by simp [same,Op.Ends]
  refine ⟨base,during ++ [op],t,opened.concat op lasts,fun sound => ?_⟩
  obtain ⟨before,data,served⟩ := wrote sound
  obtain ⟨answered,earlier⟩ := content before
  refine ⟨meets_concat answered (opened.run reached) fun _ _ _ _ _ => served,?_⟩
  rw [data,earlier,writesOf_append,same]
  simp [writesOf,staged,List.foldl_append]

/-- The requests that touch one fid only, and no other fid's stage. -/
def Op.fid : Op → Nat
  | .create id _ _ | .walk id | .open id _ _ | .write id _ _ _ _ | .read id _ _ | .clunk id | .remove id => id

section

variable (traced : Traced past s)

include traced

theorem Traced.setFid (reached : run step past initial = some s)
    (op : Op) (f : Option Fid) (file : Option Bytes) (linked : Bool)
    (holds : ∀ g st, f = some g → g.stage = some st → Holds (past ++ [op]) op.fid st)
    (writers : ∀ g mode, f = some g → g.omode = some mode → writes mode = true → g.stage.isSome = true)
    (unopened : ∀ g, f = some g → g.omode = none → g.stage = none)
    (content : ∀ bytes, file = some bytes → bytes = [] ∨ Committed (past ++ [op]) bytes) :
    Traced (past ++ [op]) (({ s with file := file, linked := linked }).setFid op.fid f) := by
  refine ⟨traced.whole,fun id g st found staged => ?_,fun id g mode found => ?_,fun id g found => ?_,content⟩
  · by_cases same : id = op.fid
    · subst same
      exact holds g st (by simpa using found) staged
    · have before : s.fids id = some g := by simpa [same] using found
      refine (traced.stages id g st before staged).frame reached op ?_ ?_
      · rintro (rfl | rfl) <;> exact same rfl
      · rintro off bytes memory junk rfl
        exact same rfl
  · by_cases same : id = op.fid
    · subst same
      exact writers g mode (by simpa using found)
    · exact traced.writers id g mode (by simpa [same] using found)
  · by_cases same : id = op.fid
    · subst same
      exact unopened g (by simpa using found)
    · exact traced.unopened id g (by simpa [same] using found)

theorem Traced.same (reached : run step past initial = some s) (op : Op)
    (lasts : ∀ id, ¬op.Ends id) (other : ∀ id off bytes memory junk, op ≠ .write id off bytes memory junk) :
    Traced (past ++ [op]) s where
  whole := traced.whole
  stages := fun id f st found staged =>
    (traced.stages id f st found staged).frame reached op (lasts id) (other id)
  writers := traced.writers
  unopened := traced.unopened
  file := fun content found => (traced.file content found).imp_right fun committed => committed.concat op

theorem Traced.content (op : Op) (content : Bytes) (found : s.file = some content) :
    content = [] ∨ Committed (past ++ [op]) content :=
  (traced.file content found).imp_right fun committed => committed.concat op

theorem Traced.importCommit (reached : run step past initial = some s)
    (op : Op) (linked : Bool) (ends : op.Ends op.fid) (found : s.fids op.fid = some f) :
    Traced (past ++ [op]) (importCommit { s with linked := linked } op.fid f) := by
  have dropped := traced.setFid reached op none s.file linked (by simp) (by simp) (by simp) (traced.content op)
  unfold Imports.importCommit
  split
  next st staged =>
    split
    next keep =>
      simp only [Bool.and_eq_true,Bool.not_eq_true'] at keep
      refine traced.setFid reached op none (some st.data) linked (by simp) (by simp) (by simp) ?_
      intro bytes same
      cases same
      obtain ⟨base,during,t,opened,content⟩ := traced.stages op.fid f st found staged
      obtain ⟨answered,data⟩ := content keep.2
      exact .inr ⟨past,op,[],op.fid,base,during,t,rfl,opened,ends,answered,data⟩
    next => exact dropped
  next => exact dropped

end

theorem openImport_stage (opened : openImport file mode memory = some (some st)) :
    st.data = if truncates mode then [] else file := by
  unfold openImport at opened
  split at opened
  · split at opened
    · cases opened
    · cases opened
      by_cases cut : truncates mode = true <;> simp [cut,importStageNew]
  · cases opened

theorem openImport_writes (opened : openImport file mode memory = some fresh) (writing : writes mode = true) :
    fresh.isSome = true := by
  unfold openImport at opened
  rw [writing,Bool.true_or,if_pos rfl] at opened
  split at opened
  · cases opened
  · cases opened
    rfl

theorem Traced.open (traced : Traced past s) (reached : run step past initial = some s)
    (mode : Nat) (memory : Bool) (stepped : step (.open id mode memory) s = some next) :
    Traced (past ++ [.open id mode memory]) next := by
  have before := stepped
  simp only [step,serve] at stepped
  split at stepped
  next file stage whole exists' found =>
    have none := traced.unopened id _ found rfl
    subst none
    split at stepped
    next =>
      cases stepped
      exact traced.same reached _ (by simp [Op.Ends]) (by simp)
    next fresh opened =>
      cases stepped
      refine traced.setFid reached (.open id mode memory) _ s.file s.linked ?_ ?_ ?_ (traced.content _)
      · rintro g st ⟨⟩ staged
        rw [or_none] at staged
        subst staged
        have base := openImport_stage opened
        refine holds_of_opens reached _ before ⟨rfl,?_⟩ base
        by_cases cut : truncates mode = true <;> simp [cut,exists']
      · rintro g other ⟨⟩ ⟨⟩ writing
        rw [or_none]
        exact openImport_writes opened writing
      · rintro g ⟨⟩ ⟨⟩
  next => cases stepped

theorem serve_write {off : Int} (fits : off + bytes.length < 2^63)
    (served : serve (.write id off bytes memory junk) s = some (next,reply)) :
    ∃ file mode stage st, s.file = some file ∧ s.fids id = some ⟨some mode,stage⟩ ∧ writes mode = true ∧
      next = s.setFid id (some ⟨some mode,some st⟩) ∧ (st.failed = true ∨ (∃ n, reply = .count n) ∧
        st = { stage.getD (importStageNew file true) with
          data := overlay (stage.getD (importStageNew file true)).data off.toNat bytes
          wrote := true
          commit := true }) := by
  simp only [serve] at served
  split at served
  next file mode stage whole exists' found =>
    split at served
    next => cases served
    next allowed =>
      simp only [Bool.or_eq_true,Bool.not_eq_true',decide_eq_true_eq,not_or,Bool.not_eq_false,
        Int.not_lt,Nat.not_le] at allowed
      obtain ⟨⟨⟨writing,low⟩,_⟩,short⟩ := allowed
      rcases importWrite_cases memory junk (stage.getD (importStageNew file true)) off bytes low short fits with
        ⟨why,refused⟩ | stored
      · simp only [refused] at served
        cases served
        exact ⟨file,mode,stage,_,exists',found,writing,rfl,.inl rfl⟩
      · simp only [stored] at served
        cases served
        exact ⟨file,mode,stage,_,exists',found,writing,rfl,.inr ⟨⟨_,rfl⟩,rfl⟩⟩
  next => cases served

theorem Traced.write {off : Int} (traced : Traced past s)
    (reached : run step past initial = some s) (fits : off + bytes.length < 2^63)
    (stepped : step (.write id off bytes memory junk) s = some next) :
    Traced (past ++ [.write id off bytes memory junk]) next := by
  obtain ⟨⟨_,reply⟩,served,rfl⟩ := map_eq_some_iff.mp stepped
  obtain ⟨file,mode,stage,st,_,found,writing,moved,outcome⟩ := serve_write fits served
  obtain ⟨old,rfl⟩ := isSome_iff_exists.mp (traced.writers id _ mode found rfl writing)
  have holds : Holds (past ++ [.write id off bytes memory junk]) id st := by
    refine (traced.stages id _ old found rfl).write reached _ rfl fun sound => ?_
    rcases outcome with failed | ⟨⟨n,rfl⟩,same⟩
    · cases sound.symm.trans failed
    · rw [same] at sound ⊢
      exact ⟨sound,rfl,_,n,served⟩
  rw [moved]
  refine traced.setFid reached (.write id off bytes memory junk) _ s.file s.linked ?_ ?_ ?_ (traced.content _)
  · rintro g st' ⟨⟩ ⟨⟩
    exact holds
  · rintro g other ⟨⟩ _ _
    rfl
  · rintro g ⟨⟩ ⟨⟩

theorem Traced.step (traced : Traced past s) (reached : run step past initial = some s)
    (op : Op) (fits : op.Fits) (stepped : step op s = some next) : Traced (past ++ [op]) next := by
  cases op with
  | create id mode memory =>
    have before := stepped
    simp only [Imports.step,serve] at stepped
    split at stepped
    · cases stepped
    split at stepped
    · cases stepped
      exact traced.same reached _ (by simp [Op.Ends]) (by simp)
    split at stepped
    · cases stepped
      exact traced.same reached _ (by simp [Op.Ends]) (by simp)
    · cases stepped
      refine traced.setFid reached (.create id mode memory) _ (some []) true ?_ ?_ ?_ (by simp)
      · rintro g st ⟨⟩ ⟨⟩
        exact holds_of_opens reached _ before ⟨rfl,rfl⟩ rfl
      · rintro g other ⟨⟩ _ _
        rfl
      · rintro g ⟨⟩ ⟨⟩
  | walk id =>
    simp only [Imports.step,serve] at stepped
    split at stepped
    · cases stepped
    · cases stepped
      refine traced.setFid reached (.walk id) _ s.file s.linked ?_ ?_ ?_ (traced.content _)
      · rintro g st ⟨⟩ ⟨⟩
      · rintro g mode ⟨⟩ ⟨⟩
      · rintro g ⟨⟩ _
        rfl
  | «open» id mode memory => exact traced.open reached mode memory stepped
  | write => exact traced.write reached fits stepped
  | read =>
    simp only [Imports.step,serve] at stepped
    split at stepped
    · cases stepped
      exact traced.same reached _ (by simp [Op.Ends]) (by simp)
    · cases stepped
  | clunk id =>
    simp only [Imports.step,serve] at stepped
    split at stepped
    next found =>
      cases stepped
      exact traced.importCommit reached (.clunk id) s.linked (.inl rfl) found
    · cases stepped
  | remove id =>
    simp only [Imports.step,serve] at stepped
    split at stepped
    next found =>
      split at stepped
      · cases stepped
        exact traced.importCommit reached (.remove id) false (.inr rfl) found
      · cases stepped
        exact traced.importCommit reached (.remove id) s.linked (.inr rfl) found
    · cases stepped

theorem initial_traced : Traced [] initial where
  whole := rfl
  stages := by simp
  writers := by simp
  unopened := by simp
  file := by simp

theorem run_traced (ops : List Op) (fits : ∀ op ∈ ops, op.Fits) (ran : run step ops initial = some s) :
    Traced ops s := by
  have meets : Transition.Meets step (fun op _ => op.Fits) ops initial :=
    meets_of_labels ops initial fun op member _ => fits op member
  exact run_invariant_past Traced
    (fun _ op _ _ reached traced fits stepped => traced.step reached op fits stepped) ops s meets initial_traced ran

theorem serve_read (served : serve (.read id off count) s = some (next,reply)) :
    ∃ content, s.file = some content ∧ reply = .data (rootRead content off count) := by
  simp only [serve] at served
  split at served
  next found _ =>
    cases served
    exact ⟨_,found,rfl⟩
  next => cases served

/-- With no write that reaches past the largest offset, readers see only what was committed
whole. -/
theorem import_staging_atomic (ops : List Op) (fits : ∀ op ∈ ops, op.Fits)
    (ran : Transition.run step ops initial = some s) : Atomic ops s := by
  have traced := run_traced ops fits ran
  refine ⟨traced.whole,traced.file,fun id off count next reply served => ?_⟩
  obtain ⟨content,found,rfl⟩ := serve_read served
  exact ⟨content,found,by rw [rootRead_eq]⟩

end Runs

/-- Two fids write at the same time; the second one leaves a gap. -/
def twoWriters : List Op :=
  [.create 0 1 true,.write 0 0 [1,2] true fun _ => 9,.walk 1,.open 1 1 true,.write 1 2 [3] true fun _ => 9,
    .clunk 0,.walk 2,.open 2 0 true,.read 2 0 8,.clunk 1]

theorem twoWriters_atomic : ∃ s, Transition.run step twoWriters initial = some s ∧
    s.file = some [0,0,3] ∧ Atomic twoWriters s := by
  refine ⟨_,rfl,by decide,import_staging_atomic twoWriters ?_ rfl⟩
  simp [twoWriters,Op.Fits]

/-- One byte at the largest offset: the sum of offset and count wraps and passes the check. -/
theorem write_at_largest_offset : ¬∀ ops s, Transition.run step ops initial = some s → Atomic ops s := by
  intro atomic
  have whole := (atomic [.create 0 1 true,.write 0 (2^63 - 1) [1] true fun _ => 0] _ rfl).whole
  exact absurd whole (by decide)

end Objective9c.Facade.Imports
