import Objective9c.Runtime.MountTable
import Objective9c.Runtime.Numbers

/-! The builders of a mount table. A builder checks its texts and adds a row of cells; what the row
does is read from the cells again, by the validator and by `apply`. The store gives back the cells
that were set, row by row in the order the rows were added. -/
namespace Objective9c.MountTable

open List Option
open PathText (slash)
open Text (Bytes ascii cstr decimal)
open Numbers (strtollWhole)

section Builders

/-- `O9MountTable`; every row has its id. -/
structure Table where
  root : Option Bytes
  rows : List (Bytes × Row)
  seq : Nat

def mountTableNew : Table := ⟨none,[],0⟩

def idText (seq : Nat) : Bytes := ascii "m" ++ decimal seq

/-- The loop over ids that are in use. -/
def freeId (rows : List (Bytes × Row)) : Nat → Nat → Option Nat
  | 0, _ => none
  | tries+1, seq => if rows.any (·.1 = idText seq) then freeId rows tries (seq + 1) else some seq

/-- A text that is nil or empty is not set. -/
def cell (text : Option Bytes) : Option Bytes := text.filter (· ≠ [])

/-- `o9_mt_add_entry`, where the store has room; `none` is -1. -/
def addEntry (m : Table) (call : String) (fd old new : Option Bytes) (flag : Int) (aname : Option Bytes)
    (mode : Int) : Option Table :=
  match freeId m.rows 1000000 m.seq with
  | none => none
  | some seq => some { m with
      seq := seq + 1
      rows := m.rows ++ [(idText seq,{
        call := some (ascii call)
        fd := cell fd
        old := cell old
        new := cell new
        flag := some (decimal flag)
        aname := cell aname
        mode := if 0 ≤ mode then some (decimal mode) else none })] }

/-- `o9_mount_table_allow_root`, where the directory can be made. -/
def allowRoot (m : Table) (root : Option Bytes) : Option Table :=
  match root.map cstr with
  | none => none
  | some r => if rootOk r then some { m with root := some r } else none

def mountTableDir (m : Table) (new : Option Bytes) (mode : Int) : Option Table :=
  if new.isNone || !modeOk mode then none
  else
    let cnew := new.map cstr
    if !targetOk cnew then none else addEntry m "dir" none none cnew 0 none mode

def mountTableBind (m : Table) (old new : Option Bytes) (flag : Int) : Option Table :=
  if old.isNone || new.isNone || !flagOk flag then none
  else
    let cold := old.map cstr
    let cnew := new.map cstr
    if !sourceOk cold || !targetOk cnew then none else addEntry m "bind" none cold cnew flag none (-1)

/-- The four mount builders, which differ in the call and in the check of the source. -/
def addMount (call : String) (isSource : Option Bytes → Bool) (m : Table) (source old : Option Bytes) (flag : Int)
    (aname : Option Bytes) : Option Table :=
  if source.isNone || old.isNone || aname.isNone || !flagOk flag then none
  else
    let csource := source.map cstr
    let cold := old.map cstr
    let caname := aname.map cstr
    if !isSource csource || !targetOk cold || badText0 caname true then none
    else addEntry m call csource cold none flag caname (-1)

def mountTableMountsrv := addMount "mountsrv" srvSourceOk
def mountTableMountnet := addMount "mountnet" netSourceOk
def mountTableMountnear := addMount "mountnear" nearSourceOk
def mountTableMountfar := addMount "mountfar" netSourceOk

def mountTableValidate (m : Table) : Bool := m.root.isSome && validate strtollWhole (m.rows.map Prod.snd)

/-- `o9_mount_table_apply`, where every call to the system succeeds. -/
def mountTableApply (m : Table) : List Call × Bool :=
  match m.root with
  | none => ([],false)
  | some root => apply strtollWhole (fun _ _ => true) root (m.rows.map Prod.snd)

/-- A builder with its arguments; `none` is a nil string. -/
inductive Build where
  | dir (new : Option Bytes) (mode : Int)
  | bind (old new : Option Bytes) (flag : Int)
  | mountsrv (fdsrc old : Option Bytes) (flag : Int) (aname : Option Bytes)
  | mountnear (fdsrc old : Option Bytes) (flag : Int) (aname : Option Bytes)
  | mountnet (addr old : Option Bytes) (flag : Int) (aname : Option Bytes)
  | mountfar (addr old : Option Bytes) (flag : Int) (aname : Option Bytes)

def build (m : Table) : Build → Option Table
  | .dir new mode => mountTableDir m new mode
  | .bind old new flag => mountTableBind m old new flag
  | .mountsrv fdsrc old flag aname => mountTableMountsrv m fdsrc old flag aname
  | .mountnear fdsrc old flag aname => mountTableMountnear m fdsrc old flag aname
  | .mountnet addr old flag aname => mountTableMountnet m addr old flag aname
  | .mountfar addr old flag aname => mountTableMountfar m addr old flag aname

end Builders

section Meaning

/-- What a C function sees of a string. -/
def seen (text : Option Bytes) : Bytes := cstr (text.getD [])

/-- The target of a builder call, below the root. -/
def Build.destination (root : Bytes) : Build → Bytes
  | .dir new _ | .bind _ new _ => whole root (seen new)
  | .mountsrv _ old _ _ | .mountnear _ old _ _ | .mountnet _ old _ _ | .mountfar _ old _ _ => whole root (seen old)

/-- What a builder call asks for: a directory with a mode, or one with something bound to or mounted on it. A near
source is opened if it is posted in `/srv`, any other is dialed. -/
def Build.calls (root : Bytes) (b : Build) : List Call :=
  let dst := b.destination root
  match b with
  | .dir _ mode => [.ensureDirMode dst mode]
  | .bind old _ flag => [.ensureDir dst,.bind (seen old) dst flag]
  | .mountsrv fdsrc _ flag aname => [.ensureDir dst,.openSource (seen fdsrc),.mount dst flag (seen aname)]
  | .mountnear fdsrc _ flag aname =>
    [.ensureDir dst,if startsWith "/srv/" (some (seen fdsrc)) then .openSource (seen fdsrc) else .dial (seen fdsrc),
      .mount dst flag (seen aname)]
  | .mountnet addr _ flag aname | .mountfar addr _ flag aname =>
    [.ensureDir dst,.dial (seen addr),.mount dst flag (seen aname)]

end Meaning

section Agreement

variable {m m' : Table} {root : Bytes} {rows : List (Bytes × Row)} {builds : List Build}

theorem decimal_text (low : 0 ≤ v) : badText (some (decimal v)) = false := by
  rw [badText_eq_false_iff]
  constructor
  · intro empty
    obtain ⟨c,rest,chars,-⟩ := Numbers.head_digit v.natAbs
    have shape : decimal v = c :: rest := by
      rw [decimal,if_neg (by omega),← chars]
      rfl
    rw [shape] at empty
    contradiction
  · intro c member
    have range := Numbers.decimal_range member
    rintro (control | rfl)
    · rw [UInt8.lt_iff_toNat_lt] at control
      have : (32 : UInt8).toNat = 32 := rfl
      omega
    · exact absurd range.2 (by decide)

theorem parseVlong_decimal (low : 0 ≤ v) (high : v < 2 ^ 63) :
    parseVlong strtollWhole (some (decimal v)) = some v := by
  simp [parseVlong,decimal_text low,Numbers.strtollWhole_decimal low high]

theorem parseFlag_decimal (ok : flagOk v = true) : parseFlag strtollWhole (some (decimal v)) = some v := by
  have range : 0 ≤ v ∧ v ≤ 7 := by
    simp only [flagOk,Bool.and_eq_true,decide_eq_true_eq] at ok
    exact ok.1
  rw [parseFlag,parseVlong_decimal range.1 (by omega),filter_some,ok]
  rfl

theorem addEntry_some (added : addEntry m call fd old new flag aname mode = some m') :
    ∃ id, m'.root = m.root ∧ m'.rows = m.rows ++ [(id,{
      call := some (ascii call)
      fd := cell fd
      old := cell old
      new := cell new
      flag := some (decimal flag)
      aname := cell aname
      mode := if 0 ≤ mode then some (decimal mode) else none })] := by
  unfold addEntry at added
  split at added
  · contradiction
  · cases added
    exact ⟨_,rfl,rfl⟩

theorem cell_full (full : t ≠ []) : cell (some t) = some t := by
  rw [cell,filter_some]
  simp [full]

theorem cell_target (ok : targetOk text = true) : cell text = text := by
  obtain ⟨t,rfl⟩ := targetOk_some ok
  have full : t ≠ [] := by
    rintro rfl
    contradiction
  exact cell_full full

theorem seen_eq (text : Option Bytes) (known : text.map cstr = some t) : seen text = t := by
  obtain ⟨whole,rfl,rfl⟩ := map_eq_some_iff.mp known
  rfl

/-- A row means a builder call: it is accepted, and `apply` makes the call's calls. -/
def Means (root : Bytes) (row : Row) (b : Build) : Prop :=
  validateRow strtollWhole row = true ∧
    ((b.destination root).length < 512 → rowCalls strtollWhole root row = some (b.calls root))

theorem join_short (ok : targetOk (some t) = true) (short : (whole root t).length < 512) :
    join root (some t) = some (whole root t) := by
  rw [join_some ok,Text.cut_of_length_le (by omega)]

theorem short_text (rootIs : rootOk root = true) (ok : targetOk (some t) = true)
    (short : (whole root t).length < 512) : badText (some (whole root t)) = false := by
  have text := destination_text rootIs ok
  rwa [Text.cut_of_length_le (by omega)] at text

theorem dir_means (rootIs : rootOk root = true) (call : row.call = some (ascii "dir")) (new : row.new = some t)
    (target : seen text = t) (ok : targetOk (some t) = true) (mode : row.mode = some (decimal v))
    (modeIs : modeOk v = true) : Means root row (.dir text v) := by
  have range : 0 ≤ v ∧ v ≤ 0o777 := by simpa [modeOk] using modeIs
  have parsed := parseVlong_decimal range.1 (by omega)
  have isDir : row.isCall "dir" = true := by simp [call]
  subst target
  refine ⟨?_,fun short => ?_⟩
  · rw [validateRow,if_pos isDir,new,mode,parsed]
    simp [ok,modeIs]
  · rw [rowCalls,if_pos isDir,new,mode,parsed,join_short ok short]
    simp [short_text rootIs ok short,modeIs,Build.calls,Build.destination]

theorem bind_means (rootIs : rootOk root = true) (call : row.call = some (ascii "bind"))
    (old : row.old = some (seen source)) (sourceIs : sourceOk (some (seen source)) = true)
    (new : row.new = some (seen text)) (ok : targetOk (some (seen text)) = true)
    (flag : row.flag = some (decimal v)) (flagIs : flagOk v = true) : Means root row (.bind source text v) := by
  have notDir : ¬row.isCall "dir" = true := by
    rw [Row.isCall,call]
    decide
  have isBind : row.isCall "bind" = true := by simp [call]
  have parsed := parseFlag_decimal flagIs
  refine ⟨?_,fun short => ?_⟩
  · rw [validateRow,if_neg notDir,if_pos isBind,old,new,flag,parsed]
    simp [sourceIs,ok]
  · rw [rowCalls,if_neg notDir,if_pos isBind,new,old,flag,parsed,join_short ok short]
    simp [short_text rootIs ok short,Build.calls,Build.destination]

/-- The cells of a row that a mount builder added. -/
structure Mounts (row : Row) (fd old aname : Option Bytes) (v : Int) : Prop where
  source : row.fd = some (seen fd)
  target : row.old = some (seen old)
  ok : targetOk (some (seen old)) = true
  flag : row.flag = some (decimal v)
  flagIs : flagOk v = true
  attach : row.aname = cell (some (seen aname))
  attachIs : badText0 (some (seen aname)) true = false

theorem Mounts.accepted (mounts : Mounts row fd old aname v) (source : sourceIs = true) :
    mountOk strtollWhole row sourceIs = true := by
  have name : (row.aname = none || !badText0 row.aname true) = true := by
    rw [mounts.attach]
    by_cases empty : seen aname = []
    · rw [empty]
      rfl
    · rw [cell_full empty,mounts.attachIs]
      rfl
  rw [mountOk,mounts.target,mounts.flag,parseFlag_decimal mounts.flagIs,name,mounts.ok,source]
  rfl

theorem Mounts.attached (mounts : Mounts row fd old aname v) : row.aname.getD [] = seen aname := by
  rw [mounts.attach]
  by_cases empty : seen aname = []
  · rw [empty]
    rfl
  · rw [cell_full empty]
    rfl

theorem mount_calls (rootIs : rootOk root = true) (mounts : Mounts row fd old aname v)
    (call : row.call = some (ascii name)) (other : ascii name ≠ ascii "dir" ∧ ascii name ≠ ascii "bind")
    (kind : (row.isNear = true ∧ nearSourceOk (some (seen fd)) = true ∧ fetch =
          if (seen fd).head? = some slash ∨ (seen fd).head? = some 35 then .openSource (seen fd) else .dial (seen fd)) ∨
      (row.isNear = false ∧ row.isNet = true ∧ netSourceOk (some (seen fd)) = true ∧ fetch = .dial (seen fd))) :
    validateRow strtollWhole row = true ∧ ((whole root (seen old)).length < 512 →
      rowCalls strtollWhole root row = some [.ensureDir (whole root (seen old)),fetch,
        .mount (whole root (seen old)) v (seen aname)]) := by
  have notDir : ¬row.isCall "dir" = true := by simpa [call] using other.1
  have notBind : ¬row.isCall "bind" = true := by simpa [call] using other.2
  rw [validateRow,rowCalls,if_neg notDir,if_neg notBind,if_neg notDir,if_neg notBind,mounts.target,mounts.flag,
    mounts.source,mounts.attached,parseFlag_decimal mounts.flagIs]
  rcases kind with ⟨near,sourceIs,rfl⟩ | ⟨notNear,net,sourceIs,rfl⟩
  · rw [if_pos near,if_pos near]
    refine ⟨mounts.accepted sourceIs,fun short => ?_⟩
    simp [join_short mounts.ok short,short_text rootIs mounts.ok short]
  · rw [notNear,net]
    refine ⟨mounts.accepted sourceIs,fun short => ?_⟩
    simp [join_short mounts.ok short,short_text rootIs mounts.ok short]

theorem posted_source (posted : startsWith "/srv/" (some text) = true) : text.head? = some slash := by
  obtain ⟨rest,rfl⟩ := isPrefixOf_iff_prefix.mp posted
  rfl

theorem near_opened (ok : nearSourceOk (some text) = true) :
    (text.head? = some slash ∨ text.head? = some 35) ↔ startsWith "/srv/" (some text) = true := by
  constructor
  · intro head
    simp only [nearSourceOk,srvSourceOk,Bool.or_eq_true,Bool.and_eq_true] at ok
    rcases ok with ⟨-,posted⟩ | ⟨address,-⟩
    · exact posted
    · obtain ⟨rest,rfl⟩ := isPrefixOf_iff_prefix.mp address
      rcases head with head | head <;> cases head
  · intro posted
    exact .inl (posted_source posted)

theorem target_cell (ok : targetOk (text.map cstr) = true) :
    cell (text.map cstr) = some (seen text) ∧ targetOk (some (seen text)) = true := by
  obtain ⟨t,known⟩ := targetOk_some ok
  rw [cell_target ok,seen_eq text known]
  exact ⟨known,known ▸ ok⟩

/-- A source that was given and passed its check, as it is found in the row. -/
theorem source_cell {isSource : Option Bytes → Bool} (empty : isSource (some []) = false)
    (given : text.isSome = true) (ok : isSource (text.map cstr) = true) :
    cell (text.map cstr) = some (seen text) ∧ isSource (some (seen text)) = true := by
  obtain ⟨t,rfl⟩ := isSome_iff_exists.mp given
  have ok : isSource (some (seen (some t))) = true := ok
  have full : seen (some t) ≠ [] := by
    intro nothing
    rw [nothing,empty] at ok
    contradiction
  exact ⟨cell_full full,ok⟩

theorem addMount_some (empty : isSource (some []) = false)
    (added : addMount call isSource m source old v aname = some m') :
    ∃ id row, m'.root = m.root ∧ m'.rows = m.rows ++ [(id,row)] ∧ row.call = some (ascii call) ∧
      isSource (some (seen source)) = true ∧ Mounts row source old aname v := by
  unfold addMount at added
  split at added
  · contradiction
  next given =>
    dsimp only at added
    split at added
    · contradiction
    next checked =>
      simp only [Bool.or_eq_true,not_or,Bool.not_eq_true,Bool.not_eq_true',Bool.not_eq_false,
        isNone_eq_false_iff] at given checked
      obtain ⟨⟨⟨sourceGiven,-⟩,anameGiven⟩,flagIs⟩ := given
      obtain ⟨⟨sourceIs,targetIs⟩,anameIs⟩ := checked
      obtain ⟨fd,sourceOk⟩ := source_cell empty sourceGiven sourceIs
      obtain ⟨target,ok⟩ := target_cell targetIs
      obtain ⟨a,rfl⟩ := isSome_iff_exists.mp anameGiven
      obtain ⟨id,root,rows⟩ := addEntry_some added
      exact ⟨id,_,root,rows,rfl,sourceOk,fd,target,ok,rfl,flagIs,rfl,anameIs⟩

variable (rootIs : rootOk root = true)
include rootIs

theorem dir_built (built : mountTableDir m new mode = some m') :
    ∃ id row, m'.root = m.root ∧ m'.rows = m.rows ++ [(id,row)] ∧ Means root row (.dir new mode) := by
  unfold mountTableDir at built
  split at built
  · contradiction
  next given =>
    dsimp only at built
    split at built
    · contradiction
    next checked =>
      simp only [Bool.or_eq_true,not_or,Bool.not_eq_true',Bool.not_eq_false] at given checked
      obtain ⟨target,ok⟩ := target_cell checked
      obtain ⟨id,root,rows⟩ := addEntry_some built
      have printed : (if 0 ≤ mode then some (decimal mode) else none) = some (decimal mode) := by
        have range : 0 ≤ mode ∧ mode ≤ 0o777 := by simpa [modeOk] using given.2
        exact if_pos range.1
      exact ⟨id,_,root,rows,dir_means rootIs rfl target rfl ok printed given.2⟩

theorem bind_built (built : mountTableBind m old new flag = some m') :
    ∃ id row, m'.root = m.root ∧ m'.rows = m.rows ++ [(id,row)] ∧ Means root row (.bind old new flag) := by
  unfold mountTableBind at built
  split at built
  · contradiction
  next given =>
    dsimp only at built
    split at built
    · contradiction
    next checked =>
      simp only [Bool.or_eq_true,not_or,Bool.not_eq_true,Bool.not_eq_true',Bool.not_eq_false,
        isNone_eq_false_iff] at given checked
      obtain ⟨source,sourceIs⟩ := source_cell rfl given.1.1 checked.1
      obtain ⟨target,ok⟩ := target_cell checked.2
      obtain ⟨id,root,rows⟩ := addEntry_some built
      exact ⟨id,_,root,rows,bind_means rootIs rfl source sourceIs target ok rfl given.2⟩

theorem build_means (built : build m b = some m') :
    ∃ id row, m'.root = m.root ∧ m'.rows = m.rows ++ [(id,row)] ∧ Means root row b := by
  cases b with
  | dir => exact dir_built rootIs built
  | bind => exact bind_built rootIs built
  | mountsrv fdsrc =>
    obtain ⟨id,row,same,rows,call,source,mounts⟩ := addMount_some rfl built
    have near : nearSourceOk (some (seen fdsrc)) = true := by simp [nearSourceOk,source]
    have posted : startsWith "/srv/" (some (seen fdsrc)) = true := by
      simp only [srvSourceOk,Bool.and_eq_true] at source
      exact source.2
    obtain ⟨accepted,calls⟩ := mount_calls rootIs mounts call (by decide) (.inl ⟨by simp [Row.isNear,call],near,rfl⟩)
    refine ⟨id,row,same,rows,accepted,fun short => ?_⟩
    rw [calls short,if_pos (.inl (posted_source posted))]
    rfl
  | mountnear =>
    obtain ⟨id,row,same,rows,call,source,mounts⟩ := addMount_some rfl built
    obtain ⟨accepted,calls⟩ := mount_calls rootIs mounts call (by decide) (.inl ⟨by simp [Row.isNear,call],source,rfl⟩)
    refine ⟨id,row,same,rows,accepted,fun short => ?_⟩
    rw [calls short]
    simp only [near_opened source]
    rfl
  | mountnet | mountfar =>
    obtain ⟨id,row,same,rows,call,source,mounts⟩ := addMount_some rfl built
    have notNear : row.isNear = false := by
      rw [Row.isNear,Row.isCall,Row.isCall,call]
      decide
    obtain ⟨accepted,calls⟩ := mount_calls rootIs mounts call (by decide)
      (.inr ⟨notNear,by simp [Row.isNet,call],source,rfl⟩)
    exact ⟨id,row,same,rows,accepted,calls⟩

theorem builds_mean (builds : List Build) (built : builds.foldlM build m = some m') :
    m'.root = m.root ∧ ∃ rows, m'.rows = m.rows ++ rows ∧
      List.Forall₂ (fun row b => Means root row.2 b) rows builds := by
  induction builds generalizing m with
  | nil =>
    cases built
    exact ⟨rfl,[],by simp,.nil⟩
  | cons b rest ih =>
    simp only [foldlM_cons,bind_eq_bind,bind_eq_some_iff] at built
    obtain ⟨next,first,later⟩ := built
    obtain ⟨id,row,same,rows,means⟩ := build_means rootIs first
    obtain ⟨same',more,rows',all⟩ := ih later
    refine ⟨same'.trans same,(id,row) :: more,?_,.cons means all⟩
    rw [rows',rows,append_assoc]
    rfl

omit rootIs

section

variable (all : List.Forall₂ (fun row b => Means root row.2 b) rows builds)

include all

theorem means_accepted : validate strtollWhole (rows.map Prod.snd) = true := by
  induction all with
  | nil => rfl
  | cons means _ ih =>
    rw [map_cons,validate,all_cons,means.1]
    exact ih

theorem means_applied (short : ∀ b ∈ builds, (b.destination root).length < 512) (done : List Call) :
    applyRows strtollWhole (fun _ _ => true) root (rows.map Prod.snd) done =
      (done ++ builds.flatMap (Build.calls root),true) := by
  induction all generalizing done with
  | nil => simp [applyRows]
  | @cons row b rows builds means _ ih =>
    have here := means.2 (short b mem_cons_self)
    have later := ih (fun b member => short b (mem_cons_of_mem _ member)) (done ++ b.calls root)
    simp only [map_cons,applyRows,here,attempt_all,later,flatMap_cons,append_assoc]

end

/-- After `allow_root`, a table that was built by builder calls is accepted, and applying it makes the calls
the builders asked for, in their order. -/
theorem builders_agree_with_apply (allowed : allowRoot mountTableNew (some root) = some start)
    (built : builds.foldlM build start = some m)
    (short : ∀ b ∈ builds, (b.destination (cstr root)).length < 512) :
    mountTableValidate m = true ∧ mountTableApply m =
      (.ensureDir (cstr root) :: builds.flatMap (Build.calls (cstr root)),true) := by
  simp only [allowRoot,map_some] at allowed
  split at allowed
  next rootIs =>
    cases allowed
    obtain ⟨known,rows,table,all⟩ := builds_mean rootIs builds built
    have table : m.rows = rows := table
    have accepted := means_accepted all
    have rootText : badText (some (cstr root)) = false := by
      simp only [rootOk,Bool.and_eq_true,Bool.not_eq_true'] at rootIs
      exact rootIs.2
    refine ⟨by simp [mountTableValidate,known,table,accepted],?_⟩
    simp only [mountTableApply,known,table,apply,accepted,rootText,attempt_all,means_applied all short]
    rfl
  · contradiction

/-- A directory, a bind, a service posted here and one that is dialed. -/
def fourBuilds : List Build :=
  [.dir (some (ascii "lib")) 0o755,.bind (some (ascii "/tmp")) (some (ascii "tmp")) 1,
    .mountsrv (some (ascii "/srv/app")) (some (ascii "app")) 0 (some []),
    .mountfar (some (ascii "tcp!host!564")) (some (ascii ".")) 2 (some (ascii "main"))]

theorem fourBuilds_applied : ∃ start m, allowRoot mountTableNew (some (ascii "/mnt")) = some start ∧
    fourBuilds.foldlM build start = some m ∧ mountTableValidate m = true ∧
    mountTableApply m = ([.ensureDir (ascii "/mnt"),.ensureDirMode (ascii "/mnt/lib") 0o755,
      .ensureDir (ascii "/mnt/tmp"),.bind (ascii "/tmp") (ascii "/mnt/tmp") 1,
      .ensureDir (ascii "/mnt/app"),.openSource (ascii "/srv/app"),.mount (ascii "/mnt/app") 0 [],
      .ensureDir (ascii "/mnt"),.dial (ascii "tcp!host!564"),.mount (ascii "/mnt") 2 (ascii "main")],true) :=
  ⟨_,_,rfl,rfl,builders_agree_with_apply (show allowRoot mountTableNew (some (ascii "/mnt")) = some _ from rfl)
    (show fourBuilds.foldlM build _ = some _ from rfl) (by decide)⟩

end Agreement

end Objective9c.MountTable
