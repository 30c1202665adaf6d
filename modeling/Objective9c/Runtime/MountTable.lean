import Objective9c.Lib.PathText
import Objective9c.Lib.Text

/-! The mount table: rows of call, source and target that are validated as a whole and then applied one after
the other under a root. The checks look at the target of a row; the destination is made later, by joining root
and target in a buffer of 512 bytes. Texts are bytes without a zero, and a missing cell is `none`. -/
namespace Objective9c.MountTable

open PathText List Option Bool
open Text (ascii cut boundary continues)

section Checks

def badText0 (text : Option (List UInt8)) (emptyok : Bool) : Bool :=
  match text with
  | none => true
  | some s => (!emptyok && s = []) || s.any fun c => c < 0x20 || c = 0x7f

def badText (text : Option (List UInt8)) : Bool := badText0 text false

/-- The loop of `o9_mt_has_dotdot`; the end of the text counts as the end of a component. -/
def hasDotdot (atseg : Bool) : List UInt8 → Bool
  | [] => false
  | c :: rest => (atseg && c = dot && (rest = [dot] || [dot,slash].isPrefixOf rest)) || hasDotdot (c = slash) rest

def targetOk (target : Option (List UInt8)) : Bool :=
  match target with
  | none => false
  | some t => !badText target && t.head? ≠ some slash && (t = [dot] || !hasDotdot true t)

def sourceOk (source : Option (List UInt8)) : Bool :=
  match source with
  | none => false
  | some s => !badText source && (s.head? = some slash || s.head? = some 35) && !hasDotdot true s

def startsWith (text : String) (source : Option (List UInt8)) : Bool :=
  source.any fun s => (ascii text).isPrefixOf s

def srvSourceOk (source : Option (List UInt8)) : Bool := sourceOk source && startsWith "/srv/" source

def netSourceOk (source : Option (List UInt8)) : Bool :=
  !badText source && (startsWith "tcp!" source || startsWith "il!" source || startsWith "net!" source)

def nearSourceOk (source : Option (List UInt8)) : Bool :=
  srvSourceOk source || (startsWith "il!" source && netSourceOk source)

def flagOk (flag : Int) : Bool := 0 ≤ flag && flag ≤ 7 && flag % 4 ≠ 3

def modeOk (mode : Int) : Bool := 0 ≤ mode && mode ≤ 0o777

/-- The test of `o9_mount_table_allow_root` on the root. -/
def rootOk (root : List UInt8) : Bool :=
  root.head? = some slash && !hasDotdot true root && !badText (some root)

end Checks

section Model

structure Row where
  call : Option (List UInt8) := none
  fd : Option (List UInt8) := none
  old : Option (List UInt8) := none
  new : Option (List UInt8) := none
  flag : Option (List UInt8) := none
  aname : Option (List UInt8) := none
  mode : Option (List UInt8) := none
deriving DecidableEq

/-- `strtoll` of a text that is a number as a whole. -/
abbrev Number := List UInt8 → Option Int

def parseVlong (strtoll : Number) (text : Option (List UInt8)) : Option Int :=
  if badText text then none else text.bind strtoll

def parseFlag (strtoll : Number) (text : Option (List UInt8)) : Option Int := (parseVlong strtoll text).filter flagOk

@[simp] def Row.isCall (row : Row) (text : String) : Bool := row.call = some (ascii text)

def Row.isNear (row : Row) : Bool := row.isCall "mountsrv" || row.isCall "mountnear"

def Row.isNet (row : Row) : Bool := row.isCall "mountnet" || row.isCall "mountfar"

def mountOk (strtoll : Number) (row : Row) (source : Bool) : Bool :=
  source && targetOk row.old && (parseFlag strtoll row.flag).isSome && (row.aname = none || !badText0 row.aname true)

def validateRow (strtoll : Number) (row : Row) : Bool :=
  if row.isCall "dir" then targetOk row.new && (parseVlong strtoll row.mode).any modeOk
  else if row.isCall "bind" then sourceOk row.old && targetOk row.new && (parseFlag strtoll row.flag).isSome
  else if row.isNear then mountOk strtoll row (nearSourceOk row.fd)
  else if row.isNet then mountOk strtoll row (netSourceOk row.fd)
  else false

def validate (strtoll : Number) (rows : List Row) : Bool := rows.all (validateRow strtoll)

/-- The calls to the system. Making a directory with all above it counts as one. -/
inductive Call where
  | ensureDir (path : List UInt8)
  | ensureDirMode (path : List UInt8) (mode : Int)
  | bind (old dst : List UInt8) (flag : Int)
  | openSource (path : List UInt8)
  | dial (addr : List UInt8)
  | mount (dst : List UInt8) (flag : Int) (aname : List UInt8)
deriving DecidableEq

/-- `snprint` into the 512 bytes of the destination. -/
def join (root : List UInt8) (target : Option (List UInt8)) : Option (List UInt8) :=
  match target with
  | none => none
  | some t => if !targetOk target then none
    else some (cut 511 (if t = [dot] then root else root ++ slash :: t))

/-- The checks of a row before its calls, and the calls it makes as long as they succeed. -/
def rowCalls (strtoll : Number) (root : List UInt8) (row : Row) : Option (List Call) :=
  if row.isCall "dir" then do
    let dst ← join root row.new
    let mode ← parseVlong strtoll row.mode
    if badText (some dst) || !modeOk mode then none else some [.ensureDirMode dst mode]
  else if row.isCall "bind" then do
    let dst ← join root row.new
    let flag ← parseFlag strtoll row.flag
    if badText (some dst) then none else some [.ensureDir dst,.bind (row.old.getD []) dst flag]
  else if row.isNear then do
    let dst ← join root row.old
    let flag ← parseFlag strtoll row.flag
    let fd := row.fd.getD []
    if badText (some dst) then none
    else some [.ensureDir dst,if fd.head? = some slash ∨ fd.head? = some 35 then .openSource fd else .dial fd,
      .mount dst flag (row.aname.getD [])]
  else if row.isNet then do
    let dst ← join root row.old
    let flag ← parseFlag strtoll row.flag
    if badText (some dst) then none
    else some [.ensureDir dst,.dial (row.fd.getD []),.mount dst flag (row.aname.getD [])]
  else none

/-- Which calls succeed, given the calls made before. -/
abbrev Environment := List Call → Call → Bool

def attempt (env : Environment) : List Call → List Call → List Call × Bool
  | [], done => (done,true)
  | c :: rest, done => if env done c then attempt env rest (done ++ [c]) else (done ++ [c],false)

def applyRows (strtoll : Number) (env : Environment) (root : List UInt8) : List Row → List Call → List Call × Bool
  | [], done => (done,true)
  | row :: rest, done => match rowCalls strtoll root row with
    | none => (done,false)
    | some calls => match attempt env calls done with
      | (done,true) => applyRows strtoll env root rest done
      | (done,false) => (done,false)

/-- `o9_mount_table_apply`, with the calls it made. -/
def apply (strtoll : Number) (env : Environment) (root : List UInt8) (rows : List Row) : List Call × Bool :=
  if !validate strtoll rows || badText (some root) then ([],false)
  else match attempt env [.ensureDir root] [] with
    | (done,true) => applyRows strtoll env root rows done
    | (done,false) => (done,false)

/-- The destination handed to `bind` or `mount`. -/
def Call.destination : Call → Option (List UInt8)
  | .bind _ dst _ | .mount dst _ _ => some dst
  | _ => none

/-- The column that is joined to the root for `bind` or `mount`. -/
def Row.target (row : Row) : Option (List UInt8) :=
  if row.isCall "dir" then none
  else if row.isCall "bind" then row.new
  else if row.isNear || row.isNet then row.old
  else none

end Model

section Texts

theorem components_cons (c : UInt8) (rest : List UInt8) : components (c :: rest) =
    if c = slash then [] :: components rest else (components rest).modifyHead (c :: ·) := by
  simp [components,splitOn_cons_eq_if_modifyHead]

theorem first_nil_iff (parts : components rest = first :: more) :
    first = [] ↔ rest = [] ∨ rest.head? = some slash := by
  cases rest with
  | nil =>
    obtain ⟨rfl,-⟩ : [] = first ∧ [] = more := by simpa [components] using parts
    simp
  | cons c rest =>
    rw [components_cons] at parts
    by_cases same : c = slash
    · obtain ⟨rfl,-⟩ : [] = first ∧ _ = more := by simpa [same] using parts
      simp [same]
    · obtain ⟨next,later,split⟩ := exists_cons_of_ne_nil (splitOn_ne_nil slash rest)
      rw [if_neg same,components,split,modifyHead_cons,cons.injEq] at parts
      simp [← parts.1,same]

theorem first_dot_iff (parts : components rest = first :: more) :
    first = [dot] ↔ rest = [dot] ∨ [dot,slash].isPrefixOf rest = true := by
  cases rest with
  | nil =>
    obtain ⟨rfl,-⟩ : [] = first ∧ [] = more := by simpa [components] using parts
    simp
  | cons c rest =>
    rw [components_cons] at parts
    by_cases same : c = slash
    · obtain ⟨rfl,-⟩ : [] = first ∧ _ = more := by simpa [same] using parts
      simp [same,slash,dot]
    · obtain ⟨next,later,split⟩ := exists_cons_of_ne_nil (splitOn_ne_nil slash rest)
      have inner := first_nil_iff split
      rw [if_neg same,components,split,modifyHead_cons,cons.injEq] at parts
      rw [← parts.1,cons.injEq,inner]
      cases rest with
      | nil => simp [isPrefixOf]
      | cons d =>
        have swap : (dot = c ∧ slash = d) ↔ (c = dot ∧ d = slash) := by simp only [eq_comm]
        simp [isPrefixOf,swap]

theorem hasDotdot_iff (text : List UInt8) : (hasDotdot true text = true ↔ [dot,dot] ∈ components text) ∧
      (hasDotdot false text = true ↔ [dot,dot] ∈ (components text).tail) := by
  induction text with
  | nil => decide
  | cons c rest ih =>
    rw [components_cons]
    by_cases same : c = slash
    · have apart : slash ≠ dot := by decide
      simp [hasDotdot,same,apart,ih.1]
    · obtain ⟨first,more,parts⟩ := exists_cons_of_ne_nil (splitOn_ne_nil slash rest)
      rw [← components] at parts
      have head := first_dot_iff parts
      rw [parts,tail_cons] at ih
      rw [if_neg same,parts,modifyHead_cons,tail_cons,mem_cons]
      have swap : ([dot,dot] = c :: first) ↔ c = dot ∧ first = [dot] := by
        rw [cons.injEq]
        exact and_congr eq_comm eq_comm
      rw [swap,head]
      simp [hasDotdot,same,ih.2]

theorem plain_of_target (ok : targetOk (some target) = true) : [dot,dot] ∉ components target := by
  simp only [targetOk,and_eq_true,or_eq_true,decide_eq_true_eq,not_eq_true'] at ok
  obtain ⟨-,rfl | clean⟩ := ok
  · decide
  · rw [← (hasDotdot_iff target).1,clean]
    simp

theorem plain_of_root (ok : rootOk root = true) : [dot,dot] ∉ components root := by
  simp only [rootOk,and_eq_true,not_eq_true'] at ok
  rw [← (hasDotdot_iff root).1,ok.1.2]
  simp

theorem badText_eq_false_iff (text : List UInt8) :
    badText (some text) = false ↔ text ≠ [] ∧ ∀ c ∈ text, ¬(c < 0x20 ∨ c = 0x7f) := by
  simp [badText,badText0]

/-- The text that the destination is cut from. -/
def whole (root target : List UInt8) : List UInt8 := if target = [dot] then root else root ++ slash :: target

theorem join_some (ok : targetOk (some target) = true) (root : List UInt8) :
    join root (some target) = some (cut 511 (whole root target)) := by
  simp [join,ok,whole]

theorem destination_text (rootIs : rootOk root = true) (ok : targetOk (some target) = true) :
    badText (some (cut 511 (whole root target))) = false := by
  simp only [rootOk,and_eq_true,not_eq_true',badText_eq_false_iff] at rootIs
  simp only [targetOk,and_eq_true,not_eq_true',badText_eq_false_iff] at ok
  obtain ⟨-,rootSome,rootClean⟩ := rootIs
  rw [badText_eq_false_iff]
  constructor
  · have near := (Text.boundary_le (whole root target) 3 511).2
    rw [cut,ne_eq,take_eq_nil_iff]
    rintro (zero | none)
    · omega
    · revert none
      unfold whole
      split <;> simp [rootSome]
  · intro c member
    have inside : c ∈ whole root target := mem_of_mem_take member
    unfold whole at inside
    split at inside
    · exact rootClean c inside
    · obtain inRoot | rfl | inTarget : c ∈ root ∨ c = slash ∨ c ∈ target := by simpa using inside
      · exact rootClean c inRoot
      · decide
      · exact ok.1.1.2 c inTarget

end Texts

section Rows

variable {strtoll : Number} {root : List UInt8} {row : Row}

/-- What the buffer leaves of a target behind the root and a slash. -/
def leftOf (root target : List UInt8) : List UInt8 := (cut 511 (root ++ slash :: target)).drop (root.length + 1)

/-- What the buffer leaves of the root is still the root, and what it leaves of the target does not step up. -/
def Fits (root target : List UInt8) : Prop :=
  clean (cut 511 root) = clean root ∧ (clean root = [] ∨ climbs (leftOf root target) = false)

/-- The buffer cuts the root, or it leaves the root and a beginning of what follows. -/
theorem cut_join (root target : List UInt8) :
    (cut 511 (root ++ slash :: target) = cut 511 root ∧ leftOf root target = []) ∨
    (cut 511 root = root ∧ leftOf root target <+: target ∧
      cut 511 (root ++ slash :: target) = root ++ slash :: leftOf root target) := by
  have most := (Text.boundary_le (root ++ slash :: target) 3 511).1
  rw [leftOf]
  by_cases long : 511 < root.length
  · left
    have same : cut 511 (root ++ slash :: target) = cut 511 root := by
      rw [cut,cut,Text.boundary_append long] at *
      exact take_append_of_le_length (by omega)
    refine ⟨same,drop_eq_nil_of_le ?_⟩
    have := Text.length_cut_le 511 root
    rw [same]
    omega
  · have rootFits : cut 511 root = root := Text.cut_of_length_le (by omega)
    have least : root.length ≤ boundary (root ++ slash :: target) 3 511 :=
      Text.le_boundary (c := slash) (by simp) (by decide) (by omega)
    rw [rootFits,cut]
    obtain ⟨k,end'⟩ := Nat.exists_eq_add_of_le least
    rw [end',take_length_add_append]
    cases k with
    | zero => exact .inl (by simp)
    | succ k =>
      have rest : (root ++ (slash :: target).take (k + 1)).drop (root.length + 1) = target.take k := by
        rw [take_succ_cons,drop_length_add_append]
        rfl
      rw [rest]
      exact .inr ⟨rfl, take_prefix _ _,rfl⟩

theorem within_destination_iff (rootIs : rootOk root = true) (ok : targetOk (some target) = true) :
    Within root (cut 511 (whole root target)) ↔ Fits root target := by
  have plainTarget := plain_of_target ok
  have inRoot := within_cut_iff (plain_of_root rootIs) (Text.cut_begins 511 root)
  have nothing : climbs [] = false := by decide
  rw [whole,Fits]
  rcases cut_join root target with ⟨same,none⟩ | ⟨rootFits,left,same⟩
  · rw [apply_ite (cut 511),same,none,nothing,ite_self,inRoot]
    simp
  · split
    next here =>
      have stays : climbs (leftOf root target) = false := by
        rw [here] at left ⊢
        rcases prefix_cons_iff.mp left with none | ⟨rest,eq,more⟩
        · rw [none,nothing]
        · rw [eq,prefix_nil.mp more]
          decide
      rw [inRoot,stays]
      simp
    next =>
      rw [same,within_join_iff plainTarget left,rootFits]
      simp

theorem targetOk_some (ok : targetOk cell = true) : ∃ t, cell = some t := by
  cases cell with
  | none => simp [targetOk] at ok
  | some t => exact ⟨t,rfl⟩

theorem rowCalls_destination (rootIs : rootOk root = true) (accepted : validateRow strtoll row = true) :
    ∃ calls, rowCalls strtoll root row = some calls ∧
      calls.filterMap Call.destination = (row.target.map fun t => cut 511 (whole root t)).toList ∧
      ∀ t, row.target = some t → targetOk (some t) = true := by
  unfold validateRow at accepted
  unfold rowCalls Row.target
  by_cases isDir : row.isCall "dir" = true
  · simp only [isDir,if_true,Bool.and_eq_true,Option.any_eq_true] at accepted ⊢
    obtain ⟨ok,mode,parsed,modeIs⟩ := accepted
    obtain ⟨t,cell⟩ := targetOk_some ok
    rw [cell] at ok ⊢
    simp only [join_some ok,parsed,destination_text rootIs ok,modeIs,bind_eq_bind,bind_some,
      Bool.not_true,Bool.or_false,Bool.false_eq_true,if_false]
    exact ⟨_,rfl,by simp [Call.destination],by simp⟩
  simp only [isDir,false_eq_true,if_false] at accepted ⊢
  by_cases isBind : row.isCall "bind" = true
  · simp only [isBind,if_true,and_eq_true,isSome_iff_exists] at accepted ⊢
    obtain ⟨⟨-,ok⟩,flag,parsed⟩ := accepted
    obtain ⟨t,cell⟩ := targetOk_some ok
    rw [cell] at ok ⊢
    simp only [join_some ok,parsed,destination_text rootIs ok,bind_eq_bind,bind_some,
      false_eq_true,if_false]
    exact ⟨_,rfl,rfl,by simpa using ok⟩
  simp only [isBind,false_eq_true,if_false] at accepted ⊢
  by_cases isNear : row.isNear = true
  · simp only [isNear,if_true,Bool.true_or,mountOk,Bool.and_eq_true,isSome_iff_exists] at accepted ⊢
    obtain ⟨⟨⟨-,ok⟩,flag,parsed⟩,-⟩ := accepted
    obtain ⟨t,cell⟩ := targetOk_some ok
    rw [cell] at ok ⊢
    simp only [join_some ok,parsed,destination_text rootIs ok,bind_eq_bind,bind_some,
      false_eq_true,if_false]
    refine ⟨_,rfl,?_,by simpa using ok⟩
    split <;> rfl
  simp only [isNear,Bool.false_eq_true,if_false,Bool.false_or] at accepted ⊢
  by_cases isNet : row.isNet = true
  · simp only [isNet,if_true,mountOk,and_eq_true,isSome_iff_exists] at accepted ⊢
    obtain ⟨⟨⟨-,ok⟩,flag,parsed⟩,-⟩ := accepted
    obtain ⟨t,cell⟩ := targetOk_some ok
    rw [cell] at ok ⊢
    simp only [join_some ok,parsed,destination_text rootIs ok,bind_eq_bind,bind_some,
      false_eq_true,if_false]
    exact ⟨_,rfl,rfl,by simpa using ok⟩
  simp [isNet] at accepted

end Rows

section Apply

variable {strtoll : Number} {env : Environment} {root : List UInt8}

theorem attempt_made (env : Environment) (calls done : List Call) :
    ∃ made, made <+: calls ∧ (attempt env calls done).1 = done ++ made ∧
      ((attempt env calls done).2 = true → made = calls) := by
  induction calls generalizing done with
  | nil => exact ⟨[],prefix_rfl,by simp [attempt],fun _ => rfl⟩
  | cons c rest ih =>
    unfold attempt
    split
    · obtain ⟨made,first,is,all⟩ := ih (done ++ [c])
      exact ⟨c :: made,by simpa using first,by simp [is],fun succeeded => by rw [all succeeded]⟩
    · exact ⟨[c],by simp,rfl,by simp⟩

/-- The calls of all rows, as far as they are well formed. -/
def planned (strtoll : Number) (root : List UInt8) (rows : List Row) : List Call :=
  rows.flatMap fun row => (rowCalls strtoll root row).getD []

theorem applyRows_made (strtoll : Number) (env : Environment) (root : List UInt8) (rows : List Row) (done : List Call) :
    ∃ made, made <+: planned strtoll root rows ∧ (applyRows strtoll env root rows done).1 = done ++ made := by
  induction rows generalizing done with
  | nil => exact ⟨[], nil_prefix,by simp [applyRows]⟩
  | cons row rest ih =>
    unfold applyRows
    cases calls : rowCalls strtoll root row with
    | none => exact ⟨[], nil_prefix,by simp⟩
    | some calls' =>
      have plan : planned strtoll root (row :: rest) = calls' ++ planned strtoll root rest := by
        simp [planned,calls]
      obtain ⟨made,first,is,all⟩ := attempt_made env calls' done
      rw [plan]
      cases tried : attempt env calls' done with
      | mk done' succeeded =>
        rw [tried] at is all
        cases succeeded with
        | false => exact ⟨made,first.trans (prefix_append _ _),by simpa [tried] using is⟩
        | true =>
          obtain rfl := all rfl
          obtain ⟨made',first',is'⟩ := ih done'
          refine ⟨made ++ made',?_,?_⟩
          · exact (prefix_append_right_inj made).mpr first'
          · have is : done' = done ++ made := is
            simp only [tried]
            rw [is',is,append_assoc]

theorem attempt_all (calls done : List Call) : attempt (fun _ _ => true) calls done = (done ++ calls,true) := by
  induction calls generalizing done with
  | nil => simp [attempt]
  | cons c rest ih => simp [attempt,ih]

theorem applyRows_all (rootIs : rootOk root = true) (rows : List Row) (done : List Call)
    (accepted : validate strtoll rows = true) :
    (applyRows strtoll (fun _ _ => true) root rows done).1 = done ++ planned strtoll root rows := by
  induction rows generalizing done with
  | nil => simp [applyRows,planned]
  | cons row rest ih =>
    simp only [validate,all_cons,and_eq_true] at accepted
    obtain ⟨calls,made,-⟩ := rowCalls_destination rootIs accepted.1
    have plan : planned strtoll root (row :: rest) = calls ++ planned strtoll root rest := by
      simp [planned,made]
    simp only [applyRows,made,attempt_all]
    rw [ih (done ++ calls) accepted.2,plan,append_assoc]

theorem planned_destination_iff (rootIs : rootOk root = true) (accepted : validate strtoll rows = true)
    (dst : List UInt8) : (∃ call ∈ planned strtoll root rows, call.destination = some dst) ↔
      ∃ row ∈ rows, ∃ t, row.target = some t ∧ targetOk (some t) = true ∧ dst = cut 511 (whole root t) := by
  have each (row : Row) (member : row ∈ rows) := rowCalls_destination rootIs (all_eq_true.mp accepted row member)
  simp only [planned,mem_flatMap]
  constructor
  · rintro ⟨call,⟨row,member,called⟩,is⟩
    obtain ⟨calls,made,destinations,ok⟩ := each row member
    rw [made,getD_some] at called
    have listed : dst ∈ calls.filterMap Call.destination := mem_filterMap.mpr ⟨call,called,is⟩
    rw [destinations,mem_toList,map_eq_some_iff] at listed
    obtain ⟨t,target,rfl⟩ := listed
    exact ⟨row,member,t,target,ok t target,rfl⟩
  · rintro ⟨row,member,t,target,-,rfl⟩
    obtain ⟨calls,made,destinations,-⟩ := each row member
    have listed : cut 511 (whole root t) ∈ calls.filterMap Call.destination := by
      simp [destinations,target]
    obtain ⟨call,called,is⟩ := mem_filterMap.mp listed
    exact ⟨call,⟨row,member,by simpa [made] using called⟩,is⟩

/-- What `bind` and `mount` are given stays under the root, whatever the system answers. -/
def Confined (strtoll : Number) (root : List UInt8) (rows : List Row) : Prop :=
  ∀ env, ∀ call ∈ (apply strtoll env root rows).1, ∀ dst, call.destination = some dst → Within root dst

/-- An accepted table is confined just if no destination loses, to the end of the buffer, a part of the root or what
tells a target's first name from a double dot. -/
theorem mounts_confined_iff (strtoll : Number) (root : List UInt8) (rows : List Row) (rootIs : rootOk root = true)
    (accepted : validate strtoll rows = true) :
    Confined strtoll root rows ↔ ∀ row ∈ rows, ∀ t, row.target = some t → Fits root t := by
  have rootText : badText (some root) = false := by
    simp only [rootOk,and_eq_true,not_eq_true'] at rootIs
    exact rootIs.2
  constructor
  · intro confined row member t target
    have made : (apply strtoll (fun _ _ => true) root rows).1 = .ensureDir root :: planned strtoll root rows := by
      have all := applyRows_all rootIs rows [.ensureDir root] accepted
      simpa [apply,accepted,rootText,attempt] using all
    obtain ⟨_,_,_,ok⟩ := rowCalls_destination rootIs (all_eq_true.mp accepted row member)
    obtain ⟨call,called,is⟩ := (planned_destination_iff rootIs accepted _).mpr ⟨row,member,t,target,ok t target,rfl⟩
    have within := confined (fun _ _ => true) call (by simp [made,called]) _ is
    exact (within_destination_iff rootIs (ok t target)).mp within
  · intro fits env call called dst is
    have first : call = .ensureDir root ∨ call ∈ planned strtoll root rows := by
      simp only [apply,accepted,rootText,attempt,Bool.not_true,Bool.or_false,Bool.false_eq_true,if_false] at called
      obtain ⟨made,cut,all⟩ := applyRows_made strtoll env root rows [.ensureDir root]
      cases answered : env [] (.ensureDir root) with
      | false => exact .inl (by simpa [answered] using called)
      | true =>
        simp only [answered,if_true,nil_append] at called
        rw [all,mem_append,mem_singleton] at called
        exact called.imp_right fun member => cut.subset member
    obtain rfl | listed := first
    · cases is
    · obtain ⟨row,member,t,target,ok,rfl⟩ := (planned_destination_iff rootIs accepted dst).mp ⟨call,listed,is⟩
      exact (within_destination_iff rootIs ok).mpr (fits row member t target)

theorem fits_of_short (ok : targetOk (some t) = true) (short : root.length + 1 + t.length ≤ 511) : Fits root t := by
  have joined : cut 511 (root ++ slash :: t) = root ++ slash :: t := Text.cut_of_length_le (by simp; omega)
  refine ⟨by rw [Text.cut_of_length_le (by omega)],.inr ?_⟩
  rw [leftOf,joined,drop_length_add_append,drop_succ_cons,drop_zero,climbs,and_eq_false_iff,decide_eq_false_iff_not]
  left
  intro last
  exact plain_of_target ok (mem_of_getLast? last)

def bindRow (target : String) : Row :=
  { call := some (ascii "bind"), old := some (ascii "/tmp"), new := some (ascii target), flag := some (ascii "0") }

theorem short_bind_confined : Confined (fun _ => some 0) (ascii "/mnt/app") [bindRow "lib/..x"] := by
  refine (mounts_confined_iff _ _ _ (by decide) (by decide)).mpr ?_
  intro row member t target
  obtain rfl := mem_singleton.mp member
  obtain rfl : ascii "lib/..x" = t := by simpa [bindRow,Row.target,ascii] using target
  exact fits_of_short (by decide) (by decide)

/-- A root of 508 bytes leaves room for two bytes of the target `..x`. -/
def longRoot : List UInt8 := (List.replicate 127 (ascii "/usr")).flatten

theorem cut_target_escapes : ¬∀ strtoll root rows, rootOk root = true → validate strtoll rows = true →
    Confined strtoll root rows := by
  intro always
  have confined := always (fun _ => some 0) longRoot [bindRow "..x"] (by decide +kernel) (by decide +kernel)
  have within := confined (fun _ _ => true) (.bind (ascii "/tmp") (longRoot ++ ascii "/..") 0)
    (by decide +kernel) _ rfl
  exact absurd within (by decide +kernel)

end Apply

end Objective9c.MountTable
