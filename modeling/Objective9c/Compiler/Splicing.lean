import Mathlib.Data.List.Basic
import Objective9c.Lib.Lines

/-! Import splicing and the source map. A round of `resolve_imports` copies the source line by line,
puts the text of an imported file in the place of its import line, and keeps beside the new text the
file and line that every line of it comes from. Texts end before their first zero byte; a root without imports is
not copied, and what follows a zero byte in it has no place. -/
namespace Objective9c.Compiler.Splice

open List Lines

abbrev Path := List Char

def identChar (c : Char) : Bool := c.isAlphanum || c == '_'

section Source

/-- `SourceLoc`. -/
structure Loc where
  file : Option Path
  line : Nat
deriving DecidableEq

def nowhere : Loc := ⟨none,0⟩

def sourceAt (sources : List Loc) (line : Nat) : Loc :=
  if 0 < line then sources.getD line nowhere else nowhere

/-- What the loop of `source_append` and of `source_init` adds, one for each line end. -/
def sourceLines (loc : Loc) : List Char → List Loc
  | [] => []
  | c :: rest =>
    if c = '\n' then { loc with line := loc.line + 1 } :: sourceLines { loc with line := loc.line + 1 } rest
    else sourceLines loc rest

def sourceInit (file : Path) (text : List Char) : List Loc :=
  ⟨some file,0⟩ :: ⟨some file,1⟩ :: sourceLines ⟨some file,1⟩ text

/-- The second one is the empty line before the first splice. -/
def sourceBegin : List Loc := [nowhere,nowhere]

def sourceAppend (build : List Loc) (loc : Loc) (text : List Char) : List Loc :=
  build ++ loc :: sourceLines loc text

end Source

section Main

def isBlank (c : Char) : Bool := c == ' ' || c == '\t' || c == '\r' || c == '\n'

/-- The text begins with `main` as a word of its own, and a brace follows. -/
def mainHere (before : Option Char) (text : List Char) : Bool :=
  ['m','a','i','n'].isPrefixOf text && !before.any identChar && !(text.drop 4).head?.any identChar &&
    ((text.drop 4).dropWhile isBlank).head? == some '{'

/-- `find_main_block_start`. -/
def findMainBlockStart (before : Option Char) : List Char → Option Nat
  | [] => none
  | c :: rest =>
    if mainHere before (c :: rest) then some 0 else (findMainBlockStart (some c) rest).map (· + 1)

/-- How far the loop goes that balances braces. -/
def blockLength (depth : Nat) : List Char → Nat
  | [] => 0
  | c :: rest =>
    let depth := if c = '{' then depth + 1 else if c = '}' then depth - 1 else depth
    if depth = 0 then 1 else blockLength depth rest + 1

def blank (c : Char) : Char := if c = '\n' then c else ' '

def stripImportedMain (src : List Char) : List Char :=
  match findMainBlockStart none src with
  | none => src
  | some m =>
    let brace := (src.drop m).findIdx (· == '{')
    let stop := brace + blockLength 0 (src.drop (m + brace))
    src.take m ++ ((src.drop m).take stop).map blank ++ (src.drop m).drop stop

end Main

section Imports

/-- What the compiler asks the system: `read_whole_file`, `dirstat`, and `resolve_import_path` for an import line. A
path that is not resolved has been reported. -/
structure Files where
  read : Path → Option (List Char)
  ident : Path → Option (Nat × Nat)
  resolve : List Char → Option Path → Option Path

def cstr (text : List Char) : List Char := text.takeWhile (· ≠ '\x00')

/-- The source text with its map, the imported files and the errors reported. -/
structure State where
  text : List Char
  sources : List Loc
  loaded : List Path
  idents : List (Nat × Nat)
  errors : Nat

/-- The new text and map of a round, with the globals. -/
structure Building where
  combined : List Char
  build : List Loc
  any : Bool
  loaded : List Path
  idents : List (Nat × Nat)
  errors : Nat

def spliceAppend (b : Building) (add : List Char) (loc : Loc) : Building :=
  { b with combined := b.combined ++ '\n' :: add, build := sourceAppend b.build loc add }

def importLineStart (line : List Char) : List Char := line.dropWhile fun c => c == ' ' || c == '\t'

def isFrom (ls : List Char) : Bool := "from ".toList.isPrefixOf ls

def isImport (ls : List Char) : Bool := "import ".toList.isPrefixOf ls

/-- The text between the first two quotes, into a buffer of 1024. -/
def parseImportPath (ls : List Char) : Option (List Char) :=
  match ls.dropWhile (· ≠ '"') with
  | [] => none
  | _ :: rest => if '"' ∈ rest then some ((rest.takeWhile (· ≠ '"')).take 1023) else none

def importAlreadyLoaded (b : Building) (full : Path) : Bool := b.loaded.contains full

def importIdentityLoaded (fs : Files) (b : Building) (full : Path) : Bool := (fs.ident full).any b.idents.contains

def rememberImportIdentity (fs : Files) (b : Building) (full : Path) : Building :=
  if b.idents.length ≥ 64 then b else { b with idents := b.idents ++ (fs.ident full).toList }

def appendImportFile (fs : Files) (b : Building) (full : Path) : Building :=
  if importAlreadyLoaded b full || importIdentityLoaded fs b full then b
  else if b.loaded.length ≥ 64 then b
  else
    let b := { b with loaded := b.loaded ++ [full] }
    match fs.read full with
    | none => { b with errors := b.errors + 1 }
    | some text =>
      spliceAppend (rememberImportIdentity fs b full) (stripImportedMain (cstr text)) ⟨some full,1⟩

/-- One line of a round, with its place in the source. -/
def resolveLine (fs : Files) (b : Building) (line : List Char) (loc : Loc) : Building :=
  let ls := importLineStart line
  if isFrom ls then { b with errors := b.errors + 1 }
  else if isImport ls then
    match parseImportPath ls with
    | none => b
    | some path =>
      match fs.resolve path loc.file with
      | none => { b with errors := b.errors + 1, any := true }
      | some full => { appendImportFile fs b full with any := true }
  else spliceAppend b line loc

/-- `resolve_imports`; without an import the text stays as it is. -/
def resolveImports (fs : Files) (s : State) : State × Bool :=
  let start : Building := ⟨[],sourceBegin,false,s.loaded,s.idents,s.errors⟩
  let b := ((Lines.read '\n' [] s.text).zipIdx 1).foldl
    (fun b numbered => resolveLine fs b numbered.1 (sourceAt s.sources numbered.2)) start
  if b.any then (⟨b.combined,b.build,b.loaded,b.idents,b.errors⟩,true)
  else ({ s with loaded := b.loaded, idents := b.idents, errors := b.errors },false)

def initial (name : Path) (root : List Char) : State := ⟨cstr root,sourceInit name (cstr root),[],[],0⟩

/-- The state after that many rounds that found an import. -/
def spliced (fs : Files) : Nat → State → Option State
  | 0, s => some s
  | n+1, s => match resolveImports fs s with
    | (s,true) => spliced fs n s
    | (_,false) => none

end Imports

section Marks

/-- A line with its place. -/
abbrev Mark := List Char × Loc

def marked (loc : Loc) (text : List Char) : List Mark :=
  ((text.splitOn '\n').zipIdx loc.line).map fun numbered => (numbered.1,⟨loc.file,numbered.2⟩)

theorem sourceLines_eq (loc : Loc) (text : List Char) :
    sourceLines loc text = (counts '\n' loc.line text).map (⟨loc.file,·⟩) := by
  induction text generalizing loc with
  | nil => rfl
  | cons c rest ih =>
    rw [sourceLines,counts]
    split
    · rw [map_cons,ih]
    · exact ih loc

theorem marked_lines (loc : Loc) (text : List Char) : (marked loc text).map Prod.fst = text.splitOn '\n' := by
  simp [marked,Function.comp_def]

theorem marked_places (loc : Loc) (text : List Char) :
    (marked loc text).map Prod.snd = loc :: sourceLines loc text :=
  calc (marked loc text).map Prod.snd
    _ = (((text.splitOn '\n').zipIdx loc.line).map Prod.snd).map (⟨loc.file,·⟩) := by
      simp only [marked,map_map,Function.comp_def]
    _ = (loc.line :: counts '\n' loc.line text).map (⟨loc.file,·⟩) := by
      rw [zipIdx_map_snd,counts_eq]
    _ = loc :: sourceLines loc text := by rw [map_cons,sourceLines_eq]

theorem marked_line (plain : '\n' ∉ line) (loc : Loc) : marked loc line = [(line,loc)] := by
  simp [marked,splitOn_eq_singleton plain]

structure Shows (text : List Char) (sources : List Loc) (lines : List Mark) : Prop where
  cut : text.splitOn '\n' = lines.map Prod.fst
  places : ∃ first, sources = first :: lines.map Prod.snd

theorem Shows.splice (shows : Shows text sources lines) (add : List Char) (loc : Loc) :
    Shows (text ++ '\n' :: add) (sourceAppend sources loc add) (lines ++ marked loc add) := by
  obtain ⟨first,places⟩ := shows.places
  refine ⟨?_,first,?_⟩
  · rw [splitOn_append_cons_self,shows.cut,map_append,marked_lines]
  · rw [sourceAppend,places,map_append,marked_places,cons_append]

theorem Shows.place (shows : Shows text sources lines) (found : lines[i]? = some mark) :
    sourceAt sources (i + 1) = mark.2 := by
  obtain ⟨first,rfl⟩ := shows.places
  simp [sourceAt,found]

/-- The lines that a round comes to: not the empty one behind the last line end. -/
def visible (lines : List Mark) : List Mark :=
  if lines.getLast?.map Prod.fst = some [] then lines.dropLast else lines

theorem seen_map (lines : List Mark) : seen (lines.map Prod.fst) = (visible lines).map Prod.fst := by
  unfold seen visible
  rw [getLast?_map]
  split
  · rw [map_dropLast]
  · rfl

theorem visible_cut (lines : List Mark) : ∃ rest, lines = visible lines ++ rest ∧ ∀ mark ∈ rest, mark.1 = [] := by
  unfold visible
  split
  next blank =>
    obtain ⟨last,found,empty⟩ := Option.map_eq_some_iff.mp blank
    refine ⟨[last],(dropLast_append_getLast? last found).symm,fun mark member => ?_⟩
    rw [mem_singleton.mp member,empty]
  · exact ⟨[],by simp,by simp⟩

theorem Shows.read (shows : Shows text sources lines) :
    ((read '\n' [] text).zipIdx 1).map (fun numbered => (numbered.1,sourceAt sources numbered.2)) =
      visible lines := by
  obtain ⟨rest,cut,_⟩ := visible_cut lines
  rw [read_eq,modifyHead_nil_append,shows.cut,seen_map]
  apply ext_getElem?
  intro i
  rw [getElem?_map,getElem?_zipIdx,getElem?_map]
  cases found : (visible lines)[i]? with
  | none => rfl
  | some mark =>
    have bound := (List.getElem?_eq_some_iff.mp found).1
    have there : lines[i]? = some mark := by rw [cut,getElem?_append_left bound,found]
    simp [Nat.add_comm 1 i,shows.place there]

end Marks

section Rounds

structure Source where
  lines : List Mark
  loaded : List Path
  idents : List (Nat × Nat)
  errors : Nat

structure Round where
  lines : List Mark
  any : Bool
  loaded : List Path
  idents : List (Nat × Nat)
  errors : Nat

variable (fs : Files)

/-- An import of a file, on the lines. -/
def Round.load (r : Round) (full : Path) : Round :=
  if r.loaded.contains full || (fs.ident full).any r.idents.contains then r
  else if r.loaded.length ≥ 64 then r
  else match fs.read full with
    | none => { r with loaded := r.loaded ++ [full], errors := r.errors + 1 }
    | some text => { r with
        loaded := r.loaded ++ [full]
        idents := if r.idents.length ≥ 64 then r.idents else r.idents ++ (fs.ident full).toList
        lines := r.lines ++ marked ⟨some full,1⟩ (stripImportedMain (cstr text)) }

def Round.line (r : Round) (mark : Mark) : Round :=
  let ls := importLineStart mark.1
  if isFrom ls then { r with errors := r.errors + 1 }
  else if isImport ls then
    match parseImportPath ls with
    | none => r
    | some path =>
      match fs.resolve path mark.2.file with
      | none => { r with errors := r.errors + 1, any := true }
      | some full => { r.load fs full with any := true }
  else { r with lines := r.lines ++ [mark] }

def round (a : Source) : Round :=
  (visible a.lines).foldl (Round.line fs) ⟨[([],nowhere)],false,a.loaded,a.idents,a.errors⟩

def Source.resolve (a : Source) : Source × Bool :=
  let r := round fs a
  if r.any then (⟨r.lines,r.loaded,r.idents,r.errors⟩,true)
  else ({ a with loaded := r.loaded, idents := r.idents, errors := r.errors },false)

structure Building.Shows (b : Building) (r : Round) : Prop where
  shows : Splice.Shows b.combined b.build r.lines
  any : b.any = r.any
  loaded : b.loaded = r.loaded
  idents : b.idents = r.idents
  errors : b.errors = r.errors

structure State.Shows (s : State) (a : Source) : Prop where
  shows : Splice.Shows s.text s.sources a.lines
  loaded : s.loaded = a.loaded
  idents : s.idents = a.idents
  errors : s.errors = a.errors

variable {fs}

theorem Building.Shows.load (same : b.Shows r) (full : Path) :
    (appendImportFile fs b full).Shows (r.load fs full) := by
  obtain ⟨combined,build,any,loaded,idents,errors⟩ := b
  obtain ⟨shows,rfl,rfl,rfl,rfl⟩ := same
  unfold appendImportFile Round.load importAlreadyLoaded importIdentityLoaded
  split
  · exact ⟨shows,rfl,rfl,rfl,rfl⟩
  split
  · exact ⟨shows,rfl,rfl,rfl,rfl⟩
  cases fs.read full with
  | none => exact ⟨shows,rfl,rfl,rfl,rfl⟩
  | some text =>
    have spliced := shows.splice (stripImportedMain (cstr text)) ⟨some full,1⟩
    unfold rememberImportIdentity
    dsimp only
    split
    · exact ⟨spliced,rfl,rfl,rfl,rfl⟩
    · exact ⟨spliced,rfl,rfl,rfl,rfl⟩

theorem Building.Shows.line (same : b.Shows r) (mark : Mark) (plain : '\n' ∉ mark.1) :
    (resolveLine fs b mark.1 mark.2).Shows (r.line fs mark) := by
  unfold resolveLine Round.line
  dsimp only
  split
  · exact ⟨same.shows,same.any,same.loaded,same.idents,by simp [same.errors]⟩
  split
  · split
    · exact same
    split
    · exact ⟨same.shows,rfl,same.loaded,same.idents,by simp [same.errors]⟩
    next full _ =>
      have done : (appendImportFile fs b full).Shows (r.load fs full) := same.load full
      exact ⟨done.shows,rfl,done.loaded,done.idents,done.errors⟩
  · have copied := same.shows.splice mark.1 mark.2
    rw [marked_line plain] at copied
    exact ⟨copied,same.any,same.loaded,same.idents,same.errors⟩

theorem Building.Shows.lines (same : b.Shows r) (marks : List Mark) (plain : ∀ mark ∈ marks, '\n' ∉ mark.1) :
    (marks.foldl (fun b mark => resolveLine fs b mark.1 mark.2) b).Shows (marks.foldl (Round.line fs) r) := by
  induction marks generalizing b r with
  | nil => exact same
  | cons mark rest ih =>
    exact ih (same.line mark (plain mark mem_cons_self))
      fun other member => plain other (mem_cons_of_mem _ member)

theorem Shows.plain (shows : Splice.Shows text sources lines) (member : mark ∈ visible lines) : '\n' ∉ mark.1 := by
  obtain ⟨rest,cut,_⟩ := visible_cut lines
  have listed : mark.1 ∈ text.splitOn '\n' := by
    rw [shows.cut,cut,map_append]
    exact mem_append_left _ (mem_map_of_mem member)
  exact (not_mem_of_mem_splitOn listed).1

theorem begin_shows : Splice.Shows [] sourceBegin [([],nowhere)] := ⟨rfl,nowhere,rfl⟩

theorem State.Shows.resolve (fs : Files) (same : s.Shows a) : (resolveImports fs s).1.Shows (a.resolve fs).1 ∧
    (resolveImports fs s).2 = (a.resolve fs).2 := by
  have start : Building.Shows ⟨[],sourceBegin,false,s.loaded,s.idents,s.errors⟩
      ⟨[([],nowhere)],false,a.loaded,a.idents,a.errors⟩ :=
    ⟨begin_shows,rfl,same.loaded,same.idents,same.errors⟩
  have done : Building.Shows _ (round fs a) :=
    start.lines (visible a.lines) fun mark member => Shows.plain same.shows member
  rw [← same.shows.read,foldl_map] at done
  unfold resolveImports Source.resolve
  dsimp only at done ⊢
  rw [done.any]
  split
  · exact ⟨⟨done.shows,done.loaded,done.idents,done.errors⟩,rfl⟩
  · exact ⟨⟨same.shows,done.loaded,done.idents,done.errors⟩,rfl⟩

def Source.initial (name : Path) (root : List Char) : Source := ⟨marked ⟨some name,1⟩ (cstr root),[],[],0⟩

theorem initial_shows (name : Path) (root : List Char) : (initial name root).Shows (.initial name root) :=
  ⟨⟨(marked_lines _ _).symm,⟨some name,0⟩,congrArg (_ :: ·) (marked_places ⟨some name,1⟩ (cstr root)).symm⟩,
    rfl,rfl,rfl⟩

end Rounds

section Map

/-- Kept, or blanked out. -/
def Faded (a b : Char) : Prop := b = a ∨ (b = ' ' ∧ a ≠ '\n')

theorem faded_self (text : List Char) : List.Forall₂ Faded text text := forall₂_same.mpr fun _ _ => .inl rfl

theorem faded_blank {text : List Char} : List.Forall₂ Faded text (text.map blank) := by
  rw [forall₂_map_right_iff,forall₂_same]
  intro c _
  unfold blank
  split
  · exact .inl rfl
  next other => exact .inr ⟨rfl,other⟩

theorem stripImportedMain_faded (src : List Char) : List.Forall₂ Faded src (stripImportedMain src) := by
  unfold stripImportedMain
  split
  · exact faded_self src
  next m _ =>
    dsimp only
    generalize (src.drop m).findIdx (· == '{') + _ = stop
    have whole : src = src.take m ++ (src.drop m).take stop ++ (src.drop m).drop stop := by
      rw [append_assoc,take_append_drop,take_append_drop]
    nth_rewrite 1 [whole]
    exact rel_append (rel_append (faded_self _) (faded_blank)) (faded_self _)

variable {fs : Files} {name : Path} {root : List Char}

/-- The line of the root file, or the line of an imported file as far as it is not blanked out. -/
def Original (fs : Files) (name : Path) (root : List Char) (file : Path) (k : Nat) (line : List Char) : Prop :=
  (file = name ∧ ((cstr root).splitOn '\n')[k]? = some line) ∨
    ∃ text original, fs.read file = some text ∧ ((cstr text).splitOn '\n')[k]? = some original ∧
      ((stripImportedMain (cstr text)).splitOn '\n')[k]? = some line ∧ List.Forall₂ Faded original line

def Located (fs : Files) (name : Path) (root : List Char) (mark : Mark) : Prop :=
  ∃ file k, mark.2 = ⟨some file,k+1⟩ ∧ Original fs name root file k mark.1

theorem mem_marked (member : mark ∈ marked ⟨some file,1⟩ text) :
    ∃ k, mark.2 = ⟨some file,k+1⟩ ∧ (text.splitOn '\n')[k]? = some mark.1 := by
  obtain ⟨numbered,there,rfl⟩ := mem_map.mp member
  obtain ⟨low,_,found⟩ := mem_zipIdx there
  refine ⟨numbered.2 - 1,?_,?_⟩
  · simp only [Nat.sub_add_cancel low]
  · rw [found]
    exact getElem?_eq_getElem _

theorem root_located (member : mark ∈ marked ⟨some name,1⟩ (cstr root)) : Located fs name root mark := by
  obtain ⟨k,place,line⟩ := mem_marked member
  exact ⟨name,k,place,.inl ⟨rfl,line⟩⟩

theorem import_located (read : fs.read full = some text)
    (member : mark ∈ marked ⟨some full,1⟩ (stripImportedMain (cstr text))) : Located fs name root mark := by
  obtain ⟨k,place,line⟩ := mem_marked member
  have ends (a b : Char) (same : Faded a b) : a = '\n' ↔ b = '\n' := by
    rcases same with rfl | ⟨rfl,other⟩
    · rfl
    · exact ⟨fun same => absurd same other,fun same => absurd same (by decide)⟩
  have agree := forall₂_splitOn ends (stripImportedMain_faded (cstr text))
  have bound := (List.getElem?_eq_some_iff.mp line).1
  rw [← agree.length_eq] at bound
  have faded := agree.get bound (agree.length_eq ▸ bound)
  refine ⟨full,k,place,.inr ⟨text,_,read,getElem?_eq_getElem bound,line,?_⟩⟩
  rw [(List.getElem?_eq_some_iff.mp line).2.symm]
  exact faded

theorem Round.line_lines (fs : Files) (r : Round) (mark : Mark) : ∃ more, (r.line fs mark).lines = r.lines ++ more ∧
    ∀ added ∈ more, added = mark ∨ ∃ full text, fs.read full = some text ∧
      added ∈ marked ⟨some full,1⟩ (stripImportedMain (cstr text)) := by
  fun_cases Round.line fs r mark with
  | case4 _ _ _ path _ full =>
    change ∃ more, (r.load fs full).lines = r.lines ++ more ∧ _
    fun_cases Round.load fs r full with
    | case4 _ _ text read => exact ⟨_,rfl,fun added member => .inr ⟨full,text,read,member⟩⟩
    | _ => exact ⟨[],by simp,by simp⟩
  | case5 => exact ⟨[mark],rfl,fun added member => .inl (mem_singleton.mp member)⟩
  | _ => exact ⟨[],by simp,by simp⟩

theorem Round.lines_located (r : Round) (marks : List Mark) (known : ∀ mark ∈ marks, Located fs name root mark) :
    ∃ more, (marks.foldl (Round.line fs) r).lines = r.lines ++ more ∧ ∀ mark ∈ more, Located fs name root mark := by
  induction marks generalizing r with
  | nil => exact ⟨[],by simp,by simp⟩
  | cons mark rest ih =>
    obtain ⟨first,added,here⟩ := r.line_lines fs mark
    obtain ⟨more,all,later⟩ := ih (r.line fs mark) fun other member => known other (mem_cons_of_mem _ member)
    refine ⟨first ++ more,by rw [foldl_cons,all,added,append_assoc],fun other member => ?_⟩
    rcases mem_append.mp member with member | member
    · rcases here other member with rfl | ⟨full,text,read,there⟩
      · exact known other mem_cons_self
      · exact import_located read there
    · exact later other member

/-- The empty line in front of a source that was spliced. -/
def front : Mark := ([],nowhere)

theorem Round.line_front (r : Round) : r.line fs front = { r with lines := r.lines ++ [front] } := rfl

theorem Round.fronts (r : Round) (n : Nat) :
    (replicate n front).foldl (Round.line fs) r = { r with lines := r.lines ++ replicate n front } := by
  induction n generalizing r with
  | zero => simp
  | succ n ih =>
    rw [replicate_succ,foldl_cons,ih,Round.line_front,append_assoc]
    rfl

/-- As many empty lines as there were rounds, and then lines with their places. -/
def Source.Exact (fs : Files) (name : Path) (root : List Char) (n : Nat) (a : Source) : Prop :=
  ∃ located, a.lines = List.replicate n front ++ located ∧ ∀ mark ∈ located, Located fs name root mark

theorem visible_append (more : rest ≠ []) : visible (lines ++ rest) = lines ++ visible rest := by
  unfold visible
  rw [getLast?_append_of_ne_nil _ more,dropLast_append_of_ne_nil more]
  split <;> rfl

theorem visible_sub (member : mark ∈ visible lines) : mark ∈ lines := by
  obtain ⟨rest,cut,_⟩ := visible_cut lines
  rw [cut]
  exact mem_append_left _ member

theorem visible_fronts (n : Nat) : ∃ m, visible (replicate n front) = replicate m front := by
  unfold visible
  split
  · exact ⟨n - 1,by simp⟩
  · exact ⟨n,rfl⟩

theorem Source.Exact.resolve {a : Source} (exact : a.Exact fs name root n) (any : (a.resolve fs).2 = true) :
    (a.resolve fs).1.Exact fs name root (n + 1) := by
  obtain ⟨located,lines,known⟩ := exact
  unfold Source.resolve at any ⊢
  dsimp only at any ⊢
  split at any
  next found =>
    rw [if_pos found]
    by_cases empty : located = []
    · rw [round,lines,empty,append_nil] at found
      obtain ⟨m,fronts⟩ := visible_fronts n
      rw [fronts,Round.fronts] at found
      contradiction
    · have shape : round fs a = (visible located).foldl (Round.line fs)
          ⟨replicate (n + 1) front,false,a.loaded,a.idents,a.errors⟩ := by
        rw [round,lines,visible_append empty,foldl_append,Round.fronts]
        rfl
      have still (mark : Mark) (member : mark ∈ visible located) : Located fs name root mark :=
        known mark (visible_sub member)
      obtain ⟨more,all,there⟩ := Round.lines_located
        ⟨replicate (n + 1) front,false,a.loaded,a.idents,a.errors⟩ (visible located) still
      rw [shape]
      exact ⟨more,all,there⟩
  · contradiction

theorem spliced_exact (n m : Nat) (s : State) (a : Source) (same : s.Shows a) (exact : a.Exact fs name root m)
    (done : spliced fs n s = some s') : ∃ a', s'.Shows a' ∧ a'.Exact fs name root (m + n) := by
  induction n generalizing s a m with
  | zero =>
    cases done
    exact ⟨a,same,exact⟩
  | succ n ih =>
    obtain ⟨shown,any⟩ := same.resolve fs
    unfold spliced at done
    split at done
    next next result =>
      rw [result] at shown any
      obtain ⟨a',shown',exact'⟩ := ih (m + 1) next _ shown (exact.resolve any.symm) done
      exact ⟨a',shown',by rwa [Nat.add_right_comm] at exact'⟩
    · contradiction

/-- After any number of rounds, as many empty lines from nowhere stand in front, and the place of every other line is
the file and the number of the line it was. -/
theorem source_map_exact (done : spliced fs n (initial name root) = some s)
    (found : (s.text.splitOn '\n')[i]? = some line) :
    if i < n then line = [] ∧ sourceAt s.sources (i + 1) = nowhere
    else ∃ file k, sourceAt s.sources (i + 1) = ⟨some file,k + 1⟩ ∧ Original fs name root file k line := by
  have first : (Source.initial name root).Exact fs name root 0 :=
    ⟨_,rfl,fun mark member => root_located member⟩
  obtain ⟨a,shown,located,lines,known⟩ := spliced_exact n 0 _ _ (initial_shows name root) first done
  rw [Nat.zero_add] at lines
  rw [shown.shows.cut,getElem?_map,Option.map_eq_some_iff] at found
  obtain ⟨mark,there,rfl⟩ := found
  rw [shown.shows.place there]
  rw [lines] at there
  split
  next front =>
    rw [getElem?_append_left (by simpa using front),getElem?_replicate_of_lt front] at there
    cases there
    exact ⟨rfl,rfl⟩
  next behind =>
    rw [getElem?_append_right (by simpa using behind)] at there
    exact known mark (mem_of_getElem? there)

/-- One file to import, with a program entry of its own. -/
def oneFile : Files where
  read path := if path = ['b'] then some "class B \x7b\x7d\nmain \x7b run \x7d\n".toList else none
  ident _ := none
  resolve path _ := some path

def importer : List Char := "import \"b\";\nclass A \x7b\x7d\n".toList

theorem importer_mapped : ∃ s, spliced oneFile 1 (initial ['a'] importer) = some s ∧
    (s.text.splitOn '\n')[2]? = some (List.replicate 12 ' ') ∧
    ∃ file k, sourceAt s.sources 3 = ⟨some file,k + 1⟩ ∧
      Original oneFile ['a'] importer file k (List.replicate 12 ' ') := by
  refine ⟨_,rfl,rfl,?_⟩
  exact source_map_exact (show spliced oneFile 1 (initial ['a'] importer) = _ from rfl)
    (show _ = some (replicate 12 ' ') from rfl : (_ : List (List Char))[2]? = _)

/-- The empty line in front of the spliced text is a line of no file. -/
theorem front_line_unmapped : ¬∀ fs name root n s i line, spliced fs n (initial name root) = some s →
    (s.text.splitOn '\n')[i]? = some line →
    ∃ file k, sourceAt s.sources (i + 1) = ⟨some file,k + 1⟩ ∧ Original fs name root file k line := by
  intro always
  obtain ⟨file,k,place,_⟩ := always oneFile ['a'] importer 1 _ 0 [] rfl rfl
  cases place

end Map

end Objective9c.Compiler.Splice
