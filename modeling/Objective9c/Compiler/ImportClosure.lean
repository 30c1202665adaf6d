import Objective9c.Compiler.Splicing
import Mathlib.Data.List.Perm.Subperm

/-! What import resolution comes to: rounds until no import is left, at most 32 of them and at most 64
files. -/
namespace Objective9c.Compiler.Splice

open List Option

section Definitions

/-- The loop of `resolve_imports_or_exit`, with whether it came to its limit. -/
def rounds (fs : Files) : Nat → State → State × Bool
  | 0, s => (s,true)
  | n+1, s => match resolveImports fs s with
    | (s,true) => rounds fs n s
    | (s,false) => (s,false)

/-- `resolve_imports_or_exit`; `none` is the exit with an error. -/
def resolveImportsOrExit (fs : Files) (name : Path) (root : List Char) : Option State :=
  let (s,deep) := rounds fs 32 (initial name root)
  if deep || s.errors > 0 then none else some s

def importLine (line : List Char) : Bool := !isFrom (importLineStart line) && isImport (importLineStart line)

def importPath (line : List Char) : Option (List Char) :=
  if importLine line then parseImportPath (importLineStart line) else none

/-- Two paths lead to one file. -/
def Files.Same (fs : Files) (p q : Path) : Prop := p = q ∨ ∃ i, fs.ident p = some i ∧ fs.ident q = some i

def Files.Imported (fs : Files) (file : Path) (text : List Char) : Prop :=
  ∃ whole, fs.read file = some whole ∧ text = stripImportedMain (cstr whole)

inductive Reached (fs : Files) (name : Path) (root : List Char) : Path → Prop where
  | root (line path full) : line ∈ (cstr root).splitOn '\n' → importPath line = some path →
      fs.resolve path (some name) = some full → Reached fs name root full
  | step (file text line path full) : Reached fs name root file → fs.Imported file text →
      line ∈ text.splitOn '\n' → importPath line = some path →
      fs.resolve path (some file) = some full → Reached fs name root full

/-- The physical lines, each with its place. -/
def State.marks (s : State) : List Mark :=
  (s.text.splitOn '\n').zipIdx.map fun numbered => (numbered.1,sourceAt s.sources (numbered.2 + 1))

/-- The lines of the file are there once and in their order, except for its import lines and for empty
lines at the end. -/
def Included (lines : List Mark) (file : Path) (text : List Char) : Prop :=
  ∃ blanks : List Mark, (∀ mark ∈ blanks, mark.1 = []) ∧
    lines.filter (fun mark => mark.2.file = some file) ++ blanks =
      (marked ⟨some file,1⟩ text).filter (fun mark => !importLine mark.1)

def Resolved (fs : Files) (loaded : List Path) (file : Path) (text : List Char) : Prop :=
  ∀ line ∈ text.splitOn '\n', importLine line = true → ∃ path full, importPath line = some path ∧
    fs.resolve path (some file) = some full ∧ ∃ other ∈ loaded, fs.Same full other

/-- The source is complete: it has the root file and every file that import lines lead to, each once and nothing
else, and no import line is left or was dropped. -/
structure Complete (fs : Files) (name : Path) (root : List Char) (s : State) : Prop where
  rootOnce : Included s.marks name (cstr root)
  rootResolved : Resolved fs s.loaded name (cstr root)
  reached : ∀ file ∈ s.loaded, Reached fs name root file
  once : ∀ file ∈ s.loaded, ∃ text, fs.Imported file text ∧ Included s.marks file text ∧
    Resolved fs s.loaded file text
  apart : s.loaded.Pairwise (fun p q => ¬fs.Same p q) ∧ ∀ file ∈ s.loaded, ¬fs.Same file name
  only : ∀ mark ∈ s.marks, mark = front ∨ ∃ file, mark.2.file = some file ∧ (file = name ∨ file ∈ s.loaded)
  noneLeft : ∀ mark ∈ s.marks, importLine mark.1 = false

/-- At most 64 files are imported, the root is none of them, and every import line has a quoted path. -/
structure Modest (fs : Files) (name : Path) (root : List Char) : Prop where
  few : ∀ files : List Path, files.Pairwise (fun p q => ¬fs.Same p q) →
    (∀ file ∈ files, Reached fs name root file) → files.length ≤ 64
  apart : ∀ file, Reached fs name root file → ¬fs.Same file name
  quoted : ∀ line ∈ (cstr root).splitOn '\n', importLine line = true → (importPath line).isSome = true
  quotedIn : ∀ file text, Reached fs name root file → fs.Imported file text →
    ∀ line ∈ text.splitOn '\n', importLine line = true → (importPath line).isSome = true

end Definitions

section Joint

variable {fs : Files} {name : Path} {root : List Char} {V : List Mark} {loaded : List Path}
  {idents : List (Nat × Nat)}

def Node (fs : Files) (name : Path) (root : List Char) (loaded : List Path) (file : Path)
    (text : List Char) : Prop :=
  (file = name ∧ text = cstr root) ∨ (file ∈ loaded ∧ fs.Imported file text)

def kept (V : List Mark) (file : Path) : List Mark :=
  V.filter fun mark => mark.2.file = some file && !importLine mark.1

/-- The lines `V` of a round, done and still to do, with the files loaded so far. -/
structure Joint (fs : Files) (name : Path) (root : List Char) (V : List Mark) (loaded : List Path)
    (idents : List (Nat × Nat)) : Prop where
  reached : ∀ file ∈ loaded, Reached fs name root file ∧ ∃ text, fs.Imported file text
  apart : loaded.Pairwise fun p q => ¬fs.Same p q
  known : ∀ i, i ∈ idents ↔ ∃ file ∈ loaded, fs.ident file = some i
  room : idents.length ≤ loaded.length
  lines : ∀ mark ∈ V, mark = front ∨ ∃ file text, Node fs name root loaded file text ∧
    mark ∈ marked ⟨some file,1⟩ text
  included : ∀ file text, Node fs name root loaded file text → ∃ blanks : List Mark,
    (∀ mark ∈ blanks, mark.1 = []) ∧
    kept V file ++ blanks = (marked ⟨some file,1⟩ text).filter fun mark => !importLine mark.1
  done : ∀ file text, Node fs name root loaded file text → ∀ mark ∈ marked ⟨some file,1⟩ text, ∀ path,
    importPath mark.1 = some path → mark ∈ V ∨
      ∃ full, fs.resolve path (some file) = some full ∧ ∃ other ∈ loaded, fs.Same full other

theorem importPath_nil : importPath [] = none := rfl

theorem importLine_of_path (found : importPath line = some path) : importLine line = true := by
  unfold importPath at found
  split at found
  next yes => exact yes
  · contradiction

theorem file_of_marked (member : mark ∈ marked ⟨some file,1⟩ text) :
    mark.2.file = some file ∧ mark.1 ∈ text.splitOn '\n' := by
  obtain ⟨k,place,line⟩ := mem_marked member
  exact ⟨by rw [place],mem_of_getElem? line⟩

theorem kept_append (V W : List Mark) (file : Path) : kept (V ++ W) file = kept V file ++ kept W file :=
  filter_append ..

theorem kept_marked (file : Path) (text : List Char) :
    kept (marked ⟨some file,1⟩ text) file = (marked ⟨some file,1⟩ text).filter fun mark => !importLine mark.1 := by
  apply filter_congr
  intro mark member
  simp [(file_of_marked member).1]

theorem kept_other (other : file ≠ file') (text : List Char) : kept (marked ⟨some file',1⟩ text) file = [] := by
  rw [kept,filter_eq_nil_iff]
  intro mark member
  simp [(file_of_marked member).1,other.symm]

theorem initial_joint (fs : Files) (name : Path) (root : List Char) :
    Joint fs name root (marked ⟨some name,1⟩ (cstr root)) [] [] where
  reached := by simp
  apart := .nil
  known := by simp
  room := by simp
  lines mark member := .inr ⟨name,cstr root,.inl ⟨rfl,rfl⟩,member⟩
  included file text node := by
    rcases node with ⟨rfl,rfl⟩ | ⟨absurd,_⟩
    · exact ⟨[],by simp,by rw [kept_marked,append_nil]⟩
    · cases absurd
  done file text node mark member path found := by
    rcases node with ⟨rfl,rfl⟩ | ⟨absurd,_⟩
    · exact .inl member
    · cases absurd

theorem Joint.visible (joint : Joint fs name root V loaded idents) :
    Joint fs name root (front :: visible V) loaded idents := by
  obtain ⟨rest,cut,empty⟩ := visible_cut V
  refine ⟨joint.reached,joint.apart,joint.known,joint.room,?_,?_,?_⟩
  · intro mark member
    rcases mem_cons.mp member with rfl | member
    · exact .inl rfl
    · exact joint.lines mark (visible_sub member)
  · intro file text node
    obtain ⟨blanks,allEmpty,same⟩ := joint.included file text node
    refine ⟨kept rest file ++ blanks,?_,?_⟩
    · intro mark member
      rcases mem_append.mp member with member | member
      · exact empty mark (mem_of_mem_filter member)
      · exact allEmpty mark member
    · rw [← same,← append_assoc]
      congr 1
      calc kept (front :: Splice.visible V) file ++ kept rest file
        _ = kept (Splice.visible V) file ++ kept rest file := rfl
        _ = kept (Splice.visible V ++ rest) file := (kept_append ..).symm
        _ = kept V file := by rw [← cut]
  · intro file text node mark member path found
    rcases joint.done file text node mark member path found with there | resolved
    · left
      rw [cut] at there
      rcases mem_append.mp there with there | there
      · exact mem_cons_of_mem _ there
      · rw [empty mark there,importPath_nil] at found
        contradiction
    · exact .inr resolved

theorem Joint.drop (joint : Joint fs name root (A ++ mark :: B) loaded idents) (isLine : importLine mark.1 = true)
    (settled : ∀ file path, mark.2.file = some file → importPath mark.1 = some path →
      ∃ full, fs.resolve path (some file) = some full ∧ ∃ other ∈ loaded, fs.Same full other) :
    Joint fs name root (A ++ B) loaded idents := by
  have sub (m : Mark) (member : m ∈ A ++ B) : m ∈ A ++ mark :: B := by
    rcases mem_append.mp member with member | member
    · exact mem_append_left _ member
    · exact mem_append_right _ (mem_cons_of_mem _ member)
  refine ⟨joint.reached,joint.apart,joint.known,joint.room,fun m member => joint.lines m (sub m member),?_,?_⟩
  · intro file text node
    obtain ⟨blanks,allEmpty,same⟩ := joint.included file text node
    refine ⟨blanks,allEmpty,?_⟩
    rw [← same,kept_append,kept_append]
    simp [kept,isLine]
  · intro file text node m member path found
    rcases joint.done file text node m member path found with there | resolved
    · by_cases here : m = mark
      · subst here
        exact .inr (settled file path (file_of_marked member).1 found)
      · left
        rcases mem_append.mp there with there | there
        · exact mem_append_left _ there
        · exact mem_append_right _ ((mem_cons.mp there).resolve_left here)
    · exact .inr resolved

theorem Files.Same.refl (fs : Files) (p : Path) : fs.Same p p := .inl rfl

theorem Files.Same.symm (same : fs.Same p q) : fs.Same q p := by
  rcases same with rfl | ⟨i,left,right⟩
  · exact .inl rfl
  · exact .inr ⟨i,right,left⟩

theorem Files.Same.trans (first : fs.Same p q) (second : fs.Same q r) : fs.Same p r := by
  rcases first with rfl | ⟨i,left,right⟩
  · exact second
  rcases second with rfl | ⟨j,left',right'⟩
  · exact .inr ⟨i,left,right⟩
  · rw [right] at left'
    cases left'
    exact .inr ⟨i,left,right'⟩

theorem Files.Imported.unique (first : fs.Imported file text) (second : fs.Imported file text') : text = text' := by
  obtain ⟨whole,read,rfl⟩ := first
  obtain ⟨whole',read',rfl⟩ := second
  rw [read] at read'
  cases read'
  rfl

theorem Node.of_append (node : Node fs name root (loaded ++ [full]) file text) :
    Node fs name root loaded file text ∨ (file = full ∧ fs.Imported full text) := by
  rcases node with isRoot | ⟨member,imported⟩
  · exact .inl (.inl isRoot)
  rcases mem_append.mp member with member | member
  · exact .inl (.inr ⟨member,imported⟩)
  · rw [mem_singleton.mp member] at imported ⊢
    exact .inr ⟨rfl,imported⟩

theorem Node.known (node : Node fs name root loaded file text) : file = name ∨ file ∈ loaded :=
  node.imp And.left And.left

theorem Joint.kept_nil (joint : Joint fs name root V loaded idents) (new : full ∉ loaded) (other : full ≠ name)
    (part : W ⊆ V) : kept W full = [] := by
  rw [kept,filter_eq_nil_iff]
  intro mark member yes
  rw [Bool.and_eq_true,decide_eq_true_eq] at yes
  rcases joint.lines mark (part member) with rfl | ⟨file,text,node,there⟩
  · cases yes.1
  · have same := (file_of_marked there).1.symm.trans yes.1
    cases same
    rcases node.known with same | member
    · exact other same
    · exact new member

theorem Joint.add (joint : Joint fs name root (A ++ B) loaded idents) (reach : Reached fs name root full)
    (imported : fs.Imported full text) (fresh : ∀ other ∈ loaded, ¬fs.Same full other) (other : full ≠ name) :
    Joint fs name root (A ++ (marked ⟨some full,1⟩ text ++ B)) (loaded ++ [full])
      (idents ++ (fs.ident full).toList) := by
  have new : full ∉ loaded := fun member => fresh full member (.refl fs full)
  have unlike (file : Path) (known : file = name ∨ file ∈ loaded) : file ≠ full := by
    rintro rfl
    exact known.elim other new
  refine ⟨?_,?_,?_,?_,?_,?_,?_⟩
  · intro file member
    rcases mem_append.mp member with member | member
    · exact joint.reached file member
    · rw [mem_singleton.mp member]
      exact ⟨reach,text,imported⟩
  · rw [pairwise_append]
    refine ⟨joint.apart,pairwise_singleton ..,fun p member q last same => ?_⟩
    rw [mem_singleton.mp last] at same
    exact fresh p member same.symm
  · intro i
    rw [mem_append,joint.known]
    simp only [mem_append,mem_singleton,mem_toList]
    constructor
    · rintro (⟨file,member,ident⟩ | ident)
      · exact ⟨file,.inl member,ident⟩
      · exact ⟨full,.inr rfl,ident⟩
    · rintro ⟨file,member | rfl,ident⟩
      · exact .inl ⟨file,member,ident⟩
      · exact .inr ident
  · have room := joint.room
    have one : (fs.ident full).toList.length ≤ 1 := by cases fs.ident full <;> simp
    simp only [length_append,length_singleton]
    omega
  · intro mark member
    have split : mark ∈ A ++ B ∨ mark ∈ marked ⟨some full,1⟩ text := by
      simp only [mem_append] at member ⊢
      tauto
    rcases split with old | there
    · exact (joint.lines mark old).imp_right
        fun ⟨file,text,node,there⟩ => ⟨file,text,node.imp_right fun there => ⟨mem_append_left _ there.1,there.2⟩,there⟩
    · exact .inr ⟨full,text,.inr ⟨by simp,imported⟩,there⟩
  · intro file text' node
    rw [kept_append,kept_append]
    rcases node.of_append with node | ⟨rfl,imported'⟩
    · obtain ⟨blanks,allEmpty,same⟩ := joint.included file text' node
      refine ⟨blanks,allEmpty,?_⟩
      rw [kept_other (unlike file node.known),← same,kept_append,nil_append]
    · refine ⟨[],by simp,?_⟩
      rw [joint.kept_nil new other (subset_append_left A B),
        joint.kept_nil new other (subset_append_right A B),kept_marked,imported.unique imported']
      simp
  · intro file text' node mark member path found
    rcases node.of_append with node | ⟨rfl,imported'⟩
    · rcases joint.done file text' node mark member path found with there | ⟨target,resolved,goal,there,same⟩
      · left
        simp only [mem_append] at there ⊢
        tauto
      · exact .inr ⟨target,resolved,goal,mem_append_left _ there,same⟩
    · rw [← imported.unique imported'] at member
      left
      simp only [mem_append]
      tauto

theorem Joint.reaches (joint : Joint fs name root V loaded idents) (member : mark ∈ V)
    (found : importPath mark.1 = some path) (resolved : fs.resolve path mark.2.file = some full) :
    Reached fs name root full := by
  rcases joint.lines mark member with rfl | ⟨file,text,node,there⟩
  · cases found
  · obtain ⟨place,line⟩ := file_of_marked there
    rw [place] at resolved
    rcases node with ⟨rfl,rfl⟩ | ⟨inside,imported⟩
    · exact .root mark.1 path full line found resolved
    · exact .step file text mark.1 path full (joint.reached file inside).1 imported line found resolved

theorem Joint.quoted (modest : Modest fs name root) (joint : Joint fs name root V loaded idents)
    (member : mark ∈ V) (isLine : importLine mark.1 = true) : (importPath mark.1).isSome = true := by
  rcases joint.lines mark member with rfl | ⟨file,text,node,there⟩
  · cases isLine
  · have line := (file_of_marked there).2
    rcases node with ⟨rfl,rfl⟩ | ⟨inside,imported⟩
    · exact modest.quoted mark.1 line isLine
    · exact modest.quotedIn file text (joint.reached file inside).1 imported mark.1 line isLine

/-- The tests of `append_import_file` find the file under any of its names. -/
theorem Joint.loaded_iff (joint : Joint fs name root V loaded idents) (full : Path) :
    (loaded.contains full || (fs.ident full).any idents.contains) = true ↔
      ∃ other ∈ loaded, fs.Same full other := by
  rw [Bool.or_eq_true,List.contains_iff_mem,Option.any_eq_true]
  simp only [contains_iff_mem,joint.known]
  constructor
  · rintro (member | ⟨i,ident,other,member,same⟩)
    · exact ⟨full,member,.refl fs full⟩
    · exact ⟨other,member,.inr ⟨i,ident,same⟩⟩
  · rintro ⟨other,member,rfl | ⟨i,ident,same⟩⟩
    · exact .inl member
    · exact .inr ⟨i,ident,other,member,same⟩

theorem Joint.space (modest : Modest fs name root) (joint : Joint fs name root V loaded idents)
    (reach : Reached fs name root full) (fresh : ∀ other ∈ loaded, ¬fs.Same full other) : loaded.length < 64 := by
  have few := modest.few (full :: loaded) (pairwise_cons.mpr ⟨fresh,joint.apart⟩) fun file member => by
    rcases mem_cons.mp member with rfl | member
    · exact reach
    · exact (joint.reached file member).1
  exact few

end Joint

section Steps

variable {fs : Files} {name : Path} {root : List Char}

inductive LineStep (fs : Files) (r : Round) (mark : Mark) : Round → Prop where
  | refused : importPath mark.1 = none → LineStep fs r mark { r with errors := r.errors + 1 }
  | unquoted : importLine mark.1 = true → importPath mark.1 = none → LineStep fs r mark r
  | unresolved (path) : importPath mark.1 = some path → fs.resolve path mark.2.file = none →
      LineStep fs r mark { r with errors := r.errors + 1, any := true }
  | loads (path full) : importPath mark.1 = some path → fs.resolve path mark.2.file = some full →
      LineStep fs r mark { r.load fs full with any := true }
  | copied : importPath mark.1 = none → LineStep fs r mark { r with lines := r.lines ++ [mark] }

section

variable (fs : Files) (r : Round)

theorem Round.line_step (mark : Mark) : LineStep fs r mark (r.line fs mark) := by
  unfold Round.line
  dsimp only
  split
  next isFrom => exact .refused (by simp [importPath,importLine,isFrom])
  next notFrom =>
    split
    next imports =>
      have isLine : importLine mark.1 = true := by simp [importLine,notFrom,imports]
      split
      next unquoted => exact .unquoted isLine (by simp [importPath,isLine,unquoted])
      next path quoted =>
        have found : importPath mark.1 = some path := by simp [importPath,isLine,quoted]
        split
        next unresolved => exact .unresolved path found unresolved
        next full resolved => exact .loads path full found resolved
    next other => exact .copied (by simp [importPath,importLine,other])

theorem Round.load_errors (full : Path) : r.errors ≤ (r.load fs full).errors := by
  fun_cases Round.load fs r full with
  | case3 => exact Nat.le_succ _
  | _ => exact Nat.le_refl _

theorem Round.line_errors (mark : Mark) : r.errors ≤ (r.line fs mark).errors := by
  have step := r.line_step fs mark
  generalize r.line fs mark = r' at step ⊢
  cases step with
  | refused | unresolved => exact Nat.le_succ _
  | unquoted | copied => exact Nat.le_refl _
  | loads => exact r.load_errors fs _

theorem Round.lines_errors (marks : List Mark) : r.errors ≤ (marks.foldl (Round.line fs) r).errors := by
  induction marks generalizing r with
  | nil => exact Nat.le_refl _
  | cons mark rest ih => exact Nat.le_trans (r.line_errors fs mark) (ih (r.line fs mark))

end

theorem Joint.load {r : Round} (modest : Modest fs name root)
    (joint : Joint fs name root (r.lines ++ mark :: rest) r.loaded r.idents)
    (found : importPath mark.1 = some path) (resolved : fs.resolve path mark.2.file = some full)
    (clean : (r.load fs full).errors = r.errors) :
    Joint fs name root ((r.load fs full).lines ++ rest) (r.load fs full).loaded (r.load fs full).idents := by
  have member : mark ∈ r.lines ++ mark :: rest := mem_append_right _ mem_cons_self
  have reach := joint.reaches member found resolved
  have isLine := importLine_of_path found
  unfold Round.load at clean ⊢
  split
  next already =>
    refine joint.drop isLine fun file other place found' => ?_
    rw [found] at found'
    cases found'
    rw [place] at resolved
    exact ⟨full,resolved,(joint.loaded_iff full).mp already⟩
  next new =>
    have fresh (other : Path) (there : other ∈ r.loaded) : ¬fs.Same full other :=
      fun same => new ((joint.loaded_iff full).mpr ⟨other,there,same⟩)
    have space := joint.space modest reach fresh
    have room := joint.room
    rw [if_neg new,if_neg (by omega)] at clean
    rw [if_neg (by omega)]
    cases read : fs.read full with
    | none => simp [read] at clean
    | some whole =>
      have apart : full ≠ name := fun same => modest.apart full reach (.inl same)
      have added := joint.add reach ⟨whole,read,rfl⟩ fresh apart
      rw [← append_assoc] at added
      have dropped := added.drop isLine fun file other place found' => by
        rw [found] at found'
        cases found'
        rw [place] at resolved
        exact ⟨full,resolved,full,mem_append_right _ mem_cons_self,.refl fs full⟩
      simp only [if_neg (show ¬r.idents.length ≥ 64 by omega)]
      exact dropped

theorem Joint.line {r : Round} (modest : Modest fs name root)
    (joint : Joint fs name root (r.lines ++ mark :: rest) r.loaded r.idents)
    (clean : (r.line fs mark).errors = r.errors) :
    Joint fs name root ((r.line fs mark).lines ++ rest) (r.line fs mark).loaded (r.line fs mark).idents := by
  have step := r.line_step fs mark
  generalize r.line fs mark = r' at step clean ⊢
  cases step with
  | refused | unresolved => exact absurd clean (Nat.succ_ne_self _)
  | unquoted isLine none =>
    have quoted := joint.quoted modest (mem_append_right _ mem_cons_self) isLine
    rw [none] at quoted
    contradiction
  | loads path full found resolved => exact joint.load modest found resolved clean
  | copied => simpa using joint

theorem Joint.round (modest : Modest fs name root) (marks : List Mark)
    (joint : Joint fs name root (r.lines ++ marks) r.loaded r.idents)
    (clean : (marks.foldl (Round.line fs) r).errors = r.errors) :
    Joint fs name root (marks.foldl (Round.line fs) r).lines (marks.foldl (Round.line fs) r).loaded
      (marks.foldl (Round.line fs) r).idents := by
  induction marks generalizing r with
  | nil => simpa using joint
  | cons mark rest ih =>
    rw [foldl_cons] at clean ⊢
    have low := r.line_errors fs mark
    have high := Round.lines_errors fs (r.line fs mark) rest
    have here : (r.line fs mark).errors = r.errors := by omega
    exact ih (joint.line modest here) (by omega)

theorem Round.line_quiet {r : Round} (quiet : (r.line fs mark).any = false) :
    r.any = false ∧ importPath mark.1 = none ∧ (r.line fs mark).loaded = r.loaded ∧
      (r.line fs mark).idents = r.idents := by
  have step := r.line_step fs mark
  generalize r.line fs mark = r' at step quiet ⊢
  cases step with
  | refused none | copied none => exact ⟨quiet,none,rfl,rfl⟩
  | unquoted _ none => exact ⟨quiet,none,rfl,rfl⟩
  | unresolved => cases quiet
  | loads => cases quiet

theorem Round.quiet (marks : List Mark) (quiet : (marks.foldl (Round.line fs) r).any = false) :
    r.any = false ∧ (∀ mark ∈ marks, importPath mark.1 = none) ∧
      (marks.foldl (Round.line fs) r).loaded = r.loaded ∧ (marks.foldl (Round.line fs) r).idents = r.idents := by
  induction marks generalizing r with
  | nil => exact ⟨quiet,by simp,rfl,rfl⟩
  | cons mark rest ih =>
    obtain ⟨before,later,loaded,idents⟩ := ih quiet
    obtain ⟨first,none,loaded',idents'⟩ := Round.line_quiet before
    refine ⟨first,fun other member => ?_,loaded.trans loaded',idents.trans idents'⟩
    rcases mem_cons.mp member with rfl | member
    · exact none
    · exact later other member

theorem Source.resolve_errors (fs : Files) (a : Source) : a.errors ≤ (a.resolve fs).1.errors := by
  have grows : a.errors ≤ (Splice.round fs a).errors :=
    Round.lines_errors fs ⟨[([],nowhere)],false,a.loaded,a.idents,a.errors⟩ (visible a.lines)
  unfold Source.resolve
  dsimp only
  split
  · exact grows
  · exact grows

/-- A round without an error keeps the lines and the files together, and is the last if no import is left. -/
theorem Joint.resolve {a : Source} (modest : Modest fs name root)
    (joint : Joint fs name root a.lines a.loaded a.idents) (clean : (a.resolve fs).1.errors = a.errors) :
    Joint fs name root (a.resolve fs).1.lines (a.resolve fs).1.loaded (a.resolve fs).1.idents ∧
      ((a.resolve fs).2 = false → ∀ mark ∈ (a.resolve fs).1.lines, importPath mark.1 = none) := by
  unfold Source.resolve at clean ⊢
  dsimp only at clean ⊢
  split
  next any =>
    rw [if_pos any] at clean
    have start : Joint fs name root ([front] ++ Splice.visible a.lines) a.loaded a.idents := joint.visible
    exact ⟨Joint.round (r := ⟨[front],false,a.loaded,a.idents,a.errors⟩) modest _ start clean,
      fun quiet => by cases quiet⟩
  next none =>
    obtain ⟨_,quiet,loaded,idents⟩ := Round.quiet (Splice.visible a.lines) (Bool.eq_false_iff.mpr none)
    refine ⟨?_,fun _ mark member => ?_⟩
    · rw [Splice.round,loaded,idents]
      exact joint
    · obtain ⟨rest,cut,empty⟩ := visible_cut a.lines
      rw [cut] at member
      rcases mem_append.mp member with member | member
      · exact quiet mark member
      · rw [empty mark member,importPath_nil]

theorem Round.load_room {r : Round} (room : r.loaded.length ≤ 64) (full : Path) :
    (r.load fs full).loaded.length ≤ 64 := by
  fun_cases Round.load fs r full with
  | case1 | case2 => exact room
  | case3 _ space | case4 _ space =>
    rw [length_append,length_singleton]
    omega

theorem Round.lines_room (room : r.loaded.length ≤ 64) (marks : List Mark) :
    (marks.foldl (Round.line fs) r).loaded.length ≤ 64 := by
  induction marks generalizing r with
  | nil => exact room
  | cons mark rest ih =>
    apply ih
    have step := r.line_step fs mark
    generalize r.line fs mark = r' at step ⊢
    cases step with
    | loads path full => exact Round.load_room room full
    | _ => exact room

theorem Source.resolve_room {a : Source} (room : a.loaded.length ≤ 64) : (a.resolve fs).1.loaded.length ≤ 64 := by
  have bound : (Splice.round fs a).loaded.length ≤ 64 := Round.lines_room room (visible a.lines)
  unfold Source.resolve
  dsimp only
  split
  · exact bound
  · exact bound

theorem rounds_keep {P : Source → Prop} (keeps : ∀ a : Source, P a → P (a.resolve fs).1)
    (n : Nat) (s : State) (a : Source) (same : s.Shows a) (holds : P a) : ∃ a', (rounds fs n s).1.Shows a' ∧ P a' ∧
      ((rounds fs n s).2 = false → ∃ before, P before ∧ before.resolve fs = (a',false)) := by
  induction n generalizing s a with
  | zero => exact ⟨a,same,holds,fun deep => by cases deep⟩
  | succ n ih =>
    obtain ⟨shown,any⟩ := same.resolve fs
    unfold rounds
    split
    next next result =>
      rw [result] at shown
      exact ih next _ shown (keeps a holds)
    next last result =>
      rw [result] at shown any
      exact ⟨_,shown,keeps a holds,fun _ => ⟨a,holds,Prod.ext rfl any.symm⟩⟩

theorem Shows.marks {s : State} (shows : Shows s.text s.sources lines) : s.marks = lines := by
  apply ext_getElem?
  intro i
  rw [State.marks,getElem?_map,getElem?_zipIdx,shows.cut,getElem?_map]
  cases found : lines[i]? with
  | none => rfl
  | some => simp [shows.place found]

end Steps

section Closure

variable {fs : Files} {name : Path} {root : List Char} {s : State}

/-- What a round keeps, of the lines only while there is no error. -/
structure Source.Kept (fs : Files) (name : Path) (root : List Char) (a : Source) : Prop where
  room : a.loaded.length ≤ 64
  joint : Modest fs name root → a.errors = 0 → Joint fs name root a.lines a.loaded a.idents

theorem Source.Kept.resolve {a : Source} (holds : a.Kept fs name root) : (a.resolve fs).1.Kept fs name root where
  room := Source.resolve_room holds.room
  joint modest clean := by
    have grows := a.resolve_errors fs
    exact ((holds.joint modest (by omega)).resolve modest (by omega)).1

theorem resolved_joint (done : resolveImportsOrExit fs name root = some s) :
    s.loaded.length ≤ 64 ∧ (Modest fs name root → Joint fs name root s.marks s.loaded s.idents ∧
      ∀ mark ∈ s.marks, importPath mark.1 = none) := by
  obtain ⟨a,shown,kept,last⟩ := rounds_keep (fun _ holds => Source.Kept.resolve holds) 32 _ _
    (initial_shows name root) ⟨Nat.zero_le _,fun _ _ => initial_joint fs name root⟩
  unfold resolveImportsOrExit at done
  generalize rounds fs 32 (initial name root) = result at done shown last
  dsimp only at done shown last
  split at done
  · contradiction
  next clean =>
    cases done
    rw [Bool.or_eq_true,decide_eq_true_eq,not_or,Bool.not_eq_true] at clean
    obtain ⟨before,kept',result⟩ := last clean.1
    rw [Shows.marks shown.shows,shown.loaded,shown.idents]
    refine ⟨kept.room,fun modest => ?_⟩
    have errors : a.errors = 0 := by
      rw [← shown.errors]
      omega
    have grows := before.resolve_errors fs
    rw [result,errors] at grows
    have ends := (kept'.joint modest (by omega)).resolve modest (by rw [result]; dsimp only; omega)
    rw [result] at ends
    exact ⟨ends.1,ends.2 rfl⟩

theorem kept_all (noneLeft : ∀ mark ∈ V, importLine mark.1 = false) (file : Path) :
    kept V file = V.filter fun mark => mark.2.file = some file := by
  apply filter_congr
  intro mark member
  simp [noneLeft mark member]

theorem Joint.included_all (joint : Joint fs name root V loaded idents)
    (noneLeft : ∀ mark ∈ V, importLine mark.1 = false) (node : Node fs name root loaded file text) :
    Included V file text := by
  obtain ⟨blanks,allEmpty,same⟩ := joint.included file text node
  rw [kept_all noneLeft] at same
  exact ⟨blanks,allEmpty,same⟩

theorem Joint.resolved_all (joint : Joint fs name root V loaded idents)
    (noneLeft : ∀ mark ∈ V, importPath mark.1 = none) (node : Node fs name root loaded file text)
    (quoted : ∀ line ∈ text.splitOn '\n', importLine line = true → (importPath line).isSome = true) :
    Resolved fs loaded file text := by
  intro line member isLine
  obtain ⟨path,found⟩ := isSome_iff_exists.mp (quoted line member isLine)
  rw [← marked_lines ⟨some file,1⟩ text] at member
  obtain ⟨mark,there,rfl⟩ := mem_map.mp member
  rcases joint.done file text node mark there path found with left | ⟨full,resolved,covered⟩
  · rw [noneLeft mark left] at found
    contradiction
  · exact ⟨path,full,found,resolved,covered⟩

theorem modest_complete (modest : Modest fs name root) (joint : Joint fs name root s.marks s.loaded s.idents)
    (noPath : ∀ mark ∈ s.marks, importPath mark.1 = none) : Complete fs name root s := by
  have noneLeft (mark : Mark) (member : mark ∈ s.marks) : importLine mark.1 = false := by
    by_contra isLine
    have quoted := joint.quoted modest member (Bool.not_eq_false _ ▸ isLine)
    rw [noPath mark member] at quoted
    contradiction
  have rootNode : Node fs name root s.loaded name (cstr root) := .inl ⟨rfl,rfl⟩
  refine ⟨joint.included_all noneLeft rootNode,joint.resolved_all noPath rootNode modest.quoted,
    fun file member => (joint.reached file member).1,?_,⟨joint.apart,?_⟩,?_,noneLeft⟩
  · intro file member
    obtain ⟨reach,text,imported⟩ := joint.reached file member
    have node : Node fs name root s.loaded file text := .inr ⟨member,imported⟩
    exact ⟨text,imported,joint.included_all noneLeft node,
      joint.resolved_all noPath node (modest.quotedIn file text reach imported)⟩
  · exact fun file member => modest.apart file (joint.reached file member).1
  · intro mark member
    exact (joint.lines mark member).imp_right
      fun ⟨file,text,node,there⟩ => ⟨file,(file_of_marked there).1,node.known⟩

/-- A file has one text and one place to look for its imports, whatever path leads to it. -/
structure Files.Lawful (fs : Files) : Prop where
  contents : ∀ p q, fs.Same p q → fs.read p = fs.read q
  imports : ∀ p q path full, fs.Same p q → fs.resolve path (some p) = some full →
    ∃ full', fs.resolve path (some q) = some full' ∧ fs.Same full full'

theorem Files.Lawful.imported (lawful : fs.Lawful) (same : fs.Same p q) (imported : fs.Imported p text) :
    fs.Imported q text := by
  obtain ⟨whole,read,rfl⟩ := imported
  exact ⟨whole,lawful.contents p q same ▸ read,rfl⟩

theorem Complete.covers (lawful : fs.Lawful) (complete : Complete fs name root s)
    (reach : Reached fs name root file) : ∃ other ∈ s.loaded, fs.Same file other := by
  induction reach with
  | root line path full member found resolved =>
    obtain ⟨path',full',found',resolved',covered⟩ :=
      complete.rootResolved line member (importLine_of_path found)
    rw [found] at found'
    cases found'
    rw [resolved] at resolved'
    cases resolved'
    exact covered
  | step file text line path full _ imported member found resolved ih =>
    obtain ⟨other,there,same⟩ := ih
    obtain ⟨text',imported',_,closed⟩ := complete.once other there
    rw [(lawful.imported same imported).unique imported'] at member
    obtain ⟨path',full',found',resolved',goal,inside,same'⟩ := closed line member (importLine_of_path found)
    rw [found] at found'
    cases found'
    obtain ⟨full'',resolved'',alike⟩ := lawful.imports file other path full same resolved
    rw [resolved'] at resolved''
    cases resolved''
    exact ⟨goal,inside,alike.trans same'⟩

theorem covered_length {files loaded : List Path} (apart : files.Pairwise fun p q => ¬fs.Same p q)
    (covered : ∀ file ∈ files, ∃ other ∈ loaded, fs.Same file other) : files.length ≤ loaded.length := by
  choose! entry inside same using covered
  have different : (files.map entry).Nodup := by
    rw [nodup_iff_pairwise_ne,pairwise_map]
    refine apart.imp_of_mem fun first second unlike equal => unlike ?_
    exact (same _ first).trans (equal ▸ (same _ second).symm)
  have part : files.map entry ⊆ loaded := by
    intro other member
    obtain ⟨file,there,rfl⟩ := mem_map.mp member
    exact inside file there
  have bound := (subperm_of_subset different part).length_le
  rwa [length_map] at bound

theorem complete_modest (lawful : fs.Lawful) (room : s.loaded.length ≤ 64)
    (complete : Complete fs name root s) : Modest fs name root where
  few files apart reach := Nat.le_trans
    (covered_length apart fun file member => complete.covers lawful (reach file member)) room
  apart file reach same := by
    obtain ⟨other,there,alike⟩ := complete.covers lawful reach
    exact complete.apart.2 other there (alike.symm.trans same)
  quoted line member isLine := by
    obtain ⟨path,_,found,_⟩ := complete.rootResolved line member isLine
    rw [found]
    rfl
  quotedIn file text reach imported line member isLine := by
    obtain ⟨other,there,same⟩ := complete.covers lawful reach
    obtain ⟨text',imported',_,closed⟩ := complete.once other there
    rw [(lawful.imported same imported).unique imported'] at member
    obtain ⟨path,_,found,_⟩ := closed line member isLine
    rw [found]
    rfl

/-- A source that was resolved without an error is complete if its imports are modest, and where a file is the same
under all its paths only then. -/
theorem import_closure (done : resolveImportsOrExit fs name root = some s) :
    (Modest fs name root → Complete fs name root s) ∧
      (fs.Lawful → Complete fs name root s → Modest fs name root) := by
  obtain ⟨room,joint⟩ := resolved_joint done
  refine ⟨fun modest => ?_,fun lawful complete => complete_modest lawful room complete⟩
  obtain ⟨together,noneLeft⟩ := joint modest
  exact modest_complete modest together noneLeft

theorem importer_reaches (reach : Reached oneFile ['a'] importer file) : file = ['b'] := by
  have rootLines : ∀ line ∈ (cstr importer).splitOn '\n', ∀ path ∈ importPath line, path = ['b'] := by decide
  induction reach with
  | root line path full member found resolved =>
    cases resolved
    exact rootLines line member path found
  | step file text line path full _ imported member found resolved ih =>
    subst ih
    obtain ⟨whole,read,rfl⟩ := imported
    cases read
    have noImport : ∀ line ∈ (stripImportedMain (cstr "class B \x7b\x7d\nmain \x7b run \x7d\n".toList)).splitOn '\n',
      importPath line = none := by decide
    rw [noImport line member] at found
    contradiction

theorem importer_modest : Modest oneFile ['a'] importer where
  few files apart reach := by
    have short : files.length ≤ 1 := covered_length apart fun file member =>
      ⟨['b'],mem_singleton_self ['b'],.inl (importer_reaches (reach file member))⟩
    omega
  apart file reach same := by
    rw [importer_reaches reach] at same
    rcases same with same | ⟨_,ident,_⟩
    · cases same
    · cases ident
  quoted := by decide
  quotedIn file text reach imported := by
    cases importer_reaches reach
    obtain ⟨whole,read,rfl⟩ := imported
    cases read
    decide

theorem importer_complete : ∃ s, resolveImportsOrExit oneFile ['a'] importer = some s ∧
    Complete oneFile ['a'] importer s :=
  ⟨_,rfl,(import_closure rfl).1 importer_modest⟩

/-- A file that imports itself. -/
def cyclic : List Char := "import \"a\";\nclass A \x7b\x7d".toList

def cyclicFile : Files where
  read path := if path = ['a'] then some cyclic else none
  ident path := if path = ['a'] then some (1,1) else none
  resolve path _ := some path

/-- The root file is spliced into itself, and no error is reported. -/
theorem cyclic_root_twice : ¬∀ fs name root s, resolveImportsOrExit fs name root = some s →
    Complete fs name root s := by
  intro always
  have twice : (resolveImportsOrExit cyclicFile ['a'] cyclic).map
      (fun s => (s.marks.filter fun mark => mark.2.file = some ['a']).length) = some 2 := by decide
  have once : ((marked ⟨some ['a'],1⟩ (cstr cyclic)).filter fun mark => !importLine mark.1).length = 1 := by decide
  obtain ⟨s,done,longer⟩ := map_eq_some_iff.mp twice
  obtain ⟨blanks,_,same⟩ := (always cyclicFile ['a'] cyclic s done).rootOnce
  rw [← same,length_append,longer] at once
  omega

end Closure

end Objective9c.Compiler.Splice
