import Objective9c.Lib.Buckets
import Objective9c.Lib.Text

/-! `o9mutmerge.c`: the result files below some roots are merged against a manifest of task
ids. A directory is read in the order its server lists it, a file by one `read` of at most
`Maxrow - 1` bytes, and a C string is its bytes before the terminator. -/
namespace Objective9c.Merge

open Objective9c.Text (Bytes ascii tabChar newline)

def nhash : Nat := 524288
def maxrow : Nat := 8192
/-- The buffer of a `Biobuf`; `Brdline` gives up at a line that does not fit. -/
def bsize : Nat := 8192

structure Entry where
  id : Bytes
  row : Bytes
  file : Bytes
  seen : Bool
  deriving DecidableEq

inductive Reason where
  | missingResultsDir | emptyOrMissingResultRow
  deriving DecidableEq

/-- The table, the totals, and the lines of the output files below their headers. -/
structure State where
  tab : Nat → List Entry
  manifestTotal : Nat
  dedupedTotal : Nat
  duplicateTotal : Nat
  conflictTotal : Nat
  unexpectedTotal : Nat
  malformedTotal : Nat
  killedTotal : Nat
  survivedTotal : Nat
  timeoutTotal : Nat
  infraTotal : Nat
  setupTotal : Nat
  equivalentTotal : Nat
  /-- Row, root and file. -/
  reportb : List (Bytes × Bytes × Bytes)
  /-- Id, first file and this file. -/
  dupb : List (Bytes × Bytes × Bytes)
  /-- Id, first file, this file, first row and this row. -/
  confb : List (Bytes × Bytes × Bytes × Bytes × Bytes)
  unexpb : List (Bytes × Bytes)
  badb : List (Bytes × Reason)

@[simp] def initial : State :=
  ⟨fun _ => [],0,0,0,0,0,0,0,0,0,0,0,0,[],[],[],[],[]⟩

/-- `ulong` has 32 bits. -/
def hstr (s : Bytes) : Nat :=
  (s.foldl (fun (h : UInt32) c => ((h <<< 5) + h) ^^^ c.toUInt32) 5381).toNat % nhash

def lookup (s : State) (id : Bytes) : Option Entry := Buckets.find Entry.id hstr s.tab id

/-- `lookup(id, 1)`, whose result no caller uses. -/
def lookupCreate (s : State) (id : Bytes) : State :=
  match lookup s id with
  | some _ => s
  | none =>
    { s with
      tab := Buckets.insert Entry.id hstr s.tab ⟨id,[],[],false⟩
      manifestTotal := s.manifestTotal + 1 }

/-- The text after the `n`-th tab; none when there are fewer. -/
def skipFields : Nat → Bytes → Option Bytes
  | 0, p => some p
  | n+1, p =>
    match p.dropWhile (· ≠ tabChar) with
    | [] => none
    | _ :: rest => skipFields n rest

/-- The `n`-th field of a row, from 1, cut to a buffer of `nbuf` bytes. -/
def field (row : Bytes) (n nbuf : Nat) : Bytes :=
  match skipFields (n-1) row with
  | none => []
  | some p => (p.takeWhile (· ≠ tabChar)).take (nbuf-1)

def stable : List Nat := [1,3,4,5,6,9]

def sameResult (a b : Bytes) : Bool := stable.all (fun n => field a n maxrow == field b n maxrow)

def countResult (s : State) (row : Bytes) : State :=
  let r := field row 5 64
  if r = ascii "killed" then { s with killedTotal := s.killedTotal + 1 }
  else if r = ascii "survived" then { s with survivedTotal := s.survivedTotal + 1 }
  else if r = ascii "timeout" then { s with timeoutTotal := s.timeoutTotal + 1 }
  else if r = ascii "infra_fail" then { s with infraTotal := s.infraTotal + 1 }
  else if r = ascii "setup_error" then { s with setupTotal := s.setupTotal + 1 }
  else if r = ascii "equivalent" then { s with equivalentTotal := s.equivalentTotal + 1 }
  else s

/-- What the calls of `Brdline` return, without the newlines: what follows the last newline is
never returned. -/
def brdlines (content : Bytes) : List Bytes :=
  (content.splitOn newline).dropLast.takeWhile (fun line => line.length + 1 ≤ bsize)

/-- The ids of a manifest, in the order of its lines; the first line is a heading. -/
def manifestIds (manifest : Bytes) : List Bytes :=
  (((brdlines manifest).drop 1).map (·.takeWhile (fun c => c ≠ 0 && c ≠ tabChar))).filter (· ≠ [])

def readManifest (manifest : Bytes) (s : State) : State := (manifestIds manifest).foldl lookupCreate s

/-- The second line of a file; `none` stands for a file that does not open. -/
def secondLine (content : Option Bytes) (nbuf : Nat) : Option Bytes :=
  match content with
  | none => none
  | some data =>
    let buf := data.take (nbuf-1)
    if buf = [] then none
    else
      match (buf.takeWhile (· ≠ 0)).dropWhile (· ≠ newline) with
      | [] => none
      | _ :: [] => none
      | _ :: p => some (p.takeWhile (· ≠ newline))

/-- An entry of a directory. A directory that does not open has no entries to read. -/
inductive Node where
  | file (name : Bytes) (content : Option Bytes)
  | dir (name : Bytes) (opens : Bool) (entries : List Node)

def isTab (name : Bytes) : Bool := 4 ≤ name.length && name.drop (name.length - 4) == ascii ".tab"

def join (dir name : Bytes) : Bytes := dir ++ ascii "/" ++ name

def malformed (s : State) (path : Bytes) (reason : Reason) : State :=
  { s with badb := s.badb ++ [(path,reason)], malformedTotal := s.malformedTotal + 1 }

def unexpected (s : State) (id file : Bytes) : State :=
  { s with unexpb := s.unexpb ++ [(id,file)], unexpectedTotal := s.unexpectedTotal + 1 }

def duplicate (s : State) (id : Bytes) (e : Entry) (file : Bytes) : State :=
  { s with dupb := s.dupb ++ [(id,e.file,file)], duplicateTotal := s.duplicateTotal + 1 }

def conflict (s : State) (id : Bytes) (e : Entry) (file row : Bytes) : State :=
  { s with confb := s.confb ++ [(id,e.file,file,e.row,row)], conflictTotal := s.conflictTotal + 1 }

def record (s : State) (id root file row : Bytes) : State :=
  let seen := Buckets.modify Entry.id hstr s.tab id (fun e => { e with seen := true, row, file })
  let counted := countResult { s with tab := seen, dedupedTotal := s.dedupedTotal + 1 } row
  { counted with reportb := counted.reportb ++ [(row,root,file)] }

/-- The body of the loop over a directory, for a file whose name ends in `.tab`. -/
def mergeFile (root file : Bytes) (content : Option Bytes) (s : State) : State :=
  match secondLine content maxrow with
  | none => malformed s file .emptyOrMissingResultRow
  | some row =>
    if row = [] then malformed s file .emptyOrMissingResultRow
    else
      let id := field row 1 512
      if id = [] then unexpected s (ascii "-") file
      else
        match lookup s id with
        | none => unexpected s id file
        | some e =>
          if e.seen then
            if sameResult e.row row then duplicate s id e file else conflict s id e file row
          else record s id root file row

mutual

def mergeNode (root dir : Bytes) : Node → State → State
  | .file name content, s => if isTab name then mergeFile root (join dir name) content s else s
  | .dir name opens entries, s =>
    if opens then mergeNodes root (join dir name) entries s
    else malformed s root .missingResultsDir

def mergeNodes (root dir : Bytes) : List Node → State → State
  | [], s => s
  | node :: rest, s => mergeNodes root dir rest (mergeNode root dir node s)

end

def mergeResults (root dir : Bytes) (opens : Bool) (entries : List Node) (s : State) : State :=
  if opens then mergeNodes root dir entries s else malformed s root .missingResultsDir

/-- An argument of the program. `results` is the directory `results` below it, if there is one,
with whether it opens. -/
structure Root where
  name : Bytes
  results : Option (Bool × List Node)
  opens : Bool
  entries : List Node

def mergeRoot (s : State) (root : Root) : State :=
  match root.results with
  | some (opens,entries) => mergeResults root.name (join root.name (ascii "results")) opens entries s
  | none => mergeResults root.name root.name root.opens root.entries s

def merge (manifest : Bytes) (roots : List Root) : State :=
  roots.foldl mergeRoot (readManifest manifest initial)

/-- `write_missing`: the lines of `missing.tab`. -/
def State.missing (s : State) : List Bytes :=
  ((Buckets.entries nhash s.tab).filter (fun e => !e.seen)).map Entry.id

def State.missingTotal (s : State) : Nat := s.missing.length

def State.exitStatus (s : State) : Option Bytes :=
  if s.missingTotal ≠ 0 ∨ s.conflictTotal ≠ 0 ∨ s.unexpectedTotal ≠ 0 ∨ s.malformedTotal ≠ 0 then
    some (ascii "merge")
  else none

end Objective9c.Merge
