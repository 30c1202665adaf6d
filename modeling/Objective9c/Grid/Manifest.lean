import Mathlib.Data.List.AList
import Objective9c.Lib.Transition
import Objective9c.Grid.TaskRow

/-! From a manifest to task files: `O9MutManifestRaw` splits the rows of a manifest over chunk
files, and `O9MutQueueWorkerRaw` publishes a task file for each row of a chunk. The calls on
files succeed here, and the directory of chunks is empty at first. -/
namespace Objective9c.Grid

open Text

/-- A row as it is split, with the id still unsanitised. -/
structure ManifestRow where
  id : Bytes
  source : Bytes
  mutant : Bytes
  gate : Bytes
  timeout : Bytes
  priority : Bytes
  deriving DecidableEq

/-- The lines that `for(line = buf; *line != '\0'; line = next)` does not pass over. -/
def rowLines (data : Bytes) : List Bytes := ((cstr data).splitOn newline).filter (· ≠ [])

/-- The six fields of a manifest or chunk line, which needs an id and a gate. The last field is
the rest of the line as it is. -/
def sixFields (line : Bytes) : Option ManifestRow :=
  match Fields.split tabChar (· = carriage) 6 line with
  | [id,source,mutant,gate,timeout,priority] =>
    if id = [] ∨ gate = [] then none else some ⟨id,source,mutant,gate,timeout,priority⟩
  | _ => none

def sanitiseChar (c : UInt8) : UInt8 :=
  if c = slash ∨ c = tabChar ∨ c = newline ∨ c = carriage then underscore else c

/-- The id as it fits `idbuf[256]`, with the characters replaced that a file name or a row cannot
have. -/
def sanitise (id : Bytes) : Bytes := (cut 255 id).map sanitiseChar

def chunkText (r : ManifestRow) : Bytes :=
  row [sanitise r.id,r.source,r.mutant,r.gate,r.timeout,r.priority]

def chunkRow (r : ManifestRow) : Bytes := cut 4095 (chunkText r)

abbrev Chunk := List ManifestRow

def chunkData (chunk : Chunk) : Bytes := chunk.flatMap chunkRow

/-- The chunk files that are closed, the one that is open, and the totals. -/
structure Chunking where
  closed : List Chunk
  current : Option Chunk
  count : Nat
  skipped : Nat
  iofailed : Bool
  deriving DecidableEq

@[simp] def Chunking.files (s : Chunking) : List Chunk := s.closed ++ s.current.toList

/-- The chunk a row goes to: the open one while it has room. -/
def Chunking.room (chunkSize : Nat) (s : Chunking) : Chunking :=
  match s.current with
  | some chunk =>
    if chunk.length ≥ chunkSize then { s with closed := s.closed ++ [chunk], current := some [] } else s
  | none => { s with current := some [] }

/-- The body of the loop over the manifest; a row that fills `rowbuf[4096]` is skipped. -/
def manifestRow (chunkSize : Nat) (s : Chunking) (line : Bytes) : Chunking :=
  match sixFields line with
  | none => { s with skipped := s.skipped + 1 }
  | some r =>
    let s := s.room chunkSize
    if (chunkRow r).length ≥ 4095 then { s with skipped := s.skipped + 1, iofailed := true }
    else { s with current := s.current.map (· ++ [r]), count := s.count + 1 }

/-- `O9MutManifestRaw`; the first line is a heading. -/
def chunkManifest (chunkSize : Nat) (manifest : Bytes) : Chunking :=
  ((rowLines manifest).drop 1).foldl (manifestRow chunkSize) ⟨[],none,0,0,false⟩

def taskText (now : Int) (r : ManifestRow) : Bytes :=
  taskHeader ++ row [sanitise r.id,r.source,r.mutant,r.gate,r.timeout,r.priority,ascii "0",decimal now]

def taskRow (now : Int) (r : ManifestRow) : Bytes := cut 4095 (taskText now r)

/-- A text that fills `taskrow[4096]` is not written. -/
def fits (now : Int) (r : ManifestRow) : Bool := (taskRow now r).length < 4095

abbrev Published := AList (fun _ : Bytes => Bytes)

/-- The body of the loop over a chunk, at the time `now`. -/
def expandRow (pending : Published) (line : Int × Bytes) : Published :=
  match sixFields line.2 with
  | none => pending
  | some r =>
    if sanitise r.id ∈ pending then pending
    else if fits line.1 r then pending.insert (sanitise r.id) (taskRow line.1 r)
    else pending

def readable (data : Bytes) : Bool :=
  0 < data.length && data.length ≤ 4 * 1024 * 1024 && data.getLast? == some newline

/-- One chunk of `O9MutQueueWorkerRaw`; `time` is the clock at each of its lines. -/
def expandChunk (time : Nat → Int) (pending : Published) (data : Bytes) : Published :=
  if readable data then
    ((rowLines data).zipIdx.map (fun line => (time line.2,line.1))).foldl expandRow pending
  else pending

def expandChunks (time : Nat → Nat → Int) (chunks : List Bytes) : Published :=
  chunks.zipIdx.foldl (fun pending chunk => expandChunk (time chunk.2) pending chunk.1) ∅

end Objective9c.Grid
