import Objective9c.Lib.Transition

/-! The file-tree store of `o9_filetree.c`: trees of entries, a global source table and
union mounts between trees. Every public operation runs under `ft_mount_lock`, so one
operation is one step. Heap pointers are addresses, `nil` is 0, and a C string is its
bytes before the terminator. Whether an allocation succeeds is an argument. -/
namespace Objective9c.Filetree

abbrev Addr := Nat
abbrev Bytes := List UInt8

def nil : Addr := 0
def ftBuckets : Nat := 64

inductive Kind where
  | dir | text | live
  deriving DecidableEq

/-- Mode 0 replaces the directory, 1 is searched before it and 2 after it. -/
structure Mount where
  source : Addr
  mode : Int
  deriving DecidableEq

structure Entry where
  name : Bytes
  id : Nat
  kind : Kind
  writable : Bool
  removed : Bool
  data : Option Bytes
  tree : Addr
  mounts : List Mount
  parent : Addr
  /-- The hash chains, newest entry first. -/
  buckets : Nat → List Addr

structure FileTree where
  owner : Addr
  alive : Bool
  root : Addr
  /-- The `allnext` chain: removed entries stay on it until the tree is destroyed. -/
  all : List Addr
  deriving DecidableEq

structure Source where
  id : Bytes
  tree : Addr
  deriving DecidableEq

structure Store where
  entries : Addr → Option Entry
  trees : Addr → Option FileTree
  treeList : List Addr
  sources : List Source
  nextId : Nat

def Store.empty : Store := ⟨fun _ => none,fun _ => none,[],[],1⟩

def Store.setEntry (s : Store) (a : Addr) (e : Entry) : Store :=
  { s with entries := fun b => if b = a then some e else s.entries b }

def Store.setTree (s : Store) (a : Addr) (t : FileTree) : Store :=
  { s with trees := fun b => if b = a then some t else s.trees b }

def Store.isDir (s : Store) (a : Addr) : Bool :=
  match s.entries a with
  | some e => e.kind == .dir
  | none => false

def Store.treeAlive (s : Store) (t : Addr) : Bool :=
  match s.trees t with
  | some tree => tree.alive
  | none => false

@[simp] def Store.rootOf (s : Store) (t : Addr) : Addr :=
  match s.trees t with
  | some tree => tree.root
  | none => nil

@[simp] def Store.mountsAt (s : Store) (e : Addr) : List Mount :=
  match s.entries e with
  | some entry => entry.mounts
  | none => []

/-- The entry is allocated and `strcmp` of its name with `name` is 0. -/
def Store.named (s : Store) (name : Bytes) (e : Addr) : Bool :=
  match s.entries e with
  | some entry => entry.name == name
  | none => false

/-- FNV-1a over the name's bytes in 32-bit arithmetic. -/
def ftBucket (name : Bytes) : Nat :=
  (name.foldl (fun h p => (h ^^^ p.toUInt32) * 16777619) (2166136261 : UInt32)).toNat % ftBuckets

def ftNameOk (name : Bytes) : Bool :=
  !(name == [] || name == [46] || name == [46,46]) &&
    name.all fun p => !(p == 47 || p < 32 || p == 127)

/-- `o9_string_cstr` copies all the bytes; C then reads up to the first NUL. -/
def cstr (text : Bytes) : Bytes := text.takeWhile (· != 0)

def ftFind (s : Store) (dir : Addr) (name : Bytes) : Option Addr :=
  match s.entries dir with
  | none => none
  | some d =>
    if d.kind = .dir then
      (d.buckets (ftBucket name)).find? fun e =>
        match s.entries e with
        | some entry => !entry.removed && entry.name == name
        | none => false
    else none

def Entry.pushBucket (p : Entry) (b : Nat) (e : Addr) : Entry :=
  { p with buckets := fun i => if i = b then e :: p.buckets i else p.buckets i }

def Entry.dropBucket (p : Entry) (b : Nat) (e : Addr) : Entry :=
  { p with buckets := fun i => if i = b then (p.buckets i).erase e else p.buckets i }

def Store.pushBucket (s : Store) (parent : Addr) (b : Nat) (e : Addr) : Store :=
  if parent = nil then s
  else match s.entries parent with
    | none => s
    | some p => s.setEntry parent (p.pushBucket b e)

def Store.newEntry (s : Store) (t parent : Addr) (name : Bytes) (kind : Kind)
    (data : Option Bytes) (writable : Bool) : Entry :=
  { name, id := s.nextId, kind, writable, removed := false, data, tree := t, mounts := [],
    parent, buckets := fun _ => [] }

/-- `entry` is what `mallocz` returned and `strdup` whether the name could be copied. -/
def ftEntry (s : Store) (t parent : Addr) (name : Bytes) (kind : Kind) (data : Option Bytes)
    (writable : Bool) (entry : Addr) (strdup : Bool) : Option Store :=
  if entry = nil || !strdup then none
  else match s.trees t with
    | none => none
    | some tree =>
      let e := s.newEntry t parent name kind data writable
      let listed := (s.setEntry entry e).setTree t { tree with all := entry :: tree.all }
      let counted := { listed with nextId := (s.nextId + 1) % 2^64 }
      some (counted.pushBucket parent (ftBucket name) entry)

def ftOwned (s : Store) (caller t : Addr) : Bool :=
  match s.trees t with
  | some tree => tree.alive && tree.owner == caller
  | none => false

def filetreeNew (s : Store) (caller tree entry : Addr) (strdup : Bool) : Store × Addr :=
  if tree = nil then (s,nil)
  else
    let fresh := s.setTree tree ⟨caller,true,entry,[]⟩
    match ftEntry fresh tree nil [46] .dir none false entry strdup with
    | none => (s,nil)
    | some made => ({ made with treeList := tree :: s.treeList },tree)

/-- The components are the path cut at every slash; only the last may be missing. -/
def ftParentFrom (s : Store) : Addr → List Bytes → Option (Addr × Bytes)
  | _, [] => none
  | dir, [leaf] => if ftNameOk leaf then some (dir,leaf) else none
  | dir, name :: rest =>
    if ftNameOk name then
      match ftFind s dir name with
      | none => none
      | some child => if s.isDir child then ftParentFrom s child rest else none
    else none

def ftParent (s : Store) (t : Addr) (path : Bytes) : Option (Addr × Bytes) :=
  if path = [] || path.head? = some 47 then none
  else ftParentFrom s (s.rootOf t) (path.splitOn 47)

/-- `cstr` says whether the path could be copied; the other two are `ftEntry`'s. -/
structure PutMemory where
  cstr : Bool
  entry : Addr
  strdup : Bool
  deriving DecidableEq

def ftPut (s : Store) (caller t : Addr) (path : Option Bytes) (kind : Kind)
    (data : Option Bytes) (writable : Bool) (memory : PutMemory) : Store × Int :=
  match path with
  | none => (s,-1)
  | some path =>
    if !ftOwned s caller t || (kind = .text && data = none) || !memory.cstr then (s,-1)
    else match ftParent s t (cstr path) with
      | none => (s,-1)
      | some (parent,leaf) =>
        match ftFind s parent leaf with
        | none =>
          match ftEntry s t parent leaf kind data writable memory.entry memory.strdup with
          | none => (s,-1)
          | some made => (made,0)
        | some e =>
          match s.entries e with
          | none => (s,-1)
          | some old =>
            if old.kind ≠ kind then (s,-1)
            else if kind = .dir then (s,0)
            else (s.setEntry e { old with data, writable },0)

def filetreeDir (s : Store) (caller t : Addr) (path : Option Bytes) (memory : PutMemory) :=
  ftPut s caller t path .dir none false memory
def filetreeText (s : Store) (caller t : Addr) (path data : Option Bytes) (writable : Int)
    (memory : PutMemory) := ftPut s caller t path .text data (writable != 0) memory
def filetreeLive (s : Store) (caller t : Addr) (path : Option Bytes) (writable : Int)
    (memory : PutMemory) := ftPut s caller t path .live none (writable != 0) memory

/-- Unlink `e` from its chain in `parent` and mark it removed. -/
def Store.unlink (s : Store) (parent e : Addr) (name : Bytes) (old : Entry) : Store :=
  let s := s.setEntry e { old with removed := true }
  match s.entries parent with
  | none => s
  | some p => s.setEntry parent (p.dropBucket (ftBucket name) e)

def filetreeRemove (s : Store) (caller t : Addr) (path : Option Bytes) (copied : Bool) :
    Store × Int :=
  match path with
  | none => (s,-1)
  | some path =>
    if !ftOwned s caller t || !copied then (s,-1)
    else match ftParent s t (cstr path) with
      | none => (s,-1)
      | some (parent,leaf) =>
        match ftFind s parent leaf with
        | none => (s,-1)
        | some e =>
          match s.entries e with
          | none => (s,-1)
          | some old =>
            if (List.range ftBuckets).all (fun i => (old.buckets i).isEmpty) then
              (s.unlink parent e leaf old,0)
            else (s,-1)

def filetreeRevoke (s : Store) (t : Addr) : Store :=
  match s.trees t with
  | none => s
  | some tree => { s.setTree t { tree with alive := false } with
      sources := s.sources.filter (·.tree != t) }

def filetreeClose (s : Store) (caller t : Addr) : Store :=
  if ftOwned s caller t then filetreeRevoke s t else s

/-- `copied` and `made` are the allocations of the id's copy and of the table node. -/
def filetreeRegister (s : Store) (caller t : Addr) (id : Option Bytes) (copied made : Bool) :
    Store × Int :=
  match id with
  | none => (s,-1)
  | some id =>
    let name := cstr id
    if !ftOwned s caller t || !copied then (s,-1)
    else if !ftNameOk name || name.contains 33 || name.contains 58 then (s,-1)
    else if !made then (s,-1)
    else if s.sources.any (·.id == name) then (s,-1)
    else ({ s with sources := ⟨name,t⟩ :: s.sources },0)

def ftResolve (s : Store) (id : Bytes) : Option Addr :=
  (s.sources.find? fun src => src.id == id && s.treeAlive src.tree).map (·.tree)

/-- Every mount of every entry of `t`, also of removed ones: `destroy` scans them all. -/
def Store.mountsOf (s : Store) (t : Addr) : List Mount :=
  match s.trees t with
  | none => []
  | some tree => tree.all.flatMap s.mountsAt

def filetreeDestroy (s : Store) (caller t : Addr) : Store × Int :=
  match s.trees t with
  | none => (s,-1)
  | some tree =>
    if tree.owner ≠ caller || tree.alive then (s,-1)
    else if s.sources.any (·.tree == t) then (s,-1)
    else if s.treeList.any (fun other => other != t && (s.mountsOf other).any (·.source == t)) then
      (s,-1)
    else if t ∉ s.treeList then (s,-1)
    else ({ s with
      entries := fun a => if a ∈ tree.all then none else s.entries a
      trees := fun a => if a = t then none else s.trees a
      treeList := s.treeList.erase t },0)

/-- `target` and `source` are nil when absent; `unmount` is read as a truth value. -/
structure MountSpec where
  target : Option Bytes
  source : Option Bytes
  mode : Int
  unmount : Bool
  deriving DecidableEq

/-- The planned mount list of one directory. -/
structure Plan where
  target : Addr
  mounts : List Mount
  deriving DecidableEq

def ftPlanFor (plans : List Plan) (entry : Addr) : Option Plan :=
  plans.find? (·.target == entry)

def ftTargetFrom (s : Store) : Addr → List Bytes → Option Addr
  | e, [] => some e
  | e, name :: rest =>
    if ftNameOk name then
      match ftFind s e name with
      | none => none
      | some child => if s.isDir child then ftTargetFrom s child rest else none
    else none

def ftTarget (s : Store) (t : Addr) (path : Option Bytes) : Option Addr :=
  match path with
  | none => none
  | some path =>
    if path = [] || path.head? = some 47 then none
    else if path = [46] then some (s.rootOf t)
    else ftTargetFrom s (s.rootOf t) (path.splitOn 47)

def plannedMounts (plans : List Plan) (e : Addr) (entry : Entry) : List Mount :=
  match ftPlanFor plans e with
  | some p => p.mounts
  | none => entry.mounts

/-- `room` is how many trees `seen` still has space for: 256 less `nseen`. -/
def ftReaches (s : Store) (plans : List Plan) (goal : Addr) : Nat → Addr → List Addr → Bool
  | 0, _, _ => true
  | room+1, tree, seen =>
    if tree = goal then true
    else if tree ∈ seen then false
    else match s.trees tree with
      | none => false
      | some t => t.all.any fun e =>
        match s.entries e with
        | none => false
        | some entry => !entry.removed &&
            (plannedMounts plans e entry).any fun m =>
              ftReaches s plans goal room m.source (tree :: seen)

/-- Replace empties the list first; before goes to its head, after to its end. -/
def addMount (m : Mount) (mounts : List Mount) : List Mount :=
  let kept := if m.mode = 0 then [] else mounts
  if m.mode = 1 then m :: kept else kept ++ [m]

def updatePlan (plans : List Plan) (target : Addr) (change : List Mount → List Mount) : List Plan :=
  plans.map fun p => if p.target = target then { p with mounts := change p.mounts } else p

/-- A directory met for the first time is planned with a copy of its current mounts. -/
def planTarget (s : Store) (plans : List Plan) (target : Addr) : List Plan :=
  match ftPlanFor plans target with
  | some _ => plans
  | none => ⟨target,s.mountsAt target⟩ :: plans

def planSpec (s : Store) (t : Addr) (plans : List Plan) (spec : MountSpec) : Option (List Plan) :=
  match ftTarget s t spec.target with
  | none => none
  | some target =>
    let plans := planTarget s plans target
    if spec.unmount then some (updatePlan plans target fun _ => [])
    else if spec.mode < 0 || spec.mode > 2 then none
    else match spec.source with
      | none => none
      | some id =>
        match ftResolve s id with
        | none => none
        | some source => some (updatePlan plans target (addMount ⟨source,spec.mode⟩))

/-- `memory i` says whether the allocations made for spec `i` succeed. -/
def planSpecs (s : Store) (t : Addr) (memory : Nat → Bool) :
    Nat → List Plan → List MountSpec → Option (List Plan)
  | _, plans, [] => some plans
  | i, plans, spec :: rest =>
    if memory i then
      match planSpec s t plans spec with
      | none => none
      | some plans => planSpecs s t memory (i+1) plans rest
    else none

def Store.setMounts (s : Store) (target : Addr) (mounts : List Mount) : Store :=
  match s.entries target with
  | none => s
  | some e => s.setEntry target { e with mounts }

def commitPlans (s : Store) (plans : List Plan) : Store :=
  plans.foldl (fun s p => s.setMounts p.target p.mounts) s

/-- `specs` is absent when the array is nil or the count negative. -/
def filetreeApplySpecs (s : Store) (caller t : Addr) (specs : Option (List MountSpec))
    (memory : Nat → Bool) : Store × Int :=
  match specs with
  | none => (s,-1)
  | some specs =>
    if !ftOwned s caller t then (s,-1)
    else match planSpecs s t memory 0 [] specs with
      | none => (s,-1)
      | some plans =>
        if plans.any (fun p => p.mounts.any fun m => ftReaches s plans t 256 m.source []) then (s,-1)
        else (commitPlans s plans,0)

inductive Op where
  | new (caller tree entry : Addr) (strdup : Bool)
  | dir (caller t : Addr) (path : Option Bytes) (memory : PutMemory)
  | text (caller t : Addr) (path data : Option Bytes) (writable : Int) (memory : PutMemory)
  | live (caller t : Addr) (path : Option Bytes) (writable : Int) (memory : PutMemory)
  | remove (caller t : Addr) (path : Option Bytes) (copied : Bool)
  | register (caller t : Addr) (id : Option Bytes) (copied made : Bool)
  | applySpecs (caller t : Addr) (specs : Option (List MountSpec)) (memory : Nat → Bool)
  | revoke (t : Addr)
  | close (caller t : Addr)
  | destroy (caller t : Addr)

/-- What the allocator may answer: nil, or an address not in use. -/
def Store.allocates (s : Store) (a : Addr) : Bool :=
  a == nil || ((s.entries a).isNone && (s.trees a).isNone)

/-- A tree argument is nil or points to an allocated tree; anything else is not a
behaviour of the C program. -/
def Store.points (s : Store) (t : Addr) : Bool := t == nil || (s.trees t).isSome

def step : Op → Store → Option Store
  | .new caller tree entry strdup, s =>
    if s.allocates tree && s.allocates entry then some (filetreeNew s caller tree entry strdup).1
    else none
  | .dir caller t path memory, s =>
    if s.points t && s.allocates memory.entry then some (filetreeDir s caller t path memory).1
    else none
  | .text caller t path data writable memory, s =>
    if s.points t && s.allocates memory.entry then
      some (filetreeText s caller t path data writable memory).1
    else none
  | .live caller t path writable memory, s =>
    if s.points t && s.allocates memory.entry then
      some (filetreeLive s caller t path writable memory).1
    else none
  | .remove caller t path copied, s =>
    if s.points t then some (filetreeRemove s caller t path copied).1 else none
  | .register caller t id copied made, s =>
    if s.points t then some (filetreeRegister s caller t id copied made).1 else none
  | .applySpecs caller t specs memory, s =>
    if s.points t then some (filetreeApplySpecs s caller t specs memory).1 else none
  | .revoke t, s => if s.points t then some (filetreeRevoke s t) else none
  | .close caller t, s => if s.points t then some (filetreeClose s caller t) else none
  | .destroy caller t, s => if s.points t then some (filetreeDestroy s caller t).1 else none

/-- The stores of finite sequences of operations, by any owners, from no trees. -/
def Reachable (s : Store) : Prop := ∃ ops, Transition.run step ops Store.empty = some s

end Objective9c.Filetree
