import Mathlib.Data.List.Basic
import Objective9c.Lib.Text
import Objective9c.Lib.Transition

/-! The served tree of an application: the pool of session slots of the generated facade and
the views of `o9_view.c`, with the fids that walk it. A request is handled in one step, except
that a clone read and an attach wait for the view controller, a login for the authentication
server, and a method call for its actor. -/
namespace Objective9c.Facade

open List Option

/-- The names the facade gives to files, session directories being numbered. -/
inductive Name where
  | dot | dotdot
  | clone | methods | ctl | data | status | view | actors | graph | state | router | exports | imports
  | number (i : Nat)
  | other (k : Nat)
  deriving DecidableEq

inductive File where
  | root
  | top (name : Name)
  | slot (i : Nat)
  | inSlot (i : Nat) (name : Name)
  deriving DecidableEq

def File.parent : File → File
  | .root | .top _ | .slot _ => .root
  | .inSlot i _ => .slot i

/-- The session in the file's `aux`. -/
def File.session : File → Option Nat
  | .slot i | .inSlot i _ => some i
  | .root | .top _ => none

def File.isDir : File → Bool
  | .root | .slot _ | .inSlot _ .view | .top .view | .top .exports | .top .imports => true
  | _ => false

structure Entry where
  id : Nat
  name : List UInt8
  deriving DecidableEq

/-- Where a fid is: `fixed` in the facade, or in a view below `view_parent`, with the stack of
entries and the path of their names. -/
inductive Place where
  | fixed (file : File)
  | tree (parent : File) (stack : List Entry) (path : List UInt8)
  deriving DecidableEq

/-- The file the guard is asked about. -/
def Place.file : Place → File
  | .fixed file => file
  | .tree parent _ _ => parent

/-- `O9ViewFid` with its fid. `entered` is the number of the conversation of its slot when the fid, or the one it was
cloned from, came in; no code reads it. -/
structure Fid where
  uid : String
  isOpen : Bool
  place : Place
  generation : Nat
  view : Option Nat
  entered : Nat
  deriving DecidableEq

/-- `O9View`; its tree belongs to the controller. -/
structure View where
  active : Bool
  refs : Int
  deriving DecidableEq

/-- `O9Session` with the session's entry in `view_sessions`. `conversations` counts the times
the slot was handed out; no code reads it. -/
structure Slot where
  inuse : Bool
  owner : String
  generation : Nat
  ref : Int
  blessed : Bool
  authuser : String
  data : String
  status : String
  sessionView : Option Nat
  conversations : Nat
  deriving DecidableEq

def Slot.blank : Slot := ⟨false,"",0,0,false,"","","",none,0⟩

/-- A request that has given up the server while it waits for its answer. `conversation` is the
one its command was written in; no code reads it. -/
inductive Waiting where
  | attach (fid : Nat)
  | start (fid slot : Nat)
  | login (fid slot : Nat) (user pass : String) (conversation : Nat)
  | call (fid : Nat) (session : Option Nat) (conversation : Nat)
  deriving DecidableEq

def Waiting.fid : Waiting → Nat
  | .attach fid | .start fid _ | .login fid _ _ _ _ | .call fid _ _ => fid

/-- What a `method` line comes to in the class's handler. -/
inductive Target where
  | unknown (text : String)
  | arity (name : String) (want got : Nat)
  | unsupported (name : String)
  | call
  deriving DecidableEq

/-- A line written to `ctl`, as it is tokenized. -/
inductive Line where
  | view (close : Bool)
  | close
  | login (args : List String)
  | logout
  | whoami
  | new (known : Bool) (inst : String)
  | method (target : Target)
  | bad
  deriving DecidableEq

/-- What the router gives to the completion of a method call. -/
inductive Reply where
  | failed (err : String)
  | value (text : String)
  | unavailable
  deriving DecidableEq

/-- Slots, fids, views and waiting requests, by number; one that is gone leaves its number
unused. `closed` are the views handed to `view_queue_close`, and `fault` is set when a view is
used after it was freed. -/
structure State where
  slots : List Slot
  fids : List (Option Fid)
  views : List (Option View)
  waiting : List (Option Waiting)
  closed : List Nat
  lastdata : String
  fault : Bool
  deriving DecidableEq

def initial : State := ⟨[],[],[],[],[],"",false⟩

/-- `snprint` into a buffer of `n` bytes. -/
def clip (n : Nat) (text : String) : String := String.ofList (Text.fitting (n-1) text.toList)

structure Config where
  multiuser : Bool
  authRequired : Bool
  deriving DecidableEq

section Primitives

def State.fid? (s : State) (id : Nat) : Option Fid := s.fids[id]?.join

@[simp] def State.setFid (s : State) (id : Nat) (f : Fid) : State := { s with fids := s.fids.set id (some f) }

@[simp] def State.setSlot (s : State) (i : Nat) (change : Slot → Slot) : State :=
  { s with slots := s.slots.modify i change }

def State.wait (s : State) (w : Waiting) : State := { s with waiting := s.waiting ++ [some w] }

def State.finish (s : State) (req : Nat) : State := { s with waiting := s.waiting.set req none }

@[simp] def State.conversation (s : State) (session : Option Nat) : Nat :=
  ((session.bind (s.slots[·]?)).map Slot.conversations).getD 0

def State.retain (s : State) (v : Nat) : State :=
  match s.views[v]?.join with
  | some view => { s with views := s.views.set v (some { view with refs := view.refs + 1 }) }
  | none => { s with fault := true }

/-- `view_release_locked`; the closed view is queued if the caller passes on what it returns. -/
def State.release (s : State) (v : Nat) (queue : Bool) : State :=
  match s.views[v]?.join with
  | some view =>
    if view.refs - 1 = 0 then
      { s with views := s.views.set v none, closed := if queue then s.closed ++ [v] else s.closed }
    else { s with views := s.views.set v (some { view with refs := view.refs - 1 }) }
  | none => { s with fault := true }

def State.deactivate (s : State) (v : Nat) : State :=
  match s.views[v]?.join with
  | some view => { s with views := s.views.set v (some { view with active := false }) }
  | none => { s with fault := true }

def State.active (s : State) (v : Nat) : Bool := (s.views[v]?.join).any View.active

end Primitives

section Handlers

variable (cfg : Config)

/-- `walkfile1` in the facade's tree, with the number of slots created. -/
def walkfile1 (nslots : Nat) (file : File) (name : Name) : Option File :=
  match name, file with
  | .dotdot, file => some file.parent
  | .number i, .root => if i < nslots then some (.slot i) else none
  | .view, .root => if cfg.multiuser then none else some (.top .view)
  | .dot, .root | .other _, .root => none
  | name, .root => some (.top name)
  | .ctl, .slot i => some (.inSlot i .ctl)
  | .data, .slot i => some (.inSlot i .data)
  | .status, .slot i => some (.inSlot i .status)
  | .view, .slot i => if cfg.multiuser then some (.inSlot i .view) else none
  | _, _ => none

/-- `walkfile`; a name of the request may hold slashes. -/
def walkfile (nslots : Nat) (file : File) (names : List Name) : Option File :=
  names.foldlM (walkfile1 cfg nslots) file

/-- `o9app_session_guard`, with the new generation if it lets the request through. -/
def sessionGuard (slots : List Slot) (uid : String) (file : File) (oldgen : Nat) : Option Nat :=
  if !cfg.multiuser then some 0
  else
    match file.session with
    | none => if file = .root ∨ file = .top .clone ∨ file = .top .methods then some 0 else none
    | some i =>
      match slots[i]? with
      | some slot =>
        if slot.inuse && uid == slot.owner && (oldgen == 0 || oldgen == slot.generation) then
          some slot.generation
        else none
      | none => none

def authorize (s : State) (f : Fid) : Bool :=
  (sessionGuard cfg s.slots f.uid f.place.file f.generation).isSome

def lookupSession (slots : List Slot) : File → Option Nat
  | .slot i => slots[i]?.bind Slot.sessionView
  | _ => none

def bump (generation : Nat) : Nat :=
  let next := (generation + 1) % 2^64
  if next = 0 then 1 else next

/-- The slot of a file is new to the fid, or the fid was in it before. -/
def Fid.enteredAt (f : Fid) (slots : List Slot) (file : File) : Nat :=
  match file.session with
  | none => 0
  | some i => if f.place.file.session = some i then f.entered else (slots[i]?.map Slot.conversations).getD 0

/-- The end of a walk in the facade: in session mode the fid takes the view of the session it
comes to, and gives its view up at the root. -/
def settle (s : State) (id : Nat) (f : Fid) (file : File) : State :=
  if !cfg.multiuser then s.setFid id f
  else
    match lookupSession s.slots file, f.view with
    | some v, some old => ((s.retain v).release old false).setFid id { f with view := some v }
    | some v, none => (s.retain v).setFid id { f with view := some v }
    | none, some old =>
      if file = .root then (s.release old false).setFid id { f with view := none } else s.setFid id f
    | none, none => s.setFid id f

/-- `view_pop` on the path: cut at the last slash. -/
def cutPath (path : List UInt8) : List UInt8 := (path.reverse.dropWhile (· ≠ 47)).tail.reverse

/-- `view_push` on the path; the names it prints with `%s` are UTF-8. -/
def joinPath (path name : List UInt8) : List UInt8 := if path = [] then name else path ++ 47 :: name

/-- `o9_view_walk1`. `alive` says whether the tree of the view is, and `found` is what
`o9_filetree_lookup` finds. -/
def walk1 (s : State) (id : Nat) (f : Fid) (names : List Name) (alive : Bool) (found : Option Entry) :
    Except String State :=
  if names = [.dot] then
    if authorize cfg s f then .ok s else .error "permission denied"
  else
    match f.place with
    | .fixed old =>
      if !authorize cfg s f then .error "permission denied"
      else
        match walkfile cfg s.slots.length old names with
        | none => .error "not found"
        | some file =>
          match sessionGuard cfg s.slots f.uid file f.generation with
          | none => .error "permission denied"
          | some generation =>
            if names = [.view] ∧ (old = .root ∨ f.generation ≠ 0) then
              match f.view with
              | none => .error "view unavailable"
              | some v =>
                if (s.views[v]?.join).isNone then .ok { s with fault := true }
                else if !s.active v then .error "view unavailable"
                else .ok (s.setFid id { f with place := .tree old [] [], generation := generation })
            else
              .ok (settle cfg s id { f with
                place := .fixed file
                generation := generation
                entered := f.enteredAt s.slots file } file)
    | .tree parent stack path =>
      match f.view with
      | none => .error "view closed"
      | some v =>
        if (s.views[v]?.join).isNone then .ok { s with fault := true }
        else if !s.active v || !alive then .error "view closed"
        else if !authorize cfg s f then .error "permission denied"
        else if names = [.dotdot] then
          match stack with
          | [] => .ok (s.setFid id { f with place := .fixed parent })
          | _ :: _ => .ok (s.setFid id { f with place := .tree parent stack.dropLast (cutPath path) })
        else
          match found with
          | none => .error "not found"
          | some e =>
            .ok (s.setFid id { f with place := .tree parent (stack ++ [e]) (joinPath path e.name) })

def viewSessionClose (s : State) (i : Nat) : State :=
  match s.slots[i]?.bind Slot.sessionView with
  | some v => ((s.deactivate v).release v true).setSlot i ({ · with sessionView := none })
  | none => s

def closeSession (s : State) (i : Nat) : State :=
  (if cfg.multiuser then viewSessionClose s i else s).setSlot i ({ · with
    inuse := false
    blessed := false
    authuser := ""
    status := "closed\n"
    data := "" })

def Slot.reusable (slot : Slot) : Bool := !slot.inuse && (!cfg.multiuser || slot.ref == 0)

/-- The slot `o9app_alloc_session` hands out: the first that can be taken again, or a new one. -/
def pickSlot (slots : List Slot) : Nat := slots.findIdx (Slot.reusable cfg)

/-- What `o9app_alloc_session` makes of it. -/
def Slot.begin (owner : String) (slot : Slot) : Slot :=
  { slot with
    owner := if cfg.multiuser then owner else ""
    generation := bump slot.generation
    inuse := true
    ref := 0
    blessed := false
    authuser := ""
    data := ""
    status := "ready\n"
    conversations := slot.conversations + 1 }

def allocSession (s : State) (owner : String) : Except String State :=
  if cfg.multiuser && (owner == "" || owner == "none") then .error "no session"
  else
    let i := pickSlot cfg s.slots
    let slots := if i < s.slots.length then s.slots else s.slots ++ [.blank]
    .ok { s with slots := slots.modify i (Slot.begin cfg owner) }

/-- The `clone` branch of `o9app_root_read`, up to the call of the controller; `starts` says
whether `o9_view_session_start` gets there. -/
def readClone (s : State) (id : Nat) (f : Fid) (starts : Bool) : Except String State :=
  if !f.isOpen || f.place ≠ .fixed (.top .clone) || !authorize cfg s f then .error "permission denied"
  else if cfg.multiuser && f.uid == "none" then .error "authentication required"
  else
    let i := pickSlot cfg s.slots
    match allocSession cfg s f.uid with
    | .error text => .error text
    | .ok s =>
      if !cfg.multiuser then .ok s
      else if starts then .ok (s.wait (.start id i))
      else .ok (closeSession cfg s i)

@[simp] def State.newView (s : State) : State := { s with views := s.views ++ [some ⟨true,1⟩] }

/-- The end of `o9_view_session_start`: the session's entry holds the new view. -/
def sessionStarted (s : State) (i : Nat) : State :=
  let v := s.views.length
  let s := s.newView
  match s.slots[i]?.bind Slot.sessionView with
  | some old =>
    ((s.deactivate old).release old true).setSlot i ({ · with sessionView := some v })
  | none => s.setSlot i ({ · with sessionView := some v })

/-- The controller's answer; `tree` says whether it is a tree that can be served. -/
def displayed (s : State) (req : Nat) (tree : Bool) : Except String State :=
  match s.waiting[req]?.join with
  | some (.start _ i) =>
    let s := s.finish req
    .ok (if tree then sessionStarted s i else closeSession cfg s i)
  | some (.attach id) =>
    let s := s.finish req
    match s.fid? id with
    | some f =>
      .ok (if tree then s.newView.setFid id { f with view := some s.views.length } else s)
    | none => .error "no fid"
  | _ => .error "no request"

/-- `o9_view_attach`; `controller` says whether one is registered. -/
def attach (s : State) (uid : String) (controller : Bool) : State :=
  let f : Fid := ⟨uid,false,.fixed .root,0,none,0⟩
  let s' := { s with fids := s.fids ++ [some f] }
  if !controller || cfg.multiuser then s' else s'.wait (.attach s.fids.length)

def State.shareView (s : State) (f : Fid) : State :=
  match f.view with
  | some v => s.retain v
  | none => s

/-- `o9_view_clone`. -/
@[simp] def cloneFid (s : State) (f : Fid) : State :=
  { s.shareView f with fids := s.fids ++ [some { f with isOpen := false }] }

/-- `ainc` and `adec` of the `ref` of the session a file belongs to. -/
def State.addRef (s : State) (file : File) (delta : Int) : State :=
  match file.session with
  | some i => s.setSlot i fun slot => { slot with ref := slot.ref + delta }
  | none => s

/-- `o9_view_open` and `o9app_open`: only opening a file of a session counts in its `ref`. `reads` says whether the
mode is `OREAD`. -/
def openFid (s : State) (id : Nat) (f : Fid) (reads alive : Bool) : Except String State :=
  if f.isOpen then .error "botch"
  else if !authorize cfg s f then .error "permission denied"
  else
    match f.place with
    | .fixed file =>
      if !file.isDir then .ok ((s.addRef file 1).setFid id { f with isOpen := true })
      else if !reads then .error "directory is read only"
      else .ok (s.setFid id { f with isOpen := true })
    | .tree _ _ _ =>
      match f.view with
      | none => .error "view closed"
      | some v =>
        if (s.views[v]?.join).isNone then .ok { s with fault := true }
        else if !s.active v || !alive then .error "view closed"
        else .ok (s.setFid id { f with isOpen := true })

/-- `o9app_destroyfid`. -/
def State.closeFid (s : State) (f : Fid) : State :=
  match f.isOpen, f.place with
  | true, .fixed file => s.addRef file (-1)
  | _, _ => s

/-- `view_ctx_free`. -/
def State.dropView (s : State) (f : Fid) : State :=
  match f.view with
  | some v => s.release v true
  | none => s

/-- `o9app_destroyfid_dispatch`. -/
@[simp] def destroyFid (s : State) (id : Nat) (f : Fid) : State :=
  { (s.closeFid f).dropView f with fids := s.fids.set id none }

def putStatus (s : State) (session : Option Nat) (text : String) : State :=
  match session with
  | some i => s.setSlot i ({ · with status := clip 256 text })
  | none => s

def putResult (s : State) (session : Option Nat) (text : String) : State :=
  match session with
  | some i => s.setSlot i ({ · with data := clip 4096 text })
  | none => { s with lastdata := clip 4096 text }

def answer (s : State) (session : Option Nat) (status data : String) : State :=
  putResult (putStatus s session status) session data

def reqUser (s : State) (f : Fid) (session : Option Nat) : String :=
  match session.bind (s.slots[·]?) with
  | some slot => if slot.blessed && slot.authuser ≠ "" then slot.authuser else f.uid
  | none => f.uid

def reqBlessed (s : State) (f : Fid) (session : Option Nat) : Bool :=
  (session.bind (s.slots[·]?)).any Slot.blessed || (cfg.authRequired && f.uid ≠ "none")

def loginNameOk (user : String) : Bool :=
  user ≠ "" && (user.toList.map Char.utf8Size).sum < 64 && user.toList.all fun c => c > ' ' && c ≠ '\x7f' && c ≠ '/'

/-- `o9app_auth_login`, with what the authentication server says. -/
def authLogin (user pass : String) (server : Bool) (err : String) : Bool × String :=
  if !loginNameOk user then (false,"bad user")
  else if pass = "" then (false,"empty password")
  else (server,err)

/-- What a login that is back writes into the slot. -/
def Slot.loggedIn (user : String) (outcome : Bool × String) (slot : Slot) : Slot :=
  if outcome.1 then
    { slot with
      blessed := true
      authuser := clip 64 user
      status := clip 256 ("ok login " ++ user ++ "\n")
      data := clip 4096 (user ++ "\n") }
  else
    { slot with
      blessed := false
      authuser := ""
      status := clip 256 ("error: login failed: " ++ (if outcome.2 ≠ "" then outcome.2 else "auth failed") ++ "\n")
      data := "" }

/-- `o9app_root_write` on a control file, and the class's handler behind it. -/
def command (s : State) (id : Nat) (f : Fid) (session : Option Nat) : Line → Except String State
  | .view true =>
    match f.view with
    | none => .error "no view"
    | some v => .ok (putStatus (s.deactivate v) session "ok\n")
  | .view false => .error "want: view close"
  | .close =>
    match session with
    | some i => .ok (closeSession cfg s i)
    | none => .ok s
  | .login args =>
    if cfg.multiuser then .error "use authenticated attach"
    else
      match session, args with
      | none, _ => .error "login requires session ctl"
      | some i, [user,pass] => .ok (s.wait (.login id i user pass (s.conversation session)))
      | some _, _ => .ok (answer s session "error: want login user password\n" "")
  | .logout =>
    match session with
    | none => .error "logout requires session ctl"
    | some i =>
      .ok (s.setSlot i ({ · with blessed := false, authuser := "", status := "ok logout\n", data := "" }))
  | .whoami =>
    let blessed := if reqBlessed cfg s f session then "1" else "0"
    .ok (answer s session "ok\n" (clip 96 (clip 64 (reqUser s f session) ++ " " ++ blessed ++ "\n")))
  | .new known inst =>
    if !known then .error "unknown class"
    else
      let text := clip 128 ("ok new " ++ inst ++ "\n")
      .ok (answer s session text text)
  | .method (.unknown text) => .error text
  | .method (.arity name want got) =>
    .ok (answer s session (clip 96 ("error: " ++ name ++ " takes " ++ toString want ++ " arg(s), got " ++
      toString got ++ "\n")) "")
  | .method (.unsupported name) =>
    .ok (answer s session ("error: " ++ name ++ ": object arguments are not callable over ctl\n") "")
  | .method .call => .ok (s.wait (.call id session (s.conversation session)))
  | .bad => .error "want: method Class.inst name | new Class inst | login user password | logout | whoami | close"

def write (s : State) (id : Nat) (f : Fid) (line : Line) : Except String State :=
  if !f.isOpen || !authorize cfg s f then .error "permission denied"
  else
    match f.place with
    | .fixed (.inSlot i .ctl) => command cfg s id f (some i) line
    | .fixed (.top .ctl) => command cfg s id f none line
    | _ => .error "read only"

/-- The authentication server's answer to a login. -/
def loggedIn (s : State) (req : Nat) (server : Bool) (err : String) : Except String State :=
  match s.waiting[req]?.join with
  | some (.login _ i user pass _) =>
    .ok ((s.finish req).setSlot i (Slot.loggedIn user (authLogin user pass server err)))
  | _ => .error "no request"

/-- The generated completion of a method call. -/
def replied (s : State) (req : Nat) (reply : Reply) : Except String State :=
  match s.waiting[req]?.join with
  | some (.call _ session _) =>
    let s := s.finish req
    match reply with
    | .failed err => .ok (answer s session (clip 256 ("error: " ++ err ++ "\n")) "")
    | .value text => .ok (answer s session "ok\n" text)
    | .unavailable => .ok (answer s session "error: router unavailable\n" "")
  | _ => .error "no request"

end Handlers

/-- Requests and answers. The choices in them are those of clients, the controller, the file
trees, the authentication server and the actors. -/
inductive Op where
  | attach (uid : String) (controller : Bool)
  | clone (fid : Nat)
  | walk (fid : Nat) (names : List Name) (alive : Bool) (found : Option Entry)
  | open (fid : Nat) (reads alive : Bool)
  | readClone (fid : Nat) (starts : Bool)
  | write (fid : Nat) (line : Line)
  | displayed (req : Nat) (tree : Bool)
  | loggedIn (req : Nat) (server : Bool) (err : String)
  | replied (req : Nat) (reply : Reply)
  | destroy (fid : Nat)
  deriving DecidableEq

/-- The 9P library refuses unknown fids and walks from open ones, and keeps a fid as long as a
request on it waits. -/
def handle (cfg : Config) (op : Op) (s : State) : Except String State :=
  match op with
  | .attach uid controller => .ok (attach cfg s uid controller)
  | .displayed req tree => displayed cfg s req tree
  | .loggedIn req server err => loggedIn s req server err
  | .replied req reply => replied s req reply
  | .clone id =>
    match s.fid? id with
    | some f => if f.isOpen then .error "cannot clone open fid" else .ok (cloneFid s f)
    | none => .error "unknown fid"
  | .walk id names alive found =>
    match s.fid? id with
    | some f => if f.isOpen then .error "cannot clone open fid" else walk1 cfg s id f names alive found
    | none => .error "unknown fid"
  | .open id reads alive =>
    match s.fid? id with
    | some f => openFid cfg s id f reads alive
    | none => .error "unknown fid"
  | .readClone id starts =>
    match s.fid? id with
    | some f => readClone cfg s id f starts
    | none => .error "unknown fid"
  | .write id line =>
    match s.fid? id with
    | some f => write cfg s id f line
    | none => .error "unknown fid"
  | .destroy id =>
    match s.fid? id with
    | some f =>
      if s.waiting.any fun w => w.any fun w => w.fid = id then .error "busy" else .ok (destroyFid s id f)
    | none => .error "unknown fid"

/-- A request that is answered with an error changes nothing and is no step. -/
def step (cfg : Config) (op : Op) (s : State) : Option State := (handle cfg op s).toOption

section Frames

variable (s : State) (v : Nat) (cfg : Config)

@[simp] abbrev ViewsOnly (t : State) : Prop := t.slots = s.slots ∧ t.fids = s.fids ∧ t.waiting = s.waiting

@[simp] abbrev SlotsOnly (t : State) : Prop :=
  t.fids = s.fids ∧ t.waiting = s.waiting ∧ t.slots.length = s.slots.length

@[simp] theorem retain_frame : ViewsOnly s (s.retain v) := by
  unfold State.retain; split <;> simp

@[simp] theorem release_frame (queue : Bool) : ViewsOnly s (s.release v queue) := by
  unfold State.release
  split
  · split <;> simp
  · simp

@[simp] theorem deactivate_frame : ViewsOnly s (s.deactivate v) := by
  unfold State.deactivate; split <;> simp

@[simp] theorem shareView_frame (f : Fid) : ViewsOnly s (s.shareView f) := by
  unfold State.shareView; split <;> simp

@[simp] theorem dropView_frame (f : Fid) : (s.dropView f).slots = s.slots ∧ (s.dropView f).waiting = s.waiting := by
  unfold State.dropView; split <;> simp

@[simp] theorem addRef_frame (file : File) (delta : Int) : SlotsOnly s (s.addRef file delta) := by
  unfold State.addRef; split <;> simp

@[simp] theorem closeFid_frame (f : Fid) : SlotsOnly s (s.closeFid f) := by
  unfold State.closeFid; split <;> simp

@[simp] theorem settle_frame (id : Nat) (f : Fid) (file : File) :
    (settle cfg s id f file).slots = s.slots ∧ (settle cfg s id f file).waiting = s.waiting := by
  fun_cases settle cfg s id f file <;> simp

theorem settle_fids (id : Nat) (f : Fid) (file : File) :
    ∃ view, (settle cfg s id f file).fids = s.fids.set id (some { f with view := view }) := by
  fun_cases settle cfg s id f file with
  | case2 _ v | case3 _ v => exact ⟨some v,by simp⟩
  | case4 => exact ⟨none,by simp⟩
  | _ => exact ⟨f.view,rfl⟩

@[simp] theorem viewSessionClose_frame (i : Nat) : SlotsOnly s (viewSessionClose s i) := by
  unfold viewSessionClose
  split <;> simp

@[simp] theorem closeSession_frame : SlotsOnly s (closeSession cfg s i) := by
  unfold closeSession
  split <;> simp

@[simp] theorem sessionStarted_frame : SlotsOnly s (sessionStarted s i) := by
  unfold sessionStarted
  dsimp only
  split <;> simp

@[simp] theorem putStatus_frame (session : Option Nat) (text : String) : SlotsOnly s (putStatus s session text) := by
  cases session <;> simp [putStatus]

@[simp] theorem putResult_frame (session : Option Nat) (text : String) : SlotsOnly s (putResult s session text) := by
  cases session <;> simp [putResult]

@[simp] theorem answer_frame : SlotsOnly s (answer s session status data) := by
  simp [answer]

theorem viewSessionClose_slots (i : Nat) :
    (viewSessionClose s i).slots = s.slots.modify i ({ · with sessionView := none }) := by
  unfold viewSessionClose
  split
  · simp
  next unset =>
    refine ext_getElem? fun j => ?_
    rw [getElem?_modify]
    split
    next here =>
      subst here
      cases there : s.slots[i]? with
      | none => rfl
      | some slot =>
        cases slot
        simpa [there] using unset
    next => simp

theorem closeSession_slots (i : Nat) : (closeSession cfg s i).slots = s.slots.modify i fun slot =>
    { slot with
      sessionView := if cfg.multiuser then none else slot.sessionView
      inuse := false
      blessed := false
      authuser := ""
      status := "closed\n"
      data := "" } := by
  unfold closeSession
  cases cfg.multiuser
  · rfl
  · simp only [if_true,State.setSlot,viewSessionClose_slots,modify_modify_eq]
    rfl

theorem sessionStarted_slots (i : Nat) :
    (sessionStarted s i).slots = s.slots.modify i ({ · with sessionView := some s.views.length }) := by
  unfold sessionStarted
  dsimp only
  split <;> simp

theorem answer_slots_none (status data : String) : (answer s none status data).slots = s.slots := by
  simp [answer,putResult,putStatus]

theorem answer_slots_some (i : Nat) (status data : String) : (answer s (some i) status data).slots =
    s.slots.modify i ({ · with status := clip 256 status, data := clip 4096 data }) := by
  simp only [answer,putResult,putStatus,State.setSlot,modify_modify_eq]
  rfl

theorem allocSession_frame {next : State} (owner : String) (allocated : allocSession cfg s owner = .ok next) :
    next = { s with slots := next.slots } ∧ s.slots.length ≤ next.slots.length ∧
    pickSlot cfg s.slots < next.slots.length := by
  unfold allocSession at allocated
  split at allocated
  · cases allocated
  · cases allocated
    refine ⟨rfl,?_,?_⟩
    · split <;> simp
    · have bound : pickSlot cfg s.slots ≤ s.slots.length := findIdx_le_length
      rw [length_modify]
      split
      · assumption
      · rw [length_append]
        exact Nat.lt_succ_of_le bound

end Frames

section Walks

variable {cfg : Config} {s next : State} {id : Nat} {f : Fid}

theorem walkfile_view (walked : walkfile cfg n old [.view] = some file) :
    old = .root ∧ file = .top .view ∨ ∃ i, old = .slot i ∧ file = .inSlot i .view := by
  replace walked : walkfile1 cfg n old .view = some file := by simpa [walkfile] using walked
  cases old with
  | root =>
    simp only [walkfile1] at walked
    split at walked
    · cases walked
    · cases walked
      exact .inl ⟨rfl,rfl⟩
  | slot i =>
    simp only [walkfile1] at walked
    split at walked
    · cases walked
      exact .inr ⟨i,rfl,rfl⟩
    · cases walked
  | top | inSlot => simp [walkfile1] at walked

/-- What a walk that succeeds has found and done. -/
inductive Walked (cfg : Config) (s : State) (id : Nat) (f : Fid) (names : List Name) : State → Prop where
  | here (named : names = [.dot]) (allowed : authorize cfg s f = true) : Walked cfg s id f names s
  | freed (holds : f.view = some v) (gone : s.views[v]?.join = none) :
      Walked cfg s id f names { s with fault := true }
  | enter (fixed : f.place = .fixed old) (named : names = [.view]) (allowed : authorize cfg s f = true)
      (reached : walkfile cfg s.slots.length old names = some file)
      (passes : sessionGuard cfg s.slots f.uid file f.generation = some generation)
      (known : old = .root ∨ f.generation ≠ 0) (holds : f.view = some v) :
      Walked cfg s id f names (s.setFid id { f with place := .tree old [] [], generation := generation })
  | move (fixed : f.place = .fixed old) (allowed : authorize cfg s f = true)
      (reached : walkfile cfg s.slots.length old names = some file)
      (passes : sessionGuard cfg s.slots f.uid file f.generation = some generation) :
      Walked cfg s id f names (settle cfg s id { f with
        place := .fixed file
        generation := generation
        entered := f.enteredAt s.slots file } file)
  | climb (tree : f.place = .tree parent stack path) (allowed : authorize cfg s f = true)
      (holds : f.view = some v) (below : place.file = parent) :
      Walked cfg s id f names (s.setFid id { f with place := place })

theorem walk1_walked (walked : walk1 cfg s id f names alive found = .ok next) : Walked cfg s id f names next := by
  revert walked
  fun_cases walk1 cfg s id f names alive found <;> rintro ⟨⟩
  case case1 named allowed => exact .here named allowed
  case case7 holds gone | case12 holds gone => exact .freed holds (isNone_iff_eq_none.mp gone)
  case case9 old fixed allowed file reached generation passes named v holds _ _ =>
    exact .enter fixed named.1 (by simpa using allowed) reached passes named.2 holds
  case case10 old fixed allowed file reached generation passes _ =>
    exact .move fixed (by simpa using allowed) reached passes
  case case15 v holds _ _ allowed _ tree | case16 v holds _ _ allowed _ _ _ tree
    | case18 tree v holds _ _ allowed _ _ => exact .climb tree (by simpa using allowed) holds rfl

end Walks

section Steps

/-- What a command that succeeds has done. -/
inductive Commanded (cfg : Config) (s : State) (id : Nat) (f : Fid) (session : Option Nat) : State → Prop where
  | viewClosed (holds : f.view = some v) :
      Commanded cfg s id f session (putStatus (s.deactivate v) session "ok\n")
  | closed (named : session = some i) : Commanded cfg s id f session (closeSession cfg s i)
  | nothing : Commanded cfg s id f session s
  | login {user pass : String} (single : cfg.multiuser = false) (named : session = some i) :
      Commanded cfg s id f session (s.wait (.login id i user pass (s.conversation session)))
  | logout (named : session = some i) :
      Commanded cfg s id f session (s.setSlot i
        ({ · with blessed := false, authuser := "", status := "ok logout\n", data := "" }))
  | answered : Commanded cfg s id f session (answer s session status data)
  | called : Commanded cfg s id f session (s.wait (.call id session (s.conversation session)))

/-- What a step has found and done. -/
inductive Stepped (cfg : Config) (s : State) : Op → State → Prop where
  | attach : Stepped cfg s (.attach uid controller) (attach cfg s uid controller)
  | clone (found : s.fid? n = some f) (shut : f.isOpen = false) : Stepped cfg s (.clone n) (cloneFid s f)
  | walk (found : s.fid? n = some f) (shut : f.isOpen = false) (walked : Walked cfg s n f names t) :
      Stepped cfg s (.walk n names alive entry) t
  | openFile (found : s.fid? n = some f) (shut : f.isOpen = false) (allowed : authorize cfg s f = true)
      (fixed : f.place = .fixed file) (plain : file.isDir = false) :
      Stepped cfg s (.open n reads alive) ((s.addRef file 1).setFid n { f with isOpen := true })
  | openDir (found : s.fid? n = some f) (shut : f.isOpen = false) (allowed : authorize cfg s f = true)
      (fixed : f.place = .fixed file) (dir : file.isDir = true) :
      Stepped cfg s (.open n reads alive) (s.setFid n { f with isOpen := true })
  | openTree (found : s.fid? n = some f) (shut : f.isOpen = false) (allowed : authorize cfg s f = true)
      (tree : f.place = .tree parent stack path) :
      Stepped cfg s (.open n reads alive) (s.setFid n { f with isOpen := true })
  | openFreed (found : s.fid? n = some f) (holds : f.view = some v) (gone : s.views[v]?.join = none) :
      Stepped cfg s (.open n reads alive) { s with fault := true }
  | handed (found : s.fid? n = some f) (single : cfg.multiuser = false)
      (allocated : allocSession cfg s f.uid = .ok t) : Stepped cfg s (.readClone n starts) t
  | starting (found : s.fid? n = some f) (multi : cfg.multiuser = true)
      (allocated : allocSession cfg s f.uid = .ok mid) :
      Stepped cfg s (.readClone n true) (mid.wait (.start n (pickSlot cfg s.slots)))
  | refused (found : s.fid? n = some f) (multi : cfg.multiuser = true)
      (allocated : allocSession cfg s f.uid = .ok mid) :
      Stepped cfg s (.readClone n false) (closeSession cfg mid (pickSlot cfg s.slots))
  | write (found : s.fid? n = some f) (opened : f.isOpen = true) (allowed : authorize cfg s f = true)
      (ctl : f.place = .fixed (.inSlot i .ctl) ∧ session = some i ∨ f.place = .fixed (.top .ctl) ∧ session = none)
      (done : command cfg s n f session line = .ok t) : Stepped cfg s (.write n line) t
  | started (waits : s.waiting[req]?.join = some (.start n i)) :
      Stepped cfg s (.displayed req true) (sessionStarted (s.finish req) i)
  | notStarted (waits : s.waiting[req]?.join = some (.start n i)) :
      Stepped cfg s (.displayed req false) (closeSession cfg (s.finish req) i)
  | attached (waits : s.waiting[req]?.join = some (.attach n)) (found : s.fid? n = some f) :
      Stepped cfg s (.displayed req true)
        ((s.finish req).newView.setFid n { f with view := some s.views.length })
  | notAttached (waits : s.waiting[req]?.join = some (.attach n)) :
      Stepped cfg s (.displayed req false) (s.finish req)
  | loggedIn {user pass : String} (waits : s.waiting[req]?.join = some (.login n i user pass conversation)) :
      Stepped cfg s (.loggedIn req server err)
        ((s.finish req).setSlot i (Slot.loggedIn user (authLogin user pass server err)))
  | replied (waits : s.waiting[req]?.join = some (.call n session conversation))
      (done : replied s req reply = .ok (answer (s.finish req) session status data)) :
      Stepped cfg s (.replied req reply) (answer (s.finish req) session status data)
  | destroy (found : s.fid? n = some f) (idle : ∀ w, some w ∈ s.waiting → w.fid ≠ n) :
      Stepped cfg s (.destroy n) (destroyFid s n f)

variable {cfg : Config} {s next : State} {id : Nat} {f : Fid}

theorem command_commanded (done : command cfg s id f session line = .ok next) :
    Commanded cfg s id f session next := by
  revert done
  fun_cases command cfg s id f session line <;> rintro ⟨⟩
  case case2 holds => exact .viewClosed holds
  case case4 => exact .closed rfl
  case case5 => exact .nothing
  case case8 single _ _ _ => exact .login (by simpa using single) rfl
  case case11 => exact .logout rfl
  case case18 => exact .called
  all_goals exact .answered

theorem openFid_stepped (found : s.fid? id = some f) (opened : openFid cfg s id f reads alive = .ok next) :
    Stepped cfg s (.open id reads alive) next := by
  revert opened
  fun_cases openFid cfg s id f reads alive <;> rintro ⟨⟩
  case case3 shut allowed file fixed plain =>
    exact .openFile found (by simpa using shut) (by simpa using allowed) fixed (by simpa using plain)
  case case5 shut allowed file fixed dir _ =>
    exact .openDir found (by simpa using shut) (by simpa using allowed) fixed (by simpa using dir)
  case case7 holds gone => exact .openFreed found holds (isNone_iff_eq_none.mp gone)
  case case9 shut allowed parent stack path tree _ _ _ _ =>
    exact .openTree found (by simpa using shut) (by simpa using allowed) tree

theorem readClone_stepped (found : s.fid? id = some f) (done : readClone cfg s id f starts = .ok next) :
    Stepped cfg s (.readClone id starts) next := by
  revert done
  fun_cases readClone cfg s id f starts <;> rintro ⟨⟩
  case case4 single allocated => exact .handed found (by simpa using single) allocated
  case case5 allocated multi is =>
    obtain rfl := is
    exact .starting found (by simpa using multi) allocated
  case case6 allocated multi is =>
    obtain rfl : starts = false := by simpa using is
    exact .refused found (by simpa using multi) allocated

theorem write_stepped (found : s.fid? id = some f) (done : write cfg s id f line = .ok next) :
    Stepped cfg s (.write id line) next := by
  unfold write at done
  split at done
  · cases done
  next passes =>
    simp only [Bool.or_eq_true,Bool.not_eq_true',not_or,Bool.not_eq_false] at passes
    split at done
    next ctl => exact .write found passes.1 passes.2 (.inl ⟨ctl,rfl⟩) done
    next ctl => exact .write (i := 0) found passes.1 passes.2 (.inr ⟨ctl,rfl⟩) done
    · cases done

theorem displayed_stepped (done : displayed cfg s req tree = .ok next) :
    Stepped cfg s (.displayed req tree) next := by
  unfold displayed at done
  split at done
  next waits =>
    cases tree <;> cases done
    · exact .notStarted waits
    · exact .started waits
  next waits =>
    dsimp only at done
    split at done
    next found =>
      cases tree <;> cases done
      · exact .notAttached waits
      · exact .attached waits found
    next => cases done
  next => cases done

theorem replied_stepped (done : replied s req reply = .ok next) : Stepped cfg s (.replied req reply) next := by
  have whole := done
  unfold replied at done
  split at done
  next waits => cases reply <;> cases done <;> exact .replied waits whole
  next => cases done

theorem handle_stepped (op : Op) (done : handle cfg op s = .ok next) : Stepped cfg s op next := by
  revert done
  fun_cases handle cfg op s <;> try rintro ⟨⟩
  case case1 => exact .attach
  case case2 => exact displayed_stepped
  case case3 req server err =>
    fun_cases loggedIn s req server err <;> rintro ⟨⟩
    case case1 waits => exact .loggedIn waits
  case case4 => exact replied_stepped
  case case6 found shut => exact .clone found (by simpa using shut)
  case case9 found shut =>
    intro done
    exact .walk found (by simpa using shut) (walk1_walked done)
  case case11 found => exact openFid_stepped found
  case case13 found => exact readClone_stepped found
  case case15 found => exact write_stepped found
  case case18 found idle =>
    refine .destroy found fun w waits same => idle ?_
    rw [List.any_eq_true]
    exact ⟨some w,waits,by simpa using same⟩

theorem step_stepped (stepped : step cfg op s = some next) : Stepped cfg s op next := by
  refine handle_stepped op ?_
  cases handled : handle cfg op s with
  | ok => simpa [step,handled,Except.toOption] using stepped
  | error => simp [step,handled,Except.toOption] at stepped

end Steps

end Objective9c.Facade
