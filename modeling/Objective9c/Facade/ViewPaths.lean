import Objective9c.Facade.Served
import Objective9c.Filetree.Lasting

/-! The fids of `o9_view.c`. A fid in a view keeps a stack of the entries it walked through and,
apart from it, the text of the path; `..` cuts the text at its last slash. -/
namespace Objective9c.ViewPaths

open List Option Transition
open Filetree (Store Addr Bytes)
open Facade (cutPath joinPath)

structure Qid where
  path : UInt64
  vers : UInt32
  type : UInt8
  deriving DecidableEq

/-- `O9View`, told apart by a number; whether it is active is asked with each walk. -/
structure View where
  number : Nat
  tree : Addr
  deriving DecidableEq

inductive Kind where
  | fixed | tree
  deriving DecidableEq

/-- `O9ViewFid` with the qid lib9p keeps in the fid. `depth` is the length of `stack`, and a path
is missing when `view_ctx` could not copy the empty string. -/
structure Fid (File : Type) where
  kind : Kind
  generation : Nat
  view : Option View
  fixed : Option File
  viewParent : Option File
  entry : Addr
  stack : List Addr
  cap : Nat
  path : Option Bytes
  qid : Qid
  deriving DecidableEq

/-- The facade's root file, whether sessions have views of their own, and `o9_file_qid`. -/
structure Setup (File : Type) where
  root : File
  sessionMode : Bool
  qid : File → Qid

/-- What the rest of the server answers during one walk: `v->active`, `view_authorize_fixed` with the new generation,
`walkfile`, `view_session_lookup`, and whether `realloc` and `malloc` have memory. -/
structure Answers (File : Type) where
  active : View → Bool
  guard : File → Nat → Option Nat
  walkfile : File → Bytes → Option File
  session : File → Option View
  realloc : Bool
  malloc : Bool

section Handlers

variable {File : Type} [DecidableEq File] (setup : Setup File) (s : Store)

/-- `view_qid` of an entry. -/
def viewQid (e : Addr) : Qid :=
  match s.entries e with
  | some x => ⟨(1 : UInt64) <<< 62 ||| (UInt64.ofNat x.id + 16),0,if x.kind = .dir then 0x80 else 0⟩
  | none => ⟨(1 : UInt64) <<< 62,0,0⟩

/-- `view_push`; `none` is the fault at a missing path. -/
def viewPush (answers : Answers File) (f : Fid File) (e : Addr) : Option (Fid File × Bool) :=
  let full := f.stack.length = f.cap
  if full ∧ !answers.realloc then some (f,false)
  else
    let f := { f with cap := if full then (if f.cap = 0 then 8 else f.cap * 2) else f.cap }
    match f.path with
    | none => none
    | some path =>
      if !answers.malloc then some (f,false)
      else some ({ f with
        path := some (joinPath path (s.nameOf e))
        stack := f.stack ++ [e]
        entry := e },true)

/-- `view_pop`, in a view with the tree `t`. -/
def viewPop (t : Addr) (f : Fid File) : Fid File :=
  if f.stack = [] then f
  else { f with
    stack := f.stack.dropLast
    entry := f.stack.dropLast.getLast?.getD (s.rootOf t)
    path := f.path.map cutPath }

/-- The view of a fid that walked to a file of the facade. -/
def sessionView (answers : Answers File) (view : Option View) (file : File) : Option View :=
  if setup.sessionMode then
    match answers.session file with
    | some v => some v
    | none => if file = setup.root then none else view
  else view

/-- `o9_view_walk1` outside a view. -/
def walkFixed (answers : Answers File) (f : Fid File) (name : Bytes) : Fid File × Option String :=
  match f.fixed with
  | none => (f,some "permission denied")
  | some old =>
    match answers.guard old f.generation with
    | none => (f,some "permission denied")
    | some _ =>
      match answers.walkfile old name with
      | none => (f,some "not found")
      | some file =>
        match answers.guard file f.generation with
        | none => (f,some "permission denied")
        | some generation =>
          if name = [118,105,101,119] ∧ (old = setup.root ∨ f.generation ≠ 0) then
            match f.view with
            | none => (f,some "view unavailable")
            | some v =>
              if !answers.active v then (f,some "view unavailable")
              else ({ f with
                viewParent := some old
                fixed := none
                kind := .tree
                generation
                entry := s.rootOf v.tree
                qid := viewQid s (s.rootOf v.tree) },none)
          else ({ f with
            fixed := some file
            generation
            view := sessionView setup answers f.view file
            qid := setup.qid file },none)

/-- `o9_view_walk1` in a view. -/
def walkTree (answers : Answers File) (f : Fid File) (name : Bytes) :
    Option (Fid File × Option String) :=
  match f.view with
  | none => some (f,some "view closed")
  | some v =>
    if !answers.active v || !s.treeAlive v.tree then some (f,some "view closed")
    else
      match f.viewParent with
      | none => none
      | some parent =>
        match answers.guard parent f.generation with
        | none => some (f,some "permission denied")
        | some _ =>
          if name = [46,46] then
            if f.stack = [] then
              some ({ f with
                kind := .fixed
                entry := Filetree.nil
                fixed := some parent
                viewParent := none
                qid := setup.qid parent },none)
            else
              let f := viewPop s v.tree f
              some ({ f with qid := viewQid s f.entry },none)
          else
            match Filetree.filetreeLookup s v.tree f.entry (some name) with
            | none => some (f,some "not found")
            | some e =>
              match viewPush s answers f e with
              | none => none
              | some (f,false) => some (f,some "no memory")
              | some (f,true) => some ({ f with qid := viewQid s e },none)

/-- `o9_view_walk1`, with lib9p's assignment of the qid; the text is the error. -/
def walk1 (answers : Answers File) (f : Fid File) (name : Bytes) : Option (Fid File × Option String) :=
  if name = [46] then
    match if f.kind = .fixed then f.fixed else f.viewParent with
    | none => some (f,some "permission denied")
    | some file =>
      if (answers.guard file f.generation).isNone then some (f,some "permission denied")
      else some (f,none)
  else
    match f.kind with
    | .fixed => some (walkFixed setup s answers f name)
    | .tree => walkTree setup s answers f name

/-- `o9_view_attach`; `copied` says whether `view_ctx` could copy the empty string. -/
def attached (view : Option View) (copied : Bool) : Fid File :=
  ⟨.fixed,0,view,some setup.root,none,Filetree.nil,[],0,if copied then some [] else none,
    setup.qid setup.root⟩

/-- `o9_view_clone`. -/
def viewClone (path stack : Bool) (f : Fid File) : Option (Fid File) :=
  if !path || (f.stack ≠ [] && !stack) then none
  else some { f with path := some (f.path.getD []), cap := f.stack.length }

end Handlers

/-- The file trees of the application and the fids of its clients, by number. -/
structure State (File : Type) where
  store : Store
  fids : List (Option (Fid File))

inductive Op (File : Type) where
  | attach (view : Option View) (copied : Bool)
  | walk (id : Nat) (name : Bytes) (answers : Answers File)
  | clone (id : Nat) (path stack : Bool)
  | clunk (id : Nat)
  | tree (op : Filetree.Op)

section Runs

variable {File : Type} [DecidableEq File] (setup : Setup File)

def initial : State File := ⟨.empty,[]⟩

def State.fid? (s : State File) (id : Nat) : Option (Fid File) := s.fids[id]?.join

def Fid.trees (s : Store) (f : Fid File) : List Addr :=
  (f.view.map View.tree).toList ++ f.stack.filterMap fun e => (s.entries e).map (·.tree)

/-- The trees of the views of fids, and of the entries on their stacks. -/
def State.trees (s : State File) : List Addr :=
  s.fids.flatMap fun f => (f.map (Fid.trees s.store)).getD []

def hasTree (s : Store) (t : Addr) : Bool := (s.trees t).isSome

/-- A fid comes to a view whose tree is there, and a tree is destroyed after the final fid that
uses it is clunked. -/
def step : Op File → State File → Option (State File)
  | .attach view copied, s =>
    if view.all (hasTree s.store ·.tree) then
      some { s with fids := s.fids ++ [some (attached setup view copied)] }
    else none
  | .walk id name answers, s =>
    match s.fid? id with
    | none => none
    | some f =>
      match walk1 setup s.store answers f name with
      | none => none
      | some (f,_) =>
        if f.view.all (hasTree s.store ·.tree) then some { s with fids := s.fids.set id (some f) }
        else none
  | .clone id path stack, s =>
    match s.fid? id with
    | none => none
    | some f =>
      match viewClone path stack f with
      | none => some s
      | some copy => some { s with fids := s.fids ++ [some copy] }
  | .clunk id, s => some { s with fids := s.fids.set id none }
  | .tree op, s =>
    match Filetree.step op s.store with
    | none => none
    | some store => if s.trees.all (hasTree store) then some { s with store } else none

end Runs

def joined (names : List Bytes) : Bytes := List.intercalate [47] names

theorem joined_concat (names : List Bytes) (name : Bytes) :
    joined (names ++ [name]) = if names = [] then name else joined names ++ 47 :: name := by
  induction names with
  | nil => simp [joined,intercalate]
  | cons first rest ih =>
    cases rest with
    | nil => simp [joined,intercalate]
    | cons second =>
      have tail (l : List Bytes) : joined (first :: second :: l) = first ++ 47 :: joined (second :: l) := by
        simp [joined,intercalate]
      rw [if_neg (by simp)] at ih
      rw [if_neg (by simp),cons_append,cons_append,tail,tail,append_assoc,
        cons_append,← ih,cons_append]

theorem joined_eq_nil (full : ∀ n ∈ names, n ≠ []) (empty : joined names = []) : names = [] := by
  rcases eq_nil_or_concat' names with rfl | ⟨init,last,rfl⟩
  · rfl
  · rw [joined_concat] at empty
    split at empty
    · exact absurd empty (full last (by simp))
    · simp at empty

theorem joinPath_joined (full : ∀ n ∈ names, n ≠ []) (name : Bytes) :
    joinPath (joined names) name = joined (names ++ [name]) := by
  rw [joined_concat,joinPath]
  by_cases empty : names = []
  · simp [empty,joined,intercalate]
  · rw [if_neg fun none => empty (joined_eq_nil full none),if_neg empty]

theorem cutPath_joined (names : List Bytes) (plain : 47 ∉ name) :
    cutPath (joined (names ++ [name])) = joined names := by
  have stops (rest : Bytes) : (name.reverse ++ rest).dropWhile (· ≠ 47) = rest.dropWhile (· ≠ 47) := by
    apply dropWhile_append_of_pos
    intro c member
    have other : c ≠ 47 := by rintro rfl; exact plain (mem_reverse.mp member)
    simpa using other
  rw [joined_concat,cutPath]
  split
  next empty =>
    have all := stops []
    rw [append_nil] at all
    rw [all,empty]
    rfl
  · rw [reverse_append,reverse_cons,append_assoc,stops]
    simp

section Invariant

variable {File : Type} {setup : Setup File} {s s' : Store} {f f' : Fid File}

/-- Where a fid is: the path is the text of its stack, and outside a view it has none. -/
structure Placed (setup : Setup File) (s : Store) (f : Fid File) : Prop where
  path : f.path.getD [] = joined (f.stack.map s.nameOf)
  named : ∀ e ∈ f.stack, ∃ x, s.entries e = some x ∧ Filetree.ftNameOk x.name = true
  has : ∀ v, f.view = some v → hasTree s v.tree = true
  outside : f.kind = .fixed → f.stack = [] ∧ f.entry = Filetree.nil ∧
    ∃ file, f.fixed = some file ∧ f.qid = setup.qid file
  inside : f.kind = .tree → ∃ v parent, f.view = some v ∧ f.viewParent = some parent ∧
    f.entry = f.stack.getLast?.getD (s.rootOf v.tree) ∧ f.qid = viewQid s f.entry

theorem attached_placed (view : Option View) (copied : Bool)
    (has : view.all (hasTree s ·.tree) = true) : Placed setup s (attached setup view copied) where
  path := by cases copied <;> rfl
  named := by simp [attached]
  has v same := by
    have same : view = some v := same
    simpa [same] using has
  outside _ := ⟨rfl,rfl,setup.root,rfl,rfl⟩
  inside := nofun

theorem Placed.clone (placed : Placed setup s f) (copied : viewClone text stack f = some f') :
    Placed setup s f' := by
  unfold viewClone at copied
  split at copied
  · contradiction
  · cases copied
    exact ⟨placed.path,placed.named,placed.has,placed.outside,placed.inside⟩

theorem Placed.names_full (placed : Placed setup s f) : ∀ n ∈ f.stack.map s.nameOf, n ≠ [] := by
  intro n member
  obtain ⟨e,onStack,rfl⟩ := mem_map.mp member
  obtain ⟨x,hx,ok⟩ := placed.named e onStack
  intro empty
  have named : s.nameOf e = x.name := by simp [Store.nameOf,hx]
  rw [← named,empty] at ok
  contradiction

theorem Placed.plain (placed : Placed setup s f) (member : e ∈ f.stack) : (47 : UInt8) ∉ s.nameOf e := by
  obtain ⟨x,hx,ok⟩ := placed.named e member
  have named : s.nameOf e = x.name := by simp [Store.nameOf,hx]
  rw [named]
  exact Filetree.ftNameOk_slash ok

theorem viewPush_cases (pushed : viewPush s answers f e = some (f',done)) :
    ∃ cap, (done = false ∧ f' = { f with cap }) ∨ ∃ path, f.path = some path ∧ done = true ∧
      f' = { f with cap, path := some (joinPath path (s.nameOf e)), stack := f.stack ++ [e], entry := e } := by
  unfold viewPush at pushed
  dsimp only at pushed
  split at pushed
  · cases pushed
    exact ⟨f.cap,.inl ⟨rfl,rfl⟩⟩
  split at pushed
  · contradiction
  next path known =>
    split at pushed
    · cases pushed
      exact ⟨_,.inl ⟨rfl,rfl⟩⟩
    · cases pushed
      exact ⟨_,.inr ⟨path,known,rfl,rfl⟩⟩

theorem walkTree_cases (walked : walkTree setup s answers f name = some (f',error)) :
    (∃ cap, f' = { f with cap } ∧ error ≠ none) ∨ ∃ v, f.view = some v ∧ error = none ∧
      ((name = [46,46] ∧ f.stack = [] ∧ ∃ parent, f.viewParent = some parent ∧ f' = { f with
          kind := .fixed, entry := Filetree.nil, fixed := some parent, viewParent := none
          qid := setup.qid parent }) ∨
        (name = [46,46] ∧ f.stack ≠ [] ∧ f' = { f with
          stack := f.stack.dropLast, entry := f.stack.dropLast.getLast?.getD (s.rootOf v.tree)
          path := f.path.map cutPath
          qid := viewQid s (f.stack.dropLast.getLast?.getD (s.rootOf v.tree)) }) ∨
        ∃ e path cap, name ≠ [46,46] ∧ Filetree.filetreeLookup s v.tree f.entry (some name) = some e ∧
          f.path = some path ∧ f' = { f with
            cap, path := some (joinPath path (s.nameOf e)), stack := f.stack ++ [e], entry := e
            qid := viewQid s e }) := by
  revert walked
  fun_cases walkTree setup s answers f name <;> rintro ⟨⟩
  case case5 v view _ parent known _ _ up empty =>
    exact .inr ⟨v,view,rfl,.inl ⟨up,empty,parent,known,rfl⟩⟩
  case case6 v view _ parent known _ _ up deep popped =>
    refine .inr ⟨v,view,rfl,.inr (.inl ⟨up,deep,?_⟩)⟩
    simp only [popped,viewPop,deep,↓reduceIte]
  case case9 pushed =>
    obtain ⟨cap,⟨_,rfl⟩ | ⟨_,_,impossible,_⟩⟩ := viewPush_cases pushed
    · exact .inl ⟨cap,rfl,nofun⟩
    · contradiction
  case case10 v view _ _ _ _ _ down e found same pushed =>
    obtain ⟨cap,⟨impossible,_⟩ | ⟨path,text,_,rfl⟩⟩ := viewPush_cases pushed
    · contradiction
    · exact .inr ⟨v,view,rfl,.inr (.inr ⟨e,path,cap,down,found,text,rfl⟩)⟩
  all_goals exact .inl ⟨f.cap,rfl,nofun⟩

theorem cutPath_getD (path : Option Bytes) : (path.map cutPath).getD [] = cutPath (path.getD []) := by
  cases path <;> rfl

theorem Placed.walkTree (wf : Filetree.WellFormed s) (tagged : s.Tagged) (placed : Placed setup s f)
    (kind : f.kind = .tree) (walked : walkTree setup s answers f name = some (f',error)) : Placed setup s f' := by
  obtain ⟨v,parent,view,known,entry,_⟩ := placed.inside kind
  have inside (P : Prop) (outside : f.kind = .fixed) : P := by
    rw [kind] at outside
    contradiction
  rcases walkTree_cases walked with ⟨cap,rfl,_⟩ | ⟨v',view',_,leaving | popping | pushing⟩
  · exact ⟨placed.path,placed.named,placed.has,placed.outside,placed.inside⟩
  · obtain ⟨_,empty,parent',known',rfl⟩ := leaving
    exact ⟨placed.path,placed.named,placed.has,fun _ => ⟨empty,rfl,parent',rfl,rfl⟩,nofun⟩
  · obtain ⟨_,deep,rfl⟩ := popping
    cases view.symm.trans view'
    have top : f.stack.dropLast ++ [f.stack.getLast deep] = f.stack := dropLast_append_getLast deep
    refine ⟨?_,fun e member => placed.named e (dropLast_subset _ member),placed.has,inside _,
      fun _ => ⟨v,parent,view,known,rfl,rfl⟩⟩
    have text := placed.path
    rw [← top,map_append,map_singleton] at text
    rw [cutPath_getD,text,cutPath_joined _ (placed.plain (getLast_mem deep))]
  · obtain ⟨e,path,cap,_,found,text,rfl⟩ := pushing
    obtain ⟨x,hx,named,ok⟩ := Filetree.filetreeLookup_ok wf tagged found
    refine ⟨?_,fun e' member => ?_,placed.has,inside _,fun _ => ⟨v,parent,view,known,by simp,rfl⟩⟩
    · have before := placed.path
      rw [text,getD_some] at before
      rw [map_append,map_singleton,← joinPath_joined placed.names_full,← before]
      rfl
    · rcases mem_append.mp member with old | new
      · exact placed.named e' old
      · obtain rfl := mem_singleton.mp new
        exact ⟨x,hx,named ▸ ok⟩

end Invariant

section Walks

variable {File : Type} [DecidableEq File] {setup : Setup File} {s s' : Store} {f f' : Fid File}

theorem walkFixed_cases (walked : walkFixed setup s answers f name = (f',error)) :
    (f' = f ∧ error ≠ none) ∨ ∃ old, f.fixed = some old ∧ error = none ∧
      ((∃ v generation, name = [118,105,101,119] ∧ f.view = some v ∧ f' = { f with
          viewParent := some old, fixed := none, kind := .tree, generation
          entry := s.rootOf v.tree, qid := viewQid s (s.rootOf v.tree) }) ∨
        ∃ file generation view, answers.walkfile old name = some file ∧ f' = { f with
          fixed := some file, generation, view, qid := setup.qid file }) := by
  revert walked
  fun_cases walkFixed setup s answers f name <;> rintro ⟨⟩
  case case7 old known _ _ _ _ generation _ entering v view _ =>
    exact .inr ⟨old,known,rfl,.inl ⟨v,generation,entering.1,view,rfl⟩⟩
  case case8 old known _ _ file found generation _ _ =>
    exact .inr ⟨old,known,rfl,.inr ⟨file,generation,_,found,rfl⟩⟩
  all_goals exact .inl ⟨rfl,nofun⟩

theorem Placed.walkFixed (placed : Placed setup s f) (kind : f.kind = .fixed)
    (walked : walkFixed setup s answers f name = (f',error))
    (has : f'.view.all (hasTree s ·.tree) = true) : Placed setup s f' := by
  obtain ⟨empty,noEntry,file,known,_⟩ := placed.outside kind
  rcases walkFixed_cases walked with ⟨rfl,_⟩ | ⟨old,_,_,entering | moving⟩
  · exact placed
  · obtain ⟨v,generation,_,view,rfl⟩ := entering
    exact ⟨placed.path,placed.named,placed.has,nofun,
      fun _ => ⟨v,old,view,rfl,by simp [empty],rfl⟩⟩
  · obtain ⟨file,generation,view,_,rfl⟩ := moving
    refine ⟨placed.path,placed.named,fun v same => ?_,fun _ => ⟨empty,noEntry,file,rfl,rfl⟩,?_⟩
    · have same : view = some v := same
      simpa [same] using has
    · intro inside
      rw [kind] at inside
      contradiction

theorem Placed.walk1 (wf : Filetree.WellFormed s) (tagged : s.Tagged) (placed : Placed setup s f)
    (walked : walk1 setup s answers f name = some (f',error))
    (has : f'.view.all (hasTree s ·.tree) = true) : Placed setup s f' := by
  revert walked
  fun_cases ViewPaths.walk1 setup s answers f name <;> intro walked
  case case4 kind => exact placed.walkFixed kind (some.inj walked) has
  case case5 kind => exact placed.walkTree wf tagged kind walked
  all_goals
    cases walked
    exact placed

end Walks

section Lasting

variable {File : Type} {setup : Setup File} {s s' : Store} {f : Fid File}

/-- A tree and its entries are still there. -/
structure Keeps (s s' : Store) (t : Addr) : Prop where
  has : hasTree s' t = true
  root : s'.rootOf t = s.rootOf t
  entry : ∀ a x, s.entries a = some x → x.tree = t → ∃ x', s'.entries a = some x' ∧ x.Lasts x'

theorem Keeps.refl (has : hasTree s t = true) : Keeps s s t :=
  ⟨has,rfl,fun _ x hx _ => ⟨x,hx,.refl x⟩⟩

theorem Keeps.trans (first : Keeps s s' t) (second : Keeps s' s'' t) : Keeps s s'' t := by
  refine ⟨second.has,second.root.trans first.root,fun a x hx home => ?_⟩
  obtain ⟨x',hx',lasts⟩ := first.entry a x hx home
  obtain ⟨x'',hx'',again⟩ := second.entry a x' hx' (lasts.tree.trans home)
  exact ⟨x'',hx'',again.name.trans lasts.name,again.id.trans lasts.id,again.kind.trans lasts.kind,
    again.tree.trans lasts.tree,again.parent.trans lasts.parent⟩

theorem keeps_of_change (wf : Filetree.WellFormed s) (change : Filetree.Change s s')
    (has : hasTree s t = true) (stays : hasTree s' t = true) : Keeps s s' t :=
  ⟨stays,change.rootOf has stays,fun _ _ hx home => change.lasts wf hx (home ▸ stays)⟩

theorem Placed.has_trees (wf : Filetree.WellFormed s) (placed : Placed setup s f)
    (used : t ∈ f.trees s) : hasTree s t = true := by
  rcases mem_append.mp used with view | entry
  · obtain ⟨v,same,rfl⟩ := map_eq_some_iff.mp (mem_toList.mp view)
    exact placed.has v same
  · obtain ⟨e,_,home⟩ := mem_filterMap.mp entry
    obtain ⟨x,hx,rfl⟩ := map_eq_some_iff.mp home
    obtain ⟨tree,ht,_⟩ := wf.home e x hx
    simp [hasTree,ht]

theorem mem_trees_of_view (view : f.view = some v) : v.tree ∈ f.trees s := by
  simp [Fid.trees,view]

theorem mem_trees_of_stack (member : e ∈ f.stack) (hx : s.entries e = some x) : x.tree ∈ f.trees s := by
  refine mem_append_right _ (mem_filterMap.mpr ⟨e,member,?_⟩)
  simp [hx]

theorem Placed.entry_used (wf : Filetree.WellFormed s) (placed : Placed setup s f)
    (kind : f.kind = .tree) : ∃ x, s.entries f.entry = some x ∧ x.tree ∈ f.trees s := by
  obtain ⟨v,_,view,_,entry,_⟩ := placed.inside kind
  cases top : f.stack.getLast? with
  | none =>
    rw [top,getD_none] at entry
    have has := placed.has v view
    obtain ⟨tree,ht⟩ := isSome_iff_exists.mp has
    obtain ⟨x,hx,home⟩ := wf.member v.tree tree ht tree.root (wf.root v.tree tree ht).1
    refine ⟨x,?_,home ▸ mem_trees_of_view view⟩
    rw [entry,Store.rootOf,ht]
    exact hx
  | some e =>
    rw [top,getD_some] at entry
    have member := mem_of_getLast? top
    obtain ⟨x,hx,_⟩ := placed.named e member
    exact ⟨x,entry ▸ hx,mem_trees_of_stack member hx⟩

theorem trees_pushed (used : t ∈ f.trees s) :
    t ∈ Fid.trees s { f with cap, path, stack := f.stack ++ [e], entry := e', qid } := by
  rcases mem_append.mp used with view | entry
  · exact mem_append_left _ view
  · refine mem_append_right _ ?_
    rw [filterMap_append]
    exact mem_append_left _ entry

theorem Placed.nameOf_keeps (placed : Placed setup s f) (keeps : ∀ t ∈ f.trees s, Keeps s s' t)
    (member : e ∈ f.stack) : s'.nameOf e = s.nameOf e := by
  obtain ⟨x,hx,_⟩ := placed.named e member
  obtain ⟨x',hx',lasts⟩ := (keeps _ (mem_trees_of_stack member hx)).entry e x hx rfl
  simp only [Store.nameOf,hx,hx',lasts.name]

theorem Placed.trees_keeps (placed : Placed setup s f) (keeps : ∀ t ∈ f.trees s, Keeps s s' t) :
    f.trees s' = f.trees s := by
  unfold Fid.trees
  congr 1
  apply filterMap_congr
  intro e member
  obtain ⟨x,hx,_⟩ := placed.named e member
  obtain ⟨x',hx',lasts⟩ := (keeps _ (mem_trees_of_stack member hx)).entry e x hx rfl
  simp [hx,hx',lasts.tree]

theorem Placed.qid_keeps (wf : Filetree.WellFormed s) (placed : Placed setup s f)
    (keeps : ∀ t ∈ f.trees s, Keeps s s' t) (kind : f.kind = .tree) : viewQid s' f.entry = viewQid s f.entry := by
  obtain ⟨x,hx,used⟩ := placed.entry_used wf kind
  obtain ⟨x',hx',lasts⟩ := (keeps _ used).entry _ x hx rfl
  simp only [viewQid,hx,hx',lasts.id,lasts.kind]

theorem Placed.keeps (wf : Filetree.WellFormed s) (placed : Placed setup s f)
    (keeps : ∀ t ∈ f.trees s, Keeps s s' t) : Placed setup s' f where
  path := by
    rw [placed.path]
    congr 1
    exact map_congr_left fun e member => (placed.nameOf_keeps keeps member).symm
  named e member := by
    obtain ⟨x,hx,ok⟩ := placed.named e member
    obtain ⟨x',hx',lasts⟩ := (keeps _ (mem_trees_of_stack member hx)).entry e x hx rfl
    exact ⟨x',hx',lasts.name ▸ ok⟩
  has v view := (keeps _ (mem_trees_of_view view)).has
  outside := placed.outside
  inside kind := by
    obtain ⟨v,parent,view,known,entry,qid⟩ := placed.inside kind
    refine ⟨v,parent,view,known,?_,qid.trans (placed.qid_keeps wf keeps kind).symm⟩
    rw [(keeps _ (mem_trees_of_view view)).root]
    exact entry

end Lasting

structure Sound (setup : Setup File) (s : State File) : Prop where
  wf : Filetree.WellFormed s.store
  tagged : s.store.Tagged
  placed : ∀ id f, s.fid? id = some f → Placed setup s.store f

/-- What a step does: it sets or adds one fid, drops one, or changes the trees and keeps those in use. -/
inductive Moved {File : Type} [DecidableEq File] (setup : Setup File) (s : State File) :
    Op File → State File → Prop where
  | attach (view copied g) : Placed setup s.store g →
      Moved setup s (.attach view copied) { s with fids := s.fids ++ [some g] }
  | walk (id name answers f f' error) : s.fid? id = some f →
      walk1 setup s.store answers f name = some (f',error) → Placed setup s.store f' →
      Moved setup s (.walk id name answers) { s with fids := s.fids.set id (some f') }
  | clone (id text stack g) : Placed setup s.store g →
      Moved setup s (.clone id text stack) { s with fids := s.fids ++ [some g] }
  | failed (id text stack) : Moved setup s (.clone id text stack) s
  | clunk (id) : Moved setup s (.clunk id) { s with fids := s.fids.set id none }
  | tree (op store) : Filetree.WellFormed store → store.Tagged →
      (∀ id f, s.fid? id = some f → ∀ t ∈ f.trees s.store, Keeps s.store store t) →
      Moved setup s (.tree op) { s with store }

def Op.fid {File : Type} : Op File → Option Nat
  | .walk id _ _ | .clunk id => some id
  | .attach _ _ | .clone _ _ _ | .tree _ => none

section Fids

variable {File : Type} {setup : Setup File} {f g : Fid File} {id : Nat}

theorem initial_sound : Sound setup (initial : State File) :=
  ⟨Filetree.empty_wellFormed,Filetree.empty_tagged,by simp [initial,State.fid?]⟩

theorem fid?_append (fids : List (Option (Fid File))) (store : Store)
    (found : State.fid? ⟨store,fids ++ [some g]⟩ id = some f) : State.fid? ⟨store,fids⟩ id = some f ∨ f = g := by
  rw [State.fid?,join_eq_some_iff] at found
  rcases Nat.lt_or_ge id fids.length with old | new
  · rw [getElem?_append_left old] at found
    exact .inl (by rw [State.fid?,join_eq_some_iff]; exact found)
  · rw [getElem?_append_right new] at found
    have member := mem_of_getElem? found
    simp only [mem_singleton,some.injEq] at member
    exact .inr member

theorem fid?_set (fids : List (Option (Fid File))) (store : Store) (place : Nat) (new : Option (Fid File))
    (found : State.fid? ⟨store,fids.set place new⟩ id = some f) :
    State.fid? ⟨store,fids⟩ id = some f ∨ new = some f := by
  rw [State.fid?,join_eq_some_iff,getElem?_set] at found
  split at found
  · split at found
    · exact .inr (some.inj found)
    · contradiction
  · exact .inl (by rw [State.fid?,join_eq_some_iff]; exact found)

theorem mem_state_trees {s : State File} (found : s.fid? id = some f) (used : t ∈ f.trees s.store) :
    t ∈ s.trees := by
  rw [State.fid?,join_eq_some_iff] at found
  exact mem_flatMap.mpr ⟨some f,mem_of_getElem? found,used⟩

theorem fid?_kept_append {s : State File} (found : s.fid? id = some f) (g : Option (Fid File)) :
    State.fid? { s with fids := s.fids ++ [g] } id = some f := by
  rw [State.fid?,join_eq_some_iff] at found ⊢
  have bound := (List.getElem?_eq_some_iff.mp found).1
  rw [getElem?_append_left bound]
  exact found

theorem fid?_kept_set {s : State File} (found : s.fid? id = some f) (other : place ≠ id)
    (g : Option (Fid File)) : State.fid? { s with fids := s.fids.set place g } id = some f := by
  rw [State.fid?,join_eq_some_iff] at found ⊢
  rw [getElem?_set_ne other]
  exact found

end Fids

section Reached

variable {File : Type} [DecidableEq File] {setup : Setup File} {s s' : State File} {id : Nat}

theorem step_moved (sound : Sound setup s) (stepped : step setup op s = some s') : Moved setup s op s' := by
  revert stepped
  fun_cases step setup op s <;> rintro ⟨⟩
  case case1 view copied has => exact .attach _ _ _ (attached_placed view copied has)
  case case5 id name answers f f' error found walked has =>
    exact .walk _ _ _ _ _ _ found walked ((sound.placed id f found).walk1 sound.wf sound.tagged walked has)
  case case8 => exact .failed _ _ _
  case case9 id _ _ f copy copied found => exact .clone _ _ _ _ ((sound.placed id f found).clone copied)
  case case10 id => exact .clunk id
  case case12 store changed stays =>
    have change := Filetree.step_change sound.wf changed
    refine .tree _ _ (Filetree.step_wellFormed sound.wf changed) (change.tagged sound.wf sound.tagged) ?_
    intro id f found t used
    exact keeps_of_change sound.wf change ((sound.placed id f found).has_trees sound.wf used)
      (all_eq_true.mp stays t (mem_state_trees found used))

theorem step_sound (sound : Sound setup s) (stepped : step setup op s = some s') : Sound setup s' := by
  have added (g : Fid File) (placed : Placed setup s.store g) :
      Sound setup { s with fids := s.fids ++ [some g] } := by
    refine ⟨sound.wf,sound.tagged,fun id f found => ?_⟩
    rcases fid?_append s.fids s.store found with old | rfl
    · exact sound.placed id f old
    · exact placed
  cases step_moved sound stepped with
  | attach _ _ g placed => exact added g placed
  | clone _ _ _ g placed => exact added g placed
  | walk _ _ _ f f' _ _ _ placed =>
    refine ⟨sound.wf,sound.tagged,fun id f found => ?_⟩
    rcases fid?_set s.fids s.store _ _ found with old | new
    · exact sound.placed id f old
    · cases new
      exact placed
  | failed => exact sound
  | clunk =>
    refine ⟨sound.wf,sound.tagged,fun id f found => ?_⟩
    rcases fid?_set s.fids s.store _ _ found with old | new
    · exact sound.placed id f old
    · contradiction
  | tree _ _ wf tagged keeps =>
    exact ⟨wf,tagged,fun id f found => (sound.placed id f found).keeps sound.wf (keeps id f found)⟩

theorem reached_sound (ran : run (step setup) ops initial = some s) : Sound setup s :=
  run_invariant (Sound setup) (fun _ _ _ sound stepped => step_sound sound stepped) ops
    _ _ initial_sound ran

theorem step_untouched (sound : Sound setup s) (stepped : step setup op s = some s')
    (other : op.fid ≠ some id) (found : s.fid? id = some f) :
    s'.fid? id = some f ∧ ∀ t ∈ f.trees s.store, Keeps s.store s'.store t := by
  have still (t : Addr) (used : t ∈ f.trees s.store) : Keeps s.store s.store t :=
    .refl ((sound.placed id f found).has_trees sound.wf used)
  cases step_moved sound stepped with
  | attach | clone => exact ⟨fid?_kept_append found _,still⟩
  | walk | clunk => exact ⟨fid?_kept_set found (fun same => other (congrArg some same)) _,still⟩
  | failed => exact ⟨found,still⟩
  | tree op store wf tagged keeps => exact ⟨found,keeps id f found⟩

theorem run_untouched (sound : Sound setup s) (ops : List (Op File))
    (ran : run (step setup) ops s = some s') (others : ∀ op ∈ ops, op.fid ≠ some id) (found : s.fid? id = some f) :
    s'.fid? id = some f ∧ ∀ t ∈ f.trees s.store, Keeps s.store s'.store t := by
  induction ops generalizing s with
  | nil =>
    cases ran
    exact ⟨found,fun t used => .refl ((sound.placed id f found).has_trees sound.wf used)⟩
  | cons op rest ih =>
    obtain ⟨next,stepped,ran⟩ := run_cons_some.mp ran
    obtain ⟨there,first⟩ := step_untouched sound stepped (others op mem_cons_self) found
    obtain ⟨still,second⟩ := ih (step_sound sound stepped) ran
      (fun op member => others op (mem_cons_of_mem _ member)) there
    refine ⟨still,fun t used => (first t used).trans (second t ?_)⟩
    rw [(sound.placed id f found).trees_keeps first]
    exact used

/-- lib9p's `walkfile` on one name: `..` is the parent, anything else is a child. -/
structure Answers.Walks (parent : File → File) (answers : Answers File) : Prop where
  up : ∀ file, answers.walkfile file [46,46] = some (parent file)
  down : ∀ file name child, name ≠ [46,46] → 47 ∉ name → answers.walkfile file name = some child →
    parent child = file

/-- A walk to a name and the next `..` of the fid, with anything done to the trees that keeps those
the fid uses in between. -/
theorem walk_back {s s' : Store} (placed : Placed setup s f) (wf : Filetree.WellFormed s)
    (down : answers.Walks parent) (up : answers'.Walks parent)
    (real : name ≠ [46]) (named : name ≠ [46,46]) (plain : 47 ∉ name)
    (walked : walk1 setup s answers f name = some (f₁,none)) (keeps : ∀ t ∈ f₁.trees s, Keeps s s' t)
    (back : walk1 setup s' answers' f₁ [46,46] = some (f₂,none)) :
    f₂.path = f.path ∧ f₂.entry = f.entry ∧ f₂.qid = f.qid := by
  unfold walk1 at walked back
  rw [if_neg real] at walked
  split at walked
  next kind =>
    obtain ⟨empty,noEntry,file,known,qid⟩ := placed.outside kind
    rcases walkFixed_cases (some.inj walked) with ⟨_,failed⟩ | ⟨old,known',_,entering | moving⟩
    · contradiction
    · obtain ⟨v,generation,_,view,rfl⟩ := entering
      cases known.symm.trans known'
      rcases walkTree_cases back with ⟨_,_,failed⟩ | ⟨_,_,_,leaving | popping | pushing⟩
      · contradiction
      · obtain ⟨_,_,parent',same,rfl⟩ := leaving
        cases same
        exact ⟨rfl,noEntry.symm,qid.symm⟩
      · exact absurd empty popping.2.1
      · obtain ⟨_,_,_,wrong,_⟩ := pushing
        exact absurd rfl wrong
    · obtain ⟨child,generation,view,stepped,rfl⟩ := moving
      cases known.symm.trans known'
      simp only [kind] at back
      rcases walkFixed_cases (some.inj back) with ⟨_,failed⟩ | ⟨_,here,_,entering | moving⟩
      · contradiction
      · obtain ⟨_,_,wrong,_⟩ := entering
        contradiction
      · obtain ⟨file',_,_,above,rfl⟩ := moving
        cases here
        rw [up.up,some.injEq] at above
        rw [down.down _ _ _ named plain stepped] at above
        subst above
        exact ⟨rfl,rfl,qid.symm⟩
  next kind =>
    obtain ⟨v,_,view,_,entry,qid⟩ := placed.inside kind
    rcases walkTree_cases walked with ⟨_,_,failed⟩ | ⟨v',view',_,leaving | popping | pushing⟩
    · contradiction
    · exact absurd leaving.1 named
    · exact absurd popping.1 named
    · obtain ⟨e,path,cap,_,found,text,rfl⟩ := pushing
      simp only [kind] at back
      rcases walkTree_cases back with ⟨_,_,failed⟩ | ⟨_,view'',_,leaving | popping | pushing⟩
      · contradiction
      · obtain ⟨_,empty,_⟩ := leaving
        simp at empty
      · obtain ⟨_,_,rfl⟩ := popping
        cases view.symm.trans view''
        have below (t : Addr) (used : t ∈ f.trees s) : Keeps s s' t := keeps t (trees_pushed used)
        have returned : f.stack.getLast?.getD (s'.rootOf v.tree) = f.entry := by
          rw [entry,(below v.tree (mem_trees_of_view view)).root]
        have cut : cutPath (joinPath path (s.nameOf e)) = path := by
          have before := placed.path
          rw [text,getD_some] at before
          rw [before,joinPath_joined placed.names_full,cutPath_joined]
          rw [Filetree.nameOf_of_named (Filetree.filetreeLookup_named found)]
          exact plain
        refine ⟨?_,?_,?_⟩
        · exact (congrArg some cut).trans text.symm
        · rw [← returned]
          simp
        · rw [qid,← placed.qid_keeps wf below kind,← returned]
          simp
      · obtain ⟨_,_,_,wrong,_⟩ := pushing
        exact absurd rfl wrong

theorem dotdot_succeeds {s : Store} (placed : Placed setup s f) (kind : f.kind = .tree)
    (view : f.view = some v) (active : answers.active v = true) (alive : s.treeAlive v.tree = true)
    (allowed : ∀ parent, f.viewParent = some parent → (answers.guard parent f.generation).isSome = true) :
    ∃ f', walk1 setup s answers f [46,46] = some (f',none) := by
  obtain ⟨_,parent,_,known,_⟩ := placed.inside kind
  obtain ⟨generation,answered⟩ := isSome_iff_exists.mp (allowed parent known)
  unfold walk1
  simp only [kind,walkTree,view,active,alive,known,answered]
  by_cases empty : f.stack = []
  · simp [empty]
  · simp [empty]

/-- A `..` of the fid gives back what the fid had before its last walk to a name, whatever others
did in between. -/
def Returns (setup : Setup File) (parent : File → File) (s : State File) (id : Nat) (f : Fid File) : Prop :=
  ∀ name answers f₁ s₁ others s₂ answers' f₂, name ≠ [46] → name ≠ [46,46] → 47 ∉ name →
    answers.Walks parent → answers'.Walks parent →
    walk1 setup s.store answers f name = some (f₁,none) → step setup (.walk id name answers) s = some s₁ →
    Transition.run (step setup) others s₁ = some s₂ → (∀ op ∈ others, op.fid ≠ some id) →
    walk1 setup s₂.store answers' f₁ [46,46] = some (f₂,none) →
    s₂.fid? id = some f₁ ∧ f₂.path = f.path ∧ f₂.entry = f.entry ∧ f₂.qid = f.qid

theorem returns_of_sound (sound : Sound setup s) (found : s.fid? id = some f) (parent : File → File) :
    Returns setup parent s id f := by
  intro name answers f₁ s₁ others s₂ answers' f₂ real named plain down up walked stepped ran apart back
  have there : s₁.store = s.store ∧ s₁.fid? id = some f₁ := by
    simp only [step,found,walked] at stepped
    split at stepped
    · cases stepped
      refine ⟨rfl,?_⟩
      rw [State.fid?,join_eq_some_iff] at found ⊢
      exact List.getElem?_set_self (List.getElem?_eq_some_iff.mp found).1
    · contradiction
  obtain ⟨still,keeps⟩ := run_untouched (step_sound sound stepped) others ran apart there.2
  rw [there.1] at keeps
  exact ⟨still,walk_back (sound.placed id f found) sound.wf down up real named plain walked keeps back⟩

/-- Whatever attaches, walks, clones, clunks and changes of the trees lead to, the path of a fid is the text of its
stack, its entry in a view is the top of the stack or the root of the tree, and `..` takes back a walk to a name. -/
theorem fids_keep_their_paths (parent : File → File) (ran : Transition.run (step setup) ops initial = some s)
    (found : s.fid? id = some f) :
    f.path.getD [] = joined (f.stack.map s.store.nameOf) ∧
    (f.kind = .tree → ∃ v, f.view = some v ∧ f.entry = f.stack.getLast?.getD (s.store.rootOf v.tree) ∧
      ∀ answers : Answers File, answers.active v = true → s.store.treeAlive v.tree = true →
        (∀ parent, f.viewParent = some parent → (answers.guard parent f.generation).isSome = true) →
        ∃ f', walk1 setup s.store answers f [46,46] = some (f',none)) ∧
    Returns setup parent s id f := by
  have sound := reached_sound ran
  have placed := sound.placed id f found
  refine ⟨placed.path,fun kind => ?_,returns_of_sound sound found parent⟩
  obtain ⟨v,_,view,_,entry,_⟩ := placed.inside kind
  exact ⟨v,view,entry,fun answers active alive allowed => dotdot_succeeds placed kind view active alive allowed⟩

end Reached

/-- A facade with a root and the directory `view`. -/
def small : Setup Bool := ⟨false,false,fun file => ⟨if file then 2 else 1,0,0x80⟩⟩

def smallAnswers : Answers Bool where
  active _ := true
  guard _ _ := some 0
  walkfile file name :=
    if name = [46,46] then some false
    else if file = false ∧ name = [118,105,101,119] then some true
    else none
  session _ := none
  realloc := true
  malloc := true

theorem smallAnswers_walks : smallAnswers.Walks fun _ => false where
  up _ := rfl
  down file name child named _ walked := by
    simp only [smallAnswers,named,↓reduceIte] at walked
    split at walked
    next there => exact there.1.symm
    · contradiction

/-- The view has the directory `a` with the file `a/f`; the fid is in the directory. -/
def walkedDown : List (Op Bool) :=
  [.tree (.new 7 1 2 true),.tree (.dir 7 1 (some [97]) ⟨true,3,true⟩),
    .tree (.live 7 1 (some [97,47,102]) 0 ⟨true,4,true⟩),.attach (some ⟨0,1⟩) true,
    .walk 0 [118,105,101,119] smallAnswers,.walk 0 [97] smallAnswers]

/-- The walk from `a` to `a/f` and back. -/
theorem walkedDown_returns : ∃ s f f₁ f₂, Transition.run (step small) walkedDown initial = some s ∧
    s.fid? 0 = some f ∧ f.path = some [97] ∧
    walk1 small s.store smallAnswers f [102] = some (f₁,none) ∧ f₁.path = some [97,47,102] ∧
    walk1 small s.store smallAnswers f₁ [46,46] = some (f₂,none) ∧
    f₂.path = f.path ∧ f₂.entry = f.entry ∧ f₂.qid = f.qid := by
  refine ⟨_,_,_,_,rfl,rfl,rfl,rfl,rfl,rfl,?_⟩
  have all := fids_keep_their_paths (fun _ => false)
    (show run (step small) walkedDown initial = _ from rfl) (show State.fid? _ 0 = _ from rfl)
  exact (all.2.2 [102] smallAnswers _ _ [] _ smallAnswers _ (by decide) (by decide) (by decide)
    smallAnswers_walks smallAnswers_walks rfl rfl rfl (by simp) rfl).2

end Objective9c.ViewPaths
