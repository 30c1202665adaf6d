import Objective9c.Lib.Flow

/-! Deferred calls. The compiler collects the `defer` statements of a method body while it writes the body out,
wherever they stand, and puts all of them at the `done` label that every exit goes through. -/
namespace Objective9c.Compiler

open List Flow Bool
open Flow (Behaviour)

/- The statements of a body, by what they do to control: `plain` ones go on, a checked `try` goes
on or leaves, `return` and `fail` leave. -/
mutual

inductive Stmts (α : Type) where
  | nil
  | plain (rest : Stmts α)
  | attempt (rest : Stmts α)
  | leave (rest : Stmts α)
  | defer (call : α) (rest : Stmts α)
  | cond (body : Stmts α) (clause : Clause α) (rest : Stmts α)
  | loop (body : Stmts α) (rest : Stmts α)
  | alt (arms : Arms α) (rest : Stmts α)

inductive Clause (α : Type) where
  | none
  | els (body : Stmts α)
  | elif (body : Stmts α) (clause : Clause α)

inductive Arms (α : Type) where
  | last (body : Stmts α)
  | arm (body : Stmts α) (rest : Arms α)

end

/-- The nodes of the parser, chained by `next`. -/
inductive Node (α : Type) where
  | nil
  | plain (next : Node α)
  | attempt (next : Node α)
  | leave (next : Node α)
  | defer (call : α) (next : Node α)
  | ifNode (body next : Node α)
  | ifElse (body next : Node α)
  | elseIf (body next : Node α)
  | els (body next : Node α)
  | loop (body next : Node α)
  | alt (cases next : Node α)
  | altCase (body next : Node α)

/-- Statements of the generated C. -/
inductive Code where
  | nil
  | plain (rest : Code)
  | check (rest : Code)
  | gotoDone (rest : Code)
  | branch (yes no rest : Code)
  | loop (body rest : Code)
  | scope (body rest : Code)
  deriving DecidableEq

variable {α : Type}

/- The actions of the grammar. The branches of an `if` become nodes beside it. -/
mutual

def parse : Stmts α → Node α
  | .nil => .nil
  | .plain rest => .plain (parse rest)
  | .attempt rest => .attempt (parse rest)
  | .leave rest => .leave (parse rest)
  | .defer call rest => .defer call (parse rest)
  | .cond body .none rest => .ifNode (parse body) (parse rest)
  | .cond body (.els other) rest => .ifElse (parse body) (.els (parse other) (parse rest))
  | .cond body (.elif other clause) rest =>
    .ifElse (parse body) (.elseIf (parse other) (parseClause clause (parse rest)))
  | .loop body rest => .loop (parse body) (parse rest)
  | .alt arms rest => .alt (parseArms arms) (parse rest)

def parseClause : Clause α → Node α → Node α
  | .none, next => next
  | .els body, next => .els (parse body) next
  | .elif body clause, next => .elseIf (parse body) (parseClause clause next)

def parseArms : Arms α → Node α
  | .last body => .altCase (parse body) .nil
  | .arm body rest => .altCase (parse body) (parseArms rest)

end

/- `gen_stmt` over a chain of nodes, with `defer_list`. -/
mutual

def gen : Node α → List α → Code × List α
  | .nil, deferList => (.nil,deferList)
  | .plain next, deferList =>
    let (rest,deferList) := gen next deferList
    (.plain rest,deferList)
  | .attempt next, deferList =>
    let (rest,deferList) := gen next deferList
    (.check rest,deferList)
  | .leave next, deferList =>
    let (rest,deferList) := gen next deferList
    (.gotoDone rest,deferList)
  | .defer call next, deferList => gen next (call :: deferList)
  | .ifNode body next, deferList =>
    let (yes,deferList) := gen body deferList
    let (rest,deferList) := gen next deferList
    (.branch yes .nil rest,deferList)
  | .ifElse body next, deferList =>
    let (yes,deferList) := gen body deferList
    let (no,deferList) := genTail next deferList
    let (rest,deferList) := gen next deferList
    (.branch yes no rest,deferList)
  | .elseIf _ next, deferList => gen next deferList
  -- the node of an `else` is written out once more as an empty statement
  | .els _ next, deferList =>
    let (rest,deferList) := gen next deferList
    (.plain rest,deferList)
  | .loop body next, deferList =>
    let (body,deferList) := gen body deferList
    let (rest,deferList) := gen next deferList
    (.loop body rest,deferList)
  | .alt cases next, deferList =>
    let (body,deferList) := genCases cases deferList
    let (rest,deferList) := gen next deferList
    (.scope body rest,deferList)
  | .altCase _ next, deferList => gen next deferList

/-- The loop of `gen_ifelse_stmt` over the nodes behind an `if`. It goes on until it meets an
`else`, over the statements that follow too. -/
def genTail : Node α → List α → Code × List α
  | .nil, deferList => (.nil,deferList)
  | .elseIf body next, deferList =>
    let (yes,deferList) := gen body deferList
    let (no,deferList) := genTail next deferList
    (.branch yes no .nil,deferList)
  | .els body _, deferList => gen body deferList
  | .plain next, deferList | .attempt next, deferList | .leave next, deferList | .defer _ next, deferList
  | .ifNode _ next, deferList | .ifElse _ next, deferList | .loop _ next, deferList | .alt _ next, deferList
  | .altCase _ next, deferList => genTail next deferList

/-- The cases of an `alt`, of which one is taken. -/
def genCases : Node α → List α → Code × List α
  | .altCase body .nil, deferList => gen body deferList
  | .altCase body next, deferList =>
    let (yes,deferList) := gen body deferList
    let (no,deferList) := genCases next deferList
    (.branch yes no .nil,deferList)
  | _, deferList => (.nil,deferList)

end

/-- A method as it is written out: its body, and the calls behind the `done` label. -/
structure Method (α : Type) where
  body : Code
  cleanup : List α

/-- `gen_method_body_emit`. -/
def genMethodBody (body : Node α) : Method α :=
  let (code,deferList) := gen body []
  ⟨code,deferList⟩

def Code.runs : Code → Behaviour α
  | .nil => Flow.skip
  | .plain rest => rest.runs
  | .check rest => Flow.either Flow.leave rest.runs
  | .gotoDone _ => Flow.leave
  | .branch yes no rest => Flow.seq (Flow.either yes.runs no.runs) rest.runs
  | .loop body rest => Flow.seq (Flow.Loop body.runs) rest.runs
  | .scope body rest => Flow.seq body.runs rest.runs

/-- The deferred calls that a run of the method makes. Whether the body was left or came to its
end, the run goes through the label. -/
def Method.Calls (m : Method α) (calls : List α) : Prop :=
  ∃ events left, m.body.runs events left ∧ calls = events ++ m.cleanup

/- The paths through a body, with the `defer` statements that they execute. -/
mutual

def Stmts.path : Stmts α → Behaviour α
  | .nil => Flow.skip
  | .plain rest => rest.path
  | .attempt rest => Flow.either Flow.leave rest.path
  | .leave _ => Flow.leave
  | .defer call rest => Flow.seq (Flow.emit call) rest.path
  | .cond body clause rest => Flow.seq (Flow.either body.path clause.path) rest.path
  | .loop body rest => Flow.seq (Flow.Loop body.path) rest.path
  | .alt arms rest => Flow.seq arms.path rest.path

def Clause.path : Clause α → Behaviour α
  | .none => Flow.skip
  | .els body => body.path
  | .elif body clause => Flow.either body.path clause.path

def Arms.path : Arms α → Behaviour α
  | .last body => body.path
  | .arm body rest => Flow.either body.path rest.path

end

/-- On every path the calls made at the exit are those that the path has scheduled, the last one
first. -/
def DefersRun (body : Stmts α) : Prop := ∀ executed left, body.path executed left →
  ∀ calls, (genMethodBody (parse body)).Calls calls → calls = executed.reverse

/- The `defer` statements of a body, in the order of the text. -/
mutual

@[simp] def Stmts.defers : Stmts α → List α
  | .nil => []
  | .plain rest | .attempt rest | .leave rest => rest.defers
  | .defer call rest => call :: rest.defers
  | .cond body clause rest => body.defers ++ clause.defers ++ rest.defers
  | .loop body rest => body.defers ++ rest.defers
  | .alt arms rest => arms.defers ++ rest.defers

def Clause.defers : Clause α → List α
  | .none => []
  | .els body => body.defers
  | .elif body clause => body.defers ++ clause.defers

def Arms.defers : Arms α → List α
  | .last body => body.defers
  | .arm body rest => body.defers ++ rest.defers

end

/- Whether a path can leave the method in the statements. -/
mutual

def Stmts.mayLeave : Stmts α → Bool
  | .nil => false
  | .plain rest | .defer _ rest => rest.mayLeave
  | .attempt _ | .leave _ => true
  | .cond body clause rest => body.mayLeave || clause.mayLeave || rest.mayLeave
  | .loop body rest => body.mayLeave || rest.mayLeave
  | .alt arms rest => arms.mayLeave || rest.mayLeave

def Clause.mayLeave : Clause α → Bool
  | .none => false
  | .els body => body.mayLeave
  | .elif body clause => body.mayLeave || clause.mayLeave

def Arms.mayLeave : Arms α → Bool
  | .last body => body.mayLeave
  | .arm body rest => body.mayLeave || rest.mayLeave

end

/-- Every `defer` stands at the top level of the body, or in the only arm of an `alt` that does,
and no statement before it can leave. -/
def Stmts.straight : Stmts α → Bool
  | .nil => true
  | .plain rest | .defer _ rest => rest.straight
  | .attempt rest | .leave rest => rest.defers.isEmpty
  | .cond body clause rest =>
    body.defers.isEmpty && clause.defers.isEmpty &&
      (!(body.mayLeave || clause.mayLeave) || rest.defers.isEmpty) && rest.straight
  | .loop body rest => body.defers.isEmpty && (!body.mayLeave || rest.defers.isEmpty) && rest.straight
  | .alt (.last body) rest => body.straight && (!body.mayLeave || rest.defers.isEmpty) && rest.straight
  | .alt (.arm body arms) rest =>
    body.defers.isEmpty && arms.defers.isEmpty &&
      (!(body.mayLeave || arms.mayLeave) || rest.defers.isEmpty) && rest.straight

section Collecting

/-- Puts at least `n` calls in front of `defer_list`, and none if there are no `calls`. -/
def Collects (f : List α → Code × List α) (n : Nat) (calls : List α) : Prop :=
  ∃ extra, (∀ deferList, (f deferList).2 = extra ++ deferList) ∧ n ≤ extra.length ∧ (calls = [] → extra = [])

theorem Collects.nothing {a : List α} (is : ∀ deferList, (f deferList).2 = deferList) : Collects f 0 a :=
  ⟨[],is,Nat.zero_le _,fun _ => rfl⟩

theorem Collects.none (collects : Collects f n a) (empty : a = []) (deferList : List α) :
    (f deferList).2 = deferList := by
  obtain ⟨extra,is,_,none⟩ := collects
  rw [is,none empty,nil_append]

theorem Collects.weaken (collects : Collects f n a) (le : m ≤ n) (sub : a ⊆ b) : Collects f m b := by
  obtain ⟨extra,is,many,none⟩ := collects
  exact ⟨extra,is,Nat.le_trans le many,fun empty => none (subset_nil.mp (empty ▸ sub))⟩

theorem Collects.behind {h : List α → Code × List α} (one : Collects f n a) (two : Collects g m b)
    (is : ∀ deferList, (h deferList).2 = (g (f deferList).2).2) : Collects h (n+m) (a ++ b) := by
  obtain ⟨first,isFirst,many,none⟩ := one
  obtain ⟨second,isSecond,many',none'⟩ := two
  refine ⟨second ++ first,fun deferList => ?_,?_,fun empty => ?_⟩
  · rw [is,isFirst,isSecond,append_assoc]
  · rw [length_append]
    omega
  · obtain ⟨noneA,noneB⟩ := append_eq_nil_iff.mp empty
    rw [none noneA,none' noneB,nil_append]

theorem gen_parseClause : (clause : Clause α) → (next : Node α) → (deferList : List α) →
    (gen (parseClause clause next) deferList).2 = (gen next deferList).2
  | .none, _, _ => rfl
  | .els _, _, _ => rfl
  | .elif _ clause, next, deferList => gen_parseClause clause next deferList

/-- What a conditional adds to `defer_list`. -/
def condDefers (body : Stmts α) (clause : Clause α) (rest : Stmts α) (deferList : List α) : List α :=
  match clause with
  | .none => (gen (parse body) deferList).2
  | .els _ | .elif _ _ => (genTail (parseClause clause (parse rest)) (gen (parse body) deferList).2).2

theorem gen_cond (body : Stmts α) (clause : Clause α) (rest : Stmts α) (deferList : List α) :
    (gen (parse (.cond body clause rest)) deferList).2 =
      (gen (parse rest) (condDefers body clause rest deferList)).2 := by
  cases clause with
  | none => rfl
  | els => rfl
  | elif other clause => exact gen_parseClause clause (parse rest) _

theorem tail_cond (body : Stmts α) (clause : Clause α) (rest : Stmts α) (deferList : List α) :
    (genTail (parse (.cond body clause rest)) deferList).2 =
      (genTail (parseClause clause (parse rest)) deferList).2 := by
  cases clause <;> rfl

theorem condDefers_collects (inside : Collects (gen (parse body)) n a)
    (branches : Collects (genTail (parseClause clause (parse rest))) clause.defers.length b) :
    Collects (fun deferList => (.nil,condDefers body clause rest deferList)) (n+clause.defers.length) (a ++ b) := by
  cases clause with
  | none => exact inside.weaken (Nat.le_refl _) (subset_append_left ..)
  | els | elif => exact inside.behind branches fun _ => rfl

mutual

/-- No `defer` statement is forgotten, and the loop behind an `if` takes in statements of the body only. -/
theorem gen_collects : (body : Stmts α) → Collects (gen (parse body)) body.defers.length body.defers ∧
    Collects (genTail (parse body)) 0 body.defers
  | .nil => ⟨.nothing fun _ => rfl,.nothing fun _ => rfl⟩
  | .plain rest => gen_collects rest
  | .attempt rest => gen_collects rest
  | .leave rest => gen_collects rest
  | .defer call rest => by
    obtain ⟨⟨extra,is,many,_⟩,tail⟩ := gen_collects rest
    refine ⟨⟨extra ++ [call],fun deferList => ?_,?_,nofun⟩,tail.weaken (Nat.le_refl _) (subset_cons_self ..)⟩
    · simpa [parse,gen] using is (call :: deferList)
    · simpa using many
  | .cond body clause rest => by
    obtain ⟨later,tail⟩ := gen_collects rest
    have branches := tail_collects clause tail
    have whole := (condDefers_collects (gen_collects body).1 branches).behind later
      (gen_cond body clause rest)
    refine ⟨whole.weaken ?_ (by simp),?_⟩
    · simp [Nat.add_assoc]
    · obtain ⟨extra,is,_,none⟩ := branches
      exact ⟨extra,fun l => (tail_cond ..).trans (is l),Nat.zero_le _,fun empty => none (by simp_all)⟩
  | .loop body rest => by
    obtain ⟨later,tail⟩ := gen_collects rest
    have whole := (gen_collects body).1.behind later (h := gen (parse (.loop body rest))) fun _ => rfl
    exact ⟨by simpa using whole,tail.weaken (Nat.le_refl _) (subset_append_right ..)⟩
  | .alt arms rest => by
    obtain ⟨later,tail⟩ := gen_collects rest
    have whole := (cases_collects arms).behind later (h := gen (parse (.alt arms rest))) fun _ => rfl
    exact ⟨by simpa using whole,tail.weaken (Nat.le_refl _) (subset_append_right ..)⟩

theorem tail_collects {next : Node α} {calls : List α} : (clause : Clause α) → Collects (genTail next) 0 calls →
    Collects (genTail (parseClause clause next)) clause.defers.length (clause.defers ++ calls)
  | .none, tail => tail
  | .els body, _ => (gen_collects body).1.weaken (Nat.le_refl _) (subset_append_left ..)
  | .elif body clause, tail => by
    have whole := (gen_collects body).1.behind (tail_collects clause tail)
      (h := genTail (parseClause (.elif body clause) next)) fun _ => rfl
    simpa [Clause.defers] using whole

theorem cases_collects : (arms : Arms α) → Collects (genCases (parseArms arms)) arms.defers.length arms.defers
  | .last body => (gen_collects body).1
  | .arm body rest => by
    have whole := (gen_collects body).1.behind (cases_collects rest)
      (h := genCases (parseArms (.arm body rest))) fun _ => by cases rest <;> rfl
    simpa [Arms.defers] using whole

end

theorem gen_of_straight : (body : Stmts α) → body.straight = true → (deferList : List α) →
    (gen (parse body) deferList).2 = body.defers.reverse ++ deferList ∧
    (genTail (parse body) deferList).2 = deferList
  | .nil, _, deferList => ⟨rfl,rfl⟩
  | .plain rest, straight, deferList => gen_of_straight rest straight deferList
  | .attempt rest, straight, deferList | .leave rest, straight, deferList => by
    have empty := isEmpty_iff.mp straight
    rw [Stmts.defers,empty]
    exact ⟨(gen_collects rest).1.none empty deferList,(gen_collects rest).2.none empty deferList⟩
  | .defer call rest, straight, deferList => by
    obtain ⟨later,captured⟩ := gen_of_straight rest straight (call :: deferList)
    refine ⟨?_,(gen_of_straight rest straight deferList).2⟩
    simp only [parse,gen,later,Stmts.defers,reverse_cons,append_assoc,singleton_append]
  | .cond body clause rest, straight, deferList => by
    simp only [Stmts.straight,and_eq_true,List.isEmpty_iff] at straight
    obtain ⟨⟨⟨noneInside,noneBeside⟩,_⟩,straight⟩ := straight
    have captured : Collects (genTail (parse rest)) 0 [] := .nothing fun l => (gen_of_straight rest straight l).2
    have branches := tail_collects clause captured
    have conditional : condDefers body clause rest deferList = deferList :=
      (condDefers_collects (gen_collects body).1 branches).none (by simp [noneInside,noneBeside]) deferList
    rw [gen_cond,tail_cond,conditional,Stmts.defers,noneInside,noneBeside]
    exact ⟨(gen_of_straight rest straight deferList).1,branches.none (by simp [noneBeside]) deferList⟩
  | .loop body rest, straight, deferList => by
    simp only [Stmts.straight,and_eq_true,List.isEmpty_iff] at straight
    obtain ⟨⟨noneInside,_⟩,straight⟩ := straight
    simp only [parse,gen,genTail,(gen_collects body).1.none noneInside,Stmts.defers,noneInside]
    exact gen_of_straight rest straight deferList
  | .alt (.last body) rest, straight, deferList => by
    simp only [Stmts.straight,and_eq_true] at straight
    obtain ⟨⟨inside,_⟩,straight⟩ := straight
    have first := (gen_of_straight body inside deferList).1
    obtain ⟨later,_⟩ := gen_of_straight rest straight (body.defers.reverse ++ deferList)
    refine ⟨?_,(gen_of_straight rest straight deferList).2⟩
    simp only [parse,parseArms,gen,genCases,first,later,Stmts.defers,Arms.defers,reverse_append,append_assoc]
  | .alt (.arm body arms) rest, straight, deferList => by
    simp only [Stmts.straight,and_eq_true,List.isEmpty_iff] at straight
    obtain ⟨⟨⟨noneInside,noneBeside⟩,_⟩,straight⟩ := straight
    have empty : (Arms.arm body arms).defers = [] := by simp [Arms.defers,noneInside,noneBeside]
    simp only [parse,gen,genTail,(cases_collects (.arm body arms)).none empty,Stmts.defers,empty]
    exact gen_of_straight rest straight deferList

end Collecting

end Objective9c.Compiler
