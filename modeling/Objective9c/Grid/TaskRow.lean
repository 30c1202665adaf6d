import Objective9c.Lib.Fields
import Objective9c.Lib.Text

/-! The rows of task and result files: how workers, queue workers and the stale-claim sweep
write them, and how a worker and the sweep read a task back. -/
namespace Objective9c.Grid

open Text List

def taskHeader : Bytes :=
  ascii "task_id\tsource\tmutant_path\tgate\ttimeout_ms\tpriority\tattempt\tcreated_at\n"

def resultHeader : Bytes :=
  ascii "task_id\tworker_id\tsource\tmutant_path\tresult\texit_code\tseconds\tlog_path\treason\tfinished_at\n"

/-- `"%s\t%s...\t%s\n"`. -/
def row (fields : List Bytes) : Bytes := Fields.join tabChar fields ++ [newline]

/-- The characters at which the readers of a task row stop. -/
def rowEnd (c : UInt8) : Bool := c = newline || c = carriage

structure Task where
  source : Bytes
  mutant : Bytes
  gate : Bytes
  timeout : Bytes
  priority : Bytes
  attempt : Bytes
  deriving DecidableEq

/-- What `O9MutWorkerRaw` makes of a task file of that name: none is `task_read_retry`. The
last field keeps its newline. -/
def readTask (taskid data : Bytes) : Option Task :=
  if data.length = 0 ∨ 8192 ≤ data.length then none
  else
    match afterNewline (cstr data) with
    | none => none
    | some text =>
      if afterNewline text ≠ some [] then none
      else
        match Fields.split tabChar rowEnd 8 text with
        | [id,source,mutant,gate,timeout,priority,attempt,created] =>
          if id = taskid ∧ source ≠ [] ∧ mutant ≠ [] ∧ created ≠ [] then
            some ⟨source,mutant,gate,timeout,priority,attempt⟩
          else none
        | _ => none

/-- The fields the sweep finds in a pending file, which it reads into a buffer of 2048 bytes;
none is `!gotrow`. Fields that are not there are empty. -/
def sweepFields (data : Option Bytes) : Option (Nat → Bytes) :=
  match data with
  | none => none
  | some data =>
    match afterNewline (cstr (data.take 2047)) with
    | none => none
    | some text =>
      let fields := Fields.split tabChar rowEnd 8 text
      if fields.headD [] = [] then none else some (fun i => fields.getD i [])

/-- The row the sweep writes back with the attempt counted. -/
def requeueRow (fields : Nat → Bytes) (attempt : Int) : Bytes :=
  row [fields 0,fields 1,fields 2,fields 3,fields 4,fields 5,decimal attempt,fields 7]

inductive Result where
  | killed | survived | timeout | setupError | infraFail
  deriving DecidableEq

def Result.text : Result → Bytes
  | .killed => ascii "killed"
  | .survived => ascii "survived"
  | .timeout => ascii "timeout"
  | .setupError => ascii "setup_error"
  | .infraFail => ascii "infra_fail"

/-- What a worker reports besides the task: its name, the outcome, and the times and places. -/
structure Report where
  worker : Bytes
  result : Result
  exitcode : Int
  seconds : Int
  logpath : Bytes
  reason : Bytes
  finished : Int
  deriving DecidableEq

def resultRow (id source mutant : Bytes) (report : Report) : Bytes :=
  row [id,report.worker,source,mutant,report.result.text,decimal report.exitcode,
    decimal report.seconds,report.logpath,report.reason,decimal report.finished]

def missingGate (worker logpath : Bytes) (finished : Int) : Report :=
  ⟨worker,.setupError,1,0,logpath,ascii "missing gate",finished⟩

def retireRow (id source mutant reason : Bytes) (now : Int) : Bytes :=
  resultRow id source mutant ⟨ascii "recovery",.infraFail,1,0,[],reason,now⟩

/-- A whole result: the heading, then a row of the task that is ended by a newline. -/
def isResult (id data : Bytes) : Bool :=
  (resultHeader ++ id ++ [tabChar]).isPrefixOf data && data.getLast? == some newline

theorem isResult_of_short {id : Bytes} (short : data.length ≤ resultHeader.length) : isResult id data = false := by
  rw [isResult,Bool.and_eq_false_iff]
  left
  rw [Bool.eq_false_iff]
  intro starts
  have begins := isPrefixOf_iff_prefix.mp starts
  have bound := begins.length_le
  simp only [length_append,length_singleton] at bound
  omega

end Objective9c.Grid
