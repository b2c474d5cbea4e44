import Longcoin.Library.Steps
import Mathlib.Algebra.BigOperators.Group.List.Basic

/-! The queue of script checks (`checkqueue.h`): worker threads and a master that joins them, with the code
between two acquisitions of the mutex, and each check outside it, as one step. -/

namespace Longcoin.CheckQueue
open Library

/-- Where a thread is in `Loop`, when it does not hold the mutex: at its start, in a wait, or with a batch of
`nNow` checks of which `vChecks` are still to run. -/
inductive Phase (α : Type) where
  | fresh
  | waiting (notified : Bool)
  | working (nNow : Nat) (fOk : Bool) (vChecks : List α)
deriving DecidableEq, Repr

/-- What the mutex guards. The queue is listed from its back; `fQuit` is never set. -/
structure Shared (α : Type) where
  queue : List α
  nIdle : Nat
  nTotal : Nat
  fAllOk : Bool
  nTodo : Nat
deriving DecidableEq, Repr

variable {α : Type}

def IsIdle (sh : Shared α) : Bool := sh.nTotal == sh.nIdle && sh.nTodo == 0 && sh.fAllOk

/-- The mutex is taken: what was done in the last turn is reported, or the thread is counted. Whether
the master is notified comes with it. A batch is not reported before all of it is done. -/
def acquire (fMaster : Bool) (sh : Shared α) : Phase α → Option (Shared α × Bool)
  | .fresh => some ({ sh with nTotal := sh.nTotal + 1 }, false)
  | .waiting _ => some ({ sh with nIdle := sh.nIdle - 1 }, false)
  | .working nNow fOk [] =>
    some ({ sh with fAllOk := sh.fAllOk && fOk, nTodo := sh.nTodo - nNow }, sh.nTodo - nNow == 0 && !fMaster)
  | .working _ _ (_ :: _) => none

/-- How a critical section ends: in another phase, or with the result of `Wait`. -/
inductive Next (α : Type) where
  | phase (next : Phase α)
  | returns (fRet : Bool)

def batchSize (nBatchSize : Nat) (sh : Shared α) : Nat := max 1 (min nBatchSize (sh.queue.length / (sh.nTotal + sh.nIdle + 1)))

def proceed (fMaster : Bool) (nBatchSize : Nat) (sh : Shared α) : Shared α × Next α :=
  if sh.queue.isEmpty then
    if fMaster && sh.nTodo == 0 then ({ sh with nTotal := sh.nTotal - 1, fAllOk := true }, .returns sh.fAllOk)
    else ({ sh with nIdle := sh.nIdle + 1 }, .phase (.waiting false))
  else
    ({ sh with queue := sh.queue.drop (batchSize nBatchSize sh) },
      .phase (.working (batchSize nBatchSize sh) sh.fAllOk (sh.queue.take (batchSize nBatchSize sh))))

def runCheck (returns : α → Bool) : Phase α → Option (Phase α × α × Bool)
  | .working nNow fOk (check :: vChecks) => some (.working nNow (if fOk then returns check else false) vChecks, check, fOk)
  | _ => none

/-- The master repeats `IsIdle`, some `Add`, and `Wait`. -/
inductive Master (α : Type) where
  | outside
  | adding
  | inWait (phase : Phase α)
deriving DecidableEq, Repr

/-- The threads and what they share; and, only written to, all checks that were added, executed and skipped,
those added since the last `Wait`, and the results of the waits with the checks they are about. -/
structure State (α : Type) where
  shared : Shared α
  workers : List (Phase α)
  master : Master α
  added : List α
  executed : List α
  skipped : List α
  session : List α
  waits : List (Bool × List α)
deriving DecidableEq, Repr

def initial : State α where
  shared := ⟨[], 0, 0, true, 0⟩
  workers := []
  master := .outside
  added := []
  executed := []
  skipped := []
  session := []
  waits := []

def Phase.notify : Phase α → Phase α
  | .waiting _ => .waiting true
  | phase => phase

def Master.notify : Master α → Master α
  | .inWait phase => .inWait phase.notify
  | master => master

inductive Event (α : Type) where
  | start
  | isIdle
  | add (vChecks : List α) (choice : Nat)
  | wait
  | check (worker : Option Nat)
  | lock (worker : Option Nat)

/-- `condWorker`: one worker, which the system picks, or all. A notification that finds nobody is lost. -/
def notifyWorkers (count choice : Nat) (workers : List (Phase α)) : List (Phase α) :=
  if count = 0 then workers else if count = 1 then workers.modify choice Phase.notify else workers.map Phase.notify

def log (s : State α) (check : α) (fOk : Bool) : State α :=
  if fOk then { s with executed := s.executed ++ [check] } else { s with skipped := s.skipped ++ [check] }

/-- Nothing when the event cannot happen. A waiting thread may wake up at any time. -/
def step (returns : α → Bool) (nBatchSize : Nat) (s : State α) : Event α → Option (State α)
  | .start => some { s with workers := s.workers ++ [.fresh] }
  | .isIdle => match s.master with
    | .outside => if IsIdle s.shared then some { s with master := .adding } else none
    | _ => none
  | .add vChecks choice => match s.master with
    | .adding => some { s with
        shared := { s.shared with queue := vChecks.reverse ++ s.shared.queue, nTodo := s.shared.nTodo + vChecks.length }
        workers := notifyWorkers vChecks.length choice s.workers
        added := s.added ++ vChecks
        session := s.session ++ vChecks }
    | _ => none
  | .wait => match s.master with
    | .adding => some { s with master := .inWait .fresh }
    | _ => none
  | .check (some i) => s.workers[i]?.bind fun phase => (runCheck returns phase).map fun done =>
      log { s with workers := s.workers.set i done.1 } done.2.1 done.2.2
  | .check none => match s.master with
    | .inWait phase => (runCheck returns phase).map fun done =>
        log { s with master := .inWait done.1 } done.2.1 done.2.2
    | _ => none
  | .lock (some i) => s.workers[i]?.bind fun phase => (acquire false s.shared phase).bind fun entered =>
      match proceed false nBatchSize entered.1 with
      | (shared, .phase next) => some { s with
          shared := shared
          workers := s.workers.set i next
          master := if entered.2 then s.master.notify else s.master }
      | (_, .returns _) => none
  | .lock none => match s.master with
    | .inWait phase => (acquire true s.shared phase).map fun entered =>
        match proceed true nBatchSize entered.1 with
        | (shared, .phase next) => { s with shared := shared, master := .inWait next }
        | (shared, .returns fRet) =>
          { s with shared := shared, master := .outside, session := [], waits := s.waits ++ [(fRet, s.session)] }
    | _ => none

def Run (returns : α → Bool) (nBatchSize : Nat) (events : List (Event α)) (s : State α) : Prop :=
  Steps (fun s event s' => step returns nBatchSize s event = some s') initial events s

end Longcoin.CheckQueue
