import InferenceServer.BasicData
import InferenceServer.BlockingQueue
import InferenceServer.Transition

/-! `SimpleScheduler` as the interleaving of its workers, of `Enqueue` callers, of
`UpdateBackendInferFunc` calls and of the thread that starts and stops it. Payloads `π`
and functions `φ` are opaque here; what a function returns is chosen by the action. -/
namespace InferenceServer

inductive WorkerPc (π φ : Type) where
  | looping
  | popping
  | holding (p : π)
  /-- `infer_func = infer_func_` was done under `infer_func_mu_`. -/
  | copied (p : π) (copy : φ)
  /-- Inside the call of `infer_func_`. -/
  | running (p : π) (func : φ)
  | returned (p : π) (func : φ) (status : Status)
  | exited

def WorkerPc.payload? : WorkerPc π φ → Option π
  | .holding p | .copied p _ | .running p _ | .returned p _ _ => some p
  | _ => none

def WorkerPc.inside? : WorkerPc π φ → Option φ
  | .running _ func => some func
  | _ => none

def WorkerPc.isExited : WorkerPc π φ → Bool
  | .exited => true
  | _ => false

structure Worker (π φ : Type) where
  idx : Int
  pc : WorkerPc π φ

/-- A caller's place in `Enqueue`. `pushed` and `dropped` are the two ways out of `push`. -/
inductive ProducerPc (π : Type) where
  | idle
  | pushing (p : π)
  | pushed (p : π)
  | dropped (p : π)
  | returned (p : π) (status : Status)

inductive ControlPc where
  | idle
  | starting (idx : Int)
  | startReturned (status : Status)
  | draining
  | clearing
  | breaking
  | joining (thread : Nat)
  | stopReturned (status : Status)
  deriving DecidableEq, Repr

def ControlPc.ready : ControlPc → Bool
  | .idle | .startReturned _ | .stopReturned _ => true
  | _ => false

/-- What can be observed, in order. `invoked` and `returned` frame one call of a function. -/
inductive Event (π φ : Type) where
  | appended (c : Nat) (p : π)
  | answered (c : Nat) (status : Status)
  | dequeued (w : Nat) (p : π)
  | copied (w : Nat) (p : π) (func : φ)
  | invoked (w : Nat) (idx : Int) (func : φ) (batch : List π)
  | returned (w : Nat) (func : φ) (status : Status)
  | completed (w : Nat) (p : π) (status : Status) (message : String)
  | installed (func : φ)

/-- Workers are numbered by their place in `threads_`, callers of `Enqueue` freely.
No step reads `log`. -/
structure Scheduler (π φ : Type) where
  queue : BlockingQueue π Nat Nat
  inferFunc : φ
  totalRunners : Int
  threads : List (Worker π φ)
  running : Bool
  control : ControlPc
  producers : Nat → ProducerPc π
  log : List (Event π φ)

inductive WorkerAction where
  | test
  | pop (wake : Option Nat)
  | wake
  | copy
  | call
  | ret (status : Status)
  | complete
  deriving DecidableEq, Repr

inductive ProducerAction (π : Type) where
  | enqueue (p : π)
  | push (wake : Option Nat)
  | wake
  | leave
  deriving DecidableEq, Repr

inductive ControlAction where
  | start
  | spawn
  | stop
  | drain (elapsed : Int)
  | clearRunning
  | breakAll
  | join
  deriving DecidableEq, Repr

inductive SchedulerAction (π φ : Type) where
  | worker (w : Nat) (a : WorkerAction)
  | producer (c : Nat) (a : ProducerAction π)
  | control (a : ControlAction)
  | update (func : φ)
  deriving DecidableEq, Repr

/-- The text passed to `OnInferCompleted`: the printed status of a failed call. -/
def completionMessage (status : Status) : String :=
  if status = .success then "" else status.print

namespace Scheduler

def create (maxQueueSize : Int) (totalRunners : Int) (inferFunc : φ) : Scheduler π φ :=
  ⟨.create (toSizeT maxQueueSize),inferFunc,totalRunners,[],false,.idle,fun _ => .idle,[]⟩

def setWorker (sc : Scheduler π φ) (w : Nat) (t : Worker π φ) (pc : WorkerPc π φ)
    (events : List (Event π φ)) : Scheduler π φ :=
  { sc with threads := sc.threads.set w { t with pc := pc }, log := sc.log ++ events }

def setProducer (sc : Scheduler π φ) (c : Nat) (pc : ProducerPc π)
    (events : List (Event π φ)) : Scheduler π φ :=
  { sc with producers := Function.update sc.producers c pc, log := sc.log ++ events }

/-- One step of `ProcessLoop`. The call goes through `infer_func_`, read a second time
without the mutex, and not through the copy. -/
def workerStep (sc : Scheduler π φ) (w : Nat) (a : WorkerAction) : Option (Scheduler π φ) :=
  match sc.threads[w]? with
  | none => none
  | some t =>
    match t.pc, a with
    | .looping, .test => some (sc.setWorker w t (if sc.running then .popping else .exited) [])
    | .popping, .pop wake => (sc.queue.pop w wake).map fun (result,queue) =>
      match result with
      | .item p => { sc with queue := queue }.setWorker w t (.holding p) [.dequeued w p]
      | .broken => { sc with queue := queue }.setWorker w t .looping []
      | .waiting => { sc with queue := queue }
    | .popping, .wake =>
      if w ∈ sc.queue.pushEvent.asleep then some { sc with queue := sc.queue.wakeConsumer w }
      else none
    | .holding p, .copy =>
      some (sc.setWorker w t (.copied p sc.inferFunc) [.copied w p sc.inferFunc])
    | .copied p _, .call =>
      some (sc.setWorker w t (.running p sc.inferFunc) [.invoked w t.idx sc.inferFunc [p]])
    | .running p f, .ret status =>
      some (sc.setWorker w t (.returned p f status) [.returned w f status])
    | .returned p _ status, .complete =>
      some (sc.setWorker w t .looping [.completed w p status (completionMessage status)])
    | _, _ => none

/-- One step of `Enqueue`. `push` returns nothing, so a dropped item is reported as pushed. -/
def producerStep (sc : Scheduler π φ) (c : Nat) (a : ProducerAction π) :
    Option (Scheduler π φ) :=
  match sc.producers c, a with
  | .idle, .enqueue p =>
    if sc.running then some (sc.setProducer c (.pushing p) [])
    else some (sc.setProducer c (.returned p .failedSchedulerNotRunning)
      [.answered c .failedSchedulerNotRunning])
  | .pushing p, .push wake => (sc.queue.push c p wake).map fun (result,queue) =>
    match result with
    | .appended => { sc with queue := queue }.setProducer c (.pushed p) [.appended c p]
    | .dropped => { sc with queue := queue }.setProducer c (.dropped p) []
    | .waiting => { sc with queue := queue }
  | .pushing _, .wake =>
    if c ∈ sc.queue.popEvent.asleep then some { sc with queue := sc.queue.wakeProducer c }
    else none
  | .pushed p, .leave | .dropped p, .leave =>
    some (sc.setProducer c (.returned p .success) [.answered c .success])
  | _, _ => none

/-- One step of `Start` or of `Stop`. `drain` is one evaluation of the condition of
`Stop`'s wait loop; `join` passes the next thread once it has exited. -/
def controlStep (sc : Scheduler π φ) : ControlAction → Option (Scheduler π φ)
  | .start =>
    if sc.control.ready then
      if sc.running then some { sc with control := .startReturned .failedSchedulerAlreadyRunning }
      else some { sc with running := true, control := .starting 0 }
    else none
  | .spawn =>
    match sc.control with
    | .starting idx =>
      if idx < sc.totalRunners then
        some { sc with threads := sc.threads ++ [⟨idx,.looping⟩], control := .starting (idx + 1) }
      else some { sc with control := .startReturned .success }
    | _ => none
  | .stop =>
    if sc.control.ready then
      if sc.running then some { sc with control := .draining }
      else some { sc with control := .stopReturned .failedSchedulerNotRunning }
    else none
  | .drain elapsed =>
    if sc.control = .draining then
      if 0 < sc.queue.size ∧ elapsed < Constants.maxSchedulerDepletionWaitTime then some sc
      else some { sc with control := .clearing }
    else none
  | .clearRunning =>
    if sc.control = .clearing then some { sc with running := false, control := .breaking }
    else none
  | .breakAll =>
    if sc.control = .breaking then
      some { sc with queue := sc.queue.breakAll, control := .joining 0 }
    else none
  | .join =>
    match sc.control with
    | .joining j =>
      match sc.threads[j]? with
      | none => some { sc with control := .stopReturned .success }
      | some t => if t.pc.isExited then some { sc with control := .joining (j + 1) } else none
    | _ => none

def updateBackendInferFunc (sc : Scheduler π φ) (func : φ) : Scheduler π φ :=
  { sc with inferFunc := func, log := sc.log ++ [.installed func] }

def step (sc : Scheduler π φ) : SchedulerAction π φ → Option (Scheduler π φ)
  | .worker w a => sc.workerStep w a
  | .producer c a => sc.producerStep c a
  | .control a => sc.controlStep a
  | .update func => some (sc.updateBackendInferFunc func)

def machine (maxQueueSize : Int) (totalRunners : Int) (inferFunc : φ) :
    Transition.Machine (Scheduler π φ) (SchedulerAction π φ) :=
  ⟨create maxQueueSize totalRunners inferFunc,step⟩

end Scheduler
end InferenceServer
