import InferenceServer.SimpleScheduler

/-! What one step of a scheduler can do, by the kind of thread that takes it. -/
namespace InferenceServer.Scheduler

variable {π φ : Type}

inductive WorkerStep (sc : Scheduler π φ) (w : Nat) (t : Worker π φ) :
    WorkerAction → Scheduler π φ → Prop where
  | test : t.pc = .looping →
      WorkerStep sc w t .test (sc.setWorker w t (if sc.running then .popping else .exited) [])
  | take {wake queue p rest} : t.pc = .popping → sc.queue.buffer = p :: rest →
      sc.queue.broken = false → queue.buffer = rest → queue.broken = false →
      queue.capacity = sc.queue.capacity →
      WorkerStep sc w t (.pop wake)
        ({ sc with queue := queue }.setWorker w t (.holding p) [.dequeued w p])
  | takeBroken {wake queue} : t.pc = .popping → sc.queue.broken = true →
      queue.buffer = sc.queue.buffer → queue.broken = true →
      queue.capacity = sc.queue.capacity →
      WorkerStep sc w t (.pop wake) ({ sc with queue := queue }.setWorker w t .looping [])
  | sleep {wake queue} : t.pc = .popping → sc.queue.buffer = [] → queue.buffer = [] →
      queue.broken = sc.queue.broken → queue.capacity = sc.queue.capacity →
      WorkerStep sc w t (.pop wake) { sc with queue := queue }
  | wake : t.pc = .popping →
      WorkerStep sc w t .wake { sc with queue := sc.queue.wakeConsumer w }
  | copy {p} : t.pc = .holding p →
      WorkerStep sc w t .copy (sc.setWorker w t (.copied p sc.inferFunc) [.copied w p sc.inferFunc])
  | call {p f} : t.pc = .copied p f →
      WorkerStep sc w t .call
        (sc.setWorker w t (.running p sc.inferFunc) [.invoked w t.idx sc.inferFunc [p]])
  | ret {p f status} : t.pc = .running p f →
      WorkerStep sc w t (.ret status)
        (sc.setWorker w t (.returned p f status) [.returned w f status])
  | complete {p f status} : t.pc = .returned p f status →
      WorkerStep sc w t .complete
        (sc.setWorker w t .looping [.completed w p status (completionMessage status)])

theorem workerStep_cases {sc sc' : Scheduler π φ} {w : Nat} {a : WorkerAction}
    (taken : sc.workerStep w a = some sc') :
    ∃ t, sc.threads[w]? = some t ∧ WorkerStep sc w t a sc' := by
  unfold workerStep at taken
  split at taken
  · contradiction
  next t atIndex =>
    refine ⟨t,atIndex,?_⟩
    split at taken
    next pc => cases taken; exact .test pc
    next wake pc =>
      obtain ⟨⟨result,queue⟩,popped,result⟩ := Option.map_eq_some_iff.mp taken
      obtain ⟨capacity,broken,⟨rfl,was,same⟩ | ⟨p,rfl,was,front⟩ | ⟨rfl,was,empty,empty'⟩⟩ :=
        BlockingQueue.pop_cases popped
      · cases result; exact .takeBroken pc was same (broken.trans was) capacity
      · cases result; exact .take pc front was rfl (broken.trans was) capacity
      · cases result; exact .sleep pc empty empty' broken capacity
    next pc =>
      split at taken
      · cases taken; exact .wake pc
      · contradiction
    next p pc => cases taken; exact .copy pc
    next p f pc => cases taken; exact .call pc
    next p f status pc => cases taken; exact .ret pc
    next p f status pc => cases taken; exact .complete pc
    · contradiction

inductive ProducerStep (sc : Scheduler π φ) (c : Nat) :
    ProducerAction π → Scheduler π φ → Prop where
  | enter {p} : sc.producers c = .idle → sc.running = true →
      ProducerStep sc c (.enqueue p) (sc.setProducer c (.pushing p) [])
  | refuse {p} : sc.producers c = .idle → sc.running = false →
      ProducerStep sc c (.enqueue p) (sc.setProducer c (.returned p .failedSchedulerNotRunning)
        [.answered c .failedSchedulerNotRunning])
  | append {p wake queue} : sc.producers c = .pushing p → sc.queue.broken = false →
      sc.queue.buffer.length < sc.queue.capacity → queue.buffer = sc.queue.buffer ++ [p] →
      queue.broken = false → queue.capacity = sc.queue.capacity →
      ProducerStep sc c (.push wake)
        ({ sc with queue := queue }.setProducer c (.pushed p) [.appended c p])
  | drop {p wake queue} : sc.producers c = .pushing p → sc.queue.broken = true →
      queue.buffer = sc.queue.buffer → queue.broken = true →
      queue.capacity = sc.queue.capacity →
      ProducerStep sc c (.push wake) ({ sc with queue := queue }.setProducer c (.dropped p) [])
  | sleep {p wake queue} : sc.producers c = .pushing p → sc.queue.broken = false →
      sc.queue.capacity ≤ sc.queue.buffer.length → queue.buffer = sc.queue.buffer →
      queue.broken = false → queue.capacity = sc.queue.capacity →
      ProducerStep sc c (.push wake) { sc with queue := queue }
  | wake {p} : sc.producers c = .pushing p →
      ProducerStep sc c .wake { sc with queue := sc.queue.wakeProducer c }
  | leave {p} : sc.producers c = .pushed p ∨ sc.producers c = .dropped p →
      ProducerStep sc c .leave (sc.setProducer c (.returned p .success) [.answered c .success])

theorem producerStep_cases {sc sc' : Scheduler π φ} {c : Nat} {a : ProducerAction π}
    (taken : sc.producerStep c a = some sc') : ProducerStep sc c a sc' := by
  unfold producerStep at taken
  split at taken
  next p pc =>
    split at taken
    next running => cases taken; exact .enter pc running
    next stopped => cases taken; exact .refuse pc (by simpa using stopped)
  next p wake pc =>
    obtain ⟨⟨result,queue⟩,pushed,result⟩ := Option.map_eq_some_iff.mp taken
    obtain ⟨capacity,broken,⟨rfl,was,same⟩ | ⟨rfl,was,space,longer⟩ | ⟨rfl,was,full,same⟩⟩ :=
      BlockingQueue.push_cases pushed
    · cases result; exact .drop pc was same (broken.trans was) capacity
    · cases result; exact .append pc was space longer (broken.trans was) capacity
    · cases result; exact .sleep pc was full same (broken.trans was) capacity
  next p pc =>
    split at taken
    · cases taken; exact .wake pc
    · contradiction
  next p pc => cases taken; exact .leave (.inl pc)
  next p pc => cases taken; exact .leave (.inr pc)
  · contradiction

/-- The steps of the thread inside `Start` or `Stop`. -/
inductive ControlStep (sc : Scheduler π φ) : ControlAction → Scheduler π φ → Prop where
  | startAgain : sc.control.ready = true → sc.running = true →
      ControlStep sc .start { sc with control := .startReturned .failedSchedulerAlreadyRunning }
  | start : sc.control.ready = true → sc.running = false →
      ControlStep sc .start { sc with running := true, control := .starting 0 }
  | spawn {idx} : sc.control = .starting idx → idx < sc.totalRunners →
      ControlStep sc .spawn
        { sc with threads := sc.threads ++ [⟨idx,.looping⟩], control := .starting (idx + 1) }
  | started {idx} : sc.control = .starting idx → sc.totalRunners ≤ idx →
      ControlStep sc .spawn { sc with control := .startReturned .success }
  | stop : sc.control.ready = true → sc.running = true →
      ControlStep sc .stop { sc with control := .draining }
  | stopIdle : sc.control.ready = true → sc.running = false →
      ControlStep sc .stop { sc with control := .stopReturned .failedSchedulerNotRunning }
  | drainWait {elapsed} : sc.control = .draining → sc.queue.buffer ≠ [] →
      elapsed < Constants.maxSchedulerDepletionWaitTime → ControlStep sc (.drain elapsed) sc
  | drained {elapsed} : sc.control = .draining →
      (sc.queue.buffer = [] ∨ Constants.maxSchedulerDepletionWaitTime ≤ elapsed) →
      ControlStep sc (.drain elapsed) { sc with control := .clearing }
  | clearRunning : sc.control = .clearing →
      ControlStep sc .clearRunning { sc with running := false, control := .breaking }
  | breakAll : sc.control = .breaking →
      ControlStep sc .breakAll { sc with queue := sc.queue.breakAll, control := .joining 0 }
  | join {j t} : sc.control = .joining j → sc.threads[j]? = some t → t.pc = .exited →
      ControlStep sc .join { sc with control := .joining (j + 1) }
  | joined {j} : sc.control = .joining j → sc.threads.length ≤ j →
      ControlStep sc .join { sc with control := .stopReturned .success }

theorem isExited_iff {pc : WorkerPc π φ} : pc.isExited = true ↔ pc = .exited := by
  cases pc <;> simp [WorkerPc.isExited]

theorem controlStep_cases {sc sc' : Scheduler π φ} {a : ControlAction}
    (taken : sc.controlStep a = some sc') : ControlStep sc a sc' := by
  cases a with
  | start =>
    simp only [controlStep] at taken
    split at taken
    next ready =>
      split at taken
      next running => cases taken; exact .startAgain ready running
      next stopped => cases taken; exact .start ready (by simpa using stopped)
    · contradiction
  | spawn =>
    simp only [controlStep] at taken
    split at taken
    next idx pc =>
      split at taken
      next more => cases taken; exact .spawn pc more
      next none => cases taken; exact .started pc (Int.not_lt.mp none)
    · contradiction
  | stop =>
    simp only [controlStep] at taken
    split at taken
    next ready =>
      split at taken
      next running => cases taken; exact .stop ready running
      next stopped => cases taken; exact .stopIdle ready (by simpa using stopped)
    · contradiction
  | drain elapsed =>
    simp only [controlStep] at taken
    split at taken
    next pc =>
      split at taken
      next more =>
        cases taken
        exact .drainWait pc (List.ne_nil_of_length_pos more.1) more.2
      next left =>
        cases taken
        refine .drained pc ?_
        by_cases empty : sc.queue.buffer = []
        · exact .inl empty
        · have some : 0 < sc.queue.size := List.length_pos_iff.mpr empty
          exact .inr (Int.not_lt.mp fun early => left ⟨some,early⟩)
    · contradiction
  | clearRunning =>
    simp only [controlStep] at taken
    split at taken
    next pc => cases taken; exact .clearRunning pc
    · contradiction
  | breakAll =>
    simp only [controlStep] at taken
    split at taken
    next pc => cases taken; exact .breakAll pc
    · contradiction
  | join =>
    simp only [controlStep] at taken
    split at taken
    next j pc =>
      split at taken
      next past => cases taken; exact .joined pc (List.getElem?_eq_none_iff.mp past)
      next t atIndex =>
        split at taken
        next gone => cases taken; exact .join pc atIndex (isExited_iff.mp gone)
        · contradiction
    · contradiction

end InferenceServer.Scheduler
