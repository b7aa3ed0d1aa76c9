import InferenceServer.History
import InferenceServer.SchedulerConservation

/-! The shape of a scheduler's history: every worker proceeds in rounds, every call uses
the function installed at that moment, and `Enqueue` answers for what it appended. -/
namespace InferenceServer

variable {π φ : Type}

namespace Event

def installed? : Event π φ → Option φ
  | .installed func => some func
  | _ => none

def appendedBy (c : Nat) : Event π φ → Bool
  | .appended d _ => c == d
  | _ => false

def worker? : Event π φ → Option Nat
  | .dequeued w _ | .copied w _ _ | .invoked w _ _ _ | .returned w _ _ | .completed w _ _ _ => some w
  | _ => none

end Event

structure Round (π φ : Type) where
  payload : π
  copy : φ
  func : φ
  status : Status

/-- Dequeue, copy, one call on a batch of one, and the completion with what it returned. -/
def Round.events (w : Nat) (idx : Int) (r : Round π φ) : List (Event π φ) :=
  [.dequeued w r.payload,.copied w r.payload r.copy,.invoked w idx r.func [r.payload],
    .returned w r.func r.status,
    .completed w r.payload r.status (completionMessage r.status)]

inductive Begun (w : Nat) (idx : Int) : WorkerPc π φ → List (Event π φ) → Prop where
  | looping : Begun w idx .looping []
  | popping : Begun w idx .popping []
  | exited : Begun w idx .exited []
  | holding {p} : Begun w idx (.holding p) [.dequeued w p]
  | copied {p copy} : Begun w idx (.copied p copy) [.dequeued w p,.copied w p copy]
  | running {p copy f} : Begun w idx (.running p f)
      [.dequeued w p,.copied w p copy,.invoked w idx f [p]]
  | returned {p copy f status} : Begun w idx (.returned p f status)
      [.dequeued w p,.copied w p copy,.invoked w idx f [p],.returned w f status]

namespace Scheduler

def history (sc : Scheduler π φ) (w : Nat) : List (Event π φ) :=
  sc.log.filter fun e => e.worker? = some w

def InRounds (sc : Scheduler π φ) (w : Nat) (t : Worker π φ) : Prop :=
  ∃ (rounds : List (Round π φ)) (begun : List (Event π φ)),
    sc.history w = rounds.flatMap (Round.events w t.idx) ++ begun ∧
    Begun w t.idx t.pc begun

structure Rounded (sc : Scheduler π φ) : Prop where
  spawned : ∀ w t, sc.threads[w]? = some t → sc.InRounds w t
  unspawned : ∀ w, sc.threads.length ≤ w → sc.history w = []

theorem history_append (sc sc' : Scheduler π φ) (events : List (Event π φ)) (w : Nat)
    (log : sc'.log = sc.log ++ events) :
    sc'.history w = sc.history w ++ events.filter fun e => e.worker? = some w := by
  simp only [history,log,List.filter_append]

theorem rounded_of_others {sc sc' : Scheduler π φ} {events : List (Event π φ)}
    (valid : Rounded sc) (threads : sc'.threads = sc.threads)
    (log : sc'.log = sc.log ++ events) (others : ∀ e ∈ events, e.worker? = none) :
    Rounded sc' := by
  have same (w : Nat) : sc'.history w = sc.history w := by
    rw [history_append sc sc' events w log]
    have nothing : (events.filter fun e => e.worker? = some w) = [] := by
      apply List.filter_eq_nil_iff.mpr
      intro e member
      simp [others e member]
    rw [nothing,List.append_nil]
  constructor
  · intro w t atIndex
    rw [threads] at atIndex
    simpa only [InRounds,same] using valid.spawned w t atIndex
  · intro w past
    rw [threads] at past
    rw [same]
    exact valid.unspawned w past

/-- A worker's step keeps the rounds if it continues the round it is in, or ends it. -/
theorem rounded_setWorker {sc : Scheduler π φ} {w : Nat} {t : Worker π φ} {pc : WorkerPc π φ}
    (queue : BlockingQueue π Nat Nat) {events : List (Event π φ)}
    (atIndex : sc.threads[w]? = some t) (valid : Rounded sc)
    (mine : ∀ e ∈ events, e.worker? = some w)
    (advance : ∀ begun, Begun w t.idx t.pc begun →
      ∃ (rounds' : List (Round π φ)) (begun' : List (Event π φ)),
        begun ++ events = rounds'.flatMap (Round.events w t.idx) ++ begun' ∧
        Begun w t.idx pc begun') :
    Rounded ({ sc with queue := queue }.setWorker w t pc events) := by
  have bound := (List.getElem?_eq_some_iff.mp atIndex).1
  have own : (events.filter fun e => e.worker? = some w) = events := by
    apply List.filter_eq_self.mpr
    intro e member
    simp [mine e member]
  have foreign (v : Nat) (h : v ≠ w) : (events.filter fun e => e.worker? = some v) = [] := by
    apply List.filter_eq_nil_iff.mpr
    intro e member
    simp [mine e member,Ne.symm h]
  constructor
  · intro v u atV
    simp only [setWorker] at atV
    by_cases same : v = w
    · subst v
      rw [List.getElem?_set_self bound] at atV
      cases atV
      obtain ⟨rounds,begun,shape,place⟩ := valid.spawned w t atIndex
      obtain ⟨rounds',begun',continued,place'⟩ := advance begun place
      refine ⟨rounds ++ rounds',begun',?_,place'⟩
      rw [history_append sc _ events w rfl,own,shape]
      simp [List.append_assoc,continued]
    · rw [List.getElem?_set_ne (Ne.symm same)] at atV
      obtain ⟨rounds,begun,shape,place⟩ := valid.spawned v u atV
      refine ⟨rounds,begun,?_,place⟩
      rw [history_append sc _ events v rfl,foreign v same,List.append_nil,shape]
  · intro v past
    simp only [setWorker,List.length_set] at past
    rw [history_append sc _ events v rfl,foreign v (by omega),List.append_nil]
    exact valid.unspawned v past

theorem worker_rounded {sc sc' : Scheduler π φ} {w : Nat} {t : Worker π φ} {a : WorkerAction}
    (atIndex : sc.threads[w]? = some t) (taken : WorkerStep sc w t a sc')
    (valid : Rounded sc) : Rounded sc' := by
  cases taken with
  | test pc =>
    refine rounded_setWorker sc.queue atIndex valid (by simp) ?_
    intro begun place
    rw [pc] at place
    cases place
    refine ⟨[],[],rfl,?_⟩
    cases sc.running
    · exact .exited
    · exact .popping
  | take pc =>
    refine rounded_setWorker _ atIndex valid (by simp [Event.worker?]) ?_
    intro begun place
    rw [pc] at place
    cases place
    exact ⟨[],_,rfl,.holding⟩
  | takeBroken pc =>
    refine rounded_setWorker _ atIndex valid (by simp) ?_
    intro begun place
    rw [pc] at place
    cases place
    exact ⟨[],_,rfl,.looping⟩
  | sleep | wake => exact rounded_of_others valid rfl (List.append_nil _).symm (by simp)
  | copy pc =>
    refine rounded_setWorker sc.queue atIndex valid (by simp [Event.worker?]) ?_
    intro begun place
    rw [pc] at place
    cases place
    exact ⟨[],_,rfl,.copied⟩
  | call pc =>
    refine rounded_setWorker sc.queue atIndex valid (by simp [Event.worker?]) ?_
    intro begun place
    rw [pc] at place
    cases place
    exact ⟨[],_,rfl,.running⟩
  | ret pc =>
    refine rounded_setWorker sc.queue atIndex valid (by simp [Event.worker?]) ?_
    intro begun place
    rw [pc] at place
    cases place
    exact ⟨[],_,rfl,.returned⟩
  | @complete p f status pc =>
    refine rounded_setWorker sc.queue atIndex valid (by simp [Event.worker?]) ?_
    intro begun place
    rw [pc] at place
    cases place with
    | @returned _ copy =>
      exact ⟨[⟨p,copy,f,status⟩],[],by simp [Round.events],.looping⟩

theorem step_rounded {sc sc' : Scheduler π φ} {a : SchedulerAction π φ}
    (taken : sc.step a = some sc') (valid : Rounded sc) : Rounded sc' := by
  cases a with
  | worker w a =>
    obtain ⟨t,atIndex,cases⟩ := workerStep_cases taken
    exact worker_rounded atIndex cases valid
  | producer c a =>
    cases producerStep_cases taken with
    | enter | drop => exact rounded_of_others valid rfl rfl (by simp)
    | sleep | wake => exact rounded_of_others valid rfl (List.append_nil _).symm (by simp)
    | refuse | append | leave => exact rounded_of_others valid rfl rfl (by simp [Event.worker?])
  | control a =>
    cases controlStep_cases taken with
    | @spawn idx =>
      constructor
      · intro w t atIndex
        rw [List.getElem?_append] at atIndex
        split at atIndex
        · exact valid.spawned w t atIndex
        next past =>
          have atEnd : t = ⟨idx,.looping⟩ := by
            obtain ⟨_,same⟩ := List.getElem?_eq_some_iff.mp atIndex
            simpa using same.symm
          subst t
          exact ⟨[],[],valid.unspawned w (Nat.le_of_not_lt past),.looping⟩
      · intro w past
        simp only [List.length_append] at past
        exact valid.unspawned w (by omega)
    | _ => exact rounded_of_others valid rfl (List.append_nil _).symm (by simp)
  | update func =>
    cases taken
    exact rounded_of_others valid rfl rfl (by simp [Event.worker?])

/-- A copy or a call sees the function installed last, given the events before it. -/
def Current (func : φ) (before : List (Event π φ)) : Event π φ → Prop
  | .copied _ _ f | .invoked _ _ f _ => f = History.latest Event.installed? func before
  | _ => True

structure Installed (func : φ) (sc : Scheduler π φ) : Prop where
  inferFunc : sc.inferFunc = History.latest Event.installed? func sc.log
  seen : History.Every (Current func) sc.log

/-- Steps that install nothing: each event they add is current where it is added. -/
theorem installed_append {func : φ} {sc sc' : Scheduler π φ} {events : List (Event π φ)}
    (valid : Installed func sc) (log : sc'.log = sc.log ++ events)
    (same : sc'.inferFunc = sc.inferFunc) (none : ∀ e ∈ events, e.installed? = none)
    (one : events = [] ∨ ∃ e, events = [e] ∧ Current func sc.log e) : Installed func sc' := by
  constructor
  · rw [same,log,History.latest_append_none none]
    exact valid.inferFunc
  · rcases one with rfl | ⟨e,rfl,current⟩
    · simpa only [log,List.append_nil] using valid.seen
    · rw [log]
      exact History.every_append_singleton.mpr ⟨valid.seen,current⟩

theorem step_installed {func : φ} {sc sc' : Scheduler π φ} {a : SchedulerAction π φ}
    (taken : sc.step a = some sc') (valid : Installed func sc) : Installed func sc' := by
  cases a with
  | worker w a =>
    obtain ⟨t,_,cases⟩ := workerStep_cases taken
    cases cases with
    | test | takeBroken => exact installed_append valid rfl rfl (by simp) (.inl rfl)
    | sleep | wake =>
      exact installed_append valid (List.append_nil _).symm rfl (by simp) (.inl rfl)
    | take | ret | complete =>
      exact installed_append valid rfl rfl (by simp [Event.installed?]) (.inr ⟨_,rfl,trivial⟩)
    | copy | call =>
      exact installed_append valid rfl rfl (by simp [Event.installed?])
        (.inr ⟨_,rfl,valid.inferFunc⟩)
  | producer c a =>
    cases producerStep_cases taken with
    | enter | drop => exact installed_append valid rfl rfl (by simp) (.inl rfl)
    | sleep | wake =>
      exact installed_append valid (List.append_nil _).symm rfl (by simp) (.inl rfl)
    | refuse | append | leave =>
      exact installed_append valid rfl rfl (by simp [Event.installed?]) (.inr ⟨_,rfl,trivial⟩)
  | control a =>
    cases controlStep_cases taken <;>
      exact installed_append valid (List.append_nil _).symm rfl (by simp) (.inl rfl)
  | update f =>
    cases taken
    constructor
    · exact (History.latest_append_some Event.installed? func sc.log (e := .installed f) rfl).symm
    · exact History.every_append_singleton.mpr ⟨valid.seen,trivial⟩

/-- What the caller `c` of `Enqueue` has appended, by its place in the call. A success that
appended nothing needs a broken queue. -/
def Accounted (c : Nat) (broken : Bool) (appended : List (Event π φ)) : ProducerPc π → Prop
  | .idle | .pushing _ => appended = []
  | .pushed p => appended = [.appended c p]
  | .dropped _ => appended = [] ∧ broken = true
  | .returned p .success => appended = [.appended c p] ∨ appended = [] ∧ broken = true
  | .returned _ _ => appended = []

def Answered (sc : Scheduler π φ) : Prop :=
  ∀ c, Accounted c sc.queue.broken (sc.log.filter (Event.appendedBy c)) (sc.producers c)

theorem accounted_broken {c : Nat} {b : Bool} {appended : List (Event π φ)} {pc : ProducerPc π}
    (held : Accounted c b appended pc) : Accounted c true appended pc := by
  unfold Accounted at *
  split <;> simp_all
  exact held.imp_right And.left

theorem answered_of_others {sc sc' : Scheduler π φ} {events : List (Event π φ)}
    (valid : Answered sc) (producers : sc'.producers = sc.producers)
    (log : sc'.log = sc.log ++ events)
    (broken : sc'.queue.broken = sc.queue.broken ∨ sc'.queue.broken = true)
    (others : ∀ c, ∀ e ∈ events, e.appendedBy c = false) : Answered sc' := by
  intro c
  have nothing : events.filter (Event.appendedBy c) = [] := by
    apply List.filter_eq_nil_iff.mpr
    intro e member
    simp [others c e member]
  rw [producers,log,List.filter_append,nothing,List.append_nil]
  rcases broken with same | broke
  · rw [same]; exact valid c
  · rw [broke]; exact accounted_broken (valid c)

theorem answered_setProducer {sc : Scheduler π φ} {c : Nat} {pc : ProducerPc π}
    (queue : BlockingQueue π Nat Nat) {events : List (Event π φ)} (valid : Answered sc)
    (same : queue.broken = sc.queue.broken)
    (others : ∀ d ≠ c, ∀ e ∈ events, e.appendedBy d = false)
    (mine : Accounted c sc.queue.broken
      (sc.log.filter (Event.appendedBy c) ++ events.filter (Event.appendedBy c)) pc) :
    Answered ({ sc with queue := queue }.setProducer c pc events) := by
  intro d
  simp only [setProducer,List.filter_append,same]
  by_cases here : d = c
  · subst d
    simpa only [Function.update_self] using mine
  · have nothing : events.filter (Event.appendedBy d) = [] := by
      apply List.filter_eq_nil_iff.mpr
      intro e member
      simp [others d here e member]
    rw [nothing,List.append_nil,Function.update_of_ne here]
    exact valid d

theorem producer_answered {sc sc' : Scheduler π φ} {c : Nat} {a : ProducerAction π}
    (taken : ProducerStep sc c a sc') (valid : Answered sc) : Answered sc' := by
  have before := valid c
  cases taken with
  | enter pc =>
    rw [pc] at before
    exact answered_setProducer sc.queue valid rfl (by simp)
      (by simpa [Accounted] using before)
  | refuse pc =>
    rw [pc] at before
    refine answered_setProducer sc.queue valid rfl (by simp [Event.appendedBy]) ?_
    simpa [Accounted,Event.appendedBy] using before
  | append pc was _ _ now =>
    rw [pc] at before
    refine answered_setProducer _ valid (now.trans was.symm) (by simp [Event.appendedBy]) ?_
    have empty : sc.log.filter (Event.appendedBy c) = [] := before
    simp [Accounted,empty,Event.appendedBy]
  | drop pc was _ now =>
    rw [pc] at before
    refine answered_setProducer _ valid (now.trans was.symm) (by simp) ?_
    have empty : sc.log.filter (Event.appendedBy c) = [] := before
    simp [Accounted,empty,was]
  | sleep _ was _ _ now =>
    exact answered_of_others valid rfl (List.append_nil _).symm (.inl (now.trans was.symm))
      (by simp)
  | wake => exact answered_of_others valid rfl (List.append_nil _).symm (.inl rfl) (by simp)
  | leave pc =>
    refine answered_setProducer sc.queue valid rfl (by simp [Event.appendedBy]) ?_
    rcases pc with pc | pc
    · rw [pc] at before
      exact .inl (by simpa [Accounted,Event.appendedBy] using before)
    · rw [pc] at before
      exact .inr ⟨by simpa [Event.appendedBy] using before.1,before.2⟩

theorem step_answered {sc sc' : Scheduler π φ} {a : SchedulerAction π φ}
    (taken : sc.step a = some sc') (valid : Answered sc) : Answered sc' := by
  cases a with
  | worker w a =>
    obtain ⟨t,_,cases⟩ := workerStep_cases taken
    cases cases with
    | test | copy | call | ret | complete =>
      exact answered_of_others valid rfl rfl (.inl rfl) (by simp [Event.appendedBy])
    | wake => exact answered_of_others valid rfl (List.append_nil _).symm (.inl rfl) (by simp)
    | take _ _ was _ now | takeBroken _ was _ now =>
      exact answered_of_others valid rfl rfl (.inl (now.trans was.symm))
        (by simp [Event.appendedBy])
    | sleep _ _ _ same =>
      exact answered_of_others valid rfl (List.append_nil _).symm (.inl same) (by simp)
  | producer c a => exact producer_answered (producerStep_cases taken) valid
  | control a =>
    cases controlStep_cases taken with
    | breakAll => exact answered_of_others valid rfl (List.append_nil _).symm (.inr rfl) (by simp)
    | _ => exact answered_of_others valid rfl (List.append_nil _).symm (.inl rfl) (by simp)
  | update func =>
    cases taken
    exact answered_of_others valid rfl rfl (.inl rfl) (by simp [Event.appendedBy])

/-- What holds of every scheduler built with `func`, whatever is done to it. -/
structure Sound (func : φ) (sc : Scheduler π φ) : Prop where
  conserved : Conserved sc
  rounded : Rounded sc
  installed : Installed func sc
  answered : Answered sc

theorem create_sound (maxQueueSize totalRunners : Int) (func : φ) :
    Sound func (create maxQueueSize totalRunners func : Scheduler π φ) := by
  refine ⟨create_conserved _ _ _,⟨?_,fun _ _ => rfl⟩,⟨rfl,History.every_nil _⟩,fun _ => rfl⟩
  intro w t atIndex
  simp [create] at atIndex

theorem step_sound {func : φ} {sc sc' : Scheduler π φ} {a : SchedulerAction π φ}
    (taken : sc.step a = some sc') (valid : Sound func sc) : Sound func sc' :=
  ⟨step_conserved taken valid.conserved,step_rounded taken valid.rounded,
    step_installed taken valid.installed,step_answered taken valid.answered⟩

theorem machine_sound {maxQueueSize totalRunners : Int} {func : φ} {sc : Scheduler π φ}
    (reach : (machine maxQueueSize totalRunners func).Reachable sc) : Sound func sc := by
  refine reach.invariant (create_sound _ _ _) ?_
  intro sc a sc' _ valid taken
  exact step_sound taken valid

def ControlPc.beforeStop : ControlPc → Bool
  | .idle | .starting _ | .startReturned _ => true
  | _ => false

/-- The queue stays whole as long as `Stop` is not called. -/
theorem unbroken_before_stop {maxQueueSize totalRunners : Int} {func : φ} {sc : Scheduler π φ}
    (reach : (machine maxQueueSize totalRunners func).ReachableBy
      (fun _ a => a ≠ .control .stop) sc) :
    ControlPc.beforeStop sc.control = true ∧ sc.queue.broken = false := by
  refine reach.invariant (P := fun sc => ControlPc.beforeStop sc.control = true ∧
    sc.queue.broken = false) ⟨rfl,rfl⟩ ?_
  rintro sc a sc' _ ⟨early,whole⟩ allowed taken
  cases a with
  | worker w a =>
    obtain ⟨t,_,cases⟩ := workerStep_cases taken
    cases cases with
    | test | wake | copy | call | ret | complete => exact ⟨early,whole⟩
    | take _ _ _ _ now => exact ⟨early,now⟩
    | takeBroken _ was => rw [whole] at was; contradiction
    | sleep _ _ _ same => exact ⟨early,same.trans whole⟩
  | producer c a =>
    cases producerStep_cases taken with
    | enter | refuse | wake | leave => exact ⟨early,whole⟩
    | append _ _ _ _ now | sleep _ _ _ _ now => exact ⟨early,now⟩
    | drop _ was => rw [whole] at was; contradiction
  | control a =>
    cases controlStep_cases taken with
    | startAgain | start | spawn | started => exact ⟨rfl,whole⟩
    | stop | stopIdle => contradiction
    | drainWait => exact ⟨early,whole⟩
    | drained pc | clearRunning pc | breakAll pc | join pc | joined pc =>
      rw [pc] at early
      contradiction
  | update func =>
    cases taken
    exact ⟨early,whole⟩

/-- One scheduler, started and not stopped, under every interleaving of its workers, of
`Enqueue` callers and of updates: payloads are neither lost nor duplicated, each worker
goes through whole rounds of one dequeue, one call and one completion with the status of
that call, and a call runs the function installed when it is made. In particular a payload
dequeued after an update runs the function of that update or of a later one. -/
theorem executed_exactly_once {maxQueueSize totalRunners : Int} {func : φ} {sc : Scheduler π φ}
    (reach : (machine maxQueueSize totalRunners func).ReachableBy
      (fun _ a => a ≠ .control .stop) sc) :
    sc.appended = ↑sc.queue.buffer + sc.held + sc.completed ∧
    sc.invoked = sc.underway + sc.completed ∧
    (∀ c p, sc.producers c = .returned p .success →
      sc.log.filter (Event.appendedBy c) = [.appended c p]) ∧
    (∀ w t, sc.threads[w]? = some t → sc.InRounds w t) ∧
    (∀ before w idx f batch, before ++ [.invoked w idx f batch] <+: sc.log →
      f = History.latest Event.installed? func before) ∧
    (∀ before g between w p later idx f batch,
      before ++ .installed g :: (between ++ .dequeued w p :: later) ++
        [.invoked w idx f batch] <+: sc.log →
      f = g ∨ .installed f ∈ between ∨ .installed f ∈ later) := by
  have sound := machine_sound reach.reachable
  have whole := (unbroken_before_stop reach).2
  have current (before : List (Event π φ)) (w : Nat) (idx : Int) (f : φ) (batch : List π)
      (isPrefix : before ++ [.invoked w idx f batch] <+: sc.log) :
      f = History.latest Event.installed? func before :=
    sound.installed.seen before (.invoked w idx f batch) isPrefix
  refine ⟨sound.conserved.payloads,sound.conserved.calls,?_,sound.rounded.spawned,current,?_⟩
  · intro c p pc
    have answered := sound.answered c
    rw [pc,whole] at answered
    simpa [Accounted] using answered
  · intro before g between w p later idx f batch isPrefix
    rw [current _ w idx f batch isPrefix]
    rcases History.latest_after Event.installed? func before (between ++ .dequeued w p :: later)
      (e := .installed g) rfl with same | ⟨x,member,chosen⟩
    · exact .inl same
    · cases x <;> simp only [Event.installed?,Option.some.injEq,reduceCtorEq] at chosen
      subst chosen
      simpa using Or.inr member

def updatedWhileHeld : List (SchedulerAction Nat Bool) :=
  [.control .start,.control .spawn,.control .spawn,.control .spawn,
    .producer 0 (.enqueue 10),.producer 0 (.push none),.producer 0 .leave,
    .producer 1 (.enqueue 11),.producer 1 (.push none),.producer 1 .leave,
    .worker 0 .test,.worker 0 (.pop none),.worker 0 .copy,.update true,.worker 0 .call,
    .worker 0 (.ret .success),.worker 0 .complete,.worker 1 .test,.worker 1 (.pop none)]

theorem executed_exactly_once_updated : ∃ sc : Scheduler Nat Bool,
    sc.producers 0 = .returned 10 .success ∧ sc.threads.length = 2 ∧
    sc.appended = ↑sc.queue.buffer + sc.held + sc.completed ∧
    sc.log.filter (Event.appendedBy 0) = [.appended 0 10] := by
  obtain ⟨sc,reach,seen⟩ := Transition.Machine.exec_observed
    (m := (machine 4 2 false).restrict fun _ a => a ≠ .control .stop) updatedWhileHeld
    (fun sc : Scheduler Nat Bool => (sc.producers 0,sc.threads.length))
    (.returned 10 .success,2) rfl
  obtain ⟨answered,two⟩ := Prod.mk.injEq .. ▸ seen
  have facts := executed_exactly_once (Transition.Machine.restrict_reachable reach)
  exact ⟨sc,answered,two,facts.1,facts.2.2.1 0 10 answered⟩

end Scheduler
end InferenceServer
