import InferenceServer.AcceptedRequests
import InferenceServer.Wakeups

/-! Waiting for space in a queue, and what it does to everybody else: the caller that waits
holds `model_map_mu_`. -/
namespace InferenceServer

variable {π φ : Type}

namespace Scheduler

/-- Who sleeps for want of space is inside `push`, and while somebody sleeps the queue is
full. -/
structure Resting (sc : Scheduler π φ) : Prop where
  pushing : ∀ c ∈ sc.queue.popEvent.asleep, ∃ p, sc.producers c = .pushing p
  distinct : sc.queue.popEvent.asleep.Nodup
  full : sc.queue.popEvent.asleep ≠ [] →
    sc.queue.broken = false ∧ sc.queue.capacity ≤ sc.queue.buffer.length

theorem resting_of_same {sc sc' : Scheduler π φ} (valid : Resting sc)
    (queue : sc'.queue = sc.queue)
    (producers : ∀ c ∈ sc.queue.popEvent.asleep, sc'.producers c = sc.producers c) :
    Resting sc' := by
  constructor
  · intro c sleeps
    rw [queue] at sleeps
    rw [producers c sleeps]
    exact valid.pushing c sleeps
  · rw [queue]
    exact valid.distinct
  · rw [queue]
    exact valid.full

/-- If at most one producer sleeps, every step keeps it so that it sleeps on a full queue. -/
theorem step_resting {sc sc' : Scheduler π φ} {a : SchedulerAction π φ}
    (alone : ∀ c ∈ sc.queue.popEvent.asleep, ∀ d ∈ sc.queue.popEvent.asleep, c = d)
    (taken : sc.step a = some sc') (valid : Resting sc) : Resting sc' := by
  have emptied {asleep : List Nat} (none : asleep = []) (same : sc'.queue.popEvent.asleep = asleep) :
      Resting sc' := by
    rw [none] at same
    refine ⟨by simp [same],by simp [same],by simp [same]⟩
  have mover {c : Nat} (still : ∀ p, sc.producers c ≠ .pushing p) {pc : ProducerPc π} :
      ∀ d ∈ sc.queue.popEvent.asleep,
        Function.update sc.producers c pc d = sc.producers d := by
    intro d sleeps
    have other : d ≠ c := by
      rintro rfl
      obtain ⟨p,pushing⟩ := valid.pushing d sleeps
      exact still p pushing
    exact Function.update_of_ne other _ _
  cases a with
  | worker w a =>
    by_cases pops : ∃ wake, a = .pop wake
    · obtain ⟨wake,rfl⟩ := pops
      obtain ⟨t,result,_,_,popped,producers,_⟩ := pop_taken taken
      obtain ⟨capacity,broken,cases⟩ := BlockingQueue.pop_cases popped
      rcases BlockingQueue.pop_asleep popped with ⟨x,_,⟨_,none⟩ | ⟨c,sleeps,erased⟩⟩ | ⟨other,same⟩
      · exact emptied rfl none
      · refine emptied ?_ erased
        apply List.eq_nil_iff_forall_not_mem.mpr
        intro d member
        obtain ⟨apart,there⟩ := (valid.distinct.mem_erase_iff).mp member
        exact apart (alone d there c sleeps)
      · have buffer : sc'.queue.buffer = sc.queue.buffer := by
          rcases cases with ⟨_,_,buffer⟩ | ⟨x,item,_⟩ | ⟨_,_,empty,empty'⟩
          · exact buffer
          · exact absurd item (other x)
          · rw [empty,empty']
        refine ⟨?_,?_,?_⟩
        · rw [same,producers]
          exact valid.pushing
        · rw [same]
          exact valid.distinct
        · rw [same,broken,capacity,buffer]
          exact valid.full
    · obtain ⟨t,_,cases⟩ := workerStep_cases taken
      cases cases with
      | test | copy | call | ret | complete => exact resting_of_same valid rfl fun _ _ => rfl
      | wake => exact ⟨valid.pushing,valid.distinct,valid.full⟩
      | take | takeBroken | sleep => exact absurd ⟨_,rfl⟩ pops
  | producer c a =>
    by_cases pushes : ∃ wake, a = .push wake
    · obtain ⟨wake,rfl⟩ := pushes
      obtain ⟨p,result,pc,pushed,kept,others⟩ := push_taken taken
      obtain ⟨awake,asleep⟩ := BlockingQueue.push_asleep pushed
      obtain ⟨capacity,broken,cases⟩ := BlockingQueue.push_cases pushed
      have old (d : Nat) (sleeps : d ∈ sc.queue.popEvent.asleep) : ∃ p, sc'.producers d = .pushing p := by
        rw [others d fun same => awake (same ▸ sleeps)]
        exact valid.pushing d sleeps
      have gone (none : sc.queue.popEvent.asleep = []) (moved : result ≠ .waiting) : Resting sc' :=
        emptied none (by rw [asleep,if_neg moved])
      by_cases none : sc.queue.popEvent.asleep = []
      all_goals rcases cases with ⟨rfl,was,_⟩ | ⟨rfl,_,space,_⟩ | ⟨rfl,whole,full,buffer⟩
      · exact gone none (by simp)
      · exact gone none (by simp)
      · refine ⟨?_,by rw [asleep]; simp [none],
          fun _ => ⟨by rw [broken,whole],by rw [capacity,buffer]; exact full⟩⟩
        rw [asleep,none,kept rfl]
        simp [pc]
      · rw [(valid.full none).1] at was
        contradiction
      · have full := (valid.full none).2
        omega
      · refine ⟨?_,?_,fun _ => ⟨by rw [broken,whole],by rw [capacity,buffer]; exact full⟩⟩
        · rw [asleep,if_pos rfl]
          intro d sleeps
          rcases List.mem_cons.mp sleeps with rfl | there
          · exact ⟨p,by rw [kept rfl,pc]⟩
          · exact old d there
        · rw [asleep,if_pos rfl]
          exact List.nodup_cons.mpr ⟨awake,valid.distinct⟩
    · cases producerStep_cases taken with
      | append | drop | sleep => exact absurd ⟨_,rfl⟩ pushes
      | enter pc | refuse pc => exact resting_of_same valid rfl (mover (by simp [pc]))
      | leave pc =>
        refine resting_of_same valid rfl (mover ?_)
        rcases pc with pc | pc <;> simp [pc]
      | wake =>
        refine ⟨fun d sleeps => valid.pushing d (List.mem_of_mem_erase sleeps),
          valid.distinct.erase c,fun some => valid.full fun none => some ?_⟩
        simp [BlockingQueue.wakeProducer,CondVar.spurious,none]
  | control a =>
    cases controlStep_cases taken with
    | breakAll => exact emptied rfl rfl
    | _ => exact resting_of_same valid rfl fun _ _ => rfl
  | update func =>
    cases taken
    exact resting_of_same valid rfl fun _ _ => rfl

end Scheduler

inductive Client where
  | infer (c : Nat)
  | status (c : Nat)
  | health (c : Nat)
  | refresh

def Client.acts : Client → ServerAction → Prop
  | .infer c, .caller d _ | .status c, .status d _ | .health c, .health d _ => c = d
  | .refresh, .cycle _ => True
  | _, _ => False

/-- The client has a next step, and is not inside a section of `model_map_mu_`. -/
def Client.ready (sv : Server) : Client → Prop
  | .infer c => ∃ p, sv.callers c = .entering p
  | .status c => sv.statuses c = .collecting ∨ ∃ listed, sv.statuses c = .counting listed
  | .health c => sv.healths c = .counting
  | .refresh => sv.cycle ≠ .idle ∧ sv.cycle ≠ .finished

def Holder.acts : Holder → ServerAction → Prop
  | .caller c, .caller d _ => c = d
  | .loader, .cycle _ | .stopper, .main _ => True
  | _, _ => False

def ServerAction.takesMap : ServerAction → Bool
  | .caller _ .lookup | .status _ .collect | .status _ .count | .health _ .count
  | .cycle .mark | .cycle .check | .cycle .insert | .cycle .lock | .cycle .erase
  | .main .lock => true
  | _ => false

namespace Server

open Store

variable {config : ServerConfig} {sv sv' : Server}

/-- Caller `c` sleeps inside `push` until the queue of scheduler `k` has space. -/
def WaitsForSpace (sv : Server) (c k : Nat) : Prop :=
  c ∈ (sv.schedulers k).queue.popEvent.asleep

theorem waiting_inside (reach : (machine config).Reachable sv) {c k : Nat}
    (resting : (sv.schedulers k).Resting) (waits : WaitsForSpace sv c k) :
    ∃ p, sv.callers c = .enqueuing p k := by
  obtain ⟨p,pushing⟩ := resting.pushing c waits
  have standing := (reachable_calls reach).standing k c
  rw [pushing] at standing
  exact ⟨p,standing⟩

theorem inside_unique (reach : (machine config).Reachable sv) {c d j k : Nat} {p q : Payload}
    (first : sv.callers c = .enqueuing p k) (second : sv.callers d = .enqueuing q j) :
    d = c ∧ j = k := by
  have same := (reachable_locked reach).unique (t := .caller c) (u := .caller d) ⟨p,k,first⟩
    ⟨q,j,second⟩
  cases same
  rw [first] at second
  cases second
  exact ⟨rfl,rfl⟩

theorem reachable_resting (reach : (machine config).Reachable sv) (k : Nat) :
    (sv.schedulers k).Resting := by
  have nobody (maxQueueSize totalRunners : Int) (func : Nat) :
      (Scheduler.create maxQueueSize totalRunners func : Scheduler Payload Nat).Resting := by
    constructor <;> simp [Scheduler.create,BlockingQueue.create,CondVar.empty]
  refine reach.invariant (P := fun sv => (sv.schedulers k).Resting) (nobody 0 0 0) ?_
  intro sv a sv' before valid taken
  cases reachable_moves before taken k with
  | still same => rwa [same]
  | created _ _ same => rw [same]; exact nobody _ _ _
  | moved _ _ _ stepped =>
    refine Scheduler.step_resting ?_ stepped valid
    intro c first d second
    obtain ⟨p,inside⟩ := waiting_inside before valid first
    obtain ⟨q,inside'⟩ := waiting_inside before valid second
    exact (inside_unique before inside inside').1.symm

/-- The sections of `LoadModels` that take the mutex find it free. -/
theorem cycle_free {a : CycleAction} (takes : (ServerAction.cycle a).takesMap = true)
    (taken : sv.cycleStep a = some sv') : sv.modelMapMu = none := by
  cases cycleStep_cases taken with
  | mark _ free | check _ free | insert _ _ free | reject _ _ free | missing _ free | lock _ free
  | gone _ free | erase _ free => exact free
  | _ => contradiction

theorem takesMap_blocked {a : ServerAction} (takes : a.takesMap = true)
    (held : sv.modelMapMu ≠ none) : sv.step a = none := by
  cases a with
  | cycle a =>
    apply Option.eq_none_iff_forall_ne_some.mpr
    intro sv' taken
    exact held (cycle_free takes taken)
  | main a =>
    cases a with
    | lock => simp [step,mainStep,held]
    | _ => contradiction
  | caller c a =>
    cases a with
    | lookup => cases pc : sv.callers c <;> simp [step,callerStep,pc,held]
    | _ => contradiction
  | status c a =>
    cases a with
    | collect | count => cases pc : sv.statuses c <;> simp [step,statusStep,pc,held]
    | _ => contradiction
  | health c a =>
    cases a with
    | count => cases pc : sv.healths c <;> simp [step,healthStep,pc,held]
    | _ => contradiction
  | _ => contradiction

/-- The destruction of a context waits for one of its workers to exit. -/
def Joining (sv : Server) (t : Teardown) : Prop :=
  ∃ j w, (sv.schedulers t.context.scheduler).control = .joining j ∧
    (sv.schedulers t.context.scheduler).threads[j]? = some w ∧ w.pc ≠ .exited

def Draining (sv : Server) (t : Teardown) : Prop :=
  t.stage = .stopping ∧ (sv.schedulers t.context.scheduler).control = .draining ∧
    (sv.schedulers t.context.scheduler).queue.buffer ≠ []

def Polls (sv : Server) (t : Teardown) (a : TeardownAction) : Prop :=
  (∃ elapsed, a = .drain elapsed) ∧ (sv.schedulers t.context.scheduler).queue.buffer ≠ []

def Polling (sv : Server) (act : ServerAction) : Prop :=
  ∃ t a, sv.tearing? act = some (t,a) ∧ Polls sv t a

theorem teardown_advances {t : Teardown} (torn : Torn sv.store t) :
    (∃ a next, sv.teardownStep t a = some next ∧ ¬Polls sv t a) ∨ Joining sv t ∨
      Draining sv t := by
  have act (a : TeardownAction) (plain : ∀ elapsed, a ≠ .drain elapsed)
      (taken : ∃ next, sv.teardownStep t a = some next) :
      (∃ a next, sv.teardownStep t a = some next ∧ ¬Polls sv t a) ∨ Joining sv t ∨
        Draining sv t := by
    obtain ⟨next,taken⟩ := taken
    exact .inl ⟨a,next,taken,fun ⟨⟨elapsed,same⟩,_⟩ => plain elapsed same⟩
  obtain ⟨context,stage⟩ := t
  obtain ⟨_,_,rest⟩ := torn
  cases stage with
  | backendInfo => exact act .release (by simp) ⟨_,rfl⟩
  | scheduler =>
    obtain ⟨⟨control,running⟩,_⟩ := rest
    change (sv.schedulers context.scheduler).control = _ at control
    change (sv.schedulers context.scheduler).running = _ at running
    exact act .stop (by simp) (by simp [teardownStep,Server.controlStep,Scheduler.controlStep,
      control,running,ControlPc.ready])
  | stopping =>
    obtain ⟨stopping,_⟩ := rest
    change (sv.schedulers context.scheduler).control.stopping at stopping
    cases control : (sv.schedulers context.scheduler).control with
    | idle | starting | startReturned =>
      rw [control] at stopping
      exact stopping.elim
    | draining =>
      by_cases empty : (sv.schedulers context.scheduler).queue.buffer = []
      · have taken : ∃ next, sv.teardownStep ⟨context,.stopping⟩ (.drain 0) = some next := by
          simp [teardownStep,Server.controlStep,Scheduler.controlStep,control,BlockingQueue.size,
            empty]
        obtain ⟨next,taken⟩ := taken
        exact .inl ⟨.drain 0,next,taken,fun polls => polls.2 empty⟩
      · exact .inr (.inr ⟨rfl,control,empty⟩)
    | clearing =>
      exact act .clearRunning (by simp)
        (by simp [teardownStep,Server.controlStep,Scheduler.controlStep,control])
    | breaking =>
      exact act .breakAll (by simp)
        (by simp [teardownStep,Server.controlStep,Scheduler.controlStep,control])
    | stopReturned => exact act .destroy (by simp) (by simp [teardownStep,control])
    | joining j =>
      cases there : (sv.schedulers context.scheduler).threads[j]? with
      | none =>
        exact act .join (by simp)
          (by simp [teardownStep,Server.controlStep,Scheduler.controlStep,control,there])
      | some w =>
        by_cases exited : w.pc = .exited
        · exact act .join (by simp) (by simp [teardownStep,Server.controlStep,
            Scheduler.controlStep,control,there,exited,WorkerPc.isExited])
        · exact .inr (.inl ⟨j,w,control,there,exited⟩)

theorem tearing_taken {act : ServerAction} {t : Teardown} {a : TeardownAction}
    {next : Server × Option Teardown} (tears : sv.tearing? act = some (t,a))
    (taken : sv.teardownStep t a = some next) : ∃ sv', sv.step act = some sv' := by
  unfold tearing? at tears
  split at tears
  · split at tears
    next pc => cases tears; simp [step,cycleStep,pc,taken]
    next pc => cases tears; simp [step,cycleStep,pc,taken]
    · contradiction
  · split at tears
    next pc => cases tears; simp [step,mainStep,pc,taken]
    · contradiction
  · contradiction

/-- The same for the thread that destroys the context. Its wait for the queue ends after
`MAX_SCHEDULER_DEPLETION_WAIT_TIME` at the latest. -/
theorem tearing_advances {t : Teardown} {act : TeardownAction → ServerAction}
    (torn : Torn sv.store t) (tears : ∀ a, sv.tearing? (act a) = some (t,a)) :
    (∃ a sv', sv.step (act a) = some sv' ∧ ¬Polling sv (act a)) ∨ Joining sv t ∨
      Draining sv t ∧ ∃ a sv', sv.step (act a) = some sv' := by
  rcases teardown_advances torn with ⟨a,next,taken,progress⟩ | joining | draining
  · obtain ⟨sv',stepped⟩ := tearing_taken (tears a) taken
    refine .inl ⟨a,sv',stepped,?_⟩
    rintro ⟨u,b,same,polls⟩
    rw [tears] at same
    cases same
    exact progress polls
  · exact .inr (.inl joining)
  · have ⟨stage,control,_⟩ := draining
    have waits : ∃ next,
        sv.teardownStep t (.drain Constants.maxSchedulerDepletionWaitTime) = some next := by
      simp [teardownStep,stage,Server.controlStep,Scheduler.controlStep,control]
    obtain ⟨next,taken⟩ := waits
    exact .inr (.inr ⟨draining,_,tearing_taken (tears _) taken⟩)

/-- A caller inside `Enqueue` that does not wait for space has a next step. -/
theorem inside_enabled (reach : (machine config).Reachable sv) {c k : Nat} {p : Payload}
    (inside : sv.callers c = .enqueuing p k) (awake : ¬WaitsForSpace sv c k) :
    ∃ a sv', sv.step (.caller c a) = some sv' := by
  have standing := (reachable_calls reach).standing k c
  cases place : (sv.schedulers k).producers c with
  | idle =>
    refine ⟨.enqueue,?_⟩
    simp only [step,callerStep,enqueueStep,inside,Scheduler.producerStep,place]
    split <;> exact ⟨_,rfl⟩
  | pushing q =>
    rw [place,inside] at standing
    cases standing
    obtain ⟨wake,⟨result,queue⟩,pushed⟩ :=
      BlockingQueue.push_enabled (sv.schedulers k).queue p awake
    exact ⟨.push wake,by simp [step,callerStep,enqueueStep,inside,Scheduler.producerStep,place,
      pushed]⟩
  | pushed | dropped =>
    exact ⟨.leave,by simp [step,callerStep,enqueueStep,inside,Scheduler.producerStep,place]⟩
  | returned => exact ⟨.finish,by simp [step,callerStep,inside,place]⟩

/-- With the mutex free `LoadModels` has a next step, unless it waits for a worker to exit or
for a queue to run empty. -/
theorem cycle_advances (reach : (machine config).Reachable sv) (free : sv.modelMapMu = none)
    (busy : Client.ready sv .refresh) :
    (∃ a sv', sv.step (.cycle a) = some sv' ∧ ¬Polling sv (.cycle a)) ∨
      ∃ t lists, sv.cycle = .tearing t lists ∧
        (Joining sv t ∨ Draining sv t ∧ ∃ a sv', sv.step (.cycle a) = some sv') := by
  have act (a : CycleAction) (plain : ∀ b, a ≠ .teardown b)
      (taken : ∃ sv', sv.step (.cycle a) = some sv') :
      ∃ a sv', sv.step (.cycle a) = some sv' ∧ ¬Polling sv (.cycle a) := by
    obtain ⟨sv',taken⟩ := taken
    refine ⟨a,sv',taken,?_⟩
    rintro ⟨t,b,tears,_⟩
    cases a with
    | teardown b => exact plain b rfl
    | _ => contradiction
  have locals := (reachable_valid reach).cycle
  have unlocked : sv.cycle.locked ≠ true := by
    have locked := reachable_locked reach
    unfold Locked at locked
    rw [free] at locked
    exact locked.free .loader
  cases pc : sv.cycle with
  | idle => exact absurd pc busy.1
  | finished => exact absurd pc busy.2
  | listing => exact .inl (act (.list []) (by simp) (by simp [step,cycleStep,pc]))
  | marking => exact .inl (act .mark (by simp) (by simp [step,cycleStep,pc,free]))
  | scanning names lists =>
    cases names with
    | nil => exact .inl (act .next (by simp) (by simp [step,cycleStep,pc]))
    | cons name rest => exact .inl (act (.scan none []) (by simp) (by simp [step,cycleStep,pc]))
  | checking load rest lists =>
    refine .inl (act .check (by simp) ?_)
    cases present : sv.modelMap.lookup load.modelName with
    | none => simp [step,cycleStep,pc,free,classify,present]
    | some context =>
      obtain ⟨info,_,owned,_⟩ := entry_bound reach free present
      simp [step,cycleStep,pc,free,classify,present,owned]
  | adding lists =>
    obtain ⟨added,updated,deleted⟩ := lists
    cases added with
    | nil => exact .inl (act .next (by simp) (by simp [step,cycleStep,pc]))
    | cons load rest => exact .inl (act (.load none) (by simp) (by simp [step,cycleStep,pc,loadModel]))
  | constructing info name lists =>
    rw [pc] at locals
    obtain ⟨b,loaded,_⟩ := locals
    exact .inl (act .construct (by simp) (by simp [step,cycleStep,pc,loaded.owned]))
  | starting context name lists =>
    rw [pc] at locals
    obtain ⟨_,control,running⟩ := locals
    change (sv.schedulers context.scheduler).control = _ at control
    change (sv.schedulers context.scheduler).running = _ at running
    exact .inl (act .start (by simp) (by simp [step,cycleStep,pc,Server.controlStep,
      Scheduler.controlStep,control,running,ControlPc.ready]))
  | spawning context name lists =>
    rw [pc] at locals
    obtain ⟨_,⟨idx,control⟩ | control,_⟩ := locals
    all_goals change (sv.schedulers context.scheduler).control = _ at control
    · refine .inl (act .spawn (by simp) ?_)
      simp only [step,cycleStep,pc,Server.controlStep,Scheduler.controlStep,control]
      split <;> exact ⟨_,rfl⟩
    · refine .inl (act .insert (by simp) ?_)
      simp only [step,cycleStep,pc,control,free,if_pos]
      split <;> exact ⟨_,rfl⟩
  | rejecting | installing | swapping =>
    rw [pc] at unlocked
    exact absurd rfl unlocked
  | updating lists =>
    obtain ⟨added,updated,deleted⟩ := lists
    cases updated with
    | nil => exact .inl (act .next (by simp) (by simp [step,cycleStep,pc]))
    | cons load rest => exact .inl (act (.load none) (by simp) (by simp [step,cycleStep,pc,loadModel]))
  | locking info name lists =>
    refine .inl (act .lock (by simp) ?_)
    cases present : sv.modelMap.lookup name <;> simp [step,cycleStep,pc,free,present]
  | resetting info lists => exact .inl (act .reset (by simp) (by simp [step,cycleStep,pc]))
  | deleting lists =>
    obtain ⟨added,updated,deleted⟩ := lists
    cases deleted with
    | nil => exact .inl (act .next (by simp) (by simp [step,cycleStep,pc]))
    | cons name rest =>
      refine .inl (act .erase (by simp) ?_)
      cases present : sv.modelMap.lookup name <;> simp [step,cycleStep,pc,free,present]
  | tearing t lists =>
    rw [pc] at locals
    have tears (a : TeardownAction) : sv.tearing? (.cycle (.teardown a)) = some (t,a) := by
      simp only [tearing?,pc]
    rcases tearing_advances locals tears with
      ⟨a,progress⟩ | joining | ⟨draining,a,polls⟩
    · exact .inl ⟨.teardown a,progress⟩
    · exact .inr ⟨t,lists,rfl,.inl joining⟩
    · exact .inr ⟨t,lists,rfl,.inr ⟨draining,_,polls⟩⟩

theorem cycle_enabled (reach : (machine config).Reachable sv) (free : sv.modelMapMu = none)
    (busy : Client.ready sv .refresh) :
    (∃ a sv', sv.step (.cycle a) = some sv') ∨
      ∃ t lists, sv.cycle = .tearing t lists ∧ Joining sv t := by
  rcases cycle_advances reach free busy with ⟨a,sv',taken,_⟩ | ⟨t,lists,pc,joining | ⟨_,polls⟩⟩
  · exact .inl ⟨a,sv',taken⟩
  · exact .inr ⟨t,lists,pc,joining⟩
  · exact .inl polls

/-- With the mutex free every client that is ready has a next step. -/
theorem client_enabled (reach : (machine config).Reachable sv) (free : sv.modelMapMu = none)
    {x : Client} (ready : x.ready sv) :
    (∃ a sv', x.acts a ∧ sv.step a = some sv') ∨
      x = .refresh ∧ ∃ t lists, sv.cycle = .tearing t lists ∧ Joining sv t := by
  cases x with
  | infer c =>
    obtain ⟨p,here⟩ := ready
    refine .inl ⟨.caller c .lookup,?_⟩
    cases present : sv.modelMap.lookup p.modelName <;>
      simp [Client.acts,step,callerStep,here,free,present]
  | status c =>
    rcases ready with here | ⟨listed,here⟩
    · obtain ⟨status,listed,_⟩ := getModelStatus_some (reachable_owned reach free)
      exact .inl ⟨.status c .collect,by simp [Client.acts,step,statusStep,here,free,listed]⟩
    · exact .inl ⟨.status c .count,by simp [Client.acts,step,statusStep,here,free]⟩
  | health c =>
    exact .inl ⟨.health c .count,by
      simp [Client.acts,step,healthStep,show sv.healths c = .counting from ready,free]⟩
  | refresh =>
    rcases cycle_enabled reach free ready with ⟨a,sv',taken⟩ | joining
    · exact .inl ⟨.cycle a,sv',trivial,taken⟩
    · exact .inr ⟨rfl,joining⟩

/-- Whoever holds the mutex and does not wait for space has a next step, unless it destroys a
context and waits for one of its workers to exit or for its queue to run empty. -/
theorem holder_advances (reach : (machine config).Reachable sv) {h : Holder}
    (held : sv.modelMapMu = some h) (awake : ∀ c k, ¬WaitsForSpace sv c k) :
    (∃ a sv', h.acts a ∧ sv.step a = some sv' ∧ ¬Polling sv a) ∨
      ∃ t, (sv.main = .tearing t ∨ ∃ lists, sv.cycle = .rejecting t lists) ∧
        (Joining sv t ∨ Draining sv t ∧ ∃ a sv', h.acts a ∧ sv.step a = some sv') := by
  have act (a : ServerAction) (acts : h.acts a) (plain : sv.tearing? a = none)
      (taken : ∃ sv', sv.step a = some sv') :
      ∃ a sv', h.acts a ∧ sv.step a = some sv' ∧ ¬Polling sv a := by
    obtain ⟨sv',taken⟩ := taken
    refine ⟨a,sv',acts,taken,?_⟩
    rintro ⟨t,b,tears,_⟩
    rw [plain] at tears
    contradiction
  have inside := (reachable_locked reach h).mp held
  obtain ⟨_,locals,own⟩ := reachable_valid reach
  cases h with
  | caller c =>
    obtain ⟨p,k,there⟩ := inside
    obtain ⟨a,taken⟩ := inside_enabled reach there (awake c k)
    exact .inl (act (.caller c a) rfl rfl taken)
  | loader =>
    cases pc : sv.cycle with
    | rejecting t lists =>
      rw [pc] at locals
      have tears (a : TeardownAction) : sv.tearing? (.cycle (.teardown a)) = some (t,a) := by
        simp only [tearing?,pc]
      rcases tearing_advances locals tears with
        ⟨a,sv',progress⟩ | joining | ⟨draining,a,sv',polls⟩
      · exact .inl ⟨.cycle (.teardown a),sv',trivial,progress⟩
      · exact .inr ⟨t,.inr ⟨lists,rfl⟩,.inl joining⟩
      · exact .inr ⟨t,.inr ⟨lists,rfl⟩,.inr ⟨draining,.cycle (.teardown a),sv',trivial,polls⟩⟩
    | installing info name lists =>
      rw [pc] at locals
      obtain ⟨⟨context,present⟩,b,loaded,_⟩ := locals
      change sv.modelMap.lookup name = some context at present
      exact .inl (act (.cycle .install) trivial rfl (by
        simp [step,cycleStep,pc,present,loaded.owned]))
    | swapping info name lists =>
      rw [pc] at locals
      obtain ⟨context,present,_⟩ := locals
      change sv.modelMap.lookup name = some context at present
      exact .inl (act (.cycle .swap) trivial rfl (by simp [step,cycleStep,pc,present]))
    | _ => simp [Inside,pc,CyclePc.locked] at inside
  | stopper =>
    cases pc : sv.main with
    | clearing =>
      cases keys : sv.modelMap.keys with
      | nil => exact .inl (act (.main .unlock) trivial rfl (by simp [step,mainStep,pc,keys]))
      | cons name rest =>
        have member : name ∈ sv.modelMap := AList.mem_keys.mpr (by simp [keys])
        obtain ⟨context,present⟩ := Option.isSome_iff_exists.mp (AList.lookup_isSome.mpr member)
        exact .inl (act (.main (.clear name)) trivial rfl (by simp [step,mainStep,pc,present]))
    | tearing t =>
      rw [pc] at own
      have tears (a : TeardownAction) : sv.tearing? (.main (.teardown a)) = some (t,a) := by
        simp only [tearing?,pc]
      rcases tearing_advances own tears with
        ⟨a,sv',progress⟩ | joining | ⟨draining,a,sv',polls⟩
      · exact .inl ⟨.main (.teardown a),sv',trivial,progress⟩
      · exact .inr ⟨t,.inl rfl,.inl joining⟩
      · exact .inr ⟨t,.inl rfl,.inr ⟨draining,.main (.teardown a),sv',trivial,polls⟩⟩
    | _ => simp [Inside,pc,MainPc.locked] at inside

theorem holder_enabled (reach : (machine config).Reachable sv) {h : Holder}
    (held : sv.modelMapMu = some h) (awake : ∀ c k, ¬WaitsForSpace sv c k) :
    (∃ a sv', h.acts a ∧ sv.step a = some sv') ∨
      ∃ t, (sv.main = .tearing t ∨ ∃ lists, sv.cycle = .rejecting t lists) ∧ Joining sv t := by
  rcases holder_advances reach held awake with
    ⟨a,sv',acts,taken,_⟩ | ⟨t,place,joining | ⟨_,polls⟩⟩
  · exact .inl ⟨a,sv',acts,taken⟩
  · exact .inr ⟨t,place,joining⟩
  · exact .inl polls

/-- Whoever waits for space is an `InferAsync` caller that holds `model_map_mu_`, alone, on
the full queue of the model it looked up, and nobody else can take the mutex. While nobody
waits, a full queue disables nothing: whoever holds the mutex can go on, and once it is free
everybody can, up to the destruction of a context that waits for one of its workers. -/
theorem full_queue_blocks_by_mutex {config : ServerConfig} {sv : Server}
    (reach : (machine config).Reachable sv) :
    (∀ c k, WaitsForSpace sv c k →
      sv.modelMapMu = some (.caller c) ∧
      (∃ p context, sv.callers c = .enqueuing p k ∧
        sv.modelMap.lookup p.modelName = some context ∧ context.scheduler = k) ∧
      (sv.schedulers k).queue.broken = false ∧
      (sv.schedulers k).queue.capacity ≤ (sv.schedulers k).queue.buffer.length ∧
      (∀ d j, WaitsForSpace sv d j → d = c ∧ j = k) ∧
      ∀ a, a.takesMap = true → sv.step a = none) ∧
    ((∀ c k, ¬WaitsForSpace sv c k) →
      (∀ h, sv.modelMapMu = some h → (∃ a sv', h.acts a ∧ sv.step a = some sv') ∨
        ∃ t, (sv.main = .tearing t ∨ ∃ lists, sv.cycle = .rejecting t lists) ∧ Joining sv t) ∧
      (sv.modelMapMu = none → ∀ x : Client, x.ready sv →
        (∃ a sv', x.acts a ∧ sv.step a = some sv') ∨
        x = .refresh ∧ ∃ t lists, sv.cycle = .tearing t lists ∧ Joining sv t)) := by
  constructor
  · intro c k waits
    have resting := reachable_resting reach k
    obtain ⟨p,inside⟩ := waiting_inside reach resting waits
    have held : sv.modelMapMu = some (.caller c) := (reachable_locked reach _).mpr ⟨p,k,inside⟩
    obtain ⟨context,present,same⟩ := reachable_placed reach c p k inside
    obtain ⟨whole,full⟩ := resting.full fun none => by simp [WaitsForSpace,none] at waits
    refine ⟨held,⟨p,context,inside,present,same⟩,whole,full,fun d j also => ?_,fun a takes => ?_⟩
    · obtain ⟨q,inside'⟩ := waiting_inside reach (reachable_resting reach j) also
      exact inside_unique reach inside inside'
    · exact takesMap_blocked takes (by simp [held])
  · intro awake
    exact ⟨fun h held => holder_enabled reach held awake,
      fun free x ready => client_enabled reach free ready⟩

def loadOneRun : List CycleAction :=
  [.load (some (cpuConfig 1)),.construct,.start,.spawn,.spawn,.insert]

/-- Two models; the queue of "m" is full and a second request for it waits. A request for
"n", a refresh and two status requests come after it. -/
def congestedRun : List ServerAction :=
  [.main .start] ++ List.map ServerAction.cycle
    ([.list ["m","n"],.mark,.scan (some (cpuConfig 1)) ["1"],.check,
      .scan (some (cpuConfig 1)) ["1"],.check,.next] ++ loadOneRun ++ loadOneRun ++
      [.next,.next,.next]) ++ [.main .loaded] ++ submitRun 0 "m" ++
  List.map (ServerAction.caller 1) [.call "m" (-1),.lookup,.enqueue,.push none] ++
  [.caller 2 (.call "n" (-1)),.status 0 .call,.health 0 (.call "ready")] ++
  List.map ServerAction.updater [.enter,.test,.timeout,.decide] ++ [.cycle (.list ["m","n"])]

/-- A caller that waits for space in the queue of "m" holds the mutex: neither a lookup of
"n", whose queue is empty, nor a status or health request, nor the refresh can go on. -/
theorem waiting_blocks_others : ∃ (config : ServerConfig) (sv : Server) (n : ModelRunContext),
    (machine config).Reachable sv ∧ WaitsForSpace sv 1 0 ∧ sv.modelMapMu = some (.caller 1) ∧
    sv.modelMap.lookup "n" = some n ∧ n.scheduler = 1 ∧
    (sv.schedulers 1).queue.buffer.length < (sv.schedulers 1).queue.capacity ∧
    sv.callers 2 = .entering ⟨2,"n",-1⟩ ∧ sv.statuses 0 = .collecting ∧
    sv.healths 0 = .counting ∧ sv.cycle = .marking ["m","n"] ∧
    ∀ a ∈ [ServerAction.caller 2 .lookup,.status 0 .collect,.health 0 .count,.cycle .mark],
      sv.step a = none := by
  obtain ⟨sv,reach,seen⟩ := Transition.Machine.exec_observed (m := machine ⟨true,1⟩) congestedRun
    (fun sv => ((sv.schedulers 0).queue.popEvent.asleep,sv.modelMapMu,
      (sv.modelMap.lookup "n").map (·.scheduler),(sv.schedulers 1).queue.buffer.length,
      (sv.schedulers 1).queue.capacity,sv.callers 2,sv.statuses 0,sv.healths 0,sv.cycle))
    ([1],some (.caller 1),some 1,0,1,.entering ⟨2,"n",-1⟩,.collecting,.counting,
      .marking ["m","n"]) rfl
  simp only [Prod.mk.injEq] at seen
  obtain ⟨asleep,held,entry,empty,capacity,caller,status,health,cycle⟩ := seen
  obtain ⟨n,present,one⟩ := Option.map_eq_some_iff.mp entry
  refine ⟨_,sv,n,reach,by simp [WaitsForSpace,asleep],held,present,one,by omega,caller,status,
    health,cycle,fun a member => takesMap_blocked ?_ (by simp [held])⟩
  simp only [List.mem_cons,List.not_mem_nil,or_false] at member
  rcases member with rfl | rfl | rfl | rfl <;> rfl

theorem full_queue_blocks_congested : ∃ sv : Server, WaitsForSpace sv 1 0 ∧
    (∀ d j, WaitsForSpace sv d j → d = 1 ∧ j = 0) ∧
    ∀ a : ServerAction, a.takesMap = true → sv.step a = none := by
  obtain ⟨sv,reach,asleep⟩ := Transition.Machine.exec_observed (m := machine ⟨true,1⟩) congestedRun
    (fun sv => (sv.schedulers 0).queue.popEvent.asleep) [1] rfl
  have waits : WaitsForSpace sv 1 0 := by simp [WaitsForSpace,asleep]
  obtain ⟨_,_,_,_,only,blocked⟩ := (full_queue_blocks_by_mutex reach).1 1 0 waits
  exact ⟨sv,waits,only,blocked⟩

end Server
end InferenceServer
