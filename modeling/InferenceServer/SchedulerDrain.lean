import Mathlib.Algebra.BigOperators.Intervals
import InferenceServer.Fairness
import InferenceServer.SchedulerPool
import InferenceServer.Wakeups

/-! What the workers of a scheduler do when they are left to themselves: how many steps they can
take, and where they stand when none is left. -/
namespace InferenceServer

variable {π φ : Type}

def WorkerPc.effort (broken asleep : Bool) : WorkerPc π φ → Nat
  | .looping => 2
  | .popping => if broken then 3 else if asleep then 0 else 1
  | .holding _ => 6
  | .copied _ _ => 5
  | .running _ _ => 4
  | .returned _ _ _ => 3
  | .exited => 0

namespace Scheduler

def effort (sc : Scheduler π φ) (w : Nat) : Nat :=
  match sc.threads[w]? with
  | none => 0
  | some t => t.pc.effort sc.queue.broken (w ∈ sc.queue.pushEvent.asleep)

/-- Each item costs the worker that takes it six steps more. -/
def work (sc : Scheduler π φ) : Nat :=
  6 * sc.queue.buffer.length + ∑ w ∈ Finset.range sc.threads.length, sc.effort w

/-- A worker's own step: not a wake-up without a notification. -/
def Genuine : SchedulerAction π φ → Prop
  | .worker _ a => a ≠ .wake
  | _ => False

def Settled (sc : Scheduler π φ) : Prop := ∀ a, Genuine a → sc.step a = none

/-- Once broken, the queue is left to workers that find `running_` false. -/
def Leaving (sc : Scheduler π φ) : Prop := sc.queue.broken = true → sc.running = false

/-- A worker's step takes from the work if it does so from its own and from the queue's share;
nobody else's changes. -/
theorem work_falls {sc sc' : Scheduler π φ} {w : Nat} {t : Worker π φ}
    (atIndex : sc.threads[w]? = some t) (pc : WorkerPc π φ)
    (threads : sc'.threads = sc.threads.set w { t with pc := pc })
    (broken : sc'.queue.broken = sc.queue.broken)
    (asleep : ∀ v, v ≠ w → (v ∈ sc'.queue.pushEvent.asleep ↔ v ∈ sc.queue.pushEvent.asleep))
    (less : 6 * sc'.queue.buffer.length +
        pc.effort sc.queue.broken (w ∈ sc'.queue.pushEvent.asleep) <
      6 * sc.queue.buffer.length +
        t.pc.effort sc.queue.broken (w ∈ sc.queue.pushEvent.asleep)) : sc'.work < sc.work := by
  obtain ⟨bound,_⟩ := List.getElem?_eq_some_iff.mp atIndex
  have here : sc.effort w = t.pc.effort sc.queue.broken (w ∈ sc.queue.pushEvent.asleep) := by
    rw [effort,atIndex]
  have there : sc'.effort w = pc.effort sc.queue.broken (w ∈ sc'.queue.pushEvent.asleep) := by
    rw [effort,threads,List.getElem?_set_self bound,broken]
  have moved := Transition.Machine.sum_moved (f := sc'.effort) (g := sc.effort)
    (Finset.mem_range.mpr bound) fun v other => by
      rw [effort,effort,threads,List.getElem?_set_ne (Ne.symm other),broken]
      simp only [asleep v other]
  have length : sc'.threads.length = sc.threads.length := by rw [threads,List.length_set]
  unfold work
  rw [length]
  omega

/-- How a worker's section of `pop` ends. It is run awake, and the only worker it can put to
sleep is its own. -/
inductive Popped (sc : Scheduler π φ) (w : Nat) (t : Worker π φ) : Scheduler π φ → Prop where
  | took {p : π} {rest : List π} {queue : BlockingQueue π Nat Nat} (whole : sc.queue.broken = false)
      (front : sc.queue.buffer = p :: rest) (now : queue.buffer = rest)
      (broken : queue.broken = sc.queue.broken)
      (asleep : queue.pushEvent.asleep = sc.queue.pushEvent.asleep) :
      Popped sc w t ({ sc with queue := queue }.setWorker w t (.holding p) [.dequeued w p])
  | left {queue : BlockingQueue π Nat Nat} (was : sc.queue.broken = true)
      (now : queue.buffer = sc.queue.buffer) (broken : queue.broken = sc.queue.broken)
      (asleep : queue.pushEvent.asleep = sc.queue.pushEvent.asleep) :
      Popped sc w t ({ sc with queue := queue }.setWorker w t .looping [])
  | slept {queue : BlockingQueue π Nat Nat} (whole : sc.queue.broken = false)
      (nothing : sc.queue.buffer = []) (now : queue.buffer = [])
      (broken : queue.broken = sc.queue.broken)
      (asleep : queue.pushEvent.asleep = w :: sc.queue.pushEvent.asleep) :
      Popped sc w t { sc with queue := queue }

theorem pop_popped {sc sc' : Scheduler π φ} {w : Nat} {wake : Option Nat}
    (taken : sc.workerStep w (.pop wake) = some sc') :
    ∃ t, sc.threads[w]? = some t ∧ t.pc = .popping ∧ w ∉ sc.queue.pushEvent.asleep ∧
      Popped sc w t sc' := by
  unfold workerStep at taken
  split at taken
  · contradiction
  next t atIndex =>
    cases pc : t.pc with
    | popping =>
      rw [pc] at taken
      obtain ⟨⟨result,queue⟩,popped,rfl⟩ := Option.map_eq_some_iff.mp taken
      obtain ⟨awake,ends⟩ := BlockingQueue.pop_step popped
      refine ⟨t,atIndex,pc,awake,?_⟩
      cases ends with
      | broken was => exact .left was rfl rfl rfl
      | take whole front => exact .took whole front rfl rfl rfl
      | sleep whole nothing => exact .slept whole nothing nothing rfl rfl
    | _ =>
      rw [pc] at taken
      contradiction

theorem pop_works {sc sc' : Scheduler π φ} {w : Nat} {wake : Option Nat}
    (taken : sc.workerStep w (.pop wake) = some sc') : sc'.work < sc.work := by
  obtain ⟨t,atIndex,pc,awake,popped⟩ := pop_popped taken
  have stay : sc.threads.set w { t with pc := .popping } = sc.threads := by
    obtain ⟨bound,rfl⟩ := List.getElem?_eq_some_iff.mp atIndex
    rw [← pc]
    exact List.set_getElem_self bound
  cases popped with
  | took whole front now broken asleep =>
    refine work_falls atIndex (.holding _) rfl broken (fun v _ => by simp only [setWorker,asleep]) ?_
    simp [setWorker,pc,WorkerPc.effort,whole,awake,front,now]
    omega
  | left was now broken asleep =>
    refine work_falls atIndex .looping rfl broken (fun v _ => by simp only [setWorker,asleep]) ?_
    simp [setWorker,pc,WorkerPc.effort,was,now]
  | slept whole nothing now broken asleep =>
    refine work_falls atIndex .popping stay.symm broken (fun v other => by simp [asleep,other]) ?_
    simp [pc,WorkerPc.effort,whole,awake,asleep,nothing,now]

/-- Every step of a worker's own leaves the workers less to do. -/
theorem worker_works {sc sc' : Scheduler π φ} {w : Nat} {a : WorkerAction} (roused : sc.Roused)
    (leaving : Leaving sc) (genuine : a ≠ .wake) (taken : sc.workerStep w a = some sc') :
    sc'.work < sc.work := by
  by_cases pops : ∃ wake, a = .pop wake
  · obtain ⟨wake,rfl⟩ := pops
    exact pop_works taken
  obtain ⟨t,atIndex,cases⟩ := workerStep_cases taken
  have awake (outside : t.pc ≠ .popping) : w ∉ sc.queue.pushEvent.asleep := by
    intro sleeps
    obtain ⟨u,atW,popping⟩ := roused.popping w (List.mem_append_left _ sleeps)
    exact outside (Option.some.inj (atIndex.symm.trans atW) ▸ popping)
  cases cases with
  | take | takeBroken | sleep => exact absurd ⟨_,rfl⟩ pops
  | wake => contradiction
  | copy pc | call pc | ret pc | complete pc =>
    refine work_falls atIndex _ rfl rfl (fun _ _ => Iff.rfl) ?_
    simp [setWorker,pc,WorkerPc.effort]
  | test pc =>
    refine work_falls atIndex _ rfl rfl (fun _ _ => Iff.rfl) ?_
    cases running : sc.running with
    | false => simp [setWorker,pc,WorkerPc.effort]
    | true =>
      have whole : sc.queue.broken = false := by
        by_contra broken
        rw [leaving (by simpa using broken)] at running
        contradiction
      simp [setWorker,pc,WorkerPc.effort,whole,awake]

structure Unattended (sc sc' : Scheduler π φ) : Prop where
  face : sc'.face = sc.face
  length : sc'.threads.length = sc.threads.length
  appended : sc'.appended = sc.appended

theorem worker_unattended {sc sc' : Scheduler π φ} {w : Nat} {a : WorkerAction}
    (taken : sc.workerStep w a = some sc') : Unattended sc sc' := by
  obtain ⟨t,atIndex,cases⟩ := workerStep_cases taken
  refine ⟨worker_face cases,?_,?_⟩
  · obtain ⟨_,pc,threads,_⟩ := worker_threads atIndex cases
    rw [threads,List.length_set]
  · cases cases <;>
      simp [appended,setWorker,Event.appended?,List.filterMap_cons]

theorem genuine_worker {a : SchedulerAction π φ} (genuine : Genuine a) :
    ∃ w b, a = .worker w b ∧ b ≠ .wake := by
  cases a with
  | worker w b => exact ⟨w,b,rfl,genuine⟩
  | producer | control | update => exact genuine.elim

structure LeftAlone (sc₀ sc : Scheduler π φ) : Prop where
  threaded : Threaded sc
  conserved : Conserved sc
  unattended : Unattended sc₀ sc

theorem LeftAlone.leaving {sc₀ sc : Scheduler π φ} (alone : LeftAlone sc₀ sc) (leaving : Leaving sc₀) :
    Leaving sc := by
  have face := alone.unattended.face
  simp only [Scheduler.face,Face.mk.injEq] at face
  intro broken
  rw [face.2.2.1]
  exact leaving (face.2.2.2.2 ▸ broken)

theorem genuine_alone {sc₀ sc sc' : Scheduler π φ} {a : SchedulerAction π φ} (leaving : Leaving sc₀)
    (genuine : Genuine a) (alone : LeftAlone sc₀ sc) (taken : sc.step a = some sc') :
    LeftAlone sc₀ sc' ∧ sc'.work + (if true then 1 else 0) ≤ sc.work := by
  obtain ⟨w,b,rfl,own⟩ := genuine_worker genuine
  have moved := worker_unattended taken
  have fewer := worker_works alone.threaded.roused (alone.leaving leaving) own taken
  refine ⟨⟨step_threaded taken alone.threaded,step_conserved taken alone.conserved,?_⟩,fewer⟩
  exact ⟨moved.face.trans alone.unattended.face,moved.length.trans alone.unattended.length,
    moved.appended.trans alone.unattended.appended⟩

theorem worker_possible {sc : Scheduler π φ} {w : Nat} {t : Worker π φ}
    (atIndex : sc.threads[w]? = some t) (inside : t.pc ≠ .exited)
    (awake : t.pc = .popping → w ∉ sc.queue.pushEvent.asleep) :
    ∃ a, a ≠ .wake ∧ (sc.workerStep w a).isSome = true := by
  cases pc : t.pc with
  | exited => exact absurd pc inside
  | popping =>
    obtain ⟨wake,outcome,popped⟩ := sc.queue.pop_enabled (awake pc)
    exact ⟨.pop wake,by simp,by simp [workerStep,atIndex,pc,popped]⟩
  | looping => exact ⟨.test,by simp,by simp [workerStep,atIndex,pc]⟩
  | holding => exact ⟨.copy,by simp,by simp [workerStep,atIndex,pc]⟩
  | copied => exact ⟨.call,by simp,by simp [workerStep,atIndex,pc]⟩
  | running => exact ⟨.ret .success,by simp,by simp [workerStep,atIndex,pc]⟩
  | returned => exact ⟨.complete,by simp,by simp [workerStep,atIndex,pc]⟩

/-- Where nothing is left to do every worker has left, or sleeps in `pop`. -/
theorem settled_worker {sc : Scheduler π φ} (settled : Settled sc) {w : Nat} {t : Worker π φ}
    (atIndex : sc.threads[w]? = some t) :
    t.pc = .exited ∨ t.pc = .popping ∧ w ∈ sc.queue.pushEvent.asleep := by
  by_contra busy
  push Not at busy
  obtain ⟨a,own,possible⟩ := worker_possible atIndex busy.1 busy.2
  have none : sc.workerStep w a = none := settled (.worker w a) own
  rw [none] at possible
  contradiction

theorem settled_held {sc : Scheduler π φ} (settled : Settled sc) : sc.held = 0 := by
  have empty : sc.threads.filterMap (·.pc.payload?) = [] := by
    apply List.filterMap_eq_nil_iff.mpr
    intro t member
    obtain ⟨w,atIndex⟩ := List.getElem?_of_mem member
    rcases settled_worker settled atIndex with pc | ⟨pc,_⟩ <;> rw [pc] <;> rfl
  rw [held,empty,Multiset.coe_nil]

/-- With a worker that has not left, no item is left in a queue that is whole. -/
theorem settled_buffer {sc : Scheduler π φ} (settled : Settled sc) (roused : sc.Roused)
    (staffed : sc.threads ≠ []) (inside : ∀ (w : Nat) t, sc.threads[w]? = some t → t.pc ≠ .exited)
    (whole : sc.queue.broken = false) : sc.queue.buffer = [] := by
  have asleep (w : Nat) (t : Worker π φ) (atIndex : sc.threads[w]? = some t) :
      w ∈ sc.queue.pushEvent.asleep :=
    (settled_worker settled atIndex).elim (fun gone => absurd gone (inside w t atIndex)) (·.2)
  by_contra item
  obtain ⟨w,t,atIndex,awake⟩ := roused.awake staffed whole item
  exact awake (asleep w t atIndex)

/-- Before its queue is broken a scheduler is in its first round: no worker leaves as long as
`running_` is set. -/
def FirstRound (sc : Scheduler π φ) : Prop :=
  sc.queue.broken = false →
    match sc.control with
    | .idle | .stopReturned _ => sc.threads = []
    | .joining _ => False
    | .breaking => True
    | _ => ∀ (w : Nat) t, sc.threads[w]? = some t → t.pc ≠ .exited

theorem worker_firstRound {sc sc' : Scheduler π φ} {w : Nat} {t : Worker π φ} {a : WorkerAction}
    (atIndex : sc.threads[w]? = some t) (taken : WorkerStep sc w t a sc')
    (flag : sc.running = sc.control.running) (first : FirstRound sc) : FirstRound sc' := by
  obtain ⟨_,pc,threads,leaves⟩ := worker_threads atIndex taken
  obtain ⟨bound,_⟩ := List.getElem?_eq_some_iff.mp atIndex
  have face := worker_face taken
  simp only [Scheduler.face,Face.mk.injEq] at face
  obtain ⟨_,_,_,control,broken⟩ := face
  intro whole
  have before := first (broken ▸ whole)
  rw [control,threads]
  have inside (running : sc.running = true)
      (all : ∀ (v : Nat) u, sc.threads[v]? = some u → u.pc ≠ .exited) (v : Nat) (u : Worker π φ)
      (atV : (sc.threads.set w ⟨t.idx,pc⟩)[v]? = some u) : u.pc ≠ .exited := by
    by_cases same : v = w
    · subst v
      rw [List.getElem?_set_self bound] at atV
      obtain rfl := Option.some.inj atV
      intro gone
      rw [leaves gone] at running
      contradiction
    · rw [List.getElem?_set_ne (Ne.symm same)] at atV
      exact all v u atV
  cases at' : sc.control with
  | idle | stopReturned =>
    rw [at'] at before
    rw [before] at bound
    simp at bound
  | joining =>
    rw [at'] at before
    exact before
  | breaking => trivial
  | starting | startReturned | draining | clearing =>
    rw [at'] at before flag
    exact inside flag before

theorem control_firstRound {sc sc' : Scheduler π φ} {a : ControlAction}
    (taken : ControlStep sc a sc') (flag : sc.running = sc.control.running)
    (first : FirstRound sc) : FirstRound sc' := by
  intro whole
  cases taken with
  | breakAll => simp [BlockingQueue.breakAll] at whole
  | drainWait => exact first whole
  | startAgain ready running | stop ready running =>
    have before := first whole
    rw [running] at flag
    cases at' : sc.control with
    | startReturned =>
      rw [at'] at before
      exact before
    | idle | stopReturned =>
      rw [at'] at flag
      contradiction
    | _ =>
      rw [at'] at ready
      contradiction
  | start ready stopped | stopIdle ready stopped =>
    have before := first whole
    rw [stopped] at flag
    cases at' : sc.control with
    | idle | stopReturned =>
      rw [at'] at before
      simp [before]
    | startReturned =>
      rw [at'] at flag
      contradiction
    | _ =>
      rw [at'] at ready
      contradiction
  | @spawn idx pc more =>
    have before := first whole
    rw [pc] at before
    intro w t atIndex
    simp only [List.getElem?_append] at atIndex
    split at atIndex
    · exact before w t atIndex
    · obtain ⟨_,same⟩ := List.getElem?_eq_some_iff.mp atIndex
      simp only [List.getElem_singleton] at same
      simp [← same]
  | started pc | drained pc | clearRunning pc | join pc | joined pc =>
    have before := first whole
    rw [pc] at before
    first | exact before | exact before.elim | trivial

theorem firstRound_of_same {sc sc' : Scheduler π φ} (face : sc'.face = sc.face)
    (threads : sc'.threads = sc.threads) (first : FirstRound sc) : FirstRound sc' := by
  simp only [Scheduler.face,Face.mk.injEq] at face
  obtain ⟨_,_,_,control,broken⟩ := face
  unfold FirstRound at *
  rw [control,broken,threads]
  exact first

theorem reachable_firstRound {maxQueueSize totalRunners : Int} {func : φ} {sc : Scheduler π φ}
    (reach : (machine maxQueueSize totalRunners func).Reachable sc) : FirstRound sc := by
  refine reach.invariant (P := FirstRound) (fun _ => rfl) ?_
  intro sc a sc' before first taken
  have taken : sc.step a = some sc' := taken
  have flag := reachable_running before
  cases a with
  | worker w a =>
    obtain ⟨t,atIndex,cases⟩ := workerStep_cases taken
    exact worker_firstRound atIndex cases flag first
  | producer c a =>
    have cases := producerStep_cases taken
    exact firstRound_of_same (producer_face cases) (producer_threads cases) first
  | control a => exact control_firstRound (controlStep_cases taken) flag first
  | update func =>
    cases taken
    exact first

/-- From a reachable state the workers can be left alone. -/
theorem reachable_alone {maxQueueSize totalRunners : Int} {func : φ} {sc : Scheduler π φ}
    (reach : (machine maxQueueSize totalRunners func).Reachable sc) : LeftAlone sc sc := by
  have both : Threaded sc ∧ Conserved sc := by
    refine reach.invariant (P := fun sc => Threaded sc ∧ Conserved sc)
      ⟨create_threaded _ _ _,create_conserved _ _ _⟩ ?_
    rintro sc a sc' _ ⟨threaded,conserved⟩ taken
    exact ⟨step_threaded taken threaded,step_conserved taken conserved⟩
  exact ⟨both.1,both.2,rfl,rfl,rfl⟩

/-- A run of workers' own steps is no longer than the work there is. -/
theorem run_works {maxQueueSize totalRunners : Int} {func : φ} {sc₀ sc sc' : Scheduler π φ}
    (leaving : Leaving sc₀) (alone : LeftAlone sc₀ sc) (actions : List (SchedulerAction π φ))
    (genuine : ∀ a ∈ actions, Genuine a)
    (run : (machine maxQueueSize totalRunners func).exec sc actions = some sc') :
    actions.length + sc'.work ≤ sc.work := by
  have counted : actions.countP (fun _ => true) + sc'.work ≤ sc.work :=
    Transition.Machine.exec_countP_le
    (m := machine maxQueueSize totalRunners func) (P := LeftAlone sc₀) (Q := Genuine) (fun _ => true)
    (fun _ _ _ own alone taken => genuine_alone leaving own alone taken) alone actions genuine run
  rwa [List.countP_true] at counted

theorem run_alone {maxQueueSize totalRunners : Int} {func : φ} {sc₀ sc sc' : Scheduler π φ}
    (leaving : Leaving sc₀) (alone : LeftAlone sc₀ sc) (actions : List (SchedulerAction π φ))
    (genuine : ∀ a ∈ actions, Genuine a)
    (run : (machine maxQueueSize totalRunners func).exec sc actions = some sc') :
    LeftAlone sc₀ sc' := by
  refine Transition.Machine.exec_preserves_of (m := machine maxQueueSize totalRunners func)
    (P := LeftAlone sc₀) (Q := Genuine) ?_ alone actions genuine run
  intro sc a sc' own alone taken
  exact (genuine_alone leaving own alone taken).1

/-- Some run of workers' own steps leaves nothing to do. -/
theorem settles {maxQueueSize totalRunners : Int} {func : φ} {sc₀ : Scheduler π φ}
    (leaving : Leaving sc₀) (n : Nat) :
    ∀ sc, LeftAlone sc₀ sc → sc.work ≤ n → ∃ actions sc', (∀ a ∈ actions, Genuine a) ∧
      (machine maxQueueSize totalRunners func).exec sc actions = some sc' ∧ Settled sc' := by
  induction n with
  | zero =>
    intro sc alone done
    refine ⟨[],sc,by simp,rfl,fun a own => ?_⟩
    cases taken : sc.step a with
    | none => rfl
    | some sc' =>
      have fewer := (genuine_alone leaving own alone taken).2
      simp only [if_true] at fewer
      omega
  | succ n ih =>
    intro sc alone enough
    by_cases settled : Settled sc
    · exact ⟨[],sc,by simp,rfl,settled⟩
    · unfold Settled at settled
      push Not at settled
      obtain ⟨a,own,possible⟩ := settled
      obtain ⟨sc',taken⟩ := Option.ne_none_iff_exists'.mp possible
      obtain ⟨alone',fewer⟩ := genuine_alone leaving own alone taken
      simp only [if_true] at fewer
      obtain ⟨actions,last,genuine,run,atEnd⟩ := ih sc' alone' (by omega)
      refine ⟨a :: actions,last,by simpa using ⟨own,genuine⟩,?_,atEnd⟩
      exact Option.bind_eq_some_iff.mpr ⟨sc',taken,run⟩

/-- Left to themselves, the workers of a scheduler that runs complete everything that was accepted,
whichever of them goes first, and in no more steps than there is work. -/
theorem workers_drain {maxQueueSize totalRunners : Int} {func : φ} {sc : Scheduler π φ}
    (reach : (machine maxQueueSize totalRunners func).Reachable sc) (running : sc.running = true)
    (whole : sc.queue.broken = false) (staffed : sc.threads ≠ []) :
    (∀ actions sc', (∀ a ∈ actions, Genuine a) →
      (machine maxQueueSize totalRunners func).exec sc actions = some sc' →
      actions.length ≤ sc.work ∧
        (Settled sc' → sc'.queue.buffer = [] ∧ sc'.completed = sc.appended)) ∧
    ∃ actions sc', (∀ a ∈ actions, Genuine a) ∧
      (machine maxQueueSize totalRunners func).exec sc actions = some sc' ∧ Settled sc' := by
  have leaving : Leaving sc := fun broken => absurd (whole.symm.trans broken) (by simp)
  have alone := reachable_alone reach
  refine ⟨fun actions sc' genuine run => ⟨?_,fun settled => ?_⟩,settles leaving _ sc alone le_rfl⟩
  · have counted := run_works leaving alone actions genuine run
    omega
  · have after := run_alone leaving alone actions genuine run
    have face := after.unattended.face
    simp only [Scheduler.face,Face.mk.injEq] at face
    have whole' : sc'.queue.broken = false := face.2.2.2.2.trans whole
    have reach' := Transition.Machine.exec_reachable reach actions run
    have flag := reachable_running reach'
    rw [face.2.2.1,running] at flag
    -- A running scheduler that was never broken has lost no worker.
    have inside : ∀ (w : Nat) t, sc'.threads[w]? = some t → t.pc ≠ .exited := by
      have first := reachable_firstRound reach' whole'
      cases at' : sc'.control with
      | starting | startReturned | draining | clearing =>
        rw [at'] at first
        exact first
      | _ =>
        rw [at'] at flag
        contradiction
    have staffed' : sc'.threads ≠ [] := by
      intro nobody
      have length := after.unattended.length
      rw [nobody] at length
      exact staffed (List.length_eq_zero_iff.mp length.symm)
    have empty := settled_buffer settled after.threaded.roused staffed' inside whole'
    refine ⟨empty,?_⟩
    have payloads := after.conserved.payloads
    rw [after.unattended.appended,empty,settled_held settled] at payloads
    simpa using payloads.symm

def twoQueued : List (SchedulerAction Nat Bool) :=
  [.control .start,.control .spawn,.control .spawn,.producer 0 (.enqueue 10),
    .producer 0 (.push none),.producer 1 (.enqueue 11),.producer 1 (.push none)]

theorem workers_drain_two : ∃ sc sc' : Scheduler Nat Bool, ∃ actions,
    (machine 4 1 false).exec sc actions = some sc' ∧ actions.length ≤ 14 ∧
    sc'.queue.buffer = [] ∧ sc'.completed = ↑[10,11] := by
  obtain ⟨sc,reach,seen⟩ := Transition.Machine.exec_observed (m := machine 4 1 false) twoQueued
    (fun sc : Scheduler Nat Bool => (sc.running,sc.queue.broken,sc.threads.length,sc.work,
      sc.log.filterMap Event.appended?)) (true,false,1,14,[10,11]) rfl
  simp only [Prod.mk.injEq] at seen
  obtain ⟨running,whole,one,work,accepted⟩ := seen
  have drain := workers_drain reach running whole fun nobody => by simp [nobody] at one
  obtain ⟨actions,sc',genuine,run,settled⟩ := drain.2
  obtain ⟨short,done⟩ := drain.1 actions sc' genuine run
  obtain ⟨empty,completed⟩ := done settled
  refine ⟨sc,sc',actions,run,work ▸ short,empty,?_⟩
  rw [completed,appended,accepted]

/-- After `breakAll` the workers leave, so that the joins of `Stop` come to an end: in no more
steps than there is work none of them is left. -/
theorem workers_leave {maxQueueSize totalRunners : Int} {func : φ} {sc : Scheduler π φ}
    (reach : (machine maxQueueSize totalRunners func).Reachable sc) (stopped : sc.running = false)
    (broken : sc.queue.broken = true) :
    (∀ actions sc', (∀ a ∈ actions, Genuine a) →
      (machine maxQueueSize totalRunners func).exec sc actions = some sc' →
      actions.length ≤ sc.work ∧
        (Settled sc' → ∀ (w : Nat) t, sc'.threads[w]? = some t → t.pc = .exited)) ∧
    ∃ actions sc', (∀ a ∈ actions, Genuine a) ∧
      (machine maxQueueSize totalRunners func).exec sc actions = some sc' ∧ Settled sc' := by
  have leaving : Leaving sc := fun _ => stopped
  have alone := reachable_alone reach
  refine ⟨fun actions sc' genuine run => ⟨?_,fun settled w t atIndex => ?_⟩,
    settles leaving _ sc alone le_rfl⟩
  · have counted := run_works leaving alone actions genuine run
    omega
  · have after := run_alone leaving alone actions genuine run
    have face := after.unattended.face
    simp only [Scheduler.face,Face.mk.injEq] at face
    have nobody := after.threaded.roused.queue.broken (face.2.2.2.2.trans broken)
    rcases settled_worker settled atIndex with gone | ⟨_,asleep⟩
    · exact gone
    · rw [nobody] at asleep
      contradiction

theorem workers_leave_stopped : ∃ sc sc' : Scheduler Nat Bool, ∃ actions,
    (machine 4 1 false).exec sc actions = some sc' ∧ actions.length ≤ 8 ∧
    ∀ (w : Nat) t, sc'.threads[w]? = some t → t.pc = .exited := by
  obtain ⟨sc,reach,seen⟩ := Transition.Machine.exec_observed (m := machine 4 1 false)
    queuedThenStopped (fun sc : Scheduler Nat Bool => (sc.running,sc.queue.broken,sc.work))
    (false,true,8) rfl
  simp only [Prod.mk.injEq] at seen
  obtain ⟨stopped,broken,work⟩ := seen
  have leave := workers_leave reach stopped broken
  obtain ⟨actions,sc',genuine,run,settled⟩ := leave.2
  obtain ⟨short,gone⟩ := leave.1 actions sc' genuine run
  exact ⟨sc,sc',actions,run,work ▸ short,gone settled⟩

/-- A worker in a broken queue always finds something to do while `running_` is set. -/
theorem spins (maxQueueSize totalRunners : Int) (func : φ) {w : Nat} (n : Nat) :
    ∀ sc : Scheduler π φ, Threaded sc → sc.running = true → sc.queue.broken = true →
      (∃ t, sc.threads[w]? = some t ∧ t.pc ≠ .exited) →
      ∃ actions sc', (∀ a ∈ actions, Genuine a) ∧ actions.length = n ∧
        (machine maxQueueSize totalRunners func).exec sc actions = some sc' := by
  induction n with
  | zero => exact fun sc _ _ _ _ => ⟨[],sc,by simp,rfl,rfl⟩
  | succ n ih =>
    rintro sc threaded running broken ⟨t,atIndex,inside⟩
    have awake : w ∉ sc.queue.pushEvent.asleep := by simp [threaded.roused.queue.broken broken]
    obtain ⟨a,own,possible⟩ := worker_possible atIndex inside fun _ => awake
    obtain ⟨sc₁,taken⟩ := Option.isSome_iff_exists.mp possible
    obtain ⟨u,atW,cases⟩ := workerStep_cases taken
    obtain ⟨_,pc,threads,leaves⟩ := worker_threads atW cases
    have bound := (List.getElem?_eq_some_iff.mp atW).1
    have face := worker_face cases
    simp only [Scheduler.face,Face.mk.injEq] at face
    have stays : ∃ t, sc₁.threads[w]? = some t ∧ t.pc ≠ .exited := by
      refine ⟨⟨u.idx,pc⟩,by rw [threads,List.getElem?_set_self bound],fun gone => ?_⟩
      rw [leaves gone] at running
      contradiction
    obtain ⟨actions,last,genuine,length,run⟩ := ih sc₁
      (step_threaded (a := .worker w a) taken threaded) (face.2.2.1.trans running)
      (face.2.2.2.2.trans broken) stays
    refine ⟨.worker w a :: actions,last,by simpa using ⟨own,genuine⟩,by simp [length],?_⟩
    exact Option.bind_eq_some_iff.mpr ⟨sc₁,taken,run⟩

/-- The workers come to rest exactly where none of them runs on a broken queue: a scheduler that
is started again after a `Stop` keeps its new workers busy without end. -/
theorem workers_rest_iff {maxQueueSize totalRunners : Int} {func : φ} {sc : Scheduler π φ}
    (reach : (machine maxQueueSize totalRunners func).Reachable sc) :
    (∃ n, ∀ actions sc', (∀ a ∈ actions, Genuine a) →
      (machine maxQueueSize totalRunners func).exec sc actions = some sc' → actions.length ≤ n) ↔
    (sc.running = true → sc.queue.broken = true →
      ∀ (w : Nat) t, sc.threads[w]? = some t → t.pc = .exited) := by
  have alone := reachable_alone reach
  constructor
  · rintro ⟨n,bounded⟩ running broken w t atIndex
    by_contra inside
    obtain ⟨actions,sc',genuine,length,run⟩ := spins maxQueueSize totalRunners func
      (n + 1) sc alone.threaded running broken ⟨t,atIndex,inside⟩
    have short := bounded actions sc' genuine run
    omega
  · intro exited
    by_cases leaving : Leaving sc
    · refine ⟨sc.work,fun actions sc' genuine run => ?_⟩
      have counted := run_works leaving alone actions genuine run
      omega
    · unfold Leaving at leaving
      push Not at leaving
      obtain ⟨broken,running⟩ := leaving
      have nobody := exited (by simpa using running) broken
      refine ⟨0,fun actions sc' genuine run => ?_⟩
      cases actions with
      | nil => simp
      | cons a rest =>
        obtain ⟨sc₁,taken,_⟩ := Option.bind_eq_some_iff.mp run
        obtain ⟨w,b,rfl,_⟩ := genuine_worker (genuine a (by simp))
        obtain ⟨t,atIndex,cases⟩ := workerStep_cases taken
        exact absurd (nobody w t atIndex) (worker_threads atIndex cases).1

theorem workers_rest_iff_restarted : ∃ sc : Scheduler Nat Bool,
    (∃ t, sc.threads[1]? = some t ∧ t.pc = .looping) ∧
    ∀ n, ∃ actions sc', (∀ a ∈ actions, Genuine a) ∧
      (machine 4 1 false).exec sc actions = some sc' ∧ n < actions.length := by
  obtain ⟨sc,reach,seen⟩ := Transition.Machine.exec_observed (m := machine 4 1 false)
    (queuedThenStopped ++ restarted)
    (fun sc : Scheduler Nat Bool => (sc.running,sc.queue.broken,sc.threads[1]?.map (·.pc)))
    (true,true,some .looping) rfl
  simp only [Prod.mk.injEq] at seen
  obtain ⟨running,broken,looping⟩ := seen
  obtain ⟨t,atIndex,pc⟩ := Option.map_eq_some_iff.mp looping
  refine ⟨sc,⟨t,atIndex,pc⟩,fun n => ?_⟩
  by_contra none
  push Not at none
  have exited := (workers_rest_iff reach).mp ⟨n,none⟩ running broken 1 t atIndex
  rw [pc] at exited
  contradiction

end Scheduler
end InferenceServer
