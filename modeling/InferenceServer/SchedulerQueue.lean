import InferenceServer.QueueThreads
import InferenceServer.SchedulerSteps

/-! A scheduler's threads as users of its queue: what holds of a queue whatever its threads do
holds of every scheduler's. -/
namespace InferenceServer

variable {π φ : Type}

def ProducerPc.pushing? : ProducerPc π → Option π
  | .pushing p => some p
  | _ => none

def WorkerPc.isPopping : WorkerPc π φ → Bool
  | .popping => true
  | _ => false

namespace Scheduler

def popping (sc : Scheduler π φ) (w : Nat) : Bool := sc.threads[w]?.any (·.pc.isPopping)

theorem popping_worker {sc : Scheduler π φ} {w : Nat} (popping : sc.popping w = true) :
    ∃ t, sc.threads[w]? = some t ∧ t.pc = .popping := by
  obtain ⟨t,atIndex,inside⟩ := (Option.any_eq_true _ _).mp popping
  refine ⟨t,atIndex,?_⟩
  cases pc : t.pc with
  | popping => rfl
  | _ => simp [pc,WorkerPc.isPopping] at inside

/-- The threads are inside the same calls on the same queue. -/
structure Shows (sc : Scheduler π φ) (s : QueueThreads π Nat Nat) : Prop where
  queue : s.queue = sc.queue
  pushing : ∀ c, s.pushing c = (sc.producers c).pushing?
  popping : ∀ w, s.popping w = sc.popping w

theorem popping_set {sc sc' : Scheduler π φ} {w : Nat} {t : Worker π φ}
    (atIndex : sc.threads[w]? = some t) (pc : WorkerPc π φ)
    (threads : sc'.threads = sc.threads.set w { t with pc := pc })
    (v : Nat) : sc'.popping v = if v = w then pc.isPopping else sc.popping v := by
  obtain ⟨bound,_⟩ := List.getElem?_eq_some_iff.mp atIndex
  unfold popping
  rw [threads,List.getElem?_set]
  by_cases here : v = w
  · subst v
    simp [bound]
  · simp [here,Ne.symm here]

theorem pushing_set (sc : Scheduler π φ) (c : Nat) (pc : ProducerPc π) (events : List (Event π φ))
    (d : Nat) : ((sc.setProducer c pc events).producers d).pushing? =
      if d = c then pc.pushing? else (sc.producers d).pushing? := by
  simp only [setProducer,Function.update_apply]
  split <;> rfl

/-- A worker's section of `pop` is one of the queue's, and where it ends is where the worker is. -/
theorem pop_shown {sc sc' : Scheduler π φ} {s : QueueThreads π Nat Nat} {w : Nat}
    {wake : Option Nat} (taken : sc.workerStep w (.pop wake) = some sc') (shows : Shows sc s) :
    ∃ s', s.step (.pop w wake) = some s' ∧ Shows sc' s' := by
  unfold workerStep at taken
  split at taken
  · contradiction
  next t atIndex =>
    cases pc : t.pc with
    | popping =>
      have inside : s.popping w = true := by
        rw [shows.popping,popping,atIndex]
        simp [pc,WorkerPc.isPopping]
      rw [pc] at taken
      obtain ⟨⟨result,queue⟩,popped,rfl⟩ := Option.map_eq_some_iff.mp taken
      rw [← shows.queue] at popped
      refine ⟨s.popped w (result,queue),by simp [QueueThreads.step,inside,popped],?_⟩
      cases result with
      | waiting => exact ⟨rfl,shows.pushing,shows.popping⟩
      | item p =>
        refine ⟨rfl,shows.pushing,fun v => ?_⟩
        rw [popping_set atIndex _ rfl]
        simp only [QueueThreads.popped,Function.update_apply,shows.popping]
        rfl
      | broken =>
        refine ⟨rfl,shows.pushing,fun v => ?_⟩
        rw [popping_set atIndex _ rfl]
        simp only [QueueThreads.popped,Function.update_apply,shows.popping]
        rfl
    | _ =>
      rw [pc] at taken
      contradiction

theorem push_shown {sc sc' : Scheduler π φ} {s : QueueThreads π Nat Nat} {c : Nat}
    {wake : Option Nat} (taken : sc.producerStep c (.push wake) = some sc') (shows : Shows sc s) :
    ∃ s', s.step (.push c wake) = some s' ∧ Shows sc' s' := by
  unfold producerStep at taken
  cases pc : sc.producers c with
  | pushing p =>
    have inside : s.pushing c = some p := by rw [shows.pushing,pc]; rfl
    rw [pc] at taken
    obtain ⟨⟨result,queue⟩,pushed,rfl⟩ := Option.map_eq_some_iff.mp taken
    rw [← shows.queue] at pushed
    refine ⟨s.pushed c p (result,queue),by simp [QueueThreads.step,inside,pushed],?_⟩
    cases result with
    | waiting => exact ⟨rfl,shows.pushing,shows.popping⟩
    | appended | dropped =>
      refine ⟨rfl,fun d => ?_,shows.popping⟩
      rw [pushing_set]
      simp only [QueueThreads.pushed,Function.update_apply,shows.pushing]
      rfl
  | _ =>
    rw [pc] at taken
    contradiction

theorem shows_set {sc sc' : Scheduler π φ} {s : QueueThreads π Nat Nat} {w : Nat}
    {t : Worker π φ} (atIndex : sc.threads[w]? = some t) (pc : WorkerPc π φ)
    (outside : t.pc.isPopping = false ∧ pc.isPopping = false) (queue : sc'.queue = sc.queue)
    (producers : sc'.producers = sc.producers)
    (threads : sc'.threads = sc.threads.set w { t with pc := pc }) (shows : Shows sc s) :
    Shows sc' s := by
  refine ⟨shows.queue.trans queue.symm,fun c => producers ▸ shows.pushing c,fun v => ?_⟩
  rw [popping_set atIndex pc threads,shows.popping]
  split
  next here =>
    subst v
    simp [popping,atIndex,outside]
  · rfl

theorem worker_shown {sc sc' : Scheduler π φ} {s : QueueThreads π Nat Nat} {w : Nat}
    {a : WorkerAction} (taken : sc.workerStep w a = some sc') (shows : Shows sc s) :
    Shows sc' s ∨ ∃ b s', s.step b = some s' ∧ Shows sc' s' := by
  by_cases pops : ∃ wake, a = .pop wake
  · obtain ⟨wake,rfl⟩ := pops
    exact .inr ⟨_,pop_shown taken shows⟩
  obtain ⟨t,atIndex,cases⟩ := workerStep_cases taken
  cases cases with
  | take | takeBroken | sleep => exact absurd ⟨_,rfl⟩ pops
  | copy pc | call pc | ret pc | complete pc =>
    exact .inl (shows_set atIndex _ ⟨by rw [pc]; rfl,rfl⟩ rfl rfl rfl shows)
  | test pc =>
    cases running : sc.running with
    | false =>
      exact .inl (shows_set atIndex .exited ⟨by rw [pc]; rfl,rfl⟩ rfl rfl
        (by simp [setWorker]) shows)
    | true =>
      have outside : s.popping w = false := by
        rw [shows.popping,popping,atIndex]
        simp [pc,WorkerPc.isPopping]
      refine .inr ⟨.callPop w,_,if_neg (by simp [outside]),shows.queue,shows.pushing,fun v => ?_⟩
      rw [popping_set atIndex .popping (by simp [setWorker])]
      simp only [Function.update_apply,shows.popping]
      rfl
  | wake =>
    by_cases sleeps : w ∈ s.queue.pushEvent.asleep
    · refine .inr ⟨.wakeConsumer w,_,if_pos sleeps,?_,shows.pushing,shows.popping⟩
      simp only [shows.queue]
    · have same : s.queue.wakeConsumer w = s.queue := by
        simp [BlockingQueue.wakeConsumer,CondVar.spurious,List.erase_of_not_mem sleeps]
      refine .inl ⟨?_,shows.pushing,shows.popping⟩
      rw [← shows.queue,same]

theorem producer_shown {sc sc' : Scheduler π φ} {s : QueueThreads π Nat Nat} {c : Nat}
    {a : ProducerAction π} (taken : sc.producerStep c a = some sc') (shows : Shows sc s) :
    Shows sc' s ∨ ∃ b s', s.step b = some s' ∧ Shows sc' s' := by
  by_cases pushes : ∃ wake, a = .push wake
  · obtain ⟨wake,rfl⟩ := pushes
    exact .inr ⟨_,push_shown taken shows⟩
  have quiet {pc : ProducerPc π} (events : List (Event π φ))
      (outside : (sc.producers c).pushing? = none ∧ pc.pushing? = none) :
      Shows (sc.setProducer c pc events) s := by
    refine ⟨shows.queue,fun d => ?_,shows.popping⟩
    rw [pushing_set,shows.pushing]
    split
    next here => rw [here,outside.1,outside.2]
    · rfl
  cases producerStep_cases taken with
  | append | drop | sleep => exact absurd ⟨_,rfl⟩ pushes
  | refuse pc => exact .inl (quiet _ ⟨by rw [pc]; rfl,rfl⟩)
  | leave pc => exact .inl (quiet _ ⟨by rcases pc with pc | pc <;> rw [pc] <;> rfl,rfl⟩)
  | @enter p pc =>
    have outside : s.pushing c = none := by rw [shows.pushing,pc]; rfl
    refine .inr ⟨.callPush c p,{ s with pushing := Function.update s.pushing c (some p) },
      by simp [QueueThreads.step,outside],shows.queue,fun d => ?_,shows.popping⟩
    rw [pushing_set]
    simp only [Function.update_apply,shows.pushing]
    rfl
  | wake =>
    by_cases sleeps : c ∈ s.queue.popEvent.asleep
    · refine .inr ⟨.wakeProducer c,_,if_pos sleeps,?_,shows.pushing,shows.popping⟩
      simp only [shows.queue]
    · have same : s.queue.wakeProducer c = s.queue := by
        simp [BlockingQueue.wakeProducer,CondVar.spurious,List.erase_of_not_mem sleeps]
      refine .inl ⟨?_,shows.pushing,shows.popping⟩
      rw [← shows.queue,same]

theorem control_shown {sc sc' : Scheduler π φ} {s : QueueThreads π Nat Nat} {a : ControlAction}
    (taken : sc.controlStep a = some sc') (shows : Shows sc s) :
    Shows sc' s ∨ ∃ b s', s.step b = some s' ∧ Shows sc' s' := by
  cases controlStep_cases taken with
  | breakAll =>
    refine .inr ⟨.breakAll,_,rfl,?_,shows.pushing,shows.popping⟩
    simp only [shows.queue]
  | @spawn idx =>
    refine .inl ⟨shows.queue,shows.pushing,fun w => (shows.popping w).trans ?_⟩
    unfold popping
    rw [List.getElem?_append]
    split
    · rfl
    next past =>
      rw [List.getElem?_eq_none_iff.mpr (Nat.le_of_not_lt past)]
      cases w - sc.threads.length <;> rfl
  | _ => exact .inl ⟨shows.queue,shows.pushing,shows.popping⟩

/-- Every step of a scheduler is a step of its queue's threads, or none. -/
theorem step_shown {sc sc' : Scheduler π φ} {a : SchedulerAction π φ} {s : QueueThreads π Nat Nat}
    (taken : sc.step a = some sc') (shows : Shows sc s) :
    Shows sc' s ∨ ∃ b s', s.step b = some s' ∧ Shows sc' s' := by
  cases a with
  | worker w a => exact worker_shown taken shows
  | producer c a => exact producer_shown taken shows
  | control a => exact control_shown taken shows
  | update func =>
    cases taken
    exact .inl ⟨shows.queue,shows.pushing,shows.popping⟩

def Threaded (sc : Scheduler π φ) : Prop :=
  ∃ capacity s, (QueueThreads.machine capacity).Reachable s ∧ Shows sc s

theorem create_threaded (maxQueueSize totalRunners : Int) (func : φ) :
    Threaded (create maxQueueSize totalRunners func : Scheduler π φ) :=
  ⟨_,_,.start,rfl,fun _ => rfl,fun _ => rfl⟩

theorem step_threaded {sc sc' : Scheduler π φ} {a : SchedulerAction π φ}
    (taken : sc.step a = some sc') (threaded : Threaded sc) : Threaded sc' := by
  obtain ⟨capacity,s,reach,shows⟩ := threaded
  rcases step_shown taken shows with still | ⟨b,s',moved,shows'⟩
  · exact ⟨capacity,s,reach,still⟩
  · exact ⟨capacity,s',reach.step moved,shows'⟩

end Scheduler
end InferenceServer
