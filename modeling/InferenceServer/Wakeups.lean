import InferenceServer.SchedulerQueue

/-! The consumers' side of the queue's condition variables: no payload lies in a queue whose
workers all sleep. -/
namespace InferenceServer

namespace BlockingQueue

variable {α κ ω : Type}

def waiters (q : BlockingQueue α κ ω) : List ω := q.pushEvent.asleep ++ q.pushEvent.notified

/-- A consumer sleeps or is notified, not both, and while one sleeps there is a notified one
for each item. -/
structure Roused (q : BlockingQueue α κ ω) : Prop where
  apart : q.waiters.Nodup
  enough : q.pushEvent.asleep ≠ [] → q.broken = false →
    q.buffer.length ≤ q.pushEvent.notified.length
  broken : q.broken = true → q.pushEvent.asleep = []

end BlockingQueue

namespace Scheduler

variable {π φ : Type}

theorem pop_taken {sc sc' : Scheduler π φ} {w : Nat} {wake : Option Nat}
    (taken : sc.workerStep w (.pop wake) = some sc') :
    ∃ t result, sc.threads[w]? = some t ∧ t.pc = .popping ∧
      sc.queue.pop w wake = some (result,sc'.queue) ∧ sc'.producers = sc.producers ∧
      (result = .waiting ∧ sc'.threads = sc.threads ∨
        result ≠ .waiting ∧ ∃ pc, sc'.threads = sc.threads.set w { t with pc := pc }) := by
  unfold workerStep at taken
  split at taken
  · contradiction
  next t atIndex =>
    cases pc : t.pc with
    | popping =>
      rw [pc] at taken
      obtain ⟨⟨result,queue⟩,popped,rfl⟩ := Option.map_eq_some_iff.mp taken
      cases result with
      | waiting => exact ⟨t,_,atIndex,pc,popped,rfl,.inl ⟨rfl,rfl⟩⟩
      | item | broken => exact ⟨t,_,atIndex,pc,popped,rfl,.inr ⟨by simp,_,rfl⟩⟩
    | _ =>
      rw [pc] at taken
      contradiction

theorem push_taken {sc sc' : Scheduler π φ} {c : Nat} {wake : Option Nat}
    (taken : sc.producerStep c (.push wake) = some sc') :
    ∃ p result, sc.producers c = .pushing p ∧ sc.queue.push c p wake = some (result,sc'.queue) ∧
      (result = .waiting → sc'.producers = sc.producers) ∧
      ∀ d, d ≠ c → sc'.producers d = sc.producers d := by
  unfold producerStep at taken
  cases pc : sc.producers c with
  | pushing p =>
    rw [pc] at taken
    obtain ⟨⟨result,queue⟩,pushed,rfl⟩ := Option.map_eq_some_iff.mp taken
    cases result with
    | waiting => exact ⟨p,_,rfl,pushed,fun _ => rfl,fun _ _ => rfl⟩
    | appended | dropped =>
      exact ⟨p,_,rfl,pushed,by simp,fun d other => Function.update_of_ne other _ _⟩
  | _ =>
    rw [pc] at taken
    contradiction

structure Roused (sc : Scheduler π φ) : Prop where
  queue : sc.queue.Roused
  popping : ∀ w ∈ sc.queue.waiters, ∃ t, sc.threads[w]? = some t ∧ t.pc = .popping

theorem Threaded.roused {sc : Scheduler π φ} (threaded : sc.Threaded) : sc.Roused := by
  obtain ⟨capacity,s,reach,shows⟩ := threaded
  obtain ⟨queue,_,inside⟩ := QueueThreads.machine_attended reach
  rw [shows.queue] at queue
  refine ⟨⟨queue.consumers.apart,fun some _ => queue.consumers.enough some,
    fun broken => (queue.broken broken).1⟩,fun w waits => ?_⟩
  rw [← shows.queue] at waits
  have popping := inside w waits
  rw [shows.popping] at popping
  exact popping_worker popping

/-- While the queue has an item some worker does not sleep. -/
theorem Roused.awake {sc : Scheduler π φ} (roused : sc.Roused) (staffed : sc.threads ≠ [])
    (whole : sc.queue.broken = false) (item : sc.queue.buffer ≠ []) :
    ∃ (w : Nat) (t : Worker π φ), sc.threads[w]? = some t ∧ w ∉ sc.queue.pushEvent.asleep := by
  by_cases none : sc.queue.pushEvent.asleep = []
  · obtain ⟨t,rest,are⟩ := List.exists_cons_of_ne_nil staffed
    exact ⟨0,t,by simp [are],by simp [none]⟩
  · have enough := roused.queue.enough none whole
    have some : 0 < sc.queue.buffer.length := List.length_pos_iff.mpr item
    obtain ⟨w,told⟩ := List.exists_mem_of_length_pos (Nat.lt_of_lt_of_le some enough)
    obtain ⟨t,atIndex,_⟩ := roused.popping w (List.mem_append_right _ told)
    refine ⟨w,t,atIndex,fun sleeps => ?_⟩
    exact (List.nodup_append.mp roused.queue.apart).2.2 w sleeps w told rfl

end Scheduler
end InferenceServer
