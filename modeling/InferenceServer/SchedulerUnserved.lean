import InferenceServer.SchedulerConservation

/-! The requests a scheduler accepted and has not served: those in its queue, and those whose
call of the function has not returned. -/
namespace InferenceServer

variable {π φ : Type}

/-- The payload of a worker between `pop` and the return of its call. -/
def WorkerPc.unserved? : WorkerPc π φ → Option π
  | .holding p | .copied p _ | .running p _ => some p
  | _ => none

namespace Scheduler

def unserved (sc : Scheduler π φ) : Multiset π :=
  ↑sc.queue.buffer + ↑(sc.threads.filterMap (·.pc.unserved?))

/-- A push adds one, the return of a call takes one off, and no other step changes them. -/
inductive Serves (sc : Scheduler π φ) (a : SchedulerAction π φ) (sc' : Scheduler π φ) : Prop where
  | same : sc'.unserved = sc.unserved → Serves sc a sc'
  | pushed {c wake p} : a = .producer c (.push wake) → sc'.unserved = p ::ₘ sc.unserved →
      Serves sc a sc'
  | returned {w status t p f} : a = .worker w (.ret status) → sc.threads[w]? = some t →
      t.pc = .running p f → sc.unserved = p ::ₘ sc'.unserved → Serves sc a sc'

theorem setWorker_unserved {sc : Scheduler π φ} {w : Nat} {t : Worker π φ}
    (atIndex : sc.threads[w]? = some t) (queue : BlockingQueue π Nat Nat) (pc : WorkerPc π φ)
    (events : List (Event π φ)) :
    ({ sc with queue := queue }.setWorker w t pc events).unserved + ↑t.pc.unserved?.toList +
      ↑sc.queue.buffer = sc.unserved + ↑pc.unserved?.toList + ↑queue.buffer := by
  obtain ⟨others,before,after⟩ := collect_set (fun u : Worker π φ => u.pc.unserved?) atIndex
  simp only [unserved,setWorker,before,after]
  abel

theorem worker_serves {sc sc' : Scheduler π φ} {w : Nat} {t : Worker π φ} {a : WorkerAction}
    (atIndex : sc.threads[w]? = some t) (taken : WorkerStep sc w t a sc') :
    Serves sc (.worker w a) sc' := by
  have moved (queue : BlockingQueue π Nat Nat) (pc : WorkerPc π φ) (events : List (Event π φ))
      (balance : (↑pc.unserved?.toList + ↑queue.buffer : Multiset π) =
        ↑t.pc.unserved?.toList + ↑sc.queue.buffer) :
      Serves sc (.worker w a) ({ sc with queue := queue }.setWorker w t pc events) := by
    have sum := setWorker_unserved atIndex queue pc events
    rw [add_assoc,add_assoc,balance] at sum
    exact .same (add_right_cancel sum)
  cases taken with
  | test pc =>
    refine moved sc.queue _ _ ?_
    cases sc.running <;> simp [pc,WorkerPc.unserved?]
  | take pc front _ rest =>
    refine moved _ _ _ ?_
    simp [pc,front,rest,WorkerPc.unserved?,← Multiset.cons_coe]
  | takeBroken pc _ same =>
    refine moved _ _ _ ?_
    simp [pc,same,WorkerPc.unserved?]
  | sleep pc empty empty' => exact .same (by simp [unserved,empty,empty'])
  | wake pc => exact .same rfl
  | copy pc | call pc | complete pc =>
    refine moved sc.queue _ _ ?_
    simp [pc,WorkerPc.unserved?]
  | @ret p f status pc =>
    have sum := setWorker_unserved atIndex sc.queue (.returned p f status) [.returned w f status]
    simp only [pc,WorkerPc.unserved?,Option.toList_some,Option.toList_none,Multiset.coe_nil,
      add_zero,Multiset.coe_singleton] at sum
    refine .returned rfl atIndex pc ?_
    rw [← Multiset.singleton_add,add_comm]
    exact (add_right_cancel sum).symm

theorem producer_serves {sc sc' : Scheduler π φ} {c : Nat} {a : ProducerAction π}
    (taken : ProducerStep sc c a sc') : Serves sc (.producer c a) sc' := by
  cases taken with
  | enter | refuse | wake | leave => exact .same rfl
  | @append p _ _ _ _ _ longer =>
    refine .pushed (p := p) rfl ?_
    simp only [unserved,setProducer,longer,← Multiset.coe_add,Multiset.coe_singleton,
      ← Multiset.singleton_add]
    abel
  | drop _ _ same | sleep _ _ _ same => exact .same (by simp [unserved,setProducer,same])

theorem step_serves {sc sc' : Scheduler π φ} {a : SchedulerAction π φ}
    (taken : sc.step a = some sc') : Serves sc a sc' := by
  cases a with
  | worker w a =>
    obtain ⟨t,atIndex,cases⟩ := workerStep_cases taken
    exact worker_serves atIndex cases
  | producer c a => exact producer_serves (producerStep_cases taken)
  | control a =>
    cases controlStep_cases taken with
    | spawn => exact .same (by simp [unserved,WorkerPc.unserved?])
    | _ => exact .same rfl
  | update func =>
    cases taken
    exact .same rfl

theorem mem_unserved {sc : Scheduler π φ} {p : π} : p ∈ sc.unserved ↔ p ∈ sc.queue.buffer ∨
    ∃ (w : Nat) (t : Worker π φ), sc.threads[w]? = some t ∧ t.pc.unserved? = some p := by
  rw [unserved,Multiset.mem_add,Multiset.mem_coe,Multiset.mem_coe,List.mem_filterMap]
  constructor
  · rintro (queued | ⟨t,member,mine⟩)
    · exact .inl queued
    · obtain ⟨w,atIndex⟩ := List.mem_iff_getElem?.mp member
      exact .inr ⟨w,t,atIndex,mine⟩
  · rintro (queued | ⟨w,t,atIndex,mine⟩)
    · exact .inl queued
    · exact .inr ⟨t,List.mem_of_getElem? atIndex,mine⟩

/-- A scheduler that has nothing unserved, and whose workers have left, completed everything. -/
theorem unserved_exited {sc : Scheduler π φ} (empty : sc.queue.buffer = [])
    (exited : ∀ (w : Nat) t, sc.threads[w]? = some t → t.pc = .exited) : sc.unserved = 0 := by
  refine Multiset.eq_zero_of_forall_notMem fun p member => ?_
  rcases mem_unserved.mp member with queued | ⟨w,t,atIndex,mine⟩
  · rw [empty] at queued
    contradiction
  · rw [exited w t atIndex] at mine
    contradiction

end Scheduler
end InferenceServer
