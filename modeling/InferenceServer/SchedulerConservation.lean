import Mathlib.Algebra.Order.Group.Multiset
import Mathlib.Tactic.Abel
import InferenceServer.SchedulerSteps

/-! Conservation of payloads: what has been appended to the queue is in the buffer, with
a worker, or completed, on every run of a scheduler. -/
namespace InferenceServer

variable {π φ : Type}

namespace Event

def appended? : Event π φ → Option π
  | .appended _ p => some p
  | _ => none

def completed? : Event π φ → Option π
  | .completed _ p _ _ => some p
  | _ => none

def batch : Event π φ → List π
  | .invoked _ _ _ batch => batch
  | _ => []

end Event

def WorkerPc.underway? : WorkerPc π φ → Option π
  | .running p _ | .returned p _ _ => some p
  | _ => none

namespace Scheduler

def appended (sc : Scheduler π φ) : Multiset π := ↑(sc.log.filterMap Event.appended?)
def completed (sc : Scheduler π φ) : Multiset π := ↑(sc.log.filterMap Event.completed?)
def invoked (sc : Scheduler π φ) : Multiset π := ↑(sc.log.flatMap Event.batch)
def held (sc : Scheduler π φ) : Multiset π := ↑(sc.threads.filterMap (·.pc.payload?))
def underway (sc : Scheduler π φ) : Multiset π := ↑(sc.threads.filterMap (·.pc.underway?))

/-- Replacing one entry of a list replaces its contribution to what is collected from it. -/
theorem collect_set {β γ : Type} {l : List β} {w : Nat} {t : β} (f : β → Option γ)
    (atIndex : l[w]? = some t) :
    ∃ others : Multiset γ, (↑(l.filterMap f) : Multiset γ) = ↑(f t).toList + others ∧
      ∀ u, (↑((l.set w u).filterMap f) : Multiset γ) = ↑(f u).toList + others := by
  obtain ⟨bound,rfl⟩ := List.getElem?_eq_some_iff.mp atIndex
  have collect (x : β) : (↑((x :: l.eraseIdx w).filterMap f) : Multiset γ) =
      ↑(f x).toList + ↑((l.eraseIdx w).filterMap f) := by
    cases chosen : f x <;> simp [chosen]
  refine ⟨↑((l.eraseIdx w).filterMap f),?_,fun u => ?_⟩
  · rw [← collect]
    exact Multiset.coe_eq_coe.mpr ((List.getElem_cons_eraseIdx_perm bound).symm.filterMap f)
  · rw [← collect]
    exact Multiset.coe_eq_coe.mpr ((List.set_perm_cons_eraseIdx bound u).filterMap f)

/-- Payloads move from the queue to a worker to completion and are nowhere else; a
completed payload, or one underway, stands for one call of a function. -/
structure Conserved (sc : Scheduler π φ) : Prop where
  payloads : sc.appended = ↑sc.queue.buffer + sc.held + sc.completed
  calls : sc.invoked = sc.underway + sc.completed

theorem create_conserved (maxQueueSize totalRunners : Int) (func : φ) :
    Conserved (create maxQueueSize totalRunners func : Scheduler π φ) := by
  constructor <;> simp [create,appended,invoked,held,underway,completed,BlockingQueue.create]

/-- A worker's step keeps conservation if it balances what it takes, holds and reports. -/
theorem conserved_setWorker {sc : Scheduler π φ} {w : Nat} {t : Worker π φ} {pc : WorkerPc π φ}
    (queue : BlockingQueue π Nat Nat) {events : List (Event π φ)}
    (atIndex : sc.threads[w]? = some t) (valid : Conserved sc)
    (payloads : (↑(events.filterMap Event.appended?) + (↑t.pc.payload?.toList + ↑sc.queue.buffer) :
      Multiset π) = ↑pc.payload?.toList + ↑queue.buffer + ↑(events.filterMap Event.completed?))
    (calls : (↑(events.flatMap Event.batch) + ↑t.pc.underway?.toList : Multiset π) =
      ↑pc.underway?.toList + ↑(events.filterMap Event.completed?)) :
    Conserved ({ sc with queue := queue }.setWorker w t pc events) := by
  obtain ⟨others,here,after⟩ := collect_set (fun u : Worker π φ => u.pc.payload?) atIndex
  obtain ⟨callers,here',after'⟩ := collect_set (fun u : Worker π φ => u.pc.underway?) atIndex
  have before := valid.payloads
  have before' := valid.calls
  simp only [appended,completed,invoked,held,underway] at before before'
  rw [here] at before
  rw [here'] at before'
  constructor
  · simp only [appended,completed,held,setWorker,List.filterMap_append,after,← Multiset.coe_add]
    calc _ = (↑(events.filterMap Event.appended?) + (↑t.pc.payload?.toList + ↑sc.queue.buffer)) +
          (others + ↑(sc.log.filterMap Event.completed?)) := by rw [before]; abel
      _ = _ := by rw [payloads]; abel
  · simp only [invoked,completed,underway,setWorker,List.filterMap_append,List.flatMap_append,
      after',← Multiset.coe_add]
    calc _ = (↑(events.flatMap Event.batch) + ↑t.pc.underway?.toList) +
          (callers + ↑(sc.log.filterMap Event.completed?)) := by rw [before']; abel
      _ = _ := by rw [calls]; abel

theorem worker_conserved {sc sc' : Scheduler π φ} {w : Nat} {t : Worker π φ} {a : WorkerAction}
    (atIndex : sc.threads[w]? = some t) (taken : WorkerStep sc w t a sc')
    (valid : Conserved sc) : Conserved sc' := by
  cases taken with
  | test pc =>
    refine conserved_setWorker sc.queue atIndex valid ?_ ?_
    all_goals cases sc.running <;> simp [pc,WorkerPc.payload?,WorkerPc.underway?]
  | take pc front _ rest =>
    refine conserved_setWorker _ atIndex valid ?_ ?_
    · simp [pc,front,rest,WorkerPc.payload?,Event.appended?,Event.completed?,
        List.filterMap_cons,← Multiset.cons_coe]
    · simp [pc,WorkerPc.underway?,Event.batch,Event.completed?,List.filterMap_cons]
  | takeBroken pc _ same =>
    refine conserved_setWorker _ atIndex valid ?_ ?_
    all_goals simp [pc,same,WorkerPc.payload?,WorkerPc.underway?]
  | sleep pc empty empty' => exact ⟨by simpa [empty,empty',appended,held,completed] using valid.payloads,valid.calls⟩
  | wake pc => exact ⟨valid.payloads,valid.calls⟩
  | copy pc =>
    refine conserved_setWorker sc.queue atIndex valid ?_ ?_
    · simp [pc,WorkerPc.payload?,Event.appended?,Event.completed?,
        List.filterMap_cons,← Multiset.cons_coe,add_comm]
    · simp [pc,WorkerPc.underway?,Event.batch,Event.completed?,List.filterMap_cons]
  | call pc =>
    refine conserved_setWorker sc.queue atIndex valid ?_ ?_
    · simp [pc,WorkerPc.payload?,Event.appended?,Event.completed?,
        List.filterMap_cons,← Multiset.cons_coe,add_comm]
    · simp [pc,WorkerPc.underway?,Event.batch,Event.completed?,List.filterMap_cons]
  | ret pc =>
    refine conserved_setWorker sc.queue atIndex valid ?_ ?_
    · simp [pc,WorkerPc.payload?,Event.appended?,Event.completed?,
        List.filterMap_cons,← Multiset.cons_coe,add_comm]
    · simp [pc,WorkerPc.underway?,Event.batch,Event.completed?,List.filterMap_cons]
  | complete pc =>
    refine conserved_setWorker sc.queue atIndex valid ?_ ?_
    · simp [pc,WorkerPc.payload?,Event.appended?,Event.completed?,
        List.filterMap_cons,← Multiset.cons_coe,add_comm]
    · simp [pc,WorkerPc.underway?,Event.batch,Event.completed?]

theorem producer_conserved {sc sc' : Scheduler π φ} {c : Nat} {a : ProducerAction π}
    (taken : ProducerStep sc c a sc') (valid : Conserved sc) : Conserved sc' := by
  obtain ⟨payloads,calls⟩ := valid
  simp only [appended,completed,invoked,held,underway] at payloads calls
  cases taken with
  | append _ _ _ longer =>
    constructor
    · simp only [appended,completed,held,setProducer,List.filterMap_append,longer,
        ← Multiset.coe_add,payloads]
      simp only [Event.appended?,Event.completed?,List.filterMap_cons,List.filterMap_nil,
        Multiset.coe_nil]
      abel
    · simp only [invoked,completed,underway,setProducer,List.filterMap_append,List.flatMap_append,
        ← Multiset.coe_add,calls]
      simp [Event.batch,Event.completed?,List.filterMap_cons]
  | drop _ _ same | sleep _ _ _ same =>
    constructor
    · simpa only [appended,completed,held,setProducer,List.append_nil,same] using payloads
    · simpa only [invoked,completed,underway,setProducer,List.append_nil] using calls
  | enter | wake =>
    constructor
    · simpa only [appended,completed,held,setProducer,List.append_nil,BlockingQueue.wakeProducer]
        using payloads
    · simpa only [invoked,completed,underway,setProducer,List.append_nil] using calls
  | refuse | leave =>
    constructor
    · simp only [appended,completed,held,setProducer,List.filterMap_append,← Multiset.coe_add,
        payloads]
      simp [Event.appended?,Event.completed?,List.filterMap_cons]
    · simp only [invoked,completed,underway,setProducer,List.filterMap_append,List.flatMap_append,
        ← Multiset.coe_add,calls]
      simp [Event.batch,Event.completed?,List.filterMap_cons]

theorem control_conserved {sc sc' : Scheduler π φ} {a : ControlAction}
    (taken : ControlStep sc a sc') (valid : Conserved sc) : Conserved sc' := by
  obtain ⟨payloads,calls⟩ := valid
  cases taken with
  | spawn =>
    constructor
    · simpa [appended,completed,held,WorkerPc.payload?,List.filterMap_cons] using payloads
    · simpa [invoked,completed,underway,WorkerPc.underway?,List.filterMap_cons] using calls
  | _ => exact ⟨payloads,calls⟩

theorem step_conserved {sc sc' : Scheduler π φ} {a : SchedulerAction π φ}
    (taken : sc.step a = some sc') (valid : Conserved sc) : Conserved sc' := by
  cases a with
  | worker w a =>
    obtain ⟨t,atIndex,cases⟩ := workerStep_cases taken
    exact worker_conserved atIndex cases valid
  | producer c a => exact producer_conserved (producerStep_cases taken) valid
  | control a => exact control_conserved (controlStep_cases taken) valid
  | update func =>
    cases taken
    obtain ⟨payloads,calls⟩ := valid
    constructor
    · simpa [appended,completed,held,updateBackendInferFunc,Event.appended?,Event.completed?,
        List.filterMap_cons] using payloads
    · simpa [invoked,completed,underway,updateBackendInferFunc,Event.batch,Event.completed?,
        List.filterMap_cons] using calls

end Scheduler
end InferenceServer
