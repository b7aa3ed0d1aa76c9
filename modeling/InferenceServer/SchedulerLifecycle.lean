import InferenceServer.SchedulerHistory

/-! The life of a scheduler that is started once and then stopped: how many workers it
has, when they leave, and what is left of its queue. -/
namespace InferenceServer

variable {π φ : Type}

/-- What the owner of a scheduler sees of it. Workers and callers of `Enqueue` change
none of it. -/
structure Face (φ : Type) where
  inferFunc : φ
  totalRunners : Int
  running : Bool
  control : ControlPc
  broken : Bool

namespace Scheduler

def face (sc : Scheduler π φ) : Face φ :=
  ⟨sc.inferFunc,sc.totalRunners,sc.running,sc.control,sc.queue.broken⟩

theorem worker_face {sc sc' : Scheduler π φ} {w : Nat} {t : Worker π φ} {a : WorkerAction}
    (taken : WorkerStep sc w t a sc') : sc'.face = sc.face := by
  cases taken with
  | test | wake | copy | call | ret | complete => rfl
  | take _ _ was _ now | takeBroken _ was _ now => simp [face,setWorker,was,now]
  | sleep _ _ _ same => simp [face,same]

theorem producer_face {sc sc' : Scheduler π φ} {c : Nat} {a : ProducerAction π}
    (taken : ProducerStep sc c a sc') : sc'.face = sc.face := by
  cases taken with
  | enter | refuse | wake | leave => rfl
  | append _ was _ _ now | drop _ was _ now => simp [face,setProducer,was,now]
  | sleep _ was _ _ now => simp [face,was,now]

theorem worker_producers {sc sc' : Scheduler π φ} {w : Nat} {t : Worker π φ} {a : WorkerAction}
    (taken : WorkerStep sc w t a sc') : sc'.producers = sc.producers := by
  cases taken <;> rfl

theorem producer_threads {sc sc' : Scheduler π φ} {c : Nat} {a : ProducerAction π}
    (taken : ProducerStep sc c a sc') : sc'.threads = sc.threads := by
  cases taken <;> rfl

/-- Only a caller's own steps change its place in `Enqueue`. -/
theorem step_producers {sc sc' : Scheduler π φ} {a : SchedulerAction π φ}
    (taken : sc.step a = some sc') (other : ∀ c b, a ≠ .producer c b) :
    sc'.producers = sc.producers := by
  cases a with
  | worker w a =>
    obtain ⟨_,_,cases⟩ := workerStep_cases taken
    exact worker_producers cases
  | producer c a => exact absurd rfl (other c a)
  | control a => cases controlStep_cases taken <;> rfl
  | update func => cases taken; rfl

/-- A worker is inside the call of a function it was inside of before, or makes the call
now, of the function installed. -/
theorem step_inside {sc sc' : Scheduler π φ} {a : SchedulerAction π φ} {w : Nat}
    {t : Worker π φ} {f : φ} (taken : sc.step a = some sc') (atIndex : sc'.threads[w]? = some t)
    (inside : t.pc.inside? = some f) :
    (∃ t', sc.threads[w]? = some t' ∧ t'.idx = t.idx ∧ t'.pc.inside? = some f) ∨
      a = .worker w .call ∧ f = sc.inferFunc ∧
        ∃ t', sc.threads[w]? = some t' ∧ t'.idx = t.idx := by
  cases a with
  | worker v a =>
    obtain ⟨u,atV,cases⟩ := workerStep_cases taken
    have bound := (List.getElem?_eq_some_iff.mp atV).1
    have set {pc : WorkerPc π φ} (threads : sc'.threads = sc.threads.set v { u with pc := pc }) :
        w = v ∧ t = { u with pc := pc } ∨ sc.threads[w]? = some t := by
      rw [threads] at atIndex
      by_cases same : w = v
      · subst v
        rw [List.getElem?_set_self bound] at atIndex
        exact .inl ⟨rfl,(Option.some.inj atIndex).symm⟩
      · rw [List.getElem?_set_ne (Ne.symm same)] at atIndex
        exact .inr atIndex
    cases cases with
    | sleep | wake => exact .inl ⟨t,atIndex,rfl,inside⟩
    | test =>
      rcases set rfl with ⟨rfl,rfl⟩ | old
      · simp only at inside
        split at inside <;> contradiction
      · exact .inl ⟨t,old,rfl,inside⟩
    | take | takeBroken | copy | ret | complete =>
      rcases set rfl with ⟨rfl,rfl⟩ | old
      · contradiction
      · exact .inl ⟨t,old,rfl,inside⟩
    | call =>
      rcases set rfl with ⟨rfl,rfl⟩ | old
      · exact .inr ⟨rfl,(Option.some.inj inside).symm,u,atV,rfl⟩
      · exact .inl ⟨t,old,rfl,inside⟩
  | producer c a =>
    rw [producer_threads (producerStep_cases taken)] at atIndex
    exact .inl ⟨t,atIndex,rfl,inside⟩
  | control a =>
    cases controlStep_cases taken with
    | spawn =>
      simp only [List.getElem?_append] at atIndex
      split at atIndex
      · exact .inl ⟨t,atIndex,rfl,inside⟩
      · obtain ⟨_,same⟩ := List.getElem?_eq_some_iff.mp atIndex
        simp only [List.getElem_singleton] at same
        subst t
        contradiction
    | _ => exact .inl ⟨t,atIndex,rfl,inside⟩
  | update func =>
    cases taken
    exact .inl ⟨t,atIndex,rfl,inside⟩

theorem step_totalRunners {sc sc' : Scheduler π φ} {a : SchedulerAction π φ}
    (taken : sc.step a = some sc') : sc'.totalRunners = sc.totalRunners := by
  cases a with
  | worker w a =>
    obtain ⟨_,_,cases⟩ := workerStep_cases taken
    exact congrArg Face.totalRunners (worker_face cases)
  | producer c a => exact congrArg Face.totalRunners (producer_face (producerStep_cases taken))
  | control a => cases controlStep_cases taken <;> rfl
  | update func => cases taken; rfl

theorem step_inferFunc {sc sc' : Scheduler π φ} {a : SchedulerAction π φ}
    (taken : sc.step a = some sc') (other : ∀ func, a ≠ .update func) :
    sc'.inferFunc = sc.inferFunc := by
  cases a with
  | worker w a =>
    obtain ⟨_,_,cases⟩ := workerStep_cases taken
    exact congrArg Face.inferFunc (worker_face cases)
  | producer c a => exact congrArg Face.inferFunc (producer_face (producerStep_cases taken))
  | control a => cases controlStep_cases taken <;> rfl
  | update func => exact absurd rfl (other func)

/-- Once broken the queue stays broken, and nothing enters or leaves it. -/
theorem step_broken {sc sc' : Scheduler π φ} {a : SchedulerAction π φ}
    (taken : sc.step a = some sc') (broken : sc.queue.broken = true) :
    sc'.queue.broken = true ∧ sc'.queue.buffer = sc.queue.buffer := by
  cases a with
  | worker w a =>
    obtain ⟨_,_,cases⟩ := workerStep_cases taken
    cases cases with
    | test | wake | copy | call | ret | complete => exact ⟨broken,rfl⟩
    | take _ _ whole => rw [broken] at whole; contradiction
    | takeBroken _ _ same now => exact ⟨now,same⟩
    | sleep _ was now same => exact ⟨same.trans broken,now.trans was.symm⟩
  | producer c a =>
    cases producerStep_cases taken with
    | enter | refuse | wake | leave => exact ⟨broken,rfl⟩
    | append _ whole | sleep _ whole => rw [broken] at whole; contradiction
    | drop _ _ same now => exact ⟨now,same⟩
  | control a =>
    cases controlStep_cases taken with
    | breakAll => exact ⟨rfl,rfl⟩
    | _ => exact ⟨broken,rfl⟩
  | update func =>
    cases taken
    exact ⟨broken,rfl⟩

/-- Only `breakAll` breaks the queue, and it leaves the buffer as it is. -/
theorem step_breaks {sc sc' : Scheduler π φ} {a : SchedulerAction π φ}
    (taken : sc.step a = some sc') (whole : sc.queue.broken = false)
    (broken : sc'.queue.broken = true) :
    a = .control .breakAll ∧ sc'.queue.buffer = sc.queue.buffer := by
  have face (same : sc'.face = sc.face) : False := by
    have flag := congrArg Face.broken same
    simp [Scheduler.face,whole,broken] at flag
  cases a with
  | worker w a =>
    obtain ⟨_,_,cases⟩ := workerStep_cases taken
    exact (face (worker_face cases)).elim
  | producer c a => exact (face (producer_face (producerStep_cases taken))).elim
  | control a =>
    cases controlStep_cases taken with
    | breakAll => exact ⟨rfl,rfl⟩
    | _ => exact absurd (whole.symm.trans broken) (by simp)
  | update func =>
    cases taken
    exact absurd (whole.symm.trans broken) (by simp)

/-- Only a producer's section puts an item into an empty queue. -/
theorem step_fills {sc sc' : Scheduler π φ} {a : SchedulerAction π φ}
    (taken : sc.step a = some sc') (item : sc'.queue.buffer ≠ []) :
    sc.queue.buffer ≠ [] ∨ ∃ c wake, a = .producer c (.push wake) := by
  cases a with
  | worker w a =>
    obtain ⟨_,_,cases⟩ := workerStep_cases taken
    cases cases with
    | test | wake | copy | call | ret | complete => exact .inl item
    | take _ front => exact .inl (by simp [front])
    | takeBroken _ _ same => exact .inl (same ▸ item)
    | sleep _ _ empty => exact absurd empty item
  | producer c a =>
    cases producerStep_cases taken with
    | enter | refuse | wake | leave => exact .inl item
    | append | drop | sleep => exact .inr ⟨c,_,rfl⟩
  | control a => cases controlStep_cases taken <;> exact .inl item
  | update func => cases taken; exact .inl item

theorem step_threads {sc sc' : Scheduler π φ} {a : SchedulerAction π φ}
    (taken : sc.step a = some sc') (staffed : sc.threads ≠ []) : sc'.threads ≠ [] := by
  cases a with
  | worker w a =>
    obtain ⟨_,_,cases⟩ := workerStep_cases taken
    cases cases <;> simpa [setWorker] using staffed
  | producer c a =>
    rw [producer_threads (producerStep_cases taken)]
    exact staffed
  | control a => cases controlStep_cases taken <;> simp [staffed]
  | update func => cases taken; exact staffed

/-- A worker leaves its loop only once `running_` is false. -/
theorem worker_threads {sc sc' : Scheduler π φ} {w : Nat} {t : Worker π φ} {a : WorkerAction}
    (atIndex : sc.threads[w]? = some t) (taken : WorkerStep sc w t a sc') :
    t.pc ≠ .exited ∧ ∃ pc, sc'.threads = sc.threads.set w ⟨t.idx,pc⟩ ∧
      (pc = .exited → sc.running = false) := by
  obtain ⟨bound,rfl⟩ := List.getElem?_eq_some_iff.mp atIndex
  cases taken with
  | test pc =>
    refine ⟨by simp [pc],_,rfl,?_⟩
    cases sc.running <;> simp
  | sleep pc | wake pc =>
    refine ⟨by simp [pc],sc.threads[w].pc,?_,by simp [pc]⟩
    exact (List.set_getElem_self bound).symm
  | take pc | takeBroken pc | copy pc | call pc | ret pc | complete pc =>
    exact ⟨by simp [pc],_,rfl,by simp⟩

/-- `Start` is called on a new scheduler and `Stop` on a started one. -/
def Orderly (sc : Scheduler π φ) (a : SchedulerAction π φ) : Prop :=
  (a = .control .start → sc.control = .idle) ∧
    (a = .control .stop → sc.control = .startReturned .success)

/-- What the place in `Start` or `Stop` says about the workers and the two flags. -/
def Phase (sc : Scheduler π φ) : Prop :=
  match sc.control with
  | .idle => sc.running = false ∧ sc.queue.broken = false ∧ sc.threads = []
  | .starting idx => sc.running = true ∧ sc.queue.broken = false ∧
      idx = sc.threads.length ∧ sc.threads.length ≤ sc.totalRunners.toNat
  | .startReturned status => status = .success ∧ sc.running = true ∧
      sc.queue.broken = false ∧ sc.threads.length = sc.totalRunners.toNat
  | .draining | .clearing => sc.running = true ∧ sc.queue.broken = false ∧
      sc.threads.length = sc.totalRunners.toNat
  | .breaking => sc.running = false ∧ sc.queue.broken = false ∧
      sc.threads.length = sc.totalRunners.toNat
  | .joining j => sc.running = false ∧ sc.queue.broken = true ∧
      sc.threads.length = sc.totalRunners.toNat ∧
      ∀ w t, w < j → sc.threads[w]? = some t → t.pc = .exited
  | .stopReturned status => status = .success ∧ sc.running = false ∧ sc.queue.broken = true ∧
      sc.threads.length = sc.totalRunners.toNat ∧
      ∀ (w : Nat) t, sc.threads[w]? = some t → t.pc = .exited

structure Staffed (sc : Scheduler π φ) : Prop where
  numbered : ∀ (w : Nat) t, sc.threads[w]? = some t → t.idx = w
  awake : sc.running = true → ∀ (w : Nat) t, sc.threads[w]? = some t → t.pc ≠ .exited
  phase : Phase sc

theorem Staffed.length_le {sc : Scheduler π φ} (valid : Staffed sc) :
    sc.threads.length ≤ sc.totalRunners.toNat := by
  have phase := valid.phase
  unfold Phase at phase
  split at phase
  · simp [phase.2.2]
  · exact phase.2.2.2
  · exact Nat.le_of_eq phase.2.2.2
  · exact Nat.le_of_eq phase.2.2
  · exact Nat.le_of_eq phase.2.2
  · exact Nat.le_of_eq phase.2.2
  · exact Nat.le_of_eq phase.2.2.1
  · exact Nat.le_of_eq phase.2.2.2.1

theorem create_staffed (maxQueueSize totalRunners : Int) (func : φ) :
    Staffed (create maxQueueSize totalRunners func : Scheduler π φ) :=
  ⟨by simp [create],by simp [create],rfl,rfl,rfl⟩

theorem staffed_of_same {sc sc' : Scheduler π φ} (valid : Staffed sc)
    (threads : sc'.threads = sc.threads) (running : sc'.running = sc.running)
    (control : sc'.control = sc.control) (broken : sc'.queue.broken = sc.queue.broken)
    (totalRunners : sc'.totalRunners = sc.totalRunners) : Staffed sc' := by
  refine ⟨by simpa [threads] using valid.numbered,by simpa [threads,running] using valid.awake,?_⟩
  have phase := valid.phase
  unfold Phase at *
  simpa only [threads,running,control,broken,totalRunners] using phase

theorem worker_staffed {sc sc' : Scheduler π φ} {w : Nat} {t : Worker π φ} {a : WorkerAction}
    (atIndex : sc.threads[w]? = some t) (taken : WorkerStep sc w t a sc')
    (valid : Staffed sc) : Staffed sc' := by
  obtain ⟨here,pc,threads,leaves⟩ := worker_threads atIndex taken
  have bound := (List.getElem?_eq_some_iff.mp atIndex).1
  have face := worker_face taken
  simp only [Scheduler.face,Face.mk.injEq] at face
  obtain ⟨_,totalRunners,running,control,broken⟩ := face
  have entry (v : Nat) (u : Worker π φ) (atV : sc'.threads[v]? = some u) :
      (v = w ∧ u = ⟨t.idx,pc⟩) ∨ sc.threads[v]? = some u := by
    rw [threads] at atV
    by_cases same : v = w
    · subst v
      rw [List.getElem?_set_self bound] at atV
      exact .inl ⟨rfl,(Option.some.inj atV).symm⟩
    · rw [List.getElem?_set_ne (Ne.symm same)] at atV
      exact .inr atV
  have length : sc'.threads.length = sc.threads.length := by rw [threads,List.length_set]
  -- A worker that has exited takes no step.
  have still (v : Nat) (u : Worker π φ) (atV : sc'.threads[v]? = some u)
      (gone : ∀ x, sc.threads[v]? = some x → x.pc = .exited) : u.pc = .exited := by
    rcases entry v u atV with ⟨rfl,_⟩ | old
    · exact absurd (gone t atIndex) here
    · exact gone u old
  refine ⟨?_,?_,?_⟩
  · intro v u atV
    rcases entry v u atV with ⟨rfl,rfl⟩ | old
    · exact valid.numbered v t atIndex
    · exact valid.numbered v u old
  · intro running' v u atV
    rw [running] at running'
    rcases entry v u atV with ⟨rfl,rfl⟩ | old
    · intro exited
      exact absurd (leaves exited) (by simp [running'])
    · exact valid.awake running' v u old
  · have phase := valid.phase
    unfold Phase at *
    rw [control,running,broken,length,totalRunners]
    split at phase
    next => exact ⟨phase.1,phase.2.1,List.length_eq_zero_iff.mp (by simp [length,phase.2.2])⟩
    next => exact phase
    next => exact phase
    next => exact phase
    next => exact phase
    next => exact phase
    next =>
      exact ⟨phase.1,phase.2.1,phase.2.2.1,fun v u below atV =>
        still v u atV fun x old => phase.2.2.2 v x below old⟩
    next =>
      exact ⟨phase.1,phase.2.1,phase.2.2.1,phase.2.2.2.1,fun v u atV =>
        still v u atV (phase.2.2.2.2 v)⟩

theorem control_staffed {sc sc' : Scheduler π φ} {a : ControlAction}
    (orderly : Orderly sc (.control a : SchedulerAction π φ)) (taken : ControlStep sc a sc')
    (valid : Staffed sc) : Staffed sc' := by
  obtain ⟨numbered,awake,phase⟩ := valid
  cases taken with
  | startAgain _ running =>
    rw [Phase,orderly.1 rfl] at phase
    rw [phase.1] at running
    contradiction
  | start _ stopped =>
    rw [Phase,orderly.1 rfl] at phase
    exact ⟨numbered,by simp [phase.2.2],rfl,phase.2.1,by simp [phase.2.2]⟩
  | @spawn idx pc more =>
    rw [Phase,pc] at phase
    obtain ⟨running,whole,position,_⟩ := phase
    have newest (w : Nat) (t : Worker π φ) (atIndex : (sc.threads ++ [⟨idx,.looping⟩])[w]? = some t) :
        sc.threads[w]? = some t ∨ w = sc.threads.length ∧ t = ⟨idx,.looping⟩ := by
      rw [List.getElem?_append] at atIndex
      split at atIndex
      · exact .inl atIndex
      next past =>
        obtain ⟨inside,same⟩ := List.getElem?_eq_some_iff.mp atIndex
        simp only [List.length_singleton] at inside
        exact .inr ⟨by omega,by simpa using same.symm⟩
    refine ⟨?_,?_,running,whole,by simp [position],?_⟩
    · intro w t atIndex
      rcases newest w t atIndex with old | ⟨rfl,rfl⟩
      · exact numbered w t old
      · exact position
    · intro _ w t atIndex
      rcases newest w t atIndex with old | ⟨rfl,rfl⟩
      · exact awake running w t old
      · simp
    · simp only [List.length_append,List.length_singleton]
      omega
  | started pc enough =>
    rw [Phase,pc] at phase
    obtain ⟨running,whole,position,_⟩ := phase
    have all : sc.threads.length = sc.totalRunners.toNat := by omega
    exact ⟨numbered,awake,rfl,running,whole,all⟩
  | stop _ running =>
    rw [Phase,orderly.2 rfl] at phase
    exact ⟨numbered,awake,phase.2⟩
  | stopIdle _ stopped =>
    rw [Phase,orderly.2 rfl] at phase
    rw [phase.2.1] at stopped
    contradiction
  | drainWait => exact ⟨numbered,awake,phase⟩
  | drained pc =>
    rw [Phase,pc] at phase
    exact ⟨numbered,awake,phase⟩
  | clearRunning pc =>
    rw [Phase,pc] at phase
    exact ⟨numbered,by simp,rfl,phase.2⟩
  | breakAll pc =>
    rw [Phase,pc] at phase
    exact ⟨numbered,awake,phase.1,rfl,phase.2.2,by simp⟩
  | @join j t pc atIndex gone =>
    rw [Phase,pc] at phase
    refine ⟨numbered,awake,phase.1,phase.2.1,phase.2.2.1,?_⟩
    intro w u below atW
    rcases Nat.lt_succ_iff_lt_or_eq.mp below with before | rfl
    · exact phase.2.2.2 w u before atW
    · exact Option.some.inj (atIndex.symm.trans atW) ▸ gone
  | @joined j pc past =>
    rw [Phase,pc] at phase
    refine ⟨numbered,awake,rfl,phase.1,phase.2.1,phase.2.2.1,?_⟩
    intro w t atIndex
    have bound : w < sc.threads.length := (List.getElem?_eq_some_iff.mp atIndex).1
    exact phase.2.2.2 w t (by omega) atIndex

theorem step_staffed {sc sc' : Scheduler π φ} {a : SchedulerAction π φ} (orderly : Orderly sc a)
    (taken : sc.step a = some sc') (valid : Staffed sc) : Staffed sc' := by
  cases a with
  | worker w a =>
    obtain ⟨t,atIndex,cases⟩ := workerStep_cases taken
    exact worker_staffed atIndex cases valid
  | producer c a =>
    have cases := producerStep_cases taken
    have face := producer_face cases
    simp only [Scheduler.face,Face.mk.injEq] at face
    exact staffed_of_same valid (producer_threads cases) face.2.2.1 face.2.2.2.1 face.2.2.2.2
      face.2.1
  | control a => exact control_staffed orderly (controlStep_cases taken) valid
  | update func =>
    cases taken
    exact staffed_of_same valid rfl rfl rfl rfl rfl

end Scheduler
end InferenceServer
