import InferenceServer.Simulation
import InferenceServer.TruthfulEnqueue
import InferenceServer.WorkPool

/-! A scheduler is a pool of workers over a bounded queue, over any number of rounds of `Start`
and `Stop`: what it does is what the pool may do. -/
namespace InferenceServer

variable {π φ : Type}

def Event.dequeued? : Event π φ → Option π
  | .dequeued _ p => some p
  | _ => none

namespace Scheduler

def alive (sc : Scheduler π φ) : Nat := sc.threads.countP fun t => !t.pc.isExited

def Cleared (sc : Scheduler π φ) : Prop :=
  match sc.control with
  | .idle | .stopReturned _ => sc.alive = 0
  | .starting idx => 0 ≤ idx ∧ sc.alive ≤ idx.toNat
  | .joining j => ∀ w t, w < j → sc.threads[w]? = some t → t.pc = .exited
  | _ => True

/-- A round starts when no worker of an earlier one is left. -/
structure Manned (sc : Scheduler π φ) : Prop where
  flag : sc.running = sc.control.running
  few : sc.alive ≤ sc.totalRunners.toNat
  cleared : Cleared sc

/-- Between two rounds all workers have left. -/
theorem Manned.nobody {sc : Scheduler π φ} (manned : Manned sc) (ready : sc.control.ready = true)
    (stopped : sc.running = false) : sc.alive = 0 := by
  have flag := manned.flag
  have cleared := manned.cleared
  rw [stopped] at flag
  unfold Cleared at cleared
  cases control : sc.control with
  | idle | stopReturned =>
    rw [control] at cleared
    exact cleared
  | startReturned =>
    rw [control] at flag
    contradiction
  | _ =>
    rw [control] at ready
    contradiction

theorem worker_alive {sc sc' : Scheduler π φ} {w : Nat} {t : Worker π φ} {a : WorkerAction}
    (atIndex : sc.threads[w]? = some t) (taken : WorkerStep sc w t a sc') :
    sc'.alive ≤ sc.alive := by
  obtain ⟨here,pc,threads,_⟩ := worker_threads atIndex taken
  obtain ⟨bound,rfl⟩ := List.getElem?_eq_some_iff.mp atIndex
  have living : sc.threads[w].pc.isExited = false := by
    simpa only [← Bool.not_eq_true,isExited_iff] using here
  have counted : 0 < sc.alive :=
    List.countP_pos_iff.mpr ⟨sc.threads[w],List.getElem_mem bound,by simp [living]⟩
  have after : sc'.alive ≤ sc.alive - 1 + 1 := by
    unfold alive
    rw [threads,List.countP_set bound]
    simp only [living,Bool.not_false,if_true]
    apply Nat.add_le_add_left
    split <;> decide
  omega

theorem worker_manned {sc sc' : Scheduler π φ} {w : Nat} {t : Worker π φ} {a : WorkerAction}
    (atIndex : sc.threads[w]? = some t) (taken : WorkerStep sc w t a sc')
    (manned : Manned sc) : Manned sc' := by
  obtain ⟨flag,few,cleared⟩ := manned
  have fewer := worker_alive atIndex taken
  obtain ⟨here,pc,threads,_⟩ := worker_threads atIndex taken
  have face := worker_face taken
  simp only [Scheduler.face,Face.mk.injEq] at face
  obtain ⟨_,totalRunners,running,control,_⟩ := face
  refine ⟨by rw [running,control,flag],by rw [totalRunners]; omega,?_⟩
  unfold Cleared at *
  rw [control]
  split at cleared
  · omega
  · omega
  · exact ⟨cleared.1,Nat.le_trans fewer cleared.2⟩
  next j _ =>
    intro v u below atV
    rw [threads] at atV
    by_cases same : v = w
    · subst v
      exact absurd (cleared w t below atIndex) here
    · rw [List.getElem?_set_ne (Ne.symm same)] at atV
      exact cleared v u below atV
  · trivial

theorem manned_of_same {sc sc' : Scheduler π φ} (threads : sc'.threads = sc.threads)
    (face : sc'.face.running = sc.face.running ∧ sc'.face.control = sc.face.control ∧
      sc'.face.totalRunners = sc.face.totalRunners) (manned : Manned sc) : Manned sc' := by
  obtain ⟨flag,few,cleared⟩ := manned
  obtain ⟨running,control,totalRunners⟩ := face
  simp only [Scheduler.face] at running control totalRunners
  have alive : sc'.alive = sc.alive := by rw [Scheduler.alive,threads,Scheduler.alive]
  refine ⟨by rw [running,control,flag],by rw [alive,totalRunners]; exact few,?_⟩
  unfold Cleared at *
  rw [control,alive,threads]
  exact cleared

theorem control_manned {sc sc' : Scheduler π φ} {a : ControlAction}
    (taken : ControlStep sc a sc') (manned : Manned sc) : Manned sc' := by
  obtain ⟨flag,few,cleared⟩ := manned
  cases taken with
  | startAgain ready running => exact ⟨running,few,trivial⟩
  | start ready stopped =>
    have nobody := Manned.nobody ⟨flag,few,cleared⟩ ready stopped
    exact ⟨rfl,few,Int.le_refl 0,Nat.le_of_eq nobody⟩
  | @spawn idx pc more =>
    rw [Cleared,pc] at cleared
    rw [pc] at flag
    obtain ⟨nonneg,below⟩ := cleared
    have one : ∀ threads : List (Worker π φ),
        ({ sc with threads := threads ++ [⟨idx,.looping⟩], control := .starting (idx + 1) } :
          Scheduler π φ).alive = threads.countP (fun t => !t.pc.isExited) + 1 := by
      intro threads
      simp [alive,List.countP_append,WorkerPc.isExited]
    have before : sc.threads.countP (fun t => !t.pc.isExited) ≤ idx.toNat := below
    refine ⟨flag,?_,by omega,?_⟩
    · rw [one]
      show _ ≤ sc.totalRunners.toNat
      omega
    · rw [one]
      omega
  | started pc enough =>
    rw [pc] at flag
    exact ⟨flag,few,trivial⟩
  | stop ready running => exact ⟨running,few,trivial⟩
  | stopIdle ready stopped =>
    have nobody := Manned.nobody ⟨flag,few,cleared⟩ ready stopped
    exact ⟨stopped,few,nobody⟩
  | drainWait => exact ⟨flag,few,cleared⟩
  | drained pc =>
    rw [pc] at flag
    exact ⟨flag,few,trivial⟩
  | clearRunning => exact ⟨rfl,few,trivial⟩
  | breakAll pc =>
    rw [pc] at flag
    exact ⟨flag,few,fun w t below => absurd below (Nat.not_lt_zero w)⟩
  | @join j t pc atIndex gone =>
    rw [Cleared,pc] at cleared
    rw [pc] at flag
    refine ⟨flag,few,fun w u below atW => ?_⟩
    rcases Nat.lt_succ_iff_lt_or_eq.mp below with before | rfl
    · exact cleared w u before atW
    · exact Option.some.inj (atIndex.symm.trans atW) ▸ gone
  | @joined j pc past =>
    rw [Cleared,pc] at cleared
    rw [pc] at flag
    refine ⟨flag,few,List.countP_eq_zero.mpr fun t member => ?_⟩
    obtain ⟨w,atIndex⟩ := List.getElem?_of_mem member
    have bound := (List.getElem?_eq_some_iff.mp atIndex).1
    simp [isExited_iff.mpr (cleared w t (Nat.lt_of_lt_of_le bound past) atIndex)]

theorem step_manned {sc sc' : Scheduler π φ} {a : SchedulerAction π φ}
    (taken : sc.step a = some sc') (manned : Manned sc) : Manned sc' := by
  cases a with
  | worker w a =>
    obtain ⟨t,atIndex,cases⟩ := workerStep_cases taken
    exact worker_manned atIndex cases manned
  | producer c a =>
    have cases := producerStep_cases taken
    exact manned_of_same (producer_threads cases) (by simp [producer_face cases]) manned
  | control a => exact control_manned (controlStep_cases taken) manned
  | update func =>
    cases taken
    exact manned_of_same (show _ = sc.threads from rfl) ⟨rfl,rfl,rfl⟩ manned

theorem create_manned (maxQueueSize totalRunners : Int) (func : φ) :
    Manned (create maxQueueSize totalRunners func : Scheduler π φ) :=
  ⟨rfl,Nat.zero_le _,rfl⟩

theorem reachable_manned {maxQueueSize totalRunners : Int} {func : φ} {sc : Scheduler π φ}
    (reach : (machine maxQueueSize totalRunners func).Reachable sc) : Manned sc := by
  refine reach.invariant (create_manned _ _ _) ?_
  intro sc a sc' _ manned taken
  exact step_manned taken manned

/-- A worker that looks for a payload is not among those that have one. -/
theorem held_lt_alive {sc : Scheduler π φ} {w : Nat} {t : Worker π φ}
    (atIndex : sc.threads[w]? = some t) (pc : t.pc = .popping) : sc.held.card < sc.alive := by
  obtain ⟨bound,rfl⟩ := List.getElem?_eq_some_iff.mp atIndex
  have split := List.getElem_cons_eraseIdx_perm bound
  have others : (sc.threads.eraseIdx w).countP (fun t => t.pc.payload?.isSome) ≤
      (sc.threads.eraseIdx w).countP fun t => !t.pc.isExited := by
    apply List.countP_mono_left
    intro u _ busy
    cases pc : u.pc <;> simp_all [WorkerPc.payload?,WorkerPc.isExited]
  rw [held,Multiset.coe_card,List.length_filterMap_eq_countP,alive,← split.countP_eq,
    ← split.countP_eq,List.countP_cons,List.countP_cons]
  have busy : (sc.threads[w].pc.payload?.isSome : Bool) = false := by rw [pc]; rfl
  have living : (!sc.threads[w].pc.isExited) = true := by rw [pc]; rfl
  rw [busy,living]
  exact Nat.lt_succ_of_le others

/-- The pool that a scheduler is: its history, its queue and what its workers hold. -/
structure Pooled {capacity runners : Nat} (sc : Scheduler π φ) (pool : WorkPool π capacity runners) :
    Prop where
  accepted : pool.accepted = sc.log.filterMap Event.appended?
  begun : pool.begun = sc.log.filterMap Event.dequeued?
  finished : pool.finished = sc.log.filterMap Event.completed?
  waiting : pool.waiting = sc.queue.buffer
  active : (↑pool.active : Multiset π) = sc.held
  closed : pool.closed = sc.queue.broken
  room : sc.queue.capacity = capacity
  hands : sc.totalRunners.toNat = runners

variable {capacity runners : Nat} {pool : WorkPool π capacity runners}

theorem Pooled.of_same {sc sc' : Scheduler π φ} (pooled : Pooled sc pool)
    (events : List (Event π φ)) (log : sc'.log = sc.log ++ events)
    (silent : ∀ e ∈ events, e.appended? = none ∧ e.dequeued? = none ∧ e.completed? = none)
    (buffer : sc'.queue.buffer = sc.queue.buffer) (held : sc'.held = sc.held)
    (broken : sc'.queue.broken = sc.queue.broken)
    (room : sc'.queue.capacity = sc.queue.capacity)
    (hands : sc'.totalRunners = sc.totalRunners) : Pooled sc' pool := by
  have nothing {select : Event π φ → Option π} (none : ∀ e ∈ events, select e = none) :
      sc'.log.filterMap select = sc.log.filterMap select := by
    rw [log,List.filterMap_append,List.filterMap_eq_nil_iff.mpr none,List.append_nil]
  exact ⟨by rw [nothing fun e member => (silent e member).1,pooled.accepted],
    by rw [nothing fun e member => (silent e member).2.1,pooled.begun],
    by rw [nothing fun e member => (silent e member).2.2,pooled.finished],
    by rw [buffer,pooled.waiting],by rw [held,pooled.active],by rw [broken,pooled.closed],
    by rw [room,pooled.room],by rw [hands,pooled.hands]⟩

/-- What the workers hold once worker `w` is elsewhere. -/
theorem held_set {sc : Scheduler π φ} (sc' : Scheduler π φ) {w : Nat} {t : Worker π φ}
    (atIndex : sc.threads[w]? = some t) (pc : WorkerPc π φ)
    (threads : sc'.threads = sc.threads.set w { t with pc := pc }) :
    sc'.held + ↑t.pc.payload?.toList = sc.held + ↑pc.payload?.toList := by
  obtain ⟨others,before,after⟩ := collect_set (fun u : Worker π φ => u.pc.payload?) atIndex
  rw [held,held,threads,after,before,add_comm,← add_assoc,add_right_comm]

theorem held_same {sc sc' : Scheduler π φ} {w : Nat} {t : Worker π φ}
    (atIndex : sc.threads[w]? = some t) (pc : WorkerPc π φ)
    (threads : sc'.threads = sc.threads.set w { t with pc := pc })
    (same : pc.payload? = t.pc.payload?) : sc'.held = sc.held := by
  have moved := held_set sc' atIndex pc threads
  rw [same] at moved
  exact add_right_cancel moved

theorem worker_pooled {sc sc' : Scheduler π φ} {w : Nat} {t : Worker π φ} {a : WorkerAction}
    (atIndex : sc.threads[w]? = some t) (taken : WorkerStep sc w t a sc') (manned : Manned sc)
    (pooled : Pooled sc pool) :
    ∃ answers pool', (WorkPool.machine π capacity runners).exec pool answers = some pool' ∧
      Pooled sc' pool' := by
  cases taken with
  | test pc =>
    refine ⟨[],pool,rfl,pooled.of_same [] rfl (by simp) rfl (held_same atIndex _ rfl ?_) rfl rfl rfl⟩
    cases sc.running <;> simp [pc,WorkerPc.payload?]
  | @take wake queue p rest pc front whole now whole' same =>
    have free : pool.active.length < runners := by
      have fewer := held_lt_alive atIndex pc
      have few := manned.few
      rw [← pooled.active,Multiset.coe_card] at fewer
      rw [pooled.hands] at few
      omega
    have opened : pool.closed = false := by rw [pooled.closed,whole]
    have next : pool.waiting = p :: rest := by rw [pooled.waiting,front]
    refine ⟨[.begin],_,Transition.Machine.exec_singleton
      (WorkPool.step_begin opened next free),?_⟩
    have moved := held_set ({ sc with queue := queue }.setWorker w t (.holding p) [.dequeued w p])
      atIndex (.holding p) rfl
    rw [pc] at moved
    refine ⟨?_,?_,?_,now.symm,?_,whole'.symm ▸ opened,same.trans pooled.room,pooled.hands⟩
    · simp [WorkPool.begin,setWorker,pooled.accepted,Event.appended?]
    · simp [WorkPool.begin,setWorker,pooled.begun,Event.dequeued?]
    · simp [WorkPool.begin,setWorker,pooled.finished,Event.completed?]
    · simpa [WorkPool.begin,WorkerPc.payload?,← Multiset.coe_add,pooled.active] using moved.symm
  | takeBroken pc was now broken same =>
    exact ⟨[],pool,rfl,pooled.of_same [] rfl (by simp) now
      (held_same atIndex _ rfl (by simp [pc,WorkerPc.payload?])) (broken.trans was.symm) same rfl⟩
  | sleep pc was now broken same =>
    exact ⟨[],pool,rfl,pooled.of_same [] (List.append_nil _).symm (by simp) (now.trans was.symm) rfl
      broken same rfl⟩
  | wake pc =>
    exact ⟨[],pool,rfl,pooled.of_same [] (List.append_nil _).symm (by simp) rfl rfl rfl rfl rfl⟩
  | copy pc | call pc | ret pc =>
    exact ⟨[],pool,rfl,pooled.of_same _ rfl
      (by simp [Event.appended?,Event.dequeued?,Event.completed?]) rfl
      (held_same atIndex _ rfl (by simp [pc,WorkerPc.payload?])) rfl rfl rfl⟩
  | @complete p f status pc =>
    have moved := held_set
      (sc.setWorker w t .looping [.completed w p status (completionMessage status)])
      atIndex .looping rfl
    rw [pc] at moved
    simp only [WorkerPc.payload?,Option.toList_some,Option.toList_none,Multiset.coe_nil,add_zero,
      Multiset.coe_singleton] at moved
    have mine : p ∈ pool.active := by
      rw [← Multiset.mem_coe,pooled.active,← moved]
      exact Multiset.mem_add.mpr (.inr (Multiset.mem_singleton_self p))
    obtain ⟨i,bound,here⟩ := List.getElem_of_mem mine
    refine ⟨[.finish i],_,Transition.Machine.exec_singleton (WorkPool.step_finish bound),?_⟩
    have erased := Multiset.coe_eq_coe.mpr (List.getElem_cons_eraseIdx_perm bound)
    refine ⟨?_,?_,?_,pooled.waiting,?_,pooled.closed,pooled.room,pooled.hands⟩
    · simp [WorkPool.finish,setWorker,pooled.accepted,Event.appended?]
    · simp [WorkPool.finish,setWorker,pooled.begun,Event.dequeued?]
    · simp [WorkPool.finish,setWorker,pooled.finished,Event.completed?,here]
    · rw [pooled.active,here,← moved,← Multiset.cons_coe,← Multiset.singleton_add,
        add_comm _ ({p} : Multiset π)] at erased
      exact add_left_cancel erased

theorem producer_pooled {sc sc' : Scheduler π φ} {c : Nat} {a : ProducerAction π}
    (taken : ProducerStep sc c a sc') (pooled : Pooled sc pool) :
    ∃ answers pool', (WorkPool.machine π capacity runners).exec pool answers = some pool' ∧
      Pooled sc' pool' := by
  cases taken with
  | enter => exact ⟨[],pool,rfl,pooled.of_same [] rfl (by simp) rfl rfl rfl rfl rfl⟩
  | refuse | leave =>
    exact ⟨[],pool,rfl,pooled.of_same _ rfl
      (by simp [Event.appended?,Event.dequeued?,Event.completed?]) rfl rfl rfl rfl rfl⟩
  | @append p wake queue pc whole space now whole' same =>
    have opened : pool.closed = false := by rw [pooled.closed,whole]
    have free : pool.waiting.length < capacity := by rw [pooled.waiting,← pooled.room]; exact space
    refine ⟨[.submit p],_,Transition.Machine.exec_singleton (WorkPool.step_submit p opened free),?_⟩
    refine ⟨?_,?_,?_,?_,pooled.active,whole'.symm ▸ opened,same.trans pooled.room,pooled.hands⟩
    · simp [WorkPool.submit,setProducer,pooled.accepted,Event.appended?]
    · simp [WorkPool.submit,setProducer,pooled.begun,Event.dequeued?]
    · simp [WorkPool.submit,setProducer,pooled.finished,Event.completed?]
    · simp [WorkPool.submit,setProducer,pooled.waiting,now]
  | drop pc was now broken same =>
    exact ⟨[],pool,rfl,pooled.of_same [] rfl (by simp) now rfl (broken.trans was.symm) same rfl⟩
  | sleep pc was full now whole same =>
    exact ⟨[],pool,rfl,pooled.of_same [] (List.append_nil _).symm (by simp) now rfl
      (whole.trans was.symm) same rfl⟩
  | wake pc =>
    exact ⟨[],pool,rfl,pooled.of_same [] (List.append_nil _).symm (by simp) rfl rfl rfl rfl rfl⟩

theorem control_pooled {sc sc' : Scheduler π φ} {a : ControlAction}
    (taken : ControlStep sc a sc') (pooled : Pooled sc pool) :
    ∃ answers pool', (WorkPool.machine π capacity runners).exec pool answers = some pool' ∧
      Pooled sc' pool' := by
  cases taken with
  | breakAll pc =>
    refine ⟨[.close],pool.close,rfl,?_⟩
    exact ⟨pooled.accepted,pooled.begun,pooled.finished,pooled.waiting,pooled.active,rfl,pooled.room,
      pooled.hands⟩
  | @spawn idx =>
    refine ⟨[],pool,rfl,pooled.of_same [] (List.append_nil _).symm (by simp) rfl ?_ rfl rfl rfl⟩
    simp [held,WorkerPc.payload?]
  | _ => exact ⟨[],pool,rfl,pooled.of_same [] (List.append_nil _).symm (by simp) rfl rfl rfl rfl rfl⟩

theorem create_pooled (maxQueueSize totalRunners : Int) (func : φ) :
    Pooled (create maxQueueSize totalRunners func : Scheduler π φ)
      (WorkPool.empty : WorkPool π (toSizeT maxQueueSize) totalRunners.toNat) :=
  ⟨rfl,rfl,rfl,rfl,rfl,rfl,rfl,rfl⟩

/-- A scheduler is answered step by step by a pool with its capacity and number of workers. -/
theorem pool_simulates (maxQueueSize totalRunners : Int) (func : φ) :
    (machine maxQueueSize totalRunners func : Transition.Machine (Scheduler π φ) _).Simulates
      (WorkPool.machine π (toSizeT maxQueueSize) totalRunners.toNat) Pooled := by
  refine ⟨create_pooled _ _ _,?_⟩
  intro sc a sc' pool reach _ pooled taken
  have taken : sc.step a = some sc' := taken
  cases a with
  | worker w a =>
    obtain ⟨t,atIndex,cases⟩ := workerStep_cases taken
    exact worker_pooled atIndex cases (reachable_manned reach) pooled
  | producer c a => exact producer_pooled (producerStep_cases taken) pooled
  | control a => exact control_pooled (controlStep_cases taken) pooled
  | update func =>
    cases taken
    exact ⟨[],pool,rfl,pooled.of_same _ rfl
      (by simp [Event.appended?,Event.dequeued?,Event.completed?]) rfl rfl rfl rfl rfl⟩

/-- Whatever a scheduler does, over any rounds of `Start` and `Stop`, is a behaviour of the pool:
each run is answered by a run of the pool, which accepts, begins and finishes the same payloads
in the same order. -/
theorem refines_pool (maxQueueSize totalRunners : Int) (func : φ)
    (actions : List (SchedulerAction π φ)) :
    ∀ sc, (machine maxQueueSize totalRunners func).exec (create maxQueueSize totalRunners func)
        actions = some sc →
      ∃ answers, ∃ pool : WorkPool π (toSizeT maxQueueSize) totalRunners.toNat,
        (WorkPool.machine π _ _).exec .empty answers = some pool ∧ Pooled sc pool := by
  intro sc run
  exact (pool_simulates maxQueueSize totalRunners func).exec .start .start (create_pooled _ _ _)
    actions run

def oneServed : List (SchedulerAction Nat Bool) :=
  [.control .start,.control .spawn,.control .spawn,.producer 0 (.enqueue 10),
    .producer 0 (.push none),.producer 1 (.enqueue 11),.producer 1 (.push none),
    .worker 0 .test,.worker 0 (.pop none),.worker 0 .copy,.worker 0 .call,
    .worker 0 (.ret .success),.worker 0 .complete,.worker 0 .test,.worker 0 (.pop none)]

theorem refines_pool_one : ∃ (answers : List (PoolAction Nat))
    (pool : WorkPool Nat (toSizeT 4) (1 : Int).toNat),
    (WorkPool.machine Nat _ _).exec .empty answers = some pool ∧
      pool.finished = [10] ∧ pool.begun = [10,11] := by
  have ran : ((machine 4 1 false).exec (create 4 1 false) oneServed).map (fun sc =>
      (sc.log.filterMap Event.completed?,sc.log.filterMap Event.dequeued?)) =
        some ([10],[10,11]) := rfl
  obtain ⟨sc,run,seen⟩ := Option.map_eq_some_iff.mp ran
  obtain ⟨finished,begun⟩ := Prod.mk.injEq .. ▸ seen
  obtain ⟨answers,pool,run',pooled⟩ := refines_pool 4 1 false oneServed sc run
  exact ⟨answers,pool,run',pooled.finished.trans finished,pooled.begun.trans begun⟩

def inHand (sc : Scheduler π φ) : List π := sc.threads.filterMap (·.pc.payload?)

/-- First come, first served: payloads leave the queue in the order they entered it, what left it
is completed or with a worker, and a single worker completes in order too. -/
structure InOrder (maxQueueSize totalRunners : Int) (sc : Scheduler π φ) : Prop where
  queue : sc.log.filterMap Event.appended? =
    sc.log.filterMap Event.dequeued? ++ sc.queue.buffer
  workers : (sc.log.filterMap Event.dequeued?).Perm
    (sc.log.filterMap Event.completed? ++ sc.inHand)
  room : sc.queue.buffer.length ≤ toSizeT maxQueueSize
  hands : sc.inHand.length ≤ totalRunners.toNat
  single : totalRunners ≤ 1 →
    sc.log.filterMap Event.dequeued? = sc.log.filterMap Event.completed? ++ sc.inHand

theorem served_in_order {maxQueueSize totalRunners : Int} {func : φ} {sc : Scheduler π φ}
    (reach : (machine maxQueueSize totalRunners func).Reachable sc) :
    InOrder maxQueueSize totalRunners sc := by
  obtain ⟨pool,reach',pooled⟩ := (pool_simulates maxQueueSize totalRunners func).reachable reach
  have held : pool.active.Perm sc.inHand := Multiset.coe_eq_coe.mp pooled.active
  have hands := pool.hands
  refine ⟨?_,?_,?_,?_,fun few => ?_⟩
  · rw [← pooled.accepted,← pooled.begun,← pooled.waiting,pool.inOrder]
  · rw [← pooled.begun,← pooled.finished]
    exact pool.balanced.trans (held.append_left _)
  · rw [← pooled.waiting]
    exact pool.room
  · rw [← held.length_eq]
    exact hands
  · have single : totalRunners.toNat ≤ 1 := by omega
    rw [← pooled.begun,← pooled.finished,WorkPool.finished_in_order single reach']
    congr 1
    -- A list of at most one payload has one order only.
    match order : pool.active with
    | [] => exact (List.nil_perm.mp (order ▸ held)).symm
    | [p] => exact List.singleton_perm.mp (order ▸ held)
    | _ :: _ :: _ =>
      rw [order,List.length_cons,List.length_cons] at hands
      omega

theorem served_in_order_one : ∃ sc : Scheduler Nat Bool,
    InOrder 4 1 sc ∧ sc.inHand = [11] ∧ sc.log.filterMap Event.dequeued? = [10] ++ sc.inHand := by
  obtain ⟨sc,reach,seen⟩ := Transition.Machine.exec_observed (m := machine 4 1 false) oneServed
    (fun sc : Scheduler Nat Bool => (sc.inHand,sc.log.filterMap Event.completed?)) ([11],[10]) rfl
  obtain ⟨busy,served⟩ := Prod.mk.injEq .. ▸ seen
  have ordered := served_in_order reach
  exact ⟨sc,ordered,busy,served ▸ ordered.single (by decide)⟩

/-- After the queue is broken nothing enters or leaves it any more, a later `Start` included. -/
structure Ended (sc sc' : Scheduler π φ) : Prop where
  broken : sc'.queue.broken = true
  buffer : sc'.queue.buffer = sc.queue.buffer
  appended : sc'.log.filterMap Event.appended? = sc.log.filterMap Event.appended?
  dequeued : sc'.log.filterMap Event.dequeued? = sc.log.filterMap Event.dequeued?

/-- A stopped scheduler never serves again: whatever is called on it afterwards, `Start` included,
nothing is accepted and nothing begun, and what its queue holds stays there. -/
theorem stopped_for_good {maxQueueSize totalRunners : Int} {func : φ} {sc sc' : Scheduler π φ}
    (reach : (machine maxQueueSize totalRunners func).Reachable sc)
    (broken : sc.queue.broken = true) (actions : List (SchedulerAction π φ))
    (run : (machine maxQueueSize totalRunners func).exec sc actions = some sc') :
    Ended sc sc' := by
  have simulates := pool_simulates (π := π) maxQueueSize totalRunners func
  obtain ⟨pool,reach',pooled⟩ := simulates.reachable reach
  obtain ⟨answers,pool',run',pooled'⟩ := simulates.exec reach reach' pooled actions run
  have shut := WorkPool.closed_final (pooled.closed.trans broken) answers run'
  refine ⟨?_,?_,?_,?_⟩
  · rw [← pooled'.closed,shut.closed]
  · rw [← pooled'.waiting,← pooled.waiting,shut.waiting]
  · rw [← pooled'.accepted,← pooled.accepted,shut.accepted]
  · rw [← pooled'.begun,← pooled.begun,shut.begun]

def restarted : List (SchedulerAction Nat Bool) :=
  [.worker 0 .test,.control .join,.control .join,.control .start,.control .spawn,.control .spawn,
    .producer 1 (.enqueue 8),.producer 1 (.push none),.producer 1 .leave,.worker 1 .test,
    .worker 1 (.pop none)]

theorem stopped_for_good_restarted : ∃ sc sc' : Scheduler Nat Bool,
    sc'.running = true ∧ sc'.producers 1 = .returned 8 .success ∧ Ended sc sc' ∧
    sc'.queue.buffer = [7] := by
  obtain ⟨sc,atStop,seen⟩ := Option.map_eq_some_iff.mp
    (show ((machine 4 1 false).exec (create 4 1 false) queuedThenStopped).map
      (fun sc : Scheduler Nat Bool => (sc.queue.broken,sc.queue.buffer)) = some (true,[7]) from rfl)
  obtain ⟨sc',atEnd,seen'⟩ := Option.map_eq_some_iff.mp
    (show ((machine 4 1 false).exec (create 4 1 false) (queuedThenStopped ++ restarted)).map
      (fun sc : Scheduler Nat Bool => (sc.running,sc.producers 1)) =
        some (true,.returned 8 .success) from rfl)
  rw [Transition.Machine.exec_append,atStop] at atEnd
  obtain ⟨broken,left⟩ := Prod.mk.injEq .. ▸ seen
  obtain ⟨running,answered⟩ := Prod.mk.injEq .. ▸ seen'
  have ended := stopped_for_good
    (Transition.Machine.exec_reachable .start queuedThenStopped atStop) broken restarted atEnd
  exact ⟨sc,sc',running,answered,ended,ended.buffer.trans left⟩

end Scheduler
end InferenceServer
