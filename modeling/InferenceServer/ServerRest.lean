import Mathlib.Data.Prod.Lex
import InferenceServer.Deadlock
import InferenceServer.Frontend
import InferenceServer.SchedulerDrain

/-! The server left alone: what is under way comes to an end, whichever thread goes first. -/
namespace InferenceServer

namespace Scheduler

variable {π φ : Type}

/-- The lines of `Enqueue` that the caller `c` has left, and what its item costs the workers. -/
def enqueueLeft (sc : Scheduler π φ) (c : Nat) : Nat :=
  match sc.producers c with
  | .idle => 26
  | .pushing _ => if c ∈ sc.queue.popEvent.asleep then 22 else 23
  | .pushed _ | .dropped _ => 3
  | .returned _ _ => 2

theorem enqueueLeft_le (sc : Scheduler π φ) (c : Nat) : sc.enqueueLeft c ≤ 26 := by
  unfold enqueueLeft
  split
  · omega
  · split <;> omega
  · omega
  · omega
  · omega

theorem enqueueLeft_congr {sc sc' : Scheduler π φ} {c : Nat}
    (producers : sc'.producers c = sc.producers c)
    (asleep : c ∈ sc'.queue.popEvent.asleep ↔ c ∈ sc.queue.popEvent.asleep) :
    sc'.enqueueLeft c = sc.enqueueLeft c := by
  unfold enqueueLeft
  rw [producers]
  simp only [asleep]

/-- A worker wakes at most one caller. -/
theorem worker_enqueueLeft {sc sc' : Scheduler π φ} {w : Nat} {a : WorkerAction}
    (taken : sc.workerStep w a = some sc') :
    ∃ d, sc'.enqueueLeft d ≤ sc.enqueueLeft d + 1 ∧
      ∀ c, c ≠ d → sc'.enqueueLeft c = sc.enqueueLeft c := by
  have producers : sc'.producers = sc.producers :=
    step_producers (a := .worker w a) taken (by simp)
  have untold (same : sc'.queue.popEvent.asleep = sc.queue.popEvent.asleep) :
      ∃ d, sc'.enqueueLeft d ≤ sc.enqueueLeft d + 1 ∧
        ∀ c, c ≠ d → sc'.enqueueLeft c = sc.enqueueLeft c := by
    have kept (c : Nat) : sc'.enqueueLeft c = sc.enqueueLeft c :=
      enqueueLeft_congr (congrFun producers c) (by rw [same])
    exact ⟨0,by have := kept 0; omega,fun c _ => kept c⟩
  by_cases pops : ∃ wake, a = .pop wake
  · obtain ⟨wake,rfl⟩ := pops
    obtain ⟨_,_,_,_,popped,_⟩ := pop_taken taken
    rcases BlockingQueue.pop_asleep popped with ⟨_,_,⟨nobody,now⟩ | ⟨d,_,woken⟩⟩ | ⟨_,same⟩
    · exact untold (now.trans nobody.symm)
    · refine ⟨d,?_,fun c other => enqueueLeft_congr (congrFun producers c) ?_⟩
      · unfold enqueueLeft
        rw [producers]
        split <;> (try split) <;> omega
      · rw [woken]
        exact List.mem_erase_of_ne other
    · exact untold same
  · obtain ⟨t,_,cases⟩ := workerStep_cases taken
    cases cases with
    | take | takeBroken | sleep => exact absurd ⟨_,rfl⟩ pops
    | test | wake | copy | call | ret | complete => exact untold rfl

inductive Pushed (sc sc' : Scheduler π φ) (c : Nat) (p : π) : Prop where
  | appended (now : sc'.producers c = .pushed p)
      (longer : sc'.queue.buffer = sc.queue.buffer ++ [p])
      (asleep : sc'.queue.popEvent.asleep = sc.queue.popEvent.asleep)
      (woken : sc'.queue.pushEvent.asleep = sc.queue.pushEvent.asleep ∨
        ∃ w ∈ sc.queue.pushEvent.asleep,
          sc'.queue.pushEvent.asleep = sc.queue.pushEvent.asleep.erase w)
  | dropped (now : sc'.producers c = .dropped p) (kept : sc'.queue.buffer = sc.queue.buffer)
      (asleep : sc'.queue.popEvent.asleep = sc.queue.popEvent.asleep)
      (unwoken : sc'.queue.pushEvent.asleep = sc.queue.pushEvent.asleep)
  | slept (now : sc'.producers c = .pushing p) (kept : sc'.queue.buffer = sc.queue.buffer)
      (asleep : sc'.queue.popEvent.asleep = c :: sc.queue.popEvent.asleep)
      (unwoken : sc'.queue.pushEvent.asleep = sc.queue.pushEvent.asleep)

theorem push_pushed {sc sc' : Scheduler π φ} {c : Nat} {wake : Option Nat}
    (taken : sc.producerStep c (.push wake) = some sc') :
    ∃ p, sc.producers c = .pushing p ∧ c ∉ sc.queue.popEvent.asleep ∧ Pushed sc sc' c p := by
  unfold producerStep at taken
  cases pc : sc.producers c with
  | pushing p =>
    rw [pc] at taken
    obtain ⟨⟨result,queue⟩,pushed,rfl⟩ := Option.map_eq_some_iff.mp taken
    obtain ⟨awake,ends⟩ := BlockingQueue.push_step pushed
    refine ⟨p,rfl,awake,?_⟩
    cases ends with
    | drop => exact .dropped (Function.update_self ..) rfl rfl rfl
    | append _ _ notified =>
      refine .appended (Function.update_self ..) rfl rfl ?_
      exact (CondVar.notifyOne_asleep notified).imp_left fun ⟨nobody,still⟩ =>
        still.trans nobody.symm
    | sleep => exact .slept pc rfl rfl rfl
  | _ =>
    rw [pc] at taken
    contradiction

theorem effort_congr {sc sc' : Scheduler π φ} {w : Nat} (threads : sc'.threads = sc.threads)
    (broken : sc'.queue.broken = sc.queue.broken)
    (asleep : w ∈ sc'.queue.pushEvent.asleep ↔ w ∈ sc.queue.pushEvent.asleep) :
    sc'.effort w = sc.effort w := by
  unfold effort
  rw [threads,broken]
  simp only [asleep]

/-- An item more costs its worker six steps, and a seventh if it slept. -/
theorem work_le {sc sc' : Scheduler π φ} (roused : sc.Roused) (threads : sc'.threads = sc.threads)
    (broken : sc'.queue.broken = sc.queue.broken)
    (woken : sc'.queue.pushEvent.asleep = sc.queue.pushEvent.asleep ∨
      ∃ w ∈ sc.queue.pushEvent.asleep,
        sc'.queue.pushEvent.asleep = sc.queue.pushEvent.asleep.erase w) :
    sc'.work + 6 * sc.queue.buffer.length ≤ sc.work + 6 * sc'.queue.buffer.length + 1 := by
  have efforts : ∑ w ∈ Finset.range sc.threads.length, sc'.effort w ≤
      ∑ w ∈ Finset.range sc.threads.length, sc.effort w + 1 := by
    rcases woken with same | ⟨w,sleeps,same⟩
    · have each (v : Nat) : sc'.effort v = sc.effort v :=
        effort_congr threads broken (by rw [same])
      simp only [each]
      omega
    · refine Transition.Machine.sum_moved_le (i := w) ?_ fun v other =>
        (effort_congr threads broken (by rw [same]; exact List.mem_erase_of_ne other)).le
      obtain ⟨t,atIndex,popping⟩ := roused.popping w (List.mem_append_left _ sleeps)
      rw [effort,effort,threads,atIndex,broken]
      simp only [popping,WorkerPc.effort]
      split <;> (try split) <;> omega
  unfold work
  rw [threads]
  omega

theorem push_works {sc sc' : Scheduler π φ} {c : Nat} {wake : Option Nat} (roused : sc.Roused)
    (taken : sc.producerStep c (.push wake) = some sc') :
    2 * sc'.work + sc'.enqueueLeft c < 2 * sc.work + sc.enqueueLeft c ∧
      sc'.enqueueLeft c < sc.enqueueLeft c ∧
      ∀ d, d ≠ c → sc'.enqueueLeft d = sc.enqueueLeft d := by
  obtain ⟨p,pc,awake,pushed⟩ := push_pushed taken
  have cases := producerStep_cases taken
  have threads := producer_threads cases
  have face := producer_face cases
  simp only [Scheduler.face,Face.mk.injEq] at face
  obtain ⟨_,_,_,_,broken⟩ := face
  have producers (d : Nat) (other : d ≠ c) : sc'.producers d = sc.producers d := by
    obtain ⟨_,_,_,_,_,others⟩ := push_taken taken
    exact others d other
  have before : sc.enqueueLeft c = 23 := by simp [enqueueLeft,pc,awake]
  cases pushed with
  | appended now longer asleep woken =>
    have after : sc'.enqueueLeft c = 3 := by simp [enqueueLeft,now]
    have more := work_le roused threads broken woken
    rw [longer,List.length_append,List.length_singleton] at more
    exact ⟨by omega,by omega,fun d other =>
      enqueueLeft_congr (producers d other) (by rw [asleep])⟩
  | dropped now kept asleep unwoken =>
    have after : sc'.enqueueLeft c = 3 := by simp [enqueueLeft,now]
    have more := work_le roused threads broken (.inl unwoken)
    rw [kept] at more
    exact ⟨by omega,by omega,fun d other =>
      enqueueLeft_congr (producers d other) (by rw [asleep])⟩
  | slept now kept asleep unwoken =>
    have after : sc'.enqueueLeft c = 22 := by simp [enqueueLeft,now,asleep]
    have same : sc'.work = sc.work := by
      have each (w : Nat) : sc'.effort w = sc.effort w :=
        effort_congr threads broken (by rw [unwoken])
      simp only [work,kept,threads,each]
    exact ⟨by omega,by omega,fun d other =>
      enqueueLeft_congr (producers d other) (by simp [asleep,other])⟩

/-- What a caller of `Enqueue` adds to the work costs it more. -/
theorem producer_works {sc sc' : Scheduler π φ} {c : Nat} {a : ProducerAction π}
    (roused : sc.Roused) (genuine : a ≠ .wake) (taken : sc.producerStep c a = some sc') :
    2 * sc'.work + sc'.enqueueLeft c < 2 * sc.work + sc.enqueueLeft c ∧
      sc'.enqueueLeft c < sc.enqueueLeft c ∧
      ∀ d, d ≠ c → sc'.enqueueLeft d = sc.enqueueLeft d := by
  by_cases pushes : ∃ wake, a = .push wake
  · obtain ⟨wake,rfl⟩ := pushes
    exact push_works roused taken
  have moves (pc : ProducerPc π) (events : List (Event π φ))
      (less : (sc.setProducer c pc events).enqueueLeft c < sc.enqueueLeft c) :
      2 * (sc.setProducer c pc events).work + (sc.setProducer c pc events).enqueueLeft c <
          2 * sc.work + sc.enqueueLeft c ∧
        (sc.setProducer c pc events).enqueueLeft c < sc.enqueueLeft c ∧
        ∀ d, d ≠ c → (sc.setProducer c pc events).enqueueLeft d = sc.enqueueLeft d := by
    have same : (sc.setProducer c pc events).work = sc.work := rfl
    exact ⟨by omega,less,fun d other =>
      enqueueLeft_congr (Function.update_of_ne other _ _) Iff.rfl⟩
  cases producerStep_cases taken with
  | append | drop | sleep => exact absurd ⟨_,rfl⟩ pushes
  | wake => contradiction
  | enter idle =>
    apply moves
    simp only [enqueueLeft,idle,setProducer,Function.update_self]
    by_cases sleeps : c ∈ sc.queue.popEvent.asleep <;> simp [sleeps]
  | refuse idle =>
    apply moves
    simp [enqueueLeft,idle,setProducer]
  | leave gone =>
    apply moves
    rcases gone with gone | gone <;> simp [enqueueLeft,gone,setProducer]

end Scheduler

def ControlPc.stopLeft (workers : Nat) : ControlPc → Nat
  | .draining => workers + 5
  | .clearing => workers + 4
  | .breaking => workers + 3
  | .joining j => workers - j + 2
  | .stopReturned _ => 1
  | _ => 0

def Teardown.left (t : Teardown) (schedulers : Nat → Scheduler Payload Nat) : Nat :=
  let sc := schedulers t.context.scheduler
  match t.stage with
  | .backendInfo => sc.threads.length + 9
  | .scheduler => sc.threads.length + 8
  | .stopping => sc.control.stopLeft sc.threads.length

def ControlPc.startLeft (totalRunners : Int) : ControlPc → Nat
  | .starting idx => (totalRunners - idx).toNat + 1
  | _ => 0

theorem Scheduler.winding_falls {π φ : Type} {sc sc' : Scheduler π φ} {b : ControlAction}
    (winds : Server.Winding b)
    (taken : sc.controlStep b = some sc') :
    (sc' = sc ∧ (∃ elapsed, b = .drain elapsed) ∧ sc.queue.buffer ≠ []) ∨
      sc'.control.stopLeft sc'.threads.length < sc.control.stopLeft sc.threads.length := by
  cases controlStep_cases taken with
  | startAgain | start | spawn | started | stop | stopIdle => exact winds.elim
  | drainWait _ item => exact .inl ⟨rfl,⟨_,rfl⟩,item⟩
  | drained pc | clearRunning pc | breakAll pc =>
    right
    simp [pc,ControlPc.stopLeft]
  | join pc atIndex =>
    right
    have bound := (List.getElem?_eq_some_iff.mp atIndex).1
    simp only [pc,ControlPc.stopLeft]
    omega
  | joined pc =>
    right
    simp [pc,ControlPc.stopLeft]

def StatusPc.left : StatusPc → Nat
  | .collecting => 2
  | .counting _ => 1
  | .outside | .returned _ => 0

def HealthPc.left : HealthPc → Nat
  | .counting => 1
  | .outside | .returned _ => 0

def ServerAction.thread? : ServerAction → Option Nat
  | .caller c _ | .status c _ | .health c _ => some c
  | _ => none

/-- The place of the call of `Start` or `Stop`, that of the refresh thread, that of the call of
`LoadModels`, and what is left for callers and workers. What stands on the left weighs more: a
refresh has any number of entries, and a model any number of workers. -/
abbrev ServerRank := (Nat ×ₗ Nat ×ₗ Nat) ×ₗ Nat ×ₗ (Nat ×ₗ Nat ×ₗ Nat ×ₗ Nat) ×ₗ Nat

namespace Server

variable {config : ServerConfig} {sv sv' : Server}

def mainRank (sv : Server) : Nat ×ₗ Nat ×ₗ Nat :=
  match sv.main with
  | .outside | .returned _ => toLex (0,toLex (0,0))
  | .loading => toLex (1,toLex (0,0))
  | .notifying => toLex (4,toLex (0,0))
  | .joining => toLex (3,toLex (0,0))
  | .locking => toLex (2,toLex (0,0))
  | .clearing => toLex (1,toLex (2 * sv.modelMap.keys.length,0))
  | .tearing t => toLex (1,toLex (2 * sv.modelMap.keys.length + 1,t.left sv.schedulers))

/-- After `running_` is cleared the thread leaves, and does not begin another refresh. -/
def updaterRank (sv : Server) : Nat :=
  match sv.updater with
  | .absent | .exited | .asleep false => 0
  | .testing => 4
  | .entering | .asleep true => 5
  | .cycling => 6
  | .deciding => if sv.running then 7 else 3

def cycleRank (sv : Server) : Nat ×ₗ Nat ×ₗ Nat ×ₗ Nat :=
  match sv.cycle with
  | .idle | .finished => toLex (0,toLex (0,toLex (0,0)))
  | .listing => toLex (6,toLex (0,toLex (0,0)))
  | .marking _ => toLex (5,toLex (0,toLex (0,0)))
  | .scanning rest _ => toLex (4,toLex (2 * rest.length,toLex (0,0)))
  | .checking _ rest _ => toLex (4,toLex (2 * rest.length + 1,toLex (0,0)))
  | .adding lists => toLex (3,toLex (lists.added.length,toLex (0,0)))
  | .constructing _ _ lists => toLex (3,toLex (lists.added.length,toLex (4,0)))
  | .starting _ _ lists => toLex (3,toLex (lists.added.length,toLex (3,0)))
  | .spawning context _ lists =>
    let sc := sv.schedulers context.scheduler
    toLex (3,toLex (lists.added.length,toLex (2,sc.control.startLeft sc.totalRunners)))
  | .rejecting t lists => toLex (3,toLex (lists.added.length,toLex (1,t.left sv.schedulers)))
  | .updating lists => toLex (2,toLex (lists.updated.length,toLex (0,0)))
  | .locking _ _ lists => toLex (2,toLex (lists.updated.length,toLex (4,0)))
  | .installing _ _ lists => toLex (2,toLex (lists.updated.length,toLex (3,0)))
  | .swapping _ _ lists => toLex (2,toLex (lists.updated.length,toLex (2,0)))
  | .resetting _ lists => toLex (2,toLex (lists.updated.length,toLex (1,0)))
  | .deleting lists => toLex (1,toLex (lists.deleted.length,toLex (0,0)))
  | .tearing t lists => toLex (1,toLex (lists.deleted.length,toLex (1,t.left sv.schedulers)))

def inferLeft (sv : Server) (c : Nat) : Nat :=
  match sv.callers c with
  | .entering _ => 28
  | .enqueuing _ k => (sv.schedulers k).enqueueLeft c
  | .outside | .returned _ _ => 0

def callLeft (sv : Server) (c : Nat) : Nat :=
  sv.inferLeft c + (sv.statuses c).left + (sv.healths c).left

def errands (n : Nat) (sv : Server) : Nat :=
  ∑ c ∈ Finset.range n, sv.callLeft c +
    2 * ∑ k ∈ Finset.range sv.nextScheduler, (sv.schedulers k).work

def rank (n : Nat) (sv : Server) : ServerRank :=
  toLex (sv.mainRank,toLex (sv.updaterRank,toLex (sv.cycleRank,sv.errands n)))

theorem teardown_falls {t t' : Teardown} {a : TeardownAction}
    (taken : TeardownStep sv t a sv' (some t')) :
    (sv' = sv ∧ t' = t ∧ Polls sv t a) ∨ t'.left sv'.schedulers < t.left sv.schedulers := by
  cases taken with
  | release stage =>
    right
    have same : (sv.release t.context.backendInfo (.teardown t.context.scheduler)).schedulers =
      sv.schedulers := rfl
    simp [Teardown.left,stage,same]
  | stop stage stepped =>
    right
    cases Scheduler.controlStep_cases stepped <;>
      simp [Teardown.left,stage,setScheduler,ControlPc.stopLeft]
  | @wind _ b _ stage winds stepped =>
    rcases Scheduler.winding_falls (winding?_some winds).1 stepped with
      ⟨rfl,⟨elapsed,rfl⟩,item⟩ | less
    · left
      refine ⟨?_,rfl,?_,item⟩
      · simp [setScheduler]
      · cases a <;> cases winds
        exact ⟨elapsed,rfl⟩
    · right
      simpa [Teardown.left,stage,setScheduler] using less

theorem cycle_falls {a : CycleAction} (taken : CycleStep sv a sv') :
    (sv' = sv ∧ Polling sv (.cycle a)) ∨ sv'.cycleRank < sv.cycleRank := by
  cases taken with
  | list pc | mark pc | skip pc | check pc | scanned pc | notAdded pc | added pc | construct pc
  | start pc | insert pc | reject pc | rejected pc | allAdded pc | notUpdated pc | updated pc
  | missing pc | lock pc | install pc | swap pc | reset pc | allUpdated pc | gone pc | erase pc
  | torn pc | allDeleted pc =>
    right
    simp [cycleRank,pc,Prod.Lex.toLex_lt_toLex]
  | found pc =>
    right
    simp [cycleRank,pc,Prod.Lex.toLex_lt_toLex]
    omega
  | @spawn context _ _ _ pc stepped =>
    right
    cases Scheduler.controlStep_cases stepped with
    | spawn at' more =>
      simp [cycleRank,pc,setScheduler,at',ControlPc.startLeft,Prod.Lex.toLex_lt_toLex]
      omega
    | started at' =>
      simp [cycleRank,pc,setScheduler,at',ControlPc.startLeft,Prod.Lex.toLex_lt_toLex]
  | rejecting pc torn | tearing pc torn =>
    rcases teardown_falls torn with ⟨rfl,rfl,polls⟩ | less
    · left
      rw [← pc]
      exact ⟨rfl,_,_,by simp only [tearing?,pc],polls⟩
    · right
      simpa [cycleRank,pc,Prod.Lex.toLex_lt_toLex] using less

theorem erase_shorter {map : ModelMap} {name : String} {context : ModelRunContext}
    (present : map.lookup name = some context) :
    (map.keys.erase name).length < map.keys.length := by
  have member : name ∈ map.keys := AList.lookup_isSome.mp (by simp [present])
  rw [List.length_erase_of_mem member]
  have some := List.length_pos_of_mem member
  omega

theorem main_falls {a : MainAction} (genuine : (ServerAction.main a).genuine = true)
    (taken : MainStep sv a sv') :
    (sv' = sv ∧ Polling sv (.main a)) ∨ sv'.mainRank < sv.mainRank := by
  cases taken with
  | startAgain | start | stop => contradiction
  | loaded here | notify here | join here | lock here | unlock here =>
    right
    simp [mainRank,here,Prod.Lex.toLex_lt_toLex]
  | clear here present =>
    right
    have fewer := erase_shorter present
    simp [mainRank,here,Prod.Lex.toLex_lt_toLex]
    omega
  | torn here torn =>
    right
    obtain ⟨_,_,_,rfl⟩ := teardown_frame torn
    simp [mainRank,here,Prod.Lex.toLex_lt_toLex]
  | tearing here torn =>
    rcases teardown_falls torn with ⟨rfl,rfl,polls⟩ | less
    · left
      rw [← here]
      exact ⟨rfl,_,_,by simp only [tearing?,here],polls⟩
    · right
      obtain ⟨_,_,_,rfl⟩ := teardown_frame torn
      simpa [mainRank,here,Prod.Lex.toLex_lt_toLex] using less

theorem updater_falls {a : UpdaterAction} (genuine : (ServerAction.updater a).genuine = true)
    (taken : sv.updaterStep a = some sv') : sv'.updaterRank < sv.updaterRank := by
  cases updaterStep_cases taken with
  | timeout => contradiction
  | @wake _ notified here asked =>
    rcases asked with rfl | rfl
    · cases notified with
      | true => simp [updaterRank,here]
      | false => simp [updaterStep,here] at taken
    · contradiction
  | enter here | cycled here => simp [updaterRank,here]
  | sleep here running | pass here running | refresh here running | exit here running =>
    simp [updaterRank,here,running]

/-- Callers and workers change nothing that the other ranks are read from. -/
structure Apart (sv sv' : Server) : Prop where
  main : sv'.main = sv.main
  modelMap : sv'.modelMap = sv.modelMap
  updater : sv'.updater = sv.updater
  running : sv'.running = sv.running
  cycle : sv'.cycle = sv.cycle
  nextScheduler : sv'.nextScheduler = sv.nextScheduler
  faces : ∀ k, (sv'.schedulers k).face = (sv.schedulers k).face
  lengths : ∀ k, (sv'.schedulers k).threads.length = (sv.schedulers k).threads.length

theorem Apart.left (apart : Apart sv sv') (t : Teardown) :
    t.left sv'.schedulers = t.left sv.schedulers := by
  have face := apart.faces t.context.scheduler
  simp only [Scheduler.face,Face.mk.injEq] at face
  unfold Teardown.left
  simp only [apart.lengths,face.2.2.2.1]

theorem Apart.mainRank (apart : Apart sv sv') : sv'.mainRank = sv.mainRank := by
  unfold Server.mainRank
  simp only [apart.main,apart.modelMap,apart.left]

theorem Apart.updaterRank (apart : Apart sv sv') : sv'.updaterRank = sv.updaterRank := by
  unfold Server.updaterRank
  simp only [apart.updater,apart.running]

theorem Apart.cycleRank (apart : Apart sv sv') : sv'.cycleRank = sv.cycleRank := by
  have faces (k : Nat) : (sv'.schedulers k).control = (sv.schedulers k).control ∧
      (sv'.schedulers k).totalRunners = (sv.schedulers k).totalRunners := by
    have face := apart.faces k
    simp only [Scheduler.face,Face.mk.injEq] at face
    exact ⟨face.2.2.2.1,face.2.1⟩
  unfold Server.cycleRank
  simp only [apart.cycle,apart.left,(faces _).1,(faces _).2]

theorem Apart.falls {n : Nat} (apart : Apart sv sv') (less : sv'.errands n < sv.errands n) :
    sv'.rank n < sv.rank n := by
  unfold rank
  simpa [Prod.Lex.toLex_lt_toLex,apart.mainRank,apart.updaterRank,apart.cycleRank] using less

theorem apart_setScheduler {k : Nat} {sc : Scheduler Payload Nat} {backends : Nat → BackendCell}
    (face : sc.face = (sv.schedulers k).face)
    (length : sc.threads.length = (sv.schedulers k).threads.length) :
    Apart sv { sv.setScheduler k sc with backends := backends } := by
  refine ⟨rfl,rfl,rfl,rfl,rfl,rfl,fun j => ?_,fun j => ?_⟩ <;> by_cases same : j = k
  · subst j
    simpa [setScheduler] using face
  · simp [setScheduler,same]
  · subst j
    simpa [setScheduler] using length
  · simp [setScheduler,same]

def Within (n : Nat) (sv : Server) : Prop :=
  ∀ c, n ≤ c → sv.callers c = .outside ∧ sv.statuses c = .outside ∧ sv.healths c = .outside

theorem reachable_leaving (reach : (machine config).Reachable sv) (k : Nat) :
    Scheduler.Leaving (sv.schedulers k) := by
  have phase := (reachable_staffed reach k).phase
  intro broken
  unfold Scheduler.Phase at phase
  split at phase <;> simp_all

theorem inferLeft_congr {c : Nat} (callers : sv'.callers c = sv.callers c)
    (left : ∀ k, (sv'.schedulers k).enqueueLeft c = (sv.schedulers k).enqueueLeft c) :
    sv'.inferLeft c = sv.inferLeft c := by
  unfold inferLeft
  rw [callers]
  simp only [left]

theorem callLeft_le {c m : Nat} (callers : sv'.callers c = sv.callers c)
    (statuses : sv'.statuses c = sv.statuses c) (healths : sv'.healths c = sv.healths c)
    (left : ∀ k, (sv'.schedulers k).enqueueLeft c ≤ (sv.schedulers k).enqueueLeft c + m) :
    sv'.callLeft c ≤ sv.callLeft c + m := by
  have infer : sv'.inferLeft c ≤ sv.inferLeft c + m := by
    unfold inferLeft
    rw [callers]
    split
    · omega
    · exact left _
    · omega
    · omega
  rw [callLeft,callLeft,statuses,healths]
  omega

theorem worker_falls {n k w : Nat} {a : WorkerAction} (reach : (machine config).Reachable sv)
    (genuine : a ≠ .wake) (taken : sv.workerStep k w a = some sv') : sv'.rank n < sv.rank n := by
  obtain ⟨sc,backends,stepped,rfl⟩ : ∃ sc backends,
      (sv.schedulers k).workerStep w a = some sc ∧
        sv' = { sv.setScheduler k sc with backends := backends } := by
    cases workerStep_effect taken with
    | quiet stepped => exact ⟨_,_,stepped,rfl⟩
    | call stepped => exact ⟨_,_,stepped,rfl⟩
    | ret stepped => exact ⟨_,_,stepped,rfl⟩
  have alone := Scheduler.worker_unattended stepped
  refine (apart_setScheduler alone.face alone.length).falls ?_
  have fewer := Scheduler.worker_works (reachable_roused reach k) (reachable_leaving reach k)
    genuine stepped
  have born : k < sv.nextScheduler := by
    by_contra unborn
    rw [reachable_unborn reach k (Nat.not_lt.mp unborn)] at stepped
    simp [Scheduler.workerStep,Scheduler.create] at stepped
  have works := Transition.Machine.sum_moved
    (f := fun j => (Function.update sv.schedulers k sc j).work)
    (g := fun j => (sv.schedulers j).work) (Finset.mem_range.mpr born)
    fun j other => by rw [Function.update_of_ne other]
  obtain ⟨d,more,others⟩ := Scheduler.worker_enqueueLeft stepped
  have calls : ∑ c ∈ Finset.range n,
      Server.callLeft { sv.setScheduler k sc with backends := backends } c ≤
        ∑ c ∈ Finset.range n, sv.callLeft c + 1 := by
    have left (c m : Nat) (here : sc.enqueueLeft c ≤ (sv.schedulers k).enqueueLeft c + m)
        (j : Nat) : (Function.update sv.schedulers k sc j).enqueueLeft c ≤
          (sv.schedulers j).enqueueLeft c + m := by
      by_cases same : j = k
      · subst j
        simpa using here
      · simp [same]
    exact Transition.Machine.sum_moved_le (callLeft_le rfl rfl rfl (left d 1 more))
      fun c other => callLeft_le (m := 0) rfl rfl rfl (left c 0 (others c other).le)
  simp only [Function.update_self] at works
  simp only [errands,setScheduler] at calls ⊢
  omega

theorem calls_fall {n c : Nat} (apart : Apart sv sv') (bound : c < n)
    (schedulers : sv'.schedulers = sv.schedulers) (less : sv'.callLeft c < sv.callLeft c)
    (others : ∀ d, d ≠ c → sv'.callLeft d = sv.callLeft d) : sv'.rank n < sv.rank n := by
  apply apart.falls
  have moved := Transition.Machine.sum_moved (Finset.mem_range.mpr bound) others
  unfold errands
  rw [schedulers,apart.nextScheduler]
  omega

theorem enqueue_falls {n c : Nat} {b : Payload → ProducerAction Payload}
    (reach : (machine config).Reachable sv) (bound : c < n) (genuine : ∀ p, b p ≠ .wake)
    (taken : sv.enqueueStep c b = some sv') : sv'.rank n < sv.rank n := by
  unfold enqueueStep at taken
  split at taken
  next p k inside =>
    obtain ⟨sc,stepped,rfl⟩ := Option.map_eq_some_iff.mp taken
    obtain ⟨less,fewer,others⟩ :=
      Scheduler.producer_works (reachable_roused reach k) (genuine p) stepped
    have cases := Scheduler.producerStep_cases stepped
    have length : sc.threads.length = (sv.schedulers k).threads.length := by
      rw [Scheduler.producer_threads cases]
    have apart : Apart sv { sv.setScheduler k sc with backends := sv.backends } :=
      apart_setScheduler (Scheduler.producer_face cases) length
    refine apart.falls ?_
    have born : k < sv.nextScheduler := by
      obtain ⟨context,present,rfl⟩ := reachable_placed reach c p k inside
      by_contra unborn
      have started := (entry_serving reach present).1
      rw [reachable_unborn reach _ (Nat.not_lt.mp unborn)] at started
      contradiction
    have works := Transition.Machine.sum_moved
      (f := fun j => ((sv.setScheduler k sc).schedulers j).work)
      (g := fun j => (sv.schedulers j).work) (Finset.mem_range.mpr born)
      fun j other => by simp [setScheduler,other]
    have calls := Transition.Machine.sum_moved (f := (sv.setScheduler k sc).callLeft)
      (g := sv.callLeft) (Finset.mem_range.mpr bound) fun d other => by
        have same : (sv.setScheduler k sc).inferLeft d = sv.inferLeft d :=
          inferLeft_congr rfl fun j => by
            by_cases here : j = k
            · subst j
              simpa [setScheduler] using others d other
            · simp [setScheduler,here]
        exact congrArg (· + (sv.statuses d).left + (sv.healths d).left) same
    have here : (sv.setScheduler k sc).callLeft c + (sv.schedulers k).enqueueLeft c =
        sv.callLeft c + sc.enqueueLeft c := by
      simp [callLeft,inferLeft,setScheduler,inside]
      omega
    have next : (sv.setScheduler k sc).nextScheduler = sv.nextScheduler := rfl
    have own : (sv.setScheduler k sc).schedulers k = sc := Function.update_self ..
    change (sv.setScheduler k sc).errands n < _
    simp only [own] at works
    unfold errands
    rw [next]
    omega
  · contradiction

/-- A genuine step of `InferAsync` is one of a caller inside of it. -/
theorem caller_falls {n c : Nat} {a : CallerAction} (reach : (machine config).Reachable sv)
    (bound : c < n) (genuine : (ServerAction.caller c a).genuine = true)
    (taken : sv.callerStep c a = some sv') : sv'.rank n < sv.rank n := by
  have settles {pc : CallerPc} {mu : Option Holder}
      (less : Server.inferLeft { sv.setCaller c pc with modelMapMu := mu } c < sv.inferLeft c) :
      Server.rank n { sv.setCaller c pc with modelMapMu := mu } < sv.rank n := by
    refine calls_fall ⟨rfl,rfl,rfl,rfl,rfl,rfl,fun _ => rfl,fun _ => rfl⟩ bound rfl ?_ ?_
    · simp only [callLeft]
      exact Nat.add_lt_add_right (Nat.add_lt_add_right less _) _
    · intro d other
      have same : Server.inferLeft { sv.setCaller c pc with modelMapMu := mu } d = sv.inferLeft d :=
        inferLeft_congr (Function.update_of_ne other _ _) fun _ => rfl
      exact congrArg (· + (sv.statuses d).left + (sv.healths d).left) same
  cases a with
  | call | wake => contradiction
  | enqueue => exact enqueue_falls reach bound (by simp) taken
  | push wake => exact enqueue_falls reach bound (by simp) taken
  | leave => exact enqueue_falls reach bound (by simp) taken
  | lookup =>
    cases callerStep_cases taken with
    | notFound inside =>
      exact @settles _ sv.modelMapMu (by simp [inferLeft,setCaller,inside])
    | @found _ context inside =>
      refine settles ?_
      have most := (sv.schedulers context.scheduler).enqueueLeft_le c
      simp only [inferLeft,setCaller,inside,Function.update_self]
      omega
    | enqueue inside => simp [callerStep,inside] at taken
  | finish =>
    simp only [callerStep] at taken
    split at taken
    next inside =>
      split at taken
      next back =>
        cases taken
        exact settles (by simp [inferLeft,setCaller,inside,Scheduler.enqueueLeft,back])
      · contradiction
    · contradiction

theorem status_falls {n c : Nat} {a : StatusAction} (bound : c < n)
    (genuine : (ServerAction.status c a).genuine = true) (taken : sv.statusStep c a = some sv') :
    sv'.rank n < sv.rank n := by
  obtain ⟨pc,cases,rfl⟩ := statusStep_cases taken
  have less : pc.left < (sv.statuses c).left := by
    cases cases with
    | call => contradiction
    | collect here | count here => simp [here,StatusPc.left]
  refine calls_fall ⟨rfl,rfl,rfl,rfl,rfl,rfl,fun _ => rfl,fun _ => rfl⟩ bound rfl ?_ ?_
  · simpa [callLeft,inferLeft] using less
  · intro d other
    simp [callLeft,inferLeft,other]

theorem health_falls {n c : Nat} {a : HealthAction} (bound : c < n)
    (genuine : (ServerAction.health c a).genuine = true) (taken : sv.healthStep c a = some sv') :
    sv'.rank n < sv.rank n := by
  obtain ⟨pc,cases,rfl⟩ := healthStep_cases taken
  have less : pc.left < (sv.healths c).left := by
    cases cases with
    | live | ready | unsupported => contradiction
    | count here => simp [here,HealthPc.left]
  refine calls_fall ⟨rfl,rfl,rfl,rfl,rfl,rfl,fun _ => rfl,fun _ => rfl⟩ bound rfl ?_ ?_
  · simpa [callLeft,inferLeft] using less
  · intro d other
    simp [callLeft,inferLeft,other]

/-- A refresh under way means that nobody is in the last lines of `Stop`. -/
theorem cycle_mainRank {a : CycleAction} (reach : (machine config).Reachable sv)
    (taken : CycleStep sv a sv') : sv'.mainRank = sv.mainRank := by
  obtain ⟨busy,_,_,_,main,_⟩ := cycle_frame taken
  have exclusive := reachable_exclusive reach
  have elsewhere (alone : sv.main.alone = true) (other : sv.main ≠ .loading) : False :=
    busy (exclusive.idle other (by simp [exclusive.alone alone]))
  unfold mainRank
  rw [main]
  cases here : sv.main with
  | clearing | tearing => exact (elsewhere (by simp [here,MainPc.alone]) (by simp [here])).elim
  | _ => rfl

theorem step_others {a : ServerAction} {d : Nat} (taken : sv.step a = some sv')
    (other : a.thread? ≠ some d) : sv'.callers d = sv.callers d ∧
      sv'.statuses d = sv.statuses d ∧ sv'.healths d = sv.healths d := by
  refine ⟨?_,step_statuses taken ?_,step_healths taken ?_⟩
  · by_cases mine : ∃ c b, a = .caller c b
    · obtain ⟨c,b,rfl⟩ := mine
      have away : d ≠ c := fun same => other (by rw [same]; rfl)
      cases callerStep_cases taken with
      | call | notFound | found | finish => exact Function.update_of_ne away _ _
      | enqueue => rfl
    · exact congrFun (step_callers taken fun c b same => mine ⟨c,b,same⟩) d
  · rintro b rfl
    exact other rfl
  · rintro b rfl
    exact other rfl

theorem thread_within {n c : Nat} {a : ServerAction} (within : Within n sv)
    (genuine : a.genuine = true) (taken : sv.step a = some sv') (own : a.thread? = some c) :
    c < n := by
  by_contra far
  obtain ⟨caller,status,health⟩ := within c (Nat.not_lt.mp far)
  cases a with
  | caller d a =>
    cases own
    cases callerStep_cases taken with
    | call => contradiction
    | notFound inside | found inside | enqueue inside | finish inside =>
      rw [caller] at inside
      contradiction
  | status d a =>
    cases own
    cases a with
    | call => contradiction
    | collect | count => simp [step,statusStep,status] at taken
  | health d a =>
    cases own
    cases a with
    | call => contradiction
    | count => simp [step,healthStep,health] at taken
  | worker | cycle | main | updater => contradiction

theorem step_within {n : Nat} {a : ServerAction} (within : Within n sv)
    (genuine : a.genuine = true) (taken : sv.step a = some sv') : Within n sv' := by
  intro d far
  obtain ⟨caller,status,health⟩ := within d far
  have other : a.thread? ≠ some d := fun own =>
    absurd (thread_within within genuine taken own) (Nat.not_lt.mpr far)
  obtain ⟨callers,statuses,healths⟩ := step_others taken other
  exact ⟨callers.trans caller,statuses.trans status,healths.trans health⟩

/-- Only so many threads have ever called. -/
theorem reachable_within (reach : (machine config).Reachable sv) : ∃ n, Within n sv := by
  refine reach.invariant (P := fun sv => ∃ n, Within n sv) ⟨0,fun _ _ => ⟨rfl,rfl,rfl⟩⟩ ?_
  rintro sv a sv' _ ⟨n,within⟩ taken
  refine ⟨max n ((a.thread?.map (· + 1)).getD 0),fun d far => ?_⟩
  obtain ⟨caller,status,health⟩ := within d (le_trans (le_max_left ..) far)
  have other : a.thread? ≠ some d := by
    intro own
    rw [own] at far
    have past : d + 1 ≤ d := le_trans (le_max_right ..) far
    omega
  obtain ⟨callers,statuses,healths⟩ := step_others taken other
  exact ⟨callers.trans caller,statuses.trans status,healths.trans health⟩

/-- Where a step that nobody asks for changes something, it brings the server nearer to rest. -/
theorem step_falls {n : Nat} {a : ServerAction} (reach : (machine config).Reachable sv)
    (within : Within n sv) (genuine : a.genuine = true) (taken : sv.step a = some sv') :
    (sv' = sv ∧ Polling sv a) ∨ sv'.rank n < sv.rank n := by
  cases a with
  | caller c a =>
    exact .inr (caller_falls reach (thread_within within genuine taken rfl) genuine taken)
  | status c a => exact .inr (status_falls (thread_within within genuine taken rfl) genuine taken)
  | health c a => exact .inr (health_falls (thread_within within genuine taken rfl) genuine taken)
  | worker k w a =>
    refine .inr (worker_falls reach ?_ taken)
    rintro rfl
    contradiction
  | cycle a =>
    have cases := cycleStep_cases taken
    obtain ⟨_,_,_,running,_,updater,_⟩ := cycle_frame cases
    refine (cycle_falls cases).imp_right fun less => ?_
    have same : sv'.updaterRank = sv.updaterRank := by rw [updaterRank,updaterRank,updater,running]
    simpa [rank,Prod.Lex.toLex_lt_toLex,cycle_mainRank reach cases,same] using .inl less
  | main a =>
    refine (main_falls genuine (mainStep_cases taken)).imp_right fun less => ?_
    exact Prod.Lex.toLex_lt_toLex.mpr (.inl less)
  | updater a =>
    refine .inr ?_
    have less := updater_falls genuine taken
    have same : sv'.mainRank = sv.mainRank := by cases updaterStep_cases taken <;> rfl
    simpa [rank,Prod.Lex.toLex_lt_toLex,same] using .inl less

/-- A step that nobody asks for from outside, and that changes something. -/
def Proceeds (sv sv' : Server) : Prop :=
  ∃ a : ServerAction, a.genuine = true ∧ sv.step a = some sv' ∧ sv' ≠ sv

/-- Nobody is in a call, no refresh is under way, no request lies in a running scheduler, and
each worker has left or sleeps in `pop`. -/
structure Rested (sv : Server) : Prop where
  free : sv.modelMapMu = none
  cycle : sv.cycle = .idle
  main : sv.main.ready = true
  updater : sv.updater = .absent ∨ sv.updater = .exited ∨ sv.updater = .asleep false
  callers : ∀ c, sv.callers c = .outside ∨ ∃ p status, sv.callers c = .returned p status
  statuses : ∀ c, sv.statuses c = .outside ∨ ∃ response, sv.statuses c = .returned response
  healths : ∀ c, sv.healths c = .outside ∨ ∃ response, sv.healths c = .returned response
  buffers : ∀ k, (sv.schedulers k).running = true → (sv.schedulers k).queue.buffer = []
  workers : ∀ k (w : Nat) t, (sv.schedulers k).threads[w]? = some t → t.pc = .exited ∨
    t.pc = .popping ∧ w ∈ (sv.schedulers k).queue.pushEvent.asleep

theorem proceeds_falls {n : Nat} (held : (machine config).Reachable sv ∧ Within n sv)
    (goes : Proceeds sv sv') :
    ((machine config).Reachable sv' ∧ Within n sv') ∧ sv'.rank n < sv.rank n := by
  obtain ⟨reach,within⟩ := held
  obtain ⟨a,genuine,taken,changed⟩ := goes
  refine ⟨⟨.step reach taken,step_within within genuine taken⟩,?_⟩
  exact (step_falls reach within genuine taken).resolve_left fun ⟨same,_⟩ => changed same

theorem still_stuck (reach : (machine config).Reachable sv) (still : ∀ next, ¬Proceeds sv next) :
    ¬Progress sv := by
  rintro ⟨a,sv',taken,genuine,plain⟩
  obtain ⟨n,within⟩ := reachable_within reach
  rcases step_falls reach within genuine taken with ⟨_,polling⟩ | less
  · exact plain polling
  · refine still sv' ⟨a,genuine,taken,?_⟩
    rintro rfl
    exact lt_irrefl _ less

/-- With the mutex free every call goes on to its end. -/
theorem caller_rests (reach : (machine config).Reachable sv) (free : sv.modelMapMu = none)
    (stuck : ¬Progress sv) (c : Nat) :
    sv.callers c = .outside ∨ ∃ p status, sv.callers c = .returned p status := by
  cases place : sv.callers c with
  | outside => exact .inl rfl
  | returned p status => exact .inr ⟨p,status,rfl⟩
  | entering p =>
    refine absurd (progress_of (a := .caller c .lookup) ?_ rfl rfl) stuck
    cases present : sv.modelMap.lookup p.modelName <;> simp [step,callerStep,place,free,present]
  | enqueuing p k =>
    have inside := (reachable_locked reach (.caller c)).mpr ⟨p,k,place⟩
    rw [free] at inside
    contradiction

theorem status_rests (reach : (machine config).Reachable sv) (free : sv.modelMapMu = none)
    (stuck : ¬Progress sv) (c : Nat) :
    sv.statuses c = .outside ∨ ∃ response, sv.statuses c = .returned response := by
  cases place : sv.statuses c with
  | outside => exact .inl rfl
  | returned response => exact .inr ⟨response,rfl⟩
  | collecting =>
    obtain ⟨models,listed,_⟩ := getModelStatus_some (reachable_owned reach free)
    exact absurd (progress_of (a := .status c .collect)
      (by simp [step,statusStep,place,free,listed]) rfl rfl) stuck
  | counting =>
    exact absurd (progress_of (a := .status c .count) (by simp [step,statusStep,place,free]) rfl
      rfl) stuck

theorem health_rests (free : sv.modelMapMu = none) (stuck : ¬Progress sv) (c : Nat) :
    sv.healths c = .outside ∨ ∃ response, sv.healths c = .returned response := by
  cases place : sv.healths c with
  | outside => exact .inl rfl
  | returned response => exact .inr ⟨response,rfl⟩
  | counting =>
    exact absurd (progress_of (a := .health c .count) (by simp [step,healthStep,place,free]) rfl
      rfl) stuck

/-- So does the refresh thread, unless it waits for its time. -/
theorem updater_rests (reach : (machine config).Reachable sv) (idle : sv.cycle = .idle)
    (open' : sv.condMu = false) (stuck : ¬Progress sv) :
    sv.updater = .absent ∨ sv.updater = .exited ∨ sv.updater = .asleep false := by
  cases place : sv.updater with
  | absent => exact .inl rfl
  | exited => exact .inr (.inl rfl)
  | entering =>
    exact absurd (progress_of (a := .updater .enter) (by simp [step,updaterStep,place,open']) rfl
      rfl) stuck
  | testing => exact absurd (testing_progress place) stuck
  | deciding => exact absurd (deciding_progress place) stuck
  | cycling => exact absurd idle ((reachable_engaged reach).cycling place)
  | asleep notified =>
    cases notified with
    | false => exact .inr (.inr rfl)
    | true =>
      exact absurd (progress_of (a := .updater .wake) (by simp [step,updaterStep,place,open']) rfl
        rfl) stuck

/-- A server in which no thread goes on has everything behind it. -/
theorem stuck_rested (reach : (machine config).Reachable sv) (provisioned : Provisioned sv)
    (fed : Fed sv) (returning : Returning sv) (stuck : ¬Progress sv) : Rested sv := by
  have free : sv.modelMapMu = none := by
    cases held : sv.modelMapMu with
    | none => rfl
    | some h =>
      refine absurd (holder_progress reach fed returning held fun c k waits => ?_) stuck
      exact stuck (space_progress reach provisioned returning waits)
  have idle : sv.cycle = .idle := by
    by_contra busy
    exact stuck (cycle_progress reach fed returning free busy)
  have open' : sv.condMu = false := by
    cases held : sv.condMu with
    | false => rfl
    | true => exact absurd (condMu_progress reach fed returning free held) stuck
  refine ⟨free,idle,?_,updater_rests reach idle open' stuck,caller_rests reach free stuck,
    status_rests reach free stuck,health_rests free stuck,fun k running => ?_,
    fun k w t atIndex => ?_⟩
  · by_contra busy
    exact stuck (main_progress reach fed returning free (by simpa using busy))
  · by_contra item
    exact stuck (item_progress reach returning running (fed _ item) item)
  · by_contra live
    push Not at live
    have asleep : w ∈ (sv.schedulers k).queue.pushEvent.asleep := by
      by_contra awake
      exact stuck (worker_progress (returning k w) atIndex live.1 awake)
    obtain ⟨u,atW,popping⟩ := (reachable_roused reach k).popping w (List.mem_append_left _ asleep)
    obtain rfl := Option.some.inj (atIndex.symm.trans atW)
    exact live.2 popping asleep

/-- Left alone the server comes to rest. From wherever it is the steps that nobody asks for do
not go on for ever, whichever thread takes them and whatever a refresh reads meanwhile, and some of
them lead to a state in which none is left. If every scheduler in `model_map_` always had room for
a request and a worker, and no call of `Run` is lost, then no call, no refresh, no `Start` and no
`Stop` is under way in such a state and no request lies in a running scheduler. -/
theorem comes_to_rest {config : ServerConfig} {sv : Server}
    (reach : (machine config).Reachable sv) :
    (¬∃ run : Nat → Server, run 0 = sv ∧ ∀ n, Proceeds (run n) (run (n + 1))) ∧
    (∃ last, Relation.ReflTransGen Proceeds sv last ∧ ∀ next, ¬Proceeds last next) ∧
    ((machine config).ReachableBy (fun sv _ => Provisioned sv) sv → Provisioned sv →
      Returning sv → (∀ next, ¬Proceeds sv next) → Rested sv) := by
  obtain ⟨n,within⟩ := reachable_within reach
  have falls (s t : Server) (held : (machine config).Reachable s ∧ Within n s)
      (goes : Proceeds s t) := proceeds_falls held goes
  obtain ⟨finite,ends⟩ := Transition.Machine.descends falls ⟨reach,within⟩
  exact ⟨finite,ends,fun provided provisioned returning still =>
    stuck_rested reach provisioned (reachable_fed provided) returning (still_stuck reach still)⟩

/-- The client that waits for space in a full queue gets it, and the three that wait for its
mutex come to their turns. -/
theorem comes_to_rest_congested : ∃ sv last : Server, WaitsForSpace sv 1 0 ∧
    Relation.ReflTransGen Proceeds sv last ∧ ∀ next, ¬Proceeds last next := by
  obtain ⟨sv,reach,asleep⟩ := Transition.Machine.exec_observed (m := machine ⟨true,1⟩)
    congestedRun (fun sv => (sv.schedulers 0).queue.popEvent.asleep) [1] rfl
  obtain ⟨last,run,still⟩ := (comes_to_rest reach).2.1
  exact ⟨sv,last,by simp [WaitsForSpace,asleep],run,still⟩

end Server
end InferenceServer
