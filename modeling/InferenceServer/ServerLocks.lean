import InferenceServer.Mutex
import InferenceServer.ServerSteps

/-! Who may be where: one thread at most is in `LoadModels` or destroys contexts, and
`model_map_mu_` belongs to the thread that is inside one of its sections. -/
namespace InferenceServer

def CyclePc.locked : CyclePc → Bool
  | .rejecting .. | .installing .. | .swapping .. => true
  | _ => false

def MainPc.locked : MainPc → Bool
  | .clearing | .tearing _ => true
  | _ => false

def MainPc.alone : MainPc → Bool
  | .loading | .locking | .clearing | .tearing _ => true
  | _ => false

/-- The steps of requests, of reports and of workers. -/
def ServerAction.outside : ServerAction → Bool
  | .caller _ _ | .status _ _ | .health _ _ | .worker _ _ _ => true
  | _ => false

namespace Server

theorem teardown_frame {sv sv' : Server} {t : Teardown} {a : TeardownAction}
    {left : Option Teardown} (taken : TeardownStep sv t a sv' left) :
    ∃ schedulers destroyed backends, sv' = { sv with
      schedulers := schedulers, destroyed := destroyed, backends := backends } := by
  cases taken <;> exact ⟨_,_,_,rfl⟩

/-- `LoadModels` leaves the other threads, and the flags they test, as they are. -/
theorem cycle_frame {sv sv' : Server} {a : CycleAction} (taken : CycleStep sv a sv') :
    sv.cycle ≠ .idle ∧ sv'.config = sv.config ∧ sv'.condMu = sv.condMu ∧
    sv'.running = sv.running ∧ sv'.main = sv.main ∧ sv'.updater = sv.updater ∧
    sv'.callers = sv.callers ∧ sv'.statuses = sv.statuses ∧ sv'.healths = sv.healths := by
  cases taken with
  | rejecting pc torn | rejected pc torn | tearing pc torn | torn pc torn =>
    obtain ⟨_,_,_,rfl⟩ := teardown_frame torn
    exact ⟨by simp [pc],rfl,rfl,rfl,rfl,rfl,rfl,rfl,rfl⟩
  | list pc | mark pc | skip pc | found pc | check pc | scanned pc | notAdded pc | added pc
  | construct pc | start pc | spawn pc | insert pc | reject pc | allAdded pc | notUpdated pc
  | updated pc | missing pc | lock pc | install pc | swap pc | reset pc | allUpdated pc
  | gone pc | erase pc | allDeleted pc =>
    exact ⟨by simp [pc],rfl,rfl,rfl,rfl,rfl,rfl,rfl,rfl⟩

theorem cycle_busy {sv sv' : Server} {a : CycleAction} (taken : CycleStep sv a sv') :
    sv'.cycle ≠ .idle := by
  cases taken with
  | spawn pc => simp [setScheduler,pc]
  | _ => simp

/-- The call of `LoadModels` belongs to `Start` or to the refresh thread, never to both,
and contexts are destroyed by `Stop` only when that thread is gone. -/
structure Exclusive (sv : Server) : Prop where
  loader : sv.cycle ≠ .idle → sv.main = .loading ∨ sv.updater = .cycling
  alone : sv.main.alone = true → sv.updater = .absent
  stopped : sv.main.ready = true → sv.running = false → sv.updater = .absent
  started : sv.main = .loading → sv.running = true

theorem Exclusive.idle {sv : Server} (valid : Exclusive sv) (elsewhere : sv.main ≠ .loading)
    (absent : sv.updater ≠ .cycling) : sv.cycle = .idle := by
  by_contra busy
  rcases valid.loader busy with loading | cycling
  · exact elsewhere loading
  · exact absent cycling

theorem main_exclusive {sv sv' : Server} {a : MainAction} (taken : MainStep sv a sv')
    (valid : Exclusive sv) : Exclusive sv' := by
  obtain ⟨loader,alone,stopped,started⟩ := valid
  have elsewhere {pc : MainPc} (here : sv.main = pc) (other : pc ≠ .loading)
      (busy : sv.cycle ≠ .idle) : sv.updater = .cycling :=
    (loader busy).resolve_left fun loading => other (here.symm.trans loading)
  have notLoading (ready : sv.main.ready = true) : sv.main ≠ .loading := by
    intro loading
    simp [loading,MainPc.ready] at ready
  cases taken with
  | startAgain ready running =>
    exact ⟨fun busy => .inr ((loader busy).resolve_left (notLoading ready)),by simp [MainPc.alone],
      fun _ halted => absurd (running.symm.trans halted) (by simp),by simp⟩
  | start ready halted =>
    exact ⟨fun _ => .inl rfl,fun _ => stopped ready halted,by simp [MainPc.ready],fun _ => rfl⟩
  | loaded here =>
    exact ⟨fun busy => absurd rfl busy,by simp [MainPc.alone],
      fun _ halted => absurd ((started here).symm.trans halted) (by simp),by simp⟩
  | stop ready =>
    exact ⟨fun busy => .inr ((loader busy).resolve_left (notLoading ready)),
      by simp [MainPc.alone],by simp [MainPc.ready],by simp⟩
  | notify here _ woken =>
    refine ⟨fun busy => .inr ?_,by simp [MainPc.alone],by simp [MainPc.ready],by simp⟩
    have cycling := elsewhere here (by simp) busy
    rcases woken with same | ⟨_,asleep,_⟩
    · exact same.trans cycling
    · rw [cycling] at asleep; contradiction
  | join here gone =>
    refine ⟨fun busy => ?_,fun _ => rfl,by simp [MainPc.ready],by simp⟩
    have cycling := elsewhere here (by simp) busy
    simp [cycling] at gone
  | lock here =>
    exact ⟨fun busy => .inr (elsewhere here (by simp) busy),
      fun _ => alone (by simp [here,MainPc.alone]),by simp [MainPc.ready],by simp⟩
  | clear here =>
    exact ⟨fun busy => .inr (elsewhere here (by simp) busy),
      fun _ => alone (by simp [here,MainPc.alone]),by simp [MainPc.ready],by simp⟩
  | tearing here torn | torn here torn =>
    obtain ⟨_,_,_,rfl⟩ := teardown_frame torn
    exact ⟨fun busy => .inr (elsewhere here (by simp) busy),
      fun _ => alone (by simp [here,MainPc.alone]),by simp [MainPc.ready],by simp⟩
  | unlock here =>
    exact ⟨fun busy => .inr (elsewhere here (by simp) busy),by simp [MainPc.alone],
      fun _ _ => alone (by simp [here,MainPc.alone]),by simp⟩

theorem updater_exclusive {sv sv' : Server} {a : UpdaterAction} (taken : UpdaterStep sv a sv')
    (valid : Exclusive sv) : Exclusive sv' := by
  obtain ⟨loader,alone,stopped,started⟩ := valid
  -- A refresh thread that is there excludes the client's places that need it gone.
  have present {pc : UpdaterPc} (here : sv.updater = pc) (there : pc ≠ .absent) :
      sv.main.alone ≠ true ∧ (sv.main.ready = true → sv.running ≠ false) :=
    ⟨fun h => there (here.symm.trans (alone h)),
      fun ready halted => there (here.symm.trans (stopped ready halted))⟩
  have elsewhere {pc : UpdaterPc} (here : sv.updater = pc) (other : pc ≠ .cycling)
      (busy : sv.cycle ≠ .idle) : sv.main = .loading :=
    (loader busy).resolve_right fun cycling => other (here.symm.trans cycling)
  cases taken with
  | refresh here =>
    obtain ⟨notAlone,up⟩ := present here (by simp)
    exact ⟨fun _ => .inr rfl,fun h => absurd h notAlone,fun h halted => absurd halted (up h),
      started⟩
  | cycled here =>
    obtain ⟨notAlone,up⟩ := present here (by simp)
    exact ⟨fun busy => absurd rfl busy,fun h => absurd h notAlone,
      fun h halted => absurd halted (up h),started⟩
  | enter here | sleep here | pass here | wake here | timeout here | exit here =>
    obtain ⟨notAlone,up⟩ := present here (by simp)
    exact ⟨fun busy => .inl (elsewhere here (by simp) busy),fun h => absurd h notAlone,
      fun h halted => absurd halted (up h),started⟩

theorem exclusive_of_same {sv sv' : Server} (valid : Exclusive sv) (main : sv'.main = sv.main)
    (updater : sv'.updater = sv.updater) (running : sv'.running = sv.running)
    (cycle : sv'.cycle ≠ .idle → sv.cycle ≠ .idle) : Exclusive sv' := by
  constructor
  · simpa only [main,updater] using fun busy => valid.loader (cycle busy)
  · simpa only [main,updater] using valid.alone
  · simpa only [main,updater,running] using valid.stopped
  · simpa only [main,running] using valid.started

def Inside (sv : Server) : Holder → Prop
  | .caller c => ∃ p k, sv.callers c = .enqueuing p k
  | .loader => sv.cycle.locked = true
  | .stopper => sv.main.locked = true

def Locked (sv : Server) : Prop := Mutex.Guards sv.modelMapMu sv.Inside

theorem locked_of_same {sv sv' : Server} (valid : Locked sv)
    (owner : sv'.modelMapMu = sv.modelMapMu) (callers : sv'.callers = sv.callers)
    (cycle : sv'.cycle.locked = sv.cycle.locked) (main : sv'.main.locked = sv.main.locked) :
    Locked sv' := by
  unfold Locked
  rw [owner]
  refine valid.keep fun
    | .caller c => by simp only [Inside,callers]
    | .loader => by simp only [Inside,cycle]
    | .stopper => by simp only [Inside,main]

theorem cycle_locked {sv sv' : Server} {a : CycleAction} (taken : CycleStep sv a sv')
    (valid : Locked sv) : Locked sv' := by
  cases taken with
  | reject pc _ free | lock pc free =>
    unfold Locked at valid
    rw [free] at valid
    refine valid.acquire (by simp [Inside,CyclePc.locked]) ?_
    rintro (c | _ | _) other
    · rfl
    · contradiction
    · rfl
  | rejected pc torn =>
    obtain ⟨_,_,_,rfl⟩ := teardown_frame torn
    refine valid.release (t := .loader) (by simp [Inside,pc,CyclePc.locked])
      (by simp [Inside,CyclePc.locked]) ?_
    rintro (c | _ | _) other
    · rfl
    · contradiction
    · rfl
  | swap pc =>
    refine valid.release (t := .loader) (by simp [Inside,pc,CyclePc.locked])
      (by simp [Inside,CyclePc.locked]) ?_
    rintro (c | _ | _) other
    · rfl
    · contradiction
    · rfl
  | rejecting pc torn | tearing pc torn | torn pc torn =>
    obtain ⟨_,_,_,rfl⟩ := teardown_frame torn
    exact locked_of_same valid rfl rfl (by simp [pc,CyclePc.locked]) rfl
  | list pc | mark pc | skip pc | found pc | check pc | scanned pc | notAdded pc | added pc
  | construct pc | start pc | insert pc | allAdded pc | notUpdated pc | updated pc | missing pc
  | install pc | reset pc | allUpdated pc | gone pc | erase pc | allDeleted pc =>
    exact locked_of_same valid rfl rfl (by simp [pc,CyclePc.locked]) rfl
  | spawn pc => exact locked_of_same valid rfl rfl rfl rfl

theorem main_locked {sv sv' : Server} {a : MainAction} (taken : MainStep sv a sv')
    (exclusive : Exclusive sv) (valid : Locked sv) : Locked sv' := by
  have notLocked {pc : MainPc} (ready : pc.ready = true) : pc.locked = false := by
    cases pc <;> simp_all [MainPc.ready,MainPc.locked]
  cases taken with
  | startAgain ready | stop ready =>
    exact locked_of_same valid rfl rfl rfl (by rw [notLocked ready]; rfl)
  | start ready halted =>
    have idle := exclusive.idle (fun h => by simp [h,MainPc.ready] at ready)
      (by simp [exclusive.stopped ready halted])
    exact locked_of_same valid rfl rfl (by simp [idle,CyclePc.locked])
      (by rw [notLocked ready]; rfl)
  | loaded here finished =>
    exact locked_of_same valid rfl rfl (by simp [finished,CyclePc.locked])
      (by simp [here,MainPc.locked])
  | notify here | join here =>
    exact locked_of_same valid rfl rfl rfl (by simp [here,MainPc.locked])
  | lock here free =>
    unfold Locked at valid
    rw [free] at valid
    refine valid.acquire (by simp [Inside,MainPc.locked]) ?_
    rintro (c | _ | _) other
    · rfl
    · rfl
    · contradiction
  | clear here => exact locked_of_same valid rfl rfl rfl (by simp [here,MainPc.locked])
  | tearing here torn | torn here torn =>
    obtain ⟨_,_,_,rfl⟩ := teardown_frame torn
    exact locked_of_same valid rfl rfl rfl (by simp [here,MainPc.locked])
  | unlock here =>
    refine valid.release (t := .stopper) (by simp [Inside,here,MainPc.locked])
      (by simp [Inside,MainPc.locked]) ?_
    rintro (c | _ | _) other
    · rfl
    · rfl
    · contradiction

theorem updater_locked {sv sv' : Server} {a : UpdaterAction} (taken : UpdaterStep sv a sv')
    (exclusive : Exclusive sv) (valid : Locked sv) : Locked sv' := by
  cases taken with
  | refresh here =>
    have busy : sv.main ≠ .loading := fun loading => by
      simp [exclusive.alone (by simp [loading,MainPc.alone])] at here
    have idle := exclusive.idle busy (by simp [here])
    exact locked_of_same valid rfl rfl (by simp [idle,CyclePc.locked]) rfl
  | cycled _ finished =>
    exact locked_of_same valid rfl rfl (by simp [finished,CyclePc.locked]) rfl
  | enter | sleep | pass | wake | timeout | exit => exact locked_of_same valid rfl rfl rfl rfl

theorem caller_locked {sv sv' : Server} {c : Nat} {a : CallerAction}
    (taken : CallerStep sv c a sv') (valid : Locked sv) : Locked sv' := by
  have others {pc : CallerPc} (d : Nat) (other : d ≠ c) :
      Function.update sv.callers c pc d = sv.callers d := Function.update_of_ne other _ _
  cases taken with
  | call here | notFound here =>
    refine valid.keep ?_
    rintro (d | _ | _)
    · by_cases same : d = c
      · subst d
        simp [Inside,setCaller,here]
      · simp [Inside,setCaller,others d same]
    · rfl
    · rfl
  | @found p context here free =>
    unfold Locked at valid
    rw [free] at valid
    refine valid.acquire (t := .caller c) ⟨p,context.scheduler,by simp [setCaller]⟩ ?_
    rintro (d | _ | _) other
    · have different : d ≠ c := fun same => other (by rw [same])
      simp [Inside,setCaller,others d different]
    · rfl
    · rfl
  | enqueue => exact locked_of_same valid rfl rfl rfl rfl
  | @finish p q k status here =>
    refine valid.release (t := .caller c) ⟨p,k,here⟩ (by simp [Inside,setCaller]) ?_
    rintro (d | _ | _) other
    · have different : d ≠ c := fun same => other (by rw [same])
      simp [Inside,setCaller,others d different]
    · rfl
    · rfl

theorem status_frame {sv sv' : Server} {c : Nat} {a : StatusAction}
    (taken : sv.statusStep c a = some sv') : ∃ statuses, sv' = { sv with statuses := statuses } := by
  cases a with
  | call =>
    simp only [statusStep] at taken
    split at taken
    · cases taken; exact ⟨_,rfl⟩
    · contradiction
  | collect =>
    simp only [statusStep] at taken
    split at taken
    · split at taken
      · obtain ⟨_,_,rfl⟩ := Option.map_eq_some_iff.mp taken
        exact ⟨_,rfl⟩
      · contradiction
    · contradiction
  | count =>
    simp only [statusStep] at taken
    split at taken
    · split at taken
      · cases taken; exact ⟨_,rfl⟩
      · contradiction
    · contradiction

theorem health_frame {sv sv' : Server} {c : Nat} {a : HealthAction}
    (taken : sv.healthStep c a = some sv') : ∃ healths, sv' = { sv with healths := healths } := by
  cases a with
  | call mode =>
    simp only [healthStep] at taken
    split at taken
    · cases taken; exact ⟨_,rfl⟩
    · contradiction
  | count =>
    simp only [healthStep] at taken
    split at taken
    · split at taken
      · cases taken; exact ⟨_,rfl⟩
      · contradiction
    · contradiction

theorem worker_frame {sv sv' : Server} {k w : Nat} {a : WorkerAction}
    (taken : WorkerEffect sv k w a sv') :
    ∃ schedulers backends, sv' = { sv with schedulers := schedulers, backends := backends } := by
  cases taken <;> exact ⟨_,_,rfl⟩

theorem caller_frame {sv sv' : Server} {c : Nat} {a : CallerAction}
    (taken : CallerStep sv c a sv') : ∃ callers modelMapMu schedulers, sv' = { sv with
      callers := callers, modelMapMu := modelMapMu, schedulers := schedulers } := by
  cases taken <;> exact ⟨_,_,_,rfl⟩

theorem outside_frame {sv sv' : Server} {a : ServerAction} (taken : sv.step a = some sv')
    (outside : a.outside = true) :
    ∃ modelMapMu callers statuses healths schedulers backends, sv' = { sv with
      modelMapMu := modelMapMu, callers := callers, statuses := statuses, healths := healths,
      schedulers := schedulers, backends := backends } := by
  cases a with
  | caller c a =>
    obtain ⟨_,_,_,rfl⟩ := caller_frame (callerStep_cases taken)
    exact ⟨_,_,_,_,_,_,rfl⟩
  | status c a =>
    obtain ⟨_,rfl⟩ := status_frame taken
    exact ⟨_,_,_,_,_,_,rfl⟩
  | health c a =>
    obtain ⟨_,rfl⟩ := health_frame taken
    exact ⟨_,_,_,_,_,_,rfl⟩
  | worker k w a =>
    obtain ⟨_,_,rfl⟩ := worker_frame (workerStep_effect taken)
    exact ⟨_,_,_,_,_,_,rfl⟩
  | cycle | main | updater => contradiction

theorem step_exclusive {sv sv' : Server} {a : ServerAction} (taken : sv.step a = some sv')
    (valid : Exclusive sv) : Exclusive sv' := by
  cases a with
  | caller | status | health | worker =>
    obtain ⟨_,_,_,_,_,_,rfl⟩ := outside_frame taken rfl
    exact exclusive_of_same valid rfl rfl rfl id
  | cycle a =>
    obtain ⟨busy,_,_,running,main,updater,_⟩ := cycle_frame (cycleStep_cases taken)
    exact exclusive_of_same valid main updater running fun _ => busy
  | main a => exact main_exclusive (mainStep_cases taken) valid
  | updater a => exact updater_exclusive (updaterStep_cases taken) valid

theorem step_locked {sv sv' : Server} {a : ServerAction} (taken : sv.step a = some sv')
    (exclusive : Exclusive sv) (valid : Locked sv) : Locked sv' := by
  cases a with
  | caller c a => exact caller_locked (callerStep_cases taken) valid
  | status c a =>
    obtain ⟨_,rfl⟩ := status_frame taken
    exact locked_of_same valid rfl rfl rfl rfl
  | health c a =>
    obtain ⟨_,rfl⟩ := health_frame taken
    exact locked_of_same valid rfl rfl rfl rfl
  | worker k w a =>
    obtain ⟨_,_,rfl⟩ := worker_frame (workerStep_effect taken)
    exact locked_of_same valid rfl rfl rfl rfl
  | cycle a => exact cycle_locked (cycleStep_cases taken) valid
  | main a => exact main_locked (mainStep_cases taken) exclusive valid
  | updater a => exact updater_locked (updaterStep_cases taken) exclusive valid

theorem reachable_exclusive {config : ServerConfig} {sv : Server}
    (reach : (machine config).Reachable sv) : Exclusive sv := by
  refine reach.invariant ⟨by simp [machine,create],by simp [machine,create,MainPc.alone],
    fun _ _ => rfl,by simp [machine,create]⟩ ?_
  intro sv a sv' _ valid taken
  exact step_exclusive taken valid

theorem reachable_locked {config : ServerConfig} {sv : Server}
    (reach : (machine config).Reachable sv) : Locked sv := by
  refine reach.invariant ?_ ?_
  · rintro (c | _ | _) <;> simp [machine,create,Inside,CyclePc.locked,MainPc.locked]
  · intro sv a sv' before valid taken
    exact step_locked taken (reachable_exclusive before) valid

end Server
end InferenceServer
