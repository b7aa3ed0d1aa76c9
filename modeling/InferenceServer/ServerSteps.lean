import InferenceServer.SchedulerLifecycle
import InferenceServer.Server

/-! What one step of each thread of the server can do. -/
namespace InferenceServer.Server

def Winding : ControlAction → Prop
  | .drain _ | .clearRunning | .breakAll | .join => True
  | _ => False

/-- The step of `Stop` that an action stands for. -/
def winding? : TeardownAction → Option ControlAction
  | .drain elapsed => some (.drain elapsed)
  | .clearRunning => some .clearRunning
  | .breakAll => some .breakAll
  | .join => some .join
  | _ => none

theorem winding?_some {a : TeardownAction} {b : ControlAction} (winds : winding? a = some b) :
    Winding b ∧ (b = .breakAll ↔ a = .breakAll) := by
  cases a <;> cases winds <;> simp [Winding]

inductive TeardownStep (sv : Server) (t : Teardown) :
    TeardownAction → Server → Option Teardown → Prop where
  | release : t.stage = .backendInfo → TeardownStep sv t .release
      (sv.release t.context.backendInfo (.teardown t.context.scheduler))
      (some ⟨t.context,.scheduler⟩)
  | stop {sc} : t.stage = .scheduler →
      (sv.schedulers t.context.scheduler).controlStep .stop = some sc →
      TeardownStep sv t .stop (sv.setScheduler t.context.scheduler sc)
        (some ⟨t.context,.stopping⟩)
  | wind {a b sc} : t.stage = .stopping → winding? a = some b →
      (sv.schedulers t.context.scheduler).controlStep b = some sc →
      TeardownStep sv t a (sv.setScheduler t.context.scheduler sc) (some t)
  | destroy {status} : t.stage = .stopping →
      (sv.schedulers t.context.scheduler).control = .stopReturned status →
      TeardownStep sv t .destroy
        { sv with destroyed := Function.update sv.destroyed t.context.scheduler true } none

theorem controlStep_some {sv sv' : Server} {k : Nat} {a : ControlAction}
    (taken : sv.controlStep k a = some sv') :
    ∃ sc, (sv.schedulers k).controlStep a = some sc ∧ sv' = sv.setScheduler k sc := by
  obtain ⟨sc,stepped,rfl⟩ := Option.map_eq_some_iff.mp taken
  exact ⟨sc,stepped,rfl⟩

theorem teardownStep_cases {sv sv' : Server} {t : Teardown} {a : TeardownAction}
    {left : Option Teardown} (taken : sv.teardownStep t a = some (sv',left)) :
    TeardownStep sv t a sv' left := by
  obtain ⟨context,stage⟩ := t
  have wind (b : ControlAction) (winds : winding? a = some b) (there : stage = .stopping)
      (taken : (sv.controlStep context.scheduler b).map (·,some (⟨context,stage⟩ : Teardown)) =
        some (sv',left)) : TeardownStep sv ⟨context,stage⟩ a sv' left := by
    obtain ⟨_,stepped,result⟩ := Option.map_eq_some_iff.mp taken
    cases result
    obtain ⟨sc,step,rfl⟩ := controlStep_some stepped
    exact .wind there winds step
  unfold teardownStep at taken
  dsimp only at taken
  split at taken
  next => cases taken; exact .release rfl
  next =>
    obtain ⟨_,stepped,result⟩ := Option.map_eq_some_iff.mp taken
    cases result
    obtain ⟨sc,step,rfl⟩ := controlStep_some stepped
    exact .stop rfl step
  next elapsed => exact wind (.drain elapsed) rfl rfl taken
  next => exact wind .clearRunning rfl rfl taken
  next => exact wind .breakAll rfl rfl taken
  next => exact wind .join rfl rfl taken
  next =>
    split at taken
    next status pc => cases taken; exact .destroy rfl pc
    · contradiction
  · contradiction

/-- The steps of `LoadModels`. -/
inductive CycleStep (sv : Server) : CycleAction → Server → Prop where
  | list {cur} : sv.cycle = .listing → cur.Nodup →
      CycleStep sv (.list cur) { sv with cycle := .marking cur }
  | mark {cur} : sv.cycle = .marking cur → sv.modelMapMu = none →
      CycleStep sv .mark
        { sv with cycle := .scanning cur ⟨[],[],deletedModels sv.modelMap cur⟩ }
  | skip {name rest lists config dirs} : sv.cycle = .scanning (name :: rest) lists →
      config = none ∨ getHighestVersion dirs = -1 →
      CycleStep sv (.scan config dirs) { sv with cycle := .scanning rest lists }
  | found {name rest lists config dirs} : sv.cycle = .scanning (name :: rest) lists →
      getHighestVersion dirs ≠ -1 → CycleStep sv (.scan (some config) dirs)
        { sv with cycle := .checking ⟨name,getHighestVersion dirs⟩ rest lists }
  | check {load rest lists change} : sv.cycle = .checking load rest lists →
      sv.modelMapMu = none →
      classify sv.modelMap load.modelName load.modelVersion = some change →
      CycleStep sv .check { sv with cycle := .scanning rest (lists.record load change) }
  | scanned {lists} : sv.cycle = .scanning [] lists →
      CycleStep sv .next { sv with cycle := .adding lists }
  | notAdded {load rest updated deleted content} :
      sv.cycle = .adding ⟨load :: rest,updated,deleted⟩ →
      loadModel load content sv.nextBackend = none →
      CycleStep sv (.load content) { sv with cycle := .adding ⟨rest,updated,deleted⟩ }
  | added {load rest updated deleted content info b} :
      sv.cycle = .adding ⟨load :: rest,updated,deleted⟩ →
      loadModel load content sv.nextBackend = some (info,some b) →
      CycleStep sv (.load content) { sv.allocate (some b) with
        cycle := .constructing info load.modelName ⟨rest,updated,deleted⟩ }
  | construct {info name lists b} : sv.cycle = .constructing info name lists →
      info.backend = some b → CycleStep sv .construct
        { sv.setScheduler sv.nextScheduler (.create sv.config.maxQueueSize
            (toInt32 (sv.backends b).object.getInstanceNum) b) with
          nextScheduler := sv.nextScheduler + 1
          cycle := .starting ⟨sv.nextScheduler,some info⟩ name lists }
  | start {context name lists sc} : sv.cycle = .starting context name lists →
      (sv.schedulers context.scheduler).controlStep .start = some sc →
      CycleStep sv .start { sv.setScheduler context.scheduler sc with
        cycle := .spawning context name lists }
  | spawn {context name lists sc} : sv.cycle = .spawning context name lists →
      (sv.schedulers context.scheduler).controlStep .spawn = some sc →
      CycleStep sv .spawn (sv.setScheduler context.scheduler sc)
  | insert {context name lists status} : sv.cycle = .spawning context name lists →
      (sv.schedulers context.scheduler).control = .startReturned status →
      sv.modelMapMu = none → name ∉ sv.modelMap →
      CycleStep sv .insert { sv with
        modelMap := sv.modelMap.insert name context, cycle := .adding lists }
  | reject {context name lists status} : sv.cycle = .spawning context name lists →
      (sv.schedulers context.scheduler).control = .startReturned status →
      sv.modelMapMu = none → name ∈ sv.modelMap →
      CycleStep sv .insert { sv with
        modelMapMu := some .loader, cycle := .rejecting ⟨context,.backendInfo⟩ lists }
  | rejecting {t lists a sv' t'} : sv.cycle = .rejecting t lists →
      TeardownStep sv t a sv' (some t') →
      CycleStep sv (.teardown a) { sv' with cycle := .rejecting t' lists }
  | rejected {t lists a sv'} : sv.cycle = .rejecting t lists →
      TeardownStep sv t a sv' none →
      CycleStep sv (.teardown a) { sv' with modelMapMu := none, cycle := .adding lists }
  | allAdded {updated deleted} : sv.cycle = .adding ⟨[],updated,deleted⟩ →
      CycleStep sv .next { sv with cycle := .updating ⟨[],updated,deleted⟩ }
  | notUpdated {load added rest deleted content} :
      sv.cycle = .updating ⟨added,load :: rest,deleted⟩ →
      loadModel load content sv.nextBackend = none →
      CycleStep sv (.load content) { sv with cycle := .updating ⟨added,rest,deleted⟩ }
  | updated {load added rest deleted content info b} :
      sv.cycle = .updating ⟨added,load :: rest,deleted⟩ →
      loadModel load content sv.nextBackend = some (info,some b) →
      CycleStep sv (.load content) { sv.allocate (some b) with
        cycle := .locking info load.modelName ⟨added,rest,deleted⟩ }
  | missing {info name lists} : sv.cycle = .locking info name lists →
      sv.modelMapMu = none → sv.modelMap.lookup name = none →
      CycleStep sv .lock { sv with cycle := .resetting info lists }
  | lock {info name lists context} : sv.cycle = .locking info name lists →
      sv.modelMapMu = none → sv.modelMap.lookup name = some context →
      CycleStep sv .lock { sv with
        modelMapMu := some .loader, cycle := .installing info name lists }
  | install {info name lists context b} : sv.cycle = .installing info name lists →
      sv.modelMap.lookup name = some context → info.backend = some b →
      CycleStep sv .install
        { sv.setScheduler context.scheduler
            ((sv.schedulers context.scheduler).updateBackendInferFunc b) with
          cycle := .swapping info name lists }
  | swap {info name lists context} : sv.cycle = .swapping info name lists →
      sv.modelMap.lookup name = some context →
      CycleStep sv .swap { sv with
        modelMap := sv.modelMap.insert name { context with backendInfo := some info }
        modelMapMu := none
        cycle := .resetting context.backendInfo lists }
  | reset {info lists} : sv.cycle = .resetting info lists →
      CycleStep sv .reset { sv.release info .update with cycle := .updating lists }
  | allUpdated {added deleted} : sv.cycle = .updating ⟨added,[],deleted⟩ →
      CycleStep sv .next { sv with cycle := .deleting ⟨added,[],deleted⟩ }
  | gone {added updated name rest} : sv.cycle = .deleting ⟨added,updated,name :: rest⟩ →
      sv.modelMapMu = none → sv.modelMap.lookup name = none →
      CycleStep sv .erase { sv with cycle := .deleting ⟨added,updated,rest⟩ }
  | erase {added updated name rest context} :
      sv.cycle = .deleting ⟨added,updated,name :: rest⟩ →
      sv.modelMapMu = none → sv.modelMap.lookup name = some context →
      CycleStep sv .erase { sv with
        modelMap := sv.modelMap.erase name
        cycle := .tearing ⟨context,.backendInfo⟩ ⟨added,updated,rest⟩ }
  | tearing {t lists a sv' t'} : sv.cycle = .tearing t lists →
      TeardownStep sv t a sv' (some t') →
      CycleStep sv (.teardown a) { sv' with cycle := .tearing t' lists }
  | torn {t lists a sv'} : sv.cycle = .tearing t lists → TeardownStep sv t a sv' none →
      CycleStep sv (.teardown a) { sv' with cycle := .deleting lists }
  | allDeleted {added updated} : sv.cycle = .deleting ⟨added,updated,[]⟩ →
      CycleStep sv .next { sv with cycle := .finished }

theorem cycleStep_cases {sv sv' : Server} {a : CycleAction}
    (taken : sv.cycleStep a = some sv') : CycleStep sv a sv' := by
  unfold cycleStep at taken
  split at taken
  next cur pc =>
    split at taken
    next distinct => cases taken; exact .list pc distinct
    · contradiction
  next cur pc =>
    split at taken
    next free => cases taken; exact .mark pc free
    · contradiction
  next name rest lists config dirs pc =>
    split at taken
    next => cases taken; exact .skip pc (.inl rfl)
    next =>
      split at taken
      next nothing => cases taken; exact .skip pc (.inr nothing)
      next some => cases taken; exact .found pc some
  next load rest lists pc =>
    split at taken
    next free =>
      obtain ⟨change,classified,rfl⟩ := Option.map_eq_some_iff.mp taken
      exact .check pc free classified
    · contradiction
  next lists pc => cases taken; exact .scanned pc
  next load rest updated deleted content pc =>
    split at taken
    next failed => cases taken; exact .notAdded pc failed
    next info backend loaded =>
      obtain ⟨_,_,_,b,rfl,_⟩ := loadModel_some loaded
      cases taken
      exact .added pc loaded
  next info name lists pc =>
    obtain ⟨b,owned,rfl⟩ := Option.map_eq_some_iff.mp taken
    exact .construct pc owned
  next context name lists pc =>
    obtain ⟨_,stepped,rfl⟩ := Option.map_eq_some_iff.mp taken
    obtain ⟨sc,step,rfl⟩ := controlStep_some stepped
    exact .start pc step
  next context name lists pc =>
    obtain ⟨sc,step,rfl⟩ := controlStep_some taken
    exact .spawn pc step
  next context name lists pc =>
    split at taken
    next status started =>
      split at taken
      next free =>
        split at taken
        next present => cases taken; exact .reject pc started free present
        next absent => cases taken; exact .insert pc started free absent
      · contradiction
    · contradiction
  next t lists a pc =>
    obtain ⟨⟨sv₁,left⟩,torn,rfl⟩ := Option.map_eq_some_iff.mp taken
    cases left with
    | some t' => exact .rejecting pc (teardownStep_cases torn)
    | none => exact .rejected pc (teardownStep_cases torn)
  next updated deleted pc => cases taken; exact .allAdded pc
  next added load rest deleted content pc =>
    split at taken
    next failed => cases taken; exact .notUpdated pc failed
    next info backend loaded =>
      obtain ⟨_,_,_,b,rfl,_⟩ := loadModel_some loaded
      cases taken
      exact .updated pc loaded
  next info name lists pc =>
    split at taken
    next free =>
      split at taken
      next absent => cases taken; exact .missing pc free absent
      next context present => cases taken; exact .lock pc free present
    · contradiction
  next info name lists pc =>
    split at taken
    next context b present owned => cases taken; exact .install pc present owned
    · contradiction
  next info name lists pc =>
    obtain ⟨context,present,rfl⟩ := Option.map_eq_some_iff.mp taken
    exact .swap pc present
  next info lists pc => cases taken; exact .reset pc
  next added deleted pc => cases taken; exact .allUpdated pc
  next added updated name rest pc =>
    split at taken
    next free =>
      split at taken
      next absent => cases taken; exact .gone pc free absent
      next context present => cases taken; exact .erase pc free present
    · contradiction
  next t lists a pc =>
    obtain ⟨⟨sv₁,left⟩,torn,rfl⟩ := Option.map_eq_some_iff.mp taken
    cases left with
    | some t' => exact .tearing pc (teardownStep_cases torn)
    | none => exact .torn pc (teardownStep_cases torn)
  next added updated pc => cases taken; exact .allDeleted pc
  · contradiction

inductive MainStep (sv : Server) : MainAction → Server → Prop where
  | startAgain : sv.main.ready = true → sv.running = true → MainStep sv .start
      { sv with main := .returned .faieldModelManagerAlreadyRunning }
  | start : sv.main.ready = true → sv.running = false → MainStep sv .start
      { sv with running := true, main := .loading, cycle := .listing }
  | loaded : sv.main = .loading → sv.cycle = .finished → MainStep sv .loaded { sv with
      cycle := .idle
      updater := if sv.config.autoUpdate then .entering else sv.updater
      main := .returned .success }
  | stop : sv.main.ready = true →
      MainStep sv .stop { sv with running := false, main := .notifying }
  | notify {updater} : sv.main = .notifying → sv.condMu = false →
      (updater = sv.updater ∨ ∃ notified, sv.updater = .asleep notified ∧ updater = .asleep true) →
      updater ≠ .asleep false → MainStep sv .notify { sv with updater := updater, main := .joining }
  | join : sv.main = .joining → sv.updater = .absent ∨ sv.updater = .exited →
      MainStep sv .join { sv with updater := .absent, main := .locking }
  | lock : sv.main = .locking → sv.modelMapMu = none →
      MainStep sv .lock { sv with modelMapMu := some .stopper, main := .clearing }
  | clear {name context} : sv.main = .clearing → sv.modelMap.lookup name = some context →
      MainStep sv (.clear name) { sv with
        modelMap := sv.modelMap.erase name, main := .tearing ⟨context,.backendInfo⟩ }
  | tearing {t a sv' t'} : sv.main = .tearing t → TeardownStep sv t a sv' (some t') →
      MainStep sv (.teardown a) { sv' with main := .tearing t' }
  | torn {t a sv'} : sv.main = .tearing t → TeardownStep sv t a sv' none →
      MainStep sv (.teardown a) { sv' with main := .clearing }
  | unlock : sv.main = .clearing → sv.modelMap.keys = [] →
      MainStep sv .unlock { sv with modelMapMu := none, main := .returned .success }

theorem mainStep_cases {sv sv' : Server} {a : MainAction} (taken : sv.mainStep a = some sv') :
    MainStep sv a sv' := by
  cases a with
  | start =>
    simp only [mainStep] at taken
    split at taken
    next ready =>
      split at taken
      next running => cases taken; exact .startAgain ready running
      next stopped => cases taken; exact .start ready (by simpa using stopped)
    · contradiction
  | loaded =>
    simp only [mainStep] at taken
    split at taken
    next here => cases taken; exact .loaded here.1 here.2
    · contradiction
  | stop =>
    simp only [mainStep] at taken
    split at taken
    next ready => cases taken; exact .stop ready
    · contradiction
  | notify =>
    simp only [mainStep] at taken
    split at taken
    next here =>
      cases taken
      cases pc : sv.updater with
      | asleep notified => exact .notify here.1 here.2 (.inr ⟨notified,pc,rfl⟩) (by simp)
      | _ => exact .notify here.1 here.2 (.inl pc.symm) (by simp)
    · contradiction
  | join =>
    simp only [mainStep] at taken
    split at taken
    next here => cases taken; exact .join here.1 here.2
    · contradiction
  | lock =>
    simp only [mainStep] at taken
    split at taken
    next here => cases taken; exact .lock here.1 here.2
    · contradiction
  | clear name =>
    simp only [mainStep] at taken
    split at taken
    next pc =>
      obtain ⟨context,present,rfl⟩ := Option.map_eq_some_iff.mp taken
      exact .clear pc present
    · contradiction
  | teardown a =>
    simp only [mainStep] at taken
    split at taken
    next t pc =>
      obtain ⟨⟨sv₁,left⟩,torn,rfl⟩ := Option.map_eq_some_iff.mp taken
      cases left with
      | some t' => exact .tearing pc (teardownStep_cases torn)
      | none => exact .torn pc (teardownStep_cases torn)
    · contradiction
  | unlock =>
    simp only [mainStep] at taken
    split at taken
    next here => cases taken; exact .unlock here.1 here.2
    · contradiction

inductive UpdaterStep (sv : Server) : UpdaterAction → Server → Prop where
  | enter : sv.updater = .entering → sv.condMu = false →
      UpdaterStep sv .enter { sv with condMu := true, updater := .testing }
  | sleep : sv.updater = .testing → sv.running = true →
      UpdaterStep sv .test { sv with condMu := false, updater := .asleep false }
  | pass : sv.updater = .testing → sv.running = false →
      UpdaterStep sv .test { sv with updater := .deciding }
  | wake {a notified} : sv.updater = .asleep notified → a = .wake ∨ a = .spurious →
      sv.condMu = false → UpdaterStep sv a { sv with condMu := true, updater := .testing }
  | timeout {notified} : sv.updater = .asleep notified → sv.condMu = false →
      UpdaterStep sv .timeout { sv with condMu := true, updater := .deciding }
  | refresh : sv.updater = .deciding → sv.running = true →
      UpdaterStep sv .decide { sv with updater := .cycling, cycle := .listing }
  | exit : sv.updater = .deciding → sv.running = false →
      UpdaterStep sv .decide { sv with condMu := false, updater := .exited }
  | cycled : sv.updater = .cycling → sv.cycle = .finished →
      UpdaterStep sv .cycled { sv with cycle := .idle, condMu := false, updater := .entering }

theorem updaterStep_cases {sv sv' : Server} {a : UpdaterAction}
    (taken : sv.updaterStep a = some sv') : UpdaterStep sv a sv' := by
  unfold updaterStep at taken
  split at taken
  next pc =>
    split at taken
    next free => cases taken; exact .enter pc free
    · contradiction
  next pc =>
    split at taken
    next running => cases taken; exact .sleep pc running
    next stopped => cases taken; exact .pass pc (by simpa using stopped)
  next pc =>
    split at taken
    next free => cases taken; exact .wake pc (.inl rfl) free
    · contradiction
  next notified pc =>
    split at taken
    next free => cases taken; exact .wake pc (.inr rfl) free
    · contradiction
  next notified pc =>
    split at taken
    next free => cases taken; exact .timeout pc free
    · contradiction
  next pc =>
    split at taken
    next running => cases taken; exact .refresh pc running
    next stopped => cases taken; exact .exit pc (by simpa using stopped)
  next pc =>
    split at taken
    next ended => cases taken; exact .cycled pc ended
    · contradiction
  · contradiction

inductive CallerStep (sv : Server) (c : Nat) : CallerAction → Server → Prop where
  | call {name version} : sv.callers c = .outside →
      CallerStep sv c (.call name version) (sv.setCaller c (.entering ⟨c,name,version⟩))
  | notFound {p} : sv.callers c = .entering p → sv.modelMapMu = none →
      sv.modelMap.lookup p.modelName = none →
      CallerStep sv c .lookup (sv.setCaller c (.returned p .failedInferNoBackendFound))
  | found {p context} : sv.callers c = .entering p → sv.modelMapMu = none →
      sv.modelMap.lookup p.modelName = some context →
      CallerStep sv c .lookup { sv.setCaller c (.enqueuing p context.scheduler) with
        modelMapMu := some (.caller c) }
  | enqueue {p k a b sc} : sv.callers c = .enqueuing p k →
      (sv.schedulers k).producerStep c b = some sc → (∀ q, b = .enqueue q → q = p) →
      CallerStep sv c a (sv.setScheduler k sc)
  | finish {p q k status} : sv.callers c = .enqueuing p k →
      (sv.schedulers k).producers c = .returned q status →
      CallerStep sv c .finish { sv.setCaller c (.returned p status) with modelMapMu := none }

theorem callerStep_cases {sv sv' : Server} {c : Nat} {a : CallerAction}
    (taken : sv.callerStep c a = some sv') : CallerStep sv c a sv' := by
  have enqueue {b : Payload → ProducerAction Payload}
      (own : ∀ p q, b p = .enqueue q → q = p) (taken : sv.enqueueStep c b = some sv') :
      CallerStep sv c a sv' := by
    unfold enqueueStep at taken
    split at taken
    next p k pc =>
      obtain ⟨sc,stepped,rfl⟩ := Option.map_eq_some_iff.mp taken
      exact .enqueue pc stepped (own p)
    · contradiction
  cases a with
  | call name version =>
    simp only [callerStep] at taken
    split at taken
    next pc => cases taken; exact .call pc
    · contradiction
  | lookup =>
    simp only [callerStep] at taken
    split at taken
    next p pc =>
      split at taken
      next free =>
        split at taken
        next absent => cases taken; exact .notFound pc free absent
        next context present => cases taken; exact .found pc free present
      · contradiction
    · contradiction
  | enqueue => exact enqueue (by rintro p q ⟨⟩; rfl) taken
  | push wake | wake | leave => exact enqueue (by simp) taken
  | finish =>
    simp only [callerStep] at taken
    split at taken
    next p k pc =>
      split at taken
      next q status returned => cases taken; exact .finish pc returned
      · contradiction
    · contradiction

/-- A worker's step is a step of its scheduler; besides, only the count of calls in
progress of one backend can change. -/
inductive WorkerEffect (sv : Server) (k w : Nat) (a : WorkerAction) : Server → Prop where
  | quiet {sc} : (sv.schedulers k).workerStep w a = some sc → a ≠ .call →
      (∀ status, a ≠ .ret status) → WorkerEffect sv k w a (sv.setScheduler k sc)
  | call {sc} : (sv.schedulers k).workerStep w a = some sc → a = .call →
      WorkerEffect sv k w a ((sv.setObject (sv.schedulers k).inferFunc
        (sv.backends (sv.schedulers k).inferFunc).object.enterRun).setScheduler k sc)
  | ret {sc idx p b status} : (sv.schedulers k).workerStep w a = some sc → a = .ret status →
      (sv.schedulers k).threads[w]? = some ⟨idx,.running p b⟩ →
      (sv.backends b).returns idx = true →
      ((sv.backends b).object.runEntry idx = .refused → status = .failedGeneric) →
      WorkerEffect sv k w a ((sv.setObject b ((sv.backends b).object.leaveRun
        ((sv.backends b).object.runEntry idx))).setScheduler k sc)

theorem workerStep_effect {sv sv' : Server} {k w : Nat} {a : WorkerAction}
    (taken : sv.workerStep k w a = some sv') : WorkerEffect sv k w a sv' := by
  obtain ⟨mid,effect,result⟩ := Option.bind_eq_some_iff.mp taken
  obtain ⟨sc,stepped,rfl⟩ := Option.map_eq_some_iff.mp result
  unfold runEffect at effect
  split at effect
  next => cases effect; exact .call stepped rfl
  next status =>
    split at effect
    next idx p b atIndex =>
      dsimp only at effect
      split at effect
      · contradiction
      next back =>
        split at effect
        · contradiction
        next accepted =>
          cases effect
          refine .ret stepped rfl atIndex (by simpa using back) fun refused => ?_
          exact Classical.byContradiction fun other => accepted ⟨refused,other⟩
    · contradiction
  next notCall notRet => cases effect; exact .quiet stepped notCall notRet

end InferenceServer.Server
