import InferenceServer.AcceptedRequests

/-! Calls in progress: no two schedulers ever run the same backend, and a backend that
`LoadModels` has just created runs nowhere. -/
namespace InferenceServer

def CyclePc.loaded? : CyclePc → Option BackendInfo
  | .constructing info _ _ | .locking info _ _ | .installing info _ _ => some info
  | _ => none

namespace Server

open Store

variable {config : ServerConfig} {sv sv' : Server}

/-- A worker of scheduler `j` is inside `Run` of backend `b`. -/
def Running (sv : Server) (j b : Nat) : Prop :=
  ∃ (w : Nat) (t : Worker Payload Nat),
    (sv.schedulers j).threads[w]? = some t ∧ t.pc.inside? = some b

theorem running_created (reach : (machine config).Reachable sv) {j b : Nat}
    (running : Running sv j b) : j < sv.nextScheduler := by
  by_contra past
  obtain ⟨w,t,atIndex,_⟩ := running
  rw [reachable_unborn reach j (Nat.le_of_not_lt past)] at atIndex
  simp [Scheduler.create] at atIndex

/-- A call is in progress that was before, or it is made now on the function installed. -/
theorem step_inside {a : ServerAction} (reach : (machine config).Reachable sv)
    (taken : sv.step a = some sv') {k w b : Nat} {t : Worker Payload Nat}
    (atIndex : (sv'.schedulers k).threads[w]? = some t) (inside : t.pc.inside? = some b) :
    (∃ t', (sv.schedulers k).threads[w]? = some t' ∧ t'.idx = t.idx ∧ t'.pc.inside? = some b) ∨
      b = (sv.schedulers k).inferFunc ∧ a = .worker k w .call ∧
        ∃ t', (sv.schedulers k).threads[w]? = some t' ∧ t'.idx = t.idx := by
  cases reachable_moves reach taken k with
  | still same => exact .inl ⟨t,by rwa [same] at atIndex,rfl,inside⟩
  | created _ _ same =>
    rw [same] at atIndex
    simp [Scheduler.create] at atIndex
  | moved _ origin _ stepped =>
    rcases Scheduler.step_inside stepped atIndex inside with old | ⟨rfl,here,before⟩
    · exact .inl old
    · exact .inr ⟨here,origin,before⟩

theorem step_running {a : ServerAction} (reach : (machine config).Reachable sv)
    (taken : sv.step a = some sv') {j b : Nat} (running : Running sv' j b) :
    Running sv j b ∨ b = (sv.schedulers j).inferFunc ∧ j < sv.nextScheduler ∧
      ∃ w, a = .worker j w .call := by
  obtain ⟨w,t,atIndex,inside⟩ := running
  rcases step_inside reach taken atIndex inside with ⟨t',before,_,still⟩ | ⟨here,call,t',before,_⟩
  · exact .inl ⟨w,t',before,still⟩
  · refine .inr ⟨here,?_,w,call⟩
    by_contra past
    rw [reachable_unborn reach j (Nat.le_of_not_lt past)] at before
    simp [Scheduler.create] at before

inductive Binding (sv sv' : Server) (a : ServerAction) (k : Nat) : Prop where
  | kept : k < sv.nextScheduler → (sv'.schedulers k).inferFunc = (sv.schedulers k).inferFunc →
      Binding sv sv' a k
  | created {info name lists b} : a = .cycle .construct →
      sv.cycle = .constructing info name lists → info.backend = some b → k = sv.nextScheduler →
      sv'.schedulers k = .create sv.config.maxQueueSize
        (toInt32 (sv.backends b).object.getInstanceNum) b → Binding sv sv' a k
  | replaced {info name lists context b} : a = .cycle .install →
      sv.cycle = .installing info name lists → sv.modelMap.lookup name = some context →
      context.scheduler = k → info.backend = some b →
      (sv'.schedulers k).inferFunc = b → Binding sv sv' a k

theorem step_binding {a : ServerAction} (taken : sv.step a = some sv') {k : Nat}
    (below : k < sv'.nextScheduler) : Binding sv sv' a k := by
  have ofStore (same : sv'.store = sv.store) : Binding sv sv' a k :=
    .kept (Nat.lt_of_lt_of_eq below (congrArg Store.nextScheduler same))
      (congrArg (fun s => (s.faces k).inferFunc) same)
  have ofControl {j : Nat} {b : ControlAction} {sc : Scheduler Payload Nat}
      (stepped : (sv.schedulers j).controlStep b = some sc) :
      (Function.update sv.schedulers j sc k).inferFunc = (sv.schedulers k).inferFunc := by
    by_cases here : k = j
    · subst k
      rw [Function.update_self]
      exact (control_bound stepped).1
    · rw [Function.update_of_ne here]
  have ofTeardown {t : Teardown} {x : TeardownAction} {left : Option Teardown} {sv₁ : Server}
      (step : TeardownStep sv t x sv₁ left) : sv₁.nextScheduler = sv.nextScheduler ∧
      (sv₁.schedulers k).inferFunc = (sv.schedulers k).inferFunc := by
    cases step with
    | release | destroy => exact ⟨rfl,rfl⟩
    | stop _ stepped | wind _ _ stepped => exact ⟨rfl,ofControl stepped⟩
  cases a with
  | caller c a => exact ofStore (caller_store (callerStep_cases taken))
  | status c a =>
    obtain ⟨_,rfl⟩ := status_frame taken
    exact .kept below rfl
  | health c a =>
    obtain ⟨_,rfl⟩ := health_frame taken
    exact .kept below rfl
  | worker j w a => exact ofStore (worker_store (workerStep_effect taken))
  | updater a => cases updaterStep_cases taken <;> exact .kept below rfl
  | main a =>
    cases mainStep_cases taken with
    | tearing _ step | torn _ step =>
      obtain ⟨next,same⟩ := ofTeardown step
      exact .kept (Nat.lt_of_lt_of_eq below next) same
    | _ => exact .kept below rfl
  | cycle a =>
    cases cycleStep_cases taken with
    | construct pc owned =>
      by_cases here : k = sv.nextScheduler
      · exact .created rfl pc owned here (by rw [here]; exact Function.update_self _ _ _)
      · refine .kept (by dsimp only at below; omega) ?_
        simp [setScheduler,Function.update_of_ne here]
    | @install _ _ _ context _ pc present owned =>
      by_cases here : k = context.scheduler
      · exact .replaced rfl pc present here.symm owned
          (by rw [here]; simp [setScheduler,Scheduler.updateBackendInferFunc])
      · exact .kept below (by simp [setScheduler,Function.update_of_ne here])
    | start _ stepped | spawn _ stepped => exact .kept below (ofControl stepped)
    | rejecting _ step | rejected _ step | tearing _ step | torn _ step =>
      obtain ⟨next,same⟩ := ofTeardown step
      exact .kept (Nat.lt_of_lt_of_eq below next) same
    | _ => exact .kept below rfl

/-- The number of workers is settled when the scheduler is created. -/
theorem kept_totalRunners {a : ServerAction} (reach : (machine config).Reachable sv)
    (taken : sv.step a = some sv') {k : Nat} (created : k < sv.nextScheduler) :
    (sv'.schedulers k).totalRunners = (sv.schedulers k).totalRunners := by
  cases reachable_moves reach taken k with
  | still same => rw [same]
  | created here => omega
  | moved _ _ _ stepped => exact Scheduler.step_totalRunners stepped

theorem step_loaded {a : ServerAction} (taken : sv.step a = some sv')
    {info : BackendInfo} (loaded : sv'.cycle.loaded? = some info) :
    sv.cycle.loaded? = some info ∨ info.backend = some sv.nextBackend := by
  cases a with
  | caller | status | health | worker =>
    obtain ⟨_,_,_,_,_,_,rfl⟩ := outside_frame taken rfl
    exact .inl loaded
  | updater a =>
    cases updaterStep_cases taken with
    | refresh | cycled => contradiction
    | _ => exact .inl loaded
  | main a =>
    cases mainStep_cases taken with
    | start | loaded => contradiction
    | tearing _ step | torn _ step =>
      obtain ⟨_,_,_,rfl⟩ := teardown_frame step
      exact .inl loaded
    | _ => exact .inl loaded
  | cycle a =>
    cases cycleStep_cases taken with
    | added _ made | updated _ made =>
      obtain rfl := Option.some.inj loaded
      exact .inr (loadModel_some made).2.2.1
    | lock pc =>
      rw [pc]
      exact .inl loaded
    | spawn => exact .inl loaded
    | _ => contradiction

/-- A backend in a call belongs to the one scheduler that can be bound to it. -/
structure Private (sv : Server) : Prop where
  inRange : ∀ j b, Running sv j b → b < sv.nextBackend
  bound : ∀ j b, Running sv j b → ∀ k < sv.nextScheduler, (sv.schedulers k).inferFunc = b → k = j
  alone : ∀ j j' b, Running sv j b → Running sv j' b → j = j'
  fresh : ∀ info b, sv.cycle.loaded? = some info → info.backend = some b → ∀ j, ¬Running sv j b

/-- A release changes nothing of a backend but that it is released. -/
theorem release_object (sv : Server) (info : Option BackendInfo) (cause : Release) (b : Nat) :
    ((sv.release info cause).backends b).object = (sv.backends b).object := by
  unfold release
  split
  · rfl
  next b' _ =>
    by_cases same : b = b'
    · subst b'
      simp only [Function.update_self]
    · simp only [Function.update_of_ne same]

/-- Backends are never freed for reuse, and keep what they were loaded with. -/
theorem step_objects {a : ServerAction} (taken : sv.step a = some sv') :
    sv.nextBackend ≤ sv'.nextBackend ∧ ∀ b < sv.nextBackend,
      (sv'.backends b).object.modelName = (sv.backends b).object.modelName ∧
      (sv'.backends b).object.modelVersion = (sv.backends b).object.modelVersion ∧
      (sv'.backends b).object.contexts = (sv.backends b).object.contexts := by
  have ofTeardown {t : Teardown} {x : TeardownAction} {left : Option Teardown} {sv₁ : Server}
      (step : TeardownStep sv t x sv₁ left) : sv₁.nextBackend = sv.nextBackend ∧
      ∀ b, (sv₁.backends b).object = (sv.backends b).object := by
    cases step with
    | release => exact ⟨rfl,release_object sv _ _⟩
    | stop | wind | destroy => exact ⟨rfl,fun _ => rfl⟩
  have ofObjects (next : sv'.nextBackend = sv.nextBackend)
      (same : ∀ b, (sv'.backends b).object = (sv.backends b).object) :
      sv.nextBackend ≤ sv'.nextBackend ∧ ∀ b < sv.nextBackend,
        (sv'.backends b).object.modelName = (sv.backends b).object.modelName ∧
        (sv'.backends b).object.modelVersion = (sv.backends b).object.modelVersion ∧
        (sv'.backends b).object.contexts = (sv.backends b).object.contexts :=
    ⟨next.ge,fun b _ => by rw [same b]; exact ⟨rfl,rfl,rfl⟩⟩
  cases a with
  | caller c a =>
    obtain ⟨_,_,_,rfl⟩ := caller_frame (callerStep_cases taken)
    exact ofObjects rfl fun _ => rfl
  | status c a =>
    obtain ⟨_,rfl⟩ := status_frame taken
    exact ofObjects rfl fun _ => rfl
  | health c a =>
    obtain ⟨_,rfl⟩ := health_frame taken
    exact ofObjects rfl fun _ => rfl
  | worker k w a =>
    have same := worker_store (workerStep_effect taken)
    have tag (b : Nat) : (sv'.backends b).tag = (sv.backends b).tag :=
      congrArg (fun s => s.tags b) same
    exact ⟨(congrArg Store.nextBackend same).ge,fun b _ => ⟨congrArg Tag.modelName (tag b),
      congrArg Tag.modelVersion (tag b),congrArg Tag.contexts (tag b)⟩⟩
  | updater a => cases updaterStep_cases taken <;> exact ofObjects rfl fun _ => rfl
  | main a =>
    cases mainStep_cases taken with
    | tearing _ step | torn _ step =>
      obtain ⟨next,same⟩ := ofTeardown step
      exact ofObjects next same
    | _ => exact ofObjects rfl fun _ => rfl
  | cycle a =>
    cases cycleStep_cases taken with
    | added | updated =>
      refine ⟨Nat.le_succ _,fun b below => ?_⟩
      simp [allocate,Function.update_of_ne (Nat.ne_of_lt below)]
    | reset => exact ofObjects rfl (release_object sv _ _)
    | rejecting _ step | rejected _ step | tearing _ step | torn _ step =>
      obtain ⟨next,same⟩ := ofTeardown step
      exact ofObjects next same
    | _ => exact ofObjects rfl fun _ => rfl

theorem release_released {info : Option BackendInfo} {cause r : Release} {b : Nat}
    (now : ((sv.release info cause).backends b).released = some r) :
    (sv.backends b).released = some r ∨
      r = cause ∧ ∃ i, info = some i ∧ i.backend = some b := by
  unfold release at now
  split at now
  · exact .inl now
  next b' owned =>
    obtain ⟨i,there,owns⟩ := Option.bind_eq_some_iff.mp owned
    by_cases same : b = b'
    · subst b'
      simp only [Function.update_self] at now
      exact .inr ⟨(Option.some.inj now).symm,i,there,owns⟩
    · simp only [Function.update_of_ne same] at now
      exact .inl now

/-- Backends are released by the `reset` of an update and by the destructor of a context. -/
theorem step_released {a : ServerAction} (taken : sv.step a = some sv') {b : Nat} {r : Release}
    (now : (sv'.backends b).released = some r) :
    (sv.backends b).released = some r ∨
    (∃ t info, sv.tearing? a = some (t,.release) ∧ t.context.backendInfo = some info ∧
      info.backend = some b ∧ r = .teardown t.context.scheduler) ∨
    (∃ info lists, a = .cycle .reset ∧ sv.cycle = .resetting (some info) lists ∧
      info.backend = some b ∧ r = .update) := by
  have ofTeardown {t : Teardown} {x : TeardownAction} {left : Option Teardown} {sv₁ : Server}
      (destroys : sv.tearing? a = some (t,x)) (step : TeardownStep sv t x sv₁ left)
      (now : (sv₁.backends b).released = some r) :
      (sv.backends b).released = some r ∨ ∃ t info, sv.tearing? a = some (t,.release) ∧
        t.context.backendInfo = some info ∧ info.backend = some b ∧
        r = .teardown t.context.scheduler := by
    cases step with
    | stop | wind | destroy => exact .inl now
    | release =>
      rcases release_released now with old | ⟨cause,info,there,owned⟩
      · exact .inl old
      · exact .inr ⟨t,info,destroys,there,owned,cause⟩
  by_cases tears : ∃ t x, sv.tearing? a = some (t,x)
  · obtain ⟨t,x,destroys⟩ := tears
    obtain ⟨sv₁,left,step,_,same,_⟩ := step_tearing taken destroys
    rw [same] at now
    exact (ofTeardown destroys step now).imp_right .inl
  cases a with
  | caller c a =>
    obtain ⟨_,_,_,rfl⟩ := caller_frame (callerStep_cases taken)
    exact .inl now
  | status c a =>
    obtain ⟨_,rfl⟩ := status_frame taken
    exact .inl now
  | health c a =>
    obtain ⟨_,rfl⟩ := health_frame taken
    exact .inl now
  | worker k w a =>
    have same := congrArg (fun s => (s.tags b).released) (worker_store (workerStep_effect taken))
    exact .inl (same.symm.trans now)
  | updater a => cases updaterStep_cases taken <;> exact .inl now
  | main a =>
    cases mainStep_cases taken with
    | tearing here step | torn here step =>
      exact absurd ⟨_,_,by simp only [tearing?,here]; rfl⟩ tears
    | _ => exact .inl now
  | cycle a =>
    cases cycleStep_cases taken with
    | rejecting here step | rejected here step | tearing here step | torn here step =>
      exact absurd ⟨_,_,by simp only [tearing?,here]; rfl⟩ tears
    | added | updated =>
      by_cases newest : b = sv.nextBackend
      · subst b
        simp [allocate] at now
      · simp only [allocate,Function.update_of_ne newest] at now
        exact .inl now
    | @reset info lists here =>
      rcases release_released now with old | ⟨cause,i,rfl,owned⟩
      · exact .inl old
      · exact .inr (.inr ⟨i,lists,rfl,here,owned,cause⟩)
    | _ => exact .inl now

theorem loaded_waiting (valid : Valid sv) {info : BackendInfo} {b : Nat}
    (loaded : sv.cycle.loaded? = some info) (owned : info.backend = some b) :
    (∃ name, Loaded sv.store info name b) ∧ Unbound sv.store b := by
  have locals := valid.cycle
  have same {name : String} (there : ∃ b', Loaded sv.store info name b' ∧ Unbound sv.store b') :
      (∃ name, Loaded sv.store info name b) ∧ Unbound sv.store b := by
    obtain ⟨b',there,unbound⟩ := there
    obtain rfl : b = b' := Option.some.inj (owned.symm.trans there.owned)
    exact ⟨⟨name,there⟩,unbound⟩
  cases pc : sv.cycle with
  | constructing info' name | locking info' name =>
    rw [pc] at loaded locals
    obtain rfl := Option.some.inj loaded
    exact same locals
  | installing info' name =>
    rw [pc] at loaded locals
    obtain rfl := Option.some.inj loaded
    exact same locals.2
  | _ =>
    rw [pc] at loaded
    contradiction

theorem step_private {a : ServerAction} (reach : (machine config).Reachable sv)
    (taken : sv.step a = some sv') (valid : Private sv) : Private sv' := by
  have sane := (reachable_valid reach).sane
  have before {j b : Nat} (running : Running sv' j b) := step_running reach taken running
  have noCall {c : CycleAction} (same : a = .cycle c) {j b : Nat} (running : Running sv' j b) :
      Running sv j b := by
    rcases before running with old | ⟨_,_,w,call⟩
    · exact old
    · rw [same] at call
      contradiction
  refine ⟨?_,?_,?_,?_⟩
  · intro j b running
    rcases before running with old | ⟨rfl,created,_⟩
    · exact Nat.lt_of_lt_of_le (valid.inRange j b old) (step_objects taken).1
    · exact Nat.lt_of_lt_of_le (sane.inRange j created) (step_objects taken).1
  · intro j b running k below bound
    cases step_binding taken below with
    | kept old same =>
      rw [same] at bound
      rcases before running with inside | ⟨rfl,created,_⟩
      · exact valid.bound j b inside k old bound
      · exact sane.injective k old j created bound
    | @created info _ _ f same pc owned _ binds =>
      obtain rfl : f = b := by rw [← bound,binds]; rfl
      exact absurd (noCall same running) (valid.fresh info f (by rw [pc]; rfl) owned j)
    | @replaced info _ _ _ f same pc _ _ owned binds =>
      obtain rfl : f = b := binds.symm.trans bound
      exact absurd (noCall same running) (valid.fresh info f (by rw [pc]; rfl) owned j)
  · intro j j' b running running'
    rcases before running with old | ⟨here,created,_⟩ <;>
      rcases before running' with old' | ⟨here',created',_⟩
    · exact valid.alone j j' b old old'
    · exact (valid.bound j b old j' created' here'.symm).symm
    · exact valid.bound j' b old' j created here.symm
    · exact sane.injective j created j' created' (here.symm.trans here')
  · intro info b loaded owned j running
    rcases step_loaded taken loaded with old | newest
    · rcases before running with inside | ⟨rfl,created,_⟩
      · exact valid.fresh info b old owned j inside
      · exact (loaded_waiting (reachable_valid reach) old owned).2 j created rfl
    · obtain rfl : b = sv.nextBackend := Option.some.inj (owned.symm.trans newest)
      rcases before running with inside | ⟨here,created,_⟩
      · exact absurd (valid.inRange j _ inside) (Nat.lt_irrefl _)
      · exact absurd here.symm (Nat.ne_of_lt (sane.inRange j created))

theorem reachable_private (reach : (machine config).Reachable sv) : Private sv := by
  have nothing (j b : Nat) : ¬Running (create config) j b := by
    rintro ⟨w,t,atIndex,_⟩
    simp [create,Scheduler.create] at atIndex
  refine reach.invariant ⟨fun j b h => (nothing j b h).elim,fun j b h => (nothing j b h).elim,
    fun j _ b h => (nothing j b h).elim,fun _ b _ _ j => nothing j b⟩ ?_
  intro sv a sv' before valid taken
  exact step_private before taken valid

theorem release_kept {info : Option BackendInfo} {cause : Release} {b : Nat}
    (gone : (sv.backends b).released ≠ none) :
    ((sv.release info cause).backends b).released ≠ none := by
  unfold release
  split
  · exact gone
  next b' _ =>
    by_cases same : b = b'
    · subst b'
      simp only [Function.update_self]
      exact Option.some_ne_none cause
    · simpa only [Function.update_of_ne same] using gone

/-- A destroyed backend stays destroyed. -/
theorem released_final {a : ServerAction} (reach : (machine config).Reachable sv)
    (taken : sv.step a = some sv') {b : Nat} (gone : (sv.backends b).released ≠ none) :
    (sv'.backends b).released ≠ none := by
  have ofTeardown {t : Teardown} {x : TeardownAction} {left : Option Teardown} {sv₁ : Server}
      (step : TeardownStep sv t x sv₁ left) : (sv₁.backends b).released ≠ none := by
    cases step with
    | release => exact release_kept gone
    | stop | wind | destroy => exact gone
  cases a with
  | caller c a =>
    obtain ⟨_,_,_,rfl⟩ := caller_frame (callerStep_cases taken)
    exact gone
  | status c a =>
    obtain ⟨_,rfl⟩ := status_frame taken
    exact gone
  | health c a =>
    obtain ⟨_,rfl⟩ := health_frame taken
    exact gone
  | worker k w a =>
    have same := congrArg (fun s => (s.tags b).released) (worker_store (workerStep_effect taken))
    exact fun none => gone (same.symm.trans none)
  | updater a => cases updaterStep_cases taken <;> exact gone
  | main a =>
    cases mainStep_cases taken with
    | tearing _ step | torn _ step =>
      have kept := ofTeardown step
      exact kept
    | _ => exact gone
  | cycle a =>
    cases cycleStep_cases taken with
    | added | updated =>
      have older : b ≠ sv.nextBackend := by
        rintro rfl
        exact gone ((reachable_valid reach).sane.fresh _ le_rfl)
      simpa only [allocate,Function.update_of_ne older] using gone
    | reset => exact release_kept gone
    | rejecting _ step | rejected _ step | tearing _ step | torn _ step =>
      have kept := ofTeardown step
      exact kept
    | _ => exact gone

/-- The call that the worker is in does not come back. -/
def Lost (sv : Server) (k w : Nat) : Prop :=
  ∃ idx p b, (sv.schedulers k).threads[w]? = some ⟨idx,.running p b⟩ ∧
    (sv.backends b).returns idx = false

def Returning (sv : Server) : Prop := ∀ k w, ¬Lost sv k w

def Uncalled (sv : Server) : Prop :=
  ∀ k < sv.nextScheduler, ∀ t ∈ (sv.schedulers k).threads, t.pc.inside? = none

instance (sv : Server) : Decidable (Uncalled sv) :=
  inferInstanceAs (Decidable (∀ k < sv.nextScheduler, ∀ t ∈ (sv.schedulers k).threads,
    t.pc.inside? = none))

theorem Uncalled.returning (uncalled : Uncalled sv) (reach : (machine config).Reachable sv) :
    Returning sv := by
  rintro k w ⟨idx,p,b,atIndex,_⟩
  have created : k < sv.nextScheduler := running_created reach ⟨w,_,atIndex,rfl⟩
  have outside := uncalled k created _ (List.mem_of_getElem? atIndex)
  contradiction

theorem returns_false {cell : BackendCell} {idx : Int} : cell.returns idx = false ↔
    cell.released ≠ none ∨ cell.object.runEntry idx = .pastEnd := by
  rw [← Bool.not_eq_true,BackendCell.returns,Bool.and_eq_true,Option.isNone_iff_eq_none,
    decide_eq_true_eq]
  tauto

/-- The backend that an update has in hand, no longer bound and not destroyed yet. -/
def replaced? (sv : Server) : Option Nat :=
  match sv.cycle with
  | .swapping _ name _ => (sv.modelMap.lookup name).bind fun context =>
    context.backendInfo.bind (·.backend)
  | .resetting info _ => info.bind (·.backend)
  | _ => none

/-- While an update has a backend in hand, nobody else touches the map. -/
theorem step_replaced {a : ServerAction} (reach : (machine config).Reachable sv)
    (taken : sv.step a = some sv') {b : Nat} (replaced : sv.replaced? = some b) :
    sv'.replaced? = some b ∨ (sv'.backends b).released ≠ none := by
  have busy : sv.cycle ≠ .idle ∧ sv.cycle ≠ .finished := by
    unfold replaced? at replaced
    constructor <;> (intro here; rw [here] at replaced; contradiction)
  have same (cycle : sv'.cycle = sv.cycle) (map : sv'.modelMap = sv.modelMap) :
      sv'.replaced? = some b := by rwa [replaced?,cycle,map]
  have exclusive := reachable_exclusive reach
  cases a with
  | caller | status | health | worker =>
    obtain ⟨_,_,_,_,_,_,rfl⟩ := outside_frame taken rfl
    exact .inl (same rfl rfl)
  | updater a =>
    cases updaterStep_cases taken with
    | refresh here =>
      refine absurd (exclusive.idle (fun loading => ?_) (by simp [here])) busy.1
      have absent := exclusive.alone (by simp [loading,MainPc.alone])
      rw [here] at absent
      contradiction
    | cycled here finished => exact absurd finished busy.2
    | _ => exact .inl (same rfl rfl)
  | main a =>
    have apart (alone : sv.main.alone = true) (other : sv.main ≠ .loading) : False :=
      busy.1 (exclusive.idle other (by simp [exclusive.alone alone]))
    cases mainStep_cases taken with
    | start ready halted =>
      exact absurd (exclusive.idle (fun h => by simp [h,MainPc.ready] at ready)
        (by simp [exclusive.stopped ready halted])) busy.1
    | loaded here finished => exact absurd finished busy.2
    | clear here | tearing here | torn here =>
      exact (apart (by simp [here,MainPc.alone]) (by simp [here])).elim
    | _ => exact .inl (same rfl rfl)
  | cycle a =>
    cases cycleStep_cases taken with
    | swap pc present =>
      left
      simpa only [replaced?,pc,present,Option.bind_some] using replaced
    | @reset info _ pc =>
      right
      have owned : info.bind (·.backend) = some b := by simpa only [replaced?,pc] using replaced
      simp [release,owned]
    | _ => simp_all [replaced?]

/-- A call in progress is one of the backend bound, of one that is destroyed, or of the one that
an update is about to destroy. -/
theorem running_placed (reach : (machine config).Reachable sv) :
    ∀ j b, Running sv j b → (sv.schedulers j).inferFunc = b ∨ (sv.backends b).released ≠ none ∨
      sv.replaced? = some b := by
  refine reach.invariant (P := fun sv => ∀ j b, Running sv j b →
    (sv.schedulers j).inferFunc = b ∨ (sv.backends b).released ≠ none ∨
      sv.replaced? = some b) ?_ ?_
  · rintro j b ⟨w,t,atIndex,_⟩
    simp [machine,create,Scheduler.create] at atIndex
  intro sv a sv' before valid taken j b running
  have stored := reachable_valid before
  rcases step_running before taken running with old | ⟨rfl,created,w,call⟩
  · have created := running_created before old
    rcases valid j b old with bound | gone | replaced
    · cases step_binding taken (Nat.lt_of_lt_of_le created (step_grows taken)) with
      | kept _ same => exact .inl (same.trans bound)
      | created _ _ _ here => exact absurd here (Nat.ne_of_lt created)
      | @replaced info name lists context f this pc present here owned binds =>
        have sane := stored.sane
        rw [pc] at sane
        obtain ⟨old,b',owned',loaded,bound'⟩ := sane.bound present
        right
        right
        subst this here
        cases cycleStep_cases taken with
        | install pc' present' owned'' =>
          rw [pc] at pc'
          cases pc'
          obtain rfl : b' = b := bound'.symm.trans bound
          simp [replaced?,setScheduler,present,owned',loaded.owned]
    · exact .inr (.inl (released_final before taken gone))
    · exact .inr ((step_replaced before taken replaced).symm)
  · left
    subst call
    have stepped : sv.workerStep j w .call = some sv' := taken
    exact congrArg (fun s => (s.faces j).inferFunc) (worker_store (workerStep_effect stepped))

end Server
end InferenceServer
