import InferenceServer.LoadModels
import InferenceServer.ServerSchedulers

/-! The steps that a server takes in `LoadModels`, interleaved with those of every other
thread, amount to one call of `LoadModels` on the map. -/
namespace InferenceServer

namespace Server

variable {config : ServerConfig} {sv sv' : Server} {repo : Repository}

def registry (sv : Server) : Registry where
  modelMap := sv.modelMap
  inferFuncs := fun k => (sv.schedulers k).inferFunc
  nextScheduler := sv.nextScheduler
  nextBackend := sv.nextBackend

/-- What `LoadModels` is told is what the repository holds, and the step does not leave it. -/
def Obeys (repo : Repository) (sv : Server) (a : ServerAction) : Prop :=
  match a, sv.cycle with
  | .cycle (.list curModels), _ => curModels = repo.subDirs
  | .cycle (.scan config dirs), .scanning (name :: _) _ =>
    config = repo.config name ∧ dirs = repo.versionDirs name
  | .cycle (.load content), .adding ⟨load :: _,_,_⟩
  | .cycle (.load content), .updating ⟨_,load :: _,_⟩ => content = repo.config load.modelName
  | .updater .cycled, _ | .main .loaded, _ => False
  | _, _ => True

/-- What is left of `LoadModels` at a place in it, done at once. -/
def remaining (repo : Repository) (reg : Registry) : CyclePc → Option Registry
  | .listing => (reg.loadModels repo).map Prod.fst
  | .marking curModels =>
    (repo.scan reg.modelMap curModels ⟨[],[],deletedModels reg.modelMap curModels⟩).map fun lists =>
      (reg.adds repo lists).1
  | .scanning rest lists => (repo.scan reg.modelMap rest lists).map fun lists =>
      (reg.adds repo lists).1
  | .checking load rest lists =>
    (classify reg.modelMap load.modelName load.modelVersion).bind fun change =>
      (repo.scan reg.modelMap rest (lists.record load change)).map fun lists =>
        (reg.adds repo lists).1
  | .adding lists | .rejecting _ lists => some (reg.adds repo lists).1
  | .constructing info name lists => info.backend.map fun b =>
      (((reg.construct b).insert name ⟨reg.nextScheduler,some info⟩).1.adds repo lists).1
  | .starting context name lists | .spawning context name lists =>
    some ((reg.insert name context).1.adds repo lists).1
  | .updating lists | .resetting _ lists => some (reg.updates repo lists).1
  | .locking info name lists | .installing info name lists =>
    some ((reg.install name info).1.updates repo lists).1
  | .swapping info name lists => (reg.modelMap.lookup name).map fun context =>
      (Registry.updates repo { reg with
        modelMap := reg.modelMap.insert name { context with backendInfo := some info } } lists).1
  | .deleting lists | .tearing _ lists => some (reg.deletes lists.deleted).1
  | .idle | .finished => some reg

theorem registry_setScheduler (sv : Server) (k : Nat) (sc : Scheduler Payload Nat) :
    (sv.setScheduler k sc).registry =
      { sv.registry with inferFuncs := Function.update sv.registry.inferFuncs k sc.inferFunc } := by
  have funcs : (fun j => (Function.update sv.schedulers k sc j).inferFunc) =
      Function.update (fun j => (sv.schedulers j).inferFunc) k sc.inferFunc := by
    funext j
    exact Function.apply_update (fun _ => Scheduler.inferFunc) sv.schedulers k sc j
  simp only [registry,setScheduler,funcs]

/-- A scheduler's step that binds nothing. -/
theorem registry_sameFunc {k : Nat} {sc : Scheduler Payload Nat}
    (same : sc.inferFunc = (sv.schedulers k).inferFunc) :
    (sv.setScheduler k sc).registry = sv.registry := by
  rw [registry_setScheduler,same]
  simp only [registry]
  congr 1
  exact Function.update_eq_self k fun j => (sv.schedulers j).inferFunc

theorem teardown_registry {t : Teardown} {a : TeardownAction} {left : Option Teardown}
    (taken : TeardownStep sv t a sv' left) : sv'.registry = sv.registry := by
  cases taken with
  | release | destroy => rfl
  | stop _ stepped | wind _ _ stepped => exact registry_sameFunc (control_bound stepped).1

section Lines

variable (reg : Registry) {load : ModelLoadInfo} {name : String} {context : ModelRunContext}
  {info : BackendInfo} {added updated rest : List ModelLoadInfo} {deleted : List String}
  {lists : StateUpdate}

/-! The scan of the repository. -/

theorem remaining_skip {dirs : List String} (unversioned : repo.version? name = none) :
    remaining repo reg (.scanning dirs lists) =
      remaining repo reg (.scanning (name :: dirs) lists) := by
  simp only [remaining,Repository.scan,unversioned]

theorem remaining_found {dirs : List String} {version : Int}
    (highest : repo.version? name = some version) :
    remaining repo reg (.checking ⟨name,version⟩ dirs lists) =
      remaining repo reg (.scanning (name :: dirs) lists) := by
  simp only [remaining,Repository.scan,highest,Option.map_bind]
  rfl

theorem remaining_check {dirs : List String} {change : Change}
    (classified : classify reg.modelMap load.modelName load.modelVersion = some change) :
    remaining repo reg (.scanning dirs (lists.record load change)) =
      remaining repo reg (.checking load dirs lists) := by
  simp only [remaining,classified,Option.bind_some]

/-! An added model. -/

theorem remaining_notAdded
    (failed : loadModel load (repo.config load.modelName) reg.nextBackend = none) :
    remaining repo reg (.adding ⟨rest,updated,deleted⟩) =
      remaining repo reg (.adding ⟨load :: rest,updated,deleted⟩) := by
  simp only [remaining,Registry.adds_cons,Registry.add,failed]

theorem remaining_added {b : ModelBackend}
    (loaded : loadModel load (repo.config load.modelName) reg.nextBackend = some (info,some b)) :
    remaining repo { reg with nextBackend := reg.nextBackend + 1 }
        (.constructing info load.modelName ⟨rest,updated,deleted⟩) =
      remaining repo reg (.adding ⟨load :: rest,updated,deleted⟩) := by
  have owned := (loadModel_some loaded).2.2.1
  simp only [remaining,Registry.adds_cons,Registry.add,loaded,owned,Option.map_some]

theorem remaining_construct {b : Nat} (owned : info.backend = some b) :
    remaining repo (reg.construct b) (.starting ⟨reg.nextScheduler,some info⟩ name lists) =
      remaining repo reg (.constructing info name lists) := by
  simp only [remaining,owned,Option.map_some]

theorem remaining_insert (absent : name ∉ reg.modelMap) :
    remaining repo { reg with modelMap := reg.modelMap.insert name context } (.adding lists) =
      remaining repo reg (.spawning context name lists) := by
  simp only [remaining,Registry.insert,if_neg absent]

theorem remaining_reject (present : name ∈ reg.modelMap) (t : Teardown) :
    remaining repo reg (.rejecting t lists) =
      remaining repo reg (.spawning context name lists) := by
  simp only [remaining,Registry.insert,if_pos present]

/-! An updated model. -/

theorem remaining_notUpdated
    (failed : loadModel load (repo.config load.modelName) reg.nextBackend = none) :
    remaining repo reg (.updating ⟨added,rest,deleted⟩) =
      remaining repo reg (.updating ⟨added,load :: rest,deleted⟩) := by
  simp only [remaining,Registry.updates_cons,Registry.update,failed]

theorem remaining_updated {b : ModelBackend}
    (loaded : loadModel load (repo.config load.modelName) reg.nextBackend = some (info,some b)) :
    remaining repo { reg with nextBackend := reg.nextBackend + 1 }
        (.locking info load.modelName ⟨added,rest,deleted⟩) =
      remaining repo reg (.updating ⟨added,load :: rest,deleted⟩) := by
  simp only [remaining,Registry.updates_cons,Registry.update,loaded]

theorem remaining_missing (absent : reg.modelMap.lookup name = none) :
    remaining repo reg (.resetting info lists) = remaining repo reg (.locking info name lists) := by
  simp only [remaining,Registry.install,absent]

theorem remaining_install {b : Nat} (present : reg.modelMap.lookup name = some context)
    (owned : info.backend = some b) :
    remaining repo { reg with inferFuncs := Function.update reg.inferFuncs context.scheduler b }
        (.swapping info name lists) =
      remaining repo reg (.installing info name lists) := by
  simp only [remaining,Registry.install,present,owned,Option.map_some]

theorem remaining_swap (present : reg.modelMap.lookup name = some context) :
    remaining repo { reg with
        modelMap := reg.modelMap.insert name { context with backendInfo := some info } }
        (.resetting context.backendInfo lists) =
      remaining repo reg (.swapping info name lists) := by
  simp only [remaining,present,Option.map_some]

/-! A deleted model. -/

theorem remaining_gone {names : List String} (absent : reg.modelMap.lookup name = none) :
    remaining repo reg (.deleting ⟨added,updated,names⟩) =
      remaining repo reg (.deleting ⟨added,updated,name :: names⟩) := by
  simp only [remaining,Registry.deletes_cons,Registry.delete,absent]

theorem remaining_erase {names : List String} (present : reg.modelMap.lookup name = some context)
    (t : Teardown) :
    remaining repo { reg with modelMap := reg.modelMap.erase name }
        (.tearing t ⟨added,updated,names⟩) =
      remaining repo reg (.deleting ⟨added,updated,name :: names⟩) := by
  simp only [remaining,Registry.deletes_cons,Registry.delete,present]

end Lines

theorem registry_construct (sv : Server) (b : Nat) :
    registry { sv.setScheduler sv.nextScheduler (.create sv.config.maxQueueSize
        (toInt32 (sv.backends b).object.getInstanceNum) b) with
        nextScheduler := sv.nextScheduler + 1 } = sv.registry.construct b := by
  have same := registry_setScheduler sv sv.nextScheduler (.create sv.config.maxQueueSize
    (toInt32 (sv.backends b).object.getInstanceNum) b)
  simp only [registry,Registry.mk.injEq] at same
  simp only [registry,Registry.construct,same]
  rfl

theorem version?_none {name : String}
    (nothing : repo.config name = none ∨ getHighestVersion (repo.versionDirs name) = -1) :
    repo.version? name = none := by
  unfold Repository.version?
  split
  · rfl
  next there =>
    rw [there] at nothing
    exact if_pos (nothing.resolve_left (by simp))

theorem version?_some {name : String} {config : ModelConfig} (there : repo.config name = some config)
    (valid : getHighestVersion (repo.versionDirs name) ≠ -1) :
    repo.version? name = some (getHighestVersion (repo.versionDirs name)) := by
  rw [Repository.version?,there]
  exact if_neg valid

/-- A line of `LoadModels` leaves what is left of it as it is. -/
theorem cycle_remaining {a : CycleAction} (taken : CycleStep sv a sv')
    (obeys : Obeys repo sv (.cycle a)) :
    remaining repo sv'.registry sv'.cycle = remaining repo sv.registry sv.cycle := by
  cases taken with
  | @list curModels pc =>
    obtain rfl : curModels = repo.subDirs := by simpa [Obeys] using obeys
    rw [pc]
    simp only [remaining,Registry.loadModels,Repository.getModelStateUpdate,Option.map_map]
    rfl
  | mark pc | scanned pc | allAdded pc | lock pc | allUpdated pc | allDeleted pc => rw [pc]; rfl
  | skip pc nothing =>
    simp only [Obeys,pc] at obeys
    obtain ⟨rfl,rfl⟩ := obeys
    rw [pc]
    exact remaining_skip sv.registry (version?_none nothing)
  | found pc valid =>
    simp only [Obeys,pc] at obeys
    obtain ⟨there,rfl⟩ := obeys
    rw [pc]
    exact remaining_found sv.registry (version?_some there.symm valid)
  | check pc _ classified =>
    rw [pc]
    exact remaining_check sv.registry classified
  | notAdded pc failed =>
    simp only [Obeys,pc] at obeys
    subst obeys
    rw [pc]
    exact remaining_notAdded sv.registry failed
  | added pc loaded =>
    simp only [Obeys,pc] at obeys
    subst obeys
    rw [pc]
    exact remaining_added sv.registry loaded
  | @construct info name lists b pc owned =>
    rw [pc]
    exact (congrArg (fun reg => remaining repo reg (.starting ⟨sv.nextScheduler,some info⟩ name
      lists)) (registry_construct sv b)).trans (remaining_construct sv.registry owned)
  | @start context name lists sc pc stepped =>
    rw [pc]
    exact congrArg (fun reg => remaining repo reg (.spawning context name lists))
      (registry_sameFunc (control_bound stepped).1)
  | @spawn context name lists sc pc stepped =>
    exact congrArg (fun reg => remaining repo reg sv.cycle)
      (registry_sameFunc (control_bound stepped).1)
  | insert pc _ _ absent =>
    rw [pc]
    exact remaining_insert sv.registry absent
  | reject pc _ _ present =>
    rw [pc]
    exact remaining_reject sv.registry present _
  | notUpdated pc failed =>
    simp only [Obeys,pc] at obeys
    subst obeys
    rw [pc]
    exact remaining_notUpdated sv.registry failed
  | updated pc loaded =>
    simp only [Obeys,pc] at obeys
    subst obeys
    rw [pc]
    exact remaining_updated sv.registry loaded
  | missing pc _ absent =>
    rw [pc]
    exact remaining_missing sv.registry absent
  | @install info name lists context b pc present owned =>
    have bound : registry { sv.setScheduler context.scheduler
        ((sv.schedulers context.scheduler).updateBackendInferFunc b) with
        cycle := .swapping info name lists } = { sv.registry with
          inferFuncs := Function.update sv.registry.inferFuncs context.scheduler b } :=
      registry_setScheduler sv _ _
    rw [bound,pc]
    exact remaining_install sv.registry present owned
  | swap pc present =>
    rw [pc]
    exact remaining_swap sv.registry present
  | @reset info lists pc =>
    have same : (sv.release info .update).registry = sv.registry := rfl
    rw [pc]
    exact congrArg (fun reg => some (reg.updates repo lists).1) same
  | gone pc _ absent =>
    rw [pc]
    exact remaining_gone sv.registry absent
  | erase pc _ present =>
    rw [pc]
    exact remaining_erase sv.registry present _
  | @rejecting _ lists _ _ _ pc step | @rejected _ lists _ _ pc step =>
    rw [pc]
    exact congrArg (fun reg => some (reg.adds repo lists).1) (teardown_registry step)
  | @tearing _ lists _ _ _ pc step | @torn _ lists _ _ pc step =>
    rw [pc]
    exact congrArg (fun reg => some (reg.deletes lists.deleted).1) (teardown_registry step)

/-- A step of any thread leaves what is left of `LoadModels` as it is. -/
theorem step_remaining {a : ServerAction} (reach : (machine config).Reachable sv)
    (busy : sv.cycle ≠ .idle) (obeys : Obeys repo sv a) (taken : sv.step a = some sv') :
    sv'.cycle ≠ .idle ∧
    remaining repo sv'.registry sv'.cycle = remaining repo sv.registry sv.cycle := by
  have exclusive := reachable_exclusive reach
  have same (registry : sv'.registry = sv.registry) (cycle : sv'.cycle = sv.cycle) :
      sv'.cycle ≠ .idle ∧
      remaining repo sv'.registry sv'.cycle = remaining repo sv.registry sv.cycle := by
    rw [registry,cycle]
    exact ⟨busy,rfl⟩
  have ofStore (store : sv'.store = sv.store) : sv'.registry = sv.registry :=
    congrArg (fun s : Store => (⟨s.modelMap,fun k => (s.faces k).inferFunc,s.nextScheduler,
      s.nextBackend⟩ : Registry)) store
  -- The cycle belongs to `Start` or to the refresh thread, and `Stop` is alone.
  have noStop {pc : MainPc} (here : sv.main = pc) (alone : pc.alone = true) (other : pc ≠ .loading) :
      False := by
    have absent := exclusive.alone (by rw [here]; exact alone)
    exact busy (exclusive.idle (by rw [here]; exact other) (by simp [absent]))
  cases a with
  | caller c a =>
    have step := callerStep_cases taken
    refine same (ofStore (caller_store step)) ?_
    obtain ⟨_,_,_,rfl⟩ := caller_frame step
    rfl
  | status c a =>
    obtain ⟨_,rfl⟩ := status_frame taken
    exact same rfl rfl
  | health c a =>
    obtain ⟨_,rfl⟩ := health_frame taken
    exact same rfl rfl
  | worker k w a =>
    have step := workerStep_effect taken
    refine same (ofStore (worker_store step)) ?_
    obtain ⟨_,_,rfl⟩ := worker_frame step
    rfl
  | cycle a =>
    have step := cycleStep_cases taken
    exact ⟨cycle_busy step,cycle_remaining step obeys⟩
  | main a =>
    cases mainStep_cases taken with
    | startAgain | stop | notify | join | lock | unlock => exact same rfl rfl
    | start ready halted =>
      have idle := exclusive.idle (fun loading => by simp [loading,MainPc.ready] at ready)
        (by simp [exclusive.stopped ready halted])
      exact absurd idle busy
    | loaded => simp [Obeys] at obeys
    | clear here => exact (noStop here rfl (by simp)).elim
    | tearing here | torn here => exact (noStop here rfl (by simp)).elim
  | updater a =>
    cases updaterStep_cases taken with
    | refresh here =>
      have idle := exclusive.idle (fun loading => by
        simp [exclusive.alone (by simp [loading,MainPc.alone])] at here) (by simp [here])
      exact absurd idle busy
    | cycled => simp [Obeys] at obeys
    | _ => exact same rfl rfl

/-- From the listing to its end, whatever the other threads do meanwhile, `LoadModels`
makes of the map what one call of it makes. -/
theorem cycle_refines_loadModels (reach : (machine config).Reachable sv)
    (listing : sv.cycle = .listing)
    (run : Transition.Machine.ReachableBy (⟨sv,step⟩ : Transition.Machine Server ServerAction)
      (Obeys repo) sv') (finished : sv'.cycle = .finished) :
    ∃ reports, sv.registry.loadModels repo = some (sv'.registry,reports) := by
  have kept : (machine config).Reachable sv' ∧ sv'.cycle ≠ .idle ∧
      remaining repo sv'.registry sv'.cycle = remaining repo sv.registry sv.cycle := by
    refine run.invariant (P := fun sv' => (machine config).Reachable sv' ∧ sv'.cycle ≠ .idle ∧
      remaining repo sv'.registry sv'.cycle = remaining repo sv.registry sv.cycle)
      ⟨reach,by simp [listing],rfl⟩ ?_
    rintro sv₁ a sv₂ _ ⟨reach₁,busy,equal⟩ obeys taken
    obtain ⟨busy',equal'⟩ := step_remaining reach₁ busy obeys taken
    exact ⟨.step reach₁ taken,busy',equal'.trans equal⟩
  obtain ⟨_,_,equal⟩ := kept
  rw [listing,finished] at equal
  simp only [remaining] at equal
  obtain ⟨⟨reg,reports⟩,loaded,same⟩ := Option.map_eq_some_iff.mp equal.symm
  exact ⟨reports,by rw [loaded,← same]⟩

theorem reachable_registry (reach : (machine config).Reachable sv) : sv.registry.Valid := by
  have sane := (reachable_valid reach).sane
  constructor
  · intro name context present
    obtain ⟨_,_,info,_,owned,_⟩ := sane.entry name context present
    exact Option.isSome_iff_exists.mpr ⟨info,owned⟩
  · exact sane.distinct
  · intro name context present
    obtain ⟨held,_⟩ := sane.entry name context present
    exact held.created

/-- A refresh of a running server reconciles its map with the repository. -/
theorem cycle_reconciles (reach : (machine config).Reachable sv) (listing : sv.cycle = .listing)
    (run : Transition.Machine.ReachableBy (⟨sv,step⟩ : Transition.Machine Server ServerAction)
      (Obeys repo) sv') (finished : sv'.cycle = .finished) (name : String) :
    Registry.Reconciled repo sv.registry sv'.registry name := by
  obtain ⟨reports,loaded⟩ := cycle_refines_loadModels reach listing run finished
  obtain ⟨lists,computed,listed⟩ :=
    Repository.getModelStateUpdate_listed repo (reachable_registry reach).owned
  have applied := Registry.adds_applied (reachable_registry reach) listed
  rw [Registry.loadModels,computed,Option.map_some,Option.some.injEq] at loaded
  rw [loaded] at applied
  exact Registry.applied_reconciled listed applied name

end Server
end InferenceServer
