import InferenceServer.CycleRefinement
import InferenceServer.Shutdown

/-! Refreshes of a repository that no longer changes: the first one brings the map to where it
belongs, and no later one, at no point of it, changes anything. -/
namespace InferenceServer

/-- `LoadModels` finds nothing to remove, and nothing to load that would load. -/
structure Stable (repo : Repository) (map : ModelMap) : Prop where
  listed : ∀ name ∈ map, name ∈ repo.subDirs
  current : ∀ name v, name ∈ repo.subDirs → repo.version? name = some v →
    repo.loads name v = true → ∃ context info, map.lookup name = some context ∧
      context.backendInfo = some info ∧ info.modelVersion = v

structure Fruitless (repo : Repository) (lists : StateUpdate) : Prop where
  added : ∀ load ∈ lists.added, repo.loads load.modelName load.modelVersion = false
  updated : ∀ load ∈ lists.updated, repo.loads load.modelName load.modelVersion = false
  deleted : lists.deleted = []

variable {repo : Repository}

theorem stable_of_reconciled {reg reg' : Registry} (valid : reg.Valid)
    (reconciled : ∀ name, Registry.Reconciled repo reg reg' name) : Stable repo reg'.modelMap := by
  constructor
  · intro name member
    by_contra absent
    have removed := Registry.entry_none.mp ((reconciled name).removed absent)
    exact AList.lookup_eq_none.mp removed member
  · intro name v here version loads
    exact Registry.reconciled_current valid (reconciled name) here version loads

theorem Stable.deleted {map : ModelMap} (stable : Stable repo map) :
    deletedModels map repo.subDirs = [] := by
  apply List.filter_eq_nil_iff.mpr
  intro name member
  simpa using stable.listed name (AList.mem_keys.mpr member)

theorem Stable.recorded {map : ModelMap} (stable : Stable repo map) {load : ModelLoadInfo}
    {lists : StateUpdate} {change : Change} (here : load.modelName ∈ repo.subDirs)
    (version : repo.version? load.modelName = some load.modelVersion)
    (classified : classify map load.modelName load.modelVersion = some change)
    (fruitless : Fruitless repo lists) : Fruitless repo (lists.record load change) := by
  have fails (other : change ≠ .none) : repo.loads load.modelName load.modelVersion = false := by
    by_contra loads
    obtain ⟨context,info,present,owned,same⟩ :=
      stable.current _ _ here version (by simpa using loads)
    simp only [classify,present,owned,same,Option.map_some,Option.some.injEq,ne_eq,not_true,
      if_false] at classified
    exact other classified.symm
  obtain ⟨added,updated,deleted⟩ := fruitless
  cases change with
  | none => exact ⟨added,updated,deleted⟩
  | added =>
    refine ⟨fun x member => ?_,updated,deleted⟩
    rcases List.mem_append.mp member with old | new
    · exact added x old
    · rw [List.mem_singleton.mp new]
      exact fails (by simp)
  | updated =>
    refine ⟨added,fun x member => ?_,deleted⟩
    rcases List.mem_append.mp member with old | new
    · exact updated x old
    · rw [List.mem_singleton.mp new]
      exact fails (by simp)

namespace Server

variable {config : ServerConfig} {sv sv' : Server}

/-- What `LoadModels` is told is what the repository holds, and `Stop` is not called. -/
def Steady (repo : Repository) (sv : Server) (a : ServerAction) : Prop :=
  a ≠ .main .stop ∧ (Obeys repo sv a ∨ a = .updater .cycled ∨ a = .main .loaded)

def CalmCycle (repo : Repository) : CyclePc → Prop
  | .idle | .listing | .finished => True
  | .marking curModels => curModels = repo.subDirs
  | .scanning rest lists => rest ⊆ repo.subDirs ∧ Fruitless repo lists
  | .checking load rest lists => load.modelName ∈ repo.subDirs ∧
      repo.version? load.modelName = some load.modelVersion ∧ rest ⊆ repo.subDirs ∧
      Fruitless repo lists
  | .adding lists | .updating lists | .deleting lists => Fruitless repo lists
  | _ => False

structure Calm (repo : Repository) (sv : Server) : Prop where
  stable : Stable repo sv.modelMap
  cycle : CalmCycle repo sv.cycle
  staying : sv.main.stopping = false

/-- `LoadModel` of an entry of the lists returns null. -/
theorem load_fails {load : ModelLoadInfo} {fresh : Nat} {loaded : BackendInfo × Option ModelBackend}
    (fails : repo.loads load.modelName load.modelVersion = false)
    (loads : loadModel load (repo.config load.modelName) fresh = some loaded) : False := by
  rw [Repository.loads_eq repo load fresh,loads] at fails
  contradiction

theorem cycle_calm {a : CycleAction} (taken : CycleStep sv a sv') (obeys : Obeys repo sv (.cycle a))
    (calm : Calm repo sv) : CalmCycle repo sv'.cycle ∧ sv'.registry = sv.registry := by
  have cycle := calm.cycle
  cases taken with
  | @list cur pc =>
    obtain rfl : cur = repo.subDirs := by simpa [Obeys] using obeys
    exact ⟨rfl,rfl⟩
  | mark pc =>
    rw [pc] at cycle
    obtain rfl := cycle
    exact ⟨⟨List.Subset.refl _,by simp,by simp,calm.stable.deleted⟩,rfl⟩
  | skip pc =>
    rw [pc] at cycle
    exact ⟨⟨List.Subset.trans (List.subset_cons_self _ _) cycle.1,cycle.2⟩,rfl⟩
  | @found name rest lists config dirs pc valid =>
    rw [pc] at cycle
    simp only [Obeys,pc] at obeys
    obtain ⟨there,rfl⟩ := obeys
    obtain ⟨inside,fruitless⟩ := cycle
    have version : repo.version? name = some (getHighestVersion (repo.versionDirs name)) := by
      rw [Repository.version?,← there]
      exact if_neg valid
    exact ⟨⟨inside (List.mem_cons_self ..),version,
      List.Subset.trans (List.subset_cons_self _ _) inside,fruitless⟩,rfl⟩
  | check pc _ classified =>
    rw [pc] at cycle
    obtain ⟨here,version,inside,fruitless⟩ := cycle
    exact ⟨⟨inside,calm.stable.recorded here version classified fruitless⟩,rfl⟩
  | scanned pc =>
    rw [pc] at cycle
    exact ⟨cycle.2,rfl⟩
  | notAdded pc =>
    rw [pc] at cycle
    obtain ⟨added,updated,deleted⟩ := cycle
    exact ⟨⟨fun x member => added x (List.mem_cons_of_mem _ member),updated,deleted⟩,rfl⟩
  | added pc loads =>
    rw [pc] at cycle
    simp only [Obeys,pc] at obeys
    subst obeys
    exact (load_fails (cycle.added _ (List.mem_cons_self ..)) loads).elim
  | notUpdated pc =>
    rw [pc] at cycle
    obtain ⟨added,updated,deleted⟩ := cycle
    exact ⟨⟨added,fun x member => updated x (List.mem_cons_of_mem _ member),deleted⟩,rfl⟩
  | updated pc loads =>
    rw [pc] at cycle
    simp only [Obeys,pc] at obeys
    subst obeys
    exact (load_fails (cycle.updated _ (List.mem_cons_self ..)) loads).elim
  | allAdded pc | allUpdated pc =>
    rw [pc] at cycle
    exact ⟨cycle,rfl⟩
  | gone pc | erase pc =>
    rw [pc] at cycle
    exact absurd cycle.deleted (by simp)
  | allDeleted pc => exact ⟨trivial,rfl⟩
  | construct pc | start pc | spawn pc | insert pc | reject pc | rejecting pc | rejected pc
  | missing pc | lock pc | install pc | swap pc | reset pc | tearing pc | torn pc =>
    rw [pc] at cycle
    exact cycle.elim

theorem registry_of_store (store : sv'.store = sv.store) : sv'.registry = sv.registry :=
  congrArg (fun s : Store => (⟨s.modelMap,fun k => (s.faces k).inferFunc,s.nextScheduler,
    s.nextBackend⟩ : Registry)) store

theorem step_calm {a : ServerAction} (steady : Steady repo sv a) (taken : sv.step a = some sv')
    (calm : Calm repo sv) : Calm repo sv' ∧ sv'.registry = sv.registry := by
  obtain ⟨stays,reads⟩ := steady
  have same (registry : sv'.registry = sv.registry) (cycle : CalmCycle repo sv'.cycle)
      (main : sv'.main.stopping = false) : Calm repo sv' ∧ sv'.registry = sv.registry := by
    have map : sv'.modelMap = sv.modelMap := congrArg Registry.modelMap registry
    exact ⟨⟨map ▸ calm.stable,cycle,main⟩,registry⟩
  cases a with
  | caller c a =>
    have step := callerStep_cases taken
    have registry := registry_of_store (caller_store step)
    obtain ⟨_,_,_,rfl⟩ := caller_frame step
    exact same registry calm.cycle calm.staying
  | status c a =>
    obtain ⟨_,rfl⟩ := status_frame taken
    exact same rfl calm.cycle calm.staying
  | health c a =>
    obtain ⟨_,rfl⟩ := health_frame taken
    exact same rfl calm.cycle calm.staying
  | worker k w a =>
    have step := workerStep_effect taken
    have registry := registry_of_store (worker_store step)
    obtain ⟨_,_,rfl⟩ := worker_frame step
    exact same registry calm.cycle calm.staying
  | cycle a =>
    have step := cycleStep_cases taken
    obtain ⟨cycle,registry⟩ := cycle_calm step (reads.resolve_right (by simp)) calm
    obtain ⟨_,_,_,_,main,_⟩ := cycle_frame step
    exact same registry cycle (main ▸ calm.staying)
  | main a =>
    have staying := calm.staying
    cases mainStep_cases taken with
    | startAgain => exact same rfl calm.cycle rfl
    | start => exact same rfl trivial rfl
    | loaded => exact same rfl trivial rfl
    | stop => exact absurd rfl stays
    | notify here | join here | lock here | clear here | tearing here | torn here | unlock here =>
      simp [here,MainPc.stopping] at staying
  | updater a =>
    cases updaterStep_cases taken with
    | refresh | cycled => exact same rfl trivial calm.staying
    | _ => exact same rfl calm.cycle calm.staying

theorem run_calm (calm : Calm repo sv)
    (run : Transition.Machine.ReachableBy (⟨sv,step⟩ : Transition.Machine Server ServerAction)
      (Steady repo) sv') : Calm repo sv' ∧ sv'.registry = sv.registry := by
  refine run.invariant (P := fun sv' => Calm repo sv' ∧ sv'.registry = sv.registry) ⟨calm,rfl⟩ ?_
  rintro sv₁ a sv₂ _ ⟨calm₁,same⟩ steady taken
  obtain ⟨calm₂,same₂⟩ := step_calm steady taken calm₁
  exact ⟨calm₂,same₂.trans same⟩

/-- The end of a cycle is calm, unless a `Stop` is waiting for it. -/
theorem finished_calm {mid : Server} (reach : (machine config).Reachable sv)
    (listing : sv.cycle = .listing)
    (first : Transition.Machine.ReachableBy (⟨sv,step⟩ : Transition.Machine Server ServerAction)
      (Obeys repo) mid) (finished : mid.cycle = .finished) (staying : mid.main.stopping = false) :
    Calm repo mid := by
  have reconciled := cycle_reconciles reach listing first finished
  exact ⟨stable_of_reconciled (reachable_registry reach) reconciled,finished ▸ trivial,staying⟩

/-- Refreshing converges in one cycle: once a cycle over a repository has come to its end, and as
long as the repository stays as it is and nobody calls `Stop`, no state the server gets into, in
the midst of further cycles or between them, has a map, a binding of a scheduler or a number of
backends created other than at that end, where every name was reconciled with the repository. -/
theorem refresh_converges {mid : Server} (reach : (machine config).Reachable sv)
    (listing : sv.cycle = .listing)
    (first : Transition.Machine.ReachableBy (⟨sv,step⟩ : Transition.Machine Server ServerAction)
      (Obeys repo) mid) (finished : mid.cycle = .finished) (staying : mid.main.stopping = false)
    (later : Transition.Machine.ReachableBy (⟨mid,step⟩ : Transition.Machine Server ServerAction)
      (Steady repo) sv') :
    sv'.registry = mid.registry ∧ ∀ name, Registry.Reconciled repo sv.registry sv'.registry name := by
  have calm := finished_calm reach listing first finished staying
  obtain ⟨_,same⟩ := run_calm calm later
  exact ⟨same,same ▸ cycle_reconciles reach listing first finished⟩

instance (repo : Repository) (sv : Server) (a : ServerAction) : Decidable (Obeys repo sv a) := by
  unfold Obeys
  split <;> infer_instance

instance (repo : Repository) (sv : Server) (a : ServerAction) : Decidable (Steady repo sv a) :=
  inferInstanceAs (Decidable (_ ∧ _))

def oneModel : Repository :=
  ⟨["m"],fun _ => some (cpuConfig 1),fun _ => ["1"],by decide⟩

def firstCycle : List ServerAction :=
  List.map ServerAction.cycle (loadRun "m" ["1"] 1 ++ [.construct,.start,.spawn,.spawn,.insert,.next,
    .next,.next])

def secondCycle : List ServerAction :=
  [.main .loaded,.updater .enter,.updater .test,.updater .timeout,.updater .decide,
    .cycle (.list ["m"]),.cycle .mark,.cycle (.scan (some (cpuConfig 1)) ["1"])]

theorem refreshed : ∃ started mid sv' : Server,
    (create ⟨true,4⟩).step (.main .start) = some started ∧
    Transition.Machine.ReachableBy (⟨started,step⟩ : Transition.Machine Server ServerAction)
      (Obeys oneModel) mid ∧ mid.cycle = .finished ∧ mid.main = .loading ∧
    Transition.Machine.ReachableBy (⟨mid,step⟩ : Transition.Machine Server ServerAction)
      (Steady oneModel) sv' ∧ sv'.cycle = .checking ⟨"m",1⟩ [] ⟨[],[],[]⟩ := by
  obtain ⟨started,start,_⟩ := Option.map_eq_some_iff.mp
    (show ((create ⟨true,4⟩).step (.main .start)).map (·.main) = some .loading from rfl)
  have first : ((Transition.Machine.restrict ⟨started,step⟩ (Obeys oneModel)).exec started
      firstCycle).map (fun sv => (sv.cycle,sv.main)) = some (.finished,.loading) := by
    cases start
    rfl
  obtain ⟨mid,run,seen⟩ := Option.map_eq_some_iff.mp first
  obtain ⟨finished,loading⟩ := Prod.mk.injEq .. ▸ seen
  have second : ((Transition.Machine.restrict ⟨mid,step⟩ (Steady oneModel)).exec mid
      secondCycle).map (·.cycle) = some (.checking ⟨"m",1⟩ [] ⟨[],[],[]⟩) := by
    cases start
    cases run
    rfl
  obtain ⟨sv',run',there⟩ := Option.map_eq_some_iff.mp second
  exact ⟨started,mid,sv',start,
    Transition.Machine.restrict_reachable (Transition.Machine.exec_reachable .start _ run),
    finished,loading,
    Transition.Machine.restrict_reachable (Transition.Machine.exec_reachable .start _ run'),there⟩

theorem refresh_converges_one : ∃ started mid sv' : Server,
    sv'.cycle = .checking ⟨"m",1⟩ [] ⟨[],[],[]⟩ ∧ sv'.registry = mid.registry ∧
    Registry.Reconciled oneModel started.registry sv'.registry "m" := by
  obtain ⟨started,mid,sv',start,first,finished,loading,later,there⟩ := refreshed
  have reach : (machine ⟨true,4⟩).Reachable started :=
    .step .start (show (machine ⟨true,4⟩).step (create ⟨true,4⟩) (.main .start) = some started from start)
  have listing : started.cycle = .listing := by
    cases start
    rfl
  have converged := refresh_converges reach listing first finished (by simp [loading,MainPc.stopping])
    later
  exact ⟨started,mid,sv',there,converged.1,converged.2 "m"⟩

/-- While `Start` loads the models it is not left, and nobody stops the server. -/
theorem loading_stays {mid : Server} (loading : sv.main = .loading)
    (run : Transition.Machine.ReachableBy (⟨sv,step⟩ : Transition.Machine Server ServerAction)
      (Obeys repo) mid) : mid.main = .loading := by
  refine run.invariant (P := fun sv => sv.main = .loading) loading ?_
  intro sv₁ a sv₂ _ here obeys taken
  have taken : sv₁.step a = some sv₂ := taken
  cases a with
  | caller | status | health | worker =>
    obtain ⟨_,_,_,_,_,_,rfl⟩ := outside_frame taken rfl
    exact here
  | cycle a =>
    obtain ⟨_,_,_,_,main,_⟩ := cycle_frame (cycleStep_cases taken)
    exact main.trans here
  | updater a => cases updaterStep_cases taken <;> exact here
  | main a =>
    cases mainStep_cases taken with
    | loaded => simp [Obeys] at obeys
    | startAgain ready | start ready | stop ready => simp [here,MainPc.ready] at ready
    | notify at' | join at' | lock at' | clear at' | tearing at' | torn at' | unlock at' =>
      simp [here] at at'

/-- After a `Start` of a server that does not run, and through all later refreshes, a name is
served with a version exactly if the repository lists it, that version is its highest, and the
model loads. -/
theorem start_serves {started mid : Server} (reach : (machine config).Reachable sv)
    (halted : sv.running = false) (start : sv.step (.main .start) = some started)
    (first : Transition.Machine.ReachableBy (⟨started,step⟩ : Transition.Machine Server ServerAction)
      (Obeys repo) mid) (finished : mid.cycle = .finished)
    (later : Transition.Machine.ReachableBy (⟨mid,step⟩ : Transition.Machine Server ServerAction)
      (Steady repo) sv') (name : String) (v : Int) :
    (∃ context info, sv'.modelMap.lookup name = some context ∧ context.backendInfo = some info ∧
      info.modelVersion = v) ↔
    name ∈ repo.subDirs ∧ repo.version? name = some v ∧ repo.loads name v = true := by
  have empty := (reachable_stopping reach).cleared
  have reach' : (machine config).Reachable started :=
    reach.step (show (machine config).step sv (.main .start) = some started from start)
  have taken : sv.mainStep .start = some started := start
  cases mainStep_cases taken with
  | startAgain _ running =>
    rw [running] at halted
    contradiction
  | start ready =>
  have loading := loading_stays rfl first
  have calm := finished_calm reach' rfl first finished (by simp [loading,MainPc.stopping])
  obtain ⟨calm',same⟩ := run_calm calm later
  have reconciled := cycle_reconciles reach' rfl first finished name
  rw [← same] at reconciled
  have unserved : sv.registry.entry name = none := by
    apply Registry.entry_none.mpr
    rw [AList.lookup_eq_none,AList.mem_keys]
    simp [registry,empty ready halted]
  constructor
  · rintro ⟨context,info,present,owned,rfl⟩
    have served : sv'.registry.entry name = some (context,(sv'.schedulers context.scheduler).inferFunc) := by
      rw [Registry.entry,show sv'.registry.modelMap.lookup name = some context from present]
      rfl
    by_cases here : name ∈ repo.subDirs
    · cases version : repo.version? name with
      | none =>
        have skipped := (reconciled.skipped here version).trans unserved
        rw [served] at skipped
        contradiction
      | some u =>
        have added := reconciled.added u here version unserved
        split at added
        next loads =>
          obtain ⟨k,_,info',b,now,_,same',_⟩ := added
          rw [served] at now
          cases now
          cases owned
          exact ⟨here,by rw [same'],same' ▸ loads⟩
        · rw [served] at added
          contradiction
    · have removed := reconciled.removed here
      rw [served] at removed
      contradiction
  · rintro ⟨here,version,loads⟩
    exact calm'.stable.current name v here version loads

theorem start_serves_one : ∃ sv' : Server, sv'.cycle = .checking ⟨"m",1⟩ [] ⟨[],[],[]⟩ ∧
    ∃ context info, sv'.modelMap.lookup "m" = some context ∧ context.backendInfo = some info ∧
      info.modelVersion = 1 := by
  obtain ⟨started,mid,sv',start,first,finished,_,later,there⟩ := refreshed
  have serves := start_serves (.start : (machine ⟨true,4⟩).Reachable _) rfl start first finished
    later "m" 1
  exact ⟨sv',there,serves.mpr ⟨by simp [oneModel],by decide,by decide⟩⟩

end Server
end InferenceServer
