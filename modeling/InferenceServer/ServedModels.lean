import InferenceServer.ServerSchedulers

/-! What holds of the entries of `model_map_` whenever its mutex is free. -/
namespace InferenceServer.Server

open Store

/-- With the mutex free no update is half done. -/
theorem settled_of_free {config : ServerConfig} {sv : Server}
    (reach : (machine config).Reachable sv) (free : sv.modelMapMu = none) :
    sv.cycle.pending = none := by
  have locked := reachable_locked reach
  unfold Locked at locked
  rw [free] at locked
  have unlocked : sv.cycle.locked ≠ true := locked.free .loader
  cases pc : sv.cycle with
  | swapping => simp [pc,CyclePc.locked] at unlocked
  | _ => rfl

/-- The backend an entry owns: the one its scheduler's function is bound to. -/
theorem entry_bound {config : ServerConfig} {sv : Server} (reach : (machine config).Reachable sv)
    (free : sv.modelMapMu = none) {name : String} {context : ModelRunContext}
    (present : sv.modelMap.lookup name = some context) :
    ∃ info b, context.backendInfo = some info ∧ Loaded sv.store info name b ∧
      (sv.schedulers context.scheduler).inferFunc = b := by
  have sane := (reachable_valid reach).sane
  rw [settled_of_free reach free] at sane
  exact sane.bound present

theorem reachable_owned {config : ServerConfig} {sv : Server}
    (reach : (machine config).Reachable sv) (free : sv.modelMapMu = none) : Owned sv.modelMap := by
  intro name context present
  obtain ⟨info,_,owned,_⟩ := entry_bound reach free present
  simp [owned]

/-- In every reachable state in which `model_map_mu_` is free, every entry agrees with its
backend on name and version, and its scheduler runs exactly that backend: so what
`GetModelStatus` lists for a model is the version that a worker calling then runs. -/
theorem reported_version_runs {config : ServerConfig} {sv : Server}
    (reach : (machine config).Reachable sv) (free : sv.modelMapMu = none) :
    (∀ name context, sv.modelMap.lookup name = some context →
      ∃ info b, context.backendInfo = some info ∧ info.backend = some b ∧
        info.modelName = name ∧ (sv.backends b).object.modelName = name ∧
        info.modelVersion = (sv.backends b).object.modelVersion ∧
        (sv.schedulers context.scheduler).inferFunc = b) ∧
    ∃ status, getModelStatus sv.modelMap = some status ∧
      (∀ name, (∃ state, (name,state) ∈ status) ↔ name ∈ sv.modelMap) ∧
      ∀ name state context, (name,state) ∈ status → sv.modelMap.lookup name = some context →
        ∀ w sv', sv.step (.worker context.scheduler w .call) = some sv' →
          ∃ idx p b, (sv'.schedulers context.scheduler).threads[w]? = some ⟨idx,.running p b⟩ ∧
            state = ⟨[((sv'.backends b).object.modelVersion,.modelReady)]⟩ := by
  have entries (name : String) (context : ModelRunContext)
      (present : sv.modelMap.lookup name = some context) := entry_bound reach free present
  constructor
  · intro name context present
    obtain ⟨info,b,owned,loaded,bound⟩ := entries name context present
    exact ⟨info,b,owned,loaded.owned,loaded.named,loaded.tagName,loaded.tagVersion.symm,bound⟩
  obtain ⟨status,listed,members⟩ := getModelStatus_some (reachable_owned reach free)
  refine ⟨status,listed,fun name => ⟨?_,?_⟩,?_⟩
  · rintro ⟨state,member⟩
    obtain ⟨context,_,present,_⟩ := (members name state).mp member
    exact AList.lookup_isSome.mp (by simp [present])
  · intro member
    obtain ⟨context,present⟩ := Option.isSome_iff_exists.mp (AList.lookup_isSome.mpr member)
    obtain ⟨info,_,owned,_⟩ := entries name context present
    exact ⟨_,(members name _).mpr ⟨context,info,present,owned,rfl⟩⟩
  · intro name state context member present w sv' taken
    obtain ⟨context',info,present',owned,rfl⟩ := (members name state).mp member
    obtain rfl : context = context' := Option.some.inj (present.symm.trans present')
    obtain ⟨info',b,owned',loaded,bound⟩ := entries name context present
    obtain rfl : info = info' := Option.some.inj (owned.symm.trans owned')
    have store := worker_store (workerStep_effect taken)
    have version : (sv'.backends b).object.modelVersion = info.modelVersion := by
      have same := congrArg (fun s => (s.tags b).modelVersion) store
      exact same.trans loaded.tagVersion
    cases workerStep_effect taken with
    | quiet _ other => contradiction
    | ret _ other => contradiction
    | call stepped =>
      obtain ⟨t,atIndex,cases⟩ := Scheduler.workerStep_cases stepped
      cases cases with
      | @call p f =>
        have bounded := (List.getElem?_eq_some_iff.mp atIndex).1
        refine ⟨t.idx,p,b,?_,by rw [version]⟩
        simp [setScheduler,Scheduler.setWorker,bounded,bound]

def cpuConfig (n : Nat) : ModelConfig := ⟨"demo",[⟨"cpu",.cpu,n,[]⟩]⟩

/-- `LoadModels` up to the end of `LoadModel`, for the one model there is. -/
def loadRun (name : String) (versions : List String) (n : Nat) : List CycleAction :=
  [.list [name],.mark,.scan (some (cpuConfig n)) versions,.check,.next,.load (some (cpuConfig n))]

/-- `Start` on a repository with one model, of version 1 and `n` instances. -/
def startRun (name : String) (n : Nat) : List ServerAction :=
  [.main .start] ++ List.map ServerAction.cycle (loadRun name ["1"] n ++ [.construct,.start] ++
    List.replicate (n + 1) .spawn ++ [.insert,.next,.next,.next]) ++ [.main .loaded]

/-- A request of caller `c` for the latest version, up to the return of `InferAsync`. -/
def submitRun (c : Nat) (name : String) : List ServerAction :=
  List.map (ServerAction.caller c) [.call name (-1),.lookup,.enqueue,.push none,.leave,.finish]

def workerRun (k : Nat) (actions : List WorkerAction) : List ServerAction :=
  List.map (ServerAction.worker k 0) actions

def stopRun : List ServerAction := List.map ServerAction.main [.stop,.notify,.join,.lock]

def teardownRun (actions : List TeardownAction) : List ServerAction :=
  actions.map fun a => .main (.teardown a)

theorem reported_version_runs_started : ∃ sv : Server, sv.modelMap.keys = ["m"] ∧
    ∃ status state, getModelStatus sv.modelMap = some status ∧ ("m",state) ∈ status := by
  obtain ⟨sv,reach,seen⟩ := Transition.Machine.exec_observed (m := machine ⟨true,4⟩)
    (startRun "m" 1) (fun sv => (sv.modelMapMu,sv.modelMap.keys)) (none,["m"]) rfl
  obtain ⟨free,keys⟩ := Prod.mk.injEq .. ▸ seen
  obtain ⟨_,status,listed,names,_⟩ := reported_version_runs reach free
  obtain ⟨state,member⟩ := (names "m").mpr (AList.mem_keys.mpr (by simp [keys]))
  exact ⟨sv,keys,status,state,listed,member⟩

end InferenceServer.Server
