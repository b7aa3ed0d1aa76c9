import InferenceServer.ServedModels

/-! `GetStatus` and its client: what the two sections of a call report, and what `ModelReady`
makes of it. -/
namespace InferenceServer

structure StatusRequest where
  modelName : String
  deriving DecidableEq, Repr

def readyState (map : ModelMap) : ServerReadyState :=
  if 0 < getNumberOfLiveModels map then .serverReady else .serverFailedToInitialize

/-- `GetStatus` with both of its sections on one map. The request is not read. -/
def getStatus (map : ModelMap) (_ : StatusRequest) : Option StatusResponse :=
  (getModelStatus map).map fun modelStatus => ⟨modelStatus,readyState map,.success⟩

theorem readyState_iff (map : ModelMap) : readyState map = .serverReady ↔ map.entries ≠ [] := by
  unfold readyState getNumberOfLiveModels
  cases map.entries <;> simp

theorem mapM_eq_nil {α β : Type} {f : α → Option β} {l : List α} {results : List β}
    (mapped : l.mapM f = some results) : results = [] ↔ l = [] := by
  cases l with
  | nil => simpa [eq_comm] using mapped
  | cons x rest =>
    simp only [List.mapM_cons,Option.bind_eq_bind,Option.bind_eq_some_iff] at mapped
    obtain ⟨_,_,_,_,same⟩ := mapped
    cases same
    simp

theorem modelStatus_empty {map : ModelMap} {modelStatus : List (String × ModelStatus)}
    (listed : getModelStatus map = some modelStatus) : modelStatus = [] ↔ map.entries = [] :=
  mapM_eq_nil listed

/-- A report on one map says ready exactly if it lists a model. -/
theorem getStatus_ready {map : ModelMap} {request : StatusRequest} {response : StatusResponse}
    (reported : getStatus map request = some response) :
    response.readyState = .serverReady ↔ response.modelStatus ≠ [] := by
  obtain ⟨modelStatus,listed,rfl⟩ := Option.map_eq_some_iff.mp reported
  exact (readyState_iff map).trans (modelStatus_empty listed).not.symm

namespace Server

variable {config : ServerConfig} {sv sv' : Server}

inductive StatusStep (sv : Server) (c : Nat) : StatusAction → StatusPc → Prop where
  | call : sv.statuses c = .outside → StatusStep sv c .call .collecting
  | collect {listed} : sv.statuses c = .collecting → sv.modelMapMu = none →
      getModelStatus sv.modelMap = some listed → StatusStep sv c .collect (.counting listed)
  | count {listed} : sv.statuses c = .counting listed → sv.modelMapMu = none →
      StatusStep sv c .count (.returned ⟨listed,readyState sv.modelMap,.success⟩)

theorem statusStep_cases {c : Nat} {a : StatusAction} (taken : sv.statusStep c a = some sv') :
    ∃ pc, StatusStep sv c a pc ∧ sv' = { sv with statuses := Function.update sv.statuses c pc } := by
  cases a with
  | call =>
    simp only [statusStep] at taken
    split at taken
    next pc => cases taken; exact ⟨_,.call pc,rfl⟩
    · contradiction
  | collect =>
    simp only [statusStep] at taken
    split at taken
    next pc =>
      split at taken
      next free =>
        obtain ⟨listed,here,rfl⟩ := Option.map_eq_some_iff.mp taken
        exact ⟨_,.collect pc free here,rfl⟩
      · contradiction
    · contradiction
  | count =>
    simp only [statusStep] at taken
    split at taken
    next listed pc =>
      split at taken
      next free => cases taken; exact ⟨_,.count pc free,rfl⟩
      · contradiction
    · contradiction

theorem step_statuses {a : ServerAction} {c : Nat} (taken : sv.step a = some sv')
    (other : ∀ b, a ≠ .status c b) : sv'.statuses c = sv.statuses c := by
  cases a with
  | status d b =>
    obtain ⟨pc,_,rfl⟩ := statusStep_cases taken
    exact Function.update_of_ne (fun same => other b (by rw [same])) _ _
  | caller d a =>
    obtain ⟨_,_,_,rfl⟩ := caller_frame (callerStep_cases taken)
    rfl
  | health d a =>
    obtain ⟨_,rfl⟩ := health_frame taken
    rfl
  | worker k w a =>
    obtain ⟨_,_,rfl⟩ := worker_frame (workerStep_effect taken)
    rfl
  | cycle a => exact congrFun (cycle_frame (cycleStep_cases taken)).2.2.2.2.2.2.2.1 c
  | main a =>
    cases mainStep_cases taken with
    | tearing _ step | torn _ step =>
      obtain ⟨_,_,_,rfl⟩ := teardown_frame step
      rfl
    | _ => rfl
  | updater a => cases updaterStep_cases taken <;> rfl

/-- The call of client `c` collected `listed` in the state `first` of the run. -/
def Collected (config : ServerConfig) (c : Nat) (actions : List ServerAction) (sv first : Server)
    (listed : List (String × ModelStatus)) : Prop :=
  ∃ before after, actions = before ++ after ∧
    (machine config).exec (machine config).start before = some first ∧
    (machine config).exec first after = some sv ∧
    first.statuses c = .collecting ∧ first.modelMapMu = none ∧
    getModelStatus first.modelMap = some listed

/-- And it read the number of live models in the later state `second`. -/
def Reported (config : ServerConfig) (c : Nat) (actions : List ServerAction) (sv first second : Server)
    (response : StatusResponse) : Prop :=
  ∃ before after, actions = before ++ after ∧
    Collected config c before second first response.modelStatus ∧
    (machine config).exec second after = some sv ∧
    second.statuses c = .counting response.modelStatus ∧ second.modelMapMu = none ∧
    response.readyState = readyState second.modelMap ∧ response.code = .success

theorem Collected.extend {c : Nat} {actions : List ServerAction} {first : Server}
    {listed : List (String × ModelStatus)} {a : ServerAction}
    (collected : Collected config c actions sv first listed) (taken : sv.step a = some sv') :
    Collected config c (actions ++ [a]) sv' first listed := by
  obtain ⟨before,after,rfl,run,rest,there⟩ := collected
  exact ⟨before,after ++ [a],List.append_assoc ..,run,
    Transition.Machine.exec_snoc.mpr ⟨sv,rest,taken⟩,there⟩

theorem Reported.extend {c : Nat} {actions : List ServerAction} {first second : Server}
    {response : StatusResponse} {a : ServerAction}
    (reported : Reported config c actions sv first second response)
    (taken : sv.step a = some sv') :
    Reported config c (actions ++ [a]) sv' first second response := by
  obtain ⟨before,after,rfl,collected,rest,there⟩ := reported
  exact ⟨before,after ++ [a],List.append_assoc ..,collected,
    Transition.Machine.exec_snoc.mpr ⟨sv,rest,taken⟩,there⟩

def Sectioned (config : ServerConfig) (c : Nat) (actions : List ServerAction) (sv : Server) :
    Prop :=
  match sv.statuses c with
  | .counting listed => ∃ first, Collected config c actions sv first listed
  | .returned response => ∃ first second, Reported config c actions sv first second response
  | _ => True

theorem exec_sectioned {actions : List ServerAction} {c : Nat}
    (run : (machine config).exec (machine config).start actions = some sv) :
    Sectioned config c actions sv := by
  refine Transition.Machine.exec_invariant (P := Sectioned config c)
    (by simp [Sectioned,machine,create]) ?_ run
  intro actions sv a sv' run valid taken
  by_cases mine : ∃ b, a = .status c b
  · obtain ⟨b,rfl⟩ := mine
    have single : (machine config).exec sv ([] ++ [.status c b]) = some sv' :=
      Transition.Machine.exec_snoc.mpr ⟨sv,rfl,taken⟩
    obtain ⟨pc,stepped,rfl⟩ := statusStep_cases taken
    unfold Sectioned at valid ⊢
    simp only [Function.update_self]
    cases stepped with
    | call => trivial
    | collect here free listed =>
      exact ⟨sv,actions,[_],rfl,run,single,here,free,listed⟩
    | count here free =>
      rw [here] at valid
      obtain ⟨first,collected⟩ := valid
      exact ⟨first,sv,actions,[_],rfl,collected,
        single,here,free,rfl,rfl⟩
  · have same := step_statuses taken fun b is => mine ⟨b,is⟩
    unfold Sectioned at valid ⊢
    rw [same]
    split
    next listed here =>
      rw [here] at valid
      obtain ⟨first,collected⟩ := valid
      exact ⟨first,collected.extend taken⟩
    next response here =>
      rw [here] at valid
      obtain ⟨first,second,reported⟩ := valid
      exact ⟨first,second,reported.extend taken⟩
    · trivial

/-- Some map during the call explains both parts of the report. -/
theorem describes_iff {c : Nat} {actions : List ServerAction} {first second : Server}
    {response : StatusResponse} (request : StatusRequest)
    (reported : Reported config c actions sv first second response) :
    getStatus first.modelMap request = some response ↔
      (first.modelMap.entries = [] ↔ second.modelMap.entries = []) := by
  obtain ⟨_,_,_,⟨_,_,_,_,_,_,_,listed⟩,_,_,_,ready,success⟩ := reported
  obtain ⟨modelStatus,state,code⟩ := response
  obtain rfl : state = readyState second.modelMap := ready
  obtain rfl : code = .success := success
  simp only [getStatus,listed,Option.map_some,Option.some.injEq,StatusResponse.mk.injEq,true_and,
    and_true]
  unfold readyState getNumberOfLiveModels
  cases first.modelMap.entries <;> cases second.modelMap.entries <;> simp

/-- A finished call listed the models of the map at a first moment and took the readiness from
the map at a later one, holding the mutex at neither end. The report is that of one map, and
says ready exactly if it lists a model, if and only if the map was empty at both moments or at
neither; in particular if it did not change between them. -/
theorem status_in_two_sections {config : ServerConfig} {actions : List ServerAction}
    {sv : Server} (run : (machine config).exec (machine config).start actions = some sv) (c : Nat)
    (response : StatusResponse) (answered : sv.statuses c = .returned response) :
    ∃ first second, Reported config c actions sv first second response ∧
      ((∃ map request, getStatus map request = some response) ↔
        (first.modelMap.entries = [] ↔ second.modelMap.entries = [])) ∧
      ((response.readyState = .serverReady ↔ response.modelStatus ≠ []) ↔
        (first.modelMap.entries = [] ↔ second.modelMap.entries = [])) ∧
      (first.modelMap = second.modelMap →
        ∀ request, getStatus first.modelMap request = some response) := by
  have sectioned := exec_sectioned (c := c) run
  unfold Sectioned at sectioned
  rw [answered] at sectioned
  obtain ⟨first,second,reported⟩ := sectioned
  have describes := describes_iff ⟨""⟩ reported
  have ready : (response.readyState = .serverReady ↔ response.modelStatus ≠ []) ↔
      (first.modelMap.entries = [] ↔ second.modelMap.entries = []) := by
    obtain ⟨_,_,_,⟨_,_,_,_,_,_,_,listed⟩,_,_,_,state,_⟩ := reported
    rw [state,readyState_iff,Ne,Ne,modelStatus_empty listed,not_iff_not]
    exact iff_comm
  refine ⟨first,second,reported,⟨?_,fun same => ⟨_,_,describes.mpr same⟩⟩,ready,
    fun same request => (describes_iff request reported).mpr (by rw [same])⟩
  rintro ⟨map,request,one⟩
  exact ready.mp (getStatus_ready one)

/-- The first model is added between the two sections: ready, with no model listed. -/
theorem report_of_no_map : ∃ (config : ServerConfig) (actions : List ServerAction) (sv : Server)
    (response : StatusResponse),
    (machine config).exec (machine config).start actions = some sv ∧
    sv.statuses 0 = .returned response ∧
    ¬(response.readyState = .serverReady ↔ response.modelStatus ≠ []) ∧
    ∀ map request, getStatus map request ≠ some response := by
  have seen : ((machine ⟨false,4⟩).exec (machine ⟨false,4⟩).start
      ([.status 0 .call,.status 0 .collect] ++ startRun "m" 1 ++ [.status 0 .count])).map
      (·.statuses 0) = some (.returned ⟨[],.serverReady,.success⟩) := rfl
  obtain ⟨sv,run,answered⟩ := Option.map_eq_some_iff.mp seen
  refine ⟨_,_,sv,_,run,answered,by simp,fun map request one => ?_⟩
  have ready := getStatus_ready one
  simp at ready

/-- The two maps of that call: the first empty, the second not. -/
theorem status_in_two_sections_started : ∃ (actions : List ServerAction) (sv : Server)
    (response : StatusResponse) (first second : Server),
    Reported ⟨false,4⟩ 0 actions sv first second response ∧ response.modelStatus = [] ∧
    first.modelMap.entries = [] ∧ second.modelMap.entries ≠ [] ∧
    ¬∃ map request, getStatus map request = some response := by
  have seen : ((machine ⟨false,4⟩).exec (machine ⟨false,4⟩).start
      ([.status 0 .call,.status 0 .collect] ++ startRun "m" 1 ++ [.status 0 .count])).map
      (·.statuses 0) = some (.returned ⟨[],.serverReady,.success⟩) := rfl
  obtain ⟨sv,run,answered⟩ := Option.map_eq_some_iff.mp seen
  obtain ⟨first,second,reported,one,ready,_⟩ := status_in_two_sections run 0 _ answered
  have differ : ¬(first.modelMap.entries = [] ↔ second.modelMap.entries = []) := by
    simpa using ready.not.mp (by simp)
  obtain ⟨_,_,_,⟨_,_,_,_,_,_,_,listed⟩,_⟩ := id reported
  have empty : first.modelMap.entries = [] := (modelStatus_empty listed).mp rfl
  exact ⟨_,sv,_,first,second,reported,rfl,empty,by simpa [empty] using differ,one.not.mpr differ⟩

end Server

/-- `StatusClient::ModelReady`; `stub` is the call, `none` if it fails or times out. -/
def modelReady (stub : StatusRequest → Option StatusResponse) (modelName : String) : Bool :=
  match stub ⟨modelName⟩ with
  | none => false
  | some response =>
    if response.code ≠ .success then false
    else if response.readyState ≠ .serverReady then false
    else true

def ReportedReady (map : ModelMap) (name : String) : Prop :=
  ∃ status state, getModelStatus map = some status ∧ (name,state) ∈ status ∧
    ∃ version, (version,.modelReady) ∈ state.versionStatus

theorem reportedReady_iff {map : ModelMap} (owned : Owned map) (name : String) :
    ReportedReady map name ↔ name ∈ map := by
  obtain ⟨status,listed,entries⟩ := getModelStatus_some owned
  constructor
  · rintro ⟨status',state,listed',member,_⟩
    obtain rfl : status = status' := Option.some.inj (listed.symm.trans listed')
    obtain ⟨context,_,present,_⟩ := (entries name state).mp member
    exact AList.lookup_isSome.mp (Option.isSome_of_eq_some present)
  · intro live
    obtain ⟨context,present⟩ := Option.isSome_iff_exists.mp (AList.lookup_isSome.mpr live)
    obtain ⟨info,there⟩ := Option.isSome_iff_exists.mp (owned name context present)
    exact ⟨status,_,listed,(entries name _).mpr ⟨context,info,present,there,rfl⟩,
      info.modelVersion,List.mem_singleton_self _⟩

/-- The answer to a request that names a model has the status of that model only, and that of
every model if the request names none. -/
def Specific (map : ModelMap) (request : StatusRequest) : Prop :=
  ∃ status response, getModelStatus map = some status ∧ getStatus map request = some response ∧
    ∀ entry, entry ∈ response.modelStatus ↔
      entry ∈ status ∧ (request.modelName = "" ∨ entry.1 = request.modelName)

/-- The request's name plays no part: all entries are listed. -/
theorem specific_iff {map : ModelMap} (owned : Owned map) (request : StatusRequest) :
    Specific map request ↔ request.modelName ≠ "" → ∀ name ∈ map, name = request.modelName := by
  obtain ⟨status,listed,entries⟩ := getModelStatus_some owned
  have all : getStatus map request = some ⟨status,readyState map,.success⟩ := by
    simp [getStatus,listed]
  constructor
  · rintro ⟨status',response,listed',answered,only⟩ named name live
    obtain rfl : status = status' := Option.some.inj (listed.symm.trans listed')
    obtain rfl := Option.some.inj (all.symm.trans answered)
    obtain ⟨context,present⟩ := Option.isSome_iff_exists.mp (AList.lookup_isSome.mpr live)
    obtain ⟨info,there⟩ := Option.isSome_iff_exists.mp (owned name context present)
    have member := (entries name _).mpr ⟨context,info,present,there,rfl⟩
    exact ((only _).mp member).2.resolve_left named
  · intro alone
    refine ⟨status,_,listed,all,fun entry => ⟨fun member => ⟨member,?_⟩,And.left⟩⟩
    by_cases named : request.modelName = ""
    · exact .inl named
    · obtain ⟨context,_,present,_⟩ := (entries entry.1 entry.2).mp member
      exact .inr (alone named _ (AList.lookup_isSome.mp (Option.isSome_of_eq_some present)))

theorem modelReady_iff {map : ModelMap} (owned : Owned map) (name : String) :
    modelReady (getStatus map) name = true ↔ map.entries ≠ [] := by
  obtain ⟨status,listed,_⟩ := getModelStatus_some owned
  simp [modelReady,getStatus,listed,← readyState_iff]

/-- Neither `GetStatus` nor `ModelReady` looks at the name asked for. The answer is that of
the named model alone, and `ModelReady` is right about it, exactly if no other model is live;
without a name in the request the answer is as promised, and `ModelReady` is right exactly if
no model is live or one of the empty name is. -/
theorem model_ready_iff_alone {map : ModelMap} (owned : Owned map) (name : String) :
    (Specific map ⟨name⟩ ∧ (modelReady (getStatus map) name = true ↔ ReportedReady map name) ↔
      (name ≠ "" → ∀ other ∈ map, other = name) ∧ (map.entries = [] ∨ name ∈ map)) ∧
    (Specific map ⟨name⟩ ↔ name ≠ "" → ∀ other ∈ map, other = name) ∧
    ((modelReady (getStatus map) name = true ↔ ReportedReady map name) ↔
      map.entries = [] ∨ name ∈ map) := by
  have specific := specific_iff owned ⟨name⟩
  have ready : (modelReady (getStatus map) name = true ↔ ReportedReady map name) ↔
      map.entries = [] ∨ name ∈ map := by
    rw [modelReady_iff owned,reportedReady_iff owned]
    constructor
    · intro right
      by_cases empty : map.entries = []
      · exact .inl empty
      · exact .inr (right.mp empty)
    · rintro (empty | live)
      · simp [empty,AList.mem_keys,AList.keys]
      · refine ⟨fun _ => live,fun _ empty => ?_⟩
        simp [AList.mem_keys,AList.keys,empty] at live
  exact ⟨and_congr specific ready,specific,ready⟩

def oneModel : ModelMap :=
  (∅ : ModelMap).insert "n" ⟨0,some ⟨"n",1,.demo,⟨"demo",[]⟩,some 0⟩⟩

theorem oneModel_owned : Owned oneModel := by
  intro name context present
  by_cases same : name = "n"
  · subst name
    rw [oneModel,AList.lookup_insert] at present
    cases present
    rfl
  · rw [oneModel,AList.lookup_insert_ne same] at present
    contradiction

/-- "m" is not live, and `ModelReady` says it is ready. -/
theorem absent_model_ready :
    ¬ReportedReady oneModel "m" ∧ modelReady (getStatus oneModel) "m" = true ∧
      ¬Specific oneModel ⟨"m"⟩ := by
  refine ⟨?_,rfl,?_⟩
  · rw [reportedReady_iff oneModel_owned]
    decide
  · rw [specific_iff oneModel_owned]
    intro alone
    have other := alone (by decide) "n" (by decide)
    contradiction

theorem model_ready_alone :
    Specific oneModel ⟨"n"⟩ ∧
      (modelReady (getStatus oneModel) "n" = true ↔ ReportedReady oneModel "n") := by
  refine (model_ready_iff_alone oneModel_owned "n").1.mpr ⟨fun _ other live => ?_,.inr (by decide)⟩
  rw [AList.mem_keys] at live
  exact List.mem_singleton.mp live

end InferenceServer
