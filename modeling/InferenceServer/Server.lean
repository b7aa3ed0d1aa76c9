import InferenceServer.ModelMap
import InferenceServer.SimpleScheduler

/-! The running server: `ModelManager` with its refresh thread, the schedulers it owns,
the callers of `InferAsync`, `GetStatus` and `GetHealth`, and the client that starts and
stops it, as one interleaving. A listing that throws ends the process and is not a step. -/
namespace InferenceServer

/-- `InferencePayload`; `id` is the caller of `InferAsync` that submits it. -/
structure Payload where
  id : Nat
  modelName : String
  modelVersion : Int
  deriving DecidableEq, Repr

inductive Holder where
  | caller (c : Nat)
  | loader
  | stopper
  deriving DecidableEq, Repr

/-- What destroyed a backend: the `reset` of an update, or its context's destructor. -/
inductive Release where
  | update
  | teardown (scheduler : Nat)
  deriving DecidableEq, Repr

structure BackendCell where
  object : ModelBackend
  released : Option Release

/-- A call on a destroyed backend, or with an index past its contexts, does not come back. -/
def BackendCell.returns (cell : BackendCell) (idx : Int) : Bool :=
  cell.released.isNone && decide (cell.object.runEntry idx ≠ .pastEnd)

/-- `~ModelRunContext`: members are destroyed in reverse order of declaration, so the
backend goes before `~SimpleScheduler` calls `Stop`. -/
inductive TeardownStage where
  | backendInfo
  | scheduler
  | stopping
  deriving DecidableEq, Repr

structure Teardown where
  context : ModelRunContext
  stage : TeardownStage
  deriving DecidableEq, Repr

/-- A call's place in `LoadModels`. The lists hold what the loops have not reached yet. -/
inductive CyclePc where
  | idle
  | listing
  | marking (curModels : List String)
  | scanning (curModels : List String) (lists : StateUpdate)
  | checking (load : ModelLoadInfo) (curModels : List String) (lists : StateUpdate)
  | adding (lists : StateUpdate)
  | constructing (info : BackendInfo) (name : String) (lists : StateUpdate)
  | starting (context : ModelRunContext) (name : String) (lists : StateUpdate)
  | spawning (context : ModelRunContext) (name : String) (lists : StateUpdate)
  | rejecting (t : Teardown) (lists : StateUpdate)
  | updating (lists : StateUpdate)
  | locking (info : BackendInfo) (name : String) (lists : StateUpdate)
  | installing (info : BackendInfo) (name : String) (lists : StateUpdate)
  | swapping (info : BackendInfo) (name : String) (lists : StateUpdate)
  | resetting (info : Option BackendInfo) (lists : StateUpdate)
  | deleting (lists : StateUpdate)
  | tearing (t : Teardown) (lists : StateUpdate)
  | finished
  deriving DecidableEq, Repr

inductive MainPc where
  | outside
  | loading
  | notifying
  | joining
  | locking
  | clearing
  | tearing (t : Teardown)
  | returned (status : Status)
  deriving DecidableEq, Repr

def MainPc.ready : MainPc → Bool
  | .outside | .returned _ => true
  | _ => false

/-- The refresh thread's place in `UploadLoop`; `absent` is a thread not joinable. -/
inductive UpdaterPc where
  | absent
  | entering
  | testing
  | asleep (notified : Bool)
  | deciding
  | cycling
  | exited
  deriving DecidableEq, Repr

inductive CallerPc where
  | outside
  | entering (p : Payload)
  | enqueuing (p : Payload) (scheduler : Nat)
  | returned (p : Payload) (status : Status)
  deriving DecidableEq, Repr

def CallerPc.payload? : CallerPc → Option Payload
  | .outside => none
  | .entering p | .enqueuing p _ | .returned p _ => some p

inductive ServerReadyState where
  | serverInvalid
  | serverInitializing
  | serverReady
  | serverExiting
  | serverFailedToInitialize
  deriving DecidableEq, Repr

structure StatusResponse where
  modelStatus : List (String × ModelStatus)
  readyState : ServerReadyState
  code : RequestStatusCode
  deriving DecidableEq, Repr

structure HealthResponse where
  health : Bool
  code : RequestStatusCode
  deriving DecidableEq, Repr

inductive StatusPc where
  | outside
  | collecting
  | counting (modelStatus : List (String × ModelStatus))
  | returned (response : StatusResponse)
  deriving DecidableEq, Repr

/-- A place in `GetHealth`; only mode "ready" has a critical section. -/
inductive HealthPc where
  | outside
  | counting
  | returned (response : HealthResponse)
  deriving DecidableEq, Repr

structure Server where
  config : ServerConfig
  modelMap : ModelMap
  modelMapMu : Option Holder
  /-- Held by the refresh thread. -/
  condMu : Bool
  running : Bool
  main : MainPc
  updater : UpdaterPc
  /-- The call of `LoadModels`, made by `Start` or by the refresh thread. -/
  cycle : CyclePc
  callers : Nat → CallerPc
  statuses : Nat → StatusPc
  healths : Nat → HealthPc
  schedulers : Nat → Scheduler Payload Nat
  destroyed : Nat → Bool
  nextScheduler : Nat
  backends : Nat → BackendCell
  nextBackend : Nat

inductive TeardownAction where
  | release
  | stop
  | drain (elapsed : Int)
  | clearRunning
  | breakAll
  | join
  | destroy
  deriving DecidableEq, Repr

/-- The repository's answers are part of the action: a listing, a configuration file that
parses or does not, the listing of a model's directory. -/
inductive CycleAction where
  | list (curModels : List String)
  | mark
  | scan (config : Option ModelConfig) (dirs : List String)
  | check
  | next
  | load (content : Option ModelConfig)
  | construct
  | start
  | spawn
  | insert
  | lock
  | install
  | swap
  | reset
  | erase
  | teardown (a : TeardownAction)
  deriving DecidableEq, Repr

inductive MainAction where
  | start
  | loaded
  | stop
  | notify
  | join
  | lock
  | clear (name : String)
  | teardown (a : TeardownAction)
  | unlock
  deriving DecidableEq, Repr

inductive UpdaterAction where
  | enter
  | test
  | wake
  | spurious
  | timeout
  | decide
  | cycled
  deriving DecidableEq, Repr

inductive CallerAction where
  | call (modelName : String) (modelVersion : Int)
  | lookup
  | enqueue
  | push (wake : Option Nat)
  | wake
  | leave
  | finish
  deriving DecidableEq, Repr

inductive StatusAction where
  | call
  | collect
  | count
  deriving DecidableEq, Repr

inductive HealthAction where
  | call (mode : String)
  | count
  deriving DecidableEq, Repr

inductive ServerAction where
  | caller (c : Nat) (a : CallerAction)
  | status (c : Nat) (a : StatusAction)
  | health (c : Nat) (a : HealthAction)
  | worker (k w : Nat) (a : WorkerAction)
  | cycle (a : CycleAction)
  | main (a : MainAction)
  | updater (a : UpdaterAction)
  deriving DecidableEq, Repr

namespace Server

def create (config : ServerConfig) : Server where
  config := config
  modelMap := ∅
  modelMapMu := none
  condMu := false
  running := false
  main := .outside
  updater := .absent
  cycle := .idle
  callers := fun _ => .outside
  statuses := fun _ => .outside
  healths := fun _ => .outside
  schedulers := fun _ => .create 0 0 0
  destroyed := fun _ => false
  nextScheduler := 0
  backends := fun _ => ⟨⟨"",0,⟨"",[]⟩,.unknown,[],0⟩,none⟩
  nextBackend := 0

def setScheduler (sv : Server) (k : Nat) (sc : Scheduler Payload Nat) : Server :=
  { sv with schedulers := Function.update sv.schedulers k sc }

def setObject (sv : Server) (b : Nat) (object : ModelBackend) : Server :=
  { sv with backends := Function.update sv.backends b { sv.backends b with object := object } }

def release (sv : Server) (info : Option BackendInfo) (cause : Release) : Server :=
  { sv with backends := match info.bind (·.backend) with
    | none => sv.backends
    | some b => Function.update sv.backends b { sv.backends b with released := cause } }

def allocate (sv : Server) : Option ModelBackend → Server
  | none => sv
  | some object =>
    { sv with
      backends := Function.update sv.backends sv.nextBackend ⟨object,none⟩
      nextBackend := sv.nextBackend + 1 }

def setCaller (sv : Server) (c : Nat) (pc : CallerPc) : Server :=
  { sv with callers := Function.update sv.callers c pc }

def enqueueStep (sv : Server) (c : Nat) (a : Payload → ProducerAction Payload) :
    Option Server :=
  match sv.callers c with
  | .enqueuing p k => ((sv.schedulers k).producerStep c (a p)).map (sv.setScheduler k ·)
  | _ => none

/-- `InferAsync`. `ModelVersion()` is read and not used. -/
def callerStep (sv : Server) (c : Nat) : CallerAction → Option Server
  | .call modelName modelVersion =>
    match sv.callers c with
    | .outside => some (sv.setCaller c (.entering ⟨c,modelName,modelVersion⟩))
    | _ => none
  | .lookup =>
    match sv.callers c with
    | .entering p =>
      if sv.modelMapMu = none then
        match sv.modelMap.lookup p.modelName with
        | none => some (sv.setCaller c (.returned p .failedInferNoBackendFound))
        | some context =>
          some { sv.setCaller c (.enqueuing p context.scheduler) with
            modelMapMu := some (.caller c) }
      else none
    | _ => none
  | .enqueue => sv.enqueueStep c .enqueue
  | .push wake => sv.enqueueStep c fun _ => .push wake
  | .wake => sv.enqueueStep c fun _ => .wake
  | .leave => sv.enqueueStep c fun _ => .leave
  | .finish =>
    match sv.callers c with
    | .enqueuing p k =>
      match (sv.schedulers k).producers c with
      | .returned _ status =>
        some { sv.setCaller c (.returned p status) with modelMapMu := none }
      | _ => none
    | _ => none

def statusStep (sv : Server) (c : Nat) : StatusAction → Option Server
  | .call =>
    match sv.statuses c with
    | .outside => some { sv with statuses := Function.update sv.statuses c .collecting }
    | _ => none
  | .collect =>
    match sv.statuses c with
    | .collecting =>
      if sv.modelMapMu = none then
        (getModelStatus sv.modelMap).map fun modelStatus =>
          { sv with statuses := Function.update sv.statuses c (.counting modelStatus) }
      else none
    | _ => none
  | .count =>
    match sv.statuses c with
    | .counting modelStatus =>
      if sv.modelMapMu = none then
        some { sv with statuses := Function.update sv.statuses c (.returned ⟨modelStatus,
          if 0 < getNumberOfLiveModels sv.modelMap then .serverReady
          else .serverFailedToInitialize,.success⟩) }
      else none
    | _ => none

def healthStep (sv : Server) (c : Nat) : HealthAction → Option Server
  | .call mode =>
    match sv.healths c with
    | .outside =>
      let pc := if mode = "live" then .returned ⟨true,.success⟩
        else if mode = "ready" then .counting
        else .returned ⟨false,.unsupported⟩
      some { sv with healths := Function.update sv.healths c pc }
    | _ => none
  | .count =>
    match sv.healths c with
    | .counting =>
      if sv.modelMapMu = none then
        let response := ⟨0 < getNumberOfLiveModels sv.modelMap,.success⟩
        some { sv with healths := Function.update sv.healths c (.returned response) }
      else none
    | _ => none

/-- What the call of the bound `ModelBackend::Run`, or its return, does to the backend. A
refused index returns `Failed_Generic`; otherwise the context chooses the status. A call that
touches freed memory is one that does not end. -/
def runEffect (sv : Server) (k w : Nat) : WorkerAction → Option Server
  | .call =>
    let b := (sv.schedulers k).inferFunc
    some (sv.setObject b (sv.backends b).object.enterRun)
  | .ret status =>
    match (sv.schedulers k).threads[w]? with
    | some ⟨idx,.running _ b⟩ =>
      let entry := (sv.backends b).object.runEntry idx
      if (sv.backends b).returns idx = false then none
      else if entry = .refused ∧ status ≠ .failedGeneric then none
      else some (sv.setObject b ((sv.backends b).object.leaveRun entry))
    | _ => none
  | _ => some sv

def workerStep (sv : Server) (k w : Nat) (a : WorkerAction) : Option Server :=
  (sv.runEffect k w a).bind fun sv' =>
    ((sv.schedulers k).workerStep w a).map (sv'.setScheduler k ·)

def controlStep (sv : Server) (k : Nat) (a : ControlAction) : Option Server :=
  ((sv.schedulers k).controlStep a).map (sv.setScheduler k ·)

/-- One step of the destruction of a context; `none` in place of it once it is over. -/
def teardownStep (sv : Server) (t : Teardown) (a : TeardownAction) :
    Option (Server × Option Teardown) :=
  let k := t.context.scheduler
  match t.stage, a with
  | .backendInfo, .release =>
    some (sv.release t.context.backendInfo (.teardown k),some ⟨t.context,.scheduler⟩)
  | .scheduler, .stop => (sv.controlStep k .stop).map (·,some ⟨t.context,.stopping⟩)
  | .stopping, .drain elapsed => (sv.controlStep k (.drain elapsed)).map (·,some t)
  | .stopping, .clearRunning => (sv.controlStep k .clearRunning).map (·,some t)
  | .stopping, .breakAll => (sv.controlStep k .breakAll).map (·,some t)
  | .stopping, .join => (sv.controlStep k .join).map (·,some t)
  | .stopping, .destroy =>
    match (sv.schedulers k).control with
    | .stopReturned _ => some ({ sv with destroyed := Function.update sv.destroyed k true },none)
    | _ => none
  | _, _ => none

def cycleStep (sv : Server) (a : CycleAction) : Option Server :=
  match sv.cycle, a with
  | .listing, .list curModels =>
    if curModels.Nodup then some { sv with cycle := .marking curModels } else none
  | .marking curModels, .mark =>
    if sv.modelMapMu = none then
      some { sv with cycle := .scanning curModels ⟨[],[],deletedModels sv.modelMap curModels⟩ }
    else none
  | .scanning (name :: rest) lists, .scan config dirs =>
    match config with
    | none => some { sv with cycle := .scanning rest lists }
    | some _ =>
      if getHighestVersion dirs = -1 then some { sv with cycle := .scanning rest lists }
      else some { sv with cycle := .checking ⟨name,getHighestVersion dirs⟩ rest lists }
  | .checking load rest lists, .check =>
    if sv.modelMapMu = none then
      (classify sv.modelMap load.modelName load.modelVersion).map fun change =>
        { sv with cycle := .scanning rest (lists.record load change) }
    else none
  | .scanning [] lists, .next => some { sv with cycle := .adding lists }
  | .adding ⟨load :: rest,updated,deleted⟩, .load content =>
    match loadModel load content sv.nextBackend with
    | none => some { sv with cycle := .adding ⟨rest,updated,deleted⟩ }
    | some (info,backend) =>
      some { sv.allocate backend with
        cycle := .constructing info load.modelName ⟨rest,updated,deleted⟩ }
  | .constructing info name lists, .construct =>
    info.backend.map fun b =>
      { sv.setScheduler sv.nextScheduler (.create sv.config.maxQueueSize
          (toInt32 (sv.backends b).object.getInstanceNum) b) with
        nextScheduler := sv.nextScheduler + 1
        cycle := .starting ⟨sv.nextScheduler,some info⟩ name lists }
  | .starting context name lists, .start =>
    (sv.controlStep context.scheduler .start).map fun sv' =>
      { sv' with cycle := .spawning context name lists }
  | .spawning context _ _, .spawn => sv.controlStep context.scheduler .spawn
  | .spawning context name lists, .insert =>
    match (sv.schedulers context.scheduler).control with
    | .startReturned _ =>
      if sv.modelMapMu = none then
        if name ∈ sv.modelMap then
          -- The rejected node is destroyed while the mutex is held.
          some { sv with
            modelMapMu := some .loader, cycle := .rejecting ⟨context,.backendInfo⟩ lists }
        else some { sv with
          modelMap := sv.modelMap.insert name context, cycle := .adding lists }
      else none
    | _ => none
  | .rejecting t lists, .teardown a => (sv.teardownStep t a).map fun (sv',left) =>
    match left with
    | some t => { sv' with cycle := .rejecting t lists }
    | none => { sv' with modelMapMu := none, cycle := .adding lists }
  | .adding ⟨[],updated,deleted⟩, .next =>
    some { sv with cycle := .updating ⟨[],updated,deleted⟩ }
  | .updating ⟨added,load :: rest,deleted⟩, .load content =>
    match loadModel load content sv.nextBackend with
    | none => some { sv with cycle := .updating ⟨added,rest,deleted⟩ }
    | some (info,backend) =>
      some { sv.allocate backend with
        cycle := .locking info load.modelName ⟨added,rest,deleted⟩ }
  | .locking info name lists, .lock =>
    if sv.modelMapMu = none then
      match sv.modelMap.lookup name with
      | none => some { sv with cycle := .resetting info lists }
      | some _ => some { sv with
          modelMapMu := some .loader, cycle := .installing info name lists }
    else none
  | .installing info name lists, .install =>
    match sv.modelMap.lookup name, info.backend with
    | some context, some b =>
      let k := context.scheduler
      some { sv.setScheduler k ((sv.schedulers k).updateBackendInferFunc b) with
        cycle := .swapping info name lists }
    | _, _ => none
  | .swapping info name lists, .swap =>
    (sv.modelMap.lookup name).map fun context =>
      { sv with
        modelMap := sv.modelMap.insert name { context with backendInfo := info }
        modelMapMu := none
        cycle := .resetting context.backendInfo lists }
  | .resetting info lists, .reset =>
    some { sv.release info .update with cycle := .updating lists }
  | .updating ⟨added,[],deleted⟩, .next =>
    some { sv with cycle := .deleting ⟨added,[],deleted⟩ }
  | .deleting ⟨added,updated,name :: rest⟩, .erase =>
    if sv.modelMapMu = none then
      match sv.modelMap.lookup name with
      | none => some { sv with cycle := .deleting ⟨added,updated,rest⟩ }
      | some context => some { sv with
          modelMap := sv.modelMap.erase name
          cycle := .tearing ⟨context,.backendInfo⟩ ⟨added,updated,rest⟩ }
    else none
  | .tearing t lists, .teardown a => (sv.teardownStep t a).map fun (sv',left) =>
    match left with
    | some t => { sv' with cycle := .tearing t lists }
    | none => { sv' with cycle := .deleting lists }
  | .deleting ⟨_,_,[]⟩, .next => some { sv with cycle := .finished }
  | _, _ => none

def mainStep (sv : Server) : MainAction → Option Server
  | .start =>
    if sv.main.ready then
      if sv.running then some { sv with main := .returned .faieldModelManagerAlreadyRunning }
      else some { sv with running := true, main := .loading, cycle := .listing }
    else none
  | .loaded =>
    if sv.main = .loading ∧ sv.cycle = .finished then
      some { sv with
        cycle := .idle
        updater := if sv.config.autoUpdate then .entering else sv.updater
        main := .returned .success }
    else none
  | .stop =>
    if sv.main.ready then some { sv with running := false, main := .notifying } else none
  | .notify =>
    if sv.main = .notifying ∧ sv.condMu = false then
      some { sv with
        updater := match sv.updater with | .asleep _ => .asleep true | pc => pc
        main := .joining }
    else none
  | .join =>
    if sv.main = .joining ∧ (sv.updater = .absent ∨ sv.updater = .exited) then
      some { sv with updater := .absent, main := .locking }
    else none
  | .lock =>
    if sv.main = .locking ∧ sv.modelMapMu = none then
      some { sv with modelMapMu := some .stopper, main := .clearing }
    else none
  | .clear name =>
    if sv.main = .clearing then
      (sv.modelMap.lookup name).map fun context => { sv with
        modelMap := sv.modelMap.erase name, main := .tearing ⟨context,.backendInfo⟩ }
    else none
  | .teardown a =>
    match sv.main with
    | .tearing t => (sv.teardownStep t a).map fun (sv',left) =>
      match left with
      | some t => { sv' with main := .tearing t }
      | none => { sv' with main := .clearing }
    | _ => none
  | .unlock =>
    if sv.main = .clearing ∧ sv.modelMap.keys = [] then
      some { sv with modelMapMu := none, main := .returned .success }
    else none

/-- One step of `UploadLoop`. The wait's result is not used: after a timeout the loop goes
on to test `running_`, and otherwise the wait tests it first. -/
def updaterStep (sv : Server) (a : UpdaterAction) : Option Server :=
  match sv.updater, a with
  | .entering, .enter =>
    if sv.condMu = false then some { sv with condMu := true, updater := .testing } else none
  | .testing, .test =>
    if sv.running then some { sv with condMu := false, updater := .asleep false }
    else some { sv with updater := .deciding }
  | .asleep true, .wake =>
    if sv.condMu = false then some { sv with condMu := true, updater := .testing } else none
  | .asleep _, .spurious =>
    if sv.condMu = false then some { sv with condMu := true, updater := .testing } else none
  | .asleep _, .timeout =>
    if sv.condMu = false then some { sv with condMu := true, updater := .deciding } else none
  | .deciding, .decide =>
    if sv.running then some { sv with updater := .cycling, cycle := .listing }
    else some { sv with condMu := false, updater := .exited }
  | .cycling, .cycled =>
    if sv.cycle = .finished then
      some { sv with cycle := .idle, condMu := false, updater := .entering }
    else none
  | _, _ => none

def step (sv : Server) : ServerAction → Option Server
  | .caller c a => sv.callerStep c a
  | .status c a => sv.statusStep c a
  | .health c a => sv.healthStep c a
  | .worker k w a => sv.workerStep k w a
  | .cycle a => sv.cycleStep a
  | .main a => sv.mainStep a
  | .updater a => sv.updaterStep a

def machine (config : ServerConfig) : Transition.Machine Server ServerAction :=
  ⟨create config,step⟩

end Server
end InferenceServer
