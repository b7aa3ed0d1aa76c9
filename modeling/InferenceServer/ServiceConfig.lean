import InferenceServer.SchedulerHistory

/-! `LoadServerConfig` over any YAML reader, and which accepted configurations a scheduler and
the server's listener can use. -/
namespace InferenceServer

namespace Constants

def minModelRefreshInterval : Int := 5
def defaultSchedulerQueueSize : Int := 4

end Constants

/-- What is used of `yaml-cpp`. `get` is `operator[]`, which throws on a scalar; a conversion
that has no value throws where it is asked for without a fallback. -/
structure Yaml where
  Node : Type
  loadFile : String → Except String Node
  get : Node → String → Except String Node
  isDefined : Node → Bool
  string? : Node → Option String
  bool? : Node → Option Bool
  int? : Node → Option Int32

namespace Yaml

def require {τ : Type} (value : Option τ) : Except String τ :=
  match value with
  | some v => .ok v
  | none => .error "bad conversion"

end Yaml

namespace ServiceHelper

structure ModelControlConfig where
  autoUpdate : Bool
  updateInterval : Int
  autoWarmup : Bool
  deriving DecidableEq, Repr

structure GrpcServerConfig where
  grpcServerAddr : String
  deriving DecidableEq, Repr

/-- Without its `type_`, which nothing sets. -/
structure SchedulerConfig where
  maxQueueSize : Int
  deriving DecidableEq, Repr

structure ServerConfig where
  modelRepoPath : String
  modelControlCfg : ModelControlConfig
  grpcServerCfg : GrpcServerConfig
  schedulerCfg : SchedulerConfig
  deriving DecidableEq, Repr

def ServerConfig.initial : ServerConfig := ⟨"",⟨false,0,false⟩,⟨""⟩,⟨0⟩⟩

variable (yaml : Yaml)

def loadInterval (modelControl : yaml.Node) : Except String Int := do
  let interval ← yaml.get modelControl "refresh_interval"
  let interval ← Yaml.require (yaml.int? interval)
  return max Constants.minModelRefreshInterval interval.toInt

/-- The interval is looked at only if the automatic refresh is enabled. -/
def loadModelControl (modelControl : yaml.Node) : Except String ModelControlConfig := do
  let refresh ← yaml.get modelControl "enable_automatic_refresh"
  let autoUpdate ← Yaml.require (yaml.bool? refresh)
  let updateInterval ←
    (if autoUpdate then loadInterval yaml modelControl
    else .ok ServerConfig.initial.modelControlCfg.updateInterval)
  let warmup ← yaml.get modelControl "enable_warmup"
  let autoWarmup ← Yaml.require (yaml.bool? warmup)
  return ⟨autoUpdate,updateInterval,autoWarmup⟩

def loadGrpcServer (grpcServer : yaml.Node) : Except String GrpcServerConfig := do
  let addr ← yaml.get grpcServer "addr"
  return ⟨(yaml.string? addr).getD "0.0.0.0:50051"⟩

def loadScheduler (scheduler : yaml.Node) : Except String SchedulerConfig := do
  let maxQueueSize ← yaml.get scheduler "max_queue_size"
  return ⟨((yaml.int? maxQueueSize).map Int32.toInt).getD Constants.defaultSchedulerQueueSize⟩

/-- A section that is not there leaves its part of the configuration as it was initialised. -/
def loadSection {τ : Type} (node : yaml.Node) (name : String)
    (load : yaml.Node → Except String τ) (initial : τ) : Except String τ := do
  let found ← yaml.get node name
  if yaml.isDefined found then load found else .ok initial

def loadServerConfig (configFile : String) : Except String ServerConfig := do
  let node ← yaml.loadFile configFile
  let path ← yaml.get node "model_repo_path"
  let modelRepoPath ← Yaml.require (yaml.string? path)
  let modelControlCfg ← loadSection yaml node "model_control" (loadModelControl yaml)
    ServerConfig.initial.modelControlCfg
  let grpcServerCfg ← loadSection yaml node "grpc_server" (loadGrpcServer yaml)
    ServerConfig.initial.grpcServerCfg
  let schedulerCfg ← loadSection yaml node "scheduler" (loadScheduler yaml)
    ServerConfig.initial.schedulerCfg
  return ⟨modelRepoPath,modelControlCfg,grpcServerCfg,schedulerCfg⟩

theorem bind_accepted {α β : Type} {first : Except String α} {rest : α → Except String β}
    {result : β} : (first >>= rest) = .ok result ↔ ∃ a, first = .ok a ∧ rest a = .ok result := by
  cases first with
  | ok a =>
    constructor
    · exact fun accepted => ⟨a,rfl,accepted⟩
    · rintro ⟨_,same,accepted⟩
      cases same
      exact accepted
  | error =>
    constructor
    · exact fun rejected => by contradiction
    · rintro ⟨_,same,_⟩
      contradiction

section

variable {yaml}

theorem loadSection_accepted {τ : Type} {node : yaml.Node} {name : String}
    {load : yaml.Node → Except String τ} {initial result : τ}
    (accepted : loadSection yaml node name load initial = .ok result) :
    ∃ found, yaml.get node name = .ok found ∧
      (yaml.isDefined found = true ∧ load found = .ok result ∨
        yaml.isDefined found = false ∧ result = initial) := by
  obtain ⟨found,got,loaded⟩ := bind_accepted.mp accepted
  refine ⟨found,got,?_⟩
  split at loaded
  next defined => exact .inl ⟨defined,loaded⟩
  next missing => exact .inr ⟨by simpa using missing,(Except.ok.inj loaded).symm⟩

theorem loadModelControl_interval {modelControl : yaml.Node} {cfg : ModelControlConfig}
    (accepted : loadModelControl yaml modelControl = .ok cfg) (auto : cfg.autoUpdate = true) :
    Constants.minModelRefreshInterval ≤ cfg.updateInterval := by
  simp only [loadModelControl,bind_accepted] at accepted
  obtain ⟨_,_,autoUpdate,_,updateInterval,interval,_,_,autoWarmup,_,same⟩ := accepted
  cases same
  rw [if_pos auto] at interval
  simp only [loadInterval,bind_accepted] at interval
  obtain ⟨_,_,n,_,same⟩ := interval
  cases same
  exact Int.le_max_left ..

end

end ServiceHelper

namespace Scheduler

variable {π φ : Type}

theorem step_capacity {sc sc' : Scheduler π φ} {a : SchedulerAction π φ}
    (taken : sc.step a = some sc') : sc'.queue.capacity = sc.queue.capacity := by
  cases a with
  | worker w a =>
    obtain ⟨_,_,cases⟩ := workerStep_cases taken
    cases cases with
    | test | wake | copy | call | ret | complete => rfl
    | take _ _ _ _ _ capacity | takeBroken _ _ _ _ capacity | sleep _ _ _ _ capacity =>
      exact capacity
  | producer c a =>
    cases producerStep_cases taken with
    | enter | refuse | wake | leave => rfl
    | append _ _ _ _ _ capacity | drop _ _ _ _ capacity | sleep _ _ _ _ _ capacity =>
      exact capacity
  | control a => cases controlStep_cases taken <;> rfl
  | update func =>
    cases taken
    rfl

theorem reachable_capacity {maxQueueSize totalRunners : Int} {func : φ} {sc : Scheduler π φ}
    (reach : (machine maxQueueSize totalRunners func).Reachable sc) :
    sc.queue.capacity = toSizeT maxQueueSize := by
  apply reach.invariant (P := fun sc => sc.queue.capacity = toSizeT maxQueueSize) rfl
  intro sc a sc' _ same taken
  exact (step_capacity taken).trans same

/-- Before the first payload is appended the buffer is empty, and a push that has room for one
does not wait. -/
theorem first_push {maxQueueSize totalRunners : Int} {func : φ} {sc : Scheduler π φ}
    (reach : (machine maxQueueSize totalRunners func).Reachable sc) (fresh : sc.appended = 0)
    (room : 1 ≤ toSizeT maxQueueSize) {c : Nat} {p : π} {wake : Option Nat} {result : PushResult}
    {queue : BlockingQueue π Nat Nat} (pushed : sc.queue.push c p wake = some (result,queue)) :
    result ≠ .waiting := by
  rintro rfl
  have payloads := (machine_sound reach).conserved.payloads
  rw [fresh] at payloads
  have empty : sc.queue.buffer = [] := by
    have none := congrArg Multiset.card payloads.symm
    simp only [Multiset.card_add,Multiset.coe_card,Multiset.card_zero] at none
    exact List.length_eq_zero_iff.mp (by omega)
  obtain ⟨_,_,⟨_,_⟩ | ⟨_,_⟩ | ⟨_,_,full,_⟩⟩ := BlockingQueue.push_cases pushed
  · contradiction
  · contradiction
  · rw [reachable_capacity reach,empty,List.length_nil] at full
    omega

end Scheduler

namespace ServiceHelper

section

variable (π : Type) {φ : Type} (runners : Int) (func : φ)

/-- The queue has room, the refresh interval is not too short and the listener has an address;
so the first push into a scheduler does not wait. -/
structure Usable (config : ServerConfig) : Prop where
  capacity : 1 ≤ (Scheduler.create config.schedulerCfg.maxQueueSize runners func :
      Scheduler π φ).queue.capacity ∧
    (Scheduler.create config.schedulerCfg.maxQueueSize runners func :
      Scheduler π φ).queue.capacity = toSizeT config.schedulerCfg.maxQueueSize
  interval : config.modelControlCfg.autoUpdate = true →
    Constants.minModelRefreshInterval ≤ config.modelControlCfg.updateInterval
  listens : config.grpcServerCfg.grpcServerAddr ≠ ""
  firstPush : ∀ sc : Scheduler π φ,
    (Scheduler.machine config.schedulerCfg.maxQueueSize runners func).Reachable sc →
    sc.appended = 0 → ∀ c p wake result queue,
      sc.queue.push c p wake = some (result,queue) → result ≠ .waiting

def Keyed (yaml : Yaml) (configFile name key : String) (node : yaml.Node) : Prop :=
  ∃ root found, yaml.loadFile configFile = .ok root ∧ yaml.get root name = .ok found ∧
    yaml.isDefined found = true ∧ yaml.get found key = .ok node

/-- There is a `scheduler` section whose `max_queue_size`, if it is a number, is a `good` one. -/
def Sized (yaml : Yaml) (configFile : String) (good : Int → Prop) : Prop :=
  ∃ node, Keyed yaml configFile "scheduler" "max_queue_size" node ∧
    ∀ n, yaml.int? node = some n → good n.toInt

/-- There is a `grpc_server` section whose `addr`, if it is a text, is not empty. -/
def Addressed (yaml : Yaml) (configFile : String) : Prop :=
  ∃ node, Keyed yaml configFile "grpc_server" "addr" node ∧
    ∀ addr, yaml.string? node = some addr → addr ≠ ""

end

/-- What an accepted document says under a key, and what the section is loaded to. -/
theorem loadSection_keyed {yaml : Yaml} {configFile name : String} {root : yaml.Node} {τ : Type}
    {load : yaml.Node → Except String τ} {initial result : τ} (key : String) (read : yaml.Node → τ)
    (opened : yaml.loadFile configFile = .ok root)
    (reads : ∀ found value, load found = .ok value →
      ∃ node, yaml.get found key = .ok node ∧ value = read node)
    (accepted : loadSection yaml root name load initial = .ok result) :
    (∃ node, Keyed yaml configFile name key node ∧ result = read node) ∨
      (∀ node, ¬Keyed yaml configFile name key node) ∧ result = initial := by
  obtain ⟨found,got,⟨defined,loaded⟩ | ⟨missing,same⟩⟩ := loadSection_accepted accepted
  · obtain ⟨node,keyed,value⟩ := reads found result loaded
    exact .inl ⟨node,⟨root,found,opened,got,defined,keyed⟩,value⟩
  · refine .inr ⟨?_,same⟩
    rintro node ⟨root',found',opened',got',defined,_⟩
    obtain rfl := Except.ok.inj (opened.symm.trans opened')
    obtain rfl := Except.ok.inj (got.symm.trans got')
    exact absurd (missing.symm.trans defined) (by simp)

theorem Keyed.unique {yaml : Yaml} {configFile name key : String} {one other : yaml.Node}
    (first : Keyed yaml configFile name key one) (second : Keyed yaml configFile name key other) :
    one = other := by
  obtain ⟨root,found,opened,got,_,keyed⟩ := first
  obtain ⟨root',found',opened',got',_,keyed'⟩ := second
  obtain rfl := Except.ok.inj (opened.symm.trans opened')
  obtain rfl := Except.ok.inj (got.symm.trans got')
  exact Except.ok.inj (keyed.symm.trans keyed')

/-- The three sections of an accepted document. -/
theorem loadServerConfig_accepted {yaml : Yaml} {configFile : String} {config : ServerConfig}
    (accepted : loadServerConfig yaml configFile = .ok config) : ∃ root,
    yaml.loadFile configFile = .ok root ∧
    loadSection yaml root "model_control" (loadModelControl yaml)
      ServerConfig.initial.modelControlCfg = .ok config.modelControlCfg ∧
    loadSection yaml root "grpc_server" (loadGrpcServer yaml)
      ServerConfig.initial.grpcServerCfg = .ok config.grpcServerCfg ∧
    loadSection yaml root "scheduler" (loadScheduler yaml)
      ServerConfig.initial.schedulerCfg = .ok config.schedulerCfg := by
  simp only [loadServerConfig,bind_accepted] at accepted
  obtain ⟨root,opened,_,_,_,_,_,control,_,server,_,scheduler,same⟩ := accepted
  cases same
  exact ⟨root,opened,control,server,scheduler⟩

section Accepted

variable {yaml : Yaml} {configFile : String} {config : ServerConfig}
  (accepted : loadServerConfig yaml configFile = .ok config)
include accepted

theorem accepted_interval (auto : config.modelControlCfg.autoUpdate = true) :
    Constants.minModelRefreshInterval ≤ config.modelControlCfg.updateInterval := by
  obtain ⟨_,_,control,_,_⟩ := loadServerConfig_accepted accepted
  obtain ⟨_,_,⟨_,loaded⟩ | ⟨_,same⟩⟩ := loadSection_accepted control
  · exact loadModelControl_interval loaded auto
  · rw [same] at auto
    contradiction

theorem accepted_size : (∃ node, Keyed yaml configFile "scheduler" "max_queue_size" node ∧
      config.schedulerCfg.maxQueueSize =
        ((yaml.int? node).map Int32.toInt).getD Constants.defaultSchedulerQueueSize) ∨
    (∀ node, ¬Keyed yaml configFile "scheduler" "max_queue_size" node) ∧
      config.schedulerCfg.maxQueueSize = 0 := by
  obtain ⟨root,opened,_,_,scheduler⟩ := loadServerConfig_accepted accepted
  rcases loadSection_keyed "max_queue_size" (fun node =>
      ⟨((yaml.int? node).map Int32.toInt).getD Constants.defaultSchedulerQueueSize⟩) opened
      (fun found value loaded => by
        obtain ⟨node,keyed,same⟩ := bind_accepted.mp loaded
        exact ⟨node,keyed,(Except.ok.inj same).symm⟩) scheduler with
    ⟨node,keyed,value⟩ | ⟨none,initial⟩
  · exact .inl ⟨node,keyed,by rw [value]⟩
  · exact .inr ⟨none,by rw [initial]; rfl⟩

theorem accepted_addr : (∃ node, Keyed yaml configFile "grpc_server" "addr" node ∧
      config.grpcServerCfg.grpcServerAddr = (yaml.string? node).getD "0.0.0.0:50051") ∨
    (∀ node, ¬Keyed yaml configFile "grpc_server" "addr" node) ∧
      config.grpcServerCfg.grpcServerAddr = "" := by
  obtain ⟨root,opened,_,server,_⟩ := loadServerConfig_accepted accepted
  rcases loadSection_keyed "addr" (fun node => ⟨(yaml.string? node).getD "0.0.0.0:50051"⟩) opened
      (fun found value loaded => by
        obtain ⟨node,keyed,same⟩ := bind_accepted.mp loaded
        exact ⟨node,keyed,(Except.ok.inj same).symm⟩) server with
    ⟨node,keyed,value⟩ | ⟨none,initial⟩
  · exact .inl ⟨node,keyed,by rw [value]⟩
  · exact .inr ⟨none,by rw [initial]; rfl⟩

/-- A condition that the default meets and zero does not. -/
theorem sized_iff {good : Int → Prop} (standard : good Constants.defaultSchedulerQueueSize)
    (zero : ¬good 0) : Sized yaml configFile good ↔ good config.schedulerCfg.maxQueueSize := by
  rcases accepted_size accepted with ⟨node,keyed,value⟩ | ⟨none,value⟩
  · rw [value]
    constructor
    · rintro ⟨other,keyed',all⟩
      obtain rfl := keyed.unique keyed'
      cases size : yaml.int? node with
      | none => exact standard
      | some n => exact all n size
    · intro holds
      refine ⟨node,keyed,fun n size => ?_⟩
      rw [size] at holds
      exact holds
  · rw [value]
    exact ⟨fun ⟨node,keyed,_⟩ => absurd keyed (none node),fun holds => absurd holds zero⟩

theorem addressed_iff :
    Addressed yaml configFile ↔ config.grpcServerCfg.grpcServerAddr ≠ "" := by
  rcases accepted_addr accepted with ⟨node,keyed,value⟩ | ⟨none,value⟩
  · rw [value]
    constructor
    · rintro ⟨other,keyed',all⟩
      obtain rfl := keyed.unique keyed'
      cases addr : yaml.string? node with
      | none => exact (by decide : "0.0.0.0:50051" ≠ "")
      | some text => exact all text addr
    · intro holds
      refine ⟨node,keyed,fun text addr => ?_⟩
      rw [addr] at holds
      exact holds
  · rw [value]
    exact ⟨fun ⟨node,keyed,_⟩ => absurd keyed (none node),fun holds => absurd rfl holds⟩

theorem accepted_bounds : -2^31 ≤ config.schedulerCfg.maxQueueSize ∧
    config.schedulerCfg.maxQueueSize < 2^31 := by
  rcases accepted_size accepted with ⟨node,_,value⟩ | ⟨_,value⟩
  · rw [value]
    cases yaml.int? node with
    | none => exact (by decide : -2^31 ≤ Constants.defaultSchedulerQueueSize ∧
        Constants.defaultSchedulerQueueSize < 2^31)
    | some n => exact ⟨n.le_toInt,n.toInt_lt⟩
  · omega

end Accepted

theorem toSizeT_pos_iff {n : Int} (low : -2^31 ≤ n) (high : n < 2^31) : 1 ≤ toSizeT n ↔ n ≠ 0 := by
  simp only [toSizeT,BitVec.toNat_ofInt]
  omega

theorem toSizeT_same_iff {n : Int} (low : -2^31 ≤ n) (high : n < 2^31) :
    (toSizeT n : Int) = n ↔ 0 ≤ n := by
  simp only [toSizeT,BitVec.toNat_ofInt]
  omega

/-- An accepted configuration is usable exactly if both sections are there and neither a queue
size of zero nor an empty address is given; and the queue holds `max_queue_size` items exactly
if moreover that is positive. -/
theorem config_usable_iff {yaml : Yaml} {configFile : String} {config : ServerConfig} (π : Type)
    {φ : Type} (runners : Int) (func : φ)
    (accepted : loadServerConfig yaml configFile = .ok config) :
    (Usable π runners func config ↔
      Sized yaml configFile (· ≠ 0) ∧ Addressed yaml configFile) ∧
    (Usable π runners func config ∧
        (toSizeT config.schedulerCfg.maxQueueSize : Int) = config.schedulerCfg.maxQueueSize ↔
      Sized yaml configFile (1 ≤ ·) ∧ Addressed yaml configFile) := by
  obtain ⟨low,high⟩ := accepted_bounds accepted
  have usable : Usable π runners func config ↔ config.schedulerCfg.maxQueueSize ≠ 0 ∧
      config.grpcServerCfg.grpcServerAddr ≠ "" := by
    constructor
    · exact fun usable => ⟨(toSizeT_pos_iff low high).mp usable.capacity.1,usable.listens⟩
    · rintro ⟨size,listens⟩
      have room := (toSizeT_pos_iff low high).mpr size
      exact ⟨⟨room,rfl⟩,accepted_interval accepted,listens,fun sc reach fresh c p wake result queue =>
        Scheduler.first_push reach fresh room⟩
  rw [usable,addressed_iff accepted,sized_iff accepted (by decide) (by decide),
    sized_iff accepted (by decide) (by decide),toSizeT_same_iff low high]
  refine ⟨Iff.rfl,?_⟩
  constructor
  · rintro ⟨⟨size,listens⟩,nonneg⟩
    exact ⟨by omega,listens⟩
  · rintro ⟨size,listens⟩
    exact ⟨⟨by omega,listens⟩,by omega⟩

inductive Plain where
  | undefined
  | text (value : String)
  | map (entries : List (String × Plain))

namespace Plain

def get : Plain → String → Except String Plain
  | .undefined, _ => .ok .undefined
  | .text _, _ => .error "bad subscript"
  | .map entries, key => .ok ((entries.lookup key).getD .undefined)

def isDefined : Plain → Bool
  | .undefined => false
  | _ => true

def string? : Plain → Option String
  | .text value => some value
  | _ => none

def bool? : Plain → Option Bool
  | .text "true" => some true
  | .text "false" => some false
  | _ => none

def int? : Plain → Option Int32
  | .text value =>
    if value.toList ≠ [] ∧ value.toList.all Char.isDigit then
      some (value.toList.foldl (fun n c => 10 * n + Int32.ofNat (c.toNat - '0'.toNat)) 0)
    else none
  | _ => none

def yaml (document : Plain) : Yaml :=
  ⟨Plain,fun _ => .ok document,get,isDefined,string?,bool?,int?⟩

end Plain

def bothSections : Plain := .map [("model_repo_path",.text "/models"),
  ("grpc_server",.map [("addr",.text "0.0.0.0:9000")]),("scheduler",.map [("max_queue_size",.text "8")])]

theorem config_usable_sections :
    Usable Nat 1 false ⟨"/models",⟨false,0,false⟩,⟨"0.0.0.0:9000"⟩,⟨8⟩⟩ := by
  have accepted : loadServerConfig bothSections.yaml "server.yaml" =
      .ok ⟨"/models",⟨false,0,false⟩,⟨"0.0.0.0:9000"⟩,⟨8⟩⟩ := rfl
  refine (config_usable_iff Nat 1 false accepted).1.mpr ⟨?_,?_⟩
  · refine ⟨.text "8",⟨_,_,rfl,rfl,rfl,rfl⟩,fun n size => ?_⟩
    cases size
    decide
  · refine ⟨.text "0.0.0.0:9000",⟨_,_,rfl,rfl,rfl,rfl⟩,fun addr text => ?_⟩
    cases text
    decide

/-- Without a `scheduler` section the queue has no room. -/
theorem no_scheduler_unusable :
    loadServerConfig (Plain.yaml (.map [("model_repo_path",.text "/models"),
      ("grpc_server",.map [])])) "server.yaml" =
        .ok ⟨"/models",⟨false,0,false⟩,⟨"0.0.0.0:50051"⟩,⟨0⟩⟩ ∧
    ¬Usable Nat 1 false ⟨"/models",⟨false,0,false⟩,⟨"0.0.0.0:50051"⟩,⟨0⟩⟩ := by
  refine ⟨rfl,fun usable => ?_⟩
  have room := usable.capacity.1
  contradiction

end ServiceHelper
end InferenceServer
