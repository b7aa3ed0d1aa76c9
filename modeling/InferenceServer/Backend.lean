import InferenceServer.BasicData

/-! `ModelBackend` and its one implementation, `DemoBackend`: what is created from a
`ModelConfig`, and how `Run` selects a context. -/
namespace InferenceServer

/-- `other` is a number without a name, which a proto3 enumeration keeps. -/
inductive Kind where
  | auto
  | gpu
  | cpu
  | model
  | other (value : Int)
  deriving DecidableEq, Repr

structure ModelInstanceGroup where
  name : String
  kind : Kind
  count : Int
  gpus : List Int
  deriving DecidableEq, Repr

structure ModelConfig where
  platform : String
  instanceGroup : List ModelInstanceGroup
  deriving DecidableEq, Repr

structure BackendContext where
  name : String
  gpuDevice : Int
  deriving DecidableEq, Repr

structure ModelBackend where
  modelName : String
  modelVersion : Int
  modelConfig : ModelConfig
  platform : Platform
  contexts : List BackendContext
  runningInferenceProcess : Int
  deriving DecidableEq, Repr

namespace ModelBackend

def getInstanceNum (b : ModelBackend) : Nat := b.contexts.length

end ModelBackend

def ModelInstanceGroup.accepted (g : ModelInstanceGroup) : Bool :=
  match g.kind with
  | .cpu => g.gpus.isEmpty
  | .gpu => false
  | _ => true

def processModelConfig (config : ModelConfig) : Status :=
  if config.platform.isEmpty then .failedModelConfigInvalid
  else if config.instanceGroup.isEmpty then .failedModelConfigInvalid
  else if config.instanceGroup.all (·.accepted) then .success
  else .failedModelConfigInvalid

def createExecuteContext (g : ModelInstanceGroup) (c : Nat) : BackendContext :=
  ⟨g.name ++ "_" ++ toString c ++ "_cpu",0⟩

/-- The kind is tested inside the loop over `count`, so a group that is not on the CPU
fails only when its loop has an iteration. -/
def createExecuteContexts : List ModelInstanceGroup → Except Status (List BackendContext)
  | [] => .ok []
  | g :: rest =>
    if g.count ≤ 0 then createExecuteContexts rest
    else if g.kind = .cpu then
      (createExecuteContexts rest).map ((List.range g.count.toNat).map (createExecuteContext g) ++ ·)
    else .error .failedModelConfigInvalid

/-- The two constructors; an error is the text of the exception they throw. -/
def demoBackend (modelName : String) (modelVersion : Int) (config : ModelConfig) :
    Except String ModelBackend :=
  if processModelConfig config ≠ .success then .error "ProcessModelConfig() failed"
  else match createExecuteContexts config.instanceGroup with
    | .error _ => .error "CreateExecutionContexts failed"
    | .ok contexts => .ok ⟨modelName,modelVersion,config,.demo,contexts,0⟩

def createBackend (modelName : String) (modelVersion : Int) (config : ModelConfig)
    (backend : Option ModelBackend) : Status × Option ModelBackend :=
  match demoBackend modelName modelVersion config with
  | .ok created => (.success,some created)
  | .error _ => (.failedModelLoad,backend)

def createModelBackend (platform : Platform) (modelName : String) (modelVersion : Int)
    (config : ModelConfig) (backend : Option ModelBackend) : Status × Option ModelBackend :=
  match platform with
  | .demo => createBackend modelName modelVersion config backend
  | _ => (.failedModelConfigPlatformUnknown,backend)

/-- A backend that was created carries the name and version it was created for. -/
theorem demoBackend_named {name : String} {version : Int} {config : ModelConfig} {b : ModelBackend}
    (created : demoBackend name version config = .ok b) :
    b.modelName = name ∧ b.modelVersion = version := by
  unfold demoBackend at created
  split at created
  · contradiction
  · split at created
    · contradiction
    · cases created; exact ⟨rfl,rfl⟩

theorem createModelBackend_success {platform : Platform} {name : String} {version : Int}
    {config : ModelConfig} {backend result : Option ModelBackend}
    (created : createModelBackend platform name version config backend = (.success,result)) :
    ∃ b, result = some b ∧ b.modelName = name ∧ b.modelVersion = version := by
  unfold createModelBackend createBackend at created
  split at created
  · cases made : demoBackend name version config with
    | error text => simp [made] at created
    | ok b =>
      simp only [made,Prod.mk.injEq,true_and] at created
      exact ⟨b,created.symm,demoBackend_named made⟩
  · simp at created

inductive RunEntry where
  | refused
  | inContext (index : Nat)
  | pastEnd
  deriving DecidableEq, Repr

/-- The guard compares with `>`, so an index equal to the number of contexts passes it. -/
def ModelBackend.runEntry (b : ModelBackend) (idx : Int) : RunEntry :=
  if idx < 0 ∨ b.contexts.length < idx.toNat then .refused
  else if idx.toNat < b.contexts.length then .inContext idx.toNat
  else .pastEnd

/-- The value of a `std::atomic<int>`, whose arithmetic wraps. -/
def atomicInt (n : Int) : Int := n.bmod (2^32)

/-- `Run` up to `context->Run`: the counter goes up before the index is looked at. -/
def ModelBackend.enterRun (b : ModelBackend) : ModelBackend :=
  { b with runningInferenceProcess := atomicInt (b.runningInferenceProcess + 1) }

/-- The end of `Run`. A refused call returns without taking the counter down. -/
def ModelBackend.leaveRun (b : ModelBackend) (entry : RunEntry) : ModelBackend :=
  if entry = .refused then b
  else { b with runningInferenceProcess := atomicInt (b.runningInferenceProcess - 1) }

def ModelBackend.waits (b : ModelBackend) : Bool := 0 < b.runningInferenceProcess

theorem runEntry_inContext {b : ModelBackend} {idx : Int} (nonneg : 0 ≤ idx)
    (below : idx < b.getInstanceNum) : b.runEntry idx = .inContext idx.toNat := by
  unfold ModelBackend.getInstanceNum at below
  have low : ¬(idx < 0 ∨ b.contexts.length < idx.toNat) := by omega
  have inside : idx.toNat < b.contexts.length := by omega
  rw [ModelBackend.runEntry,if_neg low,if_pos inside]

theorem runEntry_below {b : ModelBackend} {idx : Int} {i : Nat}
    (entry : b.runEntry idx = .inContext i) : i < b.contexts.length := by
  unfold ModelBackend.runEntry at entry
  split_ifs at entry with _ below
  cases entry
  exact below

theorem runEntry_pastEnd {b : ModelBackend} {idx : Int} :
    b.runEntry idx = .pastEnd ↔ idx = b.contexts.length := by
  unfold ModelBackend.runEntry
  split_ifs <;> simp only [false_iff,true_iff] <;> omega

theorem runEntry_outside {b : ModelBackend} {idx : Int}
    (outside : ¬(0 ≤ idx ∧ idx < b.contexts.length)) :
    b.runEntry idx = .refused ∨ b.runEntry idx = .pastEnd := by
  unfold ModelBackend.runEntry
  split
  · exact .inl rfl
  next passed =>
    rw [if_neg (by omega)]
    exact .inr rfl

end InferenceServer
