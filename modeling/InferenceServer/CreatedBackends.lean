import InferenceServer.Backend
import InferenceServer.SchedulerLifecycle

/-! What `CreateBackend` accepts, and how many contexts and workers an accepted
configuration gets. -/
namespace InferenceServer

/-- `instance_group.count`: the number of instances, 1 if it is not set. -/
def ModelInstanceGroup.instances (g : ModelInstanceGroup) : Int :=
  if g.count = 0 then 1 else g.count

def ModelConfig.instances (config : ModelConfig) : Int :=
  (config.instanceGroup.map (·.instances)).sum

def ModelConfig.positiveCounts (config : ModelConfig) : Nat :=
  (config.instanceGroup.map (·.count.toNat)).sum

def ModelConfig.negativeCounts (config : ModelConfig) : Nat :=
  (config.instanceGroup.map fun g => (-g.count).toNat).sum

def ModelConfig.unsetCounts (config : ModelConfig) : Nat :=
  (config.instanceGroup.filter (·.count = 0)).length

structure ModelConfig.Accepted (config : ModelConfig) : Prop where
  platform : config.platform.isEmpty = false
  some : config.instanceGroup ≠ []
  groups : ∀ g ∈ config.instanceGroup, g.accepted = true ∧ (0 < g.count → g.kind = .cpu)

theorem processModelConfig_success_iff (config : ModelConfig) :
    processModelConfig config = .success ↔ config.platform.isEmpty = false ∧
      config.instanceGroup ≠ [] ∧ ∀ g ∈ config.instanceGroup, g.accepted = true := by
  unfold processModelConfig
  cases config.platform.isEmpty <;> cases config.instanceGroup <;> simp

theorem createExecuteContexts_ok {groups : List ModelInstanceGroup}
    (cpu : ∀ g ∈ groups, 0 < g.count → g.kind = .cpu) :
    ∃ contexts, createExecuteContexts groups = .ok contexts ∧
      contexts.length = (groups.map (·.count.toNat)).sum := by
  induction groups with
  | nil => exact ⟨[],rfl,rfl⟩
  | cons g rest ih =>
    obtain ⟨here,later⟩ := List.forall_mem_cons.mp cpu
    obtain ⟨contexts,created,length⟩ := ih later
    unfold createExecuteContexts
    split
    next none =>
      refine ⟨contexts,created,?_⟩
      have zero : g.count.toNat = 0 := by omega
      simp [length,zero]
    next some =>
      rw [if_pos (here (by omega)),created]
      refine ⟨_,rfl,?_⟩
      simp [length]

theorem createExecuteContexts_cpu {groups : List ModelInstanceGroup}
    {contexts : List BackendContext} (created : createExecuteContexts groups = .ok contexts) :
    ∀ g ∈ groups, 0 < g.count → g.kind = .cpu := by
  induction groups generalizing contexts with
  | nil => simp
  | cons g rest ih =>
    unfold createExecuteContexts at created
    split at created
    next none => exact List.forall_mem_cons.mpr ⟨fun some => absurd some (by omega),ih created⟩
    split at created
    next cpu =>
      cases others : createExecuteContexts rest with
      | error => simp [others,Except.map] at created
      | ok => exact List.forall_mem_cons.mpr ⟨fun _ => cpu,ih others⟩
    · contradiction

theorem demoBackend_ok_iff (name : String) (version : Int) {config : ModelConfig} :
    (∃ b, demoBackend name version config = .ok b) ↔ config.Accepted := by
  unfold demoBackend
  constructor
  · rintro ⟨b,created⟩
    split at created
    · contradiction
    next processed =>
      obtain ⟨platform,some,groups⟩ :=
        (processModelConfig_success_iff config).mp (not_not.mp processed)
      cases contexts : createExecuteContexts config.instanceGroup with
      | error => simp [contexts] at created
      | ok =>
        have cpu := createExecuteContexts_cpu contexts
        exact ⟨platform,some,fun g member => ⟨groups g member,cpu g member⟩⟩
  · intro accepted
    have processed := (processModelConfig_success_iff config).mpr
      ⟨accepted.platform,accepted.some,fun g member => (accepted.groups g member).1⟩
    obtain ⟨contexts,created,_⟩ :=
      createExecuteContexts_ok fun g member => (accepted.groups g member).2
    rw [if_neg (not_not.mpr processed),created]
    exact ⟨_,rfl⟩

theorem demoBackend_instances {name : String} {version : Int} {config : ModelConfig}
    {b : ModelBackend} (created : demoBackend name version config = .ok b) :
    b.getInstanceNum = config.positiveCounts := by
  unfold demoBackend at created
  split at created
  · contradiction
  cases made : createExecuteContexts config.instanceGroup with
  | error => simp [made] at created
  | ok contexts =>
    obtain ⟨others,same,length⟩ := createExecuteContexts_ok (createExecuteContexts_cpu made)
    simp only [made,Except.ok.injEq] at created same
    subst created same
    exact length

theorem instances_eq (config : ModelConfig) :
    config.instances = config.positiveCounts + config.unsetCounts - config.negativeCounts := by
  unfold ModelConfig.instances ModelConfig.positiveCounts ModelConfig.unsetCounts
    ModelConfig.negativeCounts
  induction config.instanceGroup with
  | nil => rfl
  | cons g rest ih =>
    have here : g.instances = if g.count = 0 then 1 else g.count := rfl
    simp only [List.map_cons,List.sum_cons,List.filter_cons,ih,here]
    by_cases unset : g.count = 0
    · simp [unset]
      omega
    · simp only [unset,decide_false,if_false,Bool.false_eq_true]
      omega

namespace Scheduler

variable {π φ : Type}

theorem orderly_staffed {maxQueueSize totalRunners : Int} {func : φ} {sc : Scheduler π φ}
    (reach : (machine maxQueueSize totalRunners func).ReachableBy Orderly sc) :
    Staffed sc ∧ sc.totalRunners = totalRunners := by
  apply reach.invariant (P := fun sc => Staffed sc ∧ sc.totalRunners = totalRunners)
    ⟨create_staffed maxQueueSize totalRunners func,rfl⟩
  intro sc a sc' _ held orderly taken
  exact ⟨step_staffed orderly taken held.1,(step_totalRunners taken).trans held.2⟩

theorem started_workers_iff (maxQueueSize totalRunners : Int) (func : φ) :
    (∀ sc : Scheduler π φ, (machine maxQueueSize totalRunners func).ReachableBy Orderly sc →
      sc.control = .startReturned .success → sc.threads ≠ []) ↔ 1 ≤ totalRunners := by
  constructor
  · intro workers
    by_contra few
    have none : totalRunners ≤ 0 := by omega
    have fresh : (machine maxQueueSize totalRunners func).ReachableBy Orderly
      (create maxQueueSize totalRunners func : Scheduler π φ) := .start
    obtain ⟨sc,begun,at_zero,runners,nobody⟩ : ∃ sc : Scheduler π φ,
        (machine maxQueueSize totalRunners func).ReachableBy Orderly sc ∧
        sc.control = .starting 0 ∧ sc.totalRunners = totalRunners ∧ sc.threads = [] :=
      ⟨_,fresh.step (a := .control .start) ⟨fun _ => rfl,by simp⟩ rfl,rfl,rfl,rfl⟩
    have ends : sc.step (.control .spawn) =
        some { sc with control := .startReturned .success } := by
      simp [step,controlStep,at_zero,runners,none]
    have orderly : Orderly sc (.control .spawn) := ⟨by simp,by simp⟩
    exact workers _ (begun.step orderly ends) rfl nobody
  · intro some sc reach started
    obtain ⟨staffed,runners⟩ := orderly_staffed reach
    have phase := staffed.phase
    simp only [Phase,started,runners] at phase
    apply List.ne_nil_of_length_pos
    omega

end Scheduler

section

variable (π : Type) {φ : Type} (maxQueueSize : Int) (func : φ)

/-- What a created backend has to be able to do: its groups are on the CPU, it has the
documented number of contexts, and the scheduler for them gets a worker. A failed creation
leaves the old backend. -/
def CreatesServing (name : String) (version : Int) (config : ModelConfig)
    (backend : Option ModelBackend) : Prop :=
  (∀ after, createBackend name version config backend = (.success,after) →
    ∃ b, after = some b ∧ (∀ g ∈ config.instanceGroup, g.kind = .cpu ∧ g.gpus = []) ∧
      (b.getInstanceNum : Int) = config.instances ∧
      ∀ sc : Scheduler π φ, (Scheduler.machine maxQueueSize (toInt32 b.getInstanceNum)
        func).ReachableBy Scheduler.Orderly sc → sc.control = .startReturned .success →
          sc.threads ≠ []) ∧
  (∀ status after, createBackend name version config backend = (status,after) →
    status ≠ .success → after = backend)

/-- Every group is on the CPU with a count, or the unset counts make up for negative ones, and
the contexts can be numbered by an `int32_t`. -/
structure ModelConfig.Counted (config : ModelConfig) : Prop where
  cpu : ∀ g ∈ config.instanceGroup, g.kind = .cpu
  counts : config.unsetCounts = config.negativeCounts
  workers : 1 ≤ toInt32 config.positiveCounts

/-- A backend is created able to serve exactly if its configuration is rejected or counted. -/
theorem creates_serving_iff (name : String) (version : Int) (config : ModelConfig)
    (backend : Option ModelBackend) :
    CreatesServing π maxQueueSize func name version config backend ↔
      (config.Accepted → config.Counted) := by
  unfold CreatesServing createBackend
  have instances := instances_eq config
  constructor
  · rintro ⟨created,_⟩ accepted
    obtain ⟨b,made⟩ := (demoBackend_ok_iff name version).mpr accepted
    rw [made] at created
    obtain ⟨_,same,cpu,number,workers⟩ := created _ rfl
    cases same
    rw [demoBackend_instances made] at number workers
    refine ⟨fun g member => (cpu g member).1,by omega,?_⟩
    exact (Scheduler.started_workers_iff maxQueueSize _ func).mp workers
  · intro counted
    cases made : demoBackend name version config with
    | error text => exact ⟨by simp,fun _ _ same _ => (Prod.mk.inj same).2.symm⟩
    | ok b =>
      refine ⟨fun after same => ?_,fun status after same failed => ?_⟩
      · obtain ⟨_,rfl⟩ := Prod.mk.inj same
        have accepted := (demoBackend_ok_iff name version).mp ⟨b,made⟩
        obtain ⟨cpu,counts,workers⟩ := counted accepted
        refine ⟨b,rfl,fun g member => ⟨cpu g member,?_⟩,?_,?_⟩
        · have taken := (accepted.groups g member).1
          simpa [ModelInstanceGroup.accepted,cpu g member] using taken
        · rw [demoBackend_instances made]
          omega
        · rw [demoBackend_instances made]
          exact (Scheduler.started_workers_iff maxQueueSize _ func).mpr workers
      · exact absurd (Prod.mk.inj same).1.symm failed

end

def unsetConfig : ModelConfig := ⟨"demo",[⟨"cpu",.cpu,0,[]⟩]⟩

theorem unset_count_created : createBackend "m" 1 unsetConfig none =
    (.success,some ⟨"m",1,unsetConfig,.demo,[],0⟩) ∧ unsetConfig.instances = 1 ∧
    ¬CreatesServing Nat 4 false "m" 1 unsetConfig none := by
  refine ⟨by decide,by decide,fun serving => ?_⟩
  obtain ⟨_,same,_,number,_⟩ := serving.1 (some ⟨"m",1,unsetConfig,.demo,[],0⟩) (by decide)
  cases same
  contradiction

end InferenceServer
