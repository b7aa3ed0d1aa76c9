import InferenceServer.InFlight

/-! Hot updates: what the workers of a scheduler run while `LoadModels` replaces the backend
that its function is bound to. -/
namespace InferenceServer.Server

open Store

variable {config : ServerConfig} {sv sv' : Server}

/-- A `reset` of an update finds no worker inside `Run` of the backend it destroys. -/
def retired (sv : Server) (a : ServerAction) : Bool :=
  match a, sv.cycle with
  | .cycle .reset, .resetting info _ => (List.range sv.nextScheduler).all fun k =>
    (sv.schedulers k).threads.all fun t =>
      t.pc.inside?.isNone || t.pc.inside? != info.bind (·.backend)
  | _, _ => true

theorem retired_iff {info : Option BackendInfo} {lists : StateUpdate} {b : Nat}
    (reach : (machine config).Reachable sv) (here : sv.cycle = .resetting info lists)
    (owned : info.bind (·.backend) = some b) :
    retired sv (.cycle .reset) = true ↔ ∀ j, ¬Running sv j b := by
  simp only [retired,here,owned,List.all_eq_true,List.mem_range,Bool.or_eq_true,
    Option.isNone_iff_eq_none,bne_iff_ne]
  constructor
  · rintro none j running
    have created := running_created reach running
    obtain ⟨w,t,atIndex,inside⟩ := running
    rcases none j created t (List.mem_of_getElem? atIndex) with empty | other
    · rw [inside] at empty
      contradiction
    · exact other inside
  · intro none k _ t member
    obtain ⟨w,bound,rfl⟩ := List.getElem_of_mem member
    exact .inr fun inside => none k ⟨w,_,List.getElem?_eq_getElem bound,inside⟩

/-- A backend destroyed by an update is in no call, and none can be begun. -/
def Retired (sv : Server) : Prop :=
  ∀ b, (sv.backends b).released = some .update →
    (∀ j, ¬Running sv j b) ∧
    ∀ k w sv', sv.step (.worker k w .call) = some sv' → (sv.schedulers k).inferFunc ≠ b

/-- No call is begun on a backend that an update has destroyed. -/
theorem call_unreleased (reach : (machine config).Reachable sv) {b k w : Nat}
    (released : (sv.backends b).released = some .update)
    (taken : sv.step (.worker k w .call) = some sv') : (sv.schedulers k).inferFunc ≠ b := by
  have created : k < sv.nextScheduler := by
    by_contra past
    have unborn := reachable_unborn reach k (Nat.le_of_not_lt past)
    cases workerStep_effect taken with
    | quiet stepped | call stepped | ret stepped =>
      rw [unborn] at stepped
      simp [Scheduler.workerStep,Scheduler.create] at stepped
  exact (reachable_valid reach).sane.updated b released k created

theorem retired_idle
    (reach : (machine config).ReachableBy (fun sv a => retired sv a = true) sv) :
    ∀ b, (sv.backends b).released = some .update → ∀ j, ¬Running sv j b := by
  refine reach.invariant (P := fun sv => ∀ b, (sv.backends b).released = some .update →
    ∀ j, ¬Running sv j b) (by simp [machine,create]) ?_
  intro sv a sv' before valid met taken b released j running
  rcases step_running before.reachable taken running with inside | ⟨bound,created,w,call⟩
  · rcases step_released taken released with old | ⟨_,_,_,_,_,cause⟩ | ⟨info,lists,reset,here,owned,_⟩
    · exact valid b old j inside
    · contradiction
    · subst a
      exact (retired_iff before.reachable here owned).mp met j inside
  · rcases step_released taken released with old | ⟨_,_,_,_,_,cause⟩ | ⟨_,_,reset,_⟩
    · exact (reachable_valid before.reachable).sane.updated b old j created bound.symm
    · contradiction
    · rw [reset] at call
      contradiction

/-- If every `reset` of a run finds the workers out of the backend it destroys, none is ever
inside or enters a backend that an update destroyed; and a `reset` that finds one inside
leaves it there. -/
theorem released_unused_iff_retired (config : ServerConfig) :
    (∀ sv, (machine config).ReachableBy (fun sv a => retired sv a = true) sv → Retired sv) ∧
    (∀ sv a sv', (machine config).Reachable sv → sv.step a = some sv' → retired sv a = false →
      ¬Retired sv') := by
  constructor
  · intro sv reach b released
    exact ⟨retired_idle reach b released,
      fun k w sv' taken => call_unreleased reach.reachable released taken⟩
  · intro sv a sv' reach taken used valid
    have seen := used
    unfold retired at seen
    split at seen
    next info lists here =>
      cases owned : info.bind (·.backend) with
      | none =>
        rw [owned] at seen
        simp at seen
      | some b =>
        have busy : ¬∀ j, ¬Running sv j b := fun none => by
          rw [(retired_iff reach here owned).mpr none] at used
          contradiction
        obtain ⟨j,running⟩ := not_forall_not.mp busy
        have reset : sv' = { sv.release info .update with cycle := .updating lists } := by
          simpa [step,cycleStep,here] using taken.symm
        have released : (sv'.backends b).released = some .update := by
          rw [reset]
          simp [release,owned]
        refine (valid b released).1 j ?_
        rw [reset]
        exact running
    · contradiction

def refreshRun (name : String) (n : Nat) : List ServerAction :=
  List.map ServerAction.updater [.enter,.test,.timeout,.decide] ++
  List.map ServerAction.cycle [.list [name],.mark,.scan (some (cpuConfig n)) ["1","2"],.check,
    .next,.next,.load (some (cpuConfig n))]

def updateRun : List ServerAction :=
  List.map ServerAction.cycle [.lock,.install,.swap,.reset]

/-- A worker that began its call before the update is in it after the `reset`. -/
theorem updated_in_use : ∃ (config : ServerConfig) (sv : Server),
    (machine config).Reachable sv ∧ (sv.backends 0).released = some .update ∧ Running sv 0 0 := by
  obtain ⟨sv,reach,seen⟩ := Transition.Machine.exec_observed (m := machine ⟨true,4⟩)
    (startRun "m" 1 ++ submitRun 0 "m" ++ workerRun 0 [.test,.pop none,.copy,.call] ++
      refreshRun "m" 1 ++ updateRun)
    (fun sv => ((sv.backends 0).released,(sv.schedulers 0).threads))
    (some .update,[⟨0,.running ⟨0,"m",-1⟩ 0⟩]) rfl
  simp only [Prod.mk.injEq] at seen
  exact ⟨_,sv,reach,seen.1,0,_,by rw [seen.2]; rfl,rfl⟩

def servedRun : List ServerAction :=
  startRun "m" 1 ++ submitRun 0 "m" ++
  workerRun 0 [.test,.pop none,.copy,.call,.ret .success,.complete] ++ refreshRun "m" 1 ++ updateRun

theorem released_unused_served : ∃ sv : Server,
    (sv.backends 0).released = some .update ∧ Retired sv := by
  obtain ⟨sv,reach,released⟩ := Transition.Machine.exec_observed
    (m := (machine ⟨true,4⟩).restrict fun sv a => retired sv a = true) servedRun
    (fun sv => (sv.backends 0).released) (some .update) rfl
  exact ⟨sv,released,
    (released_unused_iff_retired _).1 sv (Transition.Machine.restrict_reachable reach)⟩

/-- The backend that starts a model has no more contexts than an `int` can count, and one
that an update installs has as many as there are workers. -/
def matched (sv : Server) (a : ServerAction) : Bool :=
  match a, sv.cycle with
  | .cycle .construct, .constructing info _ _ => match info.backend with
    | some b => decide ((sv.backends b).object.getInstanceNum < 2^31)
    | none => true
  | .cycle .install, .installing info name _ =>
    match sv.modelMap.lookup name, info.backend with
    | some context, some b => decide
        ((sv.schedulers context.scheduler).totalRunners = (sv.backends b).object.getInstanceNum)
    | _, _ => true
  | _, _ => true

/-- With the mutex free a model has as many workers as its backend has contexts, and every
call a worker is inside of has got a context. -/
def Matched (sv : Server) : Prop :=
  (sv.modelMapMu = none → ∀ name context, sv.modelMap.lookup name = some context →
    (sv.schedulers context.scheduler).totalRunners =
      (sv.backends (sv.schedulers context.scheduler).inferFunc).object.getInstanceNum) ∧
  ∀ (k w : Nat) t p b, (sv.schedulers k).threads[w]? = some t → t.pc = .running p b →
    0 ≤ t.idx ∧ t.idx < (sv.backends b).object.contexts.length ∧
    (sv.backends b).object.runEntry t.idx = .inContext t.idx.toNat

structure Fitting (sv : Server) : Prop where
  installed : ∀ k < sv.nextScheduler, (sv.schedulers k).totalRunners =
    (sv.backends (sv.schedulers k).inferFunc).object.getInstanceNum
  running : ∀ j b, Running sv j b →
    (sv.schedulers j).totalRunners = (sv.backends b).object.getInstanceNum

theorem step_fitting {a : ServerAction} (reach : (machine config).Reachable sv)
    (met : matched sv a = true) (taken : sv.step a = some sv') (valid : Fitting sv) :
    Fitting sv' := by
  have stored := reachable_valid reach
  have inRange (k : Nat) (created : k < sv.nextScheduler) :
      (sv.schedulers k).inferFunc < sv.nextBackend := stored.sane.inRange k created
  have instances {b : Nat} (old : b < sv.nextBackend) :
      (sv'.backends b).object.getInstanceNum = (sv.backends b).object.getInstanceNum :=
    congrArg List.length ((step_objects taken).2 b old).2.2
  constructor
  · intro k below
    cases step_binding taken below with
    | kept old same =>
      rw [kept_totalRunners reach taken old,same,instances (inRange k old)]
      exact valid.installed k old
    | @created info _ _ b this pc owned _ binds =>
      obtain ⟨⟨_,loaded⟩,_⟩ := loaded_waiting stored (by rw [pc]; rfl) owned
      have small : (sv.backends b).object.getInstanceNum < 2^31 := by
        simpa [matched,this,pc,owned] using met
      rw [binds]
      simp only [Scheduler.create,instances loaded.created]
      exact toInt32_eq small
    | @replaced info _ _ context b this pc present here owned binds =>
      obtain ⟨⟨_,loaded⟩,_⟩ := loaded_waiting stored (by rw [pc]; rfl) owned
      obtain ⟨held,_⟩ := stored.sane.entry _ _ present
      subst k
      rw [binds,kept_totalRunners reach taken held.created,instances loaded.created]
      simpa [matched,this,pc,present,owned] using met
  · intro j b running
    rcases step_running reach taken running with inside | ⟨rfl,created,_⟩
    · rw [kept_totalRunners reach taken (running_created reach inside),
        instances ((reachable_private reach).inRange j b inside)]
      exact valid.running j b inside
    · rw [kept_totalRunners reach taken created,instances (inRange j created)]
      exact valid.installed j created

theorem matched_fitting
    (reach : (machine config).ReachableBy (fun sv a => matched sv a = true) sv) : Fitting sv := by
  refine reach.invariant (P := Fitting) ⟨by simp [machine,create],?_⟩ ?_
  · rintro j b ⟨w,t,atIndex,_⟩
    simp [machine,create,Scheduler.create] at atIndex
  · intro sv a sv' before valid met taken
    exact step_fitting before.reachable met taken valid

/-- If every backend a run installs has as many contexts as there are workers, workers and
contexts stay matched; an update that installs another number ends with a mismatch. -/
theorem workers_matched_iff_instances (config : ServerConfig) :
    (∀ sv, (machine config).ReachableBy (fun sv a => matched sv a = true) sv → Matched sv) ∧
    (∀ sv sv', (machine config).Reachable sv → sv.step (.cycle .install) = some sv' →
      matched sv (.cycle .install) = false →
      ∃ sv'', sv'.step (.cycle .swap) = some sv'' ∧ ¬Matched sv'') := by
  constructor
  · intro sv reach
    have fitting := matched_fitting reach
    constructor
    · intro free name context present
      obtain ⟨held,_⟩ := (reachable_valid reach.reachable).sane.entry name context present
      exact fitting.installed _ held.created
    · intro k w t p b atIndex inside
      have staffed := reachable_staffed reach.reachable k
      have same := fitting.running k b ⟨w,t,atIndex,by rw [inside]; rfl⟩
      have position := staffed.numbered w t atIndex
      have bound := (List.getElem?_eq_some_iff.mp atIndex).1
      have length := staffed.length_le
      have nonneg : 0 ≤ t.idx := by omega
      have below : t.idx < (sv.backends b).object.getInstanceNum := by omega
      exact ⟨nonneg,below,runEntry_inContext nonneg below⟩
  · intro sv sv' reach taken other
    cases cycleStep_cases taken with
    | @install info name lists context b here present owned =>
      have differs : (sv.schedulers context.scheduler).totalRunners ≠
          (sv.backends b).object.getInstanceNum := by
        simpa [matched,here,present,owned] using other
      refine ⟨_,by simp [step,cycleStep,setScheduler,present]; rfl,fun valid => differs ?_⟩
      have entry := valid.1 rfl name _ (AList.lookup_insert _)
      simpa [setScheduler,Scheduler.updateBackendInferFunc] using entry

theorem workers_matched_served : ∃ sv : Server,
    (sv.schedulers 0).inferFunc = 1 ∧ Matched sv := by
  obtain ⟨sv,reach,updated⟩ := Transition.Machine.exec_observed
    (m := (machine ⟨true,4⟩).restrict fun sv a => matched sv a = true) servedRun
    (fun sv => (sv.schedulers 0).inferFunc) 1 rfl
  exact ⟨sv,updated,
    (workers_matched_iff_instances _).1 sv (Transition.Machine.restrict_reachable reach)⟩

/-- A model with two workers is updated to a backend with one context. -/
theorem updated_mismatched : ∃ (config : ServerConfig) (sv : Server),
    (machine config).Reachable sv ∧ sv.modelMapMu = none ∧
    (sv.modelMap.lookup "m").map (·.scheduler) = some 0 ∧ (sv.schedulers 0).totalRunners = 2 ∧
    (sv.schedulers 0).inferFunc = 1 ∧ (sv.backends 1).object.contexts.length = 1 ∧
    ∃ t p, (sv.schedulers 0).threads[1]? = some t ∧ t.pc = .running p 1 ∧
      (sv.backends 1).object.runEntry t.idx = .pastEnd := by
  obtain ⟨sv,reach,seen⟩ := Transition.Machine.exec_observed (m := machine ⟨true,4⟩)
    (startRun "m" 2 ++ refreshRun "m" 1 ++ updateRun ++ submitRun 0 "m" ++
      List.map (ServerAction.worker 0 1) [.test,.pop none,.copy,.call])
    (fun sv => (sv.modelMapMu,(sv.modelMap.lookup "m").map (·.scheduler),
      (sv.schedulers 0).totalRunners,(sv.schedulers 0).inferFunc,
      (sv.backends 1).object.contexts.length,(sv.schedulers 0).threads[1]?))
    (none,some 0,2,1,1,some ⟨1,.running ⟨0,"m",-1⟩ 1⟩) rfl
  simp only [Prod.mk.injEq] at seen
  obtain ⟨free,entry,runners,bound,one,thread⟩ := seen
  exact ⟨_,sv,reach,free,entry,runners,bound,one,_,_,thread,rfl,
    by simp [ModelBackend.runEntry,one]⟩

/-- Worker `w` of scheduler `k` is inside `Run` of context `i` of backend `b`, or may be, since what
lies past the last context of its own backend can be any pointer. -/
def InContext (sv : Server) (b i k w : Nat) : Prop :=
  ∃ t f, (sv.schedulers k).threads[w]? = some t ∧ t.pc.inside? = some f ∧
    (f = b ∧ (sv.backends f).object.runEntry t.idx = .inContext i ∨
      (sv.backends f).object.runEntry t.idx = .pastEnd ∧
        i < (sv.backends b).object.contexts.length)

/-- No context is entered by two workers, be its backend the current one of a model or one
that an update has replaced. -/
def Alone (sv : Server) : Prop :=
  ∀ b i k w k' w', InContext sv b i k w → InContext sv b i k' w' → k = k' ∧ w = w'

/-- A worker that calls has not the number of contexts as its index. -/
def seated (sv : Server) (a : ServerAction) : Bool :=
  match a with
  | .worker k w .call => match (sv.schedulers k).threads[w]? with
    | some t => t.idx ≠ (sv.backends (sv.schedulers k).inferFunc).object.contexts.length
    | none => true
  | _ => true

theorem staffed_bound (reach : (machine config).Reachable sv) {k w : Nat}
    {t : Worker Payload Nat} (atIndex : (sv.schedulers k).threads[w]? = some t) :
    (sv.schedulers k).inferFunc < sv.nextBackend := by
  refine (reachable_valid reach).sane.inRange k ?_
  by_contra past
  rw [reachable_unborn reach k (Nat.le_of_not_lt past)] at atIndex
  simp [Scheduler.create] at atIndex

theorem step_contexts {a : ServerAction} (taken : sv.step a = some sv') {b : Nat}
    (old : b < sv.nextBackend) :
    (sv'.backends b).object.contexts = (sv.backends b).object.contexts :=
  ((step_objects taken).2 b old).2.2

/-- No call in progress has read past the last context. -/
theorem seated_inside
    (reach : (machine config).ReachableBy (fun sv a => seated sv a = true) sv) :
    ∀ (k w : Nat) t b, (sv.schedulers k).threads[w]? = some t → t.pc.inside? = some b →
      t.idx ≠ (sv.backends b).object.contexts.length := by
  refine reach.invariant (P := fun sv => ∀ (k w : Nat) t b,
    (sv.schedulers k).threads[w]? = some t → t.pc.inside? = some b →
      t.idx ≠ (sv.backends b).object.contexts.length)
    (by simp [machine,create,Scheduler.create]) ?_
  intro sv a sv' before valid met taken k w t b atIndex inside
  have reach := before.reachable
  have taken : sv.step a = some sv' := taken
  rcases step_inside reach taken atIndex inside with
    ⟨t',before,same,still⟩ | ⟨rfl,rfl,t',before,same⟩
  · rw [← same,step_contexts taken ((reachable_private reach).inRange k b ⟨w,t',before,still⟩)]
    exact valid k w t' b before still
  · rw [← same,step_contexts taken (staffed_bound reach before)]
    simpa [seated,before] using met

/-- The position of the context is the number of the worker. -/
theorem entered_numbered (reach : (machine config).Reachable sv) {b i k w : Nat}
    {t : Worker Payload Nat} (atIndex : (sv.schedulers k).threads[w]? = some t)
    (entry : (sv.backends b).object.runEntry t.idx = .inContext i) : i = w := by
  have position := (reachable_staffed reach k).numbered w t atIndex
  unfold ModelBackend.runEntry at entry
  split at entry
  · contradiction
  split at entry
  · cases entry
    rw [position,Int.toNat_natCast]
  · contradiction

theorem seated_alone
    (reach : (machine config).ReachableBy (fun sv a => seated sv a = true) sv) : Alone sv := by
  have placed {b i k w : Nat} (inside : InContext sv b i k w) : Running sv k b ∧ i = w := by
    obtain ⟨t,f,atIndex,running,⟨rfl,entry⟩ | ⟨past,_⟩⟩ := inside
    · exact ⟨⟨w,t,atIndex,running⟩,entered_numbered reach.reachable atIndex entry⟩
    · exact absurd (runEntry_pastEnd.mp past) (seated_inside reach k w t f atIndex running)
  intro b i k w k' w' inside inside'
  obtain ⟨running,number⟩ := placed inside
  obtain ⟨running',number'⟩ := placed inside'
  exact ⟨(reachable_private reach.reachable).alone k k' b running running',
    number.symm.trans number'⟩

/-- A call that is not seated can be inside every context there is. -/
theorem unseated_anywhere {k w : Nat} (reach : (machine config).Reachable sv)
    (taken : sv.step (.worker k w .call) = some sv')
    (unseated : seated sv (.worker k w .call) = false) {b i : Nat}
    (there : i < (sv'.backends b).object.contexts.length) : InContext sv' b i k w := by
  have stepped : sv.workerStep k w .call = some sv' := taken
  cases workerStep_effect stepped with
  | quiet _ plain => exact absurd rfl plain
  | ret _ call => contradiction
  | call moved =>
    obtain ⟨t,atIndex,cases⟩ := Scheduler.workerStep_cases moved
    have bound := (List.getElem?_eq_some_iff.mp atIndex).1
    have size : t.idx = (sv.backends (sv.schedulers k).inferFunc).object.contexts.length := by
      simpa [seated,atIndex] using unseated
    rw [← step_contexts taken (staffed_bound reach atIndex)] at size
    cases cases with
    | @call p _ pc =>
      refine ⟨⟨t.idx,.running p (sv.schedulers k).inferFunc⟩,_,?_,rfl,
        .inr ⟨runEntry_pastEnd.mpr size,there⟩⟩
      simp [setScheduler,Scheduler.setWorker,List.getElem?_set_self bound]

/-- If no call of a run has the number of contexts as its index, no two workers are ever in one
context; after one that has, that is so only if no other worker is in any. -/
theorem contexts_entered_alone (config : ServerConfig) :
    (∀ sv, (machine config).ReachableBy (fun sv a => seated sv a = true) sv → Alone sv) ∧
    (∀ sv k w sv', (machine config).Reachable sv → sv.step (.worker k w .call) = some sv' →
      seated sv (.worker k w .call) = false →
      (Alone sv' ↔ ∀ b i k' w', InContext sv' b i k' w' → k' = k ∧ w' = w)) := by
  refine ⟨fun sv reach => seated_alone reach,fun sv k w sv' reach taken unseated => ?_⟩
  constructor
  · intro alone b i k' w' inside
    have there : i < (sv'.backends b).object.contexts.length := by
      obtain ⟨t,_,_,_,⟨rfl,entry⟩ | ⟨_,there⟩⟩ := inside
      · exact runEntry_below entry
      · exact there
    exact alone b i k' w' k w inside (unseated_anywhere reach taken unseated there)
  · intro only b i k₁ w₁ k₂ w₂ inside₁ inside₂
    obtain ⟨rfl,rfl⟩ := only b i k₁ w₁ inside₁
    obtain ⟨rfl,rfl⟩ := only b i k₂ w₂ inside₂
    exact ⟨rfl,rfl⟩

def calls (sv : Server) (k : Nat) : List (Int × Option Nat) :=
  (sv.schedulers k).threads.map fun t => (t.idx,t.pc.inside?)

theorem inContext_of_calls {b i k w f : Nat} {idx : Int}
    (call : (calls sv k)[w]? = some (idx,some f))
    (place : f = b ∧ (sv.backends f).object.runEntry idx = .inContext i ∨
      (sv.backends f).object.runEntry idx = .pastEnd ∧
        i < (sv.backends b).object.contexts.length) : InContext sv b i k w := by
  rw [calls,List.getElem?_map] at call
  obtain ⟨t,atIndex,same⟩ := Option.map_eq_some_iff.mp call
  obtain ⟨rfl,inside⟩ := Prod.mk.inj same
  exact ⟨t,f,atIndex,inside,place⟩

/-- One worker is still in the old backend, the other already in the new one. -/
theorem contexts_entered_straddling : ∃ sv : Server,
    InContext sv 0 0 0 0 ∧ InContext sv 1 1 0 1 ∧ Alone sv := by
  obtain ⟨sv,reach,seen⟩ := Transition.Machine.exec_observed
    (m := (machine ⟨true,4⟩).restrict fun sv a => seated sv a = true)
    (startRun "m" 2 ++ submitRun 0 "m" ++ workerRun 0 [.test,.pop none,.copy,.call] ++
      refreshRun "m" 2 ++ updateRun ++ submitRun 1 "m" ++
      List.map (ServerAction.worker 0 1) [.test,.pop none,.copy,.call])
    (fun sv => (calls sv 0,(sv.backends 0).object.contexts.length,
      (sv.backends 1).object.contexts.length))
    ([(0,some 0),(1,some 1)],2,2) (by decide +kernel)
  simp only [Prod.mk.injEq] at seen
  obtain ⟨calls,old,new⟩ := seen
  exact ⟨sv,
    inContext_of_calls (by rw [calls]; rfl) (.inl ⟨rfl,by simp [ModelBackend.runEntry,old]⟩),
    inContext_of_calls (by rw [calls]; rfl) (.inl ⟨rfl,by simp [ModelBackend.runEntry,new]⟩),
    (contexts_entered_alone _).1 sv (Transition.Machine.restrict_reachable reach)⟩

/-- A model with two workers is updated to a backend with one context. Worker 0 is in it when
worker 1 reads past it. -/
theorem contexts_entered_together : ∃ (config : ServerConfig) (sv : Server),
    (machine config).Reachable sv ∧ InContext sv 1 0 0 0 ∧ InContext sv 1 0 0 1 := by
  obtain ⟨sv,reach,seen⟩ := Transition.Machine.exec_observed (m := machine ⟨true,4⟩)
    (startRun "m" 2 ++ refreshRun "m" 1 ++ updateRun ++ submitRun 0 "m" ++
      workerRun 0 [.test,.pop none,.copy,.call] ++ submitRun 1 "m" ++
      List.map (ServerAction.worker 0 1) [.test,.pop none,.copy,.call])
    (fun sv => (calls sv 0,(sv.backends 1).object.contexts.length))
    ([(0,some 1),(1,some 1)],1) (by decide +kernel)
  simp only [Prod.mk.injEq] at seen
  obtain ⟨calls,one⟩ := seen
  exact ⟨_,sv,reach,
    inContext_of_calls (by rw [calls]; rfl) (.inl ⟨rfl,by simp [ModelBackend.runEntry,one]⟩),
    inContext_of_calls (by rw [calls]; rfl)
      (.inr ⟨by simp [ModelBackend.runEntry,one],by simp [one]⟩)⟩

end InferenceServer.Server
