import InferenceServer.InFlight
import InferenceServer.SchedulerCalls

/-! Which version serves a request: the one its model has when a worker calls, whatever
version the request names. -/
namespace InferenceServer

def Payload.accepts (p : Payload) (v : Int) : Bool := p.modelVersion = -1 || p.modelVersion = v

namespace Server

open Store Transition.Machine

variable {config : ServerConfig} {sv sv' : Server}

def boundVersion (sv : Server) (k : Nat) : Int :=
  (sv.backends (sv.schedulers k).inferFunc).object.modelVersion

/-- A request that finds its model accepts the version installed, and an update installs a
version that every request waiting in the queue accepts. -/
def served (sv : Server) (a : ServerAction) : Bool :=
  match a with
  | .caller c .lookup => match sv.callers c with
    | .entering p => match sv.modelMap.lookup p.modelName with
      | some context => context.backendInfo.all fun info => p.accepts info.modelVersion
      | none => true
    | _ => true
  | .cycle .install => match sv.cycle with
    | .installing info name _ => match sv.modelMap.lookup name with
      | some context =>
        let sc := sv.schedulers context.scheduler
        sc.queue.buffer.all (·.accepts info.modelVersion) &&
          sc.threads.all fun t => t.pc.waiting?.all (·.accepts info.modelVersion)
      | none => true
    | _ => true
  | _ => true

def Pending (sv : Server) (k : Nat) (p : Payload) : Prop :=
  (∃ c, sv.callers c = .enqueuing p k) ∨ (sv.schedulers k).Awaiting p

theorem step_pending {a : ServerAction} (reach : (machine config).Reachable sv)
    (taken : sv.step a = some sv') {k : Nat} {p : Payload} (pending : Pending sv' k p) :
    Pending sv k p ∨ ∃ c context, a = .caller c .lookup ∧ sv.callers c = .entering p ∧
      sv.modelMapMu = none ∧ sv.modelMap.lookup p.modelName = some context ∧
      context.scheduler = k := by
  rcases pending with ⟨c,inside⟩ | waits
  · by_cases mine : ∃ b, a = .caller c b
    · obtain ⟨b,rfl⟩ := mine
      cases callerStep_cases taken with
      | call | notFound | finish => simp [setCaller] at inside
      | found here free present =>
        simp only [setCaller,Function.update_self,CallerPc.enqueuing.injEq] at inside
        obtain ⟨rfl,rfl⟩ := inside
        exact .inr ⟨c,_,rfl,here,free,present,rfl⟩
      | enqueue => exact .inl (.inl ⟨c,inside⟩)
    · refine .inl (.inl ⟨c,?_⟩)
      by_cases other : ∃ d b, a = .caller d b
      · obtain ⟨d,b,rfl⟩ := other
        have apart : c ≠ d := fun same => mine ⟨b,by rw [same]⟩
        cases callerStep_cases taken with
        | enqueue => exact inside
        | call | notFound | found | finish =>
          simpa [setCaller,Function.update_of_ne apart] using inside
      · rwa [step_callers taken fun d b same => other ⟨d,b,same⟩] at inside
  · left
    cases reachable_moves reach taken k with
    | still same => rw [same] at waits; exact .inr waits
    | created _ _ same =>
      rw [same] at waits
      simp [Scheduler.Awaiting,Scheduler.create,BlockingQueue.create] at waits
    | moved _ _ _ stepped =>
      rcases Scheduler.step_awaiting stepped waits with old | ⟨c,_,_,pushing⟩
      · exact .inr old
      · have standing := (reachable_calls reach).standing k c
        rw [pushing] at standing
        exact .inl ⟨c,standing⟩

/-- Requests wait for, and were run by, a version that they accept. -/
structure Faithful (sv : Server) : Prop where
  pending : ∀ k p, Pending sv k p → p.accepts (sv.boundVersion k) = true
  invoked : ∀ k w idx f batch p, .invoked w idx f batch ∈ (sv.schedulers k).log → p ∈ batch →
    f < sv.nextBackend ∧ p.accepts (sv.backends f).object.modelVersion = true

theorem pending_created (reach : (machine config).Reachable sv) {k : Nat} {p : Payload}
    (pending : Pending sv k p) : k < sv.nextScheduler := by
  rcases pending with ⟨c,inside⟩ | waits
  · obtain ⟨context,present,rfl⟩ := reachable_placed reach c p k inside
    obtain ⟨held,_⟩ := (reachable_valid reach).sane.entry _ _ present
    exact held.created
  · by_contra past
    rw [reachable_unborn reach k (Nat.le_of_not_lt past)] at waits
    simp [Scheduler.Awaiting,Scheduler.create,BlockingQueue.create] at waits

theorem caller_alone (reach : (machine config).Reachable sv) {c k : Nat} {p : Payload}
    (inside : sv.callers c = .enqueuing p k) : sv.cycle.locked ≠ true := by
  intro locked
  have loader : Inside sv .loader := locked
  have caller : Inside sv (.caller c) := ⟨p,k,inside⟩
  have same := (reachable_locked reach).unique loader caller
  contradiction

/-- The backend that an update is about to install was loaded for the name under update. -/
theorem installing_loaded (reach : (machine config).Reachable sv) {info : BackendInfo}
    {name : String} {lists : StateUpdate} {b : Nat} (here : sv.cycle = .installing info name lists)
    (owned : info.backend = some b) : Loaded sv.store info name b := by
  have locals := (reachable_valid reach).cycle
  rw [here] at locals
  obtain ⟨_,b',loaded,_⟩ := locals
  obtain rfl : b = b' := Option.some.inj (owned.symm.trans loaded.owned)
  exact loaded

theorem step_faithful {a : ServerAction} (reach : (machine config).Reachable sv)
    (met : served sv a = true) (taken : sv.step a = some sv') (valid : Faithful sv) :
    Faithful sv' := by
  obtain ⟨grows,objects⟩ := step_objects taken
  have inRange (k : Nat) (created : k < sv.nextScheduler) :
      (sv.schedulers k).inferFunc < sv.nextBackend :=
    (reachable_valid reach).sane.inRange k created
  constructor
  · intro k p pending
    have origin := step_pending reach taken pending
    have created : k < sv.nextScheduler := by
      rcases origin with old | ⟨_,context,_,_,_,present,rfl⟩
      · exact pending_created reach old
      · obtain ⟨held,_⟩ := (reachable_valid reach).sane.entry _ _ present
        exact held.created
    have before : p.accepts (sv.boundVersion k) = true := by
      rcases origin with old | ⟨c,context,rfl,entering,free,present,rfl⟩
      · exact valid.pending k p old
      · obtain ⟨info,b,owned,loaded,bound⟩ := entry_bound reach free present
        have version : (sv.backends b).object.modelVersion = info.modelVersion := loaded.tagVersion
        rw [boundVersion,bound,version]
        simpa [served,entering,present,owned] using met
    cases step_binding taken (Nat.lt_of_lt_of_le created (step_grows taken)) with
    | kept _ same =>
      rw [boundVersion,same,(objects _ (inRange k created)).2.1]
      exact before
    | created _ _ _ here => omega
    | @replaced info name _ context b this pc present here owned binds =>
      have loaded := installing_loaded reach pc owned
      have version : (sv.backends b).object.modelVersion = info.modelVersion := loaded.tagVersion
      rw [boundVersion,binds,(objects b loaded.created).2.1,version]
      subst k a
      simp only [served,pc,present,Bool.and_eq_true,List.all_eq_true] at met
      rcases origin with (⟨c,inside⟩ | queued | ⟨w,t,atIndex,held⟩) | ⟨_,_,lookup,_⟩
      · exact absurd (by rw [pc]; rfl) (caller_alone reach inside)
      · exact met.1 p queued
      · simpa [held] using met.2 t (List.mem_of_getElem? atIndex)
      · contradiction
  · intro k w idx f batch p member inBatch
    have keep {f : Nat} (old : f < sv.nextBackend)
        (accepts : p.accepts (sv.backends f).object.modelVersion = true) :
        f < sv'.nextBackend ∧ p.accepts (sv'.backends f).object.modelVersion = true :=
      ⟨Nat.lt_of_lt_of_le old grows,by rw [(objects f old).2.1]; exact accepts⟩
    cases reachable_moves reach taken k with
    | still same =>
      rw [same] at member
      obtain ⟨old,accepts⟩ := valid.invoked k w idx f batch p member inBatch
      exact keep old accepts
    | created _ _ same =>
      rw [same] at member
      contradiction
    | moved _ _ _ stepped =>
      rcases Scheduler.step_invoked stepped member with earlier | ⟨rfl,q,t,rfl,atIndex,held⟩
      · obtain ⟨old,accepts⟩ := valid.invoked k w idx f batch p earlier inBatch
        exact keep old accepts
      · obtain rfl := List.mem_singleton.mp inBatch
        have pending : Pending sv k p := .inr (.inr ⟨w,t,atIndex,held⟩)
        exact keep (inRange k (pending_created reach pending)) (valid.pending k p pending)

theorem served_faithful
    (reach : (machine config).ReachableBy (fun sv a => served sv a = true) sv) : Faithful sv := by
  refine reach.invariant (P := Faithful) ⟨?_,by simp [machine,create,Scheduler.create]⟩ ?_
  · rintro k p (⟨c,inside⟩ | waits)
    · simp [machine,create] at inside
    · simp [machine,create,Scheduler.Awaiting,Scheduler.create,BlockingQueue.create] at waits
  · intro sv a sv' before valid met taken
    exact step_faithful before.reachable met taken valid

def Accepts (sv : Server) (k : Nat) (p : Payload) : Prop :=
  (∃ c, .appended c p ∈ (sv.schedulers k).log) ∧
  ∀ w status message, .completed w p status message ∉ (sv.schedulers k).log

/-- `f` is the installed backend of the model of `p`, which scheduler `k` has accepted and
not completed. -/
def InstalledFor (k : Nat) (p : Payload) (f : Nat) (sv : Server) : Prop :=
  Accepts sv k p ∧ (sv.schedulers k).inferFunc = f ∧
  ∃ context, sv.modelMap.lookup p.modelName = some context ∧ context.scheduler = k

theorem step_log {a : ServerAction} (reach : (machine config).Reachable sv)
    (taken : sv.step a = some sv') (k : Nat) :
    (sv.schedulers k).log <+: (sv'.schedulers k).log := by
  cases reachable_moves reach taken k with
  | still same => rw [same]
  | created here =>
    rw [reachable_unborn reach k (Nat.le_of_eq here.symm)]
    exact List.nil_prefix
  | moved _ _ _ stepped => exact Scheduler.step_log stepped

theorem step_appended {a : ServerAction} (reach : (machine config).Reachable sv)
    (taken : sv.step a = some sv') {k c : Nat} {p : Payload}
    (member : .appended c p ∈ (sv'.schedulers k).log) :
    .appended c p ∈ (sv.schedulers k).log ∨ sv'.callers c = .enqueuing p k := by
  cases reachable_moves reach taken k with
  | still same => rw [same] at member; exact .inl member
  | created _ _ same => rw [same] at member; contradiction
  | moved _ _ _ stepped =>
    rcases Scheduler.step_appended stepped member with old | pushed
    · exact .inl old
    · have standing := (reachable_calls (.step reach taken)).standing k c
      rw [pushed] at standing
      exact .inr standing

theorem appended_created (reach : (machine config).Reachable sv) {k c : Nat} {p : Payload}
    (member : .appended c p ∈ (sv.schedulers k).log) : k < sv.nextScheduler := by
  by_contra past
  rw [reachable_unborn reach k (Nat.le_of_not_lt past)] at member
  contradiction

/-- What a scheduler accepted is for the model that its backend was loaded for. -/
theorem appended_named (reach : (machine config).Reachable sv) (k c : Nat) (p : Payload) :
    .appended c p ∈ (sv.schedulers k).log →
    (sv.backends (sv.schedulers k).inferFunc).object.modelName = p.modelName := by
  refine reach.invariant (P := fun sv => .appended c p ∈ (sv.schedulers k).log →
    (sv.backends (sv.schedulers k).inferFunc).object.modelName = p.modelName)
    (fun member => by contradiction) ?_
  intro sv a sv' before valid taken member
  rcases step_appended before taken member with old | inside
  · have created := appended_created before old
    have inRange : (sv.schedulers k).inferFunc < sv.nextBackend :=
      (reachable_valid before).sane.inRange k created
    obtain ⟨_,objects⟩ := step_objects taken
    cases step_binding taken (Nat.lt_of_lt_of_le created (step_grows taken)) with
    | kept _ same =>
      rw [same,(objects _ inRange).1]
      exact valid old
    | created _ _ _ here => omega
    | @replaced info name _ context b this pc present here owned binds =>
      subst k
      have loaded := installing_loaded before pc owned
      have sane := (reachable_valid before).sane
      rw [pc] at sane
      obtain ⟨_,f,_,entry,bound⟩ := sane.bound present
      have was : (sv.backends f).object.modelName = name := entry.tagName
      have now : (sv.backends b).object.modelName = name := loaded.tagName
      have named := valid old
      rw [show (sv.schedulers context.scheduler).inferFunc = f from bound,was] at named
      rw [binds,(objects b loaded.created).1,now,named]
  · have reach' := Transition.Machine.Reachable.step before taken
    obtain ⟨context,present,rfl⟩ := reachable_placed reach' c p k inside
    have settled : sv'.cycle.pending = none := by
      have unlocked := caller_alone reach' inside
      cases pc : sv'.cycle with
      | swapping => simp [pc,CyclePc.locked] at unlocked
      | _ => rfl
    have sane := (reachable_valid reach').sane
    rw [settled] at sane
    obtain ⟨_,f,_,entry,bound⟩ := sane.bound present
    rw [show (sv'.schedulers context.scheduler).inferFunc = f from bound]
    exact entry.tagName

/-- A caller appends at most once to a queue. -/
theorem appended_once (reach : (machine config).Reachable sv) (k : Nat) (p : Payload) :
    (sv.schedulers k).appended.count p ≤ 1 := by
  obtain ⟨func,sound⟩ := reachable_sound reach k
  rw [Scheduler.appended,Multiset.coe_count,
    Scheduler.appended_count _ p fun c q => appended_own reach]
  have few : ((sv.schedulers k).log.filter (Event.appendedBy p.id)).length ≤ 1 := by
    have accounted := sound.answered p.id
    unfold Scheduler.Accounted at accounted
    split at accounted
    · simp [accounted]
    · simp [accounted]
    · simp [accounted]
    · simp [accounted.1]
    · rcases accounted with own | ⟨none,_⟩
      · simp [own]
      · simp [none]
    · simp [accounted]
  exact (List.count_le_length ..).trans ((List.length_filterMap_le ..).trans few)

/-- A payload in the hands of a worker was appended and is not completed. -/
theorem held_accepted (reach : (machine config).Reachable sv) {k w : Nat} {p : Payload}
    {t : Worker Payload Nat} (atIndex : (sv.schedulers k).threads[w]? = some t)
    (holds : t.pc.payload? = some p) : Accepts sv k p := by
  obtain ⟨func,sound⟩ := reachable_sound reach k
  have conserved := congrArg (Multiset.count p) sound.conserved.payloads
  simp only [Multiset.count_add] at conserved
  have held : 0 < (sv.schedulers k).held.count p := by
    rw [Multiset.count_pos,Scheduler.held,Multiset.mem_coe]
    exact List.mem_filterMap.mpr ⟨t,List.mem_of_getElem? atIndex,holds⟩
  have once := appended_once reach k p
  constructor
  · have there : p ∈ (sv.schedulers k).appended := Multiset.count_pos.mp (by omega)
    obtain ⟨e,member,appends⟩ := List.mem_filterMap.mp (Multiset.mem_coe.mp there)
    cases e <;> cases appends
    exact ⟨_,member⟩
  · intro v status message member
    have completed : 0 < (sv.schedulers k).completed.count p := by
      rw [Multiset.count_pos,Scheduler.completed,Multiset.mem_coe]
      exact List.mem_filterMap.mpr ⟨_,member,rfl⟩
    omega

/-- What a run has installed for the requests it accepted: the function that one waiting for
its call would run, and the function that each call ran, was the installed one of the
request's model at some state of the run after the append and before the completion. -/
structure Traced (config : ServerConfig) (actions : List ServerAction) (sv : Server) : Prop where
  waiting : ∀ k p, Accepts sv k p →
    (machine config).Visits actions (InstalledFor k p (sv.schedulers k).inferFunc)
  invoked : ∀ k w idx f batch p, .invoked w idx f batch ∈ (sv.schedulers k).log → p ∈ batch →
    (machine config).Visits actions (InstalledFor k p f)

theorem step_traced {actions : List ServerAction} {a : ServerAction}
    (run : (machine config).exec (machine config).start actions = some sv)
    (taken : sv.step a = some sv') (valid : Traced config actions sv) :
    Traced config (actions ++ [a]) sv' := by
  have reach := Transition.Machine.exec_reachable .start actions run
  have run' : (machine config).exec (machine config).start (actions ++ [a]) = some sv' :=
    Transition.Machine.exec_snoc.mpr ⟨sv,run,taken⟩
  constructor
  · rintro k p ⟨⟨c,member⟩,uncompleted⟩
    have now (served : ∃ context, sv'.modelMap.lookup p.modelName = some context ∧
        context.scheduler = k) : (machine config).Visits (actions ++ [a])
          (InstalledFor k p (sv'.schedulers k).inferFunc) :=
      .now run' ⟨⟨⟨c,member⟩,uncompleted⟩,rfl,served⟩
    rcases step_appended reach taken member with old | inside
    · have created := appended_created reach old
      have accepted : Accepts sv k p := ⟨⟨c,old⟩,fun w status message there =>
        uncompleted w status message ((step_log reach taken k).subset there)⟩
      cases step_binding taken (Nat.lt_of_lt_of_le created (step_grows taken)) with
      | kept _ same =>
        rw [same]
        exact (valid.waiting k p accepted).extend [a]
      | created _ _ _ here => omega
      | @replaced info name _ context b this pc present here owned binds =>
        subst k a
        have sane := (reachable_valid reach).sane
        rw [pc] at sane
        obtain ⟨_,f,_,entry,bound⟩ := sane.bound present
        have was : (sv.backends f).object.modelName = name := entry.tagName
        have named := appended_named reach _ c p old
        rw [show (sv.schedulers context.scheduler).inferFunc = f from bound,was] at named
        refine now ⟨context,?_,rfl⟩
        rw [← named]
        cases cycleStep_cases taken with
        | install pc' present' =>
          rw [pc] at pc'
          cases pc'
          exact present
    · exact now (reachable_placed (.step reach taken) c p k inside)
  · intro k w idx f batch p member inBatch
    cases reachable_moves reach taken k with
    | still same =>
      rw [same] at member
      exact (valid.invoked k w idx f batch p member inBatch).extend [a]
    | created _ _ same => rw [same] at member; contradiction
    | moved _ _ _ stepped =>
      rcases Scheduler.step_invoked stepped member with old | ⟨rfl,q,t,rfl,atIndex,held⟩
      · exact (valid.invoked k w idx f batch p old inBatch).extend [a]
      · obtain rfl := List.mem_singleton.mp inBatch
        exact (valid.waiting k p (held_accepted reach atIndex (WorkerPc.waiting_payload held))).extend [a]

theorem exec_traced {actions : List ServerAction}
    (run : (machine config).exec (machine config).start actions = some sv) :
    Traced config actions sv := by
  refine Transition.Machine.exec_invariant (P := Traced config) ⟨?_,?_⟩ ?_ run
  · rintro k p ⟨⟨c,member⟩,_⟩
    contradiction
  · intro k w idx f batch p member
    contradiction
  · intro actions sv a sv' run valid taken
    exact step_traced run taken valid

def Unrefused (c : Nat) (sv : Server) : Prop :=
  (∃ p k, sv.callers c = .enqueuing p k) ∨ ∃ p, sv.callers c = .returned p .success

theorem step_unrefused {a : ServerAction} {c : Nat} (reach : (machine config).Reachable sv)
    (taken : sv.step a = some sv') (valid : Unrefused c sv) : Unrefused c sv' := by
  by_cases called : ∃ d b, a = .caller d b
  · obtain ⟨d,b,rfl⟩ := called
    have apart {pc : CallerPc} (other : c ≠ d) : Unrefused c (sv.setCaller d pc) := by
      simpa [Unrefused,setCaller,Function.update_of_ne other] using valid
    by_cases mine : c = d
    · subst d
      cases callerStep_cases taken with
      | call here | notFound here => simp [Unrefused,here] at valid
      | found => exact .inl ⟨_,_,Function.update_self ..⟩
      | enqueue here => exact .inl ⟨_,_,here⟩
      | @finish p q k status here returned =>
        have honest := reachable_honest reach k c
        rw [returned] at honest
        obtain ⟨rfl,_⟩ := honest
        exact .inr ⟨p,Function.update_self ..⟩
    · cases callerStep_cases taken with
      | enqueue => exact valid
      | call | notFound => exact apart mine
      | found | finish => exact apart mine
  · have same := step_callers taken fun d b here => called ⟨d,b,here⟩
    rwa [Unrefused,same]

theorem exec_unrefused {actions : List ServerAction} {c : Nat}
    (reach : (machine config).Reachable sv) (run : (machine config).exec sv actions = some sv')
    (valid : Unrefused c sv) : Unrefused c sv' := by
  refine (Transition.Machine.exec_preserves (m := machine config)
    (P := fun sv => (machine config).Reachable sv ∧ Unrefused c sv) ?_ ⟨reach,valid⟩
    actions run).2
  rintro sv a sv' ⟨reach,valid⟩ taken
  exact ⟨.step reach taken,step_unrefused reach taken valid⟩

/-- If every request of a run that finds its model accepts the version installed, and no
update replaces it while a request waits that does not accept the new one, then every
request that names a version is run by that version. Without any condition a request was
run by a backend that was the installed one of its model after its acceptance and before its
completion. And a request that finds its model and does not accept the version installed is
never refused. -/
theorem version_fidelity_iff_served (config : ServerConfig) :
    (∀ sv, (machine config).ReachableBy (fun sv a => served sv a = true) sv →
      ∀ k w p message, p.modelVersion ≠ -1 →
        .completed w p .success message ∈ (sv.schedulers k).log →
        (∃ idx f, .invoked w idx f [p] ∈ (sv.schedulers k).log) ∧
        ∀ v idx f batch, .invoked v idx f batch ∈ (sv.schedulers k).log → p ∈ batch →
          (sv.backends f).object.modelVersion = p.modelVersion) ∧
    (∀ actions sv, (machine config).exec (machine config).start actions = some sv →
      ∀ k w p message, .completed w p .success message ∈ (sv.schedulers k).log →
        (∃ idx f, .invoked w idx f [p] ∈ (sv.schedulers k).log) ∧
        ∀ v idx f batch, .invoked v idx f batch ∈ (sv.schedulers k).log → p ∈ batch →
          (machine config).Visits actions (InstalledFor k p f)) ∧
    (∀ sv c sv', (machine config).Reachable sv → sv.step (.caller c .lookup) = some sv' →
      served sv (.caller c .lookup) = false →
      ∀ actions sv'', (machine config).exec sv' actions = some sv'' →
        ∀ p status, sv''.callers c = .returned p status → status = .success) := by
  have called {sv : Server} (reach : (machine config).Reachable sv) {k w : Nat} {p : Payload}
      {message : String} (member : .completed w p .success message ∈ (sv.schedulers k).log) :
      ∃ idx f, .invoked w idx f [p] ∈ (sv.schedulers k).log := by
    obtain ⟨_,sound⟩ := reachable_sound reach k
    obtain ⟨idx,f,invoked,_⟩ := Scheduler.completed_invoked sound.rounded member
    exact ⟨idx,f,invoked⟩
  refine ⟨?_,?_,?_⟩
  · intro sv reach k w p message named member
    refine ⟨called reach.reachable member,fun v idx f batch invoked inBatch => ?_⟩
    have accepts := ((served_faithful reach).invoked k v idx f batch p invoked inBatch).2
    simp only [Payload.accepts,Bool.or_eq_true,decide_eq_true_eq,named,false_or] at accepts
    exact accepts.symm
  · intro actions sv run k w p message member
    exact ⟨called (Transition.Machine.exec_reachable .start actions run) member,
      fun v idx f batch => (exec_traced run).invoked k v idx f batch p⟩
  · intro sv c sv' reach taken unserved actions sv'' run p status returned
    have reach' : (machine config).Reachable sv' := .step (a := .caller c .lookup) reach taken
    have found : Unrefused c sv' := by
      cases callerStep_cases (show sv.callerStep c .lookup = some sv' from taken) with
      | notFound here _ absent => simp [served,here,absent] at unserved
      | found => exact .inl ⟨_,_,Function.update_self ..⟩
      | enqueue here => exact .inl ⟨_,_,here⟩
    rcases exec_unrefused reach' run found with ⟨_,_,inside⟩ | ⟨q,success⟩
    · rw [returned] at inside
      contradiction
    · rw [returned] at success
      cases success
      rfl

def versionRun (version : Int) : List ServerAction :=
  startRun "m" 1 ++
  List.map (ServerAction.caller 0) [.call "m" version,.lookup,.enqueue,.push none,.leave,.finish] ++
  workerRun 0 [.test,.pop none,.copy,.call,.ret .success,.complete]

/-- A request for version 5 is run by version 1 and completed with `Success`. -/
theorem other_version_served : ∃ (config : ServerConfig) (sv : Server) (p : Payload),
    (machine config).Reachable sv ∧ p.modelVersion = 5 ∧
    .invoked 0 0 0 [p] ∈ (sv.schedulers 0).log ∧
    .completed 0 p .success "" ∈ (sv.schedulers 0).log ∧
    (sv.backends 0).object.modelVersion = 1 := by
  obtain ⟨sv,reach,seen⟩ := Transition.Machine.exec_observed (m := machine ⟨false,4⟩)
    (versionRun 5) (fun sv => ((sv.schedulers 0).log,(sv.backends 0).object.modelVersion))
    ([.appended 0 ⟨0,"m",5⟩,.answered 0 .success,.dequeued 0 ⟨0,"m",5⟩,.copied 0 ⟨0,"m",5⟩ 0,
      .invoked 0 0 0 [⟨0,"m",5⟩],.returned 0 0 .success,.completed 0 ⟨0,"m",5⟩ .success ""],1) rfl
  simp only [Prod.mk.injEq] at seen
  refine ⟨_,sv,⟨0,"m",5⟩,reach,rfl,?_,?_,seen.2⟩
  · simp [seen.1]
  · simp [seen.1]

theorem version_fidelity_same : ∃ (sv : Server) (p : Payload), p.modelVersion = 1 ∧
    .completed 0 p .success "" ∈ (sv.schedulers 0).log ∧
    ∃ idx f, .invoked 0 idx f [p] ∈ (sv.schedulers 0).log ∧
      (sv.backends f).object.modelVersion = 1 := by
  obtain ⟨sv,reach,log⟩ := Transition.Machine.exec_observed
    (m := (machine ⟨false,4⟩).restrict fun sv a => served sv a = true) (versionRun 1)
    (fun sv => (sv.schedulers 0).log.getLast?) (some (.completed 0 ⟨0,"m",1⟩ .success "")) rfl
  have completed := List.mem_of_getLast? log
  obtain ⟨⟨idx,f,invoked⟩,versions⟩ := (version_fidelity_iff_served _).1 sv
    (Transition.Machine.restrict_reachable reach) 0 0 ⟨0,"m",1⟩ "" (by decide) completed
  exact ⟨sv,_,rfl,completed,idx,f,invoked,versions 0 idx f _ invoked (List.mem_singleton_self _)⟩

end Server
end InferenceServer
