import InferenceServer.InFlight
import InferenceServer.SchedulerUnserved

/-! What is left of a model when its context has been destroyed: whether its accepted
requests were completed, and whether its backend outlived its workers. -/
namespace InferenceServer.Server

open Store

variable {config : ServerConfig} {sv sv' : Server}

/-- A context loses its backend when the call of each request it accepted has returned. -/
def drained (sv : Server) (a : ServerAction) : Bool :=
  match sv.tearing? a with
  | some (t,.release) => decide ((sv.schedulers t.context.scheduler).unserved = 0)
  | _ => true

/-- `Stop` has returned, the workers are gone, nothing is left in the queue, and every
accepted payload was completed exactly once. -/
structure Settled (sv : Server) (k : Nat) : Prop where
  returned : (sv.schedulers k).control = .stopReturned .success
  exited : ∀ (w : Nat) t, (sv.schedulers k).threads[w]? = some t → t.pc = .exited
  empty : (sv.schedulers k).queue.buffer = []
  completed : ∀ p, Accepted sv k p → (sv.schedulers k).completed.count p = 1

theorem step_broken {a : ServerAction} (reach : (machine config).Reachable sv)
    (taken : sv.step a = some sv') {k : Nat} (broken : (sv.schedulers k).queue.broken = true) :
    (sv'.schedulers k).queue.broken = true ∧
    (sv'.schedulers k).queue.buffer = (sv.schedulers k).queue.buffer := by
  cases reachable_moves reach taken k with
  | still same => rw [same]; exact ⟨broken,rfl⟩
  | created here =>
    rw [reachable_unborn reach k (Nat.le_of_eq here.symm)] at broken
    contradiction
  | moved _ _ _ stepped => exact Scheduler.step_broken stepped broken

theorem destroyed_idle (reach : (machine config).Reachable sv) {k : Nat}
    (gone : sv.destroyed k = true) :
    (sv.schedulers k).control = .stopReturned .success ∧ (sv.schedulers k).queue.broken = true ∧
    (∀ (w : Nat) t, (sv.schedulers k).threads[w]? = some t → t.pc = .exited) ∧
    (sv.schedulers k).held = 0 := by
  have ended : (sv.schedulers k).control = .stopReturned .success :=
    (reachable_valid reach).sane.dead k gone
  have phase := (reachable_staffed reach k).phase
  rw [Scheduler.Phase,ended] at phase
  obtain ⟨_,_,broken,_,exited⟩ := phase
  refine ⟨ended,broken,exited,?_⟩
  have nothing : (sv.schedulers k).threads.filterMap (·.pc.payload?) = [] := by
    apply List.filterMap_eq_nil_iff.mpr
    intro t member
    obtain ⟨w,_,rfl⟩ := List.getElem_of_mem member
    rw [exited w _ (List.getElem?_eq_getElem _)]
    rfl
  rw [Scheduler.held,nothing]
  rfl

/-- What became of the payloads of a destroyed scheduler: what is not in the buffer was
completed. -/
theorem destroyed_conserved (reach : (machine config).Reachable sv) {k : Nat}
    (gone : sv.destroyed k = true) :
    (sv.schedulers k).appended = ↑(sv.schedulers k).queue.buffer + (sv.schedulers k).completed := by
  obtain ⟨_,sound⟩ := reachable_sound reach k
  obtain ⟨_,_,_,idle⟩ := destroyed_idle reach gone
  have payloads := sound.conserved.payloads
  rwa [idle,add_zero] at payloads

/-- The scheduler's context has lost its backend, or is past that. -/
def Ending (sv : Server) (k : Nat) : Prop :=
  (sv.schedulers k).control.stopping ∨ ∃ b, (sv.backends b).released = some (.teardown k)

/-- The backend that an entry's function is bound to is alive, also in the middle of an update. -/
theorem entry_alive (reach : (machine config).Reachable sv) {name : String}
    {context : ModelRunContext} (present : sv.modelMap.lookup name = some context) :
    (sv.backends (sv.schedulers context.scheduler).inferFunc).released = none := by
  obtain ⟨sane,locals,_⟩ := reachable_valid reach
  obtain ⟨_,_,info,b,_,loaded,bound,_⟩ := sane.entry name context present
  by_cases pending : sv.cycle.pending = some name
  · cases pc : sv.cycle with
    | swapping info' name' lists =>
      rw [pc] at pending locals
      cases pending
      obtain ⟨context',present',loaded'⟩ := locals
      obtain rfl : context = context' := Option.some.inj (present.symm.trans present')
      exact loaded'.alive
    | _ =>
      rw [pc] at pending
      contradiction
  · have same : (sv.schedulers context.scheduler).inferFunc = b := bound pending
    rw [same]
    exact loaded.alive

theorem Ending.out {k : Nat} (ending : Ending sv k) (reach : (machine config).Reachable sv)
    {name : String} {context : ModelRunContext} (present : sv.modelMap.lookup name = some context) :
    context.scheduler ≠ k := by
  rintro rfl
  rcases ending with stopping | ⟨b,torn⟩
  · rw [(entry_serving reach present).1] at stopping
    exact stopping
  · obtain ⟨_,bound⟩ := (reachable_valid reach).sane.torn b _ torn
    have alive := entry_alive reach present
    rw [show (sv.schedulers context.scheduler).inferFunc = b from bound,torn] at alive
    contradiction

theorem tearing_ending {a : ServerAction} (reach : (machine config).Reachable sv)
    (taken : sv.step a = some sv') {t : Teardown} {x : TeardownAction}
    (destroys : sv.tearing? a = some (t,x)) :
    Ending sv t.context.scheduler ∨ x = .release := by
  obtain ⟨_,_,rest⟩ := reachable_torn reach destroys
  obtain ⟨_,_,step,_⟩ := step_tearing taken destroys
  cases step with
  | release => exact .inr rfl
  | stop stage =>
    rw [stage] at rest
    exact .inl (.inr ⟨_,rest.2⟩)
  | wind stage | destroy stage =>
    rw [stage] at rest
    exact .inl (.inr ⟨_,rest.2⟩)

theorem step_ending {a : ServerAction} (reach : (machine config).Reachable sv)
    (taken : sv.step a = some sv') {k : Nat} (ending : Ending sv' k) :
    Ending sv k ∨ ∃ t, sv.tearing? a = some (t,.release) ∧ t.context.scheduler = k := by
  have tears {t : Teardown} {x : TeardownAction} (destroys : sv.tearing? a = some (t,x))
      (here : t.context.scheduler = k) :
      Ending sv k ∨ ∃ t, sv.tearing? a = some (t,.release) ∧ t.context.scheduler = k := by
    subst k
    rcases tearing_ending reach taken destroys with before | rfl
    · exact .inl before
    · exact .inr ⟨t,destroys,rfl⟩
  rcases ending with stopping | ⟨b,torn⟩
  · cases reachable_moves reach taken k with
    | still same => exact .inl (.inl (same ▸ stopping))
    | created _ _ same =>
      rw [same] at stopping
      exact stopping.elim
    | @moved c _ origin _ stepped =>
      have face (same : (sv'.schedulers k).face = (sv.schedulers k).face) : Ending sv k := by
        left
        have control : (sv'.schedulers k).control = (sv.schedulers k).control :=
          congrArg Face.control same
        rwa [control] at stopping
      cases c with
      | worker w x =>
        obtain ⟨_,_,cases⟩ := Scheduler.workerStep_cases stepped
        exact .inl (face (Scheduler.worker_face cases))
      | producer c x =>
        exact .inl (face (Scheduler.producer_face (Scheduler.producerStep_cases stepped)))
      | update func =>
        rw [← Option.some.inj stepped] at stopping
        exact .inl (.inl stopping)
      | control x =>
        have moved : (sv.schedulers k).controlStep x = some (sv'.schedulers k) := stepped
        cases x with
        | start | spawn =>
          generalize sv'.schedulers k = sc at stopping moved
          cases Scheduler.controlStep_cases moved <;> exact stopping.elim
        | stop | drain | clearRunning | breakAll | join =>
          obtain ⟨t,x,destroys,here,_⟩ := origin
          exact tears destroys here
  · rcases step_released taken torn with old | ⟨t,_,destroys,_,_,cause⟩ | ⟨_,_,_,_,_,cause⟩
    · exact .inl (.inr ⟨b,old⟩)
    · cases cause
      exact tears destroys rfl
    · contradiction

/-- Nobody brings a request to a scheduler that is on its end. -/
theorem ending_unserved {a : ServerAction} (reach : (machine config).Reachable sv)
    (taken : sv.step a = some sv') {k : Nat} (ending : Ending sv k)
    (none : (sv.schedulers k).unserved = 0) : (sv'.schedulers k).unserved = 0 := by
  cases reachable_moves reach taken k with
  | still same => rw [same,none]
  | created _ _ same =>
    rw [same]
    rfl
  | moved _ origin _ stepped =>
    cases Scheduler.step_serves stepped with
    | same kept => rw [kept,none]
    | pushed pushes =>
      subst pushes
      obtain ⟨_,p,_,inside⟩ := origin
      obtain ⟨context,present,here⟩ := reachable_placed reach _ p k inside
      exact absurd here (ending.out reach present)
    | returned _ _ _ fewer =>
      rw [none] at fewer
      exact absurd fewer.symm (Multiset.cons_ne_zero)

theorem drained_unserved
    (reach : (machine config).ReachableBy (fun sv a => drained sv a = true) sv) (k : Nat) :
    Ending sv k → (sv.schedulers k).unserved = 0 := by
  refine reach.invariant (P := fun sv => Ending sv k → (sv.schedulers k).unserved = 0)
    (fun _ => rfl) ?_
  intro sv a sv' before valid met taken ending
  rcases step_ending before.reachable taken ending with old | ⟨t,destroys,rfl⟩
  · exact ending_unserved before.reachable taken old (valid old)
  · obtain ⟨_,_,step,same,_⟩ := step_tearing taken destroys
    cases step with
    | release =>
      rw [same]
      simpa [drained,destroys,release] using met
    | wind _ winds => contradiction

/-- The context has lost its backend with a request unserved, whose call will not return. -/
structure Abandoned (sv : Server) (k : Nat) (p : Payload) : Prop where
  created : k < sv.nextScheduler
  gone : (sv.backends (sv.schedulers k).inferFunc).released ≠ none
  running : ∀ b, Running sv k b → (sv.backends b).released ≠ none
  unserved : p ∈ (sv.schedulers k).unserved

theorem step_abandoned {a : ServerAction} (reach : (machine config).Reachable sv)
    (taken : sv.step a = some sv') {k : Nat} {p : Payload} (left : Abandoned sv k p) :
    Abandoned sv' k p := by
  obtain ⟨created,gone,running,unserved⟩ := left
  have bound : (sv'.schedulers k).inferFunc = (sv.schedulers k).inferFunc := by
    cases step_binding taken (Nat.lt_of_lt_of_le created (step_grows taken)) with
    | kept _ same => exact same
    | created _ _ _ here => exact absurd here (Nat.ne_of_lt created)
    | replaced _ _ present here =>
      rw [← here] at gone
      exact absurd (entry_alive reach present) gone
  refine ⟨Nat.lt_of_lt_of_le created (step_grows taken),?_,fun b inside => ?_,?_⟩
  · rw [bound]
    exact released_final reach taken gone
  · rcases step_running reach taken inside with old | ⟨rfl,_⟩
    · exact released_final reach taken (running b old)
    · exact released_final reach taken gone
  · cases reachable_moves reach taken k with
    | still same => rwa [same]
    | created here => exact absurd here (Nat.ne_of_lt created)
    | moved _ origin _ stepped =>
      cases Scheduler.step_serves stepped with
      | same kept => rwa [kept]
      | pushed _ more =>
        rw [more]
        exact Multiset.mem_cons_of_mem unserved
      | returned returns =>
        subst returns
        obtain rfl : a = _ := origin
        cases workerStep_effect taken with
        | quiet _ _ quiet => exact absurd rfl (quiet _)
        | call _ call => contradiction
        | ret _ _ atIndex back =>
          refine absurd ?_ (running _ ⟨_,_,atIndex,rfl⟩)
          by_contra released
          rw [returns_false.mpr (.inl released)] at back
          contradiction

theorem run_abandoned (actions : List ServerAction) {k : Nat} {p : Payload}
    (reach : (machine config).Reachable sv) (run : (machine config).exec sv actions = some sv')
    (left : Abandoned sv k p) : Abandoned sv' k p :=
  (Transition.Machine.exec_preserves (P := fun sv => (machine config).Reachable sv ∧
    Abandoned sv k p) (fun _ _ _ held taken => ⟨.step held.1 taken,
      step_abandoned held.1 taken held.2⟩) ⟨reach,left⟩ actions run).2

/-- Nobody updates a model while a context is destroyed. -/
theorem tearing_replaced {a : ServerAction} (reach : (machine config).Reachable sv) {t : Teardown}
    {x : TeardownAction} (destroys : sv.tearing? a = some (t,x)) : sv.replaced? = none := by
  unfold tearing? at destroys
  split at destroys
  · split at destroys
    next pc => simp [replaced?,pc]
    next pc => simp [replaced?,pc]
    · contradiction
  · split at destroys
    next here =>
      have exclusive := reachable_exclusive reach
      have absent := exclusive.alone (by simp [here,MainPc.alone])
      simp [replaced?,exclusive.idle (by simp [here]) (by simp [absent])]
    · contradiction
  · contradiction

theorem undrained_abandoned {a : ServerAction} (reach : (machine config).Reachable sv)
    (taken : sv.step a = some sv') {t : Teardown} {p : Payload}
    (destroys : sv.tearing? a = some (t,.release))
    (unserved : p ∈ (sv.schedulers t.context.scheduler).unserved) :
    Abandoned sv' t.context.scheduler p := by
  obtain ⟨held,_,rest⟩ := reachable_torn reach destroys
  obtain ⟨sv₁,_,step,same,backends,_⟩ := step_tearing taken destroys
  cases step with
  | wind _ winds => contradiction
  | release stage =>
    rw [stage] at rest
    obtain ⟨_,info,_,b,owned,loaded,bound⟩ := rest
    have schedulers : sv'.schedulers t.context.scheduler = sv.schedulers t.context.scheduler := by
      rw [same]
      rfl
    have gone : (sv'.backends (sv.schedulers t.context.scheduler).inferFunc).released ≠ none := by
      rw [show (sv.schedulers t.context.scheduler).inferFunc = b from bound,backends,owned]
      simp [release,loaded.owned]
    refine ⟨Nat.lt_of_lt_of_le held.created (step_grows taken),by rwa [schedulers],?_,
      by rwa [schedulers]⟩
    intro c inside
    have before : Running sv t.context.scheduler c := by rwa [Running,schedulers] at inside
    rcases running_placed reach _ c before with here | released | replaced
    · exact here ▸ gone
    · exact released_final reach taken released
    · rw [tearing_replaced reach destroys] at replaced
      contradiction

/-- If the call of every request a context accepted has returned when its backend goes, in every
step of a run, then every context the run destroys has completed each request it accepted exactly
once; and a context that loses its backend before that is never settled in any continuation. -/
theorem accepted_completed_iff_drained (config : ServerConfig) :
    (∀ sv, (machine config).ReachableBy (fun sv a => drained sv a = true) sv →
      (∀ k, sv.destroyed k = true → Settled sv k) ∧
      ∀ c p, sv.callers c = .returned p .success → ∃ k, Accepted sv k p ∧
        (sv.destroyed k = true → (sv.schedulers k).completed.count p = 1)) ∧
    (∀ sv a sv', (machine config).Reachable sv → sv.step a = some sv' → drained sv a = false →
      ∃ k, ∀ actions sv'', (machine config).exec sv' actions = some sv'' → ¬Settled sv'' k) := by
  constructor
  · intro sv reach
    have settled (k : Nat) (gone : sv.destroyed k = true) : Settled sv k := by
      obtain ⟨ended,_,exited,_⟩ := destroyed_idle reach.reachable gone
      have none := drained_unserved reach k (.inl (by rw [ended]; exact rfl))
      have empty : (sv.schedulers k).queue.buffer = [] := by
        have noneQueued (p : Payload) : p ∉ (sv.schedulers k).queue.buffer := fun queued =>
          Multiset.notMem_zero p (none ▸ Scheduler.mem_unserved.mpr (.inl queued))
        exact List.eq_nil_iff_forall_not_mem.mpr noneQueued
      refine ⟨ended,exited,empty,fun p accepted => ?_⟩
      have once := accepted_appended_once reach.reachable accepted
      rwa [destroyed_conserved reach.reachable gone,empty,Multiset.coe_nil,zero_add] at once
    refine ⟨settled,fun c p success => ?_⟩
    obtain ⟨_,k,accepted⟩ := success_accepted reach.reachable success
    exact ⟨k,accepted,fun gone => (settled k gone).completed p accepted⟩
  · intro sv a sv' reach taken left
    unfold drained at left
    split at left
    next t destroys =>
      obtain ⟨p,unserved⟩ := Multiset.exists_mem_of_ne_zero (of_decide_eq_false left)
      have abandoned := undrained_abandoned reach taken destroys unserved
      refine ⟨t.context.scheduler,fun actions sv'' run settled => ?_⟩
      have still := (run_abandoned actions (.step reach taken) run abandoned).unserved
      rw [Scheduler.unserved_exited settled.empty settled.exited] at still
      exact Multiset.notMem_zero p still
    · contradiction

/-- One request is in `OnInferCompleted` for longer than the wait of `Stop`, and one is behind
it. -/
def outlastingRun : List ServerAction :=
  startRun "m" 1 ++ submitRun 0 "m" ++ workerRun 0 [.test,.pop none,.copy,.call,.ret .success] ++
  submitRun 1 "m" ++ stopRun ++ [.main (.clear "m")] ++
  teardownRun [.release,.stop,.drain 120,.clearRunning,.breakAll] ++
  workerRun 0 [.complete,.test] ++ teardownRun [.join,.join,.destroy]

/-- The second request was answered with `Success` and is never completed. -/
theorem accepted_not_completed : ∃ (config : ServerConfig) (sv : Server) (p : Payload),
    (machine config).Reachable sv ∧ sv.destroyed 0 = true ∧
    sv.callers 1 = .returned p .success ∧ Accepted sv 0 p ∧
    (sv.schedulers 0).completed.count p = 0 := by
  obtain ⟨sv,reach,seen⟩ := Transition.Machine.exec_observed (m := machine ⟨false,4⟩) outlastingRun
    (fun sv => (sv.destroyed 0,sv.callers 1,(sv.schedulers 0).producers 1,
      (sv.schedulers 0).log.filterMap Event.completed?))
    (true,.returned ⟨1,"m",-1⟩ .success,.returned ⟨1,"m",-1⟩ .success,[⟨0,"m",-1⟩]) rfl
  simp only [Prod.mk.injEq] at seen
  obtain ⟨gone,answered,accepted,done⟩ := seen
  refine ⟨_,sv,⟨1,"m",-1⟩,reach,gone,answered,accepted,?_⟩
  rw [Scheduler.completed,done]
  rfl

/-- The only request is in `OnInferCompleted` when its context goes. -/
def drainedRun : List ServerAction :=
  startRun "m" 1 ++ submitRun 0 "m" ++ workerRun 0 [.test,.pop none,.copy,.call,.ret .success] ++
  stopRun ++ [.main (.clear "m")] ++
  teardownRun [.release,.stop,.drain 0,.clearRunning,.breakAll] ++ workerRun 0 [.complete,.test] ++
  teardownRun [.join,.join,.destroy]

theorem accepted_completed_drained : ∃ sv : Server, sv.destroyed 0 = true ∧ Settled sv 0 ∧
    (sv.schedulers 0).completed.count ⟨0,"m",-1⟩ = 1 := by
  obtain ⟨sv,reach,seen⟩ := Transition.Machine.exec_observed
    (m := (machine ⟨false,4⟩).restrict fun sv a => drained sv a = true) drainedRun
    (fun sv => (sv.destroyed 0,(sv.schedulers 0).producers 0))
    (true,.returned ⟨0,"m",-1⟩ .success) rfl
  simp only [Prod.mk.injEq] at seen
  have settled := ((accepted_completed_iff_drained _).1 sv
    (Transition.Machine.restrict_reachable reach)).1 0 seen.1
  exact ⟨sv,seen.1,settled,settled.completed _ seen.2⟩

/-- A backend destroyed with its context has no worker of its scheduler left, and nobody is
inside its `Run`. -/
def InOrder (sv : Server) : Prop :=
  ∀ b k, (sv.backends b).released = some (.teardown k) →
    (∀ (w : Nat) t, (sv.schedulers k).threads[w]? = some t → t.pc = .exited) ∧
    ∀ j, ¬Running sv j b

def unstaffed (sv : Server) (a : ServerAction) : Bool :=
  match sv.tearing? a with
  | some (t,.release) => decide ((sv.schedulers t.context.scheduler).totalRunners ≤ 0)
  | _ => true

theorem torn_unstaffed
    (reach : (machine config).ReachableBy (fun sv a => unstaffed sv a = true) sv) (b k : Nat) :
    (sv.backends b).released = some (.teardown k) → (sv.schedulers k).totalRunners ≤ 0 := by
  refine reach.invariant (P := fun sv => (sv.backends b).released = some (.teardown k) →
    (sv.schedulers k).totalRunners ≤ 0) (by simp [machine,create]) ?_
  intro sv a sv' before valid met taken torn
  rcases step_released taken torn with old | ⟨t,_,destroys,_,_,cause⟩ | ⟨_,_,_,_,_,cause⟩
  · have created := ((reachable_valid before.reachable).sane.torn b k old).1
    rw [kept_totalRunners before.reachable taken created]
    exact valid old
  · cases cause
    obtain ⟨held,_⟩ := reachable_torn before.reachable destroys
    rw [kept_totalRunners before.reachable taken held.created]
    simpa [unstaffed,destroys] using met
  · contradiction

/-- If every context that a run destroys has no workers, its backend goes after them; and a
context that has workers loses its backend before they are gone. -/
theorem backend_outlives_workers_iff_unstaffed (config : ServerConfig) :
    (∀ sv, (machine config).ReachableBy (fun sv a => unstaffed sv a = true) sv → InOrder sv) ∧
    (∀ sv a sv', (machine config).Reachable sv → sv.step a = some sv' → unstaffed sv a = false →
      ¬InOrder sv') := by
  constructor
  · intro sv reach b k torn
    have few := torn_unstaffed reach b k torn
    have length := (reachable_staffed reach.reachable k).length_le
    have empty : (sv.schedulers k).threads = [] :=
      List.length_eq_zero_iff.mp (by omega)
    obtain ⟨created,bound⟩ := (reachable_valid reach.reachable).sane.torn b k torn
    refine ⟨by simp [empty],fun j running => ?_⟩
    obtain rfl := (reachable_private reach.reachable).bound j b running k created bound
    obtain ⟨w,t,atIndex,_⟩ := running
    simp [empty] at atIndex
  · intro sv a sv' reach taken staffed inOrder
    unfold unstaffed at staffed
    split at staffed
    next t destroys =>
      obtain ⟨held,out,rest⟩ := reachable_torn reach destroys
      obtain ⟨sv₁,_,step,same,backends,_⟩ := step_tearing taken destroys
      cases step with
      | wind _ winds => contradiction
      | release stage =>
        rw [stage] at rest
        obtain ⟨⟨control,running⟩,info,_,b,owned,loaded,_⟩ := rest
        have several : 0 < (sv.schedulers t.context.scheduler).totalRunners := by
          simpa using staffed
        have valid := reachable_staffed reach t.context.scheduler
        have phase := valid.phase
        rw [Scheduler.Phase,show (sv.schedulers t.context.scheduler).control = _ from control] at phase
        have bound : 0 < (sv.schedulers t.context.scheduler).threads.length := by
          rw [phase.2.2.2]
          omega
        have torn : (sv'.backends b).released = some (.teardown t.context.scheduler) := by
          rw [backends,owned]
          simp [release,loaded.owned]
        obtain ⟨exited,_⟩ := inOrder b _ torn
        refine valid.awake phase.2.1 0 _ (List.getElem?_eq_getElem bound) (exited 0 _ ?_)
        rw [same]
        exact List.getElem?_eq_getElem bound
    · contradiction

/-- A worker is inside `Run` when its model's context is destroyed. -/
theorem backend_released_in_use : ∃ (config : ServerConfig) (sv : Server),
    (machine config).Reachable sv ∧ (sv.backends 0).released = some (.teardown 0) ∧
    Running sv 0 0 := by
  obtain ⟨sv,reach,seen⟩ := Transition.Machine.exec_observed (m := machine ⟨false,4⟩)
    (startRun "m" 1 ++ submitRun 0 "m" ++ workerRun 0 [.test,.pop none,.copy,.call] ++ stopRun ++
      [.main (.clear "m"),.main (.teardown .release)])
    (fun sv => ((sv.backends 0).released,(sv.schedulers 0).threads))
    (some (.teardown 0),[⟨0,.running ⟨0,"m",-1⟩ 0⟩]) rfl
  simp only [Prod.mk.injEq] at seen
  exact ⟨_,sv,reach,seen.1,0,_,by rw [seen.2]; rfl,rfl⟩

end InferenceServer.Server
