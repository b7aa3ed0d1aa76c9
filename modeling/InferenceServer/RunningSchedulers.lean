import InferenceServer.Isolation

/-! What a request meets on its way through `InferAsync`: a scheduler that is running, on a
queue that nobody breaks while the request is there. -/
namespace InferenceServer.Server

variable {config : ServerConfig} {sv sv' : Server}

theorem pushing_serving (reach : (machine config).Reachable sv) {c k : Nat} {p : Payload}
    (pushing : (sv.schedulers k).producers c = .pushing p) :
    (sv.schedulers k).running = true ∧ (sv.schedulers k).queue.broken = false := by
  have standing := (reachable_calls reach).standing k c
  rw [pushing] at standing
  exact enqueuing_serving reach standing

theorem enqueue_passes (reach : (machine config).Reachable sv) {c k : Nat} {p : Payload}
    (inside : sv.callers c = .enqueuing p k) (taken : sv.step (.caller c .enqueue) = some sv') :
    (sv'.schedulers k).producers c = .pushing p := by
  obtain ⟨running,_⟩ := enqueuing_serving reach inside
  simp only [step,callerStep,enqueueStep,inside] at taken
  obtain ⟨sc,stepped,rfl⟩ := Option.map_eq_some_iff.mp taken
  cases pc : (sv.schedulers k).producers c with
  | idle =>
    simp only [Scheduler.producerStep,pc,running,if_true] at stepped
    cases stepped
    simp [setScheduler,Scheduler.setProducer]
  | _ => simp [Scheduler.producerStep,pc] at stepped

/-- No step breaks the queue that a producer is pushing into. -/
theorem pushing_unbroken (reach : (machine config).Reachable sv) {c k : Nat} {p : Payload}
    {a : ServerAction} (pushing : (sv.schedulers k).producers c = .pushing p)
    (taken : sv.step a = some sv') : (sv'.schedulers k).queue.broken = false := by
  by_cases mine : ∃ d b, a = .caller d b
  · obtain ⟨d,b,rfl⟩ := mine
    have whole := (pushing_serving reach pushing).2
    by_contra broke
    have broken : (sv'.schedulers k).queue.broken = true := by simpa using broke
    cases reachable_moves reach taken k with
    | still same => exact broke (same ▸ whole)
    | created _ _ same => exact broke (by rw [same]; rfl)
    | moved _ origin _ stepped =>
      obtain ⟨rfl,_⟩ := Scheduler.step_breaks stepped whole broken
      obtain ⟨t,x,tears,_⟩ := origin
      contradiction
  · have same := step_producers reach taken (fun d b is => mine ⟨d,b,is⟩) k c
    exact (pushing_serving (.step reach taken) (same.trans pushing)).2

theorem reachable_answers (reach : (machine config).Reachable sv) :
    ∀ c p status, sv.callers c = .returned p status →
      status = .success ∨ status = .failedInferNoBackendFound := by
  refine reach.invariant (P := fun sv => ∀ c p status, sv.callers c = .returned p status →
    status = .success ∨ status = .failedInferNoBackendFound) (by simp [machine,create]) ?_
  intro sv a sv' before valid taken c p status there
  by_cases mine : ∃ d b, a = .caller d b
  · obtain ⟨d,b,rfl⟩ := mine
    have moved {pc : CallerPc} (callers : sv'.callers = Function.update sv.callers d pc)
        (answer : pc = .returned p status →
          status = .success ∨ status = .failedInferNoBackendFound) :
        status = .success ∨ status = .failedInferNoBackendFound := by
      rw [callers] at there
      by_cases same : c = d
      · subst d
        exact answer (by simpa using there)
      · exact valid c p status (by simpa [Function.update_of_ne same] using there)
    cases callerStep_cases taken with
    | call | found => exact moved rfl (by simp)
    | notFound => exact moved rfl (by rintro ⟨⟩; exact .inr rfl)
    | enqueue => exact valid c p status there
    | @finish _ _ k _ _ returned =>
      refine moved rfl (by
        rintro ⟨⟩
        have honest := reachable_honest before k d
        rw [returned] at honest
        exact .inl honest.1)
  · have callers := step_callers taken fun d b is => mine ⟨d,b,is⟩
    exact valid c p status (by rwa [callers] at there)

/-- Every entry of `model_map_` holds a running scheduler with a whole queue. So `InferAsync`
answers `Success` or `Failed_Infer_No_Backend_Found`, `Enqueue` does not refuse it, no step
breaks a queue that it is pushing into, and a request answered with `Success` was appended. -/
theorem requests_meet_running {config : ServerConfig} {sv : Server}
    (reach : (machine config).Reachable sv) :
    (∀ name context, sv.modelMap.lookup name = some context →
      (sv.schedulers context.scheduler).running = true ∧
      (sv.schedulers context.scheduler).queue.broken = false) ∧
    (∀ c p status, sv.callers c = .returned p status →
      status = .success ∨ status = .failedInferNoBackendFound) ∧
    (∀ c p k sv', sv.callers c = .enqueuing p k → sv.step (.caller c .enqueue) = some sv' →
      (sv'.schedulers k).producers c = .pushing p) ∧
    (∀ k c p a sv', (sv.schedulers k).producers c = .pushing p → sv.step a = some sv' →
      (sv'.schedulers k).queue.broken = false) ∧
    (∀ c p, sv.callers c = .returned p .success →
      ∃ k, (sv.schedulers k).appended.count p = 1) := by
  refine ⟨fun name context present => (entry_serving reach present).2,reachable_answers reach,
    fun c p k sv' inside taken => enqueue_passes reach inside taken,
    fun k c p a sv' pushing taken => pushing_unbroken reach pushing taken,
    fun c p success => ?_⟩
  obtain ⟨_,k,accepted⟩ := success_accepted reach success
  exact ⟨k,accepted_appended_once reach accepted⟩

/-- A request for "m" that waits for space, and one that is answered. -/
theorem requests_meet_running_congested : ∃ sv : Server,
    (sv.callers 0,sv.callers 1) = (.returned ⟨0,"m",-1⟩ .success,.enqueuing ⟨1,"m",-1⟩ 0) ∧
    ∃ k, (sv.schedulers k).appended.count ⟨0,"m",-1⟩ = 1 := by
  obtain ⟨sv,reach,seen⟩ := Transition.Machine.exec_observed (m := machine ⟨true,1⟩) congestedRun
    (fun sv => (sv.callers 0,sv.callers 1))
    (.returned ⟨0,"m",-1⟩ .success,.enqueuing ⟨1,"m",-1⟩ 0) rfl
  obtain ⟨_,_,_,_,appended⟩ := requests_meet_running reach
  exact ⟨sv,seen,appended 0 _ (congrArg Prod.fst seen)⟩

end InferenceServer.Server
