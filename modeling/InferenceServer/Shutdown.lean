import InferenceServer.RunningSchedulers

/-! `ModelManager::Stop`: the refresh thread does not sleep through its notification, and
nothing is left once it has returned. -/
namespace InferenceServer

def MainPc.stopping : MainPc → Bool
  | .notifying | .joining | .locking | .clearing | .tearing _ => true
  | _ => false

def MainPc.notified : MainPc → Bool
  | .joining | .locking | .clearing | .tearing _ => true
  | _ => false

namespace Server

variable {config : ServerConfig} {sv sv' : Server}

/-- What `Stop` has reached by its place, and what it leaves behind. -/
structure Stopping (sv : Server) : Prop where
  halted : sv.main.stopping = true → sv.running = false
  notified : sv.main.notified = true → sv.updater ≠ .asleep false
  cleared : sv.main.ready = true → sv.running = false → sv.modelMap.keys = []

theorem stopping_of_same (valid : Stopping sv) (main : sv'.main = sv.main)
    (running : sv'.running = sv.running) (updater : sv'.updater = sv.updater)
    (map : sv'.modelMap = sv.modelMap) : Stopping sv' := by
  refine ⟨?_,?_,?_⟩
  · rw [main,running]
    exact valid.halted
  · rw [main,updater]
    exact valid.notified
  · rw [main,running,map]
    exact valid.cleared

theorem main_stopping {a : MainAction} (taken : MainStep sv a sv') (exclusive : Exclusive sv)
    (valid : Stopping sv) : Stopping sv' := by
  have absent (alone : sv.main.alone = true) : sv.updater ≠ .asleep false := by
    simp [exclusive.alone alone]
  cases taken with
  | startAgain _ running =>
    exact ⟨by simp [MainPc.stopping],by simp [MainPc.notified],
      fun _ halted => absurd (running.symm.trans halted) (by simp)⟩
  | start => exact ⟨by simp [MainPc.stopping],by simp [MainPc.notified],by simp [MainPc.ready]⟩
  | loaded here =>
    exact ⟨by simp [MainPc.stopping],by simp [MainPc.notified],
      fun _ halted => absurd ((exclusive.started here).symm.trans halted) (by simp)⟩
  | stop => exact ⟨fun _ => rfl,by simp [MainPc.notified],by simp [MainPc.ready]⟩
  | notify here _ _ awake =>
    exact ⟨fun _ => valid.halted (by simp [here,MainPc.stopping]),fun _ => awake,
      by simp [MainPc.ready]⟩
  | join here =>
    exact ⟨fun _ => valid.halted (by simp [here,MainPc.stopping]),by simp,by simp [MainPc.ready]⟩
  | lock here | clear here =>
    exact ⟨fun _ => valid.halted (by simp [here,MainPc.stopping]),
      fun _ => absent (by simp [here,MainPc.alone]),by simp [MainPc.ready]⟩
  | tearing here torn | torn here torn =>
    obtain ⟨_,_,_,rfl⟩ := teardown_frame torn
    exact ⟨fun _ => valid.halted (by simp [here,MainPc.stopping]),
      fun _ => absent (by simp [here,MainPc.alone]),by simp [MainPc.ready]⟩
  | unlock _ empty => exact ⟨by simp [MainPc.stopping],by simp [MainPc.notified],fun _ _ => empty⟩

theorem updater_stopping {a : UpdaterAction} (taken : UpdaterStep sv a sv')
    (valid : Stopping sv) : Stopping sv' := by
  have awake {pc : UpdaterPc} (other : pc ≠ .asleep false) (_ : sv.main.notified = true) :
      pc ≠ .asleep false := other
  cases taken with
  | sleep _ running =>
    refine ⟨valid.halted,fun past => ?_,valid.cleared⟩
    have halted := valid.halted (by
      cases pc : sv.main <;> simp [pc,MainPc.notified,MainPc.stopping] at past ⊢)
    exact absurd (running.symm.trans halted) (by simp)
  | _ => exact ⟨valid.halted,awake (by simp),valid.cleared⟩

theorem step_stopping {a : ServerAction} (taken : sv.step a = some sv') (exclusive : Exclusive sv)
    (valid : Stopping sv) : Stopping sv' := by
  cases a with
  | caller | status | health | worker =>
    obtain ⟨_,_,_,_,_,_,rfl⟩ := outside_frame taken rfl
    exact stopping_of_same valid rfl rfl rfl rfl
  | main a => exact main_stopping (mainStep_cases taken) exclusive valid
  | updater a => exact updater_stopping (updaterStep_cases taken) valid
  | cycle a =>
    -- `LoadModels` is not running where the map has to be empty.
    obtain ⟨busy,_,_,running,main,updater,_⟩ := cycle_frame (cycleStep_cases taken)
    refine ⟨by rw [main,running]; exact valid.halted,by rw [main,updater]; exact valid.notified,
      fun ready halted => ?_⟩
    rw [main] at ready
    rw [running] at halted
    rcases exclusive.loader busy with loading | cycling
    · simp [loading,MainPc.ready] at ready
    · simp [exclusive.stopped ready halted] at cycling

theorem reachable_stopping (reach : (machine config).Reachable sv) : Stopping sv := by
  refine reach.invariant ⟨by simp [machine,create,MainPc.stopping],
    by simp [machine,create,MainPc.notified],fun _ _ => rfl⟩ ?_
  intro sv a sv' before valid taken
  exact step_stopping taken (reachable_exclusive before) valid

structure Quiet (sv : Server) : Prop where
  running : sv.running = false
  updater : sv.updater = .absent
  cycle : sv.cycle = .idle
  empty : sv.modelMap.keys = []

theorem unlock_quiet (reach : (machine config).Reachable sv)
    (taken : sv.mainStep .unlock = some sv') : Quiet sv' := by
  obtain ⟨halted,_,_⟩ := reachable_stopping reach
  have exclusive := reachable_exclusive reach
  cases mainStep_cases taken with
  | unlock here empty =>
    have absent := exclusive.alone (by simp [here,MainPc.alone])
    exact ⟨halted (by simp [here,MainPc.stopping]),absent,
      exclusive.idle (by simp [here]) (by simp [absent]),empty⟩

/-- Every step but a `Start` keeps it so. -/
theorem step_quiet {a : ServerAction} (reach : (machine config).Reachable sv)
    (other : a ≠ .main .start) (quiet : Quiet sv) (taken : sv.step a = some sv') : Quiet sv' := by
  obtain ⟨running,updater,cycle,empty⟩ := quiet
  cases a with
  | caller | status | health | worker =>
    obtain ⟨_,_,_,_,_,_,rfl⟩ := outside_frame taken rfl
    exact ⟨running,updater,cycle,empty⟩
  | cycle a => exact absurd cycle (cycle_frame (cycleStep_cases taken)).1
  | updater a => cases updaterStep_cases taken <;> simp_all
  | main a =>
    cases mainStep_cases taken with
    | startAgain | start => exact absurd rfl other
    | loaded here =>
      have started := (reachable_exclusive reach).started here
      simp [running] at started
    | stop => exact ⟨rfl,updater,cycle,empty⟩
    | lock | unlock => exact ⟨running,updater,cycle,empty⟩
    | notify _ _ woken =>
      rcases woken with rfl | ⟨_,asleep,_⟩
      · exact ⟨running,updater,cycle,empty⟩
      · simp [updater] at asleep
    | join => exact ⟨running,rfl,cycle,empty⟩
    | clear _ present =>
      have member := AList.lookup_isSome.mp (Option.isSome_of_eq_some present)
      simp [AList.mem_keys,empty] at member
    | tearing _ torn | torn _ torn =>
      obtain ⟨_,_,_,rfl⟩ := teardown_frame torn
      exact ⟨running,updater,cycle,empty⟩

theorem Quiet.lookup (quiet : Quiet sv) (name : String) : sv.modelMap.lookup name = none := by
  rw [AList.lookup_eq_none,AList.mem_keys,quiet.empty]
  exact List.not_mem_nil

theorem Quiet.caller {c : Nat} {a : CallerAction} (quiet : Quiet sv) (placed : Placed sv)
    (taken : CallerStep sv c a sv') :
    (∃ p, sv.callers c = .outside ∧ sv' = sv.setCaller c (.entering p)) ∨
      ∃ p, sv.callers c = .entering p ∧
        sv' = sv.setCaller c (.returned p .failedInferNoBackendFound) := by
  have nobody (p : Payload) (k : Nat) : sv.callers c ≠ .enqueuing p k := by
    intro inside
    obtain ⟨_,present,_⟩ := placed c p k inside
    rw [quiet.lookup] at present
    contradiction
  cases taken with
  | call here => exact .inl ⟨_,here,rfl⟩
  | notFound here => exact .inr ⟨_,here,rfl⟩
  | found _ _ present => rw [quiet.lookup] at present; contradiction
  | enqueue here | finish here => exact absurd here (nobody _ _)

/-- What a run without a `Start` keeps from the return of `Stop` in `past` on. -/
structure Final (config : ServerConfig) (past sv : Server) : Prop where
  reach : (machine config).Reachable sv
  quiet : Quiet sv
  answers : ∀ c p status, sv.callers c = .returned p status →
    past.callers c = .returned p status ∨ status = .failedInferNoBackendFound

theorem step_final {past : Server} {a : ServerAction} (other : a ≠ .main .start)
    (final : Final config past sv) (taken : (machine config).step sv a = some sv') :
    Final config past sv' := by
  obtain ⟨reach,quiet,answers⟩ := final
  refine ⟨.step reach taken,step_quiet reach other quiet taken,fun c p status there => ?_⟩
  by_cases mine : ∃ d b, a = .caller d b
  · obtain ⟨d,b,rfl⟩ := mine
    rcases quiet.caller (reachable_placed reach) (callerStep_cases taken) with
      ⟨q,_,rfl⟩ | ⟨q,_,rfl⟩
    all_goals
      by_cases same : c = d
      · subst d
        simp only [setCaller,Function.update_self] at there
        cases there <;> exact .inr rfl
      · simp only [setCaller,Function.update_of_ne same] at there
        exact answers c p status there
  · have callers := step_callers taken fun d b is => mine ⟨d,b,is⟩
    exact answers c p status (by rwa [callers] at there)

/-- Past its `notify_all`, `Stop` never waits for a refresh thread that sleeps without a
notification. Once it has returned, and until another `Start`, there is no step of
`LoadModels` or of the refresh thread, `model_map_` is empty, and every `InferAsync` that
looks a model up or returns answers `Failed_Infer_No_Backend_Found`. -/
theorem shutdown_complete {config : ServerConfig} {sv : Server}
    (reach : (machine config).Reachable sv) :
    (sv.main.notified = true → sv.updater ≠ .asleep false) ∧
    ∀ sv' actions t, sv.step (.main .unlock) = some sv' → ServerAction.main .start ∉ actions →
      (machine config).exec sv' actions = some t →
      (∀ a, t.step (.cycle a) = none) ∧ (∀ a, t.step (.updater a) = none) ∧
      t.modelMap.keys = [] ∧
      (∀ c p t', t.callers c = .entering p → t.step (.caller c .lookup) = some t' →
        t'.callers c = .returned p .failedInferNoBackendFound) ∧
      ∀ c p status, t.callers c = .returned p status →
        sv'.callers c = .returned p status ∨ status = .failedInferNoBackendFound := by
  refine ⟨(reachable_stopping reach).notified,fun sv' actions t unlocked apart run => ?_⟩
  have begun : Final config sv' sv' :=
    ⟨.step reach (a := .main .unlock) unlocked,unlock_quiet reach unlocked,
      fun _ _ _ there => .inl there⟩
  obtain ⟨reach',quiet,answers⟩ := Transition.Machine.exec_preserves_of
    (Q := (· ≠ ServerAction.main .start)) (fun _ _ _ other held => step_final other held)
    begun actions (fun a member same => apart (same ▸ member)) run
  refine ⟨fun a => ?_,fun a => ?_,quiet.empty,fun c p t' here taken => ?_,answers⟩
  · cases pc : a <;> simp [step,cycleStep,quiet.cycle]
  · simp [step,updaterStep,quiet.updater]
  · have stepped : t.callerStep c .lookup = some t' := taken
    rcases quiet.caller (reachable_placed reach') (callerStep_cases stepped) with
      ⟨_,outside,_⟩ | ⟨q,there,rfl⟩
    · rw [here] at outside
      contradiction
    · rw [here] at there
      cases there
      simp [setCaller]

def haltingRun : List ServerAction :=
  [.main .start] ++ List.map ServerAction.cycle [.list [],.mark,.next,.next,.next,.next] ++
  [.main .loaded,.updater .enter,.updater .test,.main .stop,.main .notify,.updater .wake,
    .updater .test,.updater .decide,.main .join,.main .lock]

theorem shutdown_complete_halting : ∃ t : Server, t.callers 0 = .entering ⟨0,"m",-1⟩ ∧
    t.modelMap.keys = [] ∧ (∀ a, t.step (.cycle a) = none) ∧
    ∀ t', t.step (.caller 0 .lookup) = some t' →
      t'.callers 0 = .returned ⟨0,"m",-1⟩ .failedInferNoBackendFound := by
  obtain ⟨sv,reach,seen⟩ := Transition.Machine.exec_observed (m := machine ⟨true,1⟩) haltingRun
    (fun sv => (sv.step (.main .unlock)).bind fun sv' =>
      ((machine ⟨true,1⟩).exec sv' [.caller 0 (.call "m" (-1))]).map (·.callers 0))
    (some (.entering ⟨0,"m",-1⟩)) rfl
  obtain ⟨sv',unlocked,seen⟩ := Option.bind_eq_some_iff.mp seen
  obtain ⟨t,run,here⟩ := Option.map_eq_some_iff.mp seen
  obtain ⟨quiet,_,empty,lookups,_⟩ :=
    (shutdown_complete reach).2 sv' [.caller 0 (.call "m" (-1))] t unlocked (by decide) run
  exact ⟨t,here,empty,quiet,fun t' => lookups 0 _ t' here⟩

end Server
end InferenceServer
