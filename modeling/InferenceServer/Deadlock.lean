import InferenceServer.InFlight
import InferenceServer.Shutdown

/-! Freedom from deadlock. Whoever waits, waits for a mutex, for space in a queue, for an item,
for the refresh thread or for a worker; the chain ends at a thread with a step of its own. -/
namespace InferenceServer

/-- A step that neither begins a call nor leaves a wait unasked, as a spurious wake-up and the
timeout of the refresh thread do. -/
def ServerAction.genuine : ServerAction → Bool
  | .caller _ (.call _ _) | .caller _ .wake | .status _ .call | .health _ (.call _)
  | .worker _ _ .wake | .main .start | .main .stop | .updater .spurious
  | .updater .timeout => false
  | _ => true

namespace Server

variable {config : ServerConfig} {sv sv' : Server}

/-- Every entry's scheduler has room for an item and a worker to take it. -/
def Provisioned (sv : Server) : Prop :=
  ∀ name context, sv.modelMap.lookup name = some context →
    1 ≤ (sv.schedulers context.scheduler).queue.capacity ∧
    1 ≤ (sv.schedulers context.scheduler).totalRunners

instance (sv : Server) : Decidable (Provisioned sv) :=
  decidable_of_iff (∀ entry ∈ sv.modelMap.entries,
      1 ≤ (sv.schedulers entry.2.scheduler).queue.capacity ∧
      1 ≤ (sv.schedulers entry.2.scheduler).totalRunners) <| by
    constructor
    · exact fun all name context present =>
        all ⟨name,context⟩ (AList.mem_lookup_iff.mp present)
    · rintro all ⟨name,context⟩ member
      exact all name context (AList.mem_lookup_iff.mpr member)

/-- Some call waits or is under way, or an accepted request lies in a running scheduler. -/
inductive Unfinished (sv : Server) : Prop where
  | entering {c p} : sv.callers c = .entering p → Unfinished sv
  | enqueuing {c p k} : sv.callers c = .enqueuing p k → Unfinished sv
  | collecting {c} : sv.statuses c = .collecting → Unfinished sv
  | counting {c listed} : sv.statuses c = .counting listed → Unfinished sv
  | health {c} : sv.healths c = .counting → Unfinished sv
  | cycle : sv.cycle ≠ .idle → Unfinished sv
  | main : sv.main.ready = false → Unfinished sv
  | buffer {k} : (sv.schedulers k).running = true → (sv.schedulers k).queue.buffer ≠ [] →
      Unfinished sv

/-- Some thread has a step that is no spurious wake-up and no turn of a polling loop. -/
def Progress (sv : Server) : Prop :=
  ∃ a sv', sv.step a = some sv' ∧ a.genuine = true ∧ ¬Polling sv a

theorem progress_of {a : ServerAction} (taken : ∃ sv', sv.step a = some sv')
    (genuine : a.genuine = true) (plain : sv.tearing? a = none) : Progress sv := by
  obtain ⟨sv',taken⟩ := taken
  refine ⟨a,sv',taken,genuine,?_⟩
  rintro ⟨t,b,tears,_⟩
  rw [plain] at tears
  contradiction

theorem worker_progress {k w : Nat} {t : Worker Payload Nat} (back : ¬Lost sv k w)
    (atIndex : (sv.schedulers k).threads[w]? = some t) (live : t.pc ≠ .exited)
    (awake : w ∉ (sv.schedulers k).queue.pushEvent.asleep) : Progress sv := by
  have act (a : WorkerAction) (genuine : a ≠ .wake)
      (taken : ∃ sv', sv.step (.worker k w a) = some sv') : Progress sv :=
    progress_of taken (by cases a <;> first | rfl | contradiction) rfl
  obtain ⟨idx,pc⟩ := t
  cases pc with
  | looping =>
    exact act .test (by simp) (by
      simp [step,workerStep,runEffect,Scheduler.workerStep,atIndex])
  | popping =>
    obtain ⟨wake,outcome,popped⟩ := (sv.schedulers k).queue.pop_enabled awake
    exact act (.pop wake) (by simp) (by
      simp [step,workerStep,runEffect,Scheduler.workerStep,atIndex,popped])
  | holding p =>
    exact act .copy (by simp) (by
      simp [step,workerStep,runEffect,Scheduler.workerStep,atIndex])
  | copied p copy =>
    exact act .call (by simp) (by
      simp [step,workerStep,runEffect,Scheduler.workerStep,atIndex])
  | running p b =>
    have returns : (sv.backends b).returns idx = true :=
      Bool.of_not_eq_false fun lost => back ⟨idx,p,b,atIndex,lost⟩
    exact act (.ret .failedGeneric) (by simp) (by
      simp [step,workerStep,runEffect,Scheduler.workerStep,atIndex,returns])
  | returned p b status =>
    exact act .complete (by simp) (by
      simp [step,workerStep,runEffect,Scheduler.workerStep,atIndex])
  | exited => exact absurd rfl live

theorem reachable_threaded (reach : (machine config).Reachable sv) (k : Nat) :
    (sv.schedulers k).Threaded := by
  refine reach.invariant (P := fun sv => (sv.schedulers k).Threaded)
    (Scheduler.create_threaded 0 0 0) ?_
  intro sv a sv' before valid taken
  cases reachable_moves before taken k with
  | still same => rwa [same]
  | created _ _ same => rw [same]; exact Scheduler.create_threaded _ _ _
  | moved _ _ _ stepped => exact Scheduler.step_threaded stepped valid

/-- A worker whose queue is broken sleeps no more. -/
theorem reachable_roused (reach : (machine config).Reachable sv) (k : Nat) :
    (sv.schedulers k).Roused :=
  (reachable_threaded reach k).roused

/-- A destructor that waits for a worker waits for one that can go on. -/
theorem joining_progress (reach : (machine config).Reachable sv) (returning : Returning sv)
    {t : Teardown} (joining : Joining sv t) : Progress sv := by
  obtain ⟨j,w,control,atIndex,live⟩ := joining
  have phase := (reachable_staffed reach t.context.scheduler).phase
  rw [Scheduler.Phase,control] at phase
  have asleep := (reachable_roused reach t.context.scheduler).queue.broken phase.2.1
  exact worker_progress (returning _ j) atIndex live (by simp [asleep])

/-- An item in a running scheduler is waited for by a worker that can go on. -/
theorem item_progress (reach : (machine config).Reachable sv) (returning : Returning sv) {k : Nat}
    (running : (sv.schedulers k).running = true) (staffed : (sv.schedulers k).threads ≠ [])
    (item : (sv.schedulers k).queue.buffer ≠ []) : Progress sv := by
  obtain ⟨_,awake,phase⟩ := reachable_staffed reach k
  have whole : (sv.schedulers k).queue.broken = false := by
    unfold Scheduler.Phase at phase
    split at phase <;> simp_all
  obtain ⟨w,t,atIndex,up⟩ := (reachable_roused reach k).awake staffed whole item
  exact worker_progress (returning k w) atIndex (awake running w t atIndex) up

def Fed (sv : Server) : Prop :=
  ∀ k, (sv.schedulers k).queue.buffer ≠ [] → (sv.schedulers k).threads ≠ []

theorem entry_staffed (reach : (machine config).Reachable sv) (provisioned : Provisioned sv)
    {name : String} {context : ModelRunContext}
    (present : sv.modelMap.lookup name = some context) :
    (sv.schedulers context.scheduler).threads ≠ [] := by
  obtain ⟨started,_⟩ := entry_serving reach present
  have phase := (reachable_staffed reach context.scheduler).phase
  rw [Scheduler.Phase,started] at phase
  have many := (provisioned name context present).2
  intro none
  have few := phase.2.2.2
  rw [none,List.length_nil] at few
  omega

theorem step_fed {a : ServerAction} (reach : (machine config).Reachable sv)
    (provisioned : Provisioned sv) (taken : sv.step a = some sv') (valid : Fed sv) :
    Fed sv' := by
  intro k item
  cases reachable_moves reach taken k with
  | still same =>
    rw [same] at item ⊢
    exact valid k item
  | created _ _ same =>
    rw [same] at item
    exact absurd rfl item
  | @moved b _ origin _ stepped =>
    have kept := Scheduler.step_threads stepped
    rcases Scheduler.step_fills stepped item with before | ⟨c,wake,rfl⟩
    · exact kept (valid k before)
    · obtain ⟨_,p,_,inside⟩ := origin
      obtain ⟨context,present,rfl⟩ := reachable_placed reach c p k inside
      exact kept (entry_staffed reach provisioned present)

theorem reachable_fed (reach : (machine config).ReachableBy (fun sv _ => Provisioned sv) sv) :
    Fed sv := by
  refine reach.invariant (fun _ item => absurd rfl item) ?_
  intro sv a sv' before valid provisioned taken
  exact step_fed before.reachable provisioned taken valid

/-- What the refresh thread and the call of `Start` are at while they are needed. -/
structure Engaged (sv : Server) : Prop where
  loading : sv.main = .loading → sv.cycle ≠ .idle
  cycling : sv.updater = .cycling → sv.cycle ≠ .idle
  held : sv.condMu = true →
    sv.updater = .testing ∨ sv.updater = .deciding ∨ sv.updater = .cycling

theorem engaged_of_same (valid : Engaged sv) (main : sv'.main = sv.main)
    (updater : sv'.updater = sv.updater) (condMu : sv'.condMu = sv.condMu)
    (cycle : sv'.cycle = .idle → sv.cycle = .idle) : Engaged sv' := by
  obtain ⟨loading,cycling,held⟩ := valid
  refine ⟨?_,?_,?_⟩
  · rw [main]
    exact fun here idle => loading here (cycle idle)
  · rw [updater]
    exact fun here idle => cycling here (cycle idle)
  · rw [condMu,updater]
    exact held

theorem main_engaged {a : MainAction} (taken : MainStep sv a sv') (exclusive : Exclusive sv)
    (valid : Engaged sv) : Engaged sv' := by
  obtain ⟨loading,cycling,held⟩ := valid
  cases taken with
  | startAgain | stop | lock | clear | unlock => exact ⟨by simp,cycling,held⟩
  | start ready halted =>
    exact ⟨by simp,by simp,held⟩
  | loaded here =>
    have absent := exclusive.alone (by simp [here,MainPc.alone])
    refine ⟨by simp,?_,fun condMu => ?_⟩
    · split <;> simp [absent]
    · rw [absent] at held
      exact absurd (held condMu) (by simp)
  | notify _ free woken =>
    refine ⟨by simp,?_,by simp [free]⟩
    rcases woken with rfl | ⟨_,_,rfl⟩
    · exact cycling
    · simp
  | join _ gone =>
    refine ⟨by simp,by simp,fun condMu => ?_⟩
    rcases gone with gone | gone <;> simpa [gone] using held condMu
  | tearing here torn | torn here torn =>
    obtain ⟨_,_,_,rfl⟩ := teardown_frame torn
    exact ⟨by simp,cycling,held⟩

theorem updater_engaged {a : UpdaterAction} (taken : UpdaterStep sv a sv')
    (exclusive : Exclusive sv) (valid : Engaged sv) : Engaged sv' := by
  obtain ⟨loading,cycling,held⟩ := valid
  cases taken with
  | enter | sleep | pass | wake | timeout | exit => exact ⟨loading,by simp,by simp⟩
  | refresh => exact ⟨by simp,by simp,by simp⟩
  | cycled here =>
    refine ⟨fun busy => ?_,by simp,by simp⟩
    have absent := exclusive.alone (by simp [show sv.main = .loading from busy,MainPc.alone])
    rw [here] at absent
    contradiction

theorem reachable_engaged (reach : (machine config).Reachable sv) : Engaged sv := by
  refine reach.invariant ⟨by simp [machine,create],by simp [machine,create],
    by simp [machine,create]⟩ ?_
  intro sv a sv' before valid taken
  have exclusive := reachable_exclusive before
  have taken : sv.step a = some sv' := taken
  cases a with
  | caller | status | health | worker =>
    obtain ⟨_,_,_,_,_,_,rfl⟩ := outside_frame taken rfl
    exact engaged_of_same valid rfl rfl rfl id
  | cycle a =>
    have cases := cycleStep_cases taken
    obtain ⟨_,_,condMu,_,main,updater,_⟩ := cycle_frame cases
    refine engaged_of_same valid main updater condMu fun idle => ?_
    exact absurd idle (cycle_busy cases)
  | main a => exact main_engaged (mainStep_cases taken) exclusive valid
  | updater a => exact updater_engaged (updaterStep_cases taken) exclusive valid

/-- The wait for an empty queue is a wait for its workers. -/
theorem draining_progress (reach : (machine config).Reachable sv) (fed : Fed sv)
    (returning : Returning sv) {t : Teardown} (draining : Draining sv t) : Progress sv := by
  obtain ⟨_,control,item⟩ := draining
  have phase := (reachable_staffed reach t.context.scheduler).phase
  rw [Scheduler.Phase,control] at phase
  exact item_progress reach returning phase.1 (fed _ item) item

/-- So is the wait for space, for a queue that can hold something. -/
theorem space_progress (reach : (machine config).Reachable sv) (provisioned : Provisioned sv)
    (returning : Returning sv) {c k : Nat} (waits : WaitsForSpace sv c k) : Progress sv := by
  obtain ⟨p,inside⟩ := waiting_inside reach (reachable_resting reach k) waits
  obtain ⟨context,present,rfl⟩ := reachable_placed reach c p k inside
  have full := ((reachable_resting reach context.scheduler).full (List.ne_nil_of_mem waits)).2
  have room := (provisioned _ context present).1
  have item : (sv.schedulers context.scheduler).queue.buffer ≠ [] :=
    List.ne_nil_of_length_pos (Nat.lt_of_lt_of_le room full)
  exact item_progress reach returning (entry_serving reach present).2.1
    (entry_staffed reach provisioned present) item

theorem holder_genuine (reach : (machine config).Reachable sv) {h : Holder}
    (held : sv.modelMapMu = some h) (awake : ∀ c k, ¬WaitsForSpace sv c k) {a : ServerAction}
    (acts : h.acts a) (taken : sv.step a = some sv') : a.genuine = true := by
  have inside := (reachable_locked reach h).mp held
  cases h with
  | caller c =>
    obtain ⟨p,k,there⟩ := inside
    cases a with
    | caller d b =>
      obtain rfl : c = d := acts
      cases b with
      | call => simp [step,callerStep,there] at taken
      | wake =>
        have asleep := awake c k
        unfold WaitsForSpace at asleep
        cases place : (sv.schedulers k).producers c <;>
          simp [step,callerStep,enqueueStep,there,Scheduler.producerStep,place,asleep] at taken
      | _ => rfl
    | _ => exact acts.elim
  | loader =>
    cases a with
    | cycle b => rfl
    | _ => exact acts.elim
  | stopper =>
    cases a with
    | main b =>
      have ready : sv.main.ready = false := by
        have locked : sv.main.locked = true := inside
        cases pc : sv.main <;> simp_all [MainPc.ready,MainPc.locked]
      cases b with
      | start | stop => simp [step,mainStep,ready] at taken
      | _ => rfl
    | _ => exact acts.elim

theorem holder_progress (reach : (machine config).Reachable sv) (fed : Fed sv)
    (returning : Returning sv) {h : Holder} (held : sv.modelMapMu = some h)
    (awake : ∀ c k, ¬WaitsForSpace sv c k) : Progress sv := by
  rcases holder_advances reach held awake with
    ⟨a,sv',acts,taken,plain⟩ | ⟨t,_,joining | ⟨draining,_⟩⟩
  · exact ⟨a,sv',taken,holder_genuine reach held awake acts taken,plain⟩
  · exact joining_progress reach returning joining
  · exact draining_progress reach fed returning draining

/-- With the mutex free `LoadModels`, or whoever called it, goes on. -/
theorem cycle_progress (reach : (machine config).Reachable sv) (fed : Fed sv)
    (returning : Returning sv) (free : sv.modelMapMu = none) (busy : sv.cycle ≠ .idle) :
    Progress sv := by
  by_cases finished : sv.cycle = .finished
  · rcases (reachable_exclusive reach).loader busy with loading | cycling
    · exact progress_of (a := .main .loaded) (by simp [step,mainStep,loading,finished]) rfl rfl
    · exact progress_of (a := .updater .cycled) (by simp [step,updaterStep,cycling,finished]) rfl
        rfl
  · rcases cycle_advances reach free ⟨busy,finished⟩ with
      ⟨a,sv',taken,plain⟩ | ⟨t,_,_,joining | ⟨draining,_⟩⟩
    · exact ⟨.cycle a,sv',taken,rfl,plain⟩
    · exact joining_progress reach returning joining
    · exact draining_progress reach fed returning draining

theorem testing_progress (testing : sv.updater = .testing) : Progress sv := by
  refine progress_of (a := .updater .test) ?_ rfl rfl
  simp only [step,updaterStep,testing]
  split <;> exact ⟨_,rfl⟩

theorem deciding_progress (deciding : sv.updater = .deciding) : Progress sv := by
  refine progress_of (a := .updater .decide) ?_ rfl rfl
  simp only [step,updaterStep,deciding]
  split <;> exact ⟨_,rfl⟩

theorem condMu_progress (reach : (machine config).Reachable sv) (fed : Fed sv)
    (returning : Returning sv) (free : sv.modelMapMu = none) (held : sv.condMu = true) :
    Progress sv := by
  rcases (reachable_engaged reach).held held with testing | deciding | cycling
  · exact testing_progress testing
  · exact deciding_progress deciding
  · exact cycle_progress reach fed returning free ((reachable_engaged reach).cycling cycling)

/-- With the mutex free a call of `Start` or `Stop` goes on, if need be with the refresh thread
that `Stop` joins. -/
theorem main_progress (reach : (machine config).Reachable sv) (fed : Fed sv)
    (returning : Returning sv) (free : sv.modelMapMu = none) (busy : sv.main.ready = false) :
    Progress sv := by
  have unlocked : sv.main.locked ≠ true := by
    have locked := reachable_locked reach
    unfold Locked at locked
    rw [free] at locked
    exact locked.free .stopper
  by_cases held : sv.condMu = true
  · exact condMu_progress reach fed returning free held
  have open' : sv.condMu = false := by simpa using held
  cases pc : sv.main with
  | outside | returned => simp [pc,MainPc.ready] at busy
  | loading => exact cycle_progress reach fed returning free ((reachable_engaged reach).loading pc)
  | notifying => exact progress_of (a := .main .notify) (by simp [step,mainStep,pc,open']) rfl rfl
  | locking => exact progress_of (a := .main .lock) (by simp [step,mainStep,pc,free]) rfl rfl
  | clearing | tearing => simp [pc,MainPc.locked] at unlocked
  | joining =>
    cases place : sv.updater with
    | absent | exited =>
      exact progress_of (a := .main .join) (by simp [step,mainStep,pc,place]) rfl rfl
    | entering =>
      exact progress_of (a := .updater .enter) (by simp [step,updaterStep,place,open']) rfl rfl
    | asleep notified =>
      have told := (reachable_stopping reach).notified (by simp [pc,MainPc.notified])
      cases notified with
      | false => exact absurd place told
      | true =>
        exact progress_of (a := .updater .wake) (by simp [step,updaterStep,place,open']) rfl rfl
    | testing => exact testing_progress place
    | deciding => exact deciding_progress place
    | cycling =>
      exact cycle_progress reach fed returning free ((reachable_engaged reach).cycling place)

/-- Runs on which every scheduler in `model_map_` has room for a request and a worker never
get stuck while every call of `Run` comes back: if a call is unfinished, or a request lies in a
running scheduler, some thread has a step that is neither a spurious wake-up nor a turn of
`Stop`'s polling loop. -/
theorem no_deadlock {config : ServerConfig} {sv : Server}
    (reach : (machine config).ReachableBy (fun sv _ => Provisioned sv) sv)
    (provisioned : Provisioned sv) (returning : Returning sv) (unfinished : Unfinished sv) :
    Progress sv := by
  have fed := reachable_fed reach
  have reach := reach.reachable
  by_cases waits : ∃ c k, WaitsForSpace sv c k
  · obtain ⟨c,k,waits⟩ := waits
    exact space_progress reach provisioned returning waits
  have awake (c k : Nat) : ¬WaitsForSpace sv c k := fun there => waits ⟨c,k,there⟩
  cases held : sv.modelMapMu with
  | some h => exact holder_progress reach fed returning held awake
  | none =>
    cases unfinished with
    | @entering c p here =>
      refine progress_of (a := .caller c .lookup) ?_ rfl rfl
      cases present : sv.modelMap.lookup p.modelName <;>
        simp [step,callerStep,here,held,present]
    | @enqueuing c p k here =>
      have inside := (reachable_locked reach (.caller c)).mpr ⟨p,k,here⟩
      rw [held] at inside
      contradiction
    | @collecting c here =>
      obtain ⟨status,listed,_⟩ := getModelStatus_some (reachable_owned reach held)
      exact progress_of (a := .status c .collect)
        (by simp [step,statusStep,here,held,listed]) rfl rfl
    | @counting c _ here =>
      exact progress_of (a := .status c .count) (by simp [step,statusStep,here,held]) rfl rfl
    | @health c here =>
      exact progress_of (a := .health c .count) (by simp [step,healthStep,here,held]) rfl rfl
    | cycle busy => exact cycle_progress reach fed returning held busy
    | main busy => exact main_progress reach fed returning held busy
    | buffer running item => exact item_progress reach returning running (fed _ item) item

/-- The client waits for space, and three others for the mutex it holds. -/
theorem no_deadlock_congested : ∃ sv : Server, WaitsForSpace sv 1 0 ∧ Progress sv := by
  obtain ⟨sv,reach,seen⟩ := Transition.Machine.exec_observed
    (m := (machine ⟨true,1⟩).restrict fun sv _ => Provisioned sv) congestedRun
    (fun sv => ((sv.schedulers 0).queue.popEvent.asleep,sv.healths 0,decide (Provisioned sv),
      decide (Uncalled sv))) ([1],.counting,true,true) rfl
  simp only [Prod.mk.injEq,decide_eq_true_eq] at seen
  obtain ⟨asleep,health,provisioned,uncalled⟩ := seen
  have reach := Transition.Machine.restrict_reachable reach
  exact ⟨sv,by simp [WaitsForSpace,asleep],
    no_deadlock reach provisioned (uncalled.returning reach.reachable) (.health health)⟩

end Server
end InferenceServer
