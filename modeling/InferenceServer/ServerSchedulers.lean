import InferenceServer.ServerInvariant

/-! The schedulers inside the server: each is created once and from then on takes steps of
its own machine, started and stopped once, and entered only by callers of `InferAsync`. -/
namespace InferenceServer.Server

open Store

/-- While a caller is inside `Enqueue` nobody changes the map. -/
theorem step_map {sv sv' : Server} {a : ServerAction} (taken : sv.step a = some sv')
    (locked : Locked sv) : sv'.modelMap = sv.modelMap ∧ sv'.callers = sv.callers ∨
      (sv'.modelMap = sv.modelMap ∧ ∃ c b, a = .caller c b) ∨
      (sv'.callers = sv.callers ∧ ∀ c p k, sv.callers c ≠ .enqueuing p k) := by
  have free (unlocked : sv.modelMapMu = none) (c : Nat) (p : Payload) (k : Nat) :
      sv.callers c ≠ .enqueuing p k := by
    intro there
    unfold Locked at locked
    rw [unlocked] at locked
    exact locked.free (.caller c) ⟨p,k,there⟩
  have held {h : Holder} (inside : sv.Inside h) (other : ∀ c, h ≠ .caller c) (c : Nat) (p : Payload)
      (k : Nat) : sv.callers c ≠ .enqueuing p k :=
    fun there => other c (locked.unique inside (u := .caller c) ⟨p,k,there⟩)
  cases a with
  | caller c b =>
    obtain ⟨_,_,_,rfl⟩ := caller_frame (callerStep_cases taken)
    exact .inr (.inl ⟨rfl,c,b,rfl⟩)
  | status c a =>
    obtain ⟨_,rfl⟩ := status_frame taken
    exact .inl ⟨rfl,rfl⟩
  | health c a =>
    obtain ⟨_,rfl⟩ := health_frame taken
    exact .inl ⟨rfl,rfl⟩
  | worker k w a =>
    obtain ⟨_,_,rfl⟩ := worker_frame (workerStep_effect taken)
    exact .inl ⟨rfl,rfl⟩
  | updater a => cases updaterStep_cases taken <;> exact .inl ⟨rfl,rfl⟩
  | main a =>
    cases mainStep_cases taken with
    | startAgain | start | loaded | stop | notify | join | lock | unlock => exact .inl ⟨rfl,rfl⟩
    | tearing _ step | torn _ step =>
      obtain ⟨_,_,_,rfl⟩ := teardown_frame step
      exact .inl ⟨rfl,rfl⟩
    | clear here =>
      exact .inr (.inr ⟨rfl,held (h := .stopper) (by simp [Inside,here,MainPc.locked]) (by simp)⟩)
  | cycle a =>
    cases cycleStep_cases taken with
    | list | mark | skip | found | check | scanned | notAdded | added | construct | start | spawn
    | reject | allAdded | notUpdated | updated | missing | lock | install | reset | allUpdated
    | gone | allDeleted => exact .inl ⟨rfl,rfl⟩
    | rejecting _ step | rejected _ step | tearing _ step | torn _ step =>
      obtain ⟨_,_,_,rfl⟩ := teardown_frame step
      exact .inl ⟨rfl,rfl⟩
    | insert _ _ unlocked => exact .inr (.inr ⟨rfl,free unlocked⟩)
    | erase _ unlocked => exact .inr (.inr ⟨rfl,free unlocked⟩)
    | swap here =>
      exact .inr (.inr ⟨rfl,held (h := .loader) (by simp [Inside,here,CyclePc.locked]) (by simp)⟩)

/-- A caller inside `Enqueue` is on the scheduler of the entry it looked up. -/
def Placed (sv : Server) : Prop :=
  ∀ c p k, sv.callers c = .enqueuing p k →
    ∃ context, sv.modelMap.lookup p.modelName = some context ∧ context.scheduler = k

theorem reachable_placed {config : ServerConfig} {sv : Server}
    (reach : (machine config).Reachable sv) : Placed sv := by
  refine reach.invariant (by simp [Placed,machine,create]) ?_
  intro sv a sv' before valid taken c p k there
  rcases step_map taken (reachable_locked before) with
    ⟨map,callers⟩ | ⟨map,d,b,rfl⟩ | ⟨callers,nobody⟩
  · rw [map]
    exact valid c p k (by rwa [callers] at there)
  · rw [map]
    have old (other : sv'.callers c = sv.callers c) := valid c p k (other ▸ there)
    have cases (pc : CallerPc) (set : sv'.callers = Function.update sv.callers d pc) :
        c = d ∧ pc = .enqueuing p k ∨ sv'.callers c = sv.callers c := by
      by_cases same : c = d
      · subst c
        rw [set,Function.update_self] at there
        exact .inl ⟨rfl,there⟩
      · exact .inr (by rw [set,Function.update_of_ne same])
    cases callerStep_cases taken with
    | call | notFound | finish =>
      rcases cases _ rfl with ⟨_,h⟩ | other
      · contradiction
      · exact old other
    | enqueue => exact old rfl
    | @found q context _ _ present =>
      rcases cases _ rfl with ⟨_,h⟩ | other
      · cases h
        exact ⟨context,present,rfl⟩
      · exact old other
  · rw [callers] at there
    exact absurd there (nobody c p k)

def tearing? (sv : Server) : ServerAction → Option (Teardown × TeardownAction)
  | .cycle (.teardown a) =>
    match sv.cycle with
    | .rejecting t _ | .tearing t _ => some (t,a)
    | _ => none
  | .main (.teardown a) =>
    match sv.main with
    | .tearing t => some (t,a)
    | _ => none
  | _ => none

theorem step_tearing {sv sv' : Server} {act : ServerAction} {t : Teardown} {a : TeardownAction}
    (taken : sv.step act = some sv') (destroys : sv.tearing? act = some (t,a)) :
    ∃ sv₁ left, TeardownStep sv t a sv₁ left ∧ sv'.schedulers = sv₁.schedulers ∧
      sv'.backends = sv₁.backends ∧ sv'.destroyed = sv₁.destroyed := by
  unfold tearing? at destroys
  split at destroys
  next a' =>
    cases cycleStep_cases taken with
    | rejecting pc step | rejected pc step | tearing pc step | torn pc step =>
      rw [pc] at destroys
      cases destroys
      exact ⟨_,_,step,rfl,rfl,rfl⟩
  next a' =>
    have stepped : sv.mainStep (.teardown a') = some sv' := taken
    cases mainStep_cases stepped with
    | tearing pc step | torn pc step =>
      rw [pc] at destroys
      cases destroys
      exact ⟨_,_,step,rfl,rfl,rfl⟩
  · contradiction

/-- The context that is being destroyed is out of the map, and where its destructor is. -/
theorem reachable_torn {config : ServerConfig} {sv : Server}
    (reach : (machine config).Reachable sv) {act : ServerAction} {t : Teardown}
    {a : TeardownAction} (destroys : sv.tearing? act = some (t,a)) : Torn sv.store t := by
  obtain ⟨_,locals,own⟩ := reachable_valid reach
  unfold tearing? at destroys
  split at destroys
  · split at destroys
    next pc => rw [pc] at locals; cases destroys; exact locals
    next pc => rw [pc] at locals; cases destroys; exact locals
    · contradiction
  · split at destroys
    next here => rw [here] at own; cases destroys; exact own
    · contradiction
  · contradiction

def Origin (sv : Server) (act : ServerAction) (k : Nat) : SchedulerAction Payload Nat → Prop
  | .worker w b => act = .worker k w b
  | .producer c _ => ∃ b p, act = .caller c b ∧ sv.callers c = .enqueuing p k
  | .control .start => act = .cycle .start
  | .control .spawn => act = .cycle .spawn
  | .control b => ∃ t x, sv.tearing? act = some (t,x) ∧ t.context.scheduler = k ∧
      (b = .breakAll ↔ x = .breakAll)
  | .update _ => act = .cycle .install

inductive Moves (sv sv' : Server) (act : ServerAction) (k : Nat) : Prop where
  | still : sv'.schedulers k = sv.schedulers k → Moves sv sv' act k
  | created {maxQueueSize totalRunners func} : k = sv.nextScheduler →
      sv'.nextScheduler = sv.nextScheduler + 1 →
      sv'.schedulers k = .create maxQueueSize totalRunners func → Moves sv sv' act k
  | moved {a} : Scheduler.Orderly (sv.schedulers k) a → Origin sv act k a →
      ((∃ w b, a = .worker w b) ∨ k < sv.nextScheduler) →
      (sv.schedulers k).step a = some (sv'.schedulers k) → Moves sv sv' act k

theorem moves_of_set {sv sv' : Server} {act : ServerAction} {j : Nat}
    {sc : Scheduler Payload Nat} (a : SchedulerAction Payload Nat)
    (set : sv'.schedulers = Function.update sv.schedulers j sc)
    (orderly : Scheduler.Orderly (sv.schedulers j) a) (origin : Origin sv act j a)
    (exist : (∃ w b, a = .worker w b) ∨ j < sv.nextScheduler)
    (stepped : (sv.schedulers j).step a = some sc) (k : Nat) : Moves sv sv' act k := by
  by_cases here : k = j
  · subst k
    refine .moved orderly origin exist ?_
    rw [set,Function.update_self]
    exact stepped
  · exact .still (by rw [set,Function.update_of_ne here])

theorem teardown_moves {sv sv₁ sv' : Server} {t : Teardown} {act : ServerAction}
    {a : TeardownAction} {left : Option Teardown} (taken : TeardownStep sv t a sv₁ left)
    (torn : Torn sv.store t) (destroys : sv.tearing? act = some (t,a))
    (same : sv'.schedulers = sv₁.schedulers) (k : Nat) : Moves sv sv' act k := by
  obtain ⟨held,_,rest⟩ := torn
  cases taken with
  | release | destroy => exact .still (congrFun same k)
  | stop stage stepped =>
    rw [stage] at rest
    exact moves_of_set (.control .stop) same ⟨by simp,fun _ => rest.1.1⟩
      ⟨t,_,destroys,rfl,by simp⟩ (.inr held.created) stepped k
  | @wind _ b sc _ winds stepped =>
    obtain ⟨winding,breaks⟩ := winding?_some winds
    refine moves_of_set (.control b) same ⟨?_,?_⟩ ?_ (.inr held.created) stepped k
    · rintro ⟨⟩; exact winding.elim
    · rintro ⟨⟩; exact winding.elim
    · cases b with
      | start | spawn | stop => exact winding.elim
      | drain | clearRunning | breakAll | join => exact ⟨t,_,destroys,rfl,breaks⟩

theorem cycle_moves {sv sv' : Server} {a : CycleAction} (taken : CycleStep sv a sv')
    (valid : Valid sv) (k : Nat) : Moves sv sv' (.cycle a) k := by
  have locals := valid.cycle
  cases taken with
  | list | mark | skip | found | check | scanned | notAdded | added | insert | reject | allAdded
  | notUpdated | updated | missing | lock | swap | reset | allUpdated | gone | erase
  | allDeleted => exact .still rfl
  | construct =>
    by_cases here : k = sv.nextScheduler
    · exact .created here rfl (by rw [here]; exact Function.update_self _ _ _)
    · exact .still (Function.update_of_ne here _ _)
  | start pc stepped =>
    rw [pc] at locals
    obtain ⟨⟨held,_⟩,idle,_⟩ := locals
    exact moves_of_set (.control .start) rfl ⟨fun _ => idle,by simp⟩ rfl (.inr held.created)
      stepped k
  | spawn pc stepped =>
    rw [pc] at locals
    obtain ⟨⟨held,_⟩,_⟩ := locals
    exact moves_of_set (.control .spawn) rfl ⟨by simp,by simp⟩ rfl (.inr held.created) stepped k
  | install pc present =>
    obtain ⟨held,_⟩ := valid.sane.entry _ _ present
    exact moves_of_set (.update _) rfl ⟨by simp,by simp⟩ rfl (.inr held.created) rfl k
  | rejecting pc step | rejected pc step | tearing pc step | torn pc step =>
    rw [pc] at locals
    refine teardown_moves step locals ?_ ?_ k
    · simp only [tearing?,pc]
    · rfl

theorem main_moves {sv sv' : Server} {a : MainAction} (taken : MainStep sv a sv')
    (valid : Valid sv) (k : Nat) : Moves sv sv' (.main a) k := by
  have own := valid.main
  cases taken with
  | startAgain | start | loaded | stop | notify | join | lock | clear | unlock => exact .still rfl
  | tearing here step | torn here step =>
    rw [here] at own
    refine teardown_moves step own ?_ ?_ k
    · simp only [tearing?,here]
    · rfl

theorem step_moves {sv sv' : Server} {a : ServerAction} (taken : sv.step a = some sv')
    (valid : Valid sv) (placed : Placed sv) (k : Nat) : Moves sv sv' a k := by
  cases a with
  | caller c a =>
    cases callerStep_cases taken with
    | call | notFound | found | finish => exact .still rfl
    | @enqueue p j _ b _ there stepped =>
      obtain ⟨context,present,rfl⟩ := placed c p j there
      obtain ⟨held,_⟩ := valid.sane.entry _ _ present
      exact moves_of_set (.producer c b) rfl ⟨by simp,by simp⟩ ⟨a,p,rfl,there⟩
        (.inr held.created) stepped k
  | status c a =>
    obtain ⟨_,rfl⟩ := status_frame taken
    exact .still rfl
  | health c a =>
    obtain ⟨_,rfl⟩ := health_frame taken
    exact .still rfl
  | worker j w a =>
    cases workerStep_effect taken with
    | quiet stepped | call stepped | ret stepped =>
      exact moves_of_set (.worker w a) rfl ⟨by simp,by simp⟩ rfl (.inl ⟨w,a,rfl⟩) stepped k
  | cycle a => exact cycle_moves (cycleStep_cases taken) valid k
  | main a => exact main_moves (mainStep_cases taken) valid k
  | updater a =>
    cases updaterStep_cases taken <;> exact .still rfl

theorem reachable_moves {config : ServerConfig} {sv sv' : Server} {a : ServerAction}
    (reach : (machine config).Reachable sv) (taken : sv.step a = some sv') (k : Nat) :
    Moves sv sv' a k :=
  step_moves taken (reachable_valid reach) (reachable_placed reach) k

theorem reachable_staffed {config : ServerConfig} {sv : Server}
    (reach : (machine config).Reachable sv) (k : Nat) : (sv.schedulers k).Staffed := by
  refine reach.invariant (P := fun sv => (sv.schedulers k).Staffed)
    (Scheduler.create_staffed 0 0 0) ?_
  intro sv a sv' before valid taken
  cases reachable_moves before taken k with
  | still same => rwa [same]
  | created _ _ same => rw [same]; exact Scheduler.create_staffed _ _ _
  | moved orderly _ _ stepped => exact Scheduler.step_staffed orderly stepped valid

theorem reachable_sound {config : ServerConfig} {sv : Server}
    (reach : (machine config).Reachable sv) (k : Nat) :
    ∃ func, Scheduler.Sound func (sv.schedulers k) := by
  refine reach.invariant (P := fun sv => ∃ func, Scheduler.Sound func (sv.schedulers k))
    ⟨0,Scheduler.create_sound 0 0 0⟩ ?_
  rintro sv a sv' before ⟨func,valid⟩ taken
  cases reachable_moves before taken k with
  | still same => exact ⟨func,by rwa [same]⟩
  | created _ _ same => exact ⟨_,by rw [same]; exact Scheduler.create_sound _ _ _⟩
  | moved _ _ _ stepped => exact ⟨func,Scheduler.step_sound stepped valid⟩

theorem step_grows {sv sv' : Server} {a : ServerAction} (taken : sv.step a = some sv') :
    sv.nextScheduler ≤ sv'.nextScheduler := by
  cases a with
  | caller | status | health | worker =>
    obtain ⟨_,_,_,_,_,_,rfl⟩ := outside_frame taken rfl
    exact le_rfl
  | updater a => cases updaterStep_cases taken <;> exact le_rfl
  | main a =>
    cases mainStep_cases taken with
    | tearing _ step | torn _ step =>
      obtain ⟨_,_,_,rfl⟩ := teardown_frame step
      exact le_rfl
    | _ => exact le_rfl
  | cycle a =>
    cases cycleStep_cases taken with
    | construct => exact Nat.le_succ _
    | rejecting _ step | rejected _ step | tearing _ step | torn _ step =>
      obtain ⟨_,_,_,rfl⟩ := teardown_frame step
      exact le_rfl
    | _ => exact le_rfl

/-- The schedulers that do not exist yet. -/
theorem reachable_unborn {config : ServerConfig} {sv : Server}
    (reach : (machine config).Reachable sv) :
    ∀ k, sv.nextScheduler ≤ k → sv.schedulers k = .create 0 0 0 := by
  refine reach.invariant (P := fun sv => ∀ k, sv.nextScheduler ≤ k →
    sv.schedulers k = .create 0 0 0) (fun _ _ => rfl) ?_
  intro sv a sv' before valid taken k past
  have grows := step_grows taken
  have old := valid k (by omega)
  cases reachable_moves before taken k with
  | still same => rw [same,old]
  | created here next => omega
  | moved _ _ exist stepped =>
    rcases exist with ⟨w,b,rfl⟩ | below
    · rw [old] at stepped
      simp [Scheduler.step,Scheduler.workerStep,Scheduler.create] at stepped
    · omega

/-- The place of a caller in `InferAsync`, given its place in `Enqueue` on scheduler `k`. -/
def Standing (pc : CallerPc) (k : Nat) : ProducerPc Payload → Prop
  | .idle => True
  | .pushing p | .pushed p | .dropped p => pc = .enqueuing p k
  | .returned p status => pc = .enqueuing p k ∨ pc = .returned p status

structure Calls (sv : Server) : Prop where
  own : ∀ c p, (sv.callers c).payload? = some p → p.id = c
  standing : ∀ k c, Standing (sv.callers c) k ((sv.schedulers k).producers c)
  accepted : ∀ c p, sv.callers c = .returned p .success →
    ∃ k, (sv.schedulers k).producers c = .returned p .success

theorem standing_inactive {pc pc' : CallerPc} {k : Nat} {at' : ProducerPc Payload}
    (standing : Standing pc k at') (outside : ∀ p, pc ≠ .enqueuing p k)
    (unanswered : ∀ p status, pc ≠ .returned p status) : Standing pc' k at' := by
  cases at' with
  | idle => trivial
  | pushing p | pushed p | dropped p => exact absurd standing (outside p)
  | returned p status =>
    rcases standing with h | h
    · exact absurd h (outside p)
    · exact absurd h (unanswered p status)

theorem step_producers {sv sv' : Server} {a : ServerAction} {config : ServerConfig}
    (reach : (machine config).Reachable sv) (taken : sv.step a = some sv')
    (other : ∀ c b, a ≠ .caller c b) (k c : Nat) :
    (sv'.schedulers k).producers c = (sv.schedulers k).producers c := by
  cases reachable_moves reach taken k with
  | still same => rw [same]
  | created here _ same =>
    rw [same,reachable_unborn reach k (Nat.le_of_eq here.symm)]
    rfl
  | @moved b _ origin _ stepped =>
    rw [Scheduler.step_producers stepped]
    rintro d b rfl
    obtain ⟨b,p,same,_⟩ := origin
    exact other d b same

theorem step_callers {sv sv' : Server} {a : ServerAction} (taken : sv.step a = some sv')
    (other : ∀ c b, a ≠ .caller c b) : sv'.callers = sv.callers := by
  cases a with
  | caller c a => exact absurd rfl (other c a)
  | status c a =>
    obtain ⟨_,rfl⟩ := status_frame taken
    rfl
  | health c a =>
    obtain ⟨_,rfl⟩ := health_frame taken
    rfl
  | worker k w a =>
    obtain ⟨_,_,rfl⟩ := worker_frame (workerStep_effect taken)
    rfl
  | cycle a => exact (cycle_frame (cycleStep_cases taken)).2.2.2.2.2.2.1
  | main a =>
    cases mainStep_cases taken with
    | tearing _ step | torn _ step =>
      obtain ⟨_,_,_,rfl⟩ := teardown_frame step
      rfl
    | _ => rfl
  | updater a => cases updaterStep_cases taken <;> rfl

/-- A step of `Enqueue` keeps the caller's place in line with it. -/
theorem producer_standing {sc sc' : Scheduler Payload Nat} {c k : Nat} {p : Payload}
    {a : ProducerAction Payload} (taken : sc.producerStep c a = some sc')
    (own : ∀ q, a = .enqueue q → q = p) (standing : Standing (.enqueuing p k) k (sc.producers c)) :
    Standing (.enqueuing p k) k (sc'.producers c) ∧
    ∀ d, d ≠ c → sc'.producers d = sc.producers d := by
  have payload {q : Payload} (there : (.enqueuing p k : CallerPc) = .enqueuing q k) : p = q := by
    cases there; rfl
  have others {pc : ProducerPc Payload} {d : Nat} (other : d ≠ c) :
      Function.update sc.producers c pc d = sc.producers d := Function.update_of_ne other _ _
  cases Scheduler.producerStep_cases taken with
  | @enter q =>
    cases own q rfl
    exact ⟨by simp [Scheduler.setProducer,Standing],fun _ => others⟩
  | @refuse q =>
    cases own q rfl
    exact ⟨by simp [Scheduler.setProducer,Standing],fun _ => others⟩
  | append pc | drop pc =>
    rw [pc] at standing
    cases payload standing
    exact ⟨by simp [Scheduler.setProducer,Standing],fun _ => others⟩
  | sleep | wake => exact ⟨standing,fun _ _ => rfl⟩
  | leave pc =>
    rcases pc with pc | pc
    all_goals
      rw [pc] at standing
      cases payload standing
      exact ⟨by simp [Scheduler.setProducer,Standing],fun _ => others⟩

theorem caller_calls {sv sv' : Server} {c : Nat} {a : CallerAction}
    (taken : CallerStep sv c a sv') (valid : Calls sv) : Calls sv' := by
  obtain ⟨own,standing,accepted⟩ := valid
  have moved (pc : CallerPc) (mine : ∀ p, pc.payload? = some p → p.id = c)
      (place : ∀ k, Standing pc k ((sv.schedulers k).producers c))
      (answer : ∀ p, pc = .returned p .success →
        ∃ k, (sv.schedulers k).producers c = .returned p .success) :
      Calls (sv.setCaller c pc) := by
    constructor
    · intro d p there
      by_cases same : d = c
      · subst d
        exact mine p (by simpa [setCaller] using there)
      · exact own d p (by simpa [setCaller,Function.update_of_ne same] using there)
    · intro k d
      by_cases same : d = c
      · subst d
        simpa [setCaller] using place k
      · simpa [setCaller,Function.update_of_ne same] using standing k d
    · intro d p there
      by_cases same : d = c
      · subst d
        exact answer p (by simpa [setCaller] using there)
      · exact accepted d p (by simpa [setCaller,Function.update_of_ne same] using there)
  cases taken with
  | call here =>
    refine moved _ (by rintro _ ⟨⟩; rfl) (fun k => ?_) (by simp)
    exact standing_inactive (standing k c) (by simp [here]) (by simp [here])
  | @notFound p here =>
    refine moved _ (fun q there => own c q (by rw [here]; exact there)) (fun k => ?_) (by simp)
    exact standing_inactive (standing k c) (by simp [here]) (by simp [here])
  | @found p context here =>
    have next := moved (.enqueuing p context.scheduler)
      (fun q there => own c q (by rw [here]; exact there))
      (fun k => standing_inactive (standing k c) (by simp [here]) (by simp [here])) (by simp)
    exact ⟨next.own,next.standing,next.accepted⟩
  | @enqueue p k _ b sc here stepped payload =>
    obtain ⟨mine,others⟩ := producer_standing stepped payload (by simpa [here] using standing k c)
    refine ⟨own,?_,?_⟩
    · intro j d
      by_cases same : j = k
      · subst j
        simp only [setScheduler,Function.update_self]
        by_cases it : d = c
        · subst d
          rw [here]
          exact mine
        · rw [others d it]
          exact standing k d
      · simp only [setScheduler,Function.update_of_ne same]
        exact standing j d
    · intro d q there
      have it : d ≠ c := by
        rintro rfl
        exact absurd (here.symm.trans there) (by simp)
      obtain ⟨j,answer⟩ := accepted d q there
      refine ⟨j,?_⟩
      by_cases same : j = k
      · subst j
        simp only [setScheduler,Function.update_self]
        rw [others d it,answer]
      · simpa only [setScheduler,Function.update_of_ne same] using answer
  | @finish p q k status here returned =>
    have payload : q = p := by
      have place := standing k c
      rw [here,returned] at place
      rcases place with h | h
      · cases h; rfl
      · contradiction
    subst q
    have place (j : Nat) : Standing (.returned p status) j ((sv.schedulers j).producers c) := by
      have before := standing j c
      rw [here] at before
      cases there : (sv.schedulers j).producers c with
      | idle => trivial
      | pushing q | pushed q | dropped q =>
        rw [there] at before
        cases before
        rw [returned] at there
        contradiction
      | returned q other =>
        rw [there] at before
        rcases before with h | h
        · cases h
          rw [returned] at there
          cases there
          exact .inr rfl
        · contradiction
    have next := moved (.returned p status) (fun q there => own c q (by rw [here]; exact there))
      place (by rintro _ ⟨⟩; exact ⟨k,returned⟩)
    exact ⟨next.own,next.standing,next.accepted⟩

theorem reachable_calls {config : ServerConfig} {sv : Server}
    (reach : (machine config).Reachable sv) : Calls sv := by
  refine reach.invariant ⟨by simp [machine,create,CallerPc.payload?],fun _ _ => trivial,
    by simp [machine,create]⟩ ?_
  intro sv a sv' before valid taken
  by_cases mine : ∃ c b, a = .caller c b
  · obtain ⟨c,b,rfl⟩ := mine
    exact caller_calls (callerStep_cases taken) valid
  · have other (c : Nat) (b : CallerAction) : a ≠ .caller c b := fun same => mine ⟨c,b,same⟩
    have callers := step_callers taken other
    have producers := step_producers before taken other
    obtain ⟨own,standing,accepted⟩ := valid
    exact ⟨by rwa [callers],by simpa only [callers,producers] using standing,
      by simpa only [callers,producers] using accepted⟩

end InferenceServer.Server
