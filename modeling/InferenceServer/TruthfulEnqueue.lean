import InferenceServer.SchedulerCalls

/-! What `Enqueue` reports and what it did, over any number of rounds of `Start` and `Stop`. -/
namespace InferenceServer

variable {π φ : Type}

def ControlPc.running : ControlPc → Bool
  | .starting _ | .startReturned _ | .draining | .clearing => true
  | .idle | .breaking | .joining _ | .stopReturned _ => false

namespace Scheduler

theorem face_started {sc sc' : Scheduler π φ} (same : sc'.face = sc.face) :
    sc'.running = sc.running ∧ sc'.control = sc.control := by
  simp only [face,Face.mk.injEq] at same
  exact ⟨same.2.2.1,same.2.2.2.1⟩

theorem step_running {sc sc' : Scheduler π φ} {a : SchedulerAction π φ}
    (taken : sc.step a = some sc') (flag : sc.running = sc.control.running) :
    sc'.running = sc'.control.running := by
  cases a with
  | worker w a =>
    obtain ⟨_,_,cases⟩ := workerStep_cases taken
    obtain ⟨running,control⟩ := face_started (worker_face cases)
    rw [running,control,flag]
  | producer c a =>
    obtain ⟨running,control⟩ := face_started (producer_face (producerStep_cases taken))
    rw [running,control,flag]
  | control a =>
    cases controlStep_cases taken with
    | startAgain _ running => exact running
    | stopIdle _ stopped => exact stopped
    | start | clearRunning => rfl
    | stop _ running => exact running
    | spawn pc | started pc | drained pc | breakAll pc | join pc | joined pc =>
      rw [pc] at flag
      exact flag
    | drainWait => exact flag
  | update func =>
    cases taken
    exact flag

theorem reachable_running {maxQueueSize totalRunners : Int} {func : φ} {sc : Scheduler π φ}
    (reach : (machine maxQueueSize totalRunners func).Reachable sc) :
    sc.running = sc.control.running := by
  apply reach.invariant (P := fun sc => sc.running = sc.control.running) rfl
  intro sc a sc' _ flag taken
  exact step_running taken flag

/-- A `Start` has returned `Success` and no `Stop` has been called since: the flag is set, and
neither call is in progress. -/
def Started (sc : Scheduler π φ) : Prop := sc.running = true ∧ sc.control.ready = true

/-- A scheduler becomes started by the end of `Start` and stays so until `Stop` is called. -/
theorem step_started {sc sc' : Scheduler π φ} {a : SchedulerAction π φ}
    (taken : sc.step a = some sc') (flag : sc.running = sc.control.running) :
    sc'.Started ↔ sc.Started ∧ a ≠ .control .stop ∨ sc'.control = .startReturned .success := by
  have after := step_running taken flag
  have returned : sc'.control = .startReturned .success → sc'.Started := by
    intro success
    rw [success] at after
    exact ⟨after,by rw [success]; rfl⟩
  have kept (same : sc'.running = sc.running ∧ sc'.control = sc.control)
      (other : a ≠ .control .stop) :
      sc'.Started ↔ sc.Started ∧ a ≠ .control .stop ∨ sc'.control = .startReturned .success := by
    have started : sc'.Started ↔ sc.Started := by rw [Started,Started,same.1,same.2]
    rw [and_iff_left other,← started]
    exact ⟨.inl,fun either => either.elim id returned⟩
  cases a with
  | worker w a =>
    obtain ⟨_,_,cases⟩ := workerStep_cases taken
    exact kept (face_started (worker_face cases)) (by simp)
  | producer c a => exact kept (face_started (producer_face (producerStep_cases taken))) (by simp)
  | control a =>
    refine ⟨fun started => ?_,fun either => either.elim ?_ returned⟩
    · obtain ⟨running,ready⟩ := started
      cases controlStep_cases taken with
      | startAgain before => exact .inl ⟨⟨running,before⟩,by simp⟩
      | started => exact .inr rfl
      | stopIdle _ stopped => exact absurd (running.symm.trans stopped) (by simp)
      | joined => exact absurd (after.symm.trans running) (by simp [ControlPc.running])
      | start | spawn | stop | drained | clearRunning | breakAll | join => contradiction
      | drainWait pc =>
        rw [pc] at ready
        contradiction
    · rintro ⟨⟨running,ready⟩,other⟩
      cases controlStep_cases taken with
      | startAgain => exact ⟨running,rfl⟩
      | start _ stopped => exact absurd (running.symm.trans stopped) (by simp)
      | stop | stopIdle => exact absurd rfl other
      | spawn pc | started pc | drained pc | clearRunning pc | breakAll pc | join pc | joined pc
      | drainWait pc =>
        rw [pc] at ready
        contradiction
  | update func =>
    cases taken
    exact kept ⟨rfl,rfl⟩ (by simp)

/-- `Started` says what it is meant to, over the run that led to the state. -/
theorem started_iff {maxQueueSize totalRunners : Int} {func : φ}
    {actions : List (SchedulerAction π φ)} {sc : Scheduler π φ}
    (run : (machine maxQueueSize totalRunners func).exec
      (create maxQueueSize totalRunners func) actions = some sc) :
    sc.Started ↔ ∃ before after t, actions = before ++ after ∧
      (machine maxQueueSize totalRunners func).exec
        (create maxQueueSize totalRunners func) before = some t ∧
      t.control = .startReturned .success ∧ .control .stop ∉ after := by
  induction actions using List.reverseRecOn generalizing sc with
  | nil =>
    cases run
    constructor
    · rintro ⟨running,_⟩
      contradiction
    · rintro ⟨before,after,t,split,run,success,_⟩
      obtain ⟨rfl,rfl⟩ := List.append_eq_nil_iff.mp split.symm
      cases run
      contradiction
  | append_singleton actions a ih =>
    obtain ⟨u,earlier,taken⟩ := Transition.Machine.exec_snoc.mp run
    have reach := Transition.Machine.exec_reachable .start actions earlier
    rw [step_started taken (reachable_running reach),ih earlier]
    constructor
    · rintro (⟨⟨before,after,t,rfl,run',success,free⟩,other⟩ | success)
      · refine ⟨before,after ++ [a],t,List.append_assoc .. ,run',success,?_⟩
        simp [free,Ne.symm other]
      · exact ⟨actions ++ [a],[],sc,(List.append_nil _).symm,run,success,List.not_mem_nil⟩
    · rintro ⟨before,after,t,split,run',success,free⟩
      rcases List.eq_nil_or_concat after with rfl | ⟨most,last,rfl⟩
      · rw [List.append_nil] at split
        rw [← split,run] at run'
        cases run'
        exact .inr success
      · rw [List.concat_eq_append,← List.append_assoc] at split
        obtain ⟨rfl,same⟩ := List.append_inj' split rfl
        cases same
        rw [List.concat_eq_append,List.mem_append,List.mem_singleton,not_or] at free
        exact .inl ⟨⟨before,most,t,rfl,run',success,free.1⟩,Ne.symm free.2⟩

/-- `Enqueue` has returned `Success` exactly where it appended the payload. -/
def Truthful (sc : Scheduler π φ) : Prop :=
  ∀ c p status, sc.producers c = .returned p status → (status = .success ↔ .appended c p ∈ sc.log)

/-- No section of `push`, and no `Start` that starts, finds the queue broken. -/
def findsWhole (sc : Scheduler π φ) : SchedulerAction π φ → Bool
  | .producer _ (.push _) => !sc.queue.broken
  | .control .start => sc.running || !sc.queue.broken
  | _ => true

def Delivered (log : List (Event π φ)) (c : Nat) : ProducerPc π → Prop
  | .pushed p | .returned p .success => .appended c p ∈ log
  | .dropped _ => False
  | _ => True

/-- What holds as long as no step finds the queue broken. -/
structure Kept (sc : Scheduler π φ) : Prop where
  delivered : ∀ c, Delivered sc.log c (sc.producers c)
  whole : sc.running = true → sc.queue.broken = false

theorem Delivered.mono {log log' : List (Event π φ)} {c : Nat} {pc : ProducerPc π}
    (delivered : Delivered log c pc) (longer : log ⊆ log') : Delivered log' c pc := by
  unfold Delivered at *
  split <;> simp_all
  all_goals exact longer delivered

theorem setProducer_delivered {sc : Scheduler π φ} {c : Nat} {pc : ProducerPc π}
    (queue : BlockingQueue π Nat Nat) {events : List (Event π φ)}
    (delivered : ∀ d, Delivered sc.log d (sc.producers d))
    (mine : Delivered (sc.log ++ events) c pc) (d : Nat) :
    Delivered ({ sc with queue := queue }.setProducer c pc events).log d
      (({ sc with queue := queue }.setProducer c pc events).producers d) := by
  by_cases same : d = c
  · subst d
    simpa [setProducer] using mine
  · simp only [setProducer,Function.update_of_ne same]
    exact (delivered d).mono (List.subset_append_left _ _)

theorem producer_delivered {sc sc' : Scheduler π φ} {c : Nat} {a : ProducerAction π}
    (taken : ProducerStep sc c a sc') (whole : ∀ wake, a = .push wake → sc.queue.broken = false)
    (delivered : ∀ d, Delivered sc.log d (sc.producers d)) :
    ∀ d, Delivered sc'.log d (sc'.producers d) := by
  cases taken with
  | enter | refuse => exact setProducer_delivered sc.queue delivered trivial
  | append => exact setProducer_delivered _ delivered (by simp [Delivered])
  | drop _ broken => exact absurd ((whole _ rfl).symm.trans broken) (by simp)
  | sleep | wake => exact delivered
  | leave pc =>
    have mine := delivered c
    apply setProducer_delivered sc.queue delivered
    rcases pc with pc | pc
    · rw [pc] at mine
      exact mine.mono (List.subset_append_left _ _)
    · rw [pc] at mine
      exact mine.elim

theorem create_kept (maxQueueSize totalRunners : Int) (func : φ) :
    Kept (create maxQueueSize totalRunners func : Scheduler π φ) :=
  ⟨fun _ => trivial,fun running => absurd running (by simp [create])⟩

/-- The flag and the queue are in step where they are left alone, or where the queue is broken
with the flag cleared. -/
theorem step_whole {sc sc' : Scheduler π φ} {a : SchedulerAction π φ}
    (taken : sc.step a = some sc') (flag : sc.running = sc.control.running)
    (finds : findsWhole sc a = true) (whole : sc.running = true → sc.queue.broken = false) :
    sc'.running = true → sc'.queue.broken = false := by
  intro running
  have after := step_running taken flag
  by_contra broke
  rw [Bool.not_eq_false] at broke
  cases before : sc.queue.broken with
  | false =>
    obtain ⟨rfl,_⟩ := step_breaks taken before broke
    have breaks : ControlStep sc .breakAll sc' := controlStep_cases taken
    cases breaks with
    | breakAll => exact absurd (after.symm.trans running) (by simp [ControlPc.running])
  | true =>
    have stopped : sc.running = false := by
      by_contra other
      rw [whole (by simpa using other)] at before
      contradiction
    have same (kept : sc'.running = sc.running) : False := by
      rw [kept,stopped] at running
      contradiction
    cases a with
    | worker w a =>
      obtain ⟨_,_,cases⟩ := workerStep_cases taken
      exact same (face_started (worker_face cases)).1
    | producer c a => exact same (face_started (producer_face (producerStep_cases taken))).1
    | control a =>
      cases controlStep_cases taken with
      | start => simp [findsWhole,before,stopped] at finds
      | clearRunning => contradiction
      | _ => exact same rfl
    | update func =>
      cases taken
      exact same rfl

theorem step_kept {sc sc' : Scheduler π φ} {a : SchedulerAction π φ}
    (taken : sc.step a = some sc') (flag : sc.running = sc.control.running)
    (finds : findsWhole sc a = true) (kept : Kept sc) : Kept sc' := by
  refine ⟨?_,step_whole taken flag finds kept.whole⟩
  by_cases produces : ∃ c b, a = .producer c b
  · obtain ⟨c,b,rfl⟩ := produces
    apply producer_delivered (producerStep_cases taken) ?_ kept.delivered
    rintro wake rfl
    simpa [findsWhole] using finds
  · have other : ∀ c b, a ≠ .producer c b := fun c b same => produces ⟨c,b,same⟩
    intro c
    rw [step_producers taken other]
    exact (kept.delivered c).mono (step_log taken).subset

/-- `Enqueue` is truthful, and what it enqueues after a `Start` can be popped. -/
structure Reporting (sc : Scheduler π φ) : Prop where
  truthful : Truthful sc
  whole : sc.Started → sc.queue.broken = false

theorem Kept.reporting {maxQueueSize totalRunners : Int} {func : φ} {sc : Scheduler π φ}
    (reach : (machine maxQueueSize totalRunners func).Reachable sc) (kept : Kept sc) :
    Reporting sc := by
  refine ⟨fun c p status returned => ?_,fun started => kept.whole started.1⟩
  have delivered := kept.delivered c
  have answered := (machine_sound reach).answered c
  rw [returned] at delivered answered
  constructor
  · rintro rfl
    exact delivered
  · intro appended
    by_contra failed
    have nothing : sc.log.filter (Event.appendedBy c) = [] := by
      cases status <;> first | exact absurd rfl failed | exact answered
    have member : Event.appended c p ∈ sc.log.filter (Event.appendedBy c) :=
      List.mem_filter.mpr ⟨appended,by simp [Event.appendedBy]⟩
    rw [nothing] at member
    contradiction

theorem push_misreported {maxQueueSize totalRunners : Int} {func : φ} {sc sc' : Scheduler π φ}
    (reach : (machine maxQueueSize totalRunners func).Reachable sc) {c : Nat} {wake : Option Nat}
    (taken : sc.step (.producer c (.push wake)) = some sc') (broken : sc.queue.broken = true) :
    ∃ sc'', sc'.step (.producer c .leave) = some sc'' ∧ ¬Truthful sc'' := by
  have pushes : ProducerStep sc c (.push wake) sc' := producerStep_cases taken
  cases pushes with
  | append _ whole | sleep _ whole => exact absurd (whole.symm.trans broken) (by simp)
  | @drop p _ queue pc =>
    have answered := (machine_sound reach).answered c
    rw [pc] at answered
    have absent : .appended c p ∉ sc.log := by
      intro member
      have found : Event.appended c p ∈ sc.log.filter (Event.appendedBy c) :=
        List.mem_filter.mpr ⟨member,by simp [Event.appendedBy]⟩
      rw [answered] at found
      contradiction
    refine ⟨_,by simp [step,producerStep,setProducer]; rfl,fun truthful => ?_⟩
    have claimed := (truthful c p .success (by simp)).mp rfl
    simp [absent] at claimed

/-- `Start` goes on spawning until it returns, whatever the queue is. -/
theorem spawn_returns (maxQueueSize totalRunners : Int) (func : φ) (sc : Scheduler π φ) {idx : Int}
    (pc : sc.control = .starting idx) (running : sc.running = true) :
    ∃ actions sc', (machine maxQueueSize totalRunners func).exec sc actions = some sc' ∧
      sc'.Started ∧ sc'.queue = sc.queue := by
  generalize left : (sc.totalRunners - idx).toNat = n
  induction n generalizing sc idx with
  | zero =>
    have none : ¬idx < sc.totalRunners := by omega
    refine ⟨[.control .spawn],{ sc with control := .startReturned .success },?_,⟨running,rfl⟩,rfl⟩
    simp [Transition.Machine.exec,machine,step,controlStep,pc,none]
  | succ n ih =>
    have more : idx < sc.totalRunners := by omega
    have taken : sc.step (.control .spawn) = some { sc with
        threads := sc.threads ++ [⟨idx,.looping⟩], control := .starting (idx + 1) } := by
      simp [step,controlStep,pc,more]
    obtain ⟨actions,sc',run,started,queue⟩ := ih { sc with
      threads := sc.threads ++ [⟨idx,.looping⟩], control := .starting (idx + 1) } rfl running
      (by simp only; omega)
    refine ⟨.control .spawn :: actions,sc',?_,started,queue⟩
    exact Option.bind_eq_some_iff.mpr ⟨_,taken,run⟩

/-- On runs in which no push and no start finds the queue broken, `Enqueue` reports what it did
and a started scheduler's queue is whole. A push or a start that finds it broken goes on to a
state where one of the two fails. -/
theorem enqueue_truthful_iff (maxQueueSize totalRunners : Int) (func : φ) :
    (∀ sc : Scheduler π φ, (machine maxQueueSize totalRunners func).ReachableBy
      (fun sc a => findsWhole sc a = true) sc → Reporting sc) ∧
    (∀ (sc : Scheduler π φ) a sc', (machine maxQueueSize totalRunners func).Reachable sc →
      sc.step a = some sc' → findsWhole sc a = false →
      ∃ actions sc'', (machine maxQueueSize totalRunners func).exec sc' actions = some sc'' ∧
        ¬Reporting sc'') := by
  constructor
  · intro sc reach
    have kept : Kept sc := by
      apply reach.invariant (P := Kept) (create_kept maxQueueSize totalRunners func)
      intro sc a sc' earlier kept finds taken
      exact step_kept taken (reachable_running earlier.reachable) finds kept
    exact kept.reporting reach.reachable
  · intro sc a sc' reach taken finds
    unfold findsWhole at finds
    split at finds
    next c wake =>
      have broken : sc.queue.broken = true := by simpa using finds
      obtain ⟨sc'',left,misreported⟩ := push_misreported reach taken broken
      refine ⟨[.producer c .leave],sc'',?_,fun reporting => misreported reporting.truthful⟩
      exact Option.bind_eq_some_iff.mpr ⟨sc'',left,rfl⟩
    next =>
      simp only [Bool.or_eq_false_iff,Bool.not_eq_false'] at finds
      obtain ⟨stopped,broken⟩ := finds
      have starts : ControlStep sc .start sc' := controlStep_cases taken
      cases starts with
      | startAgain _ running => exact absurd (stopped.symm.trans running) (by simp)
      | start =>
        obtain ⟨actions,sc'',run,started,queue⟩ :=
          spawn_returns maxQueueSize totalRunners func
            { sc with running := true, control := .starting 0 } rfl rfl
        refine ⟨actions,sc'',run,fun reporting => ?_⟩
        have whole := reporting.whole started
        rw [queue,broken] at whole
        contradiction
    · contradiction

def queuedThenStopped : List (SchedulerAction Nat Bool) :=
  [.control .start,.control .spawn,.control .spawn,.producer 0 (.enqueue 7),.producer 0 (.push none),
    .producer 0 .leave,.control .stop,.control (.drain 120),.control .clearRunning,
    .control .breakAll]

theorem enqueue_truthful_queued : ∃ sc : Scheduler Nat Bool,
    sc.producers 0 = .returned 7 .success ∧ .appended 0 7 ∈ sc.log := by
  obtain ⟨sc,reach,seen⟩ := Transition.Machine.exec_observed
    (m := (machine 4 1 false).restrict fun sc a => findsWhole sc a = true) queuedThenStopped
    (fun sc : Scheduler Nat Bool => sc.producers 0) (.returned 7 .success) rfl
  have reporting := (enqueue_truthful_iff 4 1 false).1 sc
    (Transition.Machine.restrict_reachable reach)
  exact ⟨sc,seen,(reporting.truthful 0 7 .success seen).mp rfl⟩

/-- A request that has passed the check of `running_` when the scheduler is stopped. -/
def stoppedBeforePush : List (SchedulerAction Nat Bool) :=
  [.control .start,.control .spawn,.control .spawn,.producer 0 (.enqueue 7),.control .stop,
    .control (.drain 0),.control .clearRunning,.control .breakAll,.producer 0 (.push none),
    .producer 0 .leave]

theorem dropped_reported_success : ∃ sc : Scheduler Nat Bool,
    (machine 4 1 false).Reachable sc ∧ ¬Reporting sc := by
  obtain ⟨sc,reach,seen⟩ := Transition.Machine.exec_observed (m := machine 4 1 false)
    stoppedBeforePush (fun sc : Scheduler Nat Bool => (sc.producers 0,sc.log))
    (.returned 7 .success,[.answered 0 .success]) rfl
  obtain ⟨returned,log⟩ := Prod.mk.injEq .. ▸ seen
  refine ⟨sc,reach,fun reporting => ?_⟩
  have appended := (reporting.truthful 0 7 .success returned).mp rfl
  rw [log] at appended
  simp at appended

end Scheduler
end InferenceServer
