import InferenceServer.History
import InferenceServer.QueueWakeups
import InferenceServer.Transition

/-! Threads that call `push`, `pop` and `breakAll` on one `BlockingQueue`, in any order of
their critical sections. -/
namespace InferenceServer

/-- What the sections did, in their order: `taken` is a `pop` that found the queue unbroken,
`defaulted` one that returns a default value. -/
inductive QueueEvent (α κ ω : Type) where
  | appended (t : κ) (item : α)
  | dropped (t : κ) (item : α)
  | taken (t : ω) (item : α)
  | defaulted (t : ω)
  | broke

structure QueueThreads (α κ ω : Type) where
  queue : BlockingQueue α κ ω
  /-- The item of a thread inside `push`. -/
  pushing : κ → Option α
  /-- Whether a thread is inside `pop`. -/
  popping : ω → Bool
  log : List (QueueEvent α κ ω)

inductive QueueAction (α κ ω : Type) where
  | callPush (t : κ) (item : α)
  | push (t : κ) (wake : Option ω)
  | wakeProducer (t : κ)
  | callPop (t : ω)
  | pop (t : ω) (wake : Option κ)
  | wakeConsumer (t : ω)
  | breakAll

namespace QueueEvent

variable {α κ ω : Type}

def appended? : QueueEvent α κ ω → Option α
  | .appended _ item => some item
  | _ => none

def taken? : QueueEvent α κ ω → Option α
  | .taken _ item => some item
  | _ => none

/-- Items move before the queue is broken; what is dropped or defaulted is so after it. -/
def Timely (before : List (QueueEvent α κ ω)) : QueueEvent α κ ω → Prop
  | .appended _ _ | .taken _ _ => .broke ∉ before
  | .dropped _ _ | .defaulted _ => .broke ∈ before
  | .broke => True

end QueueEvent

namespace QueueThreads

open BlockingQueue

variable {α κ ω : Type} [DecidableEq κ] [DecidableEq ω]

def create (capacity : Nat) : QueueThreads α κ ω :=
  ⟨.create capacity,fun _ => none,fun _ => false,[]⟩

/-- A thread inside `push` ran its section; if it has to wait it stays inside. -/
def pushed (s : QueueThreads α κ ω) (t : κ) (item : α) :
    PushResult × BlockingQueue α κ ω → QueueThreads α κ ω
  | (.appended,queue) => { s with
      queue := queue, pushing := Function.update s.pushing t none, log := s.log ++ [.appended t item] }
  | (.dropped,queue) => { s with
      queue := queue, pushing := Function.update s.pushing t none, log := s.log ++ [.dropped t item] }
  | (.waiting,queue) => { s with queue := queue }

def popped (s : QueueThreads α κ ω) (t : ω) :
    PopResult α × BlockingQueue α κ ω → QueueThreads α κ ω
  | (.item item,queue) => { s with
      queue := queue, popping := Function.update s.popping t false, log := s.log ++ [.taken t item] }
  | (.broken,queue) => { s with
      queue := queue, popping := Function.update s.popping t false, log := s.log ++ [.defaulted t] }
  | (.waiting,queue) => { s with queue := queue }

def step (s : QueueThreads α κ ω) : QueueAction α κ ω → Option (QueueThreads α κ ω)
  | .callPush t item =>
    match s.pushing t with
    | none => some { s with pushing := Function.update s.pushing t (some item) }
    | some _ => none
  | .push t wake =>
    match s.pushing t with
    | some item => (s.queue.push t item wake).map (s.pushed t item)
    | none => none
  | .wakeProducer t =>
    if t ∈ s.queue.popEvent.asleep then some { s with queue := s.queue.wakeProducer t } else none
  | .callPop t =>
    if s.popping t then none else some { s with popping := Function.update s.popping t true }
  | .pop t wake => if s.popping t then (s.queue.pop t wake).map (s.popped t) else none
  | .wakeConsumer t =>
    if t ∈ s.queue.pushEvent.asleep then some { s with queue := s.queue.wakeConsumer t } else none
  | .breakAll => some { s with queue := s.queue.breakAll, log := s.log ++ [.broke] }

def machine (capacity : Nat) : Transition.Machine (QueueThreads α κ ω) (QueueAction α κ ω) :=
  ⟨create capacity,step⟩

inductive Step (s : QueueThreads α κ ω) : QueueAction α κ ω → QueueThreads α κ ω → Prop where
  | callPush {t : κ} {item : α} (idle : s.pushing t = none) :
      Step s (.callPush t item) { s with pushing := Function.update s.pushing t (some item) }
  | push {t : κ} {wake : Option ω} {item : α} {result : PushResult} {queue : BlockingQueue α κ ω}
      (inside : s.pushing t = some item) (ran : s.queue.push t item wake = some (result,queue)) :
      Step s (.push t wake) (s.pushed t item (result,queue))
  | wakeProducer {t : κ} (sleeps : t ∈ s.queue.popEvent.asleep) :
      Step s (.wakeProducer t) { s with queue := s.queue.wakeProducer t }
  | callPop {t : ω} (idle : s.popping t = false) :
      Step s (.callPop t) { s with popping := Function.update s.popping t true }
  | pop {t : ω} {wake : Option κ} {result : PopResult α} {queue : BlockingQueue α κ ω}
      (inside : s.popping t = true) (ran : s.queue.pop t wake = some (result,queue)) :
      Step s (.pop t wake) (s.popped t (result,queue))
  | wakeConsumer {t : ω} (sleeps : t ∈ s.queue.pushEvent.asleep) :
      Step s (.wakeConsumer t) { s with queue := s.queue.wakeConsumer t }
  | breakAll : Step s .breakAll { s with queue := s.queue.breakAll, log := s.log ++ [.broke] }

theorem step_cases {s s' : QueueThreads α κ ω} {a : QueueAction α κ ω}
    (taken : s.step a = some s') : Step s a s' := by
  cases a <;> simp only [step] at taken
  case callPush t item =>
    split at taken <;> cases taken
    next idle => exact .callPush idle
  case push t wake =>
    split at taken
    next item inside =>
      obtain ⟨⟨result,queue⟩,ran,rfl⟩ := Option.map_eq_some_iff.mp taken
      exact .push inside ran
    · contradiction
  case wakeProducer t =>
    split at taken <;> cases taken
    next sleeps => exact .wakeProducer sleeps
  case callPop t =>
    split at taken <;> cases taken
    next outside => exact .callPop (by simpa using outside)
  case pop t wake =>
    split at taken
    next inside =>
      obtain ⟨⟨result,queue⟩,ran,rfl⟩ := Option.map_eq_some_iff.mp taken
      exact .pop inside ran
    · contradiction
  case wakeConsumer t =>
    split at taken <;> cases taken
    next sleeps => exact .wakeConsumer sleeps
  case breakAll =>
    cases taken
    exact .breakAll

def appendedItems (s : QueueThreads α κ ω) : List α := s.log.filterMap QueueEvent.appended?

def takenItems (s : QueueThreads α κ ω) : List α := s.log.filterMap QueueEvent.taken?

section Order

omit [DecidableEq κ] [DecidableEq ω]

structure Ordered (capacity : Nat) (s : QueueThreads α κ ω) : Prop where
  kept : s.queue.capacity = capacity
  bounded : s.queue.buffer.length ≤ capacity
  fifo : s.appendedItems = s.takenItems ++ s.queue.buffer
  broken : s.queue.broken = true ↔ .broke ∈ s.log
  timely : History.Every QueueEvent.Timely s.log

theorem create_ordered (capacity : Nat) :
    (create capacity : QueueThreads α κ ω).Ordered capacity where
  kept := rfl
  bounded := Nat.zero_le _
  fifo := rfl
  broken := by simp [create,BlockingQueue.create]
  timely := History.every_nil _

theorem Ordered.of_same {capacity : Nat} {s s' : QueueThreads α κ ω} (ordered : s.Ordered capacity)
    (full : s'.queue.capacity = s.queue.capacity) (broken : s'.queue.broken = s.queue.broken)
    (buffer : s'.queue.buffer = s.queue.buffer) (log : s'.log = s.log) : s'.Ordered capacity where
  kept := full.trans ordered.kept
  bounded := buffer ▸ ordered.bounded
  fifo := by simpa only [appendedItems,takenItems,log,buffer] using ordered.fifo
  broken := by rw [broken,log]; exact ordered.broken
  timely := log ▸ ordered.timely

theorem Ordered.noted {capacity : Nat} {s s' : QueueThreads α κ ω} (ordered : s.Ordered capacity)
    (e : QueueEvent α κ ω) (unmoved : e.appended? = none ∧ e.taken? = none)
    (timely : e.Timely s.log) (full : s'.queue.capacity = s.queue.capacity)
    (buffer : s'.queue.buffer = s.queue.buffer) (log : s'.log = s.log ++ [e])
    (broken : s'.queue.broken = true ↔ .broke ∈ s.log ++ [e]) : s'.Ordered capacity where
  kept := full.trans ordered.kept
  bounded := buffer ▸ ordered.bounded
  fifo := by
    have fifo := ordered.fifo
    simp only [appendedItems,takenItems] at fifo
    simp [appendedItems,takenItems,log,buffer,unmoved,fifo]
  broken := log ▸ broken
  timely := log ▸ History.every_append_singleton.mpr ⟨ordered.timely,timely⟩

theorem Ordered.unbroken {capacity : Nat} {s : QueueThreads α κ ω} (ordered : s.Ordered capacity)
    (whole : s.queue.broken = false) : .broke ∉ s.log := by
  intro broke
  rw [ordered.broken.mpr broke] at whole
  contradiction

end Order

theorem pushed_ordered {capacity : Nat} {s : QueueThreads α κ ω} {t : κ} {item : α}
    {wake : Option ω} {result : PushResult} {queue : BlockingQueue α κ ω}
    (ran : s.queue.push t item wake = some (result,queue)) (ordered : s.Ordered capacity) :
    (s.pushed t item (result,queue)).Ordered capacity := by
  cases (push_step ran).2 with
  | sleep => exact ordered.of_same rfl rfl rfl rfl
  | drop broken =>
    refine ordered.noted (.dropped t item) ⟨rfl,rfl⟩ (ordered.broken.mp broken) rfl rfl rfl ?_
    simpa [pushed] using ordered.broken
  | append whole space _ =>
    have unbroken := ordered.unbroken whole
    refine ⟨ordered.kept,?_,?_,?_,?_⟩
    · have room := ordered.kept ▸ space
      simpa [pushed] using Nat.succ_le_of_lt room
    · have fifo := ordered.fifo
      simp only [appendedItems,takenItems] at fifo
      simp [pushed,appendedItems,takenItems,QueueEvent.appended?,QueueEvent.taken?,
        List.filterMap_append,fifo]
    · simpa [pushed] using ordered.broken
    · exact History.every_append_singleton.mpr ⟨ordered.timely,unbroken⟩

theorem popped_ordered {capacity : Nat} {s : QueueThreads α κ ω} {t : ω} {wake : Option κ}
    {result : PopResult α} {queue : BlockingQueue α κ ω}
    (ran : s.queue.pop t wake = some (result,queue)) (ordered : s.Ordered capacity) :
    (s.popped t (result,queue)).Ordered capacity := by
  cases (pop_step ran).2 with
  | sleep => exact ordered.of_same rfl rfl rfl rfl
  | broken broken =>
    refine ordered.noted (.defaulted t) ⟨rfl,rfl⟩ (ordered.broken.mp broken) rfl rfl rfl ?_
    simpa [popped] using ordered.broken
  | take whole held _ =>
    have unbroken := ordered.unbroken whole
    have bounded := ordered.bounded
    rw [held,List.length_cons] at bounded
    refine ⟨ordered.kept,Nat.le_of_succ_le bounded,?_,?_,?_⟩
    · have fifo := ordered.fifo
      simp only [appendedItems,takenItems,held] at fifo
      simp [popped,appendedItems,takenItems,QueueEvent.appended?,QueueEvent.taken?,
        List.filterMap_append,fifo]
    · simpa [popped] using ordered.broken
    · exact History.every_append_singleton.mpr ⟨ordered.timely,unbroken⟩

theorem step_ordered {capacity : Nat} {s s' : QueueThreads α κ ω} {a : QueueAction α κ ω}
    (taken : s.step a = some s') (ordered : s.Ordered capacity) : s'.Ordered capacity := by
  cases step_cases taken with
  | push _ ran => exact pushed_ordered ran ordered
  | pop _ ran => exact popped_ordered ran ordered
  | callPush | callPop | wakeProducer | wakeConsumer => exact ordered.of_same rfl rfl rfl rfl
  | breakAll =>
    refine ordered.noted .broke ⟨rfl,rfl⟩ trivial rfl rfl rfl ?_
    simp [breakAll]

theorem machine_ordered {capacity : Nat} {s : QueueThreads α κ ω}
    (reach : (machine capacity).Reachable s) : s.Ordered capacity :=
  reach.invariant (P := fun s => s.Ordered capacity) (create_ordered capacity)
    fun _ _ _ _ ordered taken => step_ordered taken ordered

/-- A broken queue keeps what it holds. -/
theorem step_broken {s s' : QueueThreads α κ ω} {a : QueueAction α κ ω}
    (taken : s.step a = some s') (broken : s.queue.broken = true) :
    s'.queue.broken = true ∧ s'.queue.buffer = s.queue.buffer := by
  cases step_cases taken with
  | push _ ran =>
    cases (push_step ran).2 with
    | drop => exact ⟨broken,rfl⟩
    | append whole | sleep whole => exact absurd (broken.symm.trans whole) (by simp)
  | pop _ ran =>
    cases (pop_step ran).2 with
    | broken => exact ⟨broken,rfl⟩
    | take whole | sleep whole => exact absurd (broken.symm.trans whole) (by simp)
  | callPush | callPop | wakeProducer | wakeConsumer => exact ⟨broken,rfl⟩
  | breakAll => exact ⟨rfl,rfl⟩

/-- The queue is a bounded FIFO for any threads and any order of their sections: what was
appended is what was taken followed by the buffer, and a default value is returned only by a
queue that was broken before. From there on it stays as it is. -/
theorem bounded_fifo {capacity : Nat} {s : QueueThreads α κ ω}
    (reach : (machine capacity).Reachable s) :
    s.queue.buffer.length ≤ capacity ∧
    s.appendedItems = s.takenItems ++ s.queue.buffer ∧
    (∀ before t item, before ++ [.taken t item] <+: s.log → .broke ∉ before) ∧
    (∀ before t, before ++ [.defaulted t] <+: s.log → .broke ∈ before) ∧
    (s.queue.broken = true ↔ .broke ∈ s.log) ∧
    (s.queue.broken = true → ∀ actions s', (machine capacity).exec s actions = some s' →
      s'.queue.broken = true ∧ s'.queue.buffer = s.queue.buffer) := by
  have ordered := machine_ordered reach
  refine ⟨ordered.bounded,ordered.fifo,?_,?_,ordered.broken,?_⟩
  · intro before t item isPrefix
    exact ordered.timely before (.taken t item) isPrefix
  · intro before t isPrefix
    exact ordered.timely before (.defaulted t) isPrefix
  · intro broken actions s' run
    apply Transition.Machine.exec_preserves (m := machine capacity)
      (P := fun u => u.queue.broken = true ∧ u.queue.buffer = s.queue.buffer) ?_ ⟨broken,rfl⟩
      actions run
    intro u a u' held taken
    obtain ⟨still,same⟩ := step_broken taken held.1
    exact ⟨still,same.trans held.2⟩

/-- Two producers and a consumer on a queue with one slot, which is broken when one producer
sleeps and an item is left. -/
def brokenWhileFull : List (QueueAction Nat Nat Nat) :=
  [.callPop 0,.pop 0 none,.callPush 0 10,.push 0 (some 0),.pop 0 none,.callPush 0 11,.push 0 none,
    .callPush 1 12,.push 1 none,.wakeProducer 1,.push 1 none,.breakAll,.push 1 none,
    .callPop 0,.pop 0 none]

theorem bounded_fifo_broken : ∃ s : QueueThreads Nat Nat Nat,
    s.appendedItems = [10,11] ∧ s.takenItems = [10] ∧ s.queue.buffer = [11] ∧
    s.appendedItems = s.takenItems ++ s.queue.buffer ∧ .broke ∈ s.log := by
  obtain ⟨s,reach,seen⟩ := Transition.Machine.exec_observed (m := machine 1) brokenWhileFull
    (fun s : QueueThreads Nat Nat Nat =>
      (s.appendedItems,s.takenItems,s.queue.buffer,s.queue.broken))
    ([10,11],[10],[11],true) rfl
  simp only [Prod.mk.injEq] at seen
  obtain ⟨appended,taken,buffer,broken⟩ := seen
  have facts := bounded_fifo reach
  exact ⟨s,appended,taken,buffer,facts.2.1,facts.2.2.2.2.1.mp broken⟩

structure Attended (s : QueueThreads α κ ω) : Prop where
  queue : s.queue.Attended
  pushing : ∀ t ∈ s.queue.popEvent.waiters, ∃ item, s.pushing t = some item
  popping : ∀ t ∈ s.queue.pushEvent.waiters, s.popping t = true

omit [DecidableEq κ] [DecidableEq ω] in
theorem create_attended (capacity : Nat) : (create capacity : QueueThreads α κ ω).Attended := by
  refine ⟨BlockingQueue.create_attended capacity,?_,?_⟩ <;>
    simp [create,BlockingQueue.create,CondVar.empty,CondVar.waiters]

theorem pushed_attended {s : QueueThreads α κ ω} {t : κ} {item : α} {wake : Option ω}
    {result : PushResult} {queue : BlockingQueue α κ ω} (inside : s.pushing t = some item)
    (ran : s.queue.push t item wake = some (result,queue)) (attended : s.Attended) :
    (s.pushed t item (result,queue)).Attended := by
  have within := push_attended ran attended.queue
  have popping (u : ω) (waits : u ∈ queue.pushEvent.waiters) : s.popping u = true :=
    attended.popping u ((push_consumers_perm ran).mem_iff.mp waits)
  have pushing (u : κ) (waits : u ∈ queue.popEvent.waiters) :=
    push_waiters_of ran attended.queue.producers waits
  cases result with
  | waiting =>
    refine ⟨within,fun u waits => ?_,popping⟩
    rcases pushing u waits with ⟨rfl,_⟩ | ⟨_,waited⟩
    · exact ⟨item,inside⟩
    · exact attended.pushing u waited
  | appended | dropped =>
    refine ⟨within,fun u waits => ?_,popping⟩
    rcases pushing u waits with ⟨_,waiting⟩ | ⟨other,waited⟩
    · contradiction
    · obtain ⟨held,is⟩ := attended.pushing u waited
      exact ⟨held,(Function.update_of_ne other _ _).trans is⟩

theorem popped_attended {s : QueueThreads α κ ω} {t : ω} {wake : Option κ} {result : PopResult α}
    {queue : BlockingQueue α κ ω} (inside : s.popping t = true)
    (ran : s.queue.pop t wake = some (result,queue)) (attended : s.Attended) :
    (s.popped t (result,queue)).Attended := by
  have within := pop_attended ran attended.queue
  have pushing (u : κ) (waits : u ∈ queue.popEvent.waiters) : ∃ item, s.pushing u = some item :=
    attended.pushing u ((pop_producers_perm ran).mem_iff.mp waits)
  have popping (u : ω) (waits : u ∈ queue.pushEvent.waiters) :=
    pop_waiters_of ran attended.queue.consumers waits
  cases result with
  | waiting =>
    refine ⟨within,pushing,fun u waits => ?_⟩
    rcases popping u waits with ⟨rfl,_⟩ | ⟨_,waited⟩
    · exact inside
    · exact attended.popping u waited
  | item | broken =>
    refine ⟨within,pushing,fun u waits => ?_⟩
    rcases popping u waits with ⟨_,waiting⟩ | ⟨other,waited⟩
    · contradiction
    · exact (Function.update_of_ne other _ _).trans (attended.popping u waited)

theorem step_attended {s s' : QueueThreads α κ ω} {a : QueueAction α κ ω}
    (taken : s.step a = some s') (attended : s.Attended) : s'.Attended := by
  cases step_cases taken with
  | push inside ran => exact pushed_attended inside ran attended
  | pop inside ran => exact popped_attended inside ran attended
  | callPush idle =>
    refine ⟨attended.queue,fun u waits => ?_,attended.popping⟩
    obtain ⟨held,is⟩ := attended.pushing u waits
    have other : u ≠ _ := fun same => absurd (idle.symm.trans (same ▸ is)) (by simp)
    exact ⟨held,(Function.update_of_ne other _ _).trans is⟩
  | callPop idle =>
    refine ⟨attended.queue,attended.pushing,fun u waits => ?_⟩
    have inside := attended.popping u waits
    have other : u ≠ _ := fun same => absurd (idle.symm.trans (same ▸ inside)) (by simp)
    exact (Function.update_of_ne other _ _).trans inside
  | wakeProducer =>
    refine ⟨wakeProducer_attended _ attended.queue,fun u waits => ?_,attended.popping⟩
    exact attended.pushing u (CondVar.spurious_waiters waits)
  | wakeConsumer =>
    refine ⟨wakeConsumer_attended _ attended.queue,attended.pushing,fun u waits => ?_⟩
    exact attended.popping u (CondVar.spurious_waiters waits)
  | breakAll =>
    exact ⟨breakAll_attended attended.queue,attended.pushing,attended.popping⟩

theorem machine_attended {capacity : Nat} {s : QueueThreads α κ ω}
    (reach : (machine capacity).Reachable s) : s.Attended :=
  reach.invariant (P := fun s => s.Attended) (create_attended capacity)
    fun _ _ _ _ attended taken => step_attended taken attended

/-- No wake-up is lost. A thread waits on a condition variable once and inside its call; while
one sleeps in an unbroken queue there is a pending notification for each item, or each free
slot, and in a broken queue nobody sleeps. -/
theorem no_lost_wakeup {capacity : Nat} {s : QueueThreads α κ ω}
    (reach : (machine capacity).Reachable s) :
    (s.queue.pushEvent.waiters.Nodup ∧ ∀ t ∈ s.queue.pushEvent.waiters, s.popping t = true) ∧
    (s.queue.popEvent.waiters.Nodup ∧
      ∀ t ∈ s.queue.popEvent.waiters, ∃ item, s.pushing t = some item) ∧
    (s.queue.broken = false → ∀ t ∈ s.queue.pushEvent.asleep,
      s.queue.buffer.length ≤ s.queue.pushEvent.notified.length) ∧
    (s.queue.broken = false → ∀ t ∈ s.queue.popEvent.asleep,
      capacity - s.queue.buffer.length ≤ s.queue.popEvent.notified.length) ∧
    (s.queue.broken = true → s.queue.pushEvent.asleep = [] ∧ s.queue.popEvent.asleep = []) := by
  have attended := machine_attended reach
  obtain ⟨consumers,producers,broken⟩ := attended.queue
  have kept := (machine_ordered reach).kept
  refine ⟨⟨consumers.apart,attended.popping⟩,⟨producers.apart,attended.pushing⟩,?_,?_,broken⟩
  · intro _ t sleeps
    exact consumers.enough (List.ne_nil_of_mem sleeps)
  · intro _ t sleeps
    rw [← kept]
    exact producers.enough (List.ne_nil_of_mem sleeps)

def overtaken : List (QueueAction Nat Nat Nat) :=
  [.callPop 0,.pop 0 none,.callPop 1,.pop 1 none,.callPush 0 10,.push 0 (some 0),
    .callPop 2,.pop 2 none,.pop 0 none,.callPush 0 11,.push 0 (some 1)]

theorem no_lost_wakeup_overtaken : ∃ s : QueueThreads Nat Nat Nat,
    s.queue.broken = false ∧ s.queue.buffer = [11] ∧ s.queue.pushEvent.asleep = [0] ∧
    s.queue.buffer.length ≤ s.queue.pushEvent.notified.length := by
  obtain ⟨s,reach,seen⟩ := Transition.Machine.exec_observed (m := machine 2) overtaken
    (fun s : QueueThreads Nat Nat Nat =>
      (s.queue.broken,s.queue.buffer,s.queue.pushEvent.asleep)) (false,[11],[0]) rfl
  simp only [Prod.mk.injEq] at seen
  obtain ⟨whole,buffer,asleep⟩ := seen
  exact ⟨s,whole,buffer,asleep,(no_lost_wakeup reach).2.2.1 whole 0 (by simp [asleep])⟩

end QueueThreads
end InferenceServer
