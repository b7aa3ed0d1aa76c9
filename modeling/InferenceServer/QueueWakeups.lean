import InferenceServer.BlockingQueue

/-! Sleepers and pending notifications of the two condition variables: while a consumer sleeps
there is a notified one for each item, and while a producer sleeps one for each free slot. -/
namespace InferenceServer
namespace BlockingQueue

variable {α κ ω : Type}

def freeSlots (q : BlockingQueue α κ ω) : Nat := q.capacity - q.buffer.length

structure Attended (q : BlockingQueue α κ ω) : Prop where
  consumers : q.pushEvent.Covered q.buffer.length
  producers : q.popEvent.Covered q.freeSlots
  broken : q.broken = true → q.pushEvent.asleep = [] ∧ q.popEvent.asleep = []

theorem create_attended (capacity : Nat) : (create capacity : BlockingQueue α κ ω).Attended :=
  ⟨CondVar.covered_empty _,CondVar.covered_empty _,fun broken => absurd broken Bool.false_ne_true⟩

theorem breakAll_attended {q : BlockingQueue α κ ω} (attended : q.Attended) :
    q.breakAll.Attended :=
  ⟨attended.consumers.notifyAll _,attended.producers.notifyAll _,fun _ => ⟨rfl,rfl⟩⟩

section Consumers

variable [DecidableEq ω]

theorem wakeConsumer_attended {q : BlockingQueue α κ ω} (t : ω) (attended : q.Attended) :
    (q.wakeConsumer t).Attended := by
  refine ⟨attended.consumers.spurious t,attended.producers,fun broken => ?_⟩
  obtain ⟨consumers,producers⟩ := attended.broken broken
  exact ⟨by simp [wakeConsumer,CondVar.spurious,consumers],producers⟩

end Consumers

section Producers

variable [DecidableEq κ]

theorem wakeProducer_attended {q : BlockingQueue α κ ω} (t : κ) (attended : q.Attended) :
    (q.wakeProducer t).Attended := by
  refine ⟨attended.consumers,attended.producers.spurious t,fun broken => ?_⟩
  obtain ⟨consumers,producers⟩ := attended.broken broken
  exact ⟨consumers,by simp [wakeProducer,CondVar.spurious,producers]⟩

end Producers

variable [DecidableEq κ] [DecidableEq ω]

section Push

variable {q q' : BlockingQueue α κ ω} {t : κ} {item : α} {wake : Option ω} {result : PushResult}

theorem push_consumers_perm (taken : q.push t item wake = some (result,q')) :
    q'.pushEvent.waiters.Perm q.pushEvent.waiters := by
  cases (push_step taken).2 with
  | append _ _ notified => exact CondVar.notifyOne_waiters notified
  | drop | sleep => exact .refl _

/-- The item that a producer appends comes with a notification. -/
theorem push_consumers (taken : q.push t item wake = some (result,q'))
    (covered : q.pushEvent.Covered q.buffer.length) : q'.pushEvent.Covered q'.buffer.length := by
  cases (push_step taken).2 with
  | append _ _ notified => simpa using covered.notifyOne notified
  | drop | sleep => exact covered

theorem push_producers (taken : q.push t item wake = some (result,q')) (attended : q.Attended) :
    q'.popEvent.Covered q'.freeSlots := by
  obtain ⟨awake,ends⟩ := push_step taken
  cases ends with
  | drop broken =>
    exact (attended.producers.resume t).of_awake _ (attended.broken broken).2
  | append _ space _ =>
    apply (attended.producers.resume t).mono
    simp only [freeSlots,List.length_append,List.length_singleton]
    omega
  | sleep _ full =>
    have none : q.capacity - q.buffer.length = 0 := Nat.sub_eq_zero_of_le full
    simpa only [freeSlots,none] using attended.producers.sleep awake

theorem push_attended (taken : q.push t item wake = some (result,q')) (attended : q.Attended) :
    q'.Attended := by
  refine ⟨push_consumers taken attended.consumers,push_producers taken attended,?_⟩
  cases (push_step taken).2 with
  | drop => exact attended.broken
  | append whole | sleep whole => exact fun broken => absurd (broken.symm.trans whole) (by simp)

/-- After its section a producer waits exactly if it found no room. -/
theorem push_waiters_of (taken : q.push t item wake = some (result,q'))
    {n : Nat} (covered : q.popEvent.Covered n) {u : κ} (waits : u ∈ q'.popEvent.waiters) :
    u = t ∧ result = .waiting ∨ u ≠ t ∧ u ∈ q.popEvent.waiters := by
  obtain ⟨awake,ends⟩ := push_step taken
  cases ends with
  | drop | append => exact .inr (covered.resume_waiters awake waits)
  | sleep =>
    rcases List.mem_cons.mp waits with rfl | waits
    · exact .inl ⟨rfl,rfl⟩
    · exact .inr (covered.resume_waiters awake waits)

end Push

section Pop

variable {q q' : BlockingQueue α κ ω} {t : ω} {wake : Option κ} {result : PopResult α}

theorem pop_producers_perm (taken : q.pop t wake = some (result,q')) :
    q'.popEvent.waiters.Perm q.popEvent.waiters := by
  cases (pop_step taken).2 with
  | take _ _ notified => exact CondVar.notifyOne_waiters notified
  | broken | sleep => exact .refl _

/-- The slot that a consumer frees comes with a notification. -/
theorem pop_producers (taken : q.pop t wake = some (result,q'))
    (covered : q.popEvent.Covered q.freeSlots) : q'.popEvent.Covered q'.freeSlots := by
  cases (pop_step taken).2 with
  | take _ held notified =>
    apply (covered.notifyOne notified).mono
    simp only [freeSlots,held,List.length_cons]
    omega
  | broken | sleep => exact covered

theorem pop_consumers (taken : q.pop t wake = some (result,q'))
    (covered : q.pushEvent.Covered q.buffer.length)
    (broken : q.broken = true → q.pushEvent.asleep = []) :
    q'.pushEvent.Covered q'.buffer.length := by
  obtain ⟨awake,ends⟩ := pop_step taken
  cases ends with
  | broken broke => exact (covered.resume t).of_awake _ (broken broke)
  | take _ held _ =>
    apply (covered.resume t).mono
    simp [held]
  | sleep _ nothing => simpa only [nothing,List.length_nil] using covered.sleep awake

theorem pop_attended (taken : q.pop t wake = some (result,q')) (attended : q.Attended) :
    q'.Attended := by
  refine ⟨pop_consumers taken attended.consumers fun broken => (attended.broken broken).1,
    pop_producers taken attended.producers,?_⟩
  cases (pop_step taken).2 with
  | broken => exact attended.broken
  | take whole | sleep whole => exact fun broken => absurd (broken.symm.trans whole) (by simp)

/-- After its section a consumer waits exactly if it found nothing. -/
theorem pop_waiters_of (taken : q.pop t wake = some (result,q'))
    {n : Nat} (covered : q.pushEvent.Covered n) {u : ω} (waits : u ∈ q'.pushEvent.waiters) :
    u = t ∧ result = .waiting ∨ u ≠ t ∧ u ∈ q.pushEvent.waiters := by
  obtain ⟨awake,ends⟩ := pop_step taken
  cases ends with
  | broken | take => exact .inr (covered.resume_waiters awake waits)
  | sleep =>
    rcases List.mem_cons.mp waits with rfl | waits
    · exact .inl ⟨rfl,rfl⟩
    · exact .inr (covered.resume_waiters awake waits)

end Pop

end BlockingQueue
end InferenceServer
