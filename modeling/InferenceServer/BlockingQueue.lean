import InferenceServer.CondVar

/-! `BlockingQueue`. Each critical section is one operation; a thread that finds its
predicate false goes to sleep at the end of the section and runs it again once woken.
`κ` names the producers and `ω` the consumers. -/
namespace InferenceServer

structure BlockingQueue (α κ ω : Type) where
  capacity : Nat
  broken : Bool
  buffer : List α
  pushEvent : CondVar ω
  popEvent : CondVar κ

inductive PushResult where
  | appended
  | dropped
  | waiting
  deriving DecidableEq, Repr

/-- `broken` is the return of a default-constructed value. -/
inductive PopResult (α : Type) where
  | item (x : α)
  | broken
  | waiting

namespace BlockingQueue

variable {α κ ω : Type} [DecidableEq κ] [DecidableEq ω]

def create (capacity : Nat) : BlockingQueue α κ ω := ⟨capacity,false,[],.empty,.empty⟩

/-- A producer's section. `wake` is the consumer that `push_event_.notify_one()` picks. -/
def push (q : BlockingQueue α κ ω) (t : κ) (item : α) (wake : Option ω) :
    Option (PushResult × BlockingQueue α κ ω) :=
  if t ∈ q.popEvent.asleep then none
  else if q.broken then some (.dropped,{ q with popEvent := q.popEvent.resume t })
  else if q.buffer.length < q.capacity then
    (q.pushEvent.notifyOne wake).map fun woken =>
      (.appended,{ q with
        buffer := q.buffer ++ [item], popEvent := q.popEvent.resume t, pushEvent := woken })
  else some (.waiting,{ q with popEvent := (q.popEvent.resume t).wait t })

/-- A consumer's section. `wake` is the producer that `pop_event_.notify_one()` picks. -/
def pop (q : BlockingQueue α κ ω) (t : ω) (wake : Option κ) :
    Option (PopResult α × BlockingQueue α κ ω) :=
  if t ∈ q.pushEvent.asleep then none
  else if q.broken then some (.broken,{ q with pushEvent := q.pushEvent.resume t })
  else match q.buffer with
    | item :: rest =>
      (q.popEvent.notifyOne wake).map fun woken =>
        (.item item,{ q with
          buffer := rest, pushEvent := q.pushEvent.resume t, popEvent := woken })
    | [] => some (.waiting,{ q with pushEvent := (q.pushEvent.resume t).wait t })

def breakAll (q : BlockingQueue α κ ω) : BlockingQueue α κ ω :=
  { q with broken := true, pushEvent := q.pushEvent.notifyAll, popEvent := q.popEvent.notifyAll }

def size (q : BlockingQueue α κ ω) : Nat := q.buffer.length

/-- A producer or a consumer leaves its wait without having been notified. -/
def wakeProducer (q : BlockingQueue α κ ω) (t : κ) : BlockingQueue α κ ω :=
  { q with popEvent := q.popEvent.spurious t }

def wakeConsumer (q : BlockingQueue α κ ω) (t : ω) : BlockingQueue α κ ω :=
  { q with pushEvent := q.pushEvent.spurious t }

inductive PushStep (q : BlockingQueue α κ ω) (t : κ) (item : α) (wake : Option ω) :
    PushResult → BlockingQueue α κ ω → Prop where
  | drop (broken : q.broken = true) :
      PushStep q t item wake .dropped { q with popEvent := q.popEvent.resume t }
  | append {woken : CondVar ω} (whole : q.broken = false) (space : q.buffer.length < q.capacity)
      (notified : q.pushEvent.notifyOne wake = some woken) :
      PushStep q t item wake .appended { q with
        buffer := q.buffer ++ [item], popEvent := q.popEvent.resume t, pushEvent := woken }
  | sleep (whole : q.broken = false) (full : q.capacity ≤ q.buffer.length) :
      PushStep q t item wake .waiting { q with popEvent := (q.popEvent.resume t).wait t }

theorem push_step {q q' : BlockingQueue α κ ω} {t : κ} {item : α} {wake : Option ω}
    {result : PushResult} (taken : q.push t item wake = some (result,q')) :
    t ∉ q.popEvent.asleep ∧ PushStep q t item wake result q' := by
  unfold push at taken
  split at taken
  · contradiction
  next awake =>
  split at taken
  next broken =>
    cases taken
    exact ⟨awake,.drop broken⟩
  next whole =>
  have unbroken : q.broken = false := by simpa using whole
  split at taken
  next space =>
    obtain ⟨woken,notified,result⟩ := Option.map_eq_some_iff.mp taken
    cases result
    exact ⟨awake,.append unbroken space notified⟩
  next full =>
    cases taken
    exact ⟨awake,.sleep unbroken (Nat.le_of_not_lt full)⟩

inductive PopStep (q : BlockingQueue α κ ω) (t : ω) (wake : Option κ) :
    PopResult α → BlockingQueue α κ ω → Prop where
  | broken (broken : q.broken = true) :
      PopStep q t wake .broken { q with pushEvent := q.pushEvent.resume t }
  | take {x : α} {rest : List α} {woken : CondVar κ} (whole : q.broken = false)
      (held : q.buffer = x :: rest) (notified : q.popEvent.notifyOne wake = some woken) :
      PopStep q t wake (.item x) { q with
        buffer := rest, pushEvent := q.pushEvent.resume t, popEvent := woken }
  | sleep (whole : q.broken = false) (nothing : q.buffer = []) :
      PopStep q t wake .waiting { q with pushEvent := (q.pushEvent.resume t).wait t }

theorem pop_step {q q' : BlockingQueue α κ ω} {t : ω} {wake : Option κ} {result : PopResult α}
    (taken : q.pop t wake = some (result,q')) :
    t ∉ q.pushEvent.asleep ∧ PopStep q t wake result q' := by
  unfold pop at taken
  split at taken
  · contradiction
  next awake =>
  split at taken
  next broken =>
    cases taken
    exact ⟨awake,.broken broken⟩
  next whole =>
  have unbroken : q.broken = false := by simpa using whole
  split at taken
  next x rest held =>
    obtain ⟨woken,notified,result⟩ := Option.map_eq_some_iff.mp taken
    cases result
    exact ⟨awake,.take unbroken held notified⟩
  next nothing =>
    cases taken
    exact ⟨awake,.sleep unbroken nothing⟩

/-- Everything a producer's section can do to the buffer. -/
theorem push_cases {q q' : BlockingQueue α κ ω} {t : κ} {item : α} {wake : Option ω}
    {result : PushResult} (taken : q.push t item wake = some (result,q')) :
    q'.capacity = q.capacity ∧ q'.broken = q.broken ∧
    ((result = .dropped ∧ q.broken = true ∧ q'.buffer = q.buffer) ∨
      (result = .appended ∧ q.broken = false ∧ q.buffer.length < q.capacity ∧
        q'.buffer = q.buffer ++ [item]) ∨
      (result = .waiting ∧ q.broken = false ∧ q.capacity ≤ q.buffer.length ∧
        q'.buffer = q.buffer)) := by
  cases (push_step taken).2 with
  | drop broken => exact ⟨rfl,rfl,.inl ⟨rfl,broken,rfl⟩⟩
  | append whole space _ => exact ⟨rfl,rfl,.inr (.inl ⟨rfl,whole,space,rfl⟩)⟩
  | sleep whole full => exact ⟨rfl,rfl,.inr (.inr ⟨rfl,whole,full,rfl⟩)⟩

/-- Everything a consumer's section can do to the buffer. -/
theorem pop_cases {q q' : BlockingQueue α κ ω} {t : ω} {wake : Option κ}
    {result : PopResult α} (taken : q.pop t wake = some (result,q')) :
    q'.capacity = q.capacity ∧ q'.broken = q.broken ∧
    ((result = .broken ∧ q.broken = true ∧ q'.buffer = q.buffer) ∨
      (∃ x, result = .item x ∧ q.broken = false ∧ q.buffer = x :: q'.buffer) ∨
      (result = .waiting ∧ q.broken = false ∧ q.buffer = [] ∧ q'.buffer = [])) := by
  cases (pop_step taken).2 with
  | broken broken => exact ⟨rfl,rfl,.inl ⟨rfl,broken,rfl⟩⟩
  | take whole held _ => exact ⟨rfl,rfl,.inr (.inl ⟨_,rfl,whole,held⟩)⟩
  | sleep whole nothing => exact ⟨rfl,rfl,.inr (.inr ⟨rfl,whole,nothing,nothing⟩)⟩

/-- A producer's section is run awake, and only a producer that waits goes to sleep. -/
theorem push_asleep {q q' : BlockingQueue α κ ω} {t : κ} {item : α} {wake : Option ω}
    {result : PushResult} (taken : q.push t item wake = some (result,q')) :
    t ∉ q.popEvent.asleep ∧ q'.popEvent.asleep =
      if result = .waiting then t :: q.popEvent.asleep else q.popEvent.asleep := by
  obtain ⟨awake,ends⟩ := push_step taken
  refine ⟨awake,?_⟩
  cases ends <;> rfl

/-- A consumer that takes an item wakes a producer, if one sleeps; no other section of a
consumer wakes any. -/
theorem pop_asleep {q q' : BlockingQueue α κ ω} {t : ω} {wake : Option κ}
    {result : PopResult α} (taken : q.pop t wake = some (result,q')) :
    (∃ x, result = .item x ∧ (q.popEvent.asleep = [] ∧ q'.popEvent.asleep = [] ∨
      ∃ c ∈ q.popEvent.asleep, q'.popEvent.asleep = q.popEvent.asleep.erase c)) ∨
    (∀ x, result ≠ .item x) ∧ q'.popEvent.asleep = q.popEvent.asleep := by
  cases (pop_step taken).2 with
  | broken | sleep => exact .inr ⟨by simp,rfl⟩
  | take _ _ notified => exact .inl ⟨_,rfl,CondVar.notifyOne_asleep notified⟩

theorem push_enabled (q : BlockingQueue α κ ω) {t : κ} (item : α) (awake : t ∉ q.popEvent.asleep) :
    ∃ wake outcome, q.push t item wake = some outcome := by
  cases sleepers : q.pushEvent.asleep with
  | nil =>
    refine ⟨none,?_⟩
    unfold push
    rw [if_neg awake]
    split
    · exact ⟨_,rfl⟩
    · split <;> simp [CondVar.notifyOne,sleepers]
  | cons w rest =>
    refine ⟨some w,?_⟩
    unfold push
    rw [if_neg awake]
    split
    · exact ⟨_,rfl⟩
    · split <;> simp [CondVar.notifyOne,sleepers]

theorem pop_enabled (q : BlockingQueue α κ ω) {t : ω} (awake : t ∉ q.pushEvent.asleep) :
    ∃ wake outcome, q.pop t wake = some outcome := by
  cases sleepers : q.popEvent.asleep with
  | nil =>
    refine ⟨none,?_⟩
    unfold pop
    rw [if_neg awake]
    split
    · exact ⟨_,rfl⟩
    · split <;> simp [CondVar.notifyOne,sleepers]
  | cons c rest =>
    refine ⟨some c,?_⟩
    unfold pop
    rw [if_neg awake]
    split
    · exact ⟨_,rfl⟩
    · split <;> simp [CondVar.notifyOne,sleepers]

end BlockingQueue
end InferenceServer
