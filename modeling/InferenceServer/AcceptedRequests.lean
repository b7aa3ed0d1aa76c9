import InferenceServer.ServedModels

/-! What `Success` from `InferAsync` means: the payload was appended, once, to the queue of
the scheduler that served its model. -/
namespace InferenceServer

namespace Scheduler

theorem appended_count (log : List (Event Payload Nat)) (p : Payload)
    (own : ∀ c q, .appended c q ∈ log → q.id = c) :
    (log.filterMap Event.appended?).count p =
      ((log.filter (Event.appendedBy p.id)).filterMap Event.appended?).count p := by
  induction log with
  | nil => rfl
  | cons e rest ih =>
    have tail := ih fun c q member => own c q (List.mem_cons_of_mem e member)
    cases e with
    | appended c q =>
      have named : q.id = c := own c q (List.mem_cons_self ..)
      by_cases mine : p.id = c
      · simp [Event.appended?,Event.appendedBy,mine,tail,List.count_cons]
      · have other : q ≠ p := fun same => mine (same ▸ named)
        simp [Event.appended?,Event.appendedBy,mine,tail,other]
    | _ => simpa [Event.appended?,Event.appendedBy,List.filterMap_cons] using tail

theorem appended_place {sc : Scheduler π φ} (answered : Answered sc) {c : Nat} {p : π}
    (member : .appended c p ∈ sc.log) :
    sc.producers c = .pushed p ∨ sc.producers c = .returned p .success := by
  have there : .appended c p ∈ sc.log.filter (Event.appendedBy c) :=
    List.mem_filter.mpr ⟨member,by simp [Event.appendedBy]⟩
  have nothing (empty : sc.log.filter (Event.appendedBy c) = []) : False := by
    rw [empty] at there
    contradiction
  have accounted := answered c
  unfold Accounted at accounted
  split at accounted
  · exact (nothing accounted).elim
  · exact (nothing accounted).elim
  next q place =>
    rw [accounted] at there
    have same : p = q := by simpa using there
    exact .inl (same ▸ place)
  · exact (nothing accounted.1).elim
  next q place =>
    rcases accounted with own | ⟨empty,_⟩
    · rw [own] at there
      have same : p = q := by simpa using there
      exact .inr (same ▸ place)
    · exact (nothing empty).elim
  · exact (nothing accounted).elim

end Scheduler

namespace Server

open Store

variable {config : ServerConfig} {sv : Server}

/-- The scheduler of an entry is running and its queue is whole. -/
theorem entry_serving (reach : (machine config).Reachable sv) {name : String}
    {context : ModelRunContext} (present : sv.modelMap.lookup name = some context) :
    (sv.schedulers context.scheduler).control = .startReturned .success ∧
    (sv.schedulers context.scheduler).running = true ∧
    (sv.schedulers context.scheduler).queue.broken = false := by
  obtain ⟨_,⟨control,running⟩,_⟩ := (reachable_valid reach).sane.entry name context present
  have started : (sv.schedulers context.scheduler).control = .startReturned .success := control
  have phase := (reachable_staffed reach context.scheduler).phase
  rw [Scheduler.Phase,started] at phase
  exact ⟨started,running,phase.2.2.1⟩

theorem enqueuing_serving (reach : (machine config).Reachable sv) {c k : Nat} {p : Payload}
    (inside : sv.callers c = .enqueuing p k) :
    (sv.schedulers k).running = true ∧ (sv.schedulers k).queue.broken = false := by
  obtain ⟨context,present,rfl⟩ := reachable_placed reach c p k inside
  exact (entry_serving reach present).2

/-- Through `InferAsync`, `Enqueue` finds the scheduler running and drops nothing. -/
def Honest (sc : Scheduler Payload Nat) : Prop :=
  ∀ c, match sc.producers c with
    | .dropped _ => False
    | .returned p status => status = .success ∧ sc.log.filter (Event.appendedBy c) = [.appended c p]
    | _ => True

theorem producer_honest {sc sc' : Scheduler Payload Nat} {c : Nat} {a : ProducerAction Payload}
    {func : Nat} (taken : sc.producerStep c a = some sc') (sound : Scheduler.Sound func sc)
    (running : sc.running = true) (whole : sc.queue.broken = false) (valid : Honest sc) :
    Honest sc' := by
  have others (queue : BlockingQueue Payload Nat Nat) {pc : ProducerPc Payload}
      {events : List (Event Payload Nat)} (mine : match pc with
        | .dropped _ => False
        | .returned p status => status = .success ∧
          sc.log.filter (Event.appendedBy c) ++ events.filter (Event.appendedBy c) = [.appended c p]
        | _ => True) (foreign : ∀ d ≠ c, ∀ e ∈ events, e.appendedBy d = false) :
      Honest ({ sc with queue := queue }.setProducer c pc events) := by
    intro d
    by_cases same : d = c
    · subst d
      simp only [Scheduler.setProducer,Function.update_self,List.filter_append]
      exact mine
    · have nothing : events.filter (Event.appendedBy d) = [] := by
        apply List.filter_eq_nil_iff.mpr
        intro e member
        simp [foreign d same e member]
      simp only [Scheduler.setProducer,Function.update_of_ne same,List.filter_append,nothing,
        List.append_nil]
      exact valid d
  cases Scheduler.producerStep_cases taken with
  | enter => exact others sc.queue trivial (by simp)
  | refuse _ halted => rw [running] at halted; contradiction
  | append => exact others _ trivial (by simp [Event.appendedBy])
  | drop _ broken => rw [whole] at broken; contradiction
  | sleep | wake => exact valid
  | leave pc =>
    rcases pc with pc | pc
    · have before := sound.answered c
      rw [pc] at before
      have own : sc.log.filter (Event.appendedBy c) = [.appended c _] := before
      refine others sc.queue ⟨rfl,?_⟩ (by simp [Event.appendedBy])
      simpa [Event.appendedBy] using own
    · have before := valid c
      rw [pc] at before
      exact before.elim

theorem step_honest {sc sc' : Scheduler Payload Nat} {a : SchedulerAction Payload Nat}
    (taken : sc.step a = some sc') (other : ∀ c b, a ≠ .producer c b) (valid : Honest sc) :
    Honest sc' := by
  have producers := Scheduler.step_producers taken other
  have same (c : Nat) : sc'.log.filter (Event.appendedBy c) = sc.log.filter (Event.appendedBy c) := by
    cases a with
    | worker w a =>
      obtain ⟨_,_,cases⟩ := Scheduler.workerStep_cases taken
      cases cases <;> simp [Scheduler.setWorker,Event.appendedBy]
    | producer d b => exact absurd rfl (other d b)
    | control a => cases Scheduler.controlStep_cases taken <;> rfl
    | update func =>
      cases taken
      simp [Scheduler.updateBackendInferFunc,Event.appendedBy]
  intro c
  rw [producers,same]
  exact valid c

theorem reachable_honest (reach : (machine config).Reachable sv) (k : Nat) :
    Honest (sv.schedulers k) := by
  refine reach.invariant (P := fun sv => Honest (sv.schedulers k)) (fun _ => trivial) ?_
  intro sv a sv' before valid taken
  cases reachable_moves before taken k with
  | still same => rwa [same]
  | created _ _ same => rw [same]; exact fun _ => trivial
  | @moved b _ origin _ stepped =>
    cases b with
    | producer c b =>
      obtain ⟨_,p,_,inside⟩ := origin
      obtain ⟨running,whole⟩ := enqueuing_serving before inside
      obtain ⟨func,sound⟩ := reachable_sound before k
      exact producer_honest stepped sound running whole valid
    | worker | control | update => exact step_honest stepped (by simp) valid

/-- A payload in a queue's history was appended by the caller it names. -/
theorem appended_own (reach : (machine config).Reachable sv) {k c : Nat} {p : Payload}
    (member : .appended c p ∈ (sv.schedulers k).log) : p.id = c := by
  obtain ⟨func,sound⟩ := reachable_sound reach k
  have calls := reachable_calls reach
  have standing := calls.standing k c
  rcases Scheduler.appended_place sound.answered member with place | place
  · rw [place] at standing
    exact calls.own c p (by rw [show _ = _ from standing]; rfl)
  · rw [place] at standing
    rcases standing with there | there
    · exact calls.own c p (by rw [there]; rfl)
    · exact calls.own c p (by rw [there]; rfl)

def Accepted (sv : Server) (k : Nat) (p : Payload) : Prop :=
  (sv.schedulers k).producers p.id = .returned p .success

/-- Every request that `InferAsync` answers with `Success` was accepted by one scheduler. -/
theorem success_accepted (reach : (machine config).Reachable sv) {c : Nat} {p : Payload}
    (success : sv.callers c = .returned p .success) : p.id = c ∧ ∃ k, Accepted sv k p := by
  have calls := reachable_calls reach
  obtain ⟨k,returned⟩ := calls.accepted c p success
  have own : p.id = c := calls.own c p (by rw [success]; rfl)
  exact ⟨own,k,by rw [Accepted,own,returned]⟩

theorem accepted_appended_once (reach : (machine config).Reachable sv) {k : Nat} {p : Payload}
    (accepted : Accepted sv k p) : (sv.schedulers k).appended.count p = 1 := by
  have honest := reachable_honest reach k p.id
  rw [show (sv.schedulers k).producers p.id = _ from accepted] at honest
  rw [Scheduler.appended,Multiset.coe_count,
    Scheduler.appended_count _ p fun c q => appended_own reach,honest.2]
  simp [Event.appended?]

end Server
end InferenceServer
