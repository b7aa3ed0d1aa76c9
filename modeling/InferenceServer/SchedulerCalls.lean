import InferenceServer.SchedulerLifecycle

/-! Which payloads of a scheduler wait for a call, and how its history grows. -/
namespace InferenceServer

variable {π φ : Type}

def WorkerPc.waiting? : WorkerPc π φ → Option π
  | .holding p | .copied p _ => some p
  | _ => none

theorem WorkerPc.waiting_payload {pc : WorkerPc π φ} {p : π} (waits : pc.waiting? = some p) :
    pc.payload? = some p := by
  cases pc <;> first | exact waits | contradiction

namespace Scheduler

/-- In the queue, or with a worker that has not called yet. -/
def Awaiting (sc : Scheduler π φ) (p : π) : Prop :=
  p ∈ sc.queue.buffer ∨
  ∃ (w : Nat) (t : Worker π φ), sc.threads[w]? = some t ∧ t.pc.waiting? = some p

theorem step_awaiting {sc sc' : Scheduler π φ} {a : SchedulerAction π φ} {p : π}
    (taken : sc.step a = some sc') (waits : sc'.Awaiting p) :
    sc.Awaiting p ∨ ∃ c wake, a = .producer c (.push wake) ∧ sc.producers c = .pushing p := by
  have ofThread {v : Nat} {u : Worker π φ} {pc : WorkerPc π φ} {w : Nat} {t : Worker π φ}
      (atV : sc.threads[v]? = some u) (mine : pc.waiting? = some p → sc.Awaiting p)
      (atIndex : (sc.threads.set v { u with pc := pc })[w]? = some t)
      (held : t.pc.waiting? = some p) : sc.Awaiting p := by
    have bound := (List.getElem?_eq_some_iff.mp atV).1
    by_cases same : w = v
    · subst v
      rw [List.getElem?_set_self bound] at atIndex
      obtain rfl := Option.some.inj atIndex
      exact mine held
    · rw [List.getElem?_set_ne (Ne.symm same)] at atIndex
      exact .inr ⟨w,t,atIndex,held⟩
  cases a with
  | worker v a =>
    obtain ⟨u,atV,cases⟩ := workerStep_cases taken
    left
    rcases waits with queued | ⟨w,t,atIndex,held⟩
    · cases cases with
      | test | wake | copy | call | ret | complete => exact .inl queued
      | take _ front _ now => exact .inl (by rw [front]; exact List.mem_cons_of_mem _ (now ▸ queued))
      | takeBroken _ _ now => exact .inl (now ▸ queued)
      | sleep _ _ now => rw [now] at queued; contradiction
    · cases cases with
      | sleep | wake => exact .inr ⟨w,t,atIndex,held⟩
      | test =>
        refine ofThread atV (fun mine => ?_) atIndex held
        split at mine <;> contradiction
      | take _ front =>
        refine ofThread atV (fun mine => ?_) atIndex held
        cases mine
        exact .inl (by simp [front])
      | copy pc => exact ofThread atV (fun mine => .inr ⟨v,u,atV,by rw [pc]; exact mine⟩) atIndex held
      | takeBroken | call | ret | complete =>
        exact ofThread atV (fun mine => by contradiction) atIndex held
  | producer c a =>
    rcases waits with queued | ⟨w,t,atIndex,held⟩
    · cases producerStep_cases taken with
      | enter | refuse | wake | leave => exact .inl (.inl queued)
      | append pc _ _ now =>
        simp only [setProducer,now,List.mem_append,List.mem_singleton] at queued
        rcases queued with old | rfl
        · exact .inl (.inl old)
        · exact .inr ⟨c,_,rfl,pc⟩
      | drop _ _ now | sleep _ _ _ now => exact .inl (.inl (now ▸ queued))
    · rw [producer_threads (producerStep_cases taken)] at atIndex
      exact .inl (.inr ⟨w,t,atIndex,held⟩)
  | control a =>
    left
    cases controlStep_cases taken with
    | spawn =>
      rcases waits with queued | ⟨w,t,atIndex,held⟩
      · exact .inl queued
      · simp only [List.getElem?_append] at atIndex
        split at atIndex
        · exact .inr ⟨w,t,atIndex,held⟩
        · obtain ⟨_,same⟩ := List.getElem?_eq_some_iff.mp atIndex
          simp only [List.getElem_singleton] at same
          subst t
          contradiction
    | _ => exact waits
  | update func => cases taken; exact .inl waits

/-- A call in the history was made before, or it is made now by a worker that held its
payload, of the function installed. -/
theorem step_invoked {sc sc' : Scheduler π φ} {a : SchedulerAction π φ} {w : Nat} {idx : Int}
    {f : φ} {batch : List π} (taken : sc.step a = some sc')
    (member : .invoked w idx f batch ∈ sc'.log) :
    .invoked w idx f batch ∈ sc.log ∨ f = sc.inferFunc ∧
      ∃ p t, batch = [p] ∧ sc.threads[w]? = some t ∧ t.pc.waiting? = some p := by
  cases a with
  | worker v a =>
    obtain ⟨u,atV,cases⟩ := workerStep_cases taken
    cases cases with
    | call pc =>
      rcases List.mem_append.mp member with old | new
      · exact .inl old
      · simp only [List.mem_singleton,Event.invoked.injEq] at new
        obtain ⟨rfl,_,rfl,rfl⟩ := new
        exact .inr ⟨rfl,_,u,rfl,atV,by rw [pc]; rfl⟩
    | _ => exact .inl (by simpa [setWorker] using member)
  | producer c a => cases producerStep_cases taken <;> exact .inl (by simpa [setProducer] using member)
  | control a => cases controlStep_cases taken <;> exact .inl member
  | update func =>
    cases taken
    exact .inl (by simpa [updateBackendInferFunc] using member)

theorem step_appended {sc sc' : Scheduler π φ} {a : SchedulerAction π φ} {c : Nat} {p : π}
    (taken : sc.step a = some sc') (member : .appended c p ∈ sc'.log) :
    .appended c p ∈ sc.log ∨ sc'.producers c = .pushed p := by
  cases a with
  | worker w a =>
    obtain ⟨_,_,cases⟩ := workerStep_cases taken
    cases cases <;> exact .inl (by simpa [setWorker] using member)
  | producer d a =>
    cases producerStep_cases taken with
    | append =>
      rcases List.mem_append.mp member with old | new
      · exact .inl old
      · simp only [List.mem_singleton,Event.appended.injEq] at new
        obtain ⟨rfl,rfl⟩ := new
        exact .inr (by simp [setProducer])
    | _ => exact .inl (by simpa [setProducer] using member)
  | control a => cases controlStep_cases taken <;> exact .inl member
  | update func =>
    cases taken
    exact .inl (by simpa [updateBackendInferFunc] using member)

theorem step_log {sc sc' : Scheduler π φ} {a : SchedulerAction π φ} (taken : sc.step a = some sc') :
    sc.log <+: sc'.log := by
  cases a with
  | worker w a =>
    obtain ⟨_,_,cases⟩ := workerStep_cases taken
    cases cases <;> simp [setWorker]
  | producer c a => cases producerStep_cases taken <;> simp [setProducer]
  | control a => cases controlStep_cases taken <;> exact List.prefix_refl _
  | update func => cases taken; exact List.prefix_append _ _

/-- Before a completion its worker called a function on the payload. -/
theorem completed_invoked {sc : Scheduler π φ} (rounded : Rounded sc) {w : Nat} {p : π}
    {status : Status} {message : String} (member : .completed w p status message ∈ sc.log) :
    ∃ idx f, .invoked w idx f [p] ∈ sc.log ∧ .returned w f status ∈ sc.log := by
  have mine : .completed w p status message ∈ sc.history w :=
    List.mem_filter.mpr ⟨member,by simp [Event.worker?]⟩
  obtain ⟨⟨idx,pc⟩,atIndex⟩ : ∃ t, sc.threads[w]? = some t := by
    cases there : sc.threads[w]? with
    | none =>
      rw [rounded.unspawned w (List.getElem?_eq_none_iff.mp there)] at mine
      contradiction
    | some t => exact ⟨t,rfl⟩
  obtain ⟨rounds,begun,whole,place⟩ := rounded.spawned w _ atIndex
  rw [whole] at mine
  have inRound : .completed w p status message ∈ rounds.flatMap (Round.events w idx) := by
    rcases List.mem_append.mp mine with inside | unfinished
    · exact inside
    · cases place <;> simp at unfinished
  obtain ⟨r,isRound,here⟩ := List.mem_flatMap.mp inRound
  have logged (e : Event π φ) (there : e ∈ r.events w idx) : e ∈ sc.log := by
    have inHistory : e ∈ sc.history w := by
      rw [whole]
      exact List.mem_append_left _ (List.mem_flatMap.mpr ⟨r,isRound,there⟩)
    exact (List.mem_filter.mp inHistory).1
  simp only [Round.events,List.mem_cons,reduceCtorEq,false_or,Event.completed.injEq,
    List.not_mem_nil,or_false,true_and] at here
  obtain ⟨rfl,rfl,_⟩ := here
  exact ⟨idx,r.func,logged _ (by simp [Round.events]),logged _ (by simp [Round.events])⟩

end Scheduler

end InferenceServer
