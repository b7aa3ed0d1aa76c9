import InferenceServer.SchedulerHands
import InferenceServer.Simulation
import InferenceServer.System

/-! What each of the two parts does to a call: which steps of the handler leave its state alone,
which steps of the server leave its payload alone. -/
namespace InferenceServer

def PayloadPlace.early : PayloadPlace → Bool
  | .absent | .constructed => true
  | _ => false

namespace Handler

variable {h h' : Handler} {s : Nat}

def SameState (h h' : Handler) (s : Nat) : Prop :=
  (h'.states s).place = (h.states s).place ∧ (h'.states s).response = (h.states s).response ∧
  (h'.states s).sent = (h.states s).sent

theorem sameState_update {t : Nat} {state : HandlerState}
    (states : h'.states = Function.update h.states t state)
    (same : s = t → state.place = (h.states t).place ∧ state.response = (h.states t).response ∧
      state.sent = (h.states t).sent) : SameState h h' s := by
  by_cases here : s = t
  · subst t
    rw [SameState,states,Function.update_self]
    exact same rfl
  · rw [SameState,states,Function.update_of_ne here]
    exact ⟨rfl,rfl,rfl⟩

theorem Sane.failing_early (sane : h.Sane) {pc : EventPc} (at' : h.thread = pc)
    (fails : (∃ status, pc = .failing s status) ∨ pc = .finishing s)
    (answered : (h.states s).place = .issued → (h.states s).sent ≠ []) :
    (h.states s).place.early = true := by
  have settled : (h.facet s).place.settled ∧ (h.facet s).sent = 0 := by
    rcases fails with ⟨status,rfl⟩ | rfl
    all_goals
      have held := sane.held s (at' ▸ rfl)
      rw [at'] at held
      exact ⟨held.1,by rw [held.2]⟩
  obtain ⟨settled,unsent⟩ := settled
  have nothing : (h.states s).sent = [] := List.length_eq_zero_iff.mp unsent
  have place : (h.facet s).place = (h.states s).place := rfl
  rw [place] at settled
  cases at'' : (h.states s).place with
  | absent | constructed => rfl
  | issued => exact absurd nothing (answered at'')
  | _ => rw [at''] at settled; contradiction

theorem event_states {a : EventAction} (sane : h.Sane) (taken : h.eventStep a = some h')
    (outside : ∀ outcome, a ≠ .inferAsync outcome)
    (answered : (h.states s).place = .issued → (h.states s).sent ≠ []) :
    (h.states s).place.early = true ∧ (h'.states s).place.early = true ∨ SameState h h' s := by
  have same (states : h'.states = h.states) : SameState h h' s := by
    rw [SameState,states]
    exact ⟨rfl,rfl,rfl⟩
  have new (free : h.thread.tag? ≠ some h.next)
      (states : h'.states = h.startNewRequest.states) :
      (h.states s).place.early = true ∧ (h'.states s).place.early = true ∨ SameState h h' s := by
    by_cases here : s = h.next
    · refine .inl ⟨?_,?_⟩
      · rw [here,show (h.states h.next).place = .absent from congrArg Facet.place (sane.new free)]
        rfl
      · rw [states,here]
        simp [startNewRequest,setState,HandlerState.reset,PayloadPlace.early]
    · exact .inr (sameState_update states fun at' => absurd at' here)
  unfold eventStep at taken
  split at taken
  case h_1 at' =>
    cases taken
    exact new (by simp [at',EventPc.tag?]) rfl
  case h_2 =>
    obtain ⟨g,delivered,rfl⟩ := Option.map_eq_some_iff.mp taken
    refine .inr (same ?_)
    unfold deliver at delivered
    split at delivered <;> (split at delivered <;> cases delivered; rfl)
  case h_3 | h_4 | h_6 => split at taken <;> cases taken <;> exact .inr (same rfl)
  case h_5 | h_9 | h_16 =>
    cases taken
    exact .inr (sameState_update rfl fun _ => ⟨rfl,rfl,rfl⟩)
  case h_7 =>
    split at taken <;> cases taken
    · exact .inr (sameState_update rfl fun _ => ⟨rfl,rfl,rfl⟩)
    · exact .inr (same rfl)
  case h_8 at' =>
    cases taken
    exact new (sane.registering_free at') rfl
  case h_10 t throws at' =>
    split at taken <;> cases taken
    · exact .inr (same rfl)
    · by_cases here : s = t
      · subst t
        refine .inl ⟨?_,by simp [place,setState,PayloadPlace.early]⟩
        rw [(sane.constructing at').1]
        rfl
      · exact .inr (sameState_update rfl fun at' => absurd at' here)
  case h_11 | h_12 | h_13 => exact absurd rfl (outside _)
  case h_14 => cases taken; exact .inr (same rfl)
  case h_15 t status at' =>
    cases taken
    by_cases here : s = t
    · subst t
      have early := sane.failing_early at' (.inl ⟨status,rfl⟩) answered
      exact .inl ⟨early,by simpa [failResponse,setState] using early⟩
    · exact .inr (sameState_update rfl fun at' => absurd at' here)
  case h_17 t at' =>
    cases taken
    by_cases here : s = t
    · subst t
      have early := sane.failing_early at' (.inr rfl) answered
      exact .inl ⟨early,by simpa [finish,setState] using early⟩
    · exact .inr (sameState_update rfl fun at' => absurd at' here)
  case h_18 => contradiction

theorem inferAsync_states {outcome : InferOutcome}
    (taken : h.eventStep (.inferAsync outcome) = some h') :
    ∃ s, h.thread = .inferring s ∧ match outcome with
      | .queued => h'.states = (h.place s .queued).states
      | .dropped => h'.states = (h.place s .dropped).states
      | .failed _ => h'.states = h.states := by
  cases at' : h.thread with
  | inferring s =>
    cases outcome with
    | queued | dropped =>
      simp only [eventStep,at'] at taken
      cases taken
      exact ⟨s,rfl,rfl⟩
    | failed status =>
      simp only [eventStep,at'] at taken
      split at taken <;> cases taken
      exact ⟨s,rfl,rfl⟩
  | _ => simp [eventStep,at'] at taken

/-- Until its callback begins, a payload finds the response of its call empty. -/
theorem held_clear (reach : machine.Reachable h) (held : (h.states s).place = .held) :
    (h.states s).response = .clear := by
  have sane := reachable_sane reach
  obtain ⟨actions,run⟩ := reach.run
  obtain ⟨far,unsent⟩ := sane.unsettled (s := s) (by rw [held]; simp [PayloadPlace.settled])
  exact ((exec_told run s).unended far (by rw [held]; rfl) unsent).1

end Handler

namespace Server

variable {config : ServerConfig} {sv sv' : Server}

structure Still (sv sv' : Server) : Prop where
  schedulers : ∀ k, (sv.schedulers k).Still (sv'.schedulers k)
  destroyed : ∀ k, sv.destroyed k = true → sv'.destroyed k = true

theorem still_set {j : Nat} {sc : Scheduler Payload Nat}
    (set : sv'.schedulers = Function.update sv.schedulers j sc)
    (same : sv'.destroyed = sv.destroyed) (still : (sv.schedulers j).Still sc) : Still sv sv' := by
  refine ⟨fun k => ?_,fun k => by rw [same]; exact id⟩
  rw [set]
  by_cases here : k = j
  · subst k
    rwa [Function.update_self]
  · rw [Function.update_of_ne here]
    exact .refl _

theorem step_destroyed {a : ServerAction} (taken : sv.step a = some sv') {k : Nat}
    (gone : sv.destroyed k = true) : sv'.destroyed k = true := by
  by_cases tears : ∃ t x, sv.tearing? a = some (t,x)
  · obtain ⟨t,x,destroys⟩ := tears
    obtain ⟨sv₁,left,step,_,_,same⟩ := step_tearing taken destroys
    rw [same]
    cases step with
    | release | stop | wind => exact gone
    | destroy =>
      by_cases here : k = t.context.scheduler
      · simp [here]
      · simpa [Function.update_of_ne here] using gone
  cases a with
  | caller | status | health | worker =>
    obtain ⟨_,_,_,_,_,_,rfl⟩ := outside_frame taken rfl
    exact gone
  | updater a => cases updaterStep_cases taken <;> exact gone
  | main a =>
    cases mainStep_cases taken with
    | tearing here | torn here => exact absurd ⟨_,_,by simp only [tearing?,here]; rfl⟩ tears
    | _ => exact gone
  | cycle a =>
    cases cycleStep_cases taken with
    | rejecting here | rejected here | tearing here | torn here =>
      exact absurd ⟨_,_,by simp only [tearing?,here]; rfl⟩ tears
    | _ => exact gone

theorem other_still {a : ServerAction} (reach : (machine config).Reachable sv)
    (taken : sv.step a = some sv') (noCall : ∀ c b, a ≠ .caller c b)
    (noWork : ∀ k w b, a ≠ .worker k w b) : Still sv sv' := by
  refine ⟨fun k => ?_,fun k => step_destroyed taken⟩
  cases reachable_moves reach taken k with
  | still same => rw [same]; exact .refl _
  | created here _ same =>
    rw [same,reachable_unborn reach k (Nat.le_of_eq here.symm)]
    exact Scheduler.create_still _ _ _ _ _ _
  | @moved b _ origin _ stepped =>
    cases b with
    | worker w b => exact absurd origin (noWork k w b)
    | producer c b =>
      obtain ⟨b,_,same,_⟩ := origin
      exact absurd same (noCall c b)
    | control b => exact Scheduler.control_still stepped
    | update f =>
      rw [← Option.some.inj stepped]
      exact Scheduler.update_still _ f

/-- What a step of `InferAsync` does to the payloads: nothing, or it appends its own to the queue
it found. -/
theorem caller_hands {c : Nat} {a : CallerAction} (reach : (machine config).Reachable sv)
    (taken : sv.callerStep c a = some sv') :
    Still sv sv' ∧ sv'.outcome c a ≠ some .queued ∨
    sv'.outcome c a = some .queued ∧ ∃ k p sc, p.id = c ∧
      sv'.schedulers = Function.update sv.schedulers k sc ∧ sv'.destroyed = sv.destroyed ∧
      sc.queue.buffer = (sv.schedulers k).queue.buffer ++ [p] ∧
      sc.threads = (sv.schedulers k).threads ∧
      sc.log = (sv.schedulers k).log ++ [.appended c p] := by
  have quiet {b : Payload → ProducerAction Payload} (other : ∀ p wake, b p ≠ .push wake)
      (taken : sv.enqueueStep c b = some sv') : Still sv sv' := by
    unfold enqueueStep at taken
    split at taken
    next p k inside =>
      obtain ⟨sc,stepped,rfl⟩ := Option.map_eq_some_iff.mp taken
      exact still_set rfl rfl (Scheduler.producer_still stepped fun wake same =>
        absurd same (other p wake))
    · contradiction
  cases a with
  | push wake =>
    have taken' : sv.callerStep c (.push wake) = some sv' := taken
    simp only [callerStep,enqueueStep] at taken
    split at taken
    next q k inside =>
      obtain ⟨sc,stepped,rfl⟩ := Option.map_eq_some_iff.mp taken
      by_cases pushed : ∃ p, sc.producers c = .pushed p
      · obtain ⟨p,pushed⟩ := pushed
        obtain ⟨longer,threads,log⟩ := Scheduler.append_hands stepped pushed
        have calls := reachable_calls (.step (a := .caller c (.push wake)) reach taken')
        have own : p.id = c := by
          have standing := calls.standing k c
          simp only [setScheduler,Function.update_self,pushed,Standing] at standing
          exact calls.own c p (by rw [setScheduler,standing]; rfl)
        refine .inr ⟨?_,k,p,sc,own,rfl,rfl,longer,threads,log⟩
        simp [outcome,setScheduler,inside,pushed]
      · refine .inl ⟨still_set rfl rfl (Scheduler.producer_still stepped ?_),?_⟩
        · rintro _ _ p there
          exact pushed ⟨p,there⟩
        · simp only [outcome,setScheduler,inside,Function.update_self]
          split
          next p there => exact absurd ⟨p,there⟩ pushed
          · simp
          · simp
    · contradiction
  | enqueue => exact .inl ⟨quiet (by simp) taken,by simp [outcome]⟩
  | wake | leave => exact .inl ⟨quiet (by simp) taken,by simp [outcome]⟩
  | call name version =>
    refine .inl ⟨?_,by simp [outcome]⟩
    simp only [callerStep] at taken
    split at taken <;> cases taken
    exact ⟨fun _ => .refl _,fun _ => id⟩
  | lookup =>
    refine .inl ⟨?_,?_⟩
    · simp only [callerStep] at taken
      split at taken
      · split at taken
        · split at taken <;> (cases taken; exact ⟨fun _ => .refl _,fun _ => id⟩)
        · contradiction
      · contradiction
    · simp only [outcome]
      split
      · split <;> simp
      · simp
  | finish =>
    refine .inl ⟨?_,?_⟩
    · simp only [callerStep] at taken
      split at taken
      · split at taken <;> cases taken
        exact ⟨fun _ => .refl _,fun _ => id⟩
      · contradiction
    · simp only [outcome]
      split
      · split <;> simp
      · simp

theorem worker_set {k w : Nat} {a : WorkerAction} (taken : sv.workerStep k w a = some sv') :
    ∃ sc, (sv.schedulers k).workerStep w a = some sc ∧
      sv'.schedulers = Function.update sv.schedulers k sc ∧ sv'.destroyed = sv.destroyed := by
  cases workerStep_effect taken with
  | quiet stepped | call stepped | ret stepped => exact ⟨_,stepped,rfl,rfl⟩

theorem payloadAt_iff {k w : Nat} {p : Payload} :
    sv.payloadAt k w = some p ↔ (sv.schedulers k).Holds w p := by
  simp [payloadAt,Scheduler.Holds,Option.bind_eq_some_iff]

def Unappended (sv : Server) (s : Nat) : Prop :=
  ∀ k p, .appended s p ∉ (sv.schedulers k).log

/-- Where the payload of call `s` is, and what its response says, by its place. -/
inductive Fate (sv : Server) (s : Nat) (response : InferResponse) (sent : List InferResponse) :
    PayloadPlace → Prop where
  | absent : sv.Unappended s → Fate sv s response sent .absent
  | constructed : sv.Unappended s → Fate sv s response sent .constructed
  | queued {k p} : p.id = s → p ∈ (sv.schedulers k).queue.buffer → Fate sv s response sent .queued
  | dropped {k p} : p.id = s → p ∈ (sv.schedulers k).queue.buffer → sv.destroyed k = true →
      Fate sv s response sent .dropped
  | held {k w p} : p.id = s → (sv.schedulers k).Holds w p → Fate sv s response sent .held
  | completing {k w p status} : p.id = s → (sv.schedulers k).Back w p status →
      (Ending.ran status).Answers response → Fate sv s response sent .completing
  | finishing {k w p status} : p.id = s → (sv.schedulers k).Back w p status →
      (Ending.ran status).Answers response → Fate sv s response sent .finishing
  | issued {k w p status} : p.id = s →
      .completed w p status (completionMessage status) ∈ (sv.schedulers k).log →
      (Ending.ran status).Answers response → sent = [response] → Fate sv s response sent .issued

variable {s : Nat} {response : InferResponse} {sent : List InferResponse} {place : PayloadPlace}

theorem Fate.unappended (fate : Fate sv s response sent place) (early : place.early = true) :
    sv.Unappended s := by
  cases fate with
  | absent none | constructed none => exact none
  | _ => contradiction

theorem Unappended.fate (none : sv.Unappended s) (early : place.early = true) :
    Fate sv s response sent place := by
  cases place with
  | absent => exact .absent none
  | constructed => exact .constructed none
  | _ => contradiction

structure Keeps (sv sv' : Server) (s : Nat) : Prop where
  queue : ∀ k p, p.id = s → p ∈ (sv.schedulers k).queue.buffer →
    p ∈ (sv'.schedulers k).queue.buffer
  holds : ∀ k w p, p.id = s → (sv.schedulers k).Holds w p → (sv'.schedulers k).Holds w p
  back : ∀ k w p status, p.id = s → (sv.schedulers k).Back w p status →
    (sv'.schedulers k).Back w p status
  log : ∀ k, ∀ e ∈ (sv.schedulers k).log, e ∈ (sv'.schedulers k).log
  appended : ∀ k p, .appended s p ∈ (sv'.schedulers k).log → .appended s p ∈ (sv.schedulers k).log
  destroyed : ∀ k, sv.destroyed k = true → sv'.destroyed k = true

theorem Still.keeps (still : Still sv sv') (s : Nat) : Keeps sv sv' s where
  queue k p _ member := by rwa [(still.schedulers k).buffer]
  holds k w p _ := (still.schedulers k).holds w p
  back k w p status _ := (still.schedulers k).back w p status
  log k := (still.schedulers k).log
  appended k p member := ((still.schedulers k).silent _ member).resolve_right (by
    simp [Event.appended?])
  destroyed := still.destroyed

theorem keeps_set {k : Nat} {sc : Scheduler Payload Nat}
    (set : sv'.schedulers = Function.update sv.schedulers k sc)
    (same : sv'.destroyed = sv.destroyed)
    (queue : ∀ p, p.id = s → p ∈ (sv.schedulers k).queue.buffer → p ∈ sc.queue.buffer)
    (holds : ∀ w p, p.id = s → (sv.schedulers k).Holds w p → sc.Holds w p)
    (back : ∀ w p status, p.id = s → (sv.schedulers k).Back w p status → sc.Back w p status)
    {e : Event Payload Nat} (log : sc.log = (sv.schedulers k).log ++ [e])
    (other : ∀ p, e ≠ .appended s p) : Keeps sv sv' s := by
  have at' {P : Scheduler Payload Nat → Scheduler Payload Nat → Prop} (mine : P (sv.schedulers k) sc)
      (others : ∀ sc, P sc sc) (j : Nat) : P (sv.schedulers j) (sv'.schedulers j) := by
    rw [set]
    by_cases here : j = k
    · subst j
      rwa [Function.update_self]
    · rw [Function.update_of_ne here]
      exact others _
  refine ⟨?_,?_,?_,?_,?_,fun j => by rw [same]; exact id⟩
  · exact at' (P := fun a b => ∀ p, p.id = s → p ∈ a.queue.buffer → p ∈ b.queue.buffer) queue
      fun _ _ _ => id
  · exact at' (P := fun a b => ∀ w p, p.id = s → a.Holds w p → b.Holds w p) holds
      fun _ _ _ _ => id
  · exact at' (P := fun a b => ∀ w p status, p.id = s → a.Back w p status → b.Back w p status) back
      fun _ _ _ _ _ => id
  · refine at' (P := fun a b => ∀ e ∈ a.log, e ∈ b.log) (fun e member => ?_) fun _ _ => id
    rw [log]
    exact List.mem_append_left _ member
  · refine at' (P := fun a b => ∀ p, .appended s p ∈ b.log → .appended s p ∈ a.log)
      (fun p member => ?_) fun _ _ => id
    rw [log] at member
    rcases List.mem_append.mp member with old | new
    · exact old
    · exact absurd (List.mem_singleton.mp new).symm (other p)

theorem Keeps.unappended (keeps : Keeps sv sv' s) (none : sv.Unappended s) : sv'.Unappended s :=
  fun k p member => none k p (keeps.appended k p member)

theorem Fate.keep (fate : Fate sv s response sent place) (keeps : Keeps sv sv' s) :
    Fate sv' s response sent place := by
  cases fate with
  | absent none => exact .absent (keeps.unappended none)
  | constructed none => exact .constructed (keeps.unappended none)
  | queued own member => exact .queued own (keeps.queue _ _ own member)
  | dropped own member gone =>
    exact .dropped own (keeps.queue _ _ own member) (keeps.destroyed _ gone)
  | held own holds => exact .held own (keeps.holds _ _ _ own holds)
  | completing own back answers => exact .completing own (keeps.back _ _ _ _ own back) answers
  | finishing own back answers => exact .finishing own (keeps.back _ _ _ _ own back) answers
  | issued own member answers all => exact .issued own (keeps.log _ _ member) answers all

theorem pop_keeps {k w : Nat} {wake : Option Nat} {p : Payload}
    (taken : sv.workerStep k w (.pop wake) = some sv') (holds : sv'.payloadAt k w = some p)
    (other : s ≠ p.id) : Keeps sv sv' s := by
  obtain ⟨sc,stepped,set,same⟩ := worker_set taken
  rw [payloadAt_iff,set,Function.update_self] at holds
  obtain ⟨front,kept,back,log⟩ := Scheduler.pop_hands stepped holds
  refine keeps_set set same (fun q own member => ?_) (fun v q _ => kept v q)
    (fun v q status _ => back v q status) log (by simp)
  rw [front] at member
  rcases List.mem_cons.mp member with rfl | later
  · exact absurd own.symm other
  · exact later

theorem complete_keeps {k w : Nat} {p : Payload} (taken : sv.workerStep k w .complete = some sv')
    (holds : sv.payloadAt k w = some p) (other : s ≠ p.id) : Keeps sv sv' s := by
  obtain ⟨sc,stepped,set,same⟩ := worker_set taken
  have mine := payloadAt_iff.mp holds
  obtain ⟨status,_,buffer,kept,back,log⟩ := Scheduler.complete_hands stepped mine
  have elsewhere {v : Nat} {q : Payload} (own : q.id = s) (holds : (sv.schedulers k).Holds v q) :
      v ≠ w := by
    intro here
    obtain ⟨t,atV,ofT⟩ := holds
    obtain ⟨u,atW,ofU⟩ := mine
    obtain rfl : t = u := by simpa [here,atW,eq_comm] using atV
    obtain rfl : q = p := Option.some.inj (ofT.symm.trans ofU)
    exact other own.symm
  exact keeps_set set same (fun q _ member => buffer ▸ member)
    (fun v q own holds => kept v q (elsewhere own holds) holds)
    (fun v q s own there => back v q s (elsewhere own there.holds) there) log (by simp)

end Server
end InferenceServer
