import InferenceServer.LinkedSystem
import InferenceServer.TeardownOrder

/-! The whole way of a call: what `InferAsync` accepts is answered once, with what one run of a
backend of its model returned, or goes with the queue of a scheduler that was destroyed. -/
namespace InferenceServer

namespace Handler

variable {h h' : Handler} {s : Nat}

theorem setState_answered {t : Nat} {state : HandlerState}
    (kept : (h.states t).place.answered = true → state.place.answered = true)
    (answered : (h.states s).place.answered = true) :
    ((h.setState t state).states s).place.answered = true := by
  by_cases same : s = t
  · subst t
    simpa [setState] using kept answered
  · simpa [setState,Function.update_of_ne same] using answered

theorem step_answered {a : HandlerAction} (sane : h.Sane) (taken : h.step a = some h')
    (answered : (h.states s).place.answered = true) : (h'.states s).place.answered = true := by
  have new (free : h.thread.tag? ≠ some h.next) :
      (h.startNewRequest.states s).place.answered = true := by
    refine setState_answered (fun mine => ?_) answered
    rw [show (h.states h.next).place = .absent from congrArg Facet.place (sane.new free)] at mine
    contradiction
  cases a with
  | payload t a =>
    by_cases same : s = t
    · subst t
      cases payloadStep_cases taken with
      | pop place | drop place | register place | complete place =>
        rw [place] at answered
        contradiction
      | setFinish | finish => simp [place,setFinish,finish,setState,PayloadPlace.answered]
    · rwa [payloadStep_others (payloadStep_cases taken) same]
  | event a =>
    simp only [step,eventStep] at taken
    split at taken
    case h_1 at' =>
      cases taken
      exact new (by simp [at',EventPc.tag?])
    case h_2 =>
      obtain ⟨g,delivered,rfl⟩ := Option.map_eq_some_iff.mp taken
      unfold deliver at delivered
      split at delivered <;> (split at delivered <;> cases delivered; exact answered)
    case h_3 | h_4 | h_6 | h_13 => split at taken <;> cases taken <;> exact answered
    case h_7 =>
      split at taken <;> cases taken
      · exact setState_answered id answered
      · exact answered
    case h_8 at' =>
      cases taken
      exact new (sane.registering_free at')
    case h_10 at' =>
      split at taken <;> cases taken
      · exact answered
      · refine setState_answered (fun mine => ?_) answered
        rw [(sane.constructing at').1] at mine
        contradiction
    case h_11 at' | h_12 at' =>
      cases taken
      refine setState_answered (fun mine => ?_) answered
      rw [(sane.inferring at').1] at mine
      contradiction
    case h_14 => cases taken; exact answered
    case h_18 => contradiction
    all_goals
      cases taken
      exact setState_answered id answered

theorem ran_answered {actions : List HandlerAction} {status : Status}
    (run : machine.exec machine.start actions = some h) (ran : EndedBy actions s (.ran status)) :
    (h.states s).place.answered = true := by
  refine Transition.Machine.exec_invariant (P := fun actions h =>
    EndedBy actions s (.ran status) → (h.states s).place.answered = true) ?_ ?_ run ran
  · rintro ⟨before,a,after,_,split,_⟩
    simp at split
  · intro actions h a h' run valid taken ran
    have sane := reachable_sane (Transition.Machine.exec_reachable .start actions run)
    rcases (endedBy_snoc run).mp ran with earlier | ends
    · exact step_answered sane taken (valid earlier)
    · unfold ending? at ends
      split at ends
      case h_3 t status' =>
        obtain ⟨rfl,_⟩ := Option.ite_none_right_eq_some.mp ends
        cases payloadStep_cases taken
        simp [setState,PayloadPlace.answered]
      all_goals simp at ends

/-- A reply to a call whose payload came to no queue says why. -/
theorem refused_reply (reach : machine.Reachable h) {response : InferResponse}
    (early : (h.states s).place.early = true) (sent : response ∈ (h.states s).sent) :
    ∃ status : Status, status ≠ .success ∧
      response = { InferResponse.clear with requestStatus := some ⟨.internal,status.print⟩ } := by
  obtain ⟨actions,run⟩ := reach.run
  cases exec_told run s with
  | fresh _ _ unsent => simp [unsent] at sent
  | failing _ unsent => simp [unsent] at sent
  | @answered ending _ all answers only =>
    rw [← all response sent] at answers
    unfold Ending.Answers at answers
    split at answers
    next success =>
      obtain ⟨rfl,_⟩ := answers
      have begun := ran_answered run ((only _).mpr rfl)
      cases at' : (h.states s).place <;> rw [at'] at begun early <;> contradiction
    next failed => exact ⟨ending.status,failed,answers⟩

end Handler

namespace Server

variable {config : ServerConfig} {sv : Server}

/-- A payload that was appended is with one scheduler, in its queue, with a worker or
completed, and in one of these only. -/
theorem appended_somewhere (reach : (machine config).Reachable sv) {k : Nat} {p : Payload}
    (appended : .appended p.id p ∈ (sv.schedulers k).log) :
    (sv.schedulers k).queue.buffer.count p + (sv.schedulers k).held.count p +
      (sv.schedulers k).completed.count p = 1 := by
  obtain ⟨func,sound⟩ := reachable_sound reach k
  have there : 0 < (sv.schedulers k).appended.count p := by
    rw [Multiset.count_pos,Scheduler.appended,Multiset.mem_coe]
    exact List.mem_filterMap.mpr ⟨_,appended,rfl⟩
  have once := appended_once reach k p
  have conserved := congrArg (Multiset.count p) sound.conserved.payloads
  simp only [Multiset.count_add,Multiset.coe_count] at conserved
  omega

theorem mem_completed {k : Nat} {p : Payload} :
    p ∈ (sv.schedulers k).completed ↔
      ∃ w status message, .completed w p status message ∈ (sv.schedulers k).log := by
  rw [Scheduler.completed,Multiset.mem_coe,List.mem_filterMap]
  constructor
  · rintro ⟨e,member,completes⟩
    cases e <;> cases completes
    exact ⟨_,_,_,member⟩
  · rintro ⟨w,status,message,member⟩
    exact ⟨_,member,rfl⟩

theorem mem_held_iff {k : Nat} {p : Payload} :
    p ∈ (sv.schedulers k).held ↔ ∃ w, (sv.schedulers k).Holds w p := by
  rw [Scheduler.held,Multiset.mem_coe,List.mem_filterMap]
  constructor
  · rintro ⟨t,member,holds⟩
    obtain ⟨w,atIndex⟩ := List.mem_iff_getElem?.mp member
    exact ⟨w,t,atIndex,holds⟩
  · rintro ⟨w,t,atIndex,holds⟩
    exact ⟨t,List.mem_of_getElem? atIndex,holds⟩

theorem appended_payload (reach : (machine config).Reachable sv) {k s : Nat} {p : Payload}
    (appended : .appended s p ∈ (sv.schedulers k).log) : (sv.callers s).payload? = some p := by
  obtain ⟨func,sound⟩ := reachable_sound reach k
  have standing := (reachable_calls reach).standing k s
  rcases Scheduler.appended_place sound.answered appended with place | place
  · rw [place] at standing
    rw [show sv.callers s = _ from standing]
    rfl
  · rw [place] at standing
    rcases standing with there | there <;> (rw [there]; rfl)

/-- One run of a backend of its model stands behind a completed payload. -/
theorem completed_ran (reach : (machine config).Reachable sv) {k : Nat} {p : Payload}
    (completed : p ∈ (sv.schedulers k).completed) :
    runs sv k p.id = 1 ∧ (∀ j, j ≠ k → runs sv j p.id = 0) ∧
    ∃ w idx f batch, .invoked w idx f batch ∈ (sv.schedulers k).log ∧ p ∈ batch ∧
      (sv.backends f).object.modelName = p.modelName := by
  obtain ⟨func,sound⟩ := reachable_sound reach k
  have invoked : p ∈ (sv.schedulers k).invoked := by
    rw [sound.conserved.calls]
    exact Multiset.mem_add.mpr (.inr completed)
  have some' : 0 < runs sv k p.id := Multiset.countP_pos.mpr ⟨p,invoked,rfl⟩
  refine ⟨Nat.le_antisymm (runs_le reach k p.id) some',fun j other => ?_,?_⟩
  · by_contra ran
    exact other (runs_one reach (Nat.pos_of_ne_zero ran) some')
  · obtain ⟨e,member,inBatch⟩ := List.mem_flatMap.mp (Multiset.mem_coe.mp invoked)
    cases e with
    | invoked w idx f batch =>
      exact ⟨w,idx,f,batch,member,inBatch,(invoked_named reach k w idx f batch p member inBatch).2⟩
    | _ => contradiction

end Server

namespace System

open Server

variable {config : ServerConfig} {sys : System} {s : Nat}

theorem linked_appended (linked : sys.Linked) {k : Nat} {p : Payload}
    (appended : .appended s p ∈ (sys.server.schedulers k).log) :
    (sys.handler.states s).place.early = false := by
  by_contra early
  exact (linked s).unappended (by simpa using early) k p appended

/-- A payload that is past the handler's lines came to some queue. -/
theorem fate_appended (server : (Server.machine config).Reachable sys.server) (linked : sys.Linked)
    (late : (sys.handler.states s).place.early = false) :
    ∃ k p, p.id = s ∧ .appended s p ∈ (sys.server.schedulers k).log := by
  have fate := linked s
  generalize (sys.handler.states s).place = place at fate late
  cases fate with
  | absent | constructed => contradiction
  | queued own member | dropped own member =>
    exact ⟨_,_,own,own ▸ appended_of_copy server (.inl member)⟩
  | held own holds =>
    exact ⟨_,_,own,own ▸ appended_of_copy server (.inr (.inl (mem_held_iff.mpr ⟨_,holds⟩)))⟩
  | completing own back | finishing own back =>
    exact ⟨_,_,own,own ▸ appended_of_copy server (.inr (.inl (mem_held_iff.mpr ⟨_,back.holds⟩)))⟩
  | issued own member =>
    exact ⟨_,_,own,
      own ▸ appended_of_copy server (.inr (.inr (mem_completed.mpr ⟨_,_,_,member⟩)))⟩

/-- One run of a backend of the model, and its status, stand behind a reply. -/
structure Served (sys : System) (s k : Nat) (p : Payload) (status : Status) : Prop where
  asked : (sys.server.callers s).payload? = some p
  completed : ∃ w, .completed w p status (completionMessage status) ∈ (sys.server.schedulers k).log
  ran : ∀ j, runs sys.server j s = if j = k then 1 else 0
  invoked : ∃ w idx f batch, .invoked w idx f batch ∈ (sys.server.schedulers k).log ∧ p ∈ batch ∧
    (sys.server.backends f).object.modelName = p.modelName

theorem served_of_completed (server : (Server.machine config).Reachable sys.server) {k w : Nat}
    {p : Payload} {status : Status}
    (completed : .completed w p status (completionMessage status) ∈ (sys.server.schedulers k).log) :
    Served sys p.id k p status := by
  have member := mem_completed.mpr ⟨w,status,_,completed⟩
  obtain ⟨once,others,invoked⟩ := completed_ran server member
  refine ⟨?_,⟨w,completed⟩,fun j => ?_,invoked⟩
  · exact appended_payload server (appended_of_copy server (.inr (.inr member)))
  · split
    next here => exact here ▸ once
    next other => exact others j other

/-- What a reply reports: the one run that was made for the call, or a refusal. -/
inductive Reported (sys : System) (s : Nat) (response : InferResponse) : Prop where
  | success {k p} : Served sys s k p .success →
      response.requestStatus = some ⟨.success,completionMessage .success⟩ → Reported sys s response
  | failure {k p status} : status ≠ .success → Served sys s k p status →
      response = { InferResponse.clear with requestStatus := some ⟨.internal,status.print⟩ } →
      Reported sys s response
  | refusal {status : Status} : status ≠ .success → (∀ k, runs sys.server k s = 0) →
      sys.server.Unappended s →
      response = { InferResponse.clear with requestStatus := some ⟨.internal,status.print⟩ } →
      Reported sys s response

theorem sent_reported (reach : (machine config).Reachable sys) {response : InferResponse}
    (sent : response ∈ (sys.handler.states s).sent) : Reported sys s response := by
  obtain ⟨handler,server⟩ := reachable_parts reach
  have sane := Handler.reachable_sane handler
  have waiting (unsettled : ¬(sys.handler.states s).place.settled) : False := by
    rw [(sane.unsettled unsettled).2] at sent
    contradiction
  by_cases early : (sys.handler.states s).place.early = true
  · obtain ⟨status,failed,is⟩ := Handler.refused_reply handler early sent
    have none := (reachable_linked reach s).unappended early
    refine .refusal failed (fun k => ?_) none is
    by_contra ran
    obtain ⟨p,named,appended⟩ := ran_appended server (Nat.pos_of_ne_zero ran)
    exact none k p appended
  · have fate := reachable_linked reach s
    generalize at' : (sys.handler.states s).place = place at fate early
    cases fate with
    | issued own completed answers all =>
      subst s
      have served := served_of_completed server completed
      obtain rfl : response = _ := by simpa [all] using sent
      unfold Ending.Answers at answers
      split at answers
      next success =>
        obtain ⟨same,written⟩ := answers
        cases same
        exact .success served written
      next failed => exact .failure failed served answers
    | absent | constructed => exact absurd rfl early
    | queued | dropped | held | completing | finishing =>
      exact (waiting (by rw [at']; simp [PayloadPlace.settled])).elim

/-- A call is answered once at most. Its reply says `SUCCESS` only if one run of a backend of
the model it named, in one scheduler, returned `Success`, and there was no other run for it.
A reply that says `INTERNAL` either prints the status of that one run, or there was none. -/
theorem reply_reports_run (reach : (machine config).Reachable sys) (s : Nat)
    (response : InferResponse) (sent : response ∈ (sys.handler.states s).sent) :
    (sys.handler.states s).sent = [response] ∧ Reported sys s response := by
  have once := ((Handler.reachable_sane (reachable_parts reach).1).bounds s).1
  refine ⟨?_,sent_reported reach sent⟩
  obtain ⟨x,same⟩ : ∃ x, (sys.handler.states s).sent = [x] :=
    List.length_eq_one_iff.mp (Nat.le_antisymm once (List.length_pos_of_mem sent))
  rw [same] at sent ⊢
  rw [List.mem_singleton.mp sent]

def upRun : List SystemAction :=
  [.event .startNewRequest] ++ List.map SystemAction.other (startRun "m" 1)

def acceptRun (s : Nat) : List SystemAction :=
  List.map SystemAction.event [.next ⟨s,true,false⟩,.judge,.testStart,.startNewRequest,
    .setProcess,.construct false] ++
  List.map SystemAction.infer [.call "m" (-1),.lookup,.enqueue,.push none,.leave,.finish] ++
  [.event .leave]

def workRun (actions : List WorkerAction) : List SystemAction :=
  List.map (SystemAction.worker 0 0) actions

def replyRun : List SystemAction := [.respond 0 0,.setFinish 0 0,.worker 0 0 .complete]

def answeredRun : List SystemAction :=
  upRun ++ acceptRun 0 ++ workRun [.test,.pop none,.copy,.call] ++
  [.register 0 0 "y" 0 [7] [1]] ++ workRun [.ret .success] ++ replyRun

theorem reply_reports_success : ∃ (sys : System) (response : InferResponse),
    (sys.handler.states 0).sent = [response] ∧
    response.requestStatus = some ⟨.success,completionMessage .success⟩ ∧
    ∃ k p, Served sys 0 k p .success := by
  obtain ⟨sys,reach,seen⟩ := Transition.Machine.exec_observed (m := machine ⟨false,4⟩) answeredRun
    (fun sys => (sys.handler.states 0).sent.map fun response =>
      (response.requestStatus,response.metaData))
    [(some ⟨.success,""⟩,[⟨"y",[1],1⟩])] rfl
  obtain ⟨response,same,written⟩ := List.map_eq_singleton_iff.mp seen
  simp only [Prod.mk.injEq] at written
  cases (reply_reports_run reach 0 response (by simp [same])).2 with
  | success served => exact ⟨sys,response,same,written.1,_,_,served⟩
  | failure _ _ is | refusal _ _ _ is =>
    rw [is] at written
    simp at written

/-- Where the payload of an accepted call is, and what its caller has of it. -/
structure Accounted (sys : System) (k : Nat) (p : Payload) : Prop where
  alone : ∀ j q, .appended p.id q ∈ (sys.server.schedulers j).log → j = k ∧ q = p
  once : (sys.server.schedulers k).queue.buffer.count p + (sys.server.schedulers k).held.count p +
    (sys.server.schedulers k).completed.count p = 1
  queued : p ∈ (sys.server.schedulers k).queue.buffer → (sys.handler.states p.id).sent = [] ∧
    ((sys.handler.states p.id).place = .queued ∨
      (sys.handler.states p.id).place = .dropped ∧ sys.server.destroyed k = true)
  held : ∀ w, (sys.server.schedulers k).Holds w p → (sys.handler.states p.id).sent = [] ∧
    (sys.handler.states p.id).place ∈ [.held,.completing,.finishing]
  completed : ∀ w status message,
    .completed w p status message ∈ (sys.server.schedulers k).log →
    (sys.handler.states p.id).place = .issued ∧
    ∃ response, (sys.handler.states p.id).sent = [response] ∧
      (Ending.ran status).Answers response

/-- The one place at which the payload of an accepted call is. -/
inductive Whereabouts (sys : System) (k : Nat) (p : Payload) : Prop where
  | queued : p ∈ (sys.server.schedulers k).queue.buffer →
      (sys.handler.states p.id).place = .queued ∨
        (sys.handler.states p.id).place = .dropped ∧ sys.server.destroyed k = true →
      Whereabouts sys k p
  | held {w} : (sys.server.schedulers k).Holds w p →
      (sys.handler.states p.id).place ∈ [.held,.completing,.finishing] → Whereabouts sys k p
  | completed {w status response} :
      .completed w p status (completionMessage status) ∈ (sys.server.schedulers k).log →
      (sys.handler.states p.id).place = .issued → (sys.handler.states p.id).sent = [response] →
      (Ending.ran status).Answers response → Whereabouts sys k p

theorem appended_alone (server : (Server.machine config).Reachable sys.server) {j k : Nat}
    {p q : Payload} (appended : .appended p.id p ∈ (sys.server.schedulers k).log)
    (other : .appended p.id q ∈ (sys.server.schedulers j).log) : j = k ∧ q = p :=
  ⟨appended_single server other appended,Option.some.inj
    ((appended_payload server other).symm.trans (appended_payload server appended))⟩

theorem accepted_whereabouts (reach : (machine config).Reachable sys) {k : Nat} {p : Payload}
    (appended : .appended p.id p ∈ (sys.server.schedulers k).log) : Whereabouts sys k p := by
  obtain ⟨_,server⟩ := reachable_parts reach
  have mine {j : Nat} {q : Payload} (own : q.id = p.id)
      (somewhere : q ∈ (sys.server.schedulers j).queue.buffer ∨
        q ∈ (sys.server.schedulers j).held ∨ q ∈ (sys.server.schedulers j).completed) :
      j = k ∧ q = p := appended_alone server appended (own ▸ appended_of_copy server somewhere)
  have fate := reachable_linked reach p.id
  have late := linked_appended (reachable_linked reach) appended
  cases at' : (sys.handler.states p.id).place with
  | absent | constructed => rw [at'] at late; contradiction
  | queued =>
    rw [at'] at fate
    cases fate with
    | queued own member =>
      obtain ⟨rfl,rfl⟩ := mine own (.inl member)
      exact .queued member (.inl at')
  | dropped =>
    rw [at'] at fate
    cases fate with
    | dropped own member gone =>
      obtain ⟨rfl,rfl⟩ := mine own (.inl member)
      exact .queued member (.inr ⟨at',gone⟩)
  | held =>
    rw [at'] at fate
    cases fate with
    | held own holds =>
      obtain ⟨rfl,rfl⟩ := mine own (.inr (.inl (mem_held_iff.mpr ⟨_,holds⟩)))
      exact .held holds (by simp [at'])
  | completing =>
    rw [at'] at fate
    cases fate with
    | completing own back =>
      obtain ⟨rfl,rfl⟩ := mine own (.inr (.inl (mem_held_iff.mpr ⟨_,back.holds⟩)))
      exact .held back.holds (by simp [at'])
  | finishing =>
    rw [at'] at fate
    cases fate with
    | finishing own back =>
      obtain ⟨rfl,rfl⟩ := mine own (.inr (.inl (mem_held_iff.mpr ⟨_,back.holds⟩)))
      exact .held back.holds (by simp [at'])
  | issued =>
    rw [at'] at fate
    cases fate with
    | issued own member answers all =>
      obtain ⟨rfl,rfl⟩ := mine own (.inr (.inr (mem_completed.mpr ⟨_,_,_,member⟩)))
      exact .completed member at' all answers

/-- A payload is completed once, with one status. -/
theorem completed_unique {sc : Scheduler Payload Nat} {p : Payload} (once : sc.completed.count p ≤ 1)
    {v w : Nat} {status status' : Status} {message message' : String}
    (member : .completed v p status message ∈ sc.log)
    (member' : .completed w p status' message' ∈ sc.log) : status = status' := by
  have few : sc.log.countP (fun e => e.completed? == some p) ≤ 1 := by
    rwa [← List.count_filterMap,← Multiset.coe_count]
  have same := Scheduler.event_unique few member member' (by simp [Event.completed?])
    (by simp [Event.completed?])
  cases same
  rfl

/-- Every call that `InferAsync` brought to a queue is in that queue, with one worker, or
completed: not answered in the first two cases, and answered in the last. -/
theorem accounted (reach : (machine config).Reachable sys) (k : Nat) (p : Payload)
    (appended : .appended p.id p ∈ (sys.server.schedulers k).log) : Accounted sys k p := by
  obtain ⟨handler,server⟩ := reachable_parts reach
  have sane := Handler.reachable_sane handler
  have once := appended_somewhere server appended
  have inQueue (there : p ∈ (sys.server.schedulers k).queue.buffer) :
      0 < (sys.server.schedulers k).queue.buffer.count p := List.count_pos_iff.mpr there
  have inHand {w : Nat} (there : (sys.server.schedulers k).Holds w p) :
      0 < (sys.server.schedulers k).held.count p :=
    Multiset.count_pos.mpr (mem_held_iff.mpr ⟨w,there⟩)
  have done {w : Nat} {status : Status} {message : String}
      (there : .completed w p status message ∈ (sys.server.schedulers k).log) :
      0 < (sys.server.schedulers k).completed.count p :=
    Multiset.count_pos.mpr (mem_completed.mpr ⟨w,status,message,there⟩)
  have unsent {place : PayloadPlace} (at' : (sys.handler.states p.id).place = place)
      (unsettled : place.settled = false) : (sys.handler.states p.id).sent = [] :=
    (sane.unsettled (by rw [at',unsettled]; simp)).2
  refine ⟨fun j q => appended_alone server appended,once,?_,?_,?_⟩
  all_goals have whereabouts := accepted_whereabouts reach appended
  · intro there
    cases whereabouts with
    | queued _ place =>
      exact ⟨by rcases place with at' | ⟨at',_⟩ <;> exact unsent at' rfl,place⟩
    | held holds => have := inQueue there; have := inHand holds; omega
    | completed member => have := inQueue there; have := done member; omega
  · intro w there
    cases whereabouts with
    | queued member => have := inQueue member; have := inHand there; omega
    | held _ place =>
      refine ⟨?_,place⟩
      simp only [List.mem_cons,List.not_mem_nil,or_false] at place
      rcases place with at' | at' | at' <;> exact unsent at' rfl
    | completed member => have := inHand there; have := done member; omega
  · intro w status message there
    cases whereabouts with
    | queued member => have := inQueue member; have := done there; omega
    | held holds => have := inHand holds; have := done there; omega
    | @completed v status' response member place all answers =>
      obtain rfl := completed_unique (by omega) member there
      exact ⟨place,response,all,answers⟩

/-- Of every call the server either never got a payload, and no backend was run for it, or has
it at one place in one scheduler: the caller has no reply before the end of its one run, and one
reply, with what that run returned, after it. -/
theorem calls_accounted (reach : (machine config).Reachable sys) (s : Nat) :
    (sys.handler.states s).place.early = true ∧ sys.server.Unappended s ∧
        (∀ k, runs sys.server k s = 0) ∨
      ∃ k p, p.id = s ∧ .appended s p ∈ (sys.server.schedulers k).log ∧ Accounted sys k p := by
  obtain ⟨_,server⟩ := reachable_parts reach
  by_cases early : (sys.handler.states s).place.early = true
  · have none := (reachable_linked reach s).unappended early
    refine .inl ⟨early,none,fun k => ?_⟩
    by_contra ran
    obtain ⟨p,_,appended⟩ := ran_appended server (Nat.pos_of_ne_zero ran)
    exact none k p appended
  · obtain ⟨k,p,rfl,appended⟩ := fate_appended server (reachable_linked reach)
      (s := s) (by simpa using early)
    exact .inr ⟨k,p,rfl,appended,accounted reach k p appended⟩

/-- One call is with a worker, the next one waits behind it. -/
theorem calls_accounted_waiting : ∃ sys : System,
    (sys.server.schedulers 0).queue.buffer = [⟨1,"m",-1⟩] ∧ ∃ k, Accounted sys k ⟨1,"m",-1⟩ := by
  obtain ⟨sys,reach,seen⟩ := Transition.Machine.exec_observed (m := machine ⟨false,4⟩)
    (upRun ++ acceptRun 0 ++ workRun [.test,.pop none] ++ acceptRun 1)
    (fun sys => (sys.server.schedulers 0).queue.buffer) [⟨1,"m",-1⟩] rfl
  have appended := appended_of_copy (k := 0) (p := ⟨1,"m",-1⟩) (reachable_parts reach).2
    (.inl (by simp [seen]))
  refine ⟨sys,seen,?_⟩
  rcases calls_accounted reach 1 with ⟨_,none,_⟩ | ⟨k,p,_,there,accounted⟩
  · exact absurd appended (none _ _)
  · obtain ⟨_,rfl⟩ := appended_alone (reachable_parts reach).2 appended there
    exact ⟨k,accounted⟩

end System
end InferenceServer
