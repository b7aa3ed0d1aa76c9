import InferenceServer.HandlerLife

/-! What an `InferResponse` says when it is passed to `Finish`: how its call ended, whichever
of the two threads ended it. -/
namespace InferenceServer

/-- The construction of the request's context threw, `InferAsync` refused it, or its `Run`
returned. -/
inductive Ending where
  | threw
  | refused (status : Status)
  | ran (status : Status)
  deriving DecidableEq, Repr

def Ending.status : Ending → Status
  | .threw => .failedGeneric
  | .refused status | .ran status => status

def Ending.Answers (ending : Ending) (response : InferResponse) : Prop :=
  if ending.status = .success then
    ending = .ran .success ∧ response.requestStatus = some ⟨.success,completionMessage .success⟩
  else response = { InferResponse.clear with
    requestStatus := some ⟨.internal,ending.status.print⟩ }

def PayloadPlace.answered : PayloadPlace → Bool
  | .completing | .finishing | .issued => true
  | _ => false

/-- How far the event thread is with the failure branch for state `s`: with the status in hand,
or past the writing of the reply. -/
def EventPc.replying (s : Nat) : EventPc → Option (Option Status)
  | .failing t status => if t = s then some (some status) else none
  | .completing t | .finishing t => if t = s then some none else none
  | _ => none

theorem EventPc.replying_none {s : Nat} {pc : EventPc} (free : pc.tag? ≠ some s) :
    pc.replying s = none := by
  cases pc with
  | failing t | completing t | finishing t =>
    have other : t ≠ s := fun same => free (congrArg some same)
    simp [replying,other]
  | _ => rfl

namespace Handler

variable {h h' : Handler} {s : Nat} {actions : List HandlerAction}

/-- The ending that an action is for the call of state `s`. -/
def ending? (h : Handler) (s : Nat) : HandlerAction → Option Ending
  | .event (.construct true) => if h.thread = .constructing s then some .threw else none
  | .event (.inferAsync (.failed status)) =>
    if h.thread = .inferring s then some (.refused status) else none
  | .payload t (.complete status) => if t = s then some (.ran status) else none
  | _ => none

def EndedBy (actions : List HandlerAction) (s : Nat) (ending : Ending) : Prop :=
  ∃ before a after h, actions = before ++ a :: after ∧
    machine.exec machine.start before = some h ∧ h.ending? s a = some ending

def Accepted (actions : List HandlerAction) (s : Nat) : Prop :=
  machine.Visits actions fun h => (h.states s).place = .queued

theorem endedBy_snoc (run : machine.exec machine.start actions = some h) {a : HandlerAction}
    {ending : Ending} : EndedBy (actions ++ [a]) s ending ↔
      EndedBy actions s ending ∨ h.ending? s a = some ending := by
  constructor
  · rintro ⟨before,b,after,g,split,early,ends⟩
    rcases List.eq_nil_or_concat after with rfl | ⟨after,last,rfl⟩
    · obtain ⟨rfl,same⟩ := List.append_inj' split rfl
      cases same
      rw [run] at early
      cases early
      exact .inr ends
    · rw [List.concat_eq_append,← List.cons_append,← List.append_assoc] at split
      obtain ⟨rfl,_⟩ := List.append_inj' split rfl
      exact .inl ⟨before,b,after,g,rfl,early,ends⟩
  · rintro (⟨before,b,after,g,rfl,early,ends⟩ | ends)
    · exact ⟨before,b,after ++ [a],g,by simp,early,ends⟩
    · exact ⟨actions,a,[],h,rfl,run,ends⟩

inductive Told (actions : List HandlerAction) (h : Handler) (s : Nat) : Prop where
  | fresh : h.thread.replying s = none → (h.states s).place.answered = false →
      (h.states s).sent = [] → (h.states s).response = .clear →
      (∀ ending, ¬EndedBy actions s ending) → Told actions h s
  | failing {ending : Ending} : h.thread.replying s = some (some ending.status) →
      (h.states s).sent = [] → (h.states s).response = .clear → ending.status ≠ .success →
      (∀ other, EndedBy actions s other ↔ other = ending) → Told actions h s
  | answered {ending : Ending} :
      (h.thread.replying s = some none ∨ h.thread.replying s = none ∧
        ((h.states s).place.answered = true ∨ (h.states s).sent ≠ [])) →
      (∀ response ∈ (h.states s).sent, response = (h.states s).response) →
      ending.Answers (h.states s).response →
      (∀ other, EndedBy actions s other ↔ other = ending) → Told actions h s

theorem Told.keep {a : HandlerAction} (told : Told actions h s)
    (run : machine.exec machine.start actions = some h)
    (thread : h'.thread.replying s = h.thread.replying s)
    (place : (h'.states s).place.answered = (h.states s).place.answered)
    (sent : (h'.states s).sent = (h.states s).sent)
    (response : (h'.states s).response = (h.states s).response)
    (silent : h.ending? s a = none) : Told (actions ++ [a]) h' s := by
  have ends (ending : Ending) :
      EndedBy (actions ++ [a]) s ending ↔ EndedBy actions s ending := by
    rw [endedBy_snoc run,silent]
    simp
  cases told with
  | fresh far early unsent clear none =>
    exact .fresh (thread.trans far) (place.trans early) (sent.trans unsent) (response.trans clear)
      fun ending => (ends ending).not.mpr (none ending)
  | failing at' unsent clear failed only =>
    exact .failing (thread.trans at') (sent.trans unsent) (response.trans clear) failed
      fun other => (ends other).trans (only other)
  | answered at' all answers only =>
    refine .answered ?_ ?_ ?_ fun other => (ends other).trans (only other)
    · rwa [thread,place,sent]
    · rwa [sent,response]
    · rwa [response]

/-- The first ending of the call. -/
theorem only_ending {a : HandlerAction} {ending : Ending}
    (run : machine.exec machine.start actions = some h) (ends : h.ending? s a = some ending)
    (none : ∀ ending, ¬EndedBy actions s ending) (other : Ending) :
    EndedBy (actions ++ [a]) s other ↔ other = ending := by
  rw [endedBy_snoc run,ends]
  simp [none,eq_comm]

theorem Told.unended (told : Told actions h s) (far : h.thread.replying s = none)
    (early : (h.states s).place.answered = false) (unsent : (h.states s).sent = []) :
    (h.states s).response = .clear ∧ ∀ ending, ¬EndedBy actions s ending := by
  cases told with
  | fresh _ _ _ clear none => exact ⟨clear,none⟩
  | failing at' => rw [far] at at'; contradiction
  | answered at' => simp [far,early,unsent] at at'

/-- While a callback is to come or under way the event thread is past `InferAsync`, and nothing
was sent. -/
theorem Sane.unsettled (sane : h.Sane) (unsettled : ¬(h.states s).place.settled) :
    h.thread.replying s = none ∧ (h.states s).sent = [] := by
  have unsent (out : (h.facet s).Out) : (h.states s).sent = [] := by
    have none : (h.facet s).sent = 0 := by
      cases out with
      | pending _ is | answering is => rw [is]
      | answered settled => exact absurd settled unsettled
    exact List.length_eq_zero_iff.mp none
  by_cases held : h.thread.tag? = some s
  · obtain ⟨⟨t,at'⟩,out⟩ := (sane.held s held).out_of_unsettled unsettled
    exact ⟨by rw [at']; rfl,unsent out⟩
  · exact ⟨EventPc.replying_none held,unsent ((sane.rests s held).out_of_unsettled unsettled)⟩

/-- A state whose call is constructed, or passed to `InferAsync`, has sent nothing. -/
theorem Sane.constructing (sane : h.Sane) (at' : h.thread = .constructing s) :
    (h.states s).place = .absent ∧ (h.states s).sent = [] := by
  have mine : (h.facet s).Held (.constructing s) := at' ▸ sane.held s (at' ▸ rfl)
  have held : h.facet s = ⟨true,.process,.absent,0,0,0,0⟩ := mine
  exact ⟨congrArg Facet.place held,List.length_eq_zero_iff.mp (congrArg Facet.sent held)⟩

theorem Sane.inferring (sane : h.Sane) (at' : h.thread = .inferring s) :
    (h.states s).place = .constructed ∧ (h.states s).sent = [] := by
  have mine : (h.facet s).Held (.inferring s) := at' ▸ sane.held s (at' ▸ rfl)
  have held : h.facet s = ⟨true,.process,.constructed,0,0,0,0⟩ := mine
  exact ⟨congrArg Facet.place held,List.length_eq_zero_iff.mp (congrArg Facet.sent held)⟩

theorem onInferCompleted_answers (p : InferencePayload) (status : Status) :
    (Ending.ran status).Answers
      (p.onInferCompleted .clear status (completionMessage status)).2 := by
  by_cases success : status = .success
  · subst status
    simp [Ending.Answers,Ending.status,InferencePayload.onInferCompleted]
  · simp [Ending.Answers,Ending.status,InferencePayload.onInferCompleted,success,
      completionMessage]

theorem payload_told {t : Nat} {a : PayloadAction} (sane : h.Sane)
    (run : machine.exec machine.start actions = some h) (taken : h.payloadStep t a = some h')
    (told : ∀ s, Told actions h s) (s : Nat) : Told (actions ++ [.payload t a]) h' s := by
  have thread := (payloadStep_callback taken).thread
  have same : h'.thread.replying s = h.thread.replying s := by rw [thread]
  by_cases other : s ≠ t
  · have silent : h.ending? s (.payload t a) = none := by
      cases a <;> simp [ending?,Ne.symm other]
    have still : h'.states s = h.states s := by
      simp only [payloadStep] at taken
      split at taken <;> cases taken <;>
        simp [place,setFinish,finish,setState,Function.update_of_ne other]
    exact (told s).keep run same (by rw [still]) (by rw [still]) (by rw [still]) silent
  · obtain rfl : s = t := not_not.mp other
    simp only [payloadStep] at taken
    split at taken
    case h_4 there =>
      cases taken
      obtain ⟨far,unsent⟩ := sane.unsettled (s := s) (by rw [there]; simp [PayloadPlace.settled])
      obtain ⟨clear,none⟩ := (told s).unended far (by rw [there]; rfl) unsent
      refine .answered (.inr ⟨far,.inl ?_⟩) ?_ ?_ (only_ending run (if_pos rfl) none)
      · simp [setState,PayloadPlace.answered]
      · simp [setState,unsent]
      · simpa [setState,clear] using onInferCompleted_answers _ _
    case h_6 there =>
      cases taken
      obtain ⟨far,unsent⟩ := sane.unsettled (s := s) (by rw [there]; simp [PayloadPlace.settled])
      have ends (ending : Ending) :
          EndedBy (actions ++ [.payload s .finish]) s ending ↔ EndedBy actions s ending := by
        rw [endedBy_snoc run]
        simp [ending?]
      cases told s with
      | fresh _ early => rw [there] at early; contradiction
      | failing at' => rw [far] at at'; contradiction
      | answered _ _ answers only =>
        refine .answered (.inr ⟨far,.inl ?_⟩) ?_ ?_ fun other => (ends other).trans (only other)
        · simp [place,setState,PayloadPlace.answered]
        · simp [place,finish,setState,unsent]
        · simpa [place,finish,setState] using answers
    case h_7 => contradiction
    all_goals
      next there =>
      cases taken
      refine (told s).keep run same ?_ ?_ ?_ rfl <;>
        simp [place,setFinish,setState,there,PayloadPlace.answered]

theorem event_ending {a : EventAction} {ending : Ending}
    (ends : h.ending? s (.event a) = some ending) :
    (∃ throws, a = .construct throws) ∧ h.thread = .constructing s ∨
      (∃ outcome, a = .inferAsync outcome) ∧ h.thread = .inferring s := by
  unfold ending? at ends
  split at ends
  next same =>
    cases same
    exact .inl ⟨⟨_,rfl⟩,(Option.ite_none_right_eq_some.mp ends).1⟩
  next same =>
    cases same
    exact .inr ⟨⟨_,rfl⟩,(Option.ite_none_right_eq_some.mp ends).1⟩
  next same => contradiction
  · contradiction

theorem Told.update {a : EventAction} {t : Nat} {state : HandlerState} (told : Told actions h s)
    (run : machine.exec machine.start actions = some h)
    (states : h'.states = Function.update h.states t state)
    (thread : h'.thread.replying s = h.thread.replying s)
    (place : state.place.answered = (h.states t).place.answered)
    (sent : state.sent = (h.states t).sent) (response : state.response = (h.states t).response)
    (silent : h.ending? s (.event a) = none) : Told (actions ++ [.event a]) h' s := by
  by_cases same : s = t
  · subst t
    have now : h'.states s = state := by rw [states,Function.update_self]
    exact told.keep run thread (by rw [now,place]) (by rw [now,sent]) (by rw [now,response]) silent
  · have now : h'.states s = h.states s := by rw [states,Function.update_of_ne same]
    exact told.keep run thread (by rw [now]) (by rw [now]) (by rw [now]) silent

theorem Told.pass {a : EventAction} (told : Told actions h s)
    (run : machine.exec machine.start actions = some h) (states : h'.states = h.states)
    (thread : h'.thread.replying s = h.thread.replying s)
    (silent : h.ending? s (.event a) = none) : Told (actions ++ [.event a]) h' s :=
  told.keep run thread (by rw [states]) (by rw [states]) (by rw [states]) silent

theorem start_told {a : EventAction} (sane : h.Sane) (free : h.thread.tag? ≠ some h.next)
    (run : machine.exec machine.start actions = some h) (told : ∀ s, Told actions h s)
    (thread : h'.thread.replying s = h.thread.replying s)
    (states : h'.states = h.startNewRequest.states) (silent : h.ending? s (.event a) = none) :
    Told (actions ++ [.event a]) h' s := by
  have new := sane.new free
  have place : (h.states h.next).place = .absent := congrArg Facet.place new
  have sent : (h.states h.next).sent = [] :=
    List.length_eq_zero_iff.mp (congrArg Facet.sent new)
  obtain ⟨clear,_⟩ := (told h.next).unended (EventPc.replying_none free) (by rw [place]; rfl) sent
  exact (told s).update run states thread (by rw [place]; rfl) sent.symm clear.symm silent

/-- `TakeAction` ends a call with nothing written or sent before. -/
theorem failing_told {a : EventAction} {ending : Ending} (told : Told actions h s)
    (run : machine.exec machine.start actions = some h) (far : h.thread.replying s = none)
    (early : (h.states s).place.answered = false) (unsent : (h.states s).sent = [])
    (ends : h.ending? s (.event a) = some ending) (failed : ending.status ≠ .success) :
    Told (actions ++ [.event a]) { h with thread := .failing s ending.status } s := by
  obtain ⟨clear,none⟩ := told.unended far early unsent
  exact .failing (if_pos rfl) unsent clear failed (only_ending run ends none)

theorem fail_told {status : Status} (told : Told actions h s)
    (run : machine.exec machine.start actions = some h) (at' : h.thread = .failing s status)
    (silent : h.ending? s (.event .fail) = none) :
    Told (actions ++ [.event .fail])
      { h.failResponse s status with thread := .completing s } s := by
  have far : h.thread.replying s = some (some status) := by rw [at']; exact if_pos rfl
  cases told with
  | fresh none => rw [far] at none; contradiction
  | answered there =>
    rw [far] at there
    simp at there
  | @failing ending there unsent clear failed only =>
    obtain rfl : status = ending.status := by simpa [far] using there
    have ends (other : Ending) :
        EndedBy (actions ++ [.event .fail]) s other ↔ EndedBy actions s other := by
      rw [endedBy_snoc run,silent]
      simp
    refine .answered (.inl (if_pos rfl)) ?_ ?_ fun other => (ends other).trans (only other)
    · simp [failResponse,setState,unsent]
    · rw [Ending.Answers,if_neg failed]
      simp [failResponse,setState,clear,InferResponse.clear]

theorem finish_told (sane : h.Sane) (told : Told actions h s)
    (run : machine.exec machine.start actions = some h) (at' : h.thread = .finishing s)
    (silent : h.ending? s (.event .finish) = none) :
    Told (actions ++ [.event .finish]) { h.finish s with thread := .waiting } s := by
  have far : h.thread.replying s = some none := by rw [at']; exact if_pos rfl
  have unsent : (h.states s).sent = [] := by
    have held : (h.facet s).Held (.finishing s) := at' ▸ sane.held s (at' ▸ rfl)
    exact List.length_eq_zero_iff.mp (congrArg Facet.sent held.2)
  cases told with
  | fresh none => rw [far] at none; contradiction
  | failing there => simp [far] at there
  | answered _ _ answers only =>
    have ends (other : Ending) :
        EndedBy (actions ++ [.event .finish]) s other ↔ EndedBy actions s other := by
      rw [endedBy_snoc run,silent]
      simp
    refine .answered (.inr ⟨rfl,.inr ?_⟩) ?_ ?_ fun other => (ends other).trans (only other)
    · simp [finish,setState]
    · simp [finish,setState,unsent]
    · simpa [finish,setState] using answers

theorem event_told {a : EventAction} (sane : h.Sane)
    (run : machine.exec machine.start actions = some h) (taken : h.eventStep a = some h')
    (told : ∀ s, Told actions h s) (s : Nat) : Told (actions ++ [.event a]) h' s := by
  have silent {pc : EventPc} (at' : h.thread = pc) (first : pc ≠ .constructing s)
      (second : pc ≠ .inferring s) : h.ending? s (.event a) = none := by
    by_contra some
    obtain ⟨ending,ends⟩ := Option.ne_none_iff_exists'.mp some
    rcases event_ending ends with ⟨_,there⟩ | ⟨_,there⟩
    · exact first (at'.symm.trans there)
    · exact second (at'.symm.trans there)
  have free {pc pc' : EventPc} {t : Nat} (at' : h.thread = pc) (was : pc.tag? = some t)
      (now : pc'.tag? = some t ∨ pc'.tag? = none) (other : s ≠ t) :
      pc'.replying s = h.thread.replying s := by
    have apart {pc : EventPc} (tag : pc.tag? = some t ∨ pc.tag? = none) : pc.tag? ≠ some s := by
      rcases tag with tag | tag <;> rw [tag]
      · exact fun there => other (Option.some.inj there).symm
      · simp
    rw [at',EventPc.replying_none (apart now),EventPc.replying_none (apart (.inl was))]
  unfold eventStep at taken
  split at taken
  case h_1 at' =>
    cases taken
    exact start_told sane (by simp [at',EventPc.tag?]) run told (by rw [at']; rfl) rfl
      (silent at' (by simp) (by simp))
  case h_2 at' =>
    obtain ⟨g,delivered,rfl⟩ := Option.map_eq_some_iff.mp taken
    have states : g.states = h.states := by
      unfold deliver at delivered
      split at delivered <;> (split at delivered <;> cases delivered; rfl)
    exact (told s).pass run states (by rw [at']; rfl) (silent at' (by simp) (by simp))
  case h_3 at' =>
    split at taken <;> cases taken
    exact (told s).pass run rfl (by rw [at']; rfl) (silent at' (by simp) (by simp))
  case h_4 e at' | h_6 e at' =>
    split at taken <;> cases taken <;>
      exact (told s).pass run rfl (by rw [at']; rfl) (silent at' (by simp) (by simp))
  case h_5 e at' =>
    cases taken
    exact (told s).update run rfl (by rw [at']; rfl) rfl rfl rfl (silent at' (by simp) (by simp))
  case h_7 e at' =>
    split at taken <;> cases taken
    · exact (told s).update run rfl (by rw [at']; rfl) rfl rfl rfl (silent at' (by simp) (by simp))
    · exact (told s).pass run rfl (by rw [at']; rfl) (silent at' (by simp) (by simp))
  case h_8 t at' =>
    cases taken
    exact start_told sane (sane.registering_free at') run told (by rw [at']; rfl) rfl
      (silent at' (by simp) (by simp))
  case h_9 t at' =>
    cases taken
    exact (told s).update run rfl (by rw [at']; rfl) rfl rfl rfl (silent at' (by simp) (by simp))
  case h_10 t throws at' =>
    obtain ⟨place,unsent⟩ := sane.constructing at'
    split at taken <;> cases taken
    next thrown =>
      subst thrown
      by_cases same : s = t
      · subst t
        have ends : h.ending? s (.event (.construct true)) = some .threw := if_pos at'
        exact failing_told (told s) run (by rw [at']; rfl) (by rw [place]; rfl) unsent ends
          (by simp [Ending.status])
      · exact (told s).pass run rfl (free at' rfl (.inl rfl) same)
          (silent at' (by simpa using Ne.symm same) (by simp))
    next built =>
      have quiet : h.ending? s (.event (.construct throws)) = none := by
        cases throws <;> first | rfl | exact absurd rfl built
      exact (told s).update run rfl (by rw [at']; rfl) (by rw [place]; rfl) rfl rfl quiet
  case h_11 t at' | h_12 t at' =>
    cases taken
    obtain ⟨place,_⟩ := sane.inferring at'
    exact (told s).update run rfl (by rw [at']; rfl) (by rw [place]; rfl) rfl rfl rfl
  case h_13 t status at' =>
    obtain ⟨place,unsent⟩ := sane.inferring at'
    split at taken <;> cases taken
    next failed =>
      by_cases same : s = t
      · subst t
        have ends : h.ending? s (.event (.inferAsync (.failed status))) = some (.refused status) :=
          if_pos at'
        exact failing_told (told s) run (by rw [at']; rfl) (by rw [place]; rfl) unsent ends failed
      · exact (told s).pass run rfl (free at' rfl (.inl rfl) same)
          (silent at' (by simp) (by simpa using Ne.symm same))
  case h_14 t at' =>
    cases taken
    exact (told s).pass run rfl (by rw [at']; rfl) (silent at' (by simp) (by simp))
  case h_15 t status at' =>
    cases taken
    have quiet := silent at' (by simp) (by simp)
    by_cases same : s = t
    · subst t
      exact fail_told (told s) run at' quiet
    · exact (told s).keep run (free at' rfl (.inl rfl) same) (by simp [failResponse,setState,same])
        (by simp [failResponse,setState,same]) (by simp [failResponse,setState,same]) quiet
  case h_16 t at' =>
    cases taken
    exact (told s).update run rfl (by rw [at']; rfl) rfl rfl rfl (silent at' (by simp) (by simp))
  case h_17 t at' =>
    cases taken
    have quiet := silent at' (by simp) (by simp)
    by_cases same : s = t
    · subst t
      exact finish_told sane (told s) run at' quiet
    · exact (told s).keep run (free at' rfl (.inr rfl) same) (by simp [finish,setState,same])
        (by simp [finish,setState,same]) (by simp [finish,setState,same]) quiet
  case h_18 => contradiction

theorem exec_told (run : machine.exec machine.start actions = some h) (s : Nat) :
    Told actions h s := by
  refine Transition.Machine.exec_invariant (P := fun actions h => ∀ s, Told actions h s) ?_ ?_
    run s
  · refine fun s => .fresh rfl rfl rfl rfl ?_
    rintro ending ⟨before,a,after,_,split,_⟩
    simp at split
  · intro actions h a h' run told taken s
    have sane := reachable_sane (Transition.Machine.exec_reachable .start actions run)
    cases a with
    | event a => exact event_told sane run taken told s
    | payload t a => exact payload_told sane run taken told s

theorem setState_held {t : Nat} {state : HandlerState}
    (kept : state.place = .held → (h.states t).place = .held)
    (there : ((h.setState t state).states s).place = .held) : (h.states s).place = .held := by
  by_cases same : s = t
  · subst t
    exact kept (by simpa [setState] using there)
  · simpa [setState,Function.update_of_ne same] using there

/-- Only `pop` brings a payload to a worker. -/
theorem step_held {a : HandlerAction} (taken : h.step a = some h')
    (before : (h.states s).place ≠ .held) (there : (h'.states s).place = .held) :
    (h.states s).place = .queued := by
  cases a with
  | payload t a =>
    simp only [step,payloadStep] at taken
    split at taken
    case h_1 queued =>
      by_cases same : s = t
      · exact same ▸ queued
      · cases taken
        exact absurd (by simpa [place,setState,Function.update_of_ne same] using there) before
    case h_7 => contradiction
    case h_5 | h_6 =>
      cases taken
      by_cases same : s = t
      · simp [place,setState,same] at there
      · exact absurd (by simpa [place,setFinish,finish,setState,same] using there) before
    all_goals
      cases taken
      exact absurd (setState_held (by simp) there) before
  | event a =>
    exfalso
    apply before
    simp only [step,eventStep] at taken
    split at taken
    case h_2 =>
      obtain ⟨g,delivered,rfl⟩ := Option.map_eq_some_iff.mp taken
      unfold deliver at delivered
      split at delivered <;> (split at delivered <;> cases delivered; exact there)
    case h_3 | h_4 | h_6 | h_13 => split at taken <;> cases taken <;> exact there
    case h_7 | h_10 =>
      split at taken <;> cases taken
      all_goals first | exact there | exact setState_held (by simp) there
    case h_14 => cases taken; exact there
    case h_18 => contradiction
    all_goals
      cases taken
      exact setState_held (by simp [HandlerState.reset]) there

theorem held_accepted (run : machine.exec machine.start actions = some h) :
    ∀ s, (h.states s).place = .held → Accepted actions s := by
  refine Transition.Machine.exec_invariant
    (P := fun actions h => ∀ s, (h.states s).place = .held → Accepted actions s) ?_ ?_ run
  · simp [machine,create,HandlerState.reset]
  · intro actions h a h' run valid taken s there
    by_cases before : (h.states s).place = .held
    · exact (valid s before).extend [a]
    · exact (Transition.Machine.Visits.now run (step_held taken before there)).extend [a]

/-- Only a payload that was queued comes to its `Run`. -/
theorem ran_accepted {status : Status} (run : machine.exec machine.start actions = some h)
    (ran : EndedBy actions s (.ran status)) : Accepted actions s := by
  obtain ⟨before,a,after,g,rfl,early,ends⟩ := ran
  rw [Transition.Machine.exec_append,early,Option.bind_some,Transition.Machine.exec] at run
  obtain ⟨g',taken,_⟩ := Option.bind_eq_some_iff.mp run
  refine (held_accepted early s ?_).extend (a :: after)
  unfold ending? at ends
  split at ends
  case h_3 t status' =>
    obtain ⟨rfl,_⟩ := Option.ite_none_right_eq_some.mp ends
    have stepped : g.payloadStep t (.complete status') = some g' := taken
    simp only [payloadStep] at stepped
    split at stepped <;> first | assumption | contradiction
  all_goals simp at ends

theorem print_nonempty (status : Status) : status.print ≠ "" := by
  cases status <;> decide

/-- A response that is passed to `Finish` says `SUCCESS` exactly if the call was accepted and
its `Run` returned `Success`. Otherwise it says `INTERNAL`, with the printed status of the way
the call ended, and nothing else, whatever outputs were registered. -/
theorem reply_reflects_outcome {actions : List HandlerAction} {h : Handler}
    (run : machine.exec machine.start actions = some h) (s : Nat) (response : InferResponse)
    (sent : response ∈ (h.states s).sent) :
    ∃ status, response.requestStatus = some status ∧ status.code ≠ .invalid ∧
      (status.code = .success ↔ Accepted actions s ∧ EndedBy actions s (.ran .success)) ∧
      (status.code ≠ .success → status.code = .internal ∧ status.msg ≠ "" ∧
        (∃ ending, EndedBy actions s ending ∧ status.msg = ending.status.print) ∧
        response.metaData = [] ∧ response.rawOutput = [] ∧ response.tensors = []) := by
  cases exec_told run s with
  | fresh _ _ unsent => simp [unsent] at sent
  | failing _ unsent => simp [unsent] at sent
  | @answered ending _ all answers only =>
    rw [← all response sent] at answers
    unfold Ending.Answers at answers
    split at answers
    next success =>
      obtain ⟨rfl,written⟩ := answers
      have ended : EndedBy actions s (.ran .success) := (only _).mpr rfl
      exact ⟨_,written,by simp,by simpa using ⟨ran_accepted run ended,ended⟩,
        fun other => absurd rfl other⟩
    next failed =>
      have unsuccessful : ¬EndedBy actions s (.ran .success) := fun ended => by
        rw [← (only _).mp ended] at failed
        exact failed rfl
      rw [answers]
      refine ⟨_,rfl,by simp,by simp [unsuccessful],fun _ => ⟨rfl,print_nonempty _,?_,rfl,rfl,rfl⟩⟩
      exact ⟨ending,(only _).mpr rfl,rfl⟩

def failedRun : List HandlerAction :=
  [.event .startNewRequest,.event (.next ⟨0,true,false⟩),.event .judge,.event .testStart,
    .event .startNewRequest,.event .setProcess,.event (.construct false),
    .event (.inferAsync .queued),.payload 0 .pop,.payload 0 (.register "y" 0 [7] [1]),
    .payload 0 (.complete .failedGeneric),.payload 0 .setFinish,.payload 0 .finish]

theorem reply_reflects_failure : ∃ (h : Handler) (response : InferResponse),
    (h.states 0).sent = [response] ∧ (h.states 0).payload.responseHeader ≠ [] ∧
    ∃ status, response.requestStatus = some status ∧
      (status.code = .success ↔
        Accepted failedRun 0 ∧ EndedBy failedRun 0 (.ran .success)) := by
  have seen : (machine.exec machine.start failedRun).map
      (fun h => ((h.states 0).sent,(h.states 0).payload.responseHeader)) =
        some ([⟨some ⟨.internal,"Status = 1"⟩,[],[],[]⟩],[⟨"y",[1],1⟩]) := rfl
  obtain ⟨h,run,at'⟩ := Option.map_eq_some_iff.mp seen
  simp only [Prod.mk.injEq] at at'
  obtain ⟨status,written,_,success,_⟩ := reply_reflects_outcome run 0 _
    (by rw [at'.1]; exact List.mem_singleton_self _)
  exact ⟨h,_,at'.1,by simp [at'.2],status,written,success⟩

end Handler
end InferenceServer
