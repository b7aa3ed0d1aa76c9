import InferenceServer.HandlerLife
import InferenceServer.Simulation

/-! `StatusHandler` and `HealthHandler`: the template `Handler` with a `TakeAction` that has the
answer in hand when it returns. Their event thread goes the way of `InferHandler`'s when a payload
cannot be built, so what holds of that one's states holds of theirs. -/
namespace InferenceServer

/-- A `HandlerState`. `sent` and `deletions` are as in `HandlerState`. -/
structure CallState (κ ρ : Type) where
  step : CallStep
  request : κ
  response : ρ
  sent : List ρ
  deletions : Nat

/-- The place of the event thread; `asking` is inside `GetStatus` or `GetHealth`. -/
inductive CallPc where
  | starting
  | waiting
  | judging (e : CqEvent)
  | closing (e : CqEvent)
  | testingStart (e : CqEvent)
  | testingFinish (e : CqEvent)
  | registering (s : Nat)
  | stepping (s : Nat)
  | asking (s : Nat)
  | completing (s : Nat)
  | finishing (s : Nat)
  | exited
  deriving DecidableEq, Repr

def CallPc.event : CallPc → EventPc
  | .starting => .starting
  | .waiting => .waiting
  | .judging e => .judging e
  | .closing e => .closing e
  | .testingStart e => .testingStart e
  | .testingFinish e => .testingFinish e
  | .registering s => .registering s
  | .stepping s => .stepping s
  | .asking s => .constructing s
  | .completing s => .completing s
  | .finishing s => .finishing s
  | .exited => .exited

def CallPc.replying? : CallPc → Option Nat
  | .completing s | .finishing s => some s
  | _ => none

structure SyncHandler (κ ρ : Type) where
  states : Nat → CallState κ ρ
  next : Nat
  registered : List Nat
  finished : List Nat
  thread : CallPc
  closed : Bool

inductive SyncAction (κ ρ : Type) where
  | startNewRequest
  | next (e : CqEvent) (request : κ)
  | drained
  | judge
  | close
  | testStart
  | testFinish
  | setProcess
  | answer (response : ρ)
  | setFinish
  | finish
  deriving DecidableEq, Repr

namespace SyncHandler

variable {κ ρ : Type}

def setState (h : SyncHandler κ ρ) (s : Nat) (state : CallState κ ρ) : SyncHandler κ ρ :=
  { h with states := Function.update h.states s state }

def setStep (h : SyncHandler κ ρ) (s : Nat) (step : CallStep) : SyncHandler κ ρ :=
  h.setState s { h.states s with step := step }

def finish (h : SyncHandler κ ρ) (s : Nat) : SyncHandler κ ρ :=
  { h.setState s { h.states s with sent := (h.states s).sent ++ [(h.states s).response] } with
    finished := s :: h.finished }

def stateRelease (h : SyncHandler κ ρ) (s : Nat) : SyncHandler κ ρ :=
  h.setState s { h.states s with deletions := (h.states s).deletions + 1 }

def arrive (h : SyncHandler κ ρ) (e : CqEvent) (request : κ) : SyncHandler κ ρ :=
  if e.ok then h.setState e.tag { h.states e.tag with request := request } else h

def deliver (h : SyncHandler κ ρ) (e : CqEvent) (request : κ) : Option (SyncHandler κ ρ) :=
  if e.finishes then
    if e.tag ∈ h.finished then some { h with finished := h.finished.erase e.tag } else none
  else if e.tag ∈ h.registered then
    some { h.arrive e request with
      registered := h.registered.erase e.tag, closed := h.closed || !e.ok }
  else none

section Machine

variable [Inhabited κ] [Inhabited ρ]

def reset : CallState κ ρ := ⟨.start,default,default,[],0⟩

def create : SyncHandler κ ρ := ⟨fun _ => reset,0,[],[],.starting,false⟩

def startNewRequest (h : SyncHandler κ ρ) : SyncHandler κ ρ :=
  { h.setState h.next { reset with step := .start } with
    next := h.next + 1, registered := h.next :: h.registered }

def step (h : SyncHandler κ ρ) (a : SyncAction κ ρ) : Option (SyncHandler κ ρ) :=
  match h.thread, a with
  | .starting, .startNewRequest => some { h.startNewRequest with thread := .waiting }
  | .waiting, .next e request =>
    (h.deliver e request).map fun h => { h with thread := .judging e }
  | .waiting, .drained =>
    if h.registered = [] ∧ h.finished = [] then some { h with thread := .exited } else none
  | .judging e, .judge =>
    if !e.ok ∧ (h.states e.tag).step = .start then some { h with thread := .closing e }
    else some { h with thread := .testingStart e }
  | .closing e, .close => some { h.setStep e.tag .finish with thread := .testingStart e }
  | .testingStart e, .testStart =>
    if (h.states e.tag).step = .start then some { h with thread := .registering e.tag }
    else some { h with thread := .testingFinish e }
  | .testingFinish e, .testFinish =>
    if (h.states e.tag).step = .finish then
      some { h.stateRelease e.tag with thread := .waiting }
    else some { h with thread := .waiting }
  | .registering s, .startNewRequest => some { h.startNewRequest with thread := .stepping s }
  | .stepping s, .setProcess => some { h.setStep s .process with thread := .asking s }
  | .asking s, .answer response =>
    some { h.setState s { h.states s with response := response } with thread := .completing s }
  | .completing s, .setFinish => some { h.setStep s .finish with thread := .finishing s }
  | .finishing s, .finish => some { h.finish s with thread := .waiting }
  | _, _ => none

variable (κ ρ) in
def machine : Transition.Machine (SyncHandler κ ρ) (SyncAction κ ρ) := ⟨create,step⟩

end Machine

structure StateShows (state : CallState κ ρ) (shown : HandlerState) : Prop where
  step : shown.step = state.step
  sent : shown.sent.length = state.sent.length
  deletions : shown.deletions = state.deletions

structure Shows (h : SyncHandler κ ρ) (g : Handler) : Prop where
  states : ∀ s, StateShows (h.states s) (g.states s)
  next : g.next = h.next
  registered : g.registered = h.registered
  finished : g.finished = h.finished
  thread : g.thread = h.thread.event
  closed : g.closed = h.closed

variable {h h' : SyncHandler κ ρ} {g : Handler}

theorem Shows.set (shows : Shows h g) (s : Nat) (state : CallState κ ρ) (shown : HandlerState)
    (mine : StateShows state shown) : Shows (h.setState s state) (g.setState s shown) where
  states t := by
    by_cases same : t = s
    · subst t
      simpa [setState,Handler.setState] using mine
    · simpa [setState,Handler.setState,Function.update_of_ne same] using shows.states t
  next := shows.next
  registered := shows.registered
  finished := shows.finished
  thread := shows.thread
  closed := shows.closed

theorem Shows.goOn (shows : Shows h g) (pc : CallPc) :
    Shows { h with thread := pc } { g with thread := pc.event } :=
  ⟨shows.states,shows.next,shows.registered,shows.finished,rfl,shows.closed⟩

theorem Shows.setStep (shows : Shows h g) (s : Nat) (step : CallStep) :
    Shows (h.setStep s step) (g.setState s { g.states s with step := step }) :=
  shows.set s _ _ ⟨rfl,(shows.states s).sent,(shows.states s).deletions⟩

theorem Shows.finish (shows : Shows h g) (s : Nat) : Shows (h.finish s) (g.finish s) := by
  have state := shows.states s
  have set := shows.set s
    { h.states s with sent := (h.states s).sent ++ [(h.states s).response] }
    { g.states s with sent := (g.states s).sent ++ [(g.states s).response] }
    ⟨state.step,by simp [state.sent],state.deletions⟩
  exact ⟨set.states,set.next,set.registered,congrArg (s :: ·) shows.finished,set.thread,set.closed⟩

theorem Shows.stateRelease (shows : Shows h g) (s : Nat) :
    Shows (h.stateRelease s) (g.stateRelease s) :=
  shows.set s _ _ ⟨(shows.states s).step,(shows.states s).sent,by simp [(shows.states s).deletions]⟩

theorem Shows.arrive (shows : Shows h g) (e : CqEvent) (request : κ) :
    Shows (h.arrive e request) g := by
  unfold SyncHandler.arrive
  split
  · have state := shows.states e.tag
    have set := shows.set e.tag { h.states e.tag with request := request } _
      ⟨state.step,state.sent,state.deletions⟩
    rwa [Handler.setState,Function.update_eq_self] at set
  · exact shows

theorem Shows.deliver (shows : Shows h g) {e : CqEvent} {request : κ}
    (delivered : h.deliver e request = some h') :
    ∃ g', g.deliver e = some g' ∧ Shows h' g' := by
  unfold SyncHandler.deliver at delivered
  unfold Handler.deliver
  split at delivered
  next finishes =>
    split at delivered <;> cases delivered
    next member =>
      rw [if_pos finishes,if_pos (shows.finished ▸ member)]
      exact ⟨_,rfl,shows.states,shows.next,shows.registered,
        congrArg (·.erase e.tag) shows.finished,shows.thread,shows.closed⟩
  next starts =>
    split at delivered <;> cases delivered
    next member =>
      rw [if_neg starts,if_pos (shows.registered ▸ member)]
      have arrived := shows.arrive e request
      exact ⟨_,rfl,arrived.states,arrived.next,congrArg (·.erase e.tag) shows.registered,
        arrived.finished,arrived.thread,congrArg (· || !e.ok) shows.closed⟩

/-- What a step does to state `s` and to the reply that is being made in it. -/
structure Does (h : SyncHandler κ ρ) (a : SyncAction κ ρ) (h' : SyncHandler κ ρ) (s : Nat) :
    Prop where
  start : (h'.states s).step = .start → (h.states s).step = .start
  request : (h'.states s).request = (h.states s).request ∨
    (h.states s).step = .start ∧ (h'.states s).sent = []
  sent : ∀ r ∈ (h'.states s).sent, r ∈ (h.states s).sent ∨
    h.thread = .finishing s ∧ r = (h.states s).response
  deletions : (h'.states s).deletions = (h.states s).deletions ∨
    ∃ e, h.thread = .testingFinish e ∧ e.tag = s
  replying : h'.thread = .completing s ∨ h'.thread = .finishing s →
    (h'.states s).request = (h.states s).request ∧
      (a = .answer (h'.states s).response ∧ h.thread = .asking s ∨
        h.thread = .completing s ∧ (h'.states s).response = (h.states s).response)

/-- A step that replies to nothing. -/
theorem does_quiet {a : SyncAction κ ρ} {s : Nat}
    (start : (h'.states s).step = .start → (h.states s).step = .start)
    (request : (h'.states s).request = (h.states s).request ∨
      (h.states s).step = .start ∧ (h'.states s).sent = [])
    (sent : (h'.states s).sent = (h.states s).sent ∨ (h'.states s).sent = [])
    (deletions : (h'.states s).deletions = (h.states s).deletions ∨
      ∃ e, h.thread = .testingFinish e ∧ e.tag = s)
    (idle : h'.thread.replying? ≠ some s) : Does h a h' s where
  start := start
  request := request
  deletions := deletions
  sent r member := by
    rcases sent with same | none
    · exact .inl (same ▸ member)
    · simp [none] at member
  replying there := by
    rcases there with at' | at' <;> exact absurd (by rw [at',CallPc.replying?]) idle

theorem does_set {a : SyncAction κ ρ} {s t : Nat} {state : CallState κ ρ}
    (states : h'.states = Function.update h.states t state)
    (start : state.step = .start → (h.states t).step = .start)
    (request : state.request = (h.states t).request) (sent : state.sent = (h.states t).sent)
    (deletions : state.deletions = (h.states t).deletions ∨
      ∃ e, h.thread = .testingFinish e ∧ e.tag = t)
    (idle : h'.thread.replying? ≠ some s) : Does h a h' s := by
  by_cases mine : s = t
  · subst s
    refine does_quiet ?_ ?_ ?_ ?_ idle <;> simp only [states,Function.update_self]
    · exact start
    · exact .inl request
    · exact .inl sent
    · exact deletions
  · refine does_quiet ?_ ?_ ?_ ?_ idle <;> simp [states,Function.update_of_ne mine]

variable [Inhabited κ] [Inhabited ρ]

theorem Shows.startNewRequest (shows : Shows h g) :
    Shows h.startNewRequest g.startNewRequest := by
  have set := shows.set h.next { reset with step := .start }
    { HandlerState.reset with step := .start } ⟨rfl,rfl,rfl⟩
  refine ⟨?_,congrArg (· + 1) shows.next,?_,shows.finished,shows.thread,shows.closed⟩
  · rw [Handler.startNewRequest,shows.next]
    exact set.states
  · simp only [SyncHandler.startNewRequest,Handler.startNewRequest,shows.next,shows.registered]

theorem answered_by {a : SyncAction κ ρ} (shows : Shows h g) (taken : h.step a = some h') :
    ∃ actions g', Handler.machine.exec g actions = some g' ∧ Shows h' g' := by
  have thread := shows.thread
  have one {g' : Handler} (b : EventAction) (does : g.eventStep b = some g')
      (there : Shows h' g') :
      ∃ actions g', Handler.machine.exec g actions = some g' ∧ Shows h' g' :=
    ⟨[.event b],g',Transition.Machine.exec_singleton does,there⟩
  unfold step at taken
  split at taken
  all_goals (try rename_i at'; rw [at'] at thread)
  case h_1 =>
    cases taken
    exact one .startNewRequest (by simp [Handler.eventStep,thread,CallPc.event])
      (shows.startNewRequest.goOn .waiting)
  case h_2 e request =>
    obtain ⟨h₁,delivered,rfl⟩ := Option.map_eq_some_iff.mp taken
    obtain ⟨g',delivers,there⟩ := shows.deliver delivered
    exact one (.next e) (by simp [Handler.eventStep,thread,CallPc.event,delivers])
      (there.goOn (.judging e))
  case h_3 =>
    split at taken <;> cases taken
    next drained =>
      exact one .drained (by
        simp [Handler.eventStep,thread,CallPc.event,shows.registered,shows.finished,drained])
        (shows.goOn .exited)
  case h_4 e =>
    have state := (shows.states e.tag).step
    split at taken <;> cases taken
    next refused =>
      exact one .judge (by simpa [Handler.eventStep,thread,CallPc.event,state] using refused)
        (shows.goOn (.closing e))
    next kept =>
      exact one .judge (by simpa [Handler.eventStep,thread,CallPc.event,state] using kept)
        (shows.goOn (.testingStart e))
  case h_5 e =>
    cases taken
    exact one .close (by simp [Handler.eventStep,thread,CallPc.event,Handler.setFinish])
      ((shows.setStep e.tag .finish).goOn (.testingStart e))
  case h_6 e =>
    have state := (shows.states e.tag).step
    split at taken <;> cases taken
    next first =>
      exact one .testStart (by simp [Handler.eventStep,thread,CallPc.event,state,first])
        (shows.goOn (.registering e.tag))
    next later =>
      exact one .testStart (by simp [Handler.eventStep,thread,CallPc.event,state,later])
        (shows.goOn (.testingFinish e))
  case h_7 e =>
    have state := (shows.states e.tag).step
    split at taken <;> cases taken
    next finished =>
      exact one .testFinish (by simp [Handler.eventStep,thread,CallPc.event,state,finished])
        ((shows.stateRelease e.tag).goOn .waiting)
    next other =>
      exact one .testFinish (by simp [Handler.eventStep,thread,CallPc.event,state,other])
        (shows.goOn .waiting)
  case h_8 s =>
    cases taken
    exact one .startNewRequest (by simp [Handler.eventStep,thread,CallPc.event])
      (shows.startNewRequest.goOn (.stepping s))
  case h_9 s =>
    cases taken
    exact one .setProcess (by simp [Handler.eventStep,thread,CallPc.event])
      ((shows.setStep s .process).goOn (.asking s))
  case h_10 s response =>
    cases taken
    -- the other handler comes here by way of its failure branch
    have state := shows.states s
    have set := shows.set s { h.states s with response := response }
      { g.states s with response := { (g.states s).response with
        requestStatus := some ⟨.internal,Status.failedGeneric.print⟩ } }
      ⟨state.step,state.sent,state.deletions⟩
    refine ⟨[.event (.construct true),.event .fail],_,?_,set.goOn (.completing s)⟩
    simp [Transition.Machine.exec,Handler.machine,Handler.step,Handler.eventStep,thread,
      CallPc.event,Handler.failResponse,Handler.setState]
  case h_11 s =>
    cases taken
    exact one .setFinish (by simp [Handler.eventStep,thread,CallPc.event,Handler.setFinish])
      ((shows.setStep s .finish).goOn (.finishing s))
  case h_12 s =>
    cases taken
    exact one .finish (by simp [Handler.eventStep,thread,CallPc.event])
      ((shows.finish s).goOn .waiting)
  case h_13 => contradiction

theorem simulates : (machine κ ρ).Simulates Handler.machine Shows where
  initial := ⟨fun _ => ⟨rfl,rfl,rfl⟩,rfl,rfl,rfl,rfl,rfl⟩
  answered _ _ _ _ _ _ shows taken := answered_by shows taken

theorem reachable_shown (reach : (machine κ ρ).Reachable h) :
    ∃ g, Handler.machine.Reachable g ∧ Shows h g :=
  simulates.reachable reach

/-- Inside `GetStatus` or `GetHealth` the call is past its first step and has no reply. -/
theorem asking_unsent (reach : (machine κ ρ).Reachable h) {s : Nat} (at' : h.thread = .asking s) :
    (h.states s).step = .process ∧ (h.states s).sent = [] := by
  obtain ⟨g,reach',shows⟩ := reachable_shown reach
  have thread := shows.thread
  rw [at',CallPc.event] at thread
  have held := (Handler.reachable_sane reach').held s (by rw [thread]; rfl)
  rw [thread] at held
  have state := shows.states s
  have unsent : (g.states s).sent.length = 0 := congrArg Facet.sent held
  rw [state.sent] at unsent
  exact ⟨state.step.symm.trans (congrArg Facet.step held),List.length_eq_zero_iff.mp unsent⟩

theorem registered_fresh (reach : (machine κ ρ).Reachable h) (waiting : h.thread = .waiting)
    {s : Nat} (there : s ∈ h.registered) :
    (h.states s).step = .start ∧ (h.states s).sent = [] := by
  obtain ⟨g,reach',shows⟩ := reachable_shown reach
  have free : g.thread.tag? ≠ some s := by
    rw [shows.thread,waiting]
    simp [CallPc.event,EventPc.tag?]
  have some' : 0 < (g.facet s).registrations :=
    List.count_pos_iff.mpr (shows.registered ▸ there)
  have is := ((Handler.reachable_sane reach').rests s free).of_registrations some'
  have state := shows.states s
  have unsent : (g.states s).sent.length = 0 := congrArg Facet.sent is
  rw [state.sent] at unsent
  exact ⟨state.step.symm.trans (congrArg Facet.step is),List.length_eq_zero_iff.mp unsent⟩

/-- The state that is made for the next call had nothing in it. -/
theorem does_new {a : SyncAction κ ρ} {s : Nat} (reach : (machine κ ρ).Reachable h)
    (states : h'.states = h.startNewRequest.states) (free : h.thread.event.tag? ≠ some h.next)
    (idle : h'.thread.replying? ≠ some s) : Does h a h' s := by
  by_cases mine : s = h.next
  · subst s
    obtain ⟨fresh,kept⟩ : (h.states h.next).step = .start ∧ (h.states h.next).deletions = 0 := by
      obtain ⟨g,reach',shows⟩ := reachable_shown reach
      have new := (Handler.reachable_sane reach').new
        (by rw [shows.next,shows.thread]; exact free)
      rw [← (shows.states h.next).step,← (shows.states h.next).deletions,← shows.next]
      exact ⟨congrArg Facet.step new,congrArg Facet.deletions new⟩
    have clear : (h'.states h.next).sent = [] := by
      rw [states]
      simp [startNewRequest,setState,reset]
    have same : (h'.states h.next).deletions = (h.states h.next).deletions := by
      rw [states,kept]
      simp [startNewRequest,setState,reset]
    exact does_quiet (fun _ => fresh) (.inr ⟨fresh,clear⟩) (.inr clear) (.inl same) idle
  · refine does_quiet ?_ ?_ ?_ ?_ idle <;>
      simp [states,startNewRequest,setState,Function.update_of_ne mine]

theorem step_does {a : SyncAction κ ρ} (reach : (machine κ ρ).Reachable h)
    (taken : h.step a = some h') (s : Nat) : Does h a h' s := by
  unfold step at taken
  split at taken
  case h_1 at' =>
    cases taken
    exact does_new reach rfl (by simp [at',CallPc.event,EventPc.tag?]) (by simp [CallPc.replying?])
  case h_2 e request at' =>
    obtain ⟨h₁,delivered,rfl⟩ := Option.map_eq_some_iff.mp taken
    unfold deliver at delivered
    split at delivered
    · split at delivered <;> cases delivered
      exact does_quiet id (.inl rfl) (.inl rfl) (.inl rfl) (by simp [CallPc.replying?])
    · split at delivered <;> cases delivered
      next member =>
        obtain ⟨start,unsent⟩ := registered_fresh reach at' member
        unfold arrive
        split
        · by_cases mine : s = e.tag
          · subst s
            refine does_quiet (fun _ => start) (.inr ⟨start,?_⟩) (.inr ?_) (.inl ?_)
              (by simp [CallPc.replying?])
            · simpa [setState] using unsent
            · simpa [setState] using unsent
            · simp [setState]
          · refine does_quiet ?_ ?_ ?_ ?_ (by simp [CallPc.replying?]) <;>
              simp [setState,Function.update_of_ne mine]
        · exact does_quiet id (.inl rfl) (.inl rfl) (.inl rfl) (by simp [CallPc.replying?])
  case h_3 | h_4 | h_6 =>
    split at taken <;> cases taken <;>
      exact does_quiet id (.inl rfl) (.inl rfl) (.inl rfl) (by simp [CallPc.replying?])
  case h_5 | h_9 =>
    cases taken
    exact does_set rfl (by simp) rfl rfl (.inl rfl) (by simp [CallPc.replying?])
  case h_7 e at' =>
    split at taken <;> cases taken
    · exact does_set rfl id rfl rfl (.inr ⟨e,at',rfl⟩) (by simp [CallPc.replying?])
    · exact does_quiet id (.inl rfl) (.inl rfl) (.inl rfl) (by simp [CallPc.replying?])
  case h_8 t at' =>
    cases taken
    refine does_new reach rfl ?_ (by simp [CallPc.replying?])
    obtain ⟨g,reach',shows⟩ := reachable_shown reach
    rw [← shows.next,← shows.thread]
    exact (Handler.reachable_sane reach').registering_free (by rw [shows.thread,at',CallPc.event])
  case h_10 t response at' =>
    cases taken
    by_cases mine : s = t
    · subst s
      refine ⟨?_,.inl ?_,fun r member => .inl ?_,.inl ?_,fun _ => ⟨?_,.inl ⟨?_,at'⟩⟩⟩
      all_goals simp_all [setState]
    · refine does_quiet ?_ ?_ ?_ ?_ (by simpa [CallPc.replying?] using Ne.symm mine) <;>
        simp [setState,Function.update_of_ne mine]
  case h_11 t at' =>
    cases taken
    by_cases mine : s = t
    · subst s
      refine ⟨?_,.inl ?_,fun r member => .inl ?_,.inl ?_,fun _ => ⟨?_,.inr ⟨at',?_⟩⟩⟩
      all_goals simp_all [setStep,setState]
    · refine does_quiet ?_ ?_ ?_ ?_ (by simpa [CallPc.replying?] using Ne.symm mine) <;>
        simp [setStep,setState,Function.update_of_ne mine]
  case h_12 t at' =>
    cases taken
    by_cases mine : s = t
    · subst s
      refine ⟨?_,.inl ?_,fun r member => ?_,.inl ?_,by simp⟩
      · simp [finish,setState]
      · simp [finish,setState]
      · simp only [finish,setState,Function.update_self,List.mem_append,List.mem_singleton] at member
        exact member.imp_right fun last => ⟨at',last⟩
      · simp [finish,setState]
    · refine does_quiet ?_ ?_ ?_ ?_ (by simp [CallPc.replying?]) <;>
        simp [finish,setState,Function.update_of_ne mine]
  case h_13 => contradiction

/-- A state is deleted after the event of its reply, or after one that is not ok of its
registration. -/
theorem release_causes {a : SyncAction κ ρ} {s : Nat} (reach : (machine κ ρ).Reachable h)
    (taken : h.step a = some h')
    (releases : (h'.states s).deletions ≠ (h.states s).deletions) :
    ∃ e, h.thread = .testingFinish e ∧ e.tag = s ∧
      (e.finishes = true ∧ (h.states s).sent.length = 1 ∨
        e.finishes = false ∧ e.ok = false ∧ (h.states s).sent = []) := by
  obtain ⟨e,at',rfl⟩ := (step_does reach taken s).deletions.resolve_left releases
  refine ⟨e,at',rfl,?_⟩
  obtain ⟨g,reach',shows⟩ := reachable_shown reach
  have thread := shows.thread
  rw [at',CallPc.event] at thread
  have held := (Handler.reachable_sane reach').held e.tag (by rw [thread]; rfl)
  rw [thread] at held
  have sent := (shows.states e.tag).sent
  have held : if e.finishes then (g.facet e.tag).Delivered
    else e.ok = false ∧ g.facet e.tag = .refused := held
  split at held
  next finishes =>
    obtain ⟨_,is⟩ := held
    exact .inl ⟨finishes,sent.symm.trans (congrArg Facet.sent is)⟩
  next starts =>
    obtain ⟨bad,is⟩ := held
    have none : (g.states e.tag).sent.length = 0 := congrArg Facet.sent is
    exact .inr ⟨by simpa using starts,bad,List.length_eq_zero_iff.mp (sent.symm.trans none)⟩

structure Lifecycle (h : SyncHandler κ ρ) : Prop where
  one_registration : h.thread = .waiting → h.closed = false →
    ∃ s, h.registered = [s] ∧ (h.states s).step = .start ∧ (h.states s).deletions = 0
  none_after_closed : h.closed → h.registered = []
  answered_once : ∀ s, (h.states s).sent.length ≤ 1
  released_once : ∀ s, (h.states s).deletions ≤ 1
  finish_event : ∀ e, h.thread ∈ [.judging e,.testingStart e,.testingFinish e] → e.finishes →
    (h.states e.tag).step = .finish ∧ (h.states e.tag).deletions = 0
  released_by_next : h.thread = .waiting → ∀ s, (h.states s).sent ≠ [] → s ∉ h.finished →
    (h.states s).deletions = 1
  release_causes : ∀ s a h', h.step a = some h' →
    (h'.states s).deletions ≠ (h.states s).deletions →
    ∃ e, h.thread = .testingFinish e ∧ e.tag = s ∧
      (e.finishes = true ∧ (h.states s).sent.length = 1 ∨
        e.finishes = false ∧ e.ok = false ∧ (h.states s).sent = [])
  alive : ∀ s, h.thread ∈ [.asking s,.completing s,.finishing s] → (h.states s).deletions = 0 ∧
    (h.states s).sent = []

theorem reachable_lifecycle (run : (machine κ ρ).Reachable h) : h.Lifecycle := by
  obtain ⟨g,reach,shows⟩ := reachable_shown run
  have sane := Handler.reachable_sane reach
  have registers := Handler.reachable_registers reach
  have waiting (at' : h.thread = .waiting) : g.thread = .waiting := by
    rw [shows.thread,at',CallPc.event]
  have empty (s : Nat) : (h.states s).sent = [] ↔ (g.states s).sent.length = 0 := by
    rw [(shows.states s).sent,List.length_eq_zero_iff]
  refine ⟨fun at' opened => ?_,?_,fun s => ?_,fun s => ?_,fun e there finishes => ?_,
    fun at' s sent taken => ?_,fun s a h' => release_causes run,fun s there => ?_⟩
  · obtain ⟨s,only,start,kept⟩ := registers.one sane (waiting at') (shows.closed.trans opened)
    have state := shows.states s
    exact ⟨s,shows.registered.symm.trans only,state.step.symm.trans start,
      state.deletions.symm.trans kept⟩
  · rw [← shows.closed,← shows.registered]
    exact registers.closed
  · rw [← (shows.states s).sent]
    exact (sane.bounds s).1
  · rw [← (shows.states s).deletions]
    exact (sane.bounds s).2.1
  · have there' : g.thread ∈ [.judging e,.testingStart e,.testingFinish e] := by
      simp only [List.mem_cons,List.not_mem_nil,or_false] at there
      rcases there with at' | at' | at' <;> simp [shows.thread,at',CallPc.event]
    have state := shows.states e.tag
    rw [← state.step,← state.deletions]
    exact sane.finish_event there' finishes
  · rw [← (shows.states s).deletions]
    refine sane.released_by_next (waiting at') (fun none => sent ?_) (shows.finished ▸ taken)
    rw [empty,none]
    rfl
  · rw [empty,← (shows.states s).deletions]
    simp only [List.mem_cons,List.not_mem_nil,or_false] at there
    have is : (g.facet s).deletions = 0 ∧ (g.facet s).sent = 0 := by
      rcases there with at' | at' | at'
      all_goals
        have thread := shows.thread
        rw [at',CallPc.event] at thread
        have held := sane.held s (by rw [thread]; rfl)
        rw [thread] at held
      · rw [show g.facet s = _ from held]
        exact ⟨rfl,rfl⟩
      all_goals
        rw [held.2]
        exact ⟨rfl,rfl⟩
    exact is

/-- The call for `s` was answered with `response` to `request`. -/
def Replied (actions : List (SyncAction κ ρ)) (s : Nat) (request : κ) (response : ρ) : Prop :=
  ∃ before after mid, actions = before ++ .answer response :: after ∧
    (machine κ ρ).exec create before = some mid ∧ mid.thread = .asking s ∧
    (mid.states s).request = request

theorem Replied.extend {actions : List (SyncAction κ ρ)} {s : Nat} {request : κ} {response : ρ}
    (replied : Replied actions s request response) (a : SyncAction κ ρ) :
    Replied (actions ++ [a]) s request response := by
  obtain ⟨before,after,mid,rfl,run,asked⟩ := replied
  exact ⟨before,after ++ [a],mid,by simp,run,asked⟩

structure Told (actions : List (SyncAction κ ρ)) (h : SyncHandler κ ρ) : Prop where
  sent : ∀ s, ∀ r ∈ (h.states s).sent, Replied actions s (h.states s).request r
  replying : ∀ s, h.thread = .completing s ∨ h.thread = .finishing s →
    Replied actions s (h.states s).request (h.states s).response

theorem step_told {actions : List (SyncAction κ ρ)} {a : SyncAction κ ρ}
    (run : (machine κ ρ).exec create actions = some h) (told : Told actions h)
    (taken : h.step a = some h') : Told (actions ++ [a]) h' := by
  have reach := Transition.Machine.exec_reachable .start actions run
  refine ⟨fun s r member => ?_,fun s there => ?_⟩
  · have does := step_does reach taken s
    have request : (h'.states s).request = (h.states s).request :=
      does.request.resolve_right fun fresh => by simp [fresh.2] at member
    rw [request]
    rcases does.sent r member with old | ⟨at',rfl⟩
    · exact (told.sent s r old).extend a
    · exact (told.replying s (.inr at')).extend a
  · obtain ⟨request,⟨is,at'⟩ | ⟨at',response⟩⟩ := (step_does reach taken s).replying there
    · exact ⟨actions,[],h,by rw [← is],run,at',request.symm⟩
    · rw [request,response]
      exact (told.replying s (.inl at')).extend a

theorem exec_told {actions : List (SyncAction κ ρ)}
    (run : (machine κ ρ).exec create actions = some h) : Told actions h := by
  have initial : Told ([] : List (SyncAction κ ρ)) create :=
    ⟨by simp [create,reset],by simp [create]⟩
  exact Transition.Machine.exec_invariant (m := machine κ ρ) initial
    (fun _ _ _ _ before told taken => step_told before told taken) run

/-- A handler that answers in `TakeAction` keeps one registration out until the server shuts down,
replies to each call once, with the answer that `TakeAction` got to its request, and deletes each
state once, after its reply's event or after one of its registration that is not ok. -/
theorem answers_once {actions : List (SyncAction κ ρ)}
    (run : (machine κ ρ).exec create actions = some h) : h.Lifecycle ∧
    ∀ s, ∀ r ∈ (h.states s).sent, (h.states s).sent = [r] ∧
      Replied actions s (h.states s).request r := by
  have lifecycle := reachable_lifecycle (Transition.Machine.exec_reachable .start actions run)
  refine ⟨lifecycle,fun s r member => ⟨?_,(exec_told run).sent s r member⟩⟩
  obtain ⟨x,only⟩ := List.length_eq_one_iff.mp
    (Nat.le_antisymm (lifecycle.answered_once s) (List.length_pos_of_mem member))
  rw [only] at member ⊢
  rw [List.mem_singleton.mp member]

/-- One call, answered and released, with the next one registered. -/
theorem answers_once_released : ∃ (h : SyncHandler String Bool),
    (h.thread,h.registered,(h.states 0).sent,(h.states 0).deletions) =
      (.waiting,[1],[true],1) ∧ h.Lifecycle ∧ ∃ actions, Replied actions 0 "live" true := by
  obtain ⟨h,run,seen⟩ := Option.map_eq_some_iff.mp (show ((machine String Bool).exec create
    [.startNewRequest,.next ⟨0,true,false⟩ "live",.judge,.testStart,.startNewRequest,.setProcess,
      .answer true,.setFinish,.finish,.next ⟨0,true,true⟩ "",.judge,.testStart,.testFinish]).map
    (fun h => ((h.thread,h.registered,(h.states 0).sent,(h.states 0).deletions),
      (h.states 0).request)) = some ((.waiting,[1],[true],1),"live") from rfl)
  rw [Prod.mk.injEq] at seen
  obtain ⟨lifecycle,replies⟩ := answers_once run
  have sent : (h.states 0).sent = [true] := by
    have := seen.1
    simp only [Prod.mk.injEq] at this
    exact this.2.2.1
  obtain ⟨_,replied⟩ := replies 0 true (by simp [sent])
  exact ⟨h,seen.1,lifecycle,_,seen.2 ▸ replied⟩

end SyncHandler
end InferenceServer
