import InferenceServer.CallFates

/-! The handler and the server agree: what a state says of its payload is where the server has
it, after every step of the two together. -/
namespace InferenceServer

namespace Handler

variable {h h' : Handler} {s : Nat}

inductive PayloadStep (h : Handler) (s : Nat) : PayloadAction → Handler → Prop where
  | pop : (h.states s).place = .queued → PayloadStep h s .pop (h.place s .held)
  | drop : (h.states s).place = .queued → PayloadStep h s .drop (h.place s .dropped)
  | register {name idx content shape} : (h.states s).place = .held →
      PayloadStep h s (.register name idx content shape) (h.setState s { h.states s with
        payload := (h.states s).payload.registerInferOutput name idx content shape })
  | complete {status} : (h.states s).place = .held →
      PayloadStep h s (.complete status) (h.setState s { h.states s with
        payload := ((h.states s).payload.onInferCompleted (h.states s).response status
          (completionMessage status)).1
        response := ((h.states s).payload.onInferCompleted (h.states s).response status
          (completionMessage status)).2
        place := .completing })
  | setFinish : (h.states s).place = .completing →
      PayloadStep h s .setFinish ((h.setFinish s).place s .finishing)
  | finish : (h.states s).place = .finishing → PayloadStep h s .finish ((h.finish s).place s .issued)

theorem payloadStep_cases {a : PayloadAction} (taken : h.payloadStep s a = some h') :
    PayloadStep h s a h' := by
  unfold payloadStep at taken
  split at taken
  next place => cases taken; exact .pop place
  next place => cases taken; exact .drop place
  next place => cases taken; exact .register place
  next place => cases taken; exact .complete place
  next place => cases taken; exact .setFinish place
  next place => cases taken; exact .finish place
  · contradiction

theorem payloadStep_others {t : Nat} {a : PayloadAction} (taken : PayloadStep h t a h')
    (other : s ≠ t) : h'.states s = h.states s := by
  cases taken <;> simp [place,setFinish,finish,setState,Function.update_of_ne other]

end Handler

namespace System

open Server

variable {config : ServerConfig} {sys sys' : System}

/-- What the server has of each call is what its state in the handler says. -/
def Linked (sys : System) : Prop :=
  ∀ s, sys.server.Fate s (sys.handler.states s).response (sys.handler.states s).sent
    (sys.handler.states s).place

theorem Linked.answered (linked : sys.Linked) {s : Nat}
    (issued : (sys.handler.states s).place = .issued) : (sys.handler.states s).sent ≠ [] := by
  have fate := linked s
  rw [issued] at fate
  cases fate with
  | issued _ _ _ all => simp [all]

theorem Linked.keep (linked : sys.Linked) {s : Nat} (same : sys.handler.SameState sys'.handler s)
    (keeps : Keeps sys.server sys'.server s) :
    sys'.server.Fate s (sys'.handler.states s).response (sys'.handler.states s).sent
      (sys'.handler.states s).place := by
  obtain ⟨place,response,sent⟩ := same
  rw [place,response,sent]
  exact (linked s).keep keeps

theorem same_of_states {h h' : Handler} {s : Nat} (states : h'.states s = h.states s) :
    h.SameState h' s := by
  rw [Handler.SameState,states]
  exact ⟨rfl,rfl,rfl⟩

/-- Both threads that know of a worker's payload know the same status of it. -/
theorem back_unique {sv : Server} (reach : (Server.machine config).Reachable sv) {j k v w : Nat}
    {p q : Payload} {status status' : Status} (back : (sv.schedulers j).Back v p status)
    (back' : (sv.schedulers k).Back w q status') (same : p.id = q.id) :
    j = k ∧ v = w ∧ p = q ∧ status = status' := by
  obtain ⟨idx,f,atV⟩ := back
  obtain ⟨idx',f',atW⟩ := back'
  obtain ⟨rfl,rfl⟩ := holder_unique reach atV atW rfl rfl same
  have one := Option.some.inj (atV.symm.trans atW)
  cases one
  exact ⟨rfl,rfl,rfl,rfl⟩

theorem append_linked {s : Nat} {k : Nat} {p : Payload} {sc : Scheduler Payload Nat}
    {sv : Server} {h : Handler} (linked : sys.Linked)
    (states : h.states = (sys.handler.place s .queued).states) (own : p.id = s)
    (set : sv.schedulers = Function.update sys.server.schedulers k sc)
    (same : sv.destroyed = sys.server.destroyed)
    (longer : sc.queue.buffer = (sys.server.schedulers k).queue.buffer ++ [p])
    (threads : sc.threads = (sys.server.schedulers k).threads)
    (log : sc.log = (sys.server.schedulers k).log ++ [.appended s p]) : Linked ⟨h,sv⟩ := by
  intro t
  by_cases mine : t = s
  · subst t
    have place : (h.states s).place = .queued := by simp [states,Handler.place,Handler.setState]
    rw [place]
    refine .queued (k := k) own ?_
    simp [set,longer]
  · refine linked.keep (same_of_states ?_) (keeps_set set same ?_ ?_ ?_ log ?_)
    · simp [states,Handler.place,Handler.setState,Function.update_of_ne mine]
    · intro q _ member
      rw [longer]
      exact List.mem_append_left _ member
    · intro w q _ holds
      rwa [Scheduler.Holds,threads]
    · intro w q status _ back
      rwa [Scheduler.Back,threads]
    · rintro q ⟨⟩
      exact mine rfl

theorem pop_linked {k w : Nat} {wake : Option Nat} {p : Payload} {sv : Server} {h : Handler}
    (linked : sys.Linked) (taken : sys.server.workerStep k w (.pop wake) = some sv)
    (holds : sv.payloadAt k w = some p) (moved : sys.handler.payloadStep p.id .pop = some h) :
    Linked ⟨h,sv⟩ := by
  have steps := Handler.payloadStep_cases moved
  intro t
  by_cases mine : t = p.id
  · subst t
    cases steps with
    | pop =>
      have place : ((sys.handler.place p.id .held).states p.id).place = .held := by
        simp [Handler.place,Handler.setState]
      rw [place]
      exact .held rfl (payloadAt_iff.mp holds)
  · exact linked.keep (same_of_states (Handler.payloadStep_others steps mine))
      (pop_keeps taken holds mine)

theorem complete_linked {k w : Nat} {p : Payload} {sv : Server} {h : Handler}
    (reach : (machine config).Reachable sys) (linked : sys.Linked)
    (taken : sys.server.workerStep k w .complete = some sv)
    (holds : sys.server.payloadAt k w = some p)
    (moved : sys.handler.payloadStep p.id .finish = some h) : Linked ⟨h,sv⟩ := by
  obtain ⟨handler,server⟩ := reachable_parts reach
  have steps := Handler.payloadStep_cases moved
  intro t
  by_cases mine : t = p.id
  · subst t
    cases steps with
    | finish finishing =>
      obtain ⟨_,unsent⟩ := (Handler.reachable_sane handler).unsettled (s := p.id)
        (by rw [finishing]; simp [PayloadPlace.settled])
      have fate := linked p.id
      rw [finishing] at fate
      obtain ⟨sc,stepped,set,_⟩ := worker_set taken
      obtain ⟨status,back,_,_,_,log⟩ := Scheduler.complete_hands stepped (payloadAt_iff.mp holds)
      cases fate with
      | finishing own there answers =>
        obtain ⟨_,_,_,rfl⟩ := back_unique server back there own.symm
        have place : (((sys.handler.finish p.id).place p.id .issued).states p.id) =
            { sys.handler.states p.id with
              sent := [(sys.handler.states p.id).response], place := .issued } := by
          simp [Handler.place,Handler.finish,Handler.setState,unsent]
        rw [place]
        refine .issued (k := k) (w := w) (p := p) rfl ?_ answers rfl
        simp [set,log]
  · exact linked.keep (same_of_states (Handler.payloadStep_others steps mine))
      (complete_keeps taken holds mine)

/-- A callback that the server sees nothing of. -/
theorem callback_linked {t : Nat} {a : PayloadAction} {h : Handler} (linked : sys.Linked)
    (moved : sys.handler.payloadStep t a = some h)
    (mine : sys.server.Fate t (h.states t).response (h.states t).sent (h.states t).place) :
    Linked ⟨h,sys.server⟩ := by
  intro s
  by_cases same : s = t
  · exact same ▸ mine
  · refine linked.keep
      (same_of_states (Handler.payloadStep_others (Handler.payloadStep_cases moved) same)) ?_
    exact Still.keeps ⟨fun _ => .refl _,fun _ => id⟩ s

theorem respond_linked {k w f : Nat} {i : Int} {p : Payload} {status : Status} {h : Handler}
    (reach : (machine config).Reachable sys) (linked : sys.Linked)
    (atIndex : (sys.server.schedulers k).threads[w]? = some ⟨i,.returned p f status⟩)
    (moved : sys.handler.payloadStep p.id (.complete status) = some h) :
    Linked ⟨h,sys.server⟩ := by
  refine callback_linked linked moved ?_
  cases Handler.payloadStep_cases moved with
  | complete held =>
    have clear := Handler.held_clear (reachable_parts reach).1 held
    simp only [Handler.setState,Function.update_self,clear]
    exact .completing rfl ⟨i,f,atIndex⟩ (Handler.onInferCompleted_answers _ status)

theorem event_linked {a : EventAction} {h : Handler} (reach : (machine config).Reachable sys)
    (linked : sys.Linked) (outside : ∀ outcome, a ≠ .inferAsync outcome)
    (taken : sys.handler.eventStep a = some h) : Linked ⟨h,sys.server⟩ := by
  intro s
  have sane := Handler.reachable_sane (reachable_parts reach).1
  rcases Handler.event_states sane taken outside linked.answered with ⟨early,still⟩ | same
  · exact ((linked s).unappended early).fate still
  · exact linked.keep same (Still.keeps ⟨fun _ => .refl _,fun _ => id⟩ s)

/-- Through `InferAsync`, no push finds a broken queue. -/
theorem outcome_honest {sv : Server} (reach : (Server.machine config).Reachable sv) {s : Nat}
    {a : CallerAction} : sv.outcome s a ≠ some .dropped := by
  intro drops
  unfold outcome at drops
  split at drops
  · split at drops
    next k _ =>
      split at drops
      · contradiction
      next p dropped =>
        have honest := reachable_honest reach k s
        rw [dropped] at honest
        exact honest
      · contradiction
    · contradiction
  · split at drops
    · split at drops <;> simp at drops
    · contradiction
  · split at drops
    · split at drops <;> simp at drops
    · contradiction
  · contradiction

theorem step_linked {a : SystemAction} (reach : (machine config).Reachable sys)
    (linked : sys.Linked) (taken : sys.step a = some sys') : sys'.Linked := by
  obtain ⟨_,server⟩ := reachable_parts reach
  obtain ⟨_,server'⟩ := reachable_parts (.step reach taken)
  have still {sv : Server} (still : Still sys.server sv) : Linked ⟨sys.handler,sv⟩ :=
    fun s => (linked s).keep (still.keeps s)
  cases step_cases taken with
  | event outside _ stepped => exact event_linked reach linked outside stepped
  | infer _ stepped silent =>
    rcases caller_hands server stepped with ⟨quiet,_⟩ | ⟨queued,_⟩
    · exact still quiet
    · rw [silent] at queued
      contradiction
  | @answer s _ _ outcome _ at' stepped settled answered =>
    obtain ⟨t,here,states⟩ := Handler.inferAsync_states answered
    obtain rfl : t = s := by
      rcases at' with at' | at' <;> rw [here] at at' <;> cases at'
      rfl
    rcases caller_hands server stepped with
      ⟨quiet,other⟩ | ⟨queued,k,p,sc,own,set,same,longer,threads,log⟩
    · cases outcome with
      | queued => exact absurd settled other
      | dropped => exact absurd settled (outcome_honest server')
      | failed =>
        intro s
        exact linked.keep (same_of_states (congrFun states s)) (quiet.keeps s)
    · cases settled.symm.trans queued
      exact append_linked linked states own set same longer threads log
  | @work k w a sv stepped open' empty =>
    obtain ⟨sc,moved,set,same⟩ := worker_set stepped
    refine still (still_set set same (Scheduler.worker_still moved open' ?_))
    intro wake pops p holds
    have nothing := empty wake pops
    have there : sv.payloadAt k w = some p := by
      rw [payloadAt_iff,set,Function.update_self]
      exact holds
    rw [nothing] at there
    contradiction
  | pop stepped holds moved => exact pop_linked linked stepped holds moved
  | complete stepped holds moved => exact complete_linked reach linked stepped holds moved
  | @register _ _ _ p _ _ _ _ _ _ _ moved =>
    refine callback_linked linked moved ?_
    have fate := linked p.id
    cases Handler.payloadStep_cases moved with
    | register => simpa [Handler.setState] using fate
  | respond atIndex moved => exact respond_linked reach linked atIndex moved
  | @setFinish _ _ _ p _ _ _ _ moved =>
    refine callback_linked linked moved ?_
    have fate := linked p.id
    cases Handler.payloadStep_cases moved with
    | setFinish completing =>
      rw [completing] at fate
      cases fate with
      | completing own back answers =>
        have place : (((sys.handler.setFinish p.id).place p.id .finishing).states p.id) =
            { sys.handler.states p.id with step := .finish, place := .finishing } := by
          simp [Handler.place,Handler.setFinish,Handler.setState]
        rw [place]
        exact .finishing own back answers
  | @drop k p _ gone member moved =>
    refine callback_linked linked moved ?_
    cases Handler.payloadStep_cases moved with
    | drop =>
      have place : ((sys.handler.place p.id .dropped).states p.id).place = .dropped := by
        simp [Handler.place,Handler.setState]
      rw [place]
      exact .dropped rfl member gone
  | other stepped noCall noWork => exact still (other_still server stepped noCall noWork)

theorem reachable_linked (reach : (machine config).Reachable sys) : sys.Linked := by
  have initial : (create config).Linked := fun _ => .absent fun _ _ => by
    simp [create,Server.create,Scheduler.create]
  refine reach.invariant initial ?_
  intro sys a sys' before linked taken
  exact step_linked before linked taken

end System
end InferenceServer
