import InferenceServer.RpcHandler

/-! The life of one `HandlerState`: what holds of it between its `StateNew` and its
`StateRelease`, whatever the events and the callbacks do in between. -/
namespace InferenceServer

namespace PayloadPlace

def pending : PayloadPlace → Bool
  | .queued | .dropped | .held | .completing => true
  | _ => false

def settled : PayloadPlace → Bool
  | .absent | .constructed | .issued => true
  | _ => false

theorem pending_unsettled {place : PayloadPlace} (pending : place.pending) : ¬place.settled := by
  cases place <;> first | contradiction | simp [settled]

end PayloadPlace

/-- What the order of events depends on in a state, and the events that are to come for it. -/
structure Facet where
  born : Bool
  step : CallStep
  place : PayloadPlace
  sent : Nat
  deletions : Nat
  registrations : Nat
  completions : Nat

namespace Facet

def fresh : Facet := ⟨true,.start,.absent,0,0,0,0⟩

def refused : Facet := ⟨true,.finish,.absent,0,0,0,0⟩

def Delivered (f : Facet) : Prop := f.place.settled ∧ f = ⟨true,.finish,f.place,1,0,0,0⟩

inductive Out (f : Facet) : Prop where
  | pending (pending : f.place.pending) (is : f = ⟨true,.process,f.place,0,0,0,0⟩)
  | answering (is : f = ⟨true,.finish,.finishing,0,0,0,0⟩)
  | answered (settled : f.place.settled) (is : f = ⟨true,.finish,f.place,1,0,0,1⟩)

/-- A state that the event thread does not have in hand. -/
inductive Rests (f : Facet) : Prop where
  | unborn (is : f = ⟨false,.start,.absent,0,0,0,0⟩)
  | registered (is : f = ⟨true,.start,.absent,0,0,1,0⟩)
  | out (out : f.Out)
  | released (settled : f.place.settled) (once : f.sent ≤ 1)
      (is : f = ⟨true,.finish,f.place,f.sent,1,0,0⟩)

/-- The state that the event thread has in hand at its place. -/
def Held (f : Facet) : EventPc → Prop
  | .judging e => if e.finishes then f.Delivered else f = fresh
  | .closing e => e.finishes = false ∧ e.ok = false ∧ f = fresh
  | .testingStart e =>
    if e.finishes then f.Delivered else if e.ok then f = fresh else f = refused
  | .testingFinish e => if e.finishes then f.Delivered else e.ok = false ∧ f = refused
  | .registering _ | .stepping _ => f = fresh
  | .constructing _ => f = ⟨true,.process,.absent,0,0,0,0⟩
  | .inferring _ => f = ⟨true,.process,.constructed,0,0,0,0⟩
  | .inferred _ => f.Out
  | .failing _ _ | .completing _ => f.place.settled ∧ f = ⟨true,.process,f.place,0,0,0,0⟩
  | .finishing _ => f.place.settled ∧ f = ⟨true,.finish,f.place,0,0,0,0⟩
  | .starting | .waiting | .exited => False

variable {f : Facet} {pc : EventPc}

theorem Rests.out_of_unsettled (rests : f.Rests) (unsettled : ¬f.place.settled) : f.Out := by
  cases rests with
  | unborn is | registered is => rw [is] at unsettled; exact absurd rfl unsettled
  | out out => exact out
  | released settled => exact absurd settled unsettled

theorem Delivered.settled (delivered : f.Delivered) :
    f.place.settled ∧ f.sent ≤ 1 ∧ f.deletions = 0 := by
  obtain ⟨settled,is⟩ := delivered
  rw [is]
  exact ⟨settled,Nat.le_refl 1,rfl⟩

/-- In hand, a state is out or has no callback to come. -/
theorem Held.out_or_settled (held : f.Held pc) :
    (∃ s, pc = .inferred s) ∧ f.Out ∨ f.place.settled ∧ f.sent ≤ 1 ∧ f.deletions = 0 := by
  have still {place : PayloadPlace} {step : CallStep} (settled : place.settled)
      (is : f = ⟨true,step,place,0,0,0,0⟩) : f.place.settled ∧ f.sent ≤ 1 ∧ f.deletions = 0 := by
    rw [is]
    exact ⟨settled,Nat.zero_le 1,rfl⟩
  cases pc with
  | inferred s => exact .inl ⟨⟨s,rfl⟩,held⟩
  | starting | waiting | exited => exact held.elim
  | failing | completing | finishing => exact .inr (still held.1 held.2)
  | registering | stepping | constructing | inferring => exact .inr (still rfl held)
  | closing e => exact .inr (still rfl held.2.2)
  | judging e =>
    simp only [Held] at held
    split at held
    · exact .inr held.settled
    · exact .inr (still rfl held)
  | testingStart e =>
    simp only [Held] at held
    split at held
    · exact .inr held.settled
    · split at held <;> exact .inr (still rfl held)
  | testingFinish e =>
    simp only [Held] at held
    split at held
    · exact .inr held.settled
    · exact .inr (still rfl held.2)

theorem Held.out_of_unsettled (held : f.Held pc) (unsettled : ¬f.place.settled) :
    (∃ s, pc = .inferred s) ∧ f.Out :=
  held.out_or_settled.resolve_right fun settled => unsettled settled.1

theorem Out.bounds (out : f.Out) : f.sent ≤ 1 ∧ f.deletions = 0 := by
  cases out <;> (rename_i is; rw [is]; simp)

theorem Rests.of_registrations (rests : f.Rests) (some' : 0 < f.registrations) :
    f = ⟨true,.start,.absent,0,0,1,0⟩ := by
  cases rests with
  | registered is => exact is
  | unborn is | released _ _ is => rw [is] at some'; contradiction
  | out out => cases out with | _ => rename_i is; rw [is] at some'; contradiction

theorem Rests.of_completions (rests : f.Rests) (some' : 0 < f.completions) :
    f.place.settled ∧ f = ⟨true,.finish,f.place,1,0,0,1⟩ := by
  cases rests with
  | unborn is | registered is | released _ _ is => rw [is] at some'; contradiction
  | out out => cases out with
    | pending _ is | answering is => rw [is] at some'; contradiction
    | answered settled is => exact ⟨settled,is⟩

theorem Out.pend {place : PayloadPlace} (out : f.Out) (there : f.place.pending)
    (pending : place.pending) : { f with place := place }.Out := by
  cases out with
  | pending _ is => exact .pending pending (by rw [is])
  | answering is => rw [is] at there; contradiction
  | answered settled => exact absurd settled (PayloadPlace.pending_unsettled there)

theorem Out.setFinish (out : f.Out) (there : f.place.pending) :
    { f with step := .finish, place := .finishing }.Out := by
  cases out with
  | pending _ is => exact .answering (by rw [is])
  | answering is => rw [is] at there; contradiction
  | answered settled => exact absurd settled (PayloadPlace.pending_unsettled there)

theorem Out.finish (out : f.Out) (there : f.place = .finishing) :
    { f with place := .issued, sent := f.sent + 1, completions := f.completions + 1 }.Out := by
  cases out with
  | pending pending => rw [there] at pending; contradiction
  | answering is => exact .answered rfl (by rw [is])
  | answered settled => rw [there] at settled; contradiction

variable {e : CqEvent} {s : Nat}

theorem Held.close (held : f.Held (.judging e)) (bad : e.ok = false) (start : f.step = .start) :
    f.Held (.closing e) := by
  simp only [Held] at held
  split at held
  · rw [held.2] at start
    contradiction
  next starts => exact ⟨by simpa using starts,bad,held⟩

theorem Held.test (held : f.Held (.judging e)) (kept : ¬(e.ok = false ∧ f.step = .start)) :
    f.Held (.testingStart e) := by
  simp only [Held] at held ⊢
  split at held
  next finishes => rwa [if_pos finishes]
  next starts =>
    have ok : e.ok = true := by
      by_contra bad
      exact kept ⟨by simpa using bad,held ▸ rfl⟩
    rwa [if_neg starts,if_pos ok]

theorem Held.refuse (held : f.Held (.closing e)) :
    { f with step := .finish }.Held (.testingStart e) := by
  obtain ⟨starts,bad,rfl⟩ := held
  simp [Held,starts,bad,fresh,refused]

theorem Held.register (held : f.Held (.testingStart e)) (start : f.step = .start) :
    f.Held (.registering s) := by
  simp only [Held] at held
  split at held
  · rw [held.2] at start
    contradiction
  · split at held
    · exact held
    · rw [held] at start
      contradiction

theorem Held.start_ok (held : f.Held (.testingStart e)) (start : f.step = .start) :
    ¬e.finishes ∧ e.ok := by
  simp only [Held] at held
  split at held
  · rw [held.2] at start
    contradiction
  next starts =>
    split at held
    next ok => exact ⟨starts,ok⟩
    · rw [held] at start
      contradiction

theorem Held.pass (held : f.Held (.testingStart e)) (later : f.step ≠ .start) :
    f.Held (.testingFinish e) := by
  simp only [Held] at held ⊢
  split at held
  next finishes => rwa [if_pos finishes]
  next starts =>
    rw [if_neg starts]
    split at held
    · rw [held] at later
      exact absurd rfl later
    next bad => exact ⟨by simpa using bad,held⟩

theorem Held.end_bad (held : f.Held (.testingFinish e)) (starts : ¬e.finishes) : e.ok = false := by
  simp only [Held,if_neg starts] at held
  exact held.1

theorem Held.finished (held : f.Held (.testingFinish e)) :
    f.step = .finish ∧ f.deletions = 0 ∧ { f with deletions := f.deletions + 1 }.Rests := by
  simp only [Held] at held
  split at held
  · obtain ⟨settled,is⟩ := held
    rw [is]
    exact ⟨rfl,rfl,.released settled (Nat.le_refl 1) rfl⟩
  · obtain ⟨_,rfl⟩ := held
    exact ⟨rfl,rfl,.released rfl (Nat.zero_le 1) rfl⟩

end Facet

namespace Handler

variable {h h' : Handler} {s : Nat}

def facet (h : Handler) (s : Nat) : Facet where
  born := decide (s < h.next)
  step := (h.states s).step
  place := (h.states s).place
  sent := (h.states s).sent.length
  deletions := (h.states s).deletions
  registrations := h.registered.count s
  completions := h.finished.count s

structure Sane (h : Handler) : Prop where
  held : ∀ s, h.thread.tag? = some s → (h.facet s).Held h.thread
  rests : ∀ s, h.thread.tag? ≠ some s → (h.facet s).Rests

theorem Sane.stay (sane : h.Sane) (was : h.thread.tag? = some s) (now : h'.thread.tag? = some s)
    (others : ∀ t, t ≠ s → h'.facet t = h.facet t)
    (mine : (h.facet s).Held h.thread → (h'.facet s).Held h'.thread) : h'.Sane where
  held t there := by
    obtain rfl := Option.some.inj (now.symm.trans there)
    exact mine (sane.held s was)
  rests t free := by
    have other : t ≠ s := fun same => free (same ▸ now)
    exact others t other ▸ sane.rests t fun there => other (Option.some.inj (there.symm.trans was))

theorem Sane.take (sane : h.Sane) (was : h.thread.tag? = none) (now : h'.thread.tag? = some s)
    (others : ∀ t, t ≠ s → h'.facet t = h.facet t)
    (mine : (h.facet s).Rests → (h'.facet s).Held h'.thread) : h'.Sane where
  held t there := by
    obtain rfl := Option.some.inj (now.symm.trans there)
    exact mine (sane.rests s (by simp [was]))
  rests t free := by
    have other : t ≠ s := fun same => free (same ▸ now)
    exact others t other ▸ sane.rests t (by simp [was])

theorem Sane.leave (sane : h.Sane) (was : h.thread.tag? = some s) (now : h'.thread.tag? = none)
    (others : ∀ t, t ≠ s → h'.facet t = h.facet t)
    (mine : (h.facet s).Held h.thread → (h'.facet s).Rests) : h'.Sane where
  held t there := by rw [now] at there; contradiction
  rests t _ := by
    by_cases same : t = s
    · exact same ▸ mine (sane.held s was)
    · exact others t same ▸ sane.rests t fun there => same (Option.some.inj (there.symm.trans was))

theorem Sane.change (sane : h.Sane) (thread : h'.thread = h.thread)
    (others : ∀ t, t ≠ s → h'.facet t = h.facet t) (unsettled : ¬(h.facet s).place.settled)
    (mine : (h.facet s).Out → (h'.facet s).Out) : h'.Sane where
  held t there := by
    rw [thread] at there ⊢
    by_cases same : t = s
    · subst same
      obtain ⟨⟨u,at'⟩,out⟩ := (sane.held t there).out_of_unsettled unsettled
      rw [at']
      exact mine out
    · exact others t same ▸ sane.held t there
  rests t free := by
    rw [thread] at free
    by_cases same : t = s
    · subst same
      exact .out (mine ((sane.rests t free).out_of_unsettled unsettled))
    · exact others t same ▸ sane.rests t free

theorem facet_setState {t : Nat} (state : HandlerState) (other : t ≠ s) :
    (h.setState s state).facet t = h.facet t := by
  simp only [facet,setState,Function.update_of_ne other]
  rfl

theorem facet_finish {t : Nat} (other : t ≠ s) : (h.finish s).facet t = h.facet t := by
  simp only [facet,finish,setState,Function.update_of_ne other,
    List.count_cons_of_ne (Ne.symm other)]
  rfl

theorem facet_self (state : HandlerState) : (h.setState s state).facet s =
    { h.facet s with
      step := state.step, place := state.place, sent := state.sent.length,
      deletions := state.deletions } := by
  simp only [facet,setState,Function.update_self]
  rfl

theorem facet_finish_self : (h.finish s).facet s =
    { h.facet s with sent := (h.facet s).sent + 1, completions := (h.facet s).completions + 1 } := by
  simp only [facet,finish,setState,Function.update_self,List.count_cons_self,List.length_append]
  rfl

theorem facet_step (step : CallStep) : (h.setState s { h.states s with step := step }).facet s =
    { h.facet s with step := step } := by
  rw [facet_self]
  rfl

theorem facet_place (place : PayloadPlace) :
    (h.setState s { h.states s with place := place }).facet s =
      { h.facet s with place := place } := by
  rw [facet_self]
  rfl

theorem facet_response (response : InferResponse) :
    (h.setState s { h.states s with response := response }).facet s = h.facet s := by
  rw [facet_self]
  rfl

theorem facet_release : (h.stateRelease s).facet s =
    { h.facet s with deletions := (h.facet s).deletions + 1 } := by
  rw [stateRelease,facet_self]
  rfl

structure Callback (h : Handler) (s : Nat) (h' : Handler) : Prop where
  thread : h'.thread = h.thread
  registered : h'.registered = h.registered
  closed : h'.closed = h.closed
  others : ∀ t, t ≠ s → h'.facet t = h.facet t
  unsettled : ¬(h.facet s).place.settled
  out : (h.facet s).Out → (h'.facet s).Out

theorem payloadStep_callback {a : PayloadAction} (taken : h.payloadStep s a = some h') :
    Callback h s h' := by
  have moved {state : HandlerState} (pending : (h.states s).place.pending)
      (out : (h.facet s).Out → ((h.setState s state).facet s).Out) :
      Callback h s (h.setState s state) :=
    ⟨rfl,rfl,rfl,fun _ other => facet_setState _ other,PayloadPlace.pending_unsettled pending,out⟩
  unfold payloadStep at taken
  split at taken
  case h_1 there | h_2 there | h_4 there =>
    cases taken
    refine moved (there ▸ rfl) fun out => ?_
    rw [facet_self]
    exact out.pend (congrArg PayloadPlace.pending there) rfl
  case h_3 there =>
    cases taken
    refine moved (there ▸ rfl) fun out => ?_
    rwa [facet_self]
  case h_5 there =>
    cases taken
    have pending := congrArg PayloadPlace.pending there
    refine ⟨rfl,rfl,rfl,fun t other => ?_,PayloadPlace.pending_unsettled pending,fun out => ?_⟩
    · exact (facet_setState _ other).trans (facet_setState _ other)
    · rw [place,setFinish,facet_self,facet_self]
      simp only [setState,Function.update_self]
      exact out.setFinish pending
  case h_6 there =>
    cases taken
    refine ⟨rfl,rfl,rfl,fun t other => ?_,fun settled => ?_,fun out => ?_⟩
    · exact (facet_setState _ other).trans (facet_finish other)
    · rw [facet,there] at settled
      contradiction
    · rw [place,facet_self,facet_finish_self]
      simp only [finish,setState,Function.update_self,List.length_append]
      exact out.finish there
  case h_7 => contradiction

theorem payload_sane {a : PayloadAction} (sane : h.Sane) (taken : h.payloadStep s a = some h') :
    h'.Sane := by
  have does := payloadStep_callback taken
  exact sane.change does.thread does.others does.unsettled does.out

/-- The state after the last one was never created. -/
theorem Sane.new (sane : h.Sane) (free : h.thread.tag? ≠ some h.next) :
    h.facet h.next = ⟨false,.start,.absent,0,0,0,0⟩ := by
  have unborn : (h.facet h.next).born = false := by simp [facet]
  cases sane.rests h.next free with
  | unborn is => exact is
  | registered is | released _ _ is => rw [is] at unborn; contradiction
  | out out => cases out <;> (rename_i is; rw [is] at unborn; contradiction)

theorem Sane.registering_free (sane : h.Sane) (at' : h.thread = .registering s) :
    h.thread.tag? ≠ some h.next := by
  have mine : (h.facet s).Held (.registering s) := at' ▸ sane.held s (at' ▸ rfl)
  have older : s ≠ h.next := by
    rintro rfl
    have born := congrArg Facet.born mine
    simp [facet,Facet.fresh] at born
  simpa [at',EventPc.tag?] using older

theorem startNewRequest_sane (sane : h.Sane) (free : h.thread.tag? ≠ some h.next) :
    h.startNewRequest.Sane := by
  have others (t : Nat) (other : t ≠ h.next) : h.startNewRequest.facet t = h.facet t := by
    have older : t < h.next + 1 ↔ t < h.next := by omega
    simp [facet,startNewRequest,setState,Function.update_of_ne other,older,
      List.count_cons_of_ne (Ne.symm other)]
  have mine : (h.startNewRequest.facet h.next).Rests := by
    have was := sane.new free
    simp only [facet,Facet.mk.injEq] at was
    exact .registered (by simp [facet,startNewRequest,setState,HandlerState.reset,was])
  refine ⟨fun t there => ?_,fun t free => ?_⟩
  · have other : t ≠ h.next := by
      rintro rfl
      exact free there
    exact others t other ▸ sane.held t there
  · by_cases same : t = h.next
    · exact same ▸ mine
    · exact others t same ▸ sane.rests t free

theorem Sane.idle {pc : EventPc} (sane : h.Sane) (was : h.thread.tag? = none)
    (now : pc.tag? = none) : { h with thread := pc }.Sane where
  held t there := by
    have := now.symm.trans there
    contradiction
  rests t _ := sane.rests t (by simp [was])

theorem Sane.goOn {pc pc' : EventPc} (sane : h.Sane) (was : h.thread = pc)
    (same : pc'.tag? = pc.tag?) (some' : pc.tag? = some s)
    (mine : (h.facet s).Held pc → (h.facet s).Held pc') : { h with thread := pc' }.Sane :=
  sane.stay (was ▸ some') (same.trans some') (fun _ _ => rfl) (was ▸ mine)

theorem deliver_sane {e : CqEvent} (sane : h.Sane) (at' : h.thread = .waiting)
    (delivered : h.deliver e = some h') : { h' with thread := .judging e }.Sane := by
  have was : h.thread.tag? = none := by rw [at']; rfl
  unfold deliver at delivered
  split at delivered
  next finishes =>
    split at delivered <;> cases delivered
    next member =>
      refine sane.take was rfl (fun t other => ?_) fun rests => ?_
      · simp only [facet,List.count_erase_of_ne other]
      · obtain ⟨settled,is⟩ := rests.of_completions (List.count_pos_iff.mpr member)
        simp only [facet,Facet.mk.injEq] at is
        simp only [Facet.Held,finishes,if_true,Facet.Delivered]
        refine ⟨settled,?_⟩
        simp [facet,is]
  next starts =>
    split at delivered <;> cases delivered
    next member =>
      refine sane.take was rfl (fun t other => ?_) fun rests => ?_
      · simp only [facet,List.count_erase_of_ne other]
      · have is := rests.of_registrations (List.count_pos_iff.mpr member)
        simp only [facet,Facet.mk.injEq] at is
        simp [Facet.Held,starts,facet,Facet.fresh,is]

/-- Every place in `Process` and `TakeAction` keeps the state in hand at its stage. -/
theorem event_sane {a : EventAction} (sane : h.Sane) (taken : h.eventStep a = some h') :
    h'.Sane := by
  have moved {state : HandlerState} {pc pc' : EventPc} {s : Nat} (at' : h.thread = pc)
      (was : pc.tag? = some s) (now : pc'.tag? = some s)
      (mine : (h.facet s).Held pc → ((h.setState s state).facet s).Held pc') :
      { h.setState s state with thread := pc' }.Sane :=
    sane.stay (at' ▸ was) now (fun _ other => facet_setState (h := h) state other) (at' ▸ mine)
  unfold eventStep at taken
  split at taken
  case h_1 at' =>
    cases taken
    refine (startNewRequest_sane sane (by simp [at',EventPc.tag?])).idle ?_ rfl
    exact congrArg EventPc.tag? at'
  case h_2 at' =>
    obtain ⟨h,delivered,rfl⟩ := Option.map_eq_some_iff.mp taken
    exact deliver_sane sane at' delivered
  case h_3 at' =>
    split at taken <;> cases taken
    exact sane.idle (congrArg EventPc.tag? at') rfl
  case h_4 e at' =>
    split at taken <;> cases taken
    next bad => exact sane.goOn at' rfl rfl fun held => held.close (by simpa using bad.1) bad.2
    next kept =>
      exact sane.goOn at' rfl rfl fun held => held.test fun bad => kept ⟨by simp [bad.1],bad.2⟩
  case h_5 e at' =>
    cases taken
    exact moved at' rfl rfl fun held => by rw [facet_self]; exact held.refuse
  case h_6 e at' =>
    split at taken <;> cases taken
    next start => exact sane.goOn at' rfl rfl fun held => held.register start
    next later => exact sane.goOn at' rfl rfl fun held => held.pass later
  case h_7 e at' =>
    have mine : (h.facet e.tag).Held (.testingFinish e) := at' ▸ sane.held e.tag (at' ▸ rfl)
    obtain ⟨finish,_,rests⟩ := mine.finished
    rw [if_pos (show (h.states e.tag).step = .finish from finish)] at taken
    cases taken
    refine sane.leave (at' ▸ rfl) rfl (fun _ other => facet_setState (h := h) _ other) fun _ => ?_
    rw [← facet_release] at rests
    exact rests
  case h_8 s at' =>
    cases taken
    exact (startNewRequest_sane sane (sane.registering_free at')).goOn at' rfl rfl id
  case h_9 s at' =>
    cases taken
    refine moved at' rfl rfl fun held => ?_
    rw [facet_step,show h.facet s = _ from held]
    rfl
  case h_10 s throws at' =>
    split at taken <;> cases taken
    · refine sane.goOn at' rfl rfl fun held => ?_
      rw [show h.facet s = _ from held]
      exact ⟨rfl,rfl⟩
    · refine moved at' rfl rfl fun held => ?_
      rw [facet_place,show h.facet s = _ from held]
      rfl
  case h_11 s at' | h_12 s at' =>
    cases taken
    refine moved at' rfl rfl fun held => ?_
    rw [facet_place,show h.facet s = _ from held]
    exact .pending rfl rfl
  case h_13 s status at' =>
    split at taken <;> cases taken
    refine sane.goOn at' rfl rfl fun held => ?_
    rw [show h.facet s = _ from held]
    exact ⟨rfl,rfl⟩
  case h_14 s at' =>
    cases taken
    refine sane.leave (s := s) (at' ▸ rfl) rfl (fun _ _ => rfl) fun held => .out ?_
    rwa [at'] at held
  case h_15 s status at' =>
    cases taken
    refine moved at' rfl rfl fun held => ?_
    rwa [facet_response]
  case h_16 s at' =>
    cases taken
    refine moved at' rfl rfl fun held => ?_
    obtain ⟨settled,is⟩ := held
    rw [facet_step,is]
    exact ⟨settled,rfl⟩
  case h_17 s at' =>
    cases taken
    refine sane.leave (at' ▸ rfl) rfl (fun _ other => facet_finish (h := h) other) fun held => ?_
    rw [at'] at held
    obtain ⟨settled,is⟩ := held
    have answered : ((h.finish s).facet s).Out := by
      rw [facet_finish_self,is]
      exact .answered settled rfl
    exact .out answered
  case h_18 => contradiction

theorem create_sane : create.Sane where
  held _ there := by contradiction
  rests s _ := .unborn (by simp [facet,create,HandlerState.reset])

theorem reachable_sane (reach : machine.Reachable h) : h.Sane := by
  refine reach.invariant create_sane ?_
  intro h a h' _ sane taken
  cases a with
  | event a => exact event_sane sane taken
  | payload s a => exact payload_sane sane taken

def Kept (h : Handler) : Prop := if h.closed then h.registered = [] else ∃ s, h.registered = [s]

/-- `StartNewRequest` comes after the event of a registration and before the next event. -/
def Registers (h : Handler) : Prop :=
  match h.thread with
  | .starting | .registering _ => h.registered = [] ∧ h.closed = false
  | .judging e | .closing e | .testingStart e | .testingFinish e =>
    if e.finishes then h.Kept else h.registered = [] ∧ h.closed = !e.ok
  | _ => h.Kept

theorem startNewRequest_kept (none' : h.registered = []) (opened : h.closed = false) :
    h.startNewRequest.Kept := by
  rw [Kept,if_neg (by simp [startNewRequest,setState,opened])]
  exact ⟨h.next,by simp [startNewRequest,none']⟩

theorem deliver_registers {e : CqEvent} (kept : h.Kept) (delivered : h.deliver e = some h') :
    { h' with thread := .judging e }.Registers := by
  unfold deliver at delivered
  split at delivered
  next finishes =>
    split at delivered <;> cases delivered
    simp only [Registers,finishes,if_true]
    exact kept
  next starts =>
    split at delivered <;> cases delivered
    next member =>
      have opened : h.closed = false := by
        by_contra closed
        rw [Kept,if_pos (by simpa using closed)] at kept
        simp [kept] at member
      rw [Kept,if_neg (by simp [opened])] at kept
      obtain ⟨s,only⟩ := kept
      obtain rfl : e.tag = s := by simpa [only] using member
      rw [Registers]
      simp [starts,only,opened]

theorem event_registers {a : EventAction} (sane : h.Sane) (registers : h.Registers)
    (taken : h.eventStep a = some h') : h'.Registers := by
  unfold eventStep at taken
  unfold Registers at registers
  split at taken
  case h_1 at' =>
    cases taken
    rw [at'] at registers
    exact startNewRequest_kept registers.1 registers.2
  case h_2 at' =>
    obtain ⟨h,delivered,rfl⟩ := Option.map_eq_some_iff.mp taken
    rw [at'] at registers
    exact deliver_registers registers delivered
  case h_3 at' =>
    split at taken <;> cases taken
    rw [at'] at registers
    exact registers
  case h_4 e at' =>
    rw [at'] at registers
    split at taken <;> cases taken <;> exact registers
  case h_5 e at' =>
    cases taken
    rw [at'] at registers
    exact registers
  case h_6 e at' =>
    rw [at'] at registers
    have mine : (h.facet e.tag).Held (.testingStart e) := at' ▸ sane.held e.tag (at' ▸ rfl)
    split at taken <;> cases taken
    next start =>
      obtain ⟨starts,ok⟩ := mine.start_ok start
      simp only [starts,ok] at registers
      exact registers
    next later => exact registers
  case h_7 e at' =>
    rw [at'] at registers
    have mine : (h.facet e.tag).Held (.testingFinish e) := at' ▸ sane.held e.tag (at' ▸ rfl)
    have kept : h.Kept := by
      simp only at registers
      split at registers
      · exact registers
      next starts =>
        have bad := mine.end_bad starts
        rw [Kept,if_pos (by simp [registers.2,bad])]
        exact registers.1
    split at taken <;> cases taken <;> exact kept
  case h_8 s at' =>
    cases taken
    rw [at'] at registers
    exact startNewRequest_kept registers.1 registers.2
  case h_10 s throws at' =>
    rw [at'] at registers
    split at taken <;> cases taken <;> exact registers
  case h_13 s status at' =>
    rw [at'] at registers
    split at taken <;> cases taken
    exact registers
  case h_9 s at' | h_11 s at' | h_12 s at' | h_14 s at' | h_15 s _ at' | h_16 s at' | h_17 s at' =>
    cases taken
    rw [at'] at registers
    exact registers
  case h_18 => contradiction

theorem create_registers : create.Registers := ⟨rfl,rfl⟩

theorem reachable_registers (reach : machine.Reachable h) : h.Registers := by
  refine reach.invariant create_registers ?_
  intro h a h' before registers taken
  cases a with
  | event a => exact event_registers (reachable_sane before) registers taken
  | payload s a =>
    have does := payloadStep_callback taken
    unfold Registers Kept at registers ⊢
    rw [does.thread,does.registered,does.closed]
    exact registers

theorem Registers.closed (registers : h.Registers) (closed : h.closed) : h.registered = [] := by
  have ofKept (kept : h.Kept) : h.registered = [] := by rwa [Kept,if_pos closed] at kept
  unfold Registers at registers
  split at registers
  case h_1 | h_2 => exact registers.1
  case h_3 | h_4 | h_5 | h_6 =>
    split at registers
    · exact ofKept registers
    · exact registers.1
  case h_7 => exact ofKept registers

/-- A released state has no callback to come or under way. -/
theorem Sane.bounds (sane : h.Sane) (s : Nat) :
    (h.facet s).sent ≤ 1 ∧ (h.facet s).deletions ≤ 1 ∧
      ((h.facet s).deletions ≠ 0 → (h.facet s).place.settled) := by
  by_cases held : h.thread.tag? = some s
  · rcases (sane.held s held).out_or_settled with ⟨_,out⟩ | ⟨settled,once,kept⟩
    · exact ⟨out.bounds.1,out.bounds.2 ▸ Nat.zero_le 1,fun gone => absurd out.bounds.2 gone⟩
    · exact ⟨once,kept ▸ Nat.zero_le 1,fun _ => settled⟩
  · cases sane.rests s held with
    | unborn is | registered is => simp [is]
    | out out =>
      exact ⟨out.bounds.1,out.bounds.2 ▸ Nat.zero_le 1,fun gone => absurd out.bounds.2 gone⟩
    | released settled once is =>
      rw [is]
      exact ⟨once,Nat.le_refl 1,fun _ => settled⟩

theorem setState_deletions {t : Nat} {state : HandlerState}
    (same : state.deletions = (h.states s).deletions) :
    ((h.setState s state).states t).deletions = (h.states t).deletions := by
  by_cases at' : t = s
  · subst at'
    simpa [setState] using same
  · simp [setState,Function.update_of_ne at']

theorem place_deletions {t : Nat} {place : PayloadPlace} :
    ((h.place s place).states t).deletions = (h.states t).deletions :=
  setState_deletions rfl

/-- Only the last branch of `Process` releases a state, the one it has in hand. -/
theorem step_releases {a : HandlerAction} (sane : h.Sane) (taken : h.step a = some h')
    (releases : (h'.states s).deletions ≠ (h.states s).deletions) :
    ∃ e, h.thread = .testingFinish e ∧ e.tag = s := by
  have new (free : h.thread.tag? ≠ some h.next) :
      (h.startNewRequest.states s).deletions = (h.states s).deletions :=
    setState_deletions (congrArg Facet.deletions (sane.new free)).symm
  cases a with
  | payload u a =>
    exfalso
    apply releases
    simp only [step,payloadStep] at taken
    split at taken <;> cases taken
    case h_5 | h_6 => exact place_deletions.trans (setState_deletions (h := h) rfl)
    all_goals exact setState_deletions (h := h) rfl
  | event a =>
    simp only [step,eventStep] at taken
    split at taken
    case h_7 e at' =>
      refine ⟨e,at',?_⟩
      by_contra other
      apply releases
      split at taken <;> cases taken
      · simp [stateRelease,setState,Function.update_of_ne (Ne.symm other)]
      · rfl
    all_goals (exfalso; apply releases)
    case h_1 at' =>
      cases taken
      exact new (by simp [at',EventPc.tag?])
    case h_2 at' =>
      obtain ⟨h₁,delivered,rfl⟩ := Option.map_eq_some_iff.mp taken
      unfold deliver at delivered
      split at delivered <;> (split at delivered <;> cases delivered; rfl)
    case h_3 | h_4 | h_6 | h_13 => split at taken <;> cases taken <;> rfl
    case h_8 at' =>
      cases taken
      exact new (sane.registering_free at')
    case h_10 =>
      split at taken <;> cases taken
      · rfl
      · exact setState_deletions (h := h) rfl
    case h_14 => cases taken; rfl
    case h_18 => contradiction
    all_goals
      cases taken
      exact setState_deletions (h := h) rfl

/-- What the handler guarantees of its registrations and states at any moment. -/
structure Lifecycle (h : Handler) : Prop where
  one_registration : h.thread = .waiting → h.closed = false →
    ∃ s, h.registered = [s] ∧ (h.states s).step = .start ∧ (h.states s).deletions = 0
  none_after_closed : h.closed → h.registered = []
  finished_once : ∀ s, (h.states s).sent.length ≤ 1
  released_once : ∀ s, (h.states s).deletions ≤ 1
  finish_event : ∀ e, h.thread ∈ [.judging e,.testingStart e,.testingFinish e] → e.finishes →
    (h.states e.tag).step = .finish ∧ (h.states e.tag).deletions = 0
  finish_released : ∀ e, h.thread = .judging e → e.finishes →
    ∃ t, machine.exec h [.event .judge,.event .testStart,.event .testFinish] = some t ∧
      t.thread = .waiting ∧ (t.states e.tag).deletions = 1
  released_by_next : h.thread = .waiting → ∀ s, (h.states s).sent ≠ [] → s ∉ h.finished →
    (h.states s).deletions = 1
  release_causes : ∀ s a h', h.step a = some h' →
    (h'.states s).deletions ≠ (h.states s).deletions →
    ∃ e, h.thread = .testingFinish e ∧ e.tag = s ∧ (e.finishes ∨ e.ok = false)
  callbacks_alive : ∀ s, (h.states s).place ∈ [.queued,.held,.completing,.finishing] →
    (h.states s).deletions = 0

theorem Sane.finish_event (sane : h.Sane) {e : CqEvent}
    (there : h.thread ∈ [.judging e,.testingStart e,.testingFinish e]) (finishes : e.finishes) :
    (h.states e.tag).step = .finish ∧ (h.states e.tag).deletions = 0 := by
  have delivered : (h.facet e.tag).Delivered := by
    simp only [List.mem_cons,List.not_mem_nil,or_false] at there
    rcases there with at' | at' | at' <;>
    · have held := sane.held e.tag (at' ▸ rfl)
      rw [at'] at held
      simp only [Facet.Held,finishes,if_true] at held
      exact held
  obtain ⟨_,is⟩ := delivered
  exact ⟨congrArg Facet.step is,congrArg Facet.deletions is⟩

/-- Three steps of the event thread take it from a finished state's event to its release. -/
theorem Sane.finish_released (sane : h.Sane) {e : CqEvent} (at' : h.thread = .judging e)
    (finishes : e.finishes) :
    ∃ t, machine.exec h [.event .judge,.event .testStart,.event .testFinish] = some t ∧
      t.thread = .waiting ∧ (t.states e.tag).deletions = 1 := by
  obtain ⟨finish,kept⟩ := sane.finish_event (by simp [at']) finishes
  refine ⟨{ h.stateRelease e.tag with thread := .waiting },?_,rfl,?_⟩
  · simp [Transition.Machine.exec,machine,step,eventStep,at',finish,stateRelease,setState]
  · simp [stateRelease,setState,kept]

theorem Sane.released_by_next (sane : h.Sane) (at' : h.thread = .waiting)
    (sent : (h.states s).sent ≠ []) (taken : s ∉ h.finished) : (h.states s).deletions = 1 := by
  have some' : (h.facet s).sent ≠ 0 := by simpa [facet] using sent
  have none' : (h.facet s).completions = 0 := List.count_eq_zero.mpr taken
  cases sane.rests s (by simp [at',EventPc.tag?]) with
  | unborn is | registered is => rw [is] at some'; contradiction
  | out out => cases out with
    | pending _ is | answering is => rw [is] at some'; contradiction
    | answered _ is => rw [is] at none'; contradiction
  | released _ _ is => exact congrArg Facet.deletions is

theorem Sane.release_causes {a : HandlerAction} (sane : h.Sane) (taken : h.step a = some h')
    (releases : (h'.states s).deletions ≠ (h.states s).deletions) :
    ∃ e, h.thread = .testingFinish e ∧ e.tag = s ∧ (e.finishes ∨ e.ok = false) := by
  obtain ⟨e,at',mine⟩ := step_releases sane taken releases
  have held : (h.facet e.tag).Held (.testingFinish e) := at' ▸ sane.held e.tag (at' ▸ rfl)
  exact ⟨e,at',mine,or_iff_not_imp_left.mpr held.end_bad⟩

theorem Registers.one (registers : h.Registers) (sane : h.Sane) (at' : h.thread = .waiting)
    (opened : h.closed = false) :
    ∃ s, h.registered = [s] ∧ (h.states s).step = .start ∧ (h.states s).deletions = 0 := by
  rw [Registers,at'] at registers
  have kept : h.Kept := registers
  rw [Kept,if_neg (by simp [opened])] at kept
  obtain ⟨s,only⟩ := kept
  have is := (sane.rests s (by simp [at',EventPc.tag?])).of_registrations (by simp [facet,only])
  exact ⟨s,only,congrArg Facet.step is,congrArg Facet.deletions is⟩

theorem Sane.callbacks_alive (sane : h.Sane)
    (there : (h.states s).place ∈ [.queued,.held,.completing,.finishing]) :
    (h.states s).deletions = 0 := by
  by_contra gone
  have settled : (h.states s).place.settled := (sane.bounds s).2.2 gone
  simp only [List.mem_cons,List.not_mem_nil,or_false] at there
  rcases there with at' | at' | at' | at' <;> (rw [at'] at settled; contradiction)

theorem handler_lifecycle (reach : machine.Reachable h) : h.Lifecycle where
  one_registration := (reachable_registers reach).one (reachable_sane reach)
  none_after_closed := (reachable_registers reach).closed
  finished_once s := ((reachable_sane reach).bounds s).1
  released_once s := ((reachable_sane reach).bounds s).2.1
  finish_event _ := (reachable_sane reach).finish_event
  finish_released _ := (reachable_sane reach).finish_released
  released_by_next at' _ := (reachable_sane reach).released_by_next at'
  release_causes _ _ _ := (reachable_sane reach).release_causes
  callbacks_alive _ := (reachable_sane reach).callbacks_alive

/-- A callback that runs while the event thread is still in `TakeAction`, and the events that
follow. -/
theorem handler_lifecycle_early_callback : ∃ h, machine.Reachable h ∧
    (h.thread,h.registered,h.finished,(h.states 0).deletions) = (.waiting,[1],[],1) ∧
    h.Lifecycle := by
  obtain ⟨h,reach,seen⟩ := Transition.Machine.exec_observed (m := machine)
    [.event .startNewRequest,.event (.next ⟨0,true,false⟩),.event .judge,.event .testStart,
      .event .startNewRequest,.event .setProcess,.event (.construct false),
      .event (.inferAsync .queued),.payload 0 .pop,.payload 0 (.register "y" 0 [7] [1]),
      .payload 0 (.complete .success),.payload 0 .setFinish,.payload 0 .finish,.event .leave,
      .event (.next ⟨0,true,true⟩),.event .judge,.event .testStart,.event .testFinish]
    (fun h => (h.thread,h.registered,h.finished,(h.states 0).deletions)) (.waiting,[1],[],1) rfl
  exact ⟨h,reach,seen,handler_lifecycle reach⟩

end Handler
end InferenceServer
