import InferenceServer.EndToEnd
import InferenceServer.OutputAccess
import InferenceServer.OutputOrder

/-! What a reply carries, from `RegisterInferOutput` to the client's `GetInferOutput`: the outputs
that the backend registered for this call, and nothing of any other call. -/
namespace InferenceServer.Handler

variable {h h' : Handler} {s : Nat} {actions : List HandlerAction}

/-- The index of a call of `RegisterInferOutput` is an `int32_t`. -/
def Typed : HandlerAction → Prop
  | .payload _ (.register _ idx _ _) => -2^31 ≤ idx ∧ idx < 2^31
  | _ => True

def registers? (s : Nat) : HandlerAction → Option OutputCall
  | .payload t (.register name idx content shape) =>
    if t = s then some ⟨name,Int32.ofInt idx,content,shape⟩ else none
  | _ => none

def outputs (actions : List HandlerAction) (s : Nat) : List OutputCall :=
  actions.filterMap (registers? s)

def Carries (state : HandlerState) (calls : List OutputCall) : Prop :=
  match state.place with
  | .absent | .constructed | .queued | .dropped => state.payload = .create ∧ calls = []
  | .held => state.payload = registerAll calls
  | .completing | .finishing | .issued =>
    state.response.requestStatus = some ⟨.success,completionMessage .success⟩ →
      state.response = successReply calls

theorem outputs_snoc (actions : List HandlerAction) (a : HandlerAction) (s : Nat) :
    outputs (actions ++ [a]) s = outputs actions s ++ (registers? s a).toList := by
  rw [outputs,outputs,List.filterMap_append]
  cases found : registers? s a <;> simp [found]

theorem carries_setState {t : Nat} {state : HandlerState}
    (valid : ∀ s, Carries (h.states s) (outputs actions s))
    (mine : Carries (h.states t) (outputs actions t) → Carries state (outputs actions t)) (s : Nat) :
    Carries ((h.setState t state).states s) (outputs actions s) := by
  by_cases same : s = t
  · subst t
    simpa [setState] using mine (valid s)
  · simpa [setState,Function.update_of_ne same] using valid s

theorem new_carries (sane : h.Sane) (free : h.thread.tag? ≠ some h.next)
    (valid : ∀ s, Carries (h.states s) (outputs actions s)) (s : Nat) :
    Carries (h.startNewRequest.states s) (outputs actions s) := by
  refine carries_setState (h := h) valid (fun before => ?_) s
  have place : (h.states h.next).place = .absent := congrArg Facet.place (sane.new free)
  rw [Carries,place] at before
  exact ⟨rfl,before.2⟩

theorem event_carries {a : EventAction} (sane : h.Sane) (taken : h.eventStep a = some h')
    (valid : ∀ s, Carries (h.states s) (outputs actions s)) (s : Nat) :
    Carries (h'.states s) (outputs actions s) := by
  unfold eventStep at taken
  split at taken
  case h_1 at' =>
    cases taken
    exact new_carries sane (by simp [at',EventPc.tag?]) valid s
  case h_2 =>
    obtain ⟨g,delivered,rfl⟩ := Option.map_eq_some_iff.mp taken
    unfold deliver at delivered
    split at delivered <;> (split at delivered <;> cases delivered; exact valid s)
  case h_3 | h_4 | h_6 | h_13 => split at taken <;> cases taken <;> exact valid s
  case h_7 =>
    split at taken <;> cases taken
    · exact carries_setState (h := h) valid (fun before => by exact before) s
    · exact valid s
  case h_8 at' =>
    cases taken
    exact new_carries sane (sane.registering_free at') valid s
  case h_10 at' =>
    split at taken <;> cases taken
    · exact valid s
    · refine carries_setState (h := h) valid (fun before => ?_) s
      rwa [Carries,(sane.constructing at').1] at before
  case h_11 at' | h_12 at' =>
    cases taken
    refine carries_setState (h := h) valid (fun before => ?_) s
    rwa [Carries,(sane.inferring at').1] at before
  case h_14 => cases taken; exact valid s
  case h_15 =>
    cases taken
    refine carries_setState (h := h) valid (fun before => ?_) s
    unfold Carries at before ⊢
    split at before <;> simp_all
  case h_18 => contradiction
  all_goals
    cases taken
    exact carries_setState (h := h) valid (fun before => by exact before) s

/-- The index comes back out of the call as it went in. -/
theorem registered_index {name : String} {idx : Int} {content : List UInt8} {shape : List Int}
    (typed : -2^31 ≤ idx ∧ idx < 2^31) :
    (OutputCall.mk name (Int32.ofInt idx) content shape).index = idx :=
  Int32.toInt_ofInt_of_le typed.1 typed.2

theorem payload_carries {t : Nat} {a : PayloadAction} (reach : machine.Reachable h)
    (typed : Typed (.payload t a)) (taken : PayloadStep h t a h')
    (valid : ∀ s, Carries (h.states s) (outputs actions s)) (s : Nat) :
    Carries (h'.states s) (outputs (actions ++ [.payload t a]) s) := by
  rw [outputs_snoc]
  by_cases other : s ≠ t
  · have nothing : registers? s (.payload t a) = none := by
      cases a <;> simp [registers?,Ne.symm other]
    rw [nothing,Option.toList_none,List.append_nil,payloadStep_others taken other]
    exact valid s
  · obtain rfl : s = t := not_not.mp other
    have before := valid s
    cases taken with
    | pop place =>
      rw [Carries,place] at before
      simpa [Handler.place,setState,Carries,registers?,registerAll,before.2] using before.1
    | drop place =>
      rw [Carries,place] at before
      simpa [Handler.place,setState,Carries,registers?,before.2] using before.1
    | @register name idx content shape place =>
      rw [Carries,place] at before
      simp only [setState,Function.update_self,Carries,place,registers?,if_true,Option.toList_some,
        registerAll_snoc,← before]
      rw [registered_index typed]
    | @complete status place =>
      have clear := held_clear reach place
      rw [Carries,place] at before
      simp only [setState,Function.update_self,Carries,registers?,Option.toList_none,
        List.append_nil,clear,before]
      intro success
      by_cases done : status = .success
      · rw [done]
        rfl
      · simp [InferencePayload.onInferCompleted,done] at success
    | setFinish place =>
      rw [Carries,place] at before
      simpa [Handler.place,Handler.setFinish,setState,Carries,registers?] using before
    | finish place =>
      rw [Carries,place] at before
      simpa [Handler.place,Handler.finish,setState,Carries,registers?] using before

theorem exec_carries (run : machine.exec machine.start actions = some h)
    (typed : ∀ a ∈ actions, Typed a) (s : Nat) :
    Carries (h.states s) (outputs actions s) := by
  have initial (s : Nat) : Carries (create.states s) (outputs [] s) := ⟨rfl,rfl⟩
  refine Transition.Machine.exec_invariant (P := fun actions h =>
    (∀ a ∈ actions, Typed a) → ∀ s, Carries (h.states s) (outputs actions s))
    (fun _ => initial) ?_ run typed s
  intro actions h a h' run valid taken typed s
  have reach := Transition.Machine.exec_reachable .start actions run
  have before := valid fun b member => typed b (List.mem_append_left _ member)
  cases a with
  | event a =>
    have nothing : registers? s (.event a) = none := rfl
    rw [outputs_snoc,nothing,Option.toList_none,List.append_nil]
    exact event_carries (reachable_sane reach) taken before s
  | payload t a =>
    exact payload_carries reach (typed _ (by simp)) (payloadStep_cases taken) before s

/-- A reply that says `SUCCESS` carries exactly the outputs that were registered for its own call,
in the order of their registration and nothing else, however the calls overlap. Where they were
registered by their positions, the client's `GetInferOutput` finds each at its own index, and
nothing at any other. -/
theorem reply_carries_outputs (run : machine.exec machine.start actions = some h)
    (typed : ∀ a ∈ actions, Typed a) (s : Nat) (response : InferResponse)
    (sent : response ∈ (h.states s).sent)
    (success : response.requestStatus = some ⟨.success,completionMessage .success⟩) :
    response = successReply (outputs actions s) ∧
    (Positioned (outputs actions s) →
      ∀ (context : InferRequestContext) (index : UInt32) (held : OutputVariables),
        context.inferResponse = response → index.toNat < 2^31 →
        context.getInferOutput index held = some
          (match (outputs actions s)[index.toNat]? with
          | some call => (true,⟨call.content,UInt32.ofNat call.content.length,
              held.outputDims ++ call.shape.map UInt32.ofInt⟩)
          | none => (false,held))) := by
  have reach := Transition.Machine.exec_reachable .start actions run
  have sane := reachable_sane reach
  have same : response = (h.states s).response := by
    cases exec_told run s with
    | fresh _ _ unsent => simp [unsent] at sent
    | failing _ unsent => simp [unsent] at sent
    | answered _ all => exact all response sent
  have carried : response = successReply (outputs actions s) := by
    have carries := exec_carries run typed s
    unfold Carries at carries
    have early (early : (h.states s).place.early = true) : False := by
      obtain ⟨status,_,is⟩ := refused_reply reach early sent
      simp [is] at success
    have waiting (unsettled : ¬(h.states s).place.settled) : False := by
      rw [(sane.unsettled unsettled).2] at sent
      contradiction
    cases place : (h.states s).place with
    | absent | constructed => exact (early (by rw [place]; rfl)).elim
    | queued | dropped | held | completing | finishing =>
      exact (waiting (by rw [place]; simp [PayloadPlace.settled])).elim
    | issued =>
      rw [place] at carries
      exact same.trans (carries (same ▸ success))
  refine ⟨carried,fun positioned context index held is small => ?_⟩
  have raw : (successReply (outputs actions s)).rawOutput =
      (outputs actions s).map OutputCall.content :=
    (raw_in_order_iff _).mpr ⟨positioned.largest,fun _ _ there => positioned.last there⟩
  rw [getInferOutput_small context small,is,carried,raw,successReply_meta,List.getElem?_map,
    List.getElem?_map]
  cases (outputs actions s)[index.toNat]? <;> rfl

def overlappingRuns : List HandlerAction :=
  [.event .startNewRequest,.event (.next ⟨0,true,false⟩),.event .judge,.event .testStart,
    .event .startNewRequest,.event .setProcess,.event (.construct false),
    .event (.inferAsync .queued),.event .leave,.payload 0 .pop,
    .event (.next ⟨1,true,false⟩),.event .judge,.event .testStart,.event .startNewRequest,
    .event .setProcess,.event (.construct false),.event (.inferAsync .queued),.payload 1 .pop,
    .payload 1 (.register "y" 0 [2] [1]),.payload 0 (.register "y" 0 [1] [1]),
    .payload 0 (.complete .success),.payload 0 .setFinish,.payload 0 .finish]

theorem reply_carries_own : ∃ (h : Handler) (response : InferResponse),
    (h.states 0).sent = [response] ∧ response.rawOutput = [[1]] ∧
    (InferRequestContext.mk .clear response).getInferOutput 0 ⟨[],0,[]⟩ =
      some (true,⟨[1],1,[1]⟩) := by
  have seen : (machine.exec machine.start overlappingRuns).map (fun h => (h.states 0).sent) =
      some [⟨some ⟨.success,""⟩,[⟨"y",[1],1⟩],[[1]],[]⟩] := rfl
  obtain ⟨h,run,sent⟩ := Option.map_eq_some_iff.mp seen
  have typed : ∀ a ∈ overlappingRuns, Typed a := by
    simp [overlappingRuns,Typed]
  have own : outputs overlappingRuns 0 = [⟨"y",0,[1],[1]⟩] := by decide
  have positioned : Positioned [(⟨"y",0,[1],[1]⟩ : OutputCall)] := by
    refine ⟨by simp,fun i call there => ?_⟩
    obtain ⟨rfl,rfl⟩ : i = 0 ∧ call = ⟨"y",0,[1],[1]⟩ := by
      cases i <;> simp_all
    rfl
  obtain ⟨_,reads⟩ := reply_carries_outputs run typed 0 _ (by rw [sent]; exact .head _) rfl
  rw [own] at reads
  exact ⟨h,_,sent,rfl,reads positioned _ 0 _ rfl (by decide)⟩

end InferenceServer.Handler
