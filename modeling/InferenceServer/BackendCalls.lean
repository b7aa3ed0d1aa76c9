import InferenceServer.Backend
import InferenceServer.Transition

/-! Overlapping calls of `Run` on one backend and the counter that `WaitInferComplete` reads.
`RunWarmup` is `Run` under another name. -/
namespace InferenceServer

/-- A call's place in `Run`; the numbers are those of contexts. -/
inductive RunPc where
  /-- The counter was increased, the index not looked at. -/
  | counted
  | inContext (context : Nat)
  | pastEnd
  | ran (context : Nat) (status : Status)
  | returned (context : Option Nat) (status : Status)
  deriving DecidableEq, Repr

structure RunCall where
  idx : Int
  pc : RunPc
  deriving DecidableEq, Repr

def RunCall.inFlight (call : RunCall) : Bool :=
  match call.pc with
  | .returned _ _ => false
  | _ => true

/-- Calls are numbered in the order in which they increase the counter. -/
structure BackendCalls where
  backend : ModelBackend
  calls : List RunCall
  deriving DecidableEq, Repr

inductive RunAction where
  | call (idx : Int)
  | judge (c : Nat)
  | ret (c : Nat) (status : Status)
  | leave (c : Nat)
  deriving DecidableEq, Repr

namespace BackendCalls

def setCall (s : BackendCalls) (c : Nat) (idx : Int) (pc : RunPc) : BackendCalls :=
  { s with calls := s.calls.set c ⟨idx,pc⟩ }

/-- A call past the last context has no defined step. -/
def step (s : BackendCalls) : RunAction → Option BackendCalls
  | .call idx => some ⟨s.backend.enterRun,s.calls ++ [⟨idx,.counted⟩]⟩
  | .judge c =>
    match s.calls[c]? with
    | some ⟨idx,.counted⟩ =>
      match s.backend.runEntry idx with
      | .refused => some { s.setCall c idx (.returned none .failedGeneric) with
          backend := s.backend.leaveRun .refused }
      | .inContext context => some (s.setCall c idx (.inContext context))
      | .pastEnd => some (s.setCall c idx .pastEnd)
    | _ => none
  | .ret c status =>
    match s.calls[c]? with
    | some ⟨idx,.inContext context⟩ => some (s.setCall c idx (.ran context status))
    | _ => none
  | .leave c =>
    match s.calls[c]? with
    | some ⟨idx,.ran context status⟩ => some { s.setCall c idx (.returned context status) with
        backend := s.backend.leaveRun (.inContext context) }
    | _ => none

def machine (b : ModelBackend) : Transition.Machine BackendCalls RunAction :=
  ⟨⟨{ b with runningInferenceProcess := 0 },[]⟩,step⟩

def inFlight (s : BackendCalls) : Nat := s.calls.countP RunCall.inFlight

def Inside (s : BackendCalls) (idx : Int) : Prop := 0 ≤ idx ∧ idx < s.backend.contexts.length

/-- What became of a call: it ran the context with its index, or it was turned away. -/
def Exact (s : BackendCalls) (call : RunCall) : Prop :=
  match call.pc with
  | .counted => True
  | .inContext context | .ran context _ | .returned (some context) _ =>
    s.Inside call.idx ∧ context = call.idx
  | .pastEnd => False
  | .returned none status => ¬s.Inside call.idx ∧ status = .failedGeneric

/-- The counter is the number of calls in flight, so that `WaitInferComplete` waits for them,
and each call ran its context or none. -/
structure Accounted (s : BackendCalls) : Prop where
  counter : s.backend.runningInferenceProcess = s.inFlight
  calls : ∀ call ∈ s.calls, s.Exact call
  waits : s.backend.waits = false ↔ ∀ call ∈ s.calls, call.inFlight = false

/-- The index of a new call is that of a context, and `int` can count the call. -/
def meets (s : BackendCalls) : RunAction → Bool
  | .call idx => 0 ≤ idx ∧ idx < s.backend.contexts.length ∧ s.inFlight + 1 < 2^31
  | _ => true

inductive Step (s : BackendCalls) : RunAction → BackendCalls → Prop where
  | call {idx : Int} : Step s (.call idx) ⟨s.backend.enterRun,s.calls ++ [⟨idx,.counted⟩]⟩
  | enter {c : Nat} {idx : Int} {context : Nat} (there : s.calls[c]? = some ⟨idx,.counted⟩)
      (entry : s.backend.runEntry idx = .inContext context) :
      Step s (.judge c) (s.setCall c idx (.inContext context))
  | refuse {c : Nat} {idx : Int} (there : s.calls[c]? = some ⟨idx,.counted⟩)
      (entry : s.backend.runEntry idx = .refused) :
      Step s (.judge c) (s.setCall c idx (.returned none .failedGeneric))
  | past {c : Nat} {idx : Int} (there : s.calls[c]? = some ⟨idx,.counted⟩)
      (entry : s.backend.runEntry idx = .pastEnd) :
      Step s (.judge c) (s.setCall c idx .pastEnd)
  | ret {c : Nat} {status : Status} {idx : Int} {context : Nat}
      (there : s.calls[c]? = some ⟨idx,.inContext context⟩) :
      Step s (.ret c status) (s.setCall c idx (.ran context status))
  | leave {c : Nat} {idx : Int} {context : Nat} {status : Status}
      (there : s.calls[c]? = some ⟨idx,.ran context status⟩) :
      Step s (.leave c) { s.setCall c idx (.returned context status) with
        backend := s.backend.leaveRun (.inContext context) }

theorem step_cases {s s' : BackendCalls} {a : RunAction} (taken : s.step a = some s') :
    Step s a s' := by
  cases a with
  | call idx =>
    cases taken
    exact .call
  | judge c =>
    simp only [step] at taken
    split at taken
    next idx there =>
      split at taken <;> cases taken
      next entry => exact .refuse there entry
      next context entry => exact .enter there entry
      next entry => exact .past there entry
    · contradiction
  | ret c status =>
    simp only [step] at taken
    split at taken <;> cases taken
    next there => exact .ret there
  | leave c =>
    simp only [step] at taken
    split at taken <;> cases taken
    next there => exact .leave there

theorem inFlight_setCall {s : BackendCalls} {c : Nat} {idx : Int} {before : RunPc} (after : RunPc)
    (there : s.calls[c]? = some ⟨idx,before⟩) (flying : (RunCall.mk idx before).inFlight = true) :
    (s.setCall c idx after).inFlight + 1 =
      s.inFlight + if (RunCall.mk idx after).inFlight then 1 else 0 := by
  obtain ⟨bound,same⟩ := List.getElem?_eq_some_iff.mp there
  have some : 0 < s.inFlight :=
    List.countP_pos_iff.mpr ⟨_,List.mem_of_getElem? there,flying⟩
  unfold inFlight at some ⊢
  rw [setCall,List.countP_set bound,same,if_pos flying]
  omega

structure Sound (s : BackendCalls) : Prop where
  counter : s.backend.runningInferenceProcess = s.inFlight
  small : s.inFlight < 2^31
  calls : ∀ call ∈ s.calls, s.Inside call.idx ∧ s.Exact call

theorem create_sound (b : ModelBackend) : Sound (machine b).start :=
  ⟨rfl,by simp [machine,inFlight],by simp [machine]⟩

theorem atomicInt_eq {n : Int} (low : -2^31 ≤ n) (high : n < 2^31) : atomicInt n = n := by
  rw [atomicInt,Int.bmod_def]
  omega

theorem calls_set {s s' : BackendCalls} (sound : Sound s) {c : Nat} {idx : Int}
    {before after : RunPc} (there : s.calls[c]? = some ⟨idx,before⟩)
    (calls : s'.calls = s.calls.set c ⟨idx,after⟩)
    (contexts : s'.backend.contexts = s.backend.contexts)
    (keeps : s.Inside idx → s.Exact ⟨idx,before⟩ → s.Exact ⟨idx,after⟩) :
    ∀ call ∈ s'.calls, s'.Inside call.idx ∧ s'.Exact call := by
  have same (call : RunCall) :
      s'.Inside call.idx ∧ s'.Exact call ↔ s.Inside call.idx ∧ s.Exact call := by
    simp only [Inside,Exact,contexts]
  intro call member
  rw [same]
  rw [calls] at member
  rcases List.mem_or_eq_of_mem_set member with old | rfl
  · exact sound.calls call old
  · obtain ⟨inside,held⟩ := sound.calls _ (List.mem_of_getElem? there)
    exact ⟨inside,keeps inside held⟩

theorem step_sound {s s' : BackendCalls} {a : RunAction} (taken : s.step a = some s')
    (met : s.meets a = true) (sound : Sound s) : Sound s' := by
  have counter := sound.counter
  have small := sound.small
  cases step_cases taken with
  | @call idx =>
    simp only [meets,decide_eq_true_eq] at met
    obtain ⟨nonneg,below,room⟩ := met
    have more : (BackendCalls.mk s.backend.enterRun (s.calls ++ [⟨idx,.counted⟩])).inFlight =
        s.inFlight + 1 := by
      simp [inFlight,List.countP_append,RunCall.inFlight]
    refine ⟨?_,by omega,?_⟩
    · rw [more]
      simp only [ModelBackend.enterRun,counter]
      rw [atomicInt_eq (by omega) (by omega)]
      rfl
    · intro call member
      rcases List.mem_append.mp member with old | new
      · exact sound.calls call old
      · obtain rfl := List.mem_singleton.mp new
        exact ⟨⟨nonneg,below⟩,trivial⟩
  | @enter c idx context there entry =>
    have kept := inFlight_setCall (.inContext context) there rfl
    have same : (s.setCall c idx (.inContext context)).inFlight = s.inFlight :=
      Nat.succ_injective kept
    refine ⟨counter.trans (by rw [same]),by omega,calls_set sound there rfl rfl ?_⟩
    intro inside _
    rw [runEntry_inContext inside.1 inside.2] at entry
    cases entry
    exact ⟨inside,Int.toNat_of_nonneg inside.1⟩
  | refuse there entry | past there entry =>
    obtain ⟨inside,_⟩ := sound.calls _ (List.mem_of_getElem? there)
    rw [runEntry_inContext inside.1 inside.2] at entry
    contradiction
  | @ret c status idx context there =>
    have kept := inFlight_setCall (.ran context status) there rfl
    have same : (s.setCall c idx (.ran context status)).inFlight = s.inFlight :=
      Nat.succ_injective kept
    exact ⟨counter.trans (by rw [same]),by omega,calls_set sound there rfl rfl fun _ held => held⟩
  | @leave c idx context status there =>
    have fewer := inFlight_setCall (.returned context status) there rfl
    have one : (s.setCall c idx (.returned context status)).inFlight + 1 = s.inFlight := fewer
    refine ⟨?_,?_,calls_set sound there rfl rfl fun _ held => held⟩
    · change atomicInt (s.backend.runningInferenceProcess - 1) =
        (s.setCall c idx (.returned context status)).inFlight
      rw [counter,atomicInt_eq (by omega) (by omega)]
      omega
    · change (s.setCall c idx (.returned context status)).inFlight < 2^31
      omega

theorem Sound.accounted {s : BackendCalls} (sound : Sound s) : Accounted s := by
  refine ⟨sound.counter,fun call member => (sound.calls call member).2,?_⟩
  rw [ModelBackend.waits,sound.counter,decide_eq_false_iff_not]
  constructor
  · intro done call member
    by_contra flying
    have some : 0 < s.inFlight :=
      List.countP_pos_iff.mpr ⟨call,member,by simpa using flying⟩
    omega
  · intro none
    have zero : s.inFlight = 0 := List.countP_eq_zero.mpr (by simpa using none)
    omega

/-- A call that is not counted within an `int` makes the counter wrong at once. -/
theorem call_uncounted (s : BackendCalls) (idx : Int) (full : 2^31 ≤ s.inFlight + 1) :
    ¬Accounted ⟨s.backend.enterRun,s.calls ++ [⟨idx,.counted⟩]⟩ := by
  intro accounted
  have more : (BackendCalls.mk s.backend.enterRun (s.calls ++ [⟨idx,.counted⟩])).inFlight =
      s.inFlight + 1 := by
    simp [inFlight,List.countP_append,RunCall.inFlight]
  have bound : s.backend.enterRun.runningInferenceProcess < 2^31 := by
    simp only [ModelBackend.enterRun,atomicInt]
    exact Int.bmod_lt (by decide)
  rw [accounted.counter,more] at bound
  omega

/-- A call whose index is that of no context is either turned away without being taken off the
counter, or reads past the last context. -/
theorem judge_unaccounted {s : BackendCalls} {c : Nat} {idx : Int}
    (there : s.calls[c]? = some ⟨idx,.counted⟩) (outside : ¬s.Inside idx)
    (accounted : Accounted s) : ∃ s', s.step (.judge c) = some s' ∧ ¬Accounted s' := by
  have bound := (List.getElem?_eq_some_iff.mp there).1
  rcases runEntry_outside outside with entry | entry
  · refine ⟨s.setCall c idx (.returned none .failedGeneric),?_,fun after => ?_⟩
    · simp only [step,there,entry]
      rfl
    · have fewer := inFlight_setCall (.returned none .failedGeneric) there rfl
      have one : (s.setCall c idx (.returned none .failedGeneric)).inFlight + 1 = s.inFlight := fewer
      have now := after.counter
      have before := accounted.counter
      change s.backend.runningInferenceProcess = _ at now
      omega
  · refine ⟨s.setCall c idx .pastEnd,?_,fun after => ?_⟩
    · simp only [step,there,entry]
    · have member : RunCall.mk idx .pastEnd ∈ (s.setCall c idx .pastEnd).calls :=
        List.mem_iff_getElem.mpr ⟨c,by simpa [setCall] using bound,by simp [setCall]⟩
      exact after.calls _ member

/-- On runs whose calls all have the index of a context, and fewer than `2^31` of which overlap,
the counter is the number of calls in flight and each call runs the context with its index. Any
other call goes on to a state where that fails. -/
theorem run_accounted_iff (b : ModelBackend) :
    (∀ s, (machine b).ReachableBy (fun s a => s.meets a = true) s → Accounted s) ∧
    (∀ (s : BackendCalls) a s', s.step a = some s' → s.meets a = false →
      ∃ actions s'', (machine b).exec s' actions = some s'' ∧ ¬Accounted s'') := by
  constructor
  · intro s reach
    have sound : Sound s := by
      apply reach.invariant (P := Sound) (create_sound b)
      intro s a s' _ sound met taken
      exact step_sound taken met sound
    exact sound.accounted
  · intro s a s' taken unmet
    cases a with
    | judge | ret | leave => contradiction
    | call idx =>
      cases taken
      by_cases accounted : Accounted ⟨s.backend.enterRun,s.calls ++ [⟨idx,.counted⟩]⟩
      · simp only [meets,decide_eq_false_iff_not,not_and] at unmet
        have outside : ¬s.Inside idx := by
          intro inside
          exact call_uncounted s idx (Nat.le_of_not_lt (unmet inside.1 inside.2)) accounted
        have there : (s.calls ++ [⟨idx,.counted⟩])[s.calls.length]? =
            some (RunCall.mk idx .counted) := by simp
        obtain ⟨s'',taken,broken⟩ := judge_unaccounted
          (s := ⟨s.backend.enterRun,s.calls ++ [⟨idx,.counted⟩]⟩) there outside accounted
        exact ⟨[.judge s.calls.length],s'',Option.bind_eq_some_iff.mpr ⟨s'',taken,rfl⟩,broken⟩
      · exact ⟨[],_,rfl,accounted⟩

def overlapping : List RunAction :=
  [.call 1,.judge 0,.call 0,.judge 1,.ret 0 .success,.leave 0]

def twoContexts : ModelBackend := ⟨"m",1,⟨"demo",[]⟩,.demo,[⟨"c_0_cpu",0⟩,⟨"c_1_cpu",0⟩],0⟩

theorem run_accounted_overlapping : ∃ s : BackendCalls,
    s.calls = [⟨1,.returned (some 1) .success⟩,⟨0,.inContext 0⟩] ∧ s.inFlight = 1 ∧
    s.backend.runningInferenceProcess = 1 := by
  obtain ⟨s,reach,seen⟩ := Transition.Machine.exec_observed
    (m := (machine twoContexts).restrict fun s a => s.meets a = true) overlapping
    (fun s => (s.calls,s.inFlight)) ([⟨1,.returned (some 1) .success⟩,⟨0,.inContext 0⟩],1) rfl
  obtain ⟨calls,flying⟩ := Prod.mk.injEq .. ▸ seen
  have accounted := (run_accounted_iff twoContexts).1 s
    (Transition.Machine.restrict_reachable reach)
  exact ⟨s,calls,flying,by rw [accounted.counter,flying]; rfl⟩

/-- A call with a negative index returns and stays counted. -/
theorem refused_still_counted : ∃ s : BackendCalls, (machine twoContexts).Reachable s ∧
    s.calls = [⟨-1,.returned none .failedGeneric⟩] ∧ s.backend.runningInferenceProcess = 1 ∧
    ¬Accounted s := by
  obtain ⟨s,reach,seen⟩ := Transition.Machine.exec_observed (m := machine twoContexts)
    [.call (-1),.judge 0] (fun s => (s.calls,s.backend.runningInferenceProcess))
    ([⟨-1,.returned none .failedGeneric⟩],1) rfl
  obtain ⟨calls,counter⟩ := Prod.mk.injEq .. ▸ seen
  refine ⟨s,reach,calls,counter,fun accounted => ?_⟩
  have same := accounted.counter
  rw [counter,inFlight,calls] at same
  contradiction

end BackendCalls
end InferenceServer
