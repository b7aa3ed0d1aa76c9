import InferenceServer.Deliveries
import InferenceServer.Replies

/-! The `Infer` handler and the server below it as one system. The event thread is the caller of
`InferAsync`, the callbacks run in the schedulers' workers, and call `s` is the handler's state
`s`, the caller `s` and the payloads with the id `s`. -/
namespace InferenceServer

structure System where
  handler : Handler
  server : Server

inductive SystemAction where
  /-- A step of the event thread outside `InferAsync`. -/
  | event (a : EventAction)
  /-- A step of the call of `InferAsync` that the event thread is in. -/
  | infer (a : CallerAction)
  | worker (k w : Nat) (a : WorkerAction)
  /-- `RegisterInferOutput` by the function that worker `w` of scheduler `k` is inside of. -/
  | register (k w : Nat) (name : String) (idx : Int) (content : List UInt8) (shape : List Int)
  /-- `OnInferCompleted` writes the response. -/
  | respond (k w : Nat)
  /-- The first line of `OnCompleted`. -/
  | setFinish (k w : Nat)
  /-- A payload goes with the queue of a destroyed scheduler. -/
  | drop (k : Nat) (p : Payload)
  /-- A step of a thread that meets no call. -/
  | other (a : ServerAction)
  deriving DecidableEq, Repr

def Server.payloadAt (sv : Server) (k w : Nat) : Option Payload :=
  (sv.schedulers k).threads[w]?.bind (·.pc.payload?)

/-- What a step of `InferAsync` settles for the handler. `sv` is the state after the step. -/
def Server.outcome (sv : Server) (s : Nat) : CallerAction → Option InferOutcome
  | .push _ =>
    match sv.callers s with
    | .enqueuing _ k =>
      match (sv.schedulers k).producers s with
      | .pushed _ => some .queued
      | .dropped _ => some .dropped
      | _ => none
    | _ => none
  | .lookup | .finish =>
    match sv.callers s with
    | .returned _ status => if status = .success then none else some (.failed status)
    | _ => none
  | _ => none

namespace System

def create (config : ServerConfig) : System := ⟨.create,.create config⟩

def eventStep (sys : System) (a : EventAction) : Option System :=
  match a, sys.handler.thread with
  | .inferAsync _, _ => none
  | .leave, .inferred s =>
    match sys.server.callers s with
    | .returned _ _ => (sys.handler.eventStep .leave).map (⟨·,sys.server⟩)
    | _ => none
  | a, _ => (sys.handler.eventStep a).map (⟨·,sys.server⟩)

def inferStep (sys : System) (a : CallerAction) : Option System :=
  match sys.handler.thread with
  | .inferring s | .inferred s =>
    (sys.server.callerStep s a).bind fun sv =>
      match sv.outcome s a with
      | none => some ⟨sys.handler,sv⟩
      | some outcome => (sys.handler.eventStep (.inferAsync outcome)).map (⟨·,sv⟩)
  | _ => none

/-- The callback's last line is the end of the worker's call of `OnInferCompleted`. -/
def workerStep (sys : System) (k w : Nat) (a : WorkerAction) : Option System :=
  (sys.server.workerStep k w a).bind fun sv =>
    match a with
    | .pop _ =>
      match sv.payloadAt k w with
      | none => some ⟨sys.handler,sv⟩
      | some p => (sys.handler.payloadStep p.id .pop).map (⟨·,sv⟩)
    | .complete =>
      match sys.server.payloadAt k w with
      | none => none
      | some p => (sys.handler.payloadStep p.id .finish).map (⟨·,sv⟩)
    | _ => some ⟨sys.handler,sv⟩

def step (sys : System) : SystemAction → Option System
  | .event a => sys.eventStep a
  | .infer a => sys.inferStep a
  | .worker k w a => sys.workerStep k w a
  | .register k w name idx content shape =>
    match (sys.server.schedulers k).threads[w]? with
    | some ⟨_,.running p _⟩ =>
      (sys.handler.payloadStep p.id (.register name idx content shape)).map (⟨·,sys.server⟩)
    | _ => none
  | .respond k w =>
    match (sys.server.schedulers k).threads[w]? with
    | some ⟨_,.returned p _ status⟩ =>
      (sys.handler.payloadStep p.id (.complete status)).map (⟨·,sys.server⟩)
    | _ => none
  | .setFinish k w =>
    match (sys.server.schedulers k).threads[w]? with
    | some ⟨_,.returned p _ _⟩ =>
      (sys.handler.payloadStep p.id .setFinish).map (⟨·,sys.server⟩)
    | _ => none
  | .drop k p =>
    if sys.server.destroyed k ∧ p ∈ (sys.server.schedulers k).queue.buffer then
      (sys.handler.payloadStep p.id .drop).map (⟨·,sys.server⟩)
    else none
  | .other (.caller _ _) | .other (.worker _ _ _) => none
  | .other a => (sys.server.step a).map (⟨sys.handler,·⟩)

def machine (config : ServerConfig) : Transition.Machine System SystemAction :=
  ⟨create config,step⟩

inductive SystemStep (sys : System) : SystemAction → System → Prop where
  | event {a h} : (∀ outcome, a ≠ .inferAsync outcome) →
      (∀ s, sys.handler.thread = .inferred s → ∃ p status,
        sys.server.callers s = .returned p status) →
      sys.handler.eventStep a = some h → SystemStep sys (.event a) ⟨h,sys.server⟩
  | infer {s a sv} : sys.handler.thread = .inferring s ∨ sys.handler.thread = .inferred s →
      sys.server.callerStep s a = some sv → sv.outcome s a = none →
      SystemStep sys (.infer a) ⟨sys.handler,sv⟩
  | answer {s a sv outcome h} :
      sys.handler.thread = .inferring s ∨ sys.handler.thread = .inferred s →
      sys.server.callerStep s a = some sv → sv.outcome s a = some outcome →
      sys.handler.eventStep (.inferAsync outcome) = some h → SystemStep sys (.infer a) ⟨h,sv⟩
  | work {k w a sv} : sys.server.workerStep k w a = some sv → a ≠ .complete →
      (∀ wake, a = .pop wake → sv.payloadAt k w = none) →
      SystemStep sys (.worker k w a) ⟨sys.handler,sv⟩
  | pop {k w wake sv p h} : sys.server.workerStep k w (.pop wake) = some sv →
      sv.payloadAt k w = some p → sys.handler.payloadStep p.id .pop = some h →
      SystemStep sys (.worker k w (.pop wake)) ⟨h,sv⟩
  | complete {k w sv p h} : sys.server.workerStep k w .complete = some sv →
      sys.server.payloadAt k w = some p → sys.handler.payloadStep p.id .finish = some h →
      SystemStep sys (.worker k w .complete) ⟨h,sv⟩
  | register {k w i p f name idx content shape h} :
      (sys.server.schedulers k).threads[w]? = some ⟨i,.running p f⟩ →
      sys.handler.payloadStep p.id (.register name idx content shape) = some h →
      SystemStep sys (.register k w name idx content shape) ⟨h,sys.server⟩
  | respond {k w i p f status h} :
      (sys.server.schedulers k).threads[w]? = some ⟨i,.returned p f status⟩ →
      sys.handler.payloadStep p.id (.complete status) = some h →
      SystemStep sys (.respond k w) ⟨h,sys.server⟩
  | setFinish {k w i p f status h} :
      (sys.server.schedulers k).threads[w]? = some ⟨i,.returned p f status⟩ →
      sys.handler.payloadStep p.id .setFinish = some h →
      SystemStep sys (.setFinish k w) ⟨h,sys.server⟩
  | drop {k p h} : sys.server.destroyed k = true → p ∈ (sys.server.schedulers k).queue.buffer →
      sys.handler.payloadStep p.id .drop = some h → SystemStep sys (.drop k p) ⟨h,sys.server⟩
  | other {a sv} : sys.server.step a = some sv → (∀ c b, a ≠ .caller c b) →
      (∀ k w b, a ≠ .worker k w b) → SystemStep sys (.other a) ⟨sys.handler,sv⟩

theorem step_cases {sys sys' : System} {a : SystemAction} (taken : sys.step a = some sys') :
    SystemStep sys a sys' := by
  cases a with
  | event a =>
    simp only [step,eventStep] at taken
    split at taken
    · contradiction
    next s at' =>
      split at taken
      next p status returned =>
        obtain ⟨h,stepped,rfl⟩ := Option.map_eq_some_iff.mp taken
        refine .event (by simp) (fun t there => ?_) stepped
        obtain rfl : s = t := by simpa [at'] using there
        exact ⟨p,status,returned⟩
      · contradiction
    next b _ _ notInfer notLeave =>
      obtain ⟨h,stepped,rfl⟩ := Option.map_eq_some_iff.mp taken
      refine .event notInfer (fun s there => ?_) stepped
      by_cases leaves : b = .leave
      · exact (notLeave s leaves there).elim
      · unfold Handler.eventStep at stepped
        rw [there] at stepped
        split at stepped <;> simp_all
  | infer a =>
    simp only [step,inferStep] at taken
    split at taken
    case h_1 s at' | h_2 s at' =>
      obtain ⟨sv,stepped,result⟩ := Option.bind_eq_some_iff.mp taken
      split at result
      next silent =>
        cases result
        exact .infer (by simp [at']) stepped silent
      next outcome settled =>
        obtain ⟨h,answered,rfl⟩ := Option.map_eq_some_iff.mp result
        exact .answer (by simp [at']) stepped settled answered
    · contradiction
  | worker k w a =>
    obtain ⟨sv,stepped,result⟩ := Option.bind_eq_some_iff.mp taken
    split at result
    · split at result
      next nothing =>
        cases result
        exact .work stepped (by simp) fun _ _ => nothing
      next p holds =>
        obtain ⟨h,moved,rfl⟩ := Option.map_eq_some_iff.mp result
        exact .pop stepped holds moved
    · split at result
      · contradiction
      next p holds =>
        obtain ⟨h,moved,rfl⟩ := Option.map_eq_some_iff.mp result
        exact .complete stepped holds moved
    next notPop notComplete =>
      cases result
      exact .work stepped notComplete fun wake pops => (notPop wake pops).elim
  | register k w name idx content shape =>
    simp only [step] at taken
    split at taken
    next i p f atIndex =>
      obtain ⟨h,moved,rfl⟩ := Option.map_eq_some_iff.mp taken
      exact .register atIndex moved
    · contradiction
  | respond k w =>
    simp only [step] at taken
    split at taken
    next i p f status atIndex =>
      obtain ⟨h,moved,rfl⟩ := Option.map_eq_some_iff.mp taken
      exact .respond atIndex moved
    · contradiction
  | setFinish k w =>
    simp only [step] at taken
    split at taken
    next i p f status atIndex =>
      obtain ⟨h,moved,rfl⟩ := Option.map_eq_some_iff.mp taken
      exact .setFinish atIndex moved
    · contradiction
  | drop k p =>
    simp only [step] at taken
    split at taken
    next there =>
      obtain ⟨h,moved,rfl⟩ := Option.map_eq_some_iff.mp taken
      exact .drop there.1 there.2 moved
    · contradiction
  | other a =>
    cases a with
    | caller | worker => contradiction
    | status | health | cycle | main | updater =>
      obtain ⟨sv,stepped,rfl⟩ := Option.map_eq_some_iff.mp taken
      exact .other stepped (by simp) (by simp)

theorem step_parts {sys sys' : System} {a : SystemAction} (taken : SystemStep sys a sys') :
    (sys'.handler = sys.handler ∨ ∃ b, sys.handler.step b = some sys'.handler) ∧
    (sys'.server = sys.server ∨ ∃ b, sys.server.step b = some sys'.server) := by
  cases taken with
  | @event a _ _ _ stepped => exact ⟨.inr ⟨.event a,stepped⟩,.inl rfl⟩
  | @infer s a _ _ stepped => exact ⟨.inl rfl,.inr ⟨.caller s a,stepped⟩⟩
  | @answer s a _ outcome _ _ stepped _ answered =>
    exact ⟨.inr ⟨.event (.inferAsync outcome),answered⟩,.inr ⟨.caller s a,stepped⟩⟩
  | @work k w a _ stepped => exact ⟨.inl rfl,.inr ⟨.worker k w a,stepped⟩⟩
  | @pop k w wake _ p _ stepped _ moved =>
    exact ⟨.inr ⟨.payload p.id .pop,moved⟩,.inr ⟨.worker k w (.pop wake),stepped⟩⟩
  | @complete k w _ p _ stepped _ moved =>
    exact ⟨.inr ⟨.payload p.id .finish,moved⟩,.inr ⟨.worker k w .complete,stepped⟩⟩
  | @register _ _ _ p _ name idx content shape _ _ moved =>
    exact ⟨.inr ⟨.payload p.id (.register name idx content shape),moved⟩,.inl rfl⟩
  | @respond _ _ _ p _ status _ _ moved =>
    exact ⟨.inr ⟨.payload p.id (.complete status),moved⟩,.inl rfl⟩
  | @setFinish _ _ _ p _ _ _ _ moved =>
    exact ⟨.inr ⟨.payload p.id .setFinish,moved⟩,.inl rfl⟩
  | @drop _ p _ _ _ moved => exact ⟨.inr ⟨.payload p.id .drop,moved⟩,.inl rfl⟩
  | @other a _ stepped => exact ⟨.inl rfl,.inr ⟨a,stepped⟩⟩

theorem reachable_parts {config : ServerConfig} {sys : System}
    (reach : (machine config).Reachable sys) :
    Handler.machine.Reachable sys.handler ∧ (Server.machine config).Reachable sys.server := by
  refine reach.invariant (P := fun sys => Handler.machine.Reachable sys.handler ∧
    (Server.machine config).Reachable sys.server) ⟨.start,.start⟩ ?_
  rintro sys a sys' _ ⟨handler,server⟩ taken
  obtain ⟨left,right⟩ := step_parts (step_cases taken)
  constructor
  · rcases left with same | ⟨b,stepped⟩
    · rwa [same]
    · exact .step handler stepped
  · rcases right with same | ⟨b,stepped⟩
    · rwa [same]
    · exact .step server stepped

end System
end InferenceServer
