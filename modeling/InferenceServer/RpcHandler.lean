import InferenceServer.InferencePayload

/-! `InferHandler`: one thread takes the events of its completion queue, and workers of the
schedulers complete the calls that it accepted. A `HandlerState` is its own tag; states
are numbered in the order of `StateNew`. -/
namespace InferenceServer

inductive CallStep where
  | start
  | process
  | finish
  deriving DecidableEq, Repr

/-- Where the payload is whose callback points to a state. From `completing` on its
worker is inside the callback, from `finishing` on inside `OnCompleted` with `step_` set. -/
inductive PayloadPlace where
  | absent
  | constructed
  | queued
  | dropped
  | held
  | completing
  | finishing
  | issued
  deriving DecidableEq, Repr

/-- `sent` lists what was passed to `responder_->Finish`, and `deletions` counts. No step
reads either. -/
structure HandlerState where
  step : CallStep
  response : InferResponse
  payload : InferencePayload
  place : PayloadPlace
  sent : List InferResponse
  deletions : Nat
  deriving DecidableEq, Repr

def HandlerState.reset : HandlerState := ⟨.start,.clear,.create,.absent,[],0⟩

/-- What `cq_->Next` returns, and whether the tag came from `Finish`. The handler does
not see the latter. -/
structure CqEvent where
  tag : Nat
  ok : Bool
  finishes : Bool
  deriving DecidableEq, Repr

inductive EventPc where
  | starting
  | waiting
  | judging (e : CqEvent)
  | closing (e : CqEvent)
  | testingStart (e : CqEvent)
  | testingFinish (e : CqEvent)
  | registering (s : Nat)
  | stepping (s : Nat)
  | constructing (s : Nat)
  | inferring (s : Nat)
  /-- `InferAsync` returned `Success`. -/
  | inferred (s : Nat)
  | failing (s : Nat) (status : Status)
  | completing (s : Nat)
  | finishing (s : Nat)
  | exited
  deriving DecidableEq, Repr

def EventPc.tag? : EventPc → Option Nat
  | .judging e | .closing e | .testingStart e | .testingFinish e => some e.tag
  | .registering s | .stepping s | .constructing s | .inferring s | .inferred s
  | .failing s _ | .completing s | .finishing s => some s
  | .starting | .waiting | .exited => none

/-- `registered` and `finished` are the tags that wait for their event. `closed` says that
an event for a registered tag was not ok; no step reads it. -/
structure Handler where
  states : Nat → HandlerState
  next : Nat
  registered : List Nat
  finished : List Nat
  thread : EventPc
  closed : Bool

/-- How a call of `InferAsync` ends; `dropped` is a push into a broken queue. -/
inductive InferOutcome where
  | queued
  | dropped
  | failed (status : Status)
  deriving DecidableEq, Repr

inductive EventAction where
  | startNewRequest
  | next (e : CqEvent)
  | drained
  | judge
  | close
  | testStart
  | testFinish
  | setProcess
  | construct (throws : Bool)
  | inferAsync (outcome : InferOutcome)
  | leave
  | fail
  | setFinish
  | finish
  deriving DecidableEq, Repr

/-- What happens to a payload after it was queued. `drop` is the end of a queue that still
holds it. -/
inductive PayloadAction where
  | pop
  | drop
  | register (name : String) (idx : Int) (content : List UInt8) (shape : List Int)
  | complete (status : Status)
  | setFinish
  | finish
  deriving DecidableEq, Repr

inductive HandlerAction where
  | event (a : EventAction)
  | payload (s : Nat) (a : PayloadAction)
  deriving DecidableEq, Repr

namespace Handler

def create : Handler := ⟨fun _ => .reset,0,[],[],.starting,false⟩

def setState (h : Handler) (s : Nat) (state : HandlerState) : Handler :=
  { h with states := Function.update h.states s state }

def startNewRequest (h : Handler) : Handler :=
  { h.setState h.next { HandlerState.reset with step := .start } with
    next := h.next + 1, registered := h.next :: h.registered }

def setFinish (h : Handler) (s : Nat) : Handler :=
  h.setState s { h.states s with step := .finish }

def finish (h : Handler) (s : Nat) : Handler :=
  { h.setState s { h.states s with sent := (h.states s).sent ++ [(h.states s).response] } with
    finished := s :: h.finished }

def stateRelease (h : Handler) (s : Nat) : Handler :=
  h.setState s { h.states s with deletions := (h.states s).deletions + 1 }

def place (h : Handler) (s : Nat) (place : PayloadPlace) : Handler :=
  h.setState s { h.states s with place := place }

/-- The body of `TakeAction`'s failure branch before `on_completed_func`. -/
def failResponse (h : Handler) (s : Nat) (status : Status) : Handler :=
  h.setState s { h.states s with
    response := { (h.states s).response with requestStatus := some ⟨.internal,status.print⟩ } }

/-- `cq_->Next` delivers one event for each tag that was registered or finished. -/
def deliver (h : Handler) (e : CqEvent) : Option Handler :=
  if e.finishes then
    if e.tag ∈ h.finished then some { h with finished := h.finished.erase e.tag } else none
  else if e.tag ∈ h.registered then
    some { h with registered := h.registered.erase e.tag, closed := h.closed || !e.ok }
  else none

def eventStep (h : Handler) (a : EventAction) : Option Handler :=
  match h.thread, a with
  | .starting, .startNewRequest => some { h.startNewRequest with thread := .waiting }
  | .waiting, .next e => (h.deliver e).map fun h => { h with thread := .judging e }
  | .waiting, .drained =>
    if h.registered = [] ∧ h.finished = [] then some { h with thread := .exited } else none
  | .judging e, .judge =>
    if !e.ok ∧ (h.states e.tag).step = .start then some { h with thread := .closing e }
    else some { h with thread := .testingStart e }
  | .closing e, .close => some { h.setFinish e.tag with thread := .testingStart e }
  | .testingStart e, .testStart =>
    if (h.states e.tag).step = .start then some { h with thread := .registering e.tag }
    else some { h with thread := .testingFinish e }
  | .testingFinish e, .testFinish =>
    if (h.states e.tag).step = .finish then
      some { h.stateRelease e.tag with thread := .waiting }
    else some { h with thread := .waiting }
  | .registering s, .startNewRequest => some { h.startNewRequest with thread := .stepping s }
  | .stepping s, .setProcess =>
    some { h.setState s { h.states s with step := .process } with thread := .constructing s }
  | .constructing s, .construct throws =>
    if throws then some { h with thread := .failing s .failedGeneric }
    else some { h.place s .constructed with thread := .inferring s }
  | .inferring s, .inferAsync .queued => some { h.place s .queued with thread := .inferred s }
  | .inferring s, .inferAsync .dropped => some { h.place s .dropped with thread := .inferred s }
  | .inferring s, .inferAsync (.failed status) =>
    if status = .success then none else some { h with thread := .failing s status }
  | .inferred _, .leave => some { h with thread := .waiting }
  | .failing s status, .fail => some { h.failResponse s status with thread := .completing s }
  | .completing s, .setFinish => some { h.setFinish s with thread := .finishing s }
  | .finishing s, .finish => some { h.finish s with thread := .waiting }
  | _, _ => none

def payloadStep (h : Handler) (s : Nat) (a : PayloadAction) : Option Handler :=
  match (h.states s).place, a with
  | .queued, .pop => some (h.place s .held)
  | .queued, .drop => some (h.place s .dropped)
  | .held, .register name idx content shape =>
    some (h.setState s { h.states s with
      payload := (h.states s).payload.registerInferOutput name idx content shape })
  | .held, .complete status =>
    let (payload,response) := (h.states s).payload.onInferCompleted (h.states s).response status
      (completionMessage status)
    some (h.setState s { h.states s with
      payload := payload, response := response, place := .completing })
  | .completing, .setFinish => some ((h.setFinish s).place s .finishing)
  | .finishing, .finish => some ((h.finish s).place s .issued)
  | _, _ => none

def step (h : Handler) : HandlerAction → Option Handler
  | .event a => h.eventStep a
  | .payload s a => h.payloadStep s a

def machine : Transition.Machine Handler HandlerAction := ⟨create,step⟩

end Handler
end InferenceServer
