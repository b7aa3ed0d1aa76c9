import Mathlib.Data.List.GetD
import InferenceServer.EndToEnd
import InferenceServer.InferRequestContext

/-! The callers of `Infer`: what the contexts and clients of a process send, and what they are told
of their calls. -/
namespace InferenceServer

structure SentRequest where
  modelName : String
  modelVersion : Int
  id : UInt64
  request : InferRequest

/-- `stub_->Infer`; no response is a call that failed or timed out. -/
abbrev InferStub := SentRequest → Option InferResponse

def InferResponse.code (response : InferResponse) : RequestStatusCode :=
  match response.requestStatus with
  | none => .invalid
  | some status => status.code

def InferRequestContext.toSend (context : InferRequestContext) (requestId : UInt64)
    (modelName : String) (modelVersion : Int) : SentRequest :=
  ⟨modelName,modelVersion,requestId,context.inferRequest⟩

/-- `requestId` is the static counter. A call that fails leaves the old response. -/
def InferRequestContext.infer (context : InferRequestContext) (requestId : UInt64)
    (modelName : String) (modelVersion : Int) (stub : InferStub) :
    Bool × InferRequestContext × UInt64 :=
  match stub (context.toSend requestId modelName modelVersion) with
  | none => (false,context,requestId + 1)
  | some response =>
    let context := { context with inferResponse := response }
    if response.code ≠ .success then (false,context,requestId + 1)
    else (true,context,requestId + 1)

structure InferArguments where
  modelName : String
  inputNames : List String
  inputs : List RawInput
  inputShapes : List (List UInt32)
  inputDtypes : List DataType
  batchSize : Int32

namespace InferArguments

/-- Without types the field keeps its default. -/
def dataType? (arguments : InferArguments) (idx : Nat) : Option DataType :=
  if arguments.inputDtypes.isEmpty then some .invalid else arguments.inputDtypes[idx]?

/-- What the vectors hold for one input; `none` where one of them is indexed out of its range. -/
def input? (arguments : InferArguments) (input : RawInput) (idx : Nat) : Option AddedInput := do
  let inputName ← arguments.inputNames[idx]?
  let dataType ← arguments.dataType? idx
  let inputShape ← arguments.inputShapes[idx]?
  return ⟨inputName,input,inputShape,dataType⟩

def addInputs (arguments : InferArguments) (request : InferRequest) :
    List (RawInput × Nat) → Option InferRequest
  | [] => some request
  | (input,idx) :: rest => do
    let added ← arguments.input? input idx
    arguments.addInputs
      { request with
        metaData.input := request.metaData.input ++ [added.header]
        rawInput := request.rawInput ++ [input.bytes] } rest

def Complete (arguments : InferArguments) : Prop :=
  arguments.inputs.length ≤ arguments.inputNames.length ∧
  arguments.inputs.length ≤ arguments.inputShapes.length ∧
  (arguments.inputDtypes = [] ∨ arguments.inputs.length ≤ arguments.inputDtypes.length)

def added (arguments : InferArguments) : List AddedInput :=
  arguments.inputs.zipIdx.filterMap fun entry => arguments.input? entry.1 entry.2

end InferArguments

structure InferClient where
  requestId : UInt64

namespace InferClient

def toSend (client : InferClient) (arguments : InferArguments) : Option SentRequest :=
  (arguments.addInputs
    { InferRequest.clear with metaData.batchSize := arguments.batchSize.toUInt32.toNat }
    arguments.inputs.zipIdx).map (⟨arguments.modelName,-1,client.requestId,·⟩)

def requestInference (client : InferClient) (arguments : InferArguments)
    (inferResponse : InferResponse) (stub : InferStub) :
    Option (Bool × InferResponse × InferClient) :=
  (client.toSend arguments).map fun sent =>
    match stub sent with
    | none => (false,inferResponse,⟨client.requestId + 1⟩)
    | some response =>
      if response.code ≠ .success then (false,response,⟨client.requestId + 1⟩)
      else (true,response,⟨client.requestId + 1⟩)

end InferClient

namespace InferArguments

variable {arguments : InferArguments}

theorem dataType?_isSome (idx : Nat) :
    (arguments.dataType? idx).isSome ↔
      arguments.inputDtypes = [] ∨ idx < arguments.inputDtypes.length := by
  unfold dataType?
  split
  next typeless => simp [List.isEmpty_iff.mp typeless]
  next typed =>
    have some' : arguments.inputDtypes ≠ [] := fun none => typed (by simp [none])
    simp [some']

theorem input?_eq_some {input : RawInput} {idx : Nat} {added : AddedInput} :
    arguments.input? input idx = some added ↔
      arguments.inputNames[idx]? = some added.name ∧ arguments.dataType? idx = some added.dataType ∧
      arguments.inputShapes[idx]? = some added.dims ∧ added.input = input := by
  simp only [input?,Option.bind_eq_bind,Option.bind_eq_some_iff]
  constructor
  · rintro ⟨_,named,_,typed,_,shaped,made⟩
    cases made
    exact ⟨named,typed,shaped,rfl⟩
  · rintro ⟨named,typed,shaped,rfl⟩
    exact ⟨_,named,_,typed,_,shaped,rfl⟩

theorem input?_isSome (input : RawInput) (idx : Nat) :
    (arguments.input? input idx).isSome ↔ idx < arguments.inputNames.length ∧
      idx < arguments.inputShapes.length ∧
      (arguments.inputDtypes = [] ∨ idx < arguments.inputDtypes.length) := by
  rw [← dataType?_isSome]
  constructor
  · intro there
    obtain ⟨added,is⟩ := Option.isSome_iff_exists.mp there
    obtain ⟨named,typed,shaped,_⟩ := input?_eq_some.mp is
    exact ⟨(List.getElem?_eq_some_iff.mp named).1,(List.getElem?_eq_some_iff.mp shaped).1,
      by rw [typed,Option.isSome_some]⟩
  · rintro ⟨named,shaped,typed⟩
    obtain ⟨dataType,is⟩ := Option.isSome_iff_exists.mp typed
    exact Option.isSome_iff_exists.mpr ⟨⟨_,input,_,dataType⟩,input?_eq_some.mpr
      ⟨List.getElem?_eq_getElem named,is,List.getElem?_eq_getElem shaped,rfl⟩⟩

theorem addInputs_isSome (entries : List (RawInput × Nat)) (request : InferRequest) :
    (arguments.addInputs request entries).isSome ↔
      ∀ entry ∈ entries, (arguments.input? entry.1 entry.2).isSome := by
  induction entries generalizing request with
  | nil => simp [addInputs]
  | cons entry rest ih =>
    obtain ⟨input,idx⟩ := entry
    cases here : arguments.input? input idx with
    | none => simp [addInputs,here]
    | some added => simp [addInputs,here,ih]

theorem complete_iff :
    arguments.Complete ↔
      ∀ entry ∈ arguments.inputs.zipIdx, (arguments.input? entry.1 entry.2).isSome := by
  simp only [input?_isSome]
  constructor
  · rintro ⟨named,shaped,typed⟩ ⟨input,idx⟩ member
    have inside := (List.mem_zipIdx member).2.1
    exact ⟨by omega,by omega,typed.imp_right fun typed => by omega⟩
  · intro all
    by_cases none : arguments.inputs.length = 0
    · exact ⟨by omega,by omega,.inr (by omega)⟩
    · have last := all (arguments.inputs[arguments.inputs.length - 1],arguments.inputs.length - 1)
        (List.mk_mem_zipIdx_iff_getElem?.mpr (List.getElem?_eq_getElem _))
      exact ⟨by omega,by omega,last.2.2.imp_right fun typed => by omega⟩

/-- What the loop adds is what the vectors hold, in the order of the inputs. -/
theorem addInputs_holds {entries : List (RawInput × Nat)} {request built : InferRequest}
    {before : List AddedInput} (holds : Holds request before)
    (done : arguments.addInputs request entries = some built) :
    Holds built (before ++ entries.filterMap fun entry => arguments.input? entry.1 entry.2) ∧
      built.metaData.batchSize = request.metaData.batchSize ∧
      built.metaData.output = request.metaData.output := by
  induction entries generalizing request before with
  | nil =>
    cases done
    exact ⟨by simpa using holds,rfl,rfl⟩
  | cons entry rest ih =>
    obtain ⟨added,here,later⟩ := Option.bind_eq_some_iff.mp done
    have own : added.input = entry.1 := (input?_eq_some.mp here).2.2.2
    have next : Holds
        { request with
          metaData.input := request.metaData.input ++ [added.header]
          rawInput := request.rawInput ++ [entry.1.bytes] } (before ++ [added]) :=
      ⟨by simp [holds.headers],by simp [holds.contents,own]⟩
    obtain ⟨whole,batch,output⟩ := ih next later
    refine ⟨?_,batch,output⟩
    have first : (entry :: rest).filterMap (fun entry => arguments.input? entry.1 entry.2) =
        added :: rest.filterMap fun entry => arguments.input? entry.1 entry.2 :=
      List.filterMap_cons_some here
    rw [first,List.append_cons]
    exact whole

theorem added_inputs (complete : arguments.Complete) :
    arguments.added.map AddedInput.input = arguments.inputs := by
  have here : ∀ entry ∈ arguments.inputs.zipIdx,
      (arguments.input? entry.1 entry.2).map AddedInput.input = some entry.1 := by
    intro entry member
    obtain ⟨added,is⟩ := Option.isSome_iff_exists.mp (complete_iff.mp complete entry member)
    rw [is,Option.map_some,(input?_eq_some.mp is).2.2.2]
  rw [added,List.map_filterMap,List.filterMap_eq_map_iff_forall_eq_some.mpr here,
    List.zipIdx_map_fst]

/-- Vectors of the same length, without types, describe what `AddInferInputs` adds. -/
theorem added_untyped (typeless : arguments.inputDtypes = [])
    (named : arguments.inputNames.length = arguments.inputs.length)
    (shaped : arguments.inputs.length = arguments.inputShapes.length) :
    arguments.added = (arguments.inputs.zip arguments.inputShapes).zipIdx.map
      (AddedInput.ofEntry (some arguments.inputNames)) := by
  have here : ∀ entry ∈ arguments.inputs.zipIdx, arguments.input? entry.1 entry.2 = some
      ⟨arguments.inputNames.getD entry.2 "",entry.1,arguments.inputShapes.getD entry.2 [],
        .invalid⟩ := by
    intro entry member
    have inside := List.snd_lt_of_mem_zipIdx member
    refine input?_eq_some.mpr ⟨?_,by simp [dataType?,typeless],?_,rfl⟩
    · simp only [List.getD_eq_getElem _ _ (show entry.2 < arguments.inputNames.length by omega)]
      exact List.getElem?_eq_getElem _
    · simp only [List.getD_eq_getElem _ _ (show entry.2 < arguments.inputShapes.length by omega)]
      exact List.getElem?_eq_getElem _
  rw [added,List.filterMap_eq_map_iff_forall_eq_some.mpr here]
  apply List.ext_getElem
  · simp [shaped]
  · intro idx inside within
    simp only [List.length_map,List.length_zipIdx] at inside
    simp [AddedInput.ofEntry,InferRequestContext.inputNameAt,shaped ▸ inside]

end InferArguments

namespace InferClient

variable {client : InferClient} {arguments : InferArguments} {sent : SentRequest}

theorem toSend_isSome : (client.toSend arguments).isSome ↔ arguments.Complete := by
  rw [toSend,Option.isSome_map,InferArguments.addInputs_isSome,InferArguments.complete_iff]

/-- What a request of an `InferClient` has. -/
structure Built (client : InferClient) (arguments : InferArguments) (sent : SentRequest) : Prop where
  modelName : sent.modelName = arguments.modelName
  modelVersion : sent.modelVersion = -1
  id : sent.id = client.requestId
  batchSize : sent.request.metaData.batchSize = arguments.batchSize.toUInt32.toNat
  output : sent.request.metaData.output = []
  holds : Holds sent.request arguments.added

theorem toSend_built (made : client.toSend arguments = some sent) :
    Built client arguments sent := by
  obtain ⟨request,built,rfl⟩ := Option.map_eq_some_iff.mp made
  have nothing : Holds
      { InferRequest.clear with metaData.batchSize := arguments.batchSize.toUInt32.toNat } [] :=
    ⟨rfl,rfl⟩
  obtain ⟨holds,batch,output⟩ := InferArguments.addInputs_holds nothing built
  exact ⟨rfl,rfl,rfl,batch,output,holds⟩

end InferClient

theorem InferRequestContext.addInferInputsLoop_header (names : Option (List String))
    (entries : List ((RawInput × List UInt32) × Nat)) (context : InferRequestContext) :
    (context.addInferInputsLoop names entries).2.inferRequest.metaData.output =
        context.inferRequest.metaData.output ∧
      (context.addInferInputsLoop names entries).2.inferRequest.metaData.batchSize =
        if entries = [] then context.inferRequest.metaData.batchSize else 1 := by
  induction entries generalizing context with
  | nil => exact ⟨rfl,rfl⟩
  | cons entry rest ih =>
    obtain ⟨output,batch⟩ := ih (context.addInferInput _ entry.1.1 entry.1.2 .invalid).2
    refine ⟨output,batch.trans ?_⟩
    simp [InferRequestContext.addInferInput]

theorem Holds.unique {request request' : InferRequest} {added : List AddedInput}
    (holds : Holds request added) (holds' : Holds request' added)
    (batch : request.metaData.batchSize = request'.metaData.batchSize)
    (output : request.metaData.output = request'.metaData.output) : request = request' := by
  obtain ⟨⟨_,_,_⟩,_⟩ := request
  obtain ⟨⟨_,_,_⟩,_⟩ := request'
  have headers := holds.headers.trans holds'.headers.symm
  have contents := holds.contents.trans holds'.contents.symm
  simp only at batch output headers contents
  rw [batch,output,headers,contents]

open InferRequestContext in
/-- Vectors of one length and no types make the request of a new context. -/
theorem toSend_agrees {client : InferClient} {arguments : InferArguments} {sent : SentRequest}
    (made : client.toSend arguments = some sent) (typeless : arguments.inputDtypes = [])
    (single : arguments.batchSize = 1) (nonempty : arguments.inputs ≠ [])
    (named : arguments.inputNames.length = arguments.inputs.length)
    (shaped : arguments.inputs.length = arguments.inputShapes.length) :
    ∃ context, create.addInferInputs arguments.inputs arguments.inputShapes
        (some arguments.inputNames) = (true,context) ∧
      context.toSend client.requestId arguments.modelName (-1) = sent := by
  have built := InferClient.toSend_built made
  let entries := (arguments.inputs.zip arguments.inputShapes).zipIdx
  let names := some arguments.inputNames
  have accepted : ¬Refused arguments.inputs arguments.inputShapes names := by
    simp [Refused,names,named,shaped]
  refine ⟨(create.addInferInputsLoop names entries).2,?_,?_⟩
  · rw [addInferInputs,if_neg accepted]
    exact Prod.ext (addInferInputsLoop_done entries create) rfl
  · have nothing : Holds create.inferRequest [] := ⟨rfl,rfl⟩
    have holds : Holds (create.addInferInputsLoop names entries).2.inferRequest
        ([] ++ entries.map (AddedInput.ofEntry names)) := addInferInputsLoop_holds entries nothing
    obtain ⟨output,batch⟩ := addInferInputsLoop_header names entries create
    rw [List.nil_append,← InferArguments.added_untyped typeless named shaped] at holds
    have some' : entries ≠ [] := by
      intro none
      have short := congrArg List.length none
      simp only [entries,List.length_zipIdx,List.length_zip,List.length_nil] at short
      have size := List.length_pos_iff.mpr nonempty
      omega
    rw [if_neg some'] at batch
    have same := holds.unique built.holds
      (batch.trans (by rw [built.batchSize,single]; rfl)) (output.trans built.output.symm)
    obtain ⟨_,_,_,_⟩ := sent
    obtain ⟨rfl,rfl,rfl,_,_,_⟩ := built
    exact congrArg (SentRequest.mk _ _ _) same

/-- `RequestInference` reads within its vectors exactly if each has something for every input.
Then the payload of the server finds each input at its index and nothing past them, and, where no
types are given and the lengths are the same, the request is the one of a new
`InferRequestContext`. -/
theorem requestInference_builds (client : InferClient) (arguments : InferArguments) :
    ((client.toSend arguments).isSome ↔ arguments.Complete) ∧
    ∀ sent, client.toSend arguments = some sent →
      sent.request.metaData.input = arguments.added.map AddedInput.header ∧
      (∀ idx : Int32, sent.request.getInputMemory idx =
        if 0 ≤ idx.toInt then arguments.inputs[idx.toInt.toNat]?.map fun input => ⟨input.bytes⟩
        else none) ∧
      (arguments.inputDtypes = [] → arguments.batchSize = 1 → arguments.inputs ≠ [] →
        arguments.inputNames.length = arguments.inputs.length →
        arguments.inputs.length = arguments.inputShapes.length →
        ∃ context, InferRequestContext.create.addInferInputs arguments.inputs arguments.inputShapes
            (some arguments.inputNames) = (true,context) ∧
          context.toSend client.requestId arguments.modelName (-1) = sent) := by
  refine ⟨InferClient.toSend_isSome,fun sent made => ?_⟩
  have complete := InferClient.toSend_isSome.mp (by rw [made,Option.isSome_some])
  have built := InferClient.toSend_built made
  refine ⟨built.holds.headers,fun idx => ?_,toSend_agrees made⟩
  rw [built.holds.getInputMemory,← InferArguments.added_inputs complete]
  simp only [List.getElem?_map,Option.map_map]
  rfl

inductive Sender where
  | context (c : Nat)
  | client (i : Nat)
  deriving DecidableEq

def Sender.counter : Sender → Option Nat
  | .context _ => none
  | .client i => some i

/-- A process with its contexts and clients; `sent` lists what went out, in order. -/
structure ClientProcess where
  contexts : Nat → InferRequestContext
  requestId : UInt64
  clients : Nat → InferClient
  sent : List (Sender × SentRequest)

inductive ClientAction where
  | call (c : Nat) (call : ClientCall)
  | infer (c : Nat) (modelName : String) (modelVersion : Int) (response : Option InferResponse)
  | requestInference (i : Nat) (arguments : InferArguments) (inferResponse : InferResponse)
      (response : Option InferResponse)

namespace ClientProcess

def start : ClientProcess := ⟨fun _ => .create,0,fun _ => ⟨0⟩,[]⟩

def step (process : ClientProcess) : ClientAction → Option ClientProcess
  | .call c call => some { process with
      contexts := Function.update process.contexts c (call.run (process.contexts c)).2 }
  | .infer c modelName modelVersion response =>
    let context := process.contexts c
    let (_,after,requestId) :=
      context.infer process.requestId modelName modelVersion fun _ => response
    some { process with
      contexts := Function.update process.contexts c after
      requestId := requestId
      sent := process.sent ++
        [(.context c,context.toSend process.requestId modelName modelVersion)] }
  | .requestInference i arguments inferResponse response => do
    let sent ← (process.clients i).toSend arguments
    let (_,_,client) ←
      (process.clients i).requestInference arguments inferResponse fun _ => response
    return { process with
      clients := Function.update process.clients i client
      sent := process.sent ++ [(.client i,sent)] }

def machine : Transition.Machine ClientProcess ClientAction := ⟨start,step⟩

def next (process : ClientProcess) : Option Nat → UInt64
  | none => process.requestId
  | some i => (process.clients i).requestId

def ids (process : ClientProcess) (counter : Option Nat) : List UInt64 :=
  process.sent.filterMap fun (sender,sent) => if sender.counter = counter then some sent.id else none

end ClientProcess

def callsOf (c : Nat) (actions : List ClientAction) : List ClientCall :=
  actions.filterMap fun
    | .call d call => if d = c then some call else none
    | _ => none

/-- The action that a request went out with, and the inputs it holds. -/
inductive Explained (actions : List ClientAction) : Sender → SentRequest → Prop where
  | infer {before after c modelName modelVersion response} {sent : SentRequest} :
      actions = before ++ .infer c modelName modelVersion response :: after →
      sent.modelName = modelName → sent.modelVersion = modelVersion →
      Holds sent.request (addedInputs (callsOf c before)) → Explained actions (.context c) sent
  | requestInference {before after i} {arguments : InferArguments} {inferResponse response}
      {sent : SentRequest} :
      actions = before ++ .requestInference i arguments inferResponse response :: after →
      arguments.Complete → sent.modelName = arguments.modelName → sent.modelVersion = -1 →
      Holds sent.request arguments.added → Explained actions (.client i) sent

theorem Explained.extend {actions : List ClientAction} {sender : Sender} {sent : SentRequest}
    (explained : Explained actions sender sent) (a : ClientAction) :
    Explained (actions ++ [a]) sender sent := by
  cases explained with
  | infer split named version holds =>
    exact .infer (by rw [split,List.append_assoc]; rfl) named version holds
  | requestInference split complete named version holds =>
    exact .requestInference (by rw [split,List.append_assoc]; rfl) complete named version holds

theorem InferRequestContext.infer_kept (context : InferRequestContext) (requestId : UInt64)
    (modelName : String) (modelVersion : Int) (stub : InferStub) :
    (context.infer requestId modelName modelVersion stub).2.1.inferRequest =
        context.inferRequest ∧
      (context.infer requestId modelName modelVersion stub).2.2 = requestId + 1 := by
  unfold InferRequestContext.infer
  split
  · exact ⟨rfl,rfl⟩
  · simp only
    split <;> exact ⟨rfl,rfl⟩

theorem InferClient.requestInference_next {client after : InferClient}
    {arguments : InferArguments} {held response : InferResponse} {done : Bool} {stub : InferStub}
    (made : client.requestInference arguments held stub = some (done,response,after)) :
    after.requestId = client.requestId + 1 := by
  obtain ⟨sent,_,made⟩ := Option.map_eq_some_iff.mp made
  split at made
  · cases made
    rfl
  · split at made <;> (cases made; rfl)

def Succeeded (stub : InferStub) (sent : SentRequest) : Prop :=
  ∃ response, stub sent = some response ∧ response.code = .success

theorem InferRequestContext.infer_done (context : InferRequestContext) (requestId : UInt64)
    (modelName : String) (modelVersion : Int) (stub : InferStub) :
    (context.infer requestId modelName modelVersion stub).1 = true ↔
      Succeeded stub (context.toSend requestId modelName modelVersion) := by
  unfold InferRequestContext.infer Succeeded
  cases stub (context.toSend requestId modelName modelVersion) with
  | none => simp
  | some response => by_cases success : response.code = .success <;> simp [success]

theorem InferClient.requestInference_done {client : InferClient} {arguments : InferArguments}
    {sent : SentRequest} (made : client.toSend arguments = some sent) (held : InferResponse)
    (stub : InferStub) : ∃ done response after,
      client.requestInference arguments held stub = some (done,response,after) ∧
      (done = true ↔ Succeeded stub sent) := by
  rw [requestInference,made,Option.map_some]
  refine ⟨_,_,_,rfl,?_⟩
  unfold Succeeded
  cases stub sent with
  | none => simp
  | some response => by_cases success : response.code = .success <;> simp [success]

theorem callsOf_snoc (c : Nat) (actions : List ClientAction) (a : ClientAction) :
    callsOf c (actions ++ [a]) = callsOf c actions ++ callsOf c [a] :=
  List.filterMap_append ..

namespace ClientProcess

variable {process process' : ClientProcess}

inductive Step (process : ClientProcess) : ClientAction → ClientProcess → Prop where
  | call {c call} : Step process (.call c call) { process with
      contexts := Function.update process.contexts c (call.run (process.contexts c)).2 }
  | infer {c modelName modelVersion response} {context : InferRequestContext} :
      context.inferRequest = (process.contexts c).inferRequest →
      Step process (.infer c modelName modelVersion response) { process with
        contexts := Function.update process.contexts c context
        requestId := process.requestId + 1
        sent := process.sent ++ [(.context c,
          (process.contexts c).toSend process.requestId modelName modelVersion)] }
  | requestInference {i arguments inferResponse response sent} {client : InferClient} :
      (process.clients i).toSend arguments = some sent →
      client.requestId = (process.clients i).requestId + 1 →
      Step process (.requestInference i arguments inferResponse response) { process with
        clients := Function.update process.clients i client
        sent := process.sent ++ [(.client i,sent)] }

theorem step_cases {a : ClientAction} (taken : process.step a = some process') :
    Step process a process' := by
  cases a with
  | call c call =>
    cases taken
    exact .call
  | infer c modelName modelVersion response =>
    obtain ⟨kept,next⟩ := (process.contexts c).infer_kept process.requestId modelName modelVersion
      fun _ => response
    rcases called : (process.contexts c).infer process.requestId modelName modelVersion
      fun _ => response with ⟨_,context,requestId⟩
    simp only [step,called,Option.some.injEq] at taken
    rw [called] at kept next
    obtain rfl : requestId = _ := next
    rw [← taken]
    exact .infer kept
  | requestInference i arguments inferResponse response =>
    obtain ⟨sent,made,rest⟩ := Option.bind_eq_some_iff.mp taken
    obtain ⟨⟨_,_,client⟩,called,rest⟩ := Option.bind_eq_some_iff.mp rest
    cases rest
    exact .requestInference made (InferClient.requestInference_next called)

theorem step_ids {a : ClientAction} (step : Step process a process') (counter : Option Nat) :
    process'.ids counter = process.ids counter ∧ process'.next counter = process.next counter ∨
      process'.ids counter = process.ids counter ++ [process.next counter] ∧
        process'.next counter = process.next counter + 1 := by
  cases step with
  | call => exact .inl ⟨rfl,by cases counter <;> rfl⟩
  | infer =>
    cases counter with
    | none => exact .inr ⟨by simp [ids,next,Sender.counter,InferRequestContext.toSend],rfl⟩
    | some i => exact .inl ⟨by simp [ids,Sender.counter],rfl⟩
  | @requestInference i _ _ _ sent client made number =>
    have own := (InferClient.toSend_built made).id
    cases counter with
    | none => exact .inl ⟨by simp [ids,Sender.counter],rfl⟩
    | some j =>
      by_cases same : i = j
      · subst j
        exact .inr ⟨by simp [ids,next,Sender.counter,own],by simp [next,number]⟩
      · exact .inl ⟨by simp [ids,Sender.counter,same],
          by simp [next,Function.update_of_ne (Ne.symm same)]⟩

/-- What holds of a process after its actions. -/
structure Valid (actions : List ClientAction) (process : ClientProcess) : Prop where
  contexts : ∀ c, Holds (process.contexts c).inferRequest (addedInputs (callsOf c actions))
  next : ∀ counter, process.next counter = UInt64.ofNat (process.ids counter).length
  ids : ∀ counter,
    process.ids counter = (List.range (process.ids counter).length).map UInt64.ofNat
  sent : ∀ entry ∈ process.sent, Explained actions entry.1 entry.2

/-- A context's request follows its own calls; sending it changes nothing in it. -/
theorem step_holds {actions : List ClientAction} {a : ClientAction} (valid : Valid actions process)
    (step : Step process a process') (c : Nat) :
    Holds (process'.contexts c).inferRequest (addedInputs (callsOf c (actions ++ [a]))) := by
  have before := valid.contexts c
  rw [callsOf_snoc]
  cases step with
  | @call d call =>
    by_cases same : d = c
    · subst d
      simp only [Function.update_self,callsOf,List.filterMap_cons,List.filterMap_nil,if_true]
      cases kept : call.isClear with
      | false =>
        rw [addedInputs_snoc _ kept]
        exact run_holds kept before
      | true =>
        cases call with
        | clear =>
          rw [addedInputs_clear]
          exact ⟨rfl,rfl⟩
        | _ => contradiction
    · simpa [callsOf,same,Function.update_of_ne (Ne.symm same)] using before
  | @infer d _ _ _ context kept =>
    by_cases same : d = c
    · subst d
      simpa [callsOf,kept] using before
    · simpa [callsOf,Function.update_of_ne (Ne.symm same)] using before
  | requestInference => simpa [callsOf] using before

theorem step_explained {actions : List ClientAction} {a : ClientAction}
    (valid : Valid actions process) (step : Step process a process') :
    ∀ entry ∈ process'.sent, Explained (actions ++ [a]) entry.1 entry.2 := by
  intro entry member
  cases step with
  | call => exact (valid.sent entry member).extend _
  | infer =>
    rcases List.mem_append.mp member with old | new
    · exact (valid.sent entry old).extend _
    · obtain rfl := List.mem_singleton.mp new
      exact .infer rfl rfl rfl (valid.contexts _)
  | requestInference made =>
    rcases List.mem_append.mp member with old | new
    · exact (valid.sent entry old).extend _
    · obtain rfl := List.mem_singleton.mp new
      have built := InferClient.toSend_built made
      exact .requestInference rfl (InferClient.toSend_isSome.mp (by rw [made,Option.isSome_some]))
        built.modelName built.modelVersion built.holds

theorem step_numbers {actions : List ClientAction} {a : ClientAction} (valid : Valid actions process)
    (step : Step process a process') (counter : Option Nat) :
    process'.next counter = UInt64.ofNat (process'.ids counter).length ∧
    process'.ids counter = (List.range (process'.ids counter).length).map UInt64.ofNat := by
  rcases step_ids step counter with ⟨same,stays⟩ | ⟨more,moves⟩
  · rw [same,stays]
    exact ⟨valid.next counter,valid.ids counter⟩
  · rw [more,moves,valid.next counter,List.length_append,List.length_singleton,
      List.range_succ,List.map_append,← valid.ids counter]
    exact ⟨by simp,rfl⟩

theorem step_valid {actions : List ClientAction} {a : ClientAction} (valid : Valid actions process)
    (step : Step process a process') : Valid (actions ++ [a]) process' :=
  ⟨step_holds valid step,fun counter => (step_numbers valid step counter).1,
    fun counter => (step_numbers valid step counter).2,step_explained valid step⟩

end ClientProcess

/-- Whatever the contexts and clients of a process do, each counter numbers its requests from 0
on, so that no two of its first `2^64` have the same id, and each request that went out asks for
the model of its call and holds the inputs that were added to its own context since that was last
cleared, or those of its arguments. -/
theorem requests_explained {actions : List ClientAction} {process : ClientProcess}
    (run : ClientProcess.machine.exec ClientProcess.machine.start actions = some process) :
    (∀ counter,
      process.ids counter = (List.range (process.ids counter).length).map UInt64.ofNat ∧
      ((process.ids counter).length ≤ 2^64 → (process.ids counter).Nodup)) ∧
    ∀ sender sent, (sender,sent) ∈ process.sent → Explained actions sender sent := by
  have valid : ClientProcess.Valid actions process :=
    Transition.Machine.exec_invariant (P := ClientProcess.Valid)
      ⟨fun _ => ⟨rfl,rfl⟩,fun counter => by cases counter <;> rfl,fun _ => rfl,by
        intro entry member
        cases member⟩
      (fun _ _ _ _ _ valid taken => ClientProcess.step_valid valid (ClientProcess.step_cases taken))
      run
  refine ⟨fun counter => ⟨valid.ids counter,fun few => ?_⟩,fun _ _ member => valid.sent _ member⟩
  rw [valid.ids counter]
  refine List.Nodup.map_on ?_ List.nodup_range
  intro i first j second same
  have small := List.mem_range.mp first
  have small' := List.mem_range.mp second
  have numbers := congrArg UInt64.toNat same
  simp only [UInt64.toNat_ofNat'] at numbers
  rwa [Nat.mod_eq_of_lt (by omega),Nat.mod_eq_of_lt (by omega)] at numbers

def processRun : List ClientAction :=
  [.call 0 (.addInferInput "x" ⟨[1],by decide⟩ [1] .uint8),.infer 0 "m" (-1) none,
    .requestInference 0 ⟨"m",[],[],[],[],1⟩ .clear none,.infer 0 "m" 2 none]

theorem requests_explained_resent : ∃ process,
    ClientProcess.machine.exec ClientProcess.machine.start processRun = some process ∧
    process.ids none = [0,1] ∧ process.ids (some 0) = [0] ∧
    ∀ sender sent, (sender,sent) ∈ process.sent → Explained processRun sender sent := by
  obtain ⟨process,run,seen⟩ := Option.map_eq_some_iff.mp (show
    (ClientProcess.machine.exec ClientProcess.machine.start processRun).map
      (fun process => ((process.ids none).length,(process.ids (some 0)).length)) = some (2,1)
      from rfl)
  obtain ⟨numbers,explained⟩ := requests_explained run
  simp only [Prod.mk.injEq] at seen
  refine ⟨process,run,?_,?_,explained⟩
  · rw [(numbers none).1,seen.1]
    rfl
  · rw [(numbers (some 0)).1,seen.2]
    rfl

namespace System

open Server

variable {config : ServerConfig} {sys : System} {s : Nat}

theorem Served.unique (server : (Server.machine config).Reachable sys.server) {k k' : Nat}
    {p p' : Payload} {status status' : Status} (served : Served sys s k p status)
    (served' : Served sys s k' p' status') : status = status' := by
  have once := served.ran k
  have once' := served'.ran k
  obtain rfl : k = k' := by
    by_contra other
    rw [if_pos rfl] at once
    rw [if_neg other] at once'
    omega
  obtain rfl : p = p' := Option.some.inj (served.asked.symm.trans served'.asked)
  obtain ⟨w,completed⟩ := served.completed
  obtain ⟨w',completed'⟩ := served'.completed
  have whole := appended_somewhere server
    (appended_of_copy server (.inr (.inr (mem_completed.mpr ⟨w,status,_,completed⟩))))
  exact completed_unique (by omega) completed completed'

/-- A reply says `SUCCESS` exactly if one run of a backend stands behind the call and returned it. -/
theorem success_iff (reach : (machine config).Reachable sys) {response : InferResponse}
    (sent : response ∈ (sys.handler.states s).sent) :
    response.code = .success ↔ ∃ k p, Served sys s k p .success := by
  have server := (reachable_parts reach).2
  cases sent_reported reach sent with
  | success served written => exact iff_of_true (by simp [InferResponse.code,written]) ⟨_,_,served⟩
  | failure failed served written =>
    refine iff_of_false (by simp [InferResponse.code,written]) ?_
    rintro ⟨k,p,other⟩
    exact failed (served.unique server other)
  | refusal _ unrun _ written =>
    refine iff_of_false (by simp [InferResponse.code,written]) ?_
    rintro ⟨k,p,served⟩
    have once := served.ran k
    rw [unrun k,if_pos rfl] at once
    contradiction

/-- Call `s` is the request that went out, and what comes back is what the handler sent. -/
structure Carries (sys : System) (s : Nat) (stub : InferStub) (sent : SentRequest) : Prop where
  there : ∀ p, (sys.server.callers s).payload? = some p →
    p.modelName = sent.modelName ∧ p.modelVersion = sent.modelVersion
  back : ∀ response, stub sent = some response → response ∈ (sys.handler.states s).sent

def Done (sys : System) (s : Nat) (sent : SentRequest) : Prop :=
  ∃ k p, Served sys s k p .success ∧ p.modelName = sent.modelName ∧
    p.modelVersion = sent.modelVersion

theorem Carries.succeeded_iff (reach : (machine config).Reachable sys) {stub : InferStub}
    {sent : SentRequest} (carries : Carries sys s stub sent) :
    Succeeded stub sent ↔ stub sent ≠ none ∧ Done sys s sent := by
  constructor
  · rintro ⟨response,answered,success⟩
    obtain ⟨k,p,served⟩ := (success_iff reach (carries.back response answered)).mp success
    exact ⟨by simp [answered],k,p,served,carries.there p served.asked⟩
  · rintro ⟨answered,k,p,served,_⟩
    obtain ⟨response,answered⟩ := Option.ne_none_iff_exists'.mp answered
    exact ⟨response,answered,(success_iff reach (carries.back response answered)).mpr ⟨k,p,served⟩⟩

/-- Both callers of `Infer` are told of success exactly if their call was answered and a backend
of the model they asked for was run for it once and returned `Success`. -/
theorem clients_told (reach : (machine config).Reachable sys) (s : Nat) (stub : InferStub) :
    (∀ (context : InferRequestContext) requestId modelName modelVersion,
      Carries sys s stub (context.toSend requestId modelName modelVersion) →
      ((context.infer requestId modelName modelVersion stub).1 = true ↔
        stub (context.toSend requestId modelName modelVersion) ≠ none ∧
        Done sys s (context.toSend requestId modelName modelVersion))) ∧
    ∀ (client : InferClient) arguments sent held, client.toSend arguments = some sent →
      Carries sys s stub sent → ∃ done response after,
        client.requestInference arguments held stub = some (done,response,after) ∧
        (done = true ↔ stub sent ≠ none ∧ Done sys s sent) := by
  constructor
  · intro context requestId modelName modelVersion carries
    exact (context.infer_done ..).trans (carries.succeeded_iff reach)
  · intro client arguments sent held made carries
    obtain ⟨done,response,after,called,told⟩ := client.requestInference_done made held stub
    exact ⟨done,response,after,called,told.trans (carries.succeeded_iff reach)⟩

def oneInput : InferArguments := ⟨"m",["x"],[⟨[1],by decide⟩],[[1]],[.uint8],1⟩

/-- The answer to the first call goes to a context with that input, and to a client with it. -/
theorem clients_told_answered : ∃ (sys : System) (response : InferResponse)
    (context : InferRequestContext) (sent : SentRequest),
    (context.infer 0 "m" (-1) fun _ => some response).1 = true ∧
    Done sys 0 (context.toSend 0 "m" (-1)) ∧
    (context.toSend 0 "m" (-1)).request.rawInput = [[1]] ∧
    (InferClient.mk 0).toSend oneInput = some sent ∧ sent.request.rawInput = [[1]] ∧
    ∃ response' after, (InferClient.mk 0).requestInference oneInput .clear
      (fun _ => some response) = some (true,response',after) := by
  obtain ⟨sys,reach,seen⟩ := Transition.Machine.exec_observed (m := machine ⟨false,4⟩) answeredRun
    (fun sys => ((sys.handler.states 0).sent.map fun response => response.code,
      (sys.server.callers 0).payload?))
    ([.success],some ⟨0,"m",-1⟩) rfl
  simp only [Prod.mk.injEq,List.map_eq_singleton_iff] at seen
  obtain ⟨⟨response,same,code⟩,asked⟩ := seen
  have carries (sent : SentRequest) (named : sent.modelName = "m")
      (version : sent.modelVersion = -1) : Carries sys 0 (fun _ => some response) sent := by
    refine ⟨fun p is => ?_,fun _ back => ?_⟩
    · cases asked.symm.trans is
      exact ⟨named.symm,version.symm⟩
    · cases back
      simp [same]
  obtain ⟨contexts,clients⟩ := clients_told reach 0 fun _ => some response
  let context := (InferRequestContext.create.addInferInput "x" ⟨[1],by decide⟩ [1] .uint8).2
  have told : (context.infer 0 "m" (-1) fun _ => some response).1 = true := by
    simp [InferRequestContext.infer,code]
  have done := (contexts context 0 "m" (-1) (carries _ rfl rfl)).mp told
  obtain ⟨done',response',after,called,iff⟩ :=
    clients ⟨0⟩ oneInput _ .clear rfl (carries _ rfl rfl)
  obtain rfl := iff.mpr done
  exact ⟨sys,response,context,_,told,done.2,rfl,rfl,rfl,response',after,called⟩

end System
end InferenceServer
