import Mathlib.Data.List.Induction
import InferenceServer.InferencePayload

/-! The client's `InferRequestContext`: the request it builds, and the inputs that the server's
payload takes from it. -/
namespace InferenceServer

/-- `other` is a number without a name. -/
inductive DataType where
  | invalid
  | bool
  | uint8
  | uint16
  | uint32
  | uint64
  | int8
  | int16
  | int32
  | int64
  | fp16
  | fp32
  | fp64
  | string
  | other (value : Int)
  deriving DecidableEq, Repr

structure InferInput where
  name : String
  dims : List Int
  dataType : DataType
  batchByteSize : Nat
  deriving DecidableEq, Repr

/-- Of the requested outputs the names; a header that is not set is an empty one. -/
structure InferRequestHeader where
  batchSize : Nat
  input : List InferInput
  output : List String
  deriving DecidableEq, Repr

structure InferRequest where
  metaData : InferRequestHeader
  rawInput : List (List UInt8)
  deriving DecidableEq, Repr

def InferRequest.clear : InferRequest := ⟨⟨0,[],[]⟩,[]⟩

/-- The bytes behind a pointer and their number, a `uint32_t`. -/
structure RawInput where
  bytes : List UInt8
  fits : bytes.length < 2^32

structure InferRequestContext where
  inferRequest : InferRequest
  inferResponse : InferResponse

namespace InferRequestContext

def create : InferRequestContext := ⟨.clear,.clear⟩

/-- The overload without a data type passes `TYPE_INVALID`. -/
def addInferInput (context : InferRequestContext) (inputName : String) (input : RawInput)
    (inputDims : List UInt32) (dataType : DataType) : Bool × InferRequestContext :=
  let header := context.inferRequest.metaData
  let added : InferInput :=
    ⟨inputName,inputDims.map fun dim => dim.toNat,dataType,input.bytes.length⟩
  (true,{ context with
    inferRequest.metaData := { header with batchSize := 1, input := header.input ++ [added] }
    inferRequest.rawInput := context.inferRequest.rawInput ++ [input.bytes] })

def inputNameAt (inputNames : Option (List String)) (i : Nat) : String :=
  match inputNames with
  | some names => names.getD i ""
  | none => "INPUT__" ++ toString i

def addInferInputsLoop (inputNames : Option (List String)) (context : InferRequestContext) :
    List ((RawInput × List UInt32) × Nat) → Bool × InferRequestContext
  | [] => (true,context)
  | ((input,shape),i) :: rest =>
    let (done,context) := context.addInferInput (inputNameAt inputNames i) input shape .invalid
    if done then addInferInputsLoop inputNames context rest else (false,context)

def Refused (inputs : List RawInput) (inputShapes : List (List UInt32))
    (inputNames : Option (List String)) : Prop :=
  inputs.length ≠ inputShapes.length ∨ ∃ names ∈ inputNames, names.length ≠ inputs.length

instance (inputs : List RawInput) (inputShapes : List (List UInt32))
    (inputNames : Option (List String)) : Decidable (Refused inputs inputShapes inputNames) :=
  inferInstanceAs (Decidable (_ ∨ _))

def addInferInputs (context : InferRequestContext) (inputs : List RawInput)
    (inputShapes : List (List UInt32)) (inputNames : Option (List String)) :
    Bool × InferRequestContext :=
  if Refused inputs inputShapes inputNames then (false,context)
  else context.addInferInputsLoop inputNames (inputs.zip inputShapes).zipIdx

def requestInferOuput (context : InferRequestContext) (outputName : String) :
    Bool × InferRequestContext :=
  let header := context.inferRequest.metaData
  (true,{ context with inferRequest.metaData := { header with output := header.output ++ [outputName] } })

def clear (_ : InferRequestContext) : Bool × InferRequestContext := (true,create)

end InferRequestContext

structure MemoryReference where
  bytes : List UInt8
  deriving DecidableEq

namespace InferRequest

def inputsMemory (request : InferRequest) : List MemoryReference := request.rawInput.map (⟨·⟩)

/-- `InferencePayload::GetInputMemory` on these inputs; `none` is null. -/
def getInputMemory (request : InferRequest) (idx : Int32) : Option MemoryReference :=
  if idx.toInt < 0 ∨ request.inputsMemory.length ≤ idx.toInt.toNat then none
  else request.inputsMemory[idx.toInt.toNat]?

end InferRequest

inductive ClientCall where
  | addInferInput (inputName : String) (input : RawInput) (inputDims : List UInt32)
      (dataType : DataType)
  | addInferInputs (inputs : List RawInput) (inputShapes : List (List UInt32))
      (inputNames : Option (List String))
  | requestInferOuput (outputName : String)
  | clear

structure AddedInput where
  name : String
  input : RawInput
  dims : List UInt32
  dataType : DataType

namespace AddedInput

def header (added : AddedInput) : InferInput :=
  ⟨added.name,added.dims.map fun dim => dim.toNat,added.dataType,added.input.bytes.length⟩

def ofEntry (names : Option (List String)) (entry : (RawInput × List UInt32) × Nat) : AddedInput :=
  ⟨InferRequestContext.inputNameAt names entry.2,entry.1.1,entry.1.2,.invalid⟩

end AddedInput

namespace ClientCall

open InferRequestContext

def run (context : InferRequestContext) : ClientCall → Bool × InferRequestContext
  | .addInferInput name input dims dataType => context.addInferInput name input dims dataType
  | .addInferInputs inputs shapes names => context.addInferInputs inputs shapes names
  | .requestInferOuput name => context.requestInferOuput name
  | .clear => context.clear

/-- The inputs that a call is asked to add; a refused one adds none. -/
def inputs : ClientCall → List AddedInput
  | .addInferInput name input dims dataType => [⟨name,input,dims,dataType⟩]
  | .addInferInputs inputs shapes names =>
    if Refused inputs shapes names then []
    else (inputs.zip shapes).zipIdx.map (AddedInput.ofEntry names)
  | .requestInferOuput _ | .clear => []

def isClear : ClientCall → Bool
  | .clear => true
  | _ => false

end ClientCall

def runCalls (calls : List ClientCall) : InferRequestContext :=
  calls.foldl (fun context call => (call.run context).2) .create

def sinceClear (calls : List ClientCall) : List ClientCall :=
  (calls.reverse.takeWhile fun call => !call.isClear).reverse

def addedInputs (calls : List ClientCall) : List AddedInput :=
  (sinceClear calls).flatMap ClientCall.inputs

theorem runCalls_snoc (calls : List ClientCall) (call : ClientCall) :
    runCalls (calls ++ [call]) = (call.run (runCalls calls)).2 := by
  simp [runCalls,List.foldl_append]

theorem addedInputs_clear (calls : List ClientCall) : addedInputs (calls ++ [.clear]) = [] := by
  simp [addedInputs,sinceClear,ClientCall.isClear]

theorem addedInputs_snoc (calls : List ClientCall) {call : ClientCall}
    (kept : call.isClear = false) :
    addedInputs (calls ++ [call]) = addedInputs calls ++ call.inputs := by
  simp [addedInputs,sinceClear,kept,List.flatMap_append]

structure Holds (request : InferRequest) (added : List AddedInput) : Prop where
  headers : request.metaData.input = added.map AddedInput.header
  contents : request.rawInput = added.map fun one => one.input.bytes

namespace InferRequestContext

theorem addInferInput_holds {context : InferRequestContext} {added : List AddedInput}
    (holds : Holds context.inferRequest added) (one : AddedInput) :
    Holds (context.addInferInput one.name one.input one.dims one.dataType).2.inferRequest
      (added ++ [one]) := by
  constructor
  · simp [addInferInput,holds.headers,AddedInput.header]
  · simp [addInferInput,holds.contents]

theorem addInferInputsLoop_holds {names : Option (List String)}
    (entries : List ((RawInput × List UInt32) × Nat)) {context : InferRequestContext}
    {added : List AddedInput} (holds : Holds context.inferRequest added) :
    Holds (context.addInferInputsLoop names entries).2.inferRequest
      (added ++ entries.map (AddedInput.ofEntry names)) := by
  induction entries generalizing context added with
  | nil => simpa [addInferInputsLoop] using holds
  | cons entry rest ih =>
    have next := addInferInput_holds holds (AddedInput.ofEntry names entry)
    rw [List.map_cons,List.append_cons]
    exact ih next

theorem addInferInputsLoop_done {names : Option (List String)}
    (entries : List ((RawInput × List UInt32) × Nat)) (context : InferRequestContext) :
    (context.addInferInputsLoop names entries).1 = true := by
  induction entries generalizing context with
  | nil => rfl
  | cons entry rest ih => exact ih _

/-- `AddInferInputs` fails only where it changes nothing. -/
theorem addInferInputs_failed {context : InferRequestContext} {inputs : List RawInput}
    {shapes : List (List UInt32)} {names : Option (List String)}
    (failed : (context.addInferInputs inputs shapes names).1 = false) :
    Refused inputs shapes names ∧ (context.addInferInputs inputs shapes names).2 = context := by
  unfold addInferInputs at failed ⊢
  split at failed
  next refused => exact ⟨refused,by rw [if_pos refused]⟩
  · rw [addInferInputsLoop_done] at failed
    contradiction

end InferRequestContext

open InferRequestContext in
theorem run_holds {context : InferRequestContext} {added : List AddedInput} {call : ClientCall}
    (kept : call.isClear = false) (holds : Holds context.inferRequest added) :
    Holds (call.run context).2.inferRequest (added ++ call.inputs) := by
  cases call with
  | addInferInput name input dims dataType =>
    exact addInferInput_holds holds ⟨name,input,dims,dataType⟩
  | addInferInputs inputs shapes names =>
    simp only [ClientCall.run,ClientCall.inputs,addInferInputs]
    split
    · rw [List.append_nil]
      exact holds
    · exact addInferInputsLoop_holds _ holds
  | requestInferOuput name =>
    rw [ClientCall.inputs,List.append_nil]
    exact ⟨holds.headers,holds.contents⟩
  | clear => contradiction

theorem runCalls_holds (calls : List ClientCall) :
    Holds (runCalls calls).inferRequest (addedInputs calls) := by
  induction calls using List.reverseRecOn with
  | nil => exact ⟨rfl,rfl⟩
  | append_singleton calls call ih =>
    rw [runCalls_snoc]
    cases kept : call.isClear with
    | false =>
      rw [addedInputs_snoc calls kept]
      exact run_holds kept ih
    | true =>
      cases call with
      | clear =>
        rw [addedInputs_clear]
        exact ⟨rfl,rfl⟩
      | _ => contradiction

theorem Holds.getInputMemory {request : InferRequest} {added : List AddedInput}
    (holds : Holds request added) (idx : Int32) :
    request.getInputMemory idx =
      if 0 ≤ idx.toInt then added[idx.toInt.toNat]?.map fun one => ⟨one.input.bytes⟩ else none := by
  have memory : request.inputsMemory = added.map fun one => ⟨one.input.bytes⟩ := by
    rw [InferRequest.inputsMemory,holds.contents,List.map_map]
    rfl
  unfold InferRequest.getInputMemory
  rw [memory,List.length_map,List.getElem?_map]
  split
  next outside =>
    split
    next nonneg =>
      have past : added.length ≤ idx.toInt.toNat := by omega
      rw [List.getElem?_eq_none past,Option.map_none]
    · rfl
  next inside =>
    rw [if_pos (by omega)]

/-- Whatever the client calls, the request has one header for each raw input, with its size and
at its place, a refused `AddInferInputs` changes nothing, and the server's payload finds the
inputs added since the last `Clear` at their indices and null at any other. -/
theorem inputs_round_trip (calls : List ClientCall) :
    (runCalls calls).inferRequest.metaData.input.map InferInput.batchByteSize =
      (runCalls calls).inferRequest.rawInput.map List.length ∧
    (runCalls calls).inferRequest.metaData.input = (addedInputs calls).map AddedInput.header ∧
    (runCalls calls).inferRequest.rawInput = (addedInputs calls).map (fun one => one.input.bytes) ∧
    (∀ inputs shapes names, ((runCalls calls).addInferInputs inputs shapes names).1 = false →
      ((runCalls calls).addInferInputs inputs shapes names).2 = runCalls calls) ∧
    (∀ (idx : Int32) (i : Nat) one, idx.toInt = i → (addedInputs calls)[i]? = some one →
      (runCalls calls).inferRequest.getInputMemory idx = some ⟨one.input.bytes⟩) ∧
    (∀ idx : Int32, idx.toInt < 0 ∨ (addedInputs calls).length ≤ idx.toInt →
      (runCalls calls).inferRequest.getInputMemory idx = none) := by
  have holds := runCalls_holds calls
  refine ⟨?_,holds.headers,holds.contents,?_,?_,?_⟩
  · rw [holds.headers,holds.contents,List.map_map,List.map_map]
    rfl
  · intro inputs shapes names failed
    exact (InferRequestContext.addInferInputs_failed failed).2
  · intro idx i one same there
    rw [holds.getInputMemory,if_pos (by omega),same,Int.toNat_natCast,there]
    rfl
  · intro idx outside
    rw [holds.getInputMemory]
    split
    next nonneg =>
      have past : (addedInputs calls).length ≤ idx.toInt.toNat := by omega
      rw [List.getElem?_eq_none past,Option.map_none]
    · rfl

end InferenceServer
