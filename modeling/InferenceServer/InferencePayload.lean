import InferenceServer.SimpleScheduler

/-! `InferencePayload`'s outputs, and the `InferResponse` that `GrpcInferRequestContext`
makes of them. -/
namespace InferenceServer

structure InferOutput where
  name : String
  dims : List Int
  batchByteSize : Nat
  deriving DecidableEq, Repr

structure RequestStatus where
  code : RequestStatusCode
  msg : String
  deriving DecidableEq, Repr

/-- Of a `TensorProto` the shape only: the server makes none. -/
structure TensorProto where
  dims : List Int
  deriving DecidableEq, Repr

structure InferResponse where
  requestStatus : Option RequestStatus
  metaData : List InferOutput
  rawOutput : List (List UInt8)
  tensors : List TensorProto
  deriving DecidableEq, Repr

def InferResponse.clear : InferResponse := ⟨none,[],[],[]⟩

/-- The outputs of a request. `outputBufferMap` lists the `unordered_map` by key. -/
structure InferencePayload where
  responseHeader : List InferOutput
  outputBufferMap : List (Nat × List UInt8)
  maxOutputIndex : Int
  deriving DecidableEq, Repr

namespace InferencePayload

def create : InferencePayload := ⟨[],[],0⟩

/-- The key is the `int32_t` index converted to `uint64_t`. -/
def registerInferOutput (p : InferencePayload) (name : String) (idx : Int)
    (content : List UInt8) (shape : List Int) : InferencePayload where
  responseHeader := p.responseHeader ++ [⟨name,shape,content.length⟩]
  outputBufferMap :=
    (toSizeT idx,content) :: p.outputBufferMap.filter fun entry => entry.1 ≠ toSizeT idx
  maxOutputIndex := max p.maxOutputIndex idx

/-- `none` where it throws. An index without an entry reads as empty, as `operator[]`
makes it. -/
def getOutputBuffer (p : InferencePayload) (idx : Int) : Option (List UInt8) :=
  if p.maxOutputIndex < idx then none
  else some ((p.outputBufferMap.lookup (toSizeT idx)).getD [])

def outputBuffers (p : InferencePayload) : List (List UInt8) :=
  (List.range (p.maxOutputIndex + 1).toNat).filterMap fun idx : Nat => p.getOutputBuffer idx

/-- `GrpcInferRequestContext::OnInferCompleted`, up to its last line: the payload and the
response after it. `Swap` gives the payload the header the response had. -/
def onInferCompleted (p : InferencePayload) (response : InferResponse) (status : Status)
    (message : String) : InferencePayload × InferResponse :=
  if status = .success then
    ({ p with responseHeader := response.metaData },
      ⟨some ⟨.success,message⟩,p.responseHeader,response.rawOutput ++ p.outputBuffers,
        response.tensors⟩)
  else (p,{ InferResponse.clear with requestStatus := some ⟨.internal,message⟩ })

end InferencePayload
end InferenceServer
