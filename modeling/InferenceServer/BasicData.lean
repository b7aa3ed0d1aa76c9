import Mathlib.Algebra.Ring.Int.Defs
import Mathlib.Algebra.Ring.Nat
import Mathlib.Data.List.Basic

/-! Status codes, constants and the configuration records the other modules read. -/
namespace InferenceServer

inductive Status where
  | success
  | failedGeneric
  | failedInvalidServerConfig
  | faieldRpcAlreadyRunning
  | failedRpcNotRunning
  | failedModelRepoPathNotExist
  | failedModelConfigInvalid
  | failedModelConfigIoNotFound
  | failedModelConfigPlatformUnknown
  | faieldModelManagerAlreadyRunning
  | faieldModelManagerNotRunning
  | failedSchedulerNotRunning
  | failedSchedulerAlreadyRunning
  | failedInferNoSchedulerConfigured
  | failedInferNoBackendFound
  | failedModelWarmup
  | failedModelLoad
  deriving DecidableEq, Repr

/-- The enumerators restart at 100, 200, 300 and 400. -/
def Status.code : Status → Nat
  | .success => 0
  | .failedGeneric => 1
  | .failedInvalidServerConfig => 2
  | .faieldRpcAlreadyRunning => 3
  | .failedRpcNotRunning => 4
  | .failedModelRepoPathNotExist => 100
  | .failedModelConfigInvalid => 101
  | .failedModelConfigIoNotFound => 102
  | .failedModelConfigPlatformUnknown => 103
  | .faieldModelManagerAlreadyRunning => 104
  | .faieldModelManagerNotRunning => 105
  | .failedSchedulerNotRunning => 200
  | .failedSchedulerAlreadyRunning => 201
  | .failedInferNoSchedulerConfigured => 300
  | .failedInferNoBackendFound => 301
  | .failedModelWarmup => 400
  | .failedModelLoad => 401

def Status.print (s : Status) : String := "Status = " ++ toString s.code

namespace Constants

/-- Compared with `Timer::toc()`, which counts milliseconds. -/
def maxSchedulerDepletionWaitTime : Int := 120
def kDemoPlatform : String := "demo"
def kPyTorchLibTorchPlatform : String := "pytorch_libtorch"
def kTreeLitePlatform : String := "treelite"
def kTensorRTPlatform : String := "tensorrt"
def kOpenVINOPlatform : String := "openvino"
def kOnnxRuntimePlatform : String := "onnxruntime"
def kTensorflowSavedModelPlatform : String := "tensorflow_savedmodel"
def kLightGBMPlatform : String := "lightgbm"

end Constants

inductive Platform where
  | unknown
  | pytorchLibtorch
  | tensorflowSavedmodel
  | treeLite
  | tensorrt
  | openvino
  | onnxruntime
  | lightgbm
  | demo
  deriving DecidableEq, Repr

/-- What `strcmp` sees of a `std::string`: everything before the first NUL. -/
def cStr (s : String) : String := String.ofList (s.toList.takeWhile (· ≠ '\x00'))

def convertStringToPlatformType (platform : String) : Platform :=
  if cStr platform = Constants.kPyTorchLibTorchPlatform then .pytorchLibtorch
  else if cStr platform = Constants.kTensorflowSavedModelPlatform then .tensorflowSavedmodel
  else if cStr platform = Constants.kTreeLitePlatform then .treeLite
  else if cStr platform = Constants.kTensorRTPlatform then .tensorrt
  else if cStr platform = Constants.kOpenVINOPlatform then .openvino
  else if cStr platform = Constants.kOnnxRuntimePlatform then .onnxruntime
  else if cStr platform = Constants.kLightGBMPlatform then .lightgbm
  else if cStr platform = Constants.kDemoPlatform then .demo
  else .unknown

/-- `int32_t` to `size_t`, as `BlockingQueue`'s capacity is initialised. -/
def toSizeT (n : Int) : Nat := (BitVec.ofInt 64 n).toNat

def toInt32 (n : Nat) : Int := (BitVec.ofNat 32 n).toInt

theorem toInt32_eq {n : Nat} (small : n < 2^31) : toInt32 n = n := by
  have whole : n % 2^32 = n := Nat.mod_eq_of_lt (by omega)
  rw [toInt32,BitVec.toInt_eq_toNat_of_lt]
  · rw [BitVec.toNat_ofNat,whole]
  · rw [BitVec.toNat_ofNat,whole]
    omega

inductive RequestStatusCode where
  | invalid
  | success
  | internal
  | unsupported
  deriving DecidableEq, Repr

structure ServerConfig where
  autoUpdate : Bool
  maxQueueSize : Int

end InferenceServer
