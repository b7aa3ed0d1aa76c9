import Mathlib.Data.List.AList
import InferenceServer.Backend

/-! `model_map_` and what `ModelManager` reads from it and from the model repository. -/
namespace InferenceServer

inductive StollError where
  | invalidArgument
  | outOfRange
  deriving DecidableEq, Repr

def isSpace (c : Char) : Bool := c = ' ' ∨ '\t' ≤ c ∧ c ≤ '\r'

/-- `std::stoll` in base ten: white space, a sign, the longest run of digits. What
follows the digits is ignored. -/
def stoll (s : String) : Except StollError Int :=
  let rest := s.toList.dropWhile isSpace
  let (negative,unsigned) := match rest with
    | '-' :: r => (true,r)
    | '+' :: r => (false,r)
    | r => (false,r)
  let digits := unsigned.takeWhile Char.isDigit
  if digits = [] then .error .invalidArgument
  else
    let magnitude : Nat := digits.foldl (fun n c => 10 * n + (c.toNat - '0'.toNat)) 0
    let version : Int := if negative then -magnitude else magnitude
    if version < -2^63 ∨ 2^63 ≤ version then .error .outOfRange else .ok version

def getHighestVersion (dirs : List String) : Int :=
  dirs.foldl (fun highest dir => match stoll dir with
    | .ok version => if highest < version then version else highest
    | .error _ => highest) (-1)

example : getHighestVersion ["1","tmp","12","7"] = 12 := by decide

structure ModelLoadInfo where
  modelName : String
  modelVersion : Int
  deriving DecidableEq, Repr

/-- `backend_` is the number of the backend it owns, or null. -/
structure BackendInfo where
  modelName : String
  modelVersion : Int
  platform : Platform
  modelConfig : ModelConfig
  backend : Option Nat
  deriving DecidableEq, Repr

structure ModelRunContext where
  scheduler : Nat
  backendInfo : Option BackendInfo
  deriving DecidableEq, Repr

abbrev ModelMap := AList fun _ : String => ModelRunContext

/-- `LoadModel` on the content of the configuration file; `fresh` numbers the backend it
creates. `none` is its null result. -/
def loadModel (load : ModelLoadInfo) (content : Option ModelConfig) (fresh : Nat) :
    Option (BackendInfo × Option ModelBackend) :=
  match content with
  | none => none
  | some config =>
    let platform := convertStringToPlatformType config.platform
    match createModelBackend platform load.modelName load.modelVersion config none with
    | (.success,backend) =>
      some (⟨load.modelName,load.modelVersion,platform,config,backend.map fun _ => fresh⟩,backend)
    | _ => none

/-- A loaded model has a backend, and both carry the name and version asked for. -/
theorem loadModel_some {load : ModelLoadInfo} {content : Option ModelConfig} {fresh : Nat}
    {info : BackendInfo} {backend : Option ModelBackend}
    (loaded : loadModel load content fresh = some (info,backend)) :
    info.modelName = load.modelName ∧ info.modelVersion = load.modelVersion ∧
    info.backend = some fresh ∧ ∃ b, backend = some b ∧
      b.modelName = load.modelName ∧ b.modelVersion = load.modelVersion := by
  unfold loadModel at loaded
  split at loaded
  · contradiction
  · dsimp only at loaded
    split at loaded
    next created =>
      obtain ⟨b,rfl,name,version⟩ := createModelBackend_success created
      cases loaded
      exact ⟨rfl,rfl,rfl,b,rfl,name,version⟩
    · contradiction

/-- The first loop of `GetModelStateUpdate`. -/
def deletedModels (map : ModelMap) (curModels : List String) : List String :=
  map.keys.filter (· ∉ curModels)

inductive Change where
  | added
  | updated
  | none
  deriving DecidableEq, Repr

/-- The last section of `GetModelStateUpdate`; it reads the version through
`backend_info_`, which must not be null. -/
def classify (map : ModelMap) (modelName : String) (version : Int) : Option Change :=
  match map.lookup modelName with
  | none => some .added
  | some context => context.backendInfo.map fun info =>
    if info.modelVersion ≠ version then .updated else .none

structure StateUpdate where
  added : List ModelLoadInfo
  updated : List ModelLoadInfo
  deleted : List String
  deriving DecidableEq, Repr

def StateUpdate.record (lists : StateUpdate) (load : ModelLoadInfo) : Change → StateUpdate
  | .added => { lists with added := lists.added ++ [load] }
  | .updated => { lists with updated := lists.updated ++ [load] }
  | .none => lists

inductive ModelReadyState where
  | modelUnknown
  | modelReady
  | modelUnavailable
  deriving DecidableEq, Repr

structure ModelStatus where
  versionStatus : List (Int × ModelReadyState)
  deriving DecidableEq, Repr

/-- `GetModelStatus`: one entry for each model, each with one version. -/
def getModelStatus (map : ModelMap) : Option (List (String × ModelStatus)) :=
  map.entries.mapM fun entry => entry.2.backendInfo.map fun info =>
    (entry.1,⟨[(info.modelVersion,.modelReady)]⟩)

theorem mapM_eq_filterMap {α β : Type} {f : α → Option β} {l : List α}
    (all : ∀ x ∈ l, (f x).isSome = true) : l.mapM f = some (l.filterMap f) := by
  induction l with
  | nil => rfl
  | cons x rest ih =>
    obtain ⟨y,here⟩ := Option.isSome_iff_exists.mp (all x (List.mem_cons_self ..))
    have there := ih fun z member => all z (List.mem_cons_of_mem x member)
    simp [List.mapM_cons,here,there]

def Owned (map : ModelMap) : Prop :=
  ∀ name context, map.lookup name = some context → context.backendInfo.isSome = true

/-- With no null `backend_info_` the report has the version of every entry and no other. -/
theorem getModelStatus_some {map : ModelMap} (owned : Owned map) :
    ∃ status, getModelStatus map = some status ∧
      ∀ name state, (name,state) ∈ status ↔ ∃ context info, map.lookup name = some context ∧
        context.backendInfo = some info ∧ state = ⟨[(info.modelVersion,.modelReady)]⟩ := by
  refine ⟨_,mapM_eq_filterMap ?_,?_⟩
  · rintro ⟨name,context⟩ member
    simpa using owned name context (AList.mem_lookup_iff.mpr member)
  · intro name state
    simp only [List.mem_filterMap,Option.map_eq_some_iff,Prod.mk.injEq]
    constructor
    · rintro ⟨⟨name',context⟩,member,info,there,rfl,rfl⟩
      exact ⟨context,info,AList.mem_lookup_iff.mpr member,there,rfl⟩
    · rintro ⟨context,info,present,there,rfl⟩
      exact ⟨⟨name,context⟩,AList.mem_lookup_iff.mp present,info,there,rfl,rfl⟩

def getNumberOfLiveModels (map : ModelMap) : Nat := map.entries.length

end InferenceServer
