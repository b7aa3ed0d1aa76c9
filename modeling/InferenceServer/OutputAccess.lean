import InferenceServer.InferRequestContext

/-! `GetInferOutput`: which calls hand out an output, and what the caller's variables hold
after them. -/
namespace InferenceServer

structure OutputVariables where
  outputRawData : List UInt8
  outputByteSize : UInt32
  outputDims : List UInt32
  deriving DecidableEq

/-- `none` where a repeated field is indexed out of its range. The first check reads the index
as an `int32_t`, `output` takes it as an `int`, and `push_back` narrows the dims. -/
def InferRequestContext.getInferOutput (context : InferRequestContext) (outputIndex : UInt32)
    (held : OutputVariables) : Option (Bool × OutputVariables) :=
  let response := context.inferResponse
  let index := toInt32 outputIndex.toNat
  if (response.metaData.length : Int) ≤ index then some (false,held)
  else if index < 0 then none
  else response.metaData[index.toNat]?.bind fun output =>
    let dims := held.outputDims ++ output.dims.map UInt32.ofInt
    if response.rawOutput.length ≤ outputIndex.toNat then
      some (false,{ held with outputDims := dims })
    else response.rawOutput[outputIndex.toNat]?.map fun rawOutput =>
      (true,⟨rawOutput,UInt32.ofNat rawOutput.length,dims⟩)

def Fits (dim : Int) : Prop := 0 ≤ dim ∧ dim < 2^32

/-- What a call has to do: it hands out the output with this index if there is one whose dims
fit, and leaves the variables alone otherwise. -/
def ExactAccess (context : InferRequestContext) (outputIndex : UInt32)
    (held : OutputVariables) : Prop :=
  ∃ done after, context.getInferOutput outputIndex held = some (done,after) ∧
    (done = true ↔ ∃ output rawOutput,
      context.inferResponse.metaData[outputIndex.toNat]? = some output ∧
      context.inferResponse.rawOutput[outputIndex.toNat]? = some rawOutput ∧
      ∀ dim ∈ output.dims, Fits dim) ∧
    (done = true → ∀ output rawOutput,
      context.inferResponse.metaData[outputIndex.toNat]? = some output →
      context.inferResponse.rawOutput[outputIndex.toNat]? = some rawOutput →
      after.outputRawData = rawOutput ∧ after.outputByteSize.toNat = rawOutput.length ∧
      after.outputDims.map (fun dim => (dim.toNat : Int)) = output.dims) ∧
    (done = false → after = held)

/-- Where the call does it: the index is no negative `int`, and there is no output with it, or
one without buffer and dims, or a whole one whose numbers fit and a vector that is empty. -/
def Accessible (response : InferResponse) (outputIndex : UInt32) (dims : List UInt32) : Prop :=
  outputIndex.toNat < 2^31 ∧
  match response.metaData[outputIndex.toNat]?,response.rawOutput[outputIndex.toNat]? with
  | none,_ => True
  | some output,none => output.dims = []
  | some output,some rawOutput =>
    dims = [] ∧ (∀ dim ∈ output.dims, Fits dim) ∧ rawOutput.length < 2^32

theorem toInt32_neg {n : Nat} (large : 2^31 ≤ n) (word : n < 2^32) : toInt32 n < 0 := by
  have whole : n % 2^32 = n := Nat.mod_eq_of_lt word
  rw [toInt32,BitVec.toInt_eq_toNat_cond,BitVec.toNat_ofNat,whole,if_neg (by omega)]
  omega

theorem narrowed_fits {dims : List Int} (fit : ∀ dim ∈ dims, Fits dim) :
    (dims.map UInt32.ofInt).map (fun dim => (dim.toNat : Int)) = dims := by
  induction dims with
  | nil => rfl
  | cons dim rest ih =>
    obtain ⟨⟨nonneg,small⟩,others⟩ := List.forall_mem_cons.mp fit
    have here : ((UInt32.ofInt dim).toNat : Int) = dim := by
      simp only [UInt32.ofInt,UInt32.toNat_ofNat']
      omega
    simp only [List.map_cons,here,ih others]

/-- An index within `int32_t` is looked up as it is. -/
theorem getInferOutput_small (context : InferRequestContext) {outputIndex : UInt32}
    (small : outputIndex.toNat < 2^31) (held : OutputVariables) :
    context.getInferOutput outputIndex held =
      match context.inferResponse.metaData[outputIndex.toNat]?,
        context.inferResponse.rawOutput[outputIndex.toNat]? with
      | none,_ => some (false,held)
      | some output,none =>
        some (false,{ held with
          outputDims := held.outputDims ++ output.dims.map UInt32.ofInt })
      | some output,some rawOutput =>
        some (true,⟨rawOutput,UInt32.ofNat rawOutput.length,
          held.outputDims ++ output.dims.map UInt32.ofInt⟩) := by
  unfold InferRequestContext.getInferOutput
  simp only [toInt32_eq small,Int.toNat_natCast]
  cases header : context.inferResponse.metaData[outputIndex.toNat]? with
  | none =>
    have past := List.getElem?_eq_none_iff.mp header
    rw [if_pos (by omega)]
  | some output =>
    have inside := (List.getElem?_eq_some_iff.mp header).1
    rw [if_neg (by omega),if_neg (by omega),Option.bind_some]
    cases buffer : context.inferResponse.rawOutput[outputIndex.toNat]? with
    | none =>
      have past := List.getElem?_eq_none_iff.mp buffer
      rw [if_pos past]
    | some rawOutput =>
      have within := (List.getElem?_eq_some_iff.mp buffer).1
      rw [if_neg (by omega),Option.map_some]

/-- A larger index passes the first check and is negative as an `int`. -/
theorem getInferOutput_large (context : InferRequestContext) {outputIndex : UInt32}
    (large : 2^31 ≤ outputIndex.toNat) (held : OutputVariables) :
    context.getInferOutput outputIndex held = none := by
  have negative := toInt32_neg large outputIndex.toNat_lt
  unfold InferRequestContext.getInferOutput
  rw [if_neg (by omega),if_pos negative]

/-- `GetInferOutput` is exact and all-or-nothing exactly on the accesses described. -/
theorem exact_access_iff (context : InferRequestContext) (outputIndex : UInt32)
    (held : OutputVariables) :
    ExactAccess context outputIndex held ↔
      Accessible context.inferResponse outputIndex held.outputDims := by
  unfold ExactAccess Accessible
  by_cases small : outputIndex.toNat < 2^31
  · rw [getInferOutput_small context small,and_iff_right small]
    cases context.inferResponse.metaData[outputIndex.toNat]? with
    | none => simp
    | some output =>
      cases context.inferResponse.rawOutput[outputIndex.toNat]? with
      | none =>
        constructor
        · rintro ⟨_,_,same,_,_,unchanged⟩
          cases same
          have dims := congrArg OutputVariables.outputDims (unchanged rfl)
          simpa using dims
        · intro dims
          refine ⟨_,_,rfl,by simp,by simp,fun _ => ?_⟩
          simp [dims]
      | some rawOutput =>
        constructor
        · rintro ⟨_,_,same,allowed,handed,_⟩
          cases same
          obtain ⟨_,_,one,_,fit⟩ := allowed.mp rfl
          cases one
          obtain ⟨_,size,dims⟩ := handed rfl _ _ rfl rfl
          have before : held.outputDims.map (fun dim => (dim.toNat : Int)) = [] := by
            rw [List.map_append,narrowed_fits fit] at dims
            exact List.self_eq_append_left.mp dims.symm
          rw [UInt32.toNat_ofNat'] at size
          exact ⟨List.map_eq_nil_iff.mp before,fit,by omega⟩
        · rintro ⟨empty,fit,short⟩
          refine ⟨_,_,rfl,by simpa using fit,fun _ => ?_,by simp⟩
          intro _ _ one other
          cases one
          cases other
          refine ⟨rfl,?_,?_⟩
          · rw [UInt32.toNat_ofNat',Nat.mod_eq_of_lt short]
          · rw [empty,List.nil_append,narrowed_fits fit]
  · rw [getInferOutput_large context (by omega)]
    simp only [reduceCtorEq,false_and,exists_false,false_iff,not_and]
    exact fun below => absurd below small

/-- A vector that holds the dims of an earlier call gets those of the next one after them. -/
theorem reused_dims :
    (InferRequestContext.mk .clear ⟨none,[⟨"o",[1],1⟩],[[1]],[]⟩).getInferOutput 0 ⟨[],0,[7]⟩ =
      some (true,⟨[1],1,[7,1]⟩) ∧
    ¬ExactAccess (.mk .clear ⟨none,[⟨"o",[1],1⟩],[[1]],[]⟩) 0 ⟨[],0,[7]⟩ := by
  refine ⟨by decide,?_⟩
  rintro ⟨_,_,same,_,handed,_⟩
  cases same
  have dims := (handed rfl _ _ rfl rfl).2.2
  exact absurd dims (by decide)

end InferenceServer
