import Mathlib.Data.List.Nodup
import InferenceServer.History
import InferenceServer.InferencePayload

/-! The outputs of a response: `meta_data` lists them in the order of the calls, `raw_output`
by the index given in each call. -/
namespace InferenceServer

structure OutputCall where
  name : String
  idx : Int32
  content : List UInt8
  shape : List Int
  deriving DecidableEq

namespace OutputCall

def index (call : OutputCall) : Int := call.idx.toInt

def header (call : OutputCall) : InferOutput := ⟨call.name,call.shape,call.content.length⟩

def contentFor (i : Int) (call : OutputCall) : Option (List UInt8) :=
  if call.index = i then some call.content else none

theorem index_bounds (call : OutputCall) : -2^31 ≤ call.index ∧ call.index < 2^31 :=
  ⟨call.idx.le_toInt,call.idx.toInt_lt⟩

end OutputCall

def registerAll (calls : List OutputCall) : InferencePayload :=
  calls.foldl (fun p call => p.registerInferOutput call.name call.index call.content call.shape)
    .create

def successReply (calls : List OutputCall) : InferResponse :=
  ((registerAll calls).onInferCompleted .clear .success (completionMessage .success)).2

/-- The largest index of the calls, and zero at least, as `max_output_index_` starts with it. -/
def largestIndex (calls : List OutputCall) : Int := calls.foldl (fun m call => max m call.index) 0

def lastContent (calls : List OutputCall) (i : Int) : List UInt8 :=
  History.latest (OutputCall.contentFor i) [] calls

/-- Entry for entry, `raw_output` is the content that was registered with the name, the shape
and the size in `meta_data`. -/
def Aligned (calls : List OutputCall) (response : InferResponse) : Prop :=
  response.rawOutput.length = response.metaData.length ∧
  ∀ (i : Nat) output, response.metaData[i]? = some output → ∃ call buffer,
    calls[i]? = some call ∧ response.rawOutput[i]? = some buffer ∧ buffer = call.content ∧
    output = ⟨call.name,call.shape,buffer.length⟩

theorem toSizeT_inj {i j : Int} (first : -2^31 ≤ i ∧ i < 2^31) (second : -2^31 ≤ j ∧ j < 2^31)
    (same : toSizeT i = toSizeT j) : i = j := by
  simp only [toSizeT,BitVec.toNat_ofInt] at same
  omega

theorem lookup_filter_ne {k j : Nat} (l : List (Nat × List UInt8)) (other : j ≠ k) :
    (l.filter fun entry => entry.1 ≠ k).lookup j = l.lookup j := by
  induction l with
  | nil => rfl
  | cons entry rest ih =>
    obtain ⟨key,content⟩ := entry
    simp only [ne_eq,decide_not] at ih ⊢
    by_cases dropped : key = k
    · subst key
      have apart : (j == k) = false := by simpa using other
      simp [List.lookup_cons,apart,ih]
    · by_cases found : j = key
      · simp [dropped,found]
      · have apart : (j == key) = false := by simpa using found
        simp [dropped,List.lookup_cons,apart,ih]

theorem registerAll_snoc (calls : List OutputCall) (call : OutputCall) :
    registerAll (calls ++ [call]) =
      (registerAll calls).registerInferOutput call.name call.index call.content call.shape := by
  simp [registerAll,List.foldl_append]

theorem largestIndex_snoc (calls : List OutputCall) (call : OutputCall) :
    largestIndex (calls ++ [call]) = max (largestIndex calls) call.index := by
  simp [largestIndex,List.foldl_append]

theorem registerAll_header (calls : List OutputCall) :
    (registerAll calls).responseHeader = calls.map OutputCall.header := by
  induction calls using List.reverseRecOn with
  | nil => rfl
  | append_singleton calls call ih =>
    rw [registerAll_snoc,List.map_append,← ih]
    rfl

theorem registerAll_index (calls : List OutputCall) :
    (registerAll calls).maxOutputIndex = largestIndex calls := by
  induction calls using List.reverseRecOn with
  | nil => rfl
  | append_singleton calls call ih =>
    rw [registerAll_snoc,largestIndex_snoc,← ih]
    rfl

theorem registerAll_lookup (calls : List OutputCall) {i : Int} (bounds : -2^31 ≤ i ∧ i < 2^31) :
    ((registerAll calls).outputBufferMap.lookup (toSizeT i)).getD [] = lastContent calls i := by
  induction calls using List.reverseRecOn with
  | nil => rfl
  | append_singleton calls call ih =>
    rw [registerAll_snoc]
    by_cases here : call.index = i
    · rw [lastContent,History.latest_append_some (f := call.content)]
      · simp [InferencePayload.registerInferOutput,here]
      · simp [OutputCall.contentFor,here]
    · have other : toSizeT i ≠ toSizeT call.index := fun same =>
        here (toSizeT_inj bounds call.index_bounds same).symm
      have apart : (toSizeT i == toSizeT call.index) = false := by simpa using other
      rw [lastContent,History.latest_append_none (by simp [OutputCall.contentFor,here]),
        ← lastContent,← ih]
      simp only [InferencePayload.registerInferOutput,List.lookup_cons,apart,
        lookup_filter_ne _ other]

theorem largestIndex_nonneg (calls : List OutputCall) : 0 ≤ largestIndex calls := by
  induction calls using List.reverseRecOn with
  | nil => exact Int.le_refl 0
  | append_singleton calls call ih =>
    rw [largestIndex_snoc]
    omega

theorem index_le_largest {calls : List OutputCall} {call : OutputCall} (member : call ∈ calls) :
    call.index ≤ largestIndex calls := by
  induction calls using List.reverseRecOn with
  | nil => contradiction
  | append_singleton calls last ih =>
    rw [largestIndex_snoc]
    rcases List.mem_append.mp member with earlier | now
    · have below := ih earlier
      omega
    · obtain rfl := List.mem_singleton.mp now
      omega

theorem largest_attained (calls : List OutputCall) :
    largestIndex calls = 0 ∨ ∃ call ∈ calls, call.index = largestIndex calls := by
  induction calls using List.reverseRecOn with
  | nil => exact .inl rfl
  | append_singleton calls last ih =>
    rw [largestIndex_snoc]
    by_cases larger : largestIndex calls ≤ last.index
    · exact .inr ⟨last,by simp,by omega⟩
    · have same : max (largestIndex calls) last.index = largestIndex calls := by omega
      rw [same]
      refine ih.imp_right ?_
      rintro ⟨call,member,attained⟩
      exact ⟨call,List.mem_append_left _ member,attained⟩

theorem largestIndex_bounds (calls : List OutputCall) :
    -2^31 ≤ largestIndex calls ∧ largestIndex calls < 2^31 := by
  rcases largest_attained calls with zero | ⟨call,_,attained⟩
  · omega
  · rw [← attained]
    exact call.index_bounds

/-- The completion loop reads every index up to the largest. -/
theorem successReply_raw (calls : List OutputCall) :
    (successReply calls).rawOutput =
      (List.range (largestIndex calls + 1).toNat).map fun i : Nat => lastContent calls i := by
  have buffers : (successReply calls).rawOutput = (registerAll calls).outputBuffers := by
    simp [successReply,InferencePayload.onInferCompleted,InferResponse.clear]
  rw [buffers,InferencePayload.outputBuffers,registerAll_index,← List.filterMap_eq_map]
  refine List.filterMap_congr fun i member => ?_
  have below := List.mem_range.mp member
  have bounds := largestIndex_bounds calls
  have inside : ¬largestIndex calls < (i : Int) := by omega
  simp only [InferencePayload.getOutputBuffer,registerAll_index,if_neg inside,Function.comp_apply]
  rw [registerAll_lookup calls (by omega)]

theorem successReply_meta (calls : List OutputCall) :
    (successReply calls).metaData = calls.map OutputCall.header := by
  rw [← registerAll_header]
  simp [successReply,InferencePayload.onInferCompleted]

theorem aligned_iff {calls : List OutputCall} {response : InferResponse}
    (listed : response.metaData = calls.map OutputCall.header) :
    Aligned calls response ↔ response.rawOutput = calls.map OutputCall.content := by
  unfold Aligned
  rw [listed,List.length_map]
  constructor
  · rintro ⟨length,entries⟩
    refine List.ext_getElem? fun i => ?_
    rw [List.getElem?_map]
    cases there : calls[i]? with
    | none =>
      have past := List.getElem?_eq_none_iff.mp there
      exact List.getElem?_eq_none_iff.mpr (by omega)
    | some call =>
      obtain ⟨call',buffer,same,raw,rfl,_⟩ := entries i call.header (by simp [there])
      obtain rfl : call = call' := Option.some.inj (there.symm.trans same)
      exact raw
  · intro raw
    refine ⟨by rw [raw,List.length_map],fun i output there => ?_⟩
    rw [List.getElem?_map,Option.map_eq_some_iff] at there
    obtain ⟨call,here,rfl⟩ := there
    exact ⟨call,call.content,here,by simp [raw,here],rfl,rfl⟩

/-- As many outputs as the largest index asks for, and each position's content is the last one
registered with that position as its index. -/
theorem raw_in_order_iff (calls : List OutputCall) :
    (successReply calls).rawOutput = calls.map OutputCall.content ↔
      largestIndex calls + 1 = calls.length ∧
        ∀ (i : Nat) call, calls[i]? = some call → lastContent calls i = call.content := by
  have nonneg := largestIndex_nonneg calls
  rw [successReply_raw]
  constructor
  · intro same
    have length : (largestIndex calls + 1).toNat = calls.length := by
      simpa using congrArg List.length same
    refine ⟨by omega,fun i call there => ?_⟩
    have bound := (List.getElem?_eq_some_iff.mp there).1
    have entry := congrArg (·[i]?) same
    simpa [there,List.getElem?_range,show i < (largestIndex calls + 1).toNat by omega] using entry
  · rintro ⟨length,last⟩
    refine List.ext_getElem? fun i => ?_
    have size : (largestIndex calls + 1).toNat = calls.length := by omega
    rw [size,List.getElem?_map,List.getElem?_map]
    cases there : calls[i]? with
    | none =>
      have past := List.getElem?_eq_none_iff.mp there
      simp [past]
    | some call =>
      have bound := (List.getElem?_eq_some_iff.mp there).1
      simp [bound,last i call there]

/-- Calls whose indices are their positions. -/
def Positioned (calls : List OutputCall) : Prop :=
  calls ≠ [] ∧ ∀ (i : Nat) call, calls[i]? = some call → call.index = i

theorem Positioned.largest {calls : List OutputCall} (positioned : Positioned calls) :
    largestIndex calls + 1 = calls.length := by
  obtain ⟨some,positions⟩ := positioned
  have length : 0 < calls.length := List.length_pos_iff.mpr some
  have last : calls[calls.length - 1]? = calls[calls.length - 1] :=
    List.getElem?_eq_getElem (by omega)
  have least := index_le_largest (List.mem_of_getElem? last)
  rw [positions _ _ last] at least
  rcases largest_attained calls with zero | ⟨call,member,attained⟩
  · omega
  · obtain ⟨i,bound,rfl⟩ := List.getElem_of_mem member
    have position := positions i _ (List.getElem?_eq_getElem bound)
    omega

theorem Positioned.last {calls : List OutputCall} (positioned : Positioned calls) {i : Nat}
    {call : OutputCall} (there : calls[i]? = some call) :
    lastContent calls i = call.content := by
  have selected : (calls.filterMap (OutputCall.contentFor i)).getLast? = some call.content := by
    obtain ⟨bound,rfl⟩ := List.getElem?_eq_some_iff.mp there
    refine History.last_selected_iff.mpr ⟨calls.take i,calls[i],calls.drop (i + 1),?_,?_,?_⟩
    · rw [List.getElem_cons_drop,List.take_append_drop]
    · simp [OutputCall.contentFor,positioned.2 i _ there]
    · intro later member
      obtain ⟨j,inside,rfl⟩ := List.getElem_of_mem member
      rw [List.length_drop] at inside
      have position := positioned.2 (i + 1 + j) _ (List.getElem?_eq_getElem (by omega))
      rw [List.getElem_drop,OutputCall.contentFor,if_neg (by omega)]
  rw [lastContent,History.latest,selected,Option.getD_some]

/-- Distinct contents can be told apart only by their positions. -/
theorem positioned_of_last {calls : List OutputCall} (some : ∀ call ∈ calls, call.content ≠ [])
    (distinct : (calls.map OutputCall.content).Nodup) (nonempty : calls ≠ [])
    (last : ∀ (i : Nat) call, calls[i]? = .some call → lastContent calls i = call.content) :
    Positioned calls := by
  refine ⟨nonempty,fun i call there => ?_⟩
  have content := last i call there
  have here := some call (List.mem_of_getElem? there)
  cases selected : (calls.filterMap (OutputCall.contentFor i)).getLast? with
  | none =>
    rw [lastContent,History.latest,selected,Option.getD_none] at content
    exact absurd content.symm here
  | some found =>
    rw [lastContent,History.latest,selected,Option.getD_some] at content
    obtain ⟨before,other,after,split,chosen,_⟩ := History.last_selected_iff.mp selected
    simp only [OutputCall.contentFor,Option.ite_none_right_eq_some,Option.some.injEq] at chosen
    have member : other ∈ calls := by rw [split]; simp
    have same : other = call := List.inj_on_of_nodup_map distinct member
      (List.mem_of_getElem? there) (chosen.2.trans content)
    exact same ▸ chosen.1

/-- The response to a success is aligned exactly if the largest index, which counts as zero
where no index is larger, is one less than the number of calls, and the last call with each
position as its index registered what the call at that position did. For contents that are
not empty and not equal: exactly if there is a call and each one's index is its position. -/
theorem outputs_aligned_iff_indexed (calls : List OutputCall) :
    (Aligned calls (successReply calls) ↔ largestIndex calls + 1 = calls.length ∧
      ∀ (i : Nat) call, calls[i]? = some call → lastContent calls i = call.content) ∧
    ((∀ call ∈ calls, call.content ≠ []) → (calls.map OutputCall.content).Nodup →
      (Aligned calls (successReply calls) ↔ Positioned calls)) := by
  have exact' := (aligned_iff (successReply_meta calls)).trans (raw_in_order_iff calls)
  refine ⟨exact',fun some distinct => exact'.trans ⟨?_,fun positioned => ?_⟩⟩
  · rintro ⟨length,last⟩
    refine positioned_of_last some distinct ?_ last
    rintro rfl
    have nonneg := largestIndex_nonneg []
    rw [List.length_nil] at length
    omega
  · exact ⟨positioned.largest,fun _ _ there => positioned.last there⟩

/-- Without any output the response has one empty `raw_output` and no `meta_data`. -/
theorem no_output_unaligned : ¬Aligned [] (successReply []) := by
  intro aligned
  have length := aligned.1
  rw [successReply_raw,successReply_meta] at length
  contradiction

end InferenceServer
