import InferenceServer.OutputOrder

/-! The same outputs registered in different orders. -/
namespace InferenceServer

def Indexed (calls : List OutputCall) : Prop :=
  calls ≠ [] ∧ (calls.map OutputCall.index).Perm ((List.range calls.length).map fun i : Nat => ↑i)

theorem Indexed.distinct {calls : List OutputCall} (indexed : Indexed calls) :
    (calls.map OutputCall.index).Nodup := by
  apply indexed.2.nodup_iff.mpr
  apply List.nodup_range.map
  intro i j same
  exact Int.ofNat.inj same

theorem lastContent_of_mem {calls : List OutputCall}
    (distinct : (calls.map OutputCall.index).Nodup) {call : OutputCall} (member : call ∈ calls) :
    lastContent calls call.index = call.content := by
  obtain ⟨before,after,rfl⟩ := List.append_of_mem member
  have selected : ((before ++ call :: after).filterMap
      (OutputCall.contentFor call.index)).getLast? = some call.content := by
    apply History.last_selected_iff.mpr
    refine ⟨before,call,after,rfl,by simp [OutputCall.contentFor],fun other later => ?_⟩
    rw [List.map_append,List.map_cons] at distinct
    have apart := (List.nodup_cons.mp (List.nodup_append.mp distinct).2.1).1
    apply if_neg
    intro same
    exact apart (same ▸ List.mem_map_of_mem later)
  rw [lastContent,History.latest,selected,Option.getD_some]

theorem lastContent_of_absent {calls : List OutputCall} {i : Int}
    (absent : ∀ call ∈ calls, call.index ≠ i) : lastContent calls i = [] := by
  have nothing : calls.filterMap (OutputCall.contentFor i) = [] :=
    List.filterMap_eq_nil_iff.mpr fun call member => if_neg (absent call member)
  simp [lastContent,History.latest,nothing]

section Orders

variable {first second : List OutputCall} (order : first.Perm second)
include order

theorem lastContent_perm (distinct : (second.map OutputCall.index).Nodup) (i : Int) :
    lastContent first i = lastContent second i := by
  by_cases present : ∃ call ∈ second, call.index = i
  · obtain ⟨call,member,rfl⟩ := present
    have distinct' := (order.map OutputCall.index).nodup_iff.mpr distinct
    rw [lastContent_of_mem distinct member,lastContent_of_mem distinct' (order.mem_iff.mpr member)]
  · push Not at present
    have absent : ∀ call ∈ first, call.index ≠ i :=
      fun call member => present call (order.mem_iff.mp member)
    rw [lastContent_of_absent present,lastContent_of_absent absent]

theorem largestIndex_le_perm : largestIndex first ≤ largestIndex second := by
  rcases largest_attained first with zero | ⟨call,member,attained⟩
  · rw [zero]
    exact largestIndex_nonneg second
  · rw [← attained]
    exact index_le_largest (order.mem_iff.mp member)

/-- With distinct indices the buffers are the same in every order. -/
theorem raw_perm (distinct : (second.map OutputCall.index).Nodup) :
    (successReply first).rawOutput = (successReply second).rawOutput := by
  have largest : largestIndex first = largestIndex second :=
    Int.le_antisymm (largestIndex_le_perm order) (largestIndex_le_perm order.symm)
  rw [successReply_raw,successReply_raw,largest]
  apply List.map_congr_left
  intro i _
  exact lastContent_perm order distinct i

/-- So only the headers can tell two orders apart. -/
theorem successReply_eq_iff (distinct : (second.map OutputCall.index).Nodup) :
    successReply first = successReply second ↔
      first.map OutputCall.header = second.map OutputCall.header := by
  constructor
  · intro same
    rw [← successReply_meta,same,successReply_meta]
  · intro headers
    have listed : (successReply first).metaData = (successReply second).metaData := by
      rw [successReply_meta,successReply_meta,headers]
    have raw := raw_perm order distinct
    calc successReply first
      _ = ⟨some ⟨.success,completionMessage .success⟩,(successReply first).metaData,
          (successReply first).rawOutput,[]⟩ := rfl
      _ = ⟨some ⟨.success,completionMessage .success⟩,(successReply second).metaData,
          (successReply second).rawOutput,[]⟩ := by rw [listed,raw]
      _ = successReply second := rfl

end Orders

/-- Every order of the outputs ends in the same response. -/
def OrderFree (calls : List OutputCall) : Prop :=
  ∀ first second : List OutputCall, first.Perm calls → second.Perm calls →
    successReply first = successReply second

theorem orderFree_iff {calls : List OutputCall} (distinct : (calls.map OutputCall.index).Nodup) :
    OrderFree calls ↔ ∀ a ∈ calls, ∀ b ∈ calls, a.header = b.header := by
  constructor
  · intro free a left b right
    have same := free (a :: calls.erase a) (b :: calls.erase b)
      (List.perm_cons_erase left).symm (List.perm_cons_erase right).symm
    have headers := congrArg InferResponse.metaData same
    rw [successReply_meta,successReply_meta] at headers
    exact (List.cons.inj headers).1
  · intro alike first second one other
    have distinct' := (other.map OutputCall.index).nodup_iff.mpr distinct
    apply (successReply_eq_iff (one.trans other.symm) distinct').mpr
    apply List.ext_getElem
    · rw [List.length_map,List.length_map,one.length_eq,other.length_eq]
    · intro i bound bound'
      rw [List.getElem_map,List.getElem_map]
      exact alike _ (one.mem_iff.mp (List.getElem_mem _)) _ (other.mem_iff.mp (List.getElem_mem _))

/-- Whatever the order, an output's buffer stands at its index; only `meta_data` follows the
order. Two orders give one response exactly if they list the same headers, and all orders do
exactly if all outputs have the same header. -/
theorem order_independent_iff {calls : List OutputCall} (indexed : Indexed calls) :
    (∀ first second : List OutputCall, first.Perm calls → second.Perm calls →
      (successReply first).rawOutput = (successReply second).rawOutput ∧
      (successReply first = successReply second ↔
        first.map OutputCall.header = second.map OutputCall.header)) ∧
    (OrderFree calls ↔ ∀ a ∈ calls, ∀ b ∈ calls, a.header = b.header) := by
  refine ⟨fun first second one other => ?_,orderFree_iff indexed.distinct⟩
  have order := one.trans other.symm
  have distinct := (other.map OutputCall.index).nodup_iff.mpr indexed.distinct
  exact ⟨raw_perm order distinct,successReply_eq_iff order distinct⟩

def twins : List OutputCall := [⟨"o",0,[1],[1]⟩,⟨"o",1,[2],[1]⟩]

theorem order_independent_twins : OrderFree twins := by
  have indexed : Indexed twins := ⟨by decide,by decide⟩
  exact (order_independent_iff indexed).2.mpr (by decide)

/-- Two outputs whose names differ, registered in either order. -/
theorem order_seen : Indexed [⟨"a",0,[1],[1]⟩,⟨"b",1,[2],[1]⟩] ∧
    ¬OrderFree [⟨"a",0,[1],[1]⟩,⟨"b",1,[2],[1]⟩] := by
  refine ⟨⟨by decide,by decide⟩,fun free => ?_⟩
  have same := free [⟨"a",0,[1],[1]⟩,⟨"b",1,[2],[1]⟩] [⟨"b",1,[2],[1]⟩,⟨"a",0,[1],[1]⟩]
    (.refl _) (.swap _ _ _)
  exact absurd same (by decide)

end InferenceServer
