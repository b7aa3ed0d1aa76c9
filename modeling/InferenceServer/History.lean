import Mathlib.Data.List.Infix

/-! Append-only histories: facts about each entry given everything before it, and the
most recent entry of a kind. -/
namespace History

variable {ε φ : Type}

/-- `fact` relates every entry of the history to the entries before it. -/
def Every (fact : List ε → ε → Prop) (log : List ε) : Prop :=
  ∀ before e, before ++ [e] <+: log → fact before e

@[simp] theorem every_nil (fact : List ε → ε → Prop) : Every fact [] := by
  intro before e isPrefix
  simp at isPrefix

theorem every_append_singleton {fact : List ε → ε → Prop} {log : List ε} {e : ε} :
    Every fact (log ++ [e]) ↔ Every fact log ∧ fact log e := by
  constructor
  · intro all
    exact ⟨fun before x isPrefix => all before x (isPrefix.trans (List.prefix_append _ _)),
      all log e (List.prefix_refl _)⟩
  · rintro ⟨earlier,last⟩ before x isPrefix
    rcases List.prefix_concat_iff.mp isPrefix with whole | inside
    · obtain ⟨rfl,same⟩ := List.append_inj' whole rfl
      cases same
      exact last
    · exact earlier before x inside

def latest (select : ε → Option φ) (initial : φ) (log : List ε) : φ :=
  ((log.filterMap select).getLast?).getD initial

theorem latest_append_none {select : ε → Option φ} {initial : φ} {log events : List ε}
    (unselected : ∀ e ∈ events, select e = none) :
    latest select initial (log ++ events) = latest select initial log := by
  have nothing : events.filterMap select = [] := List.filterMap_eq_nil_iff.mpr unselected
  simp [latest,List.filterMap_append,nothing]

theorem latest_append_some (select : ε → Option φ) (initial : φ) (log : List ε) {e : ε} {f : φ}
    (selected : select e = some f) : latest select initial (log ++ [e]) = f := by
  simp [latest,List.filterMap_append,selected]

/-- After an entry that selects `f`, the latest value is `f` or was selected later. -/
theorem latest_after (select : ε → Option φ) (initial : φ) (before after : List ε) {e : ε} {f : φ}
    (selected : select e = some f) :
    latest select initial (before ++ e :: after) = f ∨
      ∃ x ∈ after, select x = some (latest select initial (before ++ e :: after)) := by
  cases chosen : (after.filterMap select).getLast? with
  | none =>
    left
    simp [latest,List.filterMap_append,selected,List.getLast?_eq_none_iff.mp chosen]
  | some g =>
    right
    have value : latest select initial (before ++ e :: after) = g := by
      simp [latest,List.filterMap_append,selected,List.getLast?_append,List.getLast?_cons,chosen]
    rw [value]
    simpa using List.mem_filterMap.mp (List.mem_of_getLast? chosen)

theorem latest_append (select : ε → Option φ) (initial : φ) (before after : List ε) :
    latest select initial (before ++ after) =
      latest select (latest select initial before) after := by
  simp only [latest,List.filterMap_append,List.getLast?_append]
  cases (after.filterMap select).getLast? <;> simp

/-- The last value that the history selects, and where it does. -/
theorem last_selected_iff {select : ε → Option φ} {log : List ε} {f : φ} :
    (log.filterMap select).getLast? = some f ↔ ∃ before e after, log = before ++ e :: after ∧
      select e = some f ∧ ∀ x ∈ after, select x = none := by
  rw [List.getLast?_filterMap,List.findSome?_eq_some_iff]
  constructor
  · rintro ⟨after,e,before,reversed,selected,none⟩
    refine ⟨before.reverse,e,after.reverse,?_,selected,by simpa using none⟩
    simpa using congrArg List.reverse reversed
  · rintro ⟨before,e,after,rfl,selected,none⟩
    exact ⟨after.reverse,e,before.reverse,by simp,selected,by simpa using none⟩

end History
