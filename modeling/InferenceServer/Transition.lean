import Mathlib.Data.List.Induction
import Mathlib.Logic.Function.Basic

/-! Partial step functions over labelled actions, their finite runs, and the rules
that carry a property along a run. Nothing here depends on what the actions mean. -/
namespace Transition

/-- A start state and a partial step: `none` says the action is not possible there. -/
structure Machine (σ α : Type) where
  start : σ
  step : σ → α → Option σ

namespace Machine

variable {σ α : Type} (m : Machine σ α)

/-- Performs the actions in order; fails at the first one that is not possible. -/
def exec : σ → List α → Option σ
  | s, [] => some s
  | s, a :: rest => (m.step s a).bind fun t => exec t rest

inductive Reachable : σ → Prop where
  | start : Reachable m.start
  | step {s t : σ} {a : α} : Reachable s → m.step s a = some t → Reachable t

/-- States reached by runs whose every step meets `condition`, read before the step. -/
inductive ReachableBy (condition : σ → α → Prop) : σ → Prop where
  | start : ReachableBy condition m.start
  | step {s t : σ} {a : α} : ReachableBy condition s → condition s a → m.step s a = some t →
      ReachableBy condition t

variable {m}

theorem exec_append (s : σ) (before after : List α) :
    m.exec s (before ++ after) = (m.exec s before).bind fun t => m.exec t after := by
  induction before generalizing s with
  | nil => rfl
  | cons a rest ih =>
    simp only [List.cons_append,exec]
    cases m.step s a with
    | none => rfl
    | some t => exact ih t

theorem exec_reachable {s t : σ} (reach : m.Reachable s) (actions : List α)
    (run : m.exec s actions = some t) : m.Reachable t := by
  induction actions generalizing s with
  | nil => exact Option.some.inj run ▸ reach
  | cons a rest ih =>
    obtain ⟨u,first,remaining⟩ := Option.bind_eq_some_iff.mp run
    exact ih (.step reach first) remaining

/-- A property of the state that a concrete run ends in holds of a reachable state. -/
theorem exec_observed {β : Type} (actions : List α) (observe : σ → β) (value : β)
    (run : (m.exec m.start actions).map observe = some value) :
    ∃ s, m.Reachable s ∧ observe s = value := by
  obtain ⟨s,atEnd,seen⟩ := Option.map_eq_some_iff.mp run
  exact ⟨s,exec_reachable .start actions atEnd,seen⟩

/-- Invariant rule. The step may use reachability, hence every invariant proved before. -/
theorem Reachable.invariant {P : σ → Prop} (initial : P m.start)
    (preserved : ∀ s a t, m.Reachable s → P s → m.step s a = some t → P t)
    {s : σ} (reach : m.Reachable s) : P s := by
  induction reach with
  | start => exact initial
  | step before taken ih => exact preserved _ _ _ before ih taken

theorem ReachableBy.reachable {condition : σ → α → Prop} {s : σ}
    (reach : m.ReachableBy condition s) : m.Reachable s := by
  induction reach with
  | start => exact .start
  | step _ _ taken ih => exact .step ih taken

/-- Invariant rule for runs whose steps all meet a condition. -/
theorem ReachableBy.invariant {condition : σ → α → Prop} {P : σ → Prop} (initial : P m.start)
    (preserved : ∀ s a t, m.ReachableBy condition s → P s → condition s a →
      m.step s a = some t → P t)
    {s : σ} (reach : m.ReachableBy condition s) : P s := by
  induction reach with
  | start => exact initial
  | step before met taken ih => exact preserved _ _ _ before ih met taken

def restrict (m : Machine σ α) (condition : σ → α → Prop) [∀ s a, Decidable (condition s a)] :
    Machine σ α :=
  ⟨m.start,fun s a => if condition s a then m.step s a else none⟩

theorem restrict_reachable {condition : σ → α → Prop} [∀ s a, Decidable (condition s a)] {s : σ}
    (reach : (m.restrict condition).Reachable s) : m.ReachableBy condition s := by
  induction reach with
  | start => exact .start
  | step _ taken ih =>
    simp only [restrict] at taken
    split at taken
    next met => exact .step ih met taken
    · contradiction

/-- What every step keeps, a run keeps from whatever state it starts in. -/
theorem exec_preserves {P : σ → Prop} (preserved : ∀ s a t, P s → m.step s a = some t → P t)
    {s t : σ} (held : P s) (actions : List α) (run : m.exec s actions = some t) : P t := by
  induction actions generalizing s with
  | nil => exact Option.some.inj run ▸ held
  | cons a rest ih =>
    obtain ⟨u,first,remaining⟩ := Option.bind_eq_some_iff.mp run
    exact ih (preserved _ _ _ held first) remaining

/-- The same for a run whose actions are all of one kind. -/
theorem exec_preserves_of {P : σ → Prop} {Q : α → Prop}
    (preserved : ∀ s a t, Q a → P s → m.step s a = some t → P t) {s t : σ} (held : P s)
    (actions : List α) (allowed : ∀ a ∈ actions, Q a) (run : m.exec s actions = some t) :
    P t := by
  induction actions generalizing s with
  | nil => exact Option.some.inj run ▸ held
  | cons a rest ih =>
    obtain ⟨u,first,remaining⟩ := Option.bind_eq_some_iff.mp run
    obtain ⟨now,later⟩ := List.forall_mem_cons.mp allowed
    exact ih (preserved _ _ _ now held first) later remaining

/-- Some state along the run has the property, its two ends included. -/
def Visits (m : Machine σ α) (actions : List α) (P : σ → Prop) : Prop :=
  ∃ before after s, actions = before ++ after ∧ m.exec m.start before = some s ∧ P s

theorem Visits.extend {actions : List α} {P : σ → Prop} (visits : m.Visits actions P)
    (more : List α) : m.Visits (actions ++ more) P := by
  obtain ⟨before,after,s,rfl,run,there⟩ := visits
  exact ⟨before,after ++ more,s,by rw [List.append_assoc],run,there⟩

theorem Visits.now {actions : List α} {P : σ → Prop} {s : σ}
    (run : m.exec m.start actions = some s) (here : P s) : m.Visits actions P :=
  ⟨actions,[],s,(List.append_nil _).symm,run,here⟩

theorem exec_snoc {s t : σ} {actions : List α} {a : α} :
    m.exec s (actions ++ [a]) = some t ↔ ∃ u, m.exec s actions = some u ∧ m.step u a = some t := by
  rw [exec_append]
  simp [Option.bind_eq_some_iff,exec]

/-- Invariant rule for a property of the state and of the run that led to it. -/
theorem exec_invariant {P : List α → σ → Prop} (initial : P [] m.start)
    (preserved : ∀ actions s a t, m.exec m.start actions = some s → P actions s →
      m.step s a = some t → P (actions ++ [a]) t)
    {actions : List α} {s : σ} (run : m.exec m.start actions = some s) : P actions s := by
  induction actions using List.reverseRecOn generalizing s with
  | nil => exact Option.some.inj run ▸ initial
  | append_singleton before a ih =>
    obtain ⟨u,earlier,taken⟩ := exec_snoc.mp run
    exact preserved before u a s earlier (ih earlier) taken

/-- Steps of one kind lower a rank and the other ones do not raise it, so that a run has only so
many of them. -/
theorem exec_countP_le {P : σ → Prop} {Q : α → Prop} {rank : σ → Nat} (kind : α → Bool)
    (falls : ∀ s a t, Q a → P s → m.step s a = some t →
      P t ∧ rank t + (if kind a then 1 else 0) ≤ rank s)
    {s t : σ} (held : P s) (actions : List α) (allowed : ∀ a ∈ actions, Q a)
    (run : m.exec s actions = some t) : actions.countP kind + rank t ≤ rank s := by
  induction actions generalizing s with
  | nil =>
    cases run
    simp
  | cons a rest ih =>
    obtain ⟨u,first,remaining⟩ := Option.bind_eq_some_iff.mp run
    obtain ⟨now,later⟩ := List.forall_mem_cons.mp allowed
    obtain ⟨held',fallen⟩ := falls s a u now held first
    have counted := ih held' later remaining
    rw [List.countP_cons]
    omega

def Along (m : Machine σ α) (P : List α → σ → Prop) (actions : List α) : Prop :=
  ∀ before after s, actions = before ++ after → m.exec m.start before = some s → P before s

def Meets (m : Machine σ α) (C : List α → σ → α → Prop) (actions : List α) : Prop :=
  ∀ before a after s, actions = before ++ a :: after → m.exec m.start before = some s →
    C before s a

theorem exec_split {s t : σ} {before after : List α} {a : α}
    (run : m.exec s (before ++ a :: after) = some t) :
    ∃ u v, m.exec s before = some u ∧ m.step u a = some v ∧ m.exec v after = some t := by
  rw [exec_append] at run
  obtain ⟨u,earlier,rest⟩ := Option.bind_eq_some_iff.mp run
  obtain ⟨v,taken,later⟩ := Option.bind_eq_some_iff.mp rest
  exact ⟨u,v,earlier,taken,later⟩

/-- Where an invariant needs a condition at every step, and a step that fails it ends in a state
without the property, a run has the property throughout exactly if it meets the condition. -/
theorem along_iff_meets {I P : List α → σ → Prop} {C : List α → σ → α → Prop}
    (initial : I [] m.start)
    (preserved : ∀ before s a t, m.exec m.start before = some s → I before s → C before s a →
      m.step s a = some t → I (before ++ [a]) t)
    (holds : ∀ before s, m.exec m.start before = some s → I before s → P before s)
    (breaks : ∀ before s a t, m.exec m.start before = some s → m.step s a = some t →
      ¬C before s a → ¬P (before ++ [a]) t)
    {actions : List α} {s : σ} (run : m.exec m.start actions = some s) :
    m.Along P actions ↔ m.Meets C actions := by
  constructor
  · intro along before a after u split earlier
    by_contra fails
    rw [split] at run
    obtain ⟨u',v,earlier',taken,_⟩ := exec_split run
    obtain rfl := Option.some.inj (earlier.symm.trans earlier')
    apply breaks before u a v earlier taken fails
    exact along (before ++ [a]) after v (by simp [split]) (exec_snoc.mpr ⟨u,earlier,taken⟩)
  · intro meets before after u split earlier
    apply holds before u earlier
    have within : m.Meets C before → I before u := by
      refine exec_invariant (P := fun actions s => m.Meets C actions → I actions s)
        (fun _ => initial) ?_ earlier
      intro past s a t ran valid taken met
      have sooner : m.Meets C past := by
        intro first b rest w inside reached
        exact met first b (rest ++ [a]) w (by simp [inside]) reached
      exact preserved past s a t ran (valid sooner) (met past a [] s rfl ran) taken
    apply within
    intro first b rest w inside reached
    exact meets first b (rest ++ after) w (by simp [split,inside]) reached

/-- A run of the restricted machine is one whose steps meet the condition. -/
theorem restrict_meets {condition : σ → α → Prop} [∀ s a, Decidable (condition s a)]
    {actions : List α} {s : σ} (run : (m.restrict condition).exec m.start actions = some s) :
    m.exec m.start actions = some s ∧ m.Meets (fun _ => condition) actions := by
  refine exec_invariant (m := m.restrict condition) (P := fun actions s =>
    m.exec m.start actions = some s ∧ m.Meets (fun _ => condition) actions) ?_ ?_ run
  · exact ⟨rfl,fun before a after s split => absurd split (by simp)⟩
  · rintro actions s a t _ ⟨ran,meets⟩ taken
    simp only [restrict] at taken
    split at taken
    next met =>
      refine ⟨exec_snoc.mpr ⟨s,ran,taken⟩,fun before b after u split earlier => ?_⟩
      rcases List.eq_nil_or_concat after with rfl | ⟨most,last,rfl⟩
      · obtain ⟨rfl,same⟩ := List.append_inj' split rfl
        obtain rfl := Option.some.inj (ran.symm.trans earlier)
        cases same
        exact met
      · have split' : actions ++ [a] = (before ++ b :: most) ++ [last] := by simp [split]
        obtain ⟨inside,_⟩ := List.append_inj' split' rfl
        exact meets before b most u inside earlier
    · contradiction

end Machine
end Transition
