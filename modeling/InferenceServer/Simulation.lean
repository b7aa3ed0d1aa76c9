import InferenceServer.Transition

/-! Simulation: every step of one machine is answered by a run of another that ends in a related
state, so that what holds of all states of the second is known of those of the first. -/
namespace Transition.Machine

variable {σ τ α β : Type}

/-- `n` answers each step of `m` by any number of its own, none included. -/
structure Simulates (m : Machine σ α) (n : Machine τ β) (related : σ → τ → Prop) : Prop where
  initial : related m.start n.start
  answered : ∀ s a s' t, m.Reachable s → n.Reachable t → related s t → m.step s a = some s' →
    ∃ actions t', n.exec t actions = some t' ∧ related s' t'

variable {m : Machine σ α} {n : Machine τ β} {related : σ → τ → Prop}

theorem exec_singleton {s t : σ} {a : α} (taken : m.step s a = some t) : m.exec s [a] = some t := by
  simp [exec,taken]

theorem Reachable.run {s : σ} (reach : m.Reachable s) :
    ∃ actions, m.exec m.start actions = some s := by
  induction reach with
  | start => exact ⟨[],rfl⟩
  | step _ taken ih =>
    obtain ⟨actions,run⟩ := ih
    exact ⟨actions ++ [_],exec_snoc.mpr ⟨_,run,taken⟩⟩

/-- From related states a whole run is answered. -/
theorem Simulates.exec (sim : m.Simulates n related) {s s' : σ} {t : τ} (reach : m.Reachable s)
    (reach' : n.Reachable t) (here : related s t) (actions : List α)
    (run : m.exec s actions = some s') :
    ∃ answers t', n.exec t answers = some t' ∧ related s' t' := by
  induction actions generalizing s t with
  | nil =>
    cases run
    exact ⟨[],t,rfl,here⟩
  | cons a rest ih =>
    obtain ⟨u,taken,remaining⟩ := Option.bind_eq_some_iff.mp run
    obtain ⟨first,v,answer,there⟩ := sim.answered s a u t reach reach' here taken
    obtain ⟨later,t',answers,atEnd⟩ :=
      ih (reach.step taken) (exec_reachable reach' first answer) there remaining
    refine ⟨first ++ later,t',?_,atEnd⟩
    rw [exec_append,answer]
    exact answers

/-- Every reachable state has a reachable counterpart. -/
theorem Simulates.reachable (sim : m.Simulates n related) {s : σ} (reach : m.Reachable s) :
    ∃ t, n.Reachable t ∧ related s t := by
  induction reach with
  | start => exact ⟨n.start,.start,sim.initial⟩
  | step before taken ih =>
    obtain ⟨t,reach',here⟩ := ih
    obtain ⟨actions,t',run,there⟩ := sim.answered _ _ _ t before reach' here taken
    exact ⟨t',exec_reachable reach' actions run,there⟩

end Transition.Machine
