import Mathlib.Algebra.BigOperators.Group.Finset.Basic
import Mathlib.Algebra.Order.BigOperators.Group.Finset
import Mathlib.Logic.Relation
import Mathlib.Order.WellFounded
import InferenceServer.Transition

/-! Infinite runs of a machine, what it means that a thread is never passed over for good, and the
rule that brings such a run to its goal by a rank that falls at every step of the threads. -/
namespace Transition.Machine

variable {σ α : Type}

/-- An infinite run. Nothing happens in some of its moments, perhaps from one of them on. -/
structure Endless (m : Machine σ α) (run : Nat → σ) : Prop where
  start : m.Reachable (run 0)
  goes : ∀ n, run (n + 1) = run n ∨ ∃ a, m.step (run n) a = some (run (n + 1))

def Enabled (m : Machine σ α) (own : α → Prop) (s : σ) : Prop :=
  ∃ a t, own a ∧ m.step s a = some t

/-- A thread that can always take a step takes one. -/
def Fair (m : Machine σ α) (run : Nat → σ) (own : α → Prop) : Prop :=
  ∀ n, (∀ k, n ≤ k → m.Enabled own (run k)) →
    ∃ k, n ≤ k ∧ ∃ a, own a ∧ m.step (run k) a = some (run (k + 1))

variable {m : Machine σ α} {run : Nat → σ}

theorem Endless.reachable (endless : m.Endless run) (n : Nat) : m.Reachable (run n) := by
  induction n with
  | zero => exact endless.start
  | succ n ih =>
    rcases endless.goes n with same | ⟨a,taken⟩
    · rwa [same]
    · exact .step ih taken

/-- While `here` holds some thread is ready, which others do not change; every step of a thread
lowers the rank and no other step raises it, until `goal` holds. -/
structure Advances (m : Machine σ α) {ι ρ : Type} [Preorder ρ] (own : ι → α → Prop)
    (here goal : σ → Prop) (ready : ι → σ → Prop) (rank : σ → ρ) : Prop where
  helper : ∀ s, m.Reachable s → here s → ∃ i, ready i s
  enabled : ∀ s i, m.Reachable s → here s → ready i s → m.Enabled (own i) s
  falls : ∀ s a t i, m.Reachable s → here s → own i a → m.step s a = some t →
    goal t ∨ here t ∧ rank t < rank s
  keeps : ∀ s a t, m.Reachable s → here s → (∀ i, ¬own i a) → m.step s a = some t →
    goal t ∨ here t ∧ rank t ≤ rank s ∧ ∀ i, ready i s → ready i t

variable {ι ρ : Type} [Preorder ρ] {own : ι → α → Prop} {here goal : σ → Prop}
  {ready : ι → σ → Prop} {rank : σ → ρ}

/-- One round: the goal, or a lower rank. -/
theorem Advances.falls_later (advances : m.Advances own here goal ready rank)
    (endless : m.Endless run) (fair : ∀ i, m.Fair run (own i)) {n : Nat} (now : here (run n)) :
    ∃ k, n ≤ k ∧ (goal (run k) ∨ here (run k) ∧ rank (run k) < rank (run n)) := by
  by_contra never
  push Not at never
  obtain ⟨i,helps⟩ := advances.helper _ (endless.reachable n) now
  -- while no thread takes a step, the helper stays ready
  have waits (k : Nat) (later : n ≤ k) :
      here (run k) ∧ rank (run k) ≤ rank (run n) ∧ ready i (run k) := by
    induction k, later using Nat.le_induction with
    | base => exact ⟨now,le_refl _,helps⟩
    | succ k later ih =>
      obtain ⟨at',low,ready⟩ := ih
      obtain ⟨missed,high⟩ := never (k + 1) (Nat.le_succ_of_le later)
      rcases endless.goes k with same | ⟨a,taken⟩
      · rw [same]
        exact ⟨at',low,ready⟩
      by_cases thread : ∃ j, own j a
      · obtain ⟨j,owns⟩ := thread
        rcases advances.falls _ _ _ _ (endless.reachable k) at' owns taken with met | ⟨still,less⟩
        · exact absurd met missed
        · exact absurd (lt_of_lt_of_le less low) (high still)
      · rw [not_exists] at thread
        rcases advances.keeps _ _ _ (endless.reachable k) at' thread taken with
          met | ⟨still,less,kept⟩
        · exact absurd met missed
        · exact ⟨still,less.trans low,kept i ready⟩
  obtain ⟨k,later,a,owns,taken⟩ := fair i n fun k later =>
    advances.enabled _ _ (endless.reachable k) (waits k later).1 (waits k later).2.2
  obtain ⟨missed,high⟩ := never (k + 1) (Nat.le_succ_of_le later)
  rcases advances.falls _ _ _ _ (endless.reachable k) (waits k later).1 owns taken with
    met | ⟨still,less⟩
  · exact missed met
  · exact high still (lt_of_lt_of_le less (waits k later).2.1)

/-- The ranks fall only so often. -/
theorem Advances.reaches [WellFoundedLT ρ] (advances : m.Advances own here goal ready rank)
    (endless : m.Endless run) (fair : ∀ i, m.Fair run (own i)) {n : Nat} (now : here (run n)) :
    ∃ k, n ≤ k ∧ goal (run k) := by
  obtain ⟨r,at'⟩ : ∃ r, rank (run n) = r := ⟨_,rfl⟩
  induction r using WellFoundedLT.induction generalizing n with
  | ind r ih =>
    subst at'
    obtain ⟨k,later,met | ⟨still,less⟩⟩ := advances.falls_later endless fair now
    · exact ⟨k,later,met⟩
    · obtain ⟨j,after,met⟩ := ih _ less still rfl
      exact ⟨j,later.trans after,met⟩

/-- A rank that sums over the threads changes by what the one that moves contributes. -/
theorem sum_moved {ι : Type} [DecidableEq ι] {threads : Finset ι} {f g : ι → Nat} {i : ι}
    (member : i ∈ threads) (others : ∀ j, j ≠ i → f j = g j) :
    ∑ j ∈ threads, f j + g i = ∑ j ∈ threads, g j + f i := by
  have rest : ∑ j ∈ threads.erase i, f j = ∑ j ∈ threads.erase i, g j :=
    Finset.sum_congr rfl fun j inside => others j (Finset.ne_of_mem_erase inside)
  have before := Finset.add_sum_erase threads f member
  have after := Finset.add_sum_erase threads g member
  omega

theorem sum_moved_le {ι : Type} [DecidableEq ι] {threads : Finset ι} {f g : ι → Nat} {i : ι} {n : Nat}
    (more : f i ≤ g i + n) (others : ∀ j, j ≠ i → f j ≤ g j) :
    ∑ j ∈ threads, f j ≤ ∑ j ∈ threads, g j + n := by
  by_cases member : i ∈ threads
  · have rest : ∑ j ∈ threads.erase i, f j ≤ ∑ j ∈ threads.erase i, g j :=
      Finset.sum_le_sum fun j inside => others j (Finset.ne_of_mem_erase inside)
    have before := Finset.add_sum_erase threads f member
    have after := Finset.add_sum_erase threads g member
    omega
  · have rest : ∑ j ∈ threads, f j ≤ ∑ j ∈ threads, g j :=
      Finset.sum_le_sum fun j inside => others j fun here => member (here ▸ inside)
    omega

/-- Steps that lower a rank lead to a state without any, and never go on for ever. -/
theorem descends {P : σ → Prop} {goes : σ → σ → Prop} {rank : σ → ρ} [WellFoundedLT ρ]
    (falls : ∀ s t, P s → goes s t → P t ∧ rank t < rank s) {s : σ} (held : P s) :
    (¬∃ run : Nat → σ, run 0 = s ∧ ∀ n, goes (run n) (run (n + 1))) ∧
      ∃ t, Relation.ReflTransGen goes s t ∧ ∀ u, ¬goes t u := by
  obtain ⟨r,at'⟩ : ∃ r, rank s = r := ⟨_,rfl⟩
  induction r using WellFoundedLT.induction generalizing s with
  | ind r ih =>
    subst at'
    constructor
    · rintro ⟨run,rfl,taken⟩
      obtain ⟨next,less⟩ := falls _ _ held (taken 0)
      exact (ih _ less next rfl).1 ⟨fun n => run (n + 1),rfl,fun n => taken (n + 1)⟩
    · by_cases stuck : ∀ u, ¬goes s u
      · exact ⟨s,.refl,stuck⟩
      · push Not at stuck
        obtain ⟨u,taken⟩ := stuck
        obtain ⟨next,less⟩ := falls _ _ held taken
        obtain ⟨t,run,last⟩ := (ih _ less next rfl).2
        exact ⟨t,.head taken run,last⟩

def resting (m : Machine σ α) (actions : List α) (n : Nat) : σ :=
  (m.exec m.start (actions.take n)).getD m.start

theorem resting_taken {actions : List α} {s : σ} (atEnd : m.exec m.start actions = some s)
    (n : Nat) : m.exec m.start (actions.take n) = some (m.resting actions n) := by
  rw [← List.take_append_drop n actions,exec_append] at atEnd
  obtain ⟨t,first,_⟩ := Option.bind_eq_some_iff.mp atEnd
  rw [resting,first,Option.getD_some]

theorem resting_last {actions : List α} {s : σ} (atEnd : m.exec m.start actions = some s) {n : Nat}
    (late : actions.length ≤ n) : m.resting actions n = s := by
  rw [resting,List.take_of_length_le late,atEnd,Option.getD_some]

theorem resting_endless {actions : List α} {s : σ} (atEnd : m.exec m.start actions = some s) :
    m.Endless (m.resting actions) := by
  refine ⟨?_,fun n => ?_⟩
  · rw [resting,List.take_zero]
    exact .start
  · by_cases late : actions.length ≤ n
    · rw [resting_last atEnd late,resting_last atEnd (Nat.le_succ_of_le late)]
      exact .inl rfl
    · have now := resting_taken atEnd (n + 1)
      rw [List.take_add_one,List.getElem?_eq_getElem (Nat.not_le.mp late),exec_append,
        resting_taken atEnd n] at now
      obtain ⟨t,taken,same⟩ := Option.bind_eq_some_iff.mp now
      exact .inr ⟨actions[n],by simpa [exec] using now⟩

/-- A thread that has nothing left to do at the end was not passed over. -/
theorem resting_fair {actions : List α} {s : σ} {own : α → Prop}
    (atEnd : m.exec m.start actions = some s) (idle : ¬m.Enabled own s) :
    m.Fair (m.resting actions) own := by
  intro n always
  have last := always (max n actions.length) (le_max_left ..)
  rw [resting_last atEnd (le_max_right ..)] at last
  exact absurd last idle

end Transition.Machine
