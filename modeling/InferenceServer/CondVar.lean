import Mathlib.Data.List.Basic

/-! A condition variable as the lists of its sleeping and of its notified threads.
A thread that is in neither list is not waiting on it. -/

structure CondVar (τ : Type) where
  asleep : List τ
  notified : List τ

namespace CondVar

variable {τ : Type}

def empty : CondVar τ := ⟨[],[]⟩

def wait (cv : CondVar τ) (t : τ) : CondVar τ := { cv with asleep := t :: cv.asleep }

def notifyAll (cv : CondVar τ) : CondVar τ := ⟨[],cv.asleep ++ cv.notified⟩

def waiters (cv : CondVar τ) : List τ := cv.asleep ++ cv.notified

/-- A thread waits once, and while one sleeps at least `n` are notified. -/
structure Covered (cv : CondVar τ) (n : Nat) : Prop where
  apart : cv.waiters.Nodup
  enough : cv.asleep ≠ [] → n ≤ cv.notified.length

theorem covered_empty (n : Nat) : (empty : CondVar τ).Covered n :=
  ⟨List.nodup_nil,fun some => absurd rfl some⟩

theorem Covered.mono {cv : CondVar τ} {n m : Nat} (covered : cv.Covered n) (fewer : m ≤ n) :
    cv.Covered m :=
  ⟨covered.apart,fun some => Nat.le_trans fewer (covered.enough some)⟩

theorem Covered.of_awake {cv : CondVar τ} {n : Nat} (covered : cv.Covered n) (m : Nat)
    (nobody : cv.asleep = []) : cv.Covered m :=
  ⟨covered.apart,fun some => absurd nobody some⟩

theorem Covered.notifyAll {cv : CondVar τ} {n : Nat} (covered : cv.Covered n) (m : Nat) :
    cv.notifyAll.Covered m :=
  ⟨covered.apart,fun some => absurd rfl some⟩

variable [DecidableEq τ]

/-- One sleeper is moved, any one of them; with no sleeper the notification is lost. -/
def notifyOne (cv : CondVar τ) : Option τ → Option (CondVar τ)
  | none => if cv.asleep = [] then some cv else none
  | some t => if t ∈ cv.asleep then some ⟨cv.asleep.erase t,t :: cv.notified⟩ else none

def resume (cv : CondVar τ) (t : τ) : CondVar τ := { cv with notified := cv.notified.erase t }

def spurious (cv : CondVar τ) (t : τ) : CondVar τ := { cv with asleep := cv.asleep.erase t }

theorem notifyOne_asleep {cv told : CondVar τ} {wake : Option τ}
    (notified : cv.notifyOne wake = some told) :
    cv.asleep = [] ∧ told.asleep = [] ∨ ∃ t ∈ cv.asleep, told.asleep = cv.asleep.erase t := by
  unfold notifyOne at notified
  split at notified
  · split at notified <;> cases notified
    next nobody => exact .inl ⟨nobody,nobody⟩
  · split at notified <;> cases notified
    next sleeps => exact .inr ⟨_,sleeps,rfl⟩

theorem notifyOne_waiters {cv told : CondVar τ} {wake : Option τ}
    (notified : cv.notifyOne wake = some told) : told.waiters.Perm cv.waiters := by
  unfold notifyOne at notified
  split at notified
  · split at notified <;> cases notified
    exact .refl _
  · split at notified <;> cases notified
    next sleeps =>
      apply List.perm_middle.trans
      exact (List.perm_cons_erase sleeps).symm.append_right cv.notified

/-- A notification covers one more, unless nobody was asleep. -/
theorem Covered.notifyOne {cv told : CondVar τ} {wake : Option τ} {n : Nat}
    (notified : cv.notifyOne wake = some told) (covered : cv.Covered n) : told.Covered (n + 1) := by
  have apart := (notifyOne_waiters notified).nodup_iff.mpr covered.apart
  unfold CondVar.notifyOne at notified
  split at notified
  · split at notified <;> cases notified
    next nobody => exact covered.of_awake _ nobody
  · split at notified <;> cases notified
    next sleeps =>
      have enough := covered.enough (List.ne_nil_of_mem sleeps)
      exact ⟨apart,fun _ => Nat.succ_le_succ enough⟩

/-- A thread that takes the mutex uses up at most one notification. -/
theorem Covered.resume {cv : CondVar τ} {n : Nat} (covered : cv.Covered n) (t : τ) :
    (cv.resume t).Covered (n - 1) := by
  refine ⟨covered.apart.sublist (List.erase_sublist.append_left _),fun some => ?_⟩
  have enough := covered.enough some
  have fewer := List.length_erase (a := t) (l := cv.notified)
  simp only [CondVar.resume,fewer]
  split <;> omega

theorem Covered.sleep {cv : CondVar τ} {n : Nat} (covered : cv.Covered n) {t : τ}
    (awake : t ∉ cv.asleep) : ((cv.resume t).wait t).Covered 0 := by
  have here : t ∉ cv.notified.erase t := (List.nodup_append.mp covered.apart).2.1.not_mem_erase
  refine ⟨List.nodup_cons.mpr ⟨?_,(covered.resume t).apart⟩,fun _ => Nat.zero_le _⟩
  exact fun there => (List.mem_append.mp there).elim awake here

theorem Covered.spurious {cv : CondVar τ} {n : Nat} (covered : cv.Covered n) (t : τ) :
    (cv.spurious t).Covered n := by
  refine ⟨covered.apart.sublist (List.erase_sublist.append_right _),fun some => ?_⟩
  apply covered.enough
  intro nobody
  exact some (by simp [CondVar.spurious,nobody])

theorem spurious_waiters {cv : CondVar τ} {t u : τ} (waits : u ∈ (cv.spurious t).waiters) :
    u ∈ cv.waiters :=
  (List.erase_sublist.append_right _).subset waits

/-- Once it has run its section a thread waits only if the section put it to sleep. -/
theorem Covered.resume_waiters {cv : CondVar τ} {n : Nat} (covered : cv.Covered n) {t u : τ}
    (awake : t ∉ cv.asleep) (waits : u ∈ (cv.resume t).waiters) : u ≠ t ∧ u ∈ cv.waiters := by
  rcases List.mem_append.mp waits with sleeps | told
  · exact ⟨fun same => awake (same ▸ sleeps),List.mem_append_left _ sleeps⟩
  · obtain ⟨other,told⟩ := (List.nodup_append.mp covered.apart).2.1.mem_erase_iff.mp told
    exact ⟨other,List.mem_append_right _ told⟩

end CondVar
