import Mathlib.Logic.Basic

/-! The ghost side of a mutex: its owner, when it has one, is the one thread inside the
section it protects. -/
namespace Mutex

variable {τ : Type} {owner : Option τ} {inside inside' : τ → Prop}

/-- `inside` holds of the threads that are between acquiring and releasing. -/
def Guards (owner : Option τ) (inside : τ → Prop) : Prop := ∀ t, owner = some t ↔ inside t

theorem Guards.free (guards : Guards none inside) (t : τ) : ¬inside t :=
  fun there => nomatch (guards t).mpr there

/-- No two threads are inside. -/
theorem Guards.unique (guards : Guards owner inside) {t u : τ} (first : inside t)
    (second : inside u) : t = u :=
  Option.some.inj (((guards t).mpr first).symm.trans ((guards u).mpr second))

theorem Guards.keep (guards : Guards owner inside) (same : ∀ t, inside' t ↔ inside t) :
    Guards owner inside' :=
  fun t => (guards t).trans (same t).symm

theorem Guards.acquire (guards : Guards none inside) {t : τ} (enters : inside' t)
    (others : ∀ u, u ≠ t → (inside' u ↔ inside u)) : Guards (some t) inside' := by
  intro u
  by_cases same : u = t
  · subst u
    simpa using enters
  · have outside : ¬inside' u := fun there => guards.free u ((others u same).mp there)
    simpa [outside] using Ne.symm same

theorem Guards.release (guards : Guards owner inside) {t : τ} (held : inside t)
    (leaves : ¬inside' t) (others : ∀ u, u ≠ t → (inside' u ↔ inside u)) :
    Guards none inside' := by
  intro u
  have outside : ¬inside' u := by
    by_cases same : u = t
    · exact same ▸ leaves
    · exact fun there => same (guards.unique ((others u same).mp there) held)
  simpa using outside

end Mutex
