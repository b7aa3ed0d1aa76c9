import InferenceServer.Mutex
import InferenceServer.Transition

/-! `main` from the installation of its signal handlers on, and the runs of `signalHandler` on
any thread of the process, `main`'s own included. -/
namespace InferenceServer

inductive ExitSignal where
  | noSignal
  | graceExit
  | immediateExit
  deriving DecidableEq, Repr

inductive Signum where
  | sigint
  | sigterm
  deriving DecidableEq, Repr

inductive ProcessThread where
  | main
  | other (t : Nat)
  deriving DecidableEq, Repr

inductive SignalPc where
  | testing
  | locking
  | writing
  | unlocking
  | notifying
  deriving DecidableEq, Repr

structure SignalCall where
  signum : Signum
  pc : SignalPc
  deriving DecidableEq, Repr

/-- A place in `main`; `returned` is also where an exception of the start-up ends it. -/
inductive ProcessPc where
  | starting
  | resetLocking
  | resetting
  | resetUnlocking
  | testing
  | locking
  | entering
  | asleep (notified : Bool)
  | woken
  | left
  | sleeping
  | stopping
  | returned (status : Int)
  deriving DecidableEq, Repr

structure Process where
  exiting : ExitSignal
  exitMu : Option ProcessThread
  /-- The calls of `signalHandler` on a thread that have not returned, the newest first. Each
  has interrupted the one below it, and the last one the thread itself. -/
  calls : ProcessThread → List SignalCall
  main : ProcessPc

inductive SignalAction where
  | test
  | lock
  | write
  | unlock
  | notify
  deriving DecidableEq, Repr

inductive ProcessMainAction where
  | started
  | failed
  | lock
  | reset
  | unlock
  | test
  | wait
  | wake
  | spurious
  | timeout
  | judge
  | slept
  | stopped (succeeded : Bool)
  deriving DecidableEq, Repr

inductive ProcessAction where
  | deliver (τ : ProcessThread) (signum : Signum)
  | handler (τ : ProcessThread) (a : SignalAction)
  | main (a : ProcessMainAction)
  deriving DecidableEq, Repr

def SignalPc.holds : SignalPc → Bool
  | .writing | .unlocking => true
  | _ => false

def ProcessPc.holds : ProcessPc → Bool
  | .resetting | .resetUnlocking | .entering | .woken => true
  | _ => false

def ProcessPc.inLoop : ProcessPc → Bool
  | .testing | .locking | .entering | .asleep _ | .woken => true
  | _ => false

def ProcessPc.rank : ProcessPc → Nat
  | .returned _ => 0
  | .stopping => 1
  | .sleeping => 2
  | .left => 3
  | .testing => 4
  | .woken => 5
  | .asleep _ => 6
  | .entering => 7
  | .locking => 8
  | .starting | .resetLocking | .resetting | .resetUnlocking => 9

def ProcessAction.isMain : ProcessAction → Bool
  | .main _ => true
  | _ => false

/-- A wait that ends without a notification. -/
def ProcessAction.unasked : ProcessAction → Bool
  | .main .spurious | .main .timeout => true
  | _ => false

def ProcessAction.genuine : ProcessAction → Bool
  | .deliver _ _ | .main .spurious | .main .timeout => false
  | _ => true

namespace Process

def create : Process := ⟨.noSignal,none,fun _ => [],.starting⟩

def setCalls (s : Process) (τ : ProcessThread) (calls : List SignalCall) : Process :=
  { s with calls := Function.update s.calls τ calls }

def recorded : Signum → ExitSignal
  | .sigterm => .graceExit
  | .sigint => .immediateExit

def notifyAll : ProcessPc → ProcessPc
  | .asleep _ => .asleep true
  | pc => pc

/-- A step of the newest call of `signalHandler` on a thread. A thread that already owns
`exit_mu_` waits for itself. -/
def handlerStep (s : Process) (τ : ProcessThread) (a : SignalAction) : Option Process :=
  match s.calls τ with
  | [] => none
  | ⟨signum,pc⟩ :: below =>
    match pc, a with
    | .testing, .test =>
      if s.exiting = .noSignal then some (s.setCalls τ (⟨signum,.locking⟩ :: below))
      else some (s.setCalls τ below)
    | .locking, .lock =>
      if s.exitMu = none then
        some { s.setCalls τ (⟨signum,.writing⟩ :: below) with exitMu := some τ }
      else none
    | .writing, .write =>
      some { s.setCalls τ (⟨signum,.unlocking⟩ :: below) with exiting := recorded signum }
    | .unlocking, .unlock =>
      some { s.setCalls τ (⟨signum,.notifying⟩ :: below) with exitMu := none }
    | .notifying, .notify => some { s.setCalls τ below with main := notifyAll s.main }
    | _, _ => none

/-- A step of `main`. The wait has no predicate, and its result is not used. -/
def mainStep (s : Process) (a : ProcessMainAction) : Option Process :=
  match s.main, a with
  | .starting, .started => some { s with main := .resetLocking }
  | .starting, .failed => some { s with main := .returned (-1) }
  | .resetLocking, .lock =>
    if s.exitMu = none then some { s with exitMu := some .main, main := .resetting } else none
  | .resetting, .reset => some { s with exiting := .noSignal, main := .resetUnlocking }
  | .resetUnlocking, .unlock => some { s with exitMu := none, main := .testing }
  | .testing, .test =>
    some { s with main := if s.exiting = .noSignal then .locking else .left }
  | .locking, .lock =>
    if s.exitMu = none then some { s with exitMu := some .main, main := .entering } else none
  | .entering, .wait => some { s with exitMu := none, main := .asleep false }
  | .asleep true, .wake =>
    if s.exitMu = none then some { s with exitMu := some .main, main := .woken } else none
  | .asleep _, .spurious =>
    if s.exitMu = none then some { s with exitMu := some .main, main := .woken } else none
  | .asleep _, .timeout =>
    if s.exitMu = none then some { s with exitMu := some .main, main := .woken } else none
  | .woken, .unlock => some { s with exitMu := none, main := .testing }
  | .left, .judge =>
    some { s with main := if s.exiting = .graceExit then .sleeping else .stopping }
  | .sleeping, .slept => some { s with main := .stopping }
  | .stopping, .stopped succeeded => some { s with main := .returned (if succeeded then 0 else -1) }
  | _, _ => none

/-- `main` goes on only when no handler interrupts it. -/
def step (s : Process) : ProcessAction → Option Process
  | .deliver τ signum => some (s.setCalls τ (⟨signum,.testing⟩ :: s.calls τ))
  | .handler τ a => s.handlerStep τ a
  | .main a => if s.calls .main = [] then s.mainStep a else none

def machine : Transition.Machine Process ProcessAction := ⟨create,step⟩

inductive HandlerStep (s : Process) (τ : ProcessThread) : SignalAction → Process → Prop where
  | pass {signum below} : s.calls τ = ⟨signum,.testing⟩ :: below → s.exiting = .noSignal →
      HandlerStep s τ .test (s.setCalls τ (⟨signum,.locking⟩ :: below))
  | ignore {signum below} : s.calls τ = ⟨signum,.testing⟩ :: below → s.exiting ≠ .noSignal →
      HandlerStep s τ .test (s.setCalls τ below)
  | lock {signum below} : s.calls τ = ⟨signum,.locking⟩ :: below → s.exitMu = none →
      HandlerStep s τ .lock { s.setCalls τ (⟨signum,.writing⟩ :: below) with exitMu := some τ }
  | write {signum below} : s.calls τ = ⟨signum,.writing⟩ :: below →
      HandlerStep s τ .write
        { s.setCalls τ (⟨signum,.unlocking⟩ :: below) with exiting := recorded signum }
  | unlock {signum below} : s.calls τ = ⟨signum,.unlocking⟩ :: below →
      HandlerStep s τ .unlock { s.setCalls τ (⟨signum,.notifying⟩ :: below) with exitMu := none }
  | notify {signum below} : s.calls τ = ⟨signum,.notifying⟩ :: below →
      HandlerStep s τ .notify { s.setCalls τ below with main := notifyAll s.main }

theorem handlerStep_cases {s s' : Process} {τ : ProcessThread} {a : SignalAction}
    (taken : s.handlerStep τ a = some s') : HandlerStep s τ a s' := by
  unfold handlerStep at taken
  split at taken
  · contradiction
  next signum pc below top =>
    split at taken
    · split at taken
      next none => cases taken; exact .pass top none
      next some => cases taken; exact .ignore top some
    · split at taken
      next free => cases taken; exact .lock top free
      · contradiction
    · cases taken; exact .write top
    · cases taken; exact .unlock top
    · cases taken; exact .notify top
    · contradiction

inductive ProcessMainStep (s : Process) : ProcessMainAction → Process → Prop where
  | started : s.main = .starting → ProcessMainStep s .started { s with main := .resetLocking }
  | failed : s.main = .starting → ProcessMainStep s .failed { s with main := .returned (-1) }
  | resetLock : s.main = .resetLocking → s.exitMu = none →
      ProcessMainStep s .lock { s with exitMu := some .main, main := .resetting }
  | reset : s.main = .resetting →
      ProcessMainStep s .reset { s with exiting := .noSignal, main := .resetUnlocking }
  | unlock : s.main = .resetUnlocking ∨ s.main = .woken →
      ProcessMainStep s .unlock { s with exitMu := none, main := .testing }
  | goOn : s.main = .testing → s.exiting = .noSignal →
      ProcessMainStep s .test { s with main := .locking }
  | leave : s.main = .testing → s.exiting ≠ .noSignal →
      ProcessMainStep s .test { s with main := .left }
  | lock : s.main = .locking → s.exitMu = none →
      ProcessMainStep s .lock { s with exitMu := some .main, main := .entering }
  | wait : s.main = .entering →
      ProcessMainStep s .wait { s with exitMu := none, main := .asleep false }
  | wake {a notified} : s.main = .asleep notified →
      a = .wake ∧ notified = true ∨ a = .spurious ∨ a = .timeout → s.exitMu = none →
      ProcessMainStep s a { s with exitMu := some .main, main := .woken }
  | judge {pc} : s.main = .left → pc = .sleeping ∨ pc = .stopping →
      ProcessMainStep s .judge { s with main := pc }
  | slept : s.main = .sleeping → ProcessMainStep s .slept { s with main := .stopping }
  | stopped {succeeded status} : s.main = .stopping →
      ProcessMainStep s (.stopped succeeded) { s with main := .returned status }

theorem mainStep_cases {s s' : Process} {a : ProcessMainAction}
    (taken : s.mainStep a = some s') : ProcessMainStep s a s' := by
  unfold mainStep at taken
  split at taken
  next pc => cases taken; exact .started pc
  next pc => cases taken; exact .failed pc
  next pc =>
    split at taken
    next free => cases taken; exact .resetLock pc free
    · contradiction
  next pc => cases taken; exact .reset pc
  next pc => cases taken; exact .unlock (.inl pc)
  next pc =>
    split at taken
    next none => cases taken; exact .goOn pc none
    next some => cases taken; exact .leave pc some
  next pc =>
    split at taken
    next free => cases taken; exact .lock pc free
    · contradiction
  next pc => cases taken; exact .wait pc
  next pc =>
    split at taken
    next free => cases taken; exact .wake pc (.inl ⟨rfl,rfl⟩) free
    · contradiction
  next pc =>
    split at taken
    next free => cases taken; exact .wake pc (.inr (.inl rfl)) free
    · contradiction
  next pc =>
    split at taken
    next free => cases taken; exact .wake pc (.inr (.inr rfl)) free
    · contradiction
  next pc => cases taken; exact .unlock (.inr pc)
  next pc =>
    cases taken
    refine .judge pc ?_
    split
    · exact .inl rfl
    · exact .inr rfl
  next pc => cases taken; exact .slept pc
  next pc => cases taken; exact .stopped pc
  · contradiction

def held (base : Bool) (calls : List SignalCall) : Bool := calls.any (·.pc.holds) || base

def base (s : Process) (τ : ProcessThread) : Bool := decide (τ = .main) && s.main.holds

def Inside (s : Process) (τ : ProcessThread) : Prop := held (s.base τ) (s.calls τ) = true

/-- A call above an owner of the mutex is none itself, and if it waits for the mutex, which it
then does for ever, nothing has been recorded. -/
def Stacked (exiting : ExitSignal) (base : Bool) : List SignalCall → Prop
  | [] => True
  | call :: below =>
    (held base below = true →
      call.pc.holds = false ∧ (call.pc = .locking → exiting = .noSignal)) ∧
    Stacked exiting base below

theorem held_cons (base : Bool) (call : SignalCall) (below : List SignalCall) :
    held base (call :: below) = (call.pc.holds || held base below) := by
  simp [held,Bool.or_assoc]

theorem stacked_of_free (exiting : ExitSignal) {base : Bool} {calls : List SignalCall}
    (free : held base calls = false) : Stacked exiting base calls := by
  induction calls with
  | nil => trivial
  | cons call below ih =>
    rw [held_cons,Bool.or_eq_false_iff] at free
    exact ⟨fun owns => absurd (free.2.symm.trans owns) (by simp),ih free.2⟩

theorem free_below {exiting : ExitSignal} {base : Bool} {call : SignalCall}
    {below : List SignalCall} (stacked : Stacked exiting base (call :: below))
    (owns : call.pc.holds = true) : held base below = false := by
  by_contra other
  exact absurd ((stacked.1 (by simpa using other)).1.symm.trans owns) (by simp)

theorem Stacked.reset {exiting : ExitSignal} {base : Bool} {calls : List SignalCall}
    (stacked : Stacked exiting base calls) : Stacked .noSignal base calls := by
  induction calls with
  | nil => trivial
  | cons call below ih =>
    exact ⟨fun owns => ⟨(stacked.1 owns).1,fun _ => rfl⟩,ih stacked.2⟩

/-- `exit_mu_` belongs to the thread that is inside one of its sections, and nobody waits for
it in vain once a signal is recorded. -/
structure Nested (s : Process) : Prop where
  guards : Mutex.Guards s.exitMu s.Inside
  stacked : ∀ τ, Stacked s.exiting (s.base τ) (s.calls τ)

theorem inside_self {s s' : Process} {τ : ProcessThread} {calls : List SignalCall}
    (changed : s'.calls = Function.update s.calls τ calls)
    (same : s'.main.holds = s.main.holds) :
    s'.Inside τ ↔ held (s.base τ) calls = true := by
  simp [Inside,base,changed,same]

theorem inside_others {s s' : Process} {τ υ : ProcessThread} {calls : List SignalCall}
    (changed : s'.calls = Function.update s.calls τ calls)
    (same : s'.main.holds = s.main.holds) (other : υ ≠ τ) : s'.Inside υ ↔ s.Inside υ := by
  simp [Inside,base,changed,same,other]

theorem guards_update {s s' : Process} {τ : ProcessThread} {calls : List SignalCall}
    (guards : Mutex.Guards s.exitMu s.Inside)
    (changed : s'.calls = Function.update s.calls τ calls)
    (same : s'.main.holds = s.main.holds)
    (here : held (s.base τ) calls = held (s.base τ) (s.calls τ)) :
    Mutex.Guards s.exitMu s'.Inside := by
  refine guards.keep fun υ => ?_
  by_cases is : υ = τ
  · rw [is,inside_self changed same,here]
    rfl
  · exact inside_others changed same is

theorem stacked_update {s s' : Process} {τ : ProcessThread} {calls : List SignalCall}
    (changed : s'.calls = Function.update s.calls τ calls)
    (same : s'.main.holds = s.main.holds) (here : Stacked s'.exiting (s.base τ) calls)
    (there : ∀ υ, υ ≠ τ → Stacked s'.exiting (s.base υ) (s.calls υ)) (υ : ProcessThread) :
    Stacked s'.exiting (s'.base υ) (s'.calls υ) := by
  have bases : s'.base υ = s.base υ := by rw [base,base,same]
  rw [bases,changed,Function.update_apply]
  split
  next is => rw [is]; exact here
  next other => exact there υ other

theorem notifyAll_holds (pc : ProcessPc) : (notifyAll pc).holds = pc.holds := by
  cases pc <;> rfl

theorem handler_nested {s s' : Process} {τ : ProcessThread} {a : SignalAction}
    (taken : HandlerStep s τ a s') (nested : Nested s) : Nested s' := by
  obtain ⟨guards,stacked⟩ := nested
  have mine := stacked τ
  have owner : s.Inside τ ↔ held (s.base τ) (s.calls τ) = true := Iff.rfl
  cases taken with
  | pass top none =>
    rw [top] at mine
    refine ⟨guards_update (s := s) guards rfl rfl ?_,
      stacked_update rfl rfl ⟨fun _ => ⟨rfl,fun _ => none⟩,mine.2⟩ fun υ _ => stacked υ⟩
    rw [top,held_cons,held_cons]
    rfl
  | ignore top =>
    rw [top] at mine
    refine ⟨guards_update (s := s) guards rfl rfl ?_,
      stacked_update rfl rfl mine.2 fun υ _ => stacked υ⟩
    rw [top,held_cons]
    rfl
  | lock top free =>
    rw [top] at mine owner
    rw [free] at guards
    have owned := guards.free τ
    refine ⟨guards.acquire ?_ fun υ other => inside_others (s := s) rfl rfl other,
      stacked_update rfl rfl ⟨fun owns => ?_,mine.2⟩ fun υ _ => stacked υ⟩
    · refine Iff.mpr (inside_self (s := s) rfl rfl) ?_
      rw [held_cons]
      rfl
    · rw [owner,held_cons,owns,Bool.or_true] at owned
      contradiction
  | write top =>
    rw [top] at mine owner
    have within : s.Inside τ := by rw [owner,held_cons]; rfl
    have alone := free_below mine rfl
    refine ⟨guards_update (s := s) guards rfl rfl ?_,stacked_update rfl rfl ?_ fun υ other => ?_⟩
    · rw [top,held_cons,held_cons]
      rfl
    · exact ⟨fun owns => absurd (alone.symm.trans owns) (by simp),stacked_of_free _ alone⟩
    · apply stacked_of_free
      by_contra owns
      exact other (guards.unique (by simpa [Inside] using owns) within)
  | unlock top =>
    rw [top] at mine owner
    have within : s.Inside τ := by rw [owner,held_cons]; rfl
    have alone := free_below mine rfl
    refine ⟨guards.release within ?_ fun υ other => inside_others (s := s) rfl rfl other,
      stacked_update rfl rfl ⟨fun owns => absurd (alone.symm.trans owns) (by simp),mine.2⟩
        fun υ _ => stacked υ⟩
    refine mt (Iff.mp (inside_self (s := s) rfl rfl)) ?_
    rw [held_cons,alone]
    simp [SignalPc.holds]
  | notify top =>
    rw [top] at mine
    refine ⟨guards_update (s := s) guards rfl (notifyAll_holds _) ?_,
      stacked_update rfl (notifyAll_holds _) mine.2 fun υ _ => stacked υ⟩
    rw [top,held_cons]
    rfl

theorem nested_of_main {s s' : Process} (quiet : s.calls .main = []) (calls : s'.calls = s.calls)
    (exiting : s'.exiting = s.exiting ∨ s'.exiting = .noSignal)
    (guards : Mutex.Guards s'.exitMu s'.Inside) (nested : Nested s) : Nested s' := by
  refine ⟨guards,fun τ => ?_⟩
  rw [calls]
  by_cases here : τ = .main
  · rw [here,quiet]
    trivial
  · have bases : s'.base τ = s.base τ := by simp [base,here]
    rw [bases]
    rcases exiting with same | none
    · rw [same]
      exact nested.stacked τ
    · rw [none]
      exact (nested.stacked τ).reset

theorem inside_main {s : Process} (quiet : s.calls .main = []) :
    s.Inside .main ↔ s.main.holds = true := by
  simp [Inside,held,base,quiet]

theorem inside_other {s s' : Process} (calls : s'.calls = s.calls) {τ : ProcessThread}
    (other : τ ≠ .main) : s'.Inside τ ↔ s.Inside τ := by
  simp [Inside,base,other,calls]

theorem main_nested {s s' : Process} {a : ProcessMainAction} (quiet : s.calls .main = [])
    (taken : ProcessMainStep s a s') (nested : Nested s) : Nested s' := by
  have guards := nested.guards
  have keep {t : Process} (calls : t.calls = s.calls) (same : t.main.holds = s.main.holds) :
      Mutex.Guards s.exitMu t.Inside := by
    refine guards.keep fun τ => ?_
    by_cases here : τ = .main
    · rw [here,inside_main quiet,inside_main (calls ▸ quiet),same]
    · exact inside_other calls here
  have acquire {t : Process} (free : s.exitMu = none) (calls : t.calls = s.calls)
      (owns : t.main.holds = true) : Mutex.Guards (some .main) t.Inside := by
    rw [free] at guards
    exact guards.acquire ((inside_main (calls ▸ quiet)).mpr owns)
      fun τ other => inside_other calls other
  have release {t : Process} (owned : s.main.holds = true) (calls : t.calls = s.calls)
      (gone : t.main.holds = false) : Mutex.Guards none t.Inside := by
    apply guards.release ((inside_main quiet).mpr owned) ?_ fun τ other => inside_other calls other
    rw [inside_main (calls ▸ quiet),gone]
    simp
  cases taken with
  | started pc | failed pc | goOn pc | leave pc | slept pc | stopped pc =>
    exact nested_of_main quiet rfl (.inl rfl) (keep rfl (by rw [pc]; rfl)) nested
  | judge pc next =>
    refine nested_of_main quiet rfl (.inl rfl) (keep rfl ?_) nested
    rcases next with rfl | rfl <;> (rw [pc]; rfl)
  | reset pc => exact nested_of_main quiet rfl (.inr rfl) (keep rfl (by rw [pc]; rfl)) nested
  | resetLock _ free | lock _ free | wake _ _ free =>
    exact nested_of_main quiet rfl (.inl rfl) (acquire free rfl rfl) nested
  | unlock pc =>
    refine nested_of_main quiet rfl (.inl rfl) (release ?_ rfl rfl) nested
    rcases pc with pc | pc <;> (rw [pc]; rfl)
  | wait pc => exact nested_of_main quiet rfl (.inl rfl) (release (by rw [pc]; rfl) rfl rfl) nested

theorem deliver_nested {s : Process} (τ : ProcessThread) (signum : Signum) (nested : Nested s) :
    Nested (s.setCalls τ (⟨signum,.testing⟩ :: s.calls τ)) := by
  refine ⟨guards_update (s := s) nested.guards rfl rfl ?_,stacked_update rfl rfl ?_
    fun υ _ => nested.stacked υ⟩
  · rw [held_cons]
    rfl
  · exact ⟨fun _ => ⟨rfl,by simp⟩,nested.stacked τ⟩

theorem reachable_nested {s : Process} (reach : machine.Reachable s) : Nested s := by
  refine reach.invariant (P := Nested) ⟨fun τ => ?_,fun τ => ?_⟩ ?_
  · simp [machine,create,Inside,held,base,ProcessPc.holds]
  · simp [machine,create,Stacked]
  intro s a t _ nested taken
  cases a with
  | deliver τ signum =>
    cases taken
    exact deliver_nested τ signum nested
  | handler τ a => exact handler_nested (handlerStep_cases taken) nested
  | main a =>
    obtain ⟨quiet,taken⟩ := Option.ite_none_right_eq_some.mp taken
    exact main_nested quiet (mainStep_cases taken) nested

/-- Some call of `signalHandler` is past its test and has not called `notify_all`. -/
def Pending (s : Process) : Prop := ∃ τ, ∃ call ∈ s.calls τ, call.pc ≠ .testing

/-- The newest call on a thread can go on unless it waits for the mutex. -/
theorem top_enabled {s : Process} {τ : ProcessThread} {call : SignalCall}
    {below : List SignalCall} (top : s.calls τ = call :: below)
    (free : call.pc = .locking → s.exitMu = none) :
    ∃ a t, ProcessAction.genuine a = true ∧ s.step a = some t := by
  obtain ⟨signum,pc⟩ := call
  cases pc with
  | testing =>
    refine ⟨.handler τ .test,?_⟩
    by_cases none : s.exiting = .noSignal <;> simp [ProcessAction.genuine,step,handlerStep,top,none]
  | locking =>
    refine ⟨.handler τ .lock,?_⟩
    simp [ProcessAction.genuine,step,handlerStep,top,free rfl]
  | writing => exact ⟨.handler τ .write,by simp [ProcessAction.genuine,step,handlerStep,top]⟩
  | unlocking => exact ⟨.handler τ .unlock,by simp [ProcessAction.genuine,step,handlerStep,top]⟩
  | notifying => exact ⟨.handler τ .notify,by simp [ProcessAction.genuine,step,handlerStep,top]⟩

/-- In the loop with a signal recorded, somebody can go on. -/
theorem loop_enabled {s : Process} (nested : Nested s) (signalled : s.exiting ≠ .noSignal)
    (inLoop : s.main.inLoop = true) (woken : s.main = .asleep false → s.Pending) :
    ∃ a t, ProcessAction.genuine a = true ∧ s.step a = some t := by
  obtain ⟨guards,stacked⟩ := nested
  cases owner : s.exitMu with
  | some τ =>
    have inside := (guards τ).mp owner
    cases top : s.calls τ with
    | cons call below =>
      -- A thread that waits for itself has seen no signal.
      apply top_enabled top
      intro waits
      have above := stacked τ
      rw [Inside,top,held_cons,waits] at inside
      rw [top] at above
      exact absurd ((above.1 inside).2 waits) signalled
    | nil =>
      have owns : τ = .main ∧ s.main.holds = true := by
        simpa [Inside,top,held,base] using inside
      obtain ⟨rfl,owns⟩ := owns
      cases pc : s.main with
      | entering => exact ⟨.main .wait,by simp [ProcessAction.genuine,step,mainStep,top,pc]⟩
      | woken => exact ⟨.main .unlock,by simp [ProcessAction.genuine,step,mainStep,top,pc]⟩
      | _ => simp [pc,ProcessPc.holds,ProcessPc.inLoop] at owns inLoop
  | none =>
    cases top : s.calls .main with
    | cons call below => exact top_enabled top fun _ => owner
    | nil =>
      have outside : s.main.holds = false := by
        rw [owner] at guards
        simpa [inside_main top] using guards.free .main
      cases pc : s.main with
      | testing => exact ⟨.main .test,by simp [ProcessAction.genuine,step,mainStep,top,pc]⟩
      | locking => exact ⟨.main .lock,by simp [ProcessAction.genuine,step,mainStep,top,pc,owner]⟩
      | asleep notified =>
        cases notified with
        | true =>
          exact ⟨.main .wake,by simp [ProcessAction.genuine,step,mainStep,top,pc,owner]⟩
        | false =>
          obtain ⟨τ,call,there,_⟩ := woken pc
          obtain ⟨first,below,is⟩ := List.exists_cons_of_ne_nil (List.ne_nil_of_mem there)
          exact top_enabled is fun _ => owner
      | _ => simp [pc,ProcessPc.holds,ProcessPc.inLoop] at outside inLoop

/-- Past the loop's test nothing but a notification is waited for. -/
theorem step_rank {s t : Process} {a : ProcessAction} (asked : a.unasked = false)
    (valid : s.exiting ≠ .noSignal ∧ s.main.rank ≤ 8) (taken : s.step a = some t) :
    (t.exiting ≠ .noSignal ∧ t.main.rank ≤ 8) ∧
      t.main.rank + (if a.isMain then 1 else 0) ≤ s.main.rank := by
  obtain ⟨signalled,past⟩ := valid
  cases a with
  | deliver τ signum =>
    cases taken
    exact ⟨⟨signalled,past⟩,Nat.le_refl _⟩
  | handler τ a =>
    cases handlerStep_cases taken with
    | write => exact ⟨⟨by cases ‹Signum› <;> simp [recorded],past⟩,Nat.le_refl _⟩
    | notify =>
      have same : (notifyAll s.main).rank = s.main.rank := by cases s.main <;> rfl
      exact ⟨⟨signalled,same ▸ past⟩,Nat.le_of_eq same⟩
    | pass | ignore | lock | unlock => exact ⟨⟨signalled,past⟩,Nat.le_refl _⟩
  | main a =>
    obtain ⟨_,taken⟩ := Option.ite_none_right_eq_some.mp taken
    cases mainStep_cases taken with
    | goOn _ none => exact absurd none signalled
    | started pc | failed pc | resetLock pc | reset pc =>
      rw [pc] at past
      contradiction
    | unlock pc =>
      rcases pc with pc | pc <;> rw [pc] at past ⊢
      · contradiction
      · exact ⟨⟨signalled,by simp [ProcessPc.rank]⟩,by simp [ProcessPc.rank,ProcessAction.isMain]⟩
    | judge pc next =>
      rw [pc]
      rcases next with rfl | rfl <;>
        exact ⟨⟨signalled,by simp [ProcessPc.rank]⟩,by simp [ProcessPc.rank,ProcessAction.isMain]⟩
    | leave pc | lock pc | wait pc | wake pc | slept pc | stopped pc =>
      rw [pc]
      exact ⟨⟨signalled,by simp [ProcessPc.rank]⟩,by simp [ProcessPc.rank,ProcessAction.isMain]⟩

/-- A signal that has been recorded is heeded: it stays recorded, `main` is not asleep with no
`notify_all` to come, and while it is in its loop somebody can go on, so that it leaves the loop
with its fifth step at the latest, unless its wait ends without a notification. -/
structure Heeded (s : Process) : Prop where
  kept : s.exiting ≠ .noSignal
  woken : s.main = .asleep false → s.Pending
  enabled : s.main.inLoop = true → ∃ a t, ProcessAction.genuine a = true ∧ s.step a = some t
  leaves : s.main.inLoop = true → ∀ actions t, (∀ a ∈ actions, ProcessAction.unasked a = false) →
    machine.exec s actions = some t → t.main.inLoop = true →
    actions.countP ProcessAction.isMain ≤ 4

/-- `main` clears the flag before any signal is recorded, and does not go to sleep after one
unless a handler that is past its test has still to call `notify_all`. -/
def InTime (s : Process) : ProcessAction → Prop
  | .main .reset => s.exiting = .noSignal
  | .main .wait => s.exiting = .noSignal ∨ s.Pending
  | _ => True

def Recorded (actions : List ProcessAction) : Prop := ∃ τ, .handler τ .write ∈ actions

theorem inLoop_rank {pc : ProcessPc} (inLoop : pc.inLoop = true) : 4 ≤ pc.rank ∧ pc.rank ≤ 8 := by
  cases pc <;> simp_all [ProcessPc.inLoop,ProcessPc.rank]

theorem heeded_of_kept {s : Process} (nested : Nested s) (kept : s.exiting ≠ .noSignal)
    (woken : s.main = .asleep false → s.Pending) : Heeded s := by
  refine ⟨kept,woken,fun inLoop => loop_enabled nested kept inLoop woken,?_⟩
  intro inLoop actions t asked run still
  have counted := Transition.Machine.exec_countP_le (m := machine)
    (P := fun s => s.exiting ≠ .noSignal ∧ s.main.rank ≤ 8) (Q := fun a => a.unasked = false)
    ProcessAction.isMain
    (fun _ _ _ asked valid taken => step_rank asked valid taken)
    ⟨kept,(inLoop_rank inLoop).2⟩ actions asked run
  have early := (inLoop_rank inLoop).2
  have late := (inLoop_rank still).1
  omega

theorem recorded_of_exiting {actions : List ProcessAction} {s : Process}
    (run : machine.exec create actions = some s) (signalled : s.exiting ≠ .noSignal) :
    Recorded actions := by
  revert signalled
  refine Transition.Machine.exec_invariant (m := machine)
    (P := fun actions s => s.exiting ≠ .noSignal → Recorded actions) (fun not => absurd rfl not) ?_
    run
  intro before s a t _ earlier taken signalled
  have old (same : t.exiting = s.exiting) : Recorded (before ++ [a]) := by
    obtain ⟨τ,there⟩ := earlier (same ▸ signalled)
    exact ⟨τ,List.mem_append_left _ there⟩
  cases a with
  | deliver τ signum =>
    cases taken
    exact old rfl
  | handler τ a =>
    cases handlerStep_cases taken with
    | write => exact ⟨τ,List.mem_append_right _ (List.mem_singleton.mpr rfl)⟩
    | _ => exact old rfl
  | main a =>
    obtain ⟨_,taken⟩ := Option.ite_none_right_eq_some.mp taken
    cases mainStep_cases taken with
    | reset => exact absurd rfl signalled
    | _ => exact old rfl

theorem step_kept {s t : Process} {a : ProcessAction} (taken : s.step a = some t)
    (inTime : InTime s a) (signalled : s.exiting ≠ .noSignal ∨ ∃ τ, a = .handler τ .write) :
    t.exiting ≠ .noSignal := by
  cases a with
  | deliver τ signum =>
    cases taken
    exact signalled.resolve_right (by simp)
  | handler τ a =>
    cases handlerStep_cases taken with
    | @write signum => cases signum <;> simp [recorded]
    | _ => exact signalled.resolve_right (by simp)
  | main a =>
    obtain ⟨_,taken⟩ := Option.ite_none_right_eq_some.mp taken
    cases mainStep_cases taken with
    | reset => exact absurd inTime (signalled.resolve_right (by simp))
    | _ => exact signalled.resolve_right (by simp)

/-- A sleeping `main` has a `notify_all` to come as soon as a signal is recorded. -/
theorem step_woken {s t : Process} {a : ProcessAction} (taken : s.step a = some t)
    (inTime : InTime s a)
    (valid : s.exiting ≠ .noSignal → s.main = .asleep false → s.Pending)
    (signalled : t.exiting ≠ .noSignal) (asleep : t.main = .asleep false) : t.Pending := by
  cases a with
  | deliver τ signum =>
    cases taken
    obtain ⟨υ,call,there,past⟩ := valid signalled asleep
    refine ⟨υ,call,?_,past⟩
    simp only [setCalls,Function.update_apply]
    split
    next here => exact List.mem_cons_of_mem _ (here ▸ there)
    · exact there
  | handler τ a =>
    have top (call : SignalCall) (below : List SignalCall) (past : call.pc ≠ .testing)
        (calls : t.calls = Function.update s.calls τ (call :: below)) : t.Pending :=
      ⟨τ,call,by simp [calls],past⟩
    cases handlerStep_cases taken with
    | pass _ none => exact absurd none signalled
    | ignore here =>
      obtain ⟨υ,call,there,past⟩ := valid signalled asleep
      refine ⟨υ,call,?_,past⟩
      simp only [setCalls,Function.update_apply]
      split
      next is =>
        rw [is,here] at there
        rcases List.mem_cons.mp there with rfl | there
        · exact absurd rfl past
        · exact there
      · exact there
    | lock => exact top _ _ (by simp) rfl
    | write => exact top _ _ (by simp) rfl
    | unlock => exact top _ _ (by simp) rfl
    | notify => cases pc : s.main <;> simp [notifyAll,pc] at asleep
  | main a =>
    obtain ⟨_,taken⟩ := Option.ite_none_right_eq_some.mp taken
    cases mainStep_cases taken with
    | wait => exact inTime.resolve_left signalled
    | judge _ next => rcases next with rfl | rfl <;> contradiction
    | _ => contradiction

/-- In a run every signal that is recorded is heeded, in every state from then on, exactly if
every step of the run is in time. -/
theorem signal_heeded_iff {actions : List ProcessAction} {s : Process}
    (run : machine.exec create actions = some s) :
    machine.Along (fun before s => Recorded before → Heeded s) actions ↔
      machine.Meets (fun _ => InTime) actions := by
  apply Transition.Machine.along_iff_meets (s := s) (I := fun before s =>
    (Recorded before → s.exiting ≠ .noSignal) ∧
    (s.exiting ≠ .noSignal → s.main = .asleep false → s.Pending)) ?_ ?_ ?_ ?_ run
  · exact ⟨fun ⟨_,there⟩ => absurd there List.not_mem_nil,fun not => absurd rfl not⟩
  · rintro before s a t _ ⟨kept,woken⟩ inTime taken
    refine ⟨fun ⟨τ,there⟩ => ?_,step_woken taken inTime woken⟩
    apply step_kept taken inTime
    rcases List.mem_append.mp there with earlier | now
    · exact .inl (kept ⟨τ,earlier⟩)
    · exact .inr ⟨τ,(List.mem_singleton.mp now).symm⟩
  · rintro before s ran ⟨kept,woken⟩ signalled
    have nested := reachable_nested (Transition.Machine.exec_reachable .start before ran)
    exact heeded_of_kept nested (kept signalled) (woken (kept signalled))
  · intro before s a t ran taken late heeded
    have signalled (exiting : s.exiting ≠ .noSignal) : Heeded t := by
      obtain ⟨τ,there⟩ := recorded_of_exiting ran exiting
      exact heeded ⟨τ,List.mem_append_left _ there⟩
    cases a with
    | deliver | handler => exact late trivial
    | main a =>
      obtain ⟨_,taken⟩ := Option.ite_none_right_eq_some.mp taken
      cases mainStep_cases taken with
      | reset => exact (signalled late).kept rfl
      | wait =>
        obtain ⟨exiting,nobody⟩ := not_or.mp late
        exact nobody ((signalled exiting).woken rfl)
      | wake _ way => rcases way with ⟨rfl,_⟩ | rfl | rfl <;> exact late trivial
      | _ => exact late trivial

def terminated : List ProcessAction :=
  [.deliver (.other 0) .sigterm] ++
    List.map (ProcessAction.handler (.other 0)) [.test,.lock,.write,.unlock,.notify]

def waitingRun : List ProcessAction :=
  List.map ProcessAction.main [.started,.lock,.reset,.unlock,.test,.lock,.wait]

def heededRun : List ProcessAction :=
  waitingRun ++ terminated ++ List.map ProcessAction.main [.wake,.unlock,.test]

theorem signal_heeded_waiting : ∃ s, machine.exec create heededRun = some s ∧
    s.exiting = .graceExit ∧ s.main = .left ∧
    machine.Along (fun before s => Recorded before → Heeded s) heededRun := by
  have seen : ((machine.restrict fun s a =>
      a = .main .reset ∨ a = .main .wait → s.exiting = .noSignal).exec create heededRun).map
        (fun s => (s.exiting,s.main)) = some (.graceExit,.left) := rfl
  obtain ⟨s,run,seen⟩ := Option.map_eq_some_iff.mp seen
  obtain ⟨run,meets⟩ := Transition.Machine.restrict_meets run
  simp only [Prod.mk.injEq] at seen
  obtain ⟨exiting,left⟩ := seen
  refine ⟨s,run,exiting,left,(signal_heeded_iff run).mpr fun before a after t split ran => ?_⟩
  have early := meets before a after t split ran
  cases a with
  | deliver | handler => trivial
  | main a =>
    cases a with
    | reset => exact early (.inl rfl)
    | wait => exact .inl (early (.inr rfl))
    | _ => trivial

/-- A signal during the start-up is recorded and then erased; one between the loop's test and
the wait is recorded, and `main` goes to sleep after its `notify_all`. -/
theorem signal_lost :
    (∃ s, machine.exec create (terminated ++ waitingRun) = some s ∧
      Recorded (terminated ++ waitingRun) ∧ s.exiting = .noSignal ∧ s.main = .asleep false) ∧
    ∃ s, machine.exec create (waitingRun.take 5 ++ terminated ++ waitingRun.drop 5) = some s ∧
      s.exiting = .graceExit ∧ s.main = .asleep false ∧ ¬s.Pending := by
  refine ⟨⟨_,rfl,⟨.other 0,by decide⟩,rfl,rfl⟩,_,rfl,rfl,rfl,?_⟩
  rintro ⟨τ,call,there,_⟩
  by_cases here : τ = .other 0 <;> simp [setCalls,create,here] at there

end Process
end InferenceServer
