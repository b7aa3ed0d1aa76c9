import Mathlib.Data.List.Perm.Basic
import InferenceServer.Transition

/-! A pool of workers over a bounded queue, as what it is for: jobs are accepted while there is
room, begun in the order of acceptance, finished once, and after the pool has closed neither
accepted nor begun. A pool carries the proofs that it is in such a state. -/

/-- `active` are the jobs begun and not finished, in the order they were begun. -/
structure WorkPool (α : Type) (capacity runners : Nat) where
  accepted : List α
  begun : List α
  waiting : List α
  active : List α
  finished : List α
  closed : Bool
  inOrder : accepted = begun ++ waiting
  balanced : begun.Perm (finished ++ active)
  room : waiting.length ≤ capacity
  hands : active.length ≤ runners

inductive PoolAction (α : Type) where
  | submit (x : α)
  | begin
  | finish (i : Nat)
  | close

namespace WorkPool

variable {α : Type} {capacity runners : Nat}

def empty : WorkPool α capacity runners :=
  ⟨[],[],[],[],[],false,rfl,.refl _,Nat.zero_le _,Nat.zero_le _⟩

def submit (pool : WorkPool α capacity runners) (x : α) (space : pool.waiting.length < capacity) :
    WorkPool α capacity runners :=
  { pool with
    accepted := pool.accepted ++ [x]
    waiting := pool.waiting ++ [x]
    inOrder := by rw [pool.inOrder,List.append_assoc]
    room := by
      rw [List.length_append]
      exact space }

def begin (pool : WorkPool α capacity runners) (x : α) (rest : List α)
    (next : pool.waiting = x :: rest) (free : pool.active.length < runners) :
    WorkPool α capacity runners :=
  { pool with
    begun := pool.begun ++ [x]
    waiting := rest
    active := pool.active ++ [x]
    inOrder := by simp [pool.inOrder,next]
    balanced := by
      rw [← List.append_assoc]
      exact pool.balanced.append_right [x]
    room := by
      have room := pool.room
      rw [next,List.length_cons] at room
      omega
    hands := by
      rw [List.length_append]
      exact free }

def finish (pool : WorkPool α capacity runners) (i : Nat) (bound : i < pool.active.length) :
    WorkPool α capacity runners :=
  { pool with
    active := pool.active.eraseIdx i
    finished := pool.finished ++ [pool.active[i]]
    balanced := by
      apply pool.balanced.trans
      rw [List.append_assoc]
      exact (List.getElem_cons_eraseIdx_perm bound).symm.append_left _
    hands := by
      have hands := pool.hands
      rw [List.length_eraseIdx_of_lt bound]
      omega }

def close (pool : WorkPool α capacity runners) : WorkPool α capacity runners :=
  { pool with closed := true }

def step (pool : WorkPool α capacity runners) :
    PoolAction α → Option (WorkPool α capacity runners)
  | .submit x =>
    if space : pool.closed = false ∧ pool.waiting.length < capacity then
      some (pool.submit x space.2)
    else none
  | .begin =>
    match next : pool.waiting with
    | [] => none
    | x :: rest =>
      if free : pool.closed = false ∧ pool.active.length < runners then
        some (pool.begin x rest next free.2)
      else none
  | .finish i => if bound : i < pool.active.length then some (pool.finish i bound) else none
  | .close => some pool.close

def machine (α : Type) (capacity runners : Nat) :
    Transition.Machine (WorkPool α capacity runners) (PoolAction α) :=
  ⟨empty,step⟩

theorem step_submit {pool : WorkPool α capacity runners} (x : α) (opened : pool.closed = false)
    (space : pool.waiting.length < capacity) :
    pool.step (.submit x) = some (pool.submit x space) :=
  dif_pos ⟨opened,space⟩

theorem step_begin {pool : WorkPool α capacity runners} {x : α} {rest : List α}
    (opened : pool.closed = false) (next : pool.waiting = x :: rest)
    (free : pool.active.length < runners) :
    pool.step .begin = some (pool.begin x rest next free) := by
  simp only [step]
  split
  next nothing => simp [nothing] at next
  next y rest' same =>
    obtain ⟨rfl,rfl⟩ := List.cons.inj (same.symm.trans next)
    exact dif_pos ⟨opened,free⟩

theorem step_finish {pool : WorkPool α capacity runners} {i : Nat} (bound : i < pool.active.length) :
    pool.step (.finish i) = some (pool.finish i bound) :=
  dif_pos bound

inductive Step (pool : WorkPool α capacity runners) :
    PoolAction α → WorkPool α capacity runners → Prop where
  | submit {x : α} (opened : pool.closed = false) (space : pool.waiting.length < capacity) :
      Step pool (.submit x) (pool.submit x space)
  | begin {x : α} {rest : List α} (opened : pool.closed = false)
      (next : pool.waiting = x :: rest) (free : pool.active.length < runners) :
      Step pool .begin (pool.begin x rest next free)
  | finish {i : Nat} (bound : i < pool.active.length) : Step pool (.finish i) (pool.finish i bound)
  | close : Step pool .close pool.close

theorem step_cases {pool pool' : WorkPool α capacity runners} {a : PoolAction α}
    (taken : pool.step a = some pool') : Step pool a pool' := by
  cases a with
  | submit x =>
    simp only [step] at taken
    split at taken
    next space => cases taken; exact .submit space.1 space.2
    · contradiction
  | begin =>
    simp only [step] at taken
    split at taken
    · contradiction
    next x rest next =>
      split at taken
      next free => cases taken; exact .begin free.1 next free.2
      · contradiction
  | finish i =>
    simp only [step] at taken
    split at taken
    next bound => cases taken; exact .finish bound
    · contradiction
  | close => cases taken; exact .close

/-- A pool whose only worker has one job at a time finishes in the order of acceptance. -/
theorem finished_in_order (single : runners ≤ 1) {pool : WorkPool α capacity runners}
    (reach : (machine α capacity runners).Reachable pool) :
    pool.begun = pool.finished ++ pool.active := by
  refine reach.invariant (P := fun pool => pool.begun = pool.finished ++ pool.active) rfl ?_
  intro pool a pool' _ inOrder taken
  cases step_cases taken with
  | submit | close => exact inOrder
  | begin => simp [begin,inOrder]
  | @finish i bound =>
    -- The one active job is the one that finishes.
    have hands := pool.hands
    obtain ⟨x,only⟩ := List.length_eq_one_iff.mp (show pool.active.length = 1 by omega)
    have first : i = 0 := by
      rw [only,List.length_singleton] at bound
      omega
    subst i
    simp [finish,inOrder,only]

structure Shut (before after : WorkPool α capacity runners) : Prop where
  closed : after.closed = true
  accepted : after.accepted = before.accepted
  begun : after.begun = before.begun
  waiting : after.waiting = before.waiting

theorem closed_final {pool pool' : WorkPool α capacity runners} (closed : pool.closed = true)
    (actions : List (PoolAction α))
    (run : (machine α capacity runners).exec pool actions = some pool') : Shut pool pool' := by
  refine (machine α capacity runners).exec_preserves (P := Shut pool) ?_ ⟨closed,rfl,rfl,rfl⟩
    actions run
  intro u a v shut taken
  cases step_cases taken with
  | submit opened | begin opened =>
    rw [shut.closed] at opened
    contradiction
  | finish | close => exact ⟨by first | exact shut.closed | rfl,shut.accepted,shut.begun,shut.waiting⟩

end WorkPool
