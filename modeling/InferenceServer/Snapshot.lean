import InferenceServer.SchedulerLifecycle

/-! The copy of `infer_func_` that a worker takes under `infer_func_mu_`, and the function it
then calls. -/
namespace InferenceServer

variable {π φ : Type}

def Event.copyOf (w : Nat) : Event π φ → Option φ
  | .copied v _ f => if v = w then some f else none
  | _ => none

namespace Scheduler

def lastCopy (log : List (Event π φ)) (w : Nat) : Option φ :=
  (log.filterMap (Event.copyOf w)).getLast?

theorem lastCopy_append {w : Nat} {log events : List (Event π φ)}
    (none : ∀ e ∈ events, e.copyOf w = none) : lastCopy (log ++ events) w = lastCopy log w := by
  have nothing : events.filterMap (Event.copyOf w) = [] := List.filterMap_eq_nil_iff.mpr none
  simp [lastCopy,nothing]

def OfCopy (before : List (Event π φ)) : Event π φ → Prop
  | .invoked w _ f _ => lastCopy before w = some f
  | _ => True

/-- Every payload was run with the function copied for it. -/
def Snapshotted (sc : Scheduler π φ) : Prop := History.Every OfCopy sc.log

/-- No update came between a copy and the call, or the last one that did installed the
function copied. -/
def Untouched (before : List (Event π φ)) : Event π φ → Prop
  | .invoked w _ _ _ => ∀ earlier p c later, before = earlier ++ .copied w p c :: later →
      (∀ e ∈ later, e.copyOf w = none) → History.latest Event.installed? c later = c
  | _ => True

def Copies (sc : Scheduler π φ) : Prop :=
  ∀ (w : Nat) t p c, sc.threads[w]? = some t → t.pc = .copied p c → lastCopy sc.log w = some c

theorem step_copied {sc sc' : Scheduler π φ} {a : SchedulerAction π φ} {w : Nat}
    {t : Worker π φ} {p : π} {c : φ} (taken : sc.step a = some sc')
    (atIndex : sc'.threads[w]? = some t) (pc : t.pc = .copied p c) :
    (a = .worker w .copy ∧ c = sc.inferFunc ∧ lastCopy sc'.log w = some c) ∨
      sc.threads[w]? = some t ∧ lastCopy sc'.log w = lastCopy sc.log w := by
  have quiet {events : List (Event π φ)} (log : sc'.log = sc.log ++ events)
      (none : ∀ e ∈ events, e.copyOf w = none) : lastCopy sc'.log w = lastCopy sc.log w := by
    rw [log]
    exact lastCopy_append none
  have same (log : sc'.log = sc.log) : lastCopy sc'.log w = lastCopy sc.log w := by rw [log]
  cases a with
  | worker v a =>
    obtain ⟨u,atV,cases⟩ := workerStep_cases taken
    have bound := (List.getElem?_eq_some_iff.mp atV).1
    have set {pc' : WorkerPc π φ} (threads : sc'.threads = sc.threads.set v { u with pc := pc' }) :
        w = v ∧ pc' = .copied p c ∨ w ≠ v ∧ sc.threads[w]? = some t := by
      rw [threads] at atIndex
      by_cases here : w = v
      · subst v
        rw [List.getElem?_set_self bound] at atIndex
        cases atIndex
        exact .inl ⟨rfl,pc⟩
      · rw [List.getElem?_set_ne (Ne.symm here)] at atIndex
        exact .inr ⟨here,atIndex⟩
    cases cases with
    | sleep | wake => exact .inr ⟨atIndex,same rfl⟩
    | test =>
      rcases set rfl with ⟨_,into⟩ | ⟨_,old⟩
      · split at into <;> contradiction
      · exact .inr ⟨old,same (List.append_nil _)⟩
    | takeBroken =>
      rcases set rfl with ⟨_,into⟩ | ⟨_,old⟩
      · contradiction
      · exact .inr ⟨old,same (List.append_nil _)⟩
    | take | call | ret | complete =>
      rcases set rfl with ⟨_,into⟩ | ⟨_,old⟩
      · contradiction
      · exact .inr ⟨old,quiet rfl (by simp [Event.copyOf])⟩
    | copy =>
      rcases set rfl with ⟨rfl,into⟩ | ⟨other,old⟩
      · cases into
        exact .inl ⟨rfl,rfl,by simp [lastCopy,setWorker,Event.copyOf]⟩
      · exact .inr ⟨old,quiet rfl (by simp [Event.copyOf,Ne.symm other])⟩
  | producer d a =>
    have cases := producerStep_cases taken
    rw [producer_threads cases] at atIndex
    cases cases with
    | enter | drop => exact .inr ⟨atIndex,same (List.append_nil _)⟩
    | sleep | wake => exact .inr ⟨atIndex,same rfl⟩
    | refuse | append | leave => exact .inr ⟨atIndex,quiet rfl (by simp [Event.copyOf])⟩
  | control a =>
    cases controlStep_cases taken with
    | spawn =>
      simp only [List.getElem?_append] at atIndex
      split at atIndex
      · exact .inr ⟨atIndex,same rfl⟩
      · obtain ⟨_,newest⟩ := List.getElem?_eq_some_iff.mp atIndex
        simp only [List.getElem_singleton] at newest
        subst t
        contradiction
    | _ => exact .inr ⟨atIndex,same rfl⟩
  | update func =>
    cases taken
    exact .inr ⟨atIndex,quiet rfl (by simp [Event.copyOf])⟩

theorem step_copies {sc sc' : Scheduler π φ} {a : SchedulerAction π φ}
    (taken : sc.step a = some sc') (valid : Copies sc) : Copies sc' := by
  intro w t p c atIndex pc
  rcases step_copied taken atIndex pc with ⟨_,_,now⟩ | ⟨old,kept⟩
  · exact now
  · rw [kept]
    exact valid w t p c old pc

theorem step_event {sc sc' : Scheduler π φ} {a : SchedulerAction π φ}
    (taken : sc.step a = some sc') : sc'.log = sc.log ∨ ∃ e, sc'.log = sc.log ++ [e] ∧
      ∀ w idx f batch, e = .invoked w idx f batch → f = sc.inferFunc ∧
        ∃ t p c, sc.threads[w]? = some t ∧ t.pc = .copied p c := by
  cases a with
  | worker w a =>
    obtain ⟨t,atIndex,cases⟩ := workerStep_cases taken
    cases cases with
    | test | takeBroken => exact .inl (List.append_nil _)
    | sleep | wake => exact .inl rfl
    | take | copy | ret | complete => exact .inr ⟨_,rfl,by simp⟩
    | call pc => exact .inr ⟨_,rfl,by rintro _ _ _ _ ⟨⟩; exact ⟨rfl,t,_,_,atIndex,pc⟩⟩
  | producer c a =>
    cases producerStep_cases taken with
    | enter | drop => exact .inl (List.append_nil _)
    | sleep | wake => exact .inl rfl
    | refuse | append | leave => exact .inr ⟨_,rfl,by simp⟩
  | control a => cases controlStep_cases taken <;> exact .inl rfl
  | update func =>
    cases taken
    exact .inr ⟨_,rfl,by simp⟩

/-- What a call adds to the history is judged by its worker's copy and the function installed. -/
theorem step_every {sc sc' : Scheduler π φ} {a : SchedulerAction π φ}
    {fact : List (Event π φ) → Event π φ → Prop} (taken : sc.step a = some sc')
    (every : History.Every fact sc.log)
    (others : ∀ e, (∀ w idx f batch, e ≠ .invoked w idx f batch) → fact sc.log e)
    (call : ∀ w t p c idx batch, sc.threads[w]? = some t → t.pc = .copied p c →
      fact sc.log (.invoked w idx sc.inferFunc batch)) : History.Every fact sc'.log := by
  rcases step_event taken with same | ⟨e,added,calls⟩
  · rwa [same]
  · rw [added]
    refine History.every_append_singleton.mpr ⟨every,?_⟩
    by_cases invokes : ∃ w idx f batch, e = .invoked w idx f batch
    · obtain ⟨w,idx,f,batch,rfl⟩ := invokes
      obtain ⟨rfl,t,p,c,atIndex,pc⟩ := calls w idx f batch rfl
      exact call w t p c idx batch atIndex pc
    · exact others e fun w idx f batch same => invokes ⟨w,idx,f,batch,same⟩

/-- An update installs the function that every worker between its copy and its call holds. -/
def undisturbed [DecidableEq φ] (sc : Scheduler π φ) : SchedulerAction π φ → Bool
  | .update g => sc.threads.all fun t => match t.pc with
    | .copied _ c => c = g
    | _ => true
  | _ => true

theorem undisturbed_update [DecidableEq φ] {sc : Scheduler π φ} {g : φ} {w : Nat}
    {t : Worker π φ} {p : π} {c : φ} (calm : sc.undisturbed (.update g) = true)
    (atIndex : sc.threads[w]? = some t) (pc : t.pc = .copied p c) : c = g := by
  have all := List.all_eq_true.mp calm t (List.mem_of_getElem? atIndex)
  simpa [pc] using all

/-- While no update disturbs a worker, a copy is the function still installed. -/
def Level (sc : Scheduler π φ) : Prop :=
  ∀ (w : Nat) t p c, sc.threads[w]? = some t → t.pc = .copied p c → c = sc.inferFunc

theorem step_level [DecidableEq φ] {sc sc' : Scheduler π φ} {a : SchedulerAction π φ}
    (calm : sc.undisturbed a = true) (taken : sc.step a = some sc') (valid : Level sc) :
    Level sc' := by
  intro w t p c atIndex pc
  rcases step_copied taken atIndex pc with ⟨rfl,now,_⟩ | ⟨old,_⟩
  · obtain ⟨_,_,cases⟩ := workerStep_cases taken
    exact now.trans (congrArg Face.inferFunc (worker_face cases)).symm
  · cases a with
    | update g =>
      cases taken
      exact undisturbed_update calm old pc
    | _ => exact (valid w t p c old pc).trans (step_inferFunc taken (by simp)).symm

variable {maxQueueSize totalRunners : Int} {func : φ}

theorem reachable_copies {sc : Scheduler π φ}
    (reach : (machine maxQueueSize totalRunners func).Reachable sc) : Copies sc := by
  refine reach.invariant (by simp [Copies,machine,create]) ?_
  intro sc a sc' _ valid taken
  exact step_copies taken valid

/-- No call is made without a copy. -/
theorem reachable_calls_copied {sc : Scheduler π φ}
    (reach : (machine maxQueueSize totalRunners func).Reachable sc) :
    History.Every (fun before e => ∀ w idx f batch, e = .invoked w idx f batch →
      ∃ c, lastCopy before w = some c) sc.log := by
  refine reach.invariant (P := fun sc => History.Every (fun before e => ∀ w idx f batch,
    e = .invoked w idx f batch → ∃ c, lastCopy before w = some c) sc.log)
    (History.every_nil _) ?_
  intro sc a sc' before valid taken
  refine step_every taken valid (fun e other w idx f batch same => absurd same (other w idx f batch))
    ?_
  rintro w t p c idx batch atIndex pc v _ _ _ ⟨⟩
  exact ⟨c,reachable_copies before w t p c atIndex pc⟩

theorem undisturbed_snapshotted [DecidableEq φ] {sc : Scheduler π φ}
    (reach : (machine maxQueueSize totalRunners func).ReachableBy
      (fun sc a => sc.undisturbed a = true) sc) : Level sc ∧ Snapshotted sc := by
  refine reach.invariant (P := fun sc => Level sc ∧ Snapshotted sc)
    ⟨by simp [Level,machine,create],by simp [Snapshotted,machine,create]⟩ ?_
  rintro sc a sc' before ⟨level,valid⟩ calm taken
  refine ⟨step_level calm taken level,step_every taken valid (fun e other => ?_) ?_⟩
  · cases e with
    | invoked w idx f batch => exact absurd rfl (other w idx f batch)
    | _ => trivial
  · intro w t p c idx batch atIndex pc
    have copied := reachable_copies before.reachable w t p c atIndex pc
    rwa [level w t p c atIndex pc] at copied

/-- A call uses the function copied for it exactly if the updates between the two, if there
are any, end with that function. -/
theorem ofCopy_iff_untouched {sc : Scheduler π φ}
    (reach : (machine maxQueueSize totalRunners func).Reachable sc) {before : List (Event π φ)}
    {e : Event π φ} (isPrefix : before ++ [e] <+: sc.log) :
    OfCopy before e ↔ Untouched before e := by
  have seen := (machine_sound reach).installed.seen
  cases e with
  | invoked w idx f batch =>
    have installed : f = History.latest Event.installed? func before := seen before _ isPrefix
    have since {earlier later : List (Event π φ)} {p : π} {c : φ}
        (split : before = earlier ++ .copied w p c :: later) :
        f = History.latest Event.installed? c later := by
      have start : c = History.latest Event.installed? func earlier := by
        refine seen earlier (.copied w p c) (List.IsPrefix.trans ?_ isPrefix)
        rw [split]
        exact ⟨later ++ [.invoked w idx f batch],by simp⟩
      rw [installed,split,List.append_cons,History.latest_append,
        History.latest_append_none (by simp [Event.installed?]),← start]
    constructor
    · intro copied earlier p c later split none
      have last : lastCopy before w = some c :=
        History.last_selected_iff.mpr ⟨earlier,_,later,split,by simp [Event.copyOf],none⟩
      have same : c = f := Option.some.inj (last.symm.trans copied)
      rw [← since split,same]
    · intro untouched
      obtain ⟨c,last⟩ := reachable_calls_copied reach before _ isPrefix w idx f batch rfl
      obtain ⟨earlier,x,later,split,selected,none⟩ := History.last_selected_iff.mp last
      cases x with
      | copied v p c' =>
        simp only [Event.copyOf,Option.ite_none_right_eq_some,Option.some.injEq] at selected
        obtain ⟨rfl,rfl⟩ := selected
        rw [OfCopy,last,since split,untouched earlier p c' later split none]
      | _ => contradiction
  | _ => exact Iff.rfl

/-- `ProcessLoop` calls `infer_func_`, not its copy. On runs whose updates all leave the
pending copies valid every payload is run with the function copied for it; and on any run,
exactly if the updates between a copy and its call, if there are any, end with that copy. -/
theorem snapshot_runs_iff_untouched [DecidableEq φ] (maxQueueSize totalRunners : Int) (func : φ) :
    (∀ sc : Scheduler π φ, (machine maxQueueSize totalRunners func).ReachableBy
      (fun sc a => sc.undisturbed a = true) sc → Snapshotted sc) ∧
    (∀ sc : Scheduler π φ, (machine maxQueueSize totalRunners func).Reachable sc →
      (Snapshotted sc ↔ History.Every Untouched sc.log)) := by
  refine ⟨fun sc reach => (undisturbed_snapshotted reach).2,fun sc reach => ?_⟩
  constructor
  · exact fun all before e isPrefix =>
      (ofCopy_iff_untouched reach isPrefix).mp (all before e isPrefix)
  · exact fun all before e isPrefix =>
      (ofCopy_iff_untouched reach isPrefix).mpr (all before e isPrefix)

/-- The update that comes between the first worker's copy and its call decides what it runs. -/
theorem updated_between : ∃ sc : Scheduler Nat Bool,
    (machine 4 2 false).Reachable sc ∧ ¬Snapshotted sc := by
  obtain ⟨sc,reach,log⟩ := Transition.Machine.exec_observed (m := machine 4 2 false)
    (updatedWhileHeld.take 15) (fun sc : Scheduler Nat Bool => sc.log)
    [.appended 0 10,.answered 0 .success,.appended 1 11,.answered 1 .success,.dequeued 0 10,
      .copied 0 10 false,.installed true,.invoked 0 0 true [10]] rfl
  refine ⟨sc,reach,fun all => ?_⟩
  have copied := all [.appended 0 10,.answered 0 .success,.appended 1 11,.answered 1 .success,
    .dequeued 0 10,.copied 0 10 false,.installed true] (.invoked 0 0 true [10])
    (by rw [log]; exact List.prefix_refl _)
  cases copied

end Scheduler
end InferenceServer
