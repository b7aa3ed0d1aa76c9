import InferenceServer.EndToEnd

/-! Which calls are still answered: a call left in the queue of a destroyed scheduler never is,
and the handler never stands in the way of a worker. -/
namespace InferenceServer.System

open Server

variable {config : ServerConfig} {sys sys' : System}

theorem step_lost {a : SystemAction} (reach : (machine config).Reachable sys)
    (taken : sys.step a = some sys') {k : Nat} (gone : sys.server.destroyed k = true) :
    sys'.server.destroyed k = true ∧
    (sys'.server.schedulers k).queue.buffer = (sys.server.schedulers k).queue.buffer := by
  obtain ⟨_,server⟩ := reachable_parts reach
  rcases (step_parts (step_cases taken)).2 with same | ⟨b,stepped⟩
  · rw [same]
    exact ⟨gone,rfl⟩
  · obtain ⟨_,broken,_⟩ := destroyed_idle server gone
    exact ⟨step_destroyed stepped gone,(step_broken server stepped broken).2⟩

theorem exec_lost (actions : List SystemAction) (reach : (machine config).Reachable sys)
    (run : (machine config).exec sys actions = some sys') {k : Nat}
    (gone : sys.server.destroyed k = true) :
    (sys'.server.schedulers k).queue.buffer = (sys.server.schedulers k).queue.buffer := by
  induction actions generalizing sys with
  | nil => exact Option.some.inj run ▸ rfl
  | cons a rest ih =>
    obtain ⟨mid,first,remaining⟩ := Option.bind_eq_some_iff.mp run
    obtain ⟨still,same⟩ := step_lost reach first gone
    exact (ih (.step reach first) remaining still).trans same

/-- The caller of a request that `InferAsync` accepted is still answered after the request's
scheduler was destroyed exactly if the request was completed before. -/
theorem destroyed_answered_iff (reach : (machine config).Reachable sys) {k : Nat} {p : Payload}
    (gone : sys.server.destroyed k = true)
    (appended : .appended p.id p ∈ (sys.server.schedulers k).log) :
    (∃ actions sys', (machine config).exec sys actions = some sys' ∧
        (sys'.handler.states p.id).sent ≠ []) ↔
      p ∈ (sys.server.schedulers k).completed := by
  obtain ⟨_,server⟩ := reachable_parts reach
  constructor
  · rintro ⟨actions,sys',run,answered⟩
    obtain ⟨_,_,_,idle⟩ := destroyed_idle server gone
    have once := (accounted reach k p appended).once
    rw [idle,Multiset.count_zero,add_zero] at once
    by_contra open'
    rw [Multiset.count_eq_zero.mpr open',add_zero] at once
    have queued : p ∈ (sys.server.schedulers k).queue.buffer :=
      List.count_pos_iff.mp (by omega)
    rw [← exec_lost actions reach run gone] at queued
    have reach' := Transition.Machine.exec_reachable reach actions run
    have later := appended_of_copy (reachable_parts reach').2 (.inl queued)
    exact answered ((accounted reach' k p later).queued queued).1
  · intro completed
    obtain ⟨w,status,message,member⟩ := mem_completed.mp completed
    obtain ⟨_,response,all,_⟩ := (accounted reach k p appended).completed _ _ _ member
    exact ⟨[],sys,rfl,by simp [all]⟩

/-- One request is in its callback for longer than the wait of `Stop`, and one is behind it. -/
def outlastingCalls : List SystemAction :=
  upRun ++ acceptRun 0 ++ workRun [.test,.pop none,.copy,.call,.ret .success] ++ acceptRun 1 ++
  List.map SystemAction.other (stopRun ++ [.main (.clear "m")] ++
    teardownRun [.release,.stop,.drain 120,.clearRunning,.breakAll]) ++
  replyRun ++ workRun [.test] ++
  List.map SystemAction.other (teardownRun [.join,.join,.destroy])

/-- The second one is never answered. -/
theorem destroyed_answered_outlasted : ∃ sys : System, (machine ⟨false,4⟩).Reachable sys ∧
    (sys.handler.states 0).sent.length = 1 ∧
    ∀ actions sys', (machine ⟨false,4⟩).exec sys actions = some sys' →
      (sys'.handler.states 1).sent = [] := by
  obtain ⟨sys,reach,seen⟩ := Transition.Machine.exec_observed (m := machine ⟨false,4⟩)
    outlastingCalls (fun sys => ((sys.handler.states 0).sent.length,sys.server.destroyed 0,
      (sys.server.schedulers 0).queue.buffer,
      (sys.server.schedulers 0).log.filterMap Event.completed?))
    (1,true,[⟨1,"m",-1⟩],[⟨0,"m",-1⟩]) rfl
  simp only [Prod.mk.injEq] at seen
  obtain ⟨answered,gone,queued,completed⟩ := seen
  refine ⟨sys,reach,answered,fun actions sys' run => ?_⟩
  have appended := appended_of_copy (k := 0) (p := ⟨1,"m",-1⟩) (reachable_parts reach).2
    (.inl (by simp [queued]))
  by_contra sent
  have member := (destroyed_answered_iff reach gone appended).mp ⟨actions,sys',run,sent⟩
  rw [Scheduler.completed,completed] at member
  simp at member

def IsCallback (k w : Nat) (a : SystemAction) : Prop := a = .respond k w ∨ a = .setFinish k w

theorem worker_steps {k w : Nat} {a : WorkerAction} {sv : Server}
    (taken : sys.server.workerStep k w a = some sv)
    (quiet : ∀ wake, a = .pop wake → sv.payloadAt k w = none)
    (open' : a ≠ .complete) : sys.step (.worker k w a) = some ⟨sys.handler,sv⟩ := by
  simp only [step,workerStep,taken,Option.bind_some]
  cases a with
  | pop wake => simp [quiet wake rfl]
  | complete => exact absurd rfl open'
  | _ => rfl

/-- The front of a queue that a worker takes is a call that waits. -/
theorem pop_steps (reach : (machine config).Reachable sys) {k w : Nat} {wake : Option Nat}
    {sv : Server} {p : Payload} (taken : sys.server.workerStep k w (.pop wake) = some sv)
    (holds : sv.payloadAt k w = some p) :
    ∃ h, sys.step (.worker k w (.pop wake)) = some ⟨h,sv⟩ := by
  obtain ⟨_,server⟩ := reachable_parts reach
  obtain ⟨sc,stepped,set,_⟩ := worker_set taken
  have inHand := payloadAt_iff.mp holds
  rw [set,Function.update_self] at inHand
  obtain ⟨front,_⟩ := Scheduler.pop_hands stepped inHand
  have queued : p ∈ (sys.server.schedulers k).queue.buffer := by simp [front]
  have found := accounted reach k p (appended_of_copy server (.inl queued))
  have place : (sys.handler.states p.id).place = .queued := by
    refine (found.queued queued).2.resolve_right fun lost => ?_
    obtain ⟨_,_,exited,_⟩ := destroyed_idle server lost.2
    obtain ⟨t,atIndex,cases⟩ := Scheduler.workerStep_cases stepped
    have left := exited w t atIndex
    cases cases with
    | take pc | takeBroken pc | sleep pc => rw [left] at pc; contradiction
  refine ⟨sys.handler.place p.id .held,?_⟩
  simp [step,workerStep,taken,holds,Handler.payloadStep,place]

section Lines

variable {h : Handler} {sv sv' : Server} {k w : Nat} {idx : Int} {p : Payload} {f : Nat}
  {status : Status}

theorem finishing_runs (config : ServerConfig) (place : (h.states p.id).place = .finishing)
    (atIndex : (sv.schedulers k).threads[w]? = some ⟨idx,.returned p f status⟩)
    (taken : sv.workerStep k w .complete = some sv') :
    ∃ sys', (machine config).exec ⟨h,sv⟩ [.worker k w .complete] = some sys' ∧
      sys'.server = sv' := by
  have holds : sv.payloadAt k w = some p := by simp [payloadAt,atIndex,WorkerPc.payload?]
  refine ⟨⟨(h.finish p.id).place p.id .issued,sv'⟩,Transition.Machine.exec_singleton ?_,rfl⟩
  simp [machine,step,workerStep,taken,holds,Handler.payloadStep,place]

theorem completing_runs (config : ServerConfig) (place : (h.states p.id).place = .completing)
    (atIndex : (sv.schedulers k).threads[w]? = some ⟨idx,.returned p f status⟩)
    (taken : sv.workerStep k w .complete = some sv') :
    ∃ sys', (machine config).exec ⟨h,sv⟩ [.setFinish k w,.worker k w .complete] = some sys' ∧
      sys'.server = sv' := by
  have later : (((h.setFinish p.id).place p.id .finishing).states p.id).place = .finishing := by
    simp [Handler.place,Handler.setState]
  obtain ⟨sys',run,same⟩ := finishing_runs config later atIndex taken
  refine ⟨sys',?_,same⟩
  have first : (machine config).step ⟨h,sv⟩ (.setFinish k w) =
      some ⟨(h.setFinish p.id).place p.id .finishing,sv⟩ := by
    simp [machine,step,atIndex,Handler.payloadStep,place]
  rw [Transition.Machine.exec,first]
  exact run

theorem held_runs (config : ServerConfig) (place : (h.states p.id).place = .held)
    (atIndex : (sv.schedulers k).threads[w]? = some ⟨idx,.returned p f status⟩)
    (taken : sv.workerStep k w .complete = some sv') :
    ∃ sys', (machine config).exec ⟨h,sv⟩ [.respond k w,.setFinish k w,.worker k w .complete] =
      some sys' ∧ sys'.server = sv' := by
  obtain ⟨h',moved⟩ : ∃ h', h.payloadStep p.id (.complete status) = some h' := by
    simp [Handler.payloadStep,place]
  have later : (h'.states p.id).place = .completing := by
    cases Handler.payloadStep_cases moved
    simp [Handler.setState]
  obtain ⟨sys',run,same⟩ := completing_runs config later atIndex taken
  refine ⟨sys',?_,same⟩
  have first : (machine config).step ⟨h,sv⟩ (.respond k w) = some ⟨h',sv⟩ := by
    simp [machine,step,atIndex,moved]
  rw [Transition.Machine.exec,first]
  exact run

end Lines

theorem complete_runs (reach : (machine config).Reachable sys) {k w : Nat} {sv : Server}
    (taken : sys.server.workerStep k w .complete = some sv) :
    ∃ lines sys', (∀ b ∈ lines, IsCallback k w b) ∧
      (machine config).exec sys (lines ++ [.worker k w .complete]) = some sys' ∧
      sys'.server = sv := by
  obtain ⟨_,server⟩ := reachable_parts reach
  obtain ⟨sc,stepped,_⟩ := worker_set taken
  obtain ⟨t,atIndex,cases⟩ := Scheduler.workerStep_cases stepped
  cases cases with
  | @complete p f status pc =>
    obtain ⟨idx,_⟩ := t
    subst pc
    have appended := appended_of_copy server (.inr (.inl (mem_held atIndex rfl)))
    obtain ⟨_,place⟩ := (accounted reach k p appended).held w ⟨_,atIndex,rfl⟩
    simp only [List.mem_cons,List.not_mem_nil,or_false] at place
    rcases place with at' | at' | at'
    · obtain ⟨sys',run,same⟩ := held_runs config at' atIndex taken
      exact ⟨[.respond k w,.setFinish k w],sys',by simp [IsCallback],run,same⟩
    · obtain ⟨sys',run,same⟩ := completing_runs config at' atIndex taken
      exact ⟨[.setFinish k w],sys',by simp [IsCallback],run,same⟩
    · obtain ⟨sys',run,same⟩ := finishing_runs config at' atIndex taken
      exact ⟨[],sys',by simp,run,same⟩

/-- The handler never stands in a worker's way: each step that the worker of a server could take
is taken, after the lines of its own callback that are left. -/
theorem worker_unhindered (reach : (machine config).Reachable sys) {k w : Nat} {a : WorkerAction}
    {sv : Server} (taken : sys.server.workerStep k w a = some sv) :
    ∃ lines sys', (∀ b ∈ lines, IsCallback k w b) ∧
      (machine config).exec sys (lines ++ [.worker k w a]) = some sys' ∧ sys'.server = sv := by
  have one {h : Handler} (first : sys.step (.worker k w a) = some ⟨h,sv⟩) :
      ∃ lines sys', (∀ b ∈ lines, IsCallback k w b) ∧
        (machine config).exec sys (lines ++ [.worker k w a]) = some sys' ∧ sys'.server = sv :=
    ⟨[],⟨h,sv⟩,by simp,Transition.Machine.exec_singleton first,rfl⟩
  cases a with
  | complete => exact complete_runs reach taken
  | pop wake =>
    cases holds : sv.payloadAt k w with
    | none => exact one (worker_steps taken (by simp [holds]) (by simp))
    | some p =>
      obtain ⟨h,first⟩ := pop_steps reach taken holds
      exact one first
  | test | wake | copy | call | ret => exact one (worker_steps taken (by simp) (by simp))

/-- A step of worker `w`'s own, in `ProcessLoop` or in its callback. -/
def OfWorker (k w : Nat) (b : SystemAction) : Prop :=
  IsCallback k w b ∨ ∃ a, a ≠ .wake ∧ b = .worker k w a

end InferenceServer.System
