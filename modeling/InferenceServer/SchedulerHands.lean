import InferenceServer.SchedulerCalls

/-! Who has a payload of a scheduler in hand, and the steps at which none changes hands. -/
namespace InferenceServer.Scheduler

variable {π φ : Type}

def Holds (sc : Scheduler π φ) (w : Nat) (p : π) : Prop :=
  ∃ t, sc.threads[w]? = some t ∧ t.pc.payload? = some p

def Back (sc : Scheduler π φ) (w : Nat) (p : π) (status : Status) : Prop :=
  ∃ idx f, sc.threads[w]? = some ⟨idx,.returned p f status⟩

theorem Back.holds {sc : Scheduler π φ} {w : Nat} {p : π} {status : Status}
    (back : sc.Back w p status) : sc.Holds w p := by
  obtain ⟨_,_,atIndex⟩ := back
  exact ⟨_,atIndex,rfl⟩

/-- No payload changes hands, and none is appended or completed. -/
structure Still (sc sc' : Scheduler π φ) : Prop where
  buffer : sc'.queue.buffer = sc.queue.buffer
  holds : ∀ w p, sc.Holds w p → sc'.Holds w p
  back : ∀ w p status, sc.Back w p status → sc'.Back w p status
  log : ∀ e ∈ sc.log, e ∈ sc'.log
  silent : ∀ e ∈ sc'.log, e ∈ sc.log ∨ e.appended? = none ∧ e.completed? = none

theorem Still.refl (sc : Scheduler π φ) : Still sc sc :=
  ⟨rfl,fun _ _ => id,fun _ _ _ => id,fun _ => id,fun _ => .inl⟩

theorem create_still (m r m' r' : Int) (f f' : φ) :
    Still (create m r f : Scheduler π φ) (create m' r' f') := by
  refine ⟨rfl,?_,?_,fun _ => id,fun _ => .inl⟩
  · rintro w p ⟨t,atIndex,_⟩
    simp [create] at atIndex
  · rintro w p status ⟨idx,f,atIndex⟩
    simp [create] at atIndex

theorem still_of_threads {sc sc' : Scheduler π φ} (events : List (Event π φ))
    (threads : sc'.threads = sc.threads) (buffer : sc'.queue.buffer = sc.queue.buffer)
    (log : sc'.log = sc.log ++ events)
    (silent : ∀ e ∈ events, e.appended? = none ∧ e.completed? = none) : Still sc sc' := by
  refine ⟨buffer,fun w p => ?_,fun w p status => ?_,fun e member => ?_,fun e member => ?_⟩
  · rw [Holds,Holds,threads]
    exact id
  · rw [Back,Back,threads]
    exact id
  · rw [log]
    exact List.mem_append_left _ member
  · rw [log] at member
    exact (List.mem_append.mp member).imp_right (silent e)

theorem still_setWorker {sc : Scheduler π φ} {w : Nat} {t : Worker π φ} {pc : WorkerPc π φ}
    (queue : BlockingQueue π Nat Nat) {events : List (Event π φ)}
    (atIndex : sc.threads[w]? = some t) (buffer : queue.buffer = sc.queue.buffer)
    (keeps : ∀ p, t.pc.payload? = some p → pc.payload? = some p)
    (inside : ∀ p f status, t.pc ≠ .returned p f status)
    (silent : ∀ e ∈ events, e.appended? = none ∧ e.completed? = none) :
    Still sc ({ sc with queue := queue }.setWorker w t pc events) := by
  have bound := (List.getElem?_eq_some_iff.mp atIndex).1
  refine ⟨buffer,?_,?_,fun e => List.mem_append_left _,fun e member =>
    (List.mem_append.mp member).imp_right (silent e)⟩
  · rintro v p ⟨u,atV,holds⟩
    by_cases same : v = w
    · subst v
      obtain rfl : t = u := Option.some.inj (atIndex.symm.trans atV)
      exact ⟨⟨t.idx,pc⟩,List.getElem?_set_self bound,keeps p holds⟩
    · exact ⟨u,by simp only [setWorker,List.getElem?_set_ne (Ne.symm same),atV],holds⟩
  · rintro v p status ⟨idx,f,atV⟩
    by_cases same : v = w
    · subst v
      obtain rfl : t = _ := Option.some.inj (atIndex.symm.trans atV)
      exact absurd rfl (inside p f status)
    · exact ⟨idx,f,by simp only [setWorker,List.getElem?_set_ne (Ne.symm same),atV]⟩

theorem worker_still {sc sc' : Scheduler π φ} {w : Nat} {a : WorkerAction}
    (taken : sc.workerStep w a = some sc') (open' : a ≠ .complete)
    (empty : ∀ wake, a = .pop wake → ∀ p, ¬sc'.Holds w p) : Still sc sc' := by
  obtain ⟨t,atIndex,cases⟩ := workerStep_cases taken
  have bound := (List.getElem?_eq_some_iff.mp atIndex).1
  cases cases with
  | test pc =>
    exact still_setWorker sc.queue atIndex rfl (by simp [pc,WorkerPc.payload?])
      (by simp [pc]) (by simp)
  | take =>
    exact absurd ⟨⟨t.idx,.holding _⟩,List.getElem?_set_self bound,rfl⟩ (empty _ rfl _)
  | takeBroken pc _ same =>
    exact still_setWorker _ atIndex same (by simp [pc,WorkerPc.payload?]) (by simp [pc]) (by simp)
  | sleep _ was now =>
    exact still_of_threads [] rfl (now.trans was.symm) (List.append_nil _).symm (by simp)
  | wake => exact still_of_threads [] rfl rfl (List.append_nil _).symm (by simp)
  | copy pc | call pc =>
    exact still_setWorker sc.queue atIndex rfl (by simp [pc,WorkerPc.payload?])
      (by simp [pc]) (by simp [Event.appended?,Event.completed?])
  | ret pc =>
    exact still_setWorker sc.queue atIndex rfl (by simp [pc,WorkerPc.payload?])
      (by simp [pc]) (by simp [Event.appended?,Event.completed?])
  | complete => exact absurd rfl open'

theorem producer_still {sc sc' : Scheduler π φ} {c : Nat} {a : ProducerAction π}
    (taken : sc.producerStep c a = some sc')
    (none : ∀ wake, a = .push wake → ∀ p, sc'.producers c ≠ .pushed p) : Still sc sc' := by
  cases producerStep_cases taken with
  | enter | refuse | leave =>
    exact still_of_threads _ rfl rfl rfl (by simp [Event.appended?,Event.completed?])
  | append => exact absurd (Function.update_self ..) (none _ rfl _)
  | drop _ _ same => exact still_of_threads _ rfl same rfl (by simp)
  | sleep _ _ _ same =>
    exact still_of_threads [] rfl same (List.append_nil _).symm (by simp)
  | wake => exact still_of_threads [] rfl rfl (List.append_nil _).symm (by simp)

theorem control_still {sc sc' : Scheduler π φ} {a : ControlAction}
    (taken : sc.controlStep a = some sc') : Still sc sc' := by
  cases controlStep_cases taken with
  | spawn =>
    refine ⟨rfl,?_,?_,fun _ => id,fun _ => .inl⟩
    · rintro w p ⟨t,atIndex,holds⟩
      exact ⟨t,List.getElem?_append_left (List.getElem?_eq_some_iff.mp atIndex).1 ▸ atIndex,holds⟩
    · rintro w p status ⟨idx,f,atIndex⟩
      exact ⟨idx,f,List.getElem?_append_left (List.getElem?_eq_some_iff.mp atIndex).1 ▸ atIndex⟩
  | _ => exact still_of_threads [] rfl rfl (List.append_nil _).symm (by simp)

theorem update_still (sc : Scheduler π φ) (f : φ) : Still sc (sc.updateBackendInferFunc f) :=
  still_of_threads _ rfl rfl rfl (by simp [Event.appended?,Event.completed?])

/-- Taking the front of the queue. -/
theorem pop_hands {sc sc' : Scheduler π φ} {w : Nat} {wake : Option Nat} {p : π}
    (taken : sc.workerStep w (.pop wake) = some sc') (holds : sc'.Holds w p) :
    sc.queue.buffer = p :: sc'.queue.buffer ∧
    (∀ v q, sc.Holds v q → sc'.Holds v q) ∧
    (∀ v q status, sc.Back v q status → sc'.Back v q status) ∧
    sc'.log = sc.log ++ [.dequeued w p] := by
  obtain ⟨t,atIndex,cases⟩ := workerStep_cases taken
  have bound := (List.getElem?_eq_some_iff.mp atIndex).1
  obtain ⟨u,atW,mine⟩ := holds
  cases cases with
  | @take _ _ q _ pc front _ rest =>
    have now : u = ⟨t.idx,.holding q⟩ := by
      simpa [setWorker,List.getElem?_set_self bound] using atW.symm
    obtain rfl : q = p := by simpa [now,WorkerPc.payload?] using mine
    have moved : Still sc (sc.setWorker w t (.holding q) []) := still_setWorker sc.queue atIndex rfl
      (by simp [pc,WorkerPc.payload?]) (by simp [pc]) (by simp)
    exact ⟨by simpa [setWorker,rest] using front,moved.holds,moved.back,rfl⟩
  | takeBroken pc =>
    have now : u = ⟨t.idx,.looping⟩ := by
      simpa [setWorker,List.getElem?_set_self bound] using atW.symm
    simp [now,WorkerPc.payload?] at mine
  | sleep pc =>
    obtain rfl : t = u := Option.some.inj (atIndex.symm.trans atW)
    simp [pc,WorkerPc.payload?] at mine

/-- Completing gives the payload away, and is written down with what its call returned. -/
theorem complete_hands {sc sc' : Scheduler π φ} {w : Nat} {p : π}
    (taken : sc.workerStep w .complete = some sc') (holds : sc.Holds w p) :
    ∃ status, sc.Back w p status ∧ sc'.queue.buffer = sc.queue.buffer ∧
      (∀ v q, v ≠ w → sc.Holds v q → sc'.Holds v q) ∧
      (∀ v q s, v ≠ w → sc.Back v q s → sc'.Back v q s) ∧
      sc'.log = sc.log ++ [.completed w p status (completionMessage status)] := by
  obtain ⟨t,atIndex,cases⟩ := workerStep_cases taken
  obtain ⟨u,atW,mine⟩ := holds
  obtain rfl : t = u := Option.some.inj (atIndex.symm.trans atW)
  cases cases with
  | @complete q f status pc =>
    obtain rfl : q = p := by simpa [pc,WorkerPc.payload?] using mine
    have others {v : Nat} (other : v ≠ w) {u : Worker π φ} (atV : sc.threads[v]? = some u) :
        (sc.threads.set w ⟨t.idx,.looping⟩)[v]? = some u := by
      rw [List.getElem?_set_ne (Ne.symm other),atV]
    refine ⟨status,⟨t.idx,f,by rw [atIndex,← pc]⟩,rfl,?_,?_,rfl⟩
    · rintro v q other ⟨u,atV,holds⟩
      exact ⟨u,others other atV,holds⟩
    · rintro v q s other ⟨idx,g,atV⟩
      exact ⟨idx,g,others other atV⟩

theorem append_hands {sc sc' : Scheduler π φ} {c : Nat} {wake : Option Nat} {p : π}
    (taken : sc.producerStep c (.push wake) = some sc') (pushed : sc'.producers c = .pushed p) :
    sc'.queue.buffer = sc.queue.buffer ++ [p] ∧ sc'.threads = sc.threads ∧
    sc'.log = sc.log ++ [.appended c p] := by
  cases producerStep_cases taken with
  | @append q _ _ _ _ _ longer =>
    obtain rfl : q = p := by simpa [setProducer] using pushed
    exact ⟨longer,rfl,rfl⟩
  | drop => simp [setProducer] at pushed
  | sleep pc => rw [show sc.producers c = _ from pushed] at pc; contradiction

end InferenceServer.Scheduler
