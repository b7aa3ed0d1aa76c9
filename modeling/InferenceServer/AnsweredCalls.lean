import InferenceServer.CallProgress
import InferenceServer.Deadlock
import InferenceServer.Fairness

/-! Requests are answered: in an infinite run of the whole system in which no worker of a scheduler
is passed over for good, what a worker has taken and what waits in the queue gets its reply,
whatever the other threads do meanwhile, unless a call of `Run` is lost. That the other calls return
is part of the fairness of the workers; a wake-up without a notification is not. -/
namespace InferenceServer

def PayloadPlace.lines : PayloadPlace → Nat
  | .held => 2
  | .completing => 1
  | _ => 0

def WorkerPc.toil : WorkerPc π φ → Nat
  | .looping => 2
  | .popping => 1
  | .holding _ => 6
  | .copied _ _ => 5
  | .running _ _ => 4
  | .returned _ _ _ => 3
  | .exited => 0

theorem BlockingQueue.push_spares {α κ ω : Type} [DecidableEq κ] [DecidableEq ω]
    {q q' : BlockingQueue α κ ω} {t : κ} {item : α} {wake : Option ω} {result : PushResult}
    (taken : q.push t item wake = some (result,q')) :
    (∀ v, v ∈ q'.pushEvent.asleep → v ∈ q.pushEvent.asleep) ∧ q.buffer <+: q'.buffer := by
  cases (push_step taken).2 with
  | drop | sleep => exact ⟨fun _ => id,List.prefix_refl _⟩
  | append _ _ notified =>
    refine ⟨fun v sleeps => ?_,List.prefix_append _ _⟩
    rcases CondVar.notifyOne_asleep notified with ⟨_,nobody⟩ | ⟨_,_,one⟩
    · simp [nobody] at sleeps
    · exact List.mem_of_mem_erase (one ▸ sleeps)

theorem PayloadPlace.lines_le (place : PayloadPlace) : place.lines ≤ 2 := by
  cases place <;> simp [lines]

theorem WorkerPc.toil_le (pc : WorkerPc π φ) : pc.toil ≤ 6 := by
  cases pc <;> simp [toil]

namespace Scheduler

variable {π φ : Type} {sc sc' : Scheduler π φ}

structure Spares (sc sc' : Scheduler π φ) : Prop where
  threads : ∀ (v : Nat) t, sc.threads[v]? = some t → sc'.threads[v]? = some t
  new : ∀ (v : Nat) t, sc.threads[v]? = none → sc'.threads[v]? = some t → t.pc = .looping
  asleep : ∀ v, v ∈ sc'.queue.pushEvent.asleep → v ∈ sc.queue.pushEvent.asleep
  buffer : sc.queue.buffer <+: sc'.queue.buffer

theorem spares_of_threads (threads : sc'.threads = sc.threads)
    (asleep : ∀ v, v ∈ sc'.queue.pushEvent.asleep → v ∈ sc.queue.pushEvent.asleep)
    (buffer : sc.queue.buffer <+: sc'.queue.buffer) : Spares sc sc' :=
  ⟨fun v t at' => threads ▸ at',fun v t none at' => by simp [threads,none] at at',asleep,buffer⟩

theorem wake_spares {w : Nat} (taken : sc.workerStep w .wake = some sc') : Spares sc sc' := by
  obtain ⟨t,_,cases⟩ := workerStep_cases taken
  cases cases with
  | wake => exact spares_of_threads rfl (fun v => List.mem_of_mem_erase) (List.prefix_refl _)

theorem push_spares {c : Nat} {wake : Option Nat}
    (taken : sc.producerStep c (.push wake) = some sc') : Spares sc sc' := by
  have threads := producer_threads (producerStep_cases taken)
  obtain ⟨p,result,_,pushed,_⟩ := push_taken taken
  obtain ⟨asleep,longer⟩ := BlockingQueue.push_spares pushed
  exact spares_of_threads threads asleep longer

theorem producer_spares {c : Nat} {a : ProducerAction π}
    (taken : sc.producerStep c a = some sc') : Spares sc sc' := by
  cases a with
  | push wake => exact push_spares taken
  | enqueue | wake | leave =>
    cases producerStep_cases taken <;>
      exact spares_of_threads rfl (fun _ => id) (List.prefix_refl _)

theorem control_spares {a : ControlAction} (taken : sc.controlStep a = some sc') :
    Spares sc sc' := by
  cases controlStep_cases taken with
  | spawn =>
    refine ⟨fun v t at' => ?_,fun v t none at' => ?_,fun _ => id,List.prefix_refl _⟩
    · exact (List.getElem?_append_left (List.getElem?_eq_some_iff.mp at').1).trans at'
    · rw [List.getElem?_append_right (List.getElem?_eq_none_iff.mp none)] at at'
      rw [List.mem_singleton.mp (List.mem_of_getElem? at')]
  | breakAll =>
    exact spares_of_threads rfl (fun v sleeps => (List.not_mem_nil sleeps).elim)
      (List.prefix_refl _)
  | _ => exact spares_of_threads rfl (fun _ => id) (List.prefix_refl _)

end Scheduler

namespace System

open Server

variable {config : ServerConfig} {sys sys' : System} {k v w : Nat}

theorem of_one {a : SystemAction} (own : OfWorker k v a) (other : OfWorker k w a) : v = w := by
  rcases own with (rfl | rfl) | ⟨x,genuine,rfl⟩ <;>
    simp_all [OfWorker,IsCallback]

/-- What is left to worker `w` of what it has begun. One that is not there yet counts as new. -/
def toil (sys : System) (k w : Nat) : Nat :=
  match (sys.server.schedulers k).threads[w]? with
  | none => 2
  | some t => t.pc.toil + t.pc.payload?.elim 0 fun p => (sys.handler.states p.id).place.lines

theorem toil_at (sys : System) {t : Worker Payload Nat}
    (atIndex : (sys.server.schedulers k).threads[w]? = some t) : sys.toil k w =
      t.pc.toil + t.pc.payload?.elim 0 fun p => (sys.handler.states p.id).place.lines := by
  rw [toil,atIndex]

theorem step_server {a : SystemAction} (taken : SystemStep sys a sys') :
    sys'.server = sys.server ∨ ∃ b, sys.server.step b = some sys'.server ∧
      ∀ k w x, b = .worker k w x → a = .worker k w x := by
  cases taken with
  | event | register | respond | setFinish | drop => exact .inl rfl
  | @infer s a _ _ stepped | @answer s a _ _ _ _ stepped =>
    exact .inr ⟨.caller s a,stepped,by simp⟩
  | @work k w a _ stepped => exact .inr ⟨.worker k w a,stepped,by simp⟩
  | @pop k w wake _ _ _ stepped => exact .inr ⟨.worker k w (.pop wake),stepped,by simp⟩
  | @complete k w _ _ _ stepped => exact .inr ⟨.worker k w .complete,stepped,by simp⟩
  | @other a _ stepped _ noWork =>
    exact .inr ⟨a,stepped,fun k w x same => absurd same (noWork k w x)⟩

inductive Beside (k v : Nat) (a : SystemAction) (sc sc' : Scheduler Payload Nat) : Prop where
  | spared : sc.Spares sc' → Beside k v a sc sc'
  | worker {w x} : w ≠ v → OfWorker k w a → sc.workerStep w x = some sc' → Beside k v a sc sc'

theorem beside {a : SystemAction} (reach : (machine config).Reachable sys)
    (taken : sys.step a = some sys') (other : ¬OfWorker k v a) :
    Beside k v a (sys.server.schedulers k) (sys'.server.schedulers k) := by
  obtain ⟨_,server⟩ := reachable_parts reach
  have same {sc sc' : Scheduler Payload Nat} (threads : sc'.threads = sc.threads)
      (queue : sc'.queue = sc.queue) : Beside k v a sc sc' :=
    .spared (Scheduler.spares_of_threads threads (fun _ => by rw [queue]; exact id)
      (queue ▸ List.prefix_refl _))
  rcases step_server (step_cases taken) with quiet | ⟨b,stepped,mine⟩
  · rw [quiet]
    exact same rfl rfl
  cases reachable_moves server stepped k with
  | still quiet => rw [quiet]; exact same rfl rfl
  | created here _ new =>
    rw [new,reachable_unborn server k (Nat.le_of_eq here.symm)]
    exact .spared (Scheduler.spares_of_threads rfl (fun _ => id) (List.prefix_refl _))
  | @moved c _ origin _ moved =>
    cases c with
    | worker w x =>
      have at' := mine k w x origin
      by_cases woken : x = .wake
      · subst x
        exact .spared (Scheduler.wake_spares moved)
      · have own : OfWorker k w a := .inr ⟨x,woken,at'⟩
        exact .worker (fun here => other (here ▸ own)) own moved
    | producer => exact .spared (Scheduler.producer_spares moved)
    | control => exact .spared (Scheduler.control_spares moved)
    | update =>
      rw [← Option.some.inj moved]
      exact same rfl rfl

theorem thread_kept {a : SystemAction} (reach : (machine config).Reachable sys)
    (taken : sys.step a = some sys') (other : ¬OfWorker k v a) {t : Worker Payload Nat}
    (atIndex : (sys.server.schedulers k).threads[v]? = some t) :
    (sys'.server.schedulers k).threads[v]? = some t := by
  cases beside reach taken other with
  | spared spares => exact spares.threads v t atIndex
  | worker others _ moved =>
    obtain ⟨u,atW,cases⟩ := Scheduler.workerStep_cases moved
    obtain ⟨_,pc,threads,_⟩ := Scheduler.worker_threads atW cases
    rw [threads,List.getElem?_set_ne others,atIndex]

theorem holds_kept {a : SystemAction} (reach : (machine config).Reachable sys)
    (taken : sys.step a = some sys') (other : ¬OfWorker k v a) {p : Payload}
    (holds : (sys.server.schedulers k).Holds v p) : (sys'.server.schedulers k).Holds v p := by
  obtain ⟨t,atIndex,mine⟩ := holds
  exact ⟨t,thread_kept reach taken other atIndex,mine⟩

theorem holds_place (reach : (machine config).Reachable sys) {p : Payload}
    (holds : (sys.server.schedulers k).Holds v p) :
    (sys.handler.states p.id).sent = [] ∧
    (sys.handler.states p.id).place ∈ [.held,.completing,.finishing] :=
  (accounted reach k p (appended_of_copy (reachable_parts reach).2
    (.inr (.inl (mem_held_iff.mpr ⟨v,holds⟩))))).held v holds

/-- Only the worker that holds a payload takes its callback further. -/
theorem place_kept {a : SystemAction} (reach : (machine config).Reachable sys)
    (taken : sys.step a = some sys') (other : ¬OfWorker k v a) {p : Payload}
    (holds : (sys.server.schedulers k).Holds v p) :
    (sys'.handler.states p.id).place = (sys.handler.states p.id).place := by
  obtain ⟨_,server⟩ := reachable_parts reach
  have place := (holds_place reach holds).2
  have now := (holds_place (.step reach taken) (holds_kept reach taken other holds)).2
  -- a payload in the hands of another worker belongs to another call
  have apart {j w : Nat} {q : Payload} (held : (sys.server.schedulers j).Holds w q)
      (elsewhere : ¬(j = k ∧ w = v)) : p.id ≠ q.id := by
    intro same
    obtain ⟨t,atV,mine⟩ := holds
    obtain ⟨u,atW,theirs⟩ := held
    obtain ⟨rfl,rfl⟩ := holder_unique server atV atW mine theirs same
    exact elsewhere ⟨rfl,rfl⟩
  have outside {s : Nat} {b : PayloadAction} {h : Handler}
      (moved : sys.handler.payloadStep s b = some h) (others : p.id ≠ s) :
      (h.states p.id).place = (sys.handler.states p.id).place := by
    rw [Handler.payloadStep_others (Handler.payloadStep_cases moved) others]
  cases step_cases taken with
  | infer | work | other => rfl
  | event outside _ stepped =>
    rcases Handler.event_states (Handler.reachable_sane (reachable_parts reach).1) stepped outside
      (reachable_linked reach).answered with ⟨early,_⟩ | same
    · simp only [List.mem_cons,List.not_mem_nil,or_false] at place
      rcases place with at' | at' | at' <;> rw [at'] at early <;> contradiction
    · exact same.1
  | @answer s _ _ outcome _ _ _ _ answered =>
    obtain ⟨t,_,states⟩ := Handler.inferAsync_states answered
    by_cases mine : p.id = t
    · cases outcome with
      | queued | dropped =>
        rw [states] at now
        simp [Handler.place,Handler.setState,mine] at now
      | failed => rw [states]
    · cases outcome with
      | queued | dropped =>
        rw [states]
        simp [Handler.place,Handler.setState,Function.update_of_ne mine]
      | failed => rw [states]
  | @pop _ _ _ _ q _ _ _ moved =>
    refine outside moved fun same => ?_
    cases Handler.payloadStep_cases moved with
    | pop queued => simp [same,queued] at place
  | @drop _ q _ _ _ moved =>
    refine outside moved fun same => ?_
    cases Handler.payloadStep_cases moved with
    | drop queued => simp [same,queued] at place
  | @register _ _ _ q _ _ _ _ _ _ _ moved =>
    by_cases same : p.id = q.id
    · rw [same]
      cases Handler.payloadStep_cases moved with
      | register => simp [Handler.setState]
    · exact outside moved same
  | @complete j w _ q _ stepped held moved =>
    refine outside moved (apart (payloadAt_iff.mp held) ?_)
    rintro ⟨rfl,rfl⟩
    exact other (.inr ⟨_,by simp,rfl⟩)
  | @respond j w _ q _ _ _ atIndex moved =>
    refine outside moved (apart ⟨_,atIndex,rfl⟩ ?_)
    rintro ⟨rfl,rfl⟩
    exact other (.inl (.inl rfl))
  | @setFinish j w _ q _ _ _ atIndex moved =>
    refine outside moved (apart ⟨_,atIndex,rfl⟩ ?_)
    rintro ⟨rfl,rfl⟩
    exact other (.inl (.inr rfl))

/-- What is left to a worker is as much after a step of anybody else. -/
theorem toil_kept {a : SystemAction} (reach : (machine config).Reachable sys)
    (taken : sys.step a = some sys') (other : ¬OfWorker k v a) : sys'.toil k v = sys.toil k v := by
  cases atIndex : (sys.server.schedulers k).threads[v]? with
  | none =>
    have before : sys.toil k v = 2 := by rw [toil,atIndex]
    cases new : (sys'.server.schedulers k).threads[v]? with
    | none => rw [before,toil,new]
    | some t =>
      have looping : t.pc = .looping := by
        cases beside reach taken other with
        | spared spares => exact spares.new v t atIndex new
        | worker _ _ moved =>
          obtain ⟨u,atW,cases⟩ := Scheduler.workerStep_cases moved
          obtain ⟨_,pc,threads,_⟩ := Scheduler.worker_threads atW cases
          have bound := (List.getElem?_eq_some_iff.mp new).1
          rw [threads,List.length_set] at bound
          exact absurd (List.getElem?_eq_none_iff.mp atIndex) (Nat.not_le.mpr bound)
      rw [before,toil_at _ new,looping]
      rfl
  | some t =>
    rw [toil_at _ atIndex,toil_at _ (thread_kept reach taken other atIndex)]
    cases mine : t.pc.payload? with
    | none => rfl
    | some p =>
      have kept := place_kept reach taken other ⟨t,atIndex,mine⟩
      simp only [Option.elim_some,kept]

/-- A step of a worker's own: it comes closer to `pop`, takes the front of the queue, or finds
nothing there to take. -/
inductive OwnStep (sys : System) (k w : Nat) (sys' : System) : Prop where
  | closer : sys'.toil k w < sys.toil k w →
      (sys'.server.schedulers k).queue.buffer = (sys.server.schedulers k).queue.buffer →
      (∀ p, (sys.server.schedulers k).Holds w p → (sys'.server.schedulers k).Holds w p ∨
        ∃ response, (sys'.handler.states p.id).sent = [response]) → OwnStep sys k w sys'
  | took {q} : (∀ p, ¬(sys.server.schedulers k).Holds w p) →
      (sys.server.schedulers k).queue.buffer = q :: (sys'.server.schedulers k).queue.buffer →
      (sys'.server.schedulers k).Holds w q → sys'.toil k w ≤ sys.toil k w + 7 →
      OwnStep sys k w sys'
  | nothing : (∀ p, ¬(sys.server.schedulers k).Holds w p) →
      (sys.server.schedulers k).queue.buffer = [] ∨
        (sys.server.schedulers k).queue.broken = true → OwnStep sys k w sys'

theorem closer_line {t : Worker Payload Nat} {pc : WorkerPc Payload Nat}
    {sv : Server} {sc : Scheduler Payload Nat}
    (atIndex : (sys.server.schedulers k).threads[w]? = some t)
    (set : sv.schedulers = Function.update sys.server.schedulers k sc)
    (threads : sc.threads = (sys.server.schedulers k).threads.set w ⟨t.idx,pc⟩)
    (buffer : sc.queue.buffer = (sys.server.schedulers k).queue.buffer)
    (inHand : pc.payload? = t.pc.payload?) (less : pc.toil < t.pc.toil) :
    OwnStep sys k w ⟨sys.handler,sv⟩ := by
  have bound := (List.getElem?_eq_some_iff.mp atIndex).1
  have now : (sv.schedulers k).threads[w]? = some ⟨t.idx,pc⟩ := by
    simp [set,threads,List.getElem?_set_self bound]
  refine .closer ?_ (by simp [set,buffer]) fun p holds => .inl ?_
  · rw [toil_at ⟨sys.handler,sv⟩ now,toil_at sys atIndex,inHand]
    exact Nat.add_lt_add_right less _
  · obtain ⟨u,atW,mine⟩ := holds
    obtain rfl : t = u := Option.some.inj (atIndex.symm.trans atW)
    exact ⟨_,now,inHand.trans mine⟩

theorem closer_callback {idx : Int} {p : Payload} {f : Nat} {status : Status} {h : Handler}
    (atIndex : (sys.server.schedulers k).threads[w]? = some ⟨idx,.returned p f status⟩)
    (less : (h.states p.id).place.lines < (sys.handler.states p.id).place.lines) :
    OwnStep sys k w ⟨h,sys.server⟩ := by
  refine .closer ?_ rfl fun _ => .inl
  rw [toil_at ⟨h,sys.server⟩ atIndex,toil_at sys atIndex]
  simpa [WorkerPc.payload?] using less

theorem popping_free {sc : Scheduler Payload Nat} {t : Worker Payload Nat}
    (atIndex : sc.threads[w]? = some t) (pc : t.pc = .popping) (p : Payload) : ¬sc.Holds w p := by
  rintro ⟨u,atW,holds⟩
  obtain rfl : t = u := Option.some.inj (atIndex.symm.trans atW)
  simp [pc,WorkerPc.payload?] at holds

/-- The reply is out when the callback returns. -/
theorem complete_sent (reach : (machine config).Reachable sys)
    (taken : sys.step (.worker k w .complete) = some sys') {p : Payload}
    (mine : (sys.server.schedulers k).Holds w p) :
    ∃ response, (sys'.handler.states p.id).sent = [response] := by
  have reach' : (machine config).Reachable sys' :=
    .step (a := SystemAction.worker k w .complete) reach taken
  cases step_cases taken with
  | work _ open' _ => exact absurd rfl open'
  | @complete _ _ sv q h stepped _ moved =>
    obtain ⟨sc,completed,set,_⟩ := worker_set stepped
    obtain ⟨status,_,_,_,_,log⟩ := Scheduler.complete_hands completed mine
    have member : .completed w p status (completionMessage status) ∈ (sv.schedulers k).log := by
      simp only [set,Function.update_self]
      rw [log]
      exact List.mem_append_right _ (List.mem_singleton_self _)
    have appended := appended_of_copy (reachable_parts reach').2
      (.inr (.inr (mem_completed.mpr ⟨_,_,_,member⟩)))
    obtain ⟨_,response,sent,_⟩ := (accounted reach' k p appended).completed _ _ _ member
    exact ⟨response,sent⟩

theorem own_step {a : SystemAction} (reach : (machine config).Reachable sys)
    (taken : sys.step a = some sys') (own : OfWorker k w a) : OwnStep sys k w sys' := by
  rcases own with (rfl | rfl) | ⟨x,notWoken,rfl⟩
  · cases step_cases taken with
    | respond atIndex moved =>
      refine closer_callback atIndex ?_
      cases Handler.payloadStep_cases moved with
      | complete held => simp [Handler.setState,held,PayloadPlace.lines]
  · cases step_cases taken with
    | setFinish atIndex moved =>
      refine closer_callback atIndex ?_
      cases Handler.payloadStep_cases moved with
      | setFinish completing =>
        simp [Handler.place,Handler.setState,completing,PayloadPlace.lines]
  cases step_cases taken with
  | @work _ _ _ sv stepped open' empty =>
    obtain ⟨sc,moved,set,_⟩ := worker_set stepped
    obtain ⟨t,atIndex,cases⟩ := Scheduler.workerStep_cases moved
    have bound := (List.getElem?_eq_some_iff.mp atIndex).1
    cases cases with
    | test pc =>
      refine closer_line atIndex set rfl rfl ?_ ?_
      all_goals
        rw [pc]
        cases (sys.server.schedulers k).running <;> simp [WorkerPc.payload?,WorkerPc.toil]
    | @take wake _ p =>
      have holds : sv.payloadAt k w = some p := by
        rw [payloadAt_iff,set,Function.update_self]
        exact ⟨_,List.getElem?_set_self bound,rfl⟩
      rw [empty wake rfl] at holds
      contradiction
    | takeBroken pc was => exact .nothing (popping_free atIndex pc) (.inr was)
    | sleep pc was => exact .nothing (popping_free atIndex pc) (.inl was)
    | wake => exact absurd rfl notWoken
    | copy pc | call pc | ret pc =>
      exact closer_line atIndex set rfl rfl (by simp [pc,WorkerPc.payload?])
        (by simp [pc,WorkerPc.toil])
    | complete => exact absurd rfl open'
  | @pop _ _ _ sv q h stepped holds moved =>
    obtain ⟨sc,popped,set,_⟩ := worker_set stepped
    obtain ⟨t,_,atIndex,pc,_⟩ := Scheduler.pop_taken popped
    have inHand := payloadAt_iff.mp holds
    have after := inHand
    rw [set,Function.update_self] at after
    refine .took (popping_free atIndex pc) (by simpa [set] using (Scheduler.pop_hands popped after).1)
      inHand ?_
    obtain ⟨u,atW,mine⟩ := inHand
    rw [toil_at ⟨h,sv⟩ atW,toil_at sys atIndex,pc,mine]
    change u.pc.toil + (h.states q.id).place.lines ≤ 6 + 2
    exact Nat.add_le_add u.pc.toil_le (PayloadPlace.lines_le (h.states q.id).place)
  | @complete _ _ sv q h stepped holds moved =>
    obtain ⟨sc,completed,set,_⟩ := worker_set stepped
    obtain ⟨t,atIndex,cases⟩ := Scheduler.workerStep_cases completed
    have bound := (List.getElem?_eq_some_iff.mp atIndex).1
    cases cases with
    | complete pc =>
      have now : (sv.schedulers k).threads[w]? = some ⟨t.idx,.looping⟩ := by
        simp [set,Scheduler.setWorker,List.getElem?_set_self bound]
      refine .closer ?_ (by simp [set,Scheduler.setWorker]) fun p mine =>
        .inr (complete_sent reach taken mine)
      rw [toil_at ⟨h,sv⟩ now,toil_at sys atIndex,pc]
      exact Nat.lt_add_right _ (Nat.lt_succ_self 2)

/-- A worker that has not left, does not sleep and comes back from its call has a next line. -/
theorem worker_goes {sv : Server} {t : Worker Payload Nat}
    (atIndex : (sv.schedulers k).threads[w]? = some t) (live : t.pc ≠ .exited)
    (awake : w ∉ (sv.schedulers k).queue.pushEvent.asleep) (back : ¬Lost sv k w) :
    ∃ x sv', x ≠ .wake ∧ sv.workerStep k w x = some sv' := by
  have goes {sv₁ : Server} {sc : Scheduler Payload Nat} (x : WorkerAction) (genuine : x ≠ .wake)
      (effect : sv.runEffect k w x = some sv₁)
      (stepped : (sv.schedulers k).workerStep w x = some sc) :
      ∃ x sv', x ≠ .wake ∧ sv.workerStep k w x = some sv' :=
    ⟨x,_,genuine,by rw [Server.workerStep,effect,Option.bind_some,stepped]; rfl⟩
  obtain ⟨idx,pc⟩ := t
  cases pc with
  | looping => exact goes .test (by simp) rfl (by rw [Scheduler.workerStep,atIndex])
  | popping =>
    obtain ⟨wake,outcome,popped⟩ := (sv.schedulers k).queue.pop_enabled awake
    exact goes (.pop wake) (by simp) rfl (by
      simp only [Scheduler.workerStep,atIndex,popped]
      rfl)
  | holding => exact goes .copy (by simp) rfl (by rw [Scheduler.workerStep,atIndex])
  | copied => exact goes .call (by simp) rfl (by rw [Scheduler.workerStep,atIndex])
  | running p b =>
    have returns : (sv.backends b).returns idx = true :=
      Bool.of_not_eq_false fun lost => back ⟨idx,p,b,atIndex,lost⟩
    obtain ⟨sv₁,effect⟩ : ∃ sv₁, sv.runEffect k w (.ret .failedGeneric) = some sv₁ := by
      simp [runEffect,atIndex,returns]
    exact goes _ (by simp) effect (by rw [Scheduler.workerStep,atIndex])
  | returned => exact goes .complete (by simp) rfl (by rw [Scheduler.workerStep,atIndex])
  | exited => exact absurd rfl live

theorem own_enabled (reach : (machine config).Reachable sys) {t : Worker Payload Nat}
    (atIndex : (sys.server.schedulers k).threads[w]? = some t) (live : t.pc ≠ .exited)
    (awake : w ∉ (sys.server.schedulers k).queue.pushEvent.asleep) (back : ¬Lost sys.server k w) :
    (machine config).Enabled (OfWorker k w) sys := by
  obtain ⟨x,sv,genuine,stepped⟩ := worker_goes atIndex live awake back
  obtain ⟨lines,sys',own,run,_⟩ := worker_unhindered reach stepped
  cases lines with
  | nil =>
    obtain ⟨u,taken,_⟩ := Option.bind_eq_some_iff.mp run
    exact ⟨_,u,.inr ⟨x,genuine,rfl⟩,taken⟩
  | cons b rest =>
    obtain ⟨u,taken,_⟩ := Option.bind_eq_some_iff.mp run
    exact ⟨b,u,.inl (own b (List.mem_cons_self ..)),taken⟩

/-- Whatever the other threads do, a worker comes to the end of the call it is in, or to one of
`Run` that is lost. -/
theorem held_advances (config : ServerConfig) (k w : Nat) (p : Payload) :
    (machine config).Advances (fun _ : Unit => OfWorker k w)
      (fun sys => (sys.server.schedulers k).Holds w p ∧ ¬Lost sys.server k w)
      (fun sys => (∃ response, (sys.handler.states p.id).sent = [response]) ∨
        (sys.server.schedulers k).Holds w p ∧ Lost sys.server k w)
      (fun _ _ => True) (fun sys => sys.toil k w) where
  helper _ _ _ := ⟨(),trivial⟩
  enabled sys _ reach here _ := by
    obtain ⟨⟨t,atIndex,mine⟩,back⟩ := here
    refine own_enabled reach atIndex (fun exited => by simp [exited,WorkerPc.payload?] at mine) ?_
      back
    intro sleeps
    obtain ⟨u,atW,popping⟩ := (reachable_roused (reachable_parts reach).2 k).popping w
      (List.mem_append_left _ sleeps)
    obtain rfl : t = u := Option.some.inj (atIndex.symm.trans atW)
    simp [popping,WorkerPc.payload?] at mine
  falls sys a sys' _ reach here own taken := by
    obtain ⟨holds,_⟩ := here
    cases own_step reach taken own with
    | took free | nothing free => exact absurd holds (free p)
    | closer less _ keeps =>
      rcases keeps p holds with still | answered
      · by_cases lost : Lost sys'.server k w
        · exact .inl (.inr ⟨still,lost⟩)
        · exact .inr ⟨⟨still,lost⟩,less⟩
      · exact .inl (.inl answered)
  keeps sys a sys' reach here others taken := by
    have other := others ()
    have still := holds_kept reach taken other here.1
    by_cases lost : Lost sys'.server k w
    · exact .inl (.inr ⟨still,lost⟩)
    · exact .inr ⟨⟨still,lost⟩,Nat.le_of_eq (toil_kept reach taken other),fun _ => id⟩

theorem own_there {a : SystemAction} (taken : sys.step a = some sys') (own : OfWorker k w a) :
    ∃ t, (sys.server.schedulers k).threads[w]? = some t := by
  rcases own with (rfl | rfl) | ⟨x,_,rfl⟩
  · cases step_cases taken with
    | respond atIndex => exact ⟨_,atIndex⟩
  · cases step_cases taken with
    | setFinish atIndex => exact ⟨_,atIndex⟩
  · obtain ⟨_,stepped,_⟩ := Option.bind_eq_some_iff.mp taken
    obtain ⟨sc,moved,_⟩ := worker_set stepped
    obtain ⟨t,atIndex,_⟩ := Scheduler.workerStep_cases moved
    exact ⟨t,atIndex⟩

/-- A scheduler with workers keeps them. -/
theorem staff_kept {a : SystemAction} (reach : (machine config).Reachable sys)
    (taken : sys.step a = some sys') (staffed : (sys.server.schedulers k).threads ≠ []) :
    (sys'.server.schedulers k).threads ≠ [] ∧
      (sys'.server.schedulers k).totalRunners = (sys.server.schedulers k).totalRunners := by
  obtain ⟨_,server⟩ := reachable_parts reach
  rcases step_server (step_cases taken) with same | ⟨b,stepped,_⟩
  · rw [same]
    exact ⟨staffed,rfl⟩
  cases reachable_moves server stepped k with
  | still same => rw [same]; exact ⟨staffed,rfl⟩
  | created here =>
    rw [reachable_unborn server k (Nat.le_of_eq here.symm)] at staffed
    exact absurd rfl staffed
  | moved _ _ _ moved =>
    exact ⟨Scheduler.step_threads moved staffed,Scheduler.step_totalRunners moved⟩

theorem running_whole (server : (Server.machine config).Reachable sys.server)
    (running : (sys.server.schedulers k).running = true) :
    (sys.server.schedulers k).queue.broken = false := by
  have phase := (reachable_staffed server k).phase
  unfold Scheduler.Phase at phase
  split at phase <;> simp_all

def distance (sys : System) (k : Nat) (p : Payload) : Nat :=
  10 * (sys.server.schedulers k).queue.buffer.idxOf p +
    ∑ v ∈ Finset.range (sys.server.schedulers k).totalRunners.toNat, sys.toil k v

structure Waits (sys : System) (k : Nat) (p : Payload) : Prop where
  queued : p ∈ (sys.server.schedulers k).queue.buffer
  running : (sys.server.schedulers k).running = true
  staffed : (sys.server.schedulers k).threads ≠ []

/-- A worker's step brings `p` nearer, or into its hands. -/
theorem own_nearer {a : SystemAction} {p : Payload} (reach : (machine config).Reachable sys)
    (taken : sys.step a = some sys') (own : OfWorker k w a) (waits : Waits sys k p) :
    (sys'.server.schedulers k).Holds w p ∨
      p ∈ (sys'.server.schedulers k).queue.buffer ∧ sys'.distance k p < sys.distance k p := by
  obtain ⟨_,server⟩ := reachable_parts reach
  obtain ⟨t,atIndex⟩ := own_there taken own
  have runners := (staff_kept reach taken waits.staffed).2
  have member : w ∈ Finset.range (sys.server.schedulers k).totalRunners.toNat :=
    Finset.mem_range.mpr (Nat.lt_of_lt_of_le (List.getElem?_eq_some_iff.mp atIndex).1
      (reachable_staffed server k).length_le)
  have sum := Transition.Machine.sum_moved (f := sys'.toil k) (g := sys.toil k) member
    fun v apart => toil_kept reach taken fun other => apart (of_one own other).symm
  cases own_step reach taken own with
  | closer less buffer =>
    refine .inr ⟨buffer ▸ waits.queued,?_⟩
    rw [distance,distance,buffer,runners]
    omega
  | @took q _ front holds few =>
    by_cases first : q = p
    · exact .inl (first ▸ holds)
    have queued := waits.queued
    rw [front] at queued
    refine .inr ⟨(List.mem_cons.mp queued).resolve_left fun same => first same.symm,?_⟩
    rw [distance,distance,front,runners,List.idxOf_cons_ne _ first]
    omega
  | nothing _ none =>
    rcases none with empty | broken
    · exact absurd empty (List.ne_nil_of_mem waits.queued)
    · rw [running_whole server waits.running] at broken
      contradiction

theorem others_spare {a : SystemAction} (reach : (machine config).Reachable sys)
    (taken : sys.step a = some sys') (others : ∀ w, ¬OfWorker k w a) :
    (sys.server.schedulers k).Spares (sys'.server.schedulers k) := by
  cases beside reach taken (others 0) with
  | spared spares => exact spares
  | worker _ own => exact absurd own (others _)

theorem waits_kept {a : SystemAction} {p : Payload} (reach : (machine config).Reachable sys)
    (taken : sys.step a = some sys') (others : ∀ w, ¬OfWorker k w a) (waits : Waits sys k p) :
    p ∈ (sys'.server.schedulers k).queue.buffer ∧ sys'.distance k p = sys.distance k p := by
  obtain ⟨more,longer⟩ := (others_spare reach taken others).buffer
  refine ⟨longer ▸ List.mem_append_left _ waits.queued,?_⟩
  have toils (v : Nat) : sys'.toil k v = sys.toil k v := toil_kept reach taken (others v)
  rw [distance,distance,(staff_kept reach taken waits.staffed).2,← longer,
    List.idxOf_append_of_mem waits.queued]
  simp only [toils]

theorem still_waits {a : SystemAction} {p : Payload} (reach : (machine config).Reachable sys)
    (taken : sys.step a = some sys') (waits : Waits sys k p)
    (queued : p ∈ (sys'.server.schedulers k).queue.buffer) :
    (Waits sys' k p ∧ ∀ w, ¬Lost sys'.server k w) ∨
      (sys'.server.schedulers k).running = false ∨ ∃ w, Lost sys'.server k w := by
  by_cases running : (sys'.server.schedulers k).running = true
  · by_cases lost : ∃ w, Lost sys'.server k w
    · exact .inr (.inr lost)
    · exact .inl ⟨⟨queued,running,(staff_kept reach taken waits.staffed).1⟩,not_exists.mp lost⟩
  · exact .inr (.inl (by simpa using running))

/-- The queue moves on towards `p` while the scheduler is running and no worker is lost. -/
theorem queued_advances (config : ServerConfig) (k : Nat) (p : Payload) :
    (machine config).Advances (fun w => OfWorker k w)
      (fun sys => Waits sys k p ∧ ∀ w, ¬Lost sys.server k w)
      (fun sys => (∃ w, (sys.server.schedulers k).Holds w p) ∨
        (sys.server.schedulers k).running = false ∨ ∃ w, Lost sys.server k w)
      (fun w sys => (∃ t, (sys.server.schedulers k).threads[w]? = some t ∧ t.pc ≠ .exited) ∧
        w ∉ (sys.server.schedulers k).queue.pushEvent.asleep)
      (fun sys => sys.distance k p) where
  helper sys reach here := by
    obtain ⟨waits,_⟩ := here
    obtain ⟨_,server⟩ := reachable_parts reach
    obtain ⟨w,t,atIndex,awake⟩ := (reachable_roused server k).awake waits.staffed
      (running_whole server waits.running) (List.ne_nil_of_mem waits.queued)
    exact ⟨w,⟨t,atIndex,(reachable_staffed server k).awake waits.running w t atIndex⟩,awake⟩
  enabled sys w reach here ready := by
    obtain ⟨⟨t,atIndex,live⟩,awake⟩ := ready
    exact own_enabled reach atIndex live awake (here.2 w)
  falls sys a sys' w reach here own taken := by
    obtain ⟨waits,_⟩ := here
    rcases own_nearer reach taken own waits with holds | ⟨queued,nearer⟩
    · exact .inl (.inl ⟨w,holds⟩)
    rcases still_waits reach taken waits queued with waiting | ended
    · exact .inr ⟨waiting,nearer⟩
    · exact .inl (.inr ended)
  keeps sys a sys' reach here others taken := by
    obtain ⟨waits,_⟩ := here
    obtain ⟨queued,same⟩ := waits_kept reach taken others waits
    rcases still_waits reach taken waits queued with waiting | ended
    · refine .inr ⟨waiting,Nat.le_of_eq same,fun w ready => ?_⟩
      obtain ⟨⟨t,atIndex,live⟩,awake⟩ := ready
      have spares := others_spare reach taken others
      exact ⟨⟨t,spares.threads w t atIndex,live⟩,fun sleeps => awake (spares.asleep w sleeps)⟩
    · exact .inl (.inr ended)

/-- Workers that all sleep in `pop` have nothing to do. -/
theorem asleep_idle (asleep : ∀ (w : Nat) t, (sys.server.schedulers k).threads[w]? = some t →
    t.pc = .popping ∧ w ∈ (sys.server.schedulers k).queue.pushEvent.asleep) (w : Nat) :
    ¬(machine config).Enabled (OfWorker k w) sys := by
  rintro ⟨a,sys',own,taken⟩
  have taken : sys.step a = some sys' := taken
  obtain ⟨u,atIndex⟩ := own_there taken own
  obtain ⟨popping,sleeps⟩ := asleep w u atIndex
  obtain ⟨idx,pc⟩ := u
  obtain rfl : pc = .popping := popping
  rcases own with (rfl | rfl) | ⟨x,genuine,rfl⟩
  · cases step_cases taken with
    | respond atW => rw [atIndex] at atW; cases atW
  · cases step_cases taken with
    | setFinish atW => rw [atIndex] at atW; cases atW
  · obtain ⟨_,stepped,_⟩ := Option.bind_eq_some_iff.mp taken
    obtain ⟨sc,moved,_⟩ := worker_set stepped
    cases x with
    | pop wake =>
      obtain ⟨_,_,_,_,popped,_⟩ := Scheduler.pop_taken moved
      exact (BlockingQueue.pop_step popped).1 sleeps
    | wake => exact genuine rfl
    | _ => simp [Scheduler.workerStep,atIndex] at moved

/-- A request that a worker has taken is answered or lost in its call of `Run`, whatever becomes of
its scheduler and its model meanwhile, if only the worker is not passed over for good. -/
theorem taken_answered {run : Nat → System} (endless : (machine config).Endless run)
    (fair : (machine config).Fair run (OfWorker k w)) {n : Nat} {p : Payload}
    (holds : ((run n).server.schedulers k).Holds w p) :
    ∃ m, n ≤ m ∧ ((∃ response, ((run m).handler.states p.id).sent = [response]) ∨
      ((run m).server.schedulers k).Holds w p ∧ Lost (run m).server k w) := by
  by_cases lost : Lost (run n).server k w
  · exact ⟨n,le_refl n,.inr ⟨holds,lost⟩⟩
  · exact (held_advances config k w p).reaches endless (fun _ => fair) ⟨holds,lost⟩

/-- Every request that was accepted for a scheduler with workers is answered, if no worker is
passed over for good, unless the scheduler stops running or a call of its workers is lost. -/
theorem accepted_answered {run : Nat → System} (endless : (machine config).Endless run)
    (fair : ∀ w, (machine config).Fair run (OfWorker k w)) {n : Nat} {p : Payload}
    (staffed : ((run n).server.schedulers k).threads ≠ [])
    (appended : .appended p.id p ∈ ((run n).server.schedulers k).log) :
    ∃ m, n ≤ m ∧ ((∃ response, ((run m).handler.states p.id).sent = [response]) ∨
      ((run m).server.schedulers k).running = false ∨ ∃ w, Lost (run m).server k w) := by
  by_cases lost : ∃ w, Lost (run n).server k w
  · exact ⟨n,le_refl n,.inr (.inr lost)⟩
  have back := not_exists.mp lost
  have taken {m w : Nat} (later : n ≤ m) (holds : ((run m).server.schedulers k).Holds w p) :
      ∃ m, n ≤ m ∧ ((∃ response, ((run m).handler.states p.id).sent = [response]) ∨
        ((run m).server.schedulers k).running = false ∨ ∃ w, Lost (run m).server k w) := by
    by_cases lost : Lost (run m).server k w
    · exact ⟨m,later,.inr (.inr ⟨w,lost⟩)⟩
    obtain ⟨j,after,answered | ⟨_,gone⟩⟩ :=
      (held_advances config k w p).reaches endless (fun _ => fair w) ⟨holds,lost⟩
    · exact ⟨j,later.trans after,.inl answered⟩
    · exact ⟨j,later.trans after,.inr (.inr ⟨w,gone⟩)⟩
  cases accepted_whereabouts (endless.reachable n) appended with
  | held holds => exact taken (le_refl n) holds
  | completed _ _ sent => exact ⟨n,le_refl n,.inl ⟨_,sent⟩⟩
  | queued queued =>
    by_cases running : ((run n).server.schedulers k).running = true
    · obtain ⟨m,later,⟨w,holds⟩ | ended⟩ :=
        (queued_advances config k p).reaches endless fair ⟨⟨queued,running,staffed⟩,back⟩
      · exact taken later holds
      · exact ⟨m,later,.inr ended⟩
    · exact ⟨n,le_refl n,.inr (.inl (by simpa using running))⟩

/-- One call, from its arrival until the only worker sleeps again. -/
def restRun : List SystemAction :=
  upRun ++ acceptRun 0 ++ workRun [.test,.pop none,.copy,.call,.ret .failedGeneric] ++ replyRun ++
  workRun [.test,.pop none]

def queuedMoment : Nat := (upRun ++ acceptRun 0).length

theorem restRun_fair : (machine ⟨false,4⟩).Endless ((machine ⟨false,4⟩).resting restRun) ∧
    ∀ w, (machine ⟨false,4⟩).Fair ((machine ⟨false,4⟩).resting restRun) (OfWorker 0 w) := by
  obtain ⟨sys,atEnd,seen⟩ := Option.map_eq_some_iff.mp (show
    ((machine ⟨false,4⟩).exec (create ⟨false,4⟩) restRun).map (fun sys =>
      ((sys.server.schedulers 0).threads.length,(sys.server.schedulers 0).queue.pushEvent.asleep)) =
      some (1,[0]) from rfl)
  simp only [Prod.mk.injEq] at seen
  obtain ⟨one,sleeping⟩ := seen
  have reach := Transition.Machine.exec_reachable .start restRun atEnd
  refine ⟨Transition.Machine.resting_endless atEnd,fun w =>
    Transition.Machine.resting_fair atEnd (asleep_idle (fun w t atIndex => ?_) w)⟩
  have bound := (List.getElem?_eq_some_iff.mp atIndex).1
  have sleeps : w ∈ (sys.server.schedulers 0).queue.pushEvent.asleep := by
    simp only [sleeping,List.mem_singleton]
    omega
  obtain ⟨u,atW,popping⟩ := (reachable_roused (reachable_parts reach).2 0).popping w
    (List.mem_append_left _ sleeps)
  obtain rfl : t = u := Option.some.inj (atIndex.symm.trans atW)
  exact ⟨popping,sleeps⟩

/-- The call waits in the queue. -/
theorem accepted_answered_rest : ∃ run, (machine ⟨false,4⟩).Endless run ∧
    ((run queuedMoment).handler.states 0).sent = [] ∧
    ∃ m, queuedMoment ≤ m ∧ ((∃ response, ((run m).handler.states 0).sent = [response]) ∨
      ((run m).server.schedulers 0).running = false ∨ ∃ w, Lost (run m).server 0 w) := by
  obtain ⟨endless,fair⟩ := restRun_fair
  have queued : (((machine ⟨false,4⟩).resting restRun queuedMoment).server.schedulers
      0).queue.buffer = [⟨0,"m",-1⟩] := rfl
  refine ⟨_,endless,rfl,accepted_answered (p := ⟨0,"m",-1⟩) endless fair ?_ ?_⟩
  · exact List.ne_nil_of_length_pos (Nat.lt_of_lt_of_eq Nat.one_pos rfl)
  · exact appended_of_copy (reachable_parts (endless.reachable queuedMoment)).2
      (.inl (by simp [queued]))

theorem taken_answered_rest : ∃ run, (machine ⟨false,4⟩).Endless run ∧
    ((run (queuedMoment + 2)).handler.states 0).sent = [] ∧
    ∃ m, queuedMoment + 2 ≤ m ∧ ((∃ response, ((run m).handler.states 0).sent = [response]) ∨
      ((run m).server.schedulers 0).Holds 0 ⟨0,"m",-1⟩ ∧ Lost (run m).server 0 0) := by
  obtain ⟨endless,fair⟩ := restRun_fair
  exact ⟨_,endless,rfl,taken_answered (p := ⟨0,"m",-1⟩) endless (fair 0) (payloadAt_iff.mp rfl)⟩

end System
end InferenceServer
