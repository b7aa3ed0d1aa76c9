import InferenceServer.Store

/-! The store stays sane on every run of the server, whatever the interleaving. -/
namespace InferenceServer

def ControlPc.stopping : ControlPc → Prop
  | .draining | .clearing | .breaking | .joining _ => True
  | .stopReturned status => status = .success
  | _ => False

def CyclePc.pending : CyclePc → Option String
  | .swapping _ name _ => some name
  | _ => none

namespace Store

/-- A context that is being built around a loaded backend and is in no entry yet. -/
def Built (s : Store) (context : ModelRunContext) (name : String) : Prop :=
  Held s context.scheduler ∧ Out s context.scheduler ∧
  ∃ info b, context.backendInfo = some info ∧ Loaded s info name b ∧
    (s.faces context.scheduler).inferFunc = b

/-- A context that is out of the map and on its way to being destroyed. -/
def Torn (s : Store) (t : Teardown) : Prop :=
  let k := t.context.scheduler
  Held s k ∧ Out s k ∧
  match t.stage with
  | .backendInfo => Serving s k ∧ ∃ info name b, t.context.backendInfo = some info ∧
      Loaded s info name b ∧ (s.faces k).inferFunc = b
  | .scheduler => Serving s k ∧
      (s.tags (s.faces k).inferFunc).released = some (.teardown k)
  | .stopping => (s.faces k).control.stopping ∧
      (s.tags (s.faces k).inferFunc).released = some (.teardown k)

/-- What the locals of `LoadModels` are worth at each place. -/
def CycleInv (s : Store) : CyclePc → Prop
  | .constructing info name _ | .locking info name _ => ∃ b, Loaded s info name b ∧ Unbound s b
  | .installing info name _ => (∃ context, s.modelMap.lookup name = some context) ∧
      ∃ b, Loaded s info name b ∧ Unbound s b
  | .starting context name _ => Built s context name ∧
      (s.faces context.scheduler).control = .idle ∧ (s.faces context.scheduler).running = false
  | .spawning context name _ => Built s context name ∧
      ((∃ idx, (s.faces context.scheduler).control = .starting idx) ∨
        (s.faces context.scheduler).control = .startReturned .success) ∧
      (s.faces context.scheduler).running = true
  | .rejecting t _ | .tearing t _ => Torn s t
  | .swapping info name _ => ∃ context, s.modelMap.lookup name = some context ∧
      Loaded s info name (s.faces context.scheduler).inferFunc
  | .resetting info _ => ∀ i b, info = some i → i.backend = some b →
      b < s.nextBackend ∧ (s.tags b).released = none ∧ Unbound s b
  | _ => True

def MainInv (s : Store) : MainPc → Prop
  | .tearing t => Torn s t
  | _ => True

variable {s : Store} {context : ModelRunContext} {info : BackendInfo} {name : String} {b : Nat}
  {lists : StateUpdate}

/-- An added model: its scheduler is created for the backend that was loaded. -/
theorem Sane.construct (sane : Sane s none) (face : Face Nat) (lists : StateUpdate)
    (loaded : Loaded s info name b) (unbound : Unbound s b) (bound : face.inferFunc = b)
    (idle : face.control = .idle) (halted : face.running = false) :
    Sane (s.addScheduler face) none ∧
      CycleInv (s.addScheduler face) (.starting ⟨s.nextScheduler,some info⟩ name lists) := by
  subst bound
  have newest := addScheduler_newest s face
  refine ⟨sane.addScheduler face unbound loaded.created loaded.alive rfl,
    ⟨⟨Nat.lt_succ_self _,sane.unborn _ le_rfl⟩,?_,info,_,rfl,loaded.transfer rfl le_rfl,?_⟩,?_,?_⟩
  · intro name' context present shared
    obtain ⟨held,_⟩ := sane.entry name' context present
    exact Nat.ne_of_lt held.created shared
  · rw [newest]
  · rw [newest,idle]
  · rw [newest,halted]

/-- It is started, thread by thread. -/
theorem Built.control {face : Face Nat} (built : Built s context name) (sane : Sane s none)
    (same : face.inferFunc = (s.faces context.scheduler).inferFunc) :
    Sane (s.setFace context.scheduler face) none ∧
      Built (s.setFace context.scheduler face) context name := by
  obtain ⟨held,out,info,b,owned,loaded,bound⟩ := built
  exact ⟨sane.setFace same out held.alive,⟨held.created,held.alive⟩,out,info,b,owned,
    loaded.transfer rfl le_rfl,(setFace_bound same _).trans bound⟩

/-- It becomes an entry of the map. -/
theorem Built.insert (built : Built s context name) (sane : Sane s none)
    (serving : Serving s context.scheduler) :
    Sane { s with modelMap := s.modelMap.insert name context } none := by
  obtain ⟨held,out,info,b,owned,loaded,bound⟩ := built
  exact sane.insert ⟨held,serving,info,b,owned,loaded,fun _ => bound,by simp⟩ out

/-- Or it is destroyed again. -/
theorem Built.torn (built : Built s context name) (serving : Serving s context.scheduler) :
    Torn s ⟨context,.backendInfo⟩ := by
  obtain ⟨held,out,info,b,owned,loaded,bound⟩ := built
  exact ⟨held,out,serving,info,name,b,owned,loaded,bound⟩

/-- An updated model: the new backend is bound before it is in the entry. -/
theorem Sane.installed (sane : Sane s none) (face : Face Nat) (lists : StateUpdate)
    (present : s.modelMap.lookup name = some context) (loaded : Loaded s info name b)
    (unbound : Unbound s b) (bound : face.inferFunc = b)
    (control : face.control = (s.faces context.scheduler).control)
    (running : face.running = (s.faces context.scheduler).running) :
    Sane (s.setFace context.scheduler face) (some name) ∧
      CycleInv (s.setFace context.scheduler face) (.swapping info name lists) := by
  subst bound
  refine ⟨sane.install present unbound loaded.created loaded.alive control running,context,
    present,?_⟩
  rw [setFace_self]
  exact loaded.transfer rfl le_rfl

/-- The backend that leaves the entry is bound by nothing any more. -/
theorem Sane.swapped (sane : Sane s (some name)) (present : s.modelMap.lookup name = some context)
    (swapping : CycleInv s (.swapping info name lists)) :
    Sane { s with
        modelMap := s.modelMap.insert name { context with backendInfo := some info } } none ∧
      CycleInv { s with
        modelMap := s.modelMap.insert name { context with backendInfo := some info } }
        (.resetting context.backendInfo lists) := by
  obtain ⟨context',present',loaded⟩ := swapping
  obtain rfl : context = context' := Option.some.inj (present.symm.trans present')
  refine ⟨sane.swap present loaded,?_⟩
  intro i b was owned
  obtain ⟨_,_,old,b',owned',loaded',_,unbound⟩ := sane.entry name context present
  obtain rfl : old = i := Option.some.inj (owned'.symm.trans was)
  obtain rfl : b = b' := Option.some.inj (owned.symm.trans loaded'.owned)
  exact ⟨loaded'.created,loaded'.alive,unbound rfl⟩

/-- A deleted model leaves the map with all it has. -/
theorem Sane.erased (sane : Sane s none) (present : s.modelMap.lookup name = some context) :
    Torn { s with modelMap := s.modelMap.erase name } ⟨context,.backendInfo⟩ := by
  obtain ⟨held,serving,_⟩ := sane.entry name context present
  obtain ⟨info,b,owned,loaded,bound⟩ := sane.bound present
  exact ⟨⟨held.created,held.alive⟩,sane.erase_out present,serving,info,name,b,owned,
    loaded.transfer rfl le_rfl,bound⟩

end Store

open Store

namespace Server

def store (sv : Server) : Store where
  modelMap := sv.modelMap
  faces := fun k => (sv.schedulers k).face
  destroyed := sv.destroyed
  nextScheduler := sv.nextScheduler
  tags := fun b => (sv.backends b).tag
  nextBackend := sv.nextBackend

theorem store_setScheduler (sv : Server) (k : Nat) (sc : Scheduler Payload Nat) :
    (sv.setScheduler k sc).store = sv.store.setFace k sc.face := by
  have faces : (fun j => (Function.update sv.schedulers k sc j).face) =
      Function.update (fun j => (sv.schedulers j).face) k sc.face := by
    funext j
    exact Function.apply_update (fun _ => Scheduler.face) sv.schedulers k sc j
  simp only [store,setScheduler,setFace,faces]

theorem store_addScheduler (sv : Server) (sc : Scheduler Payload Nat) :
    store { sv.setScheduler sv.nextScheduler sc with nextScheduler := sv.nextScheduler + 1 } =
      sv.store.addScheduler sc.face := by
  have before := store_setScheduler sv sv.nextScheduler sc
  simp only [store,setFace,Store.mk.injEq] at before
  simp only [store,addScheduler,before]

theorem update_tag (backends : Nat → BackendCell) (b : Nat) (cell : BackendCell) :
    (fun j => (Function.update backends b cell j).tag) =
      Function.update (fun j => (backends j).tag) b cell.tag := by
  funext j
  exact Function.apply_update (fun _ => BackendCell.tag) backends b cell j

theorem store_allocate (sv : Server) (object : ModelBackend) :
    (sv.allocate (some object)).store = sv.store.addBackend
      ⟨object.modelName,object.modelVersion,object.contexts,none⟩ := by
  simp only [store,allocate,addBackend,update_tag]
  rfl

theorem store_release (sv : Server) {info : BackendInfo} {b : Nat} (owned : info.backend = some b)
    (cause : Release) : (sv.release (some info) cause).store = sv.store.setReleased b cause := by
  simp only [store,release,setReleased,Option.bind_some,owned,update_tag]
  rfl

/-- The counter of calls in progress is no part of the store. -/
theorem store_setObject (sv : Server) (b : Nat) {object : ModelBackend}
    (same : (⟨object,(sv.backends b).released⟩ : BackendCell).tag = (sv.backends b).tag) :
    (sv.setObject b object).store = sv.store := by
  have tags : (fun j => (Function.update sv.backends b { sv.backends b with object := object } j).tag) =
      fun j => (sv.backends j).tag := by
    rw [update_tag,same]
    exact Function.update_eq_self b fun j => (sv.backends j).tag
  simp only [store,setObject,tags]

theorem store_sameFace (sv : Server) {k : Nat} {sc : Scheduler Payload Nat}
    (same : sc.face = (sv.schedulers k).face) : (sv.setScheduler k sc).store = sv.store := by
  rw [store_setScheduler,same]
  simp only [setFace,store]
  congr 1
  exact Function.update_eq_self k fun j => (sv.schedulers j).face

theorem worker_store {sv sv' : Server} {k w : Nat} {a : WorkerAction}
    (taken : WorkerEffect sv k w a sv') : sv'.store = sv.store := by
  have face {sc : Scheduler Payload Nat} (stepped : (sv.schedulers k).workerStep w a = some sc) :
      sc.face = (sv.schedulers k).face := by
    obtain ⟨_,_,cases⟩ := Scheduler.workerStep_cases stepped
    exact Scheduler.worker_face cases
  cases taken with
  | quiet stepped => exact store_sameFace sv (face stepped)
  | call stepped =>
    exact (store_sameFace (sv.setObject _ _) (face stepped)).trans (store_setObject sv _ rfl)
  | ret stepped =>
    refine (store_sameFace (sv.setObject _ _) (face stepped)).trans (store_setObject sv _ ?_)
    unfold ModelBackend.leaveRun
    split <;> rfl

theorem caller_store {sv sv' : Server} {c : Nat} {a : CallerAction}
    (taken : CallerStep sv c a sv') : sv'.store = sv.store := by
  cases taken with
  | enqueue _ stepped =>
    exact store_sameFace sv (Scheduler.producer_face (Scheduler.producerStep_cases stepped))
  | call | notFound | found | finish => rfl

structure Valid (sv : Server) : Prop where
  sane : Sane sv.store sv.cycle.pending
  cycle : CycleInv sv.store sv.cycle
  main : MainInv sv.store sv.main

theorem control_bound {sc sc' : Scheduler Payload Nat} {a : ControlAction}
    (taken : sc.controlStep a = some sc') :
    sc'.face.inferFunc = sc.face.inferFunc ∧ sc'.face.totalRunners = sc.face.totalRunners := by
  cases Scheduler.controlStep_cases taken <;> exact ⟨rfl,rfl⟩

theorem stop_stopping {sc sc' : Scheduler Payload Nat}
    (taken : sc.controlStep .stop = some sc') (running : sc.running = true) :
    sc'.control.stopping := by
  cases Scheduler.controlStep_cases taken with
  | stop => trivial
  | stopIdle _ halted => rw [running] at halted; contradiction

theorem winding_stopping {sc sc' : Scheduler Payload Nat} {a : ControlAction}
    (winding : Winding a) (taken : sc.controlStep a = some sc') :
    sc'.control.stopping := by
  cases Scheduler.controlStep_cases taken with
  | drainWait pc => rw [pc]; trivial
  | drained | clearRunning | breakAll | join => trivial
  | joined => exact rfl
  | startAgain | start | spawn | started | stop | stopIdle => exact winding.elim

theorem teardown_valid {sv sv' : Server} {t : Teardown} {a : TeardownAction}
    {left : Option Teardown} (taken : TeardownStep sv t a sv' left)
    (sane : Sane sv.store none) (torn : Torn sv.store t) :
    Sane sv'.store none ∧ ∀ t', left = some t' → Torn sv'.store t' := by
  obtain ⟨held,out,rest⟩ := torn
  have alive : sv.destroyed t.context.scheduler = false := held.alive
  cases taken with
  | release stage =>
    rw [stage] at rest
    obtain ⟨serving,info,name,b,owned,loaded,bound⟩ := rest
    rw [owned,store_release sv loaded.owned]
    refine ⟨sane.setReleased loaded.created ?_ (by simp) ?_,?_⟩
    · intro name' context present there
      obtain ⟨held',_⟩ := sane.entry name' context present
      exact out name' context present
        (sane.injective _ held'.created _ held.created (there.trans bound.symm))
    · rintro k ⟨⟩
      exact ⟨held.created,bound⟩
    · rintro _ ⟨⟩
      refine ⟨⟨held.created,held.alive⟩,out,serving,?_⟩
      change ((sv.store.setReleased b _).tags (sv.store.faces t.context.scheduler).inferFunc).released = _
      rw [bound,setReleased_self]
  | stop stage stepped =>
    rw [stage] at rest
    obtain ⟨⟨_,running⟩,released⟩ := rest
    have bound := (control_bound stepped).1
    rw [store_setScheduler]
    refine ⟨sane.setFace bound out alive,?_⟩
    rintro _ ⟨⟩
    refine ⟨⟨held.created,held.alive⟩,out,?_,?_⟩
    · rw [setFace_self]
      exact stop_stopping stepped running
    · rw [setFace_bound bound]
      exact released
  | wind stage winds stepped =>
    rw [stage] at rest
    obtain ⟨_,released⟩ := rest
    have bound := (control_bound stepped).1
    rw [store_setScheduler]
    refine ⟨sane.setFace bound out alive,?_⟩
    rintro _ ⟨⟩
    refine ⟨⟨held.created,held.alive⟩,out,?_⟩
    rw [stage]
    refine ⟨?_,?_⟩
    · rw [setFace_self]
      exact winding_stopping (winding?_some winds).1 stepped
    · rw [setFace_bound bound]
      exact released
  | @destroy status stage ended =>
    rw [stage] at rest
    have control : (sv.store.faces t.context.scheduler).control = .stopReturned status := ended
    have inside := rest.1
    rw [control] at inside
    have success : status = .success := inside
    subst status
    exact ⟨sane.destroy out held.created control,by simp⟩

/-- `LoadModels` is never in progress while `Stop` destroys a context. -/
theorem Exclusive.main_apart {sv : Server} (exclusive : Exclusive sv) (busy : sv.cycle ≠ .idle)
    (s : Store) : MainInv s sv.main := by
  unfold MainInv
  split
  next t here =>
    have absent := exclusive.alone (by simp [here,MainPc.alone])
    exact absurd (exclusive.idle (by simp [here]) (by simp [absent])) busy
  · trivial

/-- The backend that `LoadModel` creates is loaded, and bound by nothing. -/
theorem allocate_sane {sv : Server} {load : ModelLoadInfo} {content : Option ModelConfig}
    {info : BackendInfo} {b : ModelBackend} (sane : Sane sv.store none)
    (loaded : loadModel load content sv.nextBackend = some (info,some b)) :
    Sane (sv.allocate (some b)).store none ∧
    Loaded (sv.allocate (some b)).store info load.modelName sv.nextBackend ∧
    Unbound (sv.allocate (some b)).store sv.nextBackend := by
  obtain ⟨named,version,owned,object,made,tagName,tagVersion⟩ := loadModel_some loaded
  obtain rfl : b = object := Option.some.inj made
  rw [store_allocate]
  have newest : (sv.store.addBackend ⟨b.modelName,b.modelVersion,b.contexts,none⟩).tags
      sv.nextBackend = ⟨b.modelName,b.modelVersion,b.contexts,none⟩ := Function.update_self _ _ _
  refine ⟨sane.addBackend _ rfl,⟨named,owned,Nat.lt_succ_self _,?_,?_,?_⟩,sane.addBackend_unbound _⟩
  · rw [newest]; exact tagName
  · rw [newest]; exact tagVersion.trans version.symm
  · rw [newest]

/-- `Start` of a new scheduler, once it has returned, has returned `Success`. -/
theorem success_of_returned {control : ControlPc} {status : Status}
    (place : (∃ idx, control = .starting idx) ∨ control = .startReturned .success)
    (returned : control = .startReturned status) : status = .success := by
  rw [returned] at place
  simpa using place

/-- The backend that an update replaced is destroyed. -/
theorem reset_sane {sv : Server} {info : Option BackendInfo} {lists : StateUpdate}
    (sane : Sane sv.store none) (locals : CycleInv sv.store (.resetting info lists)) :
    Sane (sv.release info .update).store none := by
  cases owned : info.bind (·.backend) with
  | none =>
    have same : (sv.release info .update).store = sv.store := by simp [store,release,owned]
    rwa [same]
  | some b =>
    obtain ⟨i,rfl,backend⟩ := Option.bind_eq_some_iff.mp owned
    obtain ⟨created,alive,unbound⟩ := locals i b rfl backend
    rw [store_release sv backend]
    refine sane.setReleased created ?_ (fun _ => unbound) (by simp)
    intro name context present
    exact unbound _ (sane.entry name context present).1.created

/-- A scheduler whose `Start` has returned serves. -/
theorem started_serving {sv : Server} {context : ModelRunContext} {name : String}
    {lists : StateUpdate} {status : Status}
    (locals : CycleInv sv.store (.spawning context name lists))
    (returned : (sv.schedulers context.scheduler).control = .startReturned status) :
    Serving sv.store context.scheduler := by
  obtain ⟨_,place,running⟩ := locals
  obtain rfl := success_of_returned place returned
  exact ⟨returned,running⟩

theorem cycle_valid {sv sv' : Server} {a : CycleAction} (taken : CycleStep sv a sv')
    (exclusive : Exclusive sv) (valid : Valid sv) : Valid sv' := by
  obtain ⟨busy,-,-,-,main,-⟩ := cycle_frame taken
  obtain ⟨sane,locals,-⟩ := valid
  suffices goal : Sane sv'.store sv'.cycle.pending ∧ CycleInv sv'.store sv'.cycle by
    exact ⟨goal.1,goal.2,by rw [main]; exact exclusive.main_apart busy _⟩
  clear main busy
  cases taken with
  | list pc | mark pc | skip pc | found pc | check pc | scanned pc | notAdded pc | allAdded pc
  | notUpdated pc | allUpdated pc | gone pc | allDeleted pc =>
    rw [pc] at sane
    exact ⟨sane,trivial⟩
  | added pc loaded | updated pc loaded =>
    rw [pc] at sane
    obtain ⟨sane',loaded',unbound⟩ := allocate_sane sane loaded
    exact ⟨sane',_,loaded',unbound⟩
  | @construct _ _ lists b pc owned =>
    rw [pc] at sane locals
    obtain ⟨b',loaded,unbound⟩ := locals
    obtain rfl := Option.some.inj (owned.symm.trans loaded.owned)
    have built := sane.construct (Scheduler.create sv.config.maxQueueSize
      (toInt32 (sv.backends b).object.getInstanceNum) b : Scheduler Payload Nat).face lists loaded
      unbound rfl rfl rfl
    rw [← store_addScheduler] at built
    exact built
  | @start context name lists sc pc stepped =>
    rw [pc] at sane locals
    obtain ⟨built,_,halted⟩ := locals
    have started : sc.control = .starting 0 ∧ sc.running = true := by
      have running : (sv.schedulers context.scheduler).running = false := halted
      cases Scheduler.controlStep_cases stepped with
      | startAgain _ up => rw [running] at up; contradiction
      | start => exact ⟨rfl,rfl⟩
    obtain ⟨sane',built'⟩ := built.control sane (control_bound stepped).1
    have store : store { sv.setScheduler context.scheduler sc with
        cycle := .spawning context name lists } = sv.store.setFace context.scheduler sc.face :=
      store_setScheduler sv _ sc
    rw [store]
    refine ⟨sane',built',.inl ⟨0,?_⟩,?_⟩
    · rw [setFace_self]
      exact started.1
    · rw [setFace_self]
      exact started.2
  | @spawn context name lists sc pc stepped =>
    rw [pc] at sane locals
    obtain ⟨built,_,running⟩ := locals
    have place : ((∃ idx, sc.control = .starting idx) ∨ sc.control = .startReturned .success) ∧
        sc.running = (sv.schedulers context.scheduler).running := by
      cases Scheduler.controlStep_cases stepped with
      | spawn => exact ⟨.inl ⟨_,rfl⟩,rfl⟩
      | started => exact ⟨.inr rfl,rfl⟩
    obtain ⟨sane',built'⟩ := built.control sane (control_bound stepped).1
    have cycle : (sv.setScheduler context.scheduler sc).cycle = .spawning context name lists := pc
    rw [cycle,store_setScheduler]
    refine ⟨sane',built',?_,?_⟩
    · rw [setFace_self]
      exact place.1
    · rw [setFace_self]
      exact place.2.trans running
  | insert pc started =>
    rw [pc] at sane locals
    exact ⟨locals.1.insert sane (started_serving locals started),trivial⟩
  | reject pc started =>
    rw [pc] at sane locals
    exact ⟨sane,locals.1.torn (started_serving locals started)⟩
  | rejecting pc step | tearing pc step =>
    rw [pc] at sane locals
    obtain ⟨sane',torn'⟩ := teardown_valid step sane locals
    exact ⟨sane',torn' _ rfl⟩
  | rejected pc step | torn pc step =>
    rw [pc] at sane locals
    exact ⟨(teardown_valid step sane locals).1,trivial⟩
  | missing pc =>
    rw [pc] at sane locals
    obtain ⟨b,loaded,unbound⟩ := locals
    refine ⟨sane,?_⟩
    rintro i b' ⟨⟩ owned
    obtain rfl : b = b' := Option.some.inj (loaded.owned.symm.trans owned)
    exact ⟨loaded.created,loaded.alive,unbound⟩
  | lock pc _ present =>
    rw [pc] at sane locals
    exact ⟨sane,⟨_,present⟩,locals⟩
  | @install _ _ lists context b pc present owned =>
    rw [pc] at sane locals
    obtain ⟨_,b',loaded,unbound⟩ := locals
    obtain rfl := Option.some.inj (owned.symm.trans loaded.owned)
    have installed := sane.installed
      ((sv.schedulers context.scheduler).updateBackendInferFunc b).face lists present loaded
      unbound rfl rfl rfl
    rw [← store_setScheduler] at installed
    exact installed
  | swap pc present =>
    rw [pc] at sane locals
    exact sane.swapped present locals
  | reset pc =>
    rw [pc] at sane locals
    exact ⟨reset_sane sane locals,trivial⟩
  | erase pc _ present =>
    rw [pc] at sane
    exact ⟨sane.erase,sane.erased present⟩

theorem main_valid {sv sv' : Server} {a : MainAction} (taken : MainStep sv a sv')
    (exclusive : Exclusive sv) (valid : Valid sv) : Valid sv' := by
  obtain ⟨sane,locals,main⟩ := valid
  have idle {pc : MainPc} (here : sv.main = pc) (there : pc.alone = true) (other : pc ≠ .loading) :
      sv.cycle = .idle :=
    exclusive.idle (fun loading => other (here.symm.trans loading))
      (by simp [exclusive.alone (by rw [here]; exact there)])
  cases taken with
  | startAgain | stop | notify | join | lock | unlock => exact ⟨sane,locals,trivial⟩
  | start ready halted =>
    have still := exclusive.idle (fun h => by simp [h,MainPc.ready] at ready)
      (by simp [exclusive.stopped ready halted])
    rw [still] at sane
    exact ⟨sane,trivial,trivial⟩
  | loaded _ finished =>
    rw [finished] at sane
    exact ⟨sane,trivial,trivial⟩
  | @clear name context here present =>
    have still := idle here rfl (by simp)
    rw [still] at sane
    obtain ⟨held,serving,_⟩ := sane.entry name context present
    obtain ⟨info,b,owned,loaded,bound⟩ := sane.bound present
    refine ⟨?_,?_,⟨held.created,held.alive⟩,sane.erase_out present,serving,info,name,b,owned,
      loaded.transfer rfl le_rfl,bound⟩
    · simp only [still]
      exact sane.erase
    · simp only [still]
      trivial
  | tearing here step =>
    have still := idle here rfl (by simp)
    rw [still] at sane
    rw [here] at main
    obtain ⟨sane',torn'⟩ := teardown_valid step sane main
    obtain ⟨_,_,_,rfl⟩ := teardown_frame step
    refine ⟨?_,?_,torn' _ rfl⟩
    · simp only [still]
      exact sane'
    · simp only [still]
      trivial
  | torn here step =>
    have still := idle here rfl (by simp)
    rw [still] at sane
    rw [here] at main
    obtain ⟨sane',_⟩ := teardown_valid step sane main
    obtain ⟨_,_,_,rfl⟩ := teardown_frame step
    refine ⟨?_,?_,trivial⟩
    · simp only [still]
      exact sane'
    · simp only [still]
      trivial

theorem updater_valid {sv sv' : Server} {a : UpdaterAction} (taken : UpdaterStep sv a sv')
    (exclusive : Exclusive sv) (valid : Valid sv) : Valid sv' := by
  obtain ⟨sane,locals,main⟩ := valid
  cases taken with
  | enter | sleep | pass | wake | timeout | exit => exact ⟨sane,locals,main⟩
  | refresh here =>
    have still := exclusive.idle (fun loading => by
      simp [exclusive.alone (by simp [loading,MainPc.alone])] at here) (by simp [here])
    rw [still] at sane
    exact ⟨sane,trivial,main⟩
  | cycled _ finished =>
    rw [finished] at sane
    exact ⟨sane,trivial,main⟩

theorem step_valid {sv sv' : Server} {a : ServerAction} (taken : sv.step a = some sv')
    (exclusive : Exclusive sv) (valid : Valid sv) : Valid sv' := by
  have keep (store : sv'.store = sv.store) (cycle : sv'.cycle = sv.cycle)
      (main : sv'.main = sv.main) : Valid sv' := by
    obtain ⟨sane,locals,own⟩ := valid
    exact ⟨by rwa [store,cycle],by rwa [store,cycle],by rwa [store,main]⟩
  cases a with
  | caller c a =>
    have cases := callerStep_cases taken
    have store := caller_store cases
    obtain ⟨_,_,_,rfl⟩ := caller_frame cases
    exact keep store rfl rfl
  | status c a =>
    obtain ⟨_,rfl⟩ := status_frame taken
    exact keep rfl rfl rfl
  | health c a =>
    obtain ⟨_,rfl⟩ := health_frame taken
    exact keep rfl rfl rfl
  | worker k w a =>
    have effect := workerStep_effect taken
    have store := worker_store effect
    obtain ⟨_,_,rfl⟩ := worker_frame effect
    exact keep store rfl rfl
  | cycle a => exact cycle_valid (cycleStep_cases taken) exclusive valid
  | main a => exact main_valid (mainStep_cases taken) exclusive valid
  | updater a => exact updater_valid (updaterStep_cases taken) exclusive valid

theorem reachable_valid {config : ServerConfig} {sv : Server}
    (reach : (machine config).Reachable sv) : Valid sv := by
  refine reach.invariant ⟨empty_sane _ _ fun _ => rfl,trivial,trivial⟩ ?_
  intro sv a sv' before valid taken
  exact step_valid taken (reachable_exclusive before) valid

end Server
end InferenceServer
