import InferenceServer.Shutdown

/-! `InferenceCore`: the flags of the core, of its `GrpcServer` and of its `ModelManager` over
sequences of `Start` and `Stop`. -/
namespace InferenceServer

def UpdaterPc.alive : UpdaterPc → Bool
  | .absent | .exited => false
  | _ => true

namespace Server

variable {config : ServerConfig} {sv sv' : Server}

def Refreshing (sv : Server) : Prop :=
  sv.running = true → sv.main ≠ .loading → sv.config.autoUpdate = true → sv.updater.alive = true

theorem step_refreshing {a : ServerAction} (taken : sv.step a = some sv')
    (stopping : Stopping sv) (valid : Refreshing sv) : Refreshing sv' := by
  cases a with
  | caller | status | health | worker =>
    obtain ⟨_,_,_,_,_,_,rfl⟩ := outside_frame taken rfl
    exact valid
  | cycle a =>
    obtain ⟨_,config,_,running,main,updater,_⟩ := cycle_frame (cycleStep_cases taken)
    rw [Refreshing,config,running,main,updater]
    exact valid
  | updater a =>
    cases updaterStep_cases taken with
    | exit _ halted => exact fun running => absurd (halted.symm.trans running) (by simp)
    | _ => exact fun _ _ _ => rfl
  | main a =>
    intro running loading auto
    have halted {pc : MainPc} (here : sv.main = pc) (stops : pc.stopping = true)
        (running : sv.running = true) : False := by
      have halted := stopping.halted (here ▸ stops)
      exact absurd (halted.symm.trans running) (by simp)
    cases mainStep_cases taken with
    | startAgain ready up =>
      exact valid up (fun there => by simp [there,MainPc.ready] at ready) auto
    | start => exact absurd rfl loading
    | loaded =>
      have auto' : sv.config.autoUpdate = true := auto
      simp only [auto',if_true]
      rfl
    | stop => contradiction
    | notify here | join here | lock here | clear here | unlock here =>
      exact (halted here rfl running).elim
    | tearing here torn | torn here torn =>
      obtain ⟨_,_,_,rfl⟩ := teardown_frame torn
      exact (halted here rfl running).elim

theorem reachable_refreshing (reach : (machine config).Reachable sv) : Refreshing sv := by
  refine reach.invariant (P := Refreshing) (fun running => by contradiction) ?_
  intro sv a sv' before valid taken
  exact step_refreshing taken (reachable_stopping before) valid

/-- Between the beginnings of `Start` and `Stop` the flag stays as it is, and so does a client
that is in neither; a client in `Stop` ends with `Success`. -/
theorem step_client {a : ServerAction} (taken : sv.step a = some sv') (starts : a ≠ .main .start)
    (stops : a ≠ .main .stop) :
    sv'.running = sv.running ∧ (sv.main.ready = true → sv'.main = sv.main) ∧
      (sv.main.stopping = true → sv'.main.stopping = true ∨ sv'.main = .returned .success) := by
  have same (running : sv'.running = sv.running) (main : sv'.main = sv.main) :
      sv'.running = sv.running ∧ (sv.main.ready = true → sv'.main = sv.main) ∧
        (sv.main.stopping = true → sv'.main.stopping = true ∨ sv'.main = .returned .success) :=
    ⟨running,fun _ => main,fun stopping => .inl (main ▸ stopping)⟩
  cases a with
  | caller | status | health | worker =>
    obtain ⟨_,_,_,_,_,_,rfl⟩ := outside_frame taken rfl
    exact same rfl rfl
  | cycle a =>
    obtain ⟨_,_,_,running,main,_⟩ := cycle_frame (cycleStep_cases taken)
    exact same running main
  | updater a => cases updaterStep_cases taken <;> exact same rfl rfl
  | main a =>
    cases mainStep_cases taken with
    | startAgain | start => exact absurd rfl starts
    | stop => exact absurd rfl stops
    | loaded here | notify here | join here | lock here | clear here | unlock here =>
      exact ⟨rfl,by simp [here,MainPc.ready],by simp [here,MainPc.stopping]⟩
    | tearing here torn | torn here torn =>
      obtain ⟨_,_,_,rfl⟩ := teardown_frame torn
      exact ⟨rfl,by simp [here,MainPc.ready],by simp [MainPc.stopping]⟩

theorem start_running (began : MainStep sv .start sv') : sv'.running = true := by
  cases began with
  | startAgain _ up => exact up
  | start => rfl

theorem stop_halted (began : MainStep sv .stop sv') : sv'.running = false := by
  cases began with
  | stop => rfl

end Server

/-- What is gRPC's of it (the builder, the queues and their handlers) is taken to start and to
stop whenever it is called. -/
structure GrpcServer where
  running : Bool
  deriving DecidableEq, Repr

namespace GrpcServer

def start (_ : GrpcServer) : Status × GrpcServer := (.success,⟨true⟩)

def stop (g : GrpcServer) : Status × GrpcServer :=
  if g.running then (.success,⟨false⟩) else (.failedRpcNotRunning,g)

end GrpcServer

inductive CoreCall where
  | start
  | stop
  deriving DecidableEq, Repr

/-- A place in the constructor, in `Start` or in `Stop`; `threw` is past a `THROW_ERROR`. -/
inductive CorePc where
  | creating
  | loading
  | constructed
  | starting
  | started
  | stopping
  | stoppingManager
  | awaiting
  | returned (call : CoreCall) (status : Status)
  | threw
  deriving DecidableEq, Repr

def CorePc.ready : CorePc → Bool
  | .constructed | .returned _ _ => true
  | _ => false

structure InferenceCore where
  running : Bool
  grpcServer : GrpcServer
  modelManager : Server
  pc : CorePc

inductive CoreAction where
  | create
  | created
  | start
  | startGrpc
  | started
  | stop
  | stopGrpc
  | stopManager
  | stopped
  | manager (a : ServerAction)
  deriving DecidableEq, Repr

def CoreAction.call? : CoreAction → Option CoreCall
  | .start => some .start
  | .stop => some .stop
  | _ => none

namespace InferenceCore

def create (config : ServerConfig) : InferenceCore := ⟨false,⟨false⟩,.create config,.creating⟩

/-- `ModelManager`'s constructor calls its `Start`, whose status is not looked at. -/
def step (c : InferenceCore) : CoreAction → Option InferenceCore
  | .create =>
    match c.pc with
    | .creating => (c.modelManager.step (.main .start)).map fun modelManager =>
        { c with modelManager := modelManager, pc := .loading }
    | _ => none
  | .created =>
    match c.pc, c.modelManager.main with
    | .loading, .returned _ => some { c with pc := .constructed }
    | _, _ => none
  | .start =>
    if c.pc.ready then
      if c.running then some { c with pc := .returned .start .faieldRpcAlreadyRunning }
      else some { c with pc := .starting }
    else none
  | .startGrpc =>
    match c.pc with
    | .starting =>
      let (status,grpcServer) := c.grpcServer.start
      some { c with
        grpcServer := grpcServer, pc := if status = .success then .started else .threw }
    | _ => none
  | .started =>
    match c.pc with
    | .started => some { c with running := true, pc := .returned .start .success }
    | _ => none
  | .stop =>
    if c.pc.ready then
      if c.running then some { c with pc := .stopping }
      else some { c with pc := .returned .stop .failedRpcNotRunning }
    else none
  | .stopGrpc =>
    match c.pc with
    | .stopping =>
      let (status,grpcServer) := c.grpcServer.stop
      some { c with
        grpcServer := grpcServer, pc := if status = .success then .stoppingManager else .threw }
    | _ => none
  | .stopManager =>
    match c.pc with
    | .stoppingManager => (c.modelManager.step (.main .stop)).map fun modelManager =>
        { c with modelManager := modelManager, pc := .awaiting }
    | _ => none
  | .stopped =>
    match c.pc, c.modelManager.main with
    | .awaiting, .returned status =>
      if status = .success then some { c with running := false, pc := .returned .stop .success }
      else some { c with pc := .threw }
    | _, _ => none
  | .manager a =>
    if a = .main .start ∨ a = .main .stop then none
    else (c.modelManager.step a).map fun modelManager => { c with modelManager := modelManager }

def machine (config : ServerConfig) : Transition.Machine InferenceCore CoreAction :=
  ⟨create config,step⟩

inductive CoreStep (c : InferenceCore) : CoreAction → InferenceCore → Prop where
  | create {modelManager} : c.pc = .creating →
      c.modelManager.step (.main .start) = some modelManager →
      CoreStep c .create { c with modelManager := modelManager, pc := .loading }
  | created {status} : c.pc = .loading → c.modelManager.main = .returned status →
      CoreStep c .created { c with pc := .constructed }
  | startAgain : c.pc.ready = true → c.running = true →
      CoreStep c .start { c with pc := .returned .start .faieldRpcAlreadyRunning }
  | start : c.pc.ready = true → c.running = false → CoreStep c .start { c with pc := .starting }
  | startGrpc : c.pc = .starting →
      CoreStep c .startGrpc { c with grpcServer := ⟨true⟩, pc := .started }
  | started : c.pc = .started →
      CoreStep c .started { c with running := true, pc := .returned .start .success }
  | stopAgain : c.pc.ready = true → c.running = false →
      CoreStep c .stop { c with pc := .returned .stop .failedRpcNotRunning }
  | stop : c.pc.ready = true → c.running = true → CoreStep c .stop { c with pc := .stopping }
  | stopGrpc : c.pc = .stopping → c.grpcServer.running = true →
      CoreStep c .stopGrpc { c with grpcServer := ⟨false⟩, pc := .stoppingManager }
  | stopGrpcFails : c.pc = .stopping → c.grpcServer.running = false →
      CoreStep c .stopGrpc { c with pc := .threw }
  | stopManager {modelManager} : c.pc = .stoppingManager →
      c.modelManager.step (.main .stop) = some modelManager →
      CoreStep c .stopManager { c with modelManager := modelManager, pc := .awaiting }
  | stopped : c.pc = .awaiting → c.modelManager.main = .returned .success →
      CoreStep c .stopped { c with running := false, pc := .returned .stop .success }
  | stopFails {status} : c.pc = .awaiting → c.modelManager.main = .returned status →
      status ≠ .success → CoreStep c .stopped { c with pc := .threw }
  | manager {a modelManager} : a ≠ .main .start → a ≠ .main .stop →
      c.modelManager.step a = some modelManager →
      CoreStep c (.manager a) { c with modelManager := modelManager }

theorem step_cases {c c' : InferenceCore} {a : CoreAction} (taken : c.step a = some c') :
    CoreStep c a c' := by
  cases a with
  | create =>
    simp only [step] at taken
    split at taken
    next pc =>
      obtain ⟨modelManager,began,rfl⟩ := Option.map_eq_some_iff.mp taken
      exact .create pc began
    · contradiction
  | created =>
    simp only [step] at taken
    split at taken
    next pc main => cases taken; exact .created pc main
    · contradiction
  | start =>
    simp only [step] at taken
    split at taken
    next ready =>
      split at taken
      next running => cases taken; exact .startAgain ready running
      next stopped => cases taken; exact .start ready (by simpa using stopped)
    · contradiction
  | startGrpc =>
    simp only [step] at taken
    split at taken
    next pc => cases taken; exact .startGrpc pc
    · contradiction
  | started =>
    simp only [step] at taken
    split at taken
    next pc => cases taken; exact .started pc
    · contradiction
  | stop =>
    simp only [step] at taken
    split at taken
    next ready =>
      split at taken
      next running => cases taken; exact .stop ready running
      next stopped => cases taken; exact .stopAgain ready (by simpa using stopped)
    · contradiction
  | stopGrpc =>
    simp only [step,GrpcServer.stop] at taken
    split at taken
    next pc =>
      cases running : c.grpcServer.running with
      | true =>
        simp only [running,if_true] at taken
        cases taken
        exact .stopGrpc pc running
      | false =>
        simp only [running] at taken
        cases taken
        exact .stopGrpcFails pc running
    · contradiction
  | stopManager =>
    simp only [step] at taken
    split at taken
    next pc =>
      obtain ⟨modelManager,began,rfl⟩ := Option.map_eq_some_iff.mp taken
      exact .stopManager pc began
    · contradiction
  | stopped =>
    simp only [step] at taken
    split at taken
    next status pc main =>
      split at taken
      next success => cases taken; exact .stopped pc (success ▸ main)
      next failed => cases taken; exact .stopFails pc main failed
    · contradiction
  | manager a =>
    simp only [step] at taken
    split at taken
    · contradiction
    next inside =>
      obtain ⟨starts,stops⟩ := not_or.mp inside
      obtain ⟨modelManager,moved,rfl⟩ := Option.map_eq_some_iff.mp taken
      exact .manager starts stops moved

variable {config : ServerConfig} {c c' : InferenceCore}

/-- The manager of the core is the one of the server, whatever calls the core makes. -/
theorem reachable_manager (reach : (machine config).Reachable c) :
    (Server.machine config).Reachable c.modelManager := by
  refine reach.invariant (P := fun c => (Server.machine config).Reachable c.modelManager) .start ?_
  intro c a c' _ manager taken
  cases step_cases taken with
  | create _ began => exact .step (a := .main .start) manager began
  | stopManager _ began => exact .step (a := .main .stop) manager began
  | manager _ _ moved => exact .step manager moved
  | _ => exact manager

def Flags (c : InferenceCore) : Prop :=
  match c.pc with
  | .creating | .loading | .starting => c.running = false ∧ c.grpcServer.running = false
  | .started => c.running = false ∧ c.grpcServer.running = true
  | .stopping => c.running = true ∧ c.grpcServer.running = true
  | .stoppingManager | .awaiting => c.running = true ∧ c.grpcServer.running = false
  | .constructed | .returned _ _ => c.grpcServer.running = c.running
  | .threw => False

def Calling (c : InferenceCore) : Prop :=
  match c.pc with
  | .loading => True
  | .awaiting =>
    c.modelManager.main.stopping = true ∨ c.modelManager.main = .returned .success
  | _ => c.modelManager.main.ready = true

theorem Flags.between (flags : Flags c) (ready : c.pc.ready = true) :
    c.grpcServer.running = c.running := by
  unfold Flags at flags
  cases pc : c.pc <;> simp_all [CorePc.ready]

theorem Calling.between (calling : Calling c) (ready : c.pc.ready = true) :
    c.modelManager.main.ready = true := by
  unfold Calling at calling
  cases pc : c.pc <;> simp_all [CorePc.ready]

/-- No `THROW_ERROR` is reached: `GrpcServer` is running when it is stopped, and the manager's
`Stop` does not fail. -/
theorem step_caught {a : CoreAction} (taken : CoreStep c a c') (flags : Flags c)
    (calling : Calling c) : c'.pc ≠ .threw := by
  have now : c.pc ≠ .threw := by
    intro threw
    rw [Flags,threw] at flags
    exact flags
  cases taken with
  | stopGrpcFails pc down =>
    rw [Flags,pc] at flags
    exact absurd (down.symm.trans flags.2) (by simp)
  | stopFails pc main failed =>
    rw [Calling,pc] at calling
    rcases calling with stopping | success
    · rw [main] at stopping
      contradiction
    · exact absurd (MainPc.returned.inj (main.symm.trans success)) failed
  | manager => exact now
  | _ => simp

theorem step_flags {a : CoreAction} (taken : CoreStep c a c') (flags : Flags c)
    (calling : Calling c) : Flags c' := by
  have caught := step_caught taken flags calling
  cases taken with
  | stopGrpcFails | stopFails => exact absurd rfl caught
  | manager => exact flags
  | startAgain ready | stopAgain ready => exact flags.between ready
  | start ready stopped => exact ⟨stopped,(flags.between ready).trans stopped⟩
  | stop ready running => exact ⟨running,(flags.between ready).trans running⟩
  | create pc | stopManager pc =>
    rw [Flags,pc] at flags
    exact flags
  | started pc | stopped pc =>
    rw [Flags,pc] at flags
    exact flags.2
  | created pc =>
    rw [Flags,pc] at flags
    exact flags.2.trans flags.1.symm
  | startGrpc pc | stopGrpc pc =>
    rw [Flags,pc] at flags
    exact ⟨flags.1,rfl⟩

theorem step_calling {a : CoreAction} (taken : CoreStep c a c') (flags : Flags c)
    (calling : Calling c) : Calling c' := by
  have caught := step_caught taken flags calling
  cases taken with
  | stopGrpcFails | stopFails => exact absurd rfl caught
  | create => trivial
  | created _ main | stopped _ main => simp [Calling,main,MainPc.ready]
  | startAgain ready | start ready | stopAgain ready | stop ready => exact calling.between ready
  | startGrpc pc | started pc | stopGrpc pc =>
    rw [Calling,pc] at calling
    exact calling
  | stopManager _ began =>
    have began : c.modelManager.mainStep .stop = some _ := began
    cases Server.mainStep_cases began with
    | stop => exact .inl rfl
  | manager starts stops moved =>
    obtain ⟨_,still,ends⟩ := Server.step_client moved starts stops
    unfold Calling at calling ⊢
    cases pc : c.pc with
    | loading => trivial
    | awaiting =>
      simp only [pc] at calling
      rcases calling with stopping | success
      · exact ends stopping
      · exact .inr ((still (by simp [success,MainPc.ready])).trans success)
    | _ =>
      simp only [pc] at calling
      simp only [still calling]
      exact calling

theorem reachable_flags (reach : (machine config).Reachable c) : Flags c ∧ Calling c := by
  have initial : Flags (create config) ∧ Calling (create config) := ⟨⟨rfl,rfl⟩,rfl⟩
  refine reach.invariant (P := fun c => Flags c ∧ Calling c) initial ?_
  rintro c a c' _ ⟨flags,calling⟩ taken
  have stepped := step_cases taken
  exact ⟨step_flags stepped flags calling,step_calling stepped flags calling⟩

end InferenceCore

/-- How far a sequence of calls has got in a `Start`, a `Stop` and another `Start`. -/
inductive Stage where
  | fresh
  | serving
  | stopped
  | restarted
  deriving DecidableEq, Repr

namespace Stage

def after : Stage → CoreCall → Stage
  | .fresh, .start => .serving
  | .serving, .stop => .stopped
  | .stopped, .start => .restarted
  | st, _ => st

def missing : Stage → List CoreCall
  | .fresh => [.start,.stop,.start]
  | .serving => [.stop,.start]
  | .stopped => [.start]
  | .restarted => []

theorem restarted_iff (st : Stage) (calls : List CoreCall) :
    calls.foldl after st = .restarted ↔ st.missing.Sublist calls := by
  induction calls generalizing st with
  | nil => cases st <;> simp [missing]
  | cons call rest ih =>
    rw [List.foldl_cons,ih]
    cases st <;> cases call
    case fresh.start | serving.stop | stopped.start => exact List.cons_sublist_cons.symm
    all_goals simp [after,missing,List.sublist_cons_iff]

theorem fresh_of_after {st : Stage} {calls : List CoreCall}
    (fresh : calls.foldl after st = .fresh) : st = .fresh ∧ .start ∉ calls := by
  induction calls generalizing st with
  | nil => exact ⟨fresh,List.not_mem_nil⟩
  | cons call rest ih =>
    obtain ⟨next,absent⟩ := ih fresh
    cases st <;> cases call <;> simp_all [after]

end Stage

namespace InferenceCore

variable {config : ServerConfig} {c c' : InferenceCore}

def calls (actions : List CoreAction) : List CoreCall := actions.filterMap CoreAction.call?

def stage (actions : List CoreAction) : Stage := (calls actions).foldl Stage.after .fresh

theorem stage_snoc (actions : List CoreAction) (a : CoreAction) :
    stage (actions ++ [a]) = (a.call?.toList).foldl Stage.after (stage actions) := by
  cases there : a.call? <;> simp [stage,calls,there]

def Staged (c : InferenceCore) : Stage → Prop
  | .fresh => c.running = false ∧ (c.pc = .creating ∨
      c.modelManager.running = true ∧ (c.pc = .loading ∨ c.pc.ready = true))
  | .serving => c.modelManager.running = true ∧
      (c.pc = .starting ∨ c.pc = .started ∨ c.running = true ∧ c.pc.ready = true)
  | .stopped =>
      c.modelManager.running = true ∧ (c.pc = .stopping ∨ c.pc = .stoppingManager) ∨
      c.modelManager.running = false ∧ (c.pc = .awaiting ∨ c.running = false ∧ c.pc.ready = true)
  | .restarted => c.modelManager.running = false ∧ (c.pc = .starting ∨ c.pc = .started)

/-- It reports that it is running, and its manager is not. -/
def Unserved (c : InferenceCore) : Prop :=
  c.pc.ready = true ∧ c.running = true ∧ c.modelManager.running = false

theorem Staged.between {st : Stage} (staged : Staged c st) (ready : c.pc.ready = true) :
    st = .fresh ∧ c.running = false ∧ c.modelManager.running = true ∨
      st = .serving ∧ c.running = true ∧ c.modelManager.running = true ∨
      st = .stopped ∧ c.running = false ∧ c.modelManager.running = false := by
  have outside {pc : CorePc} (other : pc.ready = false) : c.pc ≠ pc := by
    rintro rfl
    exact absurd (other.symm.trans ready) (by simp)
  cases st with
  | fresh =>
    obtain ⟨down,creating | ⟨up,_⟩⟩ := staged
    · exact absurd creating (outside rfl)
    · exact .inl ⟨rfl,down,up⟩
  | serving =>
    obtain ⟨up,starting | started | ⟨running,_⟩⟩ := staged
    · exact absurd starting (outside rfl)
    · exact absurd started (outside rfl)
    · exact .inr (.inl ⟨rfl,running,up⟩)
  | stopped =>
    obtain ⟨_,stopping | stopping⟩ | ⟨halted,awaiting | ⟨down,_⟩⟩ := staged
    · exact absurd stopping (outside rfl)
    · exact absurd stopping (outside rfl)
    · exact absurd awaiting (outside rfl)
    · exact .inr (.inr ⟨rfl,down,halted⟩)
  | restarted =>
    obtain ⟨_,starting | started⟩ := staged
    · exact absurd starting (outside rfl)
    · exact absurd started (outside rfl)

theorem step_staged {a : CoreAction} {st : Stage} (taken : CoreStep c a c') (flags : Flags c')
    (staged : Staged c st) : Staged c' (a.call?.toList.foldl Stage.after st) ∨
      a.call?.toList.foldl Stage.after st = .restarted ∧ Unserved c' := by
  cases taken with
  | startAgain ready running | stop ready running =>
    rcases staged.between ready with ⟨_,down,_⟩ | ⟨rfl,_,up⟩ | ⟨_,down,_⟩
    · exact absurd (running.symm.trans down) (by simp)
    · left
      simp [Staged,CoreAction.call?,Stage.after,CorePc.ready,running,up]
    · exact absurd (running.symm.trans down) (by simp)
  | start ready halted | stopAgain ready halted =>
    rcases staged.between ready with ⟨rfl,_,up⟩ | ⟨_,running,_⟩ | ⟨rfl,_,down⟩
    · left
      simp [Staged,CoreAction.call?,Stage.after,CorePc.ready,halted,up]
    · exact absurd (running.symm.trans halted) (by simp)
    · left
      simp [Staged,CoreAction.call?,Stage.after,CorePc.ready,halted,down]
  | create pc began =>
    have began : c.modelManager.mainStep .start = some _ := began
    have up := Server.start_running (Server.mainStep_cases began)
    cases st <;> simp_all [Staged,CoreAction.call?,CorePc.ready]
  | stopManager pc began =>
    have began : c.modelManager.mainStep .stop = some _ := began
    have down := Server.stop_halted (Server.mainStep_cases began)
    cases st <;> simp_all [Staged,CoreAction.call?,CorePc.ready]
  | manager starts stops moved =>
    obtain ⟨running,_,_⟩ := Server.step_client moved starts stops
    cases st <;> simp_all [Staged,CoreAction.call?]
  | stopGrpcFails | stopFails => exact flags.elim
  | created pc | startGrpc pc | started pc | stopGrpc pc | stopped pc =>
    cases st <;> simp_all [Staged,CoreAction.call?,CorePc.ready,Unserved]

theorem run_staged {actions : List CoreAction}
    (run : (machine config).exec (create config) actions = some c) :
    Staged c (stage actions) ∨
      stage actions = .restarted ∧ (machine config).Visits actions Unserved := by
  refine Transition.Machine.exec_invariant (m := machine config) (P := fun actions c =>
    Staged c (stage actions) ∨
      stage actions = .restarted ∧ (machine config).Visits actions Unserved)
    (.inl ⟨rfl,.inl rfl⟩) ?_ run
  intro before s a t ran valid taken
  have ran' := Transition.Machine.exec_snoc.mpr ⟨s,ran,taken⟩
  have flags := (reachable_flags (Transition.Machine.exec_reachable .start _ ran')).1
  rw [stage_snoc]
  rcases valid with staged | ⟨restarted,visits⟩
  · rcases step_staged (step_cases taken) flags staged with staged' | ⟨restarted,unserved⟩
    · exact .inl staged'
    · exact .inr ⟨restarted,.now ran' unserved⟩
  · refine .inr ⟨?_,visits.extend [a]⟩
    rw [restarted]
    exact (Stage.restarted_iff .restarted _).mpr (List.nil_sublist _)

/-- What is claimed of the core between two calls, of the calls that it refuses and of its
exceptions; `ended` is the step from which on a `Stop` counts. -/
structure Consistent (ended : CoreAction) (before : List CoreAction) (c : InferenceCore) : Prop where
  up : c.pc.ready = true → c.running = true →
    c.grpcServer.running = true ∧ c.modelManager.running = true ∧
      (c.modelManager.config.autoUpdate = true → c.modelManager.updater.alive = true)
  down : c.pc.ready = true → ended ∈ before → c.running = false →
    c.grpcServer.running = false ∧ c.modelManager.running = false ∧
      c.modelManager.updater.alive = false
  refused : ∀ a t call status, (∀ b, a ≠ .manager b) → c.step a = some t →
    t.pc = .returned call status → status ≠ .success →
    c.pc.ready = true ∧ t = { c with pc := .returned call status }
  caught : c.pc ≠ .threw

theorem step_refused {a : CoreAction} {call : CoreCall} {status : Status}
    (taken : CoreStep c a c') (own : ∀ b, a ≠ .manager b)
    (returned : c'.pc = .returned call status) (failed : status ≠ .success) :
    c.pc.ready = true ∧ c' = { c with pc := .returned call status } := by
  cases taken with
  | startAgain ready | stopAgain ready =>
    cases returned
    exact ⟨ready,rfl⟩
  | started | stopped =>
    cases returned
    contradiction
  | manager => exact absurd rfl (own _)
  | _ => contradiction

theorem consistent_of_staged {ended : CoreAction} {before : List CoreAction} {st : Stage}
    (reach : (machine config).Reachable c) (staged : Staged c st)
    (begun : ended ∈ before → st ≠ .fresh) : Consistent ended before c := by
  obtain ⟨flags,calling⟩ := reachable_flags reach
  have manager := reachable_manager reach
  refine ⟨fun ready running => ?_,fun ready there down => ?_,?_,?_⟩
  · have outside := calling.between ready
    rcases staged.between ready with ⟨_,down,_⟩ | ⟨_,_,up⟩ | ⟨_,down,_⟩
    · exact absurd (running.symm.trans down) (by simp)
    · refine ⟨(flags.between ready).trans running,up,Server.reachable_refreshing manager up ?_⟩
      intro loading
      rw [loading] at outside
      contradiction
    · exact absurd (running.symm.trans down) (by simp)
  · rcases staged.between ready with ⟨fresh,_⟩ | ⟨_,running,_⟩ | ⟨_,_,halted⟩
    · exact absurd fresh (begun there)
    · exact absurd (running.symm.trans down) (by simp)
    · have absent := (Server.reachable_exclusive manager).stopped (calling.between ready) halted
      exact ⟨(flags.between ready).trans down,halted,by rw [absent]; rfl⟩
  · intro a t call status own taken
    exact step_refused (step_cases taken) own
  · intro threw
    rw [Flags,threw] at flags
    exact flags

/-- A `Stop` that has returned `Success` comes after a `Start`. -/
theorem started_of_stopped {actions : List CoreAction}
    (run : (machine config).exec (create config) actions = some c)
    (there : .stopped ∈ actions) : stage actions ≠ .fresh := by
  revert there
  refine Transition.Machine.exec_invariant (m := machine config)
    (P := fun actions _ => .stopped ∈ actions → stage actions ≠ .fresh)
    (fun there => absurd there List.not_mem_nil) ?_ run
  intro before s a t ran earlier taken there next
  rw [stage_snoc] at next
  obtain ⟨fresh,_⟩ := Stage.fresh_of_after next
  rcases List.mem_append.mp there with there | there
  · exact earlier there fresh
  · obtain rfl := List.mem_singleton.mp there
    have flags := (reachable_flags (Transition.Machine.exec_reachable .start _ ran)).1
    have stepped : CoreStep s .stopped t := step_cases taken
    have awaiting : s.pc = .awaiting := by
      cases stepped with
      | stopped pc | stopFails pc => exact pc
    rw [Flags,awaiting] at flags
    rcases run_staged ran with staged | ⟨restarted,_⟩
    · rw [fresh] at staged
      exact absurd (flags.1.symm.trans staged.1) (by simp)
    · exact absurd (fresh.symm.trans restarted) (by simp)

theorem stop_of_fresh {actions : List CoreAction} (there : .stop ∈ actions)
    (fresh : stage actions = .fresh) : (calls actions).head? = some .stop := by
  obtain ⟨_,absent⟩ := Stage.fresh_of_after fresh
  have called : CoreCall.stop ∈ calls actions := List.mem_filterMap.mpr ⟨.stop,there,rfl⟩
  cases first : calls actions with
  | nil =>
    rw [first] at called
    contradiction
  | cons call rest =>
    cases call with
    | start => exact absurd (first ▸ List.mem_cons_self) absent
    | stop => rfl

theorem no_restart {ended : CoreAction} {actions : List CoreAction}
    (run : (machine config).exec (create config) actions = some c) (between : c.pc.ready = true)
    (along : (machine config).Along (Consistent ended) actions) :
    ¬[CoreCall.start,.stop,.start].Sublist (calls actions) := by
  intro restarts
  have restarted : stage actions = .restarted := (Stage.restarted_iff .fresh _).mpr restarts
  rcases run_staged run with staged | ⟨_,before,after,s,split,ran,ready,running,halted⟩
  · rw [restarted] at staged
    rcases staged.between between with ⟨other,_⟩ | ⟨other,_⟩ | ⟨other,_⟩ <;> contradiction
  · obtain ⟨_,up,_⟩ := (along before after s split ran).up ready running
    exact absurd (halted.symm.trans up) (by simp)

theorem no_early_stop {actions : List CoreAction}
    (run : (machine config).exec (create config) actions = some c)
    (along : (machine config).Along (Consistent .stop) actions) :
    (calls actions).head? ≠ some .stop := by
  intro first
  obtain ⟨rest,first⟩ := List.head?_eq_some_iff.mp first
  obtain ⟨before,a,after,rfl,none,here,_⟩ := List.filterMap_eq_cons_iff.mp first
  obtain rfl : a = .stop := by cases a <;> simp [CoreAction.call?] at here ⊢
  obtain ⟨u,v,ran,taken,_⟩ := Transition.Machine.exec_split run
  have fresh : stage before = .fresh := by
    rw [stage,calls,List.filterMap_eq_nil_iff.mpr none]
    rfl
  have split : before ++ .stop :: after = (before ++ [.stop]) ++ after := by simp
  have consistent := along _ _ v split (Transition.Machine.exec_snoc.mpr ⟨u,ran,taken⟩)
  have staged := (run_staged ran).resolve_right fun ⟨restarted,_⟩ =>
    absurd (fresh.symm.trans restarted) (by simp)
  rw [fresh] at staged
  have stepped : CoreStep u .stop v := step_cases taken
  cases stepped with
  | stopAgain ready down =>
    obtain ⟨_,_,up⟩ | ⟨other,_⟩ | ⟨other,_⟩ := staged.between ready
    · obtain ⟨_,halted,_⟩ := consistent.down rfl (by simp) down
      exact absurd (halted.symm.trans up) (by simp)
    · contradiction
    · contradiction
  | stop ready running => exact absurd (running.symm.trans staged.1) (by simp)

theorem along_of_begun {ended : CoreAction} {actions : List CoreAction}
    (restarts : ¬[CoreCall.start,.stop,.start].Sublist (calls actions))
    (begun : ∀ before after s, actions = before ++ after →
      (machine config).exec (create config) before = some s → ended ∈ before →
      stage before ≠ .fresh) :
    (machine config).Along (Consistent ended) actions := by
  intro before after s split ran
  have staged := (run_staged ran).resolve_right fun ⟨restarted,_⟩ => by
    have inside := (Stage.restarted_iff .fresh _).mp restarted
    rw [split,calls,List.filterMap_append] at restarts
    exact restarts (inside.trans (List.sublist_append_left _ _))
  exact consistent_of_staged (Transition.Machine.exec_reachable .start before ran) staged
    (begun before after s split ran)

/-- A sequence of calls keeps the flags of the core and of its parts consistent exactly if it
does not start the core again after a `Stop`; where a refused `Stop` counts as one, it must not
begin with it either. -/
theorem lifecycle_consistent_iff {actions : List CoreAction}
    (run : (machine config).exec (create config) actions = some c)
    (between : c.pc.ready = true) :
    ((machine config).Along (Consistent .stopped) actions ↔
      ¬[CoreCall.start,.stop,.start].Sublist (calls actions)) ∧
    ((machine config).Along (Consistent .stop) actions ↔
      ¬[CoreCall.start,.stop,.start].Sublist (calls actions) ∧
        (calls actions).head? ≠ some .stop) := by
  refine ⟨⟨no_restart run between,fun restarts => ?_⟩,
    fun along => ⟨no_restart run between along,no_early_stop run along⟩,
    fun ⟨restarts,first⟩ => ?_⟩
  · exact along_of_begun restarts fun before after s _ ran there => started_of_stopped ran there
  · refine along_of_begun restarts fun before after s split _ there fresh => first ?_
    have begins : (calls before).head? = some .stop := stop_of_fresh there fresh
    rw [split,calls,List.filterMap_append,List.head?_append,← calls,begins]
    rfl

def createdRun : List CoreAction :=
  [.create] ++ List.map (CoreAction.manager ∘ ServerAction.cycle)
    [.list [],.mark,.next,.next,.next,.next] ++
  [.manager (.main .loaded),.created,.manager (.updater .enter),.manager (.updater .test)]

def startedRun : List CoreAction := [.start,.startGrpc,.started]

def stoppedRun : List CoreAction :=
  [.stop,.stopGrpc,.stopManager,.manager (.main .notify)] ++
  List.map (CoreAction.manager ∘ ServerAction.updater) [.wake,.test,.decide] ++
  List.map (CoreAction.manager ∘ ServerAction.main) [.join,.lock,.unlock] ++ [.stopped]

theorem lifecycle_consistent_stopped :
    ∃ c, (machine ⟨true,1⟩).exec (create ⟨true,1⟩)
        (createdRun ++ startedRun ++ stoppedRun) = some c ∧
      c.pc = .returned .stop .success ∧ c.modelManager.running = false ∧
      (machine ⟨true,1⟩).Along (Consistent .stop) (createdRun ++ startedRun ++ stoppedRun) := by
  have seen : ((machine ⟨true,1⟩).exec (create ⟨true,1⟩)
      (createdRun ++ startedRun ++ stoppedRun)).map (fun c => (c.pc,c.modelManager.running)) =
        some (.returned .stop .success,false) := rfl
  obtain ⟨c,run,seen⟩ := Option.map_eq_some_iff.mp seen
  simp only [Prod.mk.injEq] at seen
  obtain ⟨returned,halted⟩ := seen
  refine ⟨c,run,returned,halted,?_⟩
  exact (lifecycle_consistent_iff run (by rw [returned]; rfl)).2.mpr (by decide)

/-- Started again, the core and `GrpcServer` run without models and without a refresh thread. -/
theorem restarted_without_models :
    ∃ c, (machine ⟨true,1⟩).exec (create ⟨true,1⟩)
        (createdRun ++ startedRun ++ stoppedRun ++ startedRun) = some c ∧
      c.pc = .returned .start .success ∧ c.running = true ∧ c.grpcServer.running = true ∧
      c.modelManager.running = false ∧ c.modelManager.updater = .absent ∧
      c.modelManager.modelMap.keys = [] ∧
      ¬(machine ⟨true,1⟩).Along (Consistent .stopped)
        (createdRun ++ startedRun ++ stoppedRun ++ startedRun) := by
  refine ⟨_,rfl,rfl,rfl,rfl,rfl,rfl,rfl,fun along => ?_⟩
  have consistent := along _ [] _ (List.append_nil _).symm rfl
  exact absurd (consistent.up rfl rfl).2.1 (by decide)

end InferenceCore
end InferenceServer
