import InferenceServer.StatusReport
import InferenceServer.SyncHandler

/-! `StatusHandler` and `HealthHandler` on the server: a handler's event thread is the caller of
`GetStatus` or `GetHealth`, and call `s` is the handler's state `s` and the server's caller `s`.
What is sent to a client is what the server was like at a moment of its call. -/
namespace InferenceServer

/-- What a handler's `TakeAction` calls: where the server has the call of `c`, its next line, and
the response that it ends with. -/
structure Service (κ ρ P β : Type) where
  place : Server → Nat → P
  outside : P
  ask : Server → Nat → κ → β → Option Server
  reply? : P → Option ρ
  own : ServerAction → Bool

structure Front (κ ρ : Type) where
  handler : SyncHandler κ ρ
  server : Server

inductive FrontAction (κ ρ β : Type) where
  /-- A step of the event thread outside the call. -/
  | handler (a : SyncAction κ ρ)
  /-- A line of the call that the event thread is in. -/
  | ask (b : β)
  /-- A step of another thread. -/
  | other (a : ServerAction)
  deriving DecidableEq, Repr

namespace Front

variable {κ ρ P β : Type} [Inhabited κ] [Inhabited ρ] [DecidableEq ρ]

def handlerStep (svc : Service κ ρ P β) (front : Front κ ρ) (a : SyncAction κ ρ) :
    Option (Front κ ρ) :=
  match a, front.handler.thread with
  | .answer response, .asking s =>
    if svc.reply? (svc.place front.server s) = some response then
      (front.handler.step (.answer response)).map (⟨·,front.server⟩)
    else none
  | .answer _, _ => none
  | a, _ => (front.handler.step a).map (⟨·,front.server⟩)

def step (svc : Service κ ρ P β) (front : Front κ ρ) : FrontAction κ ρ β → Option (Front κ ρ)
  | .handler a => handlerStep svc front a
  | .ask b =>
    match front.handler.thread with
    | .asking s =>
      (svc.ask front.server s (front.handler.states s).request b).map (⟨front.handler,·⟩)
    | _ => none
  | .other a =>
    if svc.own a then none else (front.server.step a).map (⟨front.handler,·⟩)

def machine (svc : Service κ ρ P β) (config : ServerConfig) :
    Transition.Machine (Front κ ρ) (FrontAction κ ρ β) :=
  ⟨⟨.create,.create config⟩,step svc⟩

inductive FrontStep (svc : Service κ ρ P β) (front : Front κ ρ) :
    FrontAction κ ρ β → Front κ ρ → Prop where
  | handler {a h} : front.handler.step a = some h →
      (∀ response, a = .answer response → ∃ s, front.handler.thread = .asking s ∧
        svc.reply? (svc.place front.server s) = some response) →
      FrontStep svc front (.handler a) ⟨h,front.server⟩
  | ask {s b sv} : front.handler.thread = .asking s →
      svc.ask front.server s (front.handler.states s).request b = some sv →
      FrontStep svc front (.ask b) ⟨front.handler,sv⟩
  | other {a sv} : svc.own a = false → front.server.step a = some sv →
      FrontStep svc front (.other a) ⟨front.handler,sv⟩

variable {svc : Service κ ρ P β} {front front' : Front κ ρ} {config : ServerConfig}

theorem step_cases {a : FrontAction κ ρ β} (taken : step svc front a = some front') :
    FrontStep svc front a front' := by
  cases a with
  | handler a =>
    simp only [step,handlerStep] at taken
    split at taken
    next response s at' =>
      split at taken
      next back =>
        obtain ⟨h,stepped,rfl⟩ := Option.map_eq_some_iff.mp taken
        refine .handler stepped ?_
        rintro _ ⟨⟩
        exact ⟨s,at',back⟩
      · contradiction
    · contradiction
    next b _ notAnswer _ =>
      obtain ⟨h,stepped,rfl⟩ := Option.map_eq_some_iff.mp taken
      exact .handler stepped fun response same => absurd same (notAnswer response)
  | ask b =>
    simp only [step] at taken
    split at taken
    next s at' =>
      obtain ⟨sv,asked,rfl⟩ := Option.map_eq_some_iff.mp taken
      exact .ask at' asked
    · contradiction
  | other a =>
    simp only [step] at taken
    split at taken
    · contradiction
    next others =>
      obtain ⟨sv,stepped,rfl⟩ := Option.map_eq_some_iff.mp taken
      exact .other (by simpa using others) stepped

theorem reachable_handler (reach : (machine svc config).Reachable front) :
    (SyncHandler.machine κ ρ).Reachable front.handler := by
  refine reach.invariant (P := fun front => (SyncHandler.machine κ ρ).Reachable front.handler)
    .start ?_
  intro front a front' _ handler taken
  cases step_cases taken with
  | handler stepped => exact .step handler stepped
  | ask | other => exact handler

/-- A call is moved by its own lines only. -/
structure Sound (svc : Service κ ρ P β) : Prop where
  start : ∀ config c, svc.place (.create config) c = svc.outside
  mine : ∀ {sv c request b sv'}, svc.ask sv c request b = some sv' →
    ∀ d, d ≠ c → svc.place sv' d = svc.place sv d
  others : ∀ {sv a sv'}, svc.own a = false → sv.step a = some sv' →
    ∀ d, svc.place sv' d = svc.place sv d

/-- What is to be known of a call at its place, given the run so far and the request; each line of
the call finds it out. -/
structure Explains (svc : Service κ ρ P β) (config : ServerConfig)
    (fits : List (FrontAction κ ρ β) → Nat → κ → P → Prop) : Prop where
  outside : ∀ actions s request, fits actions s request svc.outside
  extend : ∀ {actions s request place} (a : FrontAction κ ρ β), fits actions s request place →
    fits (actions ++ [a]) s request place
  ask : ∀ {actions front s b sv},
    (machine svc config).exec (machine svc config).start actions = some front →
    front.handler.thread = .asking s →
    fits actions s (front.handler.states s).request (svc.place front.server s) →
    svc.ask front.server s (front.handler.states s).request b = some sv →
    fits (actions ++ [.ask b]) s (front.handler.states s).request (svc.place sv s)

variable {fits : List (FrontAction κ ρ β) → Nat → κ → P → Prop}

/-- The call is the one for the request of the state, and its response is what is sent. -/
structure Kept (svc : Service κ ρ P β) (fits : List (FrontAction κ ρ β) → Nat → κ → P → Prop)
    (actions : List (FrontAction κ ρ β)) (front : Front κ ρ) (s : Nat) : Prop where
  pending : (front.handler.states s).step = .start → svc.place front.server s = svc.outside
  fits : fits actions s (front.handler.states s).request (svc.place front.server s)
  sent : ∀ r ∈ (front.handler.states s).sent, svc.reply? (svc.place front.server s) = some r
  replying : front.handler.thread = .completing s ∨ front.handler.thread = .finishing s →
    svc.reply? (svc.place front.server s) = some (front.handler.states s).response

theorem Kept.same {actions : List (FrontAction κ ρ β)} {s : Nat}
    (explains : Explains svc config fits) (kept : Kept svc fits actions front s)
    (a : FrontAction κ ρ β) {sv : Server} (place : svc.place sv s = svc.place front.server s) :
    Kept svc fits (actions ++ [a]) ⟨front.handler,sv⟩ s where
  pending := place ▸ kept.pending
  fits := place ▸ explains.extend a kept.fits
  sent := place ▸ kept.sent
  replying := place ▸ kept.replying

theorem step_kept {actions : List (FrontAction κ ρ β)} {a : FrontAction κ ρ β}
    (sound : Sound svc) (explains : Explains svc config fits)
    (run : (machine svc config).exec (machine svc config).start actions = some front)
    (kept : ∀ s, Kept svc fits actions front s) (taken : step svc front a = some front') (s : Nat) :
    Kept svc fits (actions ++ [a]) front' s := by
  have handler := reachable_handler (Transition.Machine.exec_reachable .start actions run)
  have mine := kept s
  cases step_cases taken with
  | other others stepped => exact mine.same explains _ (sound.others others stepped s)
  | @ask t b sv at' asked =>
    by_cases same : s = t
    · subst s
      obtain ⟨process,unsent⟩ := SyncHandler.asking_unsent handler at'
      have found := explains.ask run at' mine.fits asked
      refine ⟨fun start => ?_,found,by simp [unsent],fun there => ?_⟩
      · rw [show (front.handler.states t).step = .start from start] at process
        contradiction
      · rw [show front.handler.thread = .asking t from at'] at there
        simp at there
    · exact mine.same explains _ (sound.mine asked s same)
  | @handler a h stepped answered =>
    have does := SyncHandler.step_does handler stepped s
    refine ⟨fun start => mine.pending (does.start start),?_,fun r member => ?_,fun there => ?_⟩
    · rcases does.request with same | ⟨start,_⟩
      · rw [same]
        exact explains.extend _ mine.fits
      · rw [mine.pending start]
        exact explains.outside _ _ _
    · rcases does.sent r member with old | ⟨at',rfl⟩
      · exact mine.sent r old
      · exact mine.replying (.inr at')
    · obtain ⟨_,⟨is,at'⟩ | ⟨at',response⟩⟩ := does.replying there
      · obtain ⟨t,there,back⟩ := answered _ is
        obtain rfl : s = t := by simpa [at'] using there
        exact back
      · rw [response]
        exact mine.replying (.inl at')

/-- What was sent for a request is the response of its call. -/
theorem sent_explained {actions : List (FrontAction κ ρ β)} (sound : Sound svc)
    (explains : Explains svc config fits)
    (run : (machine svc config).exec (machine svc config).start actions = some front) {s : Nat}
    {r : ρ} (member : r ∈ (front.handler.states s).sent) :
    ∃ place, svc.reply? place = some r ∧
      fits actions s (front.handler.states s).request place := by
  have initial (s : Nat) : Kept svc fits [] (machine svc config).start s := by
    have outside : svc.place (machine svc config).start.server s = svc.outside :=
      sound.start config s
    refine ⟨fun _ => outside,outside ▸ explains.outside _ _ _,?_,?_⟩
    · simp [machine,SyncHandler.create,SyncHandler.reset]
    · simp [machine,SyncHandler.create]
  have kept := Transition.Machine.exec_invariant (m := machine svc config)
    (P := fun actions front => ∀ s, Kept svc fits actions front s) initial
    (fun _ _ _ _ before kept taken => step_kept sound explains before kept taken) run s
  exact ⟨_,kept.sent r member,kept.fits⟩

/-- In the moment the call of `s` took its line at a place, with the mutex free for it. -/
def Passed (svc : Service κ ρ P β) (config : ServerConfig) (actions : List (FrontAction κ ρ β))
    (s : Nat) (place : P) (moment : Server) : Prop :=
  ∃ before b after handler, actions = before ++ .ask b :: after ∧
    (machine svc config).exec (machine svc config).start before = some ⟨handler,moment⟩ ∧
    handler.thread = .asking s ∧ svc.place moment s = place ∧ moment.modelMapMu = none

theorem Passed.extend {actions : List (FrontAction κ ρ β)} {s : Nat} {place : P} {moment : Server}
    (passed : Passed svc config actions s place moment) (a : FrontAction κ ρ β) :
    Passed svc config (actions ++ [a]) s place moment := by
  obtain ⟨before,b,after,handler,rfl,run,there⟩ := passed
  exact ⟨before,b,after ++ [a],handler,List.append_assoc ..,run,there⟩

end Front

namespace Server

variable {sv sv' : Server}

inductive HealthStep (sv : Server) (c : Nat) : HealthAction → HealthPc → Prop where
  | live : sv.healths c = .outside → HealthStep sv c (.call "live") (.returned ⟨true,.success⟩)
  | ready : sv.healths c = .outside → HealthStep sv c (.call "ready") .counting
  | unsupported {mode} : sv.healths c = .outside → mode ≠ "live" → mode ≠ "ready" →
      HealthStep sv c (.call mode) (.returned ⟨false,.unsupported⟩)
  | count : sv.healths c = .counting → sv.modelMapMu = none →
      HealthStep sv c .count (.returned ⟨0 < getNumberOfLiveModels sv.modelMap,.success⟩)

theorem healthStep_cases {c : Nat} {a : HealthAction} (taken : sv.healthStep c a = some sv') :
    ∃ pc, HealthStep sv c a pc ∧ sv' = { sv with healths := Function.update sv.healths c pc } := by
  cases a with
  | call mode =>
    simp only [healthStep] at taken
    split at taken
    next pc =>
      cases taken
      refine ⟨_,?_,rfl⟩
      split
      next live => exact live ▸ .live pc
      next notLive =>
        split
        next ready => exact ready ▸ .ready pc
        next notReady => exact .unsupported pc notLive notReady
    · contradiction
  | count =>
    simp only [healthStep] at taken
    split at taken
    next pc =>
      split at taken
      next free => cases taken; exact ⟨_,.count pc free,rfl⟩
      · contradiction
    · contradiction

/-- Only the client's own steps move it in `GetHealth`. -/
theorem step_healths {a : ServerAction} {c : Nat} (taken : sv.step a = some sv')
    (other : ∀ b, a ≠ .health c b) : sv'.healths c = sv.healths c := by
  cases a with
  | health d b =>
    obtain ⟨pc,_,rfl⟩ := healthStep_cases taken
    exact Function.update_of_ne (fun same => other b (by rw [same])) _ _
  | caller d a =>
    obtain ⟨_,_,_,rfl⟩ := caller_frame (callerStep_cases taken)
    rfl
  | status d a =>
    obtain ⟨_,rfl⟩ := status_frame taken
    rfl
  | worker k w a =>
    obtain ⟨_,_,rfl⟩ := worker_frame (workerStep_effect taken)
    rfl
  | cycle a => exact congrFun (cycle_frame (cycleStep_cases taken)).2.2.2.2.2.2.2.2 c
  | main a =>
    cases mainStep_cases taken with
    | tearing _ step | torn _ step =>
      obtain ⟨_,_,_,rfl⟩ := teardown_frame step
      rfl
    | _ => rfl
  | updater a => cases updaterStep_cases taken <;> rfl

end Server

structure HealthRequest where
  mode : String
  deriving DecidableEq, Repr

instance : Inhabited HealthRequest := ⟨⟨""⟩⟩

instance : Inhabited HealthResponse := ⟨⟨false,.invalid⟩⟩

instance : Inhabited StatusRequest := ⟨⟨""⟩⟩

instance : Inhabited StatusResponse := ⟨⟨[],.serverInvalid,.invalid⟩⟩

def healthService : Service HealthRequest HealthResponse HealthPc Unit where
  place sv c := sv.healths c
  outside := .outside
  ask sv c request _ :=
    match sv.healths c with
    | .outside => sv.healthStep c (.call request.mode)
    | _ => sv.healthStep c .count
  reply?
    | .returned response => some response
    | _ => none
  own
    | .health _ _ => true
    | _ => false

def statusService : Service StatusRequest StatusResponse StatusPc StatusAction where
  place sv c := sv.statuses c
  outside := .outside
  ask sv c _ b := sv.statusStep c b
  reply?
    | .returned response => some response
    | _ => none
  own
    | .status _ _ => true
    | _ => false

namespace Front

variable {config : ServerConfig}

def HealthTold (config : ServerConfig)
    (actions : List (FrontAction HealthRequest HealthResponse Unit)) (s : Nat)
    (request : HealthRequest) (response : HealthResponse) : Prop :=
  if request.mode = "live" then response = ⟨true,.success⟩
  else if request.mode = "ready" then ∃ moment, Passed healthService config actions s .counting moment ∧
    response = ⟨0 < getNumberOfLiveModels moment.modelMap,.success⟩
  else response = ⟨false,.unsupported⟩

def healthFits (config : ServerConfig)
    (actions : List (FrontAction HealthRequest HealthResponse Unit)) (s : Nat)
    (request : HealthRequest) : HealthPc → Prop
  | .outside => True
  | .counting => request.mode = "ready"
  | .returned response => HealthTold config actions s request response

theorem HealthTold.extend {actions : List (FrontAction HealthRequest HealthResponse Unit)} {s : Nat}
    {request : HealthRequest} {response : HealthResponse}
    (told : HealthTold config actions s request response)
    (a : FrontAction HealthRequest HealthResponse Unit) :
    HealthTold config (actions ++ [a]) s request response := by
  unfold HealthTold at told ⊢
  split
  next live => rwa [if_pos live] at told
  next other =>
    rw [if_neg other] at told
    split
    next ready =>
      rw [if_pos ready] at told
      obtain ⟨moment,counted,is⟩ := told
      exact ⟨moment,counted.extend a,is⟩
    next neither => rwa [if_neg neither] at told

theorem ask_health {sv sv' : Server} {c : Nat} {request : HealthRequest} {b : Unit}
    (asked : healthService.ask sv c request b = some sv') :
    ∃ a pc, Server.HealthStep sv c a pc ∧ (∀ mode, a = .call mode → mode = request.mode) ∧
      sv' = { sv with healths := Function.update sv.healths c pc } := by
  simp only [healthService] at asked
  split at asked
  · obtain ⟨pc,stepped,rfl⟩ := Server.healthStep_cases asked
    refine ⟨_,pc,stepped,?_,rfl⟩
    rintro _ ⟨⟩
    rfl
  · obtain ⟨pc,stepped,rfl⟩ := Server.healthStep_cases asked
    exact ⟨_,pc,stepped,by simp,rfl⟩

theorem health_sound : Sound healthService where
  start _ _ := rfl
  mine := by
    intro sv c request b sv' asked d other
    obtain ⟨_,_,_,_,rfl⟩ := ask_health asked
    exact Function.update_of_ne other _ _
  others := by
    intro sv a sv' others stepped d
    refine Server.step_healths stepped fun b same => ?_
    rw [same] at others
    contradiction

theorem health_explains : Explains healthService config (healthFits config) where
  outside _ _ _ := trivial
  extend := by
    intro actions s request place a fits
    cases place with
    | outside => trivial
    | counting => exact fits
    | returned response => exact HealthTold.extend fits a
  ask := by
    intro actions front s b sv run at' fits asked
    obtain ⟨a,pc,stepped,same,rfl⟩ := ask_health asked
    simp only [healthService,Function.update_self]
    cases stepped with
    | live => simp [healthFits,HealthTold,← same _ rfl]
    | ready => exact (same _ rfl).symm
    | unsupported _ notLive notReady =>
      rw [same _ rfl] at notLive notReady
      simp [healthFits,HealthTold,notLive,notReady]
    | count counting free =>
      have ready : (front.handler.states s).request.mode = "ready" := by
        have known : healthFits config actions s (front.handler.states s).request
          (front.server.healths s) := fits
        rwa [counting] at known
      have moment :
          Passed healthService config (actions ++ [.ask b]) s .counting front.server :=
        ⟨actions,b,[],front.handler,rfl,run,at',counting,free⟩
      simp only [healthFits,HealthTold,ready]
      exact ⟨front.server,moment,rfl⟩

end Front

/-- `HealthClient::MakeHealthRequest` for one mode; no response is a call that failed or timed
out. -/
def makeHealthRequest (stub : HealthRequest → Option HealthResponse) (mode : String) : Bool :=
  match stub ⟨mode⟩ with
  | none => false
  | some response => if response.code ≠ .success then false else response.health

def probeReadiness (stub : HealthRequest → Option HealthResponse) : Bool :=
  makeHealthRequest stub "ready"

def probeLiveness (stub : HealthRequest → Option HealthResponse) : Bool :=
  makeHealthRequest stub "live"

namespace Front

variable {config : ServerConfig} {front : Front HealthRequest HealthResponse}

def Serves (front : Front HealthRequest HealthResponse) (s : Nat)
    (stub : HealthRequest → Option HealthResponse) : Prop :=
  ∀ response, stub (front.handler.states s).request = some response →
    response ∈ (front.handler.states s).sent

/-- A client that gets its answer is told that the server lives, and that it is ready exactly if a
model was in the map at the moment of its call at which `GetHealth` had the mutex; any other mode
fails. -/
theorem probes_truthful {actions : List (FrontAction HealthRequest HealthResponse Unit)}
    (run : (machine healthService config).exec (machine healthService config).start actions =
      some front) (s : Nat) (stub : HealthRequest → Option HealthResponse)
    (serves : Serves front s stub) (answered : stub (front.handler.states s).request ≠ none) :
    ((front.handler.states s).request.mode = "live" → probeLiveness stub = true) ∧
    ((front.handler.states s).request.mode = "ready" → ∃ moment,
      Passed healthService config actions s .counting moment ∧
        (probeReadiness stub = true ↔ moment.modelMap.entries ≠ [])) ∧
    ∀ mode, (front.handler.states s).request.mode = mode → mode ≠ "live" → mode ≠ "ready" →
      makeHealthRequest stub mode = false := by
  obtain ⟨response,got⟩ := Option.ne_none_iff_exists'.mp answered
  obtain ⟨place,back,fits⟩ := sent_explained health_sound health_explains run (serves _ got)
  have told : HealthTold config actions s (front.handler.states s).request response := by
    cases place <;> cases back
    exact fits
  have here {mode : String} (same : (front.handler.states s).request.mode = mode) :
      stub ⟨mode⟩ = some response := by rw [← same]; exact got
  refine ⟨fun live => ?_,fun ready => ?_,fun mode same notLive notReady => ?_⟩
  · rw [HealthTold,if_pos live] at told
    simp [probeLiveness,makeHealthRequest,here live,told]
  · rw [HealthTold,if_neg (by simp [ready]),if_pos ready] at told
    obtain ⟨moment,counted,is⟩ := told
    refine ⟨moment,counted,?_⟩
    simp [probeReadiness,makeHealthRequest,here ready,is,getNumberOfLiveModels,List.length_pos_iff]
  · rw [HealthTold,if_neg (by simpa [same] using notLive),
      if_neg (by simpa [same] using notReady)] at told
    simp [makeHealthRequest,here same,told]

def arrivalRun {κ ρ β : Type} (request : κ) : List (FrontAction κ ρ β) :=
  List.map FrontAction.handler [.startNewRequest,.next ⟨0,true,false⟩ request,.judge,.testStart,
    .startNewRequest,.setProcess]

def probedRun : List (FrontAction HealthRequest HealthResponse Unit) :=
  arrivalRun ⟨"ready"⟩ ++ [.ask ()] ++ List.map FrontAction.other (Server.startRun "m" 1) ++ [.ask ()] ++
  List.map FrontAction.handler [.answer ⟨true,.success⟩,.setFinish,.finish]

theorem probes_truthful_ready : ∃ moment,
    Passed healthService ⟨false,4⟩ probedRun 0 .counting moment ∧
    (probeReadiness (fun _ => some ⟨true,.success⟩) = true ↔ moment.modelMap.entries ≠ []) := by
  obtain ⟨front,run,seen⟩ := Option.map_eq_some_iff.mp (show
    ((machine healthService ⟨false,4⟩).exec (machine healthService ⟨false,4⟩).start probedRun).map
      (fun front => ((front.handler.states 0).sent,(front.handler.states 0).request)) =
      some ([⟨true,.success⟩],⟨"ready"⟩) from rfl)
  simp only [Prod.mk.injEq] at seen
  refine (probes_truthful run 0 (fun _ => some ⟨true,.success⟩) ?_ (by simp)).2.1 (by simp [seen.2])
  rintro _ ⟨⟩
  simp [seen.1]

/-- What a report says, and of which two sections of its call. -/
def StatusTold (config : ServerConfig)
    (actions : List (FrontAction StatusRequest StatusResponse StatusAction)) (s : Nat)
    (response : StatusResponse) (first second : Server) : Prop :=
  ∃ before b after handler, actions = before ++ .ask b :: after ∧
    (machine statusService config).exec (machine statusService config).start before =
      some ⟨handler,second⟩ ∧
    Passed statusService config before s .collecting first ∧
    getModelStatus first.modelMap = some response.modelStatus ∧
    handler.thread = .asking s ∧ second.statuses s = .counting response.modelStatus ∧
    second.modelMapMu = none ∧ response.readyState = readyState second.modelMap ∧
    response.code = .success

def statusFits (config : ServerConfig)
    (actions : List (FrontAction StatusRequest StatusResponse StatusAction)) (s : Nat)
    (_ : StatusRequest) : StatusPc → Prop
  | .outside | .collecting => True
  | .counting listed => ∃ first, Passed statusService config actions s .collecting first ∧
      getModelStatus first.modelMap = some listed
  | .returned response => ∃ first second, StatusTold config actions s response first second

theorem StatusTold.extend {actions : List (FrontAction StatusRequest StatusResponse StatusAction)}
    {s : Nat} {response : StatusResponse} {first second : Server}
    (told : StatusTold config actions s response first second)
    (a : FrontAction StatusRequest StatusResponse StatusAction) :
    StatusTold config (actions ++ [a]) s response first second := by
  obtain ⟨before,b,after,handler,rfl,run,there⟩ := told
  exact ⟨before,b,after ++ [a],handler,List.append_assoc ..,run,there⟩

theorem status_sound : Sound statusService where
  start _ _ := rfl
  mine := by
    intro sv c request b sv' asked d other
    obtain ⟨_,_,rfl⟩ := Server.statusStep_cases asked
    exact Function.update_of_ne other _ _
  others := by
    intro sv a sv' others stepped d
    refine Server.step_statuses stepped fun b same => ?_
    rw [same] at others
    contradiction

theorem status_explains : Explains statusService config (statusFits config) where
  outside _ _ _ := trivial
  extend := by
    intro actions s request place a fits
    cases place with
    | outside | collecting => trivial
    | counting listed =>
      obtain ⟨first,passed,listed⟩ := fits
      exact ⟨first,passed.extend a,listed⟩
    | returned response =>
      obtain ⟨first,second,told⟩ := fits
      exact ⟨first,second,told.extend a⟩
  ask := by
    intro actions front s b sv run at' fits asked
    obtain ⟨pc,stepped,rfl⟩ := Server.statusStep_cases asked
    simp only [statusService,Function.update_self]
    cases stepped with
    | call => trivial
    | @collect listed here free there =>
      exact ⟨front.server,⟨actions,_,[],front.handler,rfl,run,at',here,free⟩,there⟩
    | @count listed here free =>
      have known : statusFits config actions s (front.handler.states s).request
        (front.server.statuses s) := fits
      rw [here] at known
      obtain ⟨first,passed,there⟩ := known
      exact ⟨first,front.server,actions,_,[],front.handler,rfl,run,passed,there,at',here,free,rfl,
        rfl⟩

/-- What a client of `Status` gets lists the models of the map at one moment of its call and has
the readiness of the map at a later one; `ModelReady` is true exactly if that later map has some
model. -/
theorem reports_truthful {front : Front StatusRequest StatusResponse}
    {actions : List (FrontAction StatusRequest StatusResponse StatusAction)}
    (run : (machine statusService config).exec (machine statusService config).start actions =
      some front) (s : Nat) (response : StatusResponse)
    (sent : response ∈ (front.handler.states s).sent) :
    ∃ first second, StatusTold config actions s response first second ∧
      ∀ name, modelReady (fun _ => some response) name = true ↔ second.modelMap.entries ≠ [] := by
  obtain ⟨place,back,fits⟩ := sent_explained status_sound status_explains run sent
  obtain ⟨first,second,told⟩ : ∃ first second, StatusTold config actions s response first second := by
    cases place <;> cases back
    exact fits
  refine ⟨first,second,told,fun name => ?_⟩
  obtain ⟨_,_,_,_,_,_,_,_,_,_,_,ready,success⟩ := told
  rw [← readyState_iff,← ready]
  simp [modelReady,success]

def reportedRun : List (FrontAction StatusRequest StatusResponse StatusAction) :=
  arrivalRun ⟨"m"⟩ ++ [.ask .call,.ask .collect] ++
  List.map FrontAction.other (Server.startRun "m" 1) ++ [.ask .count] ++
  List.map FrontAction.handler [.answer ⟨[],.serverReady,.success⟩,.setFinish,.finish]

theorem reports_truthful_between : ∃ first second,
    StatusTold ⟨false,4⟩ reportedRun 0 ⟨[],.serverReady,.success⟩ first second ∧
    second.modelMap.entries ≠ [] := by
  obtain ⟨front,run,seen⟩ := Option.map_eq_some_iff.mp (show
    ((machine statusService ⟨false,4⟩).exec (machine statusService ⟨false,4⟩).start
      reportedRun).map (fun front => (front.handler.states 0).sent) =
      some [⟨[],.serverReady,.success⟩] from rfl)
  obtain ⟨first,second,told,ready⟩ := reports_truthful run 0 ⟨[],.serverReady,.success⟩ (by simp [seen])
  exact ⟨first,second,told,(ready "m").mp rfl⟩

end Front
end InferenceServer
