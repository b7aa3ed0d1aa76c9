import InferenceServer.ModelMap

/-! One call of `LoadModels` against a repository that does not change meanwhile: three
lists computed from the map and then three loops that apply them, name by name. -/
namespace InferenceServer

/-- The model repository: its subdirectories, what their configuration files parse to, and
the listings of the model directories. -/
structure Repository where
  subDirs : List String
  config : String → Option ModelConfig
  versionDirs : String → List String
  nodup : subDirs.Nodup

/-- What `LoadModels` changes. `inferFuncs` tells the backend each scheduler is bound to. -/
structure Registry where
  modelMap : ModelMap
  inferFuncs : Nat → Nat
  nextScheduler : Nat
  nextBackend : Nat

inductive Report where
  | added (modelName : String)
  | rejected (modelName : String)
  | updated (modelName : String)
  | doesNotExist (modelName : String)
  | failToLoad (modelName : String)
  | deleted (modelName : String)
  | alreadyGone (modelName : String)
  deriving DecidableEq, Repr

namespace Repository

/-- The version found for a subdirectory; `none` where the loop goes on to the next one. -/
def version? (repo : Repository) (name : String) : Option Int :=
  match repo.config name with
  | none => none
  | some _ =>
    if getHighestVersion (repo.versionDirs name) = -1 then none
    else some (getHighestVersion (repo.versionDirs name))

def loads (repo : Repository) (name : String) (version : Int) : Bool :=
  (loadModel ⟨name,version⟩ (repo.config name) 0).isSome

/-- The second loop of `GetModelStateUpdate`. -/
def scan (repo : Repository) (map : ModelMap) : List String → StateUpdate → Option StateUpdate
  | [], lists => some lists
  | name :: rest, lists =>
    match repo.version? name with
    | none => repo.scan map rest lists
    | some version => (classify map name version).bind fun change =>
        repo.scan map rest (lists.record ⟨name,version⟩ change)

def getModelStateUpdate (repo : Repository) (map : ModelMap) : Option StateUpdate :=
  repo.scan map repo.subDirs ⟨[],[],deletedModels map repo.subDirs⟩

end Repository

namespace Registry

def construct (reg : Registry) (b : Nat) : Registry :=
  { reg with
    inferFuncs := Function.update reg.inferFuncs reg.nextScheduler b
    nextScheduler := reg.nextScheduler + 1 }

/-- `model_map_.insert`, which leaves an entry that is there as it is. -/
def insert (reg : Registry) (name : String) (context : ModelRunContext) : Registry × Report :=
  if name ∈ reg.modelMap then (reg,.rejected name)
  else ({ reg with modelMap := reg.modelMap.insert name context },.added name)

/-- `UpdateBackendInferFunc` and the swap of `backend_info_`. -/
def install (reg : Registry) (name : String) (info : BackendInfo) : Registry × Report :=
  match reg.modelMap.lookup name, info.backend with
  | some context, some b =>
    ({ reg with
      inferFuncs := Function.update reg.inferFuncs context.scheduler b
      modelMap := reg.modelMap.insert name { context with backendInfo := info } },.updated name)
  | _, _ => (reg,.doesNotExist name)

/-- The body of the first loop of `LoadModels`. -/
def add (repo : Repository) (reg : Registry) (load : ModelLoadInfo) : Registry × Report :=
  match loadModel load (repo.config load.modelName) reg.nextBackend with
  | none => (reg,.failToLoad load.modelName)
  | some (info,_) =>
    ({ reg with nextBackend := reg.nextBackend + 1 }.construct reg.nextBackend).insert
      load.modelName ⟨reg.nextScheduler,some info⟩

def update (repo : Repository) (reg : Registry) (load : ModelLoadInfo) : Registry × Report :=
  match loadModel load (repo.config load.modelName) reg.nextBackend with
  | none => (reg,.failToLoad load.modelName)
  | some (info,_) =>
    { reg with nextBackend := reg.nextBackend + 1 }.install load.modelName info

def delete (reg : Registry) (name : String) : Registry × Report :=
  match reg.modelMap.lookup name with
  | none => (reg,.alreadyGone name)
  | some _ => ({ reg with modelMap := reg.modelMap.erase name },.deleted name)

def each {α : Type} (body : Registry → α → Registry × Report) :
    List α → Registry → Registry × List Report
  | [], reg => (reg,[])
  | x :: rest, reg =>
    let (reg₁,report) := body reg x
    let (reg₂,reports) := each body rest reg₁
    (reg₂,report :: reports)

def deletes (reg : Registry) (deleted : List String) : Registry × List Report :=
  each delete deleted reg

def updates (repo : Repository) (reg : Registry) (lists : StateUpdate) :
    Registry × List Report :=
  let (reg₁,updated) := each (update repo) lists.updated reg
  let (reg₂,deleted) := reg₁.deletes lists.deleted
  (reg₂,updated ++ deleted)

def adds (repo : Repository) (reg : Registry) (lists : StateUpdate) : Registry × List Report :=
  let (reg₁,added) := each (add repo) lists.added reg
  let (reg₂,rest) := reg₁.updates repo lists
  (reg₂,added ++ rest)

def loadModels (repo : Repository) (reg : Registry) : Option (Registry × List Report) :=
  (repo.getModelStateUpdate reg.modelMap).map (reg.adds repo)

theorem adds_cons (repo : Repository) (reg : Registry) (load : ModelLoadInfo)
    (rest updated : List ModelLoadInfo) (deleted : List String) :
    (reg.adds repo ⟨load :: rest,updated,deleted⟩).1 =
      ((reg.add repo load).1.adds repo ⟨rest,updated,deleted⟩).1 := rfl

theorem updates_cons (repo : Repository) (reg : Registry) (load : ModelLoadInfo)
    (added rest : List ModelLoadInfo) (deleted : List String) :
    (reg.updates repo ⟨added,load :: rest,deleted⟩).1 =
      ((reg.update repo load).1.updates repo ⟨added,rest,deleted⟩).1 := rfl

theorem deletes_cons (reg : Registry) (name : String) (rest : List String) :
    (reg.deletes (name :: rest)).1 = ((reg.delete name).1.deletes rest).1 := rfl

structure Valid (reg : Registry) : Prop where
  owned : ∀ name context, reg.modelMap.lookup name = some context →
    context.backendInfo.isSome = true
  distinct : ∀ name name' context context', reg.modelMap.lookup name = some context →
    reg.modelMap.lookup name' = some context' → context.scheduler = context'.scheduler →
    name = name'
  inRange : ∀ name context, reg.modelMap.lookup name = some context →
    context.scheduler < reg.nextScheduler

def entry (reg : Registry) (name : String) : Option (ModelRunContext × Nat) :=
  (reg.modelMap.lookup name).map fun context => (context,reg.inferFuncs context.scheduler)

theorem entry_none {reg : Registry} {name : String} :
    reg.entry name = none ↔ reg.modelMap.lookup name = none := by
  simp [entry]

structure Local (reg reg' : Registry) (name : String) : Prop where
  valid : reg'.Valid
  others : ∀ other, other ≠ name → reg'.entry other = reg.entry other
  schedulers : reg.nextScheduler ≤ reg'.nextScheduler
  backends : reg.nextBackend ≤ reg'.nextBackend

theorem Valid.sameMap {reg reg' : Registry} (valid : reg.Valid) (map : reg'.modelMap = reg.modelMap)
    (more : reg.nextScheduler ≤ reg'.nextScheduler) : reg'.Valid :=
  ⟨by rw [map]; exact valid.owned,by rw [map]; exact valid.distinct,fun name context present =>
    Nat.lt_of_lt_of_le (valid.inRange name context (by rwa [map] at present)) more⟩

theorem construct_entry {reg : Registry} (valid : reg.Valid) (b : Nat) (name : String) :
    (reg.construct b).entry name = reg.entry name := by
  simp only [entry,construct]
  cases present : reg.modelMap.lookup name with
  | none => rfl
  | some context =>
    have below := valid.inRange name context present
    simp [Function.update_of_ne (Nat.ne_of_lt below)]

theorem insert_local {reg : Registry} (valid : reg.Valid) (name : String)
    {context : ModelRunContext} (owned : context.backendInfo.isSome = true)
    (below : context.scheduler < reg.nextScheduler)
    (own : ∀ other c, reg.modelMap.lookup other = some c → c.scheduler ≠ context.scheduler) :
    Local reg (reg.insert name context).1 name := by
  unfold insert
  split
  · exact ⟨valid,fun _ _ => rfl,le_rfl,le_rfl⟩
  · have cases {other : String} {c : ModelRunContext}
        (present : (reg.modelMap.insert name context).lookup other = some c) :
        other = name ∧ c = context ∨ reg.modelMap.lookup other = some c := by
      by_cases same : other = name
      · subst other
        rw [AList.lookup_insert] at present
        exact .inl ⟨rfl,(Option.some.inj present).symm⟩
      · exact .inr (by rwa [AList.lookup_insert_ne same] at present)
    refine ⟨⟨?_,?_,?_⟩,?_,le_rfl,le_rfl⟩
    · intro other c present
      rcases cases present with ⟨_,rfl⟩ | old
      · exact owned
      · exact valid.owned other c old
    · intro other other' c c' present present' same
      rcases cases present with ⟨rfl,rfl⟩ | old <;> rcases cases present' with ⟨rfl,rfl⟩ | old'
      · rfl
      · exact absurd same.symm (own other' c' old')
      · exact absurd same (own other c old)
      · exact valid.distinct other other' c c' old old' same
    · intro other c present
      rcases cases present with ⟨_,rfl⟩ | old
      · exact below
      · exact valid.inRange other c old
    · intro other apart
      simp only [entry]
      rw [AList.lookup_insert_ne apart]

theorem add_local (repo : Repository) {reg : Registry} (valid : reg.Valid) (load : ModelLoadInfo) :
    Local reg (reg.add repo load).1 load.modelName := by
  unfold add
  split
  · exact ⟨valid,fun _ _ => rfl,le_rfl,le_rfl⟩
  next info _ _ =>
    have bound : ({ reg with nextBackend := reg.nextBackend + 1 } : Registry).Valid :=
      valid.sameMap rfl le_rfl
    have built : (({ reg with nextBackend := reg.nextBackend + 1 } : Registry).construct
        reg.nextBackend).Valid := bound.sameMap rfl (Nat.le_succ _)
    have inserted := insert_local built load.modelName
      (show (⟨reg.nextScheduler,some info⟩ : ModelRunContext).backendInfo.isSome from rfl)
      (Nat.lt_succ_self _)
      (fun other c present => Nat.ne_of_lt (valid.inRange other c present))
    refine ⟨inserted.valid,fun other apart => ?_,?_,?_⟩
    · rw [inserted.others other apart,construct_entry bound]
      rfl
    · exact Nat.le_trans (Nat.le_succ _) inserted.schedulers
    · exact Nat.le_trans (Nat.le_succ _) inserted.backends

theorem add_entry (repo : Repository) {reg : Registry} {load : ModelLoadInfo}
    (absent : reg.entry load.modelName = none) :
    match loadModel load (repo.config load.modelName) reg.nextBackend with
    | none => reg.add repo load = (reg,.failToLoad load.modelName)
    | some (info,_) => (reg.add repo load).2 = .added load.modelName ∧
        (reg.add repo load).1.entry load.modelName =
          some (⟨reg.nextScheduler,some info⟩,reg.nextBackend) := by
  have missing : load.modelName ∉ reg.modelMap := by
    rw [← AList.lookup_eq_none]
    exact entry_none.mp absent
  unfold add
  split
  · rfl
  · simp [insert,construct,missing,entry]

theorem update_local (repo : Repository) {reg : Registry} (valid : reg.Valid)
    (load : ModelLoadInfo) : Local reg (reg.update repo load).1 load.modelName := by
  have still : Local reg { reg with nextBackend := reg.nextBackend + 1 } load.modelName :=
    ⟨valid.sameMap rfl le_rfl,fun _ _ => rfl,le_rfl,Nat.le_succ _⟩
  unfold update
  split
  · exact ⟨valid,fun _ _ => rfl,le_rfl,le_rfl⟩
  next info _ _ =>
    unfold install
    split
    next context b present _ =>
      have there : reg.modelMap.lookup load.modelName = some context := present
      have cases {other : String} {c : ModelRunContext} (found : (reg.modelMap.insert load.modelName
          { context with backendInfo := some info }).lookup other = some c) :
          ∃ old, reg.modelMap.lookup other = some old ∧ c.scheduler = old.scheduler ∧
            (c = { context with backendInfo := some info } ∨ c = old) := by
        by_cases same : other = load.modelName
        · subst other
          rw [AList.lookup_insert] at found
          obtain rfl := Option.some.inj found
          exact ⟨context,there,rfl,.inl rfl⟩
        · rw [AList.lookup_insert_ne same] at found
          exact ⟨c,found,rfl,.inr rfl⟩
      refine ⟨⟨?_,?_,?_⟩,?_,le_rfl,Nat.le_succ _⟩
      · intro other c found
        obtain ⟨old,was,_,rfl | rfl⟩ := cases found
        · rfl
        · exact valid.owned other c was
      · intro other other' c c' found found' same
        obtain ⟨old,was,scheduler,_⟩ := cases found
        obtain ⟨old',was',scheduler',_⟩ := cases found'
        exact valid.distinct other other' old old' was was' (by rw [← scheduler,← scheduler',same])
      · intro other c found
        obtain ⟨old,was,scheduler,_⟩ := cases found
        rw [scheduler]
        exact valid.inRange other old was
      · intro other apart
        simp only [entry]
        rw [AList.lookup_insert_ne apart]
        cases found : reg.modelMap.lookup other with
        | none => rfl
        | some c =>
          have differs : c.scheduler ≠ context.scheduler :=
            fun same => apart (valid.distinct other _ c context found there same)
          simp [Function.update_of_ne differs]
    · exact still

theorem update_entry (repo : Repository) {reg : Registry} {load : ModelLoadInfo}
    {context : ModelRunContext} {f : Nat} (present : reg.entry load.modelName = some (context,f)) :
    match loadModel load (repo.config load.modelName) reg.nextBackend with
    | none => reg.update repo load = (reg,.failToLoad load.modelName)
    | some (info,_) => (reg.update repo load).2 = .updated load.modelName ∧
        (reg.update repo load).1.entry load.modelName =
          some ({ context with backendInfo := some info },reg.nextBackend) := by
  have there : reg.modelMap.lookup load.modelName = some context := by
    obtain ⟨c,found,same⟩ := Option.map_eq_some_iff.mp present
    cases same
    exact found
  unfold update
  split
  · rfl
  next loaded =>
    simp [install,there,(loadModel_some loaded).2.2.1,entry]

theorem delete_local {reg : Registry} (valid : reg.Valid) (name : String) :
    Local reg (reg.delete name).1 name := by
  unfold delete
  split
  · exact ⟨valid,fun _ _ => rfl,le_rfl,le_rfl⟩
  · have old {other : String} {c : ModelRunContext}
        (found : (reg.modelMap.erase name).lookup other = some c) :
        reg.modelMap.lookup other = some c := by
      by_cases same : other = name
      · subst other
        rw [AList.lookup_erase] at found
        contradiction
      · rwa [AList.lookup_erase_ne same] at found
    refine ⟨⟨fun other c found => valid.owned other c (old found),
      fun other other' c c' found found' => valid.distinct other other' c c' (old found) (old found'),
      fun other c found => valid.inRange other c (old found)⟩,fun other apart => ?_,le_rfl,le_rfl⟩
    simp only [entry]
    rw [AList.lookup_erase_ne apart]

theorem delete_entry (reg : Registry) (name : String) : (reg.delete name).1.entry name = none := by
  unfold delete
  split
  next absent => exact entry_none.mpr absent
  · simp [entry]

/-- A loop over names that are all different: the body meets each as it was before the
loop, and what it makes of it stays. -/
structure Looped {α : Type} (body : Registry → α → Registry × Report) (key : α → String)
    (xs : List α) (reg reg' : Registry) (reports : List Report) : Prop where
  valid : reg'.Valid
  schedulers : reg.nextScheduler ≤ reg'.nextScheduler
  backends : reg.nextBackend ≤ reg'.nextBackend
  others : ∀ name, name ∉ xs.map key → reg'.entry name = reg.entry name
  met : ∀ x ∈ xs, ∃ mid : Registry, mid.entry (key x) = reg.entry (key x) ∧
    reg.nextScheduler ≤ mid.nextScheduler ∧ reg.nextBackend ≤ mid.nextBackend ∧
    reg'.entry (key x) = (body mid x).1.entry (key x)
  reported : ∀ r ∈ reports, ∃ x ∈ xs, ∃ mid : Registry, mid.entry (key x) = reg.entry (key x) ∧
    r = (body mid x).2

theorem each_looped {α : Type} {body : Registry → α → Registry × Report} (key : α → String)
    (locally : ∀ reg x, reg.Valid → Local reg (body reg x).1 (key x)) (xs : List α)
    (distinct : (xs.map key).Nodup) {reg : Registry} (valid : reg.Valid) :
    Looped body key xs reg (each body xs reg).1 (each body xs reg).2 := by
  induction xs generalizing reg with
  | nil => exact ⟨valid,le_rfl,le_rfl,fun _ _ => rfl,by simp,by simp [each]⟩
  | cons x rest ih =>
    obtain ⟨fresh,others⟩ := List.nodup_cons.mp distinct
    have first := locally reg x valid
    have tail := ih others first.valid
    have apart {y : α} (member : y ∈ rest) : key y ≠ key x :=
      fun same => fresh (same ▸ List.mem_map_of_mem member)
    refine ⟨tail.valid,Nat.le_trans first.schedulers tail.schedulers,
      Nat.le_trans first.backends tail.backends,?_,?_,?_⟩
    · intro name outside
      simp only [List.map_cons,List.mem_cons,not_or] at outside
      exact (tail.others name outside.2).trans (first.others name outside.1)
    · intro y member
      rcases List.mem_cons.mp member with rfl | later
      · exact ⟨reg,rfl,le_rfl,le_rfl,tail.others (key y) fresh⟩
      · obtain ⟨mid,same,schedulers,backends,result⟩ := tail.met y later
        exact ⟨mid,same.trans (first.others _ (apart later)),
          Nat.le_trans first.schedulers schedulers,Nat.le_trans first.backends backends,result⟩
    · intro r member
      rcases List.mem_cons.mp member with rfl | later
      · exact ⟨x,List.mem_cons_self ..,reg,rfl,rfl⟩
      · obtain ⟨y,isEntry,mid,same,result⟩ := tail.reported r later
        exact ⟨y,List.mem_cons_of_mem x isEntry,mid,same.trans (first.others _ (apart isEntry)),
          result⟩

end Registry

namespace Repository

def addedLoad (repo : Repository) (map : ModelMap) (name : String) : Option ModelLoadInfo :=
  (repo.version? name).bind fun version =>
    if map.lookup name = none then some ⟨name,version⟩ else none

def updatedLoad (repo : Repository) (map : ModelMap) (name : String) : Option ModelLoadInfo :=
  (repo.version? name).bind fun version =>
    if classify map name version = some .updated then some ⟨name,version⟩ else none

theorem addedLoad_some {repo : Repository} {map : ModelMap} {name : String} {load : ModelLoadInfo} :
    repo.addedLoad map name = some load ↔ name = load.modelName ∧
      repo.version? load.modelName = some load.modelVersion ∧ map.lookup load.modelName = none := by
  obtain ⟨modelName,modelVersion⟩ := load
  simp only [addedLoad,Option.bind_eq_some_iff,Option.ite_none_right_eq_some,Option.some.injEq,
    ModelLoadInfo.mk.injEq]
  constructor
  · rintro ⟨version,found,absent,rfl,rfl⟩
    exact ⟨rfl,found,absent⟩
  · rintro ⟨rfl,found,absent⟩
    exact ⟨modelVersion,found,absent,rfl,rfl⟩

theorem updatedLoad_some {repo : Repository} {map : ModelMap} {name : String}
    {load : ModelLoadInfo} : repo.updatedLoad map name = some load ↔ name = load.modelName ∧
      repo.version? load.modelName = some load.modelVersion ∧
      ∃ context info, map.lookup load.modelName = some context ∧
        context.backendInfo = some info ∧ info.modelVersion ≠ load.modelVersion := by
  obtain ⟨modelName,modelVersion⟩ := load
  have changes (name : String) (version : Int) : classify map name version = some .updated ↔
      ∃ context info, map.lookup name = some context ∧ context.backendInfo = some info ∧
        info.modelVersion ≠ version := by
    unfold classify
    cases map.lookup name with
    | none => simp
    | some context => cases context.backendInfo <;> simp
  simp only [updatedLoad,Option.bind_eq_some_iff,Option.ite_none_right_eq_some,Option.some.injEq,
    ModelLoadInfo.mk.injEq]
  constructor
  · rintro ⟨version,found,differs,rfl,rfl⟩
    exact ⟨rfl,found,(changes _ _).mp differs⟩
  · rintro ⟨rfl,found,differs⟩
    exact ⟨modelVersion,found,(changes _ _).mpr differs,rfl,rfl⟩

/-- With no null `backend_info_` the loop runs to its end and adds these entries. -/
theorem scan_eq {repo : Repository} {map : ModelMap}
    (owned : ∀ name context, map.lookup name = some context → context.backendInfo.isSome = true)
    (names : List String) (lists : StateUpdate) :
    repo.scan map names lists = some ⟨lists.added ++ names.filterMap (repo.addedLoad map),
      lists.updated ++ names.filterMap (repo.updatedLoad map),lists.deleted⟩ := by
  induction names generalizing lists with
  | nil => simp [scan]
  | cons name rest ih =>
    cases found : repo.version? name with
    | none => simp [scan,found,ih,addedLoad,updatedLoad]
    | some version =>
      cases present : map.lookup name with
      | none => simp [scan,found,ih,addedLoad,updatedLoad,classify,present,StateUpdate.record]
      | some context =>
        obtain ⟨info,there⟩ := Option.isSome_iff_exists.mp (owned name context present)
        by_cases same : info.modelVersion = version <;>
          simp [scan,found,ih,addedLoad,updatedLoad,classify,present,there,same,StateUpdate.record]

structure Listed (repo : Repository) (map : ModelMap) (lists : StateUpdate) : Prop where
  added : ∀ load, load ∈ lists.added ↔ load.modelName ∈ repo.subDirs ∧
    repo.version? load.modelName = some load.modelVersion ∧ map.lookup load.modelName = none
  updated : ∀ load, load ∈ lists.updated ↔ load.modelName ∈ repo.subDirs ∧
    repo.version? load.modelName = some load.modelVersion ∧
    ∃ context info, map.lookup load.modelName = some context ∧
      context.backendInfo = some info ∧ info.modelVersion ≠ load.modelVersion
  deleted : ∀ name, name ∈ lists.deleted ↔ name ∈ map ∧ name ∉ repo.subDirs
  addedOnce : (lists.added.map (·.modelName)).Nodup
  updatedOnce : (lists.updated.map (·.modelName)).Nodup
  deletedOnce : lists.deleted.Nodup

theorem filterMap_nodup {f : String → Option ModelLoadInfo}
    (own : ∀ name load, f name = some load → name = load.modelName) {names : List String}
    (distinct : names.Nodup) : ((names.filterMap f).map (·.modelName)).Nodup := by
  have sub : ((names.filterMap f).map (·.modelName)).Sublist names := by
    clear distinct
    induction names with
    | nil => simp
    | cons name rest ih =>
      cases picked : f name with
      | none => simpa [List.filterMap_cons,picked] using ih.cons name
      | some load =>
        obtain rfl := own name load picked
        simpa [List.filterMap_cons,picked] using ih
  exact sub.nodup distinct

theorem getModelStateUpdate_listed (repo : Repository) {map : ModelMap}
    (owned : ∀ name context, map.lookup name = some context → context.backendInfo.isSome = true) :
    ∃ lists, repo.getModelStateUpdate map = some lists ∧ Listed repo map lists := by
  refine ⟨_,scan_eq owned _ _,?_,?_,?_,?_,?_,?_⟩
  · intro load
    simp only [List.nil_append,List.mem_filterMap,addedLoad_some]
    constructor
    · rintro ⟨name,there,rfl,rest⟩
      exact ⟨there,rest⟩
    · rintro ⟨there,rest⟩
      exact ⟨_,there,rfl,rest⟩
  · intro load
    simp only [List.nil_append,List.mem_filterMap,updatedLoad_some]
    constructor
    · rintro ⟨name,there,rfl,rest⟩
      exact ⟨there,rest⟩
    · rintro ⟨there,rest⟩
      exact ⟨_,there,rfl,rest⟩
  · intro name
    simp [deletedModels,AList.mem_keys]
  · rw [List.nil_append]
    exact filterMap_nodup (fun _ _ picked => (addedLoad_some.mp picked).1) repo.nodup
  · rw [List.nil_append]
    exact filterMap_nodup (fun _ _ picked => (updatedLoad_some.mp picked).1) repo.nodup
  · exact map.nodupKeys.filter _

theorem Listed.disjoint {repo : Repository} {map : ModelMap} {lists : StateUpdate}
    (listed : Listed repo map lists) :
    (lists.added.map (·.modelName)).Disjoint (lists.updated.map (·.modelName)) ∧
    (lists.added.map (·.modelName)).Disjoint lists.deleted ∧
    (lists.updated.map (·.modelName)).Disjoint lists.deleted := by
  refine ⟨?_,?_,?_⟩
  · intro name first second
    obtain ⟨load,member,rfl⟩ := List.mem_map.mp first
    obtain ⟨load',member',same⟩ := List.mem_map.mp second
    obtain ⟨_,_,absent⟩ := (listed.added load).mp member
    obtain ⟨_,_,context,_,present,_⟩ := (listed.updated load').mp member'
    rw [same,absent] at present
    contradiction
  · intro name first second
    obtain ⟨load,member,rfl⟩ := List.mem_map.mp first
    exact ((listed.deleted _).mp second).2 ((listed.added load).mp member).1
  · intro name first second
    obtain ⟨load,member,rfl⟩ := List.mem_map.mp first
    exact ((listed.deleted _).mp second).2 ((listed.updated load).mp member).1

/-- Whether `LoadModel` succeeds does not depend on the number of the backend it creates. -/
theorem loads_eq (repo : Repository) (load : ModelLoadInfo) (fresh : Nat) :
    repo.loads load.modelName load.modelVersion =
      (loadModel load (repo.config load.modelName) fresh).isSome := by
  unfold loads loadModel
  cases repo.config load.modelName with
  | none => rfl
  | some config =>
    dsimp only
    split <;> simp_all

end Repository

namespace Registry

open Repository

structure Applied (repo : Repository) (lists : StateUpdate) (reg reg' : Registry)
    (reports : List Report) : Prop where
  valid : reg'.Valid
  untouched : ∀ name, name ∉ lists.added.map (·.modelName) →
    name ∉ lists.updated.map (·.modelName) → name ∉ lists.deleted →
    reg'.entry name = reg.entry name
  added : ∀ load ∈ lists.added, ∃ mid : Registry, mid.entry load.modelName = none ∧
    reg.nextScheduler ≤ mid.nextScheduler ∧ reg.nextBackend ≤ mid.nextBackend ∧
    reg'.entry load.modelName = (mid.add repo load).1.entry load.modelName
  updated : ∀ load ∈ lists.updated, ∃ mid : Registry,
    mid.entry load.modelName = reg.entry load.modelName ∧ reg.nextBackend ≤ mid.nextBackend ∧
    reg'.entry load.modelName = (mid.update repo load).1.entry load.modelName
  deleted : ∀ name ∈ lists.deleted, reg'.entry name = none
  reported : ∀ name, .rejected name ∉ reports ∧ .doesNotExist name ∉ reports ∧
    .alreadyGone name ∉ reports

theorem adds_applied {repo : Repository} {lists : StateUpdate} {reg : Registry}
    (valid : reg.Valid) (listed : Listed repo reg.modelMap lists) :
    Applied repo lists reg (reg.adds repo lists).1 (reg.adds repo lists).2 := by
  obtain ⟨addedUpdated,addedDeleted,updatedDeleted⟩ := listed.disjoint
  have first := each_looped (·.modelName) (fun reg load valid => add_local repo valid load)
    lists.added listed.addedOnce valid
  have second := each_looped (·.modelName)
    (fun reg load valid => update_local repo valid load) lists.updated listed.updatedOnce first.valid
  have third := each_looped id
    (fun reg name valid => delete_local valid name) lists.deleted
    (by simpa using listed.deletedOnce) second.valid
  have kept (name : String) (outside : name ∉ lists.deleted) := third.others name (by simpa)
  have absent {load : ModelLoadInfo} (member : load ∈ lists.added) :
      reg.entry load.modelName = none := entry_none.mpr ((listed.added load).mp member).2.2
  have present {load : ModelLoadInfo} (member : load ∈ lists.updated) :
      ∃ context f, reg.entry load.modelName = some (context,f) := by
    obtain ⟨_,_,context,_,found,_⟩ := (listed.updated load).mp member
    exact ⟨context,reg.inferFuncs context.scheduler,by simp [entry,found]⟩
  have inAdded {load : ModelLoadInfo} (member : load ∈ lists.added) :
      load.modelName ∈ lists.added.map (·.modelName) := List.mem_map_of_mem member
  have inUpdated {load : ModelLoadInfo} (member : load ∈ lists.updated) :
      load.modelName ∈ lists.updated.map (·.modelName) := List.mem_map_of_mem member
  refine ⟨third.valid,?_,?_,?_,?_,?_⟩
  · intro name notAdded notUpdated notDeleted
    exact (kept name notDeleted).trans
      ((second.others name notUpdated).trans (first.others name notAdded))
  · intro load member
    obtain ⟨mid,same,schedulers,backends,result⟩ := first.met load member
    refine ⟨mid,same.trans (absent member),schedulers,backends,?_⟩
    exact (kept _ (addedDeleted (inAdded member))).trans
      ((second.others _ (addedUpdated (inAdded member))).trans result)
  · intro load member
    obtain ⟨mid,same,_,backends,result⟩ := second.met load member
    refine ⟨mid,same.trans (first.others _ fun added => addedUpdated added (inUpdated member)),
      Nat.le_trans first.backends backends,?_⟩
    exact (kept _ (updatedDeleted (inUpdated member))).trans result
  · intro name member
    obtain ⟨mid,_,_,_,result⟩ := third.met name member
    exact result.trans (delete_entry mid name)
  · intro name
    have good (r : Report) (member : r ∈ (reg.adds repo lists).2) :
        (∃ load, r = .added load ∨ r = .updated load ∨ r = .failToLoad load ∨ r = .deleted load) := by
      rcases List.mem_append.mp member with isAdd | rest
      · obtain ⟨load,there,mid,same,rfl⟩ := first.reported r isAdd
        have result := add_entry repo (same.trans (absent there))
        split at result
        · exact ⟨_,.inr (.inr (.inl (congrArg Prod.snd result)))⟩
        · exact ⟨_,.inl result.1⟩
      rcases List.mem_append.mp rest with isUpdate | isDelete
      · obtain ⟨load,there,mid,same,rfl⟩ := second.reported r isUpdate
        obtain ⟨context,f,found⟩ := present there
        have before := first.others _ fun added => addedUpdated added (inUpdated there)
        have result := update_entry repo (same.trans (before.trans found))
        split at result
        · exact ⟨_,.inr (.inr (.inl (congrArg Prod.snd result)))⟩
        · exact ⟨_,.inr (.inl result.1)⟩
      · obtain ⟨gone,there,mid,same,rfl⟩ := third.reported r isDelete
        refine ⟨gone,.inr (.inr (.inr ?_))⟩
        have before := (second.others gone fun updated => updatedDeleted updated there).trans
          (first.others gone fun added => addedDeleted added there)
        have found : mid.modelMap.lookup gone ≠ none := by
          rw [Ne,← entry_none,show mid.entry gone = reg.entry gone from same.trans before,entry_none,
            AList.lookup_eq_none,not_not]
          exact ((listed.deleted gone).mp there).1
        unfold delete
        split
        next none => exact absurd none found
        · rfl
    refine ⟨fun member => ?_,fun member => ?_,fun member => ?_⟩ <;>
      (obtain ⟨_,h | h | h | h⟩ := good _ member <;> contradiction)

/-- `name` is served by version `v` on scheduler `k`, which is bound to a new backend. -/
def Installed (reg reg' : Registry) (name : String) (v : Int) (k : Nat) : Prop :=
  ∃ info b, reg'.entry name = some (⟨k,some info⟩,b) ∧ info.modelName = name ∧
    info.modelVersion = v ∧ info.backend = some b ∧ reg.nextBackend ≤ b

/-- What becomes of one name, whatever becomes of the others. -/
structure Reconciled (repo : Repository) (reg reg' : Registry) (name : String) : Prop where
  removed : name ∉ repo.subDirs → reg'.entry name = none
  skipped : name ∈ repo.subDirs → repo.version? name = none → reg'.entry name = reg.entry name
  added : ∀ v, name ∈ repo.subDirs → repo.version? name = some v → reg.entry name = none →
    if repo.loads name v then ∃ k, reg.nextScheduler ≤ k ∧ Installed reg reg' name v k
    else reg'.entry name = none
  updated : ∀ v context f info, name ∈ repo.subDirs → repo.version? name = some v →
    reg.entry name = some (context,f) → context.backendInfo = some info → info.modelVersion ≠ v →
    if repo.loads name v then Installed reg reg' name v context.scheduler
    else reg'.entry name = reg.entry name
  current : ∀ v context f info, name ∈ repo.subDirs → repo.version? name = some v →
    reg.entry name = some (context,f) → context.backendInfo = some info → info.modelVersion = v →
    reg'.entry name = reg.entry name

theorem applied_reconciled {repo : Repository} {lists : StateUpdate} {reg reg' : Registry}
    {reports : List Report} (listed : Listed repo reg.modelMap lists)
    (applied : Applied repo lists reg reg' reports) (name : String) :
    Reconciled repo reg reg' name := by
  have lookup {context : ModelRunContext} {f : Nat} (found : reg.entry name = some (context,f)) :
      reg.modelMap.lookup name = some context := by
    obtain ⟨c,there,same⟩ := Option.map_eq_some_iff.mp found
    cases same
    exact there
  have loadedAs {load : ModelLoadInfo} {fresh : Nat} {info : BackendInfo}
      {backend : Option ModelBackend}
      (loaded : loadModel load (repo.config load.modelName) fresh = some (info,backend)) :
      repo.loads load.modelName load.modelVersion = true := by
    rw [loads_eq repo load fresh,loaded]
    rfl
  have notLoaded {load : ModelLoadInfo} {fresh : Nat}
      (failed : loadModel load (repo.config load.modelName) fresh = none) :
      ¬repo.loads load.modelName load.modelVersion = true := by
    rw [loads_eq repo load fresh,failed]
    simp
  constructor
  · intro gone
    by_cases served : name ∈ reg.modelMap
    · exact applied.deleted name ((listed.deleted name).mpr ⟨served,gone⟩)
    · rw [applied.untouched name]
      · exact entry_none.mpr (AList.lookup_eq_none.mpr served)
      · intro member
        obtain ⟨load,there,rfl⟩ := List.mem_map.mp member
        exact gone ((listed.added load).mp there).1
      · intro member
        obtain ⟨load,there,rfl⟩ := List.mem_map.mp member
        exact gone ((listed.updated load).mp there).1
      · exact fun member => served ((listed.deleted name).mp member).1
  · intro here unversioned
    apply applied.untouched name
    · intro member
      obtain ⟨load,there,rfl⟩ := List.mem_map.mp member
      rw [((listed.added load).mp there).2.1] at unversioned
      contradiction
    · intro member
      obtain ⟨load,there,rfl⟩ := List.mem_map.mp member
      rw [((listed.updated load).mp there).2.1] at unversioned
      contradiction
    · exact fun member => ((listed.deleted name).mp member).2 here
  · intro v here version absent
    have member : (⟨name,v⟩ : ModelLoadInfo) ∈ lists.added :=
      (listed.added _).mpr ⟨here,version,entry_none.mp absent⟩
    obtain ⟨mid,before,schedulers,backends,result⟩ := applied.added _ member
    have added := add_entry repo before
    split at added
    next failed =>
      rw [if_neg (notLoaded failed),result,added]
      exact before
    next info _ loaded =>
      rw [if_pos (loadedAs loaded)]
      obtain ⟨named,versioned,owned,_⟩ := loadModel_some loaded
      exact ⟨mid.nextScheduler,schedulers,info,mid.nextBackend,result.trans added.2,named,versioned,
        owned,backends⟩
  · intro v context f info here version found owned differs
    have member : (⟨name,v⟩ : ModelLoadInfo) ∈ lists.updated :=
      (listed.updated _).mpr ⟨here,version,context,info,lookup found,owned,differs⟩
    obtain ⟨mid,before,backends,result⟩ := applied.updated _ member
    have updated := update_entry repo (before.trans found)
    split at updated
    next failed =>
      rw [if_neg (notLoaded failed),result,updated]
      exact before
    next info' _ loaded =>
      rw [if_pos (loadedAs loaded)]
      obtain ⟨named,versioned,owned',_⟩ := loadModel_some loaded
      exact ⟨info',mid.nextBackend,result.trans updated.2,named,versioned,owned',backends⟩
  · intro v context f info here version found owned same
    apply applied.untouched name
    · intro member
      obtain ⟨load,there,rfl⟩ := List.mem_map.mp member
      rw [entry_none.mpr ((listed.added load).mp there).2.2] at found
      contradiction
    · intro member
      obtain ⟨load,there,rfl⟩ := List.mem_map.mp member
      obtain ⟨_,version',context',info',found',owned',differs⟩ := (listed.updated load).mp there
      obtain rfl := Option.some.inj ((lookup found).symm.trans found')
      obtain rfl := Option.some.inj (owned.symm.trans owned')
      obtain rfl := Option.some.inj (version.symm.trans version')
      exact differs same
    · exact fun member => ((listed.deleted name).mp member).2 here

theorem each_still {α : Type} {body : Registry → α → Registry × Report} {xs : List α}
    {reg : Registry} (still : ∀ x ∈ xs, (body reg x).1 = reg) : (each body xs reg).1 = reg := by
  induction xs with
  | nil => rfl
  | cons x rest ih =>
    simp only [each]
    rw [still x (List.mem_cons_self ..)]
    exact ih fun y member => still y (List.mem_cons_of_mem x member)

/-- After a cycle a name whose version loads is served by that version. -/
theorem reconciled_current {repo : Repository} {reg reg' : Registry} (valid : reg.Valid)
    {name : String} (reconciled : Reconciled repo reg reg' name) {v : Int}
    (here : name ∈ repo.subDirs) (version : repo.version? name = some v)
    (loads : repo.loads name v = true) :
    ∃ context info, reg'.modelMap.lookup name = some context ∧
      context.backendInfo = some info ∧ info.modelVersion = v := by
  have served {context : ModelRunContext} {f : Nat} {info : BackendInfo}
      (now : reg'.entry name = some (context,f)) (owned : context.backendInfo = some info)
      (same : info.modelVersion = v) : ∃ context info, reg'.modelMap.lookup name = some context ∧
        context.backendInfo = some info ∧ info.modelVersion = v := by
    obtain ⟨c,there,result⟩ := Option.map_eq_some_iff.mp now
    cases result
    exact ⟨_,info,there,owned,same⟩
  cases was : reg.entry name with
  | none =>
    have added := reconciled.added v here version was
    rw [if_pos loads] at added
    obtain ⟨k,_,info,b,now,_,same,_⟩ := added
    exact served now rfl same
  | some pair =>
    obtain ⟨context,f⟩ := pair
    obtain ⟨c,there,result⟩ := Option.map_eq_some_iff.mp was
    cases result
    obtain ⟨info,owned⟩ := Option.isSome_iff_exists.mp (valid.owned _ _ there)
    by_cases current : info.modelVersion = v
    · exact served ((reconciled.current v _ _ info here version was owned current).trans was) owned
        current
    · have updated := reconciled.updated v _ _ info here version was owned current
      rw [if_pos loads] at updated
      obtain ⟨info',b,now,_,same,_⟩ := updated
      exact served now rfl same

/-- A registry that a cycle has just reconciled is left as it is by the next one. -/
theorem reconciled_still {repo : Repository} {lists : StateUpdate} {reg reg' : Registry}
    (valid : reg.Valid) (reconciled : ∀ name, Reconciled repo reg reg' name)
    (listed : Listed repo reg'.modelMap lists) : (reg'.adds repo lists).1 = reg' := by
  have failed {load : ModelLoadInfo}
      (fails : ¬repo.loads load.modelName load.modelVersion = true) :
      loadModel load (repo.config load.modelName) reg'.nextBackend = none := by
    rw [loads_eq repo load reg'.nextBackend] at fails
    simpa using fails
  have adds : (each (add repo) lists.added reg').1 = reg' := by
    apply each_still
    intro load member
    obtain ⟨here,version,absent⟩ := (listed.added load).mp member
    have fails : ¬repo.loads load.modelName load.modelVersion = true := by
      intro loads
      obtain ⟨_,_,present,_⟩ := reconciled_current valid (reconciled _) here version loads
      rw [absent] at present
      contradiction
    simp [add,failed fails]
  have updates : (each (update repo) lists.updated reg').1 = reg' := by
    apply each_still
    intro load member
    obtain ⟨here,version,context,info,present,owned,differs⟩ := (listed.updated load).mp member
    have fails : ¬repo.loads load.modelName load.modelVersion = true := by
      intro loads
      obtain ⟨context',info',present',owned',same⟩ :=
        reconciled_current valid (reconciled _) here version loads
      obtain rfl := Option.some.inj (present.symm.trans present')
      obtain rfl := Option.some.inj (owned.symm.trans owned')
      exact differs same
    simp [update,failed fails]
  have deletes : lists.deleted = [] := by
    apply List.eq_nil_iff_forall_not_mem.mpr
    intro name member
    obtain ⟨served,gone⟩ := (listed.deleted name).mp member
    have absent := entry_none.mp ((reconciled name).removed gone)
    exact AList.lookup_eq_none.mp absent served
  simp only [Registry.adds,Registry.updates,Registry.deletes,adds,updates,deletes,each]

/-- `LoadModels` runs to its end and brings every name, on its own, to where the repository
says it belongs; its lists share no name, it never finds an update's model missing nor an
insert rejected, and run again on the same repository it changes nothing. -/
theorem load_models_reconciles (repo : Repository) {reg : Registry} (valid : reg.Valid) :
    ∃ lists reg' reports, repo.getModelStateUpdate reg.modelMap = some lists ∧
      reg.loadModels repo = some (reg',reports) ∧ reg'.Valid ∧
      ((lists.added.map (·.modelName)).Nodup ∧ (lists.updated.map (·.modelName)).Nodup ∧
        lists.deleted.Nodup) ∧
      ((lists.added.map (·.modelName)).Disjoint (lists.updated.map (·.modelName)) ∧
        (lists.added.map (·.modelName)).Disjoint lists.deleted ∧
        (lists.updated.map (·.modelName)).Disjoint lists.deleted) ∧
      (∀ name, .rejected name ∉ reports ∧ .doesNotExist name ∉ reports) ∧
      (∀ name, Reconciled repo reg reg' name) ∧
      ∃ reports', reg'.loadModels repo = some (reg',reports') := by
  obtain ⟨lists,computed,listed⟩ := getModelStateUpdate_listed repo valid.owned
  have applied := adds_applied valid listed
  have reconciled := applied_reconciled listed applied
  obtain ⟨lists',computed',listed'⟩ := getModelStateUpdate_listed repo applied.valid.owned
  refine ⟨lists,_,_,computed,by rw [loadModels,computed]; rfl,applied.valid,
    ⟨listed.addedOnce,listed.updatedOnce,listed.deletedOnce⟩,listed.disjoint,
    fun name => ⟨(applied.reported name).1,(applied.reported name).2.1⟩,reconciled,?_⟩
  have still := reconciled_still valid reconciled listed'
  exact ⟨((reg.adds repo lists).1.adds repo lists').2,by
    rw [loadModels,computed',Option.map_some,Option.some.injEq,Prod.ext_iff]
    exact ⟨still,rfl⟩⟩

def demoRepository (names versions : List String) (nodup : names.Nodup) : Repository :=
  ⟨names,fun _ => some ⟨"demo",[⟨"cpu",.cpu,1,[]⟩]⟩,fun _ => versions,nodup⟩

/-- "a" and "b" are added with version 1; then "b" is gone and "a" has version 2. -/
theorem load_models_reconciles_demo : ∃ reg₁ reg₂ : Registry, ∃ k,
    Installed ⟨∅,id,0,0⟩ reg₁ "a" 1 k ∧ Installed reg₁ reg₂ "a" 2 k ∧ reg₂.entry "b" = none := by
  have empty : (⟨∅,id,0,0⟩ : Registry).Valid := ⟨by simp,by simp,by simp⟩
  obtain ⟨_,reg₁,_,_,_,valid,_,_,_,first,_⟩ :=
    load_models_reconciles (demoRepository ["a","b"] ["1"] (by decide)) empty
  obtain ⟨_,reg₂,_,_,_,_,_,_,_,second,_⟩ :=
    load_models_reconciles (demoRepository ["a"] ["1","2"] (by decide)) valid
  have added := (first "a").added 1 (by simp [demoRepository]) rfl rfl
  rw [if_pos (by decide)] at added
  obtain ⟨k,_,info,b,now,named,version,owned,fresh⟩ := added
  have updated := (second "a").updated 2 _ b info (by simp [demoRepository]) rfl now rfl
    (by rw [version]; decide)
  rw [if_pos (by decide)] at updated
  exact ⟨reg₁,reg₂,k,⟨info,b,now,named,version,owned,fresh⟩,updated,
    (second "b").removed (by simp [demoRepository])⟩

end Registry
end InferenceServer
