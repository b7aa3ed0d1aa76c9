import InferenceServer.LoadModels

/-! `LoadModels` against a repository that changes meanwhile. Each read of the file system
has its own answer, and a directory that cannot be listed throws. -/
namespace InferenceServer

/-- The file system at one moment; `none` where a file cannot be read, or the
listing of a directory throws, be it at `directory_iterator` or at `is_directory`. -/
structure FileSystem where
  repository : Option (List String)
  modelDir : String → Option (List String)
  modelConfig : String → Option String
  nodup : ∀ names, repository = some names → names.Nodup

structure TextFormat where
  parseFromString : String → Option ModelConfig
  empty : parseFromString "" = some ⟨"",[]⟩

/-- What ends a refresh before its end: an exception of `GetDirectorySubDirs`, which nothing
catches, or a null `backend_info_`. -/
inductive Abort where
  | filesystemError
  | nullBackendInfo
  deriving DecidableEq, Repr

def getDirectorySubDirs : Option (List String) → Except Abort (List String)
  | some dirs => .ok dirs
  | none => .error .filesystemError

def readFileText (file : Option String) : String := file.getD ""

/-- The file system as each read of one call of `LoadModels` finds it. -/
structure Refresh where
  listing : FileSystem
  config : String → FileSystem
  versions : String → FileSystem
  load : String → FileSystem

namespace Refresh

variable (text : TextFormat)

def scannedConfig (r : Refresh) (name : String) : Option ModelConfig :=
  text.parseFromString (readFileText ((r.config name).modelConfig name))

def loadedConfig (r : Refresh) (name : String) : Option ModelConfig :=
  text.parseFromString (readFileText ((r.load name).modelConfig name))

/-- The version found for a subdirectory; `none` where the loop goes on to the next one.
The `try` of `GetHighestVersion` begins after the directory is listed. -/
def version? (r : Refresh) (name : String) : Except Abort (Option Int) :=
  match r.scannedConfig text name with
  | none => .ok none
  | some _ => (getDirectorySubDirs ((r.versions name).modelDir name)).map fun dirs =>
    if getHighestVersion dirs = -1 then none else some (getHighestVersion dirs)

def scan (r : Refresh) (map : ModelMap) : List String → StateUpdate → Except Abort StateUpdate
  | [], lists => .ok lists
  | name :: rest, lists =>
    match r.version? text name with
    | .error abort => .error abort
    | .ok none => r.scan map rest lists
    | .ok (some version) =>
      match classify map name version with
      | none => .error .nullBackendInfo
      | some change => r.scan map rest (lists.record ⟨name,version⟩ change)

def getModelStateUpdate (r : Refresh) (map : ModelMap) : Except Abort StateUpdate :=
  match getDirectorySubDirs r.listing.repository with
  | .error abort => .error abort
  | .ok curModels => r.scan text map curModels ⟨[],[],deletedModels map curModels⟩

def scanned (r : Refresh) : Repository where
  subDirs := r.listing.repository.getD []
  config := r.scannedConfig text
  versionDirs name := ((r.versions name).modelDir name).getD []
  nodup := by
    cases found : r.listing.repository with
    | none => exact List.nodup_nil
    | some names => exact r.listing.nodup names found

def loaded (r : Refresh) : Repository := { r.scanned text with config := r.loadedConfig text }

def loadModels (r : Refresh) (reg : Registry) : Except Abort (Registry × List Report) :=
  (r.getModelStateUpdate text reg.modelMap).map (reg.adds (r.loaded text))

/-- The refreshes of `UploadLoop`, one after another. An exception leaves the thread, which
ends the server. -/
def uploadLoop : List Refresh → Registry → Except Abort Registry
  | [], reg => .ok reg
  | r :: rest, reg =>
    match r.loadModels text reg with
    | .error abort => .error abort
    | .ok (reg',_) => uploadLoop rest reg'

def without (r : Refresh) (dir : String) : Refresh :=
  { r with
    listing := { r.listing with
      repository := r.listing.repository.map (·.filter (· ≠ dir))
      nodup := by
        intro names found
        obtain ⟨all,there,rfl⟩ := Option.map_eq_some_iff.mp found
        exact (r.listing.nodup all there).filter _ } }

def Fails (r : Refresh) (dir : String) : Prop :=
  ∀ version, r.version? text dir = .ok (some version) → (r.loaded text).loads dir version = false

/-- `LoadModels` returns, and a directory that fails makes no difference to the other models. -/
def Contained (r : Refresh) (reg : Registry) : Prop :=
  ∃ out, r.loadModels text reg = .ok out ∧ ∀ dir, r.Fails text dir →
    ∃ out', (r.without dir).loadModels text reg = .ok out' ∧
      ∀ other, other ≠ dir → out.1.entry other = out'.1.entry other

def Opens (r : Refresh) (name : String) : Prop :=
  r.scannedConfig text name ≠ none → (r.versions name).modelDir name ≠ none

/-- The repository can be listed, and so can every model directory that has its versions looked
for. -/
def Listable (r : Refresh) : Prop :=
  ∃ names, r.listing.repository = some names ∧ ∀ name ∈ names, r.Opens text name

end Refresh

namespace Registry

theorem each_filter {α : Type} {body : Registry → α → Registry × Report} {keep : α → Bool}
    {xs : List α} (still : ∀ x ∈ xs, keep x = false → ∀ reg, (body reg x).1 = reg)
    (reg : Registry) : (each body (xs.filter keep) reg).1 = (each body xs reg).1 := by
  induction xs generalizing reg with
  | nil => rfl
  | cons x rest ih =>
    have later := ih fun y member => still y (List.mem_cons_of_mem x member)
    cases kept : keep x with
    | true =>
      rw [List.filter_cons_of_pos kept]
      exact later (body reg x).1
    | false =>
      rw [List.filter_cons_of_neg (by simp [kept])]
      have same := still x (List.mem_cons_self ..) kept reg
      simp only [each]
      rw [same]
      exact later reg

theorem each_valid {α : Type} {body : Registry → α → Registry × Report}
    (kept : ∀ reg x, reg.Valid → (body reg x).1.Valid) (xs : List α) {reg : Registry}
    (valid : reg.Valid) : (each body xs reg).1.Valid := by
  induction xs generalizing reg with
  | nil => exact valid
  | cons x rest ih => exact ih (kept reg x valid)

theorem adds_valid (repo : Repository) {reg : Registry} (valid : reg.Valid)
    (lists : StateUpdate) : (reg.adds repo lists).1.Valid := by
  have added := each_valid (fun reg load valid => (add_local repo valid load).valid)
    lists.added valid
  have updated := each_valid (fun reg load valid => (update_local repo valid load).valid)
    lists.updated added
  exact each_valid (fun reg name valid => (delete_local valid name).valid) lists.deleted updated

theorem delete_others (reg : Registry) {name other : String} (apart : other ≠ name) :
    (reg.delete name).1.entry other = reg.entry other := by
  unfold delete
  split
  · rfl
  · simp only [entry]
    rw [AList.lookup_erase_ne apart]

theorem deletes_entry (names : List String) (reg : Registry) (name : String) :
    (reg.deletes names).1.entry name = if name ∈ names then none else reg.entry name := by
  induction names generalizing reg with
  | nil => simp [deletes,each]
  | cons first rest ih =>
    rw [deletes_cons,ih]
    by_cases same : name = first
    · subst first
      simp [delete_entry]
    · simp [same,delete_others reg same]

theorem adds_fst (repo : Repository) (reg : Registry) (lists : StateUpdate) :
    (reg.adds repo lists).1 = ((each (update repo) lists.updated
      (each (add repo) lists.added reg).1).1.deletes lists.deleted).1 := rfl

theorem adds_config {repo repo' : Repository} (same : repo.config = repo'.config) :
    adds repo = adds repo' := by
  have sameAdd : add repo = add repo' := by
    funext reg load
    rw [add,add,same]
  have sameUpdate : update repo = update repo' := by
    funext reg load
    rw [update,update,same]
  funext reg lists
  rw [adds,adds,sameAdd]
  unfold updates
  rw [sameUpdate]

theorem add_fails {repo : Repository} {load : ModelLoadInfo}
    (fails : repo.loads load.modelName load.modelVersion = false) (reg : Registry) :
    (reg.add repo load).1 = reg := by
  rw [Repository.loads_eq repo load reg.nextBackend,Option.isSome_eq_false_iff,
    Option.isNone_iff_eq_none] at fails
  rw [add,fails]

theorem update_fails {repo : Repository} {load : ModelLoadInfo}
    (fails : repo.loads load.modelName load.modelVersion = false) (reg : Registry) :
    (reg.update repo load).1 = reg := by
  rw [Repository.loads_eq repo load reg.nextBackend,Option.isSome_eq_false_iff,
    Option.isNone_iff_eq_none] at fails
  rw [update,fails]

end Registry

namespace Refresh

open Registry

variable {text : TextFormat} {r : Refresh}

theorem version_opens {name : String} :
    r.version? text name = .ok ((r.scanned text).version? name) ↔ r.Opens text name := by
  unfold version? Repository.version? Opens
  cases parsed : r.scannedConfig text name with
  | none => simp [scanned,parsed]
  | some config =>
    cases opened : (r.versions name).modelDir name with
    | none => simp [getDirectorySubDirs,Except.map]
    | some dirs => simp [getDirectorySubDirs,Except.map,scanned,parsed,opened]

theorem version_throws {name : String} (closed : ¬r.Opens text name) :
    r.version? text name = .error .filesystemError := by
  obtain ⟨parsed,gone⟩ := Classical.not_imp.mp closed
  obtain ⟨config,found⟩ := Option.ne_none_iff_exists'.mp parsed
  rw [version?,found,not_not.mp gone]
  rfl

/-- While every directory can be listed, the scan is the one of a repository that does not change. -/
theorem scan_unchanging {map : ModelMap} (owned : Owned map) {names : List String}
    (opens : ∀ name ∈ names, r.Opens text name) (lists : StateUpdate) :
    ∃ lists', r.scan text map names lists = .ok lists' ∧
      (r.scanned text).scan map names lists = some lists' := by
  induction names generalizing lists with
  | nil => exact ⟨lists,rfl,rfl⟩
  | cons name rest ih =>
    have later := ih fun other member => opens other (List.mem_cons_of_mem name member)
    have answered := version_opens.mpr (opens name (List.mem_cons_self ..))
    rw [scan,answered,Repository.scan]
    cases found : (r.scanned text).version? name with
    | none => exact later lists
    | some version =>
      have classified : (classify map name version).isSome = true := by
        unfold classify
        cases present : map.lookup name with
        | none => rfl
        | some context => simpa using owned name context present
      obtain ⟨change,isChange⟩ := Option.isSome_iff_exists.mp classified
      simp only [isChange,Option.bind_some]
      exact later _

theorem scan_opens {map : ModelMap} {names : List String} {lists lists' : StateUpdate}
    (ended : r.scan text map names lists = .ok lists') : ∀ name ∈ names, r.Opens text name := by
  induction names generalizing lists with
  | nil => simp
  | cons name rest ih =>
    have here : r.Opens text name := by
      by_contra closed
      rw [scan,version_throws closed] at ended
      contradiction
    rw [scan,version_opens.mpr here] at ended
    have later : ∀ other ∈ rest, r.Opens text other := by
      split at ended
      · contradiction
      · exact ih ended
      · split at ended
        · contradiction
        · exact ih ended
    intro other member
    rcases List.mem_cons.mp member with rfl | inRest
    · exact here
    · exact later other inRest

def lists (r : Refresh) (text : TextFormat) (map : ModelMap) (names : List String) :
    StateUpdate :=
  ⟨names.filterMap ((r.scanned text).addedLoad map),
    names.filterMap ((r.scanned text).updatedLoad map),deletedModels map names⟩

theorem loadModels_listable {reg : Registry} (owned : Owned reg.modelMap) {names : List String}
    (listing : r.listing.repository = some names) (opens : ∀ name ∈ names, r.Opens text name) :
    r.loadModels text reg = .ok (reg.adds (r.loaded text) (r.lists text reg.modelMap names)) := by
  obtain ⟨lists',scanned,unchanging⟩ :=
    scan_unchanging owned opens ⟨[],[],deletedModels reg.modelMap names⟩
  rw [Repository.scan_eq owned] at unchanging
  obtain rfl := Option.some.inj unchanging
  rw [loadModels,getModelStateUpdate,listing]
  simp only [getDirectorySubDirs,scanned,Except.map,lists,List.nil_append]

theorem loadModels_ends {reg : Registry} {out : Registry × List Report}
    (ended : r.loadModels text reg = .ok out) : r.Listable text := by
  unfold loadModels getModelStateUpdate at ended
  cases listing : r.listing.repository with
  | none =>
    rw [listing] at ended
    contradiction
  | some names =>
    simp only [listing,getDirectorySubDirs] at ended
    cases scanned : r.scan text reg.modelMap names ⟨[],[],deletedModels reg.modelMap names⟩ with
    | error abort =>
      rw [scanned] at ended
      contradiction
    | ok lists' => exact ⟨names,listing,scan_opens scanned⟩

theorem filterMap_without {f : String → Option ModelLoadInfo}
    (own : ∀ name load, f name = some load → name = load.modelName) (names : List String)
    (dir : String) : (names.filter (· ≠ dir)).filterMap f =
      (names.filterMap f).filter (·.modelName ≠ dir) := by
  rw [List.filterMap_filter,List.filter_filterMap]
  apply List.filterMap_congr
  intro name _
  cases picked : f name with
  | none => simp
  | some load =>
    obtain rfl := own name load picked
    simp [Option.filter]

theorem each_without {body : Registry → ModelLoadInfo → Registry × Report}
    {pick : String → Option ModelLoadInfo} {names : List String} {dir : String}
    (own : ∀ name load, pick name = some load → name = load.modelName)
    (still : ∀ name ∈ names, ∀ load, pick name = some load → name = dir →
      ∀ reg, (body reg load).1 = reg) (reg : Registry) :
    (each body ((names.filter (· ≠ dir)).filterMap pick) reg).1 =
      (each body (names.filterMap pick) reg).1 := by
  rw [filterMap_without own]
  apply each_filter
  intro load member left
  obtain ⟨name,there,picked⟩ := List.mem_filterMap.mp member
  apply still name there load picked
  rw [own name load picked]
  simpa using left

theorem fails_loads {dir : String} (fails : r.Fails text dir) (opens : r.Opens text dir)
    {version : Int} (found : (r.scanned text).version? dir = some version) :
    (r.loaded text).loads dir version = false := by
  apply fails
  rw [version_opens.mpr opens,found]

/-- With every listing answered, a directory that fails makes no difference to the others. -/
theorem fails_contained {reg : Registry} (owned : Owned reg.modelMap) {names : List String}
    (listing : r.listing.repository = some names) (opens : ∀ name ∈ names, r.Opens text name)
    {dir : String} (fails : r.Fails text dir) :
    ∃ out', (r.without dir).loadModels text reg = .ok out' ∧ ∀ other, other ≠ dir →
      (reg.adds (r.loaded text) (r.lists text reg.modelMap names)).1.entry other =
        out'.1.entry other := by
  have shorter : (r.without dir).listing.repository = some (names.filter (· ≠ dir)) := by
    simp [without,listing]
  have still : ∀ name ∈ names.filter (· ≠ dir), (r.without dir).Opens text name :=
    fun name member => opens name (List.mem_of_mem_filter member)
  refine ⟨_,loadModels_listable owned shorter still,fun other apart => ?_⟩
  have added (reg' : Registry) : (each (add (r.loaded text)) ((names.filter (· ≠ dir)).filterMap
      ((r.scanned text).addedLoad reg.modelMap)) reg').1 =
        (each (add (r.loaded text)) (r.lists text reg.modelMap names).added reg').1 := by
    refine each_without (fun _ _ picked => (Repository.addedLoad_some.mp picked).1) ?_ reg'
    rintro name there load picked rfl reg
    obtain ⟨rfl,found,_⟩ := Repository.addedLoad_some.mp picked
    exact add_fails (fails_loads fails (opens _ there) found) reg
  have updated (reg' : Registry) : (each (update (r.loaded text))
      ((names.filter (· ≠ dir)).filterMap ((r.scanned text).updatedLoad reg.modelMap)) reg').1 =
        (each (update (r.loaded text)) (r.lists text reg.modelMap names).updated reg').1 := by
    refine each_without (fun _ _ picked => (Repository.updatedLoad_some.mp picked).1) ?_ reg'
    rintro name there load picked rfl reg
    obtain ⟨rfl,found,_⟩ := Repository.updatedLoad_some.mp picked
    exact update_fails (fails_loads fails (opens _ there) found) reg
  have deleted : other ∈ deletedModels reg.modelMap (names.filter (· ≠ dir)) ↔
      other ∈ deletedModels reg.modelMap names := by
    simp [deletedModels,apart]
  have same : ((r.without dir).loaded text).config = (r.loaded text).config := rfl
  rw [adds_config same,adds_fst,adds_fst,deletes_entry,deletes_entry,← added,← updated]
  exact (if_congr deleted rfl rfl).symm

/-- One call contains what goes wrong exactly when every listing that it makes is answered. -/
theorem contained_iff_listable {reg : Registry} (owned : Owned reg.modelMap) :
    r.Contained text reg ↔ r.Listable text := by
  constructor
  · rintro ⟨out,ended,_⟩
    exact loadModels_ends ended
  · rintro ⟨names,listing,opens⟩
    refine ⟨_,loadModels_listable owned listing opens,fun dir fails => ?_⟩
    exact fails_contained owned listing opens fails

theorem loadModels_valid {reg : Registry} {out : Registry × List Report} (valid : reg.Valid)
    (ended : r.loadModels text reg = .ok out) : out.1.Valid := by
  obtain ⟨names,listing,opens⟩ := loadModels_ends ended
  rw [loadModels_listable valid.owned listing opens,Except.ok.injEq] at ended
  rw [← ended]
  exact adds_valid _ valid _

/-- A directory that is gone, or whose configuration is gone when it is loaded, fails. -/
theorem lost_fails {dir : String} (lost : (r.versions dir).modelDir dir = none ∨
    (r.load dir).modelConfig dir = none) : r.Fails text dir := by
  intro version found
  rcases lost with gone | unconfigured
  · unfold version? at found
    rw [gone] at found
    split at found <;> simp [getDirectorySubDirs,Except.map] at found
  · simp only [Repository.loads,loaded,loadedConfig,unconfigured,readFileText,Option.getD_none,
      text.empty]
    rfl

def unchanging (files : FileSystem) : Refresh :=
  ⟨files,fun _ => files,fun _ => files,fun _ => files⟩

theorem unchanging_loadModels {files : FileSystem} {reg : Registry} (owned : Owned reg.modelMap)
    (listable : (unchanging files).Listable text) :
    ∃ out, (unchanging files).loadModels text reg = .ok out ∧
      reg.loadModels ((unchanging files).scanned text) = some out := by
  obtain ⟨names,listing,opens⟩ := listable
  refine ⟨_,loadModels_listable owned listing opens,?_⟩
  have there : ((unchanging files).scanned text).subDirs = names := by
    simp [scanned,listing]
  rw [Registry.loadModels,Repository.getModelStateUpdate,there,Repository.scan_eq owned]
  rfl

end Refresh

open Refresh

/-- `UploadLoop` gets through its refreshes, and each keeps the directories that fail from the
other models, exactly when no refresh finds a directory to list missing or closed: neither the
repository nor, where the configuration was parsed, a model directory. -/
theorem upload_loop_contained_iff (text : TextFormat) {reg : Registry} (valid : reg.Valid)
    (refreshes : List Refresh) :
    ((∃ last, uploadLoop text refreshes reg = .ok last) ∧
      ∀ before r after, refreshes = before ++ r :: after → ∀ mid,
        uploadLoop text before reg = .ok mid → r.Contained text mid) ↔
    ∀ r ∈ refreshes, r.Listable text := by
  induction refreshes generalizing reg with
  | nil => exact ⟨by simp,fun _ => ⟨⟨reg,rfl⟩,by simp⟩⟩
  | cons first rest ih =>
    have one : first.Contained text reg ↔ first.Listable text :=
      contained_iff_listable valid.owned
    constructor
    · rintro ⟨⟨last,ended⟩,contained⟩
      have here := one.mp (contained [] first rest rfl reg rfl)
      cases called : first.loadModels text reg with
      | error abort => simp [uploadLoop,called] at ended
      | ok out =>
        have later := (ih (loadModels_valid valid called)).mp
          ⟨⟨last,by simpa [uploadLoop,called] using ended⟩,fun before r after split mid reached =>
            contained (first :: before) r after (by rw [split]; rfl) mid
              (by simpa [uploadLoop,called] using reached)⟩
        intro r member
        rcases List.mem_cons.mp member with rfl | inRest
        · exact here
        · exact later r inRest
    · intro listable
      have here := one.mpr (listable first (List.mem_cons_self ..))
      have ⟨out,called,_⟩ := here
      obtain ⟨⟨last,ended⟩,contained⟩ := (ih (loadModels_valid valid called)).mpr
        fun r member => listable r (List.mem_cons_of_mem first member)
      refine ⟨⟨last,by simpa [uploadLoop,called] using ended⟩,?_⟩
      intro before r after split mid reached
      cases before with
      | nil =>
        obtain ⟨rfl,rfl⟩ := List.cons.inj split
        cases reached
        exact here
      | cons other before =>
        obtain ⟨rfl,shorter⟩ := List.cons.inj split
        exact contained before r after shorter mid (by simpa [uploadLoop,called] using reached)

def demoText : String := "platform: 'demo' instance_group < kind: KIND_CPU count: 1 >"

def demoFormat : TextFormat where
  parseFromString content :=
    if content = "" then some ⟨"",[]⟩
    else if content = demoText then some ⟨"demo",[⟨"",.cpu,1,[]⟩]⟩
    else none
  empty := rfl

def demoFiles (names : List String) (nodup : names.Nodup) : FileSystem where
  repository := some names
  modelDir name := if name ∈ names then some ["1"] else none
  modelConfig name := if name ∈ names then some demoText else none
  nodup := by simp [nodup]

/-- "b" is removed when everything but its configuration has been read: it is not loaded, and
"a" is. -/
theorem upload_loop_contained_unconfigured :
    let both := demoFiles ["a","b"] (by decide)
    let refresh : Refresh := ⟨both,fun _ => both,fun _ => both,fun _ => demoFiles ["a"] (by decide)⟩
    refresh.Fails demoFormat "b" ∧ refresh.Contained demoFormat ⟨∅,id,0,0⟩ ∧
      ∃ last, uploadLoop demoFormat [refresh] ⟨∅,id,0,0⟩ = .ok last := by
  intro both refresh
  have empty : (⟨∅,id,0,0⟩ : Registry).Valid := ⟨by simp,by simp,by simp⟩
  have listable : ∀ r ∈ [refresh], r.Listable demoFormat := by
    intro r member
    obtain rfl := List.mem_singleton.mp member
    exact ⟨["a","b"],rfl,by simp [refresh,both,demoFiles,Opens]⟩
  obtain ⟨ended,contained⟩ :=
    (upload_loop_contained_iff demoFormat empty [refresh]).mpr listable
  exact ⟨lost_fails (.inr rfl),contained [] refresh [] rfl _ rfl,ended⟩

/-- "b" is removed once the repository is listed: the refresh throws and loads nothing, while
without "b" it would have loaded "a". -/
theorem upload_loop_contained_vanished :
    let refresh : Refresh := { unchanging (demoFiles ["a"] (by decide)) with
      listing := demoFiles ["a","b"] (by decide) }
    uploadLoop demoFormat [refresh] ⟨∅,id,0,0⟩ = .error .filesystemError ∧
      ¬refresh.Contained demoFormat ⟨∅,id,0,0⟩ ∧
      ∃ out, (refresh.without "b").loadModels demoFormat ⟨∅,id,0,0⟩ = .ok out ∧
        (out.1.entry "a").isSome = true := by
  intro refresh
  have throws : refresh.loadModels demoFormat ⟨∅,id,0,0⟩ = .error .filesystemError := rfl
  refine ⟨by rw [uploadLoop,throws],?_,_,rfl,rfl⟩
  rintro ⟨out,ended,_⟩
  rw [throws] at ended
  contradiction

end InferenceServer
