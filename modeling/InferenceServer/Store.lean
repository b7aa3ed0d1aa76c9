import InferenceServer.ServerLocks

/-! The data that `LoadModels` and `Stop` own, as they see it, and what their operations
keep true of it: every served name has its own scheduler, bound to its own live backend. -/
namespace InferenceServer

structure Tag where
  modelName : String
  modelVersion : Int
  contexts : List BackendContext
  released : Option Release

def BackendCell.tag (cell : BackendCell) : Tag :=
  ⟨cell.object.modelName,cell.object.modelVersion,cell.object.contexts,cell.released⟩

structure Store where
  modelMap : ModelMap
  faces : Nat → Face Nat
  destroyed : Nat → Bool
  nextScheduler : Nat
  tags : Nat → Tag
  nextBackend : Nat

namespace Store

/-- `info` owns the backend `b`, which is alive and was loaded for `name` as `info` says. -/
structure Loaded (s : Store) (info : BackendInfo) (name : String) (b : Nat) : Prop where
  named : info.modelName = name
  owned : info.backend = some b
  created : b < s.nextBackend
  tagName : (s.tags b).modelName = name
  tagVersion : (s.tags b).modelVersion = info.modelVersion
  alive : (s.tags b).released = none

def Unbound (s : Store) (b : Nat) : Prop := ∀ k < s.nextScheduler, (s.faces k).inferFunc ≠ b

def Serving (s : Store) (k : Nat) : Prop :=
  (s.faces k).control = .startReturned .success ∧ (s.faces k).running = true

def Out (s : Store) (k : Nat) : Prop :=
  ∀ name context, s.modelMap.lookup name = some context → context.scheduler ≠ k

structure Held (s : Store) (k : Nat) : Prop where
  created : k < s.nextScheduler
  alive : s.destroyed k = false

/-- An entry of the map. Between the two statements of an update the function is already
bound to the new backend; `pending` is the name under update. -/
def Entry (s : Store) (pending : Option String) (name : String) (context : ModelRunContext) :
    Prop :=
  Held s context.scheduler ∧ Serving s context.scheduler ∧
  ∃ info b, context.backendInfo = some info ∧ Loaded s info name b ∧
    (pending ≠ some name → (s.faces context.scheduler).inferFunc = b) ∧
    (pending = some name → Unbound s b)

structure Sane (s : Store) (pending : Option String) : Prop where
  entry : ∀ name context, s.modelMap.lookup name = some context → Entry s pending name context
  distinct : ∀ name name' context context', s.modelMap.lookup name = some context →
    s.modelMap.lookup name' = some context' → context.scheduler = context'.scheduler →
    name = name'
  injective : ∀ k < s.nextScheduler, ∀ k' < s.nextScheduler,
    (s.faces k).inferFunc = (s.faces k').inferFunc → k = k'
  inRange : ∀ k < s.nextScheduler, (s.faces k).inferFunc < s.nextBackend
  updated : ∀ b, (s.tags b).released = some .update → Unbound s b
  torn : ∀ b k, (s.tags b).released = some (.teardown k) →
    k < s.nextScheduler ∧ (s.faces k).inferFunc = b
  fresh : ∀ b, s.nextBackend ≤ b → (s.tags b).released = none
  unborn : ∀ k, s.nextScheduler ≤ k → s.destroyed k = false
  dead : ∀ k, s.destroyed k = true → (s.faces k).control = .stopReturned .success

theorem empty_sane (faces : Nat → Face Nat) (tags : Nat → Tag)
    (alive : ∀ b, (tags b).released = none) :
    Sane ⟨∅,faces,fun _ => false,0,tags,0⟩ none := by
  constructor <;> simp [alive]

variable {s : Store} {pending : Option String}

theorem Loaded.transfer {s' : Store} {info : BackendInfo} {name : String} {b : Nat}
    (loaded : Loaded s info name b) (same : s'.tags b = s.tags b)
    (grows : s.nextBackend ≤ s'.nextBackend) : Loaded s' info name b :=
  ⟨loaded.named,loaded.owned,Nat.lt_of_lt_of_le loaded.created grows,by rw [same,loaded.tagName],
    by rw [same,loaded.tagVersion],by rw [same,loaded.alive]⟩

theorem Sane.bound {name : String} {context : ModelRunContext} (sane : Sane s none)
    (present : s.modelMap.lookup name = some context) :
    ∃ info b, context.backendInfo = some info ∧ Loaded s info name b ∧
      (s.faces context.scheduler).inferFunc = b := by
  obtain ⟨_,_,info,b,owned,loaded,bound,_⟩ := sane.entry name context present
  exact ⟨info,b,owned,loaded,bound (by simp)⟩

def addBackend (s : Store) (t : Tag) : Store :=
  { s with tags := Function.update s.tags s.nextBackend t, nextBackend := s.nextBackend + 1 }

theorem addBackend_tag (s : Store) (t : Tag) {b : Nat} (old : b < s.nextBackend) :
    (s.addBackend t).tags b = s.tags b := Function.update_of_ne (Nat.ne_of_lt old) _ _

theorem Loaded.addBackend {info : BackendInfo} {name : String} {b : Nat} (t : Tag)
    (loaded : Loaded s info name b) : Loaded (s.addBackend t) info name b :=
  loaded.transfer (addBackend_tag s t loaded.created) (Nat.le_succ _)

theorem Sane.addBackend (sane : Sane s pending) (t : Tag) (alive : t.released = none) :
    Sane (s.addBackend t) pending := by
  have newest : (s.addBackend t).tags s.nextBackend = t := Function.update_self _ _ _
  have released (b : Nat) (r : Release) (there : ((s.addBackend t).tags b).released = some r) :
      (s.tags b).released = some r := by
    by_cases same : b = s.nextBackend
    · rw [same,newest,alive] at there
      contradiction
    · rwa [show (s.addBackend t).tags b = s.tags b from Function.update_of_ne same _ _] at there
  refine ⟨?_,sane.distinct,sane.injective,?_,?_,?_,?_,sane.unborn,sane.dead⟩
  · intro name context present
    obtain ⟨held,serving,info,b,owned,loaded,bound⟩ := sane.entry name context present
    exact ⟨⟨held.created,held.alive⟩,serving,info,b,owned,loaded.addBackend t,bound⟩
  · intro k below
    exact Nat.lt_succ_of_lt (sane.inRange k below)
  · intro b there
    exact sane.updated b (released b _ there)
  · intro b k there
    exact sane.torn b k (released b _ there)
  · intro b past
    have other : b ≠ s.nextBackend := by simp only [Store.addBackend] at past; omega
    rw [show (s.addBackend t).tags b = s.tags b from Function.update_of_ne other _ _]
    exact sane.fresh b (by simp only [Store.addBackend] at past; omega)

theorem Sane.addBackend_unbound (sane : Sane s pending) (t : Tag) :
    Unbound (s.addBackend t) s.nextBackend :=
  fun k below => Nat.ne_of_lt (sane.inRange k below)

def addScheduler (s : Store) (face : Face Nat) : Store :=
  { s with faces := Function.update s.faces s.nextScheduler face, nextScheduler := s.nextScheduler + 1 }

theorem addScheduler_face (s : Store) (face : Face Nat) {k : Nat} (old : k < s.nextScheduler) :
    (s.addScheduler face).faces k = s.faces k := Function.update_of_ne (Nat.ne_of_lt old) _ _

theorem addScheduler_newest (s : Store) (face : Face Nat) :
    (s.addScheduler face).faces s.nextScheduler = face := Function.update_self _ _ _

theorem Sane.addScheduler (sane : Sane s pending) (face : Face Nat)
    (unbound : Unbound s face.inferFunc) (created : face.inferFunc < s.nextBackend)
    (alive : (s.tags face.inferFunc).released = none)
    (settled : pending = none) : Sane (s.addScheduler face) pending := by
  subst settled
  have cases (k : Nat) (below : k < (s.addScheduler face).nextScheduler) :
      k < s.nextScheduler ∧ (s.addScheduler face).faces k = s.faces k ∨
        k = s.nextScheduler ∧ (s.addScheduler face).faces k = face := by
    rcases Nat.lt_succ_iff_lt_or_eq.mp below with old | rfl
    · exact .inl ⟨old,addScheduler_face s face old⟩
    · exact .inr ⟨rfl,addScheduler_newest s face⟩
  refine ⟨?_,sane.distinct,?_,?_,?_,?_,sane.fresh,?_,?_⟩
  · intro name context present
    obtain ⟨held,serving,_⟩ := sane.entry name context present
    obtain ⟨info,b,owned,loaded,bound⟩ := sane.bound present
    have same := addScheduler_face s face held.created
    refine ⟨⟨Nat.lt_succ_of_lt held.created,held.alive⟩,?_,info,b,owned,
      loaded.transfer rfl le_rfl,fun _ => ?_,by simp⟩
    · simpa only [Serving,same] using serving
    · rw [same,bound]
  · intro k below k' below' bound
    rcases cases k below with ⟨old,same⟩ | ⟨rfl,same⟩ <;>
      rcases cases k' below' with ⟨old',same'⟩ | ⟨rfl,same'⟩
    · exact sane.injective k old k' old' (by rwa [same,same'] at bound)
    · rw [same,same'] at bound
      exact absurd bound (unbound k old)
    · rw [same,same'] at bound
      exact absurd bound.symm (unbound k' old')
    · rfl
  · intro k below
    rcases cases k below with ⟨old,same⟩ | ⟨rfl,same⟩
    · rw [same]; exact sane.inRange k old
    · rw [same]; exact created
  · intro b there k below
    rcases cases k below with ⟨old,same⟩ | ⟨rfl,same⟩
    · rw [same]; exact sane.updated b there k old
    · rw [same]
      rintro rfl
      rw [show (s.addScheduler face).tags = s.tags from rfl,alive] at there
      contradiction
  · intro b k there
    obtain ⟨old,bound⟩ := sane.torn b k there
    exact ⟨Nat.lt_succ_of_lt old,by rw [addScheduler_face s face old,bound]⟩
  · intro k past
    exact sane.unborn k (Nat.le_of_succ_le past)
  · intro k there
    have old : k < s.nextScheduler := by
      by_contra past
      simp [Store.addScheduler,sane.unborn k (Nat.le_of_not_lt past)] at there
    rw [addScheduler_face s face old]
    exact sane.dead k there

def setFace (s : Store) (k : Nat) (face : Face Nat) : Store :=
  { s with faces := Function.update s.faces k face }

@[simp] theorem setFace_self (s : Store) (k : Nat) (face : Face Nat) :
    (s.setFace k face).faces k = face := Function.update_self _ _ _

theorem setFace_bound {face : Face Nat} {k : Nat} (same : face.inferFunc = (s.faces k).inferFunc)
    (j : Nat) : ((s.setFace k face).faces j).inferFunc = (s.faces j).inferFunc := by
  by_cases here : j = k
  · rw [here,setFace_self,same]
  · exact congrArg Face.inferFunc (Function.update_of_ne here _ _)

theorem setFace_unbound {face : Face Nat} {k b : Nat}
    (same : face.inferFunc = (s.faces k).inferFunc) :
    Unbound (s.setFace k face) b ↔ Unbound s b := by
  unfold Unbound
  simp only [setFace_bound same]
  rfl

/-- Only a scheduler that is in no entry is started or stopped. -/
theorem Sane.setFace {k : Nat} {face : Face Nat} (sane : Sane s pending)
    (same : face.inferFunc = (s.faces k).inferFunc) (out : Out s k)
    (alive : s.destroyed k = false) : Sane (s.setFace k face) pending := by
  have elsewhere {j : Nat} (other : j ≠ k) : (s.setFace k face).faces j = s.faces j :=
    Function.update_of_ne other _ _
  refine ⟨?_,sane.distinct,?_,?_,?_,?_,sane.fresh,sane.unborn,?_⟩
  · intro name context present
    obtain ⟨held,serving,info,b,owned,loaded,bound⟩ := sane.entry name context present
    have there := elsewhere (out name context present)
    refine ⟨⟨held.created,held.alive⟩,by simpa only [Serving,there] using serving,info,b,owned,
      loaded.transfer rfl le_rfl,?_⟩
    rwa [there,setFace_unbound same]
  · intro j below j' below' shared
    rw [setFace_bound same,setFace_bound same] at shared
    exact sane.injective j below j' below' shared
  · intro j below
    rw [setFace_bound same]
    exact sane.inRange j below
  · intro b there
    exact (setFace_unbound same).mpr (sane.updated b there)
  · intro b j there
    rw [setFace_bound same]
    exact sane.torn b j there
  · intro j there
    have other : j ≠ k := by
      rintro rfl
      exact absurd (alive.symm.trans there) (by simp)
    rw [elsewhere other]
    exact sane.dead j there

theorem Sane.insert {name : String} {context : ModelRunContext} (sane : Sane s none)
    (entry : Entry s none name context) (out : Out s context.scheduler) :
    Sane { s with modelMap := s.modelMap.insert name context } none := by
  have cases {name' : String} {context' : ModelRunContext}
      (present : (s.modelMap.insert name context).lookup name' = some context') :
      name' = name ∧ context' = context ∨ s.modelMap.lookup name' = some context' := by
    by_cases same : name' = name
    · subst name'
      rw [AList.lookup_insert] at present
      exact .inl ⟨rfl,(Option.some.inj present).symm⟩
    · rw [AList.lookup_insert_ne same] at present
      exact .inr present
  refine ⟨?_,?_,sane.injective,sane.inRange,sane.updated,sane.torn,sane.fresh,sane.unborn,
    sane.dead⟩
  · intro name' context' present
    have old : Entry s none name' context' := by
      rcases cases present with ⟨rfl,rfl⟩ | old
      · exact entry
      · exact sane.entry name' context' old
    obtain ⟨held,serving,info,b,owned,loaded,bound⟩ := old
    exact ⟨⟨held.created,held.alive⟩,serving,info,b,owned,
      loaded.transfer rfl le_rfl,bound⟩
  · intro name₁ name₂ context₁ context₂ first second shared
    rcases cases first with ⟨rfl,rfl⟩ | old <;> rcases cases second with ⟨rfl,rfl⟩ | old'
    · rfl
    · exact absurd shared.symm (out _ _ old')
    · exact absurd shared (out _ _ old)
    · exact sane.distinct _ _ _ _ old old' shared

theorem Sane.erase {name : String} (sane : Sane s pending) :
    Sane { s with modelMap := s.modelMap.erase name } pending := by
  have old {name' : String} {context : ModelRunContext}
      (present : (s.modelMap.erase name).lookup name' = some context) :
      s.modelMap.lookup name' = some context := by
    by_cases same : name' = name
    · rw [same,AList.lookup_erase] at present
      contradiction
    · rwa [AList.lookup_erase_ne same] at present
  refine ⟨?_,?_,sane.injective,sane.inRange,sane.updated,sane.torn,sane.fresh,sane.unborn,
    sane.dead⟩
  · intro name' context present
    obtain ⟨held,serving,info,b,owned,loaded,bound⟩ := sane.entry name' context (old present)
    exact ⟨⟨held.created,held.alive⟩,serving,info,b,owned,
      loaded.transfer rfl le_rfl,bound⟩
  · intro name₁ name₂ context₁ context₂ first second
    exact sane.distinct _ _ _ _ (old first) (old second)

theorem Sane.erase_out {name : String} {context : ModelRunContext} (sane : Sane s pending)
    (present : s.modelMap.lookup name = some context) :
    Out { s with modelMap := s.modelMap.erase name } context.scheduler := by
  intro name' context' present' shared
  by_cases same : name' = name
  · subst name'
    rw [AList.lookup_erase] at present'
    contradiction
  · rw [AList.lookup_erase_ne same] at present'
    exact same (sane.distinct _ _ _ _ present' present shared)

/-- `UpdateBackendInferFunc` on the scheduler of an entry: the entry is pending. -/
theorem Sane.install {name : String} {context : ModelRunContext} {face : Face Nat}
    (sane : Sane s none) (present : s.modelMap.lookup name = some context)
    (unbound : Unbound s face.inferFunc) (created : face.inferFunc < s.nextBackend)
    (alive : (s.tags face.inferFunc).released = none)
    (control : face.control = (s.faces context.scheduler).control)
    (running : face.running = (s.faces context.scheduler).running) :
    Sane (s.setFace context.scheduler face) (some name) := by
  obtain ⟨held,serving,_⟩ := sane.entry name context present
  obtain ⟨info,old,owned,loaded,bound⟩ := sane.bound present
  have elsewhere {j : Nat} (other : j ≠ context.scheduler) :
      (s.setFace context.scheduler face).faces j = s.faces j := Function.update_of_ne other _ _
  have released {b : Nat} {r : Release} (there : (s.tags b).released = some r) :
      b ≠ face.inferFunc := by
    rintro rfl
    rw [alive] at there
    contradiction
  -- The old backend was bound by this scheduler only.
  have dropped : Unbound (s.setFace context.scheduler face) old := by
    intro j below
    by_cases here : j = context.scheduler
    · subst j
      rw [setFace_self]
      rintro rfl
      exact unbound _ held.created bound
    · rw [elsewhere here]
      intro there
      exact here (sane.injective j below _ held.created (there.trans bound.symm))
  refine ⟨?_,sane.distinct,?_,?_,?_,?_,sane.fresh,sane.unborn,?_⟩
  · intro name' context' present'
    by_cases same : name' = name
    · subst name'
      have both : context' = context := Option.some.inj (present'.symm.trans present)
      subst context'
      refine ⟨⟨held.created,held.alive⟩,?_,info,old,owned,
        loaded.transfer rfl le_rfl,
        fun other => absurd rfl other,fun _ => dropped⟩
      simpa only [Serving,setFace_self,control,running] using serving
    · obtain ⟨held',serving',_⟩ := sane.entry name' context' present'
      obtain ⟨info',b',owned',loaded',bound'⟩ := sane.bound present'
      have other : context'.scheduler ≠ context.scheduler :=
        fun shared => same (sane.distinct _ _ _ _ present' present shared)
      have there := elsewhere other
      exact ⟨⟨held'.created,held'.alive⟩,by simpa only [Serving,there] using serving',info',b',
        owned',loaded'.transfer rfl le_rfl,fun _ => by rw [there,bound'],
        fun shared => absurd (Option.some.inj shared).symm same⟩
  · intro k below k' below' shared
    by_cases here : k = context.scheduler <;> by_cases here' : k' = context.scheduler
    · exact here.trans here'.symm
    · rw [here,setFace_self,elsewhere here'] at shared
      exact absurd shared.symm (unbound k' below')
    · rw [here',setFace_self,elsewhere here] at shared
      exact absurd shared (unbound k below)
    · rw [elsewhere here,elsewhere here'] at shared
      exact sane.injective k below k' below' shared
  · intro k below
    by_cases here : k = context.scheduler
    · rw [here,setFace_self]; exact created
    · rw [elsewhere here]; exact sane.inRange k below
  · intro b there k below
    by_cases here : k = context.scheduler
    · rw [here,setFace_self]; exact (released there).symm
    · rw [elsewhere here]; exact sane.updated b there k below
  · intro b k there
    obtain ⟨below,bound'⟩ := sane.torn b k there
    have here : k ≠ context.scheduler := by
      rintro rfl
      rw [bound] at bound'
      subst b
      rw [show (s.setFace context.scheduler face).tags = s.tags from rfl,loaded.alive] at there
      contradiction
    exact ⟨below,by rw [elsewhere here,bound']⟩
  · intro k there
    have here : k ≠ context.scheduler := by
      rintro rfl
      exact absurd (held.alive.symm.trans there) (by simp)
    rw [elsewhere here]
    exact sane.dead k there

/-- `backend_info_.swap`: the pending entry takes the backend its function is bound to. -/
theorem Sane.swap {name : String} {context : ModelRunContext} {info : BackendInfo}
    (sane : Sane s (some name)) (present : s.modelMap.lookup name = some context)
    (loaded : Loaded s info name (s.faces context.scheduler).inferFunc) :
    Sane { s with
      modelMap := s.modelMap.insert name { context with backendInfo := some info } } none := by
  obtain ⟨held,serving,_⟩ := sane.entry name context present
  have cases {name' : String} {context' : ModelRunContext}
      (present' : (s.modelMap.insert name { context with backendInfo := some info }).lookup name' =
        some context') :
      name' = name ∧ context' = { context with backendInfo := some info } ∨
        name' ≠ name ∧ s.modelMap.lookup name' = some context' := by
    by_cases same : name' = name
    · subst name'
      rw [AList.lookup_insert] at present'
      exact .inl ⟨rfl,(Option.some.inj present').symm⟩
    · rw [AList.lookup_insert_ne same] at present'
      exact .inr ⟨same,present'⟩
  refine ⟨?_,?_,sane.injective,sane.inRange,sane.updated,sane.torn,sane.fresh,sane.unborn,
    sane.dead⟩
  · intro name' context' present'
    rcases cases present' with ⟨rfl,rfl⟩ | ⟨other,old⟩
    · exact ⟨⟨held.created,held.alive⟩,serving,info,_,rfl,
        loaded.transfer rfl le_rfl,fun _ => rfl,by simp⟩
    · obtain ⟨held',serving',info',b',owned',loaded',bound,_⟩ := sane.entry name' context' old
      exact ⟨⟨held'.created,held'.alive⟩,serving',info',b',owned',loaded'.transfer rfl le_rfl,
        fun _ => bound fun shared => other (Option.some.inj shared).symm,by simp⟩
  · intro name₁ name₂ context₁ context₂ first second shared
    rcases cases first with ⟨rfl,rfl⟩ | ⟨_,old⟩ <;> rcases cases second with ⟨rfl,rfl⟩ | ⟨_,old'⟩
    · rfl
    · exact sane.distinct _ _ _ _ present old' shared
    · exact sane.distinct _ _ _ _ old present shared
    · exact sane.distinct _ _ _ _ old old' shared

def setReleased (s : Store) (b : Nat) (cause : Release) : Store :=
  { s with tags := Function.update s.tags b { s.tags b with released := cause } }

theorem setReleased_tag (s : Store) {b : Nat} (b' : Nat) (cause : Release) (other : b' ≠ b) :
    (s.setReleased b cause).tags b' = s.tags b' := Function.update_of_ne other _ _

@[simp] theorem setReleased_self (s : Store) (b : Nat) (cause : Release) :
    (s.setReleased b cause).tags b = { s.tags b with released := cause } :=
  Function.update_self _ _ _

/-- A backend may be released if no entry owns it and its cause is recorded truthfully. -/
theorem Sane.setReleased {b : Nat} {cause : Release} (sane : Sane s none)
    (created : b < s.nextBackend) (free : ∀ name context, s.modelMap.lookup name = some context →
      (s.faces context.scheduler).inferFunc ≠ b)
    (update : cause = .update → Unbound s b)
    (teardown : ∀ k, cause = .teardown k → k < s.nextScheduler ∧ (s.faces k).inferFunc = b) :
    Sane (s.setReleased b cause) none := by
  have cases {b' : Nat} {r : Release} (there : ((s.setReleased b cause).tags b').released = some r) :
      b' = b ∧ cause = r ∨ (s.tags b').released = some r := by
    by_cases same : b' = b
    · subst b'
      rw [setReleased_self] at there
      exact .inl ⟨rfl,Option.some.inj there⟩
    · rw [setReleased_tag s b' cause same] at there
      exact .inr there
  refine ⟨?_,sane.distinct,sane.injective,sane.inRange,?_,?_,?_,sane.unborn,sane.dead⟩
  · intro name context present
    obtain ⟨held,serving,_⟩ := sane.entry name context present
    obtain ⟨info,b',owned,loaded,bound⟩ := sane.bound present
    have same := setReleased_tag s b' cause fun h => free name context present (bound.trans h)
    exact ⟨⟨held.created,held.alive⟩,serving,info,b',owned,loaded.transfer same le_rfl,
      fun _ => bound,by simp⟩
  · intro b' there
    rcases cases there with ⟨rfl,cause⟩ | old
    · exact update cause
    · exact sane.updated b' old
  · intro b' k there
    rcases cases there with ⟨rfl,cause⟩ | old
    · exact teardown k cause
    · exact sane.torn b' k old
  · intro b' past
    have other : b' ≠ b := by
      rintro rfl
      exact absurd created (Nat.not_lt.mpr past)
    rw [setReleased_tag s b' cause other]
    exact sane.fresh b' past

/-- `delete` on a scheduler whose `Stop` has returned. -/
theorem Sane.destroy {k : Nat} (sane : Sane s pending) (out : Out s k)
    (created : k < s.nextScheduler) (ended : (s.faces k).control = .stopReturned .success) :
    Sane { s with destroyed := Function.update s.destroyed k true } pending := by
  refine ⟨?_,sane.distinct,sane.injective,sane.inRange,sane.updated,sane.torn,sane.fresh,?_,?_⟩
  · intro name context present
    obtain ⟨held,serving,info,b,owned,loaded,bound⟩ := sane.entry name context present
    refine ⟨⟨held.created,?_⟩,serving,info,b,owned,
      loaded.transfer rfl le_rfl,bound⟩
    simp only [Function.update_of_ne (out name context present)]
    exact held.alive
  · intro j past
    have other : j ≠ k := by
      rintro rfl
      exact absurd created (Nat.not_lt.mpr past)
    simp only [Function.update_of_ne other]
    exact sane.unborn j past
  · intro j there
    by_cases same : j = k
    · exact same ▸ ended
    · simp only [Function.update_of_ne same] at there
      exact sane.dead j there

end Store
end InferenceServer
