import InferenceServer.ModelMap
import Mathlib.Data.List.TakeWhile
import Mathlib.Order.Bounds.Basic
import Mathlib.Algebra.Order.Group.Unbundled.Int

/-! Which version `GetHighestVersion` selects from the names of a model's subdirectories. -/
namespace InferenceServer

def decimal (digits : List Char) : Nat :=
  digits.foldl (fun n c => 10 * n + (c.toNat - '0'.toNat)) 0

/-- The version that a name is: decimal digits and nothing else, at most `INT64_MAX`. -/
def versionNamed? (name : String) : Option Nat :=
  if name.toList ≠ [] ∧ name.toList.all Char.isDigit ∧ decimal name.toList < 2^63 then
    some (decimal name.toList)
  else none

def namedVersions (dirs : List String) : Set Int :=
  {v | ∃ dir ∈ dirs, ∃ n : Nat, versionNamed? dir = some n ∧ v = n}

def HighestNamed (dirs : List String) (version : Int) : Prop :=
  IsGreatest (insert (-1) (namedVersions dirs)) version

def readVersions (dirs : List String) : Set Int := {v | ∃ dir ∈ dirs, stoll dir = .ok v}

theorem isDigit_iff {c : Char} : c.isDigit = true ↔ 48 ≤ c.toNat ∧ c.toNat ≤ 57 := by
  simp only [Char.isDigit,Bool.and_eq_true,decide_eq_true_eq,UInt32.le_iff_toNat_le]
  exact Iff.rfl

theorem isDigit_plain {c : Char} (digit : c.isDigit = true) :
    isSpace c = false ∧ c ≠ '-' ∧ c ≠ '+' := by
  obtain ⟨low,high⟩ := isDigit_iff.mp digit
  refine ⟨?_,?_,?_⟩
  · simp only [isSpace,decide_eq_false_iff_not]
    rintro (rfl | ⟨_,control⟩)
    · exact absurd low (by decide)
    · have below : c.toNat ≤ 13 := control
      omega
  · rintro rfl
    exact absurd low (by decide)
  · rintro rfl
    exact absurd low (by decide)

theorem stoll_named {name : String} {n : Nat} (named : versionNamed? name = some n) :
    stoll name = .ok n := by
  unfold versionNamed? at named
  split at named
  next proper =>
    obtain ⟨some,digits,small⟩ := proper
    have value : decimal name.toList = n := Option.some.inj named
    cases chars : name.toList with
    | nil => exact absurd chars some
    | cons c rest =>
      rw [chars] at digits small value
      have all : ∀ d ∈ c :: rest, d.isDigit = true := List.all_eq_true.mp digits
      obtain ⟨solid,minus,plus⟩ := isDigit_plain (all c List.mem_cons_self)
      have kept : (c :: rest).dropWhile isSpace = c :: rest := by simp [solid]
      have whole : (c :: rest).takeWhile Char.isDigit = c :: rest :=
        List.takeWhile_eq_self_iff.mpr all
      have inside : ¬((decimal (c :: rest) : Int) < -2^63 ∨ 2^63 ≤ (decimal (c :: rest) : Int)) := by
        omega
      unfold stoll
      simp only [chars,kept]
      split
      next same => exact absurd (List.cons.inj same).1 minus
      next same => exact absurd (List.cons.inj same).1 plus
      · simp only [whole,reduceCtorEq,if_false,Bool.false_eq_true]
        change (if (decimal (c :: rest) : Int) < -2^63 ∨ 2^63 ≤ (decimal (c :: rest) : Int) then
          Except.error StollError.outOfRange else .ok (decimal (c :: rest) : Int)) = _
        rw [if_neg inside,value]
  · contradiction

def higherOf (highest : Int) (dir : String) : Int :=
  match stoll dir with
  | .ok version => if highest < version then version else highest
  | .error _ => highest

theorem higherOf_greatest (highest : Int) (dir : String) :
    IsGreatest (insert highest {v | stoll dir = .ok v}) (higherOf highest dir) := by
  unfold higherOf
  cases read : stoll dir with
  | error => simp
  | ok version =>
    simp only [Except.ok.injEq]
    split
    next higher =>
      refine ⟨.inr rfl,?_⟩
      rintro v (rfl | rfl)
      · exact le_of_lt higher
      · exact le_refl _
    next lower =>
      refine ⟨.inl rfl,?_⟩
      rintro v (rfl | rfl)
      · exact le_refl _
      · exact not_lt.mp lower

/-- The loop from any value it may have reached. -/
theorem foldl_greatest (dirs : List String) (highest : Int) :
    IsGreatest (insert highest (readVersions dirs)) (dirs.foldl higherOf highest) := by
  induction dirs generalizing highest with
  | nil => simp [readVersions]
  | cons dir rest ih =>
    obtain ⟨first,above⟩ := higherOf_greatest highest dir
    obtain ⟨found,most⟩ := ih (higherOf highest dir)
    have later := most (Set.mem_insert _ _)
    simp only [List.foldl_cons]
    constructor
    · rcases found with same | ⟨other,member,read⟩
      · rw [same]
        exact first.imp_right fun read => ⟨dir,List.mem_cons_self,read⟩
      · exact .inr ⟨other,List.mem_cons_of_mem _ member,read⟩
    · rintro v (rfl | ⟨other,member,read⟩)
      · exact le_trans (above (Set.mem_insert _ _)) later
      · rcases List.mem_cons.mp member with rfl | member
        · exact le_trans (above (.inr read)) later
        · exact most (.inr ⟨other,member,read⟩)

theorem highest_read (dirs : List String) :
    IsGreatest (insert (-1) (readVersions dirs)) (getHighestVersion dirs) :=
  foldl_greatest dirs (-1)

/-- The listing order does not matter. -/
theorem getHighestVersion_perm {dirs listing : List String} (order : listing.Perm dirs) :
    getHighestVersion listing = getHighestVersion dirs := by
  have same : readVersions listing = readVersions dirs := by
    ext v
    simp only [readVersions,Set.mem_ofPred_eq,order.mem_iff]
  exact (same ▸ highest_read listing).unique (highest_read dirs)

theorem named_read {dirs : List String} {v : Int} (named : v ∈ namedVersions dirs) :
    v ∈ readVersions dirs := by
  obtain ⟨dir,member,n,version,rfl⟩ := named
  exact ⟨dir,member,stoll_named version⟩

/-- What `stoll` reads from a name that is no version is not higher than every version. -/
def Unmisled (dirs : List String) : Prop :=
  ∀ dir ∈ dirs, versionNamed? dir = none → ∀ v, stoll dir = .ok v → 0 ≤ v →
    ∃ n ∈ namedVersions dirs, v ≤ n

theorem highest_named {dirs : List String} (unmisled : Unmisled dirs) :
    HighestNamed dirs (getHighestVersion dirs) := by
  obtain ⟨found,most⟩ := highest_read dirs
  refine ⟨?_,?_⟩
  · rcases found with none | ⟨dir,member,read⟩
    · exact .inl none
    cases named : versionNamed? dir with
    | some n =>
      have same := Except.ok.inj ((stoll_named named).symm.trans read)
      exact .inr ⟨dir,member,n,named,same.symm⟩
    | none =>
      by_cases positive : 0 ≤ getHighestVersion dirs
      · obtain ⟨n,version,high⟩ := unmisled dir member named _ read positive
        have low := most (.inr (named_read version))
        exact .inr (le_antisymm high low ▸ version)
      · have low := most (Set.mem_insert _ _)
        exact .inl (by omega)
  · rintro v (rfl | named)
    · exact most (Set.mem_insert _ _)
    · exact most (.inr (named_read named))

def versionDirs (dirs : List String) : List String :=
  dirs.filter fun dir => (versionNamed? dir).isSome

theorem namedVersions_versionDirs (dirs : List String) :
    namedVersions (versionDirs dirs) = namedVersions dirs := by
  ext v
  simp only [namedVersions,versionDirs,Set.mem_ofPred_eq,List.mem_filter]
  constructor
  · rintro ⟨dir,⟨member,_⟩,n,named,rfl⟩
    exact ⟨dir,member,n,named,rfl⟩
  · rintro ⟨dir,member,n,named,rfl⟩
    exact ⟨dir,⟨member,by simp [named]⟩,n,named,rfl⟩

theorem versionDirs_unmisled (dirs : List String) : Unmisled (versionDirs dirs) := by
  intro dir member unnamed
  have named := (List.mem_filter.mp member).2
  simp [unnamed] at named

/-- What the selection has to be: the highest version that is named, in whatever order the
names are listed, with the names that are no version or without them. -/
def SelectsVersion (dirs : List String) : Prop :=
  HighestNamed dirs (getHighestVersion dirs) ∧
  getHighestVersion (versionDirs dirs) = getHighestVersion dirs ∧
  ∀ listing : List String, listing.Perm dirs → getHighestVersion listing = getHighestVersion dirs

/-- `GetHighestVersion` selects the highest version exactly if no other name reads higher. -/
theorem selects_version_iff (dirs : List String) : SelectsVersion dirs ↔ Unmisled dirs := by
  constructor
  · rintro ⟨⟨found,_⟩,_⟩ dir member _ v read positive
    have high := (highest_read dirs).2 (.inr ⟨dir,member,read⟩)
    rcases found with none | named
    · omega
    · exact ⟨_,named,high⟩
  · intro unmisled
    have selected := highest_named unmisled
    refine ⟨selected,?_,fun listing order => getHighestVersion_perm order⟩
    have alone := highest_named (versionDirs_unmisled dirs)
    rw [HighestNamed,namedVersions_versionDirs] at alone
    exact alone.unique selected

/-- A backup beside version 1 is selected as version 3. -/
theorem backup_selected : ¬SelectsVersion ["1","3.bak"] := by
  intro selects
  have three : getHighestVersion ["1","3.bak"] = 3 := by decide
  obtain ⟨⟨found,_⟩,_⟩ := selects
  rw [three] at found
  rcases found with none | ⟨dir,member,n,named,same⟩
  · contradiction
  · simp only [List.mem_cons,List.not_mem_nil,or_false] at member
    rcases member with rfl | rfl
    · have one : versionNamed? "1" = some 1 := by decide
      have n_one := Option.some.inj (named.symm.trans one)
      omega
    · have none : versionNamed? "3.bak" = none := by decide
      exact absurd (named.symm.trans none) (by simp)

end InferenceServer
