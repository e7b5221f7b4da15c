import TerraformLs.PassedContributions
import TerraformLs.Sweeps

/-! The loop of a bulk scan over its directories is a sweep over what each of them
passes. It visits each directory once, so that what a caller passes on is missed
when the caller is visited later. -/
namespace TerraformLs
namespace PassedVariables

open Sweeps

/-- Whatever is passed in `x` is passed in `y` and is no less unknown there. -/
def Below (x y : Path → Contribution) : Prop :=
  ∀ caller child name bits, x caller child name = some bits → ∃ bits',
    y caller child name = some bits' ∧ (bits.membership = true → bits'.membership = true) ∧
      (bits.value = true → bits'.value = true)

variable (env : RebuildEnvironment) (docs : KeyedMap Url DocumentState)

/-- Only directories of the workspace pass something, and rebuilding any of them
changes nothing. -/
structure IsFixpoint (dirs : Finset Path) (vars : UnknownModuleVars) : Prop where
  tidy : Tidy vars
  callers : ∀ dir ∉ dirs, passed vars dir = nothing
  rebuilt : ∀ dir ∈ dirs, ∃ fuel vars',
    rebuildUnknownModuleVarsForDir env docs vars fuel dir = some vars' ∧ passed vars' = passed vars

structure IsLeastFixpoint (dirs : Finset Path) (vars : UnknownModuleVars) : Prop
    extends IsFixpoint env docs dirs vars where
  least : ∀ vars', IsFixpoint env docs dirs vars' → Below (passed vars) (passed vars')

variable {env docs}

section bulk

variable {vars vars' : UnknownModuleVars} {dir : Path}

theorem stage_mono {fuel fuel' : ℕ} (h : fuel ≤ fuel') {staged : Staged}
    (hs : stage env docs vars fuel dir = some staged) :
    stage env docs vars fuel' dir = some staged := by
  obtain ⟨judged,hargs,hjudged,hstaged⟩ := (foldlM_judged fuel _ _ _).mp hs
  exact (foldlM_judged fuel' _ _ _).mpr
    ⟨judged,hargs,fun j hj => judge_mono h (hjudged j hj),hstaged⟩

theorem rebuild_mono {fuel fuel' : ℕ} (h : fuel ≤ fuel')
    (hr : rebuildUnknownModuleVarsForDir env docs vars fuel dir = some vars') :
    rebuildUnknownModuleVarsForDir env docs vars fuel' dir = some vars' := by
  rw [rebuildUnknownModuleVarsForDir,Option.map_eq_some_iff] at hr ⊢
  obtain ⟨staged,hstaged,hvars⟩ := hr
  exact ⟨staged,stage_mono h hstaged,hvars⟩

theorem bulk_cons (fuel : ℕ) (dirs : List Path) (vars'' : UnknownModuleVars) :
    bulkRebuild env docs vars fuel (dir :: dirs) = some vars'' ↔
      ∃ vars', rebuildUnknownModuleVarsForDir env docs vars fuel dir = some vars' ∧
        bulkRebuild env docs vars' fuel dirs = some vars'' := by
  rw [bulkRebuild,List.foldlM_cons,Option.bind_eq_bind,Option.bind_eq_some_iff]
  rfl

theorem bulk_mono {fuel fuel' : ℕ} (h : fuel ≤ fuel') {dirs : List Path}
    (hb : bulkRebuild env docs vars fuel dirs = some vars') :
    bulkRebuild env docs vars fuel' dirs = some vars' := by
  induction dirs generalizing vars with
  | nil => exact hb
  | cons dir dirs ih =>
    obtain ⟨next,hnext,hb⟩ := (bulk_cons fuel dirs vars').mp hb
    exact (bulk_cons fuel' dirs vars').mpr ⟨next,rebuild_mono h hnext,ih hb⟩

/-- A rebuild computes what the one directory passes. -/
theorem rebuild_passed (h : Tidy vars) {fuel : ℕ}
    (hr : rebuildUnknownModuleVarsForDir env docs vars fuel dir = some vars') :
    Tidy vars' ∧ ∃ c, Contributes env docs dir (passed vars) c ∧
      passed vars' = Function.update (passed vars) dir c := by
  rw [rebuildUnknownModuleVarsForDir,Option.map_eq_some_iff] at hr
  obtain ⟨staged,hstaged,rfl⟩ := hr
  refine ⟨tidy_replace h (stage_tidy hstaged),stagedBits staged,?_,passed_replace⟩
  exact (stage_iff h _).mp ⟨fuel,staged,hstaged,rfl⟩

theorem rebuild_of_contributes (h : Tidy vars) {c : Contribution}
    (hc : Contributes env docs dir (passed vars) c) :
    ∃ fuel vars', rebuildUnknownModuleVarsForDir env docs vars fuel dir = some vars' ∧
      Tidy vars' ∧ passed vars' = Function.update (passed vars) dir c := by
  obtain ⟨fuel,staged,hstaged,rfl⟩ := (stage_iff h c).mpr hc
  refine ⟨fuel,replaceUnknownModuleVarsFromCaller vars dir staged,?_,
    tidy_replace h (stage_tidy hstaged),passed_replace⟩
  rw [rebuildUnknownModuleVarsForDir,hstaged]
  rfl

theorem rebuilt_iff (h : Tidy vars) :
    (∃ fuel vars', rebuildUnknownModuleVarsForDir env docs vars fuel dir = some vars' ∧
        passed vars' = passed vars) ↔
      Contributes env docs dir (passed vars) (passed vars dir) := by
  constructor
  · rintro ⟨fuel,vars',hr,hsame⟩
    obtain ⟨-,c,hc,hupdate⟩ := rebuild_passed h hr
    have hdir := congrFun (hsame.symm.trans hupdate) dir
    rw [Function.update_self] at hdir
    rwa [hdir]
  · intro hc
    obtain ⟨fuel,vars',hr,-,hupdate⟩ := rebuild_of_contributes h hc
    rw [Function.update_eq_self] at hupdate
    exact ⟨fuel,vars',hr,hupdate⟩

/-- The loop over the directories is a sweep. -/
theorem sweep_of_bulk (h : Tidy vars) {fuel : ℕ} {dirs : List Path}
    (hb : bulkRebuild env docs vars fuel dirs = some vars') :
    Tidy vars' ∧ Sweep (Contributes env docs) dirs (passed vars) (passed vars') := by
  induction dirs generalizing vars with
  | nil =>
    cases hb
    exact ⟨h,.nil _⟩
  | cons dir dirs ih =>
    obtain ⟨next,hnext,hb⟩ := (bulk_cons fuel dirs vars').mp hb
    obtain ⟨hnextTidy,c,hc,hupdate⟩ := rebuild_passed h hnext
    obtain ⟨htidy,hsweep⟩ := ih hnextTidy hb
    rw [hupdate] at hsweep
    exact ⟨htidy,.cons hc hsweep⟩

theorem bulk_of_sweep {dirs : List Path} {x y : Path → Contribution}
    (hs : Sweep (Contributes env docs) dirs x y) (h : Tidy vars) (hx : passed vars = x) :
    ∃ fuel vars', bulkRebuild env docs vars fuel dirs = some vars' ∧ passed vars' = y := by
  induction hs generalizing vars with
  | nil x => exact ⟨0,vars,rfl,hx⟩
  | cons head tail ih =>
    rw [← hx] at head
    obtain ⟨m,next,hnext,hnextTidy,hupdate⟩ := rebuild_of_contributes h head
    obtain ⟨n,vars',hb,hy⟩ := ih hnextTidy (hupdate.trans (by rw [hx]))
    refine ⟨max m n,vars',?_,hy⟩
    exact (bulk_cons _ _ _).mpr
      ⟨next,rebuild_mono (Nat.le_max_left m n) hnext,bulk_mono (Nat.le_max_right m n) hb⟩

theorem bulk_iff_sweep (dirs : List Path) (y : Path → Contribution) :
    (∃ fuel vars, bulkRebuild env docs ∅ fuel dirs = some vars ∧ passed vars = y) ↔
      Sweep (Contributes env docs) dirs (fun _ => nothing) y := by
  constructor
  · rintro ⟨fuel,vars,hb,rfl⟩
    exact (sweep_of_bulk tidy_empty hb).2
  · intro hs
    exact bulk_of_sweep hs tidy_empty rfl

end bulk

/-- A bulk loop ends with the least fixpoint exactly when the arguments of each
directory, judged from what the directories before it pass, already pass what they
pass there. -/
theorem bulkRebuild_least_iff {order : List Path} (hnodup : order.Nodup) :
    (∃ least, IsLeastFixpoint env docs order.toFinset least ∧
        ∃ fuel vars, bulkRebuild env docs ∅ fuel order = some vars ∧
          passed vars = passed least) ↔
      ∃ least, IsLeastFixpoint env docs order.toFinset least ∧
        ∀ pre dir post, order = pre ++ dir :: post →
          Contributes env docs dir (only nothing pre.toFinset (passed least))
            (passed least dir) := by
  apply exists_congr
  intro least
  apply and_congr_right
  intro hleast
  rw [bulk_iff_sweep]
  exact sweep_iff hnodup hleast.callers

/-- Every order of the directories gives a fixpoint exactly when none of them passes
anything else, whichever of the others were visited before. -/
theorem bulkRebuild_orders_iff {dirs : Finset Path} {vars : UnknownModuleVars}
    (h : IsFixpoint env docs dirs vars) :
    (∀ order : List Path, order.Nodup → order.toFinset = dirs →
        ∃ fuel vars', bulkRebuild env docs ∅ fuel order = some vars' ∧
          passed vars' = passed vars) ↔
      ∀ dir ∈ dirs, ∀ S ⊆ dirs, dir ∉ S →
        Contributes env docs dir (only nothing S (passed vars)) (passed vars dir) := by
  simp only [bulk_iff_sweep]
  exact sweep_all_iff h.callers

section chain

def chainEnvironment : RebuildEnvironment where
  fs :=
    { canonicalize := some
      readDir := fun _ => none
      readToString := fun _ => none
      metadata := fun _ => none
      isDir := fun _ => true
      isFile := fun _ => false
      toFilePath := fun uri => some (Path.components uri)
      fromFilePath := fun _ => none }
  parseManifest := fun _ => none
  display := String.intercalate "/"
  extraPlanKnown := ∅
  schema := ⟨fun _ => none⟩

/-- A document that calls the module in `./m` and passes a value into its variable `x`. -/
def callingDoc (uri : Url) (value : Expression) : DocumentState where
  uri := uri
  rope := []
  version := 0
  parsed := ⟨some [.block "module" [.string "m"]
    [.attribute "source" none (.string "./m"),.attribute "x" none value]],[]⟩
  symbols := { moduleSources := AList.singleton "m" "./m" }
  references := []
  testRuns := []
  formatCache := none

/-- `/g` calls `/g/m`, which calls `/g/m/m`. -/
def chainDocs (value passedOn : Expression) : KeyedMap Url DocumentState :=
  (AList.singleton "/g/main.tf" (callingDoc "/g/main.tf" value)).insert "/g/m/main.tf"
    (callingDoc "/g/m/main.tf" passedOn)

/-- The grandparent passes the id of a resource, and the parent its own variable. -/
def forwardingDocs : KeyedMap Url DocumentState :=
  chainDocs (.traversal (.variable "aws_instance") [.getAttr "a",.getAttr "id"])
    (.traversal (.variable "var") [.getAttr "x"])

def parentFirst : List Path := [["g","m"],["g"],["g","m","m"]]

def callersFirst : List Path := [["g"],["g","m"],["g","m","m"]]

theorem components_m : Path.components "./m" = ["m"] := by decide

/-- Every module is called from the directory above it. -/
theorem child_of_call {value passedOn : Expression} {dir childDir : Path}
    (h : ModuleCalls chainEnvironment (chainDocs value passedOn) dir childDir) :
    childDir = dir ++ ["m"] := by
  obtain ⟨e,he,-,label,source,hsource,hresolve⟩ := h
  have hsources : e.2.symbols.moduleSources = AList.singleton "m" "./m" := by
    rcases List.mem_cons.mp he with rfl | he
    · rfl
    · rw [List.mem_singleton.mp he]
      rfl
  rw [hsources,← KeyedMap.mem_entries] at hsource
  cases List.mem_singleton.mp hsource
  have hjoin : Path.join dir "./m" = dir ++ ["m"] := by
    rw [Path.join,if_neg (by decide),components_m]
  rw [FileSystem.resolveModuleSource,hjoin] at hresolve
  exact (Option.some.inj hresolve).symm

theorem chain_acyclic (value passedOn : Expression) (dir : Path) :
    ¬Walks.OnCycle (ModuleCalls chainEnvironment (chainDocs value passedOn)) dir := by
  have hlonger : ∀ a b, Relation.TransGen
      (ModuleCalls chainEnvironment (chainDocs value passedOn)) a b → a.length < b.length := by
    intro a b h
    induction h with
    | single hcall => simp [child_of_call hcall]
    | tail _ hcall ih =>
      rw [child_of_call hcall]
      exact ih.trans (by simp)
  exact fun h => lt_irrefl _ (hlonger dir dir h)

/-- The parent is rebuilt before it is known what the grandparent passes, and the
last module of the chain gets nothing. -/
theorem chain_unforwarded :
    (∀ dir, ¬Walks.OnCycle (ModuleCalls chainEnvironment forwardingDocs) dir) ∧
      parentFirst.Nodup ∧
      (∃ fuel vars, bulkRebuild chainEnvironment forwardingDocs ∅ fuel parentFirst = some vars ∧
        passed vars ["g"] ["g","m"] "x" ≠ none ∧ passed vars ["g","m"] ["g","m","m"] "x" = none) ∧
      ¬∃ least, IsLeastFixpoint chainEnvironment forwardingDocs parentFirst.toFinset least ∧
        ∃ fuel vars, bulkRebuild chainEnvironment forwardingDocs ∅ fuel parentFirst = some vars ∧
          passed vars = passed least := by
  have hended : (bulkRebuild chainEnvironment forwardingDocs ∅ 3 parentFirst).isSome := by
    decide +kernel
  obtain ⟨vars,hvars⟩ := Option.isSome_iff_exists.mp hended
  have hparent : (passed vars ["g"] ["g","m"] "x").isSome = true := by
    have h : (bulkRebuild chainEnvironment forwardingDocs ∅ 3 parentFirst).map
        (fun vars => (passed vars ["g"] ["g","m"] "x").isSome) = some true := by decide +kernel
    rw [hvars] at h
    exact Option.some.inj h
  have hlast : (passed vars ["g","m"] ["g","m","m"] "x").isSome = false := by
    have h : (bulkRebuild chainEnvironment forwardingDocs ∅ 3 parentFirst).map
        (fun vars => (passed vars ["g","m"] ["g","m","m"] "x").isSome) = some false := by
      decide +kernel
    rw [hvars] at h
    exact Option.some.inj h
  refine ⟨chain_acyclic _ _,by decide,⟨3,vars,hvars,?_,by simpa using hlast⟩,?_⟩
  · intro hnone
    rw [hnone] at hparent
    cases hparent
  · rintro ⟨least,hleast,fuel,vars',hvars',hsame⟩
    have hmax := bulk_mono (Nat.le_max_left 3 fuel) hvars
    rw [bulk_mono (Nat.le_max_right 3 fuel) hvars'] at hmax
    cases hmax
    -- the parent, rebuilt once more, passes the value on
    have hdir : (["g","m"] : Path) ∈ parentFirst.toFinset := by decide
    have hcontributes := (rebuilt_iff hleast.tidy).mp (hleast.rebuilt _ hdir)
    rw [← hsame] at hcontributes
    obtain ⟨fuel',next,hnext,hagain⟩ := (rebuilt_iff (sweep_of_bulk tidy_empty hvars).1).mpr
      hcontributes
    have hforward : ((bulkRebuild chainEnvironment forwardingDocs ∅ 3 parentFirst).bind fun vars =>
        (rebuildUnknownModuleVarsForDir chainEnvironment forwardingDocs vars 3 ["g","m"]).map
          fun next => (passed next ["g","m"] ["g","m","m"] "x").isSome) = some true := by
      decide +kernel
    rw [hvars,Option.bind_some,Option.map_eq_some_iff] at hforward
    obtain ⟨next',hnext',hsome⟩ := hforward
    have hmax := rebuild_mono (Nat.le_max_left 3 fuel') hnext'
    rw [rebuild_mono (Nat.le_max_right 3 fuel') hnext] at hmax
    cases hmax
    rw [hagain,hlast] at hsome
    cases hsome

/-- The callers pass texts, which are known. -/
def knownDocs : KeyedMap Url DocumentState := chainDocs (.string "a") (.string "b")

theorem stage_known (dir : Path) (hdir : dir ∈ parentFirst) :
    stage chainEnvironment knownDocs ∅ 3 dir = some ∅ := by
  simp only [parentFirst,List.mem_cons,List.not_mem_nil,or_false] at hdir
  rcases hdir with rfl | rfl | rfl <;> rfl

theorem known_contributes {dir : Path} (hdir : dir ∈ parentFirst) :
    Contributes chainEnvironment knownDocs dir (passed ∅) nothing :=
  (stage_iff tidy_empty nothing).mp ⟨3,∅,stage_known dir hdir,rfl⟩

theorem known_leastFixpoint :
    IsLeastFixpoint chainEnvironment knownDocs parentFirst.toFinset ∅ where
  tidy := tidy_empty
  callers dir _ := rfl
  rebuilt dir hdir := (rebuilt_iff tidy_empty).mpr (known_contributes (List.mem_toFinset.mp hdir))
  least vars' _ caller child name bits h := by cases h

/-- With known values any order will do. -/
theorem known_converges :
    ∃ least, IsLeastFixpoint chainEnvironment knownDocs parentFirst.toFinset least ∧
      ∃ fuel vars, bulkRebuild chainEnvironment knownDocs ∅ fuel parentFirst = some vars ∧
        passed vars = passed least := by
  apply (bulkRebuild_least_iff (by decide)).mpr
  refine ⟨∅,known_leastFixpoint,?_⟩
  intro pre dir post hsplit
  have hnothing : only nothing pre.toFinset (passed ∅) = passed ∅ := only_self fun _ _ => rfl
  rw [hnothing]
  apply known_contributes
  rw [hsplit]
  simp

end chain

end PassedVariables
end TerraformLs
