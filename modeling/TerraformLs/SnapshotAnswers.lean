import TerraformLs.ModuleSnapshot

/-! When a snapshot answers as the adapter does. Most answers always agree: each
field of the one walk is what a walk of its own collects. References and callers
are told apart by directory, and there the two compare paths differently. -/
namespace TerraformLs

open ModuleGraph

namespace ModuleSnapshot

section walk

variable {fs : FileSystem} {moduleDir : Option Path}

theorem blocks_used (uri : Url) (body : Body) (acc : Aggregates) :
    (body.foldl (visitBlock uri) acc).usedProviderLocals =
      ModuleGraphAdapter.collectProviderLocals body acc.usedProviderLocals := by
  rw [ModuleGraphAdapter.collectProviderLocals]
  symm
  apply List.foldl_hom Aggregates.usedProviderLocals
  intro acc item
  cases item with
  | «attribute» key span value => rfl
  | block ident labels body =>
    by_cases hterraform : ident = "terraform"
    · simp [visitBlock,ModuleGraphAdapter.addProviderLocals,hterraform]
    · simp only [visitBlock,ModuleGraphAdapter.addProviderLocals,if_neg hterraform]
      split_ifs <;> rfl

theorem blocks_providers (uri : Url) (body : Body) (acc : Aggregates) :
    (body.foldl (visitBlock uri) acc).providersWithVersion =
      body.foldl ModuleGraphAdapter.addVersionedProviders acc.providersWithVersion := by
  symm
  apply List.foldl_hom Aggregates.providersWithVersion
  intro acc item
  cases item with
  | «attribute» key span value => rfl
  | block ident labels body =>
    simp only [visitBlock,ModuleGraphAdapter.addVersionedProviders]
    split_ifs <;> rfl

/-- Notes on a flag that only goes up come to whether it is raised anywhere. -/
theorem foldl_flag {α β : Type} (flag : α → Bool) (raise : β → Bool) {step : α → β → α}
    (h : ∀ acc b, flag (step acc b) = (flag acc || raise b)) (items : List β) (acc : α) :
    flag (items.foldl step acc) = (flag acc || items.any raise) := by
  induction items generalizing acc with
  | nil => simp
  | cons item items ih => rw [List.foldl_cons,ih,h,List.any_cons,Bool.or_assoc]

theorem blocks_requiredVersion (uri : Url) (body : Body) (acc : Aggregates) :
    (body.foldl (visitBlock uri) acc).hasRequiredVersion =
      (acc.hasRequiredVersion || body.any declaresRequiredVersion) := by
  apply foldl_flag Aggregates.hasRequiredVersion
  intro acc item
  cases item with
  | «attribute» key span value => simp [visitBlock,declaresRequiredVersion]
  | block ident labels body =>
    simp only [visitBlock,declaresRequiredVersion]
    split_ifs with hterraform <;> simp [hterraform]

theorem blocks_applyable (uri : Url) (body : Body) (acc : Aggregates) :
    (body.foldl (visitBlock uri) acc).hasApplyableConfig =
      (acc.hasApplyableConfig || body.any configuresApply) := by
  apply foldl_flag Aggregates.hasApplyableConfig
  intro acc item
  cases item with
  | «attribute» key span value => simp [visitBlock,configuresApply]
  | block ident labels body =>
    simp only [visitBlock,configuresApply]
    split_ifs with hterraform hresource hprovider
    · simp [hterraform]
    · rcases hresource with rfl | rfl <;> simp
    · simp [hprovider]
    · simp [hterraform,hprovider]
    · simp [hterraform,hprovider]

/-- Notes that each item adds to come to the notes of all items. -/
theorem foldl_notes {α β γ : Type} (notes : α → List γ) (add : β → List γ) {step : α → β → α}
    (h : ∀ acc b, notes (step acc b) = notes acc ++ add b) (items : List β) (acc : α) :
    notes (items.foldl step acc) = notes acc ++ items.flatMap add := by
  induction items generalizing acc with
  | nil => simp
  | cons item items ih => rw [List.foldl_cons,ih,h,List.flatMap_cons,List.append_assoc]

theorem blocks_candidates (uri : Url) (body : Body) (acc : Aggregates) :
    (body.foldl (visitBlock uri) acc).terraformUriCandidates =
      acc.terraformUriCandidates ++
        body.flatMap fun item => if ModuleGraphAdapter.isTerraformBlock item then [uri] else [] := by
  apply foldl_notes Aggregates.terraformUriCandidates
  intro acc item
  cases item with
  | «attribute» key span value => simp [visitBlock,ModuleGraphAdapter.isTerraformBlock]
  | block ident labels inner =>
    simp only [visitBlock,ModuleGraphAdapter.isTerraformBlock]
    split_ifs with hterraform <;> simp_all

end walk

section aggregates

variable (fs : FileSystem) (s : StateStore) (moduleDir : Option Path)

theorem aggregates_used : (aggregates fs s moduleDir).usedProviderLocals =
    ModuleGraphAdapter.usedProviderLocals fs s moduleDir := by
  rw [aggregates,ModuleGraphAdapter.usedProviderLocals]
  symm
  show List.foldl _ (Aggregates.usedProviderLocals {}) _ = _
  apply List.foldl_hom Aggregates.usedProviderLocals
  intro acc e
  unfold visitDoc
  cases e.2.parsed.body with
  | none => simp
  | some body =>
    by_cases hin : inModule fs e.1 moduleDir
    · simp [hin,blocks_used]
    · simp [hin]

theorem aggregates_providers : (aggregates fs s moduleDir).providersWithVersion =
    ModuleGraphAdapter.providersWithVersionSet fs s moduleDir := by
  rw [aggregates,ModuleGraphAdapter.providersWithVersionSet]
  symm
  show List.foldl _ (Aggregates.providersWithVersion {}) _ = _
  apply List.foldl_hom Aggregates.providersWithVersion
  intro acc e
  unfold visitDoc
  cases e.2.parsed.body with
  | none => simp
  | some body =>
    by_cases hin : inModule fs e.1 moduleDir
    · simp [hin,blocks_providers]
    · simp [hin]

theorem aggregates_requiredVersion : (aggregates fs s moduleDir).hasRequiredVersion =
    ModuleGraphAdapter.moduleHasRequiredVersion fs s moduleDir := by
  rw [aggregates,ModuleGraphAdapter.moduleHasRequiredVersion]
  apply foldl_flag Aggregates.hasRequiredVersion
  intro acc e
  unfold visitDoc
  cases e.2.parsed.body with
  | none => simp
  | some body =>
    by_cases hin : inModule fs e.1 moduleDir
    · simp [hin,blocks_requiredVersion]
    · simp [hin]

theorem aggregates_applyable : (aggregates fs s moduleDir).hasApplyableConfig =
    moduleHasApplyableConfig fs s moduleDir := by
  rw [aggregates,moduleHasApplyableConfig]
  apply foldl_flag Aggregates.hasApplyableConfig
  intro acc e
  unfold visitDoc
  cases e.2.parsed.body with
  | none => simp
  | some body =>
    by_cases hin : inModule fs e.1 moduleDir
    · simp [hin,blocks_applyable]
    · simp [hin]

theorem mem_noted {body : Body} {uri noted : Url} :
    uri ∈ (body.flatMap fun item =>
        if ModuleGraphAdapter.isTerraformBlock item then [noted] else []) ↔
      body.any ModuleGraphAdapter.isTerraformBlock ∧ noted = uri := by
  rw [List.mem_flatMap,List.any_eq_true]
  constructor
  · rintro ⟨item,hitem,h⟩
    split_ifs at h with hblock
    · exact ⟨⟨item,hitem,hblock⟩,(List.mem_singleton.mp h).symm⟩
    · cases h
  · rintro ⟨⟨item,hitem,hblock⟩,rfl⟩
    exact ⟨item,hitem,by simp [hblock]⟩

theorem mem_aggregates_candidates (uri : Url) :
    uri ∈ (aggregates fs s moduleDir).terraformUriCandidates ↔
      uri ∈ ModuleGraphAdapter.terraformDocs fs s moduleDir := by
  have hnotes : (aggregates fs s moduleDir).terraformUriCandidates =
      [] ++ s.documents.entries.flatMap fun e => if inModule fs e.1 moduleDir then
        (e.2.parsed.body.getD []).flatMap fun item =>
          if ModuleGraphAdapter.isTerraformBlock item then [e.1] else [] else [] := by
    apply foldl_notes Aggregates.terraformUriCandidates
    intro acc e
    unfold visitDoc
    cases e.2.parsed.body with
    | none => simp
    | some body =>
      by_cases hin : inModule fs e.1 moduleDir
      · simp [hin,blocks_candidates]
      · simp [hin]
  rw [hnotes,List.nil_append,List.mem_flatMap,ModuleGraphAdapter.terraformDocs,List.mem_filterMap]
  refine exists_congr fun e => and_congr_right fun _ => ?_
  cases e.2.parsed.body with
  | none => simp
  | some body =>
    by_cases hin : inModule fs e.1 moduleDir
    · simp only [hin,if_true,Option.getD_some,mem_noted,Bool.true_and]
      by_cases hany : body.any ModuleGraphAdapter.isTerraformBlock
      · simp only [hany,true_and,if_true,Option.some.injEq]
      · simp only [hany,false_and,Bool.false_eq_true,if_false,reduceCtorEq]
    · simp [hin]

theorem head_insertionSort {l : List String} {x : String} :
    (l.insertionSort (· ≤ ·)).head? = some x ↔ x ∈ l ∧ ∀ y ∈ l, x ≤ y := by
  have hmem : ∀ y, y ∈ l.insertionSort (· ≤ ·) ↔ y ∈ l := fun y => List.mem_insertionSort _
  have hsorted := List.pairwise_insertionSort (· ≤ ·) l
  simp only [← hmem]
  cases hl : l.insertionSort (· ≤ ·) with
  | nil => simp
  | cons z zs =>
    rw [hl,List.pairwise_cons] at hsorted
    simp only [List.head?_cons,Option.some.injEq]
    constructor
    · rintro rfl
      refine ⟨List.mem_cons_self,fun y hy => ?_⟩
      rcases List.mem_cons.mp hy with rfl | hy
      · exact le_rfl
      · exact hsorted.1 y hy
    · rintro ⟨hx,hle⟩
      rcases List.mem_cons.mp hx with rfl | hx
      · rfl
      · exact le_antisymm (hsorted.1 x hx) (hle z List.mem_cons_self)

/-- The first candidate does not depend on how often a document is noted. -/
theorem primary_candidate :
    ((aggregates fs s moduleDir).terraformUriCandidates.insertionSort (· ≤ ·)).head? =
      ((ModuleGraphAdapter.terraformDocs fs s moduleDir).insertionSort (· ≤ ·)).head? := by
  apply Option.ext
  intro uri
  simp only [head_insertionSort,mem_aggregates_candidates]

end aggregates

section directories

variable (fs : FileSystem) (s : StateStore)

/-- A document in the directory of the caller calls the module in `dir`. -/
def CallsModule (callerDir dir : Path) : Prop :=
  ∃ e ∈ s.documents.entries, fs.parentDir e.1 = some callerDir ∧
    ∃ source ∈ literalSources (e.2.parsed.body.getD []), sourcePointsAt fs source callerDir dir

variable {fs s} {dir : Path}

theorem calledFromElsewhere_iff :
    calledFromElsewhere fs s dir ↔ ∃ callerDir ≠ dir, CallsModule fs s callerDir dir := by
  rw [calledFromElsewhere,List.any_eq_true]
  constructor
  · rintro ⟨e,he,h⟩
    cases hbody : e.2.parsed.body with
    | none => simp [hbody] at h
    | some body =>
      rw [hbody] at h
      obtain ⟨hne,source,hsource,hpoints⟩ : fs.parentDir e.1 ≠ some dir ∧
          ∃ source ∈ literalSources body,
            sourcePointsAt fs source (fs.parentDir e.1) dir := by simpa using h
      cases hcaller : fs.parentDir e.1 with
      | none =>
        rw [hcaller] at hpoints
        simp [sourcePointsAt,resolvedSource] at hpoints
      | some callerDir =>
        rw [hcaller] at hne hpoints
        have hdirs : callerDir ≠ dir := fun h => hne (congrArg some h)
        exact ⟨callerDir,hdirs,e,he,hcaller,source,by simpa [hbody] using hsource,hpoints⟩
  · rintro ⟨callerDir,hdirs,e,he,hcaller,source,hsource,hpoints⟩
    refine ⟨e,he,?_⟩
    cases hbody : e.2.parsed.body with
    | none => simp [hbody,literalSources] at hsource
    | some body =>
      have hin : source ∈ literalSources body := by simpa [hbody] using hsource
      have hany : (literalSources body).any fun source =>
          sourcePointsAt fs source (some callerDir) dir := List.any_eq_true.mpr ⟨source,hin,hpoints⟩
      simp [hcaller,hdirs,hany]

theorem mem_referencedDirs {canon : Path} (hcanon : fs.canonicalize dir = some canon) :
    canon ∈ referencedDirsInWorkspace fs s ↔ ∃ callerDir, CallsModule fs s callerDir dir := by
  have hpoints : ∀ callerDir source, resolvedSource fs callerDir source = some canon ↔
      sourcePointsAt fs source callerDir dir := by
    intro callerDir source
    rw [sourcePointsAt,hcanon]
    cases resolvedSource fs callerDir source <;> simp
  simp only [referencedDirsInWorkspace,List.mem_toFinset,List.mem_flatMap,List.mem_filterMap,
    hpoints]
  constructor
  · rintro ⟨e,he,source,hsource,h⟩
    cases hcaller : fs.parentDir e.1 with
    | none =>
      rw [hcaller] at h
      simp [sourcePointsAt,resolvedSource] at h
    | some callerDir => exact ⟨callerDir,e,he,hcaller,source,hsource,by rwa [hcaller] at h⟩
  · rintro ⟨callerDir,e,he,hcaller,source,hsource,h⟩
    exact ⟨e,he,source,hsource,by rwa [hcaller]⟩

theorem isRootViaSet_iff :
    isRootViaSet fs (some dir) (referencedDirsInWorkspace fs s) ↔
      ¬∃ callerDir, CallsModule fs s callerDir dir := by
  rw [isRootViaSet]
  cases hcanon : fs.canonicalize dir with
  | none =>
    refine iff_of_true rfl ?_
    rintro ⟨callerDir,e,he,hcaller,source,hsource,h⟩
    simp [sourcePointsAt,hcanon] at h
  | some canon => simp [mem_referencedDirs hcanon]

/-- Both ways to find a root agree unless only the module itself calls it. -/
theorem isRootViaSet_eq_iff :
    isRootViaSet fs (some dir) (referencedDirsInWorkspace fs s) =
        ModuleGraphAdapter.isRootModule fs s (some dir) ↔
      (CallsModule fs s dir dir → ∃ callerDir ≠ dir, CallsModule fs s callerDir dir) := by
  rw [Bool.eq_iff_iff,isRootViaSet_iff,ModuleGraphAdapter.isRootModule,Bool.not_eq_true',
    ← Bool.not_eq_true,calledFromElsewhere_iff,not_iff_not]
  constructor
  · exact fun h hself => h.mp ⟨dir,hself⟩
  · intro h
    constructor
    · rintro ⟨callerDir,hcall⟩
      by_cases heq : callerDir = dir
      · exact h (heq ▸ hcall)
      · exact ⟨callerDir,heq,hcall⟩
    · rintro ⟨callerDir,-,hcall⟩
      exact ⟨callerDir,hcall⟩

theorem locationInDir_of_parentDir {loc : SymbolLocation} (h : fs.parentDir loc.uri = some dir) :
    fs.locationInDir loc dir := by
  rw [FileSystem.locationInDir,FileSystem.inDir,h]
  simp [FileSystem.dirPathsMatch]

/-- A key is read alike when no reference is found through a link alone. -/
theorem hasRef_eq_iff {snapshot : ModuleSnapshot} (hdir : snapshot.moduleDir = some dir)
    (key : SymbolKey) : snapshot.hasRef fs s key = ModuleGraphAdapter.hasRef fs s (some dir) key ↔
      ((∃ loc ∈ s.referencesByName.filed key, fs.locationInDir loc dir) →
        ∃ loc ∈ s.referencesByName.filed key, fs.parentDir loc.uri = some dir) := by
  rw [hasRef,ModuleGraphAdapter.hasRef,Multimap.filed,hdir]
  cases s.referencesByName.lookup key with
  | none => simp
  | some locs =>
    simp only [Option.getD_some]
    rw [Bool.eq_iff_iff]
    simp only [List.any_eq_true,decide_eq_true_eq]
    constructor
    · exact fun h => h.mpr
    · intro h
      refine ⟨?_,h⟩
      rintro ⟨loc,hloc,hparent⟩
      exact ⟨loc,hloc,locationInDir_of_parentDir hparent⟩

end directories

/-- The keys whose references are asked for. -/
def Queried (key : SymbolKey) : Prop :=
  key.kind = .variable ∨ key.kind = .local ∨
    ∃ typeName name, key = .resource .dataSource typeName name

/-- Comparing paths as they are written finds what following links finds: a
symbol referenced in the directory is also referenced in a document under its
very path, and a module that calls itself is called from elsewhere too. -/
structure PathsSuffice (fs : FileSystem) (s : StateStore) (dir : Path) : Prop where
  references : ∀ key, Queried key →
    (∃ loc ∈ s.referencesByName.filed key, fs.locationInDir loc dir) →
      ∃ loc ∈ s.referencesByName.filed key, fs.parentDir loc.uri = some dir
  calls : CallsModule fs s dir dir → ∃ callerDir ≠ dir, CallsModule fs s callerDir dir

section answers

variable (fs : FileSystem) (parseUrl : String → Option Url) (s : StateStore)
  (moduleDir : Option Path) (uri : Url)

/-- The snapshot that the workspace scans take. -/
def taken : ModuleSnapshot :=
  build fs parseUrl s moduleDir (some (referencedDirsInWorkspace fs s))

variable {fs parseUrl s moduleDir uri}

/-- The parser of urls reads the serialised urls of the documents back. -/
def ReadsBack (parseUrl : String → Option Url) (s : StateStore) : Prop :=
  ∀ uri ∈ s.documents, parseUrl uri = some uri

theorem primary_eq (hparse : ReadsBack parseUrl s) :
    (cachedModuleLookup fs (taken fs parseUrl s moduleDir) s uri).isPrimaryTerraformDoc =
      ModuleGraphAdapter.isPrimaryTerraformDoc fs s moduleDir uri := by
  simp only [cachedModuleLookup,taken,build,ModuleGraphAdapter.isPrimaryTerraformDoc,
    primary_candidate]
  cases hhead : ((ModuleGraphAdapter.terraformDocs fs s moduleDir).insertionSort (· ≤ ·)).head? with
  | none => rfl
  | some primary =>
    have hmem : primary ∈ s.documents := by
      obtain ⟨e,he,h⟩ := List.mem_filterMap.mp (head_insertionSort.mp hhead).1
      have hkey : e.1 = primary := by
        cases hbody : e.2.parsed.body with
        | none => simp [hbody] at h
        | some body =>
          rw [hbody] at h
          dsimp only at h
          split_ifs at h
          exact Option.some.inj h
      rw [← hkey]
      exact AList.mem_keys.mpr (List.mem_map.mpr ⟨e,he,rfl⟩)
    simp [hparse primary hmem]

/-- A snapshot answers every question as the adapter does exactly when comparing
paths as they are written is enough for the module. -/
theorem cached_eq_adapter_iff (hparse : ReadsBack parseUrl s) :
    cachedModuleLookup fs (taken fs parseUrl s moduleDir) s uri =
        ModuleGraphAdapter.lookup fs s moduleDir uri ↔
      ∀ dir ∈ moduleDir, PathsSuffice fs s dir := by
  constructor
  · rintro h dir hdir
    cases hdir
    constructor
    · intro key hkey
      have htaken : (taken fs parseUrl s (some dir)).moduleDir = some dir := rfl
      apply (hasRef_eq_iff htaken key).mp
      obtain ⟨kind,name⟩ := key
      rcases hkey with rfl | rfl | ⟨typeName,name',hkey⟩
      · exact congrFun (congrArg ModuleGraphLookup.variableIsReferenced h) name
      · exact congrFun (congrArg ModuleGraphLookup.localIsReferenced h) name
      · rw [hkey]
        exact congrFun (congrFun (congrArg ModuleGraphLookup.dataSourceIsReferenced h) typeName) name'
    · exact isRootViaSet_eq_iff.mp (congrArg ModuleGraphLookup.isRootModule h)
  · intro h
    have hrefs : ∀ key, Queried key → (taken fs parseUrl s moduleDir).hasRef fs s key =
        ModuleGraphAdapter.hasRef fs s moduleDir key := by
      intro key hkey
      cases moduleDir with
      | none => rfl
      | some dir => exact (hasRef_eq_iff rfl key).mpr ((h dir rfl).references key hkey)
    have hroot : (taken fs parseUrl s moduleDir).isRoot =
        ModuleGraphAdapter.isRootModule fs s moduleDir := by
      cases moduleDir with
      | none => rfl
      | some dir => exact isRootViaSet_eq_iff.mpr (h dir rfl).calls
    have happlyable : (taken fs parseUrl s moduleDir).hasApplyableConfig =
        moduleHasApplyableConfig fs s moduleDir := aggregates_applyable fs s moduleDir
    apply ModuleGraphLookup.ext
    · funext name
      exact hrefs _ (.inl rfl)
    · funext name
      exact hrefs _ (.inr (.inl rfl))
    · funext typeName name
      exact hrefs _ (.inr (.inr ⟨typeName,name,rfl⟩))
    · exact aggregates_used fs s moduleDir
    · rfl
    · exact hroot
    · show ((taken fs parseUrl s moduleDir).isRoot && (taken fs parseUrl s moduleDir).hasApplyableConfig) = _
      rw [hroot,happlyable]
      rfl
    · exact aggregates_requiredVersion fs s moduleDir
    · exact primary_eq hparse
    · exact aggregates_providers fs s moduleDir

end answers

section oneCaller

def plainDisk : FileSystem where
  canonicalize := some
  readDir := fun _ => none
  readToString := fun _ => none
  metadata := fun _ => none
  isDir := fun _ => true
  isFile := fun _ => false
  toFilePath := fun uri => if uri = "file:///m/main.tf" then some ["m","main.tf"] else none
  fromFilePath := fun _ => none

/-- `/m/main.tf` holds one module call, with the given source. -/
def storeCalling (source : String) : StateStore where
  documents := AList.singleton "file:///m/main.tf"
    { uri := "file:///m/main.tf"
      rope := []
      version := 0
      parsed := ⟨some [.block "module" [.string "c"] [.attribute "source" none (.string source)]],[]⟩
      symbols := {}
      references := []
      testRuns := []
      formatCache := none }

theorem storeCalling_readsBack (source : String) : ReadsBack some (storeCalling source) :=
  fun _ _ => rfl

theorem calledChild_same : cachedModuleLookup plainDisk
      (taken plainDisk some (storeCalling "./c") (some ["m","c"])) (storeCalling "./c")
        "file:///m/c/main.tf" =
    ModuleGraphAdapter.lookup plainDisk (storeCalling "./c") (some ["m","c"])
      "file:///m/c/main.tf" := by
  apply (cached_eq_adapter_iff (storeCalling_readsBack "./c")).mpr
  rintro dir ⟨⟩
  constructor
  · rintro key - ⟨loc,hloc,-⟩
    cases hloc
  · intro hself
    exact ⟨["m"],by decide,_,List.mem_singleton_self _,by decide,"./c",by decide,by decide⟩

/-- A module that calls itself is a root for the adapter, and none for the snapshot. -/
theorem selfCaller_differs : cachedModuleLookup plainDisk
      (taken plainDisk some (storeCalling "./") (some ["m"])) (storeCalling "./")
        "file:///m/main.tf" ≠
    ModuleGraphAdapter.lookup plainDisk (storeCalling "./") (some ["m"]) "file:///m/main.tf" := by
  intro h
  have hroot := congrArg ModuleGraphLookup.isRootModule h
  revert hroot
  decide

end oneCaller
end ModuleSnapshot
end TerraformLs
