import Mathlib.Logic.Equiv.List
import TerraformLs.PeerReads

/-! Edits that leave the fingerprint as it was. The keys that a document defines and
refers to are in the fingerprint, so that what is asked of the indexes stays the same;
everything else is collected from the bodies of the documents. -/
namespace TerraformLs
namespace PeerReads

open ModuleGraph ModuleAggregates UnknownValue StateStore

section table

variable {s : StateStore} {uri : Url} {doc doc' : DocumentState}

/-- An entry splits its table, also after it has been replaced. -/
theorem split_at_key (doc' : DocumentState) {es : List ((_ : Url) × DocumentState)}
    (hes : es.NodupKeys) (hdoc : ⟨uri,doc⟩ ∈ es) :
    es = es.takeWhile (·.1 ≠ uri) ++ ⟨uri,doc⟩ :: (es.dropWhile (·.1 ≠ uri)).tail ∧
      es.map (fun e => (⟨e.1,if e.1 = uri then doc' else e.2⟩ : (_ : Url) × DocumentState)) =
        es.takeWhile (·.1 ≠ uri) ++ ⟨uri,doc'⟩ :: (es.dropWhile (·.1 ≠ uri)).tail := by
  induction es with
  | nil => exact absurd hdoc List.not_mem_nil
  | cons e es ih =>
    obtain ⟨hkey,htail⟩ := List.nodupKeys_cons.mp hes
    by_cases he : e.1 = uri
    · have hothers : ∀ z ∈ es, z.1 ≠ uri := by
        intro z hz hzu
        apply hkey
        rw [he,← hzu]
        exact List.mem_keys_of_mem hz
      have hself : e = ⟨uri,doc⟩ := by
        rcases List.mem_cons.mp hdoc with h | h
        · exact h.symm
        · exact absurd rfl (hothers _ h)
      have hmap : es.map (fun e =>
          (⟨e.1,if e.1 = uri then doc' else e.2⟩ : (_ : Url) × DocumentState)) = es := by
        have hid : ∀ z ∈ es,
            (⟨z.1,if z.1 = uri then doc' else z.2⟩ : (_ : Url) × DocumentState) = z := by
          intro z hz
          rw [if_neg (hothers z hz)]
        exact (List.map_congr_left hid).trans (List.map_id es)
      simp [hself,hmap]
    · have hmem : ⟨uri,doc⟩ ∈ es := by
        rcases List.mem_cons.mp hdoc with h | h
        · exact absurd (by rw [← h]) he
        · exact h
      obtain ⟨hsource,htarget⟩ := ih htail hmem
      constructor
      · simpa [he] using hsource
      · simpa [he] using htarget

theorem source_entries (hdoc : s.documents.lookup uri = some doc) :
    s.documents.entries = (replacement s uri doc doc').source :=
  (split_at_key doc' s.documents.nodupKeys (KeyedMap.mem_entries.mpr hdoc)).1

theorem target_entries (hdoc : s.documents.lookup uri = some doc) :
    (editedInPlace s uri doc').documents.entries = (replacement s uri doc doc').target :=
  (split_at_key doc' s.documents.nodupKeys (KeyedMap.mem_entries.mpr hdoc)).2

/-- The edited store holds what the store refiled under the document holds. -/
theorem edited_lookup (hdoc : s.documents.lookup uri = some doc) (u : Url) :
    (editedInPlace s uri doc').documents.lookup u = (s.refiled uri doc').documents.lookup u := by
  rw [refiled_documents,KeyedMap.lookup_insert_of]
  show (KeyedMap.mapValues (fun u doc => if u = uri then doc' else doc) s.documents).lookup u = _
  rw [KeyedMap.lookup_mapValues]
  by_cases hu : u = uri
  · subst hu
    simp [hdoc]
  · simp [hu]

theorem edited_consistent (hs : s.IndexConsistent) (hw : s.WellOwned)
    (hdoc : s.documents.lookup uri = some doc) :
    (editedInPlace s uri doc').IndexConsistent := by
  have hrefiled := refiled_consistent hs hw uri doc'
  have hlookup : ∀ u, (s.refiled uri doc').documents.lookup u =
      (editedInPlace s uri doc').documents.lookup u := fun u => (edited_lookup hdoc u).symm
  exact ⟨hrefiled.definitions.congr hlookup,hrefiled.references.congr hlookup⟩

theorem edited_wellOwned (hw : s.WellOwned) (hdoc : s.documents.lookup uri = some doc)
    (huri : doc'.uri = uri) (hown : doc'.OwnUri) : (editedInPlace s uri doc').WellOwned := by
  intro u d hd
  rw [edited_lookup hdoc,refiled_documents,KeyedMap.lookup_insert_of] at hd
  split at hd
  · rename_i hu
    cases hd
    exact ⟨by rw [huri,hu],hown⟩
  · exact hw u d hd

end table

section indexes

variable (fs : FileSystem)

/-- A document is asked about from the directory. -/
def inScope (dir : Option Path) (uri : Url) : Prop := ∀ d ∈ dir, fs.inDir uri d = true

variable {fs} {s : StateStore} {dir : Option Path}

theorem standsIn_iff (m : Multimap SymbolKey SymbolLocation) (key : SymbolKey) :
    standsIn fs m dir key = true ↔ ∃ loc ∈ m.filed key, inScope fs dir loc.uri := by
  rw [standsIn_eq_any,List.any_eq_true]
  cases dir <;> simp [inScope]

/-- What is filed under a key comes from the documents that have the key. -/
theorem exists_filed {rows : DocumentState → List (SymbolKey × SymbolLocation)}
    {m : Multimap SymbolKey SymbolLocation} (hm : InvertedIndex.Indexes rows s.documents m)
    (hown : InvertedIndex.Owned SymbolLocation.uri rows s.documents) (key : SymbolKey)
    (P : Url → Prop) : (∃ loc ∈ m.filed key, P loc.uri) ↔
      ∃ e ∈ s.documents.entries, key ∈ (rows e.2).map Prod.fst ∧ P e.1 := by
  constructor
  · rintro ⟨loc,hloc,hP⟩
    obtain ⟨u,d,hd,hrow⟩ := hm.mem_filed.mp hloc
    have hu : loc.uri = u := hown u d hd (key,loc) hrow
    exact ⟨⟨u,d⟩,KeyedMap.mem_entries.mpr hd,List.mem_map.mpr ⟨_,hrow,rfl⟩,hu ▸ hP⟩
  · rintro ⟨⟨u,d⟩,he,hkey,hP⟩
    have hd := KeyedMap.mem_entries.mp he
    obtain ⟨⟨key',loc⟩,hrow,rfl⟩ := List.mem_map.mp hkey
    refine ⟨loc,hm.mem_filed.mpr ⟨u,d,hd,hrow⟩,?_⟩
    rwa [hown u d hd _ hrow]

theorem defined_iff (hs : s.IndexConsistent) (hw : s.WellOwned) (key : SymbolKey) :
    standsIn fs s.definitionsByName dir key = true ↔
      ∃ e ∈ s.documents.entries, key ∈ (collectDocKeys e.2).definitions ∧ inScope fs dir e.1 := by
  rw [standsIn_iff,exists_filed hs.definitions (hw.definitions fun _ _ hd => hd)]
  simp only [collectDocKeys_definitions]

theorem referenced_iff (hs : s.IndexConsistent) (hw : s.WellOwned) (key : SymbolKey) :
    standsIn fs s.referencesByName dir key = true ↔
      ∃ e ∈ s.documents.entries, key ∈ (collectDocKeys e.2).references ∧ inScope fs dir e.1 := by
  rw [standsIn_iff,exists_filed hs.references (hw.references fun _ _ hd => hd)]
  simp only [collectDocKeys_references]

theorem isDefinedInModule_congr {s' : StateStore}
    (h : ∀ key, standsIn fs s'.definitionsByName dir key = standsIn fs s.definitionsByName dir key)
    (kind : ReferenceKind) : isDefinedInModule fs s' dir kind = isDefinedInModule fs s dir kind := by
  cases kind with
  | «variable» | «local» | «module» => exact h _
  | resource | dataSource => rfl

end indexes

section graph

variable {fs : FileSystem} {dir : Option Path}

theorem insertAll_eq (out : Finset String) (names : List String) :
    insertAll out names = out ∪ insertAll ∅ names := by
  apply Replacement.foldl_union
  intro acc name
  simp

theorem addProviderLocals_eq (out : Finset String) (item : Structure) :
    ModuleGraphAdapter.addProviderLocals out item =
      out ∪ ModuleGraphAdapter.addProviderLocals ∅ item := by
  cases item with
  | «attribute» key span value => simp [ModuleGraphAdapter.addProviderLocals]
  | block ident labels inner =>
    simp only [ModuleGraphAdapter.addProviderLocals]
    split
    · exact insertAll_eq out _
    · split
      · exact insertAll_eq out _
      · split
        · exact insertAll_eq out _
        · simp

theorem addVersionedProviders_eq (out : Finset String) (item : Structure) :
    ModuleGraphAdapter.addVersionedProviders out item =
      out ∪ ModuleGraphAdapter.addVersionedProviders ∅ item := by
  cases item with
  | «attribute» key span value => simp [ModuleGraphAdapter.addVersionedProviders]
  | block ident labels inner =>
    simp only [ModuleGraphAdapter.addVersionedProviders]
    split
    · exact insertAll_eq out _
    · simp

/-- Each document adds the providers that it uses. -/
theorem usedProviderLocals_iff {s s' : StateStore} {R : Replacement ((_ : Url) × DocumentState)}
    (hsource : s.documents.entries = R.source) (htarget : s'.documents.entries = R.target) :
    ModuleGraphAdapter.usedProviderLocals fs s' dir = ModuleGraphAdapter.usedProviderLocals fs s dir ↔
      ∀ name, R.Unnoticed fun e => name ∈ usedProviders fs dir e := by
  rw [ModuleGraphAdapter.usedProviderLocals,ModuleGraphAdapter.usedProviderLocals,hsource,htarget]
  apply Replacement.union_iff
  intro used e
  rw [usedProviders]
  cases e.2.parsed.body with
  | none => simp
  | some body =>
    dsimp only
    split
    · rw [collectProviderFunctionLocals,collectProviderFunctionLocals,
        ModuleGraphAdapter.collectProviderLocals,
        Replacement.foldl_union addProviderLocals_eq body used,Finset.union_assoc]
      rfl
    · simp

/-- Each document adds the providers that it gives a version. -/
theorem providersWithVersionSet_iff {s s' : StateStore}
    {R : Replacement ((_ : Url) × DocumentState)}
    (hsource : s.documents.entries = R.source) (htarget : s'.documents.entries = R.target) :
    ModuleGraphAdapter.providersWithVersionSet fs s' dir =
        ModuleGraphAdapter.providersWithVersionSet fs s dir ↔
      ∀ name, R.Unnoticed fun e => name ∈ versionedIn fs dir e := by
  rw [ModuleGraphAdapter.providersWithVersionSet,ModuleGraphAdapter.providersWithVersionSet,
    hsource,htarget]
  apply Replacement.union_iff
  intro out e
  rw [versionedIn]
  cases e.2.parsed.body with
  | none => simp
  | some body =>
    dsimp only
    split
    · exact Replacement.foldl_union addVersionedProviders_eq body out
    · simp

theorem isRootModule_iff {s s' : StateStore} {R : Replacement ((_ : Url) × DocumentState)}
    (hsource : s.documents.entries = R.source) (htarget : s'.documents.entries = R.target) :
    ModuleGraphAdapter.isRootModule fs s' dir = ModuleGraphAdapter.isRootModule fs s dir ↔
      ∀ d ∈ dir, R.Unnoticed fun e => callsInto fs d e = true := by
  cases dir with
  | none => simp [ModuleGraphAdapter.isRootModule]
  | some d =>
    have hcalled : calledFromElsewhere fs s' d = calledFromElsewhere fs s d ↔
        R.Unnoticed fun e => callsInto fs d e = true := by
      rw [calledFromElsewhere,calledFromElsewhere,hsource,htarget]
      exact R.any_iff (callsInto fs d)
    simp only [ModuleGraphAdapter.isRootModule,Bool.not_inj_iff,hcalled,Option.mem_some_iff,
      forall_eq']

theorem moduleHasRequiredVersion_iff {s s' : StateStore}
    {R : Replacement ((_ : Url) × DocumentState)}
    (hsource : s.documents.entries = R.source) (htarget : s'.documents.entries = R.target) :
    ModuleGraphAdapter.moduleHasRequiredVersion fs s' dir =
        ModuleGraphAdapter.moduleHasRequiredVersion fs s dir ↔
      R.Unnoticed fun e => requiresVersion fs dir e = true := by
  rw [ModuleGraphAdapter.moduleHasRequiredVersion,ModuleGraphAdapter.moduleHasRequiredVersion,
    hsource,htarget]
  exact R.any_iff (requiresVersion fs dir)

theorem moduleHasApplyableConfig_iff {s s' : StateStore}
    {R : Replacement ((_ : Url) × DocumentState)}
    (hsource : s.documents.entries = R.source) (htarget : s'.documents.entries = R.target) :
    moduleHasApplyableConfig fs s' dir = moduleHasApplyableConfig fs s dir ↔
      R.Unnoticed fun e => applyable fs dir e = true := by
  rw [moduleHasApplyableConfig,moduleHasApplyableConfig,hsource,htarget]
  exact R.any_iff (applyable fs dir)

/-- The answers of the adapter, when those of the indexes stay the same and so do
the documents with `terraform` blocks. -/
theorem lookup_iff {s s' : StateStore} {R : Replacement ((_ : Url) × DocumentState)}
    (hsource : s.documents.entries = R.source) (htarget : s'.documents.entries = R.target)
    (href : ∀ key, ModuleGraphAdapter.hasRef fs s' dir key = ModuleGraphAdapter.hasRef fs s dir key)
    (hdocs : ModuleGraphAdapter.terraformDocs fs s' dir = ModuleGraphAdapter.terraformDocs fs s dir)
    (peer : Url) :
    ModuleGraphAdapter.lookup fs s' dir peer = ModuleGraphAdapter.lookup fs s dir peer ↔
      (∀ name, R.Unnoticed fun e => name ∈ usedProviders fs dir e) ∧
      (∀ name, R.Unnoticed fun e => name ∈ versionedIn fs dir e) ∧
      (∀ d ∈ dir, R.Unnoticed fun e => callsInto fs d e = true) ∧
      (R.Unnoticed fun e => requiresVersion fs dir e = true) ∧
      (ModuleGraphAdapter.isRootModule fs s dir = true →
        R.Unnoticed fun e => applyable fs dir e = true) := by
  have hprimary : ModuleGraphAdapter.isPrimaryTerraformDoc fs s' dir peer =
      ModuleGraphAdapter.isPrimaryTerraformDoc fs s dir peer := by
    rw [ModuleGraphAdapter.isPrimaryTerraformDoc,ModuleGraphAdapter.isPrimaryTerraformDoc,hdocs]
  have happlyable : ∀ root config config' : Bool,
      (root && config') = (root && config) ↔ (root = true → config' = config) := by decide
  rw [ModuleGraphLookup.ext_iff,← usedProviderLocals_iff hsource htarget,
    ← providersWithVersionSet_iff hsource htarget,← isRootModule_iff hsource htarget,
    ← moduleHasRequiredVersion_iff hsource htarget,← moduleHasApplyableConfig_iff hsource htarget]
  simp only [ModuleGraphAdapter.lookup,href,hprimary,true_and]
  constructor
  · rintro ⟨hused,hroot,hconfig,hversion,hversioned⟩
    rw [hroot,happlyable] at hconfig
    exact ⟨hused,hversioned,hroot,hversion,hconfig⟩
  · rintro ⟨hused,hversioned,hroot,hversion,hconfig⟩
    refine ⟨hused,hroot,?_,hversion,hversioned⟩
    rwa [hroot,happlyable]

end graph

section bodies

variable (env : IndexerEnvironment) (peer : Url) {s s' : StateStore}
  {R : Replacement ((_ : Url) × DocumentState)}

theorem namesInModule_iff (hsource : s.documents.entries = R.source)
    (htarget : s'.documents.entries = R.target) (names : Body → Finset String) :
    namesInModule env.fs s' peer names = namesInModule env.fs s peer names ↔
      ∀ name, R.Unnoticed fun e => name ∈ namesFrom env.fs peer names e := by
  rw [namesInModule,namesInModule,hsource,htarget]
  exact Replacement.union_iff fun out e => rfl

theorem fragments_iff (hsource : s.documents.entries = R.source)
    (htarget : s'.documents.entries = R.target) (extract : Body → Option String) :
    fragments env.fs s' peer extract = fragments env.fs s peer extract ↔
      fragmentFrom env.fs peer extract R.new = fragmentFrom env.fs peer extract R.old := by
  rw [fragments,fragments,hsource,htarget]
  exact Replacement.filterMap_iff _

variable {env}

theorem inputsOf_iff {β : Type} {get : ModuleUnknownInputs → Option β}
    (hsource : s.documents.entries = R.source) (htarget : s'.documents.entries = R.target)
    (hmerge : ∀ inputs other, get (inputs.mergeMissing other) = (get inputs).or (get other))
    (hempty : get {} = none) (dir : Path) :
    get (inputsOf env s' dir) = get (inputsOf env s dir) ↔
      R.FirstUnnoticed (inputFrom env.fs get dir) := by
  rw [inputsOf,inputsOf,lookup_forDir env.fs s'.documents hmerge ∅ hempty,
    lookup_forDir env.fs s.documents hmerge ∅ hempty,hsource,htarget]
  exact Replacement.findSome?_iff _

theorem localInput_merge (name : String) (inputs other : ModuleUnknownInputs) :
    localInput name (inputs.mergeMissing other) =
      (localInput name inputs).or (localInput name other) :=
  KeyedMap.lookup_mergeMissing inputs.locals other.locals name

theorem dataInput_merge (key : String × String) (inputs other : ModuleUnknownInputs) :
    dataInput key (inputs.mergeMissing other) =
      (dataInput key inputs).or (dataInput key other) := by
  simp only [dataInput,ModuleUnknownInputs.mergeMissing,KeyedMap.lookup_mergeMissing]
  cases inputs.dataConfigs.lookup key <;> rfl

theorem resourceInput_merge (key : String × String) (inputs other : ModuleUnknownInputs) :
    resourceInput key (inputs.mergeMissing other) =
      (resourceInput key inputs).or (resourceInput key other) := by
  simp only [resourceInput,ModuleUnknownInputs.mergeMissing,KeyedMap.lookup_mergeMissing]
  cases inputs.resourceConfigs.lookup key <;> rfl

variable {peer}

/-- The reads of the rules on bodies, one by one. -/
theorem bodyReads_iff (hsource : s.documents.entries = R.source)
    (htarget : s'.documents.entries = R.target)
    (href : ∀ key, ModuleGraphAdapter.hasRef env.fs s' (env.fs.parentDir peer) key =
      ModuleGraphAdapter.hasRef env.fs s (env.fs.parentDir peer) key)
    (hdocs : ModuleGraphAdapter.terraformDocs env.fs s' (env.fs.parentDir peer) =
      ModuleGraphAdapter.terraformDocs env.fs s (env.fs.parentDir peer)) :
    bodyReads env s' peer = bodyReads env s peer ↔ EditUnnoticed env s R peer := by
  have hnames := namesInModule_iff env peer hsource htarget
  have hfragments := fragments_iff env peer hsource htarget
  have hgraph := lookup_iff hsource htarget href hdocs peer
  have hsources : ∀ name, moduleProviderSource env.fs s' peer name =
      moduleProviderSource env.fs s peer name ↔ R.FirstUnnoticed
        (fragmentFrom env.fs peer fun body => extractRequiredProviderSource body name) := by
    intro name
    rw [moduleProviderSource,moduleProviderSource,hsource,htarget]
    exact Replacement.findSome?_iff _
  have hfunctions : ∀ name, lookupLocalInOthers env.fs s' peer name =
      lookupLocalInOthers env.fs s peer name ↔
        R.FirstUnnoticed (nameFromOther env.fs peer name) := by
    intro name
    rw [lookupLocalInOthers,lookupLocalInOthers,hsource,htarget]
    exact Replacement.findSome?_iff _
  have hcalls : ∀ dir label, moduleSourceInDir env.fs s'.documents dir label =
      moduleSourceInDir env.fs s.documents dir label ↔
        R.FirstUnnoticed (sourceFrom env.fs dir label) := by
    intro dir label
    rw [moduleSourceInDir,moduleSourceInDir,hsource,htarget]
    exact Replacement.findSome?_iff _
  have houtputs : ∀ dir output, findOutputExpr env.fs s'.documents dir output =
      findOutputExpr env.fs s.documents dir output ↔
        R.FirstUnnoticed (outputFrom env.fs dir output) := by
    intro dir output
    rw [findOutputExpr,findOutputExpr,hsource,htarget]
    exact Replacement.findSome?_iff _
  have hlocals : ∀ dir name, localInput name (inputsOf env s' dir) =
      localInput name (inputsOf env s dir) ↔
        R.FirstUnnoticed (inputFrom env.fs (localInput name) dir) := fun dir name =>
    inputsOf_iff hsource htarget (localInput_merge name) rfl dir
  have hdata : ∀ dir key, dataInput key (inputsOf env s' dir) =
      dataInput key (inputsOf env s dir) ↔
        R.FirstUnnoticed (inputFrom env.fs (dataInput key) dir) := fun dir key =>
    inputsOf_iff hsource htarget (dataInput_merge key) rfl dir
  have hresources : ∀ dir key, resourceInput key (inputsOf env s' dir) =
      resourceInput key (inputsOf env s dir) ↔
        R.FirstUnnoticed (inputFrom env.fs (resourceInput key) dir) := fun dir key =>
    inputsOf_iff hsource htarget (resourceInput_merge key) rfl dir
  rw [BodyReads.ext_iff]
  simp only [bodyReads,moduleSensitiveVariables,moduleProvidersWithDefaultTags,
    ModuleAggregates.requiredVersions,ModuleAggregates.providerVersions,hnames,hfragments,hgraph,
    funext_iff,hsources,hfunctions,hcalls,houtputs,hlocals,hdata,hresources]
  constructor
  · rintro ⟨h₁,h₂,h₃,h₄,h₅,h₆,h₇,h₈,h₉,h₁₀,h₁₁,h₁₂,h₁₃,h₁₄,h₁₅,h₁₆⟩
    exact ⟨h₁,h₂,h₃,h₄,h₅,h₆,h₇,h₈,h₉,h₁₀,h₁₁,h₁₂,h₁₃,h₁₄,h₁₅,h₁₆⟩
  · intro h
    exact ⟨h.sensitive,h.defaultTags,h.requiredVersions,h.providerVersions,h.providerSources,
      h.functionProviders,h.locals,h.dataConfigs,h.resourceConfigs,h.moduleSources,h.outputs,
      h.usedProviders,h.versioned,h.calls,h.requiresVersion,h.applyable⟩

end bodies

section fingerprints

variable {env : IndexerEnvironment} {F : Fingerprinter} {s : StateStore} {uri peer : Url}
  {doc doc' : DocumentState} {dir : Option Path}

/-- What is asked of the definitions is answered as before. -/
theorem defined_eq (hs : s.IndexConsistent) (hw : s.WellOwned)
    (hdoc : s.documents.lookup uri = some doc) (huri : doc'.uri = uri) (hown : doc'.OwnUri)
    (htokens : (crossFileTokens F doc').Perm (crossFileTokens F doc)) (key : SymbolKey) :
    standsIn env.fs (editedInPlace s uri doc').definitionsByName dir key =
      standsIn env.fs s.definitionsByName dir key := by
  apply Bool.eq_iff_iff.mpr
  rw [defined_iff hs hw,defined_iff (edited_consistent hs hw hdoc)
    (edited_wellOwned hw hdoc huri hown),source_entries hdoc,target_entries hdoc]
  apply (Replacement.exists_iff _).mpr
  left
  exact and_congr (definitions_of_perm htokens key) Iff.rfl

/-- What is asked of the references is answered as before. -/
theorem referenced_eq (hs : s.IndexConsistent) (hw : s.WellOwned)
    (hdoc : s.documents.lookup uri = some doc) (huri : doc'.uri = uri) (hown : doc'.OwnUri)
    (hrefs : ∀ r ∈ doc.references, r.kind.Extracted)
    (hrefs' : ∀ r ∈ doc'.references, r.kind.Extracted)
    (htokens : (crossFileTokens F doc').Perm (crossFileTokens F doc)) (key : SymbolKey) :
    standsIn env.fs (editedInPlace s uri doc').referencesByName dir key =
      standsIn env.fs s.referencesByName dir key := by
  apply Bool.eq_iff_iff.mpr
  rw [referenced_iff hs hw,referenced_iff (edited_consistent hs hw hdoc)
    (edited_wellOwned hw hdoc huri hown),source_entries hdoc,target_entries hdoc]
  apply (Replacement.exists_iff _).mpr
  left
  exact and_congr (references_of_perm htokens hrefs hrefs' key) Iff.rfl

theorem any_terraformBlock (hdoc : TakesBlocks F doc) :
    (doc.parsed.body.getD []).any ModuleGraphAdapter.isTerraformBlock = true ↔
      F.terraformTexts doc ≠ [] := by
  have hcount := hdoc
  rw [TakesBlocks] at hcount
  rw [← List.length_pos_iff,hcount,List.countP_pos_iff,List.any_eq_true]

/-- The documents with `terraform` blocks are the same as before. -/
theorem terraformDocs_eq (hdoc : s.documents.lookup uri = some doc) (hblocks : TakesBlocks F doc)
    (hblocks' : TakesBlocks F doc')
    (htokens : (crossFileTokens F doc').Perm (crossFileTokens F doc)) :
    ModuleGraphAdapter.terraformDocs env.fs (editedInPlace s uri doc') dir =
      ModuleGraphAdapter.terraformDocs env.fs s dir := by
  rw [ModuleGraphAdapter.terraformDocs,ModuleGraphAdapter.terraformDocs,source_entries hdoc,
    target_entries hdoc]
  apply (Replacement.filterMap_iff (terraformDoc env.fs dir)).mpr
  have hany : (doc'.parsed.body.getD []).any ModuleGraphAdapter.isTerraformBlock =
      (doc.parsed.body.getD []).any ModuleGraphAdapter.isTerraformBlock := by
    apply Bool.eq_iff_iff.mpr
    rw [any_terraformBlock hblocks,any_terraformBlock hblocks']
    exact not_congr (terraformTexts_of_perm htokens)
  have hentry : ∀ d : DocumentState, terraformDoc env.fs dir ⟨uri,d⟩ =
      if inModule env.fs uri dir &&
        (d.parsed.body.getD []).any ModuleGraphAdapter.isTerraformBlock then some uri else none := by
    intro d
    rw [terraformDoc]
    cases d.parsed.body <;> simp
  show terraformDoc env.fs dir ⟨uri,doc'⟩ = terraformDoc env.fs dir ⟨uri,doc⟩
  rw [hentry,hentry,hany]

/-- An edit that keeps the fingerprint changes nothing that another document reads, and
none of its diagnostics, exactly when it goes unnoticed. -/
theorem reads_unchanged_iff (hinj : F.hash.Injective) (hs : s.IndexConsistent) (hw : s.WellOwned)
    (hdoc : s.documents.lookup uri = some doc) (huri : doc'.uri = uri) (hown : doc'.OwnUri)
    (hrefs : ∀ r ∈ doc.references, r.kind.Extracted)
    (hrefs' : ∀ r ∈ doc'.references, r.kind.Extracted)
    (hblocks : TakesBlocks F doc) (hblocks' : TakesBlocks F doc')
    (hfingerprint : crossFileFingerprint F doc' = crossFileFingerprint F doc)
    (hpeer : peer ≠ uri) :
    (reads env (editedInPlace s uri doc') peer = reads env s peer ∧
      ∀ (D : Type) (rules : DocumentState → Reads → List D),
        computeDiagnostics env (editedInPlace s uri doc') peer rules =
          computeDiagnostics env s peer rules) ↔
      (isTftestUri peer = false → EditUnnoticed env s (replacement s uri doc doc') peer) := by
  have htokens := perm_of_fingerprint hinj hfingerprint
  have hdefined : ∀ dir, isDefinedInModule env.fs (editedInPlace s uri doc') dir =
      isDefinedInModule env.fs s dir := fun dir =>
    funext (isDefinedInModule_congr (defined_eq hs hw hdoc huri hown htokens))
  have hbodies : bodyReads env (editedInPlace s uri doc') peer = bodyReads env s peer ↔
      EditUnnoticed env s (replacement s uri doc doc') peer :=
    bodyReads_iff (source_entries hdoc) (target_entries hdoc)
      (referenced_eq hs hw hdoc huri hown hrefs hrefs' htokens)
      (terraformDocs_eq hdoc hblocks hblocks' htokens)
  have hreads : reads env (editedInPlace s uri doc') peer = reads env s peer ↔
      (isTftestUri peer = false → EditUnnoticed env s (replacement s uri doc doc') peer) := by
    rw [Reads.ext_iff,← hbodies]
    simp only [reads,hdefined,true_and]
    cases isTftestUri peer <;> simp
  have hstored : (editedInPlace s uri doc').documents.lookup peer = s.documents.lookup peer := by
    rw [edited_lookup hdoc,refiled_documents,KeyedMap.lookup_insert_of,if_neg hpeer]
  rw [← hreads]
  constructor
  · intro h
    exact h.1
  · intro h
    refine ⟨h,?_⟩
    intro D rules
    rw [computeDiagnostics,computeDiagnostics,hstored,h]

/-- An edit of comments and blanks goes unnoticed. -/
theorem unnoticed_of_body (hbody : doc'.parsed.body = doc.parsed.body)
    (hsources : doc'.symbols.moduleSources = doc.symbols.moduleSources)
    (hfunctions : providerFunctionLocals 0 none doc'.rope = providerFunctionLocals 0 none doc.rope) :
    EditUnnoticed env s (replacement s uri doc doc') peer := by
  have hnames : ∀ names, namesFrom env.fs peer names ⟨uri,doc'⟩ =
      namesFrom env.fs peer names ⟨uri,doc⟩ := by
    intro names
    simp only [namesFrom,hbody]
  have hfragment : ∀ extract, fragmentFrom env.fs peer extract ⟨uri,doc'⟩ =
      fragmentFrom env.fs peer extract ⟨uri,doc⟩ := by
    intro extract
    simp only [fragmentFrom,hbody]
  have hother : ∀ name, nameFromOther env.fs peer name ⟨uri,doc'⟩ =
      nameFromOther env.fs peer name ⟨uri,doc⟩ := by
    intro name
    simp only [nameFromOther,hfragment]
  have hinput : ∀ {β : Type} (get : ModuleUnknownInputs → Option β) dir,
      inputFrom env.fs get dir ⟨uri,doc'⟩ = inputFrom env.fs get dir ⟨uri,doc⟩ := by
    intro β get dir
    simp only [inputFrom,hbody]
  have hsource : ∀ dir label, sourceFrom env.fs dir label ⟨uri,doc'⟩ =
      sourceFrom env.fs dir label ⟨uri,doc⟩ := by
    intro dir label
    simp only [sourceFrom,hsources]
  have houtput : ∀ dir output, outputFrom env.fs dir output ⟨uri,doc'⟩ =
      outputFrom env.fs dir output ⟨uri,doc⟩ := by
    intro dir output
    simp only [outputFrom,hbody]
  have hused : ∀ dir, usedProviders env.fs dir ⟨uri,doc'⟩ = usedProviders env.fs dir ⟨uri,doc⟩ := by
    intro dir
    simp only [usedProviders,hbody,collectProviderFunctionLocals,hfunctions]
  have hversioned : ∀ dir, versionedIn env.fs dir ⟨uri,doc'⟩ = versionedIn env.fs dir ⟨uri,doc⟩ := by
    intro dir
    simp only [versionedIn,hbody]
  have hcalls : ∀ dir, callsInto env.fs dir ⟨uri,doc'⟩ = callsInto env.fs dir ⟨uri,doc⟩ := by
    intro dir
    simp only [callsInto,hbody]
  have hrequires : ∀ dir, requiresVersion env.fs dir ⟨uri,doc'⟩ =
      requiresVersion env.fs dir ⟨uri,doc⟩ := by
    intro dir
    simp only [requiresVersion,hbody]
  have happlyable : ∀ dir, applyable env.fs dir ⟨uri,doc'⟩ = applyable env.fs dir ⟨uri,doc⟩ := by
    intro dir
    simp only [applyable,hbody]
  constructor
  · exact fun name => .inl (by simp only [replacement,hnames])
  · exact fun name => .inl (by simp only [replacement,hnames])
  · exact hfragment _
  · exact fun name => hfragment _
  · exact fun name => .inr (by simp only [replacement,hfragment])
  · exact fun name => .inr (by simp only [replacement,hother])
  · exact fun dir name => .inr (by simp only [replacement,hinput])
  · exact fun dir key => .inr (by simp only [replacement,hinput])
  · exact fun dir key => .inr (by simp only [replacement,hinput])
  · exact fun dir label => .inr (by simp only [replacement,hsource])
  · exact fun dir output => .inr (by simp only [replacement,houtput])
  · exact fun name => .inl (by simp only [replacement,hused])
  · exact fun name => .inl (by simp only [replacement,hversioned])
  · exact fun dir hdir => .inl (by simp only [replacement,hcalls])
  · exact .inl (by simp only [replacement,hrequires])
  · exact fun hroot => .inl (by simp only [replacement,happlyable])

end fingerprints

section password

/-- Documents without `terraform` blocks, told apart by all of their tokens. -/
def tokenFingerprinter : Fingerprinter :=
  ⟨fun tokens => Encodable.encode (tokens.map fun t => t.toList.map Char.toNat),fun _ => []⟩

theorem tokenFingerprinter_injective : tokenFingerprinter.hash.Injective := by
  have hchar : Function.Injective Char.toNat := fun a b h => Char.toNat_inj.mp h
  have htext : Function.Injective fun t : String => t.toList.map Char.toNat := fun a b h =>
    String.toList_inj.mp (List.map_injective_iff.mpr hchar h)
  intro tokens tokens' h
  exact List.map_injective_iff.mpr htext (Encodable.encode_injective h)

def mainEnvironment : IndexerEnvironment :=
  PeerDiagnostics.consumerPipeline.toIndexerEnvironment

/-- `/m/main.tf` declares the variable `pw`. -/
def declaringDoc (text : String) (body : Body) : DocumentState where
  uri := mainUri
  rope := text.toList
  version := 1
  parsed := ⟨some [.block "variable" [.string "pw"] body],[]⟩
  symbols := { «variables» := AList.singleton "pw" (declaredSymbol "pw" mainUri []) }
  references := []
  testRuns := []
  formatCache := none

def plainDoc : DocumentState := declaringDoc "variable \"pw\" {}" []

def commentedDoc : DocumentState := declaringDoc "variable \"pw\" {} # the password" []

def sensitiveDoc : DocumentState :=
  declaringDoc "variable \"pw\" \x7b sensitive = true \x7d"
    [.attribute "sensitive" none (.bool true)]

/-- `/m/use.tf` outputs the variable. -/
def exposingDoc : DocumentState where
  uri := PeerDiagnostics.consumerUri
  rope := "output \"p\" \x7b value = var.pw \x7d".toList
  version := 1
  parsed := ⟨some [.block "output" [.string "p"]
    [.attribute "value" none (.traversal (.variable "var") [.getAttr "pw"])]],[]⟩
  symbols := {}
  references := [⟨.variable "pw",⟨PeerDiagnostics.consumerUri,0,21,0,27⟩⟩]
  testRuns := []
  formatCache := none

def passwordStore : StateStore :=
  ((({} : StateStore).upsertDocument exposingDoc).upsertDocument plainDoc).markOpen
    PeerDiagnostics.consumerUri

/-- The rule on outputs that expose a sensitive variable. -/
def sensitiveOutputRule (doc : DocumentState) (reads : Reads) : List String :=
  match doc.parsed.body,reads.body with
  | some body,some bodyReads => sensitiveOutputDiagnostics body bodyReads.sensitiveVariables
  | _,_ => []

/-- The text and the body of the declaration leave no trace in the fingerprint. -/
theorem declaringDoc_fingerprint (text text' : String) (body body' : Body) :
    crossFileFingerprint tokenFingerprinter (declaringDoc text body) =
      crossFileFingerprint tokenFingerprinter (declaringDoc text' body') := by
  have htokens : crossFileTokens tokenFingerprinter (declaringDoc text body) =
      crossFileTokens tokenFingerprinter (declaringDoc text' body') := rfl
  rw [crossFileFingerprint,crossFileFingerprint,htokens]

theorem exposingDoc_ownUri : exposingDoc.OwnUri := ⟨by decide,by decide⟩

theorem plainDoc_ownUri : plainDoc.OwnUri := ⟨by decide,by decide⟩

theorem passwordStore_wellOwned : passwordStore.WellOwned := by
  intro u d hd
  rw [passwordStore,StateStore.markOpen,upsertDocument_documents,KeyedMap.lookup_insert_of,
    upsertDocument_documents,KeyedMap.lookup_insert_of] at hd
  split at hd
  · rename_i hu
    cases hd
    exact ⟨hu.symm,plainDoc_ownUri⟩
  · split at hd
    · rename_i hu
      cases hd
      exact ⟨hu.symm,exposingDoc_ownUri⟩
    · cases hd

theorem passwordStore_consistent : passwordStore.IndexConsistent := by
  have hempty : ({} : StateStore).WellOwned := by
    intro u d hd
    cases hd
  have hexposing : (({} : StateStore).upsertDocument exposingDoc).IndexConsistent := by
    rw [upsertDocument_eq]
    exact refiled_consistent indexConsistent_empty hempty _ _
  have howned : (({} : StateStore).upsertDocument exposingDoc).WellOwned := by
    intro u d hd
    rw [upsertDocument_documents,KeyedMap.lookup_insert_of] at hd
    split at hd
    · rename_i hu
      cases hd
      exact ⟨hu.symm,exposingDoc_ownUri⟩
    · cases hd
  have hboth : ((({} : StateStore).upsertDocument exposingDoc).upsertDocument plainDoc
      ).IndexConsistent := by
    rw [upsertDocument_eq]
    exact refiled_consistent hexposing howned _ _
  exact ⟨hboth.definitions,hboth.references⟩

/-- A comment is seen by nobody else. -/
theorem comment_unnoticed :
    reads mainEnvironment (editedInPlace passwordStore mainUri commentedDoc)
        PeerDiagnostics.consumerUri =
      reads mainEnvironment passwordStore PeerDiagnostics.consumerUri ∧
    ∀ (D : Type) (rules : DocumentState → Reads → List D),
      computeDiagnostics mainEnvironment (editedInPlace passwordStore mainUri commentedDoc)
          PeerDiagnostics.consumerUri rules =
        computeDiagnostics mainEnvironment passwordStore PeerDiagnostics.consumerUri rules := by
  have hdoc : passwordStore.documents.lookup mainUri = some plainDoc := rfl
  have hown : commentedDoc.OwnUri := ⟨by decide,by decide⟩
  have hrefs : ∀ r ∈ plainDoc.references, r.kind.Extracted := fun r hr => nomatch hr
  have hrefs' : ∀ r ∈ commentedDoc.references, r.kind.Extracted := fun r hr => nomatch hr
  apply (reads_unchanged_iff tokenFingerprinter_injective passwordStore_consistent
    passwordStore_wellOwned hdoc rfl hown hrefs hrefs' rfl rfl (declaringDoc_fingerprint _ _ _ _)
    (by decide)).mpr
  intro htest
  exact unnoticed_of_body rfl rfl (by decide)

/-- The variable becomes sensitive: the fingerprint stays the same, and the open peer
that outputs it has an error to report. -/
theorem sensitive_noticed :
    tokenFingerprinter.hash.Injective ∧ passwordStore.IndexConsistent ∧
      crossFileFingerprint tokenFingerprinter sensitiveDoc =
        crossFileFingerprint tokenFingerprinter plainDoc ∧
      PeerDiagnostics.openPeersInScope mainEnvironment passwordStore mainUri =
        [PeerDiagnostics.consumerUri] ∧
      moduleSensitiveVariables mainEnvironment.fs (editedInPlace passwordStore mainUri sensitiveDoc)
          PeerDiagnostics.consumerUri ≠
        moduleSensitiveVariables mainEnvironment.fs passwordStore PeerDiagnostics.consumerUri ∧
      computeDiagnostics mainEnvironment (editedInPlace passwordStore mainUri sensitiveDoc)
          PeerDiagnostics.consumerUri sensitiveOutputRule ≠
        computeDiagnostics mainEnvironment passwordStore PeerDiagnostics.consumerUri
          sensitiveOutputRule := by
  refine ⟨tokenFingerprinter_injective,passwordStore_consistent,declaringDoc_fingerprint _ _ _ _,
    by decide,?_,?_⟩
  · have hnow : moduleSensitiveVariables mainEnvironment.fs
        (editedInPlace passwordStore mainUri sensitiveDoc) PeerDiagnostics.consumerUri = {"pw"} := by
      decide
    have hbefore : moduleSensitiveVariables mainEnvironment.fs passwordStore
        PeerDiagnostics.consumerUri = ∅ := by
      decide
    rw [hnow,hbefore]
    decide
  · decide

end password

end PeerReads
end TerraformLs
