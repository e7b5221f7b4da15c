import TerraformLs.ModuleAggregates
import TerraformLs.PassedVariables
import TerraformLs.PeerDiagnostics
import TerraformLs.Replacement
import TerraformLs.StoreIndex

/-! What a document aggregates over its module when stored documents go by other
spellings of their paths. Some aggregates compare directories as they are spelled,
others follow links. -/
namespace TerraformLs
namespace PathSpellings

open ModuleAggregates PassedVariables PeerDiagnostics UnknownValue

section locks

structure ProviderAddress where
  hostname : String
  «namespace» : String
  type : String
  deriving DecidableEq

/-- Both public registries count as one host. -/
def canonicaliseHostname (host : String) : String :=
  if host = "registry.opentofu.org" then "registry.terraform.io" else host

def ProviderAddress.new (hostname ns type : String) : ProviderAddress :=
  ⟨canonicaliseHostname hostname,ns,type⟩

def ProviderAddress.hashicorp (name : String) : ProviderAddress :=
  .new "registry.terraform.io" "hashicorp" name

def ProviderAddress.parse (input : String) : Option ProviderAddress :=
  match (input.toList.splitOn '/').map String.ofList with
  | [hostname,ns,type] => some (.new hostname ns type)
  | [ns,type] => some (.new "registry.terraform.io" ns type)
  | _ => none

/-- The version that each provider is locked at. -/
abbrev LockFile := KeyedMap ProviderAddress String

/-- Another host of the same provider will do. -/
def LockFile.get (lock : LockFile) (address : ProviderAddress) : Option String :=
  (AList.lookup address lock).or ((lock.entries.find? fun e =>
    e.1.namespace = address.namespace && e.1.type = address.type).map Sigma.snd)

def canonicalOrOwned (fs : FileSystem) (path : Path) : Path := (fs.canonicalize path).getD path

/-- Without a source of its own a provider is one of HashiCorp's. -/
def lockedAddress (fs : FileSystem) (s : StateStore) (primaryUri : Url) (providerName : String) :
    Option ProviderAddress :=
  match moduleProviderSource fs s primaryUri providerName with
  | some source => ProviderAddress.parse source
  | none => some (ProviderAddress.hashicorp providerName)

/-- The lock file is asked for under the canonical path of the directory. -/
def moduleLockedProviderVersion (fs : FileSystem) (s : StateStore) (locks : Path → Option LockFile)
    (primaryUri : Url) (providerName : String) : Option String := do
  let targetDir ← fs.parentDir primaryUri
  let lock ← locks (canonicalOrOwned fs targetDir)
  let address ← lockedAddress fs s primaryUri providerName
  lock.get address

end locks

section inputs

variable (fs : FileSystem) (primaryUri : Url)

def moduleUnknownInputs (s : StateStore) (extraPlanKnown : KeyedMap (String × String) (List String)) :
    ModuleUnknownInputs :=
  match fs.parentDir primaryUri with
  | some dir => moduleUnknownInputsForDir fs s.documents extraPlanKnown dir
  | none => {}

/-- The variables into which callers of the module pass unknown values. -/
def callerPassedUnknowns (vars : UnknownModuleVars) : KeyedMap String UnknownVarInfo :=
  match fs.parentDir primaryUri with
  | some dir => (fillUnknownVariables fs vars dir {}).unknownVariables
  | none => ∅

end inputs

section respelling

/-- The documents of those names, and all that is known about their modules. -/
structure Workspace (fs : FileSystem) (uris : List Url) where
  store : StateStore
  vars : UnknownModuleVars
  locks : Path → Option LockFile
  extraPlanKnown : KeyedMap (String × String) (List String)
  named : store.documents.keys = uris
  definitionsLocated : ∀ key, ∀ loc ∈ store.definitionsByName.filed key, loc.uri ∈ uris
  referencesLocated : ∀ key, ∀ loc ∈ store.referencesByName.filed key, loc.uri ∈ uris
  varsCanonical : ∀ dir ∈ vars, fs.canonicalize dir = some dir

/-- Other spellings for the files of the documents. -/
structure Respelling (fs : FileSystem) (uris : List Url) where
  spell : Url → Url
  nodup : uris.Nodup
  injective : ∀ u ∈ uris, ∀ v ∈ uris, spell u = spell v → u = v
  sameFile : ∀ u ∈ uris, spell u = u ∨ ∃ path path' canon, fs.toFilePath u = some path ∧
    fs.toFilePath (spell u) = some path' ∧ fs.canonicalize path = some canon ∧
      fs.canonicalize path' = some canon

variable (spell : Url → Url)

def respellLocation (loc : SymbolLocation) : SymbolLocation := { loc with uri := spell loc.uri }

def respellSymbol (symbol : Symbol) : Symbol :=
  { symbol with location := respellLocation spell symbol.location }

def respellTable (symbols : SymbolTable) : SymbolTable where
  «variables» := symbols.variables.mapValues fun _ => respellSymbol spell
  locals := symbols.locals.mapValues fun _ => respellSymbol spell
  outputs := symbols.outputs.mapValues fun _ => respellSymbol spell
  resources := symbols.resources.mapValues fun _ => respellSymbol spell
  dataSources := symbols.dataSources.mapValues fun _ => respellSymbol spell
  modules := symbols.modules.mapValues fun _ => respellSymbol spell
  moduleSources := symbols.moduleSources

def respellDocument (doc : DocumentState) : DocumentState :=
  { doc with
    uri := spell doc.uri
    symbols := respellTable spell doc.symbols
    references := doc.references.map fun r => { r with location := respellLocation spell r.location }
    testRuns := doc.testRuns.map (respellSymbol spell) }

def respellEntry (e : (_ : Url) × DocumentState) : (_ : Url) × DocumentState :=
  ⟨spell e.1,respellDocument spell e.2⟩

def respellIndex (m : Multimap SymbolKey SymbolLocation) : Multimap SymbolKey SymbolLocation :=
  m.mapValues fun _ => List.map (respellLocation spell)

variable {spell} {fs : FileSystem} {uris : List Url}

theorem respelled_nodupKeys (w : Workspace fs uris) (r : Respelling fs uris) :
    (w.store.documents.entries.map (respellEntry r.spell)).NodupKeys := by
  have hkeys : (w.store.documents.entries.map (respellEntry r.spell)).keys =
      w.store.documents.keys.map r.spell := by
    simp [List.keys,AList.keys,respellEntry,Function.comp_def]
  rw [List.NodupKeys,hkeys,w.named]
  exact List.Nodup.map_on r.injective r.nodup

/-- The store with the documents under their new names. -/
def Workspace.respell (w : Workspace fs uris) (r : Respelling fs uris) : StateStore :=
  { w.store with
    documents := ⟨w.store.documents.entries.map (respellEntry r.spell),respelled_nodupKeys w r⟩
    definitionsByName := respellIndex r.spell w.store.definitionsByName
    referencesByName := respellIndex r.spell w.store.referencesByName
    openDocs := (w.store.openDocs.filter (· ∈ uris)).image r.spell }

theorem filed_located {rows : DocumentState → List (SymbolKey × SymbolLocation)}
    {m : Multimap SymbolKey SymbolLocation} {documents : KeyedMap Url DocumentState}
    (hm : InvertedIndex.Indexes rows documents m)
    (hown : InvertedIndex.Owned SymbolLocation.uri rows documents) {key : SymbolKey}
    {loc : SymbolLocation} (h : loc ∈ m.filed key) : loc.uri ∈ documents.keys := by
  obtain ⟨u,d,hd,hrow⟩ := hm.mem_filed.mp h
  have huri : loc.uri = u := hown u d hd _ hrow
  rw [huri,← AList.mem_keys,← AList.lookup_isSome,hd]
  rfl

/-- What is indexed for the documents of a consistent store lies in them. -/
theorem indexed_located {s : StateStore} (h : s.IndexConsistent) (hw : s.WellOwned)
    (key : SymbolKey) : (∀ loc ∈ s.definitionsByName.filed key, loc.uri ∈ s.documents.keys) ∧
      ∀ loc ∈ s.referencesByName.filed key, loc.uri ∈ s.documents.keys :=
  ⟨fun _ => filed_located h.definitions (hw.definitions fun _ _ hd => hd),
    fun _ => filed_located h.references (hw.references fun _ _ hd => hd)⟩

end respelling

section aggregates

variable (env : IndexerEnvironment) {uris : List Url}

/-- What a document aggregates over its module is the same under its new name. -/
structure Unchanged (w : Workspace env.fs uris) (r : Respelling env.fs uris) (u : Url) : Prop where
  definitions : ∀ key, standsIn env.fs (w.respell r).definitionsByName
    (env.fs.parentDir (r.spell u)) key =
      standsIn env.fs w.store.definitionsByName (env.fs.parentDir u) key
  references : ∀ key, ModuleGraphAdapter.hasRef env.fs (w.respell r)
    (env.fs.parentDir (r.spell u)) key =
      ModuleGraphAdapter.hasRef env.fs w.store (env.fs.parentDir u) key
  sensitive : moduleSensitiveVariables env.fs (w.respell r) (r.spell u) =
    moduleSensitiveVariables env.fs w.store u
  defaultTags : moduleProvidersWithDefaultTags env.fs (w.respell r) (r.spell u) =
    moduleProvidersWithDefaultTags env.fs w.store u
  unknownInputs : moduleUnknownInputs env.fs (r.spell u) (w.respell r) w.extraPlanKnown =
    moduleUnknownInputs env.fs u w.store w.extraPlanKnown
  requiredVersions : requiredVersions env.fs (w.respell r) (r.spell u) =
    requiredVersions env.fs w.store u
  providerVersions : ∀ name, providerVersions env.fs (w.respell r) (r.spell u) name =
    providerVersions env.fs w.store u name
  lockedVersion : ∀ name,
    moduleLockedProviderVersion env.fs (w.respell r) w.locks (r.spell u) name =
      moduleLockedProviderVersion env.fs w.store w.locks u name
  passed : callerPassedUnknowns env.fs (r.spell u) w.vars = callerPassedUnknowns env.fs u w.vars
  peers : openPeersInScope env (w.respell r) (r.spell u) =
    (openPeersInScope env w.store u).map r.spell

/-- A location in the second document stands in the module of the first. -/
def visible (fs : FileSystem) (u v : Url) : Bool := (fs.parentDir u).all (fs.inDir v)

def sharesScope (u v : Url) : Bool :=
  (moduleScopeDir env u).any fun scope => moduleScopeDir env v = some scope

/-- The directory under which the lock file of the module is asked for. -/
def lockDir (fs : FileSystem) (u : Url) : Option Path :=
  (fs.parentDir u).map (canonicalOrOwned fs)

/-- The other spellings keep which documents are neighbours, in each of the ways
in which neighbours are told. -/
structure Kept (uris : List Url) (spell : Url → Url) : Prop where
  besides : ∀ u ∈ uris, ∀ v ∈ uris, besides env.fs (spell u) (spell v) = besides env.fs u v
  visible : ∀ u ∈ uris, ∀ v ∈ uris, visible env.fs (spell u) (spell v) = visible env.fs u v
  scope : ∀ u ∈ uris, ∀ v ∈ uris, sharesScope env (spell u) (spell v) = sharesScope env u v
  lock : ∀ u ∈ uris, lockDir env.fs (spell u) = lockDir env.fs u

end aggregates

section keeping

variable {env : IndexerEnvironment} {uris : List Url} {w : Workspace env.fs uris}
  {r : Respelling env.fs uris} {u : Url}

theorem Workspace.mem_uris (w : Workspace env.fs uris) {e : (_ : Url) × DocumentState}
    (he : e ∈ w.store.documents.entries) : e.1 ∈ uris := by
  rw [← w.named]
  exact List.mem_map_of_mem (f:=Sigma.fst) he

/-- The neighbours of a document contribute the same names. -/
theorem Kept.namesInModule (hk : Kept env uris r.spell) (hu : u ∈ uris)
    (names : Body → Finset String) :
    namesInModule env.fs (w.respell r) (r.spell u) names = namesInModule env.fs w.store u names := by
  change (w.store.documents.entries.map (respellEntry r.spell)).foldl _ ∅ = _
  rw [List.foldl_map]
  apply List.foldl_ext
  intro out e he
  have hb := hk.besides u hu e.1 (w.mem_uris he)
  simp [namesFrom,respellEntry,respellDocument,hb]

theorem Kept.fragments (hk : Kept env uris r.spell) (hu : u ∈ uris)
    (extract : Body → Option String) :
    fragments env.fs (w.respell r) (r.spell u) extract = fragments env.fs w.store u extract := by
  change (w.store.documents.entries.map (respellEntry r.spell)).filterMap _ = _
  rw [List.filterMap_map]
  apply List.filterMap_congr
  intro e he
  have hb := hk.besides u hu e.1 (w.mem_uris he)
  simp [fragmentFrom,respellEntry,respellDocument,hb]

theorem moduleProviderSource_eq (fs : FileSystem) (s : StateStore) (primaryUri : Url)
    (name : String) : moduleProviderSource fs s primaryUri name =
      (ModuleAggregates.fragments fs s primaryUri
        fun body => extractRequiredProviderSource body name).head? := by
  rw [moduleProviderSource,ModuleAggregates.fragments,List.head?_filterMap]

theorem Kept.moduleProviderSource (hk : Kept env uris r.spell) (hu : u ∈ uris) (name : String) :
    moduleProviderSource env.fs (w.respell r) (r.spell u) name =
      moduleProviderSource env.fs w.store u name := by
  rw [moduleProviderSource_eq,moduleProviderSource_eq,hk.fragments hu]

/-- A document has a directory when it is its own neighbour. -/
theorem besides_self (fs : FileSystem) (u : Url) : besides fs u u = (fs.parentDir u).isSome := by
  unfold ModuleAggregates.besides
  cases fs.parentDir u <;> simp

theorem Kept.isSome_parentDir (hk : Kept env uris r.spell) (hu : u ∈ uris) :
    (env.fs.parentDir (r.spell u)).isSome = (env.fs.parentDir u).isSome := by
  rw [← besides_self,← besides_self,hk.besides u hu u hu]

theorem Kept.moduleUnknownInputs (hk : Kept env uris r.spell) (hu : u ∈ uris)
    (extraPlanKnown : KeyedMap (String × String) (List String)) :
    moduleUnknownInputs env.fs (r.spell u) (w.respell r) extraPlanKnown =
      moduleUnknownInputs env.fs u w.store extraPlanKnown := by
  have hsome := hk.isSome_parentDir hu
  have hvisible := hk.visible u hu
  unfold PathSpellings.moduleUnknownInputs
  unfold PathSpellings.visible at hvisible
  cases hd : env.fs.parentDir u with
  | none =>
    rw [hd] at hsome
    have hd' : env.fs.parentDir (r.spell u) = none :=
      Option.not_isSome_iff_eq_none.mp (by simp [hsome])
    rw [hd']
  | some dir =>
    rw [hd] at hsome
    obtain ⟨dir',hd'⟩ := Option.isSome_iff_exists.mp hsome
    rw [hd']
    change (w.store.documents.entries.map (respellEntry r.spell)).foldl _ _ = _
    rw [List.foldl_map]
    apply List.foldl_ext
    intro out e he
    have hv := hvisible e.1 (w.mem_uris he)
    rw [hd,hd'] at hv
    simp only [Option.all_some] at hv
    simp [addDocument,respellEntry,respellDocument,hv]

/-- An index is asked for locations in a directory, or for any at all. -/
def standsAt (fs : FileSystem) (u : Url) (locs : List SymbolLocation) : Bool :=
  locs.any fun loc => visible fs u loc.uri

theorem standsIn_parentDir (fs : FileSystem) (m : Multimap SymbolKey SymbolLocation) (u : Url)
    (key : SymbolKey) : standsIn fs m (fs.parentDir u) key = standsAt fs u (m.filed key) := by
  rw [standsIn_eq_any]
  rfl

theorem filed_respellIndex (spell : Url → Url) (m : Multimap SymbolKey SymbolLocation)
    (key : SymbolKey) :
    (respellIndex spell m).filed key = (m.filed key).map (respellLocation spell) := by
  unfold Multimap.filed respellIndex
  rw [KeyedMap.lookup_mapValues]
  cases m.lookup key <;> rfl

theorem Kept.standsIn (hk : Kept env uris r.spell) (hu : u ∈ uris)
    {m : Multimap SymbolKey SymbolLocation} {key : SymbolKey}
    (hm : ∀ loc ∈ m.filed key, loc.uri ∈ uris) :
    standsIn env.fs (respellIndex r.spell m) (env.fs.parentDir (r.spell u)) key =
      standsIn env.fs m (env.fs.parentDir u) key := by
  rw [standsIn_parentDir,standsIn_parentDir,filed_respellIndex,standsAt,standsAt,List.any_map]
  rw [Bool.eq_iff_iff,List.any_eq_true,List.any_eq_true]
  refine exists_congr fun loc => and_congr_right fun hloc => ?_
  simp only [Function.comp_apply,respellLocation,hk.visible u hu loc.uri (hm loc hloc)]

theorem lockedVersion_eq (fs : FileSystem) (s : StateStore) (locks : Path → Option LockFile)
    (u : Url) (name : String) : moduleLockedProviderVersion fs s locks u name =
      (lockDir fs u).bind fun dir => (locks dir).bind fun lock =>
        (lockedAddress fs s u name).bind lock.get := by
  unfold moduleLockedProviderVersion lockDir
  cases fs.parentDir u <;> rfl

/-- Callers file what they pass under canonical paths, where it is found. -/
theorem lookup_canonical {fs : FileSystem} {vars : UnknownModuleVars}
    (hvars : ∀ dir ∈ vars, fs.canonicalize dir = some dir) (dir : Path) :
    (vars.lookup dir).or ((fs.canonicalize dir).bind fun canon => vars.lookup canon) =
      vars.lookup (canonicalOrOwned fs dir) := by
  unfold canonicalOrOwned
  by_cases hdir : dir ∈ vars
  · rw [hvars dir hdir]
    simp
  · rw [AList.lookup_eq_none.mpr hdir,Option.none_or]
    cases fs.canonicalize dir with
    | none => simpa using (AList.lookup_eq_none.mpr hdir).symm
    | some canon => rfl

theorem callerPassedUnknowns_eq {fs : FileSystem} {vars : UnknownModuleVars}
    (hvars : ∀ dir ∈ vars, fs.canonicalize dir = some dir) (u : Url) :
    callerPassedUnknowns fs u vars = match (lockDir fs u).bind vars.lookup with
      | some callers => (callers.entries.flatMap fun e => e.2.entries).foldl joinBits ∅
      | none => ∅ := by
  unfold callerPassedUnknowns lockDir
  cases fs.parentDir u with
  | none => rfl
  | some dir =>
    simp only [fillUnknownVariables,lookup_canonical hvars dir,Option.map_some,Option.bind_some]
    cases vars.lookup (canonicalOrOwned fs dir) <;> rfl

theorem sharesScope_self (env : IndexerEnvironment) (u : Url) :
    sharesScope env u u = (moduleScopeDir env u).isSome := by
  unfold sharesScope
  cases moduleScopeDir env u <;> simp

theorem isOpen_respell {v : Url} (hv : v ∈ uris) :
    (w.respell r).isOpen (r.spell v) = w.store.isOpen v := by
  have hmem : r.spell v ∈ (w.respell r).openDocs ↔ v ∈ w.store.openDocs := by
    simp only [Workspace.respell,Finset.mem_image,Finset.mem_filter]
    constructor
    · rintro ⟨v',⟨hopen,hv'⟩,h⟩
      rwa [← r.injective v' hv' v hv h]
    · exact fun hopen => ⟨v,⟨hopen,hv⟩,rfl⟩
  simp only [StateStore.isOpen,hmem]

theorem mem_peers {s : StateStore} {u v : Url} : v ∈ openPeersInScope env s u ↔
    v ∈ s.documents.keys ∧ v ≠ u ∧ s.isOpen v = true ∧ sharesScope env u v = true := by
  rw [mem_openPeersInScope,AList.mem_keys,sharesScope]
  cases moduleScopeDir env u <;> simp

theorem isSome_moduleScopeDir (env : IndexerEnvironment) (u : Url) :
    (moduleScopeDir env u).isSome = (env.fs.parentDir u).isSome := by
  unfold moduleScopeDir
  split
  · rw [Server.moduleUnderTestDir,Option.isSome_map,FileSystem.parentDir]
  · rfl

theorem respell_keys (w : Workspace env.fs uris) (r : Respelling env.fs uris) :
    (w.respell r).documents.keys = uris.map r.spell := by
  have hkeys : (w.respell r).documents.keys = w.store.documents.keys.map r.spell := by
    simp [Workspace.respell,AList.keys,List.keys,respellEntry,Function.comp_def]
  rw [hkeys,w.named]

/-- Each of the documents is a peer after when it was one before. -/
theorem Kept.openPeersInScope (hk : Kept env uris r.spell) (hu : u ∈ uris) :
    openPeersInScope env (w.respell r) (r.spell u) =
      (openPeersInScope env w.store u).map r.spell := by
  have hscope := hk.scope u hu
  have hdefined : (moduleScopeDir env (r.spell u)).isSome = (moduleScopeDir env u).isSome := by
    rw [← sharesScope_self,← sharesScope_self,hscope u hu]
  unfold PeerDiagnostics.openPeersInScope
  unfold sharesScope at hscope
  cases hd : moduleScopeDir env u with
  | none =>
    rw [hd] at hdefined
    have hd' : moduleScopeDir env (r.spell u) = none :=
      Option.not_isSome_iff_eq_none.mp (by simp [hdefined])
    rw [hd']
    rfl
  | some scope =>
    rw [hd] at hdefined
    obtain ⟨scope',hd'⟩ := Option.isSome_iff_exists.mp hdefined
    simp only [hd,hd',Option.any_some] at hscope
    simp only [hd',respell_keys,w.named]
    rw [List.filter_map]
    congr 1
    apply List.filter_congr
    intro v hv
    have hne : r.spell v = r.spell u ↔ v = u := ⟨r.injective v hv u hu,congrArg r.spell⟩
    simp only [Function.comp_apply,hscope v hv,isOpen_respell hv,ne_eq,hne]

/-- What is kept by the names is kept in every aggregate. -/
theorem Kept.unchanged (hk : Kept env uris r.spell) (w : Workspace env.fs uris) (hu : u ∈ uris) :
    Unchanged env w r u where
  definitions key := hk.standsIn hu (w.definitionsLocated key)
  references key := hk.standsIn hu (w.referencesLocated key)
  sensitive := hk.namesInModule hu _
  defaultTags := hk.namesInModule hu _
  unknownInputs := hk.moduleUnknownInputs hu _
  requiredVersions := hk.fragments hu _
  providerVersions _ := hk.fragments hu _
  lockedVersion name := by
    rw [lockedVersion_eq,lockedVersion_eq,hk.lock u hu,lockedAddress,lockedAddress,
      hk.moduleProviderSource hu]
  passed := by
    rw [callerPassedUnknowns_eq w.varsCanonical,callerPassedUnknowns_eq w.varsCanonical,
      hk.lock u hu]
  peers := hk.openPeersInScope hu

end keeping

section probes

variable {env : IndexerEnvironment} {uris : List Url} (r : Respelling env.fs uris)

def probeDocument (uri : Url) (body : Option Body) : DocumentState where
  uri := uri
  rope := []
  version := 0
  parsed := ⟨body,[]⟩
  symbols := {}
  references := []
  testRuns := []
  formatCache := none

/-- Documents with those bodies, and nothing else. -/
def probe (body : Url → Option Body) : Workspace env.fs uris where
  store := { documents := ⟨uris.map fun u => ⟨u,probeDocument u (body u)⟩,by
    rw [List.NodupKeys,List.keys,List.map_map]
    exact List.Nodup.map_on (fun u _ v _ h => h) r.nodup⟩ }
  vars := ∅
  locks := fun _ => none
  extraPlanKnown := ∅
  named := by simp [AList.keys,List.keys,Function.comp_def]
  definitionsLocated := by simp
  referencesLocated := by simp
  varsCanonical := by simp

variable {r} (h : ∀ w : Workspace env.fs uris, ∀ u ∈ uris, Unchanged env w r u)
  {u v : Url} (hu : u ∈ uris) (hv : v ∈ uris)

def secretBody : Body :=
  [.block "variable" [.string "x"] [.attribute "sensitive" none (.bool true)]]

/-- A sensitive variable in one document shows which others are its neighbours. -/
theorem mem_secrets (hv : v ∈ uris) (u : Url) :
    let w : Workspace env.fs uris := probe r fun v' => if v' = v then some secretBody else none
    ("x" ∈ moduleSensitiveVariables env.fs w.store u ↔ ModuleAggregates.besides env.fs u v) ∧
      ("x" ∈ moduleSensitiveVariables env.fs (w.respell r) u ↔
        ModuleAggregates.besides env.fs u (r.spell v)) := by
  have hnames : sensitiveVariableNames secretBody = {"x"} := by decide
  have hfrom : ∀ v' uri, "x" ∈ namesFrom env.fs u sensitiveVariableNames
      ⟨uri,probeDocument uri (if v' = v then some secretBody else none)⟩ ↔
        v' = v ∧ ModuleAggregates.besides env.fs u uri = true := by
    intro v' uri
    by_cases hv' : v' = v
    · by_cases hb : ModuleAggregates.besides env.fs u uri = true <;>
        simp [namesFrom,probeDocument,hv',hnames,hb]
    · simp [namesFrom,probeDocument,hv']
  have hfrom' : ∀ v', "x" ∈ namesFrom env.fs u sensitiveVariableNames
      (respellEntry r.spell ⟨v',probeDocument v' (if v' = v then some secretBody else none)⟩) ↔
        v' = v ∧ ModuleAggregates.besides env.fs u (r.spell v') = true := fun v' => hfrom v' _
  constructor
  · rw [moduleSensitiveVariables,ModuleAggregates.namesInModule,
      Replacement.mem_foldl_union fun acc e => rfl]
    simp only [probe,List.mem_map,exists_exists_and_eq_and,Finset.notMem_empty,false_or,hfrom]
    exact ⟨fun ⟨v',_,hv',hb⟩ => hv' ▸ hb,fun hb => ⟨v,hv,rfl,hb⟩⟩
  · rw [moduleSensitiveVariables,ModuleAggregates.namesInModule,
      Replacement.mem_foldl_union fun acc e => rfl]
    simp only [Workspace.respell,probe,List.mem_map,exists_exists_and_eq_and,
      Finset.notMem_empty,false_or,hfrom']
    exact ⟨fun ⟨v',_,hv',hb⟩ => hv' ▸ hb,fun hb => ⟨v,hv,rfl,hb⟩⟩

include h hu

theorem besides_of_unchanged (hv : v ∈ uris) :
    ModuleAggregates.besides env.fs (r.spell u) (r.spell v) =
      ModuleAggregates.besides env.fs u v := by
  have hsecrets := (h (probe r fun v' => if v' = v then some secretBody else none) u hu).sensitive
  rw [Bool.eq_iff_iff,← (mem_secrets hv (r.spell u)).2,← (mem_secrets hv u).1,hsecrets]

theorem visible_of_unchanged (hv : v ∈ uris) :
    visible env.fs (r.spell u) (r.spell v) = visible env.fs u v := by
  let key : SymbolKey := ⟨.variable,"x"⟩
  let loc : SymbolLocation := ⟨v,0,0,0,0⟩
  let m : Multimap SymbolKey SymbolLocation := (∅ : Multimap SymbolKey SymbolLocation).push (key,loc)
  have hfiled : m.filed key = [loc] := by simp [m]
  have hlocated : ∀ k, ∀ loc ∈ m.filed k, loc.uri ∈ uris := by
    intro k loc' hloc
    rw [Multimap.filed_push,Multimap.filed_empty,List.nil_append] at hloc
    split at hloc
    · exact List.mem_singleton.mp hloc ▸ hv
    · cases hloc
  let plain : Workspace env.fs uris := probe r fun _ => none
  let w : Workspace env.fs uris :=
    { plain with
      store := { plain.store with definitionsByName := m }
      definitionsLocated := hlocated }
  have hkey := (h w u hu).definitions key
  change standsIn env.fs (respellIndex r.spell m) _ _ = standsIn env.fs m _ _ at hkey
  rw [standsIn_parentDir,standsIn_parentDir,filed_respellIndex,hfiled] at hkey
  simpa [standsAt,respellLocation,loc] using hkey

theorem scope_of_unchanged (hv : v ∈ uris) :
    sharesScope env (r.spell u) (r.spell v) = sharesScope env u v := by
  by_cases huv : v = u
  · subst huv
    rw [sharesScope_self,sharesScope_self,isSome_moduleScopeDir,isSome_moduleScopeDir,
      ← besides_self,← besides_self,besides_of_unchanged h hv hv]
  · let plain : Workspace env.fs uris := probe r fun _ => none
    let w : Workspace env.fs uris :=
      { plain with store := { plain.store with openDocs := uris.toFinset } }
    have hopen : w.store.isOpen v := by simp [w,StateStore.isOpen,hv]
    have hkeys : v ∈ w.store.documents.keys := by rwa [w.named]
    have hkeys' : r.spell v ∈ (w.respell r).documents.keys := by
      rw [respell_keys]
      exact List.mem_map_of_mem hv
    have hne : r.spell v ≠ r.spell u := fun he => huv (r.injective v hv u hu he)
    have hafter : r.spell v ∈ openPeersInScope env (w.respell r) (r.spell u) ↔
        v ∈ openPeersInScope env w.store u := by
      rw [(h w u hu).peers,List.mem_map]
      constructor
      · rintro ⟨v',hv',he⟩
        have hmem : v' ∈ uris := w.named ▸ (mem_peers.mp hv').1
        rwa [← r.injective v' hmem v hv he]
      · exact fun hpeer => ⟨v,hpeer,rfl⟩
    rw [mem_peers,mem_peers,isOpen_respell hv] at hafter
    simp only [hkeys,hkeys',hne,huv,hopen,ne_eq,not_false_eq_true,true_and] at hafter
    exact Bool.eq_iff_iff.mpr hafter

theorem lock_of_unchanged : lockDir env.fs (r.spell u) = lockDir env.fs u := by
  apply Option.ext
  intro dir
  let plain : Workspace env.fs uris := probe r fun _ => none
  let lock : LockFile := (∅ : LockFile).insert (ProviderAddress.hashicorp "x") "1"
  let w : Workspace env.fs uris :=
    { plain with locks := fun dir' => if dir' = dir then some lock else none }
  have hget : lock.get (ProviderAddress.hashicorp "x") = some "1" := by
    rw [LockFile.get,AList.lookup_insert,Option.some_or]
  have haddress : ∀ s : StateStore, ∀ u', (∀ e ∈ s.documents.entries, e.2.parsed.body = none) →
      lockedAddress env.fs s u' "x" = some (ProviderAddress.hashicorp "x") := by
    intro s u' hs
    have hnone : moduleProviderSource env.fs s u' "x" = none :=
      List.findSome?_eq_none_iff.mpr fun e he => by simp [fragmentFrom,hs e he]
    rw [lockedAddress,hnone]
  have hread : ∀ s : StateStore, ∀ u', (∀ e ∈ s.documents.entries, e.2.parsed.body = none) →
      (moduleLockedProviderVersion env.fs s w.locks u' "x" = some "1" ↔
        lockDir env.fs u' = some dir) := by
    intro s u' hs
    rw [lockedVersion_eq,haddress s u' hs]
    cases lockDir env.fs u' with
    | none => simp
    | some dir' => by_cases hdir : dir' = dir <;> simp [w,hdir,hget]
  have hversion := (h w u hu).lockedVersion "x"
  rw [← hread w.store u (by simp [w,plain,probe,probeDocument]),← hversion,
    hread (w.respell r) (r.spell u)
      (by simp [Workspace.respell,w,plain,probe,probeDocument,respellEntry,respellDocument])]

end probes

section spellings

variable (env : IndexerEnvironment) (uris : List Url)

/-- Other spellings change no aggregate of any workspace over the documents exactly
when they keep which documents are neighbours. -/
theorem unchanged_iff_kept (r : Respelling env.fs uris) :
    (∀ w : Workspace env.fs uris, ∀ u ∈ uris, Unchanged env w r u) ↔ Kept env uris r.spell := by
  constructor
  · intro h
    exact {
      besides := fun u hu v hv => besides_of_unchanged h hu hv
      visible := fun u hu v hv => visible_of_unchanged h hu hv
      scope := fun u hu v hv => scope_of_unchanged h hu hv
      lock := fun u hu => lock_of_unchanged h hu }
  · exact fun hk w u hu => hk.unchanged w hu

end spellings

section privateLink

/-- `/var` is a link to `/private/var`. -/
def linkedDisk : FileSystem where
  canonicalize := fun path => match path with
    | "var"::rest => some ("private" :: "var" :: rest)
    | path => some path
  readDir := fun _ => none
  readToString := fun _ => none
  metadata := fun _ => none
  isDir := fun _ => true
  isFile := fun _ => false
  toFilePath := fun uri => some (Path.components uri)
  fromFilePath := fun path => some (String.intercalate "/" path)

def linkedEnvironment : IndexerEnvironment :=
  { consumerPipeline.toIndexerEnvironment with fs := linkedDisk }

def outputsUri : Url := "/var/m/outputs.tf"
def variablesUri : Url := "/var/m/variables.tf"
def canonicalUri : Url := "/private/var/m/variables.tf"

/-- The open file keeps its spelling, its neighbour was read from disk. -/
def neighbourFromDisk : Respelling linkedEnvironment.fs [outputsUri,variablesUri] where
  spell := fun u => if u = variablesUri then canonicalUri else u
  nodup := by decide
  injective := by decide
  sameFile := by
    intro u _
    by_cases hu : u = variablesUri
    · subst hu
      exact .inr ⟨["var","m","variables.tf"],["private","var","m","variables.tf"],
        ["private","var","m","variables.tf"],by decide,by decide,rfl,rfl⟩
    · exact .inl (if_neg hu)

def secretModule : Workspace linkedEnvironment.fs [outputsUri,variablesUri] :=
  probe neighbourFromDisk fun u => if u = variablesUri then some secretBody else none

/-- The sensitive variable is no longer seen. -/
theorem neighbourFromDisk_hidden :
    ¬Unchanged linkedEnvironment secretModule neighbourFromDisk outputsUri := by
  intro h
  have hbefore : moduleSensitiveVariables linkedEnvironment.fs secretModule.store outputsUri =
      {"x"} := by decide
  have hafter : moduleSensitiveVariables linkedEnvironment.fs
      (secretModule.respell neighbourFromDisk) outputsUri = ∅ := by decide
  have hsensitive := h.sensitive
  change moduleSensitiveVariables linkedEnvironment.fs (secretModule.respell neighbourFromDisk)
    outputsUri = _ at hsensitive
  rw [hbefore,hafter] at hsensitive
  exact absurd hsensitive (by decide)

end privateLink
end PathSpellings
end TerraformLs
