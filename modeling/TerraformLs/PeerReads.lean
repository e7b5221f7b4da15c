import TerraformLs.ModuleAggregates
import TerraformLs.PeerDiagnostics
import TerraformLs.Replacement

/-! What the diagnostics of one document read from the other documents of the
workspace, and which edits of another document with the same fingerprint they
notice. -/
namespace TerraformLs
namespace PeerReads

open ModuleGraph ModuleAggregates UnknownValue

/-- A block configuration, whatever the order of its attributes. -/
structure ConfigReads where
  attr : String → Option Expression
  nestedExprs : List Expression
  hasDependsOn : Bool

def configReads (config : BlockConfig) : ConfigReads where
  attr name := config.attrs.lookup name
  nestedExprs := config.nestedExprs
  hasDependsOn := config.hasDependsOn

/-- What the rules on a parsed body read. The inputs of the unknown-value analysis
are read for the directory itself and for those of the modules called from it. -/
@[ext] structure BodyReads where
  sensitiveVariables : Finset String
  providersWithDefaultTags : Finset String
  requiredVersions : List String
  providerVersions : String → List String
  providerSource : String → Option String
  functionProvider : String → Option String
  «local» : Path → String → Option Expression
  dataConfig : Path → String × String → Option ConfigReads
  resourceConfig : Path → String × String → Option ConfigReads
  moduleSource : Path → String → Option String
  outputExpr : Path → String → Option Expression
  graph : ModuleGraphLookup

/-- The rules on bodies pass over test files. -/
@[ext] structure Reads where
  isDefined : ReferenceKind → Bool
  body : Option BodyReads

section reads

variable (env : IndexerEnvironment) (s : StateStore) (uri : Url)

def localInput (name : String) (inputs : ModuleUnknownInputs) : Option Expression :=
  inputs.locals.lookup name

def dataInput (key : String × String) (inputs : ModuleUnknownInputs) : Option ConfigReads :=
  (inputs.dataConfigs.lookup key).map configReads

def resourceInput (key : String × String) (inputs : ModuleUnknownInputs) : Option ConfigReads :=
  (inputs.resourceConfigs.lookup key).map configReads

/-- The collections configured by the user are no part of the documents. -/
def inputsOf (dir : Path) : ModuleUnknownInputs :=
  moduleUnknownInputsForDir env.fs s.documents ∅ dir

def bodyReads : BodyReads where
  sensitiveVariables := moduleSensitiveVariables env.fs s uri
  providersWithDefaultTags := moduleProvidersWithDefaultTags env.fs s uri
  requiredVersions := requiredVersions env.fs s uri
  providerVersions name := providerVersions env.fs s uri name
  providerSource name := moduleProviderSource env.fs s uri name
  functionProvider name := lookupLocalInOthers env.fs s uri name
  «local» dir name := localInput name (inputsOf env s dir)
  dataConfig dir key := dataInput key (inputsOf env s dir)
  resourceConfig dir key := resourceInput key (inputsOf env s dir)
  moduleSource dir label := moduleSourceInDir env.fs s.documents dir label
  outputExpr dir output := findOutputExpr env.fs s.documents dir output
  graph := ModuleGraphAdapter.lookup env.fs s (env.fs.parentDir uri) uri

def reads : Reads where
  isDefined := isDefinedInModule env.fs s (PeerDiagnostics.moduleScopeDir env uri)
  body := if isTftestUri uri then none else some (bodyReads env s uri)

/-- The diagnostics of a document: what the rules make of it and of what they read. -/
def computeDiagnostics {D : Type} (rules : DocumentState → Reads → List D) : List D :=
  match s.documents.lookup uri with
  | none => []
  | some doc => rules doc (reads env s uri)

end reads

section edits

variable (s : StateStore) (uri : Url)

/-- The store after an edit of a document. The table of documents is edited in place. -/
def editedInPlace (doc' : DocumentState) : StateStore :=
  { s.refiled uri doc' with
    documents := KeyedMap.mapValues (fun u doc => if u = uri then doc' else doc) s.documents }

def replacement (doc doc' : DocumentState) : Replacement ((_ : Url) × DocumentState) where
  before := s.documents.entries.takeWhile (·.1 ≠ uri)
  after := (s.documents.entries.dropWhile (·.1 ≠ uri)).tail
  old := ⟨uri,doc⟩
  new := ⟨uri,doc'⟩

end edits

/-- One text is taken for each `terraform` block. -/
def TakesBlocks (F : Fingerprinter) (doc : DocumentState) : Prop :=
  (F.terraformTexts doc).length =
    (doc.parsed.body.getD []).countP ModuleGraphAdapter.isTerraformBlock

section contributions

variable (fs : FileSystem)

def usedProviders (dir : Option Path) (e : (_ : Url) × DocumentState) : Finset String :=
  match e.2.parsed.body with
  | none => ∅
  | some body =>
    if inModule fs e.1 dir then
      collectProviderFunctionLocals e.2.rope (ModuleGraphAdapter.collectProviderLocals body ∅)
    else ∅

def versionedIn (dir : Option Path) (e : (_ : Url) × DocumentState) : Finset String :=
  match e.2.parsed.body with
  | none => ∅
  | some body =>
    if inModule fs e.1 dir then body.foldl ModuleGraphAdapter.addVersionedProviders ∅ else ∅

def callsInto (dir : Path) (e : (_ : Url) × DocumentState) : Bool :=
  match e.2.parsed.body with
  | none => false
  | some body => fs.parentDir e.1 ≠ some dir &&
    (literalSources body).any fun source => sourcePointsAt fs source (fs.parentDir e.1) dir

def requiresVersion (dir : Option Path) (e : (_ : Url) × DocumentState) : Bool :=
  match e.2.parsed.body with
  | none => false
  | some body => inModule fs e.1 dir && body.any declaresRequiredVersion

def terraformDoc (dir : Option Path) (e : (_ : Url) × DocumentState) : Option Url :=
  match e.2.parsed.body with
  | none => none
  | some body =>
    if inModule fs e.1 dir && body.any ModuleGraphAdapter.isTerraformBlock then some e.1 else none

def applyable (dir : Option Path) (e : (_ : Url) × DocumentState) : Bool :=
  inModule fs e.1 dir && (e.2.parsed.body.getD []).any configuresApply

end contributions

/-- What the fingerprint leaves out is not changed by the edit, or other documents
provide it all the same. -/
structure EditUnnoticed (env : IndexerEnvironment) (s : StateStore)
    (R : Replacement ((_ : Url) × DocumentState)) (peer : Url) : Prop where
  sensitive : ∀ name, R.Unnoticed fun e => name ∈ namesFrom env.fs peer sensitiveVariableNames e
  defaultTags : ∀ name, R.Unnoticed fun e =>
    name ∈ namesFrom env.fs peer providerNamesWithDefaultTags e
  requiredVersions : fragmentFrom env.fs peer extractRequiredVersion R.new =
    fragmentFrom env.fs peer extractRequiredVersion R.old
  providerVersions : ∀ name,
    fragmentFrom env.fs peer (fun body => extractRequiredProviderVersion body name) R.new =
      fragmentFrom env.fs peer (fun body => extractRequiredProviderVersion body name) R.old
  providerSources : ∀ name, R.FirstUnnoticed
    (fragmentFrom env.fs peer fun body => extractRequiredProviderSource body name)
  functionProviders : ∀ name, R.FirstUnnoticed (nameFromOther env.fs peer name)
  locals : ∀ dir name, R.FirstUnnoticed (inputFrom env.fs (localInput name) dir)
  dataConfigs : ∀ dir key, R.FirstUnnoticed (inputFrom env.fs (dataInput key) dir)
  resourceConfigs : ∀ dir key, R.FirstUnnoticed (inputFrom env.fs (resourceInput key) dir)
  moduleSources : ∀ dir label, R.FirstUnnoticed (sourceFrom env.fs dir label)
  outputs : ∀ dir output, R.FirstUnnoticed (outputFrom env.fs dir output)
  usedProviders : ∀ name, R.Unnoticed fun e =>
    name ∈ usedProviders env.fs (env.fs.parentDir peer) e
  versioned : ∀ name, R.Unnoticed fun e => name ∈ versionedIn env.fs (env.fs.parentDir peer) e
  calls : ∀ dir ∈ env.fs.parentDir peer, R.Unnoticed fun e => callsInto env.fs dir e = true
  requiresVersion : R.Unnoticed fun e => requiresVersion env.fs (env.fs.parentDir peer) e = true
  applyable : ModuleGraphAdapter.isRootModule env.fs s (env.fs.parentDir peer) = true →
    R.Unnoticed fun e => applyable env.fs (env.fs.parentDir peer) e = true

end PeerReads
end TerraformLs
