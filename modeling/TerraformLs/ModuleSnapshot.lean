import Mathlib.Data.Finset.Basic
import Mathlib.Data.List.Sort
import TerraformLs.FileSystem
import TerraformLs.StateStore

/-! What the cross-file diagnostics ask about a module. The adapter walks the
store for each question; the snapshot answers from one walk made beforehand. -/
namespace TerraformLs

/-- The questions, with the answers for one document. -/
@[ext] structure ModuleGraphLookup where
  variableIsReferenced : String → Bool
  localIsReferenced : String → Bool
  dataSourceIsReferenced : String → String → Bool
  usedProviderLocals : Finset String
  presentFiles : Finset String
  isRootModule : Bool
  isApplyableRoot : Bool
  moduleHasRequiredVersion : Bool
  isPrimaryTerraformDoc : Bool
  providersWithVersionSet : Finset String

namespace ModuleGraph

section blocks

def insertAll (out : Finset String) (names : List String) : Finset String :=
  names.foldl (fun out name => insert name out) out

def attrs (body : Body) : List (String × Expression) :=
  body.filterMap fun
    | .attribute key _ value => some (key,value)
    | .block _ _ _ => none

def declaresAttr (name : String) (body : Body) : Bool := (attrs body).any fun a => a.1 = name

/-- State kept somewhere makes a module one to apply. -/
def hasBackend (body : Body) : Bool :=
  body.any fun
    | .block ident _ _ => ident = "backend" || ident = "cloud"
    | .attribute _ _ _ => false

/-- The block configures a provider, or where the state is kept. -/
def configuresApply : Structure → Bool
  | .block ident _ body => ident = "provider" || (ident = "terraform" && hasBackend body)
  | .attribute _ _ _ => false

def declaresRequiredVersion : Structure → Bool
  | .block ident _ body => ident = "terraform" && declaresAttr "required_version" body
  | .attribute _ _ _ => false

def keyIdent : ObjectKey → Option String
  | .ident name => some name
  | .expression (.variable name) => some name
  | .expression (.string text) => some text
  | .expression _ => none

/-- The providers of a `required_providers` block whose entry has a `version`. -/
def versionedEntries (body : Body) : List String :=
  (attrs body).filterMap fun a => match a.2 with
    | .object entries =>
      if entries.any fun entry => keyIdent entry.1 = some "version" then some a.1 else none
    | _ => none

def versionedProviders (body : Body) : List String :=
  body.flatMap fun
    | .block ident _ inner => if ident = "required_providers" then versionedEntries inner else []
    | .attribute _ _ _ => []

def extractProviderLocal : Expression → Option String
  | .variable name => some name
  | .traversal (.variable name) _ => some name
  | _ => none

/-- The provider of a resource type, from its name. -/
def typeLocal (typeName : String) : Option String :=
  let cs := typeName.toList.takeWhile (· ≠ '_')
  if cs = [] then none else some (String.ofList cs)

/-- The providers of a resource: that of its type, and that of its `provider`. -/
def resourceLocals (labels : List BlockLabel) (body : Body) : List String :=
  (labels.head?.bind fun label => typeLocal label.asStr).toList ++
    (attrs body).filterMap fun a => if a.1 = "provider" then extractProviderLocal a.2 else none

def providerLabel (labels : List BlockLabel) : List String :=
  (labels.head?.map BlockLabel.asStr).toList

/-- The providers a call passes to a child, by either of their names. -/
def passedLocals (body : Body) : List String :=
  (attrs body).flatMap fun a =>
    if a.1 = "providers" then
      match a.2 with
      | .object entries => entries.flatMap fun entry =>
        (extractProviderLocal entry.2).toList ++ (keyIdent entry.1).toList
      | _ => []
    else []

/-- The literal sources of the module calls of a body. -/
def literalSources (body : Body) : List String :=
  body.flatMap fun
    | .block ident _ inner =>
      if ident = "module" then
        (attrs inner).filterMap fun a => if a.1 = "source" then
          match a.2 with
          | .string source => some source
          | _ => none
        else none
      else []
    | .attribute _ _ _ => []

def isLocalSource (source : String) : Bool :=
  ["./","../","/"].any fun start => start.toList.isPrefixOf source.toList

end blocks

section functions

def isWord (c : Char) : Bool := c.isAlphanum || c = '_'

/-- `::name(` follows, with blanks before the parenthesis. -/
def callsFunction : List Char → Bool
  | ':' :: ':' :: cs =>
    ((cs.dropWhile isWord).dropWhile fun c => c = ' ' || c = '\t').head? = some '('
  | _ => false

/-- The providers whose functions are called, as `provider::name::function(`. The
text is scanned with the character before, and with the number of characters
still to be skipped. -/
def providerFunctionLocals : ℕ → Option Char → List Char → Finset String
  | _, _, [] => ∅
  | skip+1, _, c::cs => providerFunctionLocals skip (some c) cs
  | 0, prev, c::cs =>
    if "provider::".toList.isPrefixOf (c :: cs) then
      if prev.any isWord then providerFunctionLocals 9 (some c) cs
      else
        let name := ((c :: cs).drop 10).takeWhile isWord
        let others := providerFunctionLocals (9+name.length) (some c) cs
        if name ≠ [] ∧ callsFunction ((c :: cs).drop (10+name.length)) then
          insert (String.ofList name) others
        else others
    else providerFunctionLocals 0 (some c) cs

def collectProviderFunctionLocals (text : Rope) (out : Finset String) : Finset String :=
  out ∪ providerFunctionLocals 0 none text

end functions

section directories

variable (fs : FileSystem)

def inModule (uri : Url) (moduleDir : Option Path) : Bool :=
  match moduleDir with
  | some dir => fs.parentDir uri = some dir
  | none => true

def computePresentFiles (moduleDir : Option Path) : Finset String :=
  match moduleDir with
  | none => ∅
  | some dir =>
    (((fs.readDir dir).getD []).map DirEntry.name |>.filter fun name =>
      [".tf",".tf.json"].any fun suffix => suffix.toList.isSuffixOf name.toList).toFinset

/-- Only the paths of local sources are resolved. -/
def resolvedSource (callerDir : Option Path) (source : String) : Option Path :=
  if isLocalSource source then
    callerDir.bind fun dir => fs.canonicalize (Path.join dir source)
  else none

def sourcePointsAt (source : String) (callerDir : Option Path) (target : Path) : Bool :=
  match resolvedSource fs callerDir source,fs.canonicalize target with
  | some resolved,some target => resolved = target
  | _,_ => false

variable (s : StateStore)

/-- A document outside the directory calls the module in it. -/
def calledFromElsewhere (dir : Path) : Bool :=
  s.documents.entries.any fun e => match e.2.parsed.body with
    | none => false
    | some body => fs.parentDir e.1 ≠ some dir &&
      (literalSources body).any fun source => sourcePointsAt fs source (fs.parentDir e.1) dir

def moduleHasApplyableConfig (moduleDir : Option Path) : Bool :=
  s.documents.entries.any fun e =>
    inModule fs e.1 moduleDir && (e.2.parsed.body.getD []).any configuresApply

end directories
end ModuleGraph

open ModuleGraph

namespace ModuleGraphAdapter

variable (fs : FileSystem) (s : StateStore) (moduleDir : Option Path)

/-- A reference in the directory of the module, links followed. -/
def hasRef (key : SymbolKey) : Bool :=
  match s.referencesByName.lookup key with
  | none => false
  | some locs =>
    match moduleDir with
    | some dir => locs.any fun loc => fs.locationInDir loc dir
    | none => !locs.isEmpty

def addProviderLocals (out : Finset String) : Structure → Finset String
  | .attribute _ _ _ => out
  | .block ident labels inner =>
    if ident = "resource" ∨ ident = "data" then insertAll out (resourceLocals labels inner)
    else if ident = "provider" then insertAll out (providerLabel labels)
    else if ident = "module" then insertAll out (passedLocals inner)
    else out

def collectProviderLocals (body : Body) (out : Finset String) : Finset String :=
  body.foldl addProviderLocals out

def usedProviderLocals : Finset String :=
  s.documents.entries.foldl (fun used e => match e.2.parsed.body with
    | none => used
    | some body =>
      if inModule fs e.1 moduleDir then
        collectProviderFunctionLocals e.2.rope (collectProviderLocals body used)
      else used) ∅

def addVersionedProviders (out : Finset String) : Structure → Finset String
  | .attribute _ _ _ => out
  | .block ident _ inner =>
    if ident = "terraform" then insertAll out (versionedProviders inner) else out

def providersWithVersionSet : Finset String :=
  s.documents.entries.foldl (fun out e => match e.2.parsed.body with
    | none => out
    | some body =>
      if inModule fs e.1 moduleDir then body.foldl addVersionedProviders out else out) ∅

def moduleHasRequiredVersion : Bool :=
  s.documents.entries.any fun e => match e.2.parsed.body with
    | none => false
    | some body => inModule fs e.1 moduleDir && body.any declaresRequiredVersion

def isTerraformBlock : Structure → Bool
  | .attribute _ _ _ => false
  | .block ident _ _ => ident = "terraform"

/-- The documents of the module that have a `terraform` block. -/
def terraformDocs : List Url :=
  s.documents.entries.filterMap fun e => match e.2.parsed.body with
    | none => none
    | some body =>
      if inModule fs e.1 moduleDir && body.any isTerraformBlock then some e.1 else none

def isPrimaryTerraformDoc (currentUri : Url) : Bool :=
  match ((terraformDocs fs s moduleDir).insertionSort (· ≤ ·)).head? with
  | some uri => uri = currentUri
  | none => false

def isRootModule : Bool :=
  match moduleDir with
  | none => true
  | some dir => !calledFromElsewhere fs s dir

/-- The answers of the adapter. -/
def lookup (currentUri : Url) : ModuleGraphLookup where
  variableIsReferenced name := hasRef fs s moduleDir ⟨.variable,name⟩
  localIsReferenced name := hasRef fs s moduleDir ⟨.local,name⟩
  dataSourceIsReferenced typeName name :=
    hasRef fs s moduleDir (.resource .dataSource typeName name)
  usedProviderLocals := usedProviderLocals fs s moduleDir
  presentFiles := computePresentFiles fs moduleDir
  isRootModule := isRootModule fs s moduleDir
  isApplyableRoot := isRootModule fs s moduleDir && moduleHasApplyableConfig fs s moduleDir
  moduleHasRequiredVersion := moduleHasRequiredVersion fs s moduleDir
  isPrimaryTerraformDoc := isPrimaryTerraformDoc fs s moduleDir currentUri
  providersWithVersionSet := providersWithVersionSet fs s moduleDir

end ModuleGraphAdapter

structure ModuleSnapshot where
  moduleDir : Option Path
  hasRequiredVersion : Bool
  providersWithVersion : Finset String
  usedProviderLocals : Finset String
  primaryTerraformUri : Option Url
  presentFiles : Finset String
  isRoot : Bool
  hasApplyableConfig : Bool

namespace ModuleSnapshot

/-- What the walk of a snapshot collects. -/
structure Aggregates where
  hasRequiredVersion : Bool := false
  providersWithVersion : Finset String := ∅
  usedProviderLocals : Finset String := ∅
  /-- A document is noted once for each of its `terraform` blocks. -/
  terraformUriCandidates : List Url := []
  hasApplyableConfig : Bool := false

def visitBlock (uri : Url) (acc : Aggregates) : Structure → Aggregates
  | .attribute _ _ _ => acc
  | .block ident labels body =>
    if ident = "terraform" then
      { acc with
        hasRequiredVersion := acc.hasRequiredVersion || declaresAttr "required_version" body
        terraformUriCandidates := acc.terraformUriCandidates ++ [uri]
        hasApplyableConfig := acc.hasApplyableConfig || hasBackend body
        providersWithVersion := insertAll acc.providersWithVersion (versionedProviders body) }
    else if ident = "resource" ∨ ident = "data" then
      { acc with usedProviderLocals := insertAll acc.usedProviderLocals (resourceLocals labels body) }
    else if ident = "provider" then
      { acc with
        hasApplyableConfig := true
        usedProviderLocals := insertAll acc.usedProviderLocals (providerLabel labels) }
    else if ident = "module" then
      { acc with usedProviderLocals := insertAll acc.usedProviderLocals (passedLocals body) }
    else acc

section build

variable (fs : FileSystem)

def visitDoc (moduleDir : Option Path) (acc : Aggregates) (e : (_ : Url) × DocumentState) :
    Aggregates :=
  if inModule fs e.1 moduleDir then
    match e.2.parsed.body with
    | none => acc
    | some body =>
      let acc := body.foldl (visitBlock e.1) acc
      { acc with
        usedProviderLocals := collectProviderFunctionLocals e.2.rope acc.usedProviderLocals }
  else acc

def aggregates (s : StateStore) (moduleDir : Option Path) : Aggregates :=
  s.documents.entries.foldl (visitDoc fs moduleDir) {}

/-- The directories that some call of the workspace resolves to. -/
def referencedDirsInWorkspace (s : StateStore) : Finset Path :=
  (s.documents.entries.flatMap fun e =>
    (literalSources (e.2.parsed.body.getD [])).filterMap
      (resolvedSource fs (fs.parentDir e.1))).toFinset

def isRootViaSet (moduleDir : Option Path) (referenced : Finset Path) : Bool :=
  match moduleDir with
  | none => true
  | some dir =>
    match fs.canonicalize dir with
    | some canon => canon ∉ referenced
    | none => true

def computeIsRoot (s : StateStore) (moduleDir : Option Path) : Bool :=
  match moduleDir with
  | none => true
  | some dir => !calledFromElsewhere fs s dir

/-- Take the aggregates in one walk. The parser of urls reads the first candidate back. -/
def build (parseUrl : String → Option Url) (s : StateStore) (moduleDir : Option Path)
    (referencedDirs : Option (Finset Path)) : ModuleSnapshot :=
  let acc := aggregates fs s moduleDir
  { moduleDir := moduleDir
    hasRequiredVersion := acc.hasRequiredVersion
    providersWithVersion := acc.providersWithVersion
    usedProviderLocals := acc.usedProviderLocals
    primaryTerraformUri :=
      (acc.terraformUriCandidates.insertionSort (· ≤ ·)).head?.bind parseUrl
    presentFiles := computePresentFiles fs moduleDir
    isRoot :=
      match referencedDirs with
      | some referenced => isRootViaSet fs moduleDir referenced
      | none => computeIsRoot fs s moduleDir
    hasApplyableConfig := acc.hasApplyableConfig }

/-- A reference under the very path of the module's directory. -/
def hasRef (snapshot : ModuleSnapshot) (s : StateStore) (key : SymbolKey) : Bool :=
  match s.referencesByName.lookup key with
  | none => false
  | some locs =>
    match snapshot.moduleDir with
    | some dir => locs.any fun loc => fs.parentDir loc.uri = some dir
    | none => !locs.isEmpty

/-- The answers from a snapshot, the references of the store and the document. -/
def cachedModuleLookup (snapshot : ModuleSnapshot) (s : StateStore) (currentUri : Url) :
    ModuleGraphLookup where
  variableIsReferenced name := snapshot.hasRef fs s ⟨.variable,name⟩
  localIsReferenced name := snapshot.hasRef fs s ⟨.local,name⟩
  dataSourceIsReferenced typeName name :=
    snapshot.hasRef fs s (.resource .dataSource typeName name)
  usedProviderLocals := snapshot.usedProviderLocals
  presentFiles := snapshot.presentFiles
  isRootModule := snapshot.isRoot
  isApplyableRoot := snapshot.isRoot && snapshot.hasApplyableConfig
  moduleHasRequiredVersion := snapshot.hasRequiredVersion
  isPrimaryTerraformDoc :=
    match snapshot.primaryTerraformUri with
    | some uri => uri = currentUri
    | none => false
  providersWithVersionSet := snapshot.providersWithVersion

end build
end ModuleSnapshot
end TerraformLs
