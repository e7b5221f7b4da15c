import Mathlib.Data.Finset.Basic
import TerraformLs.ModuleInputs

/-! What the diagnostics of one document aggregate over the documents of its module. -/
namespace TerraformLs
namespace ModuleAggregates

open ModuleGraph

section blocks

def firstLabel (labels : List BlockLabel) : Option String := labels.head?.map BlockLabel.asStr

def blockHasSensitiveTrue (body : Body) : Bool :=
  (attrs body).any fun a => match a.2 with
    | .bool value => a.1 = "sensitive" ∧ value
    | _ => false

def sensitiveVariable : Structure → Option String
  | .attribute _ _ _ => none
  | .block ident labels body =>
    if ident = "variable" ∧ blockHasSensitiveTrue body then firstLabel labels else none

def sensitiveVariableNames (body : Body) : Finset String :=
  (body.filterMap sensitiveVariable).toFinset

def isDefaultTags : Structure → Bool
  | .attribute key _ _ => key = "default_tags"
  | .block ident _ _ => ident = "default_tags"

def providerWithDefaultTags : Structure → Option String
  | .attribute _ _ _ => none
  | .block ident labels body =>
    if ident = "provider" ∧ body.any isDefaultTags then firstLabel labels else none

def providerNamesWithDefaultTags (body : Body) : Finset String :=
  (body.filterMap providerWithDefaultTags).toFinset

end blocks

section terraform

/-- The bodies of the blocks of that name, in order. -/
def bodiesOf (name : String) (body : Body) : List Body :=
  body.filterMap fun
    | .attribute _ _ _ => none
    | .block ident _ inner => if ident = name then some inner else none

def literalText : List Element → Option String
  | [] => some ""
  | .literal text::elements => (literalText elements).map (text ++ ·)
  | _::_ => none

def readStringValue : Expression → Option String
  | .string value => some value
  | .stringTemplate elements => literalText elements
  | _ => none

/-- The first `required_version` decides, also when it is no string. -/
def extractRequiredVersion (body : Body) : Option String :=
  ((bodiesOf "terraform" body).findSome? fun inner =>
    (attrs inner).findSome? fun a =>
      if a.1 = "required_version" then some (readStringValue a.2) else none).join

/-- The entries of the `required_providers` blocks. -/
def requiredProviders (body : Body) : List (String × Expression) :=
  (bodiesOf "terraform" body).flatMap fun inner =>
    (bodiesOf "required_providers" inner).flatMap attrs

def objectKeyName : ObjectKey → Option String := keyIdent

def providerNsName (s : String) : String :=
  match (((s.toList.splitOn '/').filter (· ≠ [])).map String.ofList).reverse with
  | [name] => "hashicorp/" ++ name.toLower
  | name::ns::_ => ns.toLower ++ "/" ++ name.toLower
  | [] => s.toLower

def entryMatchesProvider (localKey : String) (explicitSource : Option String)
    (canonical : String) : Bool :=
  providerNsName (explicitSource.getD localKey) = canonical

/-- The text of the last entry of that name. -/
def lastEntry (name : String) (entries : List (ObjectKey × Expression)) : Option String :=
  entries.foldl (fun found entry =>
    if objectKeyName entry.1 = some name then readStringValue entry.2 else found) none

/-- The constraint of one entry for a provider. -/
def entryVersion (canonical : String) (entry : String × Expression) : Option String :=
  match readStringValue entry.2,entry.2 with
  | some version,_ => if entryMatchesProvider entry.1 none canonical then some version else none
  | none,.object entries =>
    if entryMatchesProvider entry.1 (lastEntry "source" entries) canonical then
      lastEntry "version" entries
    else none
  | none,_ => none

def extractRequiredProviderVersion (body : Body) (providerName : String) : Option String :=
  (requiredProviders body).findSome? (entryVersion (providerNsName providerName))

def entrySource (providerName : String) (entry : String × Expression) : Option String :=
  match entry.2 with
  | .object entries =>
    if entry.1 = providerName then
      entries.findSome? fun e =>
        if objectKeyName e.1 = some "source" then readStringValue e.2 else none
    else none
  | _ => none

def extractRequiredProviderSource (body : Body) (providerName : String) : Option String :=
  (requiredProviders body).findSome? (entrySource providerName)

def requiredProvidersObjectKeyAsStr : ObjectKey → Option String
  | .ident name => some name
  | .expression (.string text) => some text
  | .expression _ => none

def requiredProvidersParseSourceProviderName (src : String) : Option String :=
  match (src.toList.splitOn '/').getLast? with
  | some (c::cs) => some (String.ofList (c :: cs))
  | _ => none

/-- The provider a local name stands for. -/
def entryName (localName : String) (entry : String × Expression) : Option String :=
  if entry.1 = localName then
    match entry.2 with
    | .object entries =>
      let source := entries.findSome? fun e =>
        if requiredProvidersObjectKeyAsStr e.1 = some "source" then readStringValue e.2 else none
      some ((source.bind requiredProvidersParseSourceProviderName).getD localName)
    | _ => some localName
  else none

def requiredProvidersLocalToName (body : Body) (localName : String) : Option String :=
  (requiredProviders body).findSome? (entryName localName)

end terraform

section directories

variable (fs : FileSystem) (s : StateStore) (primaryUri : Url)

/-- The document lies in the directory of the primary one. -/
def besides (uri : Url) : Bool :=
  match fs.parentDir primaryUri with
  | some dir => fs.parentDir uri = some dir
  | none => false

/-- The names that a document of the module contributes. -/
def namesFrom (names : Body → Finset String) (e : (_ : Url) × DocumentState) : Finset String :=
  if besides fs primaryUri e.1 then e.2.parsed.body.elim ∅ names else ∅

def namesInModule (names : Body → Finset String) : Finset String :=
  s.documents.entries.foldl (fun out e => out ∪ namesFrom fs primaryUri names e) ∅

def moduleSensitiveVariables : Finset String :=
  namesInModule fs s primaryUri sensitiveVariableNames

def moduleProvidersWithDefaultTags : Finset String :=
  namesInModule fs s primaryUri providerNamesWithDefaultTags

/-- What a document of the module has to say. -/
def fragmentFrom (extract : Body → Option String) (e : (_ : Url) × DocumentState) :
    Option String :=
  if besides fs primaryUri e.1 then e.2.parsed.body.bind extract else none

def fragments (extract : Body → Option String) : List String :=
  s.documents.entries.filterMap (fragmentFrom fs primaryUri extract)

def requiredVersions : List String := fragments fs s primaryUri extractRequiredVersion

def providerVersions (providerName : String) : List String :=
  fragments fs s primaryUri fun body => extractRequiredProviderVersion body providerName

def moduleConstraintAdmitsAtLeast (gate : String → Bool) : Bool :=
  match requiredVersions fs s primaryUri with
  | [] => true
  | versions => gate (", ".intercalate versions)

def moduleConstraintForProvider (providerName : String) : Option String :=
  match providerVersions fs s primaryUri providerName with
  | [] => none
  | versions => some (", ".intercalate versions)

/-- The source under which the lock file is asked for a provider. -/
def moduleProviderSource (providerName : String) : Option String :=
  s.documents.entries.findSome?
    (fragmentFrom fs primaryUri fun body => extractRequiredProviderSource body providerName)

/-- The other documents of the module are asked after the primary one. -/
def nameFromOther (localName : String) (e : (_ : Url) × DocumentState) : Option String :=
  if e.1 = primaryUri then none
  else fragmentFrom fs primaryUri (fun body => requiredProvidersLocalToName body localName) e

def lookupLocalInOthers (localName : String) : Option String :=
  s.documents.entries.findSome? (nameFromOther fs primaryUri localName)

/-- Some location of the key lies in the directory, or anywhere when there is none. -/
def standsIn (m : Multimap SymbolKey SymbolLocation) (moduleDir : Option Path)
    (key : SymbolKey) : Bool :=
  match m.lookup key with
  | none => false
  | some locs =>
    match moduleDir with
    | some dir => locs.any fun loc => fs.locationInDir loc dir
    | none => !locs.isEmpty

theorem standsIn_eq_any (m : Multimap SymbolKey SymbolLocation) (moduleDir : Option Path)
    (key : SymbolKey) : standsIn fs m moduleDir key =
      (m.filed key).any fun loc => moduleDir.all (fs.inDir loc.uri) := by
  unfold standsIn Multimap.filed
  cases m.lookup key with
  | none => rfl
  | some locs =>
    cases moduleDir with
    | none => cases locs <;> simp
    | some dir => rfl

/-- Only variables, locals and module calls are asked for. -/
def isDefinedInModule (moduleDir : Option Path) : ReferenceKind → Bool
  | .variable name => standsIn fs s.definitionsByName moduleDir ⟨.variable,name⟩
  | .local name => standsIn fs s.definitionsByName moduleDir ⟨.local,name⟩
  | .module name => standsIn fs s.definitionsByName moduleDir ⟨.module,name⟩
  | .resource _ _ | .dataSource _ _ => true

end directories

section sensitive

/-- The name of a `var` reference, operators beyond it or not. -/
def traversalVarName (expr : Expression) (operators : List TraversalOperator) : Option String :=
  match expr,operators with
  | .variable "var",.getAttr name::_ => some name
  | _,_ => none

variable (sensitive : Finset String)

mutual

/-- The expression refers to a sensitive variable outside `nonsensitive`. -/
def containsSensitiveRef : Expression → Bool
  | .traversal expr operators =>
    (traversalVarName expr operators).any (· ∈ sensitive) || containsSensitiveRef expr
  | .funcCall ns name args =>
    if ns = [] ∧ name = "nonsensitive" then false else anySensitiveRef args
  | .array items => anySensitiveRef items
  | .object entries => entriesSensitiveRef entries
  | .parenthesis inner => containsSensitiveRef inner
  | .conditional cond whenTrue whenFalse =>
    containsSensitiveRef cond || containsSensitiveRef whenTrue || containsSensitiveRef whenFalse
  | .unaryOp _ operand => containsSensitiveRef operand
  | .binaryOp lhs _ rhs => containsSensitiveRef lhs || containsSensitiveRef rhs
  | .forExpr _ _ collection keyExpr valueExpr _ cond =>
    containsSensitiveRef collection || optionSensitiveRef keyExpr ||
      containsSensitiveRef valueExpr || optionSensitiveRef cond
  | .stringTemplate elements => elementsSensitiveRef elements
  | .null | .bool _ | .number _ | .string _ | .variable _ | .heredocTemplate _ => false

def anySensitiveRef : List Expression → Bool
  | [] => false
  | expr::exprs => containsSensitiveRef expr || anySensitiveRef exprs

def entriesSensitiveRef : List (ObjectKey × Expression) → Bool
  | [] => false
  | (key,value)::entries =>
    keySensitiveRef key || containsSensitiveRef value || entriesSensitiveRef entries

def keySensitiveRef : ObjectKey → Bool
  | .ident _ => false
  | .expression expr => containsSensitiveRef expr

def optionSensitiveRef : Option Expression → Bool
  | none => false
  | some expr => containsSensitiveRef expr

def elementsSensitiveRef : List Element → Bool
  | [] => false
  | .interpolation expr::elements => containsSensitiveRef expr || elementsSensitiveRef elements
  | .literal _::elements | .directive _::elements => elementsSensitiveRef elements

end

def outputValueExpr (body : Body) : Option Expression :=
  ((attrs body).find? fun a => a.1 = "value").map Prod.snd

def exposedOutput : Structure → Option String
  | .attribute _ _ _ => none
  | .block ident labels body =>
    if ident = "output" ∧ !blockHasSensitiveTrue body ∧
        (outputValueExpr body).any (containsSensitiveRef sensitive) then firstLabel labels
    else none

/-- The messages for the outputs that expose a sensitive variable. -/
def sensitiveOutputDiagnostics (body : Body) (extraSensitive : Finset String) : List String :=
  let sensitive := sensitiveVariableNames body ∪ extraSensitive
  (body.filterMap (exposedOutput sensitive)).map fun name =>
    "output `" ++ name ++ "` exposes a sensitive value — add `sensitive = true` " ++
      "(or wrap the value in `nonsensitive(...)` if intentional)"

end sensitive
end ModuleAggregates
end TerraformLs
