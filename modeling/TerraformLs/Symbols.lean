import TerraformLs.KeyedMap
import TerraformLs.Rope

/-! Symbol tables, references and the keys under which the workspace indexes
file them. -/
namespace TerraformLs

abbrev Url := String

/-- The components of an absolute path. -/
abbrev Path := List String

inductive Primitive
  | string | number | bool
  deriving DecidableEq

/-- The shape of a variable's declared, default or assigned value. -/
inductive VariableType
  | any
  | primitive (p : Primitive)
  | list (item : VariableType)
  | set (item : VariableType)
  | map (item : VariableType)
  | tuple (items : List VariableType)
  | object (fields : List (String × VariableType))

inductive SymbolKind
  | «variable» | «local» | output | resource | dataSource | «module» | provider | terraformBlock
  deriving DecidableEq

structure SymbolLocation where
  uri : Url
  startLine : ℕ
  startCharacter : ℕ
  endLine : ℕ
  endCharacter : ℕ
  deriving DecidableEq

def SymbolLocation.new (uri : Url) (range : Range) : SymbolLocation :=
  ⟨uri,range.start.line,range.start.character,range.end.line,range.end.character⟩

structure Symbol where
  name : String
  kind : SymbolKind
  location : SymbolLocation
  nameRange : Range
  detail : Option String
  doc : Option String
  deriving DecidableEq

structure ResourceAddress where
  resourceType : String
  name : String
  deriving DecidableEq

/-- A kind and a name, under which definitions and references are indexed. -/
structure SymbolKey where
  kind : SymbolKind
  name : String
  deriving DecidableEq

/-- Resources and data sources are filed under `<type>.<name>`. -/
def SymbolKey.resource (kind : SymbolKind) (resourceType name : String) : SymbolKey :=
  ⟨kind,resourceType ++ "." ++ name⟩

structure SymbolTable where
  «variables» : KeyedMap String Symbol := ∅
  locals : KeyedMap String Symbol := ∅
  outputs : KeyedMap String Symbol := ∅
  resources : KeyedMap ResourceAddress Symbol := ∅
  dataSources : KeyedMap ResourceAddress Symbol := ∅
  modules : KeyedMap String Symbol := ∅
  /-- The literal `source` of each module call that has one. -/
  moduleSources : KeyedMap String String := ∅

inductive ReferenceKind
  | «variable» (name : String)
  | «local» (name : String)
  | «module» (name : String)
  | resource (resourceType name : String)
  | dataSource (resourceType name : String)
  deriving DecidableEq

structure Reference where
  kind : ReferenceKind
  location : SymbolLocation
  deriving DecidableEq

def referenceKey : ReferenceKind → SymbolKey
  | .variable name => ⟨.variable,name⟩
  | .local name => ⟨.local,name⟩
  | .module name => ⟨.module,name⟩
  | .resource resourceType name => .resource .resource resourceType name
  | .dataSource resourceType name => .resource .dataSource resourceType name

namespace SymbolTable

/-- The keyed locations of one of the maps of a table. -/
def rowsOf {κ : Type} (key : κ → SymbolKey) (m : KeyedMap κ Symbol) :
    List (SymbolKey × SymbolLocation) :=
  m.entries.map fun e => (key e.1,e.2.location)

def addressKey (kind : SymbolKind) (addr : ResourceAddress) : SymbolKey :=
  .resource kind addr.resourceType addr.name

/-- The symbols of a table that enter the index, in the order they are added.
Providers and terraform blocks are not indexed. -/
def rows (t : SymbolTable) : List (SymbolKey × SymbolLocation) :=
  rowsOf (SymbolKey.mk .variable) t.variables ++ rowsOf (SymbolKey.mk .local) t.locals ++
    rowsOf (SymbolKey.mk .output) t.outputs ++ rowsOf (SymbolKey.mk .module) t.modules ++
    rowsOf (addressKey .resource) t.resources ++ rowsOf (addressKey .dataSource) t.dataSources

theorem rowsOf_map_fst {κ : Type} (key : κ → SymbolKey) (m : KeyedMap κ Symbol) :
    (rowsOf key m).map Prod.fst = m.keys.map key := by
  simp [rowsOf,AList.keys,List.keys,Function.comp_def]

end SymbolTable

/-- The keyed locations of a document's references. -/
def referenceRows (refs : List Reference) : List (SymbolKey × SymbolLocation) :=
  refs.map fun r => (referenceKey r.kind,r.location)

end TerraformLs
