import TerraformLs.AssignedTypes
import TerraformLs.UnknownTermination

/-! Inference of the types that module calls assign. An expression is walked in
the scope of the caller; a local or a module output is inferred anew from its
value wherever it is read, and nothing records what is being inferred. -/
namespace TerraformLs

namespace VariableType

/-- The fields of an object are kept in the order of their names; a second field
of a name replaces the first. -/
def insertField (fields : List (String × VariableType)) (field : String × VariableType) :
    List (String × VariableType) :=
  (fields.filter fun f => f.1 ≠ field.1).orderedInsert (fun f g => f.1 ≤ g.1) field

def getField (fields : List (String × VariableType)) (name : String) : Option VariableType :=
  (fields.find? fun f => f.1 = name).map Prod.snd

def fieldsOf (entries : List (String × VariableType)) : List (String × VariableType) :=
  entries.foldl insertField []

mutual

/-- The shapes of the two branches of a conditional, combined. -/
def mergeShapes : VariableType → VariableType → VariableType
  | .any, other => other
  | other, .any => other
  | .object fields, .object others => .object (mergeInto fields others)
  | a, _ => a

def mergeInto : List (String × VariableType) → List (String × VariableType) →
    List (String × VariableType)
  | fields, [] => fields
  | fields, (name,ty)::others =>
    match getField fields name with
    | some existing => mergeInto (insertField fields (name,mergeShapes existing ty)) others
    | none => mergeInto (insertField fields (name,ty)) others

end

/-- The type that all of them have. -/
def commonType : List VariableType → Option VariableType
  | [] => none
  | first::rest => if rest.all fun ty => ty.beq first then some first else none

/-- `element(collection,index)`. -/
def elementOf : VariableType → VariableType
  | .tuple items => (commonType items).getD .any
  | .list inner | .set inner => inner
  | _ => .any

/-- What an argument of `concat` adds to the list. -/
def concatItems : VariableType → List VariableType
  | .tuple items => items
  | .list inner | .set inner => [inner]
  | other => [other]

def concatOf (args : List VariableType) : VariableType :=
  ((commonType (args.flatMap concatItems)).map VariableType.list).getD .any

/-- The type of every value of a map. -/
def valueOf : VariableType → Option VariableType
  | .map inner => some inner
  | .object fields => commonType (fields.map Prod.snd)
  | _ => none

/-- `lookup(map,key,default)`, as far as the map tells. -/
def lookupOf (mapTy : VariableType) (key : Option Expression) : Option VariableType :=
  match mapTy,key with
  | .object fields, some (.string name) => (getField fields name).or (valueOf mapTy)
  | _, _ => valueOf mapTy

/-- The type behind a `.name` operator. -/
def attrOf (name : String) : VariableType → VariableType
  | .object fields => (getField fields name).getD .any
  | .map inner | .list inner | .set inner => inner
  | _ => .any

/-- The type behind an index. -/
def itemOf : VariableType → VariableType
  | .list inner | .set inner | .map inner => inner
  | .tuple (item::_) => item
  | _ => .any

/-- Follow the operators beyond the header of a traversal. As many `.name`
operators as the header has are still to be passed over, with the indices
between them; a splat leaves the type as it is. -/
def drill : ℕ → List TraversalOperator → VariableType → VariableType
  | _, [], ty => ty
  | header+1, .getAttr _::operators, ty => drill header operators ty
  | 0, .getAttr name::operators, ty => drill 0 operators (attrOf name ty)
  | header+1, .index _::operators, ty => drill (header+1) operators ty
  | 0, .index _::operators, ty => drill 0 operators (itemOf ty)
  | header+1, .legacyIndex _::operators, ty => drill (header+1) operators ty
  | 0, .legacyIndex _::operators, ty => drill 0 operators (itemOf ty)
  | header, .attrSplat::operators, ty => drill header operators ty
  | header, .fullSplat::operators, ty => drill header operators ty

end VariableType

namespace ValueShape

open Proc AssignedTypes VariableType UnknownValue

/-- Where an expression is inferred: the directory whose declarations are in
scope, and the type of `each.value` in a call with `for_each`. -/
structure CallerScopedLookup where
  callerDir : Path
  eachValue : Option VariableType

/-- What the provider schemas say of attributes, and a symbol table of the
declared type of a variable or else of its default. -/
structure SchemaLookup where
  resourceAttr : String → String → Option VariableType
  dataSourceAttr : String → String → Option VariableType
  variableType : DocumentState → String → Option VariableType

/-- A call of one of the functions through which the inference recurs, or of the
rebuild of a directory, which starts it. -/
inductive Call
  | shape (expr : Expression) (scope : CallerScopedLookup)
  | localShape (name : String) (scope : CallerScopedLookup)
  | moduleOutput (moduleName outputName : String) (scope : CallerScopedLookup)
  | rebuild (dir : Path)

inductive Answer
  | inferred (ty : Option VariableType)
  | staged (calls : List (Path × List (String × VariableType)))

namespace Answer

def inferred? : Answer → Option VariableType
  | .inferred ty => ty
  | .staged _ => none

/-- The type returned; what could not be inferred is of any type. -/
def ty (a : Answer) : VariableType := a.inferred?.getD .any

end Answer

def known (ty : VariableType) : Answer := .inferred (some ty)

section names

def stringFunctions : List String :=
  ["format","join","trim","trimspace","trimprefix","trimsuffix","upper","lower","title",
    "replace","regex","abspath","dirname","basename","pathexpand","uuid","uuidv5",
    "base64encode","base64decode","filebase64","filemd5","filesha1","filesha256","filesha512",
    "md5","sha1","sha256","sha512","bcrypt","templatefile","file","yamlencode","jsonencode",
    "timestamp","formatdate"]

def numberFunctions : List String :=
  ["length","ceil","floor","abs","log","max","min","pow","signum","parseint"]

def boolFunctions : List String :=
  ["alltrue","anytrue","can","contains","startswith","endswith","fileexists","issensitive"]

def isResourceType (s : String) : Bool := '_' ∈ s.toList

def objectKeyAsIdent : ObjectKey → Option String
  | .ident name => some name
  | .expression (.variable name) => some name
  | .expression (.string text) => some text
  | .expression _ => none

/-- The entries of an object literal whose key is a name. -/
def namedEntries (entries : List (ObjectKey × Expression)) : List (String × Expression) :=
  entries.filterMap fun entry => (objectKeyAsIdent entry.1).map fun name => (name,entry.2)

/-- `toset` and `tolist` of a literal list have its strings for keys. -/
def literalKeys : List Expression → VariableType
  | .array items::_ =>
    let keys := fieldsOf (items.filterMap fun
      | .string text => some (text,.any)
      | _ => none)
    if keys.isEmpty then .any else .object keys
  | _ => .any

def attrValue (name : String) (body : Body) : Option Expression :=
  body.findSome? fun
    | .attribute key _ value => if key = name then some value else none
    | .block _ _ _ => none

/-- The value of the first attribute of that name in the `locals` blocks. -/
def localValue (name : String) (docs : List DocumentState) : Option Expression :=
  docs.findSome? fun doc => (doc.parsed.body.getD []).findSome? fun
    | .block ident _ body => if ident = "locals" then attrValue name body else none
    | .attribute _ _ _ => none

/-- The value of the first output of that name. The search ends at an `output`
block that has no label. -/
def outputValue (name : String) (docs : List DocumentState) : Option Expression :=
  (docs.findSome? fun doc => (doc.parsed.body.getD []).findSome? fun
    | .block ident labels body =>
      if ident = "output" then
        match labels with
        | [] => some none
        | label::_ => if label.asStr = name then (attrValue "value" body).map some else none
      else none
    | .attribute _ _ _ => none).join

end names

section inference

variable (env : Environment) (schema : SchemaLookup) (docs : KeyedMap Url DocumentState)

/-- The documents whose files lie under the very path of the directory. -/
def docsUnder (dir : Path) : List DocumentState :=
  (docs.entries.filter fun e => env.fs.parentDir e.1 = some dir).map Sigma.snd

/-- `[for v in <resource>.<name> : v.<attr>]`, and the same of a data source. -/
def forExprBodyViaSchema (collection : Expression) (iterVar : String) (body : Expression) :
    Option VariableType :=
  match body,collection with
  | .traversal (.variable bodyBase) (.getAttr bodyAttr::_), .traversal (.variable collBase) ops =>
    let idents := getAttrs (ops.takeWhile fun
      | .getAttr _ => true
      | _ => false)
    if bodyBase ≠ iterVar then none
    else if collBase = "data" then
      match idents with
      | resourceType::_::_ => schema.dataSourceAttr resourceType bodyAttr
      | _ => none
    else if isResourceType collBase then
      match idents with
      | _::_ => schema.resourceAttr collBase bodyAttr
      | [] => none
    else none
  | _, _ => none

/-- The type of a header, followed through the rest of the traversal. -/
def drilled (header : ℕ) (operators : List TraversalOperator) (ty : Option VariableType) :
    Answer :=
  known ((ty.map (drill header operators)).getD .any)

def traversalAttrType (expr : Expression) (operators : List TraversalOperator)
    (scope : CallerScopedLookup) : Proc Call Answer :=
  match expr with
  | .variable base =>
    let idents := getAttrs operators
    if base = "var" then
      match idents with
      | name::_ => .answer (drilled 1 operators
          ((docsUnder env docs scope.callerDir).findSome? fun doc => schema.variableType doc name))
      | [] => .answer (known .any)
    else if base = "local" then
      match idents with
      | name::_ => .call (.localShape name scope) fun a => .answer (drilled 1 operators a.inferred?)
      | [] => .answer (known .any)
    else if base = "module" then
      match idents with
      | m::o::_ =>
        .call (.moduleOutput m o scope) fun a => .answer (drilled 2 operators a.inferred?)
      | _ => .answer (known .any)
    else if base = "each" then
      match idents with
      | what::_ =>
        if what = "key" then .answer (known (.primitive .string))
        else if what = "value" then .answer (drilled 1 operators scope.eachValue)
        else .answer (known .any)
      | [] => .answer (known .any)
    else if base = "data" then
      match idents with
      | resourceType::_::attr::_ =>
        .answer (drilled 3 operators (schema.dataSourceAttr resourceType attr))
      | _ => .answer (known .any)
    else if isResourceType base then
      match idents with
      | _::attr::_ => .answer (drilled 2 operators (schema.resourceAttr base attr))
      | _ => .answer (known .any)
    else .answer (known .any)
  | _ => .answer (known .any)

def objectShape (entries : List (ObjectKey × Expression)) (scope : CallerScopedLookup) :
    Proc Call Answer :=
  let named := namedEntries entries
  askAll (named.map fun e => .shape e.2 scope) fun as =>
    .answer (known (.object (fieldsOf ((named.map Prod.fst).zip (as.map Answer.ty)))))

/-- `object({ … })` in a value position is taken for the literal. -/
def objectArgShape (args : List Expression) (scope : CallerScopedLookup) : Proc Call Answer :=
  match args with
  | .object entries::_ => objectShape entries scope
  | _ => .answer (known .any)

/-- `merge` gives up at the first argument that is no object. -/
def mergeArgs (scope : CallerScopedLookup) :
    List (String × VariableType) → List Expression → Proc Call Answer
  | combined, [] => .answer (known (if combined.isEmpty then .any else .object combined))
  | combined, arg::args => .call (.shape arg scope) fun a =>
    match a.ty with
    | .object fields => mergeArgs scope (fields.foldl insertField combined) args
    | _ => .answer (known .any)

/-- The first argument with a known type is what `try` and `coalesce` return. -/
def firstConcrete (args : List Expression) (scope : CallerScopedLookup) : Proc Call Answer :=
  askUntil (fun a => !a.ty.isAny) (known .any) (args.map fun arg => .shape arg scope)

/-- The answer is computed from the shape of the first argument. -/
def ofFirst (args : List Expression) (scope : CallerScopedLookup)
    (f : VariableType → VariableType) : Proc Call Answer :=
  match args with
  | [] => .answer (known .any)
  | arg::_ => .call (.shape arg scope) fun a => .answer (known (f a.ty))

def lookupShape (args : List Expression) (scope : CallerScopedLookup) : Proc Call Answer :=
  match args with
  | [] => .answer (known .any)
  | mapArg::rest => .call (.shape mapArg scope) fun a =>
    match lookupOf a.ty rest.head? with
    | some ty => .answer (known ty)
    | none =>
      match rest with
      | _::default::_ => ask (.shape default scope)
      | _ => .answer (known .any)

def funcCallShape (name : String) (args : List Expression) (scope : CallerScopedLookup) :
    Proc Call Answer :=
  if name = "toset" ∨ name = "tolist" then .answer (known (literalKeys args))
  else if name = "tomap" then ofFirst args scope id
  else if name = "element" then ofFirst args scope elementOf
  else if name = "concat" then
    askAll (args.map fun arg => .shape arg scope) fun as =>
      .answer (known (concatOf (as.map Answer.ty)))
  else if name ∈ stringFunctions then .answer (known (.primitive .string))
  else if name ∈ numberFunctions then .answer (known (.primitive .number))
  else if name ∈ boolFunctions then .answer (known (.primitive .bool))
  else if name = "split" ∨ name = "keys" then .answer (known (.list (.primitive .string)))
  else if name = "values" then
    ofFirst args scope fun ty => ((valueOf ty).map VariableType.list).getD .any
  else if name = "merge" then mergeArgs scope [] args
  else if name = "lookup" then lookupShape args scope
  else if name = "try" ∨ name = "coalesce" then firstConcrete args scope
  else if name = "object" then objectArgShape args scope
  else .answer (known .any)

def parseValueShapeWithSchema (expr : Expression) (scope : CallerScopedLookup) :
    Proc Call Answer :=
  match expr with
  | .object entries => objectShape entries scope
  | .array items => askAll (items.map fun item => .shape item scope) fun as =>
    .answer (known (.tuple (as.map Answer.ty)))
  | .string _ | .stringTemplate _ | .heredocTemplate _ => .answer (known (.primitive .string))
  | .number _ => .answer (known (.primitive .number))
  | .bool _ => .answer (known (.primitive .bool))
  | .funcCall ns name args =>
    if ns = [] then funcCallShape name args scope else .answer (known .any)
  | .conditional _ whenTrue whenFalse => .call (.shape whenTrue scope) fun a =>
    .call (.shape whenFalse scope) fun b => .answer (known (mergeShapes a.ty b.ty))
  | .parenthesis inner => ask (.shape inner scope)
  | .traversal expr operators => traversalAttrType env schema docs expr operators scope
  | .forExpr _ valueVar collection keyExpr valueExpr _ _ =>
    let collected := fun elem => known (if keyExpr.isSome then .map elem else .list elem)
    match forExprBodyViaSchema schema collection valueVar valueExpr with
    | some elem => .answer (collected elem)
    | none => .call (.shape valueExpr scope) fun a => .answer (collected a.ty)
  | .null | .variable _ | .unaryOp _ _ | .binaryOp _ _ _ => .answer (known .any)

def localShape (name : String) (scope : CallerScopedLookup) : Proc Call Answer :=
  match localValue name (docsUnder env docs scope.callerDir) with
  | some value => ask (.shape value scope)
  | none => .answer (.inferred none)

/-- The value of an output is inferred in the scope of the module that has it. -/
def moduleOutput (moduleName outputName : String) (scope : CallerScopedLookup) :
    Proc Call Answer :=
  let source := (docsUnder env docs scope.callerDir).findSome? fun doc =>
    doc.symbols.moduleSources.lookup moduleName
  match source.bind (env.fs.resolveModuleSource env.parseManifest scope.callerDir moduleName) with
  | none => .answer (.inferred none)
  | some childDir =>
    match outputValue outputName (docsUnder env docs childDir) with
    | some value => ask (.shape value ⟨childDir,none⟩)
    | none => .answer (.inferred none)

end inference

section rebuild

variable (env : Environment) (docs : KeyedMap Url DocumentState)

/-- A module block, with the directory it feeds. -/
def callSite (dir : Path) (symbols : SymbolTable) : Structure → Option (Path × Body)
  | .attribute _ _ _ => none
  | .block ident labels body =>
    if ident = "module" then
      labels.head? >>= fun label =>
        symbols.moduleSources.lookup label.asStr >>= fun source =>
          (env.fs.resolveModuleSource env.parseManifest dir label.asStr source).map
            fun childDir => (childDir,body)
    else none

def callSites (dir : Path) : List (Path × Body) :=
  docs.entries.flatMap fun e =>
    if inDir env dir e.1 then
      (e.2.parsed.body.getD []).filterMap (callSite env dir e.2.symbols)
    else []

def inputs (body : Body) : List (String × Expression) :=
  body.filterMap fun item => match item with
    | .attribute key _ value => if isMetaAttr key then none else some (key,value)
    | .block _ _ _ => none

/-- Inputs of unknown type are left out. -/
def knownRows (rows : List (String × VariableType)) : List (String × VariableType) :=
  rows.filter fun row => !row.2.isAny

def inferInputs (inputs : List (String × Expression)) (scope : CallerScopedLookup)
    (next : List (String × VariableType) → Proc Call Answer) : Proc Call Answer :=
  askAll (inputs.map fun i => .shape i.2 scope) fun as =>
    next (knownRows ((inputs.map Prod.fst).zip (as.map Answer.ty)))

/-- `for_each` itself is inferred where `each` means nothing. -/
def inferCall (dir : Path) (body : Body)
    (next : List (String × VariableType) → Proc Call Answer) : Proc Call Answer :=
  match attrValue "for_each" body with
  | none => inferInputs (inputs body) ⟨dir,none⟩ next
  | some collection => .call (.shape collection ⟨dir,none⟩) fun a =>
    inferInputs (inputs body) ⟨dir,elementTypeOf a.ty⟩ next

def inferCalls (dir : Path) : List (Path × Body) →
    (List (Path × List (String × VariableType)) → Proc Call Answer) → Proc Call Answer
  | [], next => next []
  | site::sites, next => inferCall dir site.2 fun rows =>
    inferCalls dir sites fun calls => next ((site.1,rows) :: calls)

variable (schema : SchemaLookup)

/-- The body of each call, as `rebuild_assigned_variable_types_for_dir` and the
inference under it run. -/
def body : Call → Proc Call Answer
  | .shape expr scope => parseValueShapeWithSchema env schema docs expr scope
  | .localShape name scope => localShape env docs name scope
  | .moduleOutput moduleName outputName scope =>
    moduleOutput env docs moduleName outputName scope
  | .rebuild dir => inferCalls dir (callSites env docs dir) fun calls => .answer (.staged calls)

end rebuild

end ValueShape
end TerraformLs
