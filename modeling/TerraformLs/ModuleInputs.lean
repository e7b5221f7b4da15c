import TerraformLs.ModuleSnapshot
import TerraformLs.UnknownValue

/-! What the analysis of unknown values reads from the documents of a directory:
locals and block configurations, and the sources and outputs of modules. The first
definition of a name is the one that counts. -/
namespace TerraformLs
namespace UnknownValue

structure ModuleUnknownInputs where
  locals : KeyedMap String Expression := ∅
  dataConfigs : KeyedMap (String × String) BlockConfig := ∅
  resourceConfigs : KeyedMap (String × String) BlockConfig := ∅
  unknownVariables : KeyedMap String UnknownVarInfo := ∅
  extraPlanKnown : KeyedMap (String × String) (List String) := ∅

def UnknownCtx.new (inputs : ModuleUnknownInputs) (schema : Option SchemaLookup) : UnknownCtx where
  locals := inputs.locals
  dataConfigs := inputs.dataConfigs
  resourceConfigs := inputs.resourceConfigs
  unknownVariables := inputs.unknownVariables
  extraPlanKnown := inputs.extraPlanKnown
  schema := schema

def ModuleUnknownInputs.mergeMissing (inputs other : ModuleUnknownInputs) :
    ModuleUnknownInputs where
  locals := inputs.locals.mergeMissing other.locals
  dataConfigs := inputs.dataConfigs.mergeMissing other.dataConfigs
  resourceConfigs := inputs.resourceConfigs.mergeMissing other.resourceConfigs
  unknownVariables := inputs.unknownVariables.mergeMissing other.unknownVariables
  extraPlanKnown := inputs.extraPlanKnown.mergeMissing other.extraPlanKnown

section collection

/-- The values of all attributes under a body. -/
def collectNestedExprs : List Structure → List Expression
  | [] => []
  | .attribute _ _ value::body => value :: collectNestedExprs body
  | .block _ _ inner::body => collectNestedExprs inner ++ collectNestedExprs body

/-- Targets in `data` and `module` do not defer a read. -/
def isManagedTarget : Expression → Bool
  | .traversal (.variable head) _ => head ≠ "data" ∧ head ≠ "module"
  | .variable head => head ≠ "data" ∧ head ≠ "module"
  | _ => false

def dependsOnManagedResource : Expression → Bool
  | .array items => items.any isManagedTarget
  | _ => false

def addConfigItem (config : BlockConfig) : Structure → BlockConfig
  | .block ident _ inner =>
    if ident = "lifecycle" then config
    else { config with nestedExprs := config.nestedExprs ++ collectNestedExprs inner }
  | .attribute key _ value =>
    if key = "depends_on" then { config with hasDependsOn := dependsOnManagedResource value }
    else if key ∈ ["count","for_each","provider"] then config
    else { config with attrs := config.attrs.insertMissing ⟨key,value⟩ }

def blockConfig (body : Body) : BlockConfig := body.foldl addConfigItem {}

def addLocals (locals : KeyedMap String Expression) (body : Body) : KeyedMap String Expression :=
  (ModuleGraph.attrs body).foldl (fun locals a => locals.insertMissing ⟨a.1,a.2⟩) locals

def addInputs (out : ModuleUnknownInputs) : Structure → ModuleUnknownInputs
  | .attribute _ _ _ => out
  | .block ident labels body =>
    if ident = "locals" then { out with locals := addLocals out.locals body }
    else
      match labels with
      | [typeName,name] =>
        let entry := ⟨(typeName.asStr,name.asStr),blockConfig body⟩
        if ident = "data" then { out with dataConfigs := out.dataConfigs.insertMissing entry }
        else if ident = "resource" then
          { out with resourceConfigs := out.resourceConfigs.insertMissing entry }
        else out
      | _ => out

def collectModuleInputs (body : Body) : ModuleUnknownInputs := body.foldl addInputs {}

end collection

section directories

variable (fs : FileSystem) (docs : KeyedMap Url DocumentState)

def addDocument (dir : Path) (out : ModuleUnknownInputs) (e : (_ : Url) × DocumentState) :
    ModuleUnknownInputs :=
  if fs.inDir e.1 dir then
    match e.2.parsed.body with
    | some body => out.mergeMissing (collectModuleInputs body)
    | none => out
  else out

def moduleUnknownInputsForDir (extraPlanKnown : KeyedMap (String × String) (List String))
    (dir : Path) : ModuleUnknownInputs :=
  docs.entries.foldl (addDocument fs dir) { extraPlanKnown := extraPlanKnown }

/-- What a document of the directory provides for one name. -/
def inputFrom {β : Type} (get : ModuleUnknownInputs → Option β) (dir : Path)
    (e : (_ : Url) × DocumentState) : Option β :=
  if fs.inDir e.1 dir then e.2.parsed.body.bind fun body => get (collectModuleInputs body)
  else none

/-- The first document that provides a name decides. -/
theorem lookup_forDir {β : Type} {get : ModuleUnknownInputs → Option β}
    (hmerge : ∀ inputs other, get (inputs.mergeMissing other) = (get inputs).or (get other))
    (extraPlanKnown : KeyedMap (String × String) (List String))
    (hempty : get { extraPlanKnown := extraPlanKnown } = none) (dir : Path) :
    get (moduleUnknownInputsForDir fs docs extraPlanKnown dir) =
      docs.entries.findSome? (inputFrom fs get dir) := by
  have hentries : ∀ (es : List ((_ : Url) × DocumentState)) (out : ModuleUnknownInputs),
      get (es.foldl (addDocument fs dir) out) =
        (get out).or (es.findSome? (inputFrom fs get dir)) := by
    intro es
    induction es with
    | nil => simp
    | cons e es ih =>
      intro out
      have hstep : get (addDocument fs dir out e) = (get out).or (inputFrom fs get dir e) := by
        rw [addDocument,inputFrom]
        split
        · cases e.2.parsed.body with
          | none => simp
          | some body => exact hmerge out _
        · simp
      rw [List.foldl_cons,ih,hstep,List.findSome?_cons,Option.or_assoc]
      cases inputFrom fs get dir e <;> rfl
  rw [moduleUnknownInputsForDir,hentries,hempty,Option.none_or]

/-- The value of an output block with that label alone. -/
def outputValue? (output : String) : Structure → Option Expression
  | .attribute _ _ _ => none
  | .block ident labels body =>
    if ident = "output" ∧ labels.map BlockLabel.asStr = [output] then
      (ModuleGraph.attrs body).findSome? fun a => if a.1 = "value" then some a.2 else none
    else none

def outputFrom (childDir : Path) (output : String) (e : (_ : Url) × DocumentState) :
    Option Expression :=
  if fs.inDir e.1 childDir then (e.2.parsed.body.getD []).findSome? (outputValue? output) else none

def findOutputExpr (childDir : Path) (output : String) : Option Expression :=
  docs.entries.findSome? (outputFrom fs childDir output)

def sourceFrom (moduleDir : Path) (label : String) (e : (_ : Url) × DocumentState) :
    Option String :=
  if fs.inDir e.1 moduleDir then e.2.symbols.moduleSources.lookup label else none

def moduleSourceInDir (moduleDir : Path) (label : String) : Option String :=
  docs.entries.findSome? (sourceFrom fs moduleDir label)

end directories

end UnknownValue
end TerraformLs
