import TerraformLs.ModuleInputs
import TerraformLs.AssignedTypes

/-! The variables into which callers pass values that stay unknown until apply.
Each rebuild judges the arguments of the module calls of one directory and replaces
what that directory passes; it reads what the callers of the directory pass, and,
through the outputs of modules, what the callers of those modules pass. -/
namespace TerraformLs
namespace PassedVariables

open Proc UnknownValue AssignedTypes

structure UnknownVarBits where
  membership : Bool
  value : Bool
  reason : String
  deriving DecidableEq

/-- For each child directory and each caller of it, the variables that are unknown. -/
abbrev UnknownModuleVars := KeyedMap Path (KeyedMap Path (KeyedMap String UnknownVarBits))

abbrev Staged := KeyedMap Path (KeyedMap String UnknownVarBits)

structure RebuildEnvironment where
  fs : FileSystem
  parseManifest : String → Option (List (String × String))
  display : Path → String
  extraPlanKnown : KeyedMap (String × String) (List String)
  schema : SchemaLookup

/-- An argument of a call of the module in `child`. -/
structure PassedArgument where
  child : Path
  label : String
  name : String
  value : Expression

section filling

def joinBits (vars : KeyedMap String UnknownVarInfo) (b : (_ : String) × UnknownVarBits) :
    KeyedMap String UnknownVarInfo :=
  let info := (vars.lookup b.1).getD {}
  vars.insert b.1 ⟨info.membership || b.2.membership,info.value || b.2.value⟩

/-- A variable is unknown when any caller says so. The map is asked for the
directory as it is spelled, and then for its canonical path. -/
def fillUnknownVariables (fs : FileSystem) (vars : UnknownModuleVars) (dir : Path)
    (inputs : ModuleUnknownInputs) : ModuleUnknownInputs :=
  match (vars.lookup dir).or ((fs.canonicalize dir).bind fun canon => vars.lookup canon) with
  | none => inputs
  | some callers =>
    { inputs with
      unknownVariables :=
        (callers.entries.flatMap fun e => e.2.entries).foldl joinBits inputs.unknownVariables }

end filling

section outputs

/-- The part of an output that is read, when the output is written as an object. -/
def outputTarget : List String → Expression → Option Expression
  | [], expr => some expr
  | field::rest, .object entries => (objectGet entries field).bind (outputTarget rest)
  | _::_, expr => some expr

/-- A call of the analysis, for a directory. The directories of the modules whose
outputs are being resolved are not entered again. -/
structure ScopedCall where
  visiting : Finset Path
  dir : Path
  call : Call

/-- The label, the output and the attributes of a reference to an output. -/
def outputRead : Call → Option (String × String × List String)
  | .references (.traversal (.variable head) operators) _ _ =>
    if head = "module" then
      match getAttrs operators with
      | label::output::rest => some (label,output,rest)
      | _ => none
    else none
  | _ => none

variable (env : RebuildEnvironment) (docs : KeyedMap Url DocumentState)

/-- An output is judged in the directory of the module that has it. A reference
that does not resolve says nothing. -/
def outputCall (q : ScopedCall) : Option ScopedCall :=
  (outputRead q.call).bind fun (label,output,rest) =>
    (moduleSourceInDir env.fs docs q.dir label).bind fun source =>
      (env.fs.resolveModuleSource env.parseManifest q.dir label source).bind fun childDir =>
        if childDir ∈ q.visiting then none
        else
          ((findOutputExpr env.fs docs childDir output).bind (outputTarget rest)).map fun target =>
            ⟨insert childDir q.visiting,childDir,valueApplyTime target⟩

variable (vars : UnknownModuleVars)

def filledInputs (dir : Path) : ModuleUnknownInputs :=
  fillUnknownVariables env.fs vars dir
    (moduleUnknownInputsForDir env.fs docs env.extraPlanKnown dir)

def scopedCtx (dir : Path) (outputs : Option ModuleOutputLookup) : UnknownCtx :=
  { UnknownCtx.new (filledInputs env docs vars dir) (some env.schema) with moduleOutputs := outputs }

/-- What a call of the analysis runs; the call that reads an output is given its verdict. -/
def scopedBody (q : ScopedCall) : Proc ScopedCall Bool :=
  let within (outputs : Option ModuleOutputLookup) : Proc ScopedCall Bool :=
    (UnknownValue.body (scopedCtx env docs vars q.dir outputs) q.call).retag
      fun call => ⟨q.visiting,q.dir,call⟩
  match outputCall env docs q with
  | some target => .call target fun b => within (some ⟨fun _ _ _ => some b⟩)
  | none => within none

end outputs

section rebuild

variable (env : RebuildEnvironment) (docs : KeyedMap Url DocumentState)

def callArguments (dir : Path) (symbols : SymbolTable) : Structure → List PassedArgument
  | .attribute _ _ _ => []
  | .block ident labels body =>
    if ident = "module" then
      (labels.head?.bind fun label =>
        (symbols.moduleSources.lookup label.asStr).bind fun source =>
          (env.fs.resolveModuleSource env.parseManifest dir label.asStr source).map fun childDir =>
            (ModuleGraph.attrs body).filterMap fun a =>
              if isMetaAttr a.1 then none else some ⟨childDir,label.asStr,a.1,a.2⟩).getD []
    else []

/-- The arguments of the module calls of a directory, in the order they are met. -/
def passedArguments (dir : Path) : List PassedArgument :=
  docs.entries.flatMap fun e =>
    if env.fs.inDir e.1 dir then
      (e.2.parsed.body.getD []).flatMap (callArguments env dir e.2.symbols)
    else []

def passReason (label : String) (dir : Path) : String :=
  "caller module \"" ++ label ++ "\" in " ++ env.display dir ++ " passes an apply-time value"

variable (vars : UnknownModuleVars)

/-- Whether an argument is unknown until apply. Without enough fuel the analysis
has not ended. -/
def judge (fuel : ℕ) (dir : Path) (a : PassedArgument) : Option UnknownVarBits :=
  (eval (scopedBody env docs vars) fuel ⟨∅,dir,membershipApplyTime a.value .forEach⟩).bind
    fun membership =>
      (eval (scopedBody env docs vars) fuel ⟨∅,dir,valueApplyTime a.value⟩).map fun value =>
        ⟨membership,value,passReason env a.label dir⟩

/-- The last call that passes an unknown value counts. -/
def stageArgument (staged : Staged) (a : PassedArgument) (bits : UnknownVarBits) : Staged :=
  if bits.membership || bits.value then
    staged.insert a.child (((staged.lookup a.child).getD ∅).insert a.name bits)
  else staged

def stage (fuel : ℕ) (dir : Path) : Option Staged :=
  (passedArguments env docs dir).foldlM
    (fun staged a => (judge env docs vars fuel dir a).map (stageArgument staged a)) ∅

def dropCaller (callerDir : Path) (staged : Staged) : UnknownModuleVars :=
  KeyedMap.retain (fun child callers => (staged.lookup child).isSome || !callers.entries.isEmpty)
    (KeyedMap.mapValues (fun child callers =>
      if (staged.lookup child).isSome then callers else callers.erase callerDir) vars)

def stageCaller (callerDir : Path) (vars : UnknownModuleVars)
    (e : (_ : Path) × KeyedMap String UnknownVarBits) : UnknownModuleVars :=
  vars.insert e.1 (((vars.lookup e.1).getD ∅).insert callerDir e.2)

/-- What the caller passed before is dropped, and directories that are then passed
nothing with it. -/
def replaceUnknownModuleVarsFromCaller (callerDir : Path) (staged : Staged) :
    UnknownModuleVars :=
  staged.entries.foldl (stageCaller callerDir) (dropCaller vars callerDir staged)

def rebuildUnknownModuleVarsForDir (fuel : ℕ) (dir : Path) : Option UnknownModuleVars :=
  (stage env docs vars fuel dir).map (replaceUnknownModuleVarsFromCaller vars dir)

/-- The loop over the directories of a bulk scan. -/
def bulkRebuild (fuel : ℕ) (dirs : List Path) : Option UnknownModuleVars :=
  dirs.foldlM (fun vars dir => rebuildUnknownModuleVarsForDir env docs vars fuel dir) vars

end rebuild

/-- A document of the one directory calls the module in the other. -/
def ModuleCalls (env : RebuildEnvironment) (docs : KeyedMap Url DocumentState)
    (dir childDir : Path) : Prop :=
  ∃ e ∈ docs.entries, env.fs.inDir e.1 dir = true ∧
    ∃ label source, e.2.symbols.moduleSources.lookup label = some source ∧
      env.fs.resolveModuleSource env.parseManifest dir label source = some childDir

end PassedVariables
end TerraformLs
