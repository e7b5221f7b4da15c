import Mathlib.Data.Finset.Basic
import Mathlib.Data.Finset.Union
import Mathlib.Data.Finset.Image
import Mathlib.Data.Finset.Card
import TerraformLs.Hcl
import TerraformLs.KeyedMap
import TerraformLs.Procedures

/-! The analysis of values that stay unknown until apply. Its functions call one
another on other expressions, under other loop variables and on longer paths of
visited names, so each is the body of a call; a call names the expression, the
bindings in force and the path. -/
namespace TerraformLs
namespace UnknownValue

open Proc

/-- The configuration of a `resource` or `data` block. -/
structure BlockConfig where
  attrs : KeyedMap String Expression := ∅
  nestedExprs : List Expression := []
  hasDependsOn : Bool := false

def BlockConfig.exprs (config : BlockConfig) : List Expression :=
  config.attrs.entries.map Sigma.snd ++ config.nestedExprs

/-- What a caller passes into a module variable. -/
structure UnknownVarInfo where
  membership : Bool := false
  value : Bool := false

structure AttributeSchema where
  computed : Bool := false

structure BlockSchema where
  attributes : KeyedMap String AttributeSchema := ∅

structure Schema where
  block : BlockSchema := {}

structure SchemaLookup where
  resource : String → Option Schema

/-- Verdicts on module outputs, from the module's label, the output and the
attributes read from it. -/
structure ModuleOutputLookup where
  outputApplyTime : String → String → List String → Option Bool

structure UnknownCtx where
  locals : KeyedMap String Expression := ∅
  dataConfigs : KeyedMap (String × String) BlockConfig := ∅
  resourceConfigs : KeyedMap (String × String) BlockConfig := ∅
  unknownVariables : KeyedMap String UnknownVarInfo := ∅
  extraPlanKnown : KeyedMap (String × String) (List String) := ∅
  schema : Option SchemaLookup := none
  moduleOutputs : Option ModuleOutputLookup := none

inductive MetaKind
  | forEach | count
  deriving DecidableEq

/-- What a loop variable takes from the collection it runs over. -/
inductive Bind
  | value (coll : Expression)
  | key (coll : Expression)

def Bind.coll : Bind → Expression
  | .value coll => coll
  | .key coll => coll

abbrev Binds := KeyedMap String Bind

/-- A call of one of the three functions through which the analysis recurs. -/
inductive Call
  | membership (value : Expression) (kind : MetaKind) (binds : Binds) (visited : Finset String)
  | references (expr : Expression) (binds : Binds) (visited : Finset String)
  | bind (bind : Bind) (field : Option String) (binds : Binds) (visited : Finset String)

section names

def safeRoots : List String := ["path","terraform","self","each","count","var","local"]

/-- Computed collections that providers fill at plan time, with the fields then known. -/
def planKnownComputedCollections : List ((String × String) × List String) :=
  [(("aws_acm_certificate","domain_validation_options"),["domain_name"])]

def isCollectionBuilder (name : String) : Bool :=
  name ∈ ["toset","tomap","tolist","setunion","setintersection","setproduct","setsubtract",
    "concat","merge","flatten","keys","distinct","compact","sort"]

def isIdentityPassthrough (name : String) : Bool := name ∈ ["nonsensitive","sensitive"]

def isMembershipPassthrough (name : String) : Bool := isIdentityPassthrough name || name = "try"

/-- The names under which blocks stand on the path. -/
def resourceKey (rtype name : String) : String := "res:" ++ rtype ++ "." ++ name

def dataKey (dtype name : String) : String := "data:" ++ dtype ++ "." ++ name

/-- The argument of a call that returns it unchanged. -/
def identityPassthroughArg : Expression → Option Expression
  | .funcCall _ name args => if isIdentityPassthrough name then args.head? else none
  | _ => none

def getAttrs (operators : List TraversalOperator) : List String :=
  operators.filterMap fun
    | .getAttr name => some name
    | _ => none

def firstAttr (operators : List TraversalOperator) : Option String := (getAttrs operators).head?

def headName (expr : Expression) (expectedHead : String) : Option String :=
  match expr with
  | .traversal (.variable head) operators =>
    if head = expectedHead then firstAttr operators else none
  | _ => none

def localName (expr : Expression) : Option String := headName expr "local"

/-- The name of a `var` reference with no operator beyond it. -/
def varName (expr : Expression) : Option String :=
  match expr with
  | .traversal _ operators => if operators.length = 1 then headName expr "var" else none
  | _ => none

def keyNamed (name : String) : ObjectKey → Bool
  | .ident key => key = name
  | .expression (.string key) => key = name
  | .expression _ => false

def objectGet (entries : List (ObjectKey × Expression)) (name : String) : Option Expression :=
  (entries.find? fun entry => keyNamed name entry.1).map Prod.snd

/-- A reference to a plan-known computed collection. -/
structure AllowlistedUse where
  knownFields : List String
  /-- Whether one of the fields read beyond the collection is not plan-known. -/
  tail : Option Bool

def allowlistedTraversal (ctx : UnknownCtx) (expr : Expression)
    (operators : List TraversalOperator) : Option AllowlistedUse :=
  match expr with
  | .variable head =>
    if head = "data" ∨ head ∈ safeRoots then none
    else
      match getAttrs operators with
      | _::attr::fields =>
        let known := (planKnownComputedCollections.find? fun c => c.1 = (head,attr)).map Prod.snd
        (known.or (ctx.extraPlanKnown.lookup (head,attr))).map fun knownFields =>
          ⟨knownFields,if fields = [] then none else some (fields.any fun f => f ∉ knownFields)⟩
      | _ => none
  | _ => none

/-- The use of a plan-known collection as a whole. -/
def allowlistedCollection (ctx : UnknownCtx) : Expression → Option (List String)
  | .traversal expr operators =>
    match allowlistedTraversal ctx expr operators with
    | some ⟨knownFields,none⟩ => some knownFields
    | _ => none
  | _ => none

end names

section locals

variable (ctx : UnknownCtx)

/-- A local that the path has not visited, with the path through it. -/
def resolveLocalDef (name : Option String) (visited : Finset String) :
    Option (Expression × Finset String) :=
  match name with
  | none => none
  | some name =>
    if name ∈ visited then none
    else (ctx.locals.lookup name).map fun d => (d,insert name visited)

theorem sizeOf_identityPassthroughArg {expr arg : Expression}
    (h : identityPassthroughArg expr = some arg) : sizeOf arg < sizeOf expr := by
  unfold identityPassthroughArg at h
  split at h
  · rename_i ns name args
    split at h
    · have hmem := List.sizeOf_lt_of_mem (List.mem_of_head? h)
      simp only [Expression.funcCall.sizeOf_spec]
      omega
    · cases h
  · cases h

theorem card_unvisited_lt {keys visited : Finset String} {key : String} (h : key ∈ keys)
    (hv : key ∉ visited) : (keys \ insert key visited).card < (keys \ visited).card := by
  apply Finset.card_lt_card
  refine ⟨Finset.sdiff_subset_sdiff subset_rfl (Finset.subset_insert _ _),fun hsub => ?_⟩
  have hin := hsub (Finset.mem_sdiff.mpr ⟨h,hv⟩)
  simp at hin

theorem mem_locals_keys {name : String} {d : Expression} (h : ctx.locals.lookup name = some d) :
    name ∈ ctx.locals.keys.toFinset := by
  rw [List.mem_toFinset,← AList.mem_keys,← AList.lookup_isSome,h]
  rfl

/-- Follow locals and identity calls to the expression they stand for. -/
def resolveThroughLocals (expr : Expression) (visited : Finset String) :
    Expression × Finset String :=
  match localName expr with
  | some name =>
    if _hv : name ∈ visited then (expr,visited)
    else
      match _hd : ctx.locals.lookup name with
      | some d => resolveThroughLocals d (insert name visited)
      | none => (expr,insert name visited)
  | none =>
    match _ha : identityPassthroughArg expr with
    | some inner => resolveThroughLocals inner visited
    | none => (expr,visited)
termination_by ((ctx.locals.keys.toFinset \ visited).card,sizeOf expr)
decreasing_by
  · exact Prod.Lex.left _ _ (card_unvisited_lt (mem_locals_keys ctx _hd) _hv)
  · exact Prod.Lex.right _ (sizeOf_identityPassthroughArg _ha)

variable {ctx} {expr : Expression} {visited : Finset String}

theorem resolveThroughLocals_cycle {name : String} (h : localName expr = some name)
    (hv : name ∈ visited) : resolveThroughLocals ctx expr visited = (expr,visited) := by
  rw [resolveThroughLocals]
  split
  · rename_i name' h'
    rw [h] at h'
    cases h'
    rw [dif_pos hv]
  · rename_i h'
    rw [h] at h'
    cases h'

theorem resolveThroughLocals_local {name : String} {d : Expression}
    (h : localName expr = some name) (hv : name ∉ visited) (hd : ctx.locals.lookup name = some d) :
    resolveThroughLocals ctx expr visited = resolveThroughLocals ctx d (insert name visited) := by
  rw [resolveThroughLocals]
  split
  · rename_i name' h'
    rw [h] at h'
    cases h'
    rw [dif_neg hv]
    split
    · rename_i d' hd'
      rw [hd] at hd'
      cases hd'
      rfl
    · rename_i hd'
      rw [hd] at hd'
      cases hd'
  · rename_i h'
    rw [h] at h'
    cases h'

theorem resolveThroughLocals_undefined {name : String} (h : localName expr = some name)
    (hv : name ∉ visited) (hd : ctx.locals.lookup name = none) :
    resolveThroughLocals ctx expr visited = (expr,insert name visited) := by
  rw [resolveThroughLocals]
  split
  · rename_i name' h'
    rw [h] at h'
    cases h'
    rw [dif_neg hv]
    split
    · rename_i d' hd'
      rw [hd] at hd'
      cases hd'
    · rfl
  · rename_i h'
    rw [h] at h'
    cases h'

theorem resolveThroughLocals_identity {inner : Expression} (h : localName expr = none)
    (ha : identityPassthroughArg expr = some inner) :
    resolveThroughLocals ctx expr visited = resolveThroughLocals ctx inner visited := by
  rw [resolveThroughLocals]
  split
  · rename_i name' h'
    rw [h] at h'
    cases h'
  · split
    · rename_i inner' ha'
      rw [ha] at ha'
      cases ha'
      rfl
    · rename_i ha'
      rw [ha] at ha'
      cases ha'

theorem resolveThroughLocals_other (h : localName expr = none)
    (ha : identityPassthroughArg expr = none) :
    resolveThroughLocals ctx expr visited = (expr,visited) := by
  rw [resolveThroughLocals]
  split
  · rename_i name' h'
    rw [h] at h'
    cases h'
  · split
    · rename_i inner' ha'
      rw [ha] at ha'
      cases ha'
    · rfl

end locals

mutual

/-- The expressions a template evaluates. The variable of a `for` directive is
not bound. -/
def templateExprs : List Element → List Expression
  | [] => []
  | .literal _::elements => templateExprs elements
  | .interpolation expr::elements => expr :: templateExprs elements
  | .directive d::elements => directiveExprs d ++ templateExprs elements

def directiveExprs : Directive → List Expression
  | .if cond whenTrue whenFalse => cond :: (templateExprs whenTrue ++ elseExprs whenFalse)
  | .for _ _ collection elements => collection :: templateExprs elements

def elseExprs : Option (List Element) → List Expression
  | none => []
  | some elements => templateExprs elements

end

/-- The loop variables of a comprehension, bound to its collection. -/
def bindLoop (keyVar : Option String) (valueVar : String) (coll : Expression) (binds : Binds) :
    Binds :=
  let inner := binds.insert valueVar (.value coll)
  match keyVar with
  | some kv => inner.insert kv (.key coll)
  | none => inner

section analysis

variable (ctx : UnknownCtx)

def anyReferences (exprs : List Expression) (binds : Binds) (visited : Finset String) :
    Proc Call Bool :=
  any (fun e => ask (.references e binds visited)) exprs

def indexOperatorsApplyTime (operators : List TraversalOperator) (binds : Binds)
    (visited : Finset String) : Proc Call Bool :=
  any (fun
    | .index idx => ask (.references idx binds visited)
    | _ => .answer false) operators

def templateApplyTime (elements : List Element) (binds : Binds) (visited : Finset String) :
    Proc Call Bool :=
  anyReferences (templateExprs elements) binds visited

def resourceReferenceApplyTime (operators : List TraversalOperator) (rtype : String)
    (binds : Binds) (visited : Finset String) : Proc Call Bool :=
  match getAttrs operators with
  | name::attr::_ =>
    let key := resourceKey rtype name
    if key ∈ visited then .answer true
    else
      match (ctx.resourceConfigs.lookup (rtype,name)).bind fun config =>
          config.attrs.lookup attr with
      | some expr =>
        (indexOperatorsApplyTime operators binds visited).or
          (ask (.references expr ∅ (insert key visited)))
      | none =>
        match (ctx.schema.bind fun lookup => lookup.resource rtype).bind fun schema =>
            schema.block.attributes.lookup attr with
        | some attrSchema =>
          if attrSchema.computed then .answer true
          else indexOperatorsApplyTime operators binds visited
        | none => .answer true
  | _ => .answer true

def dataReferenceApplyTime (operators : List TraversalOperator) (binds : Binds)
    (visited : Finset String) : Proc Call Bool :=
  match getAttrs operators with
  | dtype::name::_ =>
    (indexOperatorsApplyTime operators binds visited).or <|
      let key := dataKey dtype name
      if key ∈ visited then .answer false
      else
        match ctx.dataConfigs.lookup (dtype,name) with
        | none => .answer false
        | some config =>
          if config.hasDependsOn then .answer true
          else anyReferences config.exprs ∅ (insert key visited)
  | _ => indexOperatorsApplyTime operators binds visited

def traversalApplyTime (expr : Expression) (operators : List TraversalOperator) (binds : Binds)
    (visited : Finset String) : Proc Call Bool :=
  match expr with
  | .variable head =>
    if head = "local" then
      match resolveLocalDef ctx (firstAttr operators) visited with
      | some (d,visited') => ask (.references d binds visited')
      | none => .answer false
    else if head = "data" then dataReferenceApplyTime ctx operators binds visited
    else if head = "var" then
      match (firstAttr operators).bind fun name => ctx.unknownVariables.lookup name with
      | some ⟨_,true⟩ => .answer true
      | _ => indexOperatorsApplyTime operators binds visited
    else if head = "module" then
      match getAttrs operators with
      | label::output::rest =>
        match ctx.moduleOutputs.bind fun lookup => lookup.outputApplyTime label output rest with
        | some true => .answer true
        | _ => indexOperatorsApplyTime operators binds visited
      | _ => indexOperatorsApplyTime operators binds visited
    else
      match binds.lookup head with
      | some bind => ask (.bind bind (firstAttr operators) binds visited)
      | none =>
        if head ∈ safeRoots then indexOperatorsApplyTime operators binds visited
        else
          match allowlistedTraversal ctx expr operators with
          | some ⟨_,some unknown⟩ =>
            if unknown then .answer true else indexOperatorsApplyTime operators binds visited
          | _ => resourceReferenceApplyTime ctx operators head binds visited
  | _ =>
    (ask (.references expr binds visited)).or (indexOperatorsApplyTime operators binds visited)

/-- The loop variable and the field that a `lookup` call reads. -/
def lookupBind (name : String) (args : List Expression) (binds : Binds) :
    Option (Bind × String) :=
  if name = "lookup" then
    match args with
    | .variable var::.string field::_ => (binds.lookup var).map fun bind => (bind,field)
    | _ => none
  else none

/-- Does the value of the expression depend on one that is unknown until apply? -/
def referencesApplyTime (expr : Expression) (binds : Binds) (visited : Finset String) :
    Proc Call Bool :=
  match expr with
  | .null | .bool _ | .number _ | .string _ => .answer false
  | .variable name =>
    match binds.lookup name with
    | some bind => ask (.bind bind none binds visited)
    | none => .answer false
  | .array items => anyReferences items binds visited
  | .object entries =>
    any (fun
      | (.ident _,val) => ask (.references val binds visited)
      | (.expression key,val) =>
        (ask (.references key binds visited)).or (ask (.references val binds visited))) entries
  | .parenthesis inner => ask (.references inner binds visited)
  | .conditional cond whenTrue whenFalse =>
    anyReferences [cond,whenTrue,whenFalse] binds visited
  | .unaryOp _ operand => ask (.references operand binds visited)
  | .binaryOp lhs _ rhs => anyReferences [lhs,rhs] binds visited
  | .funcCall _ name args =>
    match lookupBind name args binds with
    | some (bind,field) =>
      (ask (.bind bind (some field) binds visited)).or
        (anyReferences args[2]?.toList binds visited)
    | none => anyReferences args binds visited
  | .traversal head operators => traversalApplyTime ctx head operators binds visited
  | .forExpr keyVar valueVar coll keyExpr valueExpr _ cond =>
    (ask (.references coll binds visited)).or
      (anyReferences ([valueExpr] ++ keyExpr.toList ++ cond.toList)
        (bindLoop keyVar valueVar coll binds) visited)
  | .stringTemplate elements => templateApplyTime elements binds visited
  | .heredocTemplate elements => templateApplyTime elements binds visited

/-- Does the membership of a `for_each` or `count` value depend on one that is
unknown until apply? -/
def membershipApplyTimeInner (value : Expression) (kind : MetaKind) (binds : Binds)
    (visited : Finset String) : Proc Call Bool :=
  match value with
  | .funcCall _ name args =>
    if kind = .count ∧ name = "length" then
      match args with
      | arg::_ =>
        if (allowlistedCollection ctx arg).isSome then .answer false
        else ask (.membership arg .forEach binds visited)
      | [] => .answer false
    else if isCollectionBuilder name ∨ isMembershipPassthrough name then
      any (fun arg => ask (.membership arg kind binds visited)) args
    else ask (.references value binds visited)
  | .forExpr keyVar valueVar coll keyExpr valueExpr _ cond =>
    anyReferences ([keyExpr.getD valueExpr] ++ cond.toList)
      (bindLoop keyVar valueVar coll binds) visited
  | .array items => anyReferences items binds visited
  | .object entries =>
    any (fun
      | (.ident _,_) => .answer false
      | (.expression key,_) => ask (.references key binds visited)) entries
  | .traversal _ _ =>
    match localName value with
    | some name =>
      match resolveLocalDef ctx (some name) visited with
      | some (d,visited') => ask (.membership d kind binds visited')
      | none => .answer false
    | none =>
      match varName value with
      | some name => .answer ((ctx.unknownVariables.lookup name).any UnknownVarInfo.membership)
      | none => ask (.references value binds visited)
  | _ => ask (.references value binds visited)

def elementFieldApplyTime (elem : Expression) (field : Option String) (binds : Binds)
    (visited : Finset String) : Proc Call Bool :=
  match field,elem with
  | some f,.object entries =>
    match objectGet entries f with
    | some val => ask (.references val binds visited)
    | none => .answer false
  | _,_ => ask (.references elem binds visited)

def elementValueApplyTime (coll : Expression) (field : Option String) (binds : Binds)
    (visited : Finset String) : Proc Call Bool :=
  let (resolved,visited') := resolveThroughLocals ctx coll visited
  match resolved with
  | .object entries =>
    any (fun entry => elementFieldApplyTime entry.2 field binds visited') entries
  | .array items => any (fun el => elementFieldApplyTime el field binds visited') items
  | other =>
    match allowlistedCollection ctx other with
    | some knownFields => .answer (field.all fun f => f ∉ knownFields)
    | none => ask (.references other binds visited')

def keySetApplyTime (coll : Expression) (binds : Binds) (visited : Finset String) :
    Proc Call Bool :=
  let (resolved,visited') := resolveThroughLocals ctx coll visited
  match resolved with
  | .object _ => .answer false
  | .array items => anyReferences items binds visited'
  | other =>
    match varName other with
    | some name => .answer ((ctx.unknownVariables.lookup name).any UnknownVarInfo.membership)
    | none => ask (.references other binds visited')

/-- Is the value a loop variable is bound to, or one of its fields, apply-time? -/
def bindApplyTime (bind : Bind) (field : Option String) (binds : Binds)
    (visited : Finset String) : Proc Call Bool :=
  match bind with
  | .value coll => elementValueApplyTime ctx coll field binds visited
  | .key coll => keySetApplyTime ctx coll binds visited

/-- The function body that a call runs. -/
def body : Call → Proc Call Bool
  | .membership value kind binds visited => membershipApplyTimeInner ctx value kind binds visited
  | .references expr binds visited => referencesApplyTime ctx expr binds visited
  | .bind bind field binds visited => bindApplyTime ctx bind field binds visited

/-- `membership_apply_time` as a call. -/
def membershipApplyTime (value : Expression) (kind : MetaKind) : Call :=
  .membership value kind ∅ ∅

/-- `value_apply_time` as a call. -/
def valueApplyTime (value : Expression) : Call := .references value ∅ ∅

end analysis

end UnknownValue
end TerraformLs
