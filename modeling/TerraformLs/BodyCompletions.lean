import Mathlib.Logic.Relation
import TerraformLs.DynamicBlocks
import TerraformLs.ProviderSchemas

/-! The completions offered in the body of a resource or data block, against the checks of
that body: both read the schema of its type. -/
namespace TerraformLs
namespace BodyCompletions

open ProviderSchemas
open SchemaValidation (item asStr blockCount presentBlockNames)
open BodyCursors (BodyFilter)
open BodyCursors.DynamicBlocks (BlockKind)

section tables

def metaAttrs : List String := ["count","for_each","provider","depends_on"]

def isMetaAttr (name : String) : Bool := metaAttrs.contains name

def metaBlocks : BlockKind → List String
  | .resource => ["dynamic","lifecycle","provisioner","connection"]
  | .dataSource => ["dynamic","lifecycle"]

def isSingletonMetaBlock (kind : BlockKind) (name : String) : Bool :=
  match kind with
  | .resource => name = "lifecycle" || name = "connection"
  | .dataSource => name = "lifecycle"

/-- The nested blocks of a schema. -/
def blockTable (schema : BlockSchema) : KeyedMap String NestedBlockSchema :=
  (schema.blockTypes.map fun e => (⟨e.1,e.2⟩ : (_ : String) × NestedBlockSchema)).toAList

/-- What the checks of missing structures read of a schema. -/
def checked (schema : BlockSchema) : SchemaValidation.BlockSchema where
  attributes := schema.attributes.mapValues fun _ a =>
    ⟨a.type,a.required,a.conflictsWith,a.requiredWith,a.exactlyOneOf,a.atLeastOneOf⟩
  blockTypes := (blockTable schema).mapValues fun _ nested => ⟨nested.minItems,nested.maxItems⟩

end tables

section checks

inductive ValueLiteral
  | primitive | array | object
  deriving DecidableEq

inductive CtyCategory
  | primitive | collection

def ctyCategory (type : Option Json) : Option CtyCategory :=
  match type with
  | none => none
  | some t =>
    match asStr t with
    | some s => if s = "string" ∨ s = "number" ∨ s = "bool" then some .primitive else none
    | none =>
      match (item t 0).bind asStr with
      | none => none
      | some s =>
        if s = "list" ∨ s = "set" ∨ s = "tuple" ∨ s = "map" ∨ s = "object" then some .collection
        else none

/-- A structure of the body. Of the value of an attribute there is the range and, if it is
a literal, of what kind. -/
structure Entry where
  written : SchemaValidation.Structure
  valueRange : Range
  literal : Option ValueLiteral
  deriving DecidableEq

inductive Report
  | deprecated (range : Range) (name : String)
  | readOnly (range : Range) (name : String)
  | unknownAttribute (range : Range) (name hint : String)
  | typeMismatch (range : Range) (name reason : String)
  | schema (report : SchemaValidation.Report)

def Report.severity : Report → DiagnosticSeverity
  | deprecated .. => .warning
  | readOnly .. | unknownAttribute .. | typeMismatch .. => .error
  | schema report => report.severity

def Report.message : Report → String
  | deprecated _ name => "attribute `" ++ name ++ "` is deprecated"
  | readOnly _ name => "attribute `" ++ name ++ "` is read-only (computed) and cannot be set"
  | unknownAttribute _ name hint => "unknown attribute `" ++ name ++ "`" ++ hint
  | typeMismatch _ name reason => "type mismatch for `" ++ name ++ "` — " ++ reason
  | schema report => report.message

-- what is appended for an attribute of a newer version of the provider
variable (attributeHint : String → String) (schema : BlockSchema)

def checkAttribute (name : String) (range : Range) : List Report :=
  match AList.lookup name schema.attributes with
  | some attr =>
    (if attr.deprecated then [.deprecated range name] else []) ++
      if attr.computed && !attr.optional && !attr.required then [.readOnly range name] else []
  | none =>
    if isMetaAttr name then []
    else if (AList.lookup name (blockTable schema)).isSome then []
    else [.unknownAttribute range name (attributeHint name)]

def mismatch : CtyCategory → ValueLiteral → Option String
  | .primitive,.array | .primitive,.object => some "expects a single value, not a collection"
  | .collection,.primitive => some "expects a collection, not a single value"
  | _,_ => none

def mismatchReason (name : String) (literal : Option ValueLiteral) : Option String := do
  let attr ← AList.lookup name schema.attributes
  let cty ← ctyCategory attr.type
  let literal ← literal
  mismatch cty literal

def checkType (name : String) (e : Entry) : Option Report :=
  (mismatchReason schema name e.literal).map (.typeMismatch e.valueRange name)

def written (body : List Entry) : List SchemaValidation.Structure := body.map Entry.written

/-- The checks of a body but for those of values against lists of values and those inside
of its blocks. -/
def validateBlock (header : Range) (body : List Entry) : List Report :=
  body.flatMap (fun e =>
    match e.written with
    | .attr name range => checkAttribute attributeHint schema name range
    | .block _ _ => []) ++
  body.filterMap (fun e =>
    match e.written with
    | .attr name _ => checkType schema name e
    | .block _ _ => none) ++
  (SchemaValidation.validateBlock (checked schema) (written body) (some header)).map .schema

def errors (header : Range) (body : List Entry) : List String :=
  ((validateBlock attributeHint schema header body).filter (·.severity = .error)).map Report.message

end checks

section items

inductive SchemaTypeKind
  | string | scalar | sequence | mapping
  deriving DecidableEq

def classifySchemaType (type : Option Json) : SchemaTypeKind :=
  match type with
  | none => .scalar
  | some t =>
    match asStr t with
    | some s => if s = "string" then .string else .scalar
    | none =>
      match (item t 0).bind asStr with
      | none => .scalar
      | some s =>
        if s = "list" ∨ s = "set" ∨ s = "tuple" then .sequence
        else if s = "map" ∨ s = "object" then .mapping
        else .scalar

/-- What an item writes. -/
inductive Snippet
  | assignment (name : String) (kind : SchemaTypeKind)
  | nestedBlock (name : String) (required : List (String × SchemaTypeKind))
  | metaArgument (name : String)
  | metaBlock (name : String)
  | objectField (name : String)

/-- A stop of the snippet, between braces. -/
def tabstop (tab : ℕ) : String := "$\x7b" ++ toString tab ++ "\x7d"

def Snippet.insertText : Snippet → String
  | assignment name kind => name ++ " = " ++
      match kind with
      | .string => "\"" ++ tabstop 1 ++ "\""
      | .sequence => "[" ++ tabstop 1 ++ "]"
      | .mapping => "\x7b\n  " ++ tabstop 1 ++ "\n\x7d"
      | .scalar => tabstop 1
  | nestedBlock name [] => name ++ " \x7b\n  $0\n\x7d"
  | nestedBlock name required => name ++ " \x7b\n" ++
      String.join (required.zipIdx.map fun e => "  " ++ e.1.1 ++ " = " ++
        (match e.1.2 with
        | .string => "\"" ++ tabstop (e.2+1) ++ "\""
        | .sequence => "[" ++ tabstop (e.2+1) ++ "]"
        | .mapping => "\x7b\n    " ++ tabstop (e.2+1) ++ "\n  \x7d"
        | .scalar => tabstop (e.2+1)) ++ "\n") ++ "\x7d"
  | metaArgument name =>
    if name = "depends_on" then name ++ " = [" ++ tabstop 1 ++ "]" else name ++ " = " ++ tabstop 1
  | metaBlock name =>
    if name = "provisioner" then "provisioner \"$\x7b1:local-exec\x7d\" \x7b\n  $0\n\x7d"
    else if name = "dynamic" then
      "dynamic \"$\x7b1:block_name\x7d\" \x7b\n  for_each = $\x7b2\x7d\n\n  content \x7b\n    $0\n  \x7d\n\x7d"
    else name ++ " \x7b\n  $0\n\x7d"
  | objectField name => name ++ " = "

inductive CompletionItemKind
  | field | property | struct
  deriving DecidableEq

structure CompletionItem where
  label : String
  kind : CompletionItemKind
  detail : String
  sortText : String
  deprecated : Bool
  snippet : Snippet

def attributeDetail (attr : AttributeSchema) : String :=
  let parts := (if attr.required then ["required"] else []) ++
    (if attr.optional then ["optional"] else []) ++
    (if attr.computed then ["computed"] else []) ++
    (if attr.sensitive then ["sensitive"] else []) ++
    if attr.deprecated then ["deprecated"] else []
  if parts.isEmpty then "attribute" else ", ".intercalate parts

def attributeItem (name : String) (attr : AttributeSchema) : CompletionItem where
  label := name
  kind := if attr.required then .field else .property
  detail := attributeDetail attr
  sortText := (if attr.deprecated then "8" else if attr.required then "0" else "1") ++ "_" ++ name
  deprecated := attr.deprecated
  snippet := .assignment name (classifySchemaType attr.type)

/-- The required attributes of a nested block, by name. -/
def scaffold (block : BlockSchema) : List (String × SchemaTypeKind) :=
  ((block.attributes.entries.filter fun e => e.2.required).mergeSort fun a b => a.1 ≤ b.1).map
    fun e => (e.1,classifySchemaType e.2.type)

def nestedBlockItem (name : String) (nested : NestedBlockSchema) : CompletionItem where
  label := name
  kind := .struct
  detail := if nested.block.deprecated then "nested block — deprecated" else "nested block"
  sortText := (if nested.block.deprecated then "9" else "2") ++ "_" ++ name
  deprecated := nested.block.deprecated
  snippet := .nestedBlock name (scaffold nested.block)

def metaArgumentItem (name : String) : CompletionItem :=
  ⟨name,.property,"meta-argument","3_" ++ name,false,.metaArgument name⟩

def metaBlockItem (name : String) : CompletionItem :=
  ⟨name,.struct,"meta-block","3_" ++ name,false,.metaBlock name⟩

def blockPresent (filter : BodyFilter) (name : String) : Bool := filter.presentBlocks name ≠ 0

/-- Does the body have room for another block of the type? -/
def hasRoom (filter : BodyFilter) (name : String) (nested : NestedBlockSchema) : Bool :=
  if nested.nestingMode = .single then filter.presentBlocks name = 0
  else nested.maxItems = 0 || filter.presentBlocks name < nested.maxItems

def attributeItems (schema : BlockSchema) (filter : BodyFilter) : List CompletionItem :=
  (schema.attributes.entries.filter fun e =>
    e.1 ∉ filter.presentAttrs && (e.2.required || e.2.optional)).map fun e => attributeItem e.1 e.2

def nestedBlockItems (schema : BlockSchema) (filter : BodyFilter) : List CompletionItem :=
  ((blockTable schema).entries.filter fun e => hasRoom filter e.1 e.2).map fun e =>
    nestedBlockItem e.1 e.2

def metaItems (kind : BlockKind) (filter : BodyFilter) : List CompletionItem :=
  (metaAttrs.filter (· ∉ filter.presentAttrs)).map metaArgumentItem ++
    ((metaBlocks kind).filter fun name =>
      !(isSingletonMetaBlock kind name && blockPresent filter name)).map metaBlockItem

/-- A type whose values are objects or collections of objects, down to the objects. -/
def blockLikeObjectNode : Json → Option Json
  | .array (.string "object" :: rest) => some (.array (.string "object" :: rest))
  | .array (.string kind :: inner :: _) =>
    if kind = "set" ∨ kind = "list" ∨ kind = "map" then blockLikeObjectNode inner else none
  | _ => none

def fieldTypeInObject (node : Json) (name : String) : Option Json :=
  ((item node 1).bind Json.asObject).bind (List.lookup name)

def objectFieldItem (optionals : List String) (name : String) : CompletionItem :=
  let required := name ∉ optionals
  { label := name
    kind := if required then .field else .property
    detail := if required then "attribute (required)" else "attribute"
    sortText := (if required then "0" else "1") ++ "_" ++ name
    deprecated := false
    snippet := .objectField name }

def sorted (items : List CompletionItem) : List CompletionItem :=
  items.mergeSort fun a b => a.sortText ≤ b.sortText

def objectFieldItems (node : Json) (filter : BodyFilter) : List CompletionItem :=
  match (item node 1).bind Json.asObject with
  | none => []
  | some fields =>
    let optionals := match item node 2 with
      | some (.array names) => names.filterMap asStr
      | _ => []
    sorted ((fields.filter fun e => e.1 ∉ filter.presentAttrs).map fun e => objectFieldItem optionals e.1)

/-- What governs a body: the schema of a block, or the type of an object that is written
like one. -/
inductive Governing
  | block (schema : BlockSchema)
  | object (node : Json)

def descend : Governing → List String → Option Governing
  | g,[] => some g
  | .object node,step::path =>
    match (fieldTypeInObject node step).bind blockLikeObjectNode with
    | some inner => descend (.object inner) path
    | none => none
  | .block schema,step::path =>
    match AList.lookup step (blockTable schema) with
    | some nested => descend (.block nested.block) path
    | none =>
      match (((AList.lookup step (checked schema).attributes).filter
          SchemaValidation.AttributeSchema.isBlockLike).bind fun a => a.type).bind blockLikeObjectNode with
      | some node => descend (.object node) path
      | none => none

def resourceBodyItems (schema : Option Schema) (kind : BlockKind) (filter : BodyFilter)
    (nestedPath : List String) : List CompletionItem :=
  match schema.bind fun s => descend (.block s.block) nestedPath with
  | none => []
  | some (.object node) => objectFieldItems node filter
  | some (.block schema) =>
    sorted (attributeItems schema filter ++ nestedBlockItems schema filter ++
      if nestedPath.isEmpty then metaItems kind filter else [])

end items
section acceptance

def SchemaTypeKind.literal : SchemaTypeKind → Option ValueLiteral
  | string => some .primitive
  | scalar => none
  | sequence => some .array
  | mapping => some .object

/-- The structure that an item writes, with the labels that are filled in. -/
def CompletionItem.entry (it : CompletionItem) (range valueRange : Range) (labels : List BlockLabel) :
    Entry :=
  match it.snippet with
  | .assignment name kind => ⟨.attr name range,valueRange,kind.literal⟩
  | .nestedBlock name _ => ⟨.block name [],valueRange,none⟩
  | .metaArgument name =>
    ⟨.attr name range,valueRange,if name = "depends_on" then some .array else none⟩
  | .metaBlock name => ⟨.block name labels,valueRange,none⟩
  | .objectField name => ⟨.attr name range,valueRange,none⟩

def respan (f : Range → Range) : SchemaValidation.Structure → SchemaValidation.Structure
  | .attr name range => .attr name (f range)
  | .block name labels => .block name labels

/-- The same structure, elsewhere. -/
def Entry.move (f : Range → Range) (e : Entry) : Entry :=
  ⟨respan f e.written,f e.valueRange,e.literal⟩

def filterOf (body : List Entry) : BodyFilter where
  presentAttrs := ((SchemaValidation.presentAttrs (written body)).map Prod.fst).toFinset
  presentBlocks := blockCount (written body)

/-- The item is the schema's own, or the schema does not use the name for something else.
A dynamic block is not complete when it is written. -/
def Plain (schema : BlockSchema) (it : CompletionItem) : Prop :=
  match it.snippet with
  | .metaArgument name => AList.lookup name schema.attributes = none
  | .metaBlock name => name ≠ "dynamic" ∧ AList.lookup name (blockTable schema) = none
  | _ => True

/-- A structure written somewhere in a body. -/
def insertion (f : Range → Range) (before behind : List Entry) (new : Entry) : List Entry :=
  before.map (Entry.move f) ++ new :: behind.map (Entry.move f)

/-- One of the items offered for the body is accepted somewhere in it. -/
def Accepts (schema : Schema) (kind : BlockKind) (body body' : List Entry) : Prop :=
  ∃ it ∈ resourceBodyItems (some schema) kind (filterOf body) [], Plain schema.block it ∧
    ∃ before behind, body = before ++ behind ∧ ∃ f range valueRange labels,
      body' = insertion f before behind (it.entry range valueRange labels)

end acceptance

section bodies

variable {before behind : List SchemaValidation.Structure} {f : Range → Range}
  {new : SchemaValidation.Structure}

/-- The structures of a body, elsewhere, and one more among them. -/
def extended (f : Range → Range) (before behind : List SchemaValidation.Structure)
    (new : SchemaValidation.Structure) : List SchemaValidation.Structure :=
  before.map (respan f) ++ new :: behind.map (respan f)

theorem blockCount_respan (body : List SchemaValidation.Structure) (name : String) :
    blockCount (body.map (respan f)) name = blockCount body name := by
  rw [blockCount,blockCount,List.countP_map]
  refine List.countP_congr fun s _ => ?_
  cases s <;> rfl

theorem blockCount_extended (name : String) :
    blockCount (extended f before behind new) name =
      blockCount (before ++ behind) name + blockCount [new] name := by
  have happend : ∀ xs ys, blockCount (xs ++ ys) name = blockCount xs name + blockCount ys name :=
    fun xs ys => List.countP_append
  rw [extended,List.append_cons,happend,happend,happend,blockCount_respan,blockCount_respan]
  omega

theorem mem_extended {s : SchemaValidation.Structure} : s ∈ extended f before behind new ↔
    s = new ∨ ∃ t ∈ before ++ behind, respan f t = s := by
  rw [extended,List.mem_append,List.mem_cons,List.mem_map,List.mem_map]
  simp only [List.mem_append]
  grind

theorem block_mem_extended {name : String} {labels : List BlockLabel} :
    .block name labels ∈ extended f before behind new ↔
      .block name labels ∈ before ++ behind ∨ new = .block name labels := by
  rw [mem_extended]
  constructor
  · rintro (h | ⟨t,ht,h⟩)
    · exact .inr h.symm
    · cases t with
      | attr key range => cases h
      | block ident ls => cases h; exact .inl ht
  · rintro (h | h)
    · exact .inr ⟨_,h,rfl⟩
    · exact .inl h.symm

theorem assigned_iff {body : List SchemaValidation.Structure} {name : String} :
    SchemaValidation.assigned body name ↔ ∃ range, SchemaValidation.Structure.attr name range ∈ body := by
  rw [SchemaValidation.assigned_iff]
  refine exists_congr fun range => ?_
  rw [SchemaValidation.presentAttrs,List.mem_filterMap]
  constructor
  · rintro ⟨s,hs,h⟩
    cases s with
    | attr key r => cases h; exact hs
    | block ident labels => cases h
  · exact fun h => ⟨_,h,rfl⟩

theorem assigned_extended {name : String} :
    SchemaValidation.assigned (extended f before behind new) name ↔
      SchemaValidation.assigned (before ++ behind) name ∨ ∃ range, new = .attr name range := by
  rw [assigned_iff,assigned_iff]
  constructor
  · rintro ⟨range,h⟩
    rcases mem_extended.mp h with h | ⟨t,ht,h⟩
    · exact .inr ⟨range,h.symm⟩
    · cases t with
      | attr key r => cases h; exact .inl ⟨r,ht⟩
      | block ident labels => cases h
  · rintro (⟨range,h⟩ | ⟨range,h⟩)
    · exact ⟨f range,mem_extended.mpr (.inr ⟨_,h,rfl⟩)⟩
    · exact ⟨range,mem_extended.mpr (.inl h.symm)⟩

theorem hasDynamic_extended {name : String} :
    SchemaValidation.HasDynamic (extended f before behind new) name ↔
      SchemaValidation.HasDynamic (before ++ behind) name ∨
        ∃ label labels, new = .block "dynamic" (label :: labels) ∧ label.asStr = name := by
  simp only [SchemaValidation.HasDynamic,block_mem_extended]
  grind

theorem presentBlockNames_extended {name : String} (h : name ∈ presentBlockNames (before ++ behind)) :
    name ∈ presentBlockNames (extended f before behind new) := by
  rw [SchemaValidation.mem_presentBlockNames] at h ⊢
  rcases h with ⟨⟨labels,hblock⟩,hne⟩ | hdynamic
  · exact .inl ⟨⟨labels,block_mem_extended.mpr (.inl hblock)⟩,hne⟩
  · exact .inr (hasDynamic_extended.mpr (.inl hdynamic))

end bodies

section errors

variable (attributeHint : String → String) {schema : BlockSchema} {header : Range}

/-- The errors of a structure by itself. -/
def entryErrors (schema : BlockSchema) (e : Entry) : List String :=
  match e.written with
  | .attr name range =>
    ((checkAttribute attributeHint schema name range).filter (·.severity = .error)).map Report.message ++
      (checkType schema name e).toList.map Report.message
  | .block _ _ => []

/-- The errors about the numbers of structures. -/
def countErrors (schema : BlockSchema) (header : Range) (body : List Entry) :
    List SchemaValidation.Report :=
  SchemaValidation.missingRequired (checked schema) (written body) header ++
    SchemaValidation.boundedBlocks (checked schema) (written body) header

theorem checkType_severity {name : String} {e : Entry} {r : Report}
    (h : checkType schema name e = some r) : r.severity = .error := by
  obtain ⟨reason,-,rfl⟩ := Option.map_eq_some_iff.mp h
  rfl

/-- The errors among the reports of the schema are those that count structures. -/
theorem schemaErrors_iff {body : List Entry} {r : SchemaValidation.Report} :
    (r ∈ SchemaValidation.validateBlock (checked schema) (written body) (some header) ∧
      r.severity = .error) ↔ r ∈ countErrors schema header body := by
  have hparts : r ∈ SchemaValidation.validateBlock (checked schema) (written body) (some header) ↔
      ∃ part, r ∈ SchemaValidation.reportsOf (checked schema) (written body) header part := by
    simp only [SchemaValidation.validateBlock,List.mem_append]
    constructor
    · rintro ((((h | h) | h) | h) | h)
      · exact ⟨.required,h⟩
      · exact ⟨.blocks,h⟩
      · exact ⟨.relational,h⟩
      · exact ⟨.atLeastOne,h⟩
      · exact ⟨.exactlyOne,h⟩
    · rintro ⟨part,h⟩
      cases part with
      | required => exact .inl (.inl (.inl (.inl h)))
      | blocks => exact .inl (.inl (.inl (.inr h)))
      | relational => exact .inl (.inl (.inr h))
      | atLeastOne => exact .inl (.inr h)
      | exactlyOne => exact .inr h
  have hseverity : r.severity = .error ↔ r.subject.part = .required ∨ r.subject.part = .blocks := by
    cases r <;> simp [SchemaValidation.Report.severity,SchemaValidation.Report.subject,
      SchemaValidation.Subject.part]
  rw [hparts,hseverity,countErrors,List.mem_append]
  constructor
  · rintro ⟨⟨part,h⟩,hpart⟩
    rw [SchemaValidation.part_reportsOf part r h] at hpart
    rcases hpart with rfl | rfl
    · exact .inl h
    · exact .inr h
  · rintro (h | h)
    · exact ⟨⟨.required,h⟩,.inl (SchemaValidation.part_missingRequired r h)⟩
    · exact ⟨⟨.blocks,h⟩,.inr (SchemaValidation.part_boundedBlocks r h)⟩

theorem mem_errors {body : List Entry} {m : String} :
    m ∈ errors attributeHint schema header body ↔
      (∃ e ∈ body, m ∈ entryErrors attributeHint schema e) ∨
        ∃ r ∈ countErrors schema header body, r.message = m := by
  simp only [errors,validateBlock,List.mem_map,List.mem_filter,List.mem_append,List.mem_flatMap,
    List.mem_filterMap,decide_eq_true_eq]
  constructor
  · rintro ⟨r,⟨((⟨e,he,hr⟩ | ⟨e,he,hr⟩) | ⟨r,hr,rfl⟩),hsev⟩,rfl⟩
    · refine .inl ⟨e,he,?_⟩
      rw [entryErrors]
      cases hw : e.written with
      | block name labels => rw [hw] at hr; cases hr
      | attr name range =>
        rw [hw] at hr
        refine List.mem_append_left _ (List.mem_map_of_mem (List.mem_filter.mpr ⟨hr,?_⟩))
        exact decide_eq_true hsev
    · refine .inl ⟨e,he,?_⟩
      rw [entryErrors]
      cases hw : e.written with
      | block name labels => rw [hw] at hr; cases hr
      | attr name range =>
        rw [hw] at hr
        refine List.mem_append_right _ (List.mem_map_of_mem ?_)
        exact Option.mem_toList.mpr hr
    · exact .inr ⟨r,schemaErrors_iff.mp ⟨hr,hsev⟩,rfl⟩
  · rintro (⟨e,he,hm⟩ | ⟨r,hr,rfl⟩)
    · rw [entryErrors] at hm
      cases hw : e.written with
      | block name labels => rw [hw] at hm; cases hm
      | attr name range =>
        rw [hw] at hm
        rcases List.mem_append.mp hm with hm | hm
        · obtain ⟨r,hr,rfl⟩ := List.mem_map.mp hm
          obtain ⟨hr,hsev⟩ := List.mem_filter.mp hr
          exact ⟨r,⟨.inl (.inl ⟨e,he,by rw [hw]; exact hr⟩),of_decide_eq_true hsev⟩,rfl⟩
        · obtain ⟨r,hr,rfl⟩ := List.mem_map.mp hm
          have hr := Option.mem_toList.mp hr
          exact ⟨r,⟨.inl (.inr ⟨e,he,by rw [hw]; exact hr⟩),checkType_severity hr⟩,rfl⟩
    · obtain ⟨hr,hsev⟩ := schemaErrors_iff.mpr hr
      exact ⟨.schema r,⟨.inr ⟨r,hr,rfl⟩,hsev⟩,rfl⟩

theorem attributeErrors_range (name : String) (range range' : Range) :
    ((checkAttribute attributeHint schema name range).filter (·.severity = .error)).map Report.message =
      ((checkAttribute attributeHint schema name range').filter (·.severity = .error)).map
        Report.message := by
  rw [checkAttribute,checkAttribute]
  cases AList.lookup name schema.attributes with
  | some attr =>
    dsimp only
    cases attr.deprecated <;> cases (attr.computed && !attr.optional && !attr.required) <;> rfl
  | none =>
    cases isMetaAttr name <;> cases (AList.lookup name (blockTable schema)).isSome <;> rfl

theorem entryErrors_move (f : Range → Range) (e : Entry) :
    entryErrors attributeHint schema (e.move f) = entryErrors attributeHint schema e := by
  obtain ⟨w,valueRange,literal⟩ := e
  cases w with
  | block name labels => rfl
  | attr name range =>
    simp only [entryErrors,Entry.move,respan,checkType]
    rw [attributeErrors_range attributeHint name (f range) range]
    cases mismatchReason schema name literal <;> rfl

theorem mem_checked_attributes {entry : (_ : String) × SchemaValidation.AttributeSchema} :
    entry ∈ (checked schema).attributes.entries ↔
      ∃ attr, AList.lookup entry.1 schema.attributes = some attr ∧
        entry.2 = ⟨attr.type,attr.required,attr.conflictsWith,attr.requiredWith,attr.exactlyOneOf,
          attr.atLeastOneOf⟩ := by
  rw [KeyedMap.mem_entries,checked,KeyedMap.lookup_mapValues,Option.map_eq_some_iff]
  simp only [eq_comm]

theorem mem_checked_blockTypes {entry : (_ : String) × SchemaValidation.NestedBlockSchema} :
    entry ∈ (checked schema).blockTypes.entries ↔
      ∃ nested, AList.lookup entry.1 (blockTable schema) = some nested ∧
        entry.2 = ⟨nested.minItems,nested.maxItems⟩ := by
  rw [KeyedMap.mem_entries,checked,KeyedMap.lookup_mapValues,Option.map_eq_some_iff]
  simp only [eq_comm]

/-- An attribute is missing. -/
theorem missing_iff {body : List Entry} {r : SchemaValidation.Report} :
    r ∈ SchemaValidation.missingRequired (checked schema) (written body) header ↔
      ∃ entry ∈ (checked schema).attributes.entries, r = .missingAttribute header entry.1 ∧
        entry.2.required = true ∧ ¬SchemaValidation.assigned (written body) entry.1 ∧
          ¬(entry.2.isBlockLike = true ∧ entry.1 ∈ presentBlockNames (written body)) := by
  rw [SchemaValidation.missingRequired,List.mem_filterMap]
  refine exists_congr fun entry => and_congr_right fun _ => ?_
  rw [Option.ite_none_right_eq_some]
  simp only [Bool.and_eq_true,Bool.not_eq_true',Bool.not_eq_true,Bool.and_eq_false_iff,
    List.contains_eq_mem,decide_eq_false_iff_not,not_and,Option.some_inj]
  grind

/-- There are too few blocks of a type, or too many. -/
theorem bounded_iff {body : List Entry} {r : SchemaValidation.Report} :
    r ∈ SchemaValidation.boundedBlocks (checked schema) (written body) header ↔
      ∃ entry ∈ (checked schema).blockTypes.entries,
        ¬SchemaValidation.hasDynamic (written body) entry.1 ∧
          ((r = .tooFewBlocks header entry.1 entry.2.minItems ∧ 1 ≤ entry.2.minItems ∧
            blockCount (written body) entry.1 = 0) ∨
          (r = .tooManyBlocks header entry.1 (blockCount (written body) entry.1) entry.2.maxItems ∧
            0 < entry.2.maxItems ∧ entry.2.maxItems < blockCount (written body) entry.1)) := by
  rw [SchemaValidation.boundedBlocks,List.mem_flatMap]
  refine exists_congr fun entry => and_congr_right fun _ => ?_
  rw [List.mem_append]
  constructor
  · rintro (h | h)
    · split_ifs at h with hc
      · exact ⟨hc.2.2,.inl ⟨List.mem_singleton.mp h,hc.1,hc.2.1⟩⟩
      · cases h
    · split_ifs at h with hc
      · exact ⟨hc.2.2,.inr ⟨List.mem_singleton.mp h,hc.1,hc.2.1⟩⟩
      · cases h
  · rintro ⟨hdynamic,⟨rfl,hmin,hcount⟩ | ⟨rfl,hmax,hcount⟩⟩
    · exact .inl (by rw [if_pos ⟨hmin,hcount,hdynamic⟩]; exact List.mem_singleton_self _)
    · exact .inr (by rw [if_pos ⟨hmax,hcount,hdynamic⟩]; exact List.mem_singleton_self _)

end errors

section harmless

variable (attributeHint : String → String) {schema : BlockSchema} {header : Range}

/-- The structure has no error of its own, and the body has room for it. -/
structure Harmless (schema : BlockSchema) (body : List SchemaValidation.Structure) (new : Entry) :
    Prop where
  own : entryErrors attributeHint schema new = []
  dynamic : ∀ labels, new.written = .block "dynamic" labels → labels = []
  room : ∀ name labels nested, new.written = .block name labels →
    AList.lookup name (blockTable schema) = some nested →
      nested.maxItems = 0 ∨ blockCount body name < nested.maxItems

variable {attributeHint} {before behind : List Entry} {f : Range → Range} {new : Entry}

theorem written_insertion : written (insertion f before behind new) =
    extended f (written before) (written behind) new.written := by
  simp [written,insertion,extended,Function.comp_def,Entry.move]

theorem hasDynamic_insertion (h : Harmless attributeHint schema (written (before ++ behind)) new)
    (name : String) : SchemaValidation.hasDynamic (written (insertion f before behind new)) name ↔
      SchemaValidation.hasDynamic (written (before ++ behind)) name := by
  rw [SchemaValidation.hasDynamic_iff,SchemaValidation.hasDynamic_iff,written_insertion,
    hasDynamic_extended,written,written,written,← List.map_append]
  refine and_congr_left fun _ => or_iff_left ?_
  rintro ⟨label,labels,hnew,-⟩
  cases h.dynamic _ hnew

/-- Where a structure is harmless, nothing more is missing or excluded with it. -/
theorem countErrors_insertion (h : Harmless attributeHint schema (written (before ++ behind)) new) :
    countErrors schema header (insertion f before behind new) ⊆
      countErrors schema header (before ++ behind) := by
  have hcount : ∀ name, blockCount (written (insertion f before behind new)) name =
      blockCount (written (before ++ behind)) name + blockCount [new.written] name := by
    intro name
    rw [written_insertion,blockCount_extended,written,written,written,← List.map_append]
  intro r hr
  rcases List.mem_append.mp hr with hr | hr
  · obtain ⟨entry,hentry,rfl,hreq,hassigned,hblock⟩ := missing_iff.mp hr
    refine List.mem_append_left _ (missing_iff.mpr ⟨entry,hentry,rfl,hreq,?_,?_⟩)
    · refine fun hold => hassigned ?_
      rw [written_insertion]
      rw [written,List.map_append] at hold
      exact assigned_extended.mpr (.inl hold)
    · rintro ⟨hlike,hold⟩
      refine hblock ⟨hlike,?_⟩
      rw [written_insertion]
      rw [written,List.map_append] at hold
      exact presentBlockNames_extended hold
  · obtain ⟨entry,hentry,hdynamic,hcases⟩ := bounded_iff.mp hr
    rw [hasDynamic_insertion h] at hdynamic
    refine List.mem_append_right _ (bounded_iff.mpr ⟨entry,hentry,hdynamic,?_⟩)
    rw [hcount] at hcases
    rcases hcases with ⟨rfl,hmin,hzero⟩ | ⟨rfl,hmax,hmany⟩
    · exact .inl ⟨rfl,hmin,by omega⟩
    · refine .inr ?_
      by_cases hnew : ∃ labels, new.written = .block entry.1 labels
      · obtain ⟨labels,hnew⟩ := hnew
        obtain ⟨nested,hlookup,hentry'⟩ := mem_checked_blockTypes.mp hentry
        have hroom := h.room entry.1 labels nested hnew hlookup
        have hmaxItems : entry.2.maxItems = nested.maxItems := by rw [hentry']
        have hone : blockCount [new.written] entry.1 ≤ 1 := List.countP_le_length
        omega
      · have hzero : blockCount [new.written] entry.1 = 0 := by
          rw [blockCount,List.countP_eq_zero]
          intro w hw
          rw [List.mem_singleton.mp hw]
          cases hw' : new.written with
          | attr name range => simp
          | block name labels =>
            simp only [decide_eq_true_eq]
            exact fun hname => hnew ⟨labels,by rw [hw',hname]⟩
        rw [hzero,Nat.add_zero] at hmany ⊢
        exact ⟨rfl,hmax,hmany⟩

theorem errors_insertion (h : Harmless attributeHint schema (written (before ++ behind)) new) :
    errors attributeHint schema header (insertion f before behind new) ⊆
      errors attributeHint schema header (before ++ behind) := by
  intro m hm
  rw [mem_errors] at hm ⊢
  rcases hm with ⟨e,he,hm⟩ | ⟨r,hr,hm⟩
  · refine .inl ?_
    rw [insertion,List.mem_append,List.mem_cons,List.mem_map,List.mem_map] at he
    rcases he with ⟨e,he,rfl⟩ | rfl | ⟨e,he,rfl⟩
    · rw [entryErrors_move] at hm
      exact ⟨e,List.mem_append_left _ he,hm⟩
    · rw [h.own] at hm
      cases hm
    · rw [entryErrors_move] at hm
      exact ⟨e,List.mem_append_right _ he,hm⟩
  · exact .inr ⟨r,countErrors_insertion h hr,hm⟩

end harmless
section runs

variable {attributeHint : String → String} {schema : Schema} {kind : BlockKind} {header : Range}

/-- The three sources of the items at the top of a body. -/
theorem mem_resourceBodyItems {filter : BodyFilter} {it : CompletionItem} :
    it ∈ resourceBodyItems (some schema) kind filter [] ↔ it ∈ attributeItems schema.block filter ∨
      it ∈ nestedBlockItems schema.block filter ∨ it ∈ metaItems kind filter := by
  change it ∈ sorted (attributeItems schema.block filter ++ nestedBlockItems schema.block filter ++
    metaItems kind filter) ↔ _
  rw [sorted,List.mem_mergeSort,List.mem_append,List.mem_append,or_assoc]

/-- The literal that is written for a type is one of that type. -/
theorem snippet_matches (type : Option Json) {cty : CtyCategory} {literal : ValueLiteral}
    (hcty : ctyCategory type = some cty) (hlit : (classifySchemaType type).literal = some literal) :
    mismatch cty literal = none := by
  unfold ctyCategory at hcty
  unfold classifySchemaType at hlit
  split at hcty
  · cases hcty
  · rename_i t
    dsimp only at hlit
    split at hcty
    · rename_i s hs
      rw [hs] at hlit
      dsimp only at hlit
      split_ifs at hcty hlit
      · cases hcty; cases hlit; rfl
      · cases hlit
    · rename_i hs
      rw [hs] at hlit
      dsimp only at hlit
      split at hcty
      · cases hcty
      · rename_i k hk
        rw [hk] at hlit
        dsimp only at hlit
        split_ifs at hcty hlit <;> cases hcty <;> cases hlit <;> rfl

theorem entryErrors_of_checks {name : String} {range valueRange : Range} {literal : Option ValueLiteral}
    (hown : ∀ r ∈ checkAttribute attributeHint schema.block name range, r.severity ≠ .error)
    (htype : mismatchReason schema.block name literal = none) :
    entryErrors attributeHint schema.block ⟨.attr name range,valueRange,literal⟩ = [] := by
  have hfilter : (checkAttribute attributeHint schema.block name range).filter
      (fun r => r.severity = .error) = [] :=
    List.filter_eq_nil_iff.mpr fun r hr => by simpa using hown r hr
  simp only [entryErrors,checkType]
  rw [htype,hfilter]
  rfl

theorem harmless_item (attributeHint : String → String) {body : List Entry} {it : CompletionItem}
    (h : it ∈ resourceBodyItems (some schema) kind (filterOf body) []) (hplain : Plain schema.block it)
    (range valueRange : Range) (labels : List BlockLabel) :
    Harmless attributeHint schema.block (written body) (it.entry range valueRange labels) := by
  rcases mem_resourceBodyItems.mp h with h | h | h
  · obtain ⟨⟨name,attr⟩,he,rfl⟩ := List.mem_map.mp h
    obtain ⟨he,hsettable⟩ := List.mem_filter.mp he
    have hlookup := KeyedMap.mem_entries.mp he
    simp only [Bool.and_eq_true,Bool.or_eq_true] at hsettable
    refine ⟨entryErrors_of_checks (fun r hr => ?_) ?_,?_,?_⟩
    · rw [checkAttribute,hlookup] at hr
      have hwritable : (attr.computed && !attr.optional && !attr.required) = false := by
        rcases hsettable.2 with hreq | hopt
        · simp [hreq]
        · simp [hopt]
      dsimp only at hr
      rw [hwritable] at hr
      rcases List.mem_append.mp hr with hr | hr
      · split_ifs at hr
        · rw [List.mem_singleton.mp hr]; exact nofun
        · cases hr
      · cases hr
    · simp only [mismatchReason,Option.bind_eq_bind,hlookup,Option.bind_some]
      cases hcty : ctyCategory attr.type with
      | none => rfl
      | some cty =>
        cases hlit : (classifySchemaType attr.type).literal with
        | none => rfl
        | some literal => exact snippet_matches attr.type hcty hlit
    · exact nofun
    · exact nofun
  · obtain ⟨⟨name,nested⟩,he,rfl⟩ := List.mem_map.mp h
    obtain ⟨he,hroom⟩ := List.mem_filter.mp he
    have hlookup := KeyedMap.mem_entries.mp he
    refine ⟨rfl,fun _ hw => ?_,fun name' _ nested' hw hlookup' => ?_⟩
    · cases hw
      rfl
    · cases hw
      cases hlookup.symm.trans hlookup'
      unfold hasRoom at hroom
      split_ifs at hroom
      · have hzero : blockCount (written body) name = 0 := of_decide_eq_true hroom
        rw [hzero]
        exact Nat.eq_zero_or_pos nested.maxItems
      · simp only [Bool.or_eq_true,decide_eq_true_eq] at hroom
        exact hroom
  · rcases List.mem_append.mp h with h | h
    · obtain ⟨name,hname,rfl⟩ := List.mem_map.mp h
      have hmeta : isMetaAttr name = true := List.contains_iff_mem.mpr (List.mem_of_mem_filter hname)
      have hlookup : AList.lookup name schema.block.attributes = none := hplain
      refine ⟨entryErrors_of_checks (fun r hr => ?_) ?_,?_,?_⟩
      · rw [checkAttribute,hlookup] at hr
        dsimp only at hr
        rw [if_pos hmeta] at hr
        cases hr
      · rw [mismatchReason,hlookup]
        rfl
      · exact nofun
      · exact nofun
    · obtain ⟨name,hname,rfl⟩ := List.mem_map.mp h
      obtain ⟨hne,hlookup⟩ : name ≠ "dynamic" ∧ AList.lookup name (blockTable schema.block) = none :=
        hplain
      refine ⟨rfl,fun _ hw => ?_,fun name' _ nested hw hlookup' => ?_⟩
      · cases hw
        exact absurd rfl hne
      · cases hw
        cases hlookup.symm.trans hlookup'

/-- However items are accepted one after another, each from those offered by then, the body
gets no error that it did not have. -/
theorem accepting_adds_no_error {body body' : List Entry}
    (h : Relation.ReflTransGen (Accepts schema kind) body body') :
    errors attributeHint schema.block header body' ⊆ errors attributeHint schema.block header body := by
  induction h with
  | refl => exact fun _ hm => hm
  | tail _ haccept ih =>
    obtain ⟨it,hit,hplain,before,behind,rfl,f,range,valueRange,labels,rfl⟩ := haccept
    have hharmless := harmless_item attributeHint hit hplain range valueRange labels
    exact fun m hm => ih (errors_insertion hharmless hm)

def amiAttribute : AttributeSchema where
  type := some (.string "string")
  required := true

def amiSchema : Schema := ⟨0,.mk (.mk [⟨"ami",amiAttribute⟩] (by simp)) [] none none false⟩

def originRange : Range := ⟨⟨0,0⟩,⟨0,0⟩⟩

def amiEntry : Entry := ⟨.attr "ami" originRange,originRange,some .primitive⟩

def noHint (_ : String) : String := ""

theorem accepting_adds_no_error_ami : errors noHint amiSchema.block originRange [amiEntry] ⊆
    errors noHint amiSchema.block originRange [] := by
  have hoffered : attributeItem "ami" amiAttribute ∈
      resourceBodyItems (some amiSchema) .resource (filterOf []) [] :=
    mem_resourceBodyItems.mpr (.inl (List.mem_singleton_self _))
  exact accepting_adds_no_error (.single ⟨_,hoffered,trivial,[],[],rfl,id,originRange,originRange,[],rfl⟩)

/-- Something is missing from the body. -/
def Missing : SchemaValidation.Report → Bool
  | .missingAttribute .. | .tooFewBlocks .. => true
  | _ => false

/-- What is missing is offered, and no longer missing once it is accepted. -/
theorem missing_offered {body : List Entry} {r : SchemaValidation.Report}
    (hr : r ∈ countErrors schema.block header body) (hmissing : Missing r = true) :
    ∃ body', Accepts schema kind body body' ∧ r ∉ countErrors schema.block header body' := by
  have hbody : body = body ++ [] := (List.append_nil body).symm
  rcases List.mem_append.mp hr with hr | hr
  · obtain ⟨⟨name,_⟩,hentry,rfl,hreq,hassigned,-⟩ := missing_iff.mp hr
    obtain ⟨attr,hlookup,rfl⟩ := mem_checked_attributes.mp hentry
    have hfilter : name ∉ (filterOf body).presentAttrs := by
      intro h
      obtain ⟨⟨name',range⟩,hmem,rfl⟩ := List.mem_map.mp (List.mem_toFinset.mp h)
      exact hassigned (SchemaValidation.assigned_iff.mpr ⟨range,hmem⟩)
    have hoffered : attributeItem name attr ∈ attributeItems schema.block (filterOf body) := by
      have hentry := KeyedMap.mem_entries.mpr hlookup
      refine List.mem_map.mpr ⟨⟨name,attr⟩,List.mem_filter.mpr ⟨hentry,?_⟩,rfl⟩
      have hreq' : attr.required = true := hreq
      simp [hfilter,hreq']
    refine ⟨_,⟨_,mem_resourceBodyItems.mpr (.inl hoffered),trivial,body,[],hbody,id,originRange,
      originRange,[],rfl⟩,?_⟩
    intro hr'
    rcases List.mem_append.mp hr' with hr' | hr'
    · obtain ⟨entry,-,heq,-,hunassigned,-⟩ := missing_iff.mp hr'
      cases heq
      refine hunassigned ?_
      rw [written_insertion]
      exact assigned_extended.mpr (.inr ⟨originRange,rfl⟩)
    · obtain ⟨entry,-,-,⟨heq,-⟩ | ⟨heq,-⟩⟩ := bounded_iff.mp hr'
      · cases heq
      · cases heq
  · obtain ⟨⟨name,_⟩,hentry,-,⟨rfl,-,hzero⟩ | ⟨rfl,-⟩⟩ := bounded_iff.mp hr
    · obtain ⟨nested,hlookup,rfl⟩ := mem_checked_blockTypes.mp hentry
      have hoffered : nestedBlockItem name nested ∈ nestedBlockItems schema.block (filterOf body) := by
        have hentry := KeyedMap.mem_entries.mpr hlookup
        refine List.mem_map.mpr ⟨⟨name,nested⟩,List.mem_filter.mpr ⟨hentry,?_⟩,rfl⟩
        have hnone : (filterOf body).presentBlocks name = 0 := hzero
        simp only [hasRoom,hnone]
        split
        · rfl
        · simp [Nat.eq_zero_or_pos]
      refine ⟨_,⟨_,mem_resourceBodyItems.mpr (.inr (.inl hoffered)),trivial,body,[],hbody,id,
        originRange,originRange,[],rfl⟩,?_⟩
      intro hr'
      rcases List.mem_append.mp hr' with hr' | hr'
      · obtain ⟨entry,-,heq,-⟩ := missing_iff.mp hr'
        cases heq
      · obtain ⟨entry,-,-,⟨heq,-,hzero'⟩ | ⟨heq,-⟩⟩ := bounded_iff.mp hr'
        · rw [← (SchemaValidation.Report.tooFewBlocks.inj heq).2.1,written_insertion,
            blockCount_extended] at hzero'
          have hone : blockCount [(CompletionItem.entry (nestedBlockItem name nested) originRange originRange
              []).written] name = 1 := by
            simp [blockCount,CompletionItem.entry,nestedBlockItem]
          exact absurd (hone.symm.trans (Nat.eq_zero_of_add_eq_zero hzero').2) (by decide)
        · cases heq
    · cases hmissing

/-- From any body, some of the items offered can be accepted one after another until no
required attribute and no required block is missing, and without an error being added. -/
theorem completions_suffice (attributeHint : String → String) (schema : Schema) (kind : BlockKind)
    (header : Range) (body : List Entry) :
    ∃ body', Relation.ReflTransGen (Accepts schema kind) body body' ∧
      (∀ r ∈ SchemaValidation.validateBlock (checked schema.block) (written body') (some header),
        Missing r = false) ∧
      errors attributeHint schema.block header body' ⊆ errors attributeHint schema.block header body := by
  have hreach : ∃ body', Relation.ReflTransGen (Accepts schema kind) body body' ∧
      ∀ r ∈ countErrors schema.block header body', Missing r = false := by
    -- Each acceptance leaves fewer structures missing.
    induction hn : (countErrors schema.block header body).toFinset.card using Nat.strong_induction_on
      generalizing body with
    | _ n ih =>
      by_cases hdone : ∀ r ∈ countErrors schema.block header body, Missing r = false
      · exact ⟨body,.refl,hdone⟩
      · push Not at hdone
        obtain ⟨r,hr,hmissing⟩ := hdone
        obtain ⟨body₁,haccept,hrepaired⟩ := missing_offered hr (by simpa using hmissing)
        have hsub : countErrors schema.block header body₁ ⊆ countErrors schema.block header body := by
          obtain ⟨it,hit,hplain,before,behind,rfl,f,range,valueRange,labels,rfl⟩ := haccept
          exact countErrors_insertion (harmless_item attributeHint hit hplain range
            valueRange labels)
        have hlt : (countErrors schema.block header body₁).toFinset.card < n := by
          rw [← hn]
          refine Finset.card_lt_card (Finset.ssubset_iff_of_subset ?_ |>.mpr ⟨r,?_,?_⟩)
          · exact fun q hq => List.mem_toFinset.mpr (hsub (List.mem_toFinset.mp hq))
          · exact List.mem_toFinset.mpr hr
          · exact fun h => hrepaired (List.mem_toFinset.mp h)
        obtain ⟨body',hrun,hdone⟩ := ih _ hlt body₁ rfl
        exact ⟨body',.head haccept hrun,hdone⟩
  obtain ⟨body',hrun,hdone⟩ := hreach
  refine ⟨body',hrun,fun r hr => ?_,accepting_adds_no_error hrun⟩
  cases hmissing : Missing r with
  | false => rfl
  | true =>
    have hsev : r.severity = .error := by
      cases r <;> first | rfl | cases hmissing
    exact hmissing.symm.trans (hdone r (schemaErrors_iff.mp ⟨hr,hsev⟩))

end runs
end BodyCompletions
end TerraformLs
