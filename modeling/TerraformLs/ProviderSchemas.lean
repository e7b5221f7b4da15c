import TerraformLs.JsonConfig
import TerraformLs.KeyedMap

/-! The schemas of providers, and their translation from the messages of the
plugin protocol. Blocks nest to any depth in both. -/
namespace TerraformLs
namespace ProviderSchemas

section schemas

structure AttributeSchema where
  type : Option Json := none
  description : Option String := none
  descriptionKind : Option String := none
  required : Bool := false
  «optional» : Bool := false
  computed : Bool := false
  sensitive : Bool := false
  deprecated : Bool := false
  conflictsWith : List String := []
  requiredWith : List String := []
  exactlyOneOf : List String := []
  atLeastOneOf : List String := []
  allowedValues : Option (List String) := none

inductive NestingMode
  | single | list | set | map | group
  deriving DecidableEq

mutual

/-- The names of the nested blocks are distinct. -/
inductive BlockSchema
  | mk (attributes : KeyedMap String AttributeSchema)
      (blockTypes : List (String × NestedBlockSchema)) (description : Option String)
      (descriptionKind : Option String) (deprecated : Bool)

inductive NestedBlockSchema
  | mk (nestingMode : NestingMode) (block : BlockSchema) (minItems : ℕ) (maxItems : ℕ)

end

structure Schema where
  version : ℕ
  block : BlockSchema

namespace BlockSchema

def attributes : BlockSchema → KeyedMap String AttributeSchema
  | mk attributes _ _ _ _ => attributes

def blockTypes : BlockSchema → List (String × NestedBlockSchema)
  | mk _ blockTypes _ _ _ => blockTypes

def description : BlockSchema → Option String
  | mk _ _ description _ _ => description

def descriptionKind : BlockSchema → Option String
  | mk _ _ _ descriptionKind _ => descriptionKind

def deprecated : BlockSchema → Bool
  | mk _ _ _ _ deprecated => deprecated

def default : BlockSchema := mk ∅ [] none none false

end BlockSchema

namespace NestedBlockSchema

def nestingMode : NestedBlockSchema → NestingMode
  | mk nestingMode _ _ _ => nestingMode

def block : NestedBlockSchema → BlockSchema
  | mk _ block _ _ => block

def minItems : NestedBlockSchema → ℕ
  | mk _ _ minItems _ => minItems

def maxItems : NestedBlockSchema → ℕ
  | mk _ _ _ maxItems => maxItems

end NestedBlockSchema

/-- The block at the end of a path of block names. -/
def BlockSchema.within (block : BlockSchema) : List String → Option BlockSchema
  | [] => some block
  | name::path => (block.blockTypes.lookup name).bind fun nested => nested.block.within path

end schemas

section messages

inductive StringKind
  | plain | markdown
  deriving DecidableEq

inductive ProtoNesting
  | invalid | single | list | set | map | group
  deriving DecidableEq

/-- An attribute of either protocol. Version 5 has no nested types. -/
structure ProtoAttribute where
  name : String
  type : List UInt8
  hasNestedType : Bool
  description : String
  descriptionKind : StringKind
  required : Bool
  «optional» : Bool
  computed : Bool
  sensitive : Bool
  deprecated : Bool

mutual

inductive ProtoBlock
  | mk (attributes : List ProtoAttribute) (blockTypes : List ProtoNestedBlock)
      (description : String) (descriptionKind : StringKind) (deprecated : Bool)

inductive ProtoNestedBlock
  | mk (typeName : String) (block : Option ProtoBlock) (nesting : ProtoNesting) (minItems : ℤ)
      (maxItems : ℤ)

end

structure ProtoSchema where
  version : ℤ
  block : Option ProtoBlock

namespace ProtoNestedBlock

def typeName : ProtoNestedBlock → String
  | mk typeName _ _ _ _ => typeName

def block : ProtoNestedBlock → Option ProtoBlock
  | mk _ block _ _ _ => block

def nesting : ProtoNestedBlock → ProtoNesting
  | mk _ _ nesting _ _ => nesting

def minItems : ProtoNestedBlock → ℤ
  | mk _ _ _ minItems _ => minItems

def maxItems : ProtoNestedBlock → ℤ
  | mk _ _ _ _ maxItems => maxItems

end ProtoNestedBlock

namespace ProtoBlock

def attributes : ProtoBlock → List ProtoAttribute
  | mk attributes _ _ _ _ => attributes

def blockTypes : ProtoBlock → List ProtoNestedBlock
  | mk _ blockTypes _ _ _ => blockTypes

def description : ProtoBlock → String
  | mk _ _ description _ _ => description

def descriptionKind : ProtoBlock → StringKind
  | mk _ _ _ descriptionKind _ => descriptionKind

def deprecated : ProtoBlock → Bool
  | mk _ _ _ _ deprecated => deprecated

/-- The nested blocks of a message that have a block, with it. -/
def filled (blockTypes : List ProtoNestedBlock) : List (ProtoNestedBlock × ProtoBlock) :=
  blockTypes.filterMap fun nested => nested.block.map fun block => (nested,block)

/-- A message repeats a name for its last word on it. -/
def nestedBlock (block : ProtoBlock) (name : String) : Option (ProtoNestedBlock × ProtoBlock) :=
  (filled block.blockTypes).reverse.find? fun e => e.1.typeName = name

def named (block : ProtoBlock) (name : String) : Option ProtoAttribute :=
  block.attributes.reverse.find? fun a => a.name = name

def within (block : ProtoBlock) : List String → Option ProtoBlock
  | [] => some block
  | name::path => (block.nestedBlock name).bind fun nested => nested.2.within path

end ProtoBlock

/-- The attribute is one of the block or of a block within it. -/
inductive OccursIn (a : ProtoAttribute) : ProtoBlock → Prop
  | here {block : ProtoBlock} (h : a ∈ block.attributes) : OccursIn a block
  | nested {block : ProtoBlock} {e : ProtoNestedBlock × ProtoBlock}
      (he : e ∈ ProtoBlock.filled block.blockTypes) (h : OccursIn a e.2) : OccursIn a block

end messages

section translation

inductive ProtocolError
  | ctyDecode (message : String)

-- the parser of JSON bytes, with the text of its errors
variable (fromSlice : List UInt8 → Except String Json)

def ctyMsgpackToJson (bytes : List UInt8) : Except ProtocolError Json :=
  (fromSlice bytes).mapError fun e => .ctyDecode ("parse json: " ++ e)

def nonEmpty (s : String) : Option String := if s.isEmpty then none else some s

def stringKindName : StringKind → Option String
  | .plain => some "plain"
  | .markdown => some "markdown"

def nestingModeFromProto : ProtoNesting → NestingMode
  | .single => .single
  | .list => .list
  | .set => .set
  | .map => .map
  | .group => .group
  | .invalid => .single

def describedAttribute (src : ProtoAttribute) (type : Option Json) : AttributeSchema where
  type
  description := nonEmpty src.description
  descriptionKind := stringKindName src.descriptionKind
  required := src.required
  «optional» := src.optional
  computed := src.computed
  sensitive := src.sensitive
  deprecated := src.deprecated

/-- Version 6: the type is preferred to a nested type, which is only called an object. -/
def attributeFromProto (src : ProtoAttribute) : Except ProtocolError AttributeSchema :=
  if !src.type.isEmpty then
    (ctyMsgpackToJson fromSlice src.type).map fun type => describedAttribute src (some type)
  else if src.hasNestedType then .ok (describedAttribute src (some (.string "object")))
  else .ok (describedAttribute src none)

/-- Version 5. -/
def attributeFromProtoV5 (src : ProtoAttribute) : Except ProtocolError AttributeSchema :=
  if !src.type.isEmpty then
    (ctyMsgpackToJson fromSlice src.type).map fun type => describedAttribute src (some type)
  else .ok (describedAttribute src none)

end translation

section blocks

-- the translation of attributes, which is where the protocols differ
variable (translate : ProtoAttribute → Except ProtocolError AttributeSchema)

def attributesFromProto (attributes : List ProtoAttribute) :
    Except ProtocolError (KeyedMap String AttributeSchema) :=
  attributes.foldlM (fun table src => (translate src).map (table.insert src.name)) ∅

def putEntry {α : Type} (table : List (String × α)) (name : String) (a : α) : List (String × α) :=
  (name,a) :: table.filter fun e => e.1 ≠ name

def nestedSchema (src : ProtoNestedBlock) (block : BlockSchema) : NestedBlockSchema :=
  .mk (nestingModeFromProto src.nesting) block src.minItems.toNat src.maxItems.toNat

mutual

def blockFromProto : ProtoBlock → Except ProtocolError BlockSchema
  | .mk attributes blockTypes description descriptionKind deprecated =>
    (attributesFromProto translate attributes).bind fun attributes =>
      (nestedFromProto [] blockTypes).map fun blockTypes =>
        .mk attributes blockTypes (nonEmpty description) (stringKindName descriptionKind) deprecated

/-- The nested blocks put into the table one after another. -/
def nestedFromProto (table : List (String × NestedBlockSchema)) :
    List ProtoNestedBlock → Except ProtocolError (List (String × NestedBlockSchema))
  | [] => .ok table
  | .mk _ none _ _ _ :: rest => nestedFromProto table rest
  | .mk typeName (some block) nesting minItems maxItems :: rest =>
    (blockFromProto block).bind fun schema =>
      nestedFromProto (putEntry table typeName
        (nestedSchema (.mk typeName (some block) nesting minItems maxItems) schema)) rest

end

def schemaFromProto (src : ProtoSchema) : Except ProtocolError Schema :=
  match src.block with
  | none => .ok ⟨src.version.toNat,.default⟩
  | some block => (blockFromProto translate block).map fun block => ⟨src.version.toNat,block⟩

end blocks

section lookups

variable {translate : ProtoAttribute → Except ProtocolError AttributeSchema}

/-- The last of the attributes with a name is the one in the table. -/
theorem lookup_attributes {attributes : List ProtoAttribute}
    {table₀ table : KeyedMap String AttributeSchema}
    (h : attributes.foldlM (fun table src => (translate src).map (table.insert src.name)) table₀ =
      .ok table) (name : String) :
    (attributes.reverse.find? (fun a => a.name = name) = none ∧
      table.lookup name = table₀.lookup name) ∨
    ∃ a schema, attributes.reverse.find? (fun a => a.name = name) = some a ∧
      translate a = .ok schema ∧ table.lookup name = some schema := by
  induction attributes generalizing table₀ with
  | nil =>
    cases h
    exact .inl ⟨rfl,rfl⟩
  | cons a rest ih =>
    rw [List.foldlM_cons] at h
    cases ha : translate a with
    | error e =>
      rw [ha] at h
      cases h
    | ok schema =>
      rw [ha] at h
      rw [List.reverse_cons,List.find?_append]
      rcases ih h with ⟨hnone,hlookup⟩ | ⟨b,schema',hb,htr,hlookup⟩
      · rw [hnone,Option.none_or]
        by_cases hname : a.name = name
        · refine .inr ⟨a,schema,by simp [hname],ha,?_⟩
          rw [hlookup,KeyedMap.lookup_insert_of,if_pos hname.symm]
        · refine .inl ⟨by simp [hname],?_⟩
          rw [hlookup,KeyedMap.lookup_insert_of,if_neg (Ne.symm hname)]
      · exact .inr ⟨b,schema',by rw [hb]; rfl,htr,hlookup⟩

theorem lookup_putEntry {α : Type} (table : List (String × α)) (name key : String) (a : α) :
    (putEntry table name a).lookup key = if key = name then some a else table.lookup key := by
  rw [putEntry,List.lookup_cons]
  by_cases hkey : key = name
  · simp [hkey]
  · rw [if_neg hkey,beq_eq_false_iff_ne.mpr hkey]
    induction table with
    | nil => rfl
    | cons e table ih =>
      by_cases he : e.1 = name
      · have hne : (key == e.1) = false := beq_eq_false_iff_ne.mpr fun h => hkey (h.trans he)
        rw [List.filter_cons_of_neg (by simpa using he),List.lookup_cons,hne]
        exact ih
      · rw [List.filter_cons_of_pos (by simpa using he),List.lookup_cons,List.lookup_cons]
        cases key == e.1 with
        | true => rfl
        | false => exact ih

/-- The last of the filled blocks with a name is the one in the table. -/
theorem lookup_nested {blockTypes : List ProtoNestedBlock}
    {table₀ table : List (String × NestedBlockSchema)}
    (h : nestedFromProto translate table₀ blockTypes = .ok table) (name : String) :
    ((ProtoBlock.filled blockTypes).reverse.find? (fun e => e.1.typeName = name) = none ∧
      table.lookup name = table₀.lookup name) ∨
    ∃ e schema, (ProtoBlock.filled blockTypes).reverse.find? (fun e => e.1.typeName = name) = some e ∧
      blockFromProto translate e.2 = .ok schema ∧
      table.lookup name = some (nestedSchema e.1 schema) := by
  induction blockTypes generalizing table₀ with
  | nil =>
    cases h
    exact .inl ⟨rfl,rfl⟩
  | cons nb rest ih =>
    obtain ⟨typeName,- | block,nesting,minItems,maxItems⟩ := nb
    · rw [nestedFromProto] at h
      exact ih h
    · rw [nestedFromProto] at h
      cases hb : blockFromProto translate block with
      | error e =>
        rw [hb] at h
        cases h
      | ok schema =>
        rw [hb] at h
        set nb : ProtoNestedBlock := .mk typeName (some block) nesting minItems maxItems
        have hfilled : ProtoBlock.filled (nb :: rest) = (nb,block) :: ProtoBlock.filled rest := rfl
        rw [hfilled,List.reverse_cons,List.find?_append]
        rcases ih h with ⟨hnone,hlookup⟩ | ⟨e,schema',he,htr,hlookup⟩
        · rw [hnone,Option.none_or]
          by_cases hname : typeName = name
          · refine .inr ⟨(nb,block),schema,?_,hb,?_⟩
            · exact List.find?_cons_of_pos (decide_eq_true hname)
            · rw [hlookup,lookup_putEntry,if_pos hname.symm]
          · refine .inl ⟨List.find?_cons_of_neg fun h' => hname (of_decide_eq_true h'),?_⟩
            rw [hlookup,lookup_putEntry,if_neg (Ne.symm hname)]
        · exact .inr ⟨e,schema',by rw [he]; rfl,htr,hlookup⟩

/-- What a block schema says of its message, the blocks within apart. -/
structure Describes (translate : ProtoAttribute → Except ProtocolError AttributeSchema)
    (src : ProtoBlock) (schema : BlockSchema) : Prop where
  attributes : ∀ name, Option.Rel (fun a s => translate a = .ok s) (src.named name)
    (schema.attributes.lookup name)
  blockTypes : ∀ name, Option.Rel (fun e nested => nested.nestingMode = nestingModeFromProto e.1.nesting ∧
      nested.minItems = e.1.minItems.toNat ∧ nested.maxItems = e.1.maxItems.toNat)
    (src.nestedBlock name) (schema.blockTypes.lookup name)
  description : schema.description = nonEmpty src.description
  descriptionKind : schema.descriptionKind = stringKindName src.descriptionKind
  deprecated : schema.deprecated = src.deprecated

/-- The two tables of a translated block. -/
theorem blockFromProto_tables {src : ProtoBlock} {schema : BlockSchema}
    (h : blockFromProto translate src = .ok schema) :
    attributesFromProto translate src.attributes = .ok schema.attributes ∧
      nestedFromProto translate [] src.blockTypes = .ok schema.blockTypes ∧
      schema.description = nonEmpty src.description ∧
      schema.descriptionKind = stringKindName src.descriptionKind ∧
      schema.deprecated = src.deprecated := by
  obtain ⟨attributes,blockTypes,description,descriptionKind,deprecated⟩ := src
  rw [blockFromProto] at h
  cases ha : attributesFromProto translate attributes with
  | error e =>
    rw [ha] at h
    cases h
  | ok table =>
    cases hn : nestedFromProto translate [] blockTypes with
    | error e =>
      rw [ha,hn] at h
      cases h
    | ok nested =>
      rw [ha,hn] at h
      cases h
      exact ⟨ha,hn,rfl,rfl,rfl⟩

theorem nestedBlock_cases {src : ProtoBlock} {schema : BlockSchema}
    (h : blockFromProto translate src = .ok schema) (name : String) :
    (src.nestedBlock name = none ∧ schema.blockTypes.lookup name = none) ∨
      ∃ e s, src.nestedBlock name = some e ∧ blockFromProto translate e.2 = .ok s ∧
        schema.blockTypes.lookup name = some (nestedSchema e.1 s) :=
  lookup_nested (blockFromProto_tables h).2.1 name

theorem describes_block {src : ProtoBlock} {schema : BlockSchema}
    (h : blockFromProto translate src = .ok schema) : Describes translate src schema := by
  obtain ⟨hattributes,-,hd,hk,hdep⟩ := blockFromProto_tables h
  refine ⟨fun name => ?_,fun name => ?_,hd,hk,hdep⟩
  · rcases lookup_attributes hattributes name with ⟨hsrc,hl⟩ | ⟨a,s,hsrc,htr,hl⟩
    · rw [ProtoBlock.named,hsrc,hl]
      exact .none
    · rw [ProtoBlock.named,hsrc,hl]
      exact .some htr
  · rcases nestedBlock_cases h name with ⟨hsrc,hl⟩ | ⟨e,s,hsrc,-,hl⟩
    · rw [hsrc,hl]
      exact .none
    · rw [hsrc,hl]
      exact .some ⟨rfl,rfl,rfl⟩

/-- The schema has a block at the end of a path exactly where the message has
one, and it describes that block. -/
theorem blockFromProto_within {src : ProtoBlock} {schema : BlockSchema}
    (h : blockFromProto translate src = .ok schema) (path : List String) :
    Option.Rel (Describes translate) (src.within path) (schema.within path) := by
  induction path generalizing src schema with
  | nil => exact .some (describes_block h)
  | cons name path ih =>
    rw [ProtoBlock.within,BlockSchema.within]
    rcases nestedBlock_cases h name with ⟨hsrc,hl⟩ | ⟨e,s,hsrc,htr,hl⟩
    · rw [hsrc,hl]
      exact .none
    · rw [hsrc,hl]
      exact ih htr

end lookups

section outcomes

variable {translate translate' : ProtoAttribute → Except ProtocolError AttributeSchema}

theorem attributes_ok {attributes : List ProtoAttribute}
    (h : ∀ a ∈ attributes, ∃ s, translate a = .ok s) (table : KeyedMap String AttributeSchema) :
    ∃ t, attributes.foldlM (fun table src => (translate src).map (table.insert src.name)) table =
      .ok t := by
  induction attributes generalizing table with
  | nil => exact ⟨table,rfl⟩
  | cons a rest ih =>
    obtain ⟨s,hs⟩ := h a List.mem_cons_self
    obtain ⟨t,ht⟩ := ih (fun b hb => h b (List.mem_cons_of_mem a hb)) (table.insert a.name s)
    exact ⟨t,by rw [List.foldlM_cons,hs]; exact ht⟩

theorem ok_of_attributes {attributes : List ProtoAttribute} {table t : KeyedMap String AttributeSchema}
    (h : attributes.foldlM (fun table src => (translate src).map (table.insert src.name)) table =
      .ok t) : ∀ a ∈ attributes, ∃ s, translate a = .ok s := by
  induction attributes generalizing table with
  | nil => exact fun a ha => absurd ha List.not_mem_nil
  | cons a rest ih =>
    rw [List.foldlM_cons] at h
    cases hs : translate a with
    | error e =>
      rw [hs] at h
      cases h
    | ok s =>
      rw [hs] at h
      exact List.forall_mem_cons.mpr ⟨⟨s,hs⟩,ih h⟩

mutual

theorem blockFromProto_ok : ∀ src : ProtoBlock,
    (∀ a, OccursIn a src → ∃ s, translate a = .ok s) → ∃ s, blockFromProto translate src = .ok s
  | .mk attributes blockTypes description descriptionKind deprecated, h => by
    have hattributes : ∀ a ∈ attributes, ∃ s, translate a = .ok s := fun a ha => h a (.here ha)
    obtain ⟨table,ht⟩ := attributes_ok hattributes ∅
    obtain ⟨nested,hn⟩ := nestedFromProto_ok blockTypes (fun e he a ha => h a (.nested he ha)) []
    exact ⟨_,by rw [blockFromProto,attributesFromProto,ht,hn]; rfl⟩

theorem nestedFromProto_ok : ∀ blockTypes : List ProtoNestedBlock,
    (∀ e ∈ ProtoBlock.filled blockTypes, ∀ a, OccursIn a e.2 → ∃ s, translate a = .ok s) →
      ∀ table, ∃ t, nestedFromProto translate table blockTypes = .ok t
  | [], _, table => ⟨table,rfl⟩
  | .mk typeName none nesting minItems maxItems :: rest, h, table => by
    obtain ⟨t,ht⟩ := nestedFromProto_ok rest h table
    exact ⟨t,by rw [nestedFromProto]; exact ht⟩
  | .mk typeName (some block) nesting minItems maxItems :: rest, h, table => by
    obtain ⟨s,hs⟩ := blockFromProto_ok block fun a ha => h _ List.mem_cons_self a ha
    obtain ⟨t,ht⟩ := nestedFromProto_ok rest (fun e he => h e (List.mem_cons_of_mem _ he))
      (putEntry table typeName
        (nestedSchema (.mk typeName (some block) nesting minItems maxItems) s))
    exact ⟨t,by rw [nestedFromProto,hs]; exact ht⟩

end

theorem ok_of_nestedFromProto {blockTypes : List ProtoNestedBlock}
    {table t : List (String × NestedBlockSchema)}
    (h : nestedFromProto translate table blockTypes = .ok t) :
    ∀ e ∈ ProtoBlock.filled blockTypes, ∃ s, blockFromProto translate e.2 = .ok s := by
  induction blockTypes generalizing table with
  | nil => exact fun e he => absurd he List.not_mem_nil
  | cons nb rest ih =>
    obtain ⟨typeName,- | block,nesting,minItems,maxItems⟩ := nb
    · rw [nestedFromProto] at h
      exact ih h
    · rw [nestedFromProto] at h
      cases hs : blockFromProto translate block with
      | error e =>
        rw [hs] at h
        cases h
      | ok s =>
        rw [hs] at h
        exact List.forall_mem_cons.mpr ⟨⟨s,hs⟩,ih h⟩

/-- A block is translated only when every attribute at any depth is. -/
theorem ok_of_blockFromProto {a : ProtoAttribute} {src : ProtoBlock} (ha : OccursIn a src)
    {schema : BlockSchema} (h : blockFromProto translate src = .ok schema) :
    ∃ s, translate a = .ok s := by
  induction ha generalizing schema with
  | here ha => exact ok_of_attributes (blockFromProto_tables h).1 a ha
  | nested he ha ih =>
    obtain ⟨s,hs⟩ := ok_of_nestedFromProto (blockFromProto_tables h).2.1 _ he
    exact ih hs

theorem attributes_congr {attributes : List ProtoAttribute}
    (h : ∀ a ∈ attributes, translate a = translate' a) :
    attributesFromProto translate attributes = attributesFromProto translate' attributes := by
  unfold attributesFromProto
  generalize (∅ : KeyedMap String AttributeSchema) = table
  induction attributes generalizing table with
  | nil => rfl
  | cons a rest ih =>
    rw [List.foldlM_cons,List.foldlM_cons,h a List.mem_cons_self]
    cases translate' a with
    | error e => rfl
    | ok s => exact ih (fun b hb => h b (List.mem_cons_of_mem a hb)) _

mutual

/-- Translations that agree on the attributes of a block agree on the block. -/
theorem blockFromProto_congr : ∀ src : ProtoBlock,
    (∀ a, OccursIn a src → translate a = translate' a) →
      blockFromProto translate src = blockFromProto translate' src
  | .mk attributes blockTypes description descriptionKind deprecated, h => by
    have hattributes : ∀ a ∈ attributes, translate a = translate' a := fun a ha => h a (.here ha)
    rw [blockFromProto,blockFromProto,attributes_congr hattributes,
      nestedFromProto_congr blockTypes (fun e he a ha => h a (.nested he ha)) []]

theorem nestedFromProto_congr : ∀ blockTypes : List ProtoNestedBlock,
    (∀ e ∈ ProtoBlock.filled blockTypes, ∀ a, OccursIn a e.2 → translate a = translate' a) →
      ∀ table, nestedFromProto translate table blockTypes =
        nestedFromProto translate' table blockTypes
  | [], _, _ => rfl
  | .mk typeName none nesting minItems maxItems :: rest, h, table => by
    rw [nestedFromProto,nestedFromProto]
    exact nestedFromProto_congr rest h table
  | .mk typeName (some block) nesting minItems maxItems :: rest, h, table => by
    rw [nestedFromProto,nestedFromProto,
      blockFromProto_congr block fun a ha => h _ List.mem_cons_self a ha]
    cases blockFromProto translate' block with
    | error e => rfl
    | ok s => exact nestedFromProto_congr rest (fun e he => h e (List.mem_cons_of_mem _ he)) _

end

variable {fromSlice : List UInt8 → Except String Json}

theorem attributeFromProto_error {a : ProtoAttribute}
    (h : ¬∃ s, attributeFromProto fromSlice a = .ok s) :
    a.type ≠ [] ∧ ∃ e, fromSlice a.type = .error e := by
  unfold attributeFromProto at h
  split_ifs at h with htype hnested
  · refine ⟨by simpa using htype,?_⟩
    cases hparse : fromSlice a.type with
    | error e => exact ⟨e,rfl⟩
    | ok type =>
      rw [ctyMsgpackToJson,hparse] at h
      exact absurd ⟨_,rfl⟩ h
  · exact absurd ⟨_,rfl⟩ h
  · exact absurd ⟨_,rfl⟩ h

theorem attributeFromProtoV5_eq {a : ProtoAttribute} (h : a.hasNestedType = false) :
    attributeFromProtoV5 fromSlice a = attributeFromProto fromSlice a := by
  simp [attributeFromProtoV5,attributeFromProto,h]

/-- A translated schema describes its message at every path, and has nothing
where the message has nothing. A message is refused only for a type that does
not parse. Messages without nested types mean the same in both protocols. -/
theorem schemaFromProto_faithful (fromSlice : List UInt8 → Except String Json) (version : ℤ)
    (block : ProtoBlock) :
    (match schemaFromProto (attributeFromProto fromSlice) ⟨version,some block⟩ with
      | .ok schema => schema.version = version.toNat ∧
          ∀ path, Option.Rel (Describes (attributeFromProto fromSlice)) (block.within path)
            (schema.block.within path)
      | .error _ => ∃ a, OccursIn a block ∧ a.type ≠ [] ∧ ∃ e, fromSlice a.type = .error e) ∧
    ((∀ a, OccursIn a block → a.hasNestedType = false) →
      schemaFromProto (attributeFromProtoV5 fromSlice) ⟨version,some block⟩ =
        schemaFromProto (attributeFromProto fromSlice) ⟨version,some block⟩) := by
  constructor
  · cases hb : blockFromProto (attributeFromProto fromSlice) block with
    | ok schema =>
      simp only [schemaFromProto,hb,Except.map]
      exact ⟨trivial,blockFromProto_within hb⟩
    | error e =>
      simp only [schemaFromProto,hb,Except.map]
      by_contra hnone
      have hall : ∀ a, OccursIn a block → ∃ s, attributeFromProto fromSlice a = .ok s := by
        intro a ha
        by_contra hfail
        exact hnone ⟨a,ha,attributeFromProto_error hfail⟩
      obtain ⟨schema,hs⟩ := blockFromProto_ok block hall
      rw [hb] at hs
      cases hs
  · intro h
    simp only [schemaFromProto]
    rw [blockFromProto_congr block fun a ha => attributeFromProtoV5_eq (h a ha)]

end outcomes
end ProviderSchemas
end TerraformLs
