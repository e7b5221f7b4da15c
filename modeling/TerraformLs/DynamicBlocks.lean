import TerraformLs.BodyCursors
import TerraformLs.LeftOut
import TerraformLs.SchemaValidation

/-! The checks of dynamic blocks against the schema of the body they stand in. -/
namespace TerraformLs
namespace BodyCursors
namespace DynamicBlocks

open Rope

/-- The attributes of a block, and the schemas of its nested blocks. -/
inductive BlockSchema
  | mk (attributes : KeyedMap String SchemaValidation.AttributeSchema)
      (blockTypes : String → Option BlockSchema)

namespace BlockSchema

def attributes : BlockSchema → KeyedMap String SchemaValidation.AttributeSchema
  | mk attributes _ => attributes

def blockTypes : BlockSchema → String → Option BlockSchema
  | mk _ blockTypes => blockTypes

end BlockSchema

inductive BlockKind
  | resource | dataSource
  deriving DecidableEq

inductive Report
  | unknownNestedBlock (range : Range) (label : String)
  | missingForEach (range : Range) (label : String)
  | missingInContent (range : Range) (label name : String)
  deriving DecidableEq

def Report.message : Report → String
  | unknownNestedBlock _ label => "unknown nested block `" ++ label ++ "` on this resource/data"
  | missingForEach _ label => "dynamic \"" ++ label ++ "\" missing required `for_each`"
  | missingInContent _ label name =>
    "dynamic \"" ++ label ++ "\" — missing required attribute `" ++ name ++ "` inside `content`"

def Report.range : Report → Range
  | unknownNestedBlock range _ | missingForEach range _ | missingInContent range _ _ => range

def Report.diagnostic (r : Report) : Diagnostic :=
  ⟨r.range,some .error,some "terraform-ls-rs",r.message⟩

section checks

variable (rope : Rope)

def rangeOf (span : Option Span) : Option Range :=
  span.bind fun s => (hclSpanToLspRange rope s).toOption

def defaultRange : Range := ⟨⟨0,0⟩,⟨0,0⟩⟩

def firstLabel (block : Header) : Option String := block.labels.head?.map fun label => label.1.asStr

def headerRange (block : Header) : Option Range := rangeOf rope block.identSpan

def attributeKeys (body : Body) : List String := body.attributes.map Attribute.key

/-- The last `content` of a dynamic body. -/
def contentBlock (body : Body) : Option Block :=
  (body.blocks.filter fun b => b.1.ident = "content").getLast?

def unknownLabel (block : Header) (label : String) : List Report :=
  match block.labels.head?.bind Prod.snd with
  | some span => [.unknownNestedBlock ((rangeOf rope (some span)).getD defaultRange) label]
  | none => []

def checkForEach (block : Header) (body : Body) (label : String) : List Report :=
  if "for_each" ∈ attributeKeys body then []
  else match headerRange rope block with
    | some range => [.missingForEach range label]
    | none => []

/-- The required attributes that are not assigned in the body of `content`. -/
def checkContent (block : Header) (body : Body) (label : String) (target : BlockSchema) : List Report :=
  let content := contentBlock body
  let contentAttrs := (content.map fun c => attributeKeys c.2).getD []
  let range := ((content.bind fun c => headerRange rope c.1).or (headerRange rope block)).getD defaultRange
  target.attributes.entries.filterMap fun entry =>
    if !entry.2.required then none
    else if entry.1 ∈ contentAttrs then none
    else some (.missingInContent range label entry.1)

def isBlockLikeIn (schema : BlockSchema) (name : String) : Bool :=
  (schema.attributes.lookup name).any SchemaValidation.AttributeSchema.isBlockLike

def validateDynamicBlock (block : Header) (body : Body) (parentSchema : BlockSchema)
    (nested : BlockSchema → List Report) : List Report :=
  match firstLabel block with
  | none => []
  | some label =>
    match parentSchema.blockTypes label with
    | some target =>
      checkForEach rope block body label ++ checkContent rope block body label target ++ nested target
    | none =>
      if isBlockLikeIn parentSchema label then checkForEach rope block body label
      else unknownLabel rope block label

mutual

def validateNestedDynamics (schema : BlockSchema) : Body → List Report
  | .nil => []
  | .attribute _ rest => validateNestedDynamics schema rest
  | .block inner body rest =>
    (if inner.ident = "dynamic" then
      validateDynamicBlock rope inner body schema fun target => validateContent target body
    else match schema.blockTypes inner.ident with
      | some nested => validateNestedDynamics nested body
      | none => []) ++ validateNestedDynamics schema rest

/-- The dynamic blocks inside the last `content`. -/
def validateContent (target : BlockSchema) : Body → List Report
  | .nil => []
  | .attribute _ rest => validateContent target rest
  | .block inner body rest =>
    if (contentBlock rest).isSome then validateContent target rest
    else if inner.ident = "content" then validateNestedDynamics target body
    else []

end

def isMetaBlock (kind : BlockKind) (name : String) : Bool :=
  name = "lifecycle" || (kind = .resource && (name = "provisioner" || name = "connection"))

/-- The dynamic blocks of a resource or data body; the blocks of the language are passed over. -/
def validateMetaBlocks (kind : BlockKind) (schema : BlockSchema) : Body → List Report
  | .nil => []
  | .attribute _ rest => validateMetaBlocks kind schema rest
  | .block inner body rest =>
    (if isMetaBlock kind inner.ident then []
    else if inner.ident = "dynamic" then
      validateDynamicBlock rope inner body schema fun target => validateContent rope target body
    else match schema.blockTypes inner.ident with
      | some nested => validateNestedDynamics rope nested body
      | none => []) ++ validateMetaBlocks kind schema rest

def validateBlock (kind : BlockKind) (schema : BlockSchema) (block : Block) : List Report :=
  match headerRange rope block.1 with
  | none => []
  | some _ => validateMetaBlocks rope kind schema block.2

end checks

section spec

/-- What blocks and dynamic blocks of a body stand for. -/
def presentBlockNames (body : Body) : List String :=
  body.blocks.flatMap fun b => if b.1.ident = "dynamic" then (firstLabel b.1).toList else [b.1.ident]

/-- The schema of the blocks that a dynamic block stands for. -/
def target (schema : BlockSchema) (block : Header) : Option BlockSchema :=
  (firstLabel block).bind schema.blockTypes

mutual

/-- The dynamic blocks inside a body, each with the schema of the body it stands in, where it
is known. -/
def nestedDynamics (schema : BlockSchema) : Body → List (BlockSchema × Block)
  | .nil => []
  | .attribute _ rest => nestedDynamics schema rest
  | .block inner body rest =>
    (if inner.ident = "dynamic" then
      (schema,inner,body) :: ((target schema inner).map fun t => contentDynamics t body).getD []
    else ((schema.blockTypes inner.ident).map fun nested => nestedDynamics nested body).getD []) ++
      nestedDynamics schema rest

def contentDynamics (schema : BlockSchema) : Body → List (BlockSchema × Block)
  | .nil => []
  | .attribute _ rest => contentDynamics schema rest
  | .block inner body rest =>
    if (contentBlock rest).isSome then contentDynamics schema rest
    else if inner.ident = "content" then nestedDynamics schema body
    else []

end

/-- Those of a resource or data body, outside of the blocks of the language. -/
def dynamics (kind : BlockKind) (schema : BlockSchema) : Body → List (BlockSchema × Block)
  | .nil => []
  | .attribute _ rest => dynamics kind schema rest
  | .block inner body rest =>
    (if isMetaBlock kind inner.ident then [] else nestedDynamics schema (.block inner body .nil)) ++
      dynamics kind schema rest

/-- A required attribute may be written as a block or a dynamic block if its type allows it. -/
def SetAsBlock (content : Option Block) (entry : (_ : String) × SchemaValidation.AttributeSchema) : Prop :=
  entry.2.isBlockLike = true ∧ ∃ c ∈ content, entry.1 ∈ presentBlockNames c.2

instance (content : Option Block) (entry : (_ : String) × SchemaValidation.AttributeSchema) :
    Decidable (SetAsBlock content entry) :=
  decidable_of_iff (entry.2.isBlockLike = true ∧
    content.any (fun c => decide (entry.1 ∈ presentBlockNames c.2)) = true) (by
      rw [SetAsBlock]
      cases content <;> simp)

variable (rope : Rope)

/-- What is to be reported of a dynamic block in a body of that schema. -/
def expectedReports (d : BlockSchema × Block) : List Report :=
  match firstLabel d.2.1 with
  | none => []
  | some label =>
    let header := (headerRange rope d.2.1).getD defaultRange
    let forEach := if "for_each" ∈ attributeKeys d.2.2 then [] else [.missingForEach header label]
    let content := contentBlock d.2.2
    match d.1.blockTypes label with
    | some target => forEach ++ target.attributes.entries.filterMap fun entry =>
        if SetAsBlock content entry then none
        else if entry.2.required ∧ entry.1 ∉ (content.map fun c => attributeKeys c.2).getD [] then
          some (.missingInContent
            (((content.bind fun c => headerRange rope c.1).or (headerRange rope d.2.1)).getD defaultRange)
            label entry.1)
        else none
    | none =>
      if isBlockLikeIn d.1 label then forEach
      else [.unknownNestedBlock (((d.2.1.labels.head?.bind Prod.snd).bind
        fun span => rangeOf rope (some span)).getD defaultRange) label]

def DynamicsExact (kind : BlockKind) (schema : BlockSchema) (block : Block) : Prop :=
  validateBlock rope kind schema block = (dynamics kind schema block.2).flatMap (expectedReports rope)

/-- The spans of a parsed document: those of the keywords lie in the text, and each label has
one. -/
def HeaderPlaced (header : Header) : Prop :=
  (headerRange rope header).isSome = true ∧ ∀ label ∈ header.labels, label.2.isSome = true

instance (header : Header) : Decidable (HeaderPlaced rope header) :=
  inferInstanceAs (Decidable (_ ∧ _))

def HeadersPlaced : Body → Prop
  | .nil => True
  | .attribute _ rest => HeadersPlaced rest
  | .block inner body rest => HeaderPlaced rope inner ∧ HeadersPlaced body ∧ HeadersPlaced rest

/-- No required attribute of the target is written in `content` as a block alone. -/
def NotAsBlock (d : BlockSchema × Block) : Prop :=
  ∀ t, target d.1 d.2.1 = some t → ∀ entry ∈ t.attributes.entries, entry.2.required = true →
    SetAsBlock (contentBlock d.2.2) entry →
      entry.1 ∈ ((contentBlock d.2.2).map fun c => attributeKeys c.2).getD []

end spec

section lemmas

variable {rope : Rope} {kind : BlockKind} {schema : BlockSchema}

theorem contentBlock_cons (inner : Header) (body rest : Body) : contentBlock (.block inner body rest) =
    (contentBlock rest).or (if inner.ident = "content" then some (inner,body) else none) := by
  rw [contentBlock,Body.blocks,List.filter_cons]
  split_ifs with h h' h'
  · rw [List.getLast?_cons,contentBlock]
    cases (rest.blocks.filter fun b => b.1.ident = "content").getLast? <;> rfl
  · exact absurd (of_decide_eq_true h) h'
  · exact absurd (decide_eq_true h') h
  · exact Option.or_none.symm

/-- The recursion is into the body of `content`. -/
theorem validateContent_eq (rope : Rope) (target : BlockSchema) (body : Body) :
    validateContent rope target body =
      ((contentBlock body).map fun content => validateNestedDynamics rope target content.2).getD [] := by
  induction body with
  | nil => rfl
  | «attribute» attr rest ih => exact ih
  | block inner inside rest _ ih =>
    rw [validateContent,contentBlock_cons,ih]
    cases contentBlock rest with
    | some content => rfl
    | none =>
      rw [Option.none_or,if_neg (by decide)]
      split_ifs <;> rfl

/-- The reports of a dynamic block itself. -/
def dynamicReports (rope : Rope) (d : BlockSchema × Block) : List Report :=
  validateDynamicBlock rope d.2.1 d.2.2 d.1 fun _ => []

theorem validateDynamicBlock_eq (block : Header) (body : Body) (nested : BlockSchema → List Report) :
    validateDynamicBlock rope block body schema nested =
      dynamicReports rope (schema,block,body) ++ ((target schema block).map nested).getD [] := by
  rw [dynamicReports,validateDynamicBlock,validateDynamicBlock,target]
  cases firstLabel block with
  | none => rfl
  | some label =>
    dsimp only [Option.bind_some]
    cases schema.blockTypes label with
    | some t => simp
    | none => simp

mutual

theorem validateNestedDynamics_eq (schema : BlockSchema) : ∀ body : Body,
    validateNestedDynamics rope schema body =
      (nestedDynamics schema body).flatMap (dynamicReports rope)
  | .nil => rfl
  | .attribute _ rest => validateNestedDynamics_eq schema rest
  | .block inner body rest => by
    rw [validateNestedDynamics,nestedDynamics,List.flatMap_append,
      validateNestedDynamics_eq schema rest]
    congr 1
    split_ifs
    · rw [validateDynamicBlock_eq,List.flatMap_cons]
      congr 1
      cases target schema inner with
      | none => rfl
      | some t => exact validateContent_flatMap t body
    · cases schema.blockTypes inner.ident with
      | none => rfl
      | some nested => exact validateNestedDynamics_eq nested body

theorem validateContent_flatMap (schema : BlockSchema) : ∀ body : Body,
    validateContent rope schema body = (contentDynamics schema body).flatMap (dynamicReports rope)
  | .nil => rfl
  | .attribute _ rest => validateContent_flatMap schema rest
  | .block inner body rest => by
    rw [validateContent,contentDynamics]
    split_ifs
    · exact validateContent_flatMap schema rest
    · exact validateNestedDynamics_eq schema body
    · rfl

end

theorem validateMetaBlocks_eq (body : Body) : validateMetaBlocks rope kind schema body =
    (dynamics kind schema body).flatMap (dynamicReports rope) := by
  induction body with
  | nil => rfl
  | «attribute» attr rest ih => exact ih
  | block inner inside rest _ ih =>
    rw [validateMetaBlocks,dynamics,List.flatMap_append,ih]
    congr 1
    split_ifs with hmeta hdynamic
    · rfl
    · rw [← validateNestedDynamics_eq,validateNestedDynamics,if_pos hdynamic]
      exact (List.append_nil _).symm
    · rw [← validateNestedDynamics_eq,validateNestedDynamics,if_neg hdynamic]
      exact (List.append_nil _).symm

mutual

theorem nestedDynamics_placed (schema : BlockSchema) : ∀ body : Body, HeadersPlaced rope body →
    ∀ d ∈ nestedDynamics schema body, HeaderPlaced rope d.2.1
  | .nil, _, _, hd => absurd hd List.not_mem_nil
  | .attribute _ rest, h, d, hd => nestedDynamics_placed schema rest h d hd
  | .block inner body rest, ⟨hinner,hbody,hrest⟩, d, hd => by
    rw [nestedDynamics,List.mem_append] at hd
    rcases hd with hd | hd
    · split_ifs at hd
      · rcases List.mem_cons.mp hd with rfl | hd
        · exact hinner
        · cases ht : target schema inner with
          | none =>
            rw [ht] at hd
            exact absurd hd List.not_mem_nil
          | some t =>
            rw [ht] at hd
            exact contentDynamics_placed t body hbody d hd
      · cases ht : schema.blockTypes inner.ident with
        | none =>
          rw [ht] at hd
          exact absurd hd List.not_mem_nil
        | some nested =>
          rw [ht] at hd
          exact nestedDynamics_placed nested body hbody d hd
    · exact nestedDynamics_placed schema rest hrest d hd

theorem contentDynamics_placed (schema : BlockSchema) : ∀ body : Body, HeadersPlaced rope body →
    ∀ d ∈ contentDynamics schema body, HeaderPlaced rope d.2.1
  | .nil, _, _, hd => absurd hd List.not_mem_nil
  | .attribute _ rest, h, d, hd => contentDynamics_placed schema rest h d hd
  | .block inner body rest, ⟨_,hbody,hrest⟩, d, hd => by
    rw [contentDynamics] at hd
    split_ifs at hd
    · exact contentDynamics_placed schema rest hrest d hd
    · exact nestedDynamics_placed schema body hbody d hd
    · exact absurd hd List.not_mem_nil

end

theorem dynamics_placed {body : Body} (h : HeadersPlaced rope body) :
    ∀ d ∈ dynamics kind schema body, HeaderPlaced rope d.2.1 := by
  induction body with
  | nil => exact fun d hd => absurd hd List.not_mem_nil
  | «attribute» attr rest ih => exact ih h
  | block inner inside rest _ ih =>
    intro d hd
    rcases List.mem_append.mp hd with hd | hd
    · have hplaced : HeadersPlaced rope (.block inner inside .nil) := ⟨h.1,h.2.1,trivial⟩
      split_ifs at hd
      · exact absurd hd List.not_mem_nil
      · exact nestedDynamics_placed schema _ hplaced d hd
    · exact ih h.2.2 d hd

theorem checkForEach_eq {block : Header} (h : HeaderPlaced rope block) (body : Body) (label : String) :
    checkForEach rope block body label = if "for_each" ∈ attributeKeys body then [] else
      [.missingForEach ((headerRange rope block).getD defaultRange) label] := by
  obtain ⟨range,hrange⟩ := Option.isSome_iff_exists.mp h.1
  rw [checkForEach,hrange]
  rfl

theorem unknownLabel_eq {block : Header} (h : HeaderPlaced rope block) {label : String}
    (hlabel : firstLabel block = some label) :
    unknownLabel rope block label = [.unknownNestedBlock (((block.labels.head?.bind Prod.snd).bind
      fun span => rangeOf rope (some span)).getD defaultRange) label] := by
  rw [firstLabel] at hlabel
  obtain ⟨first,hfirst,-⟩ := Option.map_eq_some_iff.mp hlabel
  obtain ⟨span,hspan⟩ := Option.isSome_iff_exists.mp (h.2 first (List.mem_of_mem_head? hfirst))
  rw [unknownLabel,hfirst,Option.bind_some,hspan]
  rfl

/-- The checks of `content` leave nothing out that a block sets. -/
theorem expected_content_eq (content : Option Block) (range : Range) (label : String) (t : BlockSchema) :
    (t.attributes.entries.filterMap fun entry =>
      if SetAsBlock content entry then none
      else if entry.2.required ∧ entry.1 ∉ (content.map fun c => attributeKeys c.2).getD [] then
        some (Report.missingInContent range label entry.1)
      else none) =
    t.attributes.entries.filterMap fun entry => if SetAsBlock content entry then none else
      if !entry.2.required then none
      else if entry.1 ∈ (content.map fun c => attributeKeys c.2).getD [] then none
      else some (Report.missingInContent range label entry.1) := by
  refine List.filterMap_congr fun entry _ => ?_
  by_cases hset : SetAsBlock content entry
  · rw [if_pos hset,if_pos hset]
  · rw [if_neg hset,if_neg hset]
    by_cases hrequired : entry.2.required = true <;> simp [hrequired]

theorem expectedReports_sublist {d : BlockSchema × Block} (h : HeaderPlaced rope d.2.1) :
    (expectedReports rope d).Sublist (dynamicReports rope d) := by
  rw [expectedReports,dynamicReports,validateDynamicBlock]
  cases hlabel : firstLabel d.2.1 with
  | none => exact List.Sublist.refl _
  | some label =>
    dsimp only
    cases d.1.blockTypes label with
    | none =>
      dsimp only
      rw [checkForEach_eq h,unknownLabel_eq h hlabel]
    | some t =>
      dsimp only
      rw [checkForEach_eq h,expected_content_eq,List.append_nil,checkContent]
      exact List.Sublist.append (List.Sublist.refl _) LeftOut.filterMap_sublist

theorem dynamicReports_eq_iff {d : BlockSchema × Block} (h : HeaderPlaced rope d.2.1) :
    dynamicReports rope d = expectedReports rope d ↔ NotAsBlock d := by
  rw [expectedReports,dynamicReports,validateDynamicBlock,NotAsBlock,target]
  cases hlabel : firstLabel d.2.1 with
  | none => simp
  | some label =>
    rw [Option.bind_some]
    dsimp only
    cases d.1.blockTypes label with
    | none =>
      dsimp only
      rw [checkForEach_eq h,unknownLabel_eq h hlabel]
      simp
    | some t =>
      dsimp only
      rw [checkForEach_eq h,expected_content_eq,List.append_nil,checkContent,List.append_right_inj]
      rw [LeftOut.filterMap_eq_iff]
      constructor
      · rintro hnone t' ht entry hentry hrequired hset
        obtain rfl := Option.some.inj ht
        by_contra hnot
        have hreported := hnone entry hentry hset
        rw [hrequired,Bool.not_true,if_neg (by decide),if_neg hnot] at hreported
        cases hreported
      · intro hall entry hentry hset
        by_cases hrequired : entry.2.required = true
        · rw [hrequired,Bool.not_true,if_neg (by decide),if_pos (hall t rfl entry hentry hrequired hset)]
        · rw [Bool.not_eq_true] at hrequired
          rw [hrequired]
          rfl

end lemmas

section theorems

variable {rope : Rope}

/-- The checks of dynamic blocks are exact when no required attribute of a target is written
in `content` as a block alone. -/
theorem dynamics_exact_iff {block : Block} (kind : BlockKind) (schema : BlockSchema)
    (hheader : HeaderPlaced rope block.1) (h : HeadersPlaced rope block.2) :
    DynamicsExact rope kind schema block ↔ ∀ d ∈ dynamics kind schema block.2, NotAsBlock d := by
  obtain ⟨range,hrange⟩ := Option.isSome_iff_exists.mp hheader.1
  have hplaced : ∀ d ∈ dynamics kind schema block.2, HeaderPlaced rope d.2.1 := dynamics_placed h
  rw [DynamicsExact,validateBlock,hrange]
  dsimp only
  rw [validateMetaBlocks_eq,LeftOut.flatMap_eq_iff fun d hd => expectedReports_sublist (hplaced d hd)]
  exact forall₂_congr fun d hd => dynamicReports_eq_iff (hplaced d hd)

/-- A block type `a` with a required attribute `b` of type `object({})`. -/
def ruleSchema : BlockSchema :=
  .mk ∅ fun name => if name = "a" then
    some (.mk (AList.singleton "b" { type := some (.array [.string "object",.object []]), required := true })
      fun _ => none)
  else none

def ruleHeader (stop bodyStop : ℕ) : Header :=
  ⟨"resource",some (0,8),[(.string "t",some (9,12)),(.string "n",some (13,16))],some (0,stop),
    some (18,bodyStop)⟩

def ruleDynamic (stop bodyStop : ℕ) : Header :=
  ⟨"dynamic",some (21,28),[(.string "a",some (29,32))],some (21,stop),some (34,bodyStop)⟩

/-- The text of a dynamic block without `for_each` and with an empty `content`, in a resource. -/
def bareRope : Rope :=
  ("resource \"t\" \"n\" \x7b\n  dynamic \"a\" \x7b\n    content \x7b\n    \x7d\n  \x7d\n\x7d\n").toList

def bareBlock : Block :=
  (ruleHeader 60 59,.block (ruleDynamic 58 57)
    (.block ⟨"content",some (39,46),[],some (39,54),none⟩ .nil .nil) .nil)

theorem bare_dynamic_exact : DynamicsExact bareRope .resource ruleSchema bareBlock ∧
    (validateBlock bareRope .resource ruleSchema bareBlock).map Report.message =
      ["dynamic \"a\" missing required `for_each`",
        "dynamic \"a\" — missing required attribute `b` inside `content`"] := by
  refine ⟨(dynamics_exact_iff .resource ruleSchema (by decide) ?_).mpr ?_,by decide⟩
  · exact ⟨by decide,⟨by decide,trivial,trivial⟩,trivial⟩
  · intro d hd t _ entry _ _ hset
    obtain rfl := List.mem_singleton.mp hd
    obtain ⟨-,c,hc,hmem⟩ := hset
    obtain rfl := Option.some.inj hc
    exact absurd hmem List.not_mem_nil

/-- The text of a dynamic block with `for_each` whose `content` has a block `b`, in a resource. -/
def blockRope : Rope :=
  ("resource \"t\" \"n\" \x7b\n  dynamic \"a\" \x7b\n    for_each = l\n    content \x7b\n" ++
    "      b \x7b\x7d\n    \x7d\n  \x7d\n\x7d\n").toList

def setAsBlock : Block :=
  (ruleHeader 88 87,.block (ruleDynamic 86 85)
    (.attribute ⟨"for_each",some (39,47)⟩
      (.block ⟨"content",some (56,63),[],some (56,82),some (65,81)⟩
        (.block ⟨"b",some (72,73),[],some (72,76),none⟩ .nil .nil) .nil)) .nil)

/-- What a block of `content` sets is reported as missing. -/
theorem set_as_block_reported :
    (validateBlock blockRope .resource ruleSchema setAsBlock).map Report.message =
      ["dynamic \"a\" — missing required attribute `b` inside `content`"] ∧
    ¬DynamicsExact blockRope .resource ruleSchema setAsBlock := by
  refine ⟨by decide,?_⟩
  unfold DynamicsExact
  decide

end theorems

end DynamicBlocks
end BodyCursors
end TerraformLs
