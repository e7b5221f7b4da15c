import Mathlib.Data.List.Sort
import Mathlib.Data.String.Basic
import Mathlib.Data.Sym.Sym2
import TerraformLs.CyclicLocals
import TerraformLs.FirstReports
import TerraformLs.JsonConfig

/-! The cardinality and relational checks of a resource or data block against
the schema of its type: missing attributes, numbers of nested blocks, and the
groups of attributes that exclude or need one another. -/
namespace TerraformLs
namespace SchemaValidation

open FirstReports

/-- The entry of a JSON array. -/
def item (t : Json) (i : ℕ) : Option Json :=
  match t with
  | .array items => items[i]?
  | _ => none

def asStr : Json → Option String
  | .string value => some value
  | _ => none

structure AttributeSchema where
  type : Option Json := none
  required : Bool := false
  conflictsWith : List String := []
  requiredWith : List String := []
  exactlyOneOf : List String := []
  atLeastOneOf : List String := []

/-- Is the cty type `object(..)` or a collection of objects? -/
def AttributeSchema.isBlockLike (attr : AttributeSchema) : Bool :=
  match attr.type with
  | none => false
  | some t =>
    match (item t 0).bind asStr with
    | none => false
    | some kind =>
      if kind = "object" then true
      else if kind = "set" ∨ kind = "list" ∨ kind = "map" then
        ((item t 1).bind (item · 0)).bind asStr = some "object"
      else false

structure NestedBlockSchema where
  minItems : ℕ := 0
  maxItems : ℕ := 0

/-- The schema tables, each in the order in which it is walked. -/
structure BlockSchema where
  attributes : KeyedMap String AttributeSchema := ∅
  blockTypes : KeyedMap String NestedBlockSchema := ∅

/-- A structure of the body: an attribute with the range of its span, or a block. -/
inductive Structure
  | attr (key : String) (range : Range)
  | block (ident : String) (labels : List BlockLabel)
  deriving DecidableEq

variable (schema : BlockSchema) (body : List Structure)

def presentAttrs : List (String × Range) :=
  body.filterMap fun
    | .attr key range => some (key,range)
    | .block _ _ => none

/-- Is the attribute assigned in the body? -/
def assigned (name : String) : Bool := (presentAttrs body).any (·.1 = name)

def presentBlockNames : List String :=
  body.filterMap fun
    | .attr _ _ => none
    | .block ident labels =>
      if ident = "dynamic" then labels.head?.map BlockLabel.asStr else some ident

/-- A report of the checks, with the range at which it is shown. -/
inductive Report
  | missingAttribute (range : Range) (name : String)
  | tooFewBlocks (range : Range) (name : String) (minItems : ℕ)
  | tooManyBlocks (range : Range) (name : String) (count maxItems : ℕ)
  | conflict (range : Range) (name other : String)
  | missingPartner (range : Range) (name other : String)
  | exactlyOnePair (range : Range) (name other : String)
  | atLeastOne (range : Range) (members : List String)
  | exactlyOne (range : Range) (members : List String)
  deriving DecidableEq

namespace Report

def severity : Report → DiagnosticSeverity
  | missingAttribute .. | tooFewBlocks .. | tooManyBlocks .. => .error
  | conflict .. | missingPartner .. | exactlyOnePair .. | atLeastOne .. | exactlyOne .. => .warning

def quoted (members : List String) : String :=
  ", ".intercalate (members.map fun m => "`" ++ m ++ "`")

def message : Report → String
  | missingAttribute _ name => "missing required attribute `" ++ name ++ "`"
  | tooFewBlocks _ name minItems =>
    if minItems = 1 then "missing required block `" ++ name ++ "`"
    else "block `" ++ name ++ "` requires at least " ++ toString minItems ++ " entries"
  | tooManyBlocks _ name count maxItems =>
    "too many `" ++ name ++ "` blocks (" ++ toString count ++ ", max " ++ toString maxItems ++ ")"
  | conflict _ name other =>
    "attribute `" ++ name ++ "` conflicts with `" ++ other ++ "` — set one, not both"
  | missingPartner _ name other =>
    "attribute `" ++ name ++ "` requires `" ++ other ++ "` to also be set"
  | exactlyOnePair _ name other =>
    "attribute `" ++ name ++ "` and `" ++ other ++
      "` are in the same exactly-one-of group — set exactly one"
  | atLeastOne _ members => "at least one of " ++ quoted members ++ " must be set"
  | exactlyOne _ members => "exactly one of " ++ quoted members ++ " must be set"

def range : Report → Range
  | missingAttribute range _ | tooFewBlocks range _ _ | tooManyBlocks range _ _ _
  | conflict range _ _ | missingPartner range _ _ | exactlyOnePair range _ _
  | atLeastOne range _ | exactlyOne range _ => range

def diagnostic (r : Report) : Diagnostic :=
  ⟨r.range,some r.severity,some "terraform-ls-rs",r.message⟩

end Report

/-- The missing required attributes. -/
def missingRequired (header : Range) : List Report :=
  schema.attributes.entries.filterMap fun entry =>
    if entry.2.required && !assigned body entry.1 &&
        !(entry.2.isBlockLike && (presentBlockNames body).contains entry.1) then
      some (.missingAttribute header entry.1)
    else none

def blockCount (name : String) : ℕ :=
  body.countP fun
    | .attr _ _ => false
    | .block ident _ => ident = name

/-- Is there a `dynamic` block of the type, not counted as a block of it? -/
def hasDynamic (name : String) : Bool :=
  body.any fun
    | .attr _ _ => false
    | .block ident labels =>
      ident ≠ name && ident = "dynamic" && labels.head?.map BlockLabel.asStr = some name

/-- The nested block types with too few or too many blocks. -/
def boundedBlocks (header : Range) : List Report :=
  schema.blockTypes.entries.flatMap fun entry =>
    (if entry.2.minItems ≥ 1 ∧ blockCount body entry.1 = 0 ∧ ¬hasDynamic body entry.1 then
      [Report.tooFewBlocks header entry.1 entry.2.minItems] else []) ++
    (if entry.2.maxItems > 0 ∧ blockCount body entry.1 > entry.2.maxItems ∧
        ¬hasDynamic body entry.1 then
      [.tooManyBlocks header entry.1 (blockCount body entry.1) entry.2.maxItems] else [])

/-- The key under which a pair of attributes is reported. -/
def pairKey (a b : String) : String × String := if a ≤ b then (a,b) else (b,a)

/-- The pairs reported so far. -/
structure Reported where
  conflicts : List (String × String) := []
  exactlyOne : List (String × String) := []

/-- The constraints of each assigned attribute on the others. -/
def relationalConstraints : Reported → List (String × Range) → List Report
  | _, [] => []
  | reported, (name,range) :: rest =>
    match schema.attributes.lookup name with
    | none => relationalConstraints reported rest
    | some attr =>
      let conflicts := firsts (pairKey name) reported.conflicts
        (attr.conflictsWith.filter (assigned body))
      let exactlyOne := firsts (pairKey name) reported.exactlyOne
        (attr.exactlyOneOf.filter fun other => other ≠ name && assigned body other)
      conflicts.2.map (.conflict range name) ++
        (attr.requiredWith.filter (!assigned body ·)).map (.missingPartner range name) ++
          exactlyOne.2.map (.exactlyOnePair range name) ++
            relationalConstraints ⟨conflicts.1,exactlyOne.1⟩ rest

/-- The attributes listed under a constraint, with the one that lists them. -/
def members (name : String) (listed : List String) : List String :=
  if name ∈ listed then listed else listed ++ [name]

/-- The group an attribute declares, in order. -/
def groupOf (name : String) (listed : List String) : List String :=
  (members name listed).insertionSort (· ≤ ·)

/-- The groups without an assigned member, each reported where it is first met;
`list` is the constraint and `report` its report. -/
def unsetGroups (list : AttributeSchema → List String) (report : List String → Report) :
    List (List String) → List ((_ : String) × AttributeSchema) → List Report
  | _, [] => []
  | seen, entry :: rest =>
    if list entry.2 = [] then unsetGroups list report seen rest
    else if seen.any (· = groupOf entry.1 (list entry.2)) then unsetGroups list report seen rest
    else if (groupOf entry.1 (list entry.2)).any (assigned body) then
      unsetGroups list report (groupOf entry.1 (list entry.2) :: seen) rest
    else report (groupOf entry.1 (list entry.2)) ::
      unsetGroups list report (groupOf entry.1 (list entry.2) :: seen) rest

/-- The checks of a block, from the missing attributes on; a block without the
range of its header is not checked. -/
def validateBlock (header : Option Range) : List Report :=
  match header with
  | none => []
  | some header =>
    missingRequired schema body header ++ boundedBlocks schema body header ++
      relationalConstraints schema body {} (presentAttrs body) ++
      unsetGroups body (·.atLeastOneOf) (.atLeastOne header) [] schema.attributes.entries ++
      unsetGroups body (·.exactlyOneOf) (.exactlyOne header) [] schema.attributes.entries

/-! ### What the schema asks for -/

/-- What a report is about, whatever its range: a pair and a group are sets. -/
inductive Subject
  | missing (name : String)
  | tooFew (name : String)
  | tooMany (name : String)
  | conflict (pair : Sym2 String)
  | partner (name other : String)
  | exactlyOnePair (pair : Sym2 String)
  | atLeastOne (group : Finset String)
  | exactlyOne (group : Finset String)
  deriving DecidableEq

def Report.subject : Report → Subject
  | missingAttribute _ name => .missing name
  | tooFewBlocks _ name _ => .tooFew name
  | tooManyBlocks _ name _ _ => .tooMany name
  | conflict _ name other => .conflict s(name,other)
  | missingPartner _ name other => .partner name other
  | exactlyOnePair _ name other => .exactlyOnePair s(name,other)
  | atLeastOne _ members => .atLeastOne members.toFinset
  | exactlyOne _ members => .exactlyOne members.toFinset

/-- The number of reports about a subject. -/
def about (reports : List Report) (subject : Subject) : ℕ :=
  reports.countP (·.subject = subject)

/-- The body has a block of the type. -/
def HasBlock (name : String) : Prop := ∃ labels, Structure.block name labels ∈ body

/-- The body has a `dynamic` block for the type. -/
def HasDynamic (name : String) : Prop :=
  ∃ label labels, Structure.block "dynamic" (label :: labels) ∈ body ∧ label.asStr = name

/-- Does the attribute list the other one under the constraint? -/
def Lists (list : AttributeSchema → List String) (name other : String) : Prop :=
  ∃ attr, schema.attributes.lookup name = some attr ∧ other ∈ list attr

open Classical in
/-- The reports are those that the schema asks for, each once. -/
structure Exact (reports : List Report) : Prop where
  required : ∀ name attr, schema.attributes.lookup name = some attr → attr.required →
    about reports (.missing name) =
      if ¬assigned body name ∧ ¬(attr.isBlockLike ∧ (HasBlock body name ∨ HasDynamic body name))
      then 1 else 0
  tooFew : ∀ name nested, schema.blockTypes.lookup name = some nested →
    about reports (.tooFew name) =
      if ¬HasDynamic body name ∧ blockCount body name < nested.minItems then 1 else 0
  tooMany : ∀ name nested, schema.blockTypes.lookup name = some nested →
    about reports (.tooMany name) =
      if ¬HasDynamic body name ∧ 0 < nested.maxItems ∧ nested.maxItems < blockCount body name
      then 1 else 0
  conflicts : ∀ a b, a ≠ b → assigned body a → assigned body b →
    about reports (.conflict s(a,b)) =
      if Lists schema (·.conflictsWith) a b ∨ Lists schema (·.conflictsWith) b a then 1 else 0
  exactlyOnePairs : ∀ a b, a ≠ b → assigned body a → assigned body b →
    about reports (.exactlyOnePair s(a,b)) =
      if Lists schema (·.exactlyOneOf) a b ∨ Lists schema (·.exactlyOneOf) b a then 1 else 0
  atLeastOne : ∀ name attr, schema.attributes.lookup name = some attr → attr.atLeastOneOf ≠ [] →
    about reports (.atLeastOne (members name attr.atLeastOneOf).toFinset) =
      if ∀ m ∈ members name attr.atLeastOneOf, ¬assigned body m then 1 else 0
  exactlyOne : ∀ name attr, schema.attributes.lookup name = some attr → attr.exactlyOneOf ≠ [] →
    about reports (.exactlyOne (members name attr.exactlyOneOf).toFinset) =
      if ∀ m ∈ members name attr.exactlyOneOf, ¬assigned body m then 1 else 0

/-- The attributes that declare one set of names without an assigned member list
each of its members equally often. -/
def AlikeGroups (list : AttributeSchema → List String) : Prop :=
  ∀ name name' attr attr', schema.attributes.lookup name = some attr →
    schema.attributes.lookup name' = some attr' → list attr ≠ [] → list attr' ≠ [] →
    (members name (list attr)).toFinset = (members name' (list attr')).toFinset →
    (∀ m ∈ members name (list attr), ¬assigned body m) →
    (members name (list attr)).Perm (members name' (list attr'))

/-- The blocks on which the checks are exact. A number of blocks counts as too
small only if it is zero, a `dynamic` block is never one for a type of that name,
and groups are compared as sorted lists. -/
structure Regular : Prop where
  counts : ∀ name nested, schema.blockTypes.lookup name = some nested → ¬HasDynamic body name →
    blockCount body name = 0 ∨ nested.minItems ≤ blockCount body name
  dynamicType : ∀ nested, schema.blockTypes.lookup "dynamic" = some nested →
    HasDynamic body "dynamic" → nested.maxItems = 0 ∨ blockCount body "dynamic" ≤ nested.maxItems
  dynamicAttribute : ∀ attr, schema.attributes.lookup "dynamic" = some attr → attr.required →
    attr.isBlockLike → ¬assigned body "dynamic" → HasBlock body "dynamic" →
    HasDynamic body "dynamic"
  atLeastOne : AlikeGroups schema body (·.atLeastOneOf)
  exactlyOne : AlikeGroups schema body (·.exactlyOneOf)

variable {schema : BlockSchema} {body : List Structure} {header : Range}

/-! ### The part of the checks that reports on a subject -/

inductive Part
  | required | blocks | relational | atLeastOne | exactlyOne
  deriving DecidableEq

def Subject.part : Subject → Part
  | missing _ => .required
  | tooFew _ | tooMany _ => .blocks
  | conflict _ | partner _ _ | exactlyOnePair _ => .relational
  | atLeastOne _ => .atLeastOne
  | exactlyOne _ => .exactlyOne

theorem about_append (rs rs' : List Report) (subject : Subject) :
    about (rs ++ rs') subject = about rs subject + about rs' subject :=
  List.countP_append

theorem about_eq_zero {rs : List Report} {part : Part} {subject : Subject}
    (hpart : ∀ r ∈ rs, r.subject.part = part) (h : subject.part ≠ part) : about rs subject = 0 := by
  rw [about,List.countP_eq_zero]
  intro r hr heq
  exact h (of_decide_eq_true heq ▸ hpart r hr)

theorem part_missingRequired :
    ∀ r ∈ missingRequired schema body header, r.subject.part = .required := by
  intro r hr
  obtain ⟨entry,-,h⟩ := List.mem_filterMap.mp hr
  split_ifs at h
  cases h
  rfl

theorem part_boundedBlocks :
    ∀ r ∈ boundedBlocks schema body header, r.subject.part = .blocks := by
  intro r hr
  obtain ⟨entry,-,h⟩ := List.mem_flatMap.mp hr
  rcases List.mem_append.mp h with h | h
  · split_ifs at h
    · rw [List.mem_singleton.mp h]; rfl
    · cases h
  · split_ifs at h
    · rw [List.mem_singleton.mp h]; rfl
    · cases h

theorem part_relationalConstraints {reported : Reported} {attrs : List (String × Range)} :
    ∀ r ∈ relationalConstraints schema body reported attrs, r.subject.part = .relational := by
  induction attrs generalizing reported with
  | nil => intro r hr; cases hr
  | cons present rest ih =>
    intro r hr
    rw [relationalConstraints] at hr
    split at hr
    · exact ih r hr
    · simp only [List.mem_append,List.mem_map] at hr
      obtain ((⟨other,-,rfl⟩ | ⟨other,-,rfl⟩) | ⟨other,-,rfl⟩) | hr := hr
      · rfl
      · rfl
      · rfl
      · exact ih r hr

/-- The groups of a walk that are not passed over as met before. -/
def groupsMet (list : AttributeSchema → List String)
    (entries : List ((_ : String) × AttributeSchema)) : List (List String) :=
  (entries.filter fun entry => list entry.2 ≠ []).map fun entry => groupOf entry.1 (list entry.2)

theorem groupsMet_cons {list : AttributeSchema → List String} {entry : (_ : String) × AttributeSchema}
    {rest : List ((_ : String) × AttributeSchema)} :
    groupsMet list (entry :: rest) =
      if list entry.2 = [] then groupsMet list rest
      else groupOf entry.1 (list entry.2) :: groupsMet list rest := by
  rw [groupsMet,List.filter_cons]
  by_cases h : list entry.2 = [] <;> simp [h,groupsMet]

theorem unsetGroups_eq {list : AttributeSchema → List String} {report : List String → Report}
    {seen : List (List String)} {entries : List ((_ : String) × AttributeSchema)} :
    unsetGroups body list report seen entries =
      ((firsts id seen (groupsMet list entries)).2.filter
        fun group => !group.any (assigned body)).map report := by
  induction entries generalizing seen with
  | nil => rfl
  | cons entry rest ih =>
    have hmem : seen.any (· = groupOf entry.1 (list entry.2)) ↔ groupOf entry.1 (list entry.2) ∈ seen := by
      simp
    rw [unsetGroups,groupsMet_cons]
    split_ifs with hlist hseen hany
    · exact ih
    · rw [ih,firsts_cons_of_mem (f:=id) (i:=groupOf entry.1 (list entry.2)) (hmem.mp hseen)]
    · rw [ih,firsts_cons_of_notMem (f:=id) (i:=groupOf entry.1 (list entry.2)) (mt hmem.mpr hseen),List.filter_cons_of_neg (by simpa using hany)]
      rfl
    · rw [ih,firsts_cons_of_notMem (f:=id) (i:=groupOf entry.1 (list entry.2)) (mt hmem.mpr hseen),List.filter_cons_of_pos (by simpa using hany)]
      rfl

theorem part_unsetGroups {list : AttributeSchema → List String} {report : List String → Report}
    {part : Part} {entries : List ((_ : String) × AttributeSchema)}
    (hreport : ∀ group, (report group).subject.part = part) :
    ∀ r ∈ unsetGroups body list report [] entries, r.subject.part = part := by
  intro r hr
  rw [unsetGroups_eq] at hr
  obtain ⟨group,-,rfl⟩ := List.mem_map.mp hr
  exact hreport group

/-- The list of reports of one part. -/
def reportsOf (schema : BlockSchema) (body : List Structure) (header : Range) : Part → List Report
  | .required => missingRequired schema body header
  | .blocks => boundedBlocks schema body header
  | .relational => relationalConstraints schema body {} (presentAttrs body)
  | .atLeastOne =>
    unsetGroups body (·.atLeastOneOf) (.atLeastOne header) [] schema.attributes.entries
  | .exactlyOne =>
    unsetGroups body (·.exactlyOneOf) (.exactlyOne header) [] schema.attributes.entries

theorem part_reportsOf (part : Part) :
    ∀ r ∈ reportsOf schema body header part, r.subject.part = part := by
  cases part with
  | required => exact part_missingRequired
  | blocks => exact part_boundedBlocks
  | relational => exact part_relationalConstraints
  | atLeastOne => exact part_unsetGroups fun _ => rfl
  | exactlyOne => exact part_unsetGroups fun _ => rfl

theorem about_validateBlock (subject : Subject) :
    about (validateBlock schema body (some header)) subject =
      about (reportsOf schema body header subject.part) subject := by
  have hsum : validateBlock schema body (some header) =
      reportsOf schema body header .required ++ reportsOf schema body header .blocks ++
        reportsOf schema body header .relational ++ reportsOf schema body header .atLeastOne ++
          reportsOf schema body header .exactlyOne := rfl
  have hzero : ∀ part, subject.part ≠ part →
      about (reportsOf schema body header part) subject = 0 := fun part h =>
    about_eq_zero (part_reportsOf part) h
  rw [hsum,about_append,about_append,about_append,about_append]
  cases hpart : subject.part <;> simp [hzero,hpart]

/-! ### Missing attributes and numbers of blocks -/

theorem about_eq_zero_of {rs : List Report} {subject : Subject}
    (h : ∀ r ∈ rs, r.subject ≠ subject) : about rs subject = 0 := by
  rw [about,List.countP_eq_zero]
  exact fun r hr heq => h r hr (of_decide_eq_true heq)

/-- In a table only the entry of a key reports on a subject of that key. -/
theorem about_flatMap {ν : Type} {entries : List ((_ : String) × ν)} {name : String} {v : ν}
    {reports : (_ : String) × ν → List Report} {subject : Subject} (hkeys : entries.NodupKeys)
    (hmem : ⟨name,v⟩ ∈ entries)
    (hother : ∀ entry ∈ entries, entry.1 ≠ name → about (reports entry) subject = 0) :
    about (entries.flatMap reports) subject = about (reports ⟨name,v⟩) subject := by
  induction entries with
  | nil => cases hmem
  | cons entry rest ih =>
    rw [List.flatMap_cons,about_append]
    obtain ⟨hfresh,hrest⟩ := List.nodupKeys_cons.mp hkeys
    rcases List.mem_cons.mp hmem with rfl | hmem
    · have hzero : about (rest.flatMap reports) subject = 0 := by
        refine about_eq_zero_of fun r hr heq => ?_
        obtain ⟨entry,hentry,hr⟩ := List.mem_flatMap.mp hr
        have hne : entry.1 ≠ name := fun h => hfresh (List.mem_map.mpr ⟨entry,hentry,h⟩)
        have hcount := hother entry (List.mem_cons_of_mem _ hentry) hne
        rw [about,List.countP_eq_zero] at hcount
        exact hcount r hr (decide_eq_true heq)
      rw [hzero,Nat.add_zero]
    · have hne : entry.1 ≠ name := fun h => hfresh (List.mem_map.mpr ⟨_,hmem,h.symm⟩)
      rw [hother entry List.mem_cons_self hne,Nat.zero_add]
      exact ih hrest hmem fun entry hentry => hother entry (List.mem_cons_of_mem _ hentry)

theorem mem_presentBlockNames {name : String} : name ∈ presentBlockNames body ↔
    (HasBlock body name ∧ name ≠ "dynamic") ∨ HasDynamic body name := by
  rw [presentBlockNames,List.mem_filterMap]
  constructor
  · rintro ⟨structure',hmem,h⟩
    cases structure' with
    | attr key range => cases h
    | block ident labels =>
      simp only at h
      split_ifs at h with hdynamic
      · subst hdynamic
        cases labels with
        | nil => cases h
        | cons label labels => cases h; exact .inr ⟨label,labels,hmem,rfl⟩
      · cases h
        exact .inl ⟨⟨labels,hmem⟩,hdynamic⟩
  · rintro (⟨⟨labels,hmem⟩,hne⟩ | ⟨label,labels,hmem,rfl⟩)
    · exact ⟨_,hmem,by simp [hne]⟩
    · exact ⟨_,hmem,by simp⟩

theorem hasDynamic_iff {name : String} :
    hasDynamic body name ↔ HasDynamic body name ∧ name ≠ "dynamic" := by
  rw [hasDynamic,List.any_eq_true]
  constructor
  · rintro ⟨structure',hmem,h⟩
    cases structure' with
    | attr key range => cases h
    | block ident labels =>
      simp only [Bool.and_eq_true,decide_eq_true_eq] at h
      obtain ⟨⟨hne,rfl⟩,hlabel⟩ := h
      cases labels with
      | nil => cases hlabel
      | cons label labels => cases hlabel; exact ⟨⟨label,labels,hmem,rfl⟩,Ne.symm hne⟩
  · rintro ⟨⟨label,labels,hmem,rfl⟩,hne⟩
    exact ⟨_,hmem,by simpa using Ne.symm hne⟩

theorem HasDynamic.blockCount {name : String} (h : HasDynamic body name) : 0 < blockCount body "dynamic" := by
  obtain ⟨label,labels,hmem,-⟩ := h
  exact List.countP_pos_iff.mpr ⟨_,hmem,by simp⟩

theorem indicator_eq_iff {p q : Prop} [Decidable p] [Decidable q] :
    ((if p then 1 else 0) = if q then 1 else 0) ↔ (p ↔ q) := by
  by_cases hp : p <;> by_cases hq : q <;> simp [hp,hq]

section
open Classical

theorem about_missingRequired {name : String} {attr : AttributeSchema}
    (hlookup : schema.attributes.lookup name = some attr) (hrequired : attr.required) :
    about (missingRequired schema body header) (.missing name) =
      if ¬assigned body name ∧ ¬(attr.isBlockLike ∧
        (HasBlock body name ∧ name ≠ "dynamic" ∨ HasDynamic body name)) then 1 else 0 := by
  rw [missingRequired,List.filterMap_eq_flatMap_toList,
    about_flatMap schema.attributes.nodupKeys (KeyedMap.mem_entries.mpr hlookup)]
  · by_cases hp : HasBlock body name ∧ name ≠ "dynamic" ∨ HasDynamic body name
    · have hin : name ∈ presentBlockNames body := mem_presentBlockNames.mpr hp
      by_cases ha : assigned body name <;> by_cases hb : attr.isBlockLike <;>
        simp [about,Report.subject,hrequired,ha,hb,hp,hin]
    · have hin : name ∉ presentBlockNames body := fun h => hp (mem_presentBlockNames.mp h)
      by_cases ha : assigned body name <;> by_cases hb : attr.isBlockLike <;>
        simp [about,Report.subject,hrequired,ha,hb,hp,hin]
  · intro entry hentry hne
    refine about_eq_zero_of fun r hr heq => ?_
    split_ifs at hr with h
    · cases Option.mem_toList.mp hr
      exact hne (by simpa [Report.subject] using heq)
    · cases hr

theorem about_tooFew {name : String} {nested : NestedBlockSchema}
    (hlookup : schema.blockTypes.lookup name = some nested) :
    about (boundedBlocks schema body header) (.tooFew name) =
      if 1 ≤ nested.minItems ∧ blockCount body name = 0 ∧ ¬hasDynamic body name then 1 else 0 := by
  rw [boundedBlocks,
    about_flatMap schema.blockTypes.nodupKeys (KeyedMap.mem_entries.mpr hlookup)]
  · rw [about_append]
    split_ifs <;> simp [about,Report.subject]
  · intro entry hentry hne
    rw [about_append]
    split_ifs <;> simp [about,Report.subject,hne]

theorem about_tooMany {name : String} {nested : NestedBlockSchema}
    (hlookup : schema.blockTypes.lookup name = some nested) :
    about (boundedBlocks schema body header) (.tooMany name) =
      if nested.maxItems > 0 ∧ blockCount body name > nested.maxItems ∧ ¬hasDynamic body name
      then 1 else 0 := by
  rw [boundedBlocks,
    about_flatMap schema.blockTypes.nodupKeys (KeyedMap.mem_entries.mpr hlookup)]
  · rw [about_append]
    split_ifs <;> simp [about,Report.subject]
  · intro entry hentry hne
    rw [about_append]
    split_ifs <;> simp [about,Report.subject,hne]

end

/-! ### Pairs of attributes -/

theorem pairKey_eq_iff {a b c d : String} : pairKey a b = pairKey c d ↔ s(a,b) = s(c,d) := by
  rw [Sym2.eq_iff]
  rcases le_total a b with hab | hab <;> rcases le_total c d with hcd | hcd <;>
    rcases eq_or_ne a b with rfl | hne <;> rcases eq_or_ne c d with rfl | hne' <;>
      grind [pairKey]

/-- The pairs of the assigned attributes with those they list and `keep` keeps. -/
def candidates (schema : BlockSchema) (list : AttributeSchema → List String)
    (keep : String → String → Bool) (attrs : List (String × Range)) :
    List (Range × String × String) :=
  attrs.flatMap fun present =>
    match schema.attributes.lookup present.1 with
    | none => []
    | some attr => ((list attr).filter (keep present.1)).map fun other => (present.2,present.1,other)

def candidateKey (c : Range × String × String) : String × String := pairKey c.2.1 c.2.2

def notItself (body : List Structure) (name other : String) : Bool :=
  other ≠ name && assigned body other

theorem about_map {ι : Type} {is : List ι} {report : ι → Report} {subject : Subject} :
    about (is.map report) subject = is.countP fun i => (report i).subject = subject :=
  List.countP_map

theorem about_map_zero {ι : Type} {is : List ι} {report : ι → Report} {subject : Subject}
    (h : ∀ i, (report i).subject ≠ subject) : about (is.map report) subject = 0 := by
  rw [about_map,List.countP_eq_zero]
  exact fun i _ heq => h i (of_decide_eq_true heq)

theorem about_conflict {reported : Reported} {attrs : List (String × Range)} {a b : String} :
    about (relationalConstraints schema body reported attrs) (.conflict s(a,b)) =
      (firsts candidateKey reported.conflicts
        (candidates schema (·.conflictsWith) (fun _ => assigned body) attrs)).2.countP
          (candidateKey · = pairKey a b) := by
  induction attrs generalizing reported with
  | nil => rfl
  | cons present rest ih =>
    rw [relationalConstraints,candidates,List.flatMap_cons]
    cases hlookup : schema.attributes.lookup present.1 with
    | none => exact ih
    | some attr =>
      have hfirst {range : Range} {name : String} {others : List String} :
          about (others.map (.conflict range name)) (.conflict s(a,b)) =
            others.countP (pairKey name · = pairKey a b) := by
        rw [about_map]
        exact List.countP_congr fun other _ => by simp [Report.subject,pairKey_eq_iff]
      simp only [firsts_append,firsts_map,List.countP_append,List.countP_map,about_append,ih,hfirst]
      rw [about_map_zero (by nofun),about_map_zero (by nofun)]
      rfl

theorem about_exactlyOnePair {reported : Reported} {attrs : List (String × Range)} {a b : String} :
    about (relationalConstraints schema body reported attrs) (.exactlyOnePair s(a,b)) =
      (firsts candidateKey reported.exactlyOne
        (candidates schema (·.exactlyOneOf) (notItself body) attrs)).2.countP
          (candidateKey · = pairKey a b) := by
  induction attrs generalizing reported with
  | nil => rfl
  | cons present rest ih =>
    rw [relationalConstraints,candidates,List.flatMap_cons]
    cases hlookup : schema.attributes.lookup present.1 with
    | none => exact ih
    | some attr =>
      have hfirst {range : Range} {name : String} {others : List String} :
          about (others.map (.exactlyOnePair range name)) (.exactlyOnePair s(a,b)) =
            others.countP (pairKey name · = pairKey a b) := by
        rw [about_map]
        exact List.countP_congr fun other _ => by simp [Report.subject,pairKey_eq_iff]
      simp only [firsts_append,firsts_map,List.countP_append,List.countP_map,about_append,ih,hfirst]
      rw [about_map_zero (by nofun),about_map_zero (by nofun),Nat.zero_add]
      rfl

theorem mem_candidates {list : AttributeSchema → List String} {keep : String → String → Bool}
    {attrs : List (String × Range)} {c : Range × String × String} :
    c ∈ candidates schema list keep attrs ↔
      (c.2.1,c.1) ∈ attrs ∧ Lists schema list c.2.1 c.2.2 ∧ keep c.2.1 c.2.2 := by
  rw [candidates,List.mem_flatMap]
  constructor
  · rintro ⟨present,hmem,hc⟩
    cases hlookup : schema.attributes.lookup present.1 with
    | none => rw [hlookup] at hc; cases hc
    | some attr =>
      rw [hlookup] at hc
      obtain ⟨other,hother,rfl⟩ := List.mem_map.mp hc
      obtain ⟨hlist,hkeep⟩ := List.mem_filter.mp hother
      exact ⟨hmem,⟨attr,hlookup,hlist⟩,hkeep⟩
  · rintro ⟨hmem,⟨attr,hlookup,hlist⟩,hkeep⟩
    refine ⟨_,hmem,?_⟩
    rw [hlookup]
    exact List.mem_map.mpr ⟨c.2.2,List.mem_filter.mpr ⟨hlist,hkeep⟩,rfl⟩

theorem assigned_iff {name : String} : assigned body name ↔ ∃ range, (name,range) ∈ presentAttrs body := by
  rw [assigned,List.any_eq_true]
  constructor
  · rintro ⟨⟨name',range⟩,hmem,h⟩
    rw [decide_eq_true_eq] at h
    exact ⟨range,h ▸ hmem⟩
  · rintro ⟨range,hmem⟩
    exact ⟨_,hmem,decide_eq_true rfl⟩

/-- A pair of assigned attributes is a candidate exactly if one lists the other. -/
theorem candidate_iff {list : AttributeSchema → List String} {keep : String → String → Bool}
    {a b : String} (ha : assigned body a) (hb : assigned body b) (hab : keep a b) (hba : keep b a) :
    (∃ c ∈ candidates schema list keep (presentAttrs body), candidateKey c = pairKey a b) ↔
      Lists schema list a b ∨ Lists schema list b a := by
  constructor
  · rintro ⟨⟨range,name,other⟩,hc,heq⟩
    obtain ⟨-,hlist,-⟩ := mem_candidates.mp hc
    rcases Sym2.eq_iff.mp (pairKey_eq_iff.mp heq) with ⟨rfl,rfl⟩ | ⟨rfl,rfl⟩
    · exact .inl hlist
    · exact .inr hlist
  · rintro (hlist | hlist)
    · obtain ⟨range,hmem⟩ := assigned_iff.mp ha
      exact ⟨(range,a,b),mem_candidates.mpr ⟨hmem,hlist,hab⟩,rfl⟩
    · obtain ⟨range,hmem⟩ := assigned_iff.mp hb
      exact ⟨(range,b,a),mem_candidates.mpr ⟨hmem,hlist,hba⟩,pairKey_eq_iff.mpr Sym2.eq_swap⟩

/-! ### Groups without an assigned member -/

theorem groupOf_eq_iff {name name' : String} {listed listed' : List String} :
    groupOf name listed = groupOf name' listed' ↔
      (members name listed).Perm (members name' listed') := by
  have hperm := List.perm_insertionSort (· ≤ ·) (members name listed)
  have hperm' := List.perm_insertionSort (· ≤ ·) (members name' listed')
  constructor
  · intro h
    rw [groupOf,groupOf] at h
    exact (hperm.symm.trans (h ▸ List.Perm.refl _)).trans hperm'
  · intro h
    have hsorted := List.pairwise_insertionSort (· ≤ ·) (members name listed)
    have hsorted' := List.pairwise_insertionSort (· ≤ ·) (members name' listed')
    exact ((hperm.trans h).trans hperm'.symm).eq_of_pairwise
      (fun a b _ _ hab hba => le_antisymm hab hba) hsorted hsorted'

theorem mem_groupOf {m name : String} {listed : List String} :
    m ∈ groupOf name listed ↔ m ∈ members name listed :=
  List.mem_insertionSort _

theorem toFinset_groupOf {name : String} {listed : List String} :
    (groupOf name listed).toFinset = (members name listed).toFinset := by
  ext m
  rw [List.mem_toFinset,List.mem_toFinset,mem_groupOf]

theorem mem_groupsMet {list : AttributeSchema → List String} {group : List String} :
    group ∈ groupsMet list schema.attributes.entries ↔
      ∃ name attr, schema.attributes.lookup name = some attr ∧ list attr ≠ [] ∧
        groupOf name (list attr) = group := by
  rw [groupsMet,List.mem_map]
  constructor
  · rintro ⟨⟨name,attr⟩,hentry,rfl⟩
    obtain ⟨hmem,hlist⟩ := List.mem_filter.mp hentry
    exact ⟨name,attr,KeyedMap.mem_entries.mp hmem,of_decide_eq_true hlist,rfl⟩
  · rintro ⟨name,attr,hlookup,hlist,rfl⟩
    exact ⟨⟨name,attr⟩,List.mem_filter.mpr ⟨KeyedMap.mem_entries.mpr hlookup,decide_eq_true hlist⟩,rfl⟩

/-- The group is this set of names, none of them assigned. -/
def unsetAs (body : List Structure) (names : Finset String) (group : List String) : Bool :=
  !group.any (assigned body) && group.toFinset = names

theorem unsetAs_groupOf {names : Finset String} {name : String} {listed : List String} :
    unsetAs body names (groupOf name listed) ↔
      (∀ m ∈ members name listed, ¬assigned body m) ∧ (members name listed).toFinset = names := by
  simp [unsetAs,mem_groupOf,toFinset_groupOf]

theorem about_unsetGroups {list : AttributeSchema → List String} {report : List String → Report}
    {subject : Finset String → Subject} {entries : List ((_ : String) × AttributeSchema)}
    (hsubject : ∀ group, (report group).subject = subject group.toFinset)
    (hinj : Function.Injective subject) (names : Finset String) :
    about (unsetGroups body list report [] entries) (subject names) =
      (firsts id [] (groupsMet list entries)).2.countP (unsetAs body names) := by
  rw [unsetGroups_eq,about_map,List.countP_filter]
  refine List.countP_congr fun group _ => ?_
  simp only [hsubject,hinj.eq_iff,unsetAs,Bool.and_eq_true,decide_eq_true_eq]
  exact and_comm

section
open Classical

variable {list : AttributeSchema → List String} {report : List String → Report}
  {subject : Finset String → Subject}
  (hsubject : ∀ group, (report group).subject = subject group.toFinset)
  (hinj : Function.Injective subject)
include hsubject hinj

/-- The report of a declared set of names is as it should be exactly if one sorted
list of these names is met. -/
theorem about_members_iff {name : String} {attr : AttributeSchema}
    (hlookup : schema.attributes.lookup name = some attr) (hlist : list attr ≠ []) :
    (about (unsetGroups body list report [] schema.attributes.entries)
      (subject (members name (list attr)).toFinset) =
        if ∀ m ∈ members name (list attr), ¬assigned body m then 1 else 0) ↔
      ∀ group ∈ groupsMet list schema.attributes.entries,
        ∀ group' ∈ groupsMet list schema.attributes.entries,
          unsetAs body (members name (list attr)).toFinset group →
          unsetAs body (members name (list attr)).toFinset group' → group = group' := by
  have hexists : (∃ group ∈ groupsMet list schema.attributes.entries,
      unsetAs body (members name (list attr)).toFinset group) ↔
        ∀ m ∈ members name (list attr), ¬assigned body m := by
    constructor
    · rintro ⟨group,hgroup,hunset⟩ m hm
      obtain ⟨name',attr',-,-,rfl⟩ := mem_groupsMet.mp hgroup
      obtain ⟨hunset,hnames⟩ := unsetAs_groupOf.mp hunset
      rw [← List.mem_toFinset,← hnames,List.mem_toFinset] at hm
      exact hunset m hm
    · intro hunset
      exact ⟨_,mem_groupsMet.mpr ⟨name,attr,hlookup,hlist,rfl⟩,unsetAs_groupOf.mpr ⟨hunset,rfl⟩⟩
  have honce := countP_eq_ite_iff (p:=unsetAs body (members name (list attr)).toFinset)
    (nodup_firsts [] (groupsMet list schema.attributes.entries))
  simp only [mem_firsts,hexists] at honce
  rw [about_unsetGroups hsubject hinj]
  exact honce

/-- Each set of names is reported as it should be exactly if it is declared with
one multiplicity of each member. -/
theorem groups_exact_iff :
    (∀ name attr, schema.attributes.lookup name = some attr → list attr ≠ [] →
      about (unsetGroups body list report [] schema.attributes.entries)
        (subject (members name (list attr)).toFinset) =
          if ∀ m ∈ members name (list attr), ¬assigned body m then 1 else 0) ↔
      AlikeGroups schema body list := by
  constructor
  · intro h name name' attr attr' hlookup hlookup' hlist hlist' hnames hunset
    have honly := (about_members_iff hsubject hinj hlookup hlist).mp (h name attr hlookup hlist)
    refine groupOf_eq_iff.mp (honly _ (mem_groupsMet.mpr ⟨name,attr,hlookup,hlist,rfl⟩) _
      (mem_groupsMet.mpr ⟨name',attr',hlookup',hlist',rfl⟩) (unsetAs_groupOf.mpr ⟨hunset,rfl⟩)
      (unsetAs_groupOf.mpr ⟨fun m hm => ?_,hnames.symm⟩))
    rw [← List.mem_toFinset,← hnames,List.mem_toFinset] at hm
    exact hunset m hm
  · intro h name attr hlookup hlist
    refine (about_members_iff hsubject hinj hlookup hlist).mpr
      fun group hgroup group' hgroup' hunset hunset' => ?_
    obtain ⟨name₁,attr₁,hlookup₁,hlist₁,rfl⟩ := mem_groupsMet.mp hgroup
    obtain ⟨name₂,attr₂,hlookup₂,hlist₂,rfl⟩ := mem_groupsMet.mp hgroup'
    obtain ⟨hunset,hnames⟩ := unsetAs_groupOf.mp hunset
    obtain ⟨-,hnames'⟩ := unsetAs_groupOf.mp hunset'
    exact groupOf_eq_iff.mpr
      (h name₁ name₂ attr₁ attr₂ hlookup₁ hlookup₂ hlist₁ hlist₂ (hnames.trans hnames'.symm) hunset)

end

/-! ### The checks as a whole -/

section
open Classical

theorem required_iff :
    (∀ name attr, schema.attributes.lookup name = some attr → attr.required →
      about (validateBlock schema body (some header)) (.missing name) =
        if ¬assigned body name ∧
          ¬(attr.isBlockLike ∧ (HasBlock body name ∨ HasDynamic body name)) then 1 else 0) ↔
      ∀ attr, schema.attributes.lookup "dynamic" = some attr → attr.required →
        attr.isBlockLike → ¬assigned body "dynamic" → HasBlock body "dynamic" →
        HasDynamic body "dynamic" := by
  simp only [about_validateBlock,Subject.part,reportsOf]
  constructor
  · intro h attr hlookup hrequired hlike hunassigned hblock
    have hcount := h "dynamic" attr hlookup hrequired
    rw [about_missingRequired hlookup hrequired,indicator_eq_iff] at hcount
    by_contra hdynamic
    exact (hcount.mp ⟨hunassigned,fun hand => hand.2.elim (·.2 rfl) hdynamic⟩).2
      ⟨hlike,.inl hblock⟩
  · intro h name attr hlookup hrequired
    rw [about_missingRequired hlookup hrequired,indicator_eq_iff]
    refine and_congr_right fun hunassigned => not_congr (and_congr_right fun hlike => ?_)
    constructor
    · exact fun hor => hor.imp_left And.left
    · rintro (hblock | hdynamic)
      · rcases eq_or_ne name "dynamic" with rfl | hne
        · exact .inr (h attr hlookup hrequired hlike hunassigned hblock)
        · exact .inl ⟨hblock,hne⟩
      · exact .inr hdynamic

theorem tooFew_iff :
    (∀ name nested, schema.blockTypes.lookup name = some nested →
      about (validateBlock schema body (some header)) (.tooFew name) =
        if ¬HasDynamic body name ∧ blockCount body name < nested.minItems then 1 else 0) ↔
      ∀ name nested, schema.blockTypes.lookup name = some nested → ¬HasDynamic body name →
        blockCount body name = 0 ∨ nested.minItems ≤ blockCount body name := by
  simp only [about_validateBlock,Subject.part,reportsOf]
  refine forall₃_congr fun name nested hlookup => ?_
  rw [about_tooFew hlookup,indicator_eq_iff,hasDynamic_iff]
  constructor
  · intro h hdynamic
    by_contra hcount
    rw [not_or,Nat.not_le] at hcount
    exact hcount.1 (h.mpr ⟨hdynamic,hcount.2⟩).2.1
  · intro h
    constructor
    · rintro ⟨hmin,hzero,hdynamic⟩
      refine ⟨fun hd => hdynamic ⟨hd,?_⟩,hzero ▸ hmin⟩
      rintro rfl
      exact hd.blockCount.ne' hzero
    · rintro ⟨hdynamic,hcount⟩
      have hzero := (h hdynamic).resolve_right (Nat.not_le.mpr hcount)
      exact ⟨Nat.zero_lt_of_lt hcount,hzero,fun hand => hdynamic hand.1⟩

theorem tooMany_iff :
    (∀ name nested, schema.blockTypes.lookup name = some nested →
      about (validateBlock schema body (some header)) (.tooMany name) =
        if ¬HasDynamic body name ∧ 0 < nested.maxItems ∧ nested.maxItems < blockCount body name
        then 1 else 0) ↔
      ∀ nested, schema.blockTypes.lookup "dynamic" = some nested → HasDynamic body "dynamic" →
        nested.maxItems = 0 ∨ blockCount body "dynamic" ≤ nested.maxItems := by
  simp only [about_validateBlock,Subject.part,reportsOf]
  constructor
  · intro h nested hlookup hdynamic
    have hcount := h "dynamic" nested hlookup
    rw [about_tooMany hlookup,indicator_eq_iff,hasDynamic_iff] at hcount
    by_contra hbound
    rw [not_or,Nat.not_le] at hbound
    exact (hcount.mp ⟨Nat.pos_of_ne_zero hbound.1,hbound.2,fun hand => hand.2 rfl⟩).1 hdynamic
  · intro h name nested hlookup
    rw [about_tooMany hlookup,indicator_eq_iff,hasDynamic_iff]
    constructor
    · rintro ⟨hmax,hcount,hdynamic⟩
      refine ⟨fun hd => hdynamic ⟨hd,?_⟩,hmax,hcount⟩
      rintro rfl
      rcases h nested hlookup hd with hzero | hle
      · exact hmax.ne' hzero
      · exact hcount.not_ge hle
    · rintro ⟨hdynamic,hmax,hcount⟩
      exact ⟨hmax,hcount,fun hand => hdynamic hand.1⟩

theorem conflicts_exact {a b : String} (ha : assigned body a) (hb : assigned body b) :
    about (validateBlock schema body (some header)) (.conflict s(a,b)) =
      if Lists schema (·.conflictsWith) a b ∨ Lists schema (·.conflictsWith) b a then 1 else 0 := by
  rw [about_validateBlock]
  refine about_conflict.trans ?_
  rw [countP_firsts,indicator_eq_iff,candidate_iff ha hb hb ha]
  exact and_iff_right List.not_mem_nil

theorem exactlyOnePairs_exact {a b : String} (hne : a ≠ b) (ha : assigned body a)
    (hb : assigned body b) :
    about (validateBlock schema body (some header)) (.exactlyOnePair s(a,b)) =
      if Lists schema (·.exactlyOneOf) a b ∨ Lists schema (·.exactlyOneOf) b a then 1 else 0 := by
  rw [about_validateBlock]
  refine about_exactlyOnePair.trans ?_
  have hab : notItself body a b := by simp [notItself,hb,hne.symm]
  have hba : notItself body b a := by simp [notItself,ha,hne]
  rw [countP_firsts,indicator_eq_iff,candidate_iff ha hb hab hba]
  exact and_iff_right List.not_mem_nil

end

/-- The checks report what the schema asks for exactly on the regular blocks. -/
theorem exact_iff_regular (schema : BlockSchema) (body : List Structure) (header : Range) :
    Exact schema body (validateBlock schema body (some header)) ↔ Regular schema body := by
  have hatLeast : _ ↔ AlikeGroups schema body (·.atLeastOneOf) := groups_exact_iff
    (fun group => show (Report.atLeastOne header group).subject = .atLeastOne group.toFinset from rfl)
    fun _ _ h => Subject.atLeastOne.inj h
  have hexactly : _ ↔ AlikeGroups schema body (·.exactlyOneOf) := groups_exact_iff
    (fun group => show (Report.exactlyOne header group).subject = .exactlyOne group.toFinset from rfl)
    fun _ _ h => Subject.exactlyOne.inj h
  constructor
  · intro h
    refine ⟨tooFew_iff.mp h.tooFew,tooMany_iff.mp h.tooMany,required_iff.mp h.required,
      hatLeast.mp fun name attr hlookup hlist => ?_,hexactly.mp fun name attr hlookup hlist => ?_⟩
    · rw [← h.atLeastOne name attr hlookup hlist,about_validateBlock]
      rfl
    · rw [← h.exactlyOne name attr hlookup hlist,about_validateBlock]
      rfl
  · intro h
    refine ⟨required_iff.mpr h.dynamicAttribute,tooFew_iff.mpr h.counts,
      tooMany_iff.mpr h.dynamicType,fun a b _ ha hb => conflicts_exact ha hb,
      fun a b hne ha hb => exactlyOnePairs_exact hne ha hb,fun name attr hlookup hlist => ?_,
      fun name attr hlookup hlist => ?_⟩
    · rw [about_validateBlock]
      exact hatLeast.mpr h.atLeastOne name attr hlookup hlist
    · rw [about_validateBlock]
      exact hexactly.mpr h.exactlyOne name attr hlookup hlist

/-- A block type that needs two blocks is not reported when it has one. -/
theorem oneOfTwo_unreported :
    ¬Exact { blockTypes := AList.singleton "rule" { minItems := 2 } }
      [.block "rule" []] (validateBlock { blockTypes := AList.singleton "rule" { minItems := 2 } }
        [.block "rule" []] (some ⟨⟨0,0⟩,⟨0,8⟩⟩)) := by
  intro h
  have hfew := h.tooFew "rule" { minItems := 2 } rfl
  rw [if_pos ⟨by rintro ⟨label,labels,hmem,-⟩; simp at hmem,by decide⟩] at hfew
  revert hfew
  decide

end SchemaValidation
end TerraformLs
