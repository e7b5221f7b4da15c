import TerraformLs.BlockRename
import TerraformLs.MovedBlocks

/-! References to converted blocks. An action converts some blocks and rewrites
some references; it is consistent when a reference is rewritten exactly if its
block is converted. -/
namespace TerraformLs

open CodeActions

/-- A block type that is converted to another one. -/
structure Rule where
  kind : String
  fromType : String
  toType : String

namespace Rule

/-- The label that has the type of a block of the name. -/
def label (rule : Rule) (name : String) : Spanned.Structure → Option Spanned.BlockLabel
  | .block _ ident (label::labels) _ =>
    if ident = rule.kind ∧ label.text = rule.fromType ∧ labels.head?.map (·.text) = some name then
      some label
    else none
  | _ => none

/-- The token that has the type in a reference to a block of the name. -/
def reference (rule : Rule) (name : String) : Spanned.Expression → Option Spanned.Span
  | .traversal _ (.variable span head) (.getAttr attrSpan attr :: operators) =>
    if rule.kind = "data" then
      match operators with
      | .getAttr _ next :: _ =>
        if head = "data" ∧ attr = rule.fromType ∧ next = name then some attrSpan else none
      | _ => none
    else if head = rule.fromType ∧ attr = name then some span else none
  | _ => none

theorem label_shape {rule : Rule} {name : String} {item : Spanned.Structure}
    {label : Spanned.BlockLabel} (h : rule.label name item = some label) :
    ∃ span next labels inner, item = .block span rule.kind (label::next::labels) inner ∧
      label.text = rule.fromType ∧ next.text = name := by
  cases item with
  | «attribute» keySpan key value => cases h
  | block span ident labels inner =>
    cases labels with
    | nil => cases h
    | cons first labels =>
      simp only [Rule.label] at h
      split_ifs at h with hblock
      obtain ⟨hident,htext,hname⟩ := hblock
      cases labels with
      | nil => cases hname
      | cons next labels =>
        rw [← Option.some.inj h,hident]
        exact ⟨span,next,labels,inner,rfl,htext,Option.some.inj hname⟩

theorem reference_resource {rule : Rule} (hkind : rule.kind ≠ "data") {name : String}
    {expr : Spanned.Expression} {span : Spanned.Span} (h : rule.reference name expr = some span) :
    ∃ whole attrSpan operators, expr = .traversal whole (.variable span rule.fromType)
      (.getAttr attrSpan name :: operators) := by
  unfold Rule.reference at h
  split at h
  · rw [if_neg hkind] at h
    split_ifs at h with hnames
    obtain ⟨rfl,rfl⟩ := hnames
    rw [Option.some.inj h]
    exact ⟨_,_,_,rfl⟩
  · cases h

theorem reference_data {rule : Rule} (hkind : rule.kind = "data") {name : String}
    {expr : Spanned.Expression} {span : Spanned.Span} (h : rule.reference name expr = some span) :
    ∃ headSpan, headToken expr = some headSpan ∧ span ∈ attrTokens expr := by
  unfold Rule.reference at h
  split at h
  · rename_i headSpan head attrSpan attr operators
    rw [if_pos hkind] at h
    split at h
    · split_ifs at h
      rw [← Option.some.inj h]
      exact ⟨headSpan,rfl,List.mem_cons_self⟩
    · cases h
  · cases h

variable (env : ActionEnvironment) (documents : KeyedMap Url SourceDocument)

/-- A block of the name has its label rewritten. -/
def BlockConverted (rule : Rule) (rewrites : List (Url × List TextEdit)) (dir : Path)
    (name : String) : Prop :=
  ∃ uri doc body, documents.lookup uri = some doc ∧ env.fs.parentDir uri = some dir ∧
    doc.body = some body ∧ ∃ item ∈ body, ∃ label ∈ rule.label name item,
      Rewritten (editsIn rewrites uri) doc.rope label.span ("\"" ++ rule.toType ++ "\"")

/-- A block of the name is taken for the conversion. -/
def Targets (rule : Rule) (takes : Url → Range → Prop) (dir : Path) (name : String) : Prop :=
  ∃ uri doc body, documents.lookup uri = some doc ∧ env.fs.parentDir uri = some dir ∧
    doc.body = some body ∧ ∃ item ∈ body, ∃ label ∈ rule.label name item, ∃ range,
      doc.rope.hclSpanToLspRange label.span = .ok range ∧ takes uri range

/-- The references of a module are rewritten exactly with their blocks. -/
def Consistent (rule : Rule) (rewrites : List (Url × List TextEdit)) (dir : Path) : Prop :=
  ∀ name uri doc body, documents.lookup uri = some doc → env.fs.parentDir uri = some dir →
    doc.body = some body → ∀ e ∈ Spanned.expressions body, ∀ span ∈ rule.reference name e,
      (Rewritten (editsIn rewrites uri) doc.rope span rule.toType ↔
        BlockConverted env documents rule rewrites dir name)

/-- Where the labels that are rewritten are those taken, so are the blocks. -/
theorem blockConverted_iff {rule : Rule} {rewrites : List (Url × List TextEdit)} {dir : Path}
    {name : String} {takes : Url → Range → Prop}
    (h : ∀ uri doc body, documents.lookup uri = some doc → env.fs.parentDir uri = some dir →
      doc.body = some body → ∀ item ∈ body, ∀ label ∈ rule.label name item,
        (Rewritten (editsIn rewrites uri) doc.rope label.span ("\"" ++ rule.toType ++ "\"") ↔
          ∃ range, doc.rope.hclSpanToLspRange label.span = .ok range ∧ takes uri range)) :
    rule.BlockConverted env documents rewrites dir name ↔
      rule.Targets env documents takes dir name := by
  constructor
  · rintro ⟨uri,doc,body,hdoc,hdir,hbody,item,hitem,label,hlabel,hrewritten⟩
    refine ⟨uri,doc,body,hdoc,hdir,hbody,item,hitem,label,hlabel,?_⟩
    exact (h uri doc body hdoc hdir hbody item hitem label hlabel).mp hrewritten
  · rintro ⟨uri,doc,body,hdoc,hdir,hbody,item,hitem,label,hlabel,htaken⟩
    refine ⟨uri,doc,body,hdoc,hdir,hbody,item,hitem,label,hlabel,?_⟩
    exact (h uri doc body hdoc hdir hbody item hitem label hlabel).mpr htaken

end Rule

namespace NullResource

def rule : Rule := ⟨"resource","null_resource","terraform_data"⟩

theorem nullBlock_of_label {item : Spanned.Structure} {name : String}
    {label : Spanned.BlockLabel} (h : rule.label name item = some label) :
    ∃ b, nullBlock item = some b ∧ b.label = label ∧ b.name = some name := by
  obtain ⟨span,next,labels,inner,rfl,htext,hname⟩ := Rule.label_shape h
  have htext : label.text = "null_resource" := htext
  exact ⟨⟨span,label,some next.text,inner⟩,by simp [nullBlock,rule,htext],rfl,by rw [hname]⟩

variable {env : ActionEnvironment} {supports : Option Path → Bool}
  {documents : KeyedMap Url SourceDocument} {primary : Url}

/-- Whether a request takes a token that stands for a name. -/
def Takes (env : ActionEnvironment) (supports : Option Path → Bool)
    (documents : KeyedMap Url SourceDocument) (primary : Url) (request : Request) (uri : Url)
    (name : String) (range : Range) : Prop :=
  visits env supports documents primary request uri = true ∧
    inFilter (focus documents primary request) name = true ∧ request.scope.takes range = true

theorem label_rewritten_iff {request : Request} {c : Conversion}
    (h : emitted env supports documents primary request = some c) {uri : Url}
    {doc : SourceDocument} {body : Spanned.Body} (hdoc : documents.lookup uri = some doc)
    (hbody : doc.body = some body) (hloc : Located doc.rope body) {item : Spanned.Structure}
    (hitem : item ∈ body) {name : String} {label : Spanned.BlockLabel}
    (hlabel : rule.label name item = some label) :
    Rewritten (editsIn c.rewrites uri) doc.rope label.span "\"terraform_data\"" ↔
      ∃ range, doc.rope.hclSpanToLspRange label.span = .ok range ∧
        Takes env supports documents primary request uri name range := by
  obtain ⟨b,hb,rfl,hname⟩ := nullBlock_of_label hlabel
  constructor
  · rintro ⟨e,he,hrange,htext⟩
    obtain ⟨doc',body',hdoc',hbody',hvisits,htakes,hscan⟩ := (mem_conversionEdits h).mp he
    cases hdoc.symm.trans hdoc'
    cases hbody.symm.trans hbody'
    obtain ⟨b',hb',hrange'⟩ := (mem_scan_label htext).mp hscan
    obtain ⟨hb',hfilter⟩ := List.mem_filter.mp hb'
    obtain ⟨item',hitem',hnull'⟩ := List.mem_filterMap.mp hb'
    have hsame := hloc.labels item hitem item' hitem' b.label (nullBlock_label hb) b'.label
      (nullBlock_label hnull') e.range.start (hclSpanToLspRange_start hrange)
        (hclSpanToLspRange_start hrange')
    rw [← hsame,hb] at hnull'
    cases hnull'
    rw [hname] at hfilter
    exact ⟨e.range,hrange,hvisits,hfilter,htakes⟩
  · rintro ⟨range,hrange,hvisits,hfilter,htakes⟩
    refine ⟨⟨range,"\"terraform_data\""⟩,?_,hrange,rfl⟩
    apply (mem_conversionEdits h).mpr
    refine ⟨doc,body,hdoc,hbody,hvisits,htakes,(mem_scan_label rfl).mpr ⟨b,?_,hrange⟩⟩
    apply List.mem_filter.mpr
    exact ⟨List.mem_filterMap.mpr ⟨item,hitem,hb⟩,by rw [hname]; exact hfilter⟩

theorem reference_rewritten_iff {request : Request} {c : Conversion}
    (h : emitted env supports documents primary request = some c) {uri : Url}
    {doc : SourceDocument} {body : Spanned.Body} (hdoc : documents.lookup uri = some doc)
    (hbody : doc.body = some body) (hloc : Located doc.rope body) {expr : Spanned.Expression}
    (hexpr : expr ∈ Spanned.expressions body) {name : String} {span : Spanned.Span}
    (href : rule.reference name expr = some span) :
    Rewritten (editsIn c.rewrites uri) doc.rope span "terraform_data" ↔
      expr ∈ Spanned.walkExpressions body ∧ ∃ range,
        doc.rope.hclSpanToLspRange span = .ok range ∧
          Takes env supports documents primary request uri name range := by
  obtain ⟨whole,attrSpan,operators,hshape⟩ := Rule.reference_resource (by decide) href
  have hshape : expr = .traversal whole (.variable span "null_resource")
      (.getAttr attrSpan name :: operators) := hshape
  subst hshape
  constructor
  · rintro ⟨e,he,hrange,htext⟩
    obtain ⟨doc',body',hdoc',hbody',hvisits,htakes,hscan⟩ := (mem_conversionEdits h).mp he
    cases hdoc.symm.trans hdoc'
    cases hbody.symm.trans hbody'
    obtain ⟨span',headSpan,operators',name',attrs,hwalk,hattrs,hfilter,hrange'⟩ :=
      (mem_scan_head htext).mp hscan
    have hsame := hloc.heads _ hexpr _ (Spanned.walkExpressions_subset body hwalk) span rfl
      headSpan rfl e.range.start (hclSpanToLspRange_start hrange) (hclSpanToLspRange_start hrange')
    rw [← hsame] at hwalk
    obtain ⟨-,-,hoperators⟩ := Spanned.Expression.traversal.inj hsame
    rw [← hoperators] at hattrs
    obtain ⟨hname,-⟩ := List.cons_eq_cons.mp hattrs
    have hname : name = name' := hname
    rw [← hname] at hfilter
    exact ⟨hwalk,e.range,hrange,hvisits,hfilter,htakes⟩
  · rintro ⟨hwalk,range,hrange,hvisits,hfilter,htakes⟩
    refine ⟨⟨range,"terraform_data"⟩,?_,hrange,rfl⟩
    exact (mem_conversionEdits h).mpr ⟨doc,body,hdoc,hbody,hvisits,htakes,(mem_scan_head rfl).mpr
      ⟨whole,span,_,name,_,hwalk,rfl,hfilter,hrange⟩⟩

end NullResource

namespace BlockRename

def BlockRenameSpec.rule (spec : BlockRenameSpec) : Rule :=
  ⟨spec.blockKind,spec.fromType,resolvedTo spec⟩

/-! What holds of the table of rules. -/

/-- Two rules for one type are for different kinds of blocks and agree on the new type. -/
theorem table_pairwise : allBlockRenames.Pairwise fun a b => a.fromType = b.fromType →
    a.blockKind ≠ b.blockKind ∧ resolvedTo a = resolvedTo b := by decide +kernel

/-- The types are written in letters, digits and underscores. -/
theorem types_plain {spec : BlockRenameSpec} (h : spec ∈ allBlockRenames) :
    ∀ c ∈ spec.fromType.toList ++ spec.toType.toList, c.isAlphanum ∨ c = '_' := by
  have hall : allBlockRenames.all (fun spec => (spec.fromType.toList ++ spec.toType.toList).all
      fun c => c.isAlphanum || c == '_') = true := by decide +kernel
  intro c hc
  simpa using List.all_eq_true.mp (List.all_eq_true.mp hall spec h) c hc

theorem resolvedTo_plain {spec : BlockRenameSpec} (h : spec ∈ allBlockRenames) :
    ∀ c ∈ (resolvedTo spec).toList, c.isAlphanum ∨ c = '_' := by
  have hsuffix : "_v1".toList.all (fun c => c.isAlphanum || c == '_') = true := by decide
  intro c hc
  unfold resolvedTo at hc
  split at hc
  · rw [String.toList_append,List.mem_append] at hc
    rcases hc with hc | hc
    · exact types_plain h c (List.mem_append_left _ hc)
    · simpa using List.all_eq_true.mp hsuffix c hc
  · exact types_plain h c (List.mem_append_right _ hc)

theorem resolvedTo_of_fromType {spec spec' : BlockRenameSpec} (hspec : spec ∈ allBlockRenames)
    (hspec' : spec' ∈ allBlockRenames) (h : spec.fromType = spec'.fromType) :
    resolvedTo spec = resolvedTo spec' := by
  let agree : BlockRenameSpec → BlockRenameSpec → Prop := fun a b =>
    a.fromType = b.fromType → resolvedTo a = resolvedTo b
  have hpair : allBlockRenames.Pairwise agree := table_pairwise.imp fun hab hfrom => (hab hfrom).2
  have hsymm : Std.Symm agree := ⟨fun a b hab hfrom => (hab hfrom.symm).symm⟩
  exact hpair.forall_of_forall (fun _ _ _ => rfl) hspec hspec' h

theorem eq_of_table {e e' : BlockRenameSpec × ℕ} (he : e ∈ allBlockRenames.zipIdx)
    (he' : e' ∈ allBlockRenames.zipIdx) (hfrom : e.1.fromType = e'.1.fromType)
    (hkind : e.1.blockKind = e'.1.blockKind) : e = e' := by
  obtain ⟨hi,hspec⟩ := List.mem_zipIdx' he
  obtain ⟨hj,hspec'⟩ := List.mem_zipIdx' he'
  have hpair := List.pairwise_iff_getElem.mp table_pairwise
  rw [hspec,hspec'] at hfrom hkind
  rcases Nat.lt_trichotomy e.2 e'.2 with hij | hij | hij
  · exact absurd hkind (hpair e.2 e'.2 hi hj hij hfrom).1
  · exact Prod.ext (by simp [hspec,hspec',hij]) hij
  · exact absurd hkind.symm (hpair e'.2 e.2 hj hi hij hfrom.symm).1

theorem byKindLabel_zipIdx {e : BlockRenameSpec × ℕ} (he : e ∈ allBlockRenames.zipIdx) :
    byKindLabel e.1.blockKind e.1.fromType = some e := by
  have hmem : e ∈ allBlockRenames.zipIdx.filter fun e' =>
      e'.1.blockKind = e.1.blockKind ∧ e'.1.fromType = e.1.fromType :=
    List.mem_filter.mpr ⟨he,by simp⟩
  rw [byKindLabel,List.getLast?_eq_some_getLast (List.ne_nil_of_mem hmem)]
  obtain ⟨hlast,hsame⟩ := List.mem_filter.mp (List.getLast_mem (List.ne_nil_of_mem hmem))
  have hboth := of_decide_eq_true hsame
  exact congrArg some (eq_of_table hlast he hboth.2 hboth.1)

theorem mem_of_byKindLabel {kind label : String} {spec : BlockRenameSpec} {idx : ℕ}
    (h : byKindLabel kind label = some (spec,idx)) :
    spec ∈ allBlockRenames ∧ spec.blockKind = kind ∧ spec.fromType = label := by
  obtain ⟨hmem,hspec⟩ := List.mem_filter.mp (List.mem_of_getLast? h)
  refine ⟨(List.mem_zipIdx' hmem).2 ▸ List.getElem_mem _,?_⟩
  simpa using hspec

theorem mem_of_byFrom {head : String} {spec : BlockRenameSpec} {idx : ℕ}
    (h : byFrom head = some (spec,idx)) : spec ∈ allBlockRenames ∧ spec.fromType = head := by
  obtain ⟨hmem,hspec⟩ := List.mem_filter.mp (List.mem_of_getLast? h)
  refine ⟨(List.mem_zipIdx' hmem).2 ▸ List.getElem_mem _,?_⟩
  simpa using hspec

/-- A type is no label in quotes. -/
theorem resolvedTo_ne_quoted {spec : BlockRenameSpec} (h : spec ∈ allBlockRenames) (text : String) :
    resolvedTo spec ≠ "\"" ++ text ++ "\"" := by
  intro heq
  have hplain := resolvedTo_plain h '"' (by rw [heq]; simp)
  revert hplain
  decide

/-! What the scans collect. -/

theorem mem_scanBlockRewrites {rope : Rope} {supported : ℕ → Bool} {body : Spanned.Body}
    {idx : ℕ} {name : String} {e : TextEdit} :
    (idx,name,e) ∈ scanBlockRewrites rope supported body ↔
      ∃ span ident label next labels inner spec,
        .block span ident (label::next::labels) inner ∈ body ∧ next.text = name ∧
          byKindLabel ident label.text = some (spec,idx) ∧ supported idx = true ∧
            rope.hclSpanToLspRange label.span = .ok e.range ∧
              e.newText = "\"" ++ resolvedTo spec ++ "\"" := by
  constructor
  · intro h
    obtain ⟨item,hitem,he⟩ := List.mem_flatMap.mp h
    cases item with
    | «attribute» keySpan key value => cases he
    | block span ident labels inner =>
      cases labels with
      | nil => cases he
      | cons label labels =>
        cases labels with
        | nil =>
          cases hrule : byKindLabel ident label.text <;> simp [hrule] at he
        | cons next labels =>
          cases hrule : byKindLabel ident label.text with
          | none => simp [hrule] at he
          | some found =>
            obtain ⟨spec,idx'⟩ := found
            simp only [hrule,List.head?_cons] at he
            split_ifs at he with hsupported
            · obtain ⟨e',he',heq⟩ := List.mem_map.mp he
              cases heq
              obtain ⟨hrange,htext⟩ := mem_tokenEdit.mp he'
              exact ⟨span,ident,label,next,labels,inner,spec,hitem,rfl,hrule,hsupported,hrange,htext⟩
            · cases he
  · rintro ⟨span,ident,label,next,labels,inner,spec,hitem,rfl,hrule,hsupported,hrange,htext⟩
    apply List.mem_flatMap.mpr
    refine ⟨_,hitem,?_⟩
    simp only [hrule,List.head?_cons,hsupported,if_true]
    exact List.mem_map.mpr ⟨e,mem_tokenEdit.mpr ⟨hrange,htext⟩,rfl⟩

theorem mem_scanRefRewrites {rope : Rope} {supported : ℕ → Bool}
    {rules : String → Option (BlockRenameSpec × ℕ)} {body : Spanned.Body} {idx : ℕ}
    {e : TextEdit} : (idx,e) ∈ scanRefRewrites rope supported rules body ↔
      ∃ whole span head operators spec,
        .traversal whole (.variable span head) operators ∈ Spanned.walkExpressions body ∧
          rules head = some (spec,idx) ∧ supported idx = true ∧ getAttrs operators ≠ [] ∧
            rope.hclSpanToLspRange span = .ok e.range ∧ e.newText = resolvedTo spec := by
  constructor
  · intro h
    obtain ⟨expr,hexpr,he⟩ := List.mem_flatMap.mp h
    unfold refRewrites at he
    split at he
    · rename_i whole span head operators
      cases hrule : rules head with
      | none => simp [hrule] at he
      | some found =>
        obtain ⟨spec,idx'⟩ := found
        simp only [hrule] at he
        split_ifs at he with hsupported
        · obtain ⟨e',he',heq⟩ := List.mem_map.mp he
          cases heq
          obtain ⟨hrange,htext⟩ := mem_tokenEdit.mp he'
          exact ⟨whole,span,head,operators,spec,hexpr,hrule,hsupported.1,hsupported.2,hrange,htext⟩
        · cases he
    · cases he
  · rintro ⟨whole,span,head,operators,spec,hexpr,hrule,hsupported,hattrs,hrange,htext⟩
    apply List.mem_flatMap.mpr
    refine ⟨_,hexpr,?_⟩
    simp only [refRewrites,hrule]
    rw [if_pos ⟨hsupported,hattrs⟩]
    exact List.mem_map.mpr ⟨e,mem_tokenEdit.mpr ⟨hrange,htext⟩,rfl⟩

section requests

variable (env : ActionEnvironment) (supported : Path → ℕ → Bool)
  (documents : KeyedMap Url SourceDocument) (primary : Url)

/-- The block that a request at a position is about. -/
def focusBlock (cursor : Position) : Option MatchedBlock := do
  let doc ← documents.lookup primary
  let body ← doc.body
  body.findSome? (matchedBlock doc.rope cursor)

/-- Whether a request takes the label of a block. -/
def TakesLabel (request : Request) (dir : Path) (uri : Url) (kind fromType : String)
    (range : Range) : Prop :=
  match request with
  | .inScope scope => (∃ doc, (uri,doc) ∈ docsInScope env documents primary scope) ∧
      (∃ spec idx, byKindLabel kind fromType = some (spec,idx) ∧ supported dir idx = true) ∧
        scope.takes range = true
  | .atCursor cursor =>
    uri = primary ∧ ∃ b, focusBlock documents primary cursor = some b ∧ b.labelRange = range

/-- Whether a request takes a reference to a name of a type. -/
def TakesReference (request : Request) (dir : Path) (uri : Url) (fromType name : String)
    (range : Range) : Prop :=
  match request with
  | .inScope scope => (∃ doc, (uri,doc) ∈ docsInScope env documents primary scope) ∧
      (∃ spec idx, byFrom fromType = some (spec,idx) ∧ supported dir idx = true) ∧
        scope.takes range = true
  | .atCursor cursor => uri = primary ∧ ∃ b, focusBlock documents primary cursor = some b ∧
      b.spec.fromType = fromType ∧ b.name = name

end requests

section conversions

variable {env : ActionEnvironment} {supported : Path → ℕ → Bool} {admits18 : Path → Bool}
  {documents : KeyedMap Url SourceDocument} {primary : Url}

theorem visit_edits {scope : Scope} {uri : Url} {doc : SourceDocument} {body : Spanned.Body}
    {dir : Path} (hbody : doc.body = some body) (hdir : env.fs.parentDir uri = some dir)
    {e : TextEdit} : (∃ plan, visit env supported scope (uri,doc) = some plan ∧ e ∈ plan.edits) ↔
      scope.takes e.range = true ∧
        ((∃ idx name, (idx,name,e) ∈ scanBlockRewrites doc.rope (supported dir) body) ∨
          ∃ idx, (idx,e) ∈ scanRefRewrites doc.rope (supported dir) byFrom body) := by
  have hedits : ∀ plan : DocumentPlan,
      plan = ⟨uri,dir,(scanBlockRewrites doc.rope (supported dir) body).filter
        (scope.takes ·.2.2.range),((scanRefRewrites doc.rope (supported dir) byFrom body).map
          Prod.snd).filter (scope.takes ·.range)⟩ → (e ∈ plan.edits ↔ scope.takes e.range = true ∧
        ((∃ idx name, (idx,name,e) ∈ scanBlockRewrites doc.rope (supported dir) body) ∨
          ∃ idx, (idx,e) ∈ scanRefRewrites doc.rope (supported dir) byFrom body)) := by
    rintro plan rfl
    simp only [DocumentPlan.edits,List.mem_append,List.mem_map,List.mem_filter,Prod.exists]
    constructor
    · rintro (⟨idx,name,e',⟨hmem,htakes⟩,rfl⟩ | ⟨⟨idx,e',hmem,rfl⟩,htakes⟩)
      · exact ⟨htakes,.inl ⟨idx,name,hmem⟩⟩
      · exact ⟨htakes,.inr ⟨idx,hmem⟩⟩
    · rintro ⟨htakes,⟨idx,name,hmem⟩ | ⟨idx,hmem⟩⟩
      · exact .inl ⟨idx,name,e,⟨hmem,htakes⟩,rfl⟩
      · exact .inr ⟨⟨idx,e,hmem,rfl⟩,htakes⟩
  constructor
  · rintro ⟨plan,hplan,he⟩
    simp only [visit,hbody,hdir,Option.bind_eq_bind,Option.bind_some] at hplan
    split_ifs at hplan
    exact (hedits plan (Option.some.inj hplan).symm).mp he
  · rintro ⟨htakes,hmem⟩
    have hsome : ¬((scanBlockRewrites doc.rope (supported dir) body).filter
        (scope.takes ·.2.2.range) = [] ∧
          (scanRefRewrites doc.rope (supported dir) byFrom body).map Prod.snd = []) := by
      rintro ⟨hblocks,hrefs⟩
      rcases hmem with ⟨idx,name,hmem⟩ | ⟨idx,hmem⟩
      · have hkept : (idx,name,e) ∈ (scanBlockRewrites doc.rope (supported dir) body).filter
            (scope.takes ·.2.2.range) := List.mem_filter.mpr ⟨hmem,htakes⟩
        rw [hblocks] at hkept
        cases hkept
      · have hkept := List.mem_map_of_mem (f := Prod.snd) hmem
        rw [hrefs] at hkept
        cases hkept
    simp only [visit,hbody,hdir,Option.bind_eq_bind,Option.bind_some,if_neg hsome]
    exact ⟨_,rfl,(hedits _ rfl).mpr ⟨htakes,hmem⟩⟩

/-- The edits of an action of a scope in a document. -/
theorem mem_scopedEdits {scope : Scope} {c : RenameConversion}
    (h : emitted env supported admits18 documents primary (.inScope scope) = some c) {uri : Url}
    {doc : SourceDocument} {body : Spanned.Body} {dir : Path}
    (hdoc : documents.lookup uri = some doc) (hbody : doc.body = some body)
    (hdir : env.fs.parentDir uri = some dir) {e : TextEdit} : e ∈ editsIn c.rewrites uri ↔
      (∃ doc, (uri,doc) ∈ docsInScope env documents primary scope) ∧ scope.takes e.range = true ∧
        ((∃ idx name, (idx,name,e) ∈ scanBlockRewrites doc.rope (supported dir) body) ∨
          ∃ idx, (idx,e) ∈ scanRefRewrites doc.rope (supported dir) byFrom body) := by
  have hrewrites : c.rewrites = ((plans env supported documents primary scope).map
      fun plan => (plan.uri,plan.edits)).filter (·.2 ≠ []) := by
    simp only [emitted,scopedConversion] at h
    split_ifs at h
    rw [← Option.some.inj h]
  have huri : ∀ {uri' : Url} {doc' : SourceDocument} {plan : DocumentPlan},
      visit env supported scope (uri',doc') = some plan → plan.uri = uri' := by
    intro uri' doc' plan hplan
    cases hbody' : doc'.body with
    | none => simp [visit,hbody'] at hplan
    | some body' =>
      cases hdir' : env.fs.parentDir uri' with
      | none => simp [visit,hbody',hdir'] at hplan
      | some dir' =>
        simp only [visit,hbody',hdir',Option.bind_eq_bind,Option.bind_some] at hplan
        split_ifs at hplan
        rw [← Option.some.inj hplan]
  rw [mem_editsIn,hrewrites]
  constructor
  · rintro ⟨edits,hmem,he⟩
    obtain ⟨hmem,-⟩ := List.mem_filter.mp hmem
    obtain ⟨plan,hplan,heq⟩ := List.mem_map.mp hmem
    cases heq
    obtain ⟨⟨uri',doc'⟩,hscope,hvisit⟩ := List.mem_filterMap.mp hplan
    rw [huri hvisit] at hdoc hdir ⊢
    cases hdoc.symm.trans (lookup_of_mem_docsInScope hscope)
    exact ⟨⟨doc,hscope⟩,(visit_edits hbody hdir).mp ⟨plan,hvisit,he⟩⟩
  · rintro ⟨⟨doc',hscope⟩,hedit⟩
    cases hdoc.symm.trans (lookup_of_mem_docsInScope hscope)
    obtain ⟨plan,hvisit,he⟩ := (visit_edits hbody hdir).mpr hedit
    refine ⟨plan.edits,List.mem_filter.mpr ⟨List.mem_map.mpr ⟨plan,?_,?_⟩,?_⟩,he⟩
    · exact List.mem_filterMap.mpr ⟨_,hscope,hvisit⟩
    · rw [huri hvisit]
    · simpa using List.ne_nil_of_mem he

theorem matchedBlock_shape {rope : Rope} {cursor : Position} {item : Spanned.Structure}
    {b : MatchedBlock} (h : matchedBlock rope cursor item = some b) :
    ∃ span ident label next labels inner, item = .block span ident (label::next::labels) inner ∧
      byKindLabel ident label.text = some (b.spec,b.idx) ∧ next.text = b.name ∧
        rope.hclSpanToLspRange label.span = .ok b.labelRange := by
  cases item with
  | «attribute» keySpan key value => cases h
  | block span ident labels inner =>
    cases labels with
    | nil => cases h
    | cons label labels =>
      cases hrule : byKindLabel ident label.text with
      | none => simp [matchedBlock,hrule] at h
      | some found =>
        obtain ⟨spec,idx⟩ := found
        cases hblock : rope.hclSpanToLspRange span with
        | error err => simp [matchedBlock,hrule,hblock,Except.toOption] at h
        | ok blockRange =>
          cases labels with
          | nil => simp [matchedBlock,hrule,hblock,Except.toOption] at h
          | cons next labels =>
            cases hlabel : rope.hclSpanToLspRange label.span with
            | error err => simp [matchedBlock,hrule,hblock,hlabel,Except.toOption] at h
            | ok labelRange =>
              simp only [matchedBlock,hrule,hblock,hlabel,Except.toOption,Option.bind_eq_bind,
                Option.bind_some,List.head?_cons] at h
              split_ifs at h
              rw [← Option.some.inj h]
              exact ⟨span,ident,label,next,labels,inner,rfl,hrule,rfl,hlabel⟩

/-- What the conversion of one block edits. -/
theorem emitted_cursor {cursor : Position} {c : RenameConversion}
    (h : emitted env supported admits18 documents primary (.atCursor cursor) = some c) :
    ∃ doc body dir b, documents.lookup primary = some doc ∧ doc.body = some body ∧
      env.fs.parentDir primary = some dir ∧ focusBlock documents primary cursor = some b ∧
        supported dir b.idx = true ∧ (∃ item ∈ body, matchedBlock doc.rope cursor item = some b) ∧
          c.rewrites = [(primary,⟨b.labelRange,"\"" ++ resolvedTo b.spec ++ "\""⟩ ::
            (instanceRefs doc.rope (supported dir) b body).map Prod.snd)] ∧
          c.renamesByModule = Multimap.pushAll ∅ (if b.spec.isResource then
            [(dir,b.idx,b.name,pendingKind (admits18 dir) b.spec)] else []) := by
  cases hdoc : documents.lookup primary with
  | none => simp [emitted,makeReplaceBlockAtCursor,hdoc] at h
  | some doc =>
    cases hbody : doc.body with
    | none => simp [emitted,makeReplaceBlockAtCursor,hdoc,hbody] at h
    | some body =>
      cases hdir : env.fs.parentDir primary with
      | none => simp [emitted,makeReplaceBlockAtCursor,hdoc,hdir] at h
      | some dir =>
        cases hb : body.findSome? (matchedBlock doc.rope cursor) with
        | none => simp [emitted,makeReplaceBlockAtCursor,hdoc,hbody,hdir,hb] at h
        | some b =>
          simp only [emitted,makeReplaceBlockAtCursor,hdoc,hbody,hdir,hb,Option.bind_eq_bind,
            Option.bind_some] at h
          by_cases hsupported : supported dir b.idx = true
          · rw [if_pos hsupported] at h
            rw [← Option.some.inj h]
            obtain ⟨item,hitem,hmatched⟩ := List.exists_of_findSome?_eq_some hb
            exact ⟨doc,body,dir,b,rfl,hbody,rfl,by simp [focusBlock,hdoc,hbody,hb],hsupported,
              ⟨item,hitem,hmatched⟩,rfl,rfl⟩
          · rw [if_neg hsupported] at h
            cases h

/-- The name filed under a position is that of the traversal that starts there. -/
theorem nameByPos_iff {rope : Rope} {body : Spanned.Body} (hloc : Located rope body)
    {fromType name : String} {start : Position} :
    nameByPos rope fromType body start = some name ↔
      ∃ expr ∈ Spanned.walkExpressions body, nameAt rope fromType expr = some (start,name) := by
  have hhead : ∀ {expr : Spanned.Expression} {pos : Position} {text : String},
      nameAt rope fromType expr = some (pos,text) → ∃ span, headToken expr = some span ∧
        rope.byteOffsetToLspPosition span.1 = .ok pos := by
    intro expr pos text hname
    unfold nameAt at hname
    split at hname
    · rename_i whole span head operators
      split_ifs at hname
      split at hname
      · rename_i hpos
        cases hname
        exact ⟨span,rfl,hpos⟩
      · cases hname
    · cases hname
  constructor
  · intro h
    obtain ⟨found,hlast,hfound⟩ := Option.map_eq_some_iff.mp h
    obtain ⟨hmem,hstart⟩ := List.mem_filter.mp (List.mem_of_getLast? hlast)
    obtain ⟨expr,hexpr,hname⟩ := List.mem_filterMap.mp hmem
    refine ⟨expr,hexpr,?_⟩
    rw [hname,← hfound,← (decide_eq_true_eq.mp hstart)]
  · rintro ⟨expr,hexpr,hname⟩
    have hmem : (start,name) ∈ ((Spanned.walkExpressions body).filterMap
        (nameAt rope fromType)).filter (·.1 = start) :=
      List.mem_filter.mpr ⟨List.mem_filterMap.mpr ⟨expr,hexpr,hname⟩,by simp⟩
    cases hlast : (((Spanned.walkExpressions body).filterMap
        (nameAt rope fromType)).filter (·.1 = start)).getLast? with
    | none =>
      rw [List.getLast?_eq_none_iff.mp hlast] at hmem
      cases hmem
    | some found =>
      obtain ⟨hfound,hstart⟩ := List.mem_filter.mp (List.mem_of_getLast? hlast)
      obtain ⟨expr',hexpr',hname'⟩ := List.mem_filterMap.mp hfound
      obtain ⟨span,hspan,hpos⟩ := hhead hname
      obtain ⟨span',hspan',hpos'⟩ := hhead hname'
      rw [decide_eq_true_eq.mp hstart] at hpos'
      have hsame := hloc.heads expr (Spanned.walkExpressions_subset body hexpr) expr'
        (Spanned.walkExpressions_subset body hexpr') span hspan span' hspan' start hpos hpos'
      rw [← hsame,hname] at hname'
      rw [nameByPos,hlast,← Option.some.inj hname']
      rfl

theorem mem_instanceRefs {rope : Rope} {body : Spanned.Body} (hloc : Located rope body)
    {supported : ℕ → Bool} {b : MatchedBlock} {idx : ℕ} {e : TextEdit} :
    (idx,e) ∈ instanceRefs rope supported b body ↔ idx = b.idx ∧ supported b.idx = true ∧
      ∃ whole span operators, .traversal whole (.variable span b.spec.fromType) operators ∈
        Spanned.walkExpressions body ∧ (getAttrs operators).head?.map Prod.snd = some b.name ∧
          rope.hclSpanToLspRange span = .ok e.range ∧ e.newText = resolvedTo b.spec := by
  rw [instanceRefs,filterRefsByName,List.mem_filter,mem_scanRefRewrites,decide_eq_true_eq,
    nameByPos_iff hloc]
  constructor
  · rintro ⟨⟨whole,span,head,operators,spec,hwalk,hrule,hsupported,-,hrange,htext⟩,
      expr,hexpr,hname⟩
    split_ifs at hrule with hhead
    cases hrule
    rw [hhead] at hwalk
    refine ⟨rfl,hsupported,whole,span,operators,hwalk,?_,hrange,htext⟩
    unfold nameAt at hname
    split at hname
    · rename_i whole' span' head' operators'
      split_ifs at hname
      split at hname
      · rename_i attrSpan name start hattrs hpos
        cases hname
        have hsame := hloc.heads _ (Spanned.walkExpressions_subset body hwalk) _
          (Spanned.walkExpressions_subset body hexpr) span rfl span' rfl e.range.start
            (hclSpanToLspRange_start hrange) hpos
        obtain ⟨-,-,hoperators⟩ := Spanned.Expression.traversal.inj hsame
        rw [hoperators,hattrs]
        rfl
      · cases hname
    · cases hname
  · rintro ⟨rfl,hsupported,whole,span,operators,hwalk,hname,hrange,htext⟩
    cases hattrs : getAttrs operators with
    | nil => simp [hattrs] at hname
    | cons first others =>
      obtain ⟨attrSpan,name⟩ := first
      simp only [hattrs,List.head?_cons,Option.map_some,Option.some.injEq] at hname
      refine ⟨⟨whole,span,_,operators,b.spec,hwalk,if_pos rfl,hsupported,by simp [hattrs],hrange,
        htext⟩,_,hwalk,?_⟩
      simp [nameAt,hattrs,hclSpanToLspRange_start hrange,hname]

end conversions

end BlockRename
end TerraformLs
