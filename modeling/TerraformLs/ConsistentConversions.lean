import TerraformLs.ConversionReferences

/-! The conversions of block types whose references follow their blocks: what
each request rewrites, and when the two agree. -/
namespace TerraformLs

open CodeActions

namespace BlockRename

variable {env : ActionEnvironment} {supported : Path → ℕ → Bool} {admits18 : Path → Bool}
  {documents : KeyedMap Url SourceDocument} {primary : Url}

theorem editsIn_singleton {primary uri : Url} {edits : List TextEdit} {e : TextEdit} :
    e ∈ editsIn [(primary,edits)] uri ↔ uri = primary ∧ e ∈ edits := by
  rw [mem_editsIn]
  constructor
  · rintro ⟨edits',hmem,he⟩
    cases List.mem_singleton.mp hmem
    exact ⟨rfl,he⟩
  · rintro ⟨rfl,he⟩
    exact ⟨edits,List.mem_singleton_self _,he⟩

/-- The rule that is found for the label of a block. -/
theorem byKindLabel_of_mem {spec : BlockRenameSpec} (hspec : spec ∈ allBlockRenames) :
    ∃ idx, byKindLabel spec.blockKind spec.fromType = some (spec,idx) := by
  obtain ⟨idx,hidx⟩ := List.mem_iff_getElem?.mp hspec
  exact ⟨idx,byKindLabel_zipIdx (e:=(spec,idx)) (List.mem_zipIdx_iff_getElem?.mpr hidx)⟩

theorem label_of_mem {spec : BlockRenameSpec} {name : String} {item : Spanned.Structure}
    {label : Spanned.BlockLabel} (h : spec.rule.label name item = some label) :
    ∃ span next labels inner, item = .block span spec.blockKind (label::next::labels) inner ∧
      label.text = spec.fromType ∧ next.text = name := Rule.label_shape h

theorem label_rewritten_iff {request : Request} {c : RenameConversion}
    (h : emitted env supported admits18 documents primary request = some c) {uri : Url}
    {doc : SourceDocument} {body : Spanned.Body} {dir : Path}
    (hdoc : documents.lookup uri = some doc) (hbody : doc.body = some body)
    (hdir : env.fs.parentDir uri = some dir) (hloc : Located doc.rope body)
    {item : Spanned.Structure} (hitem : item ∈ body) {spec : BlockRenameSpec}
    (hspec : spec ∈ allBlockRenames) {name : String} {label : Spanned.BlockLabel}
    (hlabel : spec.rule.label name item = some label) :
    Rewritten (editsIn c.rewrites uri) doc.rope label.span ("\"" ++ resolvedTo spec ++ "\"") ↔
      ∃ range, doc.rope.hclSpanToLspRange label.span = .ok range ∧
        TakesLabel env supported documents primary request dir uri spec.blockKind spec.fromType
          range := by
  obtain ⟨span,next,labels,inner,rfl,htype,hname⟩ := label_of_mem hlabel
  obtain ⟨idx,hidx⟩ := byKindLabel_of_mem hspec
  cases request with
  | inScope scope =>
    constructor
    · rintro ⟨e,he,hrange,htext⟩
      obtain ⟨hscope,htakes,hedit⟩ := (mem_scopedEdits h hdoc hbody hdir).mp he
      rcases hedit with ⟨idx',name',hmem⟩ | ⟨idx',hmem⟩
      · obtain ⟨span',ident',label',next',labels',inner',spec',hitem',-,hrule,hsupported,hrange',-⟩ :=
          mem_scanBlockRewrites.mp hmem
        have hsame := hloc.labels _ hitem _ hitem' label rfl label' rfl e.range.start
          (hclSpanToLspRange_start hrange) (hclSpanToLspRange_start hrange')
        cases hsame
        rw [htype,hidx] at hrule
        cases hrule
        exact ⟨e.range,hrange,hscope,⟨spec,idx,hidx,hsupported⟩,htakes⟩
      · obtain ⟨whole,span',head,operators,spec',-,hrule,-,-,-,hother⟩ := mem_scanRefRewrites.mp hmem
        rw [htext] at hother
        exact absurd hother.symm (resolvedTo_ne_quoted (mem_of_byFrom hrule).1 _)
    · rintro ⟨range,hrange,hscope,⟨spec',idx',hrule,hsupported⟩,htakes⟩
      rw [hidx] at hrule
      cases hrule
      refine ⟨⟨range,_⟩,?_,hrange,rfl⟩
      apply (mem_scopedEdits h hdoc hbody hdir).mpr
      refine ⟨hscope,htakes,.inl ⟨idx,name,mem_scanBlockRewrites.mpr ?_⟩⟩
      refine ⟨span,_,label,next,labels,inner,spec,hitem,hname,?_,hsupported,hrange,rfl⟩
      rw [htype]
      exact hidx
  | atCursor cursor =>
    obtain ⟨doc',body',dir',b,hdoc',hbody',-,hb,-,⟨item',hitem',hmatched⟩,hrewrites,-⟩ :=
      emitted_cursor h
    obtain ⟨span',ident',label',next',labels',inner',rfl,hrule',-,hrange'⟩ :=
      matchedBlock_shape hmatched
    rw [hrewrites]
    constructor
    · rintro ⟨e,he,hrange,htext⟩
      obtain ⟨rfl,hedits⟩ := editsIn_singleton.mp he
      cases hdoc.symm.trans hdoc'
      cases hbody.symm.trans hbody'
      rcases List.mem_cons.mp hedits with hedit | hedits
      · refine ⟨e.range,hrange,rfl,b,hb,?_⟩
        rw [hedit]
      · obtain ⟨⟨idx',e'⟩,hmem,rfl⟩ := List.mem_map.mp hedits
        obtain ⟨-,-,whole,span',operators,-,-,-,hother⟩ := (mem_instanceRefs hloc).mp hmem
        have htext : e'.newText = _ := htext
        rw [htext] at hother
        exact absurd hother.symm (resolvedTo_ne_quoted (mem_of_byKindLabel hrule').1 _)
    · rintro ⟨range,hrange,rfl,b',hb',hlabelRange⟩
      cases hb.symm.trans hb'
      cases hdoc.symm.trans hdoc'
      cases hbody.symm.trans hbody'
      rw [hlabelRange] at hrange'
      have hsame := hloc.labels _ hitem _ hitem' label rfl label' rfl range.start
        (hclSpanToLspRange_start hrange) (hclSpanToLspRange_start hrange')
      cases hsame
      rw [htype,hidx] at hrule'
      have hspec' : b.spec = spec := by
        obtain ⟨hpair,-⟩ := Prod.mk.inj (Option.some.inj hrule')
        exact hpair.symm
      refine ⟨⟨range,_⟩,editsIn_singleton.mpr ⟨rfl,List.mem_cons.mpr (.inl ?_)⟩,hrange,rfl⟩
      rw [hlabelRange,hspec']

/-- What the edits of a conversion replace. -/
theorem edit_token {request : Request} {c : RenameConversion}
    (h : emitted env supported admits18 documents primary request = some c) {uri : Url}
    {doc : SourceDocument} {body : Spanned.Body} {dir : Path}
    (hdoc : documents.lookup uri = some doc) (hbody : doc.body = some body)
    (hdir : env.fs.parentDir uri = some dir) (hloc : Located doc.rope body) {e : TextEdit}
    (he : e ∈ editsIn c.rewrites uri) : (∃ text, e.newText = "\"" ++ text ++ "\"") ∨
      ∃ expr ∈ Spanned.expressions body, ∃ span ∈ headToken expr,
        doc.rope.byteOffsetToLspPosition span.1 = .ok e.range.start := by
  cases request with
  | inScope scope =>
    obtain ⟨-,-,hedit⟩ := (mem_scopedEdits h hdoc hbody hdir).mp he
    rcases hedit with ⟨idx,name,hmem⟩ | ⟨idx,hmem⟩
    · obtain ⟨span,ident,label,next,labels,inner,spec,-,-,-,-,-,htext⟩ :=
        mem_scanBlockRewrites.mp hmem
      exact .inl ⟨_,htext⟩
    · obtain ⟨whole,span,head,operators,spec,hwalk,-,-,-,hrange,-⟩ := mem_scanRefRewrites.mp hmem
      exact .inr ⟨_,Spanned.walkExpressions_subset body hwalk,span,rfl,
        hclSpanToLspRange_start hrange⟩
  | atCursor cursor =>
    obtain ⟨doc',body',dir',b,hdoc',hbody',-,-,-,-,hrewrites,-⟩ := emitted_cursor h
    rw [hrewrites] at he
    obtain ⟨rfl,hedits⟩ := editsIn_singleton.mp he
    cases hdoc.symm.trans hdoc'
    cases hbody.symm.trans hbody'
    rcases List.mem_cons.mp hedits with hedit | hedits
    · exact .inl ⟨_,by rw [hedit]⟩
    · obtain ⟨⟨idx,e'⟩,hmem,rfl⟩ := List.mem_map.mp hedits
      obtain ⟨-,-,whole,span,operators,hwalk,-,hrange,-⟩ := (mem_instanceRefs hloc).mp hmem
      exact .inr ⟨_,Spanned.walkExpressions_subset body hwalk,span,rfl,
        hclSpanToLspRange_start hrange⟩

/-- The type in a reference to a data source is never rewritten. -/
theorem data_not_rewritten {request : Request} {c : RenameConversion}
    (h : emitted env supported admits18 documents primary request = some c) {uri : Url}
    {doc : SourceDocument} {body : Spanned.Body} {dir : Path}
    (hdoc : documents.lookup uri = some doc) (hbody : doc.body = some body)
    (hdir : env.fs.parentDir uri = some dir) (hloc : Located doc.rope body)
    {expr : Spanned.Expression} (hexpr : expr ∈ Spanned.expressions body)
    {spec : BlockRenameSpec} (hspec : spec ∈ allBlockRenames) (hdata : spec.rule.kind = "data")
    {name : String} {span : Spanned.Span} (href : spec.rule.reference name expr = some span) :
    ¬Rewritten (editsIn c.rewrites uri) doc.rope span (resolvedTo spec) := by
  rintro ⟨e,he,hrange,htext⟩
  obtain ⟨headSpan,hhead,hattr⟩ := Rule.reference_data hdata href
  rcases edit_token h hdoc hbody hdir hloc he with ⟨text,hquoted⟩ | ⟨expr',hexpr',span',hspan',hpos⟩
  · rw [htext] at hquoted
    exact resolvedTo_ne_quoted hspec text hquoted
  · exact hloc.attrs expr' hexpr' expr hexpr span' hspan' span hattr _ hpos
      (hclSpanToLspRange_start hrange)

theorem reference_rewritten_iff {request : Request} {c : RenameConversion}
    (h : emitted env supported admits18 documents primary request = some c) {uri : Url}
    {doc : SourceDocument} {body : Spanned.Body} {dir : Path}
    (hdoc : documents.lookup uri = some doc) (hbody : doc.body = some body)
    (hdir : env.fs.parentDir uri = some dir) (hloc : Located doc.rope body)
    {expr : Spanned.Expression} (hexpr : expr ∈ Spanned.expressions body)
    {spec : BlockRenameSpec} (hspec : spec ∈ allBlockRenames) (hkind : spec.rule.kind ≠ "data")
    {name : String} {span : Spanned.Span} (href : spec.rule.reference name expr = some span) :
    Rewritten (editsIn c.rewrites uri) doc.rope span (resolvedTo spec) ↔
      expr ∈ Spanned.walkExpressions body ∧ ∃ range,
        doc.rope.hclSpanToLspRange span = .ok range ∧ TakesReference env supported documents
          primary request dir uri spec.fromType name range := by
  obtain ⟨whole,attrSpan,operators,hshape⟩ := Rule.reference_resource hkind href
  have hshape : expr = .traversal whole (.variable span spec.fromType)
      (.getAttr attrSpan name :: operators) := hshape
  subst hshape
  cases request with
  | inScope scope =>
    constructor
    · rintro ⟨e,he,hrange,htext⟩
      obtain ⟨hscope,htakes,hedit⟩ := (mem_scopedEdits h hdoc hbody hdir).mp he
      rcases hedit with ⟨idx,name',hmem⟩ | ⟨idx,hmem⟩
      · obtain ⟨span',ident,label,next,labels,inner,spec',-,-,-,-,-,hquoted⟩ :=
          mem_scanBlockRewrites.mp hmem
        rw [htext] at hquoted
        exact absurd hquoted (resolvedTo_ne_quoted hspec _)
      · obtain ⟨whole',span',head,operators',spec',hwalk,hrule,hsupported,-,hrange',-⟩ :=
          mem_scanRefRewrites.mp hmem
        have hsame := hloc.heads _ hexpr _ (Spanned.walkExpressions_subset body hwalk) span rfl
          span' rfl e.range.start (hclSpanToLspRange_start hrange)
            (hclSpanToLspRange_start hrange')
        cases hsame
        exact ⟨hwalk,e.range,hrange,hscope,⟨spec',idx,hrule,hsupported⟩,htakes⟩
    · rintro ⟨hwalk,range,hrange,hscope,⟨spec',idx,hrule,hsupported⟩,htakes⟩
      refine ⟨⟨range,_⟩,?_,hrange,rfl⟩
      apply (mem_scopedEdits h hdoc hbody hdir).mpr
      refine ⟨hscope,htakes,.inr ⟨idx,mem_scanRefRewrites.mpr ?_⟩⟩
      refine ⟨whole,span,_,_,spec',hwalk,hrule,hsupported,?_,hrange,?_⟩
      · simp [getAttrs]
      · obtain ⟨hfound,hsame⟩ := mem_of_byFrom hrule
        exact resolvedTo_of_fromType hspec hfound hsame.symm
  | atCursor cursor =>
    obtain ⟨doc',body',dir',b,hdoc',hbody',hdir',hb,hsupported,⟨item,hitem,hmatched⟩,hrewrites,-⟩ :=
      emitted_cursor h
    obtain ⟨blockSpan,ident,label,next,labels,inner,-,hrule,-,-⟩ := matchedBlock_shape hmatched
    rw [hrewrites]
    constructor
    · rintro ⟨e,he,hrange,htext⟩
      obtain ⟨rfl,hedits⟩ := editsIn_singleton.mp he
      cases hdoc.symm.trans hdoc'
      cases hbody.symm.trans hbody'
      rcases List.mem_cons.mp hedits with hedit | hedits
      · rw [hedit] at htext
        exact absurd htext.symm (resolvedTo_ne_quoted hspec _)
      · obtain ⟨⟨idx,e'⟩,hmem,rfl⟩ := List.mem_map.mp hedits
        obtain ⟨-,-,whole',span',operators',hwalk,hname,hrange',-⟩ :=
          (mem_instanceRefs hloc).mp hmem
        have hsame := hloc.heads _ hexpr _ (Spanned.walkExpressions_subset body hwalk) span rfl
          span' rfl e'.range.start (hclSpanToLspRange_start hrange)
            (hclSpanToLspRange_start hrange')
        obtain ⟨-,hhead,hoperators⟩ := Spanned.Expression.traversal.inj hsame
        obtain ⟨-,htype⟩ := Spanned.Expression.variable.inj hhead
        rw [← hsame] at hwalk
        rw [← hoperators] at hname
        exact ⟨hwalk,e'.range,hrange,rfl,b,hb,htype.symm,(Option.some.inj hname).symm⟩
    · rintro ⟨hwalk,range,hrange,rfl,b',hb',htype,hname⟩
      cases hb.symm.trans hb'
      cases hdoc.symm.trans hdoc'
      cases hbody.symm.trans hbody'
      refine ⟨⟨range,resolvedTo spec⟩,editsIn_singleton.mpr ⟨rfl,List.mem_cons_of_mem _ ?_⟩,
        hrange,rfl⟩
      apply List.mem_map.mpr
      refine ⟨(b.idx,⟨range,resolvedTo spec⟩),(mem_instanceRefs hloc).mpr ?_,rfl⟩
      rw [htype,hname]
      refine ⟨rfl,hsupported,whole,span,_,hwalk,rfl,hrange,?_⟩
      exact resolvedTo_of_fromType hspec (mem_of_byKindLabel hrule).1 htype.symm

end BlockRename

/-! Both conversions. -/

/-- What a client asks for, and for which conversion. -/
inductive ConversionRequest
  | nullResource (request : NullResource.Request)
  | blockRename (request : BlockRename.Request)

section requests

variable (env : ActionEnvironment) (supports : Option Path → Bool)
  (supported : Path → ℕ → Bool) (admits18 : Path → Bool)
  (documents : KeyedMap Url SourceDocument) (primary : Url)

/-- What the action that is emitted for a request rewrites. -/
def emittedRewrites : ConversionRequest → Option (List (Url × List TextEdit))
  | .nullResource request =>
    (NullResource.emitted env supports documents primary request).map (·.rewrites)
  | .blockRename request =>
    (BlockRename.emitted env supported admits18 documents primary request).map (·.rewrites)

def ConversionRequest.rules : ConversionRequest → List Rule
  | .nullResource _ => [NullResource.rule]
  | .blockRename _ => BlockRename.allBlockRenames.map (·.rule)

def TakesBlock (request : ConversionRequest) (rule : Rule) (dir : Path) (uri : Url)
    (name : String) (range : Range) : Prop :=
  match request with
  | .nullResource request =>
    NullResource.Takes env supports documents primary request uri name range
  | .blockRename request =>
    BlockRename.TakesLabel env supported documents primary request dir uri rule.kind
      rule.fromType range

def TakesReference (request : ConversionRequest) (rule : Rule) (dir : Path) (uri : Url)
    (name : String) (range : Range) : Prop :=
  match request with
  | .nullResource request =>
    NullResource.Takes env supports documents primary request uri name range
  | .blockRename request =>
    BlockRename.TakesReference env supported documents primary request dir uri rule.fromType
      name range

/-- The request takes a block of the name in the module. -/
def BlockTaken (request : ConversionRequest) (rule : Rule) (dir : Path) (name : String) : Prop :=
  rule.Targets env documents (fun uri range =>
    TakesBlock env supports supported documents primary request rule dir uri name range) dir name

/-- In every module the request takes the references to a name exactly if it takes a block of the
name. A reference to a data source and one in a key of an object are never taken. -/
def ReferencesFollow (request : ConversionRequest) : Prop :=
  ∀ rule ∈ request.rules, ∀ dir name uri doc body, documents.lookup uri = some doc →
    env.fs.parentDir uri = some dir → doc.body = some body →
      ∀ e ∈ Spanned.expressions body, ∀ span ∈ rule.reference name e,
        ((rule.kind ≠ "data" ∧ e ∈ Spanned.walkExpressions body ∧ ∃ range,
          doc.rope.hclSpanToLspRange span = .ok range ∧
            TakesReference env supports supported documents primary request rule dir uri name
              range) ↔
          BlockTaken env supports supported documents primary request rule dir name)

end requests

section results

variable {env : ActionEnvironment} {supports : Option Path → Bool}
  {supported : Path → ℕ → Bool} {admits18 : Path → Bool}
  {documents : KeyedMap Url SourceDocument} {primary : Url}
  {request : ConversionRequest} {rewrites : List (Url × List TextEdit)} {rule : Rule}

theorem block_rewritten_iff
    (h : emittedRewrites env supports supported admits18 documents primary request = some rewrites)
    (hrule : rule ∈ request.rules) {uri : Url} {doc : SourceDocument} {body : Spanned.Body}
    {dir : Path} (hdoc : documents.lookup uri = some doc) (hdir : env.fs.parentDir uri = some dir)
    (hbody : doc.body = some body) (hloc : Located doc.rope body) {item : Spanned.Structure}
    (hitem : item ∈ body) {name : String} {label : Spanned.BlockLabel}
    (hlabel : rule.label name item = some label) :
    Rewritten (editsIn rewrites uri) doc.rope label.span ("\"" ++ rule.toType ++ "\"") ↔
      ∃ range, doc.rope.hclSpanToLspRange label.span = .ok range ∧
        TakesBlock env supports supported documents primary request rule dir uri name range := by
  cases request with
  | nullResource request =>
    obtain ⟨c,hc,rfl⟩ := Option.map_eq_some_iff.mp h
    cases List.mem_singleton.mp hrule
    exact NullResource.label_rewritten_iff hc hdoc hbody hloc hitem hlabel
  | blockRename request =>
    obtain ⟨c,hc,rfl⟩ := Option.map_eq_some_iff.mp h
    obtain ⟨spec,hspec,rfl⟩ := List.mem_map.mp hrule
    exact BlockRename.label_rewritten_iff hc hdoc hbody hdir hloc hitem hspec hlabel

theorem reference_rewritten_iff
    (h : emittedRewrites env supports supported admits18 documents primary request = some rewrites)
    (hrule : rule ∈ request.rules) {uri : Url} {doc : SourceDocument} {body : Spanned.Body}
    {dir : Path} (hdoc : documents.lookup uri = some doc) (hdir : env.fs.parentDir uri = some dir)
    (hbody : doc.body = some body) (hloc : Located doc.rope body) {e : Spanned.Expression}
    (he : e ∈ Spanned.expressions body) {name : String} {span : Spanned.Span}
    (href : rule.reference name e = some span) :
    Rewritten (editsIn rewrites uri) doc.rope span rule.toType ↔
      rule.kind ≠ "data" ∧ e ∈ Spanned.walkExpressions body ∧ ∃ range,
        doc.rope.hclSpanToLspRange span = .ok range ∧
          TakesReference env supports supported documents primary request rule dir uri name
            range := by
  cases request with
  | nullResource request =>
    obtain ⟨c,hc,rfl⟩ := Option.map_eq_some_iff.mp h
    cases List.mem_singleton.mp hrule
    have hkind : NullResource.rule.kind ≠ "data" := by decide
    rw [and_iff_right hkind]
    exact NullResource.reference_rewritten_iff hc hdoc hbody hloc he href
  | blockRename request =>
    obtain ⟨c,hc,rfl⟩ := Option.map_eq_some_iff.mp h
    obtain ⟨spec,hspec,rfl⟩ := List.mem_map.mp hrule
    by_cases hkind : spec.rule.kind = "data"
    · constructor
      · intro hrewritten
        exact absurd hrewritten
          (BlockRename.data_not_rewritten hc hdoc hbody hdir hloc he hspec hkind href)
      · rintro ⟨hnot,-⟩
        exact absurd hkind hnot
    · rw [and_iff_right hkind]
      exact BlockRename.reference_rewritten_iff hc hdoc hbody hdir hloc he hspec hkind href

theorem blockConverted_iff (hlocated : ∀ uri doc body, documents.lookup uri = some doc →
      doc.body = some body → Located doc.rope body)
    (h : emittedRewrites env supports supported admits18 documents primary request = some rewrites)
    (hrule : rule ∈ request.rules) {dir : Path} {name : String} :
    rule.BlockConverted env documents rewrites dir name ↔
      BlockTaken env supports supported documents primary request rule dir name := by
  apply Rule.blockConverted_iff
  intro uri doc body hdoc hdir hbody item hitem label hlabel
  exact block_rewritten_iff h hrule hdoc hdir hbody (hlocated uri doc body hdoc hbody) hitem hlabel

end results

/-! A block and a reference in the same document. -/

/-- The block of a document with one reference, in its locals. -/
structure Referring where
  text : String
  blockSpan : Spanned.Span
  kind : String
  label : Spanned.BlockLabel
  name : Spanned.BlockLabel
  localsSpan : Spanned.Span
  keySpan : Spanned.Span
  span : Spanned.Span
  headSpan : Spanned.Span
  head : String
  attrs : List (Spanned.Span × String)

namespace Referring

def operators (r : Referring) : List Spanned.TraversalOperator :=
  r.attrs.map fun attr => .getAttr attr.1 attr.2

def expr (r : Referring) : Spanned.Expression :=
  .traversal r.span (.variable r.headSpan r.head) r.operators

def body (r : Referring) : Spanned.Body :=
  [.block r.blockSpan r.kind [r.label,r.name] [],
    .block r.localsSpan "locals" [] [.attribute r.keySpan "y" r.expr]]

def document (r : Referring) : SourceDocument := ⟨r.text.toList,some r.body⟩

def documents (r : Referring) : KeyedMap Url SourceDocument :=
  (∅ : KeyedMap Url SourceDocument).insert NullResource.mainUrl r.document

theorem expressions_body (r : Referring) (keys : Bool) :
    Spanned.walkBody keys r.body = [r.expr,.variable r.headSpan r.head] := by
  have hoperators : ∀ attrs : List (Spanned.Span × String),
      Spanned.walkOperators keys (attrs.map fun attr => .getAttr attr.1 attr.2) = [] := by
    intro attrs
    induction attrs with
    | nil => rfl
    | cons attr attrs ih => simpa [Spanned.walkOperators,Spanned.walkOperator] using ih
  simp [body,expr,operators,Spanned.walkBody,Spanned.walkStructure,Spanned.walkExpression,
    hoperators]

theorem located (r : Referring) {range : Range} {c : Char} {rest : Rope}
    (hrange : Rope.hclSpanToLspRange r.text.toList r.label.span = .ok range)
    (htext : r.text.toList = c::rest) (hsize : c.utf8Size ≤ r.label.span.1)
    (hattrs : ∀ attr ∈ r.attrs, Rope.byteOffsetToLspPosition r.text.toList r.headSpan.1 ≠
      Rope.byteOffsetToLspPosition r.text.toList attr.1.1) :
    ∀ uri doc body, r.documents.lookup uri = some doc → doc.body = some body →
      Located doc.rope body := by
  intro uri doc body hdoc hbody
  rw [documents,KeyedMap.lookup_insert_of] at hdoc
  split_ifs at hdoc
  · cases hdoc
    cases hbody
    have hlabels : ∀ item ∈ r.body, ∀ label ∈ firstLabel item,
        item = .block r.blockSpan r.kind [r.label,r.name] [] ∧ label = r.label := by
      intro item hitem label hlabel
      rcases List.mem_cons.mp hitem with rfl | hitem
      · exact ⟨rfl,(Option.some.inj hlabel).symm⟩
      · rw [List.mem_singleton.mp hitem] at hlabel
        cases hlabel
    have hheads : ∀ e ∈ Spanned.expressions r.body, ∀ span ∈ headToken e,
        e = r.expr ∧ span = r.headSpan := by
      intro e he span hspan
      rw [Spanned.expressions,expressions_body] at he
      rcases List.mem_cons.mp he with rfl | he
      · exact ⟨rfl,(Option.some.inj hspan).symm⟩
      · rw [List.mem_singleton.mp he] at hspan
        cases hspan
    refine ⟨?_,?_,?_,?_,?_⟩
    · intro item hitem label hlabel
      rw [(hlabels item hitem label hlabel).2]
      exact ⟨range,hrange⟩
    · intro item hitem label hlabel
      rw [(hlabels item hitem label hlabel).2]
      exact ⟨c,rest,htext,hsize⟩
    · intro item hitem item' hitem' label hlabel label' hlabel' pos hpos hpos'
      rw [(hlabels item hitem label hlabel).1,(hlabels item' hitem' label' hlabel').1]
    · intro e he e' he' span hspan span' hspan' pos hpos hpos'
      rw [(hheads e he span hspan).1,(hheads e' he' span' hspan').1]
    · intro e he e' he' span hspan span' hspan' pos hpos hpos'
      rw [(hheads e he span hspan).2] at hpos
      rw [Spanned.expressions,expressions_body] at he'
      rcases List.mem_cons.mp he' with rfl | he'
      · obtain ⟨⟨attrSpan,attr⟩,hattr,rfl⟩ := List.mem_map.mp hspan'
        have hmem : (attrSpan,attr) ∈ r.attrs := by
          simpa [operators,getAttrs,List.filterMap_map] using hattr
        exact hattrs _ hmem (hpos.trans hpos'.symm)
      · rw [List.mem_singleton.mp he'] at hspan'
        cases hspan'
  · cases hdoc

end Referring

def nullReferring : Referring where
  text := "resource \"null_resource\" \"x\" \x7b\x7d\nlocals \x7b\n  y = null_resource.x.id\n\x7d\n"
  blockSpan := (0,31)
  kind := "resource"
  label := ⟨(9,24),"null_resource"⟩
  name := ⟨(25,28),"x"⟩
  localsSpan := (32,67)
  keySpan := (43,44)
  span := (47,65)
  headSpan := (47,60)
  head := "null_resource"
  attrs := [((61,62),"x"),((63,65),"id")]

theorem nullReferring_located : ∀ uri doc body, nullReferring.documents.lookup uri = some doc →
    doc.body = some body → Located doc.rope body := by
  have hrange : Rope.hclSpanToLspRange nullReferring.text.toList nullReferring.label.span =
      .ok ⟨⟨0,9⟩,⟨0,24⟩⟩ := by decide +kernel
  exact nullReferring.located hrange rfl (by decide) (by decide +kernel)

def dataReferring : Referring where
  text := "data \"aws_s3_bucket_object\" \"x\" \x7b\x7d\nlocals \x7b\n  y = data.aws_s3_bucket_object.x.body\n\x7d\n"
  blockSpan := (0,34)
  kind := "data"
  label := ⟨(5,27),"aws_s3_bucket_object"⟩
  name := ⟨(28,31),"x"⟩
  localsSpan := (35,84)
  keySpan := (46,47)
  span := (50,82)
  headSpan := (50,54)
  head := "data"
  attrs := [((55,75),"aws_s3_bucket_object"),((76,77),"x"),((78,82),"body")]

theorem dataReferring_located : ∀ uri doc body, dataReferring.documents.lookup uri = some doc →
    doc.body = some body → Located doc.rope body := by
  have hrange : Rope.hclSpanToLspRange dataReferring.text.toList dataReferring.label.span =
      .ok ⟨⟨0,5⟩,⟨0,27⟩⟩ := by decide +kernel
  exact dataReferring.located hrange rfl (by decide) (by decide +kernel)

end TerraformLs
