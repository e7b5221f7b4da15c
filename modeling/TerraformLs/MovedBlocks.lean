import TerraformLs.NullResource

/-! The `moved` blocks of a module after a conversion of its `null_resource`
blocks, and the conversions after which every converted name has exactly one. -/
namespace TerraformLs
namespace NullResource

open CodeActions

section scans

variable {rope : Rope} {names : Option (List String)} {body : Spanned.Body}

theorem newText_of_triggersEdits {e : TextEdit} {inner : Spanned.Body}
    (h : e ∈ inner.flatMap (triggersEdits rope)) : e.newText = "triggers_replace" := by
  obtain ⟨item,-,he⟩ := List.mem_flatMap.mp h
  cases item with
  | block span ident labels body => cases he
  | «attribute» keySpan key value =>
    simp only [triggersEdits] at he
    split_ifs at he
    · exact (mem_tokenEdit.mp he).2
    · cases he

/-- A hit edits the first name of a reference, or the accessor `triggers`. -/
theorem mem_nullResourceHits {expr : Spanned.Expression} {name : String} {e : TextEdit}
    (h : (name,e) ∈ nullResourceHits rope expr) : e.newText = "triggers_replace" ∨
      ∃ span headSpan operators attrs, expr = .traversal span (.variable headSpan "null_resource")
        operators ∧ (getAttrs operators).map Prod.snd = name::attrs ∧
          rope.hclSpanToLspRange headSpan = .ok e.range ∧ e.newText = "terraform_data" := by
  unfold nullResourceHits at h
  split at h
  · rename_i span headSpan head operators
    split_ifs at h with hhead
    · cases hattrs : getAttrs operators with
      | nil => simp [hattrs] at h
      | cons first attrs =>
        simp only [hattrs,List.mem_map,Prod.mk.injEq] at h
        obtain ⟨edit,hedit,rfl,rfl⟩ := h
        rcases List.mem_append.mp hedit with hedit | hedit
        · obtain ⟨hrange,htext⟩ := mem_tokenEdit.mp hedit
          right
          rw [hhead]
          exact ⟨span,headSpan,operators,attrs.map Prod.snd,rfl,by simp [hattrs],hrange,htext⟩
        · left
          split at hedit
          · split_ifs at hedit
            · exact (mem_tokenEdit.mp hedit).2
            · cases hedit
          · cases hedit
    · cases h
  · cases h

/-- The edits that write a label are those of the blocks. -/
theorem mem_scan_label {e : TextEdit} (htext : e.newText = "\"terraform_data\"") :
    e ∈ scanNullResourceToTerraformDataFor rope names body ↔
      ∃ b ∈ filteredBlocks names body, rope.hclSpanToLspRange b.label.span = .ok e.range := by
  rw [scanNullResourceToTerraformDataFor,List.mem_append]
  constructor
  · rintro (he | he)
    · obtain ⟨b,hb,he⟩ := List.mem_flatMap.mp he
      rcases List.mem_append.mp he with he | he
      · exact ⟨b,hb,(mem_tokenEdit.mp he).1⟩
      · have hother := newText_of_triggersEdits he
        rw [htext] at hother
        exact absurd hother (by decide)
    · obtain ⟨hit,hhit,rfl⟩ := List.mem_map.mp he
      obtain ⟨expr,-,hexpr⟩ := List.mem_flatMap.mp (List.mem_of_mem_filter hhit)
      rcases mem_nullResourceHits hexpr with hother | ⟨-,-,-,-,-,-,-,hother⟩
      · rw [htext] at hother
        exact absurd hother (by decide)
      · rw [htext] at hother
        exact absurd hother (by decide)
  · rintro ⟨b,hb,hrange⟩
    left
    apply List.mem_flatMap.mpr
    exact ⟨b,hb,List.mem_append_left _ (mem_tokenEdit.mpr ⟨hrange,htext⟩)⟩

/-- The edits that write the first name of a reference are those of the references visited. -/
theorem mem_scan_head {e : TextEdit} (htext : e.newText = "terraform_data") :
    e ∈ scanNullResourceToTerraformDataFor rope names body ↔
      ∃ span headSpan operators name attrs, .traversal span (.variable headSpan "null_resource")
        operators ∈ Spanned.walkExpressions body ∧
          (getAttrs operators).map Prod.snd = name::attrs ∧ inFilter names name = true ∧
            rope.hclSpanToLspRange headSpan = .ok e.range := by
  rw [scanNullResourceToTerraformDataFor,List.mem_append]
  constructor
  · rintro (he | he)
    · obtain ⟨b,hb,he⟩ := List.mem_flatMap.mp he
      have hother : e.newText = "\"terraform_data\"" ∨ e.newText = "triggers_replace" := by
        rcases List.mem_append.mp he with he | he
        · exact .inl (mem_tokenEdit.mp he).2
        · exact .inr (newText_of_triggersEdits he)
      rw [htext] at hother
      exact absurd hother (by decide)
    · obtain ⟨⟨name,edit⟩,hhit,rfl⟩ := List.mem_map.mp he
      obtain ⟨hhit,hname⟩ := List.mem_filter.mp hhit
      obtain ⟨expr,hexpr,hhit⟩ := List.mem_flatMap.mp hhit
      rcases mem_nullResourceHits hhit with
        hother | ⟨span,headSpan,operators,attrs,rfl,hattrs,hrange,-⟩
      · have htext : edit.newText = "terraform_data" := htext
        rw [htext] at hother
        exact absurd hother (by decide)
      · exact ⟨span,headSpan,operators,name,attrs,hexpr,hattrs,hname,hrange⟩
  · rintro ⟨span,headSpan,operators,name,attrs,hexpr,hattrs,hname,hrange⟩
    right
    apply List.mem_map.mpr
    refine ⟨(name,e),List.mem_filter.mpr ⟨List.mem_flatMap.mpr ⟨_,hexpr,?_⟩,hname⟩,rfl⟩
    cases hoperators : getAttrs operators with
    | nil => simp [hoperators] at hattrs
    | cons first others =>
      rw [hoperators,List.map_cons] at hattrs
      obtain ⟨hfirst,-⟩ := List.cons_eq_cons.mp hattrs
      simp only [nullResourceHits,hoperators,if_true,List.mem_map,List.mem_append]
      exact ⟨e,.inl (mem_tokenEdit.mpr ⟨hrange,htext⟩),by rw [hfirst]⟩

end scans

/-! What a request asks for, in terms of the documents. -/

def Request.scope : Request → Scope
  | .inScope scope => scope
  | .atCursor _ | .forDiag _ => .instance

section requests

variable (env : ActionEnvironment) (supports : Option Path → Bool)
  (documents : KeyedMap Url SourceDocument) (primary : Url)

/-- The block that the request is about, if it is about one. -/
def focusBlock (request : Request) : Option NullBlock := do
  let doc ← documents.lookup primary
  let body ← doc.body
  match request with
  | .inScope _ => none
  | .atCursor cursor => blockAtCursor doc.rope cursor body
  | .forDiag start => blockForDiag doc.rope start body

def focus (request : Request) : Option (List String) :=
  (focusBlock documents primary request).map fun b => [b.name.getD "?"]

/-- Whether the request edits the references and blocks of a document. -/
def visits (request : Request) (uri : Url) : Bool :=
  (docsInScope env documents primary request.scope).any (·.1 = uri) &&
    (request.scope = .instance || supports (env.fs.parentDir uri))

/-- A block of the name that the request converts. -/
def Targets (request : Request) (dir : Path) (name : String) : Prop :=
  ∃ uri doc body b range, documents.lookup uri = some doc ∧ env.fs.parentDir uri = some dir ∧
    doc.body = some body ∧ visits env supports documents primary request uri = true ∧
      b ∈ nullBlocks body ∧ b.name = some name ∧
        inFilter (focus documents primary request) name = true ∧
          doc.rope.hclSpanToLspRange b.label.span = .ok range ∧
            request.scope.takes range = true

end requests

section conversions

variable {env : ActionEnvironment} {supports : Option Path → Bool}
  {documents : KeyedMap Url SourceDocument} {primary : Url}

theorem visits_iff {request : Request} {uri : Url} :
    visits env supports documents primary request uri = true ↔
      (∃ doc, (uri,doc) ∈ docsInScope env documents primary request.scope) ∧
        (request.scope = .instance ∨ supports (env.fs.parentDir uri) = true) := by
  simp only [visits,Bool.and_eq_true,List.any_eq_true,decide_eq_true_eq,Bool.or_eq_true]
  constructor
  · rintro ⟨⟨⟨uri',doc⟩,hmem,rfl⟩,hsupports⟩
    exact ⟨⟨doc,hmem⟩,hsupports⟩
  · rintro ⟨⟨doc,hmem⟩,hsupports⟩
    exact ⟨⟨(uri,doc),hmem,rfl⟩,hsupports⟩

/-- What visiting a document gives. -/
theorem visit_some {scope : Scope} {uri : Url} {doc : SourceDocument} {plan : DocumentPlan}
    (h : visit env supports scope (uri,doc) = some plan) : ∃ body, doc.body = some body ∧
      supports (env.fs.parentDir uri) = true ∧ plan.uri = uri ∧
        plan.edits = (scanNullResourceToTerraformDataFor doc.rope none body).filter
          (scope.takes ·.range) ∧ plan.names = if scope.isSelection then
            namesIntersectingEdits body plan.edits else
              (scanBlockEditsAndNames doc.rope none body).2 := by
  cases hbody : doc.body with
  | none => simp [visit,scanRow,hbody] at h
  | some body =>
    refine ⟨body,rfl,?_⟩
    by_cases hsupports : supports (env.fs.parentDir uri) = true
    · by_cases hall : scanNullResourceToTerraformDataFor doc.rope none body = []
      · simp [visit,scanRow,hbody,hsupports,hall] at h
      · cases scope with
        | selection range =>
          simp only [visit,scanRow,hbody,hsupports,hall,Option.bind_eq_bind,Option.bind_some,
            if_true,if_false] at h
          split_ifs at h
          have hplan := Option.some.inj h
          rw [← hplan]
          simp [hsupports,Scope.isSelection,Scope.takes]
        | «instance» | file | module | workspace =>
          simp only [visit,scanRow,hbody,hsupports,hall,Option.bind_eq_bind,Option.bind_some,
            if_true,if_false] at h
          have hplan := Option.some.inj h
          rw [← hplan]
          simp [hsupports,Scope.isSelection,Scope.takes]
    · simp [visit,scanRow,hbody,hsupports] at h

/-- A document with an edit that the scope takes is visited. -/
theorem visit_of_edit {scope : Scope} {uri : Url} {doc : SourceDocument} {body : Spanned.Body}
    {e : TextEdit} (hbody : doc.body = some body)
    (hsupports : supports (env.fs.parentDir uri) = true)
    (he : e ∈ scanNullResourceToTerraformDataFor doc.rope none body)
    (hselected : scope.takes e.range = true) :
    ∃ plan, visit env supports scope (uri,doc) = some plan := by
  have hall : scanNullResourceToTerraformDataFor doc.rope none body ≠ [] :=
    List.ne_nil_of_mem he
  cases scope with
  | selection range =>
    have hkept : (scanNullResourceToTerraformDataFor doc.rope none body).filter
        (·.range.intersects range) ≠ [] :=
      List.ne_nil_of_mem (List.mem_filter.mpr ⟨he,hselected⟩)
    simp only [visit,scanRow,hbody,hsupports,hall,Option.bind_eq_bind,Option.bind_some,if_true,
      if_false,hkept]
    exact ⟨_,rfl⟩
  | «instance» | file | module | workspace => simp [visit,scanRow,hbody,hsupports,hall]

theorem scope_of_not_inScope {request : Request} (h : ∀ scope, request ≠ .inScope scope) :
    request.scope = .instance := by
  cases request with
  | inScope scope => exact absurd rfl (h scope)
  | atCursor cursor => rfl
  | forDiag start => rfl

theorem eq_primary_of_mem {uri : Url} {doc : SourceDocument}
    (h : (uri,doc) ∈ docsInScope env documents primary .instance) : uri = primary := by
  obtain ⟨doc',-,heq⟩ := List.mem_map.mp h
  exact (Prod.mk.inj heq).1.symm

theorem eq_some_of_getD {name : Option String} {other text : String}
    (h : name.getD other = text) (hne : text ≠ other) : name = some text := by
  cases name with
  | none => exact absurd h.symm hne
  | some name => exact congrArg some h

/-- What is emitted for one block edits only the active document. -/
theorem emitted_instance {request : Request} {c : Conversion}
    (hrequest : ∀ scope, request ≠ .inScope scope)
    (h : emitted env supports documents primary request = some c) :
    ∃ doc body b, documents.lookup primary = some doc ∧ doc.body = some body ∧
      focusBlock documents primary request = some b ∧ b ∈ nullBlocks body ∧
        c.rewrites = [(primary,scanNullResourceToTerraformDataFor doc.rope
          (some [b.name.getD "?"]) body)] ∧
          ∀ dir, Multimap.filed c.namesByModule dir =
            if env.fs.parentDir primary = some dir then [b.name.getD "?"] else [] := by
  have hinstance : ∀ (doc : SourceDocument) (body : Spanned.Body) (b : NullBlock),
      instanceConversion env primary doc.rope body b = some c →
        c.rewrites = [(primary,scanNullResourceToTerraformDataFor doc.rope
          (some [b.name.getD "?"]) body)] ∧
          ∀ dir, Multimap.filed c.namesByModule dir =
            if env.fs.parentDir primary = some dir then [b.name.getD "?"] else [] := by
    intro doc body b hc
    unfold instanceConversion at hc
    dsimp only at hc
    split_ifs at hc
    have hconversion := Option.some.inj hc
    rw [← hconversion]
    refine ⟨rfl,fun dir => ?_⟩
    cases hdir : env.fs.parentDir primary with
    | none => simp [Multimap.filed]
    | some parent =>
      simp only [Multimap.filed,KeyedMap.lookup_insert_of,Option.some.injEq]
      by_cases hsame : dir = parent
      · simp [hsame]
      · simp [hsame,Ne.symm hsame]
  cases hdoc : documents.lookup primary with
  | none => cases request <;> simp [emitted,hdoc] at h; exact absurd rfl (hrequest _)
  | some doc =>
    cases hbody : doc.body with
    | none => cases request <;> simp [emitted,hdoc,hbody] at h; exact absurd rfl (hrequest _)
    | some body =>
      cases request with
      | inScope scope => exact absurd rfl (hrequest scope)
      | atCursor cursor =>
        cases hb : blockAtCursor doc.rope cursor body with
        | none => simp [emitted,hdoc,hbody,hb] at h
        | some b =>
          simp only [emitted,hdoc,hbody,hb,Option.bind_eq_bind,Option.bind_some] at h
          split_ifs at h
          refine ⟨doc,body,b,rfl,hbody,?_,List.mem_of_find?_eq_some hb,hinstance doc body b h⟩
          simp [focusBlock,hdoc,hbody,hb]
      | forDiag start =>
        cases hb : blockForDiag doc.rope start body with
        | none => simp [emitted,hdoc,hbody,hb] at h
        | some b =>
          simp only [emitted,hdoc,hbody,hb,Option.bind_eq_bind,Option.bind_some] at h
          refine ⟨doc,body,b,rfl,hbody,?_,List.mem_of_find?_eq_some hb,hinstance doc body b h⟩
          simp [focusBlock,hdoc,hbody,hb]

theorem emitted_scoped {scope : Scope} {c : Conversion}
    (h : emitted env supports documents primary (.inScope scope) = some c) : scope ≠ .instance ∧
      c.rewrites = (plans env supports documents primary scope).map
        (fun plan => (plan.uri,plan.edits)) ∧
        c.namesByModule = (plans env supports documents primary scope).foldl
          (extendNames env) ∅ := by
  simp only [emitted,scopedConversion] at h
  split_ifs at h with hnone
  have hconversion := Option.some.inj h
  rw [← hconversion]
  exact ⟨fun hscope => hnone (.inl hscope),rfl,rfl⟩

/-- The edits of an action in a document. -/
theorem mem_conversionEdits {request : Request} {c : Conversion}
    (h : emitted env supports documents primary request = some c) {uri : Url} {e : TextEdit} :
    e ∈ editsIn c.rewrites uri ↔ ∃ doc body, documents.lookup uri = some doc ∧ doc.body = some body ∧
      visits env supports documents primary request uri = true ∧
        request.scope.takes e.range = true ∧ e ∈ scanNullResourceToTerraformDataFor doc.rope
          (focus documents primary request) body := by
  rw [mem_editsIn,visits_iff]
  by_cases hrequest : ∃ scope, request = .inScope scope
  · obtain ⟨scope,rfl⟩ := hrequest
    obtain ⟨hscope,hrewrites,-⟩ := emitted_scoped h
    have hfocus : focus documents primary (.inScope scope) = none := by
      cases hdoc : documents.lookup primary with
      | none => simp [focus,focusBlock,hdoc]
      | some doc => cases hbody : doc.body <;> simp [focus,focusBlock,hdoc]
    rw [hrewrites,hfocus]
    constructor
    · rintro ⟨edits,hedits,he⟩
      obtain ⟨plan,hplan,heq⟩ := List.mem_map.mp hedits
      cases heq
      obtain ⟨⟨uri,doc⟩,hmem,hvisit⟩ := List.mem_filterMap.mp hplan
      obtain ⟨body,hbody,hsupports,huri,hplanEdits,-⟩ := visit_some hvisit
      rw [hplanEdits] at he
      obtain ⟨hscan,hselected⟩ := List.mem_filter.mp he
      rw [huri]
      exact ⟨doc,body,lookup_of_mem_docsInScope hmem,hbody,⟨⟨doc,hmem⟩,.inr hsupports⟩,
        hselected,hscan⟩
    · rintro ⟨doc,body,hdoc,hbody,⟨⟨doc',hmem⟩,hsupports⟩,hselected,hscan⟩
      have hsame := lookup_of_mem_docsInScope hmem
      cases hdoc.symm.trans hsame
      have hsupports := hsupports.resolve_left hscope
      obtain ⟨plan,hvisit⟩ := visit_of_edit hbody hsupports hscan hselected
      obtain ⟨body',hbody',-,huri,hplanEdits,-⟩ := visit_some hvisit
      cases hbody.symm.trans hbody'
      refine ⟨plan.edits,List.mem_map.mpr ⟨plan,List.mem_filterMap.mpr ⟨_,hmem,hvisit⟩,?_⟩,?_⟩
      · rw [huri]
      · rw [hplanEdits]
        exact List.mem_filter.mpr ⟨hscan,hselected⟩
  · have hnot : ∀ scope, request ≠ .inScope scope := fun scope hs => hrequest ⟨scope,hs⟩
    obtain ⟨doc,body,b,hdoc,hbody,hblock,-,hrewrites,-⟩ := emitted_instance hnot h
    have hscope := scope_of_not_inScope hnot
    have hfocus : focus documents primary request = some [b.name.getD "?"] := by
      simp [focus,hblock]
    rw [hrewrites,hfocus,hscope]
    constructor
    · rintro ⟨edits,hedits,he⟩
      cases List.mem_singleton.mp hedits
      refine ⟨doc,body,hdoc,hbody,⟨⟨doc,?_⟩,.inl rfl⟩,rfl,he⟩
      simp [docsInScope,hdoc]
    · rintro ⟨doc',body',hdoc',hbody',⟨⟨doc'',hmem⟩,-⟩,-,he⟩
      have huri := eq_primary_of_mem hmem
      subst huri
      cases hdoc.symm.trans hdoc'
      cases hbody.symm.trans hbody'
      exact ⟨_,List.mem_singleton_self _,he⟩

theorem nullBlock_label {item : Spanned.Structure} {b : NullBlock} (h : nullBlock item = some b) :
    firstLabel item = some b.label := by
  cases item with
  | «attribute» keySpan key value => cases h
  | block span ident labels body =>
    cases labels with
    | nil => cases h
    | cons label labels =>
      simp only [nullBlock] at h
      split_ifs at h
      rw [← Option.some.inj h]
      rfl

/-- In an empty text no label is found, and no label is edited at the start of its text. -/
theorem namesIntersectingEdits_nil {rope : Rope} {body : Spanned.Body} {edits : List TextEdit}
    (hlocated : Located rope body) (hedits : ∀ e ∈ edits, e.newText = "\"terraform_data\"" →
      ∃ b ∈ nullBlocks body, rope.hclSpanToLspRange b.label.span = .ok e.range) :
    namesIntersectingEdits body edits = [] := by
  rw [namesIntersectingEdits,List.filterMap_eq_nil_iff]
  intro b hb
  obtain ⟨hb,hfound⟩ := List.mem_filter.mp hb
  obtain ⟨item,hitem,hblock⟩ := List.mem_filterMap.mp hb
  obtain ⟨err,herr⟩ := hlocated.empty_error hitem (nullBlock_label hblock)
  simp only [herr,List.any_map,List.any_eq_true,List.mem_filter,decide_eq_true_eq,
    Function.comp] at hfound
  obtain ⟨e,⟨he,htext⟩,hzero⟩ := hfound
  obtain ⟨b',hb',hrange⟩ := hedits e he htext
  obtain ⟨item',hitem',hblock'⟩ := List.mem_filterMap.mp hb'
  exact absurd hzero (hlocated.start_ne hitem' (nullBlock_label hblock') hrange)

theorem mem_filed_extendNames {plans : List DocumentPlan} {m : KeyedMap Path (List String)}
    {dir : Path} {name : String} : name ∈ Multimap.filed (plans.foldl (extendNames env) m) dir ↔
      name ∈ Multimap.filed m dir ∨
        ∃ plan ∈ plans, env.fs.parentDir plan.uri = some dir ∧ name ∈ plan.names := by
  induction plans generalizing m with
  | nil => simp
  | cons plan plans ih =>
    have hfirst : name ∈ Multimap.filed (extendNames env m plan) dir ↔
        name ∈ Multimap.filed m dir ∨
          (env.fs.parentDir plan.uri = some dir ∧ name ∈ plan.names) := by
      cases hdir : env.fs.parentDir plan.uri with
      | none => simp [extendNames,hdir]
      | some parent =>
        by_cases hsame : dir = parent
        · rw [hsame]
          simp [extendNames,hdir,Multimap.filed]
        · simp [extendNames,hdir,Multimap.filed,hsame,Ne.symm hsame]
    rw [List.foldl_cons,ih,hfirst]
    simp only [List.mem_cons,exists_eq_or_imp]
    tauto

theorem focus_inScope (scope : Scope) : focus documents primary (.inScope scope) = none := by
  cases hdoc : documents.lookup primary with
  | none => simp [focus,focusBlock,hdoc]
  | some doc => cases hbody : doc.body <;> simp [focus,focusBlock,hdoc]

/-- The names that an action of a scope records. -/
theorem mem_names_scoped (hlocated : ∀ uri doc body, documents.lookup uri = some doc →
      doc.body = some body → Located doc.rope body) {scope : Scope} {c : Conversion}
    (h : emitted env supports documents primary (.inScope scope) = some c) {dir : Path}
    {name : String} (hempty : name ≠ "") : name ∈ Multimap.filed c.namesByModule dir ↔
      scope.isSelection = false ∧
        Targets env supports documents primary (.inScope scope) dir name := by
  obtain ⟨hscope,-,hnames⟩ := emitted_scoped h
  have hnone : name ∉ Multimap.filed (∅ : KeyedMap Path (List String)) dir := by
    simp [Multimap.filed]
  rw [hnames,mem_filed_extendNames,or_iff_right hnone]
  constructor
  · rintro ⟨plan,hplan,hdir,hmem⟩
    obtain ⟨⟨uri,doc⟩,hdoc,hvisit⟩ := List.mem_filterMap.mp hplan
    obtain ⟨body,hbody,hsupports,huri,hedits,hplanNames⟩ := visit_some hvisit
    have hlookup := lookup_of_mem_docsInScope hdoc
    have hloc := hlocated uri doc body hlookup hbody
    rw [huri] at hdir
    by_cases hselection : scope.isSelection = true
    · rw [hplanNames,if_pos hselection,namesIntersectingEdits_nil hloc] at hmem
      · cases hmem
      · intro e he htext
        rw [hedits] at he
        obtain ⟨b,hb,hrange⟩ := (mem_scan_label htext).mp (List.mem_of_mem_filter he)
        exact ⟨b,List.mem_of_mem_filter hb,hrange⟩
    · rw [hplanNames,if_neg hselection] at hmem
      obtain ⟨hmem,-⟩ := List.mem_filter.mp hmem
      obtain ⟨b,hb,hbname⟩ := List.mem_map.mp hmem
      have hb := List.mem_of_mem_filter hb
      have hsome := eq_some_of_getD hbname hempty
      obtain ⟨item,hitem,hblock⟩ := List.mem_filterMap.mp hb
      obtain ⟨range,hrange⟩ := hloc.inText item hitem b.label (nullBlock_label hblock)
      have hselected : scope.takes range = true := by
        cases scope <;> first | rfl | exact absurd rfl hselection
      have hother : scope.isSelection = false := by simpa using hselection
      refine ⟨hother,uri,doc,body,b,range,hlookup,hdir,hbody,?_,hb,hsome,?_,
        hrange,hselected⟩
      · exact visits_iff.mpr ⟨⟨doc,hdoc⟩,.inr hsupports⟩
      · rw [focus_inScope]
        rfl
  · rintro ⟨hselection,uri,doc,body,b,range,hlookup,hdir,hbody,hvisits,hb,hsome,-,hrange,
      hselected⟩
    obtain ⟨⟨doc',hdoc⟩,hsupports⟩ := visits_iff.mp hvisits
    cases hlookup.symm.trans (lookup_of_mem_docsInScope hdoc)
    have hdoc : (uri,doc) ∈ docsInScope env documents primary scope := hdoc
    have hselected : scope.takes range = true := hselected
    have hsupports := hsupports.resolve_left hscope
    have hfiltered : b ∈ filteredBlocks none body := List.mem_filter.mpr ⟨hb,rfl⟩
    have hedit : (⟨range,"\"terraform_data\""⟩ : TextEdit) ∈
        scanNullResourceToTerraformDataFor doc.rope none body :=
      (mem_scan_label rfl).mpr ⟨b,hfiltered,hrange⟩
    obtain ⟨plan,hvisit⟩ := visit_of_edit hbody hsupports hedit hselected
    obtain ⟨body',hbody',-,huri,-,hplanNames⟩ := visit_some hvisit
    cases hbody.symm.trans hbody'
    refine ⟨plan,List.mem_filterMap.mpr ⟨_,hdoc,hvisit⟩,by rw [huri]; exact hdir,?_⟩
    have hother : ¬scope.isSelection = true := by simpa using hselection
    rw [hplanNames,if_neg hother]
    apply List.mem_filter.mpr
    exact ⟨List.mem_map.mpr ⟨b,hfiltered,by rw [hsome]; rfl⟩,by simpa using hempty⟩

/-- The name that the conversion of one block records. -/
theorem mem_names_instance (hlocated : ∀ uri doc body, documents.lookup uri = some doc →
      doc.body = some body → Located doc.rope body) {request : Request} {c : Conversion}
    (hnot : ∀ scope, request ≠ .inScope scope)
    (h : emitted env supports documents primary request = some c) {dir : Path} {name : String}
    (hmark : name ≠ "?") : name ∈ Multimap.filed c.namesByModule dir ↔
      Targets env supports documents primary request dir name := by
  obtain ⟨doc,body,b,hdoc,hbody,hblock,hb,-,hnames⟩ := emitted_instance hnot h
  have hscope := scope_of_not_inScope hnot
  have hfocus : focus documents primary request = some [b.name.getD "?"] := by
    simp [focus,hblock]
  rw [hnames]
  constructor
  · intro hmem
    split_ifs at hmem with hdir
    · have hsome := eq_some_of_getD (List.mem_singleton.mp hmem).symm hmark
      obtain ⟨item,hitem,hnull⟩ := List.mem_filterMap.mp hb
      obtain ⟨range,hrange⟩ := (hlocated primary doc body hdoc hbody).inText item hitem b.label
        (nullBlock_label hnull)
      have hactive : visits env supports documents primary request primary = true := by
        apply visits_iff.mpr
        refine ⟨⟨doc,?_⟩,.inl hscope⟩
        simp [hscope,docsInScope,hdoc]
      refine ⟨primary,doc,body,b,range,hdoc,hdir,hbody,hactive,hb,hsome,?_,hrange,?_⟩
      · rw [hfocus]
        simp [inFilter,hsome]
      · rw [hscope]
        rfl
    · cases hmem
  · rintro ⟨uri,doc',body',b',range,-,hdir,-,hvisits,-,-,hfilter,-,-⟩
    obtain ⟨⟨doc'',hmem⟩,-⟩ := visits_iff.mp hvisits
    rw [hscope] at hmem
    rw [eq_primary_of_mem hmem] at hdir
    rw [if_pos hdir,List.mem_singleton]
    rw [hfocus] at hfilter
    simpa [inFilter] using hfilter

/-- The names an action records are those it converts, except for a selection. -/
theorem mem_namesByModule (hlocated : ∀ uri doc body, documents.lookup uri = some doc →
      doc.body = some body → Located doc.rope body) {request : Request} {c : Conversion}
    (h : emitted env supports documents primary request = some c) {dir : Path} {name : String}
    (hname : name ∉ ["","?"]) : name ∈ Multimap.filed c.namesByModule dir ↔
      request.scope.isSelection = false ∧
        Targets env supports documents primary request dir name := by
  obtain ⟨hempty,hmark⟩ : name ≠ "" ∧ name ≠ "?" := by simpa using hname
  by_cases hrequest : ∃ scope, request = .inScope scope
  · obtain ⟨scope,rfl⟩ := hrequest
    exact mem_names_scoped hlocated h hempty
  · have hnot : ∀ scope, request ≠ .inScope scope := fun scope hs => hrequest ⟨scope,hs⟩
    rw [mem_names_instance hlocated hnot h hmark,scope_of_not_inScope hnot]
    exact (and_iff_right rfl).symm

theorem getAttrs_of_mapM {operators : List Spanned.TraversalOperator} {names : List String}
    (h : operators.mapM getAttrName = some names) : (getAttrs operators).map Prod.snd = names := by
  induction operators generalizing names with
  | nil =>
    cases h
    rfl
  | cons operator operators ih =>
    cases operator with
    | getAttr span name =>
      cases hrest : operators.mapM getAttrName with
      | none => simp [List.mapM_cons,getAttrName,hrest] at h
      | some rest =>
        simp only [List.mapM_cons,getAttrName,hrest,Option.bind_eq_bind,Option.bind_some,
          Option.pure_def,Option.some.injEq] at h
        have hnames := ih hrest
        rw [← h,← hnames]
        rfl
    | attrSplat | fullSplat | index expr | legacyIndex idx =>
      simp [List.mapM_cons,getAttrName] at h

end conversions

/-! After the edit. -/

/-- The first name of an address after the edits of its document. -/
def headAfter (edits : List TextEdit) (rope : Rope) (a : Address) : String :=
  if Rewritten edits rope a.span "terraform_data" then "terraform_data" else a.head

section results

variable (env : ActionEnvironment) (supports : Option Path → Bool)
  (documents : KeyedMap Url SourceDocument) (primary : Url)

/-- A `null_resource` block of the name whose label the edits of a conversion change. -/
def Converted (c : Conversion) (dir : Path) (name : String) : Prop :=
  ∃ uri doc body b, documents.lookup uri = some doc ∧ env.fs.parentDir uri = some dir ∧
    doc.body = some body ∧ b ∈ nullBlocks body ∧ b.name = some name ∧
      Rewritten (editsIn c.rewrites uri) doc.rope b.label.span "\"terraform_data\""

/-- The names whose `moved` block is written. One whose address is no expression is not read. -/
def added (c : Conversion) (dir : Path) : List String :=
  if (env.fs.fromFilePath (movedPath dir)).isSome then
    (toAdd env documents dir (Multimap.filed c.namesByModule dir)).filter env.isIdentifier
  else []

/-- The `moved` blocks from `null_resource.name` to `terraform_data.name` after the edit. -/
def movedAfter (c : Conversion) (dir : Path) (name : String) : ℕ :=
  ((files env documents dir).map fun e => (movedBlocks (e.2.body.getD [])).countP fun m =>
    headAfter (editsIn c.rewrites e.1) e.2.rope m.1 = "null_resource" ∧ m.1.names = [name] ∧
      headAfter (editsIn c.rewrites e.1) e.2.rope m.2 = "terraform_data" ∧ m.2.names = [name]).sum +
        (added env documents c dir).count name

/-- Whether the request takes an address of a document for a reference to convert. -/
def rewrites (request : Request) (uri : Url) (rope : Rope) (a : Address) : Bool :=
  visits env supports documents primary request uri && a.head = "null_resource" &&
    a.names.head?.any (inFilter (focus documents primary request)) &&
      match rope.hclSpanToLspRange a.span with
      | .ok range => request.scope.takes range
      | .error _ => false

/-- The blocks that are `moved` blocks of the name once the request has taken its references. -/
def kept (request : Request) (dir : Path) (name : String) : ℕ :=
  ((files env documents dir).map fun e => (movedBlocks (e.2.body.getD [])).countP fun m =>
    m.1.head = "null_resource" ∧ m.1.names = [name] ∧
      rewrites env supports documents primary request e.1 e.2.rope m.1 = false ∧
        (m.2.head = "terraform_data" ∨
          rewrites env supports documents primary request e.1 e.2.rope m.2 = true) ∧
            m.2.names = [name]).sum

/-- A `moved` block is written for the name: the scope is no selection, the name can stand in an
address, and no document of the module covers it. -/
def Writes (request : Request) (dir : Path) (name : String) : Prop :=
  request.scope.isSelection = false ∧ env.isIdentifier name = true ∧
    name ∉ collectExistingMovedNames env documents dir ∧
      (env.fs.fromFilePath (movedPath dir)).isSome

instance (request : Request) (dir : Path) (name : String) :
    Decidable (Writes env documents request dir name) := inferInstanceAs (Decidable (_ ∧ _))

end results

section theorems

variable {env : ActionEnvironment} {supports : Option Path → Bool}
  {documents : KeyedMap Url SourceDocument} {primary : Url}

theorem converted_iff (hlocated : ∀ uri doc body, documents.lookup uri = some doc →
      doc.body = some body → Located doc.rope body) {request : Request} {c : Conversion}
    (h : emitted env supports documents primary request = some c) {dir : Path} {name : String} :
    Converted env documents c dir name ↔
      Targets env supports documents primary request dir name := by
  constructor
  · rintro ⟨uri,doc,body,b,hdoc,hdir,hbody,hb,hname,e,he,hrange,htext⟩
    obtain ⟨doc',body',hdoc',hbody',hvisits,hselected,hscan⟩ := (mem_conversionEdits h).mp he
    cases hdoc.symm.trans hdoc'
    cases hbody.symm.trans hbody'
    obtain ⟨b',hb',hrange'⟩ := (mem_scan_label htext).mp hscan
    obtain ⟨hb',hfilter⟩ := List.mem_filter.mp hb'
    obtain ⟨item,hitem,hnull⟩ := List.mem_filterMap.mp hb
    obtain ⟨item',hitem',hnull'⟩ := List.mem_filterMap.mp hb'
    have hsame := (hlocated uri doc body hdoc hbody).labels item hitem item' hitem' b.label
      (nullBlock_label hnull) b'.label (nullBlock_label hnull') e.range.start
        (hclSpanToLspRange_start hrange) (hclSpanToLspRange_start hrange')
    rw [← hsame,hnull] at hnull'
    cases hnull'
    rw [hname] at hfilter
    exact ⟨uri,doc,body,b,e.range,hdoc,hdir,hbody,hvisits,hb,hname,hfilter,hrange,hselected⟩
  · rintro ⟨uri,doc,body,b,range,hdoc,hdir,hbody,hvisits,hb,hname,hfilter,hrange,hselected⟩
    refine ⟨uri,doc,body,b,hdoc,hdir,hbody,hb,hname,⟨range,"\"terraform_data\""⟩,?_,hrange,rfl⟩
    apply (mem_conversionEdits h).mpr
    refine ⟨doc,body,hdoc,hbody,hvisits,hselected,(mem_scan_label rfl).mpr ⟨b,?_,hrange⟩⟩
    apply List.mem_filter.mpr
    exact ⟨hb,by rw [hname]; exact hfilter⟩

/-- Of the addresses in `moved` blocks, the edits change those the request takes. -/
theorem rewritten_iff (hlocated : ∀ uri doc body, documents.lookup uri = some doc →
      doc.body = some body → Located doc.rope body) {request : Request} {c : Conversion}
    (h : emitted env supports documents primary request = some c) {uri : Url}
    {doc : SourceDocument} {body : Spanned.Body} (hdoc : documents.lookup uri = some doc)
    (hbody : doc.body = some body) {m : Address × Address} (hm : m ∈ movedBlocks body)
    {a : Address} (ha : a ∈ [m.1,m.2]) :
    Rewritten (editsIn c.rewrites uri) doc.rope a.span "terraform_data" ↔
      rewrites env supports documents primary request uri doc.rope a = true := by
  obtain ⟨span,operators,hwalk,hnames⟩ := movedBlocks_walk false hm a ha
  have hattrs := getAttrs_of_mapM hnames
  simp only [rewrites,Bool.and_eq_true,decide_eq_true_eq]
  constructor
  · rintro ⟨e,he,hrange,htext⟩
    obtain ⟨doc',body',hdoc',hbody',hvisits,hselected,hscan⟩ := (mem_conversionEdits h).mp he
    cases hdoc.symm.trans hdoc'
    cases hbody.symm.trans hbody'
    obtain ⟨span',headSpan,operators',name,attrs,hwalk',hattrs',hfilter,hrange'⟩ :=
      (mem_scan_head htext).mp hscan
    have hsame := (hlocated uri doc body hdoc hbody).heads _
      (Spanned.walkExpressions_subset body hwalk) _
        (Spanned.walkExpressions_subset body hwalk') a.span rfl headSpan rfl e.range.start
          (hclSpanToLspRange_start hrange) (hclSpanToLspRange_start hrange')
    obtain ⟨-,hvariable,hoperators⟩ := Spanned.Expression.traversal.inj hsame
    have hhead := (Spanned.Expression.variable.inj hvariable).2
    rw [← hoperators,hattrs] at hattrs'
    simp [hvisits,hhead,hattrs',hfilter,hrange,hselected]
  · rintro ⟨⟨⟨hvisits,hhead⟩,hfilter⟩,hselected⟩
    cases hrange : doc.rope.hclSpanToLspRange a.span with
    | error err => simp [hrange] at hselected
    | ok range =>
      rw [hrange] at hselected
      refine ⟨⟨range,"terraform_data"⟩,?_,hrange,rfl⟩
      cases hlist : a.names with
      | nil => simp [hlist] at hfilter
      | cons name attrs =>
        rw [hhead] at hwalk
        rw [hlist] at hattrs hfilter
        exact (mem_conversionEdits h).mpr ⟨doc,body,hdoc,hbody,hvisits,hselected,(mem_scan_head rfl).mpr
          ⟨span,a.span,operators,name,attrs,hwalk,hattrs,hfilter,hrange⟩⟩

/-- The file that is no document is not edited. -/
theorem rewritten_iff_of_mem_files (hlocated : ∀ uri doc body, documents.lookup uri = some doc →
      doc.body = some body → Located doc.rope body) {request : Request} {c : Conversion}
    (h : emitted env supports documents primary request = some c) {dir : Path}
    {e : Url × SourceDocument} (he : e ∈ files env documents dir) {m : Address × Address}
    (hm : m ∈ movedBlocks (e.2.body.getD [])) {a : Address} (ha : a ∈ [m.1,m.2]) :
    Rewritten (editsIn c.rewrites e.1) e.2.rope a.span "terraform_data" ↔
      rewrites env supports documents primary request e.1 e.2.rope a = true := by
  obtain ⟨uri,doc⟩ := e
  rcases List.mem_append.mp he with he | he
  · obtain ⟨hdoc,-⟩ := mem_moduleDocs.mp he
    cases hbody : doc.body with
    | none => simp [hbody,movedBlocks] at hm
    | some body =>
      simp only [hbody,Option.getD_some] at hm
      exact rewritten_iff hlocated h hdoc hbody hm ha
  · have hnone : documents.lookup uri = none := by
      unfold unloaded at he
      split at he
      · cases he
      · split_ifs at he with hsome
        · cases he
        · split at he
          · cases he
          · cases List.mem_singleton.mp he
            simpa using hsome
    constructor
    · rintro ⟨edit,hedit,-⟩
      obtain ⟨doc',-,hdoc',-⟩ := (mem_conversionEdits h).mp hedit
      cases hnone.symm.trans hdoc'
    · intro hrewrites
      simp only [rewrites,Bool.and_eq_true] at hrewrites
      obtain ⟨⟨doc',hmem⟩,-⟩ := visits_iff.mp hrewrites.1.1.1
      cases hnone.symm.trans (lookup_of_mem_docsInScope hmem)

theorem mem_toAdd {dir : Path} {names : List String} {name : String} :
    name ∈ toAdd env documents dir names ↔
      name ∈ names ∧ name ∉ collectExistingMovedNames env documents dir := by
  simp [toAdd,List.mem_insertionSort]

theorem mem_added {c : Conversion} {dir : Path} {name : String} :
    name ∈ added env documents c dir ↔ name ∈ Multimap.filed c.namesByModule dir ∧
      env.isIdentifier name = true ∧ name ∉ collectExistingMovedNames env documents dir ∧
        (env.fs.fromFilePath (movedPath dir)).isSome := by
  unfold added
  split_ifs with hurl
  · rw [List.mem_filter,mem_toAdd]
    tauto
  · simp [hurl]

theorem added_nodup (c : Conversion) (dir : Path) : (added env documents c dir).Nodup := by
  unfold added
  split_ifs
  · exact ((List.nodup_dedup _).filter _).filter _
  · exact List.nodup_nil

theorem not_mem_of_isIdentifier {name : String} (h : env.isIdentifier name = true) :
    name ∉ ["","?"] := by
  intro hmem
  rw [env.not_identifier name hmem] at h
  cases h

/-- What a converted name has after the edit: the blocks that were kept, and the one written. -/
theorem movedAfter_eq (hlocated : ∀ uri doc body, documents.lookup uri = some doc →
      doc.body = some body → Located doc.rope body) {request : Request} {c : Conversion}
    (h : emitted env supports documents primary request = some c) {dir : Path} {name : String}
    (htarget : Targets env supports documents primary request dir name) :
    movedAfter env documents c dir name = kept env supports documents primary request dir name +
      if Writes env documents request dir name then 1 else 0 := by
  have hcount : (added env documents c dir).count name =
      if Writes env documents request dir name then 1 else 0 := by
    have hmem : name ∈ added env documents c dir ↔ Writes env documents request dir name := by
      rw [mem_added,Writes]
      by_cases hident : env.isIdentifier name = true
      · rw [mem_namesByModule hlocated h (not_mem_of_isIdentifier hident)]
        tauto
      · tauto
    by_cases hwrites : Writes env documents request dir name
    · rw [if_pos hwrites]
      exact List.count_eq_one_of_mem (added_nodup c dir) (hmem.mpr hwrites)
    · rw [if_neg hwrites]
      exact List.count_eq_zero_of_not_mem fun hadded => hwrites (hmem.mp hadded)
  rw [movedAfter,kept,hcount]
  congr 2
  apply List.map_congr_left
  intro e he
  apply List.countP_congr
  intro m hm
  have hfrom := rewritten_iff_of_mem_files hlocated h he hm (List.mem_cons_self (a := m.1))
  have hto := rewritten_iff_of_mem_files hlocated h he hm (a := m.2) (by simp)
  simp only [decide_eq_true_eq,headAfter,hfrom,hto]
  cases rewrites env supports documents primary request e.1 e.2.rope m.1 <;>
    cases rewrites env supports documents primary request e.1 e.2.rope m.2 <;> simp

end theorems

/-! A module of one file with one block. -/

def mainUrl : Url := "file:///m/main.tf"

def mainFiles : FileSystem where
  canonicalize := some
  readDir := fun _ => none
  readToString := fun _ => none
  metadata := fun _ => none
  isDir := fun path => path = ["m"]
  isFile := fun path => path = ["m","main.tf"]
  toFilePath := fun url => if url = mainUrl then some ["m","main.tf"] else none
  fromFilePath := fun path => some ("file:///" ++ "/".intercalate path)

def mainEnvironment : ActionEnvironment where
  fs := mainFiles
  urlPath := fun _ => "/m/main.tf"
  parseBody := fun _ => none
  isIdentifier := Rename.isValidIdentifier
  not_identifier := by decide

def oneBlock : SourceDocument where
  rope := "resource \"null_resource\" \"a\" \x7b\x7d".toList
  body := some [.block (0,31) "resource" [⟨(9,24),"null_resource"⟩,⟨(25,28),"a"⟩] []]

def oneBlockDocuments : KeyedMap Url SourceDocument :=
  (∅ : KeyedMap Url SourceDocument).insert mainUrl oneBlock

theorem oneBlock_located : ∀ uri doc body, oneBlockDocuments.lookup uri = some doc →
    doc.body = some body → Located doc.rope body := by
  intro uri doc body hdoc hbody
  rw [oneBlockDocuments,KeyedMap.lookup_insert_of] at hdoc
  split_ifs at hdoc
  · cases hdoc
    cases hbody
    refine ⟨?_,?_,?_,?_,?_⟩
    · intro item hitem label hlabel
      rw [List.mem_singleton.mp hitem] at hlabel
      cases hlabel
      exact ⟨⟨⟨0,9⟩,⟨0,24⟩⟩,by rfl⟩
    · intro item hitem label hlabel
      rw [List.mem_singleton.mp hitem] at hlabel
      cases hlabel
      exact ⟨'r',_,rfl,by decide⟩
    · intro item hitem item' hitem' label hlabel label' hlabel' pos hpos hpos'
      rw [List.mem_singleton.mp hitem,List.mem_singleton.mp hitem']
    · intro e he
      cases he
    · intro e he
      cases he
  · cases hdoc

theorem targets_oneBlock {request : Request} {dir : Path} {name : String}
    (h : Targets mainEnvironment (fun _ => true) oneBlockDocuments mainUrl request dir name) :
    dir = ["m"] ∧ name = "a" := by
  obtain ⟨uri,doc,body,b,-,hdoc,hdir,hbody,-,hb,hname,-,-,-⟩ := h
  rw [oneBlockDocuments,KeyedMap.lookup_insert_of] at hdoc
  split_ifs at hdoc with huri
  · cases hdoc
    cases hbody
    rw [huri] at hdir
    have hdir : some ["m"] = some dir := hdir
    cases hdir
    cases List.mem_singleton.mp hb
    have hname : some "a" = some name := hname
    cases hname
    exact ⟨rfl,rfl⟩
  · cases hdoc

end NullResource
end TerraformLs
