import TerraformLs.GitUrls
import TerraformLs.Rename
import TerraformLs.SpannedTree

/-! What the code actions that convert blocks share: the documents of a scope,
the edit of one token, the file that takes the `moved` blocks, and what such
edits leave of a document. -/
namespace TerraformLs

/-- Where the edits of a code action may fall. -/
inductive Scope
  /-- What is under the cursor, or what a diagnostic is attached to. -/
  | «instance»
  | selection (range : Range)
  | file | module | workspace
  deriving DecidableEq

def Scope.isSelection : Scope → Bool
  | .selection _ => true
  | _ => false

/-- Ranges that share a position; both ends count as inside. -/
def Range.intersects (a b : Range) : Bool := b.start.atMost a.end && a.start.atMost b.end

/-- Whether the scope takes the edits at a range. -/
def Scope.takes : Scope → Range → Bool
  | .selection range, r => r.intersects range
  | _, _ => true

structure SourceDocument where
  rope : Rope
  body : Option Spanned.Body

structure ActionEnvironment where
  fs : FileSystem
  urlPath : Url → String
  parseBody : String → Option Spanned.Body
  /-- Whether a text can stand as a name in an expression. -/
  isIdentifier : String → Bool
  not_identifier : ∀ name ∈ ["","?"], isIdentifier name = false

inductive DocumentChangeOperation
  | createFile (uri : Url)
  | edit (uri : Url) (edits : List TextEdit)
  deriving DecidableEq

inductive TargetFileStrategy
  | loaded (eof : Position) (needsLeadingNewline : Bool)
  | onDisk (eof : Position) (needsLeadingNewline : Bool)
  | create
  deriving DecidableEq

namespace CodeActions

variable (env : ActionEnvironment) (documents : KeyedMap Url SourceDocument)

def entries : List (Url × SourceDocument) := documents.entries.map fun e => (e.1,e.2)

/-- The documents whose files are in a directory. -/
def moduleDocs (dir : Path) : List (Url × SourceDocument) :=
  (entries documents).filter fun e => env.fs.parentDir e.1 = some dir

def docsInScope (primary : Url) : Scope → List (Url × SourceDocument)
  | .instance | .selection _ | .file => (documents.lookup primary).toList.map (primary,·)
  | .module =>
    match env.fs.parentDir primary with
    | none => []
    | some dir => moduleDocs env documents dir
  | .workspace => (entries documents).filter fun e =>
      (Rename.findText (env.urlPath e.1).toList "/.terraform/".toList).isNone

/-- The edit that replaces a token. -/
def tokenEdit (rope : Rope) (span : Spanned.Span) (newText : String) : List TextEdit :=
  match rope.hclSpanToLspRange span with
  | .ok range => [⟨range,newText⟩]
  | .error _ => []

def movedPath (dir : Path) : Path := dir ++ ["moved.tf"]

/-- The end of a text, and whether what is appended has to start a new line. -/
def endOf (rope : Rope) : Position × Bool :=
  ((rope.byteOffsetToLspPosition rope.lenBytes).toOption.getD ⟨0,0⟩,
    rope ≠ [] && rope.getLast? ≠ some '\n')

def resolveTargetStrategy (targetUrl : Url) (targetPath : Path) : TargetFileStrategy :=
  match documents.lookup targetUrl with
  | some doc => .loaded (endOf doc.rope).1 (endOf doc.rope).2
  | none =>
    match env.fs.readToString targetPath with
    | some content => .onDisk (endOf content.toList).1 (endOf content.toList).2
    | none => .create

/-- The operations that write a text at the end of a file, which they may create. -/
def appendOps (targetUrl : Url) (bodyText : String) :
    TargetFileStrategy → List DocumentChangeOperation
  | .loaded eof needsLeadingNewline | .onDisk eof needsLeadingNewline =>
    [.edit targetUrl [⟨⟨eof,eof⟩,(if needsLeadingNewline then "\n" else "") ++ "\n" ++ bodyText⟩]]
  | .create => [.createFile targetUrl,.edit targetUrl [⟨⟨⟨0,0⟩,⟨0,0⟩⟩,bodyText⟩]]

/-- A traversal of attributes only. -/
structure Address where
  span : Spanned.Span
  head : String
  names : List String
  deriving DecidableEq

def Address.text (a : Address) : String := a.head ++ String.join (a.names.map ("." ++ ·))

def getAttrName : Spanned.TraversalOperator → Option String
  | .getAttr _ name => some name
  | _ => none

/-- The address that the first traversal under a key is, if it is one. -/
def traversalAttr (key : String) : Spanned.Body → Option Address
  | [] => none
  | .attribute _ k (.traversal _ expr operators) :: rest =>
    if k = key then
      match expr with
      | .variable span head => (operators.mapM getAttrName).map (⟨span,head,·⟩)
      | _ => none
    else traversalAttr key rest
  | _::rest => traversalAttr key rest

/-- The addresses in the `moved` blocks of a body. -/
def movedBlocks (body : Spanned.Body) : List (Address × Address) :=
  body.filterMap fun
    | .block _ ident _ inner =>
      if ident = "moved" then do return (← traversalAttr "from" inner,← traversalAttr "to" inner)
      else none
    | _ => none

/-! After an edit. An edit replaces the token whose range it has. -/

/-- The edits of an action in one document. -/
def editsIn (rewrites : List (Url × List TextEdit)) (uri : Url) : List TextEdit :=
  (rewrites.filter (·.1 = uri)).flatMap Prod.snd

/-- Some edit writes the text in place of the token. -/
def Rewritten (edits : List TextEdit) (rope : Rope) (span : Spanned.Span) (newText : String) : Prop :=
  ∃ e ∈ edits, rope.hclSpanToLspRange span = .ok e.range ∧ e.newText = newText

instance (edits : List TextEdit) (rope : Rope) (span : Spanned.Span) (newText : String) :
    Decidable (Rewritten edits rope span newText) :=
  inferInstanceAs (Decidable (∃ e ∈ edits, _))

def firstLabel : Spanned.Structure → Option Spanned.BlockLabel
  | .block _ _ labels _ => labels.head?
  | .attribute _ _ _ => none

/-- The first name of a traversal with its span. -/
def headToken : Spanned.Expression → Option Spanned.Span
  | .traversal _ (.variable span _) _ => some span
  | _ => none

def getAttrs (operators : List Spanned.TraversalOperator) : List (Spanned.Span × String) :=
  operators.filterMap fun
    | .getAttr span name => some (span,name)
    | _ => none

def attrTokens : Spanned.Expression → List Spanned.Span
  | .traversal _ _ operators => (getAttrs operators).map Prod.fst
  | _ => []

/-- The spans of a parsed body lie in its text, and no two tokens start at the same position. -/
structure Located (rope : Rope) (body : Spanned.Body) : Prop where
  inText : ∀ item ∈ body, ∀ label ∈ firstLabel item, ∃ range,
    rope.hclSpanToLspRange label.span = .ok range
  /-- The word before a label is at least one character. -/
  preceded : ∀ item ∈ body, ∀ label ∈ firstLabel item, ∃ c rest, rope = c::rest ∧
    c.utf8Size ≤ label.span.1
  labels : ∀ item ∈ body, ∀ item' ∈ body, ∀ label ∈ firstLabel item, ∀ label' ∈ firstLabel item',
    ∀ pos, rope.byteOffsetToLspPosition label.span.1 = .ok pos →
      rope.byteOffsetToLspPosition label'.span.1 = .ok pos → item = item'
  heads : ∀ e ∈ Spanned.expressions body, ∀ e' ∈ Spanned.expressions body, ∀ span ∈ headToken e,
    ∀ span' ∈ headToken e', ∀ pos, rope.byteOffsetToLspPosition span.1 = .ok pos →
      rope.byteOffsetToLspPosition span'.1 = .ok pos → e = e'
  attrs : ∀ e ∈ Spanned.expressions body, ∀ e' ∈ Spanned.expressions body, ∀ span ∈ headToken e,
    ∀ span' ∈ attrTokens e', ∀ pos, rope.byteOffsetToLspPosition span.1 = .ok pos →
      rope.byteOffsetToLspPosition span'.1 ≠ .ok pos

/-- The file of a module for its `moved` blocks, when it is no document yet. -/
def unloaded (dir : Path) : List (Url × SourceDocument) :=
  match env.fs.fromFilePath (movedPath dir) with
  | none => []
  | some url =>
    if (documents.lookup url).isSome then [] else
      match env.fs.readToString (movedPath dir) with
      | none => []
      | some content => [(url,⟨content.toList,env.parseBody content⟩)]

def files (dir : Path) : List (Url × SourceDocument) :=
  moduleDocs env documents dir ++ unloaded env documents dir

section lemmas

variable {env} {documents}

theorem mem_tokenEdit {rope : Rope} {span : Spanned.Span} {newText : String} {e : TextEdit} :
    e ∈ tokenEdit rope span newText ↔
      rope.hclSpanToLspRange span = .ok e.range ∧ e.newText = newText := by
  cases e with
  | mk range text =>
    cases hrange : rope.hclSpanToLspRange span with
    | error err => simp [tokenEdit,hrange]
    | ok r => simp [tokenEdit,hrange,eq_comm]

theorem mem_editsIn {rewrites : List (Url × List TextEdit)} {uri : Url} {e : TextEdit} :
    e ∈ editsIn rewrites uri ↔ ∃ edits, (uri,edits) ∈ rewrites ∧ e ∈ edits := by
  simp only [editsIn,List.mem_flatMap,List.mem_filter,decide_eq_true_eq]
  constructor
  · rintro ⟨⟨uri',edits⟩,⟨hmem,rfl⟩,he⟩
    exact ⟨edits,hmem,he⟩
  · rintro ⟨edits,hmem,he⟩
    exact ⟨(uri,edits),⟨hmem,rfl⟩,he⟩

theorem mem_entries {uri : Url} {doc : SourceDocument} :
    (uri,doc) ∈ entries documents ↔ documents.lookup uri = some doc := by
  constructor
  · intro h
    obtain ⟨e,he,heq⟩ := List.mem_map.mp h
    cases heq
    exact KeyedMap.mem_entries.mp he
  · intro h
    exact List.mem_map.mpr ⟨⟨uri,doc⟩,KeyedMap.mem_entries.mpr h,rfl⟩

theorem mem_moduleDocs {dir : Path} {uri : Url} {doc : SourceDocument} :
    (uri,doc) ∈ moduleDocs env documents dir ↔
      documents.lookup uri = some doc ∧ env.fs.parentDir uri = some dir := by
  simp [moduleDocs,mem_entries]

theorem lookup_of_mem_docsInScope {primary : Url} {scope : Scope} {uri : Url}
    {doc : SourceDocument} (h : (uri,doc) ∈ docsInScope env documents primary scope) :
    documents.lookup uri = some doc := by
  have hactive : ∀ active : Option SourceDocument, documents.lookup primary = active →
      (uri,doc) ∈ active.toList.map (primary,·) → documents.lookup uri = some doc := by
    intro active hlookup hmem
    obtain ⟨doc',hdoc',heq⟩ := List.mem_map.mp hmem
    cases heq
    rw [hlookup]
    exact Option.mem_toList.mp hdoc'
  cases scope with
  | «instance» => exact hactive _ rfl h
  | selection range => exact hactive _ rfl h
  | file => exact hactive _ rfl h
  | module =>
    cases hdir : env.fs.parentDir primary with
    | none => simp [docsInScope,hdir] at h
    | some dir =>
      simp only [docsInScope,hdir] at h
      exact (mem_moduleDocs.mp h).1
  | workspace => exact mem_entries.mp (List.mem_of_mem_filter h)

theorem hclSpanToLspRange_start {rope : Rope} {span : Spanned.Span} {range : Range}
    (h : rope.hclSpanToLspRange span = .ok range) :
    rope.byteOffsetToLspPosition span.1 = .ok range.start := by
  unfold Rope.hclSpanToLspRange at h
  cases hstart : rope.byteOffsetToLspPosition span.1 with
  | error err => simp [hstart,bind,Except.bind] at h
  | ok start =>
    cases hstop : rope.byteOffsetToLspPosition span.2 with
    | error err => simp [hstart,hstop,bind,Except.bind] at h
    | ok stop =>
      simp only [hstart,hstop,bind,Except.bind,pure,Except.pure,Except.ok.injEq] at h
      rw [← h]

/-- What follows a character is not at the start of the text. -/
theorem position_ne_start {c : Char} {rest : Rope} {offset : ℕ} {pos : Position}
    (hpreceded : c.utf8Size ≤ offset)
    (h : Rope.byteOffsetToLspPosition (c::rest) offset = .ok pos) : pos ≠ ⟨0,0⟩ := by
  unfold Rope.byteOffsetToLspPosition at h
  dsimp only at h
  split_ifs at h
  have hpos := Except.ok.inj h
  intro hzero
  rw [hzero,Position.mk.injEq] at hpos
  obtain ⟨hline,hcharacter⟩ := hpos
  have hsize : 0 < c.utf8Size := Char.utf8Size_pos c
  have hutf16 : 0 < Rope.utf16Len c := by
    unfold Rope.utf16Len
    split_ifs <;> omega
  have hskip : ¬offset < c.utf8Size := by omega
  have hfirst : (Rope.lineStartBytes (c::rest)).getD 0 0 = 0 := rfl
  rw [hline,hfirst] at hcharacter
  simp only [Rope.byteSlice,Rope.byteToChar,if_pos hsize,if_neg hskip,List.take_succ_cons,
    List.drop_zero,Rope.lenUtf16Cu,List.map_cons,List.sum_cons] at hcharacter
  omega

theorem Located.start_ne {rope : Rope} {body : Spanned.Body} (h : Located rope body)
    {item : Spanned.Structure} (hitem : item ∈ body) {label : Spanned.BlockLabel}
    (hlabel : firstLabel item = some label) {range : Range}
    (hrange : rope.hclSpanToLspRange label.span = .ok range) : range.start ≠ ⟨0,0⟩ := by
  obtain ⟨c,rest,hrope,hsize⟩ := h.preceded item hitem label hlabel
  have hstart := hclSpanToLspRange_start hrange
  rw [hrope] at hstart
  exact position_ne_start hsize hstart

/-- No span of a label fits an empty text. -/
theorem Located.empty_error {rope : Rope} {body : Spanned.Body} (h : Located rope body)
    {item : Spanned.Structure} (hitem : item ∈ body) {label : Spanned.BlockLabel}
    (hlabel : firstLabel item = some label) :
    ∃ err, Rope.hclSpanToLspRange [] label.span = .error err := by
  obtain ⟨c,rest,-,hsize⟩ := h.preceded item hitem label hlabel
  have hpos : 0 < label.span.1 := lt_of_lt_of_le (Char.utf8Size_pos c) hsize
  cases hrange : Rope.hclSpanToLspRange [] label.span with
  | error err => exact ⟨err,rfl⟩
  | ok range =>
    have hstart := hclSpanToLspRange_start hrange
    simp [Rope.byteOffsetToLspPosition,Rope.lenBytes,hpos] at hstart

/-- The address under a key is visited by a walk. -/
theorem traversalAttr_walk (keys : Bool) {key : String} {inner : Spanned.Body} {a : Address}
    (h : traversalAttr key inner = some a) : ∃ span operators,
      .traversal span (.variable a.span a.head) operators ∈ Spanned.walkBody keys inner ∧
        operators.mapM getAttrName = some a.names := by
  induction inner with
  | nil => cases h
  | cons item rest ih =>
    have hlater : traversalAttr key rest = some a → ∃ span operators,
        .traversal span (.variable a.span a.head) operators ∈
          Spanned.walkBody keys (item::rest) ∧ operators.mapM getAttrName = some a.names := by
      intro hrest
      obtain ⟨span,operators,hmem,hnames⟩ := ih hrest
      exact ⟨span,operators,List.mem_append_right _ hmem,hnames⟩
    unfold traversalAttr at h
    split at h
    · cases h
    · rename_i span expr operators rest' heq
      cases heq
      split_ifs at h
      · split at h
        · obtain ⟨names,hnames,rfl⟩ := Option.map_eq_some_iff.mp h
          refine ⟨span,operators,List.mem_append_left _ ?_,hnames⟩
          simp [Spanned.walkStructure,Spanned.walkExpression]
        · cases h
      · exact hlater h
    · rename_i rest' _ heq
      cases heq
      exact hlater h

theorem walkBody_block {keys : Bool} {span : Spanned.Span} {ident : String}
    {labels : List Spanned.BlockLabel} {inner body : Spanned.Body}
    (h : .block span ident labels inner ∈ body) :
    Spanned.walkBody keys inner ⊆ Spanned.walkBody keys body := by
  induction body with
  | nil => cases h
  | cons item rest ih =>
    rcases List.mem_cons.mp h with heq | hrest
    · rw [← heq]
      exact List.subset_append_left _ _
    · exact List.Subset.trans (ih hrest) (List.subset_append_right _ _)

/-- Both addresses of a `moved` block are visited. -/
theorem movedBlocks_walk (keys : Bool) {body : Spanned.Body} {m : Address × Address}
    (h : m ∈ movedBlocks body) : ∀ a ∈ [m.1,m.2], ∃ span operators,
      .traversal span (.variable a.span a.head) operators ∈ Spanned.walkBody keys body ∧
        operators.mapM getAttrName = some a.names := by
  obtain ⟨item,hitem,hm⟩ := List.mem_filterMap.mp h
  cases item with
  | «attribute» keySpan key value => cases hm
  | block span ident labels inner =>
    simp only at hm
    split_ifs at hm
    cases hfrom : traversalAttr "from" inner with
    | none => simp [hfrom] at hm
    | some source =>
      cases hto : traversalAttr "to" inner with
      | none => simp [hfrom,hto] at hm
      | some target =>
        simp only [hfrom,hto,Option.bind_eq_bind,Option.bind_some,Option.pure_def,
          Option.some.injEq] at hm
        rw [← hm]
        intro a ha
        have hattr : ∃ key, traversalAttr key inner = some a := by
          rcases List.mem_cons.mp ha with rfl | ha
          · exact ⟨_,hfrom⟩
          · rw [List.mem_singleton.mp ha]
            exact ⟨_,hto⟩
        obtain ⟨key,hkey⟩ := hattr
        obtain ⟨span,operators,hmem,hnames⟩ := traversalAttr_walk keys hkey
        exact ⟨span,operators,walkBody_block hitem hmem,hnames⟩

end lemmas

end CodeActions
end TerraformLs
