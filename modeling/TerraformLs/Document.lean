import TerraformLs.Hcl
import TerraformLs.Symbols

/-! The state of one document: its rope, version, parse result and what was
extracted from it, with the edits that change them. The parser and the
extractors are parameters. -/
namespace TerraformLs

/-- How a call ends: it returns a value, returns an error, or panics. -/
inductive Outcome (ε α : Type)
  | ok (value : α)
  | err (error : ε)
  | panicked
  deriving DecidableEq

inductive StateError
  | documentNotFound (uri : Url)
  | editApplication (uri : Url) (source : ParseError)
  deriving DecidableEq

structure TextEdit where
  range : Range
  newText : String
  deriving DecidableEq

/-- A formatting pass remembered for one version and one style. -/
structure FormatCacheEntry where
  version : ℤ
  styleMarker : ℕ
  edit : Option TextEdit
  deriving DecidableEq

structure ParsedFile where
  body : Option Body
  errors : List ParseError

def ParsedFile.hasErrors (parsed : ParsedFile) : Bool := !parsed.errors.isEmpty

/-- The parser and the extractors the document state is built with. -/
structure Analyzer where
  parseSourceRecoveringForUri : String → Url → ParsedFile
  extractSymbols : Body → Url → Rope → SymbolTable
  extractSymbolsFallback : String → Url → Rope → SymbolTable
  extractReferences : Body → Url → Rope → List Reference
  extractReferencesFallback : String → Url → Rope → List Reference
  extractTestSymbols : Body → Url → Rope → List Symbol

def isTftestUri (uri : Url) : Bool :=
  [".tftest.hcl",".tftest.json",".tofutest.hcl",".tofutest.json"].any
    fun suffix => suffix.toList.isSuffixOf uri.toList

structure DocumentState where
  uri : Url
  rope : Rope
  version : ℤ
  parsed : ParsedFile
  symbols : SymbolTable
  references : List Reference
  testRuns : List Symbol
  formatCache : Option FormatCacheEntry

/-- One change of a batch; without a range it replaces the whole text. -/
structure ContentChange where
  range : Option Range
  text : String
  deriving DecidableEq

/-- What a parse contributes to a document. -/
structure Analysis where
  symbols : SymbolTable
  references : List Reference
  testRuns : List Symbol

section analysis

variable (A : Analyzer)

/-- A clean parse is analysed from its body. Anything else falls back to the
text scan, and test files export no symbols either way. -/
def computeAnalysis (parsed : ParsedFile) (uri : Url) (rope : Rope) : Analysis :=
  let isTest := isTftestUri uri
  let fallback : Analysis :=
    let text := String.ofList rope
    { symbols := if isTest then {} else A.extractSymbolsFallback text uri rope
      references := A.extractReferencesFallback text uri rope
      testRuns := [] }
  match parsed.body with
  | some body =>
    if parsed.hasErrors then fallback else
      { symbols := if isTest then {} else A.extractSymbols body uri rope
        references := A.extractReferences body uri rope
        testRuns := if isTest then A.extractTestSymbols body uri rope else [] }
  | none => fallback

end analysis

namespace DocumentState

section construction

variable (A : Analyzer)

def new (uri : Url) (text : String) (version : ℤ) : DocumentState :=
  let rope := text.toList
  let parsed := A.parseSourceRecoveringForUri text uri
  let analysis := computeAnalysis A parsed uri rope
  { uri := uri, rope := rope, version := version, parsed := parsed, symbols := analysis.symbols,
    references := analysis.references, testRuns := analysis.testRuns, formatCache := none }

/-- A document restored from the index cache; its text is not parsed. -/
def hydratedFromCache (uri : Url) (text : String) (symbols : SymbolTable)
    (references : List Reference) : DocumentState :=
  { uri := uri, rope := text.toList, version := 0, parsed := ⟨none,[]⟩, symbols := symbols,
    references := references, testRuns := [], formatCache := none }

/-- Analyse the current rope. What was extracted last time is kept when the new
parse has no body. -/
def reparse (doc : DocumentState) : DocumentState :=
  let parsed := A.parseSourceRecoveringForUri (String.ofList doc.rope) doc.uri
  match parsed.body with
  | some _ =>
    let analysis := computeAnalysis A parsed doc.uri doc.rope
    { doc with parsed := parsed, symbols := analysis.symbols, references := analysis.references,
               testRuns := analysis.testRuns }
  | none => { doc with parsed := parsed }

end construction

def text (doc : DocumentState) : String := String.ofList doc.rope

/-- The characters an edit replaces. Both ends are looked up in the rope before
it is touched. -/
def editSpan (uri : Url) (rope : Rope) (range : Range) : Except StateError (ℕ × ℕ) :=
  match rope.lspPositionToByteOffset range.start with
  | .error source => .error (.editApplication uri source)
  | .ok start =>
    match rope.lspPositionToByteOffset range.end with
    | .error source => .error (.editApplication uri source)
    | .ok stop => .ok (rope.byteToChar start,rope.byteToChar stop)

/-- A failed or panicking change leaves the document as it is: the rope refuses
to remove a reversed span before it changes anything. -/
def applyChange (doc : DocumentState) (change : ContentChange) :
    DocumentState × Outcome StateError Unit :=
  match change.range with
  | some range =>
    match editSpan doc.uri doc.rope range with
    | .error e => (doc,.err e)
    | .ok (startChar,endChar) =>
      if endChar < startChar then (doc,.panicked) else
        ({ doc with rope := doc.rope.take startChar ++ change.text.toList ++ doc.rope.drop endChar
                    formatCache := none },.ok ())
  | none => ({ doc with rope := change.text.toList, formatCache := none },.ok ())

/-- The changes of a batch are applied in place, one after another; the first
that fails ends the batch and leaves the earlier ones applied. -/
def applyChanges (doc : DocumentState) : List ContentChange →
    DocumentState × Outcome StateError Unit
  | [] => (doc,.ok ())
  | change::changes =>
    match applyChange doc change with
    | (doc',.ok ()) => applyChanges doc' changes
    | (doc',.err e) => (doc',.err e)
    | (doc',.panicked) => (doc',.panicked)

/-- A batch whose version is not newer is dropped. -/
def applyVersionedChanges (doc : DocumentState) (version : ℤ) (changes : List ContentChange) :
    DocumentState × Outcome StateError (Option ℤ) :=
  if version ≤ doc.version then (doc,.ok none) else
    match applyChanges doc changes with
    | (doc',.ok ()) => ({ doc' with version := version },.ok (some version))
    | (doc',.err e) => (doc',.err e)
    | (doc',.panicked) => (doc',.panicked)

end DocumentState

/-! What an edit batch does to the rope, in terms of the rope alone. -/

namespace Rope

def InLines (rope : Rope) (pos : Position) : Prop := pos.line < (lineStartBytes rope).length

instance (rope : Rope) (pos : Position) : Decidable (InLines rope pos) :=
  inferInstanceAs (Decidable (_ < _))

/-- The index of the character a position points at. -/
def charAt (rope : Rope) (pos : Position) : ℕ :=
  match rope.lspPositionToByteOffset pos with
  | .ok byte => rope.byteToChar byte
  | .error _ => rope.length

end Rope

namespace ContentChange

/-- Both ends of the range name a line of the text. -/
def InLines (change : ContentChange) (rope : Rope) : Prop :=
  match change.range with
  | some range => rope.InLines range.start ∧ rope.InLines range.end
  | none => True

/-- The range lies in the text and does not end before it starts. -/
def Fits (change : ContentChange) (rope : Rope) : Prop :=
  match change.range with
  | some range =>
    (rope.InLines range.start ∧ rope.InLines range.end) ∧
      rope.charAt range.start ≤ rope.charAt range.end
  | none => True

/-- The text after a change that fits. -/
def edited (change : ContentChange) (rope : Rope) : Rope :=
  match change.range with
  | some range =>
    rope.take (rope.charAt range.start) ++ change.text.toList ++
      rope.drop (rope.charAt range.end)
  | none => change.text.toList

theorem Fits.inLines {change : ContentChange} {rope : Rope} (h : change.Fits rope) :
    change.InLines rope := by
  unfold Fits at h
  unfold InLines
  split at h
  · exact h.1
  · trivial

end ContentChange

/-- Each change of the batch fits the text the earlier ones leave. -/
def BatchFits : Rope → List ContentChange → Prop
  | _, [] => True
  | rope, change::changes => change.Fits rope ∧ BatchFits (change.edited rope) changes

/-- The batch stops with an error, at the text `r`. -/
inductive Refused : Rope → List ContentChange → Rope → Prop
  | here {rope : Rope} {change : ContentChange} {changes : List ContentChange}
      (h : ¬ change.InLines rope) : Refused rope (change :: changes) rope
  | later {rope r : Rope} {change : ContentChange} {changes : List ContentChange}
      (hf : change.Fits rope) (h : Refused (change.edited rope) changes r) :
      Refused rope (change :: changes) r

/-- The text after a whole batch that fits. -/
def editedBy (rope : Rope) (changes : List ContentChange) : Rope :=
  changes.foldl (fun rope change => change.edited rope) rope

theorem Refused.unique {rope r r' : Rope} {changes : List ContentChange}
    (h : Refused rope changes r) (h' : Refused rope changes r') : r = r' := by
  induction h with
  | here h =>
    cases h' with
    | here _ => rfl
    | later hf _ => exact absurd hf.inLines h
  | later hf _ ih =>
    cases h' with
    | here h => exact absurd hf.inLines h
    | later _ h' => exact ih h'

theorem Refused.not_batchFits {rope r : Rope} {changes : List ContentChange}
    (h : Refused rope changes r) : ¬ BatchFits rope changes := by
  induction h with
  | here h => exact fun hb => h hb.1.inLines
  | later _ _ ih => exact fun hb => ih hb.2

/-- A batch of full texts always fits. -/
theorem batchFits_fullText {changes : List ContentChange} (h : ∀ c ∈ changes, c.range = none)
    (rope : Rope) : BatchFits rope changes := by
  induction changes generalizing rope with
  | nil => trivial
  | cons c cs ih =>
    have hc : c.Fits rope := by simp [ContentChange.Fits,h c List.mem_cons_self]
    exact ⟨hc,ih (fun c' hc' => h c' (List.mem_cons_of_mem c hc')) _⟩

namespace DocumentState

/-- Edits leave everything but the rope and the format cache alone. -/
def EditedFrom (doc doc' : DocumentState) : Prop :=
  ∃ rope cache, doc' = { doc with rope := rope, formatCache := cache }

theorem EditedFrom.refl (doc : DocumentState) : EditedFrom doc doc := ⟨_,_,rfl⟩

theorem EditedFrom.trans {d₁ d₂ d₃ : DocumentState} (h : EditedFrom d₁ d₂)
    (h' : EditedFrom d₂ d₃) : EditedFrom d₁ d₃ := by
  obtain ⟨_,_,rfl⟩ := h
  obtain ⟨_,_,rfl⟩ := h'
  exact ⟨_,_,rfl⟩

theorem editSpan_eq (uri : Url) (rope : Rope) (range : Range)
    (hs : rope.InLines range.start) (he : rope.InLines range.end) :
    editSpan uri rope range = .ok (rope.charAt range.start,rope.charAt range.end) := by
  have hok : ∀ pos, rope.InLines pos → ∃ b, rope.lspPositionToByteOffset pos = .ok b := by
    intro pos hpos
    cases h : rope.lspPositionToByteOffset pos with
    | ok b => exact ⟨b,rfl⟩
    | error e => exact absurd (Rope.lspPositionToByteOffset_error.mp h).1 (Nat.not_le.mpr hpos)
  obtain ⟨a,ha⟩ := hok _ hs
  obtain ⟨b,hb⟩ := hok _ he
  simp [editSpan,Rope.charAt,ha,hb]

theorem editSpan_error (uri : Url) (rope : Rope) (range : Range)
    (h : ¬ (rope.InLines range.start ∧ rope.InLines range.end)) :
    ∃ source, editSpan uri rope range = .error (.editApplication uri source) := by
  have herr : ∀ pos, ¬ rope.InLines pos → ∃ e, rope.lspPositionToByteOffset pos = .error e :=
    fun pos hpos => ⟨_,Rope.lspPositionToByteOffset_error.mpr ⟨Nat.not_lt.mp hpos,rfl⟩⟩
  unfold editSpan
  cases hs : rope.lspPositionToByteOffset range.start with
  | error source => exact ⟨source,rfl⟩
  | ok a =>
    by_cases hin : rope.InLines range.start
    · obtain ⟨e,he⟩ := herr _ fun hend => h ⟨hin,hend⟩
      exact ⟨e,by simp [he]⟩
    · obtain ⟨e,he⟩ := herr _ hin
      rw [he] at hs
      cases hs

/-- A change that fits is applied. -/
theorem applyChange_fits (doc : DocumentState) {change : ContentChange}
    (h : change.Fits doc.rope) : applyChange doc change =
      ({ doc with rope := change.edited doc.rope, formatCache := none },.ok ()) := by
  unfold ContentChange.Fits at h
  unfold applyChange ContentChange.edited
  cases hr : change.range with
  | none => rfl
  | some range =>
    rw [hr] at h
    simp [editSpan_eq doc.uri doc.rope range h.1.1 h.1.2,Nat.not_lt.mpr h.2]

/-- A change that names a line past the end is refused. -/
theorem applyChange_refused (doc : DocumentState) {change : ContentChange}
    (h : ¬ change.InLines doc.rope) :
    ∃ source, applyChange doc change = (doc,.err (.editApplication doc.uri source)) := by
  unfold ContentChange.InLines at h
  unfold applyChange
  cases hr : change.range with
  | none => simp [hr] at h
  | some range =>
    rw [hr] at h
    obtain ⟨source,hs⟩ := editSpan_error doc.uri doc.rope range h
    exact ⟨source,by simp [hs]⟩

/-- A change whose range is reversed panics. -/
theorem applyChange_reversed (doc : DocumentState) {change : ContentChange}
    (hin : change.InLines doc.rope) (h : ¬ change.Fits doc.rope) :
    applyChange doc change = (doc,.panicked) := by
  unfold ContentChange.InLines at hin
  unfold ContentChange.Fits at h
  unfold applyChange
  cases hr : change.range with
  | none => simp [hr] at h
  | some range =>
    rw [hr] at hin h
    have hlt : doc.rope.charAt range.end < doc.rope.charAt range.start :=
      Nat.not_le.mp fun hle => h ⟨hin,hle⟩
    simp [editSpan_eq doc.uri doc.rope range hin.1 hin.2,hlt]

/-- The three ways a batch can end. -/
theorem applyChanges_cases (doc : DocumentState) (changes : List ContentChange) :
    (BatchFits doc.rope changes ∧ ∃ cache, applyChanges doc changes =
      ({ doc with rope := editedBy doc.rope changes, formatCache := cache },.ok ())) ∨
    (∃ r cache source, Refused doc.rope changes r ∧ applyChanges doc changes =
      ({ doc with rope := r, formatCache := cache },.err (.editApplication doc.uri source))) ∨
    (¬ BatchFits doc.rope changes ∧ (∀ r, ¬ Refused doc.rope changes r) ∧
      ∃ r cache, applyChanges doc changes =
        ({ doc with rope := r, formatCache := cache },.panicked)) := by
  induction changes generalizing doc with
  | nil => exact .inl ⟨trivial,doc.formatCache,rfl⟩
  | cons change changes ih =>
    by_cases hf : change.Fits doc.rope
    · have hstep := applyChange_fits doc hf
      rcases ih { doc with rope := change.edited doc.rope, formatCache := none } with
        ⟨hb,cache,h⟩ | ⟨r,cache,source,hr,h⟩ | ⟨hb,hr,r,cache,h⟩
      · exact .inl ⟨⟨hf,hb⟩,cache,by simp only [applyChanges,hstep,h]; rfl⟩
      · exact .inr (.inl ⟨r,cache,source,.later hf hr,by simp only [applyChanges,hstep,h]⟩)
      · refine .inr (.inr ⟨fun hb' => hb hb'.2,?_,r,cache,by simp only [applyChanges,hstep,h]⟩)
        intro r' hr'
        cases hr' with
        | here h => exact h hf.inLines
        | later _ h => exact hr r' h
    · by_cases hin : change.InLines doc.rope
      · have hstep := applyChange_reversed doc hin hf
        refine .inr (.inr ⟨fun hb => hf hb.1,?_,doc.rope,doc.formatCache,by
          simp only [applyChanges,hstep]⟩)
        intro r' hr'
        cases hr' with
        | here h => exact h hin
        | later h _ => exact hf h
      · obtain ⟨source,hstep⟩ := applyChange_refused doc hin
        exact .inr (.inl ⟨doc.rope,doc.formatCache,source,.here hin,by
          simp only [applyChanges,hstep]⟩)

end DocumentState

/-! The analyzer restricted to files that are empty or hold one bare variable
declaration, for runs on concrete texts. -/

def mainUri : Url := "file:///m/main.tf"

/-- The name in `variable "name" {}`. -/
def declaredVariable (text : Rope) : Option String :=
  if "variable \"".toList.isPrefixOf text && "\" {}".toList.isSuffixOf text then
    some (String.ofList ((text.drop 10).take (text.length - 14)))
  else none

def declaredSymbol (name : String) (uri : Url) (rope : Rope) : Symbol where
  name := name
  kind := .variable
  location := .new uri ⟨⟨0,0⟩,⟨0,rope.lenUtf16Cu⟩⟩
  nameRange := ⟨⟨0,9⟩,⟨0,11 + name.length⟩⟩
  detail := none
  doc := none

def declarationAnalyzer : Analyzer where
  parseSourceRecoveringForUri text _ :=
    match declaredVariable text.toList with
    | some name => ⟨some [.block "variable" [.string name] []],[]⟩
    | none => ⟨some [],[]⟩
  extractSymbols body uri rope :=
    match body with
    | [.block _ [.string name] _] =>
      { «variables» := (∅ : KeyedMap String Symbol).insert name (declaredSymbol name uri rope) }
    | _ => {}
  extractSymbolsFallback _ _ _ := {}
  extractReferences _ _ _ := []
  extractReferencesFallback _ _ _ := []
  extractTestSymbols _ _ _ := []

end TerraformLs
