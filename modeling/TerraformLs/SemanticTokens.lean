import Mathlib.Data.List.Sort
import Mathlib.Data.Prod.Lex
import TerraformLs.Document

/-! The semantic tokens of a document. Labels and references are marked, sorted by
position and sent as the steps from each token to the next. -/
namespace TerraformLs
namespace SemanticTokens

structure RawToken where
  line : ℕ
  character : ℕ
  length : ℕ
  typeId : ℕ
  modifiers : ℕ
  deriving DecidableEq

/-- A token as it is sent, relative to the one before. -/
structure SemanticToken where
  deltaLine : ℕ
  deltaStart : ℕ
  length : ℕ
  tokenType : ℕ
  tokenModifiersBitset : ℕ
  deriving DecidableEq

/-! Indices into the legend. -/

def typeToken : ℕ := 1

def variableToken : ℕ := 2

def namespaceToken : ℕ := 4

section collect

/-- The symbols of a table, kind by kind. Providers get no token. -/
def forEachSymbol (symbols : SymbolTable) : List Symbol :=
  symbols.variables.entries.map Sigma.snd ++ symbols.locals.entries.map Sigma.snd ++
    symbols.outputs.entries.map Sigma.snd ++ symbols.modules.entries.map Sigma.snd ++
    symbols.resources.entries.map Sigma.snd ++ symbols.dataSources.entries.map Sigma.snd

def symbolType : SymbolKind → Option ℕ
  | .variable | .local | .output => some variableToken
  | .resource | .dataSource => some typeToken
  | .module => some namespaceToken
  | .provider | .terraformBlock => none

def referenceType : ReferenceKind → ℕ
  | .variable _ | .local _ => variableToken
  | .module _ => namespaceToken
  | .resource _ _ | .dataSource _ _ => typeToken

def SymbolLocation.range (location : SymbolLocation) : Range :=
  ⟨⟨location.startLine,location.startCharacter⟩,⟨location.endLine,location.endCharacter⟩⟩

def RawToken.fromRange (range : Range) (typeId length : ℕ) : RawToken :=
  ⟨range.start.line,range.start.character,length,typeId,0⟩

/-- A token for a label, unless it spans lines or is empty. -/
def pushLabelToken (range : Range) (typeId : ℕ) : Option RawToken :=
  if range.start.line ≠ range.end.line then none
  else
    let length := range.end.character - range.start.character
    if length = 0 then none else some (RawToken.fromRange range typeId length)

/-- Nothing of a reference across lines is marked beyond its start. -/
def referenceWidth (range : Range) : ℕ :=
  if range.start.line = range.end.line then range.end.character - range.start.character else 0

def symbolToken (sym : Symbol) : Option RawToken :=
  (symbolType sym.kind).bind fun typeId => pushLabelToken sym.nameRange typeId

def referenceToken (r : Reference) : RawToken :=
  let range := SymbolLocation.range r.location
  RawToken.fromRange range (referenceType r.kind) (referenceWidth range)

def rawTokens (doc : DocumentState) : List RawToken :=
  (forEachSymbol doc.symbols).filterMap symbolToken ++ doc.references.map referenceToken

end collect

section encode

def RawToken.position (t : RawToken) : ℕ ×ₗ ℕ := toLex (t.line,t.character)

def sortTokens (tokens : List RawToken) : List RawToken :=
  tokens.insertionSort fun a b => a.position ≤ b.position

def encodeFrom : ℕ → ℕ → List RawToken → List SemanticToken
  | _, _, [] => []
  | prevLine, prevChar, t::tokens =>
    let deltaLine := t.line - prevLine
    let deltaStart := if deltaLine = 0 then t.character - prevChar else t.character
    ⟨deltaLine,deltaStart,t.length,t.typeId,t.modifiers⟩ :: encodeFrom t.line t.character tokens

def encodeDelta (tokens : List RawToken) : List SemanticToken := encodeFrom 0 0 tokens

def encodeTokens (doc : DocumentState) : List SemanticToken :=
  encodeDelta (sortTokens (rawTokens doc))

/-- What a client makes of the steps: running sums of lines, and of columns on a line. -/
def decodeFrom : ℕ → ℕ → List SemanticToken → List RawToken
  | _, _, [] => []
  | prevLine, prevChar, t::tokens =>
    let line := prevLine + t.deltaLine
    let character := if t.deltaLine = 0 then prevChar + t.deltaStart else t.deltaStart
    ⟨line,character,t.length,t.tokenType,t.tokenModifiersBitset⟩ :: decodeFrom line character tokens

def decode (tokens : List SemanticToken) : List RawToken := decodeFrom 0 0 tokens

/-- No step goes back, so no difference of unsigned numbers is cut off at zero. -/
def NoUnderflow : ℕ → ℕ → List RawToken → Prop
  | _, _, [] => True
  | prevLine, prevChar, t::tokens =>
    prevLine ≤ t.line ∧ (t.line - prevLine = 0 → prevChar ≤ t.character) ∧
      NoUnderflow t.line t.character tokens

theorem sortTokens_perm (tokens : List RawToken) : (sortTokens tokens).Perm tokens :=
  List.perm_insertionSort _ _

theorem sortTokens_sorted (tokens : List RawToken) :
    (sortTokens tokens).Pairwise fun a b => a.position ≤ b.position := by
  have htotal : Std.Total fun a b : RawToken => a.position ≤ b.position :=
    ⟨fun a b => le_total a.position b.position⟩
  have htrans : IsTrans RawToken fun a b => a.position ≤ b.position :=
    ⟨fun _ _ _ hab hbc => hab.trans hbc⟩
  exact List.pairwise_insertionSort _ tokens

theorem decodeFrom_encodeFrom {prevLine prevChar : ℕ} {tokens : List RawToken}
    (h : NoUnderflow prevLine prevChar tokens) :
    decodeFrom prevLine prevChar (encodeFrom prevLine prevChar tokens) = tokens := by
  induction tokens generalizing prevLine prevChar with
  | nil => rfl
  | cons t tokens ih =>
    obtain ⟨hline,hchar,h⟩ := h
    have hlineBack : prevLine + (t.line - prevLine) = t.line := by omega
    simp only [encodeFrom,decodeFrom,hlineBack]
    by_cases hsame : t.line - prevLine = 0
    · have hcharBack : prevChar + (t.character - prevChar) = t.character := by
        have hle := hchar hsame
        omega
      rw [if_pos hsame,if_pos hsame,hcharBack,ih h]
    · rw [if_neg hsame,if_neg hsame,ih h]

theorem position_le_iff {a b : RawToken} : a.position ≤ b.position ↔
    a.line < b.line ∨ a.line = b.line ∧ a.character ≤ b.character := Prod.Lex.toLex_le_toLex

theorem noUnderflow_of_sorted {prevLine prevChar : ℕ} {tokens : List RawToken}
    (hfirst : ∀ t ∈ tokens, prevLine < t.line ∨ prevLine = t.line ∧ prevChar ≤ t.character)
    (h : tokens.Pairwise fun a b => a.position ≤ b.position) :
    NoUnderflow prevLine prevChar tokens := by
  induction tokens generalizing prevLine prevChar with
  | nil => trivial
  | cons t tokens ih =>
    obtain ⟨hhead,htail⟩ := List.pairwise_cons.mp h
    have ht := hfirst t List.mem_cons_self
    refine ⟨by omega,fun hsame => by omega,ih (fun t' ht' => ?_) htail⟩
    exact position_le_iff.mp (hhead t' ht')

end encode

section apart

/-- The tokens come one after another, and none runs into the next one of its line. -/
def WellFormed (tokens : List RawToken) : Prop :=
  tokens.Pairwise fun a b => a.position < b.position ∧
    (a.line = b.line → a.character + a.length ≤ b.character)

/-- The ranges of a document that get a token: labels on one line that are not empty, and
references. -/
def labelRanges (doc : DocumentState) : List Range :=
  ((forEachSymbol doc.symbols).filter fun sym => (symbolToken sym).isSome).map Symbol.nameRange

def referenceRanges (doc : DocumentState) : List Range :=
  doc.references.map fun r => SymbolLocation.range r.location

/-- The second range starts where the first one does, or further inside it when the first
one lies on one line. -/
def StartsIn (a b : Range) : Prop :=
  b.start = a.start ∨ a.start.line = a.end.line ∧ b.start.line = a.start.line ∧
    a.start.character ≤ b.start.character ∧ b.start.character < a.end.character

/-- None of the ranges that get a token starts in another. -/
def Apart (ranges : List Range) : Prop :=
  ranges.Pairwise fun a b => ¬StartsIn a b ∧ ¬StartsIn b a

/-- Two tokens that do not touch, whichever comes first. -/
def Clear (a b : RawToken) : Prop :=
  a.position ≠ b.position ∧ (a.line = b.line →
    a.character + a.length ≤ b.character ∨ b.character + b.length ≤ a.character)

theorem Clear.symm {a b : RawToken} (h : Clear a b) : Clear b a :=
  ⟨fun he => h.1 he.symm,fun he => (h.2 he.symm).symm⟩

theorem wellFormed_iff_clear {tokens : List RawToken}
    (h : tokens.Pairwise fun a b => a.position ≤ b.position) :
    WellFormed tokens ↔ tokens.Pairwise Clear := by
  constructor
  · refine fun hw => hw.imp fun {a b} hab => ⟨ne_of_lt hab.1,fun hline => .inl (hab.2 hline)⟩
  · intro hc
    refine (h.and hc).imp fun {a b} hab => ?_
    obtain ⟨hle,hne,hapart⟩ := hab
    refine ⟨lt_of_le_of_ne hle hne,fun hline => ?_⟩
    have hchar : a.character ≤ b.character := by
      rcases position_le_iff.mp hle with hlt | hle
      · omega
      · exact hle.2
    have hchars : a.character ≠ b.character := by
      intro he
      apply hne
      rw [RawToken.position,RawToken.position,hline,he]
    have happ := hapart hline
    omega

/-- The token of a range. -/
def marking (range : Range) (typeId : ℕ) : RawToken :=
  RawToken.fromRange range typeId (referenceWidth range)

theorem clear_marking (a b : Range) (t u : ℕ) :
    Clear (marking a t) (marking b u) ↔ ¬StartsIn a b ∧ ¬StartsIn b a := by
  obtain ⟨⟨al,ac⟩,⟨al',ac'⟩⟩ := a
  obtain ⟨⟨bl,bc⟩,⟨bl',bc'⟩⟩ := b
  simp only [Clear,marking,RawToken.fromRange,RawToken.position,referenceWidth,StartsIn,
    ne_eq,toLex_inj,Prod.mk.injEq,Position.mk.injEq]
  split_ifs <;> omega

theorem symbolToken_eq {sym : Symbol} {t : RawToken} (h : symbolToken sym = some t) :
    t = marking sym.nameRange t.typeId := by
  obtain ⟨typeId,-,h⟩ := Option.bind_eq_some_iff.mp h
  simp only [pushLabelToken] at h
  split_ifs at h with hline hempty
  cases h
  rw [not_not] at hline
  rw [marking,referenceWidth,if_pos hline]
  rfl

/-- The tokens are those of the ranges. -/
theorem exists_marked (doc : DocumentState) : ∃ marked : List (Range × ℕ),
    rawTokens doc = marked.map (fun m => marking m.1 m.2) ∧
      marked.map Prod.fst = labelRanges doc ++ referenceRanges doc := by
  have hlabels : ∀ syms : List Symbol, ∃ marked : List (Range × ℕ),
      syms.filterMap symbolToken = marked.map (fun m => marking m.1 m.2) ∧ marked.map Prod.fst =
        (syms.filter fun sym => (symbolToken sym).isSome).map Symbol.nameRange := by
    intro syms
    induction syms with
    | nil => exact ⟨[],rfl,rfl⟩
    | cons sym syms ih =>
      obtain ⟨marked,htokens,hranges⟩ := ih
      cases h : symbolToken sym with
      | none => exact ⟨marked,by simp [h,htokens],by simp [h,hranges]⟩
      | some t =>
        refine ⟨(sym.nameRange,t.typeId) :: marked,?_,by simp [h,hranges]⟩
        rw [List.filterMap_cons_some h,htokens,List.map_cons,← symbolToken_eq h]
  obtain ⟨marked,htokens,hranges⟩ := hlabels (forEachSymbol doc.symbols)
  refine ⟨marked ++ doc.references.map fun r =>
    (SymbolLocation.range r.location,referenceType r.kind),?_,?_⟩
  · rw [rawTokens,htokens,List.map_append,List.map_map]
    rfl
  · rw [List.map_append,hranges,List.map_map]
    rfl

theorem clear_iff_apart (doc : DocumentState) :
    (rawTokens doc).Pairwise Clear ↔ Apart (labelRanges doc ++ referenceRanges doc) := by
  obtain ⟨marked,htokens,hranges⟩ := exists_marked doc
  rw [htokens,← hranges,Apart,List.pairwise_map,List.pairwise_map]
  refine List.Pairwise.iff ?_
  exact fun a b => clear_marking a.1 b.1 a.2 b.2

end apart

theorem noUnderflow_sortTokens (tokens : List RawToken) : NoUnderflow 0 0 (sortTokens tokens) :=
  noUnderflow_of_sorted (fun t _ => by omega) (sortTokens_sorted tokens)

theorem decode_encodeTokens (doc : DocumentState) :
    decode (encodeTokens doc) = sortTokens (rawTokens doc) :=
  decodeFrom_encodeFrom (noUnderflow_sortTokens _)

theorem wellFormed_iff_apart (doc : DocumentState) :
    WellFormed (decode (encodeTokens doc)) ↔ Apart (labelRanges doc ++ referenceRanges doc) := by
  rw [decode_encodeTokens,wellFormed_iff_clear (sortTokens_sorted _),← clear_iff_apart]
  exact (sortTokens_perm _).pairwise_iff fun {a b} => Clear.symm

/-- Decoding gives back the sorted tokens and no step goes back; the tokens are apart
exactly when no range that gets one starts in another. -/
theorem encodeTokens_faithful_iff (doc : DocumentState) :
    (decode (encodeTokens doc) = sortTokens (rawTokens doc) ∧
      NoUnderflow 0 0 (sortTokens (rawTokens doc)) ∧ WellFormed (decode (encodeTokens doc))) ↔
      Apart (labelRanges doc ++ referenceRanges doc) := by
  rw [wellFormed_iff_apart]
  constructor
  · exact fun h => h.2.2
  · exact fun h => ⟨decode_encodeTokens doc,noUnderflow_sortTokens _,h⟩

end SemanticTokens
end TerraformLs
