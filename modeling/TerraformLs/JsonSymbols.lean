import TerraformLs.Document
import TerraformLs.JsonConfig

/-! The symbols of a JSON configuration. They are extracted from the body of the
translation, and the spans of that body are looked up in the JSON text: a span
that ends past the text is skipped with its declaration, and one that cuts a
character panics. -/
namespace TerraformLs

namespace Outcome

variable {ε α β : Type}

def bind (o : Outcome ε α) (f : α → Outcome ε β) : Outcome ε β :=
  match o with
  | .ok a => f a
  | .err e => .err e
  | .panicked => .panicked

instance : Monad (Outcome ε) where
  pure := .ok
  bind := bind

@[simp] theorem bind_ok (a : α) (f : α → Outcome ε β) : (Outcome.ok a >>= f) = f a := rfl

@[simp] theorem bind_err (e : ε) (f : α → Outcome ε β) :
    ((Outcome.err e : Outcome ε α) >>= f) = .err e := rfl

@[simp] theorem bind_panicked (f : α → Outcome ε β) :
    ((Outcome.panicked : Outcome ε α) >>= f) = .panicked := rfl

@[simp] theorem pure_eq (a : α) : (pure a : Outcome ε α) = .ok a := rfl

end Outcome

namespace Rope

/-- No character is cut at the offset. -/
def onBoundary (rope : Rope) (offset : ℕ) : Bool := rope.charToByte (rope.byteToChar offset) = offset

/-- The slice up to an offset in the text panics unless the offset is a boundary. -/
def locateOffset (rope : Rope) (offset : ℕ) : Outcome ParseError Position :=
  match rope.byteOffsetToLspPosition offset with
  | .error e => .err e
  | .ok pos => if rope.onBoundary offset then .ok pos else .panicked

def locateSpan (rope : Rope) (span : Span) : Outcome ParseError Range := do
  let start ← rope.locateOffset span.1
  let stop ← rope.locateOffset span.2
  return ⟨start,stop⟩

/-- The range of a span, when there is a span and it lies in the text. -/
def locate (rope : Rope) : Option Span → Outcome Unit Range
  | none => .err ()
  | some span =>
    match rope.locateSpan span with
    | .ok range => .ok range
    | .err _ => .err ()
    | .panicked => .panicked

end Rope

namespace JsonConfig

section extraction

variable (uri : Url) (rope : Rope)

def stringAttribute (body : SpannedBody) (name : String) : Option String :=
  body.findSome? fun item => match item with
  | .attribute _ key _ (.string value) => if key = name then some value else none
  | _ => none

def buildSymbol (name : String) (kind : SymbolKind) (span : Option Span) (nameRange : Range)
    (detail doc : Option String) : Outcome Unit Symbol := do
  let range ← rope.locate span
  return ⟨name,kind,.new uri range,nameRange,detail,doc⟩

def labeledSymbol (kind : SymbolKind) (span : Option Span)
    (labels : List (BlockLabel × Option Span)) (body : SpannedBody) :
    Outcome Unit (Symbol × String) :=
  match labels with
  | [] => .err ()
  | (label,labelSpan)::_ => do
    let nameRange ← rope.locate labelSpan
    let sym ← buildSymbol uri rope label.asStr kind span nameRange none
      (stringAttribute body "description")
    return (sym,label.asStr)

/-- The range of the name is that of the type label. -/
def twoLabeledSymbol (kind : SymbolKind) (span : Option Span)
    (labels : List (BlockLabel × Option Span)) : Outcome Unit (Symbol × ResourceAddress) :=
  match labels with
  | (type,typeSpan)::(name,_)::_ => do
    let nameRange ← rope.locate typeSpan
    let sym ← buildSymbol uri rope name.asStr kind span nameRange
      (some (type.asStr ++ "." ++ name.asStr)) none
    return (sym,⟨type.asStr,name.asStr⟩)
  | _ => .err ()

/-- A declaration that cannot be located is left out. -/
def insertWith {α : Type} (t : SymbolTable) (insert : α → SymbolTable) :
    Outcome Unit α → Outcome Unit SymbolTable
  | .ok a => .ok (insert a)
  | .err _ => .ok t
  | .panicked => .panicked

def extractLocal (t : SymbolTable) : SpannedStructure → Outcome Unit SymbolTable
  | .attribute span key keySpan _ =>
    insertWith t (fun (location,nameRange) => { t with
        locals := t.locals.insert key ⟨key,.local,.new uri location,nameRange,none,none⟩ })
      (do
        let location ← rope.locate span
        let nameRange ← rope.locate keySpan
        return (location,nameRange))
  | .block _ _ _ _ _ => .ok t

def extractItem (t : SymbolTable) : SpannedStructure → Outcome Unit SymbolTable
  | .attribute _ _ _ _ => .ok t
  | .block span ident identSpan labels body =>
    if ident = "variable" then
      insertWith t (fun (sym,name) => { t with «variables» := t.variables.insert name sym })
        (labeledSymbol uri rope .variable span labels body)
    else if ident = "output" then
      insertWith t (fun (sym,name) => { t with outputs := t.outputs.insert name sym })
        (labeledSymbol uri rope .output span labels body)
    else if ident = "module" then
      insertWith t (fun (sym,name) => { t with
          modules := t.modules.insert name sym
          moduleSources := match stringAttribute body "source" with
            | some source => t.moduleSources.insert name source
            | none => t.moduleSources })
        (labeledSymbol uri rope .module span labels body)
    else if ident = "provider" then
      insertWith t (fun _ => t) (labeledSymbol uri rope .provider span labels body)
    else if ident = "resource" then
      insertWith t (fun (sym,addr) => { t with resources := t.resources.insert addr sym })
        (twoLabeledSymbol uri rope .resource span labels)
    else if ident = "data" then
      insertWith t (fun (sym,addr) => { t with dataSources := t.dataSources.insert addr sym })
        (twoLabeledSymbol uri rope .dataSource span labels)
    else if ident = "locals" then body.foldlM (extractLocal uri rope) t
    else if ident = "terraform" then
      insertWith t (fun _ => t) (do
        let nameRange ← rope.locate identSpan
        buildSymbol uri rope "terraform" .terraformBlock span nameRange none none)
    else .ok t

def extractSymbols (body : SpannedBody) : Outcome Unit SymbolTable :=
  body.foldlM (extractItem uri rope) {}

end extraction

/-- The parsers, the spans of the references of a body, in the order they are
located, and the scan of a text that does not parse. -/
structure JsonAnalyzer where
  parsers : Parsers
  referenceSpans : SpannedBody → List Span
  extractSymbolsFallback : String → Url → Rope → SymbolTable

/-- A reference outside of the text is left out too. -/
def locateReferences (rope : Rope) : List Span → Outcome Unit Unit
  | [] => .ok ()
  | span::spans =>
    match rope.locateSpan span with
    | .panicked => .panicked
    | _ => locateReferences rope spans

/-- The symbols of a document newly built from a JSON text, unless building it panics. -/
def newSymbols (J : JsonAnalyzer) (uri : Url) (text : String) : Outcome Unit SymbolTable :=
  let rope := text.toList
  let parsed := parseJsonSource J.parsers text
  let fallback := if isTftestUri uri then {} else J.extractSymbolsFallback text uri rope
  match parsed.body with
  | some body =>
    if !parsed.errors.isEmpty then .ok fallback else do
      let symbols ← if isTftestUri uri then .ok {} else extractSymbols uri rope body
      locateReferences rope (J.referenceSpans body)
      return symbols
  | none => .ok fallback

end JsonConfig

/-! Offsets and spans in a text. -/

namespace Rope

variable {rope : Rope}

/-- The position of a character of the text, or of its end. -/
def IsPosition (rope : Rope) (pos : Position) : Prop :=
  ∃ n ≤ rope.length, rope.byteOffsetToLspPosition (rope.charToByte n) = .ok pos

/-- An offset up to the end of the text, between two characters. -/
def ReachesOffset (rope : Rope) (offset : ℕ) : Prop :=
  offset ≤ rope.lenBytes ∧ rope.onBoundary offset

def CutsOffset (rope : Rope) (offset : ℕ) : Prop :=
  offset ≤ rope.lenBytes ∧ ¬ rope.onBoundary offset

def Reaches (rope : Rope) : Option Span → Prop
  | none => False
  | some s => rope.ReachesOffset s.1 ∧ rope.ReachesOffset s.2

/-- The end of a span is only looked at when its start is in the text. -/
def Cuts (rope : Rope) : Option Span → Prop
  | none => False
  | some s => rope.CutsOffset s.1 ∨ rope.ReachesOffset s.1 ∧ rope.CutsOffset s.2

instance (rope : Rope) (offset : ℕ) : Decidable (rope.ReachesOffset offset) :=
  inferInstanceAs (Decidable (_ ∧ _))

instance (rope : Rope) (offset : ℕ) : Decidable (rope.CutsOffset offset) :=
  inferInstanceAs (Decidable (_ ∧ _))

instance (rope : Rope) (span : Option Span) : Decidable (rope.Reaches span) :=
  match span with
  | none => inferInstanceAs (Decidable False)
  | some _ => inferInstanceAs (Decidable (_ ∧ _))

instance (rope : Rope) (span : Option Span) : Decidable (rope.Cuts span) :=
  match span with
  | none => inferInstanceAs (Decidable False)
  | some _ => inferInstanceAs (Decidable (_ ∨ _))

theorem byteToChar_le (rope : Rope) (b : ℕ) : rope.byteToChar b ≤ rope.length := by
  induction rope generalizing b with
  | nil => simp [byteToChar]
  | cons c cs ih =>
    by_cases h : b < c.utf8Size
    · simp [byteToChar,h]
    · simpa [byteToChar,h] using ih (b - c.utf8Size)

theorem locateOffset_cases (rope : Rope) (offset : ℕ) :
    (rope.ReachesOffset offset ∧ ∃ pos, rope.IsPosition pos ∧
        rope.locateOffset offset = .ok pos) ∨
      (rope.CutsOffset offset ∧ rope.locateOffset offset = .panicked) ∨
      (rope.lenBytes < offset ∧ ∃ e, rope.locateOffset offset = .err e) := by
  unfold locateOffset
  cases hpos : rope.byteOffsetToLspPosition offset with
  | error e =>
    refine .inr (.inr ⟨?_,e,rfl⟩)
    by_contra hle
    simp [byteOffsetToLspPosition,hle] at hpos
  | ok pos =>
    have hle : offset ≤ rope.lenBytes := by
      by_contra hlt
      simp [byteOffsetToLspPosition,Nat.not_le.mp hlt] at hpos
    by_cases hb : rope.onBoundary offset
    · refine .inl ⟨⟨hle,hb⟩,pos,⟨rope.byteToChar offset,rope.byteToChar_le offset,?_⟩,by simp [hb]⟩
      have hoffset : rope.charToByte (rope.byteToChar offset) = offset := by
        simpa [onBoundary] using hb
      rw [hoffset,hpos]
    · exact .inr (.inl ⟨⟨hle,hb⟩,by simp [hb]⟩)

theorem ReachesOffset.not_past {offset : ℕ} (h : rope.ReachesOffset offset) :
    ¬ rope.lenBytes < offset := Nat.not_lt.mpr h.1

theorem CutsOffset.not_past {offset : ℕ} (h : rope.CutsOffset offset) :
    ¬ rope.lenBytes < offset := Nat.not_lt.mpr h.1

theorem Reaches.not_cuts {span : Option Span} (h : rope.Reaches span) : ¬ rope.Cuts span := by
  cases span with
  | none => exact h.elim
  | some s =>
    rintro (hc | ⟨-,hc⟩)
    · exact hc.2 h.1.2
    · exact hc.2 h.2.2

/-- A span is located, cuts a character or ends past the text. -/
theorem locate_cases (rope : Rope) (span : Option Span) :
    (rope.Reaches span ∧ ∃ range, rope.IsPosition range.start ∧ rope.IsPosition range.end ∧
        rope.locate span = .ok range) ∨
      (rope.Cuts span ∧ rope.locate span = .panicked) ∨
      (¬ rope.Reaches span ∧ ¬ rope.Cuts span ∧ rope.locate span = .err ()) := by
  cases span with
  | none => exact .inr (.inr ⟨not_false,not_false,rfl⟩)
  | some s =>
    rcases rope.locateOffset_cases s.1 with ⟨h1,p1,hp1,ho1⟩ | ⟨h1,ho1⟩ | ⟨h1,e1,ho1⟩
    · rcases rope.locateOffset_cases s.2 with ⟨h2,p2,hp2,ho2⟩ | ⟨h2,ho2⟩ | ⟨h2,e2,ho2⟩
      · exact .inl ⟨⟨h1,h2⟩,⟨p1,p2⟩,hp1,hp2,by simp [locate,locateSpan,ho1,ho2]⟩
      · exact .inr (.inl ⟨.inr ⟨h1,h2⟩,by simp [locate,locateSpan,ho1,ho2]⟩)
      · refine .inr (.inr ⟨fun h => h.2.not_past h2,?_,by simp [locate,locateSpan,ho1,ho2]⟩)
        rintro (h | ⟨-,h⟩)
        · exact h.2 h1.2
        · exact h.not_past h2
    · exact .inr (.inl ⟨.inl h1,by simp [locate,locateSpan,ho1]⟩)
    · refine .inr (.inr ⟨fun h => h.1.not_past h1,?_,by simp [locate,locateSpan,ho1]⟩)
      rintro (h | ⟨h,-⟩)
      · exact h.not_past h1
      · exact h.not_past h1

end Rope

/-! The declarations of a body, each with the spans that are located for it. -/

/-- What a declaration adds to the symbol table. -/
inductive Declared
  | «variable» (name : String)
  | «local» (name : String)
  | output (name : String)
  | «module» (name : String)
  | resource (addr : ResourceAddress)
  | dataSource (addr : ResourceAddress)
  deriving DecidableEq

namespace SymbolTable

def symbolOf (t : SymbolTable) : Declared → Option Symbol
  | .variable name => t.variables.lookup name
  | .local name => t.locals.lookup name
  | .output name => t.outputs.lookup name
  | .module name => t.modules.lookup name
  | .resource addr => t.resources.lookup addr
  | .dataSource addr => t.dataSources.lookup addr

def put (t : SymbolTable) (sym : Symbol) : Declared → SymbolTable
  | .variable name => { t with «variables» := t.variables.insert name sym }
  | .local name => { t with locals := t.locals.insert name sym }
  | .output name => { t with outputs := t.outputs.insert name sym }
  | .module name => { t with modules := t.modules.insert name sym }
  | .resource addr => { t with resources := t.resources.insert addr sym }
  | .dataSource addr => { t with dataSources := t.dataSources.insert addr sym }

theorem symbolOf_put (t : SymbolTable) (sym : Symbol) (d e : Declared) :
    (t.put sym d).symbolOf e = if e = d then some sym else t.symbolOf e := by
  cases d <;> cases e <;> simp [symbolOf,put,KeyedMap.lookup_insert_of]

@[simp] theorem symbolOf_moduleSources (t : SymbolTable) (m : KeyedMap String String)
    (d : Declared) : { t with moduleSources := m }.symbolOf d = t.symbolOf d := by
  cases d <;> rfl

/-- Every symbol of the table lies in the text. -/
def Inside (rope : Rope) (t : SymbolTable) : Prop :=
  ∀ d sym, t.symbolOf d = some sym →
    rope.IsPosition ⟨sym.location.startLine,sym.location.startCharacter⟩ ∧
      rope.IsPosition ⟨sym.location.endLine,sym.location.endCharacter⟩

end SymbolTable

namespace JsonConfig

/-- A declaration, and the two spans located for it: first that of the label of
a block or of a whole attribute, then that of the block or of the key. Providers
and the `terraform` block are located but not declared here. -/
structure Conversion where
  declared : Option Declared
  first : Option Span
  second : Option Span

/-- The declaration of a block with one label. -/
def labeledConversion (declared : String → Option Declared) (span : Option Span) :
    List (BlockLabel × Option Span) → List Conversion
  | [] => []
  | (label,labelSpan)::_ => [⟨declared label.asStr,labelSpan,span⟩]

def twoLabeledConversion (declared : ResourceAddress → Declared) (span : Option Span) :
    List (BlockLabel × Option Span) → List Conversion
  | (type,typeSpan)::(name,_)::_ => [⟨some (declared ⟨type.asStr,name.asStr⟩),typeSpan,span⟩]
  | _ => []

def localConversion : SpannedStructure → List Conversion
  | .attribute span key keySpan _ => [⟨some (.local key),span,keySpan⟩]
  | .block _ _ _ _ _ => []

def conversions : SpannedStructure → List Conversion
  | .attribute _ _ _ _ => []
  | .block span ident identSpan labels body =>
    if ident = "variable" then labeledConversion (fun n => some (.variable n)) span labels
    else if ident = "output" then labeledConversion (fun n => some (.output n)) span labels
    else if ident = "module" then labeledConversion (fun n => some (.module n)) span labels
    else if ident = "provider" then labeledConversion (fun _ => none) span labels
    else if ident = "resource" then twoLabeledConversion .resource span labels
    else if ident = "data" then twoLabeledConversion .dataSource span labels
    else if ident = "locals" then body.flatMap localConversion
    else if ident = "terraform" then [⟨none,identSpan,span⟩]
    else []

/-- The body declares it, wherever the declaration stands. -/
def Declares (body : SpannedBody) (d : Declared) : Prop :=
  ∃ c ∈ body.flatMap conversions, c.declared = some d

namespace Conversion

def Reaches (rope : Rope) (c : Conversion) : Prop := rope.Reaches c.first ∧ rope.Reaches c.second

def Cuts (rope : Rope) (c : Conversion) : Prop :=
  rope.Cuts c.first ∨ rope.Reaches c.first ∧ rope.Cuts c.second

instance (rope : Rope) (c : Conversion) : Decidable (c.Reaches rope) :=
  inferInstanceAs (Decidable (_ ∧ _))

instance (rope : Rope) (c : Conversion) : Decidable (c.Cuts rope) :=
  inferInstanceAs (Decidable (_ ∨ _))

/-- Both spans located, one after the other. -/
def located (rope : Rope) (c : Conversion) : Outcome Unit (Range × Range) := do
  let first ← rope.locate c.first
  let second ← rope.locate c.second
  return (first,second)

theorem located_cases (rope : Rope) (c : Conversion) :
    (c.Reaches rope ∧ ¬ c.Cuts rope ∧ ∃ first second, c.located rope = .ok (first,second) ∧
        rope.IsPosition first.start ∧ rope.IsPosition first.end ∧
        rope.IsPosition second.start ∧ rope.IsPosition second.end) ∨
      (c.Cuts rope ∧ c.located rope = .panicked) ∨
      (¬ c.Reaches rope ∧ ¬ c.Cuts rope ∧ c.located rope = .err ()) := by
  unfold located
  rcases rope.locate_cases c.first with ⟨h1,r1,hs1,he1,ho1⟩ | ⟨h1,ho1⟩ | ⟨h1,hc1,ho1⟩
  · rcases rope.locate_cases c.second with ⟨h2,r2,hs2,he2,ho2⟩ | ⟨h2,ho2⟩ | ⟨h2,hc2,ho2⟩
    · refine .inl ⟨⟨h1,h2⟩,?_,r1,r2,by simp [ho1,ho2],hs1,he1,hs2,he2⟩
      rintro (h | ⟨-,h⟩)
      · exact h1.not_cuts h
      · exact h2.not_cuts h
    · exact .inr (.inl ⟨.inr ⟨h1,h2⟩,by simp [ho1,ho2]⟩)
    · refine .inr (.inr ⟨fun h => h2 h.2,?_,by simp [ho1,ho2]⟩)
      rintro (h | ⟨-,h⟩)
      · exact h1.not_cuts h
      · exact hc2 h
  · exact .inr (.inl ⟨.inl h1,by simp [ho1]⟩)
  · refine .inr (.inr ⟨fun h => h1 h.1,?_,by simp [ho1]⟩)
    rintro (h | ⟨h,-⟩)
    · exact hc1 h
    · exact h1 h

end Conversion

/-- What an extraction does to a table: it adds what can be located, unless it panics. -/
inductive Extracts (rope : Rope) (cs : List Conversion) (t : SymbolTable) :
    Outcome Unit SymbolTable → Prop
  | ok {t' : SymbolTable} (hcuts : ∀ c ∈ cs, ¬ c.Cuts rope)
      (hpresent : ∀ d, (t'.symbolOf d).isSome ↔
        (t.symbolOf d).isSome ∨ ∃ c ∈ cs, c.declared = some d ∧ c.Reaches rope)
      (hinside : t.Inside rope → t'.Inside rope) : Extracts rope cs t (.ok t')
  | panicked (hcuts : ∃ c ∈ cs, c.Cuts rope) : Extracts rope cs t .panicked


namespace Extracts

variable {rope : Rope} {t : SymbolTable}

theorem refl : Extracts rope [] t (.ok t) := .ok (by simp) (by simp) id

/-- Extractions one after another. -/
theorem foldlM {α : Type} {extract : SymbolTable → α → Outcome Unit SymbolTable}
    {conv : α → List Conversion} (h : ∀ t a, Extracts rope (conv a) t (extract t a))
    (as : List α) (t : SymbolTable) :
    Extracts rope (as.flatMap conv) t (as.foldlM extract t) := by
  induction as generalizing t with
  | nil => exact refl
  | cons a as ih =>
    rw [List.foldlM_cons,List.flatMap_cons]
    cases ha : extract t a with
    | err e =>
      have hstep := h t a
      rw [ha] at hstep
      cases hstep
    | panicked =>
      have hstep := h t a
      rw [ha] at hstep
      cases hstep with | panicked hc =>
      obtain ⟨c,hc,hcut⟩ := hc
      exact .panicked ⟨c,List.mem_append_left _ hc,hcut⟩
    | ok t' =>
      have hstep := h t a
      rw [ha] at hstep
      cases hstep with | ok hcuts hpresent hinside =>
      have hrest := ih t'
      rw [Outcome.bind_ok]
      cases hfold : as.foldlM extract t' with
      | err e => rw [hfold] at hrest; cases hrest
      | panicked =>
        rw [hfold] at hrest
        cases hrest with | panicked hc =>
        obtain ⟨c,hc,hcut⟩ := hc
        exact .panicked ⟨c,List.mem_append_right _ hc,hcut⟩
      | ok t'' =>
        rw [hfold] at hrest
        cases hrest with | ok hcuts' hpresent' hinside' =>
        refine .ok (fun c hc => ?_) (fun d => ?_) (fun hin => hinside' (hinside hin))
        · rcases List.mem_append.mp hc with hc | hc
          · exact hcuts c hc
          · exact hcuts' c hc
        · rw [hpresent',hpresent]
          simp [or_assoc,or_and_right,exists_or]

/-- One declaration: nothing, or a symbol located at one of the two ranges. -/
theorem insertWith {α : Type} {c : Conversion} {insert : α → SymbolTable} {o : Outcome Unit α}
    (uri : Url) (make : Range × Range → α)
    (ho : o = c.located rope >>= fun r => .ok (make r))
    (hins : ∀ r, (c.declared = none ∧ insert (make r) = t) ∨
      ∃ d sym, c.declared = some d ∧ (sym.location = .new uri r.1 ∨ sym.location = .new uri r.2) ∧
        ∀ e, (insert (make r)).symbolOf e = (t.put sym d).symbolOf e) :
    Extracts rope [c] t (insertWith t insert o) := by
  subst ho
  rcases c.located_cases rope with ⟨hr,hc,r1,r2,hl,hs1,he1,hs2,he2⟩ | ⟨hc,hl⟩ | ⟨hr,hc,hl⟩
  · rw [hl]
    rcases hins (r1,r2) with ⟨hnone,ht⟩ | ⟨d,sym,hd,hloc,hput⟩
    · refine .ok (by simpa using hc) (fun e => ?_) (fun hin => ?_)
      · simp [ht,hnone]
      · rwa [ht]
    · refine .ok (by simpa using hc) (fun e => ?_) (fun hin e sym' he => ?_)
      · rw [hput,SymbolTable.symbolOf_put]
        by_cases h : e = d
        · simp [h,hd,hr]
        · simp [h,hd,Ne.symm h]
      · rw [hput,SymbolTable.symbolOf_put] at he
        split at he
        · cases he
          rcases hloc with hloc | hloc
          · rw [hloc]
            exact ⟨hs1,he1⟩
          · rw [hloc]
            exact ⟨hs2,he2⟩
        · exact hin e sym' he
  · rw [hl]
    exact .panicked ⟨c,List.mem_singleton_self c,hc⟩
  · rw [hl]
    exact .ok (by simpa using hc) (by simp [hr]) id

end Extracts


section extraction

variable (uri : Url) (rope : Rope) (t : SymbolTable)

theorem extracts_labeled {insert : Symbol × String → SymbolTable}
    {declared : String → Option Declared} {kind : SymbolKind} {span : Option Span}
    {labels : List (BlockLabel × Option Span)} {body : SpannedBody}
    (hins : ∀ sym name, (declared name = none ∧ insert (sym,name) = t) ∨
      ∃ d, declared name = some d ∧ ∀ e, (insert (sym,name)).symbolOf e = (t.put sym d).symbolOf e) :
    Extracts rope (labeledConversion declared span labels) t
      (insertWith t insert (labeledSymbol uri rope kind span labels body)) := by
  cases labels with
  | nil => exact .refl
  | cons label labels =>
    obtain ⟨label,labelSpan⟩ := label
    refine .insertWith uri (fun r => (⟨label.asStr,kind,.new uri r.2,r.1,none,
      stringAttribute body "description"⟩,label.asStr)) ?_ fun r => ?_
    · cases h1 : rope.locate labelSpan <;> cases h2 : rope.locate span <;>
        simp [labeledSymbol,buildSymbol,Conversion.located,h1,h2]
    · rcases hins ⟨label.asStr,kind,.new uri r.2,r.1,none,stringAttribute body "description"⟩
        label.asStr with h | ⟨d,hd,hput⟩
      · exact .inl h
      · exact .inr ⟨d,_,hd,.inr rfl,hput⟩

theorem extracts_twoLabeled {insert : Symbol × ResourceAddress → SymbolTable}
    {declared : ResourceAddress → Declared} {kind : SymbolKind} {span : Option Span}
    {labels : List (BlockLabel × Option Span)}
    (hins : ∀ sym addr e,
      (insert (sym,addr)).symbolOf e = (t.put sym (declared addr)).symbolOf e) :
    Extracts rope (twoLabeledConversion declared span labels) t
      (insertWith t insert (twoLabeledSymbol uri rope kind span labels)) := by
  match labels with
  | [] => exact .refl
  | [_] => exact .refl
  | (type,typeSpan)::(name,_)::_ =>
    refine .insertWith uri (fun r => (⟨name.asStr,kind,.new uri r.2,r.1,
      some (type.asStr ++ "." ++ name.asStr),none⟩,⟨type.asStr,name.asStr⟩)) ?_ fun r => ?_
    · cases h1 : rope.locate typeSpan <;> cases h2 : rope.locate span <;>
        simp [twoLabeledSymbol,buildSymbol,Conversion.located,h1,h2]
    · exact .inr ⟨_,_,rfl,.inr rfl,hins _ _⟩

theorem extracts_local (item : SpannedStructure) :
    Extracts rope (localConversion item) t (extractLocal uri rope t item) := by
  cases item with
  | block => exact .refl
  | «attribute» span key keySpan value =>
    refine .insertWith uri id ?_ fun r => ?_
    · cases h1 : rope.locate span <;> cases h2 : rope.locate keySpan <;>
        simp [Conversion.located,h1,h2]
    · exact .inr ⟨.local key,⟨key,.local,.new uri r.1,r.2,none,none⟩,rfl,.inl rfl,fun _ => rfl⟩

theorem extracts_item (item : SpannedStructure) :
    Extracts rope (conversions item) t (extractItem uri rope t item) := by
  cases item with
  | «attribute» => exact .refl
  | block span ident identSpan labels body =>
    simp only [conversions,extractItem]
    by_cases h : ident = "variable"
    · rw [if_pos h,if_pos h]
      exact extracts_labeled uri rope t fun sym name => .inr ⟨_,rfl,fun _ => rfl⟩
    rw [if_neg h,if_neg h]
    by_cases h : ident = "output"
    · rw [if_pos h,if_pos h]
      exact extracts_labeled uri rope t fun sym name => .inr ⟨_,rfl,fun _ => rfl⟩
    rw [if_neg h,if_neg h]
    by_cases h : ident = "module"
    · rw [if_pos h,if_pos h]
      exact extracts_labeled uri rope t fun sym name =>
        .inr ⟨_,rfl,fun e => (t.put sym (.module name)).symbolOf_moduleSources _ e⟩
    rw [if_neg h,if_neg h]
    by_cases h : ident = "provider"
    · rw [if_pos h,if_pos h]
      exact extracts_labeled uri rope t fun sym name => .inl ⟨rfl,rfl⟩
    rw [if_neg h,if_neg h]
    by_cases h : ident = "resource"
    · rw [if_pos h,if_pos h]
      exact extracts_twoLabeled uri rope t fun sym addr e => rfl
    rw [if_neg h,if_neg h]
    by_cases h : ident = "data"
    · rw [if_pos h,if_pos h]
      exact extracts_twoLabeled uri rope t fun sym addr e => rfl
    rw [if_neg h,if_neg h]
    by_cases h : ident = "locals"
    · rw [if_pos h,if_pos h]
      exact .foldlM (extracts_local uri rope) body t
    rw [if_neg h,if_neg h]
    by_cases h : ident = "terraform"
    · rw [if_pos h,if_pos h]
      refine .insertWith uri (fun r => ⟨"terraform",.terraformBlock,.new uri r.2,r.1,none,none⟩) ?_
        fun r => .inl ⟨rfl,rfl⟩
      cases h1 : rope.locate identSpan <;> cases h2 : rope.locate span <;>
        simp [Conversion.located,buildSymbol,h1,h2]
    rw [if_neg h,if_neg h]
    exact .refl

theorem extracts_symbols (body : SpannedBody) :
    Extracts rope (body.flatMap conversions) {} (extractSymbols uri rope body) :=
  .foldlM (extracts_item uri rope) body {}

end extraction


/-! Documents. -/

theorem locateReferences_cases (rope : Rope) (spans : List Span) :
    ((∀ span ∈ spans, ¬ rope.Cuts (some span)) ∧ locateReferences rope spans = .ok ()) ∨
      ((∃ span ∈ spans, rope.Cuts (some span)) ∧ locateReferences rope spans = .panicked) := by
  induction spans with
  | nil => exact .inl ⟨by simp,rfl⟩
  | cons span spans ih =>
    have hlocate := rope.locate_cases (some span)
    simp only [Rope.locate] at hlocate
    unfold locateReferences
    cases hs : rope.locateSpan span with
    | panicked =>
      simp only [hs,and_true,reduceCtorEq,and_false,exists_false,false_or,or_false] at hlocate
      exact .inr ⟨⟨span,List.mem_cons_self,hlocate⟩,rfl⟩
    | ok range =>
      have hcut : ¬ rope.Cuts (some span) := by
        rcases hlocate with ⟨h,-⟩ | ⟨-,h⟩ | ⟨-,h,-⟩
        · exact h.not_cuts
        · rw [hs] at h; cases h
        · exact h
      simpa [hcut] using ih
    | err e =>
      have hcut : ¬ rope.Cuts (some span) := by
        rcases hlocate with ⟨h,-⟩ | ⟨-,h⟩ | ⟨-,h,-⟩
        · exact h.not_cuts
        · rw [hs] at h; cases h
        · exact h
      simpa [hcut] using ih

/-- The JSON text parses and so does its translation, without an error. -/
def Accepts (J : JsonAnalyzer) (text : String) (body : SpannedBody) : Prop :=
  parseJsonSource J.parsers text = ⟨some body,[]⟩

/-- The document is built, and everything that is declared is in its table, in the text. -/
def AllFound (J : JsonAnalyzer) (uri : Url) (text : String) (body : SpannedBody) : Prop :=
  ∃ table, newSymbols J uri text = .ok table ∧ ∀ d, Declares body d →
    ∃ sym, table.symbolOf d = some sym ∧
      Rope.IsPosition text.toList ⟨sym.location.startLine,sym.location.startCharacter⟩ ∧
      Rope.IsPosition text.toList ⟨sym.location.endLine,sym.location.endCharacter⟩

theorem not_isTftestUri {uri : Url} (h : ".tf.json".toList <:+ uri.toList) :
    isTftestUri uri = false := by
  simp only [isTftestUri,List.any_cons,List.any_nil,Bool.or_false,Bool.or_eq_false_iff]
  have hne : ∀ suffix : String, ".tf.json".toList.length ≤ suffix.toList.length →
      ¬ ".tf.json".toList <:+ suffix.toList → suffix.toList.isSuffixOf uri.toList = false := by
    intro suffix hlen hnot
    by_contra hs
    have hsuffix : suffix.toList <:+ uri.toList := by simpa using hs
    exact hnot (List.suffix_of_suffix_length_le h hsuffix hlen)
  exact ⟨hne _ (by decide) (by decide),hne _ (by decide) (by decide),
    hne _ (by decide) (by decide),hne _ (by decide) (by decide)⟩

def jsonFile : Url := "file:///m/main.tf.json"

def soleFile (text : String) (root : List (String × Json)) (body : SpannedBody) : JsonAnalyzer where
  parsers := {
    fromStr := fun source =>
      if source = text then .ok (.object root) else .error "expected value at line 1 column 1"
    parseSource := fun hcl =>
      if hcl = (translate root).1 then ⟨some body,[]⟩ else ⟨none,[.syntaxError "unexpected token"]⟩ }
  referenceSpans := fun _ => []
  extractSymbolsFallback := fun _ _ _ => {}

theorem accepts_soleFile {text : String} {root : List (String × Json)} {body : SpannedBody}
    (h : (translate root).2 = []) : Accepts (soleFile text root body) text body := by
  simp [Accepts,parseJsonSource,soleFile,Json.asObject,h]

def shortText : String := "\x7b\"variable\":\x7b\"x\":\x7b\x7d\x7d\x7d"

def shortBody : SpannedBody :=
  [.block (some (0,16)) "variable" (some (0,8)) [(.string "x",some (9,12))] []]

/-- Two preconditions take more room in the translation than in the file. -/
def blocksText : String :=
  "\x7b\"output\":\x7b\"a\":\x7b\"precondition\":[\x7b\x7d,\x7b\x7d]\x7d\x7d," ++
    "\"variable\":\x7b\"x\":\x7b\x7d\x7d\x7d"

def blocksRoot : List (String × Json) :=
  [("output",.object [("a",.object [("precondition",.array [.object [],.object []])])]),
    ("variable",.object [("x",.object [])])]

def blocksBody : SpannedBody :=
  [.block (some (0,56)) "output" (some (0,6)) [(.string "a",some (7,10))]
      [.block (some (15,33)) "precondition" (some (15,27)) [] [],
        .block (some (36,54)) "precondition" (some (36,48)) [] []],
    .block (some (57,73)) "variable" (some (57,65)) [(.string "x",some (66,69))] []]

/-- What was found under a key, when the call returned. -/
def foundSymbol (result : Outcome Unit SymbolTable) (d : Declared) : Option Symbol :=
  match result with
  | .ok t => t.symbolOf d
  | _ => none

end JsonConfig
end TerraformLs
