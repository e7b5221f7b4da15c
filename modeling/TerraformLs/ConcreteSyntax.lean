import TerraformLs.CyclicLocals
import TerraformLs.FormatEdits
import TerraformLs.NestedReferences
import TerraformLs.TextTrees

/-! The parser crate, as the actions that rewrite expressions rely on it: it reads the text
of a concrete tree as the tree, up to layout, and knows the places of its expressions. -/
namespace TerraformLs
namespace ConcreteSyntax

open Rope TextTrees

inductive DiagnosticTag
  | unnecessary | deprecated
  deriving DecidableEq

structure TaggedDiagnostic extends Diagnostic where
  tags : Option (List DiagnosticTag)
  deriving DecidableEq

/-- `Result::unwrap_or_default` of a range. -/
def rangeOrDefault (rope : Rope) (span : Spanned.Span) : Range :=
  (hclSpanToLspRange rope span).toOption.getD ⟨⟨0,0⟩,⟨0,0⟩⟩

theorem rangeOrDefault_eq {rope : Rope} {span : Spanned.Span} {range : Range}
    (h : hclSpanToLspRange rope span = .ok range) : rangeOrDefault rope span = range := by
  rw [rangeOrDefault,h]
  rfl

/-- The nodes of a document. The text between expressions belongs to the node around them, and
each operator of a traversal is a node over what it is applied to. -/
inductive Kind
  | document | literal | array | object
  /-- Whether the string is one interpolation and nothing else. -/
  | stringTemplate (wraps : Bool)
  | heredocTemplate | parenthesis | «variable» | conditional
  | funcCall (ns : List String) (name : String)
  | getAttr | index | attrSplat
  /-- With the operators that the splat applies to each element. -/
  | fullSplat
  | unaryOp | binaryOp | forExpr
  deriving DecidableEq

abbrev Source := Tree Kind Rope

/-- All nodes of a tree. -/
def nodes (t : Source) : List Source := t.picked fun _ => true

/-- What the rewrites ask a call or a string template for. -/
inductive Shape
  | funcCall (ns : List String) (name : String) (args : List Spanned.Span)
  | stringTemplate (wraps : Bool)
  deriving DecidableEq

/-- The only element of a template is an interpolation. -/
def wrapsInterpolation : List Spanned.Element → Bool
  | [.interpolation _] => true
  | _ => false

def shapeOf : Spanned.Expression → Option (Spanned.Span × Shape)
  | .funcCall span ns name args =>
    some (span,.funcCall ns name (args.map Spanned.Expression.span))
  | .stringTemplate span elements => some (span,.stringTemplate (wrapsInterpolation elements))
  | _ => none

def spanAt (p : ℕ × Source) : Spanned.Span := (p.1,p.1 + lenBytes p.2.render)

def shapeAt (p : ℕ × Source) : Option (Spanned.Span × Shape) :=
  match p.2.kind with
  | .funcCall ns name =>
    some (spanAt p,.funcCall ns name ((p.2.parts.placed lenBytes p.1).map spanAt))
  | .stringTemplate wraps => some (spanAt p,.stringTemplate wraps)
  | _ => none

/-- The text that a node begins with. -/
def headText : Parts Kind Rope → Rope
  | .text s _ => s
  | _ => []

/-- The text of a call begins with its name and ends in a parenthesis. -/
def CallForm (t : Source) : Prop :=
  (headText t.parts).head?.any (fun c => c ≠ '\n') = true ∧ t.render.getLast? = some ')'

instance (t : Source) : Decidable (CallForm t) := inferInstanceAs (Decidable (_ ∧ _))

theorem CallForm.head {t : Source} (h : CallForm t) :
    ∃ c s rest, t.parts = .text (c :: s) rest ∧ c ≠ '\n' := by
  have hhead := h.1
  cases hparts : t.parts with
  | text s rest =>
    rw [hparts,headText] at hhead
    cases s with
    | nil => cases hhead
    | cons c s => exact ⟨c,s,rest,rfl,by simpa using hhead⟩
  | _ =>
    rw [hparts] at hhead
    cases hhead

/-- The quote and the brace before the expression that a string wraps. -/
def wrapOpen : Rope := ['"','$','\x7b']

def wrapClose : Rope := ['\x7d','"']

/-- Strip markers and comments begin with these. -/
def isMark (c : Char) : Bool := c = '~' || c = '/' || c = '#'

/-- Nothing but blanks, or a strip marker or comment behind them. -/
def isLayout (s : Rope) : Bool := (s.dropWhile GitRefs.isWhitespace).head?.all isMark

/-- The text of a string that wraps an expression. -/
def wrapForm : Parts Kind Rope → Bool
  | .text lead (.child e (.text trail .nil)) =>
    wrapOpen.isPrefixOf lead && isLayout (lead.drop 3) && e.render.head?.any (fun c => !isMark c) &&
      wrapClose.isSuffixOf trail && isLayout (trail.take (trail.length - 2))
  | _ => false

theorem wrapForm_parts {ps : Parts Kind Rope} (h : wrapForm ps = true) : ∃ l e r,
    ps = .text (wrapOpen ++ l) (.child e (.text (r ++ wrapClose) .nil)) ∧ isLayout l = true ∧
      isLayout r = true ∧ ∃ c s, e.render = c :: s ∧ isMark c = false := by
  cases ps with
  | nil => cases h
  | child => cases h
  | text lead rest =>
    rcases rest with _ | _ | ⟨e,_ | ⟨trail,_ | _ | _⟩ | _⟩ <;> try cases h
    rw [wrapForm,Bool.and_eq_true,Bool.and_eq_true,Bool.and_eq_true,Bool.and_eq_true,
      List.isPrefixOf_iff_prefix,List.isSuffixOf_iff_suffix] at h
    obtain ⟨⟨⟨⟨⟨l,rfl⟩,hl⟩,he⟩,⟨r,rfl⟩⟩,hr⟩ := h
    refine ⟨l,e,r,rfl,by simpa [wrapOpen] using hl,by simpa [wrapClose] using hr,?_⟩
    cases htext : e.render with
    | nil =>
      rw [htext] at he
      cases he
    | cons c s => exact ⟨c,s,rfl,by simpa [htext] using he⟩

def isCall : Kind → Bool
  | .funcCall _ _ => true
  | _ => false

/-- The text of an expression is no layout at its ends. -/
def Bare (s : Rope) : Prop := GitRefs.trim s = s

instance (s : Rope) : Decidable (Bare s) := inferInstanceAs (Decidable (_ = _))

/-- The parser crate. -/
structure HclEdit where
  Token : Type
  Document : Type
  /-- What a text between expressions says, without its layout. -/
  tokens : Rope → List Token
  parse : Rope → Option Document
  body : Document → Spanned.Body
  syntaxTree : Document → Tree Kind (List Token)
  /-- The concrete trees of the documents that are read without an error. -/
  Grammatical : Source → Prop
  parse_render : ∀ {t}, Grammatical t → ∃ d, parse t.render = some d ∧
    syntaxTree d = t.map tokens ∧
    (Spanned.expressions (body d)).filterMap shapeOf =
      (t.found (fun _ => true) lenBytes 0).filterMap shapeAt
  callForm : ∀ {t}, Grammatical t → ∀ node ∈ nodes t, isCall node.kind = true → CallForm node
  wrapForm : ∀ {t}, Grammatical t → ∀ node ∈ nodes t, node.kind = .stringTemplate true →
    wrapForm node.parts = true
  bare : ∀ {t}, Grammatical t → ∀ node ∈ nodes t, ∀ e ∈ node.parts.children, Bare e.render

/-- The text of a tree is read as the tree. -/
def HclEdit.Reads (H : HclEdit) (t : Source) : Prop :=
  ∃ d, H.parse t.render = some d ∧ H.syntaxTree d = t.map H.tokens

theorem HclEdit.reads_of_grammatical {H : HclEdit} {t : Source} (h : H.Grammatical t) :
    H.Reads t := by
  obtain ⟨d,hd,htree,-⟩ := H.parse_render h
  exact ⟨d,hd,htree⟩

/-! A crate that reads given documents, and drops blanks. -/

section documents

def keptChars (s : Rope) : List Char := s.filter fun c => c ≠ ' ' && c ≠ '\n'

/-- Trees of documents, with what the crate makes of each. -/
structure Readable (docs : List (Source × Spanned.Body)) : Prop where
  distinct : (docs.map fun doc => doc.1.render).Nodup
  shapes : ∀ doc ∈ docs, (Spanned.expressions doc.2).filterMap shapeOf =
    (doc.1.found (fun _ => true) lenBytes 0).filterMap shapeAt
  callForm : ∀ doc ∈ docs, ∀ node ∈ nodes doc.1, isCall node.kind = true → CallForm node
  wrapForm : ∀ doc ∈ docs, ∀ node ∈ nodes doc.1, node.kind = .stringTemplate true →
    wrapForm node.parts = true
  bare : ∀ doc ∈ docs, ∀ node ∈ nodes doc.1, ∀ e ∈ node.parts.children, Bare e.render

theorem find_of_distinct {docs : List (Source × Spanned.Body)}
    (h : (docs.map fun doc => doc.1.render).Nodup) {doc : Source × Spanned.Body}
    (hdoc : doc ∈ docs) : docs.find? (fun d => d.1.render = doc.1.render) = some doc := by
  induction docs with
  | nil => cases hdoc
  | cons d docs ih =>
    rw [List.map_cons,List.nodup_cons] at h
    rcases List.mem_cons.mp hdoc with rfl | hdoc
    · rw [List.find?_cons_of_pos (by simp)]
    · have hne : d.1.render ≠ doc.1.render := fun heq =>
        h.1 (heq ▸ List.mem_map_of_mem hdoc)
      rw [List.find?_cons_of_neg (by simpa using hne),ih h.2 hdoc]

def ofDocuments (docs : List (Source × Spanned.Body)) (h : Readable docs) : HclEdit where
  Token := Char
  Document := Source × Spanned.Body
  tokens := keptChars
  parse s := docs.find? fun d => d.1.render = s
  body := Prod.snd
  syntaxTree d := d.1.map keptChars
  Grammatical t := ∃ body, (t,body) ∈ docs
  parse_render := fun ⟨body,hdoc⟩ =>
    ⟨_,find_of_distinct h.distinct hdoc,rfl,h.shapes (_,body) hdoc⟩
  callForm := fun ⟨body,hdoc⟩ => h.callForm (_,body) hdoc
  wrapForm := fun ⟨body,hdoc⟩ => h.wrapForm (_,body) hdoc
  bare := fun ⟨body,hdoc⟩ => h.bare (_,body) hdoc

def word (name : String) : Source := .node .variable (.text name.toList .nil)

/-- A document with one attribute. -/
def assigned (value : Source) : Source :=
  .node .document (.text "a = ".toList (.child value (.text "\n".toList .nil)))

end documents

/-! ## Places and positions -/

section places

variable {rope : Rope} {pos : ℕ}

theorem mem_nodes {t : Source} {pick : Source → Bool} {p : ℕ × Source}
    (h : p ∈ t.found pick lenBytes 0) : p.2 ∈ nodes t := by
  rw [Tree.found_eq_filter,List.mem_filter] at h
  rw [nodes,← Tree.found_map_snd lenBytes 0 t]
  exact List.mem_map_of_mem h.1

theorem found_span {t : Source} {pick : Source → Bool} {p : ℕ × Source}
    (h : p ∈ t.found pick lenBytes 0) : ∃ a b, t.render = a ++ p.2.render ++ b ∧
      spanAt p = (lenBytes a,lenBytes (a ++ p.2.render)) := by
  obtain ⟨a,b,hsplit,hpos⟩ := Tree.found_cut lenBytes_append h
  refine ⟨a,b,hsplit,?_⟩
  rw [spanAt,hpos,lenBytes_append,Nat.zero_add]

/-- The text at the span of what stands right below a node is its own. -/
theorem placed_slice {t : Source} {pick : Source → Bool} {p q : ℕ × Source}
    (h : p ∈ t.found pick lenBytes 0) (hq : q ∈ p.2.parts.placed lenBytes p.1) :
    byteSlice t.render (spanAt q).1 (spanAt q).2 = q.2.render := by
  have hnode : p.2.render = p.2.parts.render := by
    cases p.2
    rfl
  obtain ⟨a,b,hsplit,hpos⟩ := Cut.trans lenBytes_append (Tree.found_cut lenBytes_append h)
    (hnode ▸ Parts.placed_cut lenBytes_append hq)
  rw [hsplit,spanAt,hpos,Nat.zero_add,← lenBytes_append,byteSlice_middle]

/-- A place that cuts no line end comes back from its position. -/
theorem position_back {pre rest : Rope} (h : ¬InsideCrlf (pre ++ rest) (lenBytes pre)) :
    ∃ position, byteOffsetToLspPosition (pre ++ rest) (lenBytes pre) = .ok position ∧
      lspPositionToByteOffset (pre ++ rest) position = .ok (lenBytes pre) := by
  obtain ⟨before,left,right,after,t,hline,rfl,ht⟩ := exists_around_visible h
  refine ⟨⟨(before ++ left).count '\n',lenUtf16Cu left⟩,
    byteOffsetToLspPosition_of_lineAt hline rfl,?_⟩
  rw [lspPositionToByteOffset_of_lineAt hline,ht,utf16CuToChar_lenUtf16Cu,List.take_left,
    lenBytes_append]

theorem range_back (a part b : Rope) (hstart : ¬InsideCrlf (a ++ part ++ b) (lenBytes a))
    (hstop : ¬InsideCrlf (a ++ part ++ b) (lenBytes (a ++ part))) :
    ∃ range, hclSpanToLspRange (a ++ part ++ b) (lenBytes a,lenBytes (a ++ part)) = .ok range ∧
      lspPositionToByteOffset (a ++ part ++ b) range.start = .ok (lenBytes a) ∧
      lspPositionToByteOffset (a ++ part ++ b) range.end = .ok (lenBytes (a ++ part)) := by
  obtain ⟨q,hq,hback⟩ := position_back hstop
  rw [List.append_assoc] at hstart
  obtain ⟨p,hp,hback'⟩ := position_back hstart
  rw [← List.append_assoc] at hp hback'
  refine ⟨⟨p,q⟩,?_,hback',hback⟩
  rw [hclSpanToLspRange,hp,hq]
  rfl

/-- What an edit is at its place. -/
def atPlace (e : TextEdit × Spanned.Span) : TextTrees.Edit Char :=
  ⟨e.2.1,e.2.2,e.1.newText.toList⟩

/-- Edits that lie in order are applied from the last to the first. -/
theorem applyEdits_of_spliced {old new front : Rope} {placed : List (TextEdit × Spanned.Span)}
    (hpos : pos = lenBytes front) (h : Spliced lenBytes pos (placed.map atPlace) old new) :
    Formatting.applyEdits (front ++ old) placed = .ok (front ++ new) := by
  generalize hes : placed.map atPlace = es at h
  induction h generalizing placed front with
  | nil =>
    rw [List.map_eq_nil_iff] at hes
    subst hes
    rfl
  | @cons pos a b c newText new' es h ih =>
    obtain ⟨e,placed,rfl,he,hrest⟩ := List.map_eq_cons_iff.mp hes
    subst hpos
    obtain ⟨hstart,hstop,hnew⟩ : e.2.1 = lenBytes (front ++ a) ∧
        e.2.2 = lenBytes (front ++ a ++ b) ∧ e.1.newText.toList = newText := by
      simpa [atPlace,Nat.add_assoc] using he
    have happlied := ih (show _ = lenBytes (front ++ a ++ b) by simp [Nat.add_assoc]) hrest
    have hsplit : front ++ (a ++ b ++ c) = front ++ a ++ b ++ c := by simp
    have hdone := Formatting.replaceRange_middle (front ++ a) b new' newText
    rw [Formatting.applyEdits,hsplit,happlied,Outcome.bind_ok,hstart,hstop,hnew,hdone]
    simp

/-- The places of edits are known from their ranges. -/
theorem placed_unique {rope : Rope} : ∀ {placed placed' : List (TextEdit × Spanned.Span)},
    placed.map Prod.fst = placed'.map Prod.fst →
    (∀ e ∈ placed, Formatting.Denotes rope e.1 e.2) →
    (∀ e ∈ placed', Formatting.Denotes rope e.1 e.2) → placed = placed'
  | [], [], _, _, _ => rfl
  | (edit,i,j)::placed, (edit',i',j')::placed', hmap, h, h' => by
    obtain ⟨rfl,hrest⟩ : edit = edit' ∧ placed.map Prod.fst = placed'.map Prod.fst := by
      simpa using hmap
    obtain ⟨hstart,hstop⟩ := h (edit,i,j) List.mem_cons_self
    obtain ⟨hstart',hstop'⟩ := h' (edit,i',j') List.mem_cons_self
    obtain rfl : i = i' := Except.ok.inj (hstart.symm.trans hstart')
    obtain rfl : j = j' := Except.ok.inj (hstop.symm.trans hstop')
    rw [placed_unique hrest (fun e he => h e (List.mem_cons_of_mem _ he))
      fun e he => h' e (List.mem_cons_of_mem _ he)]

end places

end ConcreteSyntax
end TerraformLs
