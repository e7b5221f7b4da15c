import TerraformLs.FirstReports
import TerraformLs.GitUrls
import TerraformLs.PositionConversions
import TerraformLs.RopeLines
import TerraformLs.SpannedTree

/-! The folds of a document and the ranges that a selection grows to. The folds of nested
nodes never cross and never end in a blank line. -/
namespace TerraformLs
namespace FoldingRanges

open GitRefs Rope Spanned

/-! ### Folds -/

/-- Every fold is a region that ends at the end of its last line. -/
structure FoldingRange where
  startLine : ℕ
  startCharacter : ℕ
  endLine : ℕ
  deriving DecidableEq

def hasContent (rope : Rope) (e : ℕ) : Bool :=
  match line rope e with
  | .ok l => l.any fun c => !isWhitespace c
  | _ => false

/-- The lines of the rope are walked back from the end. -/
def lastContentLineFrom (content : ℕ → Bool) (start : ℕ) : ℕ → ℕ
  | 0 => 0
  | e + 1 =>
    if start < e + 1 then if content (e + 1) then e + 1 else lastContentLineFrom content start e
    else e + 1

def lastContentLine (rope : Rope) (start stop : ℕ) : ℕ :=
  lastContentLineFrom (hasContent rope) start (min stop (lenLines rope - 1))

def pushMultilineFold (rope : Rope) (span : Span) : Option FoldingRange :=
  match hclSpanToLspRange rope span with
  | .error _ => none
  | .ok range =>
    let endLine := lastContentLine rope range.start.line range.end.line
    if range.start.line < endLine then some ⟨range.start.line,range.start.character,endLine⟩ else none

def isContainer : Spanned.Expression → Bool
  | .array _ _ | .object _ _ | .heredocTemplate _ _ | .stringTemplate _ _ | .parenthesis _ _
  | .funcCall _ _ _ _ | .conditional _ _ _ _ | .forExpr _ _ _ _ _ => true
  | _ => false

mutual

/-- The nodes that may fold, each before those inside. -/
def foldSpans : List Spanned.Structure → List Span
  | [] => []
  | item::body => structureSpans item ++ foldSpans body

def structureSpans : Spanned.Structure → List Span
  | .block span _ _ body => span :: foldSpans body
  | .attribute _ _ value => ((walkExpression true value).filter isContainer).map Expression.span

end

def lines (f : FoldingRange) : ℕ × ℕ := (f.startLine,f.endLine)

/-- One fold is kept for the same lines. -/
def foldingRange (body : Spanned.Body) (rope : Rope) : Option (List FoldingRange) :=
  let out := (FirstReports.firsts lines [] ((foldSpans body).filterMap (pushMultilineFold rope))).2
  if out = [] then none else some out

/-! ### The last line with content -/

section content

variable {content : ℕ → Bool} {start e : ℕ}

theorem lastContentLineFrom_spec (h : start < lastContentLineFrom content start e) :
    content (lastContentLineFrom content start e) ∧ lastContentLineFrom content start e ≤ e := by
  induction e with
  | zero => exact absurd h (Nat.not_lt_zero _)
  | succ e ih =>
    rw [lastContentLineFrom] at h ⊢
    split_ifs at h ⊢ with hlt hcontent
    · exact ⟨hcontent,Nat.le_refl _⟩
    · exact ⟨(ih h).1,Nat.le_succ_of_le (ih h).2⟩
    · exact absurd h hlt

theorem le_lastContentLineFrom {k : ℕ} (hk : content k) (hstart : start < k) (hle : k ≤ e) :
    k ≤ lastContentLineFrom content start e := by
  induction e with
  | zero => omega
  | succ e ih =>
    rw [lastContentLineFrom]
    split_ifs with hlt hcontent
    · exact hle
    · have hne : k ≠ e + 1 := fun heq => hcontent (heq ▸ hk)
      exact ih (by omega)
    · omega

theorem lt_lenLines {rope : Rope} (h : hasContent rope e) : e < lenLines rope := by
  by_contra hge
  rw [hasContent,line,if_neg hge] at h
  cases h

end content

/-! ### Nested nodes -/

section folds

variable {rope : Rope} {span : Span} {f g : FoldingRange} {body : Spanned.Body}

/-- The line that an offset is in. -/
def lineAt (rope : Rope) (offset : ℕ) : ℕ := lineOf (lineStartBytes rope) offset

theorem hclSpanToLspRange_lines {range : Range} (h : hclSpanToLspRange rope span = .ok range) :
    range.start.line = lineAt rope span.1 ∧ range.end.line = lineAt rope span.2 := by
  rw [hclSpanToLspRange,byteOffsetToLspPosition,byteOffsetToLspPosition] at h
  dsimp only at h
  split_ifs at h
  · cases h
  · cases h
  · cases h
  · obtain rfl := Except.ok.inj h
    exact ⟨rfl,rfl⟩

/-- What is known of the fold that a node gets. -/
structure FoldOf (rope : Rope) (span : Span) (f : FoldingRange) : Prop where
  start : f.startLine = lineAt rope span.1
  lines : f.startLine < f.endLine
  content : hasContent rope f.endLine
  within : f.endLine ≤ lineAt rope span.2
  last : ∀ k, hasContent rope k → f.startLine < k → k ≤ lineAt rope span.2 → k ≤ f.endLine

theorem foldOf (h : pushMultilineFold rope span = some f) : FoldOf rope span f := by
  rw [pushMultilineFold] at h
  split at h
  · cases h
  · rename_i range hrange
    obtain ⟨hstart,hend⟩ := hclSpanToLspRange_lines hrange
    dsimp only at h
    split_ifs at h with hlt
    obtain rfl := Option.some.inj h
    obtain ⟨hcontent,hle⟩ := lastContentLineFrom_spec hlt
    refine ⟨hstart,hlt,hcontent,?_,fun k hk hkstart hkend => ?_⟩
    · rw [← hend]
      exact hle.trans (Nat.min_le_left _ _)
    · have hk' := lt_lenLines hk
      exact le_lastContentLineFrom hk hkstart (by omega)

theorem range_of_fold (h : pushMultilineFold rope span = some f) :
    ∃ range, hclSpanToLspRange rope span = .ok range := by
  rw [pushMultilineFold] at h
  split at h
  · cases h
  · exact ⟨_,‹_›⟩

/-- A node with a later line that is not blank gets a fold. -/
theorem exists_fold {range : Range} {k : ℕ} (hrange : hclSpanToLspRange rope span = .ok range)
    (hk : hasContent rope k) (hstart : range.start.line < k) (hend : k ≤ range.end.line) :
    ∃ f, pushMultilineFold rope span = some f := by
  have hk' := lt_lenLines hk
  have hle : k ≤ lastContentLine rope range.start.line range.end.line :=
    le_lastContentLineFrom hk hstart (by omega)
  rw [pushMultilineFold,hrange]
  dsimp only
  rw [if_pos (by omega)]
  exact ⟨_,rfl⟩

/-- Of two nodes in the order of the walk the later one is inside of the other or behind it. -/
def Nested (a b : Span) : Prop := (a.1 ≤ b.1 ∧ b.2 ≤ a.2) ∨ a.2 ≤ b.1

structure SpansNest (spans : List Span) : Prop where
  ordered : ∀ span ∈ spans, span.1 ≤ span.2
  nested : spans.Pairwise Nested

/-- Each fold begins before the other one and ends in it. -/
def Crosses (f g : FoldingRange) : Prop :=
  f.startLine < g.startLine ∧ g.startLine < f.endLine ∧ f.endLine < g.endLine

theorem not_crosses {a b : Span} (ha : a.1 ≤ a.2) (hab : Nested a b) (hf : FoldOf rope a f)
    (hg : FoldOf rope b g) : ¬Crosses f g ∧ ¬Crosses g f := by
  have hmono : ∀ {i j : ℕ}, i ≤ j → lineAt rope i ≤ lineAt rope j := lineOf_mono _
  obtain ⟨hfstart,hflt,hfcontent,hfwithin,hflast⟩ := hf
  obtain ⟨hgstart,hglt,hgcontent,hgwithin,hglast⟩ := hg
  rcases hab with ⟨hstart,hend⟩ | hbehind
  · have hlines := hmono hstart
    have hstops := hmono hend
    have hreach : g.endLine ≤ f.endLine := hflast _ hgcontent (by omega) (by omega)
    constructor
    · rintro ⟨-,-,hbeyond⟩
      omega
    · rintro ⟨hbefore,-,-⟩
      omega
  · have hlines := hmono hbehind
    have hown := hmono ha
    constructor
    · rintro ⟨-,hbegins,-⟩
      omega
    · rintro ⟨hbefore,-,-⟩
      omega

/-- What a client relies on to show the folds of some nodes. -/
structure WellFolded (rope : Rope) (spans : List Span) (folds : List FoldingRange) : Prop where
  content : ∀ f ∈ folds, f.startLine < f.endLine ∧ hasContent rope f.endLine
  distinct : (folds.map lines).Nodup
  uncrossed : ∀ f ∈ folds, ∀ g ∈ folds, ¬Crosses f g
  /-- A fold is part of a node that begins with it. -/
  sound : ∀ f ∈ folds, ∃ span ∈ spans, ∃ range, hclSpanToLspRange rope span = .ok range ∧
    f.startLine = range.start.line ∧ f.endLine ≤ range.end.line
  /-- A fold from a node's first line has every later line of it that is not blank. -/
  complete : ∀ span ∈ spans, ∀ range, hclSpanToLspRange rope span = .ok range →
    ∀ k, range.start.line < k → k ≤ range.end.line → hasContent rope k →
      ∃ f ∈ folds, f.startLine = range.start.line ∧ k ≤ f.endLine

theorem foldingRange_wellFolded (h : SpansNest (foldSpans body)) :
    WellFolded rope (foldSpans body) ((foldingRange body rope).getD []) := by
  have hout : (foldingRange body rope).getD [] =
      (FirstReports.firsts lines [] ((foldSpans body).filterMap (pushMultilineFold rope))).2 := by
    rw [foldingRange]
    split_ifs with hnil
    · exact hnil.symm
    · rfl
  rw [hout]
  have hmem : ∀ {f}, f ∈ (FirstReports.firsts lines [] ((foldSpans body).filterMap
      (pushMultilineFold rope))).2 → ∃ span ∈ foldSpans body, pushMultilineFold rope span = some f :=
    fun hf => List.mem_filterMap.mp (FirstReports.mem_of_firsts hf)
  have hpair : ∀ a ∈ foldSpans body, ∀ b ∈ foldSpans body, Nested a b ∨ Nested b a := by
    intro a ha b hb
    have hself : ∀ c ∈ foldSpans body, Nested c c ∨ Nested c c :=
      fun c _ => .inl (.inl ⟨Nat.le_refl _,Nat.le_refl _⟩)
    exact List.Pairwise.forall_of_forall_of_flip (R:=fun a b => Nested a b ∨ Nested b a) hself
      (h.nested.imp Or.inl) (h.nested.imp Or.inr) ha hb
  constructor
  · intro f hf
    obtain ⟨span,-,hspan⟩ := hmem hf
    exact ⟨(foldOf hspan).lines,(foldOf hspan).content⟩
  · exact FirstReports.nodup_firsts_map _ _
  · intro f hf g hg
    obtain ⟨a,ha,hfa⟩ := hmem hf
    obtain ⟨b,hb,hgb⟩ := hmem hg
    rcases hpair a ha b hb with hab | hba
    · exact (not_crosses (h.ordered a ha) hab (foldOf hfa) (foldOf hgb)).1
    · exact (not_crosses (h.ordered b hb) hba (foldOf hgb) (foldOf hfa)).2
  · intro f hf
    obtain ⟨span,hspan,hfold⟩ := hmem hf
    obtain ⟨range,hrange⟩ := range_of_fold hfold
    obtain ⟨hstart,hend⟩ := hclSpanToLspRange_lines hrange
    exact ⟨span,hspan,range,hrange,by rw [hstart,(foldOf hfold).start],hend ▸ (foldOf hfold).within⟩
  · intro span hspan range hrange k hk hle hcontent
    obtain ⟨hstart,hend⟩ := hclSpanToLspRange_lines hrange
    obtain ⟨f,hf⟩ := exists_fold hrange hcontent hk hle
    obtain ⟨g,hg,hlines⟩ := FirstReports.exists_firsts (f:=lines)
      (List.mem_filterMap.mpr ⟨span,hspan,hf⟩)
    obtain ⟨hstarts,hends⟩ := Prod.mk.inj hlines
    have hfold := foldOf hf
    refine ⟨g,hg,by rw [hstarts,hfold.start,hstart],?_⟩
    rw [hends]
    exact hfold.last k hcontent (by rw [hfold.start,← hstart]; exact hk) (hend ▸ hle)

/-- A block with an object of two lines, and a blank line behind it. -/
def tagsText : Rope := "a \x7b\n  t = \x7b\n  \x7d\n\x7d\n\nb \x7b\n\x7d\n".toList

def tagsBody : Spanned.Body :=
  [.block (0,17) "a" [] [.attribute (6,7) "t" (.object (10,15) [])],.block (19,24) "b" [] []]

theorem tags_wellFolded : WellFolded tagsText (foldSpans tagsBody)
    ((foldingRange tagsBody tagsText).getD []) :=
  foldingRange_wellFolded ⟨by decide,by unfold Nested; decide⟩

end folds

/-! ### Selections -/

inductive SelectionRange
  | mk (range : Range) (parent : Option SelectionRange)

/-- The ranges from one on, through the parents. -/
def SelectionRange.ranges : SelectionRange → List Range
  | .mk range none => [range]
  | .mk range (some parent) => range :: parent.ranges

instance (p q : Position) : Decidable (p.NotAfter q) := by
  unfold Position.NotAfter
  infer_instance

def contains (range : Range) (pos : Position) : Bool :=
  range.start.NotAfter pos ∧ pos.NotAfter range.end

section chains

variable (rope : Rope) (pos : Position)

/-- An attribute reaches from its key to the end of its value. -/
def visitAttributes : List Spanned.Structure → List Range
  | [] => []
  | .attribute keySpan _ value :: rest =>
    match hclSpanToLspRange rope (keySpan.1,value.span.2) with
    | .error _ => visitAttributes rest
    | .ok range => if contains range pos then [range] else visitAttributes rest
  | .block _ _ _ _ :: rest => visitAttributes rest

mutual

/-- The chain of the first block around the position. -/
def visitBlocks : List Spanned.Structure → Option (List Range)
  | [] => none
  | item::rest => (visitBlock item).or (visitBlocks rest)

def visitBlock : Spanned.Structure → Option (List Range)
  | .attribute _ _ _ => none
  | .block span _ _ body =>
    match hclSpanToLspRange rope span with
    | .error _ => none
    | .ok range =>
      if contains range pos then
        some (range :: (visitBlocks body).getD (visitAttributes rope pos body))
      else none

end

/-- The ranges around a position, the outermost first. -/
def visitChain (body : Spanned.Body) : List Range :=
  (visitBlocks rope pos body).getD (visitAttributes rope pos body)

/-- The loop goes from the innermost range outwards and hands each to the next as its parent. -/
def buildSelectionChain (body : Spanned.Body) : SelectionRange :=
  .mk ⟨pos,pos⟩
    ((visitChain rope pos body).reverse.foldl (fun chain range => some (.mk range chain)) none)

end chains

section selections

variable {rope : Rope} {pos : Position} {r r' : Range} {a b : ℕ}

/-- One range lies in another. -/
def Within (r r' : Range) : Prop := r'.start.NotAfter r.start ∧ r.end.NotAfter r'.end

/-- Each range of a chain lies in its parent and so in all the others behind it. -/
def SelectionRange.Grows (s : SelectionRange) : Prop := s.ranges.Pairwise Within

mutual

/-- Structures lie in the span of what they are in. -/
def Placed (outer : Span) : List Spanned.Structure → Prop
  | [] => True
  | item::rest => StructurePlaced outer item ∧ Placed outer rest

def StructurePlaced (outer : Span) : Spanned.Structure → Prop
  | .attribute keySpan _ value => outer.1 ≤ keySpan.1 ∧ value.span.2 ≤ outer.2
  | .block span _ _ body => outer.1 ≤ span.1 ∧ span.2 ≤ outer.2 ∧ Placed span body

end

theorem ranges_build (l : List Range) (r : Range) :
    (SelectionRange.mk r (l.reverse.foldl (fun chain range => some (.mk range chain)) none)).ranges =
      r :: l := by
  induction l generalizing r with
  | nil => rfl
  | cons x l ih =>
    rw [List.reverse_cons,List.foldl_append]
    change r :: (SelectionRange.mk x _).ranges = _
    rw [ih]

theorem notAfter_trans {p q t : Position} (hpq : p.NotAfter q) (hqt : q.NotAfter t) : p.NotAfter t := by
  unfold Position.NotAfter at *
  omega

theorem notAfter_refl (p : Position) : p.NotAfter p := .inr ⟨rfl,Nat.le_refl _⟩

theorem notAfter_antisymm {p q : Position} (hpq : p.NotAfter q) (hqp : q.NotAfter p) : p = q := by
  unfold Position.NotAfter at *
  cases p
  cases q
  simp only [Position.mk.injEq]
  dsimp only at hpq hqp
  omega

theorem byteToChar_mono (h : a ≤ b) : byteToChar rope a ≤ byteToChar rope b := by
  induction rope generalizing a b with
  | nil => exact Nat.le_refl _
  | cons c rope ih =>
    rw [byteToChar,byteToChar]
    split_ifs with ha hb
    · exact Nat.le_refl _
    · exact Nat.zero_le _
    · omega
    · exact Nat.succ_le_succ (ih (by omega))

theorem lenUtf16Cu_mono {u v : Rope} (h : u <+: v) : lenUtf16Cu u ≤ lenUtf16Cu v := by
  obtain ⟨w,rfl⟩ := h
  rw [lenUtf16Cu_append]
  exact Nat.le_add_right _ _

theorem byteOffsetToLspPosition_mono {p q : Position} (h : a ≤ b)
    (hp : byteOffsetToLspPosition rope a = .ok p) (hq : byteOffsetToLspPosition rope b = .ok q) :
    p.NotAfter q := by
  rw [byteOffsetToLspPosition] at hp hq
  dsimp only at hp hq
  split_ifs at hp hq
  obtain rfl := Except.ok.inj hp
  obtain rfl := Except.ok.inj hq
  have hline := lineOf_mono (lineStartBytes rope) h
  rcases Nat.lt_or_eq_of_le hline with hlt | heq
  · exact .inl hlt
  · refine .inr ⟨heq,?_⟩
    dsimp only
    rw [← heq]
    refine lenUtf16Cu_mono ?_
    rw [byteSlice,byteSlice]
    exact List.IsPrefix.drop (List.take_prefix_take_left (byteToChar_mono h)) _

/-- A span in another one has its range in the other's. -/
theorem within_of_spans {span outer : Span} (hstart : outer.1 ≤ span.1) (hend : span.2 ≤ outer.2)
    (h : hclSpanToLspRange rope span = .ok r) (h' : hclSpanToLspRange rope outer = .ok r') :
    Within r r' := by
  rw [hclSpanToLspRange] at h h'
  cases hp : byteOffsetToLspPosition rope span.1 with
  | error e => rw [hp] at h; cases h
  | ok p =>
  cases hq : byteOffsetToLspPosition rope span.2 with
  | error e => rw [hp,hq] at h; cases h
  | ok q =>
  cases hp' : byteOffsetToLspPosition rope outer.1 with
  | error e => rw [hp'] at h'; cases h'
  | ok p' =>
  cases hq' : byteOffsetToLspPosition rope outer.2 with
  | error e => rw [hp',hq'] at h'; cases h'
  | ok q' =>
  rw [hp,hq] at h
  rw [hp',hq'] at h'
  obtain rfl := Except.ok.inj h
  obtain rfl := Except.ok.inj h'
  exact ⟨byteOffsetToLspPosition_mono hstart hp' hp,byteOffsetToLspPosition_mono hend hq hq'⟩

theorem Within.trans {r'' : Range} (h : Within r r') (h' : Within r' r'') : Within r r'' :=
  ⟨notAfter_trans h'.1 h.1,notAfter_trans h.2 h'.2⟩

/-- Ranges around a position in a span, each in the one before. -/
structure ChainIn (rope : Rope) (pos : Position) (outer : Span) (l : List Range) : Prop where
  around : ∀ r ∈ l, contains r pos
  inside : ∀ r ∈ l, ∀ r', hclSpanToLspRange rope outer = .ok r' → Within r r'
  shrinks : l.Pairwise fun outer inner => Within inner outer

theorem visitAttributes_chain {outer : Span} : ∀ {body : List Spanned.Structure}, Placed outer body →
    ChainIn rope pos outer (visitAttributes rope pos body)
  | [], _ => ⟨nofun,nofun,List.Pairwise.nil⟩
  | .block _ _ _ _ :: rest, h => by
    rw [Placed] at h
    rw [visitAttributes]
    exact visitAttributes_chain h.2
  | .attribute keySpan key value :: rest, h => by
    rw [Placed,StructurePlaced] at h
    obtain ⟨⟨hstart,hend⟩,hrest⟩ := h
    rw [visitAttributes]
    cases hrange : hclSpanToLspRange rope (keySpan.1,value.span.2) with
    | error e => exact visitAttributes_chain hrest
    | ok range =>
      dsimp only
      split_ifs with hcontains
      · refine ⟨?_,?_,List.pairwise_singleton _ _⟩
        · rintro r hr
          rwa [List.mem_singleton.mp hr]
        · rintro r hr r' hr'
          rw [List.mem_singleton.mp hr]
          refine within_of_spans ?_ ?_ hrange hr'
          · exact hstart
          · exact hend
      · exact visitAttributes_chain hrest

mutual

theorem visitBlocks_chain {outer : Span} : ∀ {body : List Spanned.Structure} {l : List Range},
    Placed outer body → visitBlocks rope pos body = some l → ChainIn rope pos outer l
  | [], l, _, hl => by cases hl
  | item::rest, l, h, hl => by
    rw [Placed] at h
    rw [visitBlocks] at hl
    rcases Option.or_eq_some_iff.mp hl with hl | ⟨-,hl⟩
    · exact visitBlock_chain h.1 hl
    · exact visitBlocks_chain h.2 hl

theorem visitBlock_chain {outer : Span} : ∀ {item : Spanned.Structure} {l : List Range},
    StructurePlaced outer item → visitBlock rope pos item = some l → ChainIn rope pos outer l
  | .attribute _ _ _, l, _, hl => by cases hl
  | .block span ident labels body, l, h, hl => by
    rw [StructurePlaced] at h
    obtain ⟨hstart,hend,hbody⟩ := h
    rw [visitBlock] at hl
    cases hrange : hclSpanToLspRange rope span with
    | error e =>
      rw [hrange] at hl
      cases hl
    | ok range =>
      rw [hrange] at hl
      dsimp only at hl
      split_ifs at hl with hcontains
      obtain rfl := Option.some.inj hl
      have hin : ChainIn rope pos span
          ((visitBlocks rope pos body).getD (visitAttributes rope pos body)) := by
        cases hblocks : visitBlocks rope pos body with
        | none => exact visitAttributes_chain hbody
        | some chain => exact visitBlocks_chain hbody hblocks
      refine ⟨List.forall_mem_cons.mpr ⟨hcontains,hin.around⟩,?_,
        List.pairwise_cons.mpr ⟨fun r hr => hin.inside r hr range hrange,hin.shrinks⟩⟩
      intro r hr r' hr'
      have hwithin : Within range r' := within_of_spans hstart hend hrange hr'
      rcases List.mem_cons.mp hr with rfl | hr
      · exact hwithin
      · exact (hin.inside r hr range hrange).trans hwithin

end

theorem visitChain_chain {outer : Span} {body : Spanned.Body} (h : Placed outer body) :
    ChainIn rope pos outer (visitChain rope pos body) := by
  rw [visitChain]
  cases hblocks : visitBlocks rope pos body with
  | none => exact visitAttributes_chain h
  | some chain => exact visitBlocks_chain h hblocks

/-- The parents run from the outermost range inwards, so a chain only grows where all the
ranges around the position are one. -/
theorem selection_grows_iff {outer : Span} {body : Spanned.Body} (h : Placed outer body) :
    (buildSelectionChain rope pos body).ranges = ⟨pos,pos⟩ :: visitChain rope pos body ∧
      (∀ r ∈ visitChain rope pos body, contains r pos) ∧
      (visitChain rope pos body).Pairwise (fun parent child => Within child parent) ∧
      ((buildSelectionChain rope pos body).Grows ↔ (visitChain rope pos body).Pairwise (· = ·)) := by
  have hchain : ChainIn rope pos outer (visitChain rope pos body) := visitChain_chain h
  have hranges : (buildSelectionChain rope pos body).ranges = ⟨pos,pos⟩ :: visitChain rope pos body :=
    ranges_build _ _
  refine ⟨hranges,hchain.around,hchain.shrinks,?_⟩
  rw [SelectionRange.Grows,hranges,List.pairwise_cons]
  constructor
  · rintro ⟨-,hgrows⟩
    refine (hgrows.and hchain.shrinks).imp ?_
    rintro r r' ⟨hin,hout⟩
    have hstart := notAfter_antisymm hout.1 hin.1
    have hend := notAfter_antisymm hin.2 hout.2
    cases r
    cases r'
    exact congrArg₂ _ hstart hend
  · intro hsame
    refine ⟨fun r hr => ?_,hsame.imp ?_⟩
    · have haround := hchain.around r hr
      rw [contains,decide_eq_true_eq] at haround
      exact haround
    · rintro r r' rfl
      exact ⟨notAfter_refl _,notAfter_refl _⟩

/-- Around the key of a block's attribute are two ranges, and the wrong one is the parent. -/
theorem tags_selection_shrinks : visitChain tagsText ⟨1,2⟩ tagsBody = [⟨⟨0,0⟩,⟨3,1⟩⟩,⟨⟨1,2⟩,⟨2,3⟩⟩] ∧
    ¬(buildSelectionChain tagsText ⟨1,2⟩ tagsBody).Grows := by
  have hplaced : Placed (0,25) tagsBody := by
    simp [Placed,StructurePlaced,tagsBody,Spanned.Expression.span]
  have hchain : visitChain tagsText ⟨1,2⟩ tagsBody = [⟨⟨0,0⟩,⟨3,1⟩⟩,⟨⟨1,2⟩,⟨2,3⟩⟩] := by decide
  refine ⟨hchain,fun h => ?_⟩
  have hsame := (selection_grows_iff hplaced).2.2.2.mp h
  rw [hchain] at hsame
  exact absurd (List.rel_of_pairwise_cons hsame List.mem_cons_self) (by decide)

end selections

end FoldingRanges
end TerraformLs
