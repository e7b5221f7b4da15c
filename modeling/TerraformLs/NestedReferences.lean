import TerraformLs.CodeActions
import TerraformLs.Fingerprint
import TerraformLs.PositionConversions
import TerraformLs.SemanticTokens
import TerraformLs.SpannedTree

/-! Which references of a parsed document start in another. The spans of a syntax tree
nest, so one reference starts in another only from inside one of its indexes. -/
namespace TerraformLs

namespace Spanned

section parts

mutual

def templateParts : List Element → List Expression
  | [] => []
  | .literal::elements => templateParts elements
  | .interpolation expr::elements => expr :: templateParts elements
  | .directive d::elements => directiveParts d ++ templateParts elements

def directiveParts : Directive → List Expression
  | .if cond whenTrue whenFalse => cond :: (templateParts whenTrue ++ elseParts whenFalse)
  | .for collection elements => collection :: templateParts elements

def elseParts : Option (List Element) → List Expression
  | none => []
  | some elements => templateParts elements

end

def keyParts : ObjectKey → List Expression
  | .ident _ => []
  | .expression expr => [expr]

def operatorParts : TraversalOperator → List Expression
  | .index expr => [expr]
  | _ => []

/-- The expressions right below one, in the order of the text. -/
def parts : Expression → List Expression
  | .literal _ | .variable _ _ => []
  | .array _ items => items
  | .object _ entries => entries.flatMap fun entry => keyParts entry.1 ++ [entry.2]
  | .stringTemplate _ elements | .heredocTemplate _ elements => templateParts elements
  | .parenthesis _ inner => [inner]
  | .conditional _ cond whenTrue whenFalse => [cond,whenTrue,whenFalse]
  | .funcCall _ _ _ args => args
  | .traversal _ expr operators => expr :: operators.flatMap operatorParts
  | .unaryOp _ operand => [operand]
  | .binaryOp _ lhs rhs => [lhs,rhs]
  | .forExpr _ collection keyExpr valueExpr cond =>
    collection :: (keyExpr.toList ++ [valueExpr] ++ cond.toList)

/-- The expressions below one. -/
def inside (e : Expression) : List Expression := (parts e).flatMap (walkExpression true)

theorem walkItems_eq (items : List Expression) :
    walkItems true items = items.flatMap (walkExpression true) := by
  induction items with
  | nil => rfl
  | cons item items ih => rw [walkItems,ih,List.flatMap_cons]

theorem walkEntries_eq (entries : List (ObjectKey × Expression)) : walkEntries true entries =
    (entries.flatMap fun entry => keyParts entry.1 ++ [entry.2]).flatMap (walkExpression true) := by
  induction entries with
  | nil => rfl
  | cons entry entries ih =>
    obtain ⟨key,value⟩ := entry
    rw [walkEntries,ih,List.flatMap_cons,List.flatMap_append]
    cases key <;> simp [walkEntry,walkKey,keyParts]

theorem walkOperators_eq (operators : List TraversalOperator) : walkOperators true operators =
    (operators.flatMap operatorParts).flatMap (walkExpression true) := by
  induction operators with
  | nil => rfl
  | cons operator operators ih =>
    rw [walkOperators,ih,List.flatMap_cons,List.flatMap_append]
    cases operator <;> simp [walkOperator,operatorParts]

theorem walkOptional_eq (e : Option Expression) :
    walkOptional true e = e.toList.flatMap (walkExpression true) := by
  cases e <;> simp [walkOptional]

mutual

theorem walkTemplate_eq : ∀ elements : List Element,
    walkTemplate true elements = (templateParts elements).flatMap (walkExpression true)
  | [] => rfl
  | .literal::elements => by
    rw [walkTemplate,walkElement,templateParts,walkTemplate_eq elements,List.nil_append]
  | .interpolation expr::elements => by
    rw [walkTemplate,walkElement,templateParts,walkTemplate_eq elements,List.flatMap_cons]
  | .directive d::elements => by
    rw [walkTemplate,walkElement,templateParts,walkTemplate_eq elements,walkDirective_eq d,
      List.flatMap_append]

theorem walkDirective_eq : ∀ d : Directive,
    walkDirective true d = (directiveParts d).flatMap (walkExpression true)
  | .if cond whenTrue whenFalse => by
    rw [walkDirective,directiveParts,walkTemplate_eq whenTrue,walkElse_eq whenFalse,
      List.flatMap_cons,List.flatMap_append,List.append_assoc]
  | .for collection elements => by
    rw [walkDirective,directiveParts,walkTemplate_eq elements,List.flatMap_cons]

theorem walkElse_eq : ∀ elements : Option (List Element),
    walkElse true elements = (elseParts elements).flatMap (walkExpression true)
  | none => rfl
  | some elements => by rw [walkElse,elseParts,walkTemplate_eq elements]

end

theorem walkExpression_eq (e : Expression) : walkExpression true e = e :: inside e := by
  cases e with
  | literal | «variable» => rfl
  | array => rw [walkExpression,walkItems_eq,inside,parts]
  | object => rw [walkExpression,walkEntries_eq,inside,parts]
  | stringTemplate | heredocTemplate => rw [walkExpression,walkTemplate_eq,inside,parts]
  | funcCall => rw [walkExpression,walkItems_eq,inside,parts]
  | traversal => rw [walkExpression,walkOperators_eq,inside,parts,List.flatMap_cons]
  | parenthesis | unaryOp | binaryOp | conditional => simp [walkExpression,inside,parts]
  | forExpr =>
    rw [walkExpression,walkOptional_eq,walkOptional_eq,inside,parts]
    simp

end parts

section nesting

/-- The first expression ends before the second starts. -/
def Before (a b : Expression) : Prop := a.span.2 ≤ b.span.1

/-- The second expression has an extent and lies in that of the first. -/
def Encloses (a b : Expression) : Prop :=
  a.span.1 ≤ b.span.1 ∧ b.span.2 ≤ a.span.2 ∧ b.span.1 < b.span.2

/-- Of two expressions of a walk, in its order, the second lies below the first or after it. -/
def Follows (a b : Expression) : Prop := b ∈ inside a ∧ Encloses a b ∨ Before a b

/-- The spans of the expressions below lie inside that of an expression, one after another. -/
inductive WellNested : Expression → Prop
  | intro {e : Expression} (hspan : e.span.1 < e.span.2)
    (hinside : ∀ c ∈ parts e, e.span.1 ≤ c.span.1 ∧ c.span.2 ≤ e.span.2)
    (horder : (parts e).Pairwise Before) (hparts : ∀ c ∈ parts e, WellNested c) : WellNested e

/-- A walk over nested expressions, one after another, which all have an extent. -/
theorem walk_nested {roots : List Expression} (horder : roots.Pairwise Before)
    (h : ∀ e ∈ roots, (∀ x ∈ walkExpression true e, Encloses e x) ∧
      (walkExpression true e).Pairwise Follows) :
    (roots.flatMap (walkExpression true)).Pairwise Follows := by
  rw [List.pairwise_flatMap]
  refine ⟨fun c hc => (h c hc).2,horder.imp_of_mem fun {c d} hc hd hcd => ?_⟩
  intro x hx y hy
  have hcx := (h c hc).1 x hx
  have hdy := (h d hd).1 y hy
  right
  simp only [Before,Encloses] at hcd hcx hdy ⊢
  omega

theorem WellNested.walk {e : Expression} (h : WellNested e) :
    (∀ x ∈ walkExpression true e, Encloses e x) ∧ (walkExpression true e).Pairwise Follows := by
  induction h with
  | @intro e hspan hinside horder hparts ih =>
    have hbelow : ∀ x ∈ inside e, Encloses e x := by
      intro x hx
      obtain ⟨c,hc,hx⟩ := List.mem_flatMap.mp hx
      have hcx := (ih c hc).1 x hx
      have hec := hinside c hc
      simp only [Encloses] at hcx ⊢
      omega
    rw [walkExpression_eq]
    constructor
    · intro x hx
      rcases List.mem_cons.mp hx with rfl | hx
      · exact ⟨le_rfl,le_rfl,hspan⟩
      · exact hbelow x hx
    · exact List.pairwise_cons.mpr ⟨fun x hx => .inl ⟨hx,hbelow x hx⟩,walk_nested horder ih⟩

/-- What an index of a traversal holds starts after the traversal. -/
theorem WellNested.index_after {span : Span} {expr : Expression}
    {operators : List TraversalOperator} (h : WellNested (.traversal span expr operators))
    {x : Expression} (hx : x ∈ (operators.flatMap operatorParts).flatMap (walkExpression true)) :
    span.1 < x.span.1 := by
  cases h with
  | intro hspan hinside horder hparts =>
    obtain ⟨c,hc,hx⟩ := List.mem_flatMap.mp hx
    have hexpr := hinside expr List.mem_cons_self
    have hfirst : Before expr c := (List.pairwise_cons.mp horder).1 c hc
    have hpart := (hparts c (List.mem_cons_of_mem _ hc)).walk.1 x hx
    have hextent := ((hparts expr List.mem_cons_self).walk.1 expr
      (by rw [walkExpression_eq]; exact List.mem_cons_self)).2.2
    simp only [Before,Encloses,Expression.span] at hfirst hpart hexpr hextent ⊢
    omega

mutual

/-- The values of the attributes of a body, in order. -/
def values : List Structure → List Expression
  | [] => []
  | item::body => structureValues item ++ values body

def structureValues : Structure → List Expression
  | .attribute _ _ value => [value]
  | .block _ _ _ body => values body

end

mutual

theorem walkBody_eq : ∀ body : List Structure,
    walkBody true body = (values body).flatMap (walkExpression true)
  | [] => rfl
  | item::body => by
    rw [walkBody,values,walkStructure_eq item,walkBody_eq body,List.flatMap_append]

theorem walkStructure_eq : ∀ item : Structure,
    walkStructure true item = (structureValues item).flatMap (walkExpression true)
  | .attribute _ _ value => by simp [walkStructure,structureValues]
  | .block _ _ _ body => by rw [walkStructure,structureValues,walkBody_eq body]

end

/-- The values of a body nest and follow one another. -/
structure WellNestedBody (body : Body) : Prop where
  order : (values body).Pairwise Before
  values : ∀ e ∈ values body, WellNested e

theorem flatMap_sublist {roots : List Expression} {e : Expression} (h : e ∈ roots) :
    (walkExpression true e).Sublist (roots.flatMap (walkExpression true)) := by
  rw [List.flatMap_def]
  exact List.sublist_flatten_of_mem (List.mem_map_of_mem h)

/-- A walk goes through that of each expression in it. -/
theorem WellNested.sublist {root e : Expression} (h : WellNested root)
    (he : e ∈ walkExpression true root) :
    (walkExpression true e).Sublist (walkExpression true root) := by
  induction h with
  | @intro root hspan hinside horder hparts ih =>
    rw [walkExpression_eq] at he
    rcases List.mem_cons.mp he with rfl | he
    · exact List.Sublist.refl _
    · obtain ⟨c,hc,he⟩ := List.mem_flatMap.mp he
      rw [walkExpression_eq root]
      exact ((ih c hc he).trans (flatMap_sublist hc)).cons root

theorem WellNested.nested {root e : Expression} (h : WellNested root)
    (he : e ∈ walkExpression true root) : WellNested e := by
  induction h with
  | @intro root hspan hinside horder hparts ih =>
    rw [walkExpression_eq] at he
    rcases List.mem_cons.mp he with rfl | he
    · exact .intro hspan hinside horder hparts
    · obtain ⟨c,hc,he⟩ := List.mem_flatMap.mp he
      exact ih c hc he

theorem WellNestedBody.sublist {body : Body} (h : WellNestedBody body) {e : Expression}
    (he : e ∈ expressions body) : (walkExpression true e).Sublist (expressions body) := by
  rw [expressions,walkBody_eq] at he ⊢
  obtain ⟨root,hroot,he⟩ := List.mem_flatMap.mp he
  exact ((h.values root hroot).sublist he).trans (flatMap_sublist hroot)

theorem WellNestedBody.nested {body : Body} (h : WellNestedBody body) {e : Expression}
    (he : e ∈ expressions body) : WellNested e := by
  rw [expressions,walkBody_eq] at he
  obtain ⟨root,hroot,he⟩ := List.mem_flatMap.mp he
  exact (h.values root hroot).nested he

theorem WellNestedBody.follows {body : Body} (h : WellNestedBody body) :
    (expressions body).Pairwise Follows := by
  rw [expressions,walkBody_eq]
  exact walk_nested h.order fun e he => (h.values e he).walk

end nesting

end Spanned

namespace SemanticTokens

open CodeActions Rope Spanned

/-- The names right after the head, up to the first other operator. -/
def leadingAttrs : List Spanned.TraversalOperator → List String
  | .getAttr _ name::operators => name :: leadingAttrs operators
  | _ => []

def extractReference (uri : Url) (rope : Rope) : Spanned.Expression → Option Reference
  | .traversal span (.variable _ base) operators =>
    match rope.hclSpanToLspRange span with
    | .ok range =>
      (classifyTraversal base (leadingAttrs operators)).map fun kind =>
        ⟨kind,SymbolLocation.new uri range⟩
    | .error _ => none
  | _ => none

def extractReferences (body : Spanned.Body) (uri : Url) (rope : Rope) : List Reference :=
  (expressions body).filterMap (extractReference uri rope)

section positions

variable {rope : Rope}

/-- The position of a boundary counts the lines before it. -/
theorem position_line (pre rest : Rope) : ∃ column,
    byteOffsetToLspPosition (pre ++ rest) (lenBytes pre) = .ok ⟨pre.count '\n',column⟩ := by
  obtain ⟨before,left,right,after,hline,rfl,rfl⟩ := LineAt.exists_around '\n' pre rest
  exact ⟨_,byteOffsetToLspPosition_of_lineAt hline rfl⟩

/-- On one line the column counts what stands in between. -/
theorem position_column (pre : Rope) {mid : Rope} (h : '\n' ∉ mid) (rest : Rope) : ∃ line column,
    byteOffsetToLspPosition (pre ++ mid ++ rest) (lenBytes pre) = .ok ⟨line,column⟩ ∧
      byteOffsetToLspPosition (pre ++ mid ++ rest) (lenBytes (pre ++ mid)) =
        .ok ⟨line,column + lenUtf16Cu mid⟩ := by
  obtain ⟨before,left,right,after,hline,hsplit,rfl⟩ := LineAt.exists_around '\n' (pre ++ mid) rest
  obtain ⟨left',rfl,rfl⟩ : ∃ left', pre = before ++ left' ∧ left = left' ++ mid := by
    rcases List.append_eq_append_iff.mp hsplit with ⟨x,rfl,hmid⟩ | ⟨x,hpre,hleft⟩
    · -- the line cannot start after the first place
      have hx : '\n' ∉ x := fun hin => h (hmid ▸ List.mem_append_left _ hin)
      have hcount : (pre ++ x).count '\n' = pre.count '\n' := by
        rw [List.count_append,List.count_eq_zero_of_not_mem hx,Nat.add_zero]
      obtain rfl := LineAt.eq_of_count hline.start hcount
      exact ⟨[],by simp,by simpa using hmid.symm⟩
    · exact ⟨x,hpre,hleft⟩
  have hstop := byteOffsetToLspPosition_of_lineAt hline rfl
  rw [lenUtf16Cu_append,← List.append_assoc before left' mid] at hstop
  exact ⟨_,_,byteOffsetToLspPosition_of_lineAt hline (List.append_assoc _ _ _),hstop⟩

/-- A later boundary has a later position. -/
theorem position_lt {a b : ℕ} {p q : Position} (hab : a < b) (ha : onBoundary rope a)
    (hb : onBoundary rope b) (hp : byteOffsetToLspPosition rope a = .ok p)
    (hq : byteOffsetToLspPosition rope b = .ok q) :
    p.line < q.line ∨ p.line = q.line ∧ p.character < q.character := by
  obtain ⟨pre,rest,hpre,rfl⟩ := prefix_of_onBoundary ha
  obtain ⟨pre',rest',hpre',rfl⟩ := prefix_of_onBoundary hb
  obtain ⟨mid,rfl,rfl⟩ : ∃ mid, pre' = pre ++ mid ∧ rest = mid ++ rest' := by
    rcases List.append_eq_append_iff.mp (hpre.symm.trans hpre') with ⟨x,hx,hrest⟩ | ⟨x,hx,-⟩
    · exact ⟨x,hx,hrest⟩
    · rw [hx,lenBytes_append] at hab
      omega
  subst hpre'
  by_cases hmid : '\n' ∈ mid
  · obtain ⟨column,hline⟩ := position_line pre (mid ++ rest')
    obtain ⟨column',hline'⟩ := position_line (pre ++ mid) rest'
    rw [← List.append_assoc] at hline
    obtain rfl := Except.ok.inj (hp.symm.trans hline)
    obtain rfl := Except.ok.inj (hq.symm.trans hline')
    have hcount := List.count_pos_iff.mpr hmid
    left
    simp only [List.count_append]
    omega
  · obtain ⟨line,column,hcolumn,hcolumn'⟩ := position_column pre hmid rest'
    obtain rfl := Except.ok.inj (hp.symm.trans hcolumn)
    obtain rfl := Except.ok.inj (hq.symm.trans hcolumn')
    refine .inr ⟨rfl,?_⟩
    have hne : mid ≠ [] := by
      rintro rfl
      simp at hab
    obtain ⟨c,mid,rfl⟩ := List.exists_cons_of_ne_nil hne
    have hc := utf16Len_pos c
    simp only [lenUtf16Cu,List.map_cons,List.sum_cons]
    omega

end positions

/-- The spans of a body nest, and cut no character of the text. -/
structure LaidOut (rope : Rope) (body : Spanned.Body) : Prop extends WellNestedBody body where
  boundary : ∀ e ∈ expressions body, onBoundary rope e.span.1 ∧ onBoundary rope e.span.2

section references

variable {rope : Rope} {uri : Url}

theorem extractReference_some {e : Spanned.Expression} {r : Reference}
    (h : extractReference uri rope e = some r) : ∃ base operators span,
      e = .traversal e.span (.variable span base) operators ∧
        rope.hclSpanToLspRange e.span = .ok (SymbolLocation.range r.location) := by
  cases e with
  | traversal span expr operators =>
    cases expr with
    | «variable» headSpan base =>
      simp only [extractReference] at h
      split at h
      · rename_i range hrange
        obtain ⟨kind,-,rfl⟩ := Option.map_eq_some_iff.mp h
        exact ⟨base,operators,headSpan,rfl,hrange⟩
      · cases h
    | _ => cases h
  | _ => cases h

theorem hclSpanToLspRange_end {span : Spanned.Span} {range : Range}
    (h : rope.hclSpanToLspRange span = .ok range) :
    rope.byteOffsetToLspPosition span.2 = .ok range.end := by
  unfold Rope.hclSpanToLspRange at h
  cases hstart : rope.byteOffsetToLspPosition span.1 with
  | error err => simp [hstart,bind,Except.bind] at h
  | ok start =>
    cases hstop : rope.byteOffsetToLspPosition span.2 with
    | error err => simp [hstart,hstop,bind,Except.bind] at h
    | ok stop =>
      simp only [hstart,hstop,bind,Except.bind,pure,Except.pure,Except.ok.injEq] at h
      rw [← h]

/-- The ranges of two references of a body, in its order, touch where the second lies in an
index of the first and the first lies on one line. -/
theorem touch_iff {body : Spanned.Body} (h : LaidOut rope body) {a b : Spanned.Expression}
    (ha : a ∈ expressions body) (hb : b ∈ expressions body) (hab : Follows a b) {r r' : Reference}
    (hr : extractReference uri rope a = some r) (hr' : extractReference uri rope b = some r') :
    (¬StartsIn (SymbolLocation.range r.location) (SymbolLocation.range r'.location) ∧
      ¬StartsIn (SymbolLocation.range r'.location) (SymbolLocation.range r.location)) ↔
      (b ∈ inside a → (SymbolLocation.range r.location).start.line ≠
        (SymbolLocation.range r.location).end.line) := by
  have hnested := h.toWellNestedBody.nested ha
  obtain ⟨base,operators,headSpan,hexpr,hrange⟩ := extractReference_some hr
  obtain ⟨-,-,-,-,hrange'⟩ := extractReference_some hr'
  generalize SymbolLocation.range r.location = A at hrange ⊢
  generalize SymbolLocation.range r'.location = B at hrange' ⊢
  -- the order of two places of the text is that of their positions
  have hextent : ∀ c ∈ expressions body, c.span.1 < c.span.2 := fun c hc =>
    ((h.toWellNestedBody.nested hc).walk.1 c (by rw [walkExpression_eq]; exact List.mem_cons_self)).2.2
  have hA := position_lt (hextent a ha) (h.boundary a ha).1 (h.boundary a ha).2
    (hclSpanToLspRange_start hrange) (hclSpanToLspRange_end hrange)
  simp only [StartsIn]
  rcases hab with ⟨hin,henclosed⟩ | hbefore
  · have hlater : a.span.1 < b.span.1 := by
      rw [hexpr,inside,parts,List.flatMap_cons] at hin
      rcases List.mem_append.mp hin with hhead | hindex
      · rw [walkExpression,List.mem_singleton] at hhead
        subst hhead
        cases hr'
      · rw [hexpr] at hnested
        exact hnested.index_after hindex
    have hstart := position_lt hlater (h.boundary a ha).1 (h.boundary b hb).1
      (hclSpanToLspRange_start hrange) (hclSpanToLspRange_start hrange')
    have hstop := position_lt (lt_of_lt_of_le henclosed.2.2 henclosed.2.1) (h.boundary b hb).1
      (h.boundary a ha).2 (hclSpanToLspRange_start hrange') (hclSpanToLspRange_end hrange)
    constructor
    · rintro ⟨hnot,-⟩ - hline
      apply hnot
      omega
    · intro hlines
      have hne := hlines hin
      refine ⟨fun hstarts => ?_,fun hstarts => ?_⟩
      · rcases hstarts with he | hstarts
        · rw [he] at hstart
          omega
        · exact hne hstarts.1
      · rcases hstarts with he | hstarts
        · rw [he] at hstart
          omega
        · omega
  · have hafter : ¬b ∈ inside a := by
      intro hin
      have henclosed := hnested.walk.1 b (by rw [walkExpression_eq]; exact List.mem_cons_of_mem _ hin)
      have hextent' := hextent b hb
      simp only [Before,Encloses] at hbefore henclosed
      omega
    have hstart : A.end = B.start ∨
        (A.end.line < B.start.line ∨ A.end.line = B.start.line ∧
          A.end.character < B.start.character) := by
      rcases Nat.lt_or_eq_of_le hbefore with hlt | heq
      · exact .inr (position_lt hlt (h.boundary a ha).2 (h.boundary b hb).1
          (hclSpanToLspRange_end hrange) (hclSpanToLspRange_start hrange'))
      · have hend := hclSpanToLspRange_end hrange
        rw [heq,hclSpanToLspRange_start hrange'] at hend
        exact .inl (Except.ok.inj hend).symm
    refine iff_of_true ?_ fun hin => absurd hin hafter
    obtain ⟨⟨al,ac⟩,⟨al',ac'⟩⟩ := A
    obtain ⟨⟨bl,bc⟩,⟨bl',bc'⟩⟩ := B
    simp only [Position.mk.injEq] at hA hstart ⊢
    omega

/-- The references of a body are apart exactly when none on one line has another in an index. -/
theorem references_apart_iff {body : Spanned.Body} (h : LaidOut rope body) :
    Apart ((extractReferences body uri rope).map fun r => SymbolLocation.range r.location) ↔
      ∀ a ∈ expressions body, ∀ b ∈ inside a, ∀ r r', extractReference uri rope a = some r →
        extractReference uri rope b = some r' → (SymbolLocation.range r.location).start.line ≠
          (SymbolLocation.range r.location).end.line := by
  have hnested := h.toWellNestedBody
  rw [Apart,List.pairwise_map,extractReferences,List.pairwise_filterMap]
  constructor
  · intro hapart a ha b hb r r' hr hr'
    have hsub := (hapart.and hnested.follows).sublist (hnested.sublist ha)
    rw [walkExpression_eq] at hsub
    obtain ⟨htouch,hfollows⟩ := (List.pairwise_cons.mp hsub).1 b hb
    have hmem : b ∈ expressions body :=
      (hnested.sublist ha).subset (by rw [walkExpression_eq]; exact List.mem_cons_of_mem _ hb)
    exact (touch_iff h ha hmem hfollows hr hr').mp (htouch r hr r' hr') hb
  · intro hcond
    refine hnested.follows.imp_of_mem fun {a b} ha hb hfollows r hr r' hr' => ?_
    exact (touch_iff h ha hb hfollows hr hr').mpr fun hin => hcond a ha b hin r r' hr hr'

end references

section nested

/-- One local on a line of its own. -/
def nestedText : Rope := "locals \x7b\n  x = var.a[var.b]\n\x7d\n".toList

def nestedBody : Spanned.Body :=
  [.block (0,28) "locals" [] [.attribute (11,12) "x"
    (.traversal (15,27) (.variable (15,18) "var")
      [.getAttr (19,20) "a",
        .index (.traversal (21,26) (.variable (21,24) "var") [.getAttr (25,26) "b"])])]]

def nestedDoc : DocumentState :=
  .hydratedFromCache "file:///m/main.tf" (String.ofList nestedText) {}
    (extractReferences nestedBody "file:///m/main.tf" nestedText)

/-- The token of a reference runs over that of the one in its index. -/
theorem nested_not_wellFormed : ¬WellFormed (decode (encodeTokens nestedDoc)) := by
  rw [wellFormed_iff_apart]
  have hranges : labelRanges nestedDoc ++ referenceRanges nestedDoc =
      [⟨⟨1,6⟩,⟨1,18⟩⟩,⟨⟨1,12⟩,⟨1,17⟩⟩] := by decide +kernel
  rw [hranges,Apart,List.pairwise_pair]
  intro h
  apply h.1
  exact .inr ⟨rfl,rfl,by decide,by decide⟩

end nested

end SemanticTokens

end TerraformLs
