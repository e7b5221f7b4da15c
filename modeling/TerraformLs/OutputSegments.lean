import TerraformLs.NestedReferences

/-! Which output of a module the cursor is on, for going to its definition and for
hovering: two searches through the expressions of a body. -/
namespace TerraformLs

namespace Spanned

/-- What an attribute names, or what an index holds. -/
def operatorSpan : TraversalOperator → Option Span
  | .getAttr span _ => some span
  | .index expr => some expr.span
  | _ => none

/-- A dot or a bracket stands between two operators, and before the first. -/
structure OperatorsLaid (span : Span) (expr : Expression) (operators : List TraversalOperator) :
    Prop where
  order : (expr.span :: operators.filterMap operatorSpan).Pairwise fun a b => a.2 < b.1
  extent : ∀ s ∈ operators.filterMap operatorSpan, s.1 < s.2 ∧ s.2 ≤ span.2

end Spanned

namespace ModuleOutputs

open Rope SemanticTokens Spanned

/-- An output that a traversal names, with the operators behind it. -/
structure OutputRef where
  label : String
  output : String
  span : Span
  rest : List Spanned.TraversalOperator

def isIndex : Spanned.TraversalOperator → Bool
  | .index _ => true
  | _ => false

/-- The name behind the label, past the indexes between them. -/
def outputRef : List Spanned.TraversalOperator → Option OutputRef
  | .getAttr _ label::operators =>
    match operators.dropWhile isIndex with
    | .getAttr span output::rest => some ⟨label,output,span,rest⟩
    | _ => none
  | _ => none

def attrSpan : Spanned.TraversalOperator → Option Span
  | .getAttr span _ => some span
  | _ => none

/-- Where the last attribute ends. -/
def OutputRef.lastEnd (r : OutputRef) : ℕ :=
  ((r.rest.filterMap attrSpan).getLast?.getD r.span).2

/-- From the name of the output to the last attribute. -/
def moduleOutputHit (operators : List Spanned.TraversalOperator) (offset : ℕ) :
    Option (String × String) :=
  (outputRef operators).bind fun r =>
    if r.span.1 ≤ offset ∧ offset ≤ r.lastEnd then some (r.label,r.output) else none

structure OutputRefHit where
  label : String
  output : String
  range : Range

def OutputRefHit.names (hit : OutputRefHit) : String × String := (hit.label,hit.output)

/-- The name of the output alone. -/
def moduleOutputHitForHover (operators : List Spanned.TraversalOperator) (offset : ℕ) (rope : Rope) :
    Option OutputRefHit :=
  (outputRef operators).bind fun r =>
    if offset < r.span.1 ∨ offset > r.span.2 then none
    else (rope.hclSpanToLspRange r.span).toOption.map fun range => ⟨r.label,r.output,range⟩

section scan

variable {α : Type} (hit : List Spanned.TraversalOperator → Option α) (clauses : Bool)

/-- What the search asks of a traversal of `module`. -/
def hitOf : Spanned.Expression → Option α
  | .traversal _ (.variable _ name) operators => if name = "module" then hit operators else none
  | _ => none

mutual

/-- The search through an expression; the flag says whether the key and the condition of
a comprehension are searched. -/
def scanExpr : Spanned.Expression → Option α
  | .traversal span expr operators =>
    (hitOf hit (.traversal span expr operators)).or ((scanExpr expr).or (scanOperators operators))
  | .funcCall _ _ _ args => scanItems args
  | .conditional _ cond whenTrue whenFalse =>
    (scanExpr cond).or ((scanExpr whenTrue).or (scanExpr whenFalse))
  | .binaryOp _ lhs rhs => (scanExpr lhs).or (scanExpr rhs)
  | .unaryOp _ operand => scanExpr operand
  | .parenthesis _ inner => scanExpr inner
  | .array _ items => scanItems items
  | .object _ entries => scanEntries entries
  | .forExpr _ collection keyExpr valueExpr cond =>
    (scanExpr collection).or ((if clauses then scanClause keyExpr else none).or
      ((scanExpr valueExpr).or (if clauses then scanClause cond else none)))
  | .literal _ | .stringTemplate _ _ | .heredocTemplate _ _ | .variable _ _ => none

def scanItems : List Spanned.Expression → Option α
  | [] => none
  | item::items => (scanExpr item).or (scanItems items)

def scanOperators : List Spanned.TraversalOperator → Option α
  | [] => none
  | operator::operators => (scanOperator operator).or (scanOperators operators)

def scanOperator : Spanned.TraversalOperator → Option α
  | .index expr => scanExpr expr
  | _ => none

def scanEntries : List (Spanned.ObjectKey × Spanned.Expression) → Option α
  | [] => none
  | (_,value)::entries => (scanExpr value).or (scanEntries entries)

def scanClause : Option Spanned.Expression → Option α
  | none => none
  | some expr => scanExpr expr

end

mutual

def scanBody : List Spanned.Structure → Option α
  | [] => none
  | item::body => (scanStructure item).or (scanBody body)

def scanStructure : Spanned.Structure → Option α
  | .attribute _ _ value => scanExpr hit clauses value
  | .block _ _ _ body => scanBody body

end

end scan

def findModuleOutputSegmentInExpr (expr : Spanned.Expression) (offset : ℕ) :
    Option (String × String) :=
  scanExpr (moduleOutputHit · offset) false expr

def findModuleOutputSegmentAt (body : Spanned.Body) (offset : ℕ) : Option (String × String) :=
  scanBody (moduleOutputHit · offset) false body

def scanExprForOutputRef (expr : Spanned.Expression) (offset : ℕ) (rope : Rope) :
    Option OutputRefHit :=
  scanExpr (moduleOutputHitForHover · offset rope) true expr

def findModuleOutputSegmentForHover (body : Spanned.Body) (offset : ℕ) (rope : Rope) :
    Option OutputRefHit :=
  scanBody (moduleOutputHitForHover · offset rope) true body

/-- A traversal of `module`, a label, perhaps indexes, and an output. -/
inductive NamesOutput : Spanned.Expression → OutputRef → Prop
  | intro (span headSpan labelSpan outputSpan : Span) (label output : String)
      (indexes : List Spanned.Expression) (rest : List Spanned.TraversalOperator) :
    NamesOutput (.traversal span (.variable headSpan "module")
      (.getAttr labelSpan label :: (indexes.map .index ++ .getAttr outputSpan output :: rest)))
      ⟨label,output,outputSpan,rest⟩

/-- The offset lies on the output's name. -/
def OnOutput (t : Spanned.Expression) (offset : ℕ) (label output : String) : Prop :=
  ∃ r, NamesOutput t r ∧ r.span.1 ≤ offset ∧ offset ≤ r.span.2 ∧ r.label = label ∧ r.output = output

/-- The offset lies between the start of the output's name and the end of the last attribute. -/
def OverOutput (t : Spanned.Expression) (offset : ℕ) (label output : String) : Prop :=
  ∃ r, NamesOutput t r ∧ r.span.1 ≤ offset ∧ offset ≤ r.lastEnd ∧ r.label = label ∧ r.output = output

/-- The spans of the operators and of the names in them are those of the text. -/
structure Segmented (rope : Rope) (body : Spanned.Body) : Prop extends LaidOut rope body where
  operators : ∀ span expr operators, Spanned.Expression.traversal span expr operators ∈
    expressions body → OperatorsLaid span expr operators ∧
      ∀ s ∈ operators.filterMap operatorSpan, onBoundary rope s.1 ∧ onBoundary rope s.2

/-- Hovering finds the output that the offset is on, and going to the definition finds
the same one. -/
structure SegmentsAgree (rope : Rope) (body : Spanned.Body) (offset : ℕ) : Prop where
  hovered : ∀ label output, (∃ t ∈ expressions body, OnOutput t offset label output) ↔
    (findModuleOutputSegmentForHover body offset rope).map OutputRefHit.names = some (label,output)
  followed : ∀ label output,
    (findModuleOutputSegmentForHover body offset rope).map OutputRefHit.names = some (label,output) →
      findModuleOutputSegmentAt body offset = some (label,output)

/-- The expressions right below one, less those in templates and in the keys of objects
and, on demand, in the clauses of a comprehension. -/
def openParts (clauses : Bool) : Spanned.Expression → List Spanned.Expression
  | .literal _ | .variable _ _ | .stringTemplate _ _ | .heredocTemplate _ _ => []
  | .array _ items => items
  | .object _ entries => entries.map Prod.snd
  | .parenthesis _ inner => [inner]
  | .conditional _ cond whenTrue whenFalse => [cond,whenTrue,whenFalse]
  | .funcCall _ _ _ args => args
  | .traversal _ expr operators => expr :: operators.flatMap operatorParts
  | .unaryOp _ operand => [operand]
  | .binaryOp _ lhs rhs => [lhs,rhs]
  | .forExpr _ collection keyExpr valueExpr cond =>
    collection :: ((if clauses then keyExpr.toList else []) ++ [valueExpr] ++
      (if clauses then cond.toList else []))

/-- An expression below another, in no part that is left out. -/
inductive Open (clauses : Bool) : Spanned.Expression → Spanned.Expression → Prop
  | refl (e : Spanned.Expression) : Open clauses e e
  | step {e c x : Spanned.Expression} (hc : c ∈ openParts clauses e) (hx : Open clauses c x) :
    Open clauses e x

def OpenIn (clauses : Bool) (body : Spanned.Body) (x : Spanned.Expression) : Prop :=
  ∃ root ∈ values body, Open clauses root x

/-- The traversal that the offset is on stands in no template and no key of an object,
and the outermost traversal that the offset is over, in no clause of a comprehension
either, names the same output. -/
structure SegmentsOpen (body : Spanned.Body) (offset : ℕ) : Prop where
  hovered : ∀ t ∈ expressions body, ∀ label output, OnOutput t offset label output →
    OpenIn true body t
  followed : ∀ t ∈ expressions body, ∀ label output, OnOutput t offset label output →
    ∃ s, OpenIn false body s ∧ OverOutput s offset label output ∧
      ∀ s' label' output', OpenIn false body s' → OverOutput s' offset label' output' →
        s' ∈ walkExpression true s

/-! ### The searches take the first hit -/

section search

variable {α : Type} {hit : List Spanned.TraversalOperator → Option α} {clauses : Bool}

theorem scanItems_eq (items : List Spanned.Expression) :
    scanItems hit clauses items = items.findSome? (scanExpr hit clauses) := by
  induction items with
  | nil => rfl
  | cons item items ih =>
    rw [scanItems,ih,List.findSome?_cons]
    cases scanExpr hit clauses item <;> rfl

theorem scanEntries_eq (entries : List (Spanned.ObjectKey × Spanned.Expression)) :
    scanEntries hit clauses entries = (entries.map Prod.snd).findSome? (scanExpr hit clauses) := by
  induction entries with
  | nil => rfl
  | cons entry entries ih =>
    obtain ⟨key,value⟩ := entry
    rw [scanEntries,ih,List.map_cons,List.findSome?_cons]
    cases scanExpr hit clauses value <;> rfl

theorem scanOperators_eq (operators : List Spanned.TraversalOperator) :
    scanOperators hit clauses operators =
      (operators.flatMap operatorParts).findSome? (scanExpr hit clauses) := by
  induction operators with
  | nil => rfl
  | cons operator operators ih =>
    rw [scanOperators,ih,List.flatMap_cons,List.findSome?_append]
    cases operator with
    | index expr =>
      rw [scanOperator,operatorParts,List.findSome?_cons]
      cases scanExpr hit clauses expr <;> rfl
    | _ => rfl

theorem scanClause_eq (e : Option Spanned.Expression) :
    (if clauses then scanClause hit clauses e else none) =
      (if clauses then e.toList else []).findSome? (scanExpr hit clauses) := by
  cases clauses with
  | false => rfl
  | true =>
    cases e with
    | none => rfl
    | some e =>
      rw [if_pos rfl,if_pos rfl,scanClause,Option.toList_some,List.findSome?_cons]
      cases scanExpr hit true e <;> rfl

/-- An expression comes before those right below it. -/
theorem scanExpr_eq (e : Spanned.Expression) : scanExpr hit clauses e =
    (hitOf hit e).or ((openParts clauses e).findSome? (scanExpr hit clauses)) := by
  have hone (x : Spanned.Expression) (xs : List Spanned.Expression) :
      (x :: xs).findSome? (scanExpr hit clauses) =
        (scanExpr hit clauses x).or (xs.findSome? (scanExpr hit clauses)) := by
    rw [List.findSome?_cons]
    cases scanExpr hit clauses x <;> rfl
  have hnil : [].findSome? (scanExpr hit clauses) = none := rfl
  cases e with
  | literal | «variable» | stringTemplate | heredocTemplate => simp [scanExpr,hitOf,openParts]
  | array => rw [scanExpr,scanItems_eq,openParts]; rfl
  | object => rw [scanExpr,scanEntries_eq,openParts]; rfl
  | funcCall => rw [scanExpr,scanItems_eq,openParts]; rfl
  | traversal => rw [scanExpr,scanOperators_eq,openParts,hone]
  | parenthesis | unaryOp | binaryOp | conditional =>
    simp only [scanExpr,openParts,hone,hnil,Option.or_none]
    rfl
  | forExpr =>
    simp only [scanExpr,openParts,hone,scanClause_eq,List.findSome?_append,hnil,Option.or_none,
      Option.or_assoc]
    rfl

mutual

theorem scanBody_eq : ∀ body : List Spanned.Structure,
    scanBody hit clauses body = (values body).findSome? (scanExpr hit clauses)
  | [] => rfl
  | item::body => by
    rw [scanBody,values,scanStructure_eq item,scanBody_eq body,List.findSome?_append]

theorem scanStructure_eq : ∀ item : Spanned.Structure,
    scanStructure hit clauses item = (structureValues item).findSome? (scanExpr hit clauses)
  | .attribute _ _ value => by
    rw [scanStructure,structureValues,List.findSome?_cons]
    cases scanExpr hit clauses value <;> rfl
  | .block _ _ _ body => by rw [scanStructure,structureValues,scanBody_eq body]

end

theorem openParts_sublist (e : Spanned.Expression) : (openParts clauses e).Sublist (parts e) := by
  cases e with
  | object span entries =>
    rw [openParts,parts]
    induction entries with
    | nil => exact .slnil
    | cons entry entries ih =>
      rw [List.map_cons,List.flatMap_cons,← List.singleton_append]
      exact (List.sublist_append_right _ _).append ih
  | stringTemplate | heredocTemplate => exact List.nil_sublist _
  | forExpr span collection keyExpr valueExpr cond =>
    have hclause (c : Option Spanned.Expression) :
        (if clauses then c.toList else []).Sublist c.toList := by
      cases clauses
      · exact List.nil_sublist _
      · exact List.Sublist.refl _
    exact .cons_cons _ (((hclause keyExpr).append (List.Sublist.refl _)).append (hclause cond))
  | _ => exact List.Sublist.refl _

theorem Open.mem {e x : Spanned.Expression} (h : Open clauses e x) : x ∈ walkExpression true e := by
  induction h with
  | refl e =>
    rw [walkExpression_eq]
    exact List.mem_cons_self
  | step hc hx ih =>
    rw [walkExpression_eq]
    exact List.mem_cons_of_mem _ (List.mem_flatMap.mpr ⟨_,(openParts_sublist _).subset hc,ih⟩)

/-- The first hit among the open parts of some expressions: any other is below it or after it. -/
def FirstHit (hit : List Spanned.TraversalOperator → Option α) (clauses : Bool)
    (roots : List Spanned.Expression) (a : α) : Prop :=
  ∃ x, (∃ root ∈ roots, Open clauses root x) ∧ hitOf hit x = some a ∧
    ∀ y, (∃ root ∈ roots, Open clauses root y) → (hitOf hit y).isSome →
      y ∈ walkExpression true x ∨ Before x y

/-- What a search of one expression finds and misses. -/
structure Searched (hit : List Spanned.TraversalOperator → Option α) (clauses : Bool)
    (e : Spanned.Expression) : Prop where
  missed : scanExpr hit clauses e = none → ∀ x, Open clauses e x → hitOf hit x = none
  found : ∀ a, scanExpr hit clauses e = some a → FirstHit hit clauses [e] a

/-- Searching one expression after another finds the first hit among them. -/
theorem firstHit_of_searched {roots : List Spanned.Expression} {a : α} (horder : roots.Pairwise Before)
    (hnested : ∀ e ∈ roots, WellNested e) (hsearched : ∀ e ∈ roots, Searched hit clauses e)
    (h : roots.findSome? (scanExpr hit clauses) = some a) : FirstHit hit clauses roots a := by
  obtain ⟨front,c,back,rfl,hc,hfront⟩ := List.findSome?_eq_some_iff.mp h
  have hmem : c ∈ front ++ c :: back := List.mem_append_right _ List.mem_cons_self
  obtain ⟨x,⟨c',hc',hx⟩,hhit,hfirst⟩ := (hsearched c hmem).found a hc
  obtain rfl := List.mem_singleton.mp hc'
  refine ⟨x,⟨c',hmem,hx⟩,hhit,?_⟩
  rintro y ⟨root,hroot,hy⟩ hsome
  rcases List.mem_append.mp hroot with hroot | hroot
  · rw [(hsearched root (List.mem_append_left _ hroot)).missed (hfront root hroot) y hy] at hsome
    cases hsome
  · rcases List.mem_cons.mp hroot with rfl | hroot
    · exact hfirst y ⟨root,List.mem_singleton_self root,hy⟩ hsome
    · -- what lies in a later expression comes after what lies in this one
      have hlater := List.mem_append_right front (List.mem_cons_of_mem c' hroot)
      have hbefore : Before c' root :=
        (List.pairwise_cons.mp (List.pairwise_append.mp horder).2.1).1 root hroot
      have hcx := (hnested c' hmem).walk.1 x hx.mem
      have hry := (hnested root hlater).walk.1 y hy.mem
      right
      simp only [Before,Encloses] at hbefore hcx hry ⊢
      omega

theorem searched {e : Spanned.Expression} (h : WellNested e) : Searched hit clauses e := by
  induction h with
  | @intro e hspan hinside horder hparts ih =>
    have hsub : (openParts clauses e).Sublist (parts e) := openParts_sublist e
    refine ⟨fun hnone x hx => ?_,fun a hsome => ?_⟩
    · rw [scanExpr_eq,Option.or_eq_none_iff,List.findSome?_eq_none_iff] at hnone
      cases hx with
      | refl => exact hnone.1
      | step hc hx => exact (ih _ (hsub.subset hc)).missed (hnone.2 _ hc) x hx
    · rw [scanExpr_eq] at hsome
      cases hown : hitOf hit e with
      | some b =>
        rw [hown,Option.some_or] at hsome
        refine ⟨e,⟨e,List.mem_singleton_self e,.refl e⟩,hown.trans hsome,?_⟩
        rintro y ⟨root,hroot,hy⟩ -
        obtain rfl := List.mem_singleton.mp hroot
        exact .inl hy.mem
      | none =>
        rw [hown,Option.none_or] at hsome
        obtain ⟨x,⟨c,hc,hx⟩,hhit,hfirst⟩ := firstHit_of_searched (horder.sublist hsub)
          (fun c hc => hparts c (hsub.subset hc)) (fun c hc => ih c (hsub.subset hc)) hsome
        refine ⟨x,⟨e,List.mem_singleton_self e,.step hc hx⟩,hhit,?_⟩
        rintro y ⟨root,hroot,hy⟩ hisSome
        obtain rfl := List.mem_singleton.mp hroot
        cases hy with
        | refl =>
          rw [hown] at hisSome
          cases hisSome
        | step hc hy => exact hfirst y ⟨_,hc,hy⟩ hisSome

theorem scanBody_some {body : Spanned.Body} {a : α} (hbody : WellNestedBody body)
    (h : scanBody hit clauses body = some a) : FirstHit hit clauses (values body) a := by
  rw [scanBody_eq] at h
  exact firstHit_of_searched hbody.order hbody.values (fun e he => searched (hbody.values e he)) h

theorem scanBody_none {body : Spanned.Body} (hbody : WellNestedBody body)
    (h : scanBody hit clauses body = none) {x : Spanned.Expression} (hx : OpenIn clauses body x) :
    hitOf hit x = none := by
  rw [scanBody_eq,List.findSome?_eq_none_iff] at h
  obtain ⟨root,hroot,hx⟩ := hx
  exact (searched (hbody.values root hroot)).missed (h root hroot) x hx

theorem OpenIn.mem {body : Spanned.Body} {x : Spanned.Expression} (h : OpenIn clauses body x) :
    x ∈ expressions body := by
  obtain ⟨root,hroot,hx⟩ := h
  rw [expressions,walkBody_eq]
  exact List.mem_flatMap.mpr ⟨root,hroot,hx.mem⟩

end search

/-! ### Outputs in the text -/

section outputs

variable {rope : Rope} {body : Spanned.Body} {t : Spanned.Expression} {r : OutputRef} {offset : ℕ}

theorem outputRef_some {operators : List Spanned.TraversalOperator} (h : outputRef operators = some r)
    (span headSpan : Span) : NamesOutput (.traversal span (.variable headSpan "module") operators) r := by
  have hindexes : ∀ ops : List Spanned.TraversalOperator,
      ∃ indexes : List Spanned.Expression, ops.takeWhile isIndex = indexes.map .index := by
    intro ops
    induction ops with
    | nil => exact ⟨[],rfl⟩
    | cons operator ops ih =>
      obtain ⟨indexes,hindexes⟩ := ih
      cases operator with
      | index expr =>
        exact ⟨expr :: indexes,congrArg (Spanned.TraversalOperator.index expr :: ·) hindexes⟩
      | _ => exact ⟨[],rfl⟩
  unfold outputRef at h
  split at h
  · rename_i labelSpan label ops
    split at h
    · rename_i outputSpan output rest hdrop
      obtain ⟨indexes,htake⟩ := hindexes ops
      obtain rfl := Option.some.inj h
      rw [← List.takeWhile_append_dropWhile (p:=isIndex) (l:=ops),htake,hdrop]
      exact .intro span headSpan labelSpan outputSpan label output indexes rest
    · cases h
  · cases h

theorem NamesOutput.outputRef {span : Span} {head : Spanned.Expression}
    {operators : List Spanned.TraversalOperator} (h : NamesOutput (.traversal span head operators) r) :
    outputRef operators = some r ∧ ∃ headSpan, head = .variable headSpan "module" := by
  cases h with
  | intro _ headSpan labelSpan outputSpan label output indexes rest =>
    have hdrop : (indexes.map Spanned.TraversalOperator.index ++
        .getAttr outputSpan output :: rest).dropWhile isIndex = .getAttr outputSpan output :: rest := by
      induction indexes with
      | nil => rfl
      | cons index indexes ih => exact ih
    refine ⟨?_,headSpan,rfl⟩
    rw [ModuleOutputs.outputRef,hdrop]

theorem hitOf_some {α : Type} {hit : List Spanned.TraversalOperator → Option α} {a : α} :
    hitOf hit t = some a ↔ ∃ span headSpan operators,
      t = .traversal span (.variable headSpan "module") operators ∧ hit operators = some a := by
  constructor
  · intro h
    unfold hitOf at h
    split at h
    · rename_i span headSpan name operators
      split_ifs at h with hname
      · exact ⟨span,headSpan,operators,by rw [hname],h⟩
    · cases h
  · rintro ⟨span,headSpan,operators,rfl,h⟩
    rw [hitOf,if_pos rfl]
    exact h

theorem hitOf_overOutput {label output : String} :
    hitOf (moduleOutputHit · offset) t = some (label,output) ↔ OverOutput t offset label output := by
  rw [hitOf_some]
  constructor
  · rintro ⟨span,headSpan,operators,rfl,h⟩
    obtain ⟨r,href,hif⟩ := Option.bind_eq_some_iff.mp h
    split_ifs at hif with hover
    obtain ⟨hlabel,houtput⟩ := Prod.mk.inj (Option.some.inj hif)
    exact ⟨r,outputRef_some href span headSpan,hover.1,hover.2,hlabel,houtput⟩
  · rintro ⟨r,hnames,hstart,hstop,rfl,rfl⟩
    cases t with
    | traversal span head operators =>
      obtain ⟨href,headSpan,rfl⟩ := hnames.outputRef
      exact ⟨span,headSpan,operators,rfl,by
        rw [moduleOutputHit,href,Option.bind_some,if_pos ⟨hstart,hstop⟩]⟩
    | _ => cases hnames

/-- What the spans of a traversal in the text say about its output. -/
structure OutputLaid (rope : Rope) (t : Spanned.Expression) (r : OutputRef) : Prop where
  start : t.span.1 < r.span.1
  stop : r.span.2 ≤ r.lastEnd
  last : r.lastEnd ≤ t.span.2
  boundary : onBoundary rope r.span.1 ∧ onBoundary rope r.span.2
  apart : ∀ x ∈ inside t, (∀ span name, x ≠ .variable span name) →
    x.span.2 < r.span.1 ∨ r.span.2 < x.span.1

theorem Segmented.output (h : Segmented rope body) (ht : t ∈ expressions body)
    (hnames : NamesOutput t r) : OutputLaid rope t r := by
  cases hnames with
  | intro span headSpan labelSpan outputSpan label output indexes rest =>
  obtain ⟨⟨horder,hextent⟩,hboundary⟩ := h.operators _ _ _ ht
  have hspans : (Spanned.TraversalOperator.getAttr labelSpan label ::
      (indexes.map .index ++ .getAttr outputSpan output :: rest)).filterMap operatorSpan =
        labelSpan :: (indexes.map Spanned.Expression.span ++
          outputSpan :: rest.filterMap operatorSpan) := by
    simp [operatorSpan,List.filterMap_append,Function.comp_def]
  rw [hspans] at horder hextent hboundary
  have houtput : outputSpan ∈ labelSpan :: (indexes.map Spanned.Expression.span ++
      outputSpan :: rest.filterMap operatorSpan) := by simp
  obtain ⟨hhead,horder⟩ := List.pairwise_cons.mp horder
  obtain ⟨-,horder⟩ := List.pairwise_cons.mp horder
  obtain ⟨-,hrest,hindexes⟩ := List.pairwise_append.mp horder
  obtain ⟨hrest,-⟩ := List.pairwise_cons.mp hrest
  have hwell := h.toWellNestedBody.nested ht
  have hstart : span.1 < outputSpan.1 := by
    cases hwell with
    | intro hspan hinside horder hparts =>
      have hvariable := hinside _ List.mem_cons_self
      have hpart := hparts _ (List.mem_cons_self (a:=Spanned.Expression.variable headSpan "module"))
      cases hpart with
      | intro hextent =>
        have := hhead outputSpan houtput
        simp only [Spanned.Expression.span] at hvariable hextent this
        omega
  have hlast : ∀ s ∈ rest.filterMap attrSpan, s ∈ rest.filterMap operatorSpan := by
    intro s hs
    obtain ⟨operator,hmem,hattr⟩ := List.mem_filterMap.mp hs
    refine List.mem_filterMap.mpr ⟨operator,hmem,?_⟩
    cases operator <;> first | exact hattr | cases hattr
  have hwider : ∀ s ∈ rest.filterMap operatorSpan, s ∈ labelSpan ::
      (indexes.map Spanned.Expression.span ++ outputSpan :: rest.filterMap operatorSpan) :=
    fun s hs => by simp [hs]
  have hends : outputSpan.2 ≤ (((rest.filterMap attrSpan).getLast?).getD outputSpan).2 ∧
      (((rest.filterMap attrSpan).getLast?).getD outputSpan).2 ≤ span.2 := by
    cases hget : (rest.filterMap attrSpan).getLast? with
    | none => exact ⟨le_rfl,(hextent outputSpan houtput).2⟩
    | some s =>
      have hs := hlast s (List.mem_of_getLast? hget)
      have hafter := hrest s hs
      have hs' := hextent s (hwider s hs)
      exact ⟨by simp only [Option.getD_some]; omega,hs'.2⟩
  refine ⟨hstart,hends.1,hends.2,hboundary outputSpan houtput,fun x hx hvariable => ?_⟩
  -- what is no variable lies in an index
  rw [inside,parts,List.flatMap_cons] at hx
  rcases List.mem_append.mp hx with hx | hx
  · rw [walkExpression,List.mem_singleton] at hx
    exact absurd hx (hvariable headSpan "module")
  obtain ⟨c,hc,hx⟩ := List.mem_flatMap.mp hx
  have hcx : Encloses c x := by
    cases hwell with
    | intro hspan hinside horder hparts =>
      exact (hparts c (List.mem_cons_of_mem _ hc)).walk.1 x hx
  obtain ⟨operator,hoperator,hc⟩ := List.mem_flatMap.mp hc
  have hindex : operator = .index c := by
    cases operator with
    | index e => rw [List.mem_singleton.mp hc]
    | _ => cases hc
  subst hindex
  simp only [Encloses] at hcx
  rcases List.mem_cons.mp hoperator with hlabel | hoperator
  · cases hlabel
  rcases List.mem_append.mp hoperator with hmem | hmem
  · obtain ⟨e,he,heq⟩ := List.mem_map.mp hmem
    cases heq
    have := hindexes c.span (List.mem_map_of_mem he) outputSpan List.mem_cons_self
    left
    simp only
    omega
  · rcases List.mem_cons.mp hmem with houtput | hmem
    · cases houtput
    · have := hrest c.span (List.mem_filterMap.mpr ⟨_,hmem,rfl⟩)
      right
      simp only
      omega

theorem hitOf_onOutput (h : Segmented rope body) (ht : t ∈ expressions body) {label output : String} :
    (hitOf (moduleOutputHitForHover · offset rope) t).map OutputRefHit.names = some (label,output) ↔
      OnOutput t offset label output := by
  rw [Option.map_eq_some_iff]
  constructor
  · rintro ⟨hit,hhit,hnames⟩
    obtain ⟨span,headSpan,operators,rfl,hhit⟩ := hitOf_some.mp hhit
    obtain ⟨r,href,hif⟩ := Option.bind_eq_some_iff.mp hhit
    split_ifs at hif with hover
    obtain ⟨range,-,rfl⟩ := Option.map_eq_some_iff.mp hif
    obtain ⟨hlabel,houtput⟩ := Prod.mk.inj hnames
    rw [not_or,not_lt,not_lt] at hover
    exact ⟨r,outputRef_some href span headSpan,hover.1,hover.2,hlabel,houtput⟩
  · rintro ⟨r,hnames,hstart,hstop,rfl,rfl⟩
    obtain ⟨hboundary,hboundary'⟩ := (h.output ht hnames).boundary
    have hposition {a : ℕ} (ha : onBoundary rope a) : ∃ p, rope.byteOffsetToLspPosition a = .ok p := by
      obtain ⟨pre,rest,rfl,rfl⟩ := prefix_of_onBoundary ha
      obtain ⟨column,hline⟩ := position_line pre rest
      exact ⟨_,hline⟩
    obtain ⟨p,hp⟩ := hposition hboundary
    obtain ⟨q,hq⟩ := hposition hboundary'
    have hrange : rope.hclSpanToLspRange r.span = .ok ⟨p,q⟩ := by
      rw [Rope.hclSpanToLspRange,hp,hq]
      rfl
    cases t with
    | traversal span head operators =>
      obtain ⟨href,headSpan,rfl⟩ := hnames.outputRef
      refine ⟨⟨r.label,r.output,⟨p,q⟩⟩,hitOf_some.mpr ⟨span,headSpan,operators,rfl,?_⟩,rfl⟩
      rw [moduleOutputHitForHover,href,Option.bind_some,if_neg (by omega),hrange]
      rfl
    | _ => cases hnames

theorem NamesOutput.not_variable (h : NamesOutput t r) (span : Span) (name : String) :
    t ≠ .variable span name := by
  cases h
  exact Spanned.Expression.noConfusion

/-- Two traversals whose outputs reach over one offset lie one in the other. -/
theorem over_nested (h : Segmented rope body) {t' : Spanned.Expression} {r' : OutputRef}
    (ht : t ∈ expressions body) (ht' : t' ∈ expressions body) (hr : NamesOutput t r)
    (hr' : NamesOutput t' r') (hstop : offset ≤ r.lastEnd) (hstart' : r'.span.1 ≤ offset) :
    ¬Before t t' := by
  have hlaid := h.output ht hr
  have hlaid' := h.output ht' hr'
  have := hlaid.last
  have := hlaid'.start
  rw [Before]
  omega

/-- Two expressions of a body are the same or one follows the other. -/
theorem follows_or (h : Segmented rope body) {t' : Spanned.Expression} (ht : t ∈ expressions body)
    (ht' : t' ∈ expressions body) : t = t' ∨ Follows t t' ∨ Follows t' t := by
  by_cases heq : t = t'
  · exact .inl heq
  right
  have hboth : (expressions body).Pairwise fun a b => Follows a b ∨ Follows b a :=
    h.toWellNestedBody.follows.imp .inl
  have hsymm : Std.Symm fun a b => Follows a b ∨ Follows b a := ⟨fun _ _ => Or.symm⟩
  exact hboth.forall ht ht' heq

/-- No output's name lies inside a traversal on whose output's name the offset is. -/
theorem onOutput_outer (h : Segmented rope body) {t' : Spanned.Expression} {r' : OutputRef}
    (ht : t ∈ expressions body) (ht' : t' ∈ expressions body) (hr : NamesOutput t r)
    (hr' : NamesOutput t' r') (hon : r.span.1 ≤ offset ∧ offset ≤ r.span.2)
    (hon' : r'.span.1 ≤ offset ∧ offset ≤ r'.span.2) : ¬Follows t t' := by
  have hlaid := h.output ht hr
  have hlaid' := h.output ht' hr'
  have hstop := hlaid.stop
  have hstop' := hlaid'.stop
  have hstart' := hlaid'.start
  have hlast' := hlaid'.last
  rintro (⟨hin,-⟩ | hbefore)
  · have hapart := hlaid.apart t' hin hr'.not_variable
    omega
  · exact over_nested h ht ht' hr hr' (hon.2.trans hstop) hon'.1 hbefore

theorem onOutput_unique (h : Segmented rope body) {t' : Spanned.Expression} (ht : t ∈ expressions body)
    (ht' : t' ∈ expressions body) {label output label' output' : String}
    (hon : OnOutput t offset label output) (hon' : OnOutput t' offset label' output') : t = t' := by
  obtain ⟨r,hr,hstart,hstop,-⟩ := hon
  obtain ⟨r',hr',hstart',hstop',-⟩ := hon'
  rcases follows_or h ht ht' with heq | hfollows | hfollows
  · exact heq
  · exact absurd hfollows (onOutput_outer h ht ht' hr hr' ⟨hstart,hstop⟩ ⟨hstart',hstop'⟩)
  · exact absurd hfollows (onOutput_outer h ht' ht hr' hr ⟨hstart',hstop'⟩ ⟨hstart,hstop⟩)

theorem NamesOutput.unique {r' : OutputRef} (h : NamesOutput t r) (h' : NamesOutput t r') : r = r' := by
  cases t with
  | traversal span head operators =>
    exact Option.some.inj (h.outputRef.1.symm.trans h'.outputRef.1)
  | _ => cases h

theorem OnOutput.names_unique {label output label' output' : String}
    (h : OnOutput t offset label output) (h' : OnOutput t offset label' output') :
    label = label' ∧ output = output' := by
  obtain ⟨r,hr,-,-,rfl,rfl⟩ := h
  obtain ⟨r',hr',-,-,rfl,rfl⟩ := h'
  rw [hr.unique hr']
  exact ⟨rfl,rfl⟩

theorem OnOutput.over (h : Segmented rope body) (ht : t ∈ expressions body) {label output : String}
    (hon : OnOutput t offset label output) : OverOutput t offset label output := by
  obtain ⟨r,hr,hstart,hstop,hnames⟩ := hon
  exact ⟨r,hr,hstart,hstop.trans (h.output ht hr).stop,hnames⟩

/-- A traversal starts after one that it lies in. -/
theorem inside_later (h : Segmented rope body) (ht : t ∈ expressions body) {t' : Spanned.Expression}
    {r' : OutputRef} (hr : NamesOutput t r) (hr' : NamesOutput t' r') (hin : t' ∈ walkExpression true t) :
    t = t' ∨ t.span.1 < t'.span.1 := by
  rw [walkExpression_eq] at hin
  rcases List.mem_cons.mp hin with rfl | hin
  · exact .inl rfl
  right
  have hwell := h.toWellNestedBody.nested ht
  cases hr with
  | intro span headSpan labelSpan outputSpan label output indexes rest =>
    rw [inside,parts,List.flatMap_cons] at hin
    rcases List.mem_append.mp hin with hin | hin
    · rw [walkExpression,List.mem_singleton] at hin
      exact absurd hin (hr'.not_variable headSpan "module")
    · exact hwell.index_after hin

end outputs

/-- Hovering and going to the definition agree with the text on the outputs of modules
exactly if what the offset is on is open to both searches. -/
theorem segments_agree_iff {rope : Rope} {body : Spanned.Body} (h : Segmented rope body) (offset : ℕ) :
    SegmentsAgree rope body offset ↔ SegmentsOpen body offset := by
  -- what each search finds, and that it finds something
  have hhover {label output : String}
      (hsome : (findModuleOutputSegmentForHover body offset rope).map OutputRefHit.names =
        some (label,output)) :
      ∃ x, OpenIn true body x ∧ OnOutput x offset label output := by
    obtain ⟨hit,hhit,hnames⟩ := Option.map_eq_some_iff.mp hsome
    obtain ⟨x,hx,hhit,-⟩ := scanBody_some h.toWellNestedBody hhit
    refine ⟨x,hx,(hitOf_onOutput h (OpenIn.mem hx)).mp ?_⟩
    rw [hhit,Option.map_some,hnames]
  have hgoto {label output : String}
      (hsome : findModuleOutputSegmentAt body offset = some (label,output)) :
      ∃ x, OpenIn false body x ∧ OverOutput x offset label output ∧
        ∀ y label' output', OpenIn false body y → OverOutput y offset label' output' →
          y ∈ walkExpression true x := by
    obtain ⟨x,hx,hhit,hfirst⟩ := scanBody_some h.toWellNestedBody hsome
    have hover := hitOf_overOutput.mp hhit
    refine ⟨x,hx,hover,fun y label' output' hy hovery => ?_⟩
    refine (hfirst y hy (by rw [hitOf_overOutput.mpr hovery]; rfl)).resolve_right ?_
    obtain ⟨r,hr,-,hstop,-⟩ := hover
    obtain ⟨r',hr',hstart',-,-⟩ := hovery
    exact over_nested h (OpenIn.mem hx) (OpenIn.mem hy) hr hr' hstop hstart'
  constructor
  · intro hagree
    refine ⟨fun t ht label output hon => ?_,fun t ht label output hon => ?_⟩
    · obtain ⟨x,hx,honx⟩ := hhover ((hagree.hovered label output).mp ⟨t,ht,hon⟩)
      rw [onOutput_unique h ht (OpenIn.mem hx) hon honx]
      exact hx
    · exact hgoto (hagree.followed label output ((hagree.hovered label output).mp ⟨t,ht,hon⟩))
  · intro hopen
    have hfound {t : Spanned.Expression} {label output : String} (ht : t ∈ expressions body)
        (hon : OnOutput t offset label output) :
        (findModuleOutputSegmentForHover body offset rope).map OutputRefHit.names =
          some (label,output) := by
      have hx := hopen.hovered t ht label output hon
      cases hscan : findModuleOutputSegmentForHover body offset rope with
      | none =>
        have hhit := (hitOf_onOutput h ht).mpr hon
        rw [scanBody_none h.toWellNestedBody hscan hx] at hhit
        cases hhit
      | some hit =>
        obtain ⟨x,hx,honx⟩ := hhover (by rw [hscan,Option.map_some,OutputRefHit.names])
        rw [← onOutput_unique h ht (OpenIn.mem hx) hon honx] at honx
        obtain ⟨rfl,rfl⟩ := hon.names_unique honx
        rfl
    refine ⟨fun label output => ⟨fun ⟨t,ht,hon⟩ => hfound ht hon,fun hsome => ?_⟩,
      fun label output hsome => ?_⟩
    · obtain ⟨x,hx,hon⟩ := hhover hsome
      exact ⟨x,OpenIn.mem hx,hon⟩
    · obtain ⟨x,hx,hon⟩ := hhover hsome
      obtain ⟨s,hs,hover,houter⟩ := hopen.followed x (OpenIn.mem hx) label output hon
      cases hscan : findModuleOutputSegmentAt body offset with
      | none =>
        have hhit := hitOf_overOutput.mpr hover
        rw [scanBody_none h.toWellNestedBody hscan hs] at hhit
        cases hhit
      | some names =>
        obtain ⟨y,hy,hovery,houtery⟩ := hgoto hscan
        have hsy := houter y names.1 names.2 hy hovery
        have hys := houtery s label output hs hover
        obtain ⟨r,hr,-,-,rfl,rfl⟩ := hover
        obtain ⟨r',hr',-,-,hlabel,houtput⟩ := hovery
        -- the outermost traversal is the same
        have heq : s = y := by
          rcases inside_later h (OpenIn.mem hs) hr hr' hsy with heq | hlt
          · exact heq
          · rcases inside_later h (OpenIn.mem hy) hr' hr hys with heq | hlt'
            · exact heq.symm
            · omega
        subst heq
        rw [hr.unique hr',hlabel,houtput]

/-- `x = module.a.b` -/
def plainBody : Spanned.Body :=
  [.attribute (0,1) "x" (.traversal (4,14) (.variable (4,10) "module")
    [.getAttr (11,12) "a",.getAttr (13,14) "b"])]

theorem plain_segments_agree : SegmentsAgree "x = module.a.b".toList plainBody 13 := by
  have hexpressions : expressions plainBody = [.traversal (4,14) (.variable (4,10) "module")
      [.getAttr (11,12) "a",.getAttr (13,14) "b"],.variable (4,10) "module"] := by rfl
  have hvariable : WellNested (.variable (4,10) "module") :=
    .intro (by decide) (fun c hc => by cases hc) .nil fun c hc => by cases hc
  have htraversal : WellNested (.traversal (4,14) (.variable (4,10) "module")
      [.getAttr (11,12) "a",.getAttr (13,14) "b"]) := by
    refine .intro (by decide) ?_ (by simp [parts,operatorParts]) ?_
    · simp [parts,operatorParts,Spanned.Expression.span]
    · simp only [parts,operatorParts,List.flatMap_cons,List.flatMap_nil,List.append_nil,
        List.mem_singleton]
      rintro c rfl
      exact hvariable
  have hsegmented : Segmented "x = module.a.b".toList plainBody := by
    refine ⟨⟨⟨by simp [plainBody,values,structureValues],?_⟩,?_⟩,?_⟩
    · simp only [plainBody,values,structureValues,List.append_nil,List.mem_singleton]
      rintro e rfl
      exact htraversal
    · rw [hexpressions]
      intro e he
      rcases List.mem_cons.mp he with rfl | he
      · decide
      · rw [List.mem_singleton.mp he]
        decide
    · rw [hexpressions]
      intro span expr operators he
      rcases List.mem_cons.mp he with he | he
      · cases he
        refine ⟨⟨?_,?_⟩,?_⟩ <;> decide
      · cases List.mem_singleton.mp he
  have hroot {t : Spanned.Expression} {label output : String} (ht : t ∈ expressions plainBody)
      (hon : OnOutput t 13 label output) : t = .traversal (4,14) (.variable (4,10) "module")
        [.getAttr (11,12) "a",.getAttr (13,14) "b"] := by
    rw [hexpressions] at ht
    rcases List.mem_cons.mp ht with rfl | ht
    · rfl
    · obtain ⟨r,hr,-⟩ := hon
      exact absurd (List.mem_singleton.mp ht) (hr.not_variable (4,10) "module")
  refine (segments_agree_iff hsegmented 13).mpr ⟨fun t ht label output hon => ?_,?_⟩
  · rw [hroot ht hon]
    exact ⟨_,List.mem_cons_self,.refl _⟩
  · intro t ht label output hon
    refine ⟨t,?_,hon.over hsegmented ht,fun s' label' output' hs' _ => ?_⟩
    · rw [hroot ht hon]
      exact ⟨_,List.mem_cons_self,.refl _⟩
    · have hs' := OpenIn.mem hs'
      rw [hexpressions] at hs'
      rw [hroot ht hon]
      exact hs'

/-- `x = module.a.b[module.c.d].e` -/
def nestedBody : Spanned.Body :=
  [.attribute (0,1) "x" (.traversal (4,28) (.variable (4,10) "module")
    [.getAttr (11,12) "a",.getAttr (13,14) "b",
      .index (.traversal (15,25) (.variable (15,21) "module")
        [.getAttr (22,23) "c",.getAttr (24,25) "d"]),
      .getAttr (27,28) "e"])]

/-- `x = "${module.a.b}"` -/
def templateBody : Spanned.Body :=
  [.attribute (0,1) "x" (.stringTemplate (4,19) [.interpolation
    (.traversal (7,17) (.variable (7,13) "module") [.getAttr (14,15) "a",.getAttr (16,17) "b"])])]

/-- The output in an index is taken for that of the traversal around it, and in a
template it is not found. -/
theorem nested_segments_disagree :
    ¬SegmentsAgree "x = module.a.b[module.c.d].e".toList nestedBody 24 ∧
      ¬SegmentsAgree "x = \"$\x7bmodule.a.b\x7d\"".toList templateBody 16 := by
  constructor
  · intro h
    have hhover : (findModuleOutputSegmentForHover nestedBody 24
        "x = module.a.b[module.c.d].e".toList).map OutputRefHit.names = some ("c","d") := by
      decide +kernel
    have hgoto : findModuleOutputSegmentAt nestedBody 24 = some ("a","b") := by decide +kernel
    have := h.followed "c" "d" hhover
    rw [hgoto] at this
    revert this
    decide
  · intro h
    have hon : ∃ t ∈ expressions templateBody, OnOutput t 16 "a" "b" := by
      refine ⟨.traversal (7,17) (.variable (7,13) "module") [.getAttr (14,15) "a",.getAttr (16,17) "b"],
        ?_,_,.intro (7,17) (7,13) (14,15) (16,17) "a" "b" [] [],by decide,by decide,rfl,rfl⟩
      exact List.mem_cons_of_mem _ List.mem_cons_self
    have hhover := (h.hovered "a" "b").mp hon
    have hnone : findModuleOutputSegmentForHover templateBody 16
        "x = \"$\x7bmodule.a.b\x7d\"".toList = none := rfl
    rw [hnone] at hhover
    cases hhover

end ModuleOutputs
end TerraformLs
