import TerraformLs.CyclicLocals
import TerraformLs.UnknownTermination

/-! Two walks over the same expressions: that of the cycle check, which collects
the locals a definition depends on, and the shared one of the other rules. A walk
is known by the expressions it goes on to from each expression. -/
namespace TerraformLs
namespace ExprWalk

open Relation CyclicLocals

section walk

mutual

/-- An expression and every expression inside it, in the order they are visited. -/
def visitExpr : Expression → List Expression
  | .null => [.null]
  | .bool value => [.bool value]
  | .number digits => [.number digits]
  | .string value => [.string value]
  | .variable name => [.variable name]
  | .array items => .array items :: visitExprs items
  | .object entries => .object entries :: visitEntries entries
  | .stringTemplate elements => .stringTemplate elements :: visitTemplateElements elements
  | .heredocTemplate elements => .heredocTemplate elements :: visitTemplateElements elements
  | .parenthesis inner => .parenthesis inner :: visitExpr inner
  | .conditional cond whenTrue whenFalse =>
    .conditional cond whenTrue whenFalse ::
      (visitExpr cond ++ visitExpr whenTrue ++ visitExpr whenFalse)
  | .funcCall ns name args => .funcCall ns name args :: visitExprs args
  | .traversal expr operators =>
    .traversal expr operators :: (visitExpr expr ++ visitOperators operators)
  | .unaryOp op operand => .unaryOp op operand :: visitExpr operand
  | .binaryOp lhs op rhs => .binaryOp lhs op rhs :: (visitExpr lhs ++ visitExpr rhs)
  | .forExpr keyVar valueVar collection keyExpr valueExpr grouping cond =>
    .forExpr keyVar valueVar collection keyExpr valueExpr grouping cond ::
      (visitExpr collection ++ visitOption keyExpr ++ visitExpr valueExpr ++ visitOption cond)

def visitExprs : List Expression → List Expression
  | [] => []
  | e::es => visitExpr e ++ visitExprs es

def visitEntries : List (ObjectKey × Expression) → List Expression
  | [] => []
  | (.ident _,value)::entries => visitExpr value ++ visitEntries entries
  | (.expression key,value)::entries => visitExpr key ++ visitExpr value ++ visitEntries entries

def visitOperators : List TraversalOperator → List Expression
  | [] => []
  | .index idx::operators => visitExpr idx ++ visitOperators operators
  | .attrSplat::operators => visitOperators operators
  | .fullSplat::operators => visitOperators operators
  | .getAttr _::operators => visitOperators operators
  | .legacyIndex _::operators => visitOperators operators

def visitOption : Option Expression → List Expression
  | some e => visitExpr e
  | none => []

def visitTemplateElements : List Element → List Expression
  | [] => []
  | .literal _::elements => visitTemplateElements elements
  | .interpolation e::elements => visitExpr e ++ visitTemplateElements elements
  | .directive d::elements => visitDirective d ++ visitTemplateElements elements

def visitDirective : Directive → List Expression
  | .if cond whenTrue whenFalse =>
    visitExpr cond ++ visitTemplateElements whenTrue ++ visitElse whenFalse
  | .for _ _ collection elements => visitExpr collection ++ visitTemplateElements elements

def visitElse : Option (List Element) → List Expression
  | none => []
  | some elements => visitTemplateElements elements

end

end walk

section parts

variable (template : List Element → List Expression)

/-- The expressions a walk goes on to from an expression, in order; walks differ in
those of a template. -/
def parts : Expression → List Expression
  | .null | .bool _ | .number _ | .string _ | .variable _ => []
  | .array items => items
  | .object entries => UnknownValue.entryExprs entries
  | .stringTemplate elements | .heredocTemplate elements => template elements
  | .parenthesis inner => [inner]
  | .conditional cond whenTrue whenFalse => [cond,whenTrue,whenFalse]
  | .funcCall _ _ args => args
  | .traversal expr operators => expr :: UnknownValue.operatorExprs operators
  | .unaryOp _ operand => [operand]
  | .binaryOp lhs _ rhs => [lhs,rhs]
  | .forExpr _ _ collection keyExpr valueExpr _ cond =>
    collection :: (keyExpr.toList ++ valueExpr :: cond.toList)

/-- The elements of a template. -/
def elementsOf : Expression → List Element
  | .stringTemplate elements | .heredocTemplate elements => elements
  | _ => []

def interpolations (elements : List Element) : List Expression :=
  elements.filterMap fun
    | .interpolation e => some e
    | _ => none

theorem mem_parts_iff {e c : Expression} :
    c ∈ parts UnknownValue.templateExprs e ↔ c ∈ UnknownValue.children e := by
  cases e with
  | forExpr keyVar valueVar coll keyExpr valueExpr grouping cond =>
    simp [parts,UnknownValue.children,or_left_comm]
  | _ => rfl

/-- Without directives a template has only its interpolations. -/
theorem templateExprs_eq {elements : List Element} (h : ∀ d, Element.directive d ∉ elements) :
    UnknownValue.templateExprs elements = interpolations elements := by
  induction elements with
  | nil => rfl
  | cons element elements ih =>
    have htail := ih fun d hd => h d (List.mem_cons_of_mem _ hd)
    cases element with
    | literal text => exact htail
    | interpolation e => exact congrArg (List.cons e) htail
    | directive d => exact absurd List.mem_cons_self (h d)

theorem directiveExprs_ne_nil (d : Directive) : UnknownValue.directiveExprs d ≠ [] := by
  cases d <;> simp [UnknownValue.directiveExprs]

theorem interpolations_sublist (elements : List Element) :
    (interpolations elements).Sublist (UnknownValue.templateExprs elements) := by
  induction elements with
  | nil => exact .slnil
  | cons element elements ih =>
    cases element with
    | literal text => exact ih
    | interpolation e => exact ih.cons_cons e
    | directive d => exact ih.trans (List.sublist_append_right _ _)

theorem interpolations_eq_iff (elements : List Element) :
    interpolations elements = UnknownValue.templateExprs elements ↔
      ∀ d, Element.directive d ∉ elements := by
  refine ⟨fun h d hd => ?_,fun h => (templateExprs_eq h).symm⟩
  -- what stands in the directive is left out
  obtain ⟨before,after,rfl⟩ := List.append_of_mem hd
  have hlength := congrArg List.length h
  have hbefore := (interpolations_sublist before).length_le
  have hafter := (interpolations_sublist after).length_le
  have hinside := List.length_pos_iff.mpr (directiveExprs_ne_nil d)
  have hsplit : ∀ a b, UnknownValue.templateExprs (a ++ b) =
      UnknownValue.templateExprs a ++ UnknownValue.templateExprs b := by
    intro a b
    induction a with
    | nil => rfl
    | cons element a ih =>
      cases element <;> simp [UnknownValue.templateExprs,ih]
  simp only [interpolations,List.filterMap_append,List.filterMap_cons,hsplit,
    UnknownValue.templateExprs,List.length_append] at hlength hbefore hafter
  omega

theorem parts_sublist (e : Expression) :
    (parts interpolations e).Sublist (parts UnknownValue.templateExprs e) := by
  cases e with
  | stringTemplate elements => exact interpolations_sublist elements
  | heredocTemplate elements => exact interpolations_sublist elements
  | _ => exact .refl _

theorem parts_eq_iff (e : Expression) :
    parts interpolations e = parts UnknownValue.templateExprs e ↔
      ∀ d, Element.directive d ∉ elementsOf e := by
  cases e with
  | stringTemplate elements => exact interpolations_eq_iff elements
  | heredocTemplate elements => exact interpolations_eq_iff elements
  | _ => simp [parts,elementsOf]

end parts

section unfold

/-- How the cycle check walks. -/
theorem cyclicLocals_visitExpr_eq (e : Expression) :
    CyclicLocals.visitExpr e = e :: (parts interpolations e).flatMap CyclicLocals.visitExpr := by
  have hexprs : ∀ es, CyclicLocals.visitExprs es = es.flatMap CyclicLocals.visitExpr := by
    intro es
    induction es with
    | nil => rfl
    | cons e es ih => rw [CyclicLocals.visitExprs,ih,List.flatMap_cons]
  have hentries : ∀ entries, CyclicLocals.visitEntries entries =
      (UnknownValue.entryExprs entries).flatMap CyclicLocals.visitExpr := by
    intro entries
    induction entries with
    | nil => rfl
    | cons entry entries ih =>
      obtain ⟨key,value⟩ := entry
      cases key <;> simp [CyclicLocals.visitEntries,UnknownValue.entryExprs,ih]
  have hoperators : ∀ operators, CyclicLocals.visitOperators operators =
      (UnknownValue.operatorExprs operators).flatMap CyclicLocals.visitExpr := by
    intro operators
    induction operators with
    | nil => rfl
    | cons operator operators ih =>
      cases operator <;> simp [CyclicLocals.visitOperators,UnknownValue.operatorExprs,ih]
  have helements : ∀ elements, CyclicLocals.visitElements elements =
      (interpolations elements).flatMap CyclicLocals.visitExpr := by
    intro elements
    induction elements with
    | nil => rfl
    | cons element elements ih =>
      cases element <;> simp [CyclicLocals.visitElements,interpolations,ih]
  have hoption : ∀ o, CyclicLocals.visitOption o =
      o.toList.flatMap CyclicLocals.visitExpr := by
    intro o
    cases o <;> simp [CyclicLocals.visitOption]
  cases e <;> simp [CyclicLocals.visitExpr,parts,hexprs,hentries,hoperators,helements,hoption]

mutual

theorem visitTemplateElements_eq : ∀ elements : List Element,
    visitTemplateElements elements = (UnknownValue.templateExprs elements).flatMap visitExpr
  | [] => rfl
  | .literal text::elements => visitTemplateElements_eq elements
  | .interpolation e::elements => by
    rw [visitTemplateElements,visitTemplateElements_eq elements,UnknownValue.templateExprs,
      List.flatMap_cons]
  | .directive d::elements => by
    rw [visitTemplateElements,visitDirective_eq d,visitTemplateElements_eq elements,
      UnknownValue.templateExprs,List.flatMap_append]

theorem visitDirective_eq : ∀ d : Directive,
    visitDirective d = (UnknownValue.directiveExprs d).flatMap visitExpr
  | .if cond whenTrue whenFalse => by
    rw [visitDirective,visitTemplateElements_eq whenTrue,visitElse_eq whenFalse,
      UnknownValue.directiveExprs,List.flatMap_cons,List.flatMap_append,List.append_assoc]
  | .for keyVar valueVar collection elements => by
    rw [visitDirective,visitTemplateElements_eq elements,UnknownValue.directiveExprs,
      List.flatMap_cons]

theorem visitElse_eq : ∀ o : Option (List Element),
    visitElse o = (UnknownValue.elseExprs o).flatMap visitExpr
  | none => rfl
  | some elements => visitTemplateElements_eq elements

end

/-- How the other rules walk. -/
theorem visitExpr_eq (e : Expression) :
    visitExpr e = e :: (parts UnknownValue.templateExprs e).flatMap visitExpr := by
  have hexprs : ∀ es, visitExprs es = es.flatMap visitExpr := by
    intro es
    induction es with
    | nil => rfl
    | cons e es ih => rw [visitExprs,ih,List.flatMap_cons]
  have hentries : ∀ entries, visitEntries entries =
      (UnknownValue.entryExprs entries).flatMap visitExpr := by
    intro entries
    induction entries with
    | nil => rfl
    | cons entry entries ih =>
      obtain ⟨key,value⟩ := entry
      cases key <;> simp [visitEntries,UnknownValue.entryExprs,ih]
  have hoperators : ∀ operators, visitOperators operators =
      (UnknownValue.operatorExprs operators).flatMap visitExpr := by
    intro operators
    induction operators with
    | nil => rfl
    | cons operator operators ih =>
      cases operator <;> simp [visitOperators,UnknownValue.operatorExprs,ih]
  have hoption : ∀ o, visitOption o = o.toList.flatMap visitExpr := by
    intro o
    cases o <;> simp [visitOption]
  cases e <;> simp [visitExpr,parts,hexprs,hentries,hoperators,visitTemplateElements_eq,hoption]

end unfold

section agreement

/-- The second expression lies in the first, at any depth. -/
def Below (e e' : Expression) : Prop :=
  ReflTransGen (fun e c => c ∈ UnknownValue.children e) e e'

theorem mem_visitExpr_iff {e e' : Expression} : e' ∈ visitExpr e ↔ Below e e' := by
  induction hn : sizeOf e using Nat.strong_induction_on generalizing e with
  | _ n ih =>
    rw [visitExpr_eq,List.mem_cons,List.mem_flatMap]
    constructor
    · rintro (rfl | ⟨c,hc,he'⟩)
      · exact .refl
      · have hc := mem_parts_iff.mp hc
        have hsize := UnknownValue.sizeOf_children hc
        exact .head hc ((ih _ (hn ▸ hsize) rfl).mp he')
    · intro h
      rcases ReflTransGen.cases_head h with rfl | ⟨c,hc,hce⟩
      · exact .inl rfl
      · have hsize := UnknownValue.sizeOf_children hc
        exact .inr ⟨c,mem_parts_iff.mpr hc,(ih _ (hn ▸ hsize) rfl).mpr hce⟩

/-- The cycle check visits some of what the shared walk visits, in the same order. -/
theorem visitExpr_sublist (e : Expression) :
    (CyclicLocals.visitExpr e).Sublist (visitExpr e) := by
  induction hn : sizeOf e using Nat.strong_induction_on generalizing e with
  | _ n ih =>
    rw [cyclicLocals_visitExpr_eq,visitExpr_eq]
    refine .cons_cons e (((parts_sublist e).flatMap CyclicLocals.visitExpr).trans ?_)
    refine List.Sublist.flatMap_right _ fun c hc => ?_
    have hsize := UnknownValue.sizeOf_children (mem_parts_iff.mp hc)
    exact ih _ (hn ▸ hsize) c rfl

theorem flatMap_eq_iff {α β : Type} {f g : α → List β} {l : List α}
    (h : ∀ a ∈ l, (f a).Sublist (g a)) : l.flatMap f = l.flatMap g ↔ ∀ a ∈ l, f a = g a := by
  refine ⟨fun heq => ?_,List.flatMap_congr⟩
  induction l with
  | nil => simp
  | cons a l ih =>
    rw [List.forall_mem_cons] at h
    have hhead := h.1.length_le
    have htail := (List.Sublist.flatMap_right l h.2).length_le
    have hlength := congrArg List.length heq
    simp only [List.flatMap_cons,List.length_append] at hlength
    rw [List.flatMap_cons,List.flatMap_cons] at heq
    obtain ⟨ha,hl⟩ := List.append_inj heq (by omega)
    exact List.forall_mem_cons.mpr ⟨ha,ih h.2 hl⟩

theorem sublist_eq_of_flatMap {α β : Type} {f : α → List β} {l l' : List α}
    (hf : ∀ a, f a ≠ []) (h : l.Sublist l') (heq : l.flatMap f = l'.flatMap f) : l = l' := by
  induction h with
  | slnil => rfl
  | @cons l l' a h ih =>
    have hlength := congrArg List.length heq
    have hle := (h.flatMap f).length_le
    have hpos := List.length_pos_iff.mpr (hf a)
    rw [List.flatMap_cons,List.length_append] at hlength
    omega
  | @cons_cons l l' a h ih =>
    rw [List.flatMap_cons,List.flatMap_cons] at heq
    rw [ih (List.append_cancel_left heq)]

/-- No template in the expression has a directive. -/
def NoDirectives (e : Expression) : Prop :=
  ∀ e', Below e e' → ∀ d, Element.directive d ∉ elementsOf e'

theorem noDirectives_iff {e : Expression} : NoDirectives e ↔
    (∀ d, Element.directive d ∉ elementsOf e) ∧
      ∀ c ∈ parts UnknownValue.templateExprs e, NoDirectives c := by
  constructor
  · exact fun h => ⟨h e .refl,fun c hc e' he' => h e' (.head (mem_parts_iff.mp hc) he')⟩
  · rintro ⟨hhere,hbelow⟩ e' he'
    rcases ReflTransGen.cases_head he' with rfl | ⟨c,hc,hce⟩
    · exact hhere
    · exact hbelow c (mem_parts_iff.mpr hc) e' hce

theorem visitExpr_ne_nil (e : Expression) : CyclicLocals.visitExpr e ≠ [] := by
  rw [cyclicLocals_visitExpr_eq]
  exact List.cons_ne_nil _ _

theorem visits_agree_iff (e : Expression) :
    CyclicLocals.visitExpr e = visitExpr e ↔ NoDirectives e := by
  induction hn : sizeOf e using Nat.strong_induction_on generalizing e with
  | _ n ih =>
    have hparts : (parts UnknownValue.templateExprs e).flatMap CyclicLocals.visitExpr =
          (parts UnknownValue.templateExprs e).flatMap visitExpr ↔
        ∀ c ∈ parts UnknownValue.templateExprs e, NoDirectives c := by
      rw [flatMap_eq_iff fun c _ => visitExpr_sublist c]
      refine forall₂_congr fun c hc => ?_
      have hsize := UnknownValue.sizeOf_children (mem_parts_iff.mp hc)
      exact ih _ (hn ▸ hsize) c rfl
    have hskipped := (parts_sublist e).flatMap CyclicLocals.visitExpr
    have hinside : ((parts UnknownValue.templateExprs e).flatMap CyclicLocals.visitExpr).Sublist
        ((parts UnknownValue.templateExprs e).flatMap visitExpr) :=
      List.Sublist.flatMap_right _ fun c _ => visitExpr_sublist c
    rw [cyclicLocals_visitExpr_eq,visitExpr_eq,noDirectives_iff,← hparts,← parts_eq_iff,
      List.cons.injEq,and_iff_right rfl]
    constructor
    · intro heq
      have hlength := congrArg List.length heq
      have hwalks := hinside.eq_of_length (le_antisymm hinside.length_le
        (hlength ▸ hskipped.length_le))
      exact ⟨sublist_eq_of_flatMap visitExpr_ne_nil (parts_sublist e) (heq.trans hwalks.symm),
        hwalks⟩
    · rintro ⟨hsame,hwalks⟩
      rw [hsame,hwalks]

/-- Every local that the expression refers to, at any depth, is collected. -/
def Covered (e : Expression) : Prop :=
  ∀ e', Below e e' → ∀ x, referencedLocal e' = some x → x ∈ depsOf e

theorem mem_depsOf {e : Expression} {x : String} :
    x ∈ depsOf e ↔ ∃ e' ∈ CyclicLocals.visitExpr e, referencedLocal e' = some x := by
  have hfold : ∀ deps names : List String,
      x ∈ names.foldl insertDep deps ↔ x ∈ deps ∨ x ∈ names := by
    intro deps names
    induction names generalizing deps with
    | nil => simp
    | cons name names ih =>
      rw [List.foldl_cons,ih,insertDep,List.mem_cons]
      split_ifs with hin
      · refine ⟨fun h => h.imp_right .inr,?_⟩
        rintro (h | rfl | h)
        · exact .inl h
        · exact .inl hin
        · exact .inr h
      · simp [or_assoc]
  rw [depsOf,hfold,List.mem_filterMap]
  simp

/-- The cycle check walks an expression as the shared walk does, and collects every
local that occurs in it, exactly when its templates have no directives. -/
theorem walk_covers_iff (e : Expression) :
    (Covered e ∧ CyclicLocals.visitExpr e = visitExpr e) ↔ NoDirectives e := by
  rw [visits_agree_iff]
  refine ⟨And.right,fun h => ⟨fun e' he' x hx => ?_,h⟩⟩
  rw [mem_depsOf,(visits_agree_iff e).mpr h]
  exact ⟨e',mem_visitExpr_iff.mpr he',hx⟩

/-- `"%{ if local.on }%{ endif }"`. -/
def guarded : Expression :=
  .stringTemplate [.directive (.if (.traversal (.variable "local") [.getAttr "on"]) [] none)]

theorem directive_not_covered : ¬(Covered guarded ∧
    CyclicLocals.visitExpr guarded = visitExpr guarded) := by
  rintro ⟨hcovered,-⟩
  have hbelow : Below guarded (.traversal (.variable "local") [.getAttr "on"]) :=
    .single List.mem_cons_self
  exact absurd (hcovered _ hbelow "on" rfl) (by decide)

end agreement

end ExprWalk
end TerraformLs
