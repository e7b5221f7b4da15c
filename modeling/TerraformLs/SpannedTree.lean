import Mathlib.Data.List.Basic

/-! Syntax trees with the spans of their tokens as byte offsets, as the code
actions edit them, and the walk over the expressions of a body. -/
namespace TerraformLs
namespace Spanned

abbrev Span := ℕ × ℕ

mutual

inductive Expression
  /-- Null, a boolean, a number or a string without templates in it. -/
  | literal (span : Span)
  | array (span : Span) (items : List Expression)
  | object (span : Span) (entries : List (ObjectKey × Expression))
  | stringTemplate (span : Span) (elements : List Element)
  | heredocTemplate (span : Span) (elements : List Element)
  | parenthesis (span : Span) (inner : Expression)
  | «variable» (span : Span) (name : String)
  | conditional (span : Span) (cond whenTrue whenFalse : Expression)
  | funcCall (span : Span) (ns : List String) (name : String) (args : List Expression)
  | traversal (span : Span) (expr : Expression) (operators : List TraversalOperator)
  | unaryOp (span : Span) (operand : Expression)
  | binaryOp (span : Span) (lhs rhs : Expression)
  | forExpr (span : Span) (collection : Expression) (keyExpr : Option Expression)
      (valueExpr : Expression) (cond : Option Expression)

inductive ObjectKey
  | ident (name : String)
  | expression (expr : Expression)

inductive TraversalOperator
  | attrSplat
  | fullSplat
  | getAttr (span : Span) (name : String)
  | index (expr : Expression)
  | legacyIndex (idx : ℕ)

/-- A piece of a string or heredoc template. -/
inductive Element
  | literal
  | interpolation (expr : Expression)
  | directive (d : Directive)

inductive Directive
  | «if» (cond : Expression) (whenTrue : List Element) (whenFalse : Option (List Element))
  | «for» (collection : Expression) (elements : List Element)

end

structure BlockLabel where
  span : Span
  text : String
  deriving DecidableEq

inductive Structure
  | attribute (keySpan : Span) (key : String) (value : Expression)
  | block (span : Span) (ident : String) (labels : List BlockLabel) (body : List Structure)

abbrev Body := List Structure

def Expression.span : Expression → Span
  | .literal span | .array span _ | .object span _ | .stringTemplate span _
  | .heredocTemplate span _ | .parenthesis span _ | .variable span _ | .conditional span _ _ _
  | .funcCall span _ _ _ | .traversal span _ _ | .unaryOp span _ | .binaryOp span _ _
  | .forExpr span _ _ _ _ => span

/-! The walk visits an expression before those inside it. The flag says whether
the keys of objects are entered too. -/

mutual

def walkExpression (keys : Bool) : Expression → List Expression
  | .literal span => [.literal span]
  | .array span items => .array span items :: walkItems keys items
  | .object span entries => .object span entries :: walkEntries keys entries
  | .stringTemplate span elements => .stringTemplate span elements :: walkTemplate keys elements
  | .heredocTemplate span elements => .heredocTemplate span elements :: walkTemplate keys elements
  | .parenthesis span inner => .parenthesis span inner :: walkExpression keys inner
  | .variable span name => [.variable span name]
  | .conditional span cond whenTrue whenFalse =>
    .conditional span cond whenTrue whenFalse ::
      (walkExpression keys cond ++ walkExpression keys whenTrue ++ walkExpression keys whenFalse)
  | .funcCall span ns name args => .funcCall span ns name args :: walkItems keys args
  | .traversal span expr operators =>
    .traversal span expr operators :: (walkExpression keys expr ++ walkOperators keys operators)
  | .unaryOp span operand => .unaryOp span operand :: walkExpression keys operand
  | .binaryOp span lhs rhs =>
    .binaryOp span lhs rhs :: (walkExpression keys lhs ++ walkExpression keys rhs)
  | .forExpr span collection keyExpr valueExpr cond =>
    .forExpr span collection keyExpr valueExpr cond ::
      (walkExpression keys collection ++ walkOptional keys keyExpr ++
        walkExpression keys valueExpr ++ walkOptional keys cond)

def walkItems (keys : Bool) : List Expression → List Expression
  | [] => []
  | item::items => walkExpression keys item ++ walkItems keys items

def walkOptional (keys : Bool) : Option Expression → List Expression
  | none => []
  | some expr => walkExpression keys expr

def walkEntries (keys : Bool) : List (ObjectKey × Expression) → List Expression
  | [] => []
  | entry::entries => walkEntry keys entry ++ walkEntries keys entries

def walkEntry (keys : Bool) : ObjectKey × Expression → List Expression
  | (key,value) => (if keys then walkKey keys key else []) ++ walkExpression keys value

def walkKey (keys : Bool) : ObjectKey → List Expression
  | .ident _ => []
  | .expression expr => walkExpression keys expr

def walkOperators (keys : Bool) : List TraversalOperator → List Expression
  | [] => []
  | operator::operators => walkOperator keys operator ++ walkOperators keys operators

def walkOperator (keys : Bool) : TraversalOperator → List Expression
  | .index expr => walkExpression keys expr
  | _ => []

def walkTemplate (keys : Bool) : List Element → List Expression
  | [] => []
  | element::elements => walkElement keys element ++ walkTemplate keys elements

def walkElement (keys : Bool) : Element → List Expression
  | .literal => []
  | .interpolation expr => walkExpression keys expr
  | .directive d => walkDirective keys d

def walkDirective (keys : Bool) : Directive → List Expression
  | .if cond whenTrue whenFalse =>
    walkExpression keys cond ++ walkTemplate keys whenTrue ++ walkElse keys whenFalse
  | .for collection elements => walkExpression keys collection ++ walkTemplate keys elements

def walkElse (keys : Bool) : Option (List Element) → List Expression
  | none => []
  | some elements => walkTemplate keys elements

end

mutual

def walkBody (keys : Bool) : List Structure → List Expression
  | [] => []
  | item::body => walkStructure keys item ++ walkBody keys body

def walkStructure (keys : Bool) : Structure → List Expression
  | .attribute _ _ value => walkExpression keys value
  | .block _ _ _ body => walkBody keys body

end

/-- The expressions that a scan for references visits: the keys of objects are left out. -/
def walkExpressions (body : Body) : List Expression := walkBody false body

/-- All expressions of a body. -/
def expressions (body : Body) : List Expression := walkBody true body

theorem append_subset_append {α : Type} {as bs cs ds : List α} (h : as ⊆ bs) (h' : cs ⊆ ds) :
    as ++ cs ⊆ bs ++ ds := by
  apply List.append_subset.mpr
  constructor
  · exact List.Subset.trans h (List.subset_append_left bs ds)
  · exact List.Subset.trans h' (List.subset_append_right bs ds)

mutual

theorem walkExpression_subset : ∀ e, walkExpression false e ⊆ walkExpression true e
  | .literal _ => List.Subset.refl _
  | .array _ items => List.cons_subset_cons _ (walkItems_subset items)
  | .object _ entries => List.cons_subset_cons _ (walkEntries_subset entries)
  | .stringTemplate _ elements => List.cons_subset_cons _ (walkTemplate_subset elements)
  | .heredocTemplate _ elements => List.cons_subset_cons _ (walkTemplate_subset elements)
  | .parenthesis _ inner => List.cons_subset_cons _ (walkExpression_subset inner)
  | .variable _ _ => List.Subset.refl _
  | .conditional _ cond whenTrue whenFalse => List.cons_subset_cons _
      (append_subset_append (append_subset_append (walkExpression_subset cond)
        (walkExpression_subset whenTrue)) (walkExpression_subset whenFalse))
  | .funcCall _ _ _ args => List.cons_subset_cons _ (walkItems_subset args)
  | .traversal _ expr operators => List.cons_subset_cons _
      (append_subset_append (walkExpression_subset expr) (walkOperators_subset operators))
  | .unaryOp _ operand => List.cons_subset_cons _ (walkExpression_subset operand)
  | .binaryOp _ lhs rhs => List.cons_subset_cons _
      (append_subset_append (walkExpression_subset lhs) (walkExpression_subset rhs))
  | .forExpr _ collection keyExpr valueExpr cond => List.cons_subset_cons _
      (append_subset_append (append_subset_append (append_subset_append
        (walkExpression_subset collection) (walkOptional_subset keyExpr))
        (walkExpression_subset valueExpr)) (walkOptional_subset cond))

theorem walkItems_subset : ∀ items, walkItems false items ⊆ walkItems true items
  | [] => List.Subset.refl _
  | item::items => append_subset_append (walkExpression_subset item) (walkItems_subset items)

theorem walkOptional_subset : ∀ e, walkOptional false e ⊆ walkOptional true e
  | none => List.Subset.refl _
  | some e => walkExpression_subset e

theorem walkEntries_subset : ∀ entries, walkEntries false entries ⊆ walkEntries true entries
  | [] => List.Subset.refl _
  | entry::entries => append_subset_append (walkEntry_subset entry)
      (walkEntries_subset entries)

theorem walkEntry_subset : ∀ entry, walkEntry false entry ⊆ walkEntry true entry
  | (_,value) => append_subset_append (List.nil_subset _) (walkExpression_subset value)

theorem walkOperators_subset : ∀ operators, walkOperators false operators ⊆ walkOperators true operators
  | [] => List.Subset.refl _
  | operator::operators => append_subset_append (walkOperator_subset operator)
      (walkOperators_subset operators)

theorem walkOperator_subset : ∀ operator, walkOperator false operator ⊆ walkOperator true operator
  | .index e => walkExpression_subset e
  | .attrSplat => List.Subset.refl _
  | .fullSplat => List.Subset.refl _
  | .getAttr _ _ => List.Subset.refl _
  | .legacyIndex _ => List.Subset.refl _

theorem walkTemplate_subset : ∀ elements, walkTemplate false elements ⊆ walkTemplate true elements
  | [] => List.Subset.refl _
  | element::elements => append_subset_append (walkElement_subset element)
      (walkTemplate_subset elements)

theorem walkElement_subset : ∀ element, walkElement false element ⊆ walkElement true element
  | .literal => List.Subset.refl _
  | .interpolation e => walkExpression_subset e
  | .directive d => walkDirective_subset d

theorem walkDirective_subset : ∀ d, walkDirective false d ⊆ walkDirective true d
  | .if cond whenTrue whenFalse => append_subset_append (append_subset_append
      (walkExpression_subset cond) (walkTemplate_subset whenTrue)) (walkElse_subset whenFalse)
  | .for collection elements => append_subset_append (walkExpression_subset collection)
      (walkTemplate_subset elements)

theorem walkElse_subset : ∀ e, walkElse false e ⊆ walkElse true e
  | none => List.Subset.refl _
  | some elements => walkTemplate_subset elements

end

mutual

theorem walkBody_subset : ∀ body, walkBody false body ⊆ walkBody true body
  | [] => List.Subset.refl _
  | item::body => append_subset_append (walkStructure_subset item) (walkBody_subset body)

theorem walkStructure_subset : ∀ item, walkStructure false item ⊆ walkStructure true item
  | .attribute _ _ value => walkExpression_subset value
  | .block _ _ _ body => walkBody_subset body

end

/-- Only expressions of the body are visited. -/
theorem walkExpressions_subset (body : Body) : walkExpressions body ⊆ expressions body :=
  walkBody_subset body

end Spanned
end TerraformLs
