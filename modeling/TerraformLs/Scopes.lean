import Mathlib.Data.List.Basic

/-! Syntax trees with spans and with the names that comprehensions bind, and the shared
walk over the expressions of a body. Beside each expression of the walk stand the names
that are bound around it. -/
namespace TerraformLs
namespace Scopes

abbrev Span := ℕ × ℕ

mutual

inductive Expression
  /-- Null, a boolean or a number. -/
  | literal (span : Option Span)
  | string (span : Option Span) (value : String)
  | array (span : Option Span) (items : List Expression)
  | object (span : Option Span) (entries : List (ObjectKey × Expression))
  | stringTemplate (span : Option Span) (elements : List Element)
  | heredocTemplate (span : Option Span) (elements : List Element)
  | parenthesis (span : Option Span) (inner : Expression)
  | «variable» (span : Option Span) (name : String)
  | conditional (span : Option Span) (cond whenTrue whenFalse : Expression)
  | funcCall (span : Option Span) (name : String) (args : List Expression)
  | traversal (span : Option Span) (expr : Expression) (operators : List TraversalOperator)
  | unaryOp (span : Option Span) (operand : Expression)
  | binaryOp (span : Option Span) (lhs rhs : Expression)
  /-- `for keyVar, valueVar in collection : keyExpr => valueExpr if cond`. -/
  | forExpr (span : Option Span) (keyVar : Option String) (valueVar : String)
      (collection : Expression) (keyExpr : Option Expression) (valueExpr : Expression)
      (cond : Option Expression)

inductive ObjectKey
  | ident (name : String)
  | expression (expr : Expression)

inductive TraversalOperator
  | attrSplat
  | fullSplat
  | getAttr (name : String)
  | index (expr : Expression)
  | legacyIndex (idx : ℕ)

/-- A piece of a string or heredoc template. -/
inductive Element
  | literal
  | interpolation (expr : Expression)
  | directive (d : Directive)

inductive Directive
  | «if» (cond : Expression) (whenTrue : List Element) (whenFalse : Option (List Element))
  | «for» (keyVar : Option String) (valueVar : String) (collection : Expression)
      (elements : List Element)

end

structure Attribute where
  key : String
  keySpan : Option Span
  value : Expression

inductive Structure
  | attribute (attr : Attribute)
  | block (ident : String) (body : List Structure)

abbrev Body := List Structure

def Structure.asAttribute : Structure → Option Attribute
  | .attribute attr => some attr
  | .block _ _ => none

def Structure.asBlock : Structure → Option (String × Body)
  | .attribute _ => none
  | .block ident body => some (ident,body)

def Expression.span : Expression → Option Span
  | .literal span | .string span _ | .array span _ | .object span _ | .stringTemplate span _
  | .heredocTemplate span _ | .parenthesis span _ | .variable span _ | .conditional span _ _ _
  | .funcCall span _ _ | .traversal span _ _ | .unaryOp span _ | .binaryOp span _ _
  | .forExpr span _ _ _ _ _ _ => span

/-! ## The walk -/

mutual

/-- An expression is visited before those inside it. -/
def visitExpr : Expression → List Expression
  | .literal span => [.literal span]
  | .string span value => [.string span value]
  | .variable span name => [.variable span name]
  | .array span items => .array span items :: visitExprs items
  | .object span entries => .object span entries :: visitEntries entries
  | .stringTemplate span elements => .stringTemplate span elements :: visitTemplateElements elements
  | .heredocTemplate span elements => .heredocTemplate span elements :: visitTemplateElements elements
  | .parenthesis span inner => .parenthesis span inner :: visitExpr inner
  | .conditional span cond whenTrue whenFalse =>
    .conditional span cond whenTrue whenFalse ::
      (visitExpr cond ++ visitExpr whenTrue ++ visitExpr whenFalse)
  | .funcCall span name args => .funcCall span name args :: visitExprs args
  | .traversal span expr operators =>
    .traversal span expr operators :: (visitExpr expr ++ visitOperators operators)
  | .unaryOp span operand => .unaryOp span operand :: visitExpr operand
  | .binaryOp span lhs rhs => .binaryOp span lhs rhs :: (visitExpr lhs ++ visitExpr rhs)
  | .forExpr span keyVar valueVar collection keyExpr valueExpr cond =>
    .forExpr span keyVar valueVar collection keyExpr valueExpr cond ::
      (visitExpr collection ++ visitOption keyExpr ++ visitExpr valueExpr ++ visitOption cond)

def visitExprs : List Expression → List Expression
  | [] => []
  | e::es => visitExpr e ++ visitExprs es

def visitEntries : List (ObjectKey × Expression) → List Expression
  | [] => []
  | (.ident _,value)::entries => visitExpr value ++ visitEntries entries
  | (.expression key,value)::entries => visitExpr key ++ visitExpr value ++ visitEntries entries

def visitOperators : List TraversalOperator → List Expression
  | [] => []
  | .index idx::operators => visitExpr idx ++ visitOperators operators
  | .attrSplat::operators => visitOperators operators
  | .fullSplat::operators => visitOperators operators
  | .getAttr _::operators => visitOperators operators
  | .legacyIndex _::operators => visitOperators operators

def visitOption : Option Expression → List Expression
  | some e => visitExpr e
  | none => []

def visitTemplateElements : List Element → List Expression
  | [] => []
  | .literal::elements => visitTemplateElements elements
  | .interpolation e::elements => visitExpr e ++ visitTemplateElements elements
  | .directive d::elements => visitDirective d ++ visitTemplateElements elements

def visitDirective : Directive → List Expression
  | .if cond whenTrue whenFalse =>
    visitExpr cond ++ visitTemplateElements whenTrue ++ visitElse whenFalse
  | .for _ _ collection elements => visitExpr collection ++ visitTemplateElements elements

def visitElse : Option (List Element) → List Expression
  | none => []
  | some elements => visitTemplateElements elements

end

mutual

def visitStructure : Structure → List Expression
  | .attribute attr => visitExpr attr.value
  | .block _ body => visitBody body

def visitBody : List Structure → List Expression
  | [] => []
  | s::body => visitStructure s ++ visitBody body

end

/-! ## Names that are bound -/

def binders (keyVar : Option String) (valueVar : String) : List String := keyVar.toList ++ [valueVar]

mutual

/-- The expressions with the names bound around each: the variables of a comprehension
are bound in all of it but the collection. -/
def scopedExpr (env : List String) : Expression → List (Expression × List String)
  | .literal span => [(.literal span,env)]
  | .string span value => [(.string span value,env)]
  | .variable span name => [(.variable span name,env)]
  | .array span items => (.array span items,env) :: scopedExprs env items
  | .object span entries => (.object span entries,env) :: scopedEntries env entries
  | .stringTemplate span elements =>
    (.stringTemplate span elements,env) :: scopedTemplateElements env elements
  | .heredocTemplate span elements =>
    (.heredocTemplate span elements,env) :: scopedTemplateElements env elements
  | .parenthesis span inner => (.parenthesis span inner,env) :: scopedExpr env inner
  | .conditional span cond whenTrue whenFalse =>
    (.conditional span cond whenTrue whenFalse,env) ::
      (scopedExpr env cond ++ scopedExpr env whenTrue ++ scopedExpr env whenFalse)
  | .funcCall span name args => (.funcCall span name args,env) :: scopedExprs env args
  | .traversal span expr operators =>
    (.traversal span expr operators,env) :: (scopedExpr env expr ++ scopedOperators env operators)
  | .unaryOp span operand => (.unaryOp span operand,env) :: scopedExpr env operand
  | .binaryOp span lhs rhs => (.binaryOp span lhs rhs,env) :: (scopedExpr env lhs ++ scopedExpr env rhs)
  | .forExpr span keyVar valueVar collection keyExpr valueExpr cond =>
    (.forExpr span keyVar valueVar collection keyExpr valueExpr cond,env) ::
      (scopedExpr env collection ++ scopedOption (binders keyVar valueVar ++ env) keyExpr ++
        scopedExpr (binders keyVar valueVar ++ env) valueExpr ++
        scopedOption (binders keyVar valueVar ++ env) cond)

def scopedExprs (env : List String) : List Expression → List (Expression × List String)
  | [] => []
  | e::es => scopedExpr env e ++ scopedExprs env es

def scopedEntries (env : List String) : List (ObjectKey × Expression) → List (Expression × List String)
  | [] => []
  | (.ident _,value)::entries => scopedExpr env value ++ scopedEntries env entries
  | (.expression key,value)::entries =>
    scopedExpr env key ++ scopedExpr env value ++ scopedEntries env entries

def scopedOperators (env : List String) : List TraversalOperator → List (Expression × List String)
  | [] => []
  | .index idx::operators => scopedExpr env idx ++ scopedOperators env operators
  | .attrSplat::operators => scopedOperators env operators
  | .fullSplat::operators => scopedOperators env operators
  | .getAttr _::operators => scopedOperators env operators
  | .legacyIndex _::operators => scopedOperators env operators

def scopedOption (env : List String) : Option Expression → List (Expression × List String)
  | some e => scopedExpr env e
  | none => []

def scopedTemplateElements (env : List String) : List Element → List (Expression × List String)
  | [] => []
  | .literal::elements => scopedTemplateElements env elements
  | .interpolation e::elements => scopedExpr env e ++ scopedTemplateElements env elements
  | .directive d::elements => scopedDirective env d ++ scopedTemplateElements env elements

def scopedDirective (env : List String) : Directive → List (Expression × List String)
  | .if cond whenTrue whenFalse =>
    scopedExpr env cond ++ scopedTemplateElements env whenTrue ++ scopedElse env whenFalse
  | .for keyVar valueVar collection elements =>
    scopedExpr env collection ++ scopedTemplateElements (binders keyVar valueVar ++ env) elements

def scopedElse (env : List String) : Option (List Element) → List (Expression × List String)
  | none => []
  | some elements => scopedTemplateElements env elements

end

mutual

def scopedStructure : Structure → List (Expression × List String)
  | .attribute attr => scopedExpr [] attr.value
  | .block _ body => scopedBody body

def scopedBody : List Structure → List (Expression × List String)
  | [] => []
  | s::body => scopedStructure s ++ scopedBody body

end

/-! ## The walk sees every expression once -/

mutual

theorem scopedExpr_fst (env : List String) : ∀ e : Expression, (scopedExpr env e).map Prod.fst = visitExpr e
  | .literal _ | .string _ _ | .variable _ _ => rfl
  | .array _ items => by simp only [scopedExpr,visitExpr,List.map_cons,scopedExprs_fst env items]
  | .object _ entries => by simp only [scopedExpr,visitExpr,List.map_cons,scopedEntries_fst env entries]
  | .stringTemplate _ elements => by
    simp only [scopedExpr,visitExpr,List.map_cons,scopedTemplateElements_fst env elements]
  | .heredocTemplate _ elements => by
    simp only [scopedExpr,visitExpr,List.map_cons,scopedTemplateElements_fst env elements]
  | .parenthesis _ inner => by simp only [scopedExpr,visitExpr,List.map_cons,scopedExpr_fst env inner]
  | .conditional _ cond whenTrue whenFalse => by
    simp only [scopedExpr,visitExpr,List.map_cons,List.map_append,scopedExpr_fst env cond,
      scopedExpr_fst env whenTrue,scopedExpr_fst env whenFalse]
  | .funcCall _ _ args => by simp only [scopedExpr,visitExpr,List.map_cons,scopedExprs_fst env args]
  | .traversal _ expr operators => by
    simp only [scopedExpr,visitExpr,List.map_cons,List.map_append,scopedExpr_fst env expr,
      scopedOperators_fst env operators]
  | .unaryOp _ operand => by simp only [scopedExpr,visitExpr,List.map_cons,scopedExpr_fst env operand]
  | .binaryOp _ lhs rhs => by
    simp only [scopedExpr,visitExpr,List.map_cons,List.map_append,scopedExpr_fst env lhs,
      scopedExpr_fst env rhs]
  | .forExpr _ keyVar valueVar collection keyExpr valueExpr cond => by
    simp only [scopedExpr,visitExpr,List.map_cons,List.map_append,scopedExpr_fst env collection,
      scopedOption_fst (binders keyVar valueVar ++ env) keyExpr,
      scopedExpr_fst (binders keyVar valueVar ++ env) valueExpr,
      scopedOption_fst (binders keyVar valueVar ++ env) cond]

theorem scopedExprs_fst (env : List String) : ∀ es : List Expression,
    (scopedExprs env es).map Prod.fst = visitExprs es
  | [] => rfl
  | e::es => by
    simp only [scopedExprs,visitExprs,List.map_append,scopedExpr_fst env e,scopedExprs_fst env es]

theorem scopedEntries_fst (env : List String) : ∀ entries : List (ObjectKey × Expression),
    (scopedEntries env entries).map Prod.fst = visitEntries entries
  | [] => rfl
  | (.ident _,value)::entries => by
    simp only [scopedEntries,visitEntries,List.map_append,scopedExpr_fst env value,
      scopedEntries_fst env entries]
  | (.expression key,value)::entries => by
    simp only [scopedEntries,visitEntries,List.map_append,scopedExpr_fst env key,
      scopedExpr_fst env value,scopedEntries_fst env entries]

theorem scopedOperators_fst (env : List String) : ∀ operators : List TraversalOperator,
    (scopedOperators env operators).map Prod.fst = visitOperators operators
  | [] => rfl
  | .index idx::operators => by
    simp only [scopedOperators,visitOperators,List.map_append,scopedExpr_fst env idx,
      scopedOperators_fst env operators]
  | .attrSplat::operators => scopedOperators_fst env operators
  | .fullSplat::operators => scopedOperators_fst env operators
  | .getAttr _::operators => scopedOperators_fst env operators
  | .legacyIndex _::operators => scopedOperators_fst env operators

theorem scopedOption_fst (env : List String) : ∀ o : Option Expression,
    (scopedOption env o).map Prod.fst = visitOption o
  | some e => scopedExpr_fst env e
  | none => rfl

theorem scopedTemplateElements_fst (env : List String) : ∀ elements : List Element,
    (scopedTemplateElements env elements).map Prod.fst = visitTemplateElements elements
  | [] => rfl
  | .literal::elements => scopedTemplateElements_fst env elements
  | .interpolation e::elements => by
    simp only [scopedTemplateElements,visitTemplateElements,List.map_append,scopedExpr_fst env e,
      scopedTemplateElements_fst env elements]
  | .directive d::elements => by
    simp only [scopedTemplateElements,visitTemplateElements,List.map_append,scopedDirective_fst env d,
      scopedTemplateElements_fst env elements]

theorem scopedDirective_fst (env : List String) : ∀ d : Directive,
    (scopedDirective env d).map Prod.fst = visitDirective d
  | .if cond whenTrue whenFalse => by
    simp only [scopedDirective,visitDirective,List.map_append,scopedExpr_fst env cond,
      scopedTemplateElements_fst env whenTrue,scopedElse_fst env whenFalse]
  | .for keyVar valueVar collection elements => by
    simp only [scopedDirective,visitDirective,List.map_append,scopedExpr_fst env collection,
      scopedTemplateElements_fst (binders keyVar valueVar ++ env) elements]

theorem scopedElse_fst (env : List String) : ∀ o : Option (List Element),
    (scopedElse env o).map Prod.fst = visitElse o
  | none => rfl
  | some elements => scopedTemplateElements_fst env elements

end

mutual

theorem scopedStructure_fst : ∀ s : Structure, (scopedStructure s).map Prod.fst = visitStructure s
  | .attribute attr => scopedExpr_fst [] attr.value
  | .block _ body => scopedBody_fst body

theorem scopedBody_fst : ∀ body : List Structure, (scopedBody body).map Prod.fst = visitBody body
  | [] => rfl
  | s::body => by
    simp only [scopedBody,visitBody,List.map_append,scopedStructure_fst s,scopedBody_fst body]

end

end Scopes
end TerraformLs
