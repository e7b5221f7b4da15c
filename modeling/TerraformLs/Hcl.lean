import Mathlib.Data.List.Basic

/-! Syntax trees of the configuration language, as the parser crate hands them
to the analyses. Number literals keep their digits, and of the spans only those
of attribute keys are kept, as byte offsets. -/
namespace TerraformLs

inductive UnaryOperator
  | neg | not
  deriving DecidableEq

inductive BinaryOperator
  | eq | notEq | lessEq | greaterEq | less | greater
  | plus | minus | mul | div | mod | and | or
  deriving DecidableEq

mutual

inductive Expression
  | null
  | bool (value : Bool)
  | number (digits : String)
  | string (value : String)
  | array (items : List Expression)
  | object (entries : List (ObjectKey × Expression))
  | stringTemplate (elements : List Element)
  | heredocTemplate (elements : List Element)
  | parenthesis (inner : Expression)
  | «variable» (name : String)
  | conditional (cond whenTrue whenFalse : Expression)
  | funcCall (ns : List String) (name : String) (args : List Expression)
  | traversal (expr : Expression) (operators : List TraversalOperator)
  | unaryOp (operator : UnaryOperator) (operand : Expression)
  | binaryOp (lhs : Expression) (operator : BinaryOperator) (rhs : Expression)
  /-- `for keyVar, valueVar in collection : keyExpr => valueExpr... if cond`. -/
  | forExpr (keyVar : Option String) (valueVar : String) (collection : Expression)
      (keyExpr : Option Expression) (valueExpr : Expression) (grouping : Bool)
      (cond : Option Expression)

inductive ObjectKey
  | ident (name : String)
  | expression (expr : Expression)

inductive TraversalOperator
  | attrSplat
  | fullSplat
  | getAttr (name : String)
  | index (expr : Expression)
  | legacyIndex (idx : ℕ)

/-- A piece of a string or heredoc template. -/
inductive Element
  | literal (text : String)
  | interpolation (expr : Expression)
  | directive (d : Directive)

inductive Directive
  | «if» (cond : Expression) (whenTrue : List Element) (whenFalse : Option (List Element))
  | «for» (keyVar : Option String) (valueVar : String) (collection : Expression)
      (elements : List Element)

end

inductive BlockLabel
  | ident (name : String)
  | string (text : String)
  deriving DecidableEq

def BlockLabel.asStr : BlockLabel → String
  | .ident name => name
  | .string text => text

inductive Structure
  | attribute (key : String) (keySpan : Option (ℕ × ℕ)) (value : Expression)
  | block (ident : String) (labels : List BlockLabel) (body : List Structure)

abbrev Body := List Structure

end TerraformLs
