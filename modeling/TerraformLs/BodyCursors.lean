import Mathlib.Data.Finset.Insert
import TerraformLs.Hcl
import TerraformLs.Rope

/-! Where a cursor stands in the blocks of a document: the walks of completion, to the body
around it and to its path in the schema, and the walk of hovers. -/
namespace TerraformLs
namespace BodyCursors

open Rope

abbrev Span := ℕ × ℕ

structure Attribute where
  key : String
  keySpan : Option Span
  deriving DecidableEq

/-- A block without what its body holds. An empty body has no span. -/
structure Header where
  ident : String
  identSpan : Option Span
  labels : List (BlockLabel × Option Span)
  span : Option Span
  bodySpan : Option Span
  deriving DecidableEq

/-- The structures of a body, one behind the other. -/
inductive Body
  | nil
  | attribute (attr : Attribute) (rest : Body)
  | block (header : Header) (body rest : Body)
  deriving DecidableEq

abbrev Block := Header × Body

namespace Body

def attributes : Body → List Attribute
  | .nil => []
  | .attribute attr rest => attr :: rest.attributes
  | .block _ _ rest => rest.attributes

def blocks : Body → List Block
  | .nil => []
  | .attribute _ rest => rest.blocks
  | .block header body rest => (header,body) :: rest.blocks

end Body

def spanContainsOffset (span : Option Span) (offset : ℕ) : Bool :=
  span.any fun r => r.1 ≤ offset && offset ≤ r.2

/-! ## Completion -/

/-- The cursor is between the braces of the block. -/
def cursorInBlockBody (block : Header) (offset : ℕ) : Bool :=
  match block.bodySpan with
  | some bodySpan => bodySpan.1 < offset && offset ≤ bodySpan.2
  | none => spanContainsOffset block.span offset

/-- The `content` of a dynamic body around the cursor. -/
def findContentChild (offset : ℕ) : Body → Option Block
  | .nil => none
  | .attribute _ rest => findContentChild offset rest
  | .block child body rest =>
    if child.ident = "content" && cursorInBlockBody child offset then some (child,body)
    else findContentChild offset rest

mutual

/-- The block whose body is the innermost one around the cursor; a cursor on the header of a
block is in the body around that block. -/
def innermostBlockAt (offset : ℕ) : Body → Option Block
  | .nil => none
  | .attribute _ rest => innermostBlockAt offset rest
  | .block block body rest =>
    if !spanContainsOffset block.span offset then innermostBlockAt offset rest
    else if !cursorInBlockBody block offset then none
    else if block.ident = "dynamic" then
      (innermostContent offset body).or (some ((innermostBlockAt offset body).getD (block,body)))
    else some ((innermostBlockAt offset body).getD (block,body))

/-- The same in the `content` of a dynamic body, when the cursor is there. -/
def innermostContent (offset : ℕ) : Body → Option Block
  | .nil => none
  | .attribute _ rest => innermostContent offset rest
  | .block child body rest =>
    if child.ident = "content" && cursorInBlockBody child offset then
      some ((innermostBlockAt offset body).getD (child,body))
    else innermostContent offset rest

end

mutual

/-- The names below the root block: a dynamic block counts as its label, its `content` not. -/
def collectNestedPath (offset : ℕ) : Body → List String
  | .nil => []
  | .attribute _ rest => collectNestedPath offset rest
  | .block nested body rest =>
    if !spanContainsOffset nested.span offset then collectNestedPath offset rest
    else if !cursorInBlockBody nested offset then []
    else if nested.ident = "dynamic" then
      match nested.labels.head? with
      | none => []
      | some label => label.1.asStr :: collectContentPath offset body
    else nested.ident :: collectNestedPath offset body

def collectContentPath (offset : ℕ) : Body → List String
  | .nil => []
  | .attribute _ rest => collectContentPath offset rest
  | .block child body rest =>
    if child.ident = "content" && cursorInBlockBody child offset then collectNestedPath offset body
    else collectContentPath offset rest

end

def nestedBlockPath (offset : ℕ) : Body → List String
  | .nil => []
  | .attribute _ rest => nestedBlockPath offset rest
  | .block block body rest =>
    if spanContainsOffset block.span offset && cursorInBlockBody block offset then
      collectNestedPath offset body
    else nestedBlockPath offset rest

/-- The attributes of a body, and how many blocks of each name it has. -/
structure BodyFilter where
  presentAttrs : Finset String
  presentBlocks : String → ℕ

def BodyFilter.default : BodyFilter := ⟨∅,fun _ => 0⟩

def BodyFilter.extend (out : BodyFilter) : Body → BodyFilter
  | .nil => out
  | .attribute attr rest => extend ⟨insert attr.key out.presentAttrs,out.presentBlocks⟩ rest
  | .block nested _ rest => extend ⟨out.presentAttrs,Function.update out.presentBlocks nested.ident
      (out.presentBlocks nested.ident + 1)⟩ rest

def computeBodyFilter (offset : ℕ) (body : Option Body) : BodyFilter :=
  match body.bind (innermostBlockAt offset) with
  | some block => BodyFilter.default.extend block.2
  | none => .default

def cursorOnDynamicBody (offset : ℕ) (body : Option Body) : Bool :=
  (body.bind (innermostBlockAt offset)).any fun block => block.1.ident = "dynamic"

/-! ## Hovers -/

inductive RootBlockKind
  | resource | dataSource | provider | terraform | variable | output | module
  deriving DecidableEq

/-- The outermost block of a hit: what it is and of what type. -/
structure Root where
  kind : RootBlockKind
  type : String
  deriving DecidableEq

inductive Hit
  | attribute (root : Root) (nestedPath : List String) (attrName : String) (keySpan : Span)
  | nestedBlockHeader (root : Root) (parentPath : List String) (blockName : String)
      (targetLabel : Option String) (identSpan : Span)
  | blockLabel (root : Root) (parentPath : List String) (targetLabel : String) (labelSpan : Span)
  | dynamicMetaAttr (targetLabel : String) (attrName : String) (keySpan : Span)
  deriving DecidableEq

/-- The cursor is on the keyword of the block. -/
def headerHit (root : Root) (offset : ℕ) (block : Header) (parentPath : List String)
    (targetLabel : Option String) : Option Hit :=
  if spanContainsOffset block.identSpan offset then
    block.identSpan.map (.nestedBlockHeader root parentPath block.ident targetLabel)
  else none

def isDynamicMetaAttr (name : String) : Bool := name ∈ ["for_each","iterator","labels"]

/-- A dynamic block: its keyword, its label, and then its body, for the label. -/
def scanDynamicBlock (root : Root) (offset : ℕ) (block : Header) (path : List String)
    (scanBody : String → Option Hit) : Option Hit :=
  let targetLabel := block.labels.head?.map fun label => label.1.asStr
  let labelSpan := (block.labels.head?.bind Prod.snd).filter fun s => spanContainsOffset (some s) offset
  (headerHit root offset block path targetLabel).or
    (match labelSpan with
    | some span => targetLabel.map fun target => .blockLabel root path target span
    | none => targetLabel.bind scanBody)

mutual

def scanBlock (root : Root) (offset : ℕ) : Body → List String → Option Hit
  | .nil, _ => none
  | .attribute attr rest, path =>
    if spanContainsOffset attr.keySpan offset then attr.keySpan.map (.attribute root path attr.key)
    else scanBlock root offset rest path
  | .block block body rest, path =>
    if !spanContainsOffset block.span offset then scanBlock root offset rest path
    else if block.ident = "dynamic" then
      scanDynamicBlock root offset block path fun target =>
        scanDynamicBody root offset target body (path ++ [target])
    else (headerHit root offset block path none).or
      ((scanBlock root offset body (path ++ [block.ident])).or (scanBlock root offset rest path))

/-- The path ends with the label already. A block that is no `content` is passed over. -/
def scanDynamicBody (root : Root) (offset : ℕ) (target : String) : Body → List String → Option Hit
  | .nil, _ => none
  | .attribute attr rest, path =>
    if spanContainsOffset attr.keySpan offset then
      attr.keySpan.map fun keySpan =>
        if isDynamicMetaAttr attr.key then .dynamicMetaAttr target attr.key keySpan
        else .attribute root path attr.key keySpan
    else scanDynamicBody root offset target rest path
  | .block child body rest, path =>
    if !spanContainsOffset child.span offset then scanDynamicBody root offset target rest path
    else if child.ident = "content" then
      (headerHit root offset child path (some target)).or (scanBlock root offset body path)
    else scanDynamicBody root offset target rest path

end

def rootKind (name : String) : Option RootBlockKind :=
  [("resource",.resource),("data",.dataSource),("provider",.provider),("terraform",.terraform),
    ("variable",.variable),("output",.output),("module",.module)].lookup name

/-- A `terraform` block has no label. -/
def typeLabel (kind : RootBlockKind) (block : Header) : Option String :=
  if kind = .terraform then some "terraform" else block.labels.head?.map fun label => label.1.asStr

def rootOf (block : Header) : Option Root :=
  (rootKind block.ident).bind fun kind => (typeLabel kind block).map fun label => ⟨kind,label⟩

def findHit (offset : ℕ) : Body → Option Hit
  | .nil => none
  | .attribute _ rest => findHit offset rest
  | .block block body rest =>
    match rootOf block with
    | none => findHit offset rest
    | some root =>
      if !spanContainsOffset block.span offset then findHit offset rest
      else (scanBlock root offset body []).or (findHit offset rest)

def findHitAt (body : Body) (rope : Rope) (pos : Position) : Option Hit :=
  (lspPositionToByteOffset rope pos).toOption.bind fun offset => findHit offset body

/-! ## The two walks through a dynamic body -/

theorem innermostContent_eq (offset : ℕ) (body : Body) : innermostContent offset body =
    (findContentChild offset body).map fun content =>
      (innermostBlockAt offset content.2).getD content := by
  induction body with
  | nil => rfl
  | «attribute» attr rest ih => exact ih
  | block child inner rest _ ih =>
    rw [innermostContent,findContentChild]
    split_ifs
    · rfl
    · exact ih

theorem collectContentPath_eq (offset : ℕ) (body : Body) : collectContentPath offset body =
    ((findContentChild offset body).map fun content => collectNestedPath offset content.2).getD [] := by
  induction body with
  | nil => rfl
  | «attribute» attr rest ih => exact ih
  | block child inner rest _ ih =>
    rw [collectContentPath,findContentChild]
    split_ifs
    · rfl
    · exact ih

end BodyCursors
end TerraformLs
