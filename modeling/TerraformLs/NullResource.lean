import Mathlib.Data.List.Dedup
import Mathlib.Data.List.Sort
import TerraformLs.CodeActions

/-! The conversion of `null_resource` to `terraform_data`: the labels, keys and
references that are edited for each scope, and the `moved` blocks that are
written for the converted names. -/
namespace TerraformLs
namespace NullResource

open CodeActions

structure NullBlock where
  span : Spanned.Span
  label : Spanned.BlockLabel
  name : Option String
  body : Spanned.Body

def nullBlock : Spanned.Structure → Option NullBlock
  | .block span ident (label::labels) body =>
    if ident = "resource" ∧ label.text = "null_resource" then
      some ⟨span,label,labels.head?.map (·.text),body⟩
    else none
  | _ => none

def nullBlocks (body : Spanned.Body) : List NullBlock := body.filterMap nullBlock

/-- The names a scan is limited to, if it is. -/
def inFilter (names : Option (List String)) (name : String) : Bool := names.all (name ∈ ·)

def triggersEdits (rope : Rope) : Spanned.Structure → List TextEdit
  | .attribute keySpan key _ =>
    if key = "triggers" then tokenEdit rope keySpan "triggers_replace" else []
  | _ => []

def blockEdits (rope : Rope) (b : NullBlock) : List TextEdit :=
  tokenEdit rope b.label.span "\"terraform_data\"" ++ b.body.flatMap (triggersEdits rope)

def filteredBlocks (names : Option (List String)) (body : Spanned.Body) : List NullBlock :=
  (nullBlocks body).filter fun b => inFilter names (b.name.getD "")

/-- The edits of the blocks, and the names of those that have one. -/
def scanBlockEditsAndNames (rope : Rope) (names : Option (List String)) (body : Spanned.Body) :
    List TextEdit × List String :=
  ((filteredBlocks names body).flatMap (blockEdits rope),
    ((filteredBlocks names body).map (·.name.getD "")).filter (· ≠ ""))

/-- The edits of a reference with the name it refers to. The accessor after the
name is edited too when it is `triggers`. -/
def nullResourceHits (rope : Rope) : Spanned.Expression → List (String × TextEdit)
  | .traversal _ (.variable span head) operators =>
    if head = "null_resource" then
      match getAttrs operators with
      | [] => []
      | (_,name)::attrs =>
        (tokenEdit rope span "terraform_data" ++
          match attrs.head? with
          | some (attrSpan,attr) =>
            if attr = "triggers" then tokenEdit rope attrSpan "triggers_replace" else []
          | none => []).map (name,·)
    else []
  | _ => []

/-! The fix has a walk of its own for the references, with the filter at each of
them. -/

/-- The first accessor is passed over; the second is edited when it is `triggers`. -/
def renameSecond (rope : Rope) : ℕ → List Spanned.TraversalOperator → List TextEdit
  | _, [] => []
  | idx, .getAttr span name::operators =>
    if idx+1 = 2 ∧ name = "triggers" then tokenEdit rope span "triggers_replace"
    else renameSecond rope (idx+1) operators
  | idx, .attrSplat::operators => renameSecond rope idx operators
  | idx, .fullSplat::operators => renameSecond rope idx operators
  | idx, .index _::operators => renameSecond rope idx operators
  | idx, .legacyIndex _::operators => renameSecond rope idx operators

def emitNullResourceTraversalEdits (rope : Rope) (names : Option (List String)) :
    Spanned.Expression → List TextEdit
  | .traversal _ (.variable span head) operators =>
    if head = "null_resource" then
      let inFilter := match names,operators.findSome? getAttrName with
        | none, _ => true
        | some _, none => false
        | some filter, some name => name ∈ filter
      if inFilter then tokenEdit rope span "terraform_data" ++ renameSecond rope 0 operators
      else []
    else []
  | _ => []

theorem renameSecond_after (rope : Rope) (idx : ℕ) (hidx : 2 ≤ idx)
    (operators : List Spanned.TraversalOperator) : renameSecond rope idx operators = [] := by
  induction operators generalizing idx with
  | nil => rfl
  | cons operator operators ih =>
    cases operator with
    | getAttr span name =>
      rw [renameSecond,if_neg (by omega)]
      exact ih (idx+1) (by omega)
    | attrSplat | fullSplat | index | legacyIndex => exact ih idx hidx

theorem renameSecond_one (rope : Rope) (operators : List Spanned.TraversalOperator) :
    renameSecond rope 1 operators = match (getAttrs operators).head? with
      | some (span,name) => if name = "triggers" then tokenEdit rope span "triggers_replace" else []
      | none => [] := by
  induction operators with
  | nil => rfl
  | cons operator operators ih =>
    cases operator with
    | getAttr span name =>
      have hafter := renameSecond_after rope 2 le_rfl operators
      simp [renameSecond,getAttrs,hafter]
    | attrSplat | fullSplat | index | legacyIndex => exact ih

/-- The loop comes to the accessor that the hits look up. -/
theorem renameSecond_zero (rope : Rope) (operators : List Spanned.TraversalOperator) :
    renameSecond rope 0 operators = match (getAttrs operators).tail.head? with
      | some (span,name) => if name = "triggers" then tokenEdit rope span "triggers_replace" else []
      | none => [] := by
  induction operators with
  | nil => rfl
  | cons operator operators ih =>
    cases operator with
    | getAttr span name =>
      rw [renameSecond,if_neg (by omega),Nat.zero_add,renameSecond_one]
      rfl
    | attrSplat | fullSplat | index | legacyIndex => exact ih

theorem findSome_getAttrName (operators : List Spanned.TraversalOperator) :
    operators.findSome? getAttrName = (getAttrs operators).head?.map Prod.snd := by
  induction operators with
  | nil => rfl
  | cons operator operators ih =>
    cases operator with
    | getAttr span name => rfl
    | attrSplat | fullSplat | index | legacyIndex => exact ih

theorem filter_tagged (names : List String) (name : String) (edits : List TextEdit) :
    ((edits.map (name,·)).filter fun hit => hit.1 ∈ names).map Prod.snd =
      if name ∈ names then edits else [] := by
  rw [List.filter_map,List.map_map]
  by_cases hname : name ∈ names
  · simp [Function.comp_def,hname]
  · simp [Function.comp_def,hname]

/-- At each expression the hits on the given names are what the fix edits. -/
theorem hits_filtered (rope : Rope) (names : List String) (expr : Spanned.Expression) :
    ((nullResourceHits rope expr).filter fun hit => hit.1 ∈ names).map Prod.snd =
      emitNullResourceTraversalEdits rope (some names) expr := by
  unfold nullResourceHits emitNullResourceTraversalEdits
  split
  · rename_i span head operators
    by_cases hhead : head = "null_resource"
    · rw [if_pos hhead,if_pos hhead,findSome_getAttrName,renameSecond_zero]
      cases hattrs : getAttrs operators with
      | nil => rfl
      | cons attr attrs =>
        obtain ⟨attrSpan,name⟩ := attr
        rw [filter_tagged]
        simp
    · rw [if_neg hhead,if_neg hhead]
      rfl
  · rfl

/-- The hits of the shared walk on a set of names, which the diagnostics and the
actions read, and the edits that the fix makes for these names are the same. -/
theorem hits_denote_edits (rope : Rope) (names : List String) (body : Spanned.Body) :
    (((Spanned.walkExpressions body).flatMap (nullResourceHits rope)).filter
        fun hit => hit.1 ∈ names).map Prod.snd =
      (Spanned.walkExpressions body).flatMap
        (emitNullResourceTraversalEdits rope (some names)) := by
  rw [List.filter_flatMap,List.map_flatMap]
  exact List.flatMap_congr fun expr _ => hits_filtered rope names expr

def nullRefs (rope : Rope) (names : Option (List String)) (body : Spanned.Body) : List TextEdit :=
  (((Spanned.walkExpressions body).flatMap (nullResourceHits rope)).filter
    fun hit => inFilter names hit.1).map Prod.snd

def scanNullResourceToTerraformDataFor (rope : Rope) (names : Option (List String))
    (body : Spanned.Body) : List TextEdit :=
  (scanBlockEditsAndNames rope names body).1 ++ nullRefs rope names body

/-- The names of the blocks whose label is edited. The labels are looked up in
an empty text, where no span fits, so that only an edit at the start counts. -/
def namesIntersectingEdits (body : Spanned.Body) (edits : List TextEdit) : List String :=
  let labelRanges := (edits.filter (·.newText = "\"terraform_data\"")).map (·.range)
  ((nullBlocks body).filter fun b =>
    match Rope.hclSpanToLspRange [] b.label.span with
    | .ok range => labelRanges.any (·.start = range.start)
    | .error _ => labelRanges.any (·.start = ⟨0,0⟩)).filterMap (·.name)

/-- What an action edits and the names it converts in each module. -/
structure Conversion where
  rewrites : List (Url × List TextEdit)
  namesByModule : KeyedMap Path (List String)

variable (env : ActionEnvironment) (supports : Option Path → Bool)
  (documents : KeyedMap Url SourceDocument)

/-- What one document adds to an action. -/
structure DocumentPlan where
  uri : Url
  edits : List TextEdit
  names : List String
  blocks : ℕ

/-- The module of the document has to admit `terraform_data`. -/
def scanRow (uri : Url) (doc : SourceDocument) : Option (List TextEdit × List String) := do
  let body ← doc.body
  if supports (env.fs.parentDir uri) then
    let all := scanNullResourceToTerraformDataFor doc.rope none body
    if all = [] then none else some (all,(scanBlockEditsAndNames doc.rope none body).2)
  else none

def visit (scope : Scope) (e : Url × SourceDocument) : Option DocumentPlan := do
  let (all,names) ← scanRow env supports e.1 e.2
  match scope with
  | .selection range =>
    let edits := all.filter (·.range.intersects range)
    if edits = [] then none else some ⟨e.1,edits,namesIntersectingEdits (e.2.body.getD []) edits,
      (edits.filter (·.newText = "\"terraform_data\"")).length⟩
  | _ => some ⟨e.1,all,names,names.length⟩

def extendNames (m : KeyedMap Path (List String)) (plan : DocumentPlan) :
    KeyedMap Path (List String) :=
  match env.fs.parentDir plan.uri with
  | none => m
  | some dir => m.insert dir (Multimap.filed m dir ++ plan.names)

def plans (primary : Url) (scope : Scope) : List DocumentPlan :=
  (docsInScope env documents primary scope).filterMap (visit env supports scope)

/-- One action of `emit_null_resource_actions`. -/
def scopedConversion (primary : Url) (scope : Scope) : Option Conversion :=
  let plans := plans env supports documents primary scope
  if scope = .instance ∨ plans = [] ∨ (plans.map (·.blocks)).sum = 0 then none
  else some ⟨plans.map fun plan => (plan.uri,plan.edits),plans.foldl (extendNames env) ∅⟩

def instanceConversion (uri : Url) (rope : Rope) (body : Spanned.Body) (b : NullBlock) :
    Option Conversion :=
  let name := b.name.getD "?"
  let edits := scanNullResourceToTerraformDataFor rope (some [name]) body
  if edits = [] then none
  else some ⟨[(uri,edits)],
    match env.fs.parentDir uri with
    | none => ∅
    | some dir => (∅ : KeyedMap Path (List String)).insert dir [name]⟩

/-- What a client asks for: an action of a scope, or the conversion of the block
under the cursor or at the start of a diagnostic. -/
inductive Request
  | inScope (scope : Scope)
  | atCursor (cursor : Position)
  | forDiag (start : Position)

def blockAtCursor (rope : Rope) (cursor : Position) (body : Spanned.Body) : Option NullBlock :=
  (nullBlocks body).find? fun b =>
    match rope.hclSpanToLspRange b.span with
    | .ok range => range.contains cursor
    | .error _ => false

def blockForDiag (rope : Rope) (start : Position) (body : Spanned.Body) : Option NullBlock :=
  (nullBlocks body).find? fun b =>
    match rope.hclSpanToLspRange b.label.span with
    | .ok range => range.start = start
    | .error _ => false

/-- The action that is emitted for a request on the active document. -/
def emitted (primary : Url) : Request → Option Conversion
  | .inScope scope => scopedConversion env supports documents primary scope
  | .atCursor cursor => do
    let doc ← documents.lookup primary
    let body ← doc.body
    let b ← blockAtCursor doc.rope cursor body
    if supports (env.fs.parentDir primary) then instanceConversion env primary doc.rope body b
    else none
  | .forDiag start => do
    let doc ← documents.lookup primary
    let body ← doc.body
    let b ← blockForDiag doc.rope start body
    instanceConversion env primary doc.rope body b

/-! The `moved` blocks. -/

/-- The names that the `moved` blocks of a body already cover. -/
def existingNullResourceMovedNames (body : Spanned.Body) : List String :=
  (movedBlocks body).filterMap fun m =>
    match GitRefs.stripPrefix "null_resource.".toList m.1.text.toList with
    | some name =>
      if m.2.text = "terraform_data." ++ String.ofList name then some (String.ofList name) else none
    | none => none

def collectExistingMovedNames (dir : Path) : List String :=
  (moduleDocs env documents dir).flatMap fun e =>
    existingNullResourceMovedNames (e.2.body.getD [])

def formatMovedBlock (name : String) : String :=
  "moved \x7b\n  from = null_resource." ++ name ++ "\n  to   = terraform_data." ++ name ++ "\n\x7d\n"

/-- The names that still need a `moved` block. -/
def toAdd (dir : Path) (names : List String) : List String :=
  ((names.insertionSort (· ≤ ·)).dedup).filter
    (· ∉ collectExistingMovedNames env documents dir)

def movedOps (dir : Path) (names : List String) : List DocumentChangeOperation :=
  let names := toAdd env documents dir names
  if names = [] then [] else
    match env.fs.fromFilePath (movedPath dir) with
    | none => []
    | some targetUrl => appendOps targetUrl (String.join (names.map formatMovedBlock))
        (resolveTargetStrategy env documents targetUrl (movedPath dir))

def buildNullResourceWorkspaceEdit (c : Conversion) : List DocumentChangeOperation :=
  c.namesByModule.entries.flatMap (fun e => movedOps env documents e.1 e.2) ++
    c.rewrites.map fun e => .edit e.1 e.2

end NullResource
end TerraformLs
