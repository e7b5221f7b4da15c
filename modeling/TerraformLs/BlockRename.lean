import Mathlib.Data.List.Destutter
import Mathlib.Data.List.Sort
import TerraformLs.CodeActions

/-! The actions that rename block types: the rules, the labels and references
they rewrite for each scope, and the scaffolds of `moved` blocks they write. -/
namespace TerraformLs
namespace BlockRename

open CodeActions

/-- How safe a `moved` block between the two types is. -/
inductive StateMigration
  | aliased | requiresTerraform18 | manual
  deriving DecidableEq

structure BlockRenameSpec where
  blockKind : String
  fromType : String
  toType : String
  stateMigration : StateMigration
  deriving DecidableEq

def BlockRenameSpec.isResource (spec : BlockRenameSpec) : Bool := spec.blockKind = "resource"

def awsAliased (fromType toType : String) : BlockRenameSpec :=
  ⟨"resource",fromType,toType,.aliased⟩

def k8sV1 (fromType : String) : BlockRenameSpec := ⟨"resource",fromType,"",.manual⟩

def allBlockRenames : List BlockRenameSpec :=
  [awsAliased "aws_alb" "aws_lb",awsAliased "aws_alb_listener" "aws_lb_listener",
    awsAliased "aws_alb_listener_rule" "aws_lb_listener_rule",
    awsAliased "aws_alb_target_group" "aws_lb_target_group",
    awsAliased "aws_alb_target_group_attachment" "aws_lb_target_group_attachment",
    ⟨"resource","aws_s3_bucket_object","aws_s3_object",.requiresTerraform18⟩,
    ⟨"data","aws_s3_bucket_object","aws_s3_object",.manual⟩,
    ⟨"data","aws_s3_bucket_objects","aws_s3_objects",.manual⟩,
    ⟨"resource","aws_kinesis_analytics_application","aws_kinesisanalyticsv2_application",.manual⟩,
    k8sV1 "kubernetes_pod",k8sV1 "kubernetes_deployment",k8sV1 "kubernetes_service",
    k8sV1 "kubernetes_namespace",k8sV1 "kubernetes_config_map",k8sV1 "kubernetes_secret",
    k8sV1 "kubernetes_role",k8sV1 "kubernetes_role_binding",k8sV1 "kubernetes_cluster_role",
    k8sV1 "kubernetes_cluster_role_binding",k8sV1 "kubernetes_persistent_volume",
    k8sV1 "kubernetes_persistent_volume_claim",k8sV1 "kubernetes_service_account",
    k8sV1 "kubernetes_stateful_set",
    ⟨"resource","kubernetes_daemonset","kubernetes_daemon_set_v1",.manual⟩,
    k8sV1 "kubernetes_job",k8sV1 "kubernetes_cron_job",k8sV1 "kubernetes_network_policy",
    k8sV1 "kubernetes_ingress",k8sV1 "kubernetes_horizontal_pod_autoscaler"]

def resolvedTo (spec : BlockRenameSpec) : String :=
  if spec.toType = "" ∧ "kubernetes_".toList.isPrefixOf spec.fromType.toList then
    spec.fromType ++ "_v1"
  else spec.toType

/-- The rule for a kind of block and its label, with its index. -/
def byKindLabel (kind label : String) : Option (BlockRenameSpec × ℕ) :=
  (allBlockRenames.zipIdx.filter fun e =>
    e.1.blockKind = kind ∧ e.1.fromType = label).getLast?

/-- The last rule for a type, of whatever kind. -/
def byFrom (head : String) : Option (BlockRenameSpec × ℕ) :=
  (allBlockRenames.zipIdx.filter fun e => e.1.fromType = head).getLast?

inductive CommentReason
  | needsTerraform18 | manualMigration
  deriving DecidableEq

inductive PendingKind
  | real
  | commented (reason : CommentReason)
  deriving DecidableEq

def pendingKind (admits18 : Bool) (spec : BlockRenameSpec) : PendingKind :=
  match spec.stateMigration with
  | .aliased => .real
  | .requiresTerraform18 => if admits18 then .real else .commented .needsTerraform18
  | .manual => .commented .manualMigration

/-- A converted block: the rule, the name and how its scaffold is written. -/
abbrev Entry := ℕ × String × PendingKind

structure RenameConversion where
  rewrites : List (Url × List TextEdit)
  renamesByModule : Multimap Path Entry

section scans

variable (rope : Rope) (supported : ℕ → Bool)

def scanBlockRewrites (body : Spanned.Body) : List (ℕ × String × TextEdit) :=
  body.flatMap fun
    | .block _ ident (label::labels) _ =>
      match byKindLabel ident label.text,labels.head? with
      | some (spec,idx),some name =>
        if supported idx then (tokenEdit rope label.span
          ("\"" ++ resolvedTo spec ++ "\"")).map (idx,name.text,·)
        else []
      | _,_ => []
    | _ => []

/-- A traversal counts when some attribute follows its first name. -/
def refRewrites (rules : String → Option (BlockRenameSpec × ℕ)) :
    Spanned.Expression → List (ℕ × TextEdit)
  | .traversal _ (.variable span head) operators =>
    match rules head with
    | some (spec,idx) =>
      if supported idx ∧ getAttrs operators ≠ [] then
        (tokenEdit rope span (resolvedTo spec)).map (idx,·)
      else []
    | none => []
  | _ => []

def scanRefRewrites (rules : String → Option (BlockRenameSpec × ℕ)) (body : Spanned.Body) :
    List (ℕ × TextEdit) := (Spanned.walkExpressions body).flatMap (refRewrites rope supported rules)

/-- The name that a traversal from the type refers to, with its position. -/
def nameAt (fromType : String) : Spanned.Expression → Option (Position × String)
  | .traversal _ (.variable span head) operators =>
    if head = fromType then
      match (getAttrs operators).head?,rope.byteOffsetToLspPosition span.1 with
      | some (_,name),.ok start => some (start,name)
      | _,_ => none
    else none
  | _ => none

/-- The name of the traversal that starts at a position, as a map filled in order keeps it. -/
def nameByPos (fromType : String) (body : Spanned.Body) (start : Position) : Option String :=
  (((Spanned.walkExpressions body).filterMap (nameAt rope fromType)).filter
    (·.1 = start)).getLast?.map Prod.snd

def filterRefsByName (fromType targetName : String) (body : Spanned.Body)
    (refs : List (ℕ × TextEdit)) : List (ℕ × TextEdit) :=
  refs.filter fun e => nameByPos rope fromType body e.2.range.start = some targetName

end scans

variable (env : ActionEnvironment) (supported : Path → ℕ → Bool) (admits18 : Path → Bool)
  (documents : KeyedMap Url SourceDocument)

/-- What one document adds to an action. -/
structure DocumentPlan where
  uri : Url
  dir : Path
  blocks : List (ℕ × String × TextEdit)
  refs : List TextEdit

def DocumentPlan.edits (plan : DocumentPlan) : List TextEdit :=
  plan.blocks.map (·.2.2) ++ plan.refs

def visit (scope : Scope) (e : Url × SourceDocument) : Option DocumentPlan := do
  let body ← e.2.body
  let dir ← env.fs.parentDir e.1
  let blocks := (scanBlockRewrites e.2.rope (supported dir) body).filter (scope.takes ·.2.2.range)
  let refs := (scanRefRewrites e.2.rope (supported dir) byFrom body).map Prod.snd
  if blocks = [] ∧ refs = [] then none
  else some ⟨e.1,dir,blocks,refs.filter (scope.takes ·.range)⟩

def plans (primary : Url) (scope : Scope) : List DocumentPlan :=
  (docsInScope env documents primary scope).filterMap (visit env supported scope)

/-- Only resources are moved. -/
def entriesOf (plan : DocumentPlan) : List (Path × Entry) :=
  plan.blocks.filterMap fun b => do
    let spec ← allBlockRenames[b.1]?
    if spec.isResource then some (plan.dir,b.1,b.2.1,pendingKind (admits18 plan.dir) spec) else none

/-- One action of `emit_block_rename_actions`. -/
def scopedConversion (primary : Url) (scope : Scope) : Option RenameConversion :=
  let plans := plans env supported documents primary scope
  let rewrites := (plans.map fun plan => (plan.uri,plan.edits)).filter (·.2 ≠ [])
  let entries := plans.flatMap (entriesOf admits18)
  if scope = .instance ∨ (rewrites = [] ∧ entries = []) ∨
      (plans.map (·.blocks.length)).sum = 0 then none
  else some ⟨rewrites,Multimap.pushAll ∅ entries⟩

structure MatchedBlock where
  spec : BlockRenameSpec
  idx : ℕ
  name : String
  labelRange : Range

/-- The block under the cursor, if a rule is about it. -/
def matchedBlock (rope : Rope) (cursor : Position) : Spanned.Structure → Option MatchedBlock
  | .block span ident (label::labels) _ => do
    let (spec,idx) ← byKindLabel ident label.text
    let blockRange ← (rope.hclSpanToLspRange span).toOption
    if blockRange.contains cursor then
      let name ← labels.head?
      let labelRange ← (rope.hclSpanToLspRange label.span).toOption
      some ⟨spec,idx,name.text,labelRange⟩
    else none
  | _ => none

/-- The references that the conversion of one block rewrites. -/
def instanceRefs (rope : Rope) (supported : ℕ → Bool) (b : MatchedBlock) (body : Spanned.Body) :
    List (ℕ × TextEdit) :=
  filterRefsByName rope b.spec.fromType b.name body (scanRefRewrites rope supported
    (fun head => if head = b.spec.fromType then some (b.spec,b.idx) else none) body)

def makeReplaceBlockAtCursor (primary : Url) (cursor : Position) : Option RenameConversion := do
  let doc ← documents.lookup primary
  let body ← doc.body
  let dir ← env.fs.parentDir primary
  let b ← body.findSome? (matchedBlock doc.rope cursor)
  if supported dir b.idx then
    some ⟨[(primary,⟨b.labelRange,"\"" ++ resolvedTo b.spec ++ "\""⟩ ::
        (instanceRefs doc.rope (supported dir) b body).map Prod.snd)],
      Multimap.pushAll ∅ (if b.spec.isResource then
        [(dir,b.idx,b.name,pendingKind (admits18 dir) b.spec)] else [])⟩
  else none

/-- What a client asks for: an action of a scope, or the conversion of the block at a position, which
is that of the cursor or the start of a diagnostic. -/
inductive Request
  | inScope (scope : Scope)
  | atCursor (cursor : Position)

def emitted (primary : Url) : Request → Option RenameConversion
  | .inScope scope => scopedConversion env supported admits18 documents primary scope
  | .atCursor cursor => makeReplaceBlockAtCursor env supported admits18 documents primary cursor

end BlockRename
end TerraformLs
