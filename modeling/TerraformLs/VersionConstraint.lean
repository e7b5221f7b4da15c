import Mathlib.Data.List.Lex
import Mathlib.Data.Prod.Lex
import Mathlib.Data.Sum.Order
import TerraformLs.TextSlices
import TerraformLs.VersionLists

/-! Version constraints: a text is parsed piece by piece, and versions are compared
by keys read from their texts. A deprecation is reported when the lowest version
that the constraints admit has the replacement. -/
namespace TerraformLs
namespace VersionConstraint

open GitRefs RegistryVersions

inductive ConstraintOp
  | eq | ne | gt | gte | lt | lte | pessimistic
  deriving DecidableEq

def ConstraintOp.token : ConstraintOp → String
  | .eq => "="
  | .ne => "!="
  | .gt => ">"
  | .gte => ">="
  | .lt => "<"
  | .lte => "<="
  | .pessimistic => "~>"

structure Constraint where
  op : ConstraintOp
  version : Rope
  span : Span
  deriving DecidableEq

structure ConstraintError where
  span : Span
  message : String
  deriving DecidableEq

structure Parsed where
  constraints : List Constraint := []
  errors : List ConstraintError := []
  deriving DecidableEq

section parsing

/-- `u8::is_ascii_whitespace`; no byte of a longer character is one. -/
def isAsciiWhitespace (c : Char) : Bool :=
  c = ' ' || c = '\t' || c = '\n' || c = '\x0c' || c = '\r'

def splitCommas (input : Rope) : List Span := Pieces.splitFrom ',' 0 0 input

/-- Longer tokens come first. -/
def operatorTokens : List (Rope × ConstraintOp) :=
  [(['~','>'],.pessimistic),(['>','='],.gte),(['<','='],.lte),(['!','='],.ne),(['>'],.gt),
    (['<'],.lt),(['='],.eq)]

/-- The operator and the bytes it takes up; without one, versions are to be equal. -/
def detectOperator (s : Rope) : ConstraintOp × ℕ :=
  match operatorTokens.find? fun t => t.1.isPrefixOf s with
  | some (token,op) => (op,token.lenBytes)
  | none => (.eq,0)

def startsWithOperatorChar (s : Rope) : Bool :=
  s.head?.any (· ∈ ['=','!','<','>','~','^','&','|','+'])

/-- The bytes of a longer character are neither alphanumeric nor white space. -/
def nonVersionPrefixLen (s : Rope) : ℕ :=
  max (Rope.lenBytes (s.takeWhile fun c => !c.isAlphanum && !isAsciiWhitespace c)) 1

def validatePart (part : Rope) : Except String Unit :=
  if part = [] then .error "empty segment"
  else if part.all Char.isDigit then .ok ()
  else .error "segment must be numeric"

/-- The numeric core, before the first plus sign and before the first dash. -/
def coreOf (s : Rope) : Rope := (s.takeWhile (· ≠ '+')).takeWhile (· ≠ '-')

/-- Only the numeric core is looked at. -/
def validateVersion (s : Rope) : Except String Unit :=
  if s = [] then .error "empty"
  else if coreOf s = [] then .error "missing numeric core"
  else ((coreOf s).splitOn '.').forM validatePart

def emptyMessage : String := "empty constraint — remove stray comma or fill in a version"

def unknownMessage (operator : Rope) : String :=
  String.join ["unknown operator `",String.ofList operator,"`"]

def missingMessage (op : ConstraintOp) : String :=
  String.join ["operator `",op.token,"` is missing a version"]

def malformedMessage (version : Rope) (reason : String) : String :=
  String.join ["malformed version `",String.ofList version,"`: ",reason]

/-- A piece is trimmed before it is read, in one slice from both ends. -/
def parsePiece (source : Rope) (span : Span) : Outcome ConstraintError Constraint := do
  let raw ← source.slice span.1 span.2
  let trimmedStart := Rope.lenBytes (raw.takeWhile isAsciiWhitespace)
  let trimmedEndRev := Rope.lenBytes (raw.reverse.takeWhile isAsciiWhitespace)
  let content ← raw.slice trimmedStart (raw.lenBytes - trimmedEndRev)
  let contentStart := span.1 + trimmedStart
  if content = [] then .err ⟨span,emptyMessage⟩
  else do
    let (op,opLen) := detectOperator content
    let afterOp ← content.slice opLen content.lenBytes
    let versionStartRel := opLen + Rope.lenBytes (afterOp.takeWhile isAsciiWhitespace)
    let rest ← content.slice versionStartRel content.lenBytes
    let versionText := rest.rdropWhile isWhitespace
    let versionAbsStart := contentStart + versionStartRel
    if opLen = 0 ∧ startsWithOperatorChar content then do
      let operator ← content.slice 0 (nonVersionPrefixLen content)
      .err ⟨(contentStart,contentStart + nonVersionPrefixLen content),unknownMessage operator⟩
    else if versionText = [] then
      .err ⟨(contentStart,contentStart + content.lenBytes),missingMessage op⟩
    else
      match validateVersion versionText with
      | .error reason =>
        .err ⟨(versionAbsStart,versionAbsStart + Rope.lenBytes versionText),
          malformedMessage versionText reason⟩
      | .ok _ => .ok ⟨op,versionText,(contentStart,versionAbsStart + Rope.lenBytes versionText)⟩

/-- An error in one piece does not keep the others from being parsed. -/
def parseInto (input : Rope) (parsed : Parsed) (span : Span) : Outcome Empty Parsed :=
  match parsePiece input span with
  | .ok c => .ok { parsed with constraints := parsed.constraints ++ [c] }
  | .err e => .ok { parsed with errors := parsed.errors ++ [e] }
  | .panicked => .panicked

def parse (input : Rope) : Outcome Empty Parsed :=
  (splitCommas input).foldlM (parseInto input) {}

end parsing

section keys

/-- `str::parse::<u64>` of a text of digits. -/
def parseU64 (s : Rope) : Option ℕ :=
  if s ≠ [] && s.all Char.isDigit then
    some (s.foldl (fun n c => n*10 + (c.toNat - 48)) 0) |>.filter (· < 2^64)
  else none

inductive PreSegment
  | num (n : ℕ)
  | text (s : Rope)
  deriving DecidableEq

/-- Numeric identifiers come before the others. -/
def PreSegment.ranked : PreSegment → ℕ ⊕ₗ Rope
  | .num n => Sum.inlₗ n
  | .text s => Sum.inrₗ s

theorem PreSegment.ranked_injective : Function.Injective PreSegment.ranked := by
  intro a b h
  cases a <;> cases b <;> simp_all [PreSegment.ranked]

instance : LinearOrder PreSegment := LinearOrder.lift' PreSegment.ranked PreSegment.ranked_injective

/-- A version without a pre-release tag is stable, and comes after those with one. -/
structure VersionKey where
  major : ℤ
  minor : ℤ
  patch : ℤ
  stability : ℕ
  pre : List PreSegment
  deriving DecidableEq

/-- Keys are compared field by field. -/
def VersionKey.fields (k : VersionKey) : ℤ ×ₗ ℤ ×ₗ ℤ ×ₗ ℕ ×ₗ List PreSegment :=
  toLex (k.major,toLex (k.minor,toLex (k.patch,
    toLex (k.stability,k.pre))))

theorem VersionKey.fields_injective : Function.Injective VersionKey.fields := by
  rintro ⟨major,minor,patch,stability,pre⟩ ⟨major',minor',patch',stability',pre'⟩ h
  simpa [VersionKey.fields] using h

instance : LinearOrder VersionKey := LinearOrder.lift' VersionKey.fields VersionKey.fields_injective

/-- A number that does not fit is kept as a text. -/
def preSegment (seg : Rope) : PreSegment :=
  if seg.all Char.isDigit then
    match parseU64 seg with
    | some n => .num n
    | none => .text seg
  else .text seg

/-- The identifiers of a tag without its build metadata; empty ones are dropped. -/
def preSegments (tag : Rope) : List PreSegment :=
  (((tag.takeWhile (· ≠ '+')).splitOn '.').filter (· ≠ [])).map preSegment

/-- A minor or patch number that is missing, or no number, counts as `0`. -/
def versionKey (v : Rope) : Option VersionKey :=
  let (core,pre) := splitOnce '-' v
  let parts := (core.takeWhile (· ≠ '+')).splitOn '.'
  match parts.head?.bind parseI64 with
  | none => none
  | some major => some {
      major := major
      minor := (parts[1]?.bind parseI64).getD 0
      patch := (parts[2]?.bind parseI64).getD 0
      stability := if pre.isSome then 0 else 1
      pre := (pre.map preSegments).getD [] }

def compareVersions (a b : Rope) : Option Ordering := do
  let ak ← versionKey a
  let bk ← versionKey b
  return compare ak bk

def versionAtLeast (version threshold : Rope) : Bool :=
  compareVersions version threshold = some .gt || compareVersions version threshold = some .eq

end keys

section evaluation

def sameCore (a b : VersionKey) : Bool :=
  a.major = b.major && a.minor = b.minor && a.patch = b.patch

/-- The segments of the numeric core, before the first dash and then before a plus sign. -/
def segmentCount (version : Rope) : ℕ :=
  (((version.takeWhile (· ≠ '-')).takeWhile (· ≠ '+')).splitOn '.').length

/-- The segments before the last one that was written are to be the same. -/
def samePrefix (segments : ℕ) (candidate key : VersionKey) : Bool :=
  match segments with
  | 0 | 1 => true
  | 2 => candidate.major = key.major
  | _ => candidate.major = key.major && candidate.minor = key.minor

def pessimisticMatches (version : Rope) (candidate : VersionKey) : Bool :=
  match versionKey version with
  | none => false
  | some ck =>
    if candidate < ck then false else samePrefix (segmentCount version) candidate ck

/-- A pre-release satisfies no range whose operand is a stable version of another core. -/
def preExcluded (candidate constraintKey : VersionKey) : Bool :=
  candidate.stability = 0 && constraintKey.stability = 1 && !sameCore candidate constraintKey

def satisfiesOne (c : Constraint) (candidate : VersionKey) : Bool :=
  match versionKey c.version with
  | none => false
  | some constraintKey =>
    match c.op with
    | .eq => candidate = constraintKey
    | .ne => candidate ≠ constraintKey
    | .gt => !preExcluded candidate constraintKey && constraintKey < candidate
    | .gte => !preExcluded candidate constraintKey && constraintKey ≤ candidate
    | .lt => !preExcluded candidate constraintKey && candidate < constraintKey
    | .lte => !preExcluded candidate constraintKey && candidate ≤ constraintKey
    | .pessimistic =>
      !preExcluded candidate constraintKey && pessimisticMatches c.version candidate

def satisfiesAll (constraints : List Constraint) (candidate : Rope) : Bool :=
  match versionKey candidate with
  | none => false
  | some candidateKey => constraints.all fun c => satisfiesOne c candidateKey

/-- The operators whose operand bounds the versions from below. -/
def ConstraintOp.isLowerBound : ConstraintOp → Bool
  | .eq | .gt | .gte | .pessimistic => true
  | .lt | .lte | .ne => false

/-- The first of the greatest operands is kept. -/
def raiseBound (best : Option (Rope × VersionKey)) (c : Constraint) : Option (Rope × VersionKey) :=
  if c.op.isLowerBound then
    match versionKey c.version,best with
    | none,_ => best
    | some key,none => some (c.version,key)
    | some key,some (v,prevKey) => if prevKey < key then some (c.version,key) else some (v,prevKey)
  else best

def minAdmittedVersion (constraints : List Constraint) : Option Rope :=
  (constraints.foldl raiseBound none).map Prod.fst

end evaluation

/-- Where the constraint that gates a rule is written. -/
inductive Gate
  | terraformVersion (threshold : Rope)
  | providerVersion (provider : String) (threshold : Rope)

structure DeprecationRule where
  blockKind : String
  label : String
  gate : Gate
  message : String

def DeprecationRule.threshold (rule : DeprecationRule) : Rope :=
  match rule.gate with
  | .terraformVersion threshold => threshold
  | .providerVersion _ threshold => threshold

/-- Without any constraint there is nothing to suppress a rule for. -/
def supports (rule : DeprecationRule) (constraint : Rope) : Outcome Empty Bool := do
  let parsed ← parse constraint
  if parsed.constraints = [] then return true
  else match minAdmittedVersion parsed.constraints with
    | none => return false
    | some min => return versionAtLeast min rule.threshold

end VersionConstraint
end TerraformLs
