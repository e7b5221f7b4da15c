import TerraformLs.RopeLines
import TerraformLs.VersionConstraint

/-! Where the rules about versions look into the caches: for each constraint text,
and for each module source that is a git repository. A panic ends a rule. -/
namespace TerraformLs

theorem Outcome.bind_eq_ok {ε α β : Type} {x : Outcome ε α} {f : α → Outcome ε β} {b : β} :
    x >>= f = .ok b ↔ ∃ a, x = .ok a ∧ f a = .ok b := by
  constructor
  · intro h
    cases x with
    | ok a => exact ⟨a,rfl,h⟩
    | err e => cases h
    | panicked => cases h
  · rintro ⟨a,rfl,h⟩
    exact h

namespace CacheLookups

open GitRefs RegistryVersions VersionConstraint

abbrev Span := ℕ × ℕ

/-- The key of an object entry. -/
inductive ObjectKey
  | ident (name : String)
  | string (text : String)
  | other
  deriving DecidableEq

/-- Values as far as the rules tell them apart. A piece of a template is a literal,
or it is not known. -/
inductive Value
  | string (span : Option Span) (text : String)
  | stringTemplate (span : Option Span) (elements : List (Option String))
  | object (span : Option Span) (entries : List (ObjectKey × Value))
  | other (span : Option Span)

inductive Structure
  | attribute (key : String) (value : Value)
  | block (ident : String) (body : List Structure)

abbrev Body := List Structure

def Value.span : Value → Option Span
  | .string span _ | .stringTemplate span _ | .object span _ | .other span => span

def objectKeyAsStr : ObjectKey → Option String
  | .ident name => some name
  | .string text => some text
  | .other => none

/-- A template counts as a text when nothing in it is interpolated. -/
def literalString : Value → Option String
  | .string _ text => some text
  | .stringTemplate _ elements => (elements.mapM id).map String.join
  | _ => none

def stringExpression (value : Value) : Option String := literalString value

def Structure.asAttribute : Structure → Option (String × Value)
  | .attribute key value => some (key,value)
  | .block _ _ => none

def Structure.asBlock : Structure → Option (String × Body)
  | .attribute _ _ => none
  | .block ident body => some (ident,body)

/-- The values of the attributes with a key, in order. -/
def valuesOf (key : String) (body : Body) : List Value :=
  (body.filterMap Structure.asAttribute).filterMap fun a => if a.1 = key then some a.2 else none

/-- The bodies of the blocks of a kind, in order. -/
def blocksOf (ident : String) (body : Body) : List Body :=
  (body.filterMap Structure.asBlock).filterMap fun b => if b.1 = ident then some b.2 else none

/-- The values of the object entries with a key, in order. -/
def entriesOf (key : String) (entries : List (ObjectKey × Value)) : List Value :=
  entries.filterMap fun e => if objectKeyAsStr e.1 = some key then some e.2 else none

section sources

def contains (s : Rope) (pattern : String) : Bool := (find pattern.toList s).isSome

def startsWith (s : Rope) (start : String) : Bool := start.toList.isPrefixOf s

def isPublicRegistryHost (host : Rope) : Bool :=
  host = "registry.terraform.io".toList || host = "registry.opentofu.org".toList

/-- A host is only accepted when it is one of the public registries. -/
def parseProviderSource (s : String) : Option (Rope × Rope) :=
  match (trim s.toList).splitOn '/' with
  | [ns,name] => if ns ≠ [] ∧ name ≠ [] then some (ns,name) else none
  | [host,ns,name] =>
    if ns ≠ [] ∧ name ≠ [] ∧ isPublicRegistryHost host then some (ns,name) else none
  | _ => none

/-- The source is a path or a URL. -/
def isLocalOrUrl (s : Rope) : Bool :=
  startsWith s "." || startsWith s "/" || contains s "://" || contains s "::"

def parseModuleSourceParts (s : String) : Option (Rope × Rope × Rope) :=
  if isLocalOrUrl (trim s.toList) then none else
    match (trim s.toList).splitOn '/' with
    | [ns,name,provider] =>
      if ns ≠ [] ∧ name ≠ [] ∧ provider ≠ [] then some (ns,name,provider) else none
    | [host,ns,name,provider] =>
      if ns ≠ [] ∧ name ≠ [] ∧ provider ≠ [] ∧ isPublicRegistryHost host then
        some (ns,name,provider)
      else none
    | _ => none

def isGitSource (src : String) : Bool :=
  let trimmed := trim src.toList
  startsWith trimmed "git::" || startsWith trimmed "github.com/" ||
    startsWith trimmed "bitbucket.org/" || ".git".toList.isSuffixOf trimmed ||
    contains trimmed ".git?" || contains trimmed ".git#"

/-- `?ref=VALUE`, `&ref=VALUE` or a fragment. -/
def extractRef (src : Rope) : Option Rope :=
  match find "?ref=".toList src with
  | some start => some ((src.drop (start + 5)).takeWhile (· ≠ '&'))
  | none =>
    match find "&ref=".toList src with
    | some start => some ((src.drop (start + 5)).takeWhile (· ≠ '&'))
    | none => (find ['#'] src).map fun hash => src.drop (hash + 1)

def isAsciiHexdigit (c : Char) : Bool :=
  c.isDigit || ('a' ≤ c && c ≤ 'f') || ('A' ≤ c && c ≤ 'F')

def looksLikeCommitSha (r : Rope) : Bool :=
  7 ≤ r.lenBytes && r.lenBytes ≤ 64 && r.all isAsciiHexdigit

/-- The first word of a comment behind the source, on the same line. -/
def trailingCommentTag (rope : Rope) (afterQuoteByte : ℕ) : Outcome Empty (Option Rope) :=
  if rope.lenBytes < afterQuoteByte then .ok none else do
    let lineStarts := rope.ropeStarts
    let bounds := Rope.lineByteRange lineStarts (Rope.lineOf lineStarts afterQuoteByte) rope.lenBytes
    let line := rope.byteSlice bounds.1 bounds.2
    let tail ← line.slice (min (afterQuoteByte - bounds.1) line.lenBytes) line.lenBytes
    match (find "//".toList tail).or (find ['#'] tail) with
    | none => return none
    | some marker =>
      let after := ((tail.drop marker).dropWhile (· = '#')).dropWhile (· = '/')
      return (splitWhitespace after).head?

end sources

/-- What a rule asks the version caches for. -/
inductive ConstraintSource
  | terraformCli
  | provider (ns name : Rope)
  | module (ns name system : Rope)
  deriving DecidableEq

/-- What the caches are keyed by. -/
inductive WarmTarget
  | terraformCli
  | provider (ns name : Rope)
  | module (ns name system : Rope)
  | gitRepo (url : Rope)
  deriving DecidableEq

def ConstraintSource.key : ConstraintSource → WarmTarget
  | .terraformCli => .terraformCli
  | .provider ns name => .provider ns name
  | .module ns name system => .module ns name system

section lookups

variable {ι : Type}

/-- The items that a rule looks up, with the keys, up to its first panic. -/
def lookups (probe : ι → Outcome Empty (Option WarmTarget)) : List ι → List (ι × WarmTarget)
  | [] => []
  | item::items =>
    match probe item with
    | .ok none => lookups probe items
    | .ok (some key) => (item,key) :: lookups probe items
    | _ => []

theorem mem_lookups {probe : ι → Outcome Empty (Option WarmTarget)} {items : List ι}
    {item : ι} {key : WarmTarget} (h : (item,key) ∈ lookups probe items) :
    item ∈ items ∧ probe item = .ok (some key) := by
  induction items with
  | nil => cases h
  | cons first items ih =>
    rw [lookups] at h
    split at h
    · exact ⟨List.mem_cons_of_mem _ (ih h).1,(ih h).2⟩
    · rename_i firstKey hfirst
      rcases List.mem_cons.mp h with heq | h
      · cases heq
        exact ⟨List.mem_cons_self,hfirst⟩
      · exact ⟨List.mem_cons_of_mem _ (ih h).1,(ih h).2⟩
    · cases h

end lookups

section constraints

/-- A constraint text with the block it is written in, and what it is compared with. -/
structure Check where
  span : Span
  block : Body
  source : Option ConstraintSource

def readSlice (rope : Rope) (span : Span) : Outcome Empty Rope :=
  if rope.lenBytes < span.2 ∨ span.2 < span.1 then .ok [] else rope.slice span.1 span.2

/-- The cache is asked when the text between the quotes has no errors in it. Without
a source only the syntax is checked. -/
def validateConstraintString (rope : Rope) (check : Check) : Outcome Empty (Option WarmTarget) :=
  if check.span.2 ≤ check.span.1 + 2 then .ok none else do
    let inner ← readSlice rope (check.span.1 + 1,check.span.2 - 1)
    let parsed ← parse inner
    if parsed.errors ≠ [] ∨ parsed.constraints = [] then return none
    else return check.source.map ConstraintSource.key

/-- The text and the place of a value that has both. -/
def placed (value : Value) : Option (String × Span) := do
  let text ← stringExpression value
  let span ← value.span
  return (text,span)

/-- The last `source` counts, and the last `version` with a text. -/
def requiredProvider (body : Body) (entries : List (ObjectKey × Value)) : List Check :=
  let source := ((entriesOf "source" entries).getLast?.bind stringExpression).bind parseProviderSource
  let version := ((entriesOf "version" entries).filterMap placed).getLast?
  match source,version with
  | some (ns,name),some (_,span) => [⟨span,body,some (.provider ns name)⟩]
  | _,_ => []

def walkRequiredProviders (body : Body) : List Check :=
  (body.filterMap Structure.asAttribute).flatMap fun a =>
    match a.2 with
    | .object _ entries => requiredProvider body entries
    | _ => []

def walkTerraform (body : Body) : List Check :=
  body.flatMap fun item =>
    match item with
    | .attribute key value =>
      if key = "required_version" then
        ((placed value).map fun p => (⟨p.2,body,some .terraformCli⟩ : Check)).toList
      else []
    | .block ident nested => if ident = "required_providers" then walkRequiredProviders nested else []

/-- The last `source` with a text. -/
def moduleSource (body : Body) : Option String :=
  ((valuesOf "source" body).filterMap stringExpression).getLast?

def walkModule (body : Body) : List Check :=
  match ((valuesOf "version" body).filterMap placed).getLast? with
  | none => []
  | some (_,span) =>
    let source := (moduleSource body).bind parseModuleSourceParts
    [⟨span,body,source.map fun s => .module s.1 s.2.1 s.2.2⟩]

def constraintChecks (body : Body) : List Check :=
  (body.filterMap Structure.asBlock).flatMap fun b =>
    if b.1 = "terraform" then walkTerraform b.2
    else if b.1 = "module" then walkModule b.2 else []

/-- The lookups of `constraint_diagnostics`. -/
def constraintLookups (rope : Rope) (body : Body) : List (Check × WarmTarget) :=
  lookups (validateConstraintString rope) (constraintChecks body)

end constraints

section repositories

/-- A `source` of a module block that is a plain string. -/
structure SourceAttribute where
  block : Body
  text : String
  span : Option Span

def sourceAttributes (body : Body) : List SourceAttribute :=
  (blocksOf "module" body).flatMap fun block =>
    (valuesOf "source" block).filterMap fun value =>
      match value with
      | .string span text => some ⟨block,text,span⟩
      | _ => none

/-- `read_cached_repo_tags` reads the file of the normalised URL. -/
def repoKey (text : String) : Option WarmTarget := (normalizeGitUrl text).map .gitRepo

/-- The tags are asked for when the source is pinned to a tag, or to a commit with
a tag in a comment. -/
def outdatedProbe (rope : Rope) (a : SourceAttribute) : Outcome Empty (Option WarmTarget) :=
  if !isGitSource a.text then .ok none else
    match a.span,extractRef a.text.toList with
    | some span,some ref =>
      if looksLikeCommitSha ref then do
        let tag ← trailingCommentTag rope span.2
        return tag.bind fun _ => repoKey a.text
      else .ok (repoKey a.text)
    | _,_ => .ok none

def moduleOutdatedLookups (rope : Rope) (body : Body) : List (SourceAttribute × WarmTarget) :=
  lookups (outdatedProbe rope) (sourceAttributes body)

/-- Only commits with a tag in a comment can mismatch. -/
def mismatchProbe (rope : Rope) (a : SourceAttribute) : Outcome Empty (Option WarmTarget) :=
  if !isGitSource a.text then .ok none else
    match extractRef a.text.toList,a.span with
    | some pinned,some span =>
      if looksLikeCommitSha pinned then do
        let tag ← trailingCommentTag rope span.2
        return tag.bind fun _ => repoKey a.text
      else .ok none
    | _,_ => .ok none

def moduleRefTagMismatchLookups (rope : Rope) (body : Body) :
    List (SourceAttribute × WarmTarget) :=
  lookups (mismatchProbe rope) (sourceAttributes body)

end repositories
end CacheLookups
end TerraformLs
