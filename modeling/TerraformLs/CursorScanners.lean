import TerraformLs.ByteText
import TerraformLs.CacheKeys
import TerraformLs.TextFrames

/-! What the text before the cursor says of the blocks around it. The scanners walk over
bytes and slice at the offsets where they stop. -/
namespace TerraformLs
namespace Completion

open Outcome Loops Rope Recovery GitRefs

/-- One level of a path of nested blocks. -/
structure BlockStep where
  keyword : String
  label : Option String
  deriving DecidableEq

inductive IndexRootRef
  | resource (resourceType name : String)
  | dataSource (resourceType name : String)
  | «module» (moduleName : String)
  | «variable» (name : String)
  | «local» (name : String)
  deriving DecidableEq

inductive PathStep
  | bracket (key : String)
  | attr (name : String)
  deriving DecidableEq

/-- What is likely typed at the cursor. -/
inductive CompletionContext
  | topLevel
  | resourceType
  | dataSourceType
  | resourceBody (resourceType : String)
  | dataSourceBody (resourceType : String)
  | moduleBody (name : String)
  | terraformBlockBody
  | variableBlockBody (name : String)
  | outputBlockBody (name : String)
  | localsBlockBody
  | importBlockBody
  | movedBlockBody
  | removedBlockBody
  | checkBlockBody
  | providerBlockBody (name : String)
  | requiredProvidersBody
  | requiredProvidersEntryBody
  | requiredProviderSourceValue
  | requiredProviderVersionValue (source : Option String) (cursorPartial : String)
  | requiredVersionValue (cursorPartial : String)
  | variableTypeValue
  | moduleVersionValue (source : Option String) (cursorPartial : String)
  | moduleAttr (moduleName : String)
  | variableRef
  | localRef
  | moduleRef
  | eachRef
  | countRef
  | pathRef
  | terraformNamespaceRef
  | selfRef (resourceType : String)
  | variableAttrRef (path : List String)
  | resourceRef (resourceType : String)
  | resourceAttr (resourceType name : String)
  | dataSourceRef (resourceType : String)
  | dataSourceAttr (resourceType name : String)
  | indexKeyRef (root : IndexRootRef) (path : List PathStep)
  | attributeValue (resourceType attrName : String)
  | functionCall
  | ignoreChangesList (resourceType : String)
  | dependsOnList
  | eachAttr (path : List String)
  | forBindingRef (root : IndexRootRef) (path : List String)
  | expressionRoot
  | providerFunctionNamespace
  | providerFunctionName (providerLocal : String)
  | builtinNestedBody (path : List BlockStep)
  | unknown
  deriving DecidableEq

def trimStart (s : Rope) : Rope := s.dropWhile isWhitespace

def trimEnd (s : Rope) : Rope := s.rdropWhile isWhitespace

/-- `str::split_once(char::is_whitespace)`. -/
def splitOnceBlank (s : Rope) : Option (Rope × Rope) :=
  match s.dropWhile fun c => !isWhitespace c with
  | [] => none
  | _::rest => some (s.takeWhile fun c => !isWhitespace c,rest)

/-- The first piece of `str::split_whitespace`. -/
def firstToken (s : Rope) : Option Rope :=
  match (trimStart s).takeWhile fun c => !isWhitespace c with
  | [] => none
  | token => some token

/-- The text after the last line feed. -/
def lastLine (header : Rope) : Scan Rope :=
  sliceFrom header (match rfindBytes "\n" header with
    | some i => i + 1
    | none => 0)

def firstQuotedString (s : Rope) : Scan (Option String) :=
  match findBytes "\"" s with
  | none => return none
  | some first => do
    let rest ← sliceFrom s (first+1)
    match findBytes "\"" rest with
    | none => return none
    | some stop => do
      let quoted ← sliceTo rest stop
      return some (String.ofList quoted)

section walk

variable {σ α : Type} (bs : List UInt8) (skip : ℕ → Scan Bool) (act : ℕ → σ → Scan (σ ⊕ Option α))

/-- Walk back over the bytes before an offset to the braces that are not closed there. -/
def walkBack : ℕ → ℕ → σ → Scan (Option α)
  | 0, _, _ => return none
  | i+1, depth, s => do
    let skipped ← skip i
    if skipped then walkBack i depth s
    else do
      let b ← index bs i
      if b = byte '}' then walkBack i (depth+1) s
      else if b = byte '{' then
        if depth = 0 then do
          match ← act i s with
          | .inl s' => walkBack i 0 s'
          | .inr a => return a
        else walkBack i (depth-1) s
      else walkBack i depth s

end walk

def skipNone (_ : ℕ) : Scan Bool := return false

/-- A header that is a keyword alone. -/
def bareHeader : String → Option CompletionContext
  | "terraform" => some .terraformBlockBody
  | "locals" => some .localsBlockBody
  | "required_providers" => some .requiredProvidersBody
  | "import" => some .importBlockBody
  | "moved" => some .movedBlockBody
  | "removed" => some .removedBlockBody
  | _ => none

def labelledHeader : String → Option String → Option CompletionContext
  | "resource", some typeName => some (.resourceBody typeName)
  | "data", some typeName => some (.dataSourceBody typeName)
  | "module", some name => some (.moduleBody name)
  | "variable", some name => some (.variableBlockBody name)
  | "output", some name => some (.outputBlockBody name)
  | "provider", some name => some (.providerBlockBody name)
  | "check", some _ => some .checkBlockBody
  | _, _ => none

def classifyBlockHeader (headerSource : Rope) : Scan (Option CompletionContext) := do
  let line ← lastLine headerSource
  let line := trim line
  let bare := line.rdropWhile fun c => isWhitespace c || c = '{'
  match bareHeader (String.ofList bare) with
  | some ctx => return some ctx
  | none =>
    match splitOnceBlank line with
    | none => return none
    | some (keyword,rest) => do
      let firstLabel ← firstQuotedString rest
      return labelledHeader (String.ofList keyword) firstLabel

section headers

variable (C : CharClass)

def isIdent (c : Char) : Bool := C.isAlphanumeric c || c = '_'

/-- A character of an identifier after its first. -/
def isWord (c : Char) : Bool := C.isAlphanumeric c || c = '_' || c = '-'

def parseBlockOpener (header : Rope) : Scan (Option BlockStep) := do
  let line ← lastLine header
  let line := trimEnd ((trim line).rdropWhile (· = '{'))
  match firstToken line with
  | none => return none
  | some token =>
    if !token.all (isWord C) then return none
    else do
      let rest ← sliceFrom line (lenBytes token)
      let label ← firstQuotedString rest
      return some ⟨String.ofList token,label⟩

def isObjectLiteralOpener (headerSource : Rope) : Scan Bool := do
  let line ← lastLine headerSource
  return (stripSuffix "=" (trimEnd line)).isSome

/-- An `=` or a `(` stands outside of the quotes. -/
def opensExpression : Bool → Rope → Bool
  | _, [] => false
  | inQuote, c::s =>
    if c = '"' then opensExpression (!inQuote) s
    else if !inQuote && (c = '=' || c = '(') then true
    else opensExpression inQuote s

def isNestedBlockOpener (headerSource : Rope) : Scan Bool := do
  let line ← lastLine headerSource
  let line := trim line
  return if line = [] then false
    else if opensExpression false line then false
    else match firstToken line with
      | none => false
      | some first => first.all (isWord C)

/-- Blocks whose bodies are described by the schema of a provider. -/
def isProviderSchemaRoot : CompletionContext → Bool
  | .resourceBody _ | .dataSourceBody _ | .providerBlockBody _ => true
  | _ => false

/-- What an open brace says of the cursor, given the blocks nested in it. -/
def openerContext (enclosing : Rope → Scan (Option CompletionContext)) (before : Rope) (i : ℕ)
    (pathReversed : List BlockStep) : Scan (List BlockStep ⊕ Option CompletionContext) := do
  let header ← sliceTo before i
  match ← classifyBlockHeader header with
  | some topCtx =>
    if pathReversed = [] then return .inr (some topCtx)
    else if isProviderSchemaRoot topCtx ∧ ((pathReversed.getLast?.map BlockStep.keyword).getD "") ∉
        ["lifecycle","connection","provisioner"] then return .inr (some topCtx)
    else do
      match ← parseBlockOpener C header with
      | none => return .inr (some topCtx)
      | some rootStep => return .inr (some (.builtinNestedBody (rootStep :: pathReversed.reverse)))
  | none => do
    let object ← isObjectLiteralOpener header
    if object then do
      match ← enclosing header with
      | some .requiredProvidersBody => return .inr (some .requiredProvidersEntryBody)
      | _ => return .inr none
    else do
      let nested ← isNestedBlockOpener C header
      if !nested then return .inr none
      else do
        match ← parseBlockOpener C header with
        | some step => return .inl (pathReversed ++ [step])
        | none => return .inl pathReversed

/-- The header of an object literal is classified in turn. -/
def enclosingFrom : ℕ → Rope → Scan (Option CompletionContext)
  | 0, _ => .err .unfinished
  | fuel+1, before => do
    let ignored ← ignoredBracePositions (bytes before)
    walkBack (bytes before) (index ignored) (openerContext C (enclosingFrom fuel) before)
      (lenBytes before) 0 []

def enclosingBlockContext (before : Rope) : Scan (Option CompletionContext) :=
  enclosingFrom C (lenBytes before + 1) before

def enclosingResourceType (before : Rope) : Scan (Option String) := do
  match ← enclosingBlockContext C before with
  | some (.resourceBody resourceType) => return some resourceType
  | some (.builtinNestedBody (step::_)) =>
    return if step.keyword = "resource" then step.label else none
  | _ => return none

end headers

/-- The keyword and type of the resource or data block that an open brace opens. -/
def ownerHeader (before : Rope) (i : ℕ) (_ : Unit) :
    Scan (Unit ⊕ Option (String × String)) := do
  let header ← sliceTo before i
  let line ← lastLine header
  match splitOnceBlank (trim line) with
  | none => return .inl ()
  | some (keyword,rest) =>
    if (String.ofList keyword = "resource" ∨ String.ofList keyword = "data") ∧ rest ≠ [] then do
      match ← firstQuotedString rest with
      | some typeName => return .inr (some (String.ofList keyword,typeName))
      | none => return .inl ()
    else return .inl ()

def classifyBlockHeaderFrom (before : Rope) : Scan (Option (String × String)) :=
  walkBack (bytes before) skipNone (ownerHeader before) (lenBytes before) 0 ()

def variableOpener (before : Rope) (i : ℕ) (_ : Unit) : Scan (Unit ⊕ Option ℕ) := do
  let header ← sliceTo before i
  match ← classifyBlockHeader header with
  | some (.variableBlockBody _) => return .inr (some i)
  | some _ => return .inr none
  | none => return .inl ()

def findVariableBlockOpen (before : Rope) : Scan (Option ℕ) :=
  walkBack (bytes before) skipNone (variableOpener before) (lenBytes before) 0 ()

/-! The scanners slice at delimiters of one byte, and walk towards an end of the text. -/

section safety

theorem size_of_ascii {c : Char} (h : c.toNat < 128) : c.utf8Size = 1 := by
  rw [Char.utf8Size_eq_one_iff,UInt32.le_iff_toNat_le]
  exact Nat.le_of_lt_succ h

theorem lastLine_ends (header : Rope) : (lastLine header).Ends := by
  rw [lastLine]
  split
  · rename_i i hi
    exact (sliceFrom_safe ((rfindBytes_occurs hi).seam_succ (size_of_ascii (by decide)))).ends
  · exact (sliceFrom_safe (seam_zero header)).ends

theorem firstQuotedString_ends (s : Rope) : (firstQuotedString s).Ends := by
  rw [firstQuotedString]
  split
  · exact ends_ok _
  · rename_i first hfirst
    have hafter := (findBytes_occurs hfirst).seam_succ (size_of_ascii (by decide))
    refine (sliceFrom_safe hafter).bind_ends fun rest _ => ?_
    split
    · exact ends_ok _
    · rename_i stop hstop
      exact (sliceTo_safe (findBytes_occurs hstop).seam).bind_ends fun _ _ => ends_ok _

theorem lt_of_getElem? {bs : List UInt8} {i : ℕ} {b : UInt8} (h : bs[i]? = some b) :
    i < bs.length := (List.getElem?_eq_some_iff.mp h).1

/-- The walk ends at the start of the text, or where an open brace answers. -/
theorem walkBack_safe {σ α : Type} {bs : List UInt8} {skip : ℕ → Scan Bool}
    {act : ℕ → σ → Scan (σ ⊕ Option α)} {Q : α → Prop} {i : ℕ} (hi : i ≤ bs.length)
    (hskip : ∀ k, k < i → (skip k).Ends)
    (hact : ∀ k s, k < i → bs[k]? = some (byte '{') →
      (act k s).Safe fun r => ∀ a, r = .inr (some a) → Q a) (depth : ℕ) (s : σ) :
    (walkBack bs skip act i depth s).Safe fun r => ∀ a, r = some a → Q a := by
  induction i generalizing depth s with
  | zero => exact safe_ok nofun
  | succ i ih =>
    have hrest : ∀ depth s, (walkBack bs skip act i depth s).Safe fun r => ∀ a, r = some a → Q a :=
      ih (by omega) (fun k hk => hskip k (by omega)) fun k s hk => hact k s (by omega)
    rw [walkBack]
    refine (hskip i (Nat.lt_succ_self i)).safe.bind fun skipped _ => ?_
    split
    · exact hrest depth s
    refine (index_safe hi).bind fun b hb => ?_
    split
    · exact hrest _ s
    split
    · rename_i hopen
      split
      · rw [hopen] at hb
        refine (hact i s (Nat.lt_succ_self i) hb).bind fun r hr => ?_
        split
        · exact hrest 0 _
        · rename_i a
          exact safe_ok fun x hx => hr x (by rw [hx])
      · exact hrest _ s
    · exact hrest depth s

theorem walkBack_ends {σ α : Type} {bs : List UInt8} {skip : ℕ → Scan Bool}
    {act : ℕ → σ → Scan (σ ⊕ Option α)} {i : ℕ} (hi : i ≤ bs.length)
    (hskip : ∀ k, k < i → (skip k).Ends)
    (hact : ∀ k s, k < i → bs[k]? = some (byte '{') → (act k s).Ends) (depth : ℕ) (s : σ) :
    (walkBack bs skip act i depth s).Ends :=
  (walkBack_safe (Q:=fun _ => True) hi hskip
    (fun k s hk hb => (hact k s hk hb).safe.imp fun _ _ _ _ => trivial) depth s).ends

theorem skipNone_ends (i : ℕ) : (skipNone i).Ends := ends_ok false

theorem classifyBlockHeader_ends (header : Rope) : (classifyBlockHeader header).Ends := by
  rw [classifyBlockHeader]
  refine (lastLine_ends header).bind fun line _ => ?_
  simp only
  split
  · exact ends_ok _
  · split
    · exact ends_ok _
    · exact (firstQuotedString_ends _).bind fun _ _ => ends_ok _

theorem firstToken_prefix {line token : Rope} (h : firstToken (trimStart line) = some token) :
    token <+: trimStart line := by
  have hidem : trimStart (trimStart line) = trimStart line := List.dropWhile_idempotent _ _
  rw [firstToken,hidem] at h
  split at h
  · cases h
  · cases h
    exact List.takeWhile_prefix _

/-- What is cut off at the end leaves no white space at the front. -/
theorem trimStart_cut {line s : Rope} (h : line <+: trimStart s) : trimStart line = line := by
  cases line with
  | nil => rfl
  | cons c line =>
    obtain ⟨rest,hrest⟩ := h
    have hhead := List.head?_dropWhile_not isWhitespace s
    rw [← trimStart,← hrest,List.cons_append,List.head?_cons] at hhead
    exact List.dropWhile_cons_of_neg (by simpa using hhead)

variable (C : CharClass)

theorem parseBlockOpener_ends (header : Rope) : (parseBlockOpener C header).Ends := by
  rw [parseBlockOpener]
  refine (lastLine_ends header).bind fun line _ => ?_
  have hfront : trimEnd ((trim line).rdropWhile (· = '{')) <+: trimStart line :=
    (List.rdropWhile_prefix _ _).trans
      ((List.rdropWhile_prefix _ _).trans (List.rdropWhile_prefix _ _))
  generalize hcut : trimEnd ((trim line).rdropWhile (· = '{')) = cut at hfront
  simp only
  split
  · exact ends_ok _
  · rename_i token htoken
    split
    · exact ends_ok _
    · rw [← trimStart_cut hfront] at htoken
      have hprefix := firstToken_prefix htoken
      rw [trimStart_cut hfront] at hprefix
      obtain ⟨rest,hrest⟩ := hprefix
      have hseam : Seam cut (lenBytes token) := ⟨token,rest,hrest.symm,rfl⟩
      refine (sliceFrom_safe hseam).bind_ends fun rest _ => ?_
      exact (firstQuotedString_ends rest).bind fun _ _ => ends_ok _

theorem isObjectLiteralOpener_ends (header : Rope) : (isObjectLiteralOpener header).Ends :=
  (lastLine_ends header).bind fun _ _ => ends_ok _

theorem isNestedBlockOpener_ends (header : Rope) : (isNestedBlockOpener C header).Ends :=
  (lastLine_ends header).bind fun _ _ => ends_ok _

variable {C} {before : Rope} {i : ℕ}

theorem openerContext_ends {enclosing : Rope → Scan (Option CompletionContext)}
    (hi : (bytes before)[i]? = some (byte '{'))
    (henclosing : ∀ header, lenBytes header < lenBytes before → (enclosing header).Ends)
    (pathReversed : List BlockStep) : (openerContext C enclosing before i pathReversed).Ends := by
  have hlt := lt_of_getElem? hi
  rw [length_bytes] at hlt
  rw [openerContext]
  refine (sliceTo_safe (seam_ascii hi (by decide)).1).bind_ends fun header hheader => ?_
  refine (classifyBlockHeader_ends header).bind fun top _ => ?_
  split
  · split
    · exact ends_ok _
    split
    · exact ends_ok _
    refine (parseBlockOpener_ends C header).bind fun step _ => ?_
    split <;> exact ends_ok _
  · refine (isObjectLiteralOpener_ends header).bind fun object _ => ?_
    split
    · refine (henclosing header (by omega)).bind fun ctx _ => ?_
      split <;> exact ends_ok _
    · refine (isNestedBlockOpener_ends C header).bind fun nested _ => ?_
      split
      · exact ends_ok _
      refine (parseBlockOpener_ends C header).bind fun step _ => ?_
      split <;> exact ends_ok _

/-- A header is shorter than the text it opens, so the classification of headers ends. -/
theorem enclosingFrom_ends {fuel : ℕ} (h : lenBytes before < fuel) :
    (enclosingFrom C fuel before).Ends := by
  induction fuel generalizing before with
  | zero => omega
  | succ fuel ih =>
    rw [enclosingFrom]
    refine (ignoredBracePositions_safe (bytes before)).bind_ends fun ignored hignored => ?_
    have hlen := length_bytes before
    refine walkBack_ends hlen.ge (fun i hi => ?_) (fun i path _ hi => ?_) 0 []
    · exact (index_safe (by omega)).ends
    · exact openerContext_ends hi (fun header hlt => ih (by omega)) path

theorem enclosingBlockContext_ends (C : CharClass) (before : Rope) :
    (enclosingBlockContext C before).Ends := enclosingFrom_ends (Nat.lt_succ_self _)

theorem enclosingResourceType_ends (C : CharClass) (before : Rope) :
    (enclosingResourceType C before).Ends := by
  refine (enclosingBlockContext_ends C before).bind fun ctx _ => ?_
  split <;> exact ends_ok _

theorem classifyBlockHeaderFrom_ends (before : Rope) : (classifyBlockHeaderFrom before).Ends := by
  refine walkBack_ends (length_bytes before).ge (fun i _ => skipNone_ends i) (fun i _ _ hi => ?_) 0 ()
  rw [ownerHeader]
  refine (sliceTo_safe (seam_ascii hi (by decide)).1).bind_ends fun header _ => ?_
  refine (lastLine_ends header).bind fun line _ => ?_
  split
  · exact ends_ok _
  · split
    · refine (firstQuotedString_ends _).bind fun label _ => ?_
      split <;> exact ends_ok _
    · exact ends_ok _

theorem findVariableBlockOpen_safe (before : Rope) : (findVariableBlockOpen before).Safe
    fun r => ∀ k, r = some k → (bytes before)[k]? = some (byte '{') := by
  refine walkBack_safe (length_bytes before).ge (fun i _ => skipNone_ends i) (fun i _ _ hi => ?_) 0 ()
  rw [variableOpener]
  refine (sliceTo_safe (seam_ascii hi (by decide)).1).bind fun header _ => ?_
  refine (classifyBlockHeader_ends header).safe.bind fun ctx _ => ?_
  split
  · exact safe_ok fun k hk => by
      cases hk
      exact hi
  · exact safe_ok nofun
  · exact safe_ok nofun

end safety

end Completion
end TerraformLs
