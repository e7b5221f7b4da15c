import Mathlib.Data.List.MinMax
import TerraformLs.FileSystem
import TerraformLs.StateStore

/-! Renaming the symbol under the cursor. The edits are collected from the two
indexes of the workspace, one for each location filed under the key of the
symbol, and narrowed to the name by a search in the text of the location. -/
namespace TerraformLs

def SymbolLocation.range (loc : SymbolLocation) : Range :=
  ⟨⟨loc.startLine,loc.startCharacter⟩,⟨loc.endLine,loc.endCharacter⟩⟩

/-- Reading order. -/
def Position.atMost (a b : Position) : Bool :=
  a.line < b.line || a.line = b.line && a.character ≤ b.character

/-- Both ends count as inside. -/
def Range.contains (range : Range) (pos : Position) : Bool :=
  range.start.atMost pos && pos.atMost range.end

/-- Lines weigh more than any column. -/
def rangeLength (range : Range) : ℕ :=
  (range.end.line * 2 ^ 32 + range.end.character) -
    (range.start.line * 2 ^ 32 + range.start.character)

/-- The narrowest reference around a position, the first of those. -/
def referenceAtPosition (doc : DocumentState) (pos : Position) : Option Reference :=
  (doc.references.filter fun r => r.location.range.contains pos).argmin
    fun r => rangeLength r.location.range

namespace Rename

open StateStore

inductive CursorKind
  | reference | definition
  deriving DecidableEq

structure CursorTarget where
  key : SymbolKey
  location : SymbolLocation
  kind : CursorKind
  deriving DecidableEq

section cursor

variable {κ : Type} (key : κ → SymbolKey) (pos : Position)

def definitionAt (m : KeyedMap κ Symbol) : Option CursorTarget :=
  (m.entries.find? fun e => e.2.location.range.contains pos).map
    fun e => ⟨key e.1,e.2.location,.definition⟩

end cursor

open SymbolTable in
/-- A reference under the cursor goes before the definition around it. -/
def findSymbolAtCursor (doc : DocumentState) (pos : Position) : Option CursorTarget :=
  ((referenceAtPosition doc pos).map fun r => ⟨referenceKey r.kind,r.location,.reference⟩)
    |>.or (definitionAt (SymbolKey.mk .variable) pos doc.symbols.variables)
    |>.or (definitionAt (SymbolKey.mk .local) pos doc.symbols.locals)
    |>.or (definitionAt (SymbolKey.mk .output) pos doc.symbols.outputs)
    |>.or (definitionAt (SymbolKey.mk .module) pos doc.symbols.modules)
    |>.or (definitionAt (addressKey .resource) pos doc.symbols.resources)
    |>.or (definitionAt (addressKey .dataSource) pos doc.symbols.dataSources)

/-! Searches. The source searches bytes; a match of whole characters is the
same, and its offset is counted in bytes. -/

def isIdentChar (c : Char) : Bool := c.isAlphanum || c = '_'

def isValidIdentifier (name : String) : Bool :=
  match name.toList with
  | [] => false
  | c::cs => (c.isAlpha || c = '_') && cs.all fun c => isIdentChar c || c = '-'

/-- Whether the character at an index, if there is one, can be part of an identifier. -/
def identAt (text : Rope) (i : ℕ) : Bool := (text[i]?).any isIdentChar

/-- The index of the rightmost occurrence of a name as a whole word. -/
def rfindIdent (text name : Rope) : Option ℕ :=
  if name = [] then none else
    (List.range text.length).reverse.find? fun i =>
      name.isPrefixOf (text.drop i) && (i = 0 || !identAt text (i - 1)) &&
        !identAt text (i + name.length)

/-- The index of the first occurrence of a text. -/
def findText (text needle : Rope) : Option ℕ :=
  (List.range (text.length + 1)).find? fun i => needle.isPrefixOf (text.drop i)

def sliceRope (rope : Rope) (range : Range) : Option Rope :=
  match rope.lspPositionToByteOffset range.start,rope.lspPositionToByteOffset range.end with
  | .ok start,.ok stop =>
    if stop < start ∨ rope.lenBytes < stop then none else some (rope.byteSlice start stop)
  | _,_ => none

/-- The range of the bytes `relStart` to `relStop` of the text that starts where `outer` does. -/
def absoluteRange (rope : Rope) (outer : Range) (relStart relStop : ℕ) : Option Range :=
  match rope.lspPositionToByteOffset outer.start with
  | .ok base =>
    match rope.byteOffsetToLspPosition (base + relStart),
        rope.byteOffsetToLspPosition (base + relStop) with
    | .ok start,.ok stop => some ⟨start,stop⟩
    | _,_ => none
  | .error _ => none

/-- The last whole-word occurrence of the name in the range. -/
def narrowIdentifierRange (rope : Rope) (range : Range) (name : String) : Option Range := do
  let text ← sliceRope rope range
  let relStart := Rope.charToByte text (← rfindIdent text name.toList)
  absoluteRange rope range relStart (relStart + Rope.lenBytes name.toList)

/-- The first occurrence of the name in quotes in the range, without the quotes. -/
def narrowQuotedLabel (rope : Rope) (range : Range) (name : String) : Option Range := do
  let text ← sliceRope rope range
  let relStart := Rope.charToByte text (← findText text ('"' :: name.toList ++ ['"'])) + 1
  absoluteRange rope range relStart (relStart + Rope.lenBytes name.toList)

/-! Edits. -/

inductive EditKind
  | tail | label
  deriving DecidableEq

/-- The edits of a rename, for each document. -/
abbrev Edits := Multimap Url TextEdit

structure TextDocumentEdit where
  uri : Url
  version : Option ℤ
  edits : List TextEdit
  deriving DecidableEq

abbrev WorkspaceEdit := List TextDocumentEdit

def versionedWorkspaceEdit (s : StateStore) (edits : Edits) : WorkspaceEdit :=
  edits.entries.map fun e => ⟨e.1,(s.documents.lookup e.1).map DocumentState.version,e.2⟩

/-- Where the name stands in a location, which is that of a label or of a reference. -/
def narrow (s : StateStore) (kind : EditKind) (loc : SymbolLocation) (oldName : String) :
    Option Range :=
  s.documents.lookup loc.uri >>= fun doc =>
    match kind with
    | .tail => narrowIdentifierRange doc.rope loc.range oldName
    | .label => narrowQuotedLabel doc.rope loc.range oldName

def pushNarrowEdit (s : StateStore) (oldName newName : String) (kind : EditKind) (edits : Edits)
    (loc : SymbolLocation) : Edits :=
  match narrow s kind loc oldName with
  | some range => edits.push (loc.uri,⟨range,newName⟩)
  | none => edits


/-! The alias of a provider, in `provider::alias::function(...)`. -/

/-- The identifier around an offset, with its bytes, if `provider::` stands in front of it. -/
def localSpanAt (text : Rope) (offset : ℕ) : Option (ℕ × ℕ × String) :=
  let i := text.byteToChar offset
  let before := (text.take i).reverse.takeWhile isIdentChar
  let after := (text.drop i).takeWhile isIdentChar
  let start := i - before.length
  let prefixed := "provider::".toList.isSuffixOf (text.take start)
  if before ++ after = [] ∨ prefixed = false ∨ 10 < start ∧ identAt text (start - 11) then none
  else some (text.charToByte start,text.charToByte (i + after.length),
    String.ofList (before.reverse ++ after))

/-- The spans of the keys of a name in the `required_providers` blocks of a body. -/
def requiredProviderKeys (body : Body) (name : String) : List (Option (ℕ × ℕ)) :=
  body.flatMap fun item => match item with
  | .block "terraform" _ inner => inner.flatMap fun item => match item with
    | .block "required_providers" _ entries => entries.filterMap fun entry => match entry with
      | .attribute key span _ => if key = name then some span else none
      | .block _ _ _ => none
    | _ => []
  | _ => []

def requiredProvidersKeyRange (body : Body) (rope : Rope) (name : String) : Option Range := do
  let span ← (requiredProviderKeys body name).head?
  (rope.hclSpanToLspRange (← span)).toOption

def pushKeyEdit (oldLocal newName : String) (edits : Edits) (uri : Url) (doc : DocumentState) :
    Edits :=
  match doc.parsed.body >>= fun body => requiredProvidersKeyRange body doc.rope oldLocal with
  | some range => edits.push (uri,⟨range,newName⟩)
  | none => edits

/-- The document itself, then the others of its directory. -/
def pushRequiredProvidersAttrEdits (fs : FileSystem) (s : StateStore) (uri : Url)
    (oldLocal newName : String) (edits : Edits) : Edits :=
  let edits := match s.documents.lookup uri with
    | some doc => pushKeyEdit oldLocal newName edits uri doc
    | none => edits
  match fs.parentDir uri with
  | none => edits
  | some targetDir => s.documents.entries.foldl (fun edits e =>
      if e.1 = uri ∨ fs.parentDir e.1 ≠ some targetDir then edits
      else pushKeyEdit oldLocal newName edits e.1 e.2) edits

/-- The byte offsets at which a needle occurs as a call. After an occurrence the
search goes on behind it: `skip` counts the characters still to be passed over,
`prev` is the character in front. -/
def callSites (needle : Rope) : Rope → ℕ → ℕ → Option Char → List ℕ
  | [], _, _, _ => []
  | c::cs, pos, skip+1, _ => callSites needle cs (pos + c.utf8Size) skip (some c)
  | c::cs, pos, 0, prev =>
    if needle.isPrefixOf (c :: cs) then
      let starts := !prev.any fun p => isIdentChar p || p = ':'
      let called := (((c :: cs).drop needle.length).head?).any fun n => n.isAlpha || n = '_'
      let rest := callSites needle cs (pos + c.utf8Size) (needle.length - 1) (some c)
      if starts && called then pos :: rest else rest
    else callSites needle cs (pos + c.utf8Size) 0 (some c)

def pushCallSiteEdits (oldLocal newName : String) (edits : Edits) (uri : Url)
    (doc : DocumentState) : Edits :=
  let needle := "provider::".toList ++ oldLocal.toList ++ "::".toList
  (callSites needle doc.rope 0 0 none).foldl (fun edits pos =>
    let start := pos + Rope.lenBytes "provider::".toList
    match doc.rope.hclSpanToLspRange (start,start + Rope.lenBytes oldLocal.toList) with
    | .ok range => edits.push (uri,⟨range,newName⟩)
    | .error _ => edits) edits

/-- Rename the alias under the cursor: its key in the module, its calls everywhere. -/
def renameProviderLocal (fs : FileSystem) (s : StateStore) (uri : Url) (doc : DocumentState)
    (pos : Position) (newName : String) : Option WorkspaceEdit := do
  let offset ← (doc.rope.lspPositionToByteOffset pos).toOption
  let (_,_,oldLocal) ← localSpanAt doc.rope offset
  let edits := s.documents.entries.foldl
    (fun edits e => pushCallSiteEdits oldLocal newName edits e.1 e.2)
    (pushRequiredProvidersAttrEdits fs s uri oldLocal newName ∅)
  if edits.entries.isEmpty then none else some (versionedWorkspaceEdit s edits)

/-! The request. -/

def invalidName (newName : String) : String :=
  "`" ++ newName ++ "` is not a valid Terraform identifier (must start with a " ++
    "letter or underscore and contain only letters, digits, `_` or `-`)"

/-- The edits of every location filed under a key, definitions first. -/
def symbolEdits (s : StateStore) (key : SymbolKey) (newName : String) : Edits :=
  let edits := (s.definitionsByName.filed key).foldl (pushNarrowEdit s key.name newName .label) ∅
  (s.referencesByName.filed key).foldl (pushNarrowEdit s key.name newName .tail) edits

def rename (fs : FileSystem) (s : StateStore) (uri : Url) (pos : Position) (newName : String) :
    Except String (Option WorkspaceEdit) :=
  if !isValidIdentifier newName then .error (invalidName newName) else
    match s.documents.lookup uri with
    | none => .ok none
    | some doc =>
      match renameProviderLocal fs s uri doc pos newName with
      | some edit => .ok (some edit)
      | none =>
        match findSymbolAtCursor doc pos with
        | none => .ok none
        | some target =>
          let edits := symbolEdits s target.key newName
          .ok (if edits.entries.isEmpty then none else some (versionedWorkspaceEdit s edits))


/-! Which documents a rename edits. -/

/-- The cursor is on a symbol filed under `key`, in a document of the module
`dir`, and on no alias of a provider. -/
structure OnSymbol (fs : FileSystem) (s : StateStore) (uri : Url) (pos : Position) (dir : Path)
    (key : SymbolKey) : Prop where
  dir_eq : fs.parentDir uri = some dir
  target : ∃ doc target, s.documents.lookup uri = some doc ∧
    findSymbolAtCursor doc pos = some target ∧ target.key = key ∧
    ∀ newName, renameProviderLocal fs s uri doc pos newName = none

/-- A location under the key in which a search of the rename finds the name: in
quotes in a definition, as a word in a reference. -/
def Finds (s : StateStore) (key : SymbolKey) (loc : SymbolLocation) : Prop :=
  (loc ∈ s.definitionsByName.filed key ∧ (narrow s .label loc key.name).isSome) ∨
    (loc ∈ s.referencesByName.filed key ∧ (narrow s .tail loc key.name).isSome)

theorem mem_push {edits : Edits} {uri u : Url} {edit : TextEdit} :
    u ∈ edits.push (uri,edit) ↔ u ∈ edits ∨ u = uri := by
  simp [Multimap.push,or_comm]

theorem mem_pushNarrowEdit {s : StateStore} {oldName newName : String} {kind : EditKind}
    {edits : Edits} {loc : SymbolLocation} {u : Url} :
    u ∈ pushNarrowEdit s oldName newName kind edits loc ↔
      u ∈ edits ∨ u = loc.uri ∧ (narrow s kind loc oldName).isSome := by
  unfold pushNarrowEdit
  cases h : narrow s kind loc oldName with
  | none => simp
  | some range => simp [mem_push]

theorem mem_foldl_pushNarrowEdit {s : StateStore} {oldName newName : String} {kind : EditKind}
    {edits : Edits} {locs : List SymbolLocation} {u : Url} :
    u ∈ locs.foldl (pushNarrowEdit s oldName newName kind) edits ↔
      u ∈ edits ∨ ∃ loc ∈ locs, u = loc.uri ∧ (narrow s kind loc oldName).isSome := by
  induction locs generalizing edits with
  | nil => simp
  | cons loc locs ih => rw [List.foldl_cons,ih,mem_pushNarrowEdit]; simp [or_assoc]

/-- The documents edited are those of the locations in which the name is found. -/
theorem mem_symbolEdits {s : StateStore} {key : SymbolKey} (newName : String) {u : Url} :
    u ∈ symbolEdits s key newName ↔ ∃ loc, Finds s key loc ∧ u = loc.uri := by
  unfold symbolEdits
  rw [mem_foldl_pushNarrowEdit,mem_foldl_pushNarrowEdit]
  constructor
  · rintro ((h | ⟨loc,hloc,hu,hn⟩) | ⟨loc,hloc,hu,hn⟩)
    · exact absurd h (AList.notMem_empty u)
    · exact ⟨loc,.inl ⟨hloc,hn⟩,hu⟩
    · exact ⟨loc,.inr ⟨hloc,hn⟩,hu⟩
  · rintro ⟨loc,⟨hloc,hn⟩ | ⟨hloc,hn⟩,hu⟩
    · exact .inl (.inr ⟨loc,hloc,hu,hn⟩)
    · exact .inr ⟨loc,hloc,hu,hn⟩

theorem mem_versionedWorkspaceEdit {s : StateStore} {edits : Edits} {u : Url} :
    (∃ e ∈ versionedWorkspaceEdit s edits, e.uri = u) ↔ u ∈ edits := by
  simp [versionedWorkspaceEdit,AList.mem_keys,AList.keys,List.keys]

/-- A request on a symbol with a valid name. -/
theorem rename_onSymbol {fs : FileSystem} {s : StateStore} {uri : Url} {pos : Position}
    {dir : Path} {key : SymbolKey} (h : OnSymbol fs s uri pos dir key) {newName : String}
    (hvalid : isValidIdentifier newName) :
    rename fs s uri pos newName = .ok (if (symbolEdits s key newName).entries.isEmpty then none
      else some (versionedWorkspaceEdit s (symbolEdits s key newName))) := by
  obtain ⟨doc,target,hdoc,htarget,rfl,hlocal⟩ := h.target
  simp [rename,hvalid,hdoc,hlocal newName,htarget]

theorem isValidIdentifier_of_rename {fs : FileSystem} {s : StateStore} {uri : Url}
    {pos : Position} {newName : String} {edit : Option WorkspaceEdit}
    (h : rename fs s uri pos newName = .ok edit) : isValidIdentifier newName := by
  by_cases hvalid : isValidIdentifier newName
  · exact hvalid
  · simp [rename,hvalid] at h

/-- Whatever the new name, the documents edited are those in which the name is found. -/
theorem edited_iff {fs : FileSystem} {s : StateStore} {uri : Url} {pos : Position} {dir : Path}
    {key : SymbolKey} (h : OnSymbol fs s uri pos dir key) {newName : String}
    (hvalid : isValidIdentifier newName) (u : Url) :
    (∃ edit, rename fs s uri pos newName = .ok (some edit) ∧ ∃ e ∈ edit, e.uri = u) ↔
      ∃ loc, Finds s key loc ∧ u = loc.uri := by
  rw [rename_onSymbol h hvalid,← mem_symbolEdits newName]
  by_cases hempty : (symbolEdits s key newName).entries.isEmpty
  · have hnil : symbolEdits s key newName = ∅ := AList.ext (List.isEmpty_iff.mp hempty)
    simp [hnil]
  · rw [if_neg hempty]
    simp [mem_versionedWorkspaceEdit]


/-- Whatever the new name, every document edited lies in `dir`. -/
def Confined (fs : FileSystem) (s : StateStore) (uri : Url) (pos : Position) (dir : Path) : Prop :=
  ∀ newName edit, rename fs s uri pos newName = .ok (some edit) → ∀ e ∈ edit, fs.inDir e.uri dir

/-- A rename stays in its module unless the name is found at a location that
another module has filed under the same key. -/
theorem rename_confined_iff {fs : FileSystem} {s : StateStore} {uri : Url} {pos : Position}
    {dir : Path} {key : SymbolKey} (h : OnSymbol fs s uri pos dir key) :
    Confined fs s uri pos dir ↔ ∀ loc, Finds s key loc → fs.locationInDir loc dir := by
  constructor
  · intro hin loc hloc
    have hvalid : isValidIdentifier "x" := by decide
    obtain ⟨edit,hedit,e,he,huri⟩ := (edited_iff h hvalid loc.uri).mpr ⟨loc,hloc,rfl⟩
    have hdir := hin "x" edit hedit e he
    rwa [huri] at hdir
  · intro hall newName edit hedit e he
    have hvalid := isValidIdentifier_of_rename hedit
    obtain ⟨loc,hloc,hu⟩ := (edited_iff h hvalid e.uri).mp ⟨edit,hedit,e,he,rfl⟩
    rw [hu]
    exact hall loc hloc

/-! Two modules. -/

def otherUri : Url := "file:///n/main.tf"

def twoModules : FileSystem where
  canonicalize := some
  readDir := fun _ => none
  readToString := fun _ => none
  metadata := fun _ => none
  isDir := fun path => path = ["m"] ∨ path = ["n"]
  isFile := fun path => path = ["m","main.tf"] ∨ path = ["n","main.tf"]
  toFilePath := fun uri =>
    if uri = mainUri then some ["m","main.tf"]
    else if uri = otherUri then some ["n","main.tf"] else none
  fromFilePath := fun path =>
    if path = ["m","main.tf"] then some mainUri
    else if path = ["n","main.tf"] then some otherUri else none

/-- `variable "x"` in one module, and a variable of the given text in the other. -/
def withOther (text : String) : StateStore :=
  (({} : StateStore).upsertDocument (.new declarationAnalyzer mainUri "variable \"x\" {}" 1))
    |>.upsertDocument (.new declarationAnalyzer otherUri text 1)

theorem onSymbol_withOther (text : String) :
    OnSymbol twoModules (withOther text) mainUri ⟨0,10⟩ ["m"] ⟨.variable,"x"⟩ where
  dir_eq := by decide
  target := by
    refine ⟨.new declarationAnalyzer mainUri "variable \"x\" {}" 1,
      ⟨⟨.variable,"x"⟩,⟨mainUri,0,0,0,15⟩,.definition⟩,?_,by decide,rfl,fun _ => rfl⟩
    have hne : mainUri ≠ (DocumentState.new declarationAnalyzer otherUri text 1).uri := by
      change mainUri ≠ otherUri
      decide
    rw [withOther,upsertDocument_documents,AList.lookup_insert_ne hne,upsertDocument_documents]
    exact AList.lookup_insert _

theorem rename_confined_withOther :
    Confined twoModules (withOther "variable \"y\" {}") mainUri ⟨0,10⟩ ["m"] := by
  apply (rename_confined_iff (onSymbol_withOther "variable \"y\" {}")).mpr
  have hdefs : (withOther "variable \"y\" {}").definitionsByName.filed ⟨.variable,"x"⟩ =
    [⟨mainUri,0,0,0,15⟩] := rfl
  have hrefs : (withOther "variable \"y\" {}").referencesByName.filed ⟨.variable,"x"⟩ = [] := rfl
  rintro loc (⟨hloc,-⟩ | ⟨hloc,-⟩)
  · rw [hdefs,List.mem_singleton] at hloc
    subst hloc
    decide
  · simp [hrefs] at hloc

/-- Both modules declare `x`; renaming it in one edits the other. -/
theorem rename_not_confined :
    ¬ ∀ (fs : FileSystem) (s : StateStore) (uri : Url) (pos : Position) (dir : Path)
        (key : SymbolKey), OnSymbol fs s uri pos dir key → Confined fs s uri pos dir := by
  intro h
  have hin := h twoModules (withOther "variable \"x\" {}") mainUri ⟨0,10⟩ ["m"] _
    (onSymbol_withOther _) "z"
  have hsome : rename twoModules (withOther "variable \"x\" {}") mainUri ⟨0,10⟩ "z" =
    .ok (some [⟨otherUri,some 1,[⟨⟨⟨0,10⟩,⟨0,11⟩⟩,"z"⟩]⟩,
      ⟨mainUri,some 1,[⟨⟨⟨0,10⟩,⟨0,11⟩⟩,"z"⟩]⟩]) := by rfl
  exact absurd (hin _ hsome ⟨otherUri,some 1,[⟨⟨⟨0,10⟩,⟨0,11⟩⟩,"z"⟩]⟩ (by simp)) (by decide)

end Rename
end TerraformLs
