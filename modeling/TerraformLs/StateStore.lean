import Mathlib.Data.Finset.Basic
import TerraformLs.Document

/-! The central store: the documents, the two indexes built from them, the set
of documents open in the editor and the scan state of each directory. -/
namespace TerraformLs

inductive DirScanState
  | scheduled
  | completed
  deriving DecidableEq

structure StateStore where
  documents : KeyedMap Url DocumentState := ∅
  definitionsByName : Multimap SymbolKey SymbolLocation := ∅
  referencesByName : Multimap SymbolKey SymbolLocation := ∅
  openDocs : Finset Url := ∅
  dirScans : KeyedMap Path DirScanState := ∅
  /-- The modification time of the providers directory at the last schema fetch. -/
  fetchedSchemaDirs : KeyedMap Path ℕ := ∅
  /-- For each module directory and variable, the types assigned to it. -/
  assignedVariableTypes : KeyedMap Path (KeyedMap String (List VariableType)) := ∅

/-- The index keys of one document. -/
structure DocKeys where
  definitions : List SymbolKey
  references : List SymbolKey

open SymbolTable in
def collectDocKeys (doc : DocumentState) : DocKeys where
  definitions :=
    doc.symbols.variables.keys.map (SymbolKey.mk .variable) ++
      doc.symbols.locals.keys.map (SymbolKey.mk .local) ++
      doc.symbols.outputs.keys.map (SymbolKey.mk .output) ++
      doc.symbols.modules.keys.map (SymbolKey.mk .module) ++
      doc.symbols.resources.keys.map (addressKey .resource) ++
      doc.symbols.dataSources.keys.map (addressKey .dataSource)
  references := doc.references.map fun r => referenceKey r.kind

namespace StateStore

def markOpen (s : StateStore) (uri : Url) : StateStore :=
  { s with openDocs := insert uri s.openDocs }

def markClosed (s : StateStore) (uri : Url) : StateStore :=
  { s with openDocs := s.openDocs.erase uri }

def isOpen (s : StateStore) (uri : Url) : Bool := uri ∈ s.openDocs

/-- Track a directory for scanning; a directory already tracked is left alone. -/
def markScanScheduled (s : StateStore) (dir : Path) : StateStore × Bool :=
  match s.dirScans.lookup dir with
  | some _ => (s,false)
  | none => ({ s with dirScans := s.dirScans.insert dir .scheduled },true)

def markScanCompleted (s : StateStore) (dir : Path) : StateStore :=
  { s with dirScans := s.dirScans.insert dir .completed }

def isScanCompleted (s : StateStore) (dir : Path) : Bool :=
  s.dirScans.lookup dir = some .completed

def addToIndexes (s : StateStore) (doc : DocumentState) : StateStore :=
  { s with definitionsByName := s.definitionsByName.pushAll doc.symbols.rows
           referencesByName := s.referencesByName.pushAll (referenceRows doc.references) }

/-- Withdraw the entries of the stored document from under its current keys,
then drop the keys left empty. -/
def removeFromIndexes (s : StateStore) (uri : Url) : StateStore :=
  match s.documents.lookup uri with
  | none => s
  | some doc =>
    let toRemove := collectDocKeys doc
    { s with
      definitionsByName :=
        (s.definitionsByName.keepAt (fun loc => loc.uri ≠ uri) toRemove.definitions).prune
      referencesByName :=
        (s.referencesByName.keepAt (fun loc => loc.uri ≠ uri) toRemove.references).prune }

def upsertDocument (s : StateStore) (doc : DocumentState) : StateStore :=
  let s := addToIndexes (removeFromIndexes s doc.uri) doc
  { s with documents := s.documents.insert doc.uri doc }

/-- Disk reads go through here: a document open in the editor is not replaced. -/
def upsertDocumentUnlessOpen (s : StateStore) (doc : DocumentState) : StateStore × Bool :=
  if s.isOpen doc.uri then (s,false) else (s.upsertDocument doc,true)

section analysis

variable (A : Analyzer)

/-- The entries are withdrawn first. A missing document, an error or a panic
leaves before they are filed again, and a failed batch leaves the edits made so
far in the stored document. -/
def applyAndReparseDocument (s : StateStore) (uri : Url) (version : ℤ)
    (changes : List ContentChange) : StateStore × Outcome StateError (Option ℤ) :=
  let s := removeFromIndexes s uri
  match s.documents.lookup uri with
  | none => (s,.ok none)
  | some doc =>
    match doc.applyVersionedChanges version changes with
    | (doc,.ok applied) =>
      let doc := if applied.isSome then doc.reparse A else doc
      let s := { s with documents := s.documents.insert uri doc }
      (addToIndexes s doc,.ok applied)
    | (doc,.err e) => ({ s with documents := s.documents.insert uri doc },.err e)
    | (doc,.panicked) => ({ s with documents := s.documents.insert uri doc },.panicked)

def reparseDocument (s : StateStore) (uri : Url) : StateStore :=
  let s := removeFromIndexes s uri
  match s.documents.lookup uri with
  | none => s
  | some doc =>
    let doc := doc.reparse A
    addToIndexes { s with documents := s.documents.insert uri doc } doc

end analysis

def removeDocument (s : StateStore) (uri : Url) : StateStore × Option DocumentState :=
  let s := removeFromIndexes s uri
  ({ s with documents := s.documents.erase uri },s.documents.lookup uri)

@[simp] theorem removeFromIndexes_documents (s : StateStore) (uri : Url) :
    (removeFromIndexes s uri).documents = s.documents := by
  unfold removeFromIndexes
  split <;> rfl

@[simp] theorem removeFromIndexes_openDocs (s : StateStore) (uri : Url) :
    (removeFromIndexes s uri).openDocs = s.openDocs := by
  unfold removeFromIndexes
  split <;> rfl

@[simp] theorem removeFromIndexes_dirScans (s : StateStore) (uri : Url) :
    (removeFromIndexes s uri).dirScans = s.dirScans := by
  unfold removeFromIndexes
  split <;> rfl

@[simp] theorem addToIndexes_documents (s : StateStore) (doc : DocumentState) :
    (addToIndexes s doc).documents = s.documents := rfl

@[simp] theorem addToIndexes_openDocs (s : StateStore) (doc : DocumentState) :
    (addToIndexes s doc).openDocs = s.openDocs := rfl

@[simp] theorem addToIndexes_dirScans (s : StateStore) (doc : DocumentState) :
    (addToIndexes s doc).dirScans = s.dirScans := rfl

@[simp] theorem upsertDocument_documents (s : StateStore) (doc : DocumentState) :
    (s.upsertDocument doc).documents = s.documents.insert doc.uri doc := by
  simp [upsertDocument]

@[simp] theorem upsertDocument_openDocs (s : StateStore) (doc : DocumentState) :
    (s.upsertDocument doc).openDocs = s.openDocs := by simp [upsertDocument]

@[simp] theorem upsertDocument_dirScans (s : StateStore) (doc : DocumentState) :
    (s.upsertDocument doc).dirScans = s.dirScans := by simp [upsertDocument]

@[simp] theorem removeDocument_documents (s : StateStore) (uri : Url) :
    (s.removeDocument uri).1.documents = s.documents.erase uri := by simp [removeDocument]

@[simp] theorem removeDocument_openDocs (s : StateStore) (uri : Url) :
    (s.removeDocument uri).1.openDocs = s.openDocs := by simp [removeDocument]

@[simp] theorem removeDocument_dirScans (s : StateStore) (uri : Url) :
    (s.removeDocument uri).1.dirScans = s.dirScans := by simp [removeDocument]

theorem upsertDocumentUnlessOpen_cases (s : StateStore) (doc : DocumentState) :
    (doc.uri ∈ s.openDocs ∧ s.upsertDocumentUnlessOpen doc = (s,false)) ∨
      (doc.uri ∉ s.openDocs ∧ s.upsertDocumentUnlessOpen doc = (s.upsertDocument doc,true)) := by
  by_cases h : doc.uri ∈ s.openDocs
  · exact .inl ⟨h,by simp [upsertDocumentUnlessOpen,isOpen,h]⟩
  · exact .inr ⟨h,by simp [upsertDocumentUnlessOpen,isOpen,h]⟩

end StateStore
end TerraformLs
