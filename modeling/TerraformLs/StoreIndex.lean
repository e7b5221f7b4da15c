import TerraformLs.InvertedIndex
import TerraformLs.Runs
import TerraformLs.StateStore

/-! The two indexes of the store against its documents: what each operation does
to them, the runs in which they stay exact, and the edits that fail cleanly. -/
namespace TerraformLs

open InvertedIndex Multimap

namespace DocumentState

def definitionRows (doc : DocumentState) : List (SymbolKey × SymbolLocation) := doc.symbols.rows

def referenceRows (doc : DocumentState) : List (SymbolKey × SymbolLocation) :=
  TerraformLs.referenceRows doc.references

/-- Every symbol and reference of the document is located in the document. -/
structure OwnUri (doc : DocumentState) : Prop where
  definitions : ∀ e ∈ doc.definitionRows, e.2.uri = doc.uri
  references : ∀ e ∈ doc.referenceRows, e.2.uri = doc.uri

/-- The document has nothing to index. -/
def Bare (doc : DocumentState) : Prop := doc.definitionRows = [] ∧ doc.referenceRows = []

end DocumentState

/-- What the extractors return lies in the document they are run on. -/
structure Analyzer.Located (A : Analyzer) : Prop where
  symbols : ∀ body uri rope, ∀ e ∈ (A.extractSymbols body uri rope).rows, e.2.uri = uri
  symbolsFallback : ∀ text uri rope,
    ∀ e ∈ (A.extractSymbolsFallback text uri rope).rows, e.2.uri = uri
  references : ∀ body uri rope,
    ∀ e ∈ referenceRows (A.extractReferences body uri rope), e.2.uri = uri
  referencesFallback : ∀ text uri rope,
    ∀ e ∈ referenceRows (A.extractReferencesFallback text uri rope), e.2.uri = uri

@[simp] theorem SymbolTable.rows_default : ({} : SymbolTable).rows = [] := rfl

theorem Analyzer.Located.computeAnalysis {A : Analyzer} (hA : A.Located) (parsed : ParsedFile)
    (uri : Url) (rope : Rope) :
    (∀ e ∈ (computeAnalysis A parsed uri rope).symbols.rows, e.2.uri = uri) ∧
      ∀ e ∈ referenceRows (computeAnalysis A parsed uri rope).references, e.2.uri = uri := by
  have hs : ∀ (isTest : Bool) (t : SymbolTable), (∀ e ∈ t.rows, e.2.uri = uri) →
      ∀ e ∈ (if isTest then {} else t : SymbolTable).rows, e.2.uri = uri := by
    intro isTest t ht
    cases isTest with
    | true => simp
    | false => simpa using ht
  unfold TerraformLs.computeAnalysis
  split
  · dsimp only
    split
    · exact ⟨hs _ _ (hA.symbolsFallback _ _ _),hA.referencesFallback _ _ _⟩
    · exact ⟨hs _ _ (hA.symbols _ _ _),hA.references _ _ _⟩
  · exact ⟨hs _ _ (hA.symbolsFallback _ _ _),hA.referencesFallback _ _ _⟩

namespace DocumentState

theorem reparse_uri (A : Analyzer) (doc : DocumentState) : (doc.reparse A).uri = doc.uri := by
  unfold reparse
  dsimp only
  split <;> rfl

theorem reparse_ownUri {A : Analyzer} (hA : A.Located) {doc : DocumentState} (h : doc.OwnUri) :
    (doc.reparse A).OwnUri := by
  unfold reparse
  dsimp only
  split
  · have hl := hA.computeAnalysis (A.parseSourceRecoveringForUri (String.ofList doc.rope) doc.uri)
      doc.uri doc.rope
    exact ⟨hl.1,hl.2⟩
  · exact ⟨h.definitions,h.references⟩

theorem new_ownUri {A : Analyzer} (hA : A.Located) (uri : Url) (text : String) (version : ℤ) :
    (DocumentState.new A uri text version).OwnUri :=
  ⟨(hA.computeAnalysis _ uri text.toList).1,(hA.computeAnalysis _ uri text.toList).2⟩

end DocumentState

theorem collectDocKeys_definitions (doc : DocumentState) :
    (collectDocKeys doc).definitions = doc.definitionRows.map Prod.fst := by
  simp [collectDocKeys,DocumentState.definitionRows,SymbolTable.rows,SymbolTable.rowsOf_map_fst]

theorem collectDocKeys_references (doc : DocumentState) :
    (collectDocKeys doc).references = doc.referenceRows.map Prod.fst := by
  simp [collectDocKeys,DocumentState.referenceRows,referenceRows]

namespace StateStore

/-- Each document stands under its own uri and owns its locations. -/
def WellOwned (s : StateStore) : Prop :=
  ∀ uri doc, s.documents.lookup uri = some doc → doc.uri = uri ∧ doc.OwnUri

/-- The indexes file exactly the rows of `items`. -/
structure IndexedAs (items : KeyedMap Url DocumentState) (s : StateStore) : Prop where
  definitions : Indexes DocumentState.definitionRows items s.definitionsByName
  references : Indexes DocumentState.referenceRows items s.referencesByName

/-- Under each key stand exactly the locations the documents have for it, and
no key is kept without a location. -/
def IndexConsistent (s : StateStore) : Prop := IndexedAs s.documents s

/-- The indexes file exactly the rows of some of the documents. -/
def PartlyIndexed (s : StateStore) : Prop :=
  ∃ items : KeyedMap Url DocumentState,
    (∀ uri doc, items.lookup uri = some doc → s.documents.lookup uri = some doc) ∧ IndexedAs items s

/-- The store with `doc` put in place of the document under `uri`, its entries filed again. -/
def refiled (s : StateStore) (uri : Url) (doc : DocumentState) : StateStore :=
  addToIndexes { removeFromIndexes s uri with documents := s.documents.insert uri doc } doc

/-- The same, with the entries withdrawn but not filed again. -/
def unfiled (s : StateStore) (uri : Url) (doc : DocumentState) : StateStore :=
  { removeFromIndexes s uri with documents := s.documents.insert uri doc }

@[simp] theorem refiled_documents (s : StateStore) (uri : Url) (doc : DocumentState) :
    (s.refiled uri doc).documents = s.documents.insert uri doc := rfl

@[simp] theorem unfiled_documents (s : StateStore) (uri : Url) (doc : DocumentState) :
    (s.unfiled uri doc).documents = s.documents.insert uri doc := rfl

theorem upsertDocument_eq (s : StateStore) (doc : DocumentState) :
    s.upsertDocument doc = s.refiled doc.uri doc := by
  simp [upsertDocument,refiled,addToIndexes]

theorem removeFromIndexes_of_none {s : StateStore} {uri : Url}
    (h : s.documents.lookup uri = none) : removeFromIndexes s uri = s := by
  simp [removeFromIndexes,h]

/-- The document after a batch that was applied at `version`. -/
def appliedBatch (A : Analyzer) (doc : DocumentState) (version : ℤ) (changes : List ContentChange)
    (cache : Option FormatCacheEntry) : DocumentState :=
  DocumentState.reparse A
    { doc with rope := editedBy doc.rope changes, version := version, formatCache := cache }

/-- The ways an edit can end, with the store each leaves. -/
theorem applyAndReparseDocument_cases (A : Analyzer) (s : StateStore) (uri : Url) (version : ℤ)
    (changes : List ContentChange) :
    (s.documents.lookup uri = none ∧
      s.applyAndReparseDocument A uri version changes = (s,.ok none)) ∨
    ∃ doc, s.documents.lookup uri = some doc ∧
      ((version ≤ doc.version ∧
          s.applyAndReparseDocument A uri version changes = (s.refiled uri doc,.ok none)) ∨
        (doc.version < version ∧ BatchFits doc.rope changes ∧ ∃ cache,
          s.applyAndReparseDocument A uri version changes =
            (s.refiled uri (appliedBatch A doc version changes cache),.ok (some version))) ∨
        (doc.version < version ∧ (∃ r cache source, Refused doc.rope changes r ∧
          s.applyAndReparseDocument A uri version changes =
            (s.unfiled uri { doc with rope := r, formatCache := cache },
              .err (.editApplication doc.uri source)))) ∨
        (doc.version < version ∧ ¬ BatchFits doc.rope changes ∧
          (∀ r, ¬ Refused doc.rope changes r) ∧ ∃ r cache,
          s.applyAndReparseDocument A uri version changes =
            (s.unfiled uri { doc with rope := r, formatCache := cache },.panicked))) := by
  cases hd : s.documents.lookup uri with
  | none =>
    refine .inl ⟨rfl,?_⟩
    simp [applyAndReparseDocument,removeFromIndexes_of_none hd,hd]
  | some doc =>
    refine .inr ⟨doc,rfl,?_⟩
    have hok : ∀ d applied, doc.applyVersionedChanges version changes = (d,.ok applied) →
        s.applyAndReparseDocument A uri version changes =
          (s.refiled uri (if applied.isSome then d.reparse A else d),.ok applied) := by
      intro d applied h
      simp only [applyAndReparseDocument,removeFromIndexes_documents,hd,h]
      rfl
    have herr : ∀ d e, doc.applyVersionedChanges version changes = (d,.err e) →
        s.applyAndReparseDocument A uri version changes = (s.unfiled uri d,.err e) := by
      intro d e h
      simp only [applyAndReparseDocument,removeFromIndexes_documents,hd,h]
      rfl
    have hpanic : ∀ d, doc.applyVersionedChanges version changes = (d,.panicked) →
        s.applyAndReparseDocument A uri version changes = (s.unfiled uri d,.panicked) := by
      intro d h
      simp only [applyAndReparseDocument,removeFromIndexes_documents,hd,h]
      rfl
    by_cases hv : version ≤ doc.version
    · exact .inl ⟨hv,hok doc none (by simp [DocumentState.applyVersionedChanges,hv])⟩
    have hlt : doc.version < version := Int.not_le.mp hv
    rcases doc.applyChanges_cases changes with
      ⟨hb,cache,h⟩ | ⟨r,cache,source,hr,h⟩ | ⟨hb,hr,r,cache,h⟩
    · refine .inr (.inl ⟨hlt,hb,cache,hok _ (some version) ?_⟩)
      simp only [DocumentState.applyVersionedChanges,hv,↓reduceIte,h]
    · refine .inr (.inr (.inl ⟨hlt,r,cache,source,hr,herr _ _ ?_⟩))
      simp only [DocumentState.applyVersionedChanges,hv,↓reduceIte,h]
    · refine .inr (.inr (.inr ⟨hlt,hb,hr,r,cache,hpanic _ ?_⟩))
      simp only [DocumentState.applyVersionedChanges,hv,↓reduceIte,h]

/-- An edit reaches no other document and neither set of marks. -/
theorem applyAndReparseDocument_frame (A : Analyzer) (s : StateStore) (uri : Url) (version : ℤ)
    (changes : List ContentChange) :
    (s.applyAndReparseDocument A uri version changes).1.openDocs = s.openDocs ∧
      (s.applyAndReparseDocument A uri version changes).1.dirScans = s.dirScans ∧
      (∀ u ≠ uri, (s.applyAndReparseDocument A uri version changes).1.documents.lookup u =
        s.documents.lookup u) := by
  have hother : ∀ (doc : DocumentState) u, u ≠ uri →
      (s.documents.insert uri doc).lookup u = s.documents.lookup u := fun doc u hu => by
    rw [KeyedMap.lookup_insert_of,if_neg hu]
  rcases s.applyAndReparseDocument_cases A uri version changes with
    ⟨-,he⟩ | ⟨doc,-,⟨-,he⟩ | ⟨-,-,cache,he⟩ | ⟨-,r,cache,source,-,he⟩ | ⟨-,-,-,r,cache,he⟩⟩
  · simp [he]
  all_goals
    rw [he]
    exact ⟨removeFromIndexes_openDocs s uri,removeFromIndexes_dirScans s uri,hother _⟩

theorem reparseDocument_cases (A : Analyzer) (s : StateStore) (uri : Url) :
    (s.documents.lookup uri = none ∧ s.reparseDocument A uri = s) ∨
    ∃ doc, s.documents.lookup uri = some doc ∧
      s.reparseDocument A uri = s.refiled uri (doc.reparse A) := by
  cases hd : s.documents.lookup uri with
  | none => exact .inl ⟨rfl,by simp [reparseDocument,removeFromIndexes_of_none hd,hd]⟩
  | some doc => exact .inr ⟨doc,rfl,by simp [reparseDocument,hd,refiled]⟩

section indexes

variable {s : StateStore} {items : KeyedMap Url DocumentState}

theorem WellOwned.definitions (hw : s.WellOwned)
    (hsub : ∀ u d, items.lookup u = some d → s.documents.lookup u = some d) :
    Owned SymbolLocation.uri DocumentState.definitionRows items := fun u d hd e he => by
  obtain ⟨hu,ho⟩ := hw u d (hsub u d hd)
  exact (ho.definitions e he).trans hu

theorem WellOwned.references (hw : s.WellOwned)
    (hsub : ∀ u d, items.lookup u = some d → s.documents.lookup u = some d) :
    Owned SymbolLocation.uri DocumentState.referenceRows items := fun u d hd e he => by
  obtain ⟨hu,ho⟩ := hw u d (hsub u d hd)
  exact (ho.references e he).trans hu

/-- Withdrawing the entries of a document leaves the index of the others. -/
theorem IndexedAs.withdraw (h : IndexedAs items s) (hw : s.WellOwned)
    (hsub : ∀ u d, items.lookup u = some d → s.documents.lookup u = some d) (uri : Url) :
    IndexedAs (items.erase uri) (removeFromIndexes s uri) := by
  have hod := hw.definitions hsub
  have hor := hw.references hsub
  cases hd : s.documents.lookup uri with
  | none =>
    rw [removeFromIndexes_of_none hd]
    have hnone : items.lookup uri = none := by
      cases hi : items.lookup uri with
      | none => rfl
      | some d => rw [hsub uri d hi] at hd; cases hd
    have hcongr : ∀ u, items.lookup u = (items.erase uri).lookup u := fun u => by
      rw [KeyedMap.lookup_erase_of]
      split
      · rename_i hu; rw [hu,hnone]
      · rfl
    exact ⟨h.definitions.congr hcongr,h.references.congr hcongr⟩
  | some doc =>
    have hdoc : ∀ d, items.lookup uri = some d → d = doc := fun d hi =>
      Option.some.inj ((hsub uri d hi).symm.trans hd)
    simp only [removeFromIndexes,hd,collectDocKeys_definitions,collectDocKeys_references]
    exact ⟨h.definitions.withdraw hod fun d hi e he =>
        List.mem_map_of_mem (hdoc d hi ▸ he),
      h.references.withdraw hor fun d hi e he => List.mem_map_of_mem (hdoc d hi ▸ he)⟩

theorem IndexedAs.refile (h : IndexedAs items s) (hw : s.WellOwned)
    (hsub : ∀ u d, items.lookup u = some d → s.documents.lookup u = some d) (uri : Url)
    (doc : DocumentState) : IndexedAs (items.insert uri doc) (s.refiled uri doc) := by
  have hw' := h.withdraw hw hsub uri
  exact ⟨hw'.definitions.file doc,hw'.references.file doc⟩

theorem refiled_consistent (h : s.IndexConsistent) (hw : s.WellOwned) (uri : Url)
    (doc : DocumentState) : (s.refiled uri doc).IndexConsistent :=
  IndexedAs.refile h hw (fun _ _ hd => hd) uri doc

/-- A document put back without its entries keeps the indexes exact only if it has none. -/
theorem unfiled_consistent_iff (h : s.IndexConsistent) (hw : s.WellOwned) (uri : Url)
    (doc : DocumentState) : (s.unfiled uri doc).IndexConsistent ↔ doc.Bare := by
  have hw' := IndexedAs.withdraw h hw (fun _ _ hd => hd) uri
  constructor
  · rintro ⟨hd,hr⟩
    exact ⟨(hw'.definitions.unfiled_iff (d:=doc)).mp hd,(hw'.references.unfiled_iff (d:=doc)).mp hr⟩
  · rintro ⟨hd,hr⟩
    exact ⟨hw'.definitions.unfiled_iff.mpr hd,hw'.references.unfiled_iff.mpr hr⟩

/-- The entries of the indexes that belong to `uri` are those of `doc`. -/
structure EntriesOf (s : StateStore) (uri : Url) (doc : DocumentState) : Prop where
  definitions : ∀ k, ((s.definitionsByName.filed k).filter fun loc => loc.uri = uri).Perm
    (rowsAt k doc.definitionRows)
  references : ∀ k, ((s.referencesByName.filed k).filter fun loc => loc.uri = uri).Perm
    (rowsAt k doc.referenceRows)

theorem refiled_entries (hw : s.WellOwned) (hp : s.PartlyIndexed) {uri : Url} {doc : DocumentState}
    (hu : doc.uri = uri) (ho : doc.OwnUri) : (s.refiled uri doc).EntriesOf uri doc := by
  obtain ⟨items,hsub,hi⟩ := hp
  have hr := hi.refile hw hsub uri doc
  have hod := hw.definitions hsub
  have hor := hw.references hsub
  have hl : (items.insert uri doc).lookup uri = some doc := AList.lookup_insert _
  exact ⟨hr.definitions.filed_owned (hod.insert fun e he => (ho.definitions e he).trans hu) hl,
    hr.references.filed_owned (hor.insert fun e he => (ho.references e he).trans hu) hl⟩

theorem removeDocument_consistent (h : s.IndexConsistent) (hw : s.WellOwned) (uri : Url) :
    (s.removeDocument uri).1.IndexConsistent := by
  have hw' := IndexedAs.withdraw h hw (fun _ _ hd => hd) uri
  unfold IndexConsistent removeDocument
  dsimp only
  rw [removeFromIndexes_documents]
  exact ⟨hw'.definitions,hw'.references⟩

end indexes

end StateStore

/-- The operations that touch the documents, the indexes or the open set. -/
inductive StoreOp
  | upsertDocument (doc : DocumentState)
  | upsertDocumentUnlessOpen (doc : DocumentState)
  | applyAndReparseDocument (uri : Url) (version : ℤ) (changes : List ContentChange)
  | reparseDocument (uri : Url)
  | removeDocument (uri : Url)
  | markOpen (uri : Url)
  | markClosed (uri : Url)

namespace StoreOp

def step (A : Analyzer) (s : StateStore) : StoreOp → StateStore
  | upsertDocument doc => s.upsertDocument doc
  | upsertDocumentUnlessOpen doc => (s.upsertDocumentUnlessOpen doc).1
  | applyAndReparseDocument uri version changes =>
    (s.applyAndReparseDocument A uri version changes).1
  | reparseDocument uri => s.reparseDocument A uri
  | removeDocument uri => (s.removeDocument uri).1
  | markOpen uri => s.markOpen uri
  | markClosed uri => s.markClosed uri

/-- A document handed to the store owns its locations. -/
def OwnUri : StoreOp → Prop
  | upsertDocument doc => doc.OwnUri
  | upsertDocumentUnlessOpen doc => doc.OwnUri
  | _ => True

/-- A newer batch for a stored document fits its text, unless the document has
nothing to index. -/
def KeepsEntries (s : StateStore) : StoreOp → Prop
  | applyAndReparseDocument uri version changes =>
    ∀ doc, s.documents.lookup uri = some doc → doc.version < version →
      BatchFits doc.rope changes ∨ doc.Bare
  | _ => True

end StoreOp

namespace StateStore

theorem WellOwned.insert {s s' : StateStore} (h : s.WellOwned) {uri : Url} {doc : DocumentState}
    (hd : s'.documents = s.documents.insert uri doc) (hu : doc.uri = uri) (ho : doc.OwnUri) :
    s'.WellOwned := by
  intro u d hl
  rw [hd,KeyedMap.lookup_insert_of] at hl
  split at hl
  · rename_i hu'
    cases hl
    exact ⟨hu.trans hu'.symm,ho⟩
  · exact h u d hl

/-- Every document the edit can leave under `uri` is still at home there. -/
theorem appliedBatch_ownUri {A : Analyzer} (hA : A.Located) {doc : DocumentState}
    (h : doc.OwnUri) (version : ℤ) (changes : List ContentChange)
    (cache : Option FormatCacheEntry) :
    (appliedBatch A doc version changes cache).uri = doc.uri ∧
      (appliedBatch A doc version changes cache).OwnUri :=
  ⟨DocumentState.reparse_uri A _,DocumentState.reparse_ownUri hA ⟨h.definitions,h.references⟩⟩

theorem wellOwned_step {A : Analyzer} (hA : A.Located) {s : StateStore} {op : StoreOp}
    (hop : op.OwnUri) (h : s.WellOwned) : (op.step A s).WellOwned := by
  cases op with
  | upsertDocument doc => exact h.insert (upsertDocument_documents s doc) rfl hop
  | upsertDocumentUnlessOpen doc =>
    rcases s.upsertDocumentUnlessOpen_cases doc with ⟨-,he⟩ | ⟨-,he⟩
    · simpa only [StoreOp.step,he] using h
    · simp only [StoreOp.step,he]
      exact h.insert (upsertDocument_documents s doc) rfl hop
  | applyAndReparseDocument uri version changes =>
    simp only [StoreOp.step]
    rcases s.applyAndReparseDocument_cases A uri version changes with
      ⟨-,he⟩ | ⟨doc,hd,⟨-,he⟩ | ⟨-,-,cache,he⟩ | ⟨-,r,cache,source,-,he⟩ | ⟨-,-,-,r,cache,he⟩⟩
    · rwa [he]
    · rw [he]
      exact h.insert rfl (h uri doc hd).1 (h uri doc hd).2
    · obtain ⟨hu,ho⟩ := h uri doc hd
      obtain ⟨hu',ho'⟩ := appliedBatch_ownUri hA ho version changes cache
      rw [he]
      exact h.insert rfl (hu'.trans hu) ho'
    all_goals
      obtain ⟨hu,ho⟩ := h uri doc hd
      rw [he]
      exact h.insert rfl hu ⟨ho.definitions,ho.references⟩
  | reparseDocument uri =>
    rcases s.reparseDocument_cases A uri with ⟨-,he⟩ | ⟨doc,hd,he⟩
    · simpa only [StoreOp.step,he] using h
    · obtain ⟨hu,ho⟩ := h uri doc hd
      simp only [StoreOp.step,he]
      exact h.insert rfl ((doc.reparse_uri A).trans hu) (DocumentState.reparse_ownUri hA ho)
  | removeDocument uri =>
    intro u d hl
    simp only [StoreOp.step,removeDocument_documents,KeyedMap.lookup_erase_of] at hl
    split at hl
    · cases hl
    · exact h u d hl
  | markOpen uri => exact h
  | markClosed uri => exact h

/-- One operation keeps the indexes exact if and only if it keeps its entries. -/
theorem indexConsistent_step_iff (A : Analyzer) {s : StateStore} (hw : s.WellOwned)
    (h : s.IndexConsistent) (op : StoreOp) :
    (op.step A s).IndexConsistent ↔ op.KeepsEntries s := by
  cases op with
  | upsertDocument doc =>
    simp only [StoreOp.step,StoreOp.KeepsEntries,iff_true,upsertDocument_eq]
    exact refiled_consistent h hw _ _
  | upsertDocumentUnlessOpen doc =>
    rcases s.upsertDocumentUnlessOpen_cases doc with ⟨-,he⟩ | ⟨-,he⟩
    · simpa only [StoreOp.step,StoreOp.KeepsEntries,iff_true,he] using h
    · simp only [StoreOp.step,StoreOp.KeepsEntries,iff_true,he,upsertDocument_eq]
      exact refiled_consistent h hw _ _
  | applyAndReparseDocument uri version changes =>
    simp only [StoreOp.step,StoreOp.KeepsEntries]
    rcases s.applyAndReparseDocument_cases A uri version changes with
      ⟨hd,he⟩ | ⟨doc,hd,⟨hv,he⟩ | ⟨hv,hb,cache,he⟩ | ⟨hv,r,cache,source,hr,he⟩ |
        ⟨hv,hb,-,r,cache,he⟩⟩
    · simpa [he,hd] using h
    · have hnv : ¬ doc.version < version := Int.not_lt.mpr hv
      simp only [he,hd,Option.some.injEq,forall_eq',hnv,false_implies,iff_true]
      exact refiled_consistent h hw _ _
    · simp only [he,hd,Option.some.injEq,forall_eq',hv,hb,true_or,true_implies,iff_true]
      exact refiled_consistent h hw _ _
    · simp only [he,hd,Option.some.injEq,forall_eq',hv,hr.not_batchFits,false_or,true_implies]
      exact unfiled_consistent_iff h hw uri _
    · simp only [he,hd,Option.some.injEq,forall_eq',hv,hb,false_or,true_implies]
      exact unfiled_consistent_iff h hw uri _
  | reparseDocument uri =>
    simp only [StoreOp.step,StoreOp.KeepsEntries,iff_true]
    rcases s.reparseDocument_cases A uri with ⟨-,he⟩ | ⟨doc,hd,he⟩
    · rwa [he]
    · rw [he]
      exact refiled_consistent h hw _ _
  | removeDocument uri =>
    simp only [StoreOp.step,StoreOp.KeepsEntries,iff_true]
    exact removeDocument_consistent h hw uri
  | markOpen uri => exact iff_of_true ⟨h.definitions,h.references⟩ trivial
  | markClosed uri => exact iff_of_true ⟨h.definitions,h.references⟩ trivial

/-- Whatever an operation does to the entries of one document, the indexes stay
exact for the documents whose entries they hold. -/
theorem partlyIndexed_step (A : Analyzer) {s : StateStore} (hw : s.WellOwned)
    (h : s.PartlyIndexed) (op : StoreOp) : (op.step A s).PartlyIndexed := by
  obtain ⟨items,hsub,hi⟩ := h
  have hsame : s.PartlyIndexed := ⟨items,hsub,hi⟩
  have hrefile : ∀ uri doc, (s.refiled uri doc).PartlyIndexed := by
    intro uri doc
    refine ⟨items.insert uri doc,fun u d hd => ?_,hi.refile hw hsub uri doc⟩
    rw [KeyedMap.lookup_insert_of] at hd
    rw [refiled_documents,KeyedMap.lookup_insert_of]
    split <;> simp_all
  have herase : ∀ uri, (∀ u d, (items.erase uri).lookup u = some d →
      u ≠ uri ∧ s.documents.lookup u = some d) := by
    intro uri u d hd
    rw [KeyedMap.lookup_erase_of] at hd
    split at hd
    · cases hd
    · rename_i hu
      exact ⟨hu,hsub u d hd⟩
  have hunfile : ∀ uri doc, (s.unfiled uri doc).PartlyIndexed := by
    intro uri doc
    have hw' := hi.withdraw hw hsub uri
    refine ⟨items.erase uri,fun u d hd => ?_,hw'.definitions,hw'.references⟩
    obtain ⟨hu,hd'⟩ := herase uri u d hd
    rw [unfiled_documents,KeyedMap.lookup_insert_of,if_neg hu,hd']
  cases op with
  | upsertDocument doc => simpa only [StoreOp.step,upsertDocument_eq] using hrefile _ _
  | upsertDocumentUnlessOpen doc =>
    rcases s.upsertDocumentUnlessOpen_cases doc with ⟨-,he⟩ | ⟨-,he⟩
    · simpa only [StoreOp.step,he] using hsame
    · simpa only [StoreOp.step,he,upsertDocument_eq] using hrefile _ _
  | applyAndReparseDocument uri version changes =>
    simp only [StoreOp.step]
    rcases s.applyAndReparseDocument_cases A uri version changes with
      ⟨-,he⟩ | ⟨doc,hd,⟨-,he⟩ | ⟨-,-,cache,he⟩ | ⟨-,r,cache,source,-,he⟩ | ⟨-,-,-,r,cache,he⟩⟩
    · rwa [he]
    · rw [he]; exact hrefile _ _
    · rw [he]; exact hrefile _ _
    · rw [he]; exact hunfile _ _
    · rw [he]; exact hunfile _ _
  | reparseDocument uri =>
    rcases s.reparseDocument_cases A uri with ⟨-,he⟩ | ⟨doc,-,he⟩
    · simpa only [StoreOp.step,he] using hsame
    · simpa only [StoreOp.step,he] using hrefile _ _
  | removeDocument uri =>
    have hw' := hi.withdraw hw hsub uri
    refine ⟨items.erase uri,fun u d hd => ?_,hw'.definitions,hw'.references⟩
    obtain ⟨hu,hd'⟩ := herase uri u d hd
    rw [StoreOp.step,removeDocument_documents,KeyedMap.lookup_erase_of,if_neg hu,hd']
  | markOpen uri => exact ⟨items,hsub,hi.definitions,hi.references⟩
  | markClosed uri => exact ⟨items,hsub,hi.definitions,hi.references⟩

theorem wellOwned_empty : ({} : StateStore).WellOwned := fun _ _ h => by cases h

theorem indexConsistent_empty : ({} : StateStore).IndexConsistent :=
  ⟨indexes_empty,indexes_empty⟩

theorem IndexConsistent.partly {s : StateStore} (h : s.IndexConsistent) : s.PartlyIndexed :=
  ⟨s.documents,fun _ _ hd => hd,h⟩


section runs

variable {A : Analyzer} {ops : List StoreOp}

/-- In every run the indexes are exact throughout if and only if every newer
batch fits the text it meets, or meets a document that has nothing to index. -/
theorem indexConsistent_throughout_iff (hA : A.Located) (hops : ∀ op ∈ ops, op.OwnUri) :
    Throughout (StoreOp.step A) IndexConsistent {} ops ↔
      Guarded (StoreOp.step A) StoreOp.KeepsEntries {} ops :=
  throughout_iff_guarded (fun op hop _ hs => wellOwned_step hA (hops op hop) hs)
    (fun _ op hw h => indexConsistent_step_iff A hw h op) wellOwned_empty indexConsistent_empty

/-- In every run, failed edits included, no entry of the indexes is stale. -/
theorem partlyIndexed_throughout (hA : A.Located) (hops : ∀ op ∈ ops, op.OwnUri) :
    Throughout (StoreOp.step A) (fun s => s.WellOwned ∧ s.PartlyIndexed) {} ops :=
  throughout_of_step (fun op hop _ hs =>
    ⟨wellOwned_step hA (hops op hop) hs.1,partlyIndexed_step A hs.1 hs.2 op⟩)
    ⟨wellOwned_empty,indexConsistent_empty.partly⟩

end runs

theorem declarationAnalyzer_located : declarationAnalyzer.Located where
  symbols body uri rope e he := by
    simp only [declarationAnalyzer] at he
    split at he
    · simp [SymbolTable.rows,SymbolTable.rowsOf,declaredSymbol,SymbolLocation.new] at he
      simp [he]
    · simp at he
  symbolsFallback _ _ _ e he := by simp [declarationAnalyzer] at he
  references _ _ _ e he := by simp [declarationAnalyzer,referenceRows] at he
  referencesFallback _ _ _ e he := by simp [declarationAnalyzer,referenceRows] at he

/-- A one-line file is opened, then edited at a line it does not have. -/
def outOfBoundsEdit : List StoreOp :=
  [.upsertDocument (.new declarationAnalyzer mainUri "variable \"x\" {}" 1),
   .applyAndReparseDocument mainUri 2 [⟨some ⟨⟨99,0⟩,⟨99,0⟩⟩,"y"⟩]]

theorem outOfBoundsEdit_ownUri : ∀ op ∈ outOfBoundsEdit, op.OwnUri := by
  simp only [outOfBoundsEdit,List.forall_mem_cons,List.not_mem_nil,false_implies,implies_true,
    and_true]
  exact ⟨DocumentState.new_ownUri declarationAnalyzer_located _ _ _,trivial⟩

/-- The same file is opened and then given a new text. -/
def fullTextEdit : List StoreOp :=
  [.upsertDocument (.new declarationAnalyzer mainUri "variable \"x\" {}" 1),
   .applyAndReparseDocument mainUri 2 [⟨none,"variable \"y\" {}"⟩]]

theorem fullTextEdit_consistent :
    Throughout (StoreOp.step declarationAnalyzer) IndexConsistent {} fullTextEdit := by
  refine (indexConsistent_throughout_iff declarationAnalyzer_located ?_).mpr
    ⟨trivial,fun _ _ _ => .inl ⟨trivial,trivial⟩,trivial⟩
  simp only [fullTextEdit,List.forall_mem_cons,List.not_mem_nil,false_implies,implies_true,
    and_true]
  exact ⟨DocumentState.new_ownUri declarationAnalyzer_located _ _ _,trivial⟩

theorem outOfBoundsEdit_inconsistent : declarationAnalyzer.Located ∧
    (∀ op ∈ outOfBoundsEdit, op.OwnUri) ∧
    ¬ Throughout (StoreOp.step declarationAnalyzer) IndexConsistent {} outOfBoundsEdit := by
  refine ⟨declarationAnalyzer_located,outOfBoundsEdit_ownUri,fun h => ?_⟩
  have hlen := (h.final.definitions.filed ⟨.variable,"x"⟩).length_eq
  revert hlen
  decide

/-! What a failing edit leaves behind, in any store. -/

section atomicity

def content (doc : DocumentState) : String × ℤ × SymbolTable × List Reference :=
  (doc.text,doc.version,doc.symbols,doc.references)

/-- Nothing that `uri` or the indexes can be asked for has changed. -/
structure SameContent (s s' : StateStore) (uri : Url) : Prop where
  document : (s'.documents.lookup uri).map content = (s.documents.lookup uri).map content
  others : ∀ u ≠ uri, s'.documents.lookup u = s.documents.lookup u
  definitions : ∀ k, (s'.definitionsByName.filed k).Perm (s.definitionsByName.filed k)
  references : ∀ k, (s'.referencesByName.filed k).Perm (s.referencesByName.filed k)

/-- An edit that returns an error has changed nothing. -/
def ErrorAtomic (A : Analyzer) (s : StateStore) (uri : Url) (version : ℤ)
    (changes : List ContentChange) : Prop :=
  ∀ s' e, s.applyAndReparseDocument A uri version changes = (s',.err e) → SameContent s s' uri

/-- Under the keys of the document, no entry of the indexes belongs to `uri`. -/
structure Unlisted (s : StateStore) (uri : Url) (doc : DocumentState) : Prop where
  definitions : ∀ k ∈ (collectDocKeys doc).definitions, ∀ loc ∈ s.definitionsByName.filed k,
    loc.uri ≠ uri
  references : ∀ k ∈ (collectDocKeys doc).references, ∀ loc ∈ s.referencesByName.filed k,
    loc.uri ≠ uri

/-- A store with a document put back is as before exactly when the document has
the same content and had no entries to lose. -/
theorem sameContent_unfiled_iff {s : StateStore} {uri : Url} {doc doc' : DocumentState}
    (hd : s.documents.lookup uri = some doc) :
    SameContent s (s.unfiled uri doc') uri ↔ content doc' = content doc ∧ s.Unlisted uri doc := by
  have hdefs : (s.unfiled uri doc').definitionsByName = prune (keepAt s.definitionsByName
      (fun loc => loc.uri ≠ uri) (collectDocKeys doc).definitions) := by
    simp [unfiled,removeFromIndexes,hd]
  have hrefs : (s.unfiled uri doc').referencesByName = prune (keepAt s.referencesByName
      (fun loc => loc.uri ≠ uri) (collectDocKeys doc).references) := by
    simp [unfiled,removeFromIndexes,hd]
  have hl : (s.unfiled uri doc').documents.lookup uri = some doc' := by simp
  constructor
  · rintro ⟨hdoc,-,hdef,href⟩
    simp only [hdefs,filed_prune] at hdef
    simp only [hrefs,filed_prune] at href
    rw [hl,hd] at hdoc
    refine ⟨Option.some.inj hdoc,?_,?_⟩
    · simpa using (filed_keepAt_perm_iff _ _ _).mp hdef
    · simpa using (filed_keepAt_perm_iff _ _ _).mp href
  · rintro ⟨hdoc,hdef,href⟩
    refine ⟨by rw [hl,hd,Option.map_some,Option.map_some,hdoc],?_,?_,?_⟩
    · intro u hu
      rw [unfiled_documents,KeyedMap.lookup_insert_of,if_neg hu]
    · simp only [hdefs,filed_prune]
      exact (filed_keepAt_perm_iff _ _ _).mpr (by simpa using hdef)
    · simp only [hrefs,filed_prune]
      exact (filed_keepAt_perm_iff _ _ _).mpr (by simpa using href)

/-- A failing edit changes nothing if and only if the changes before the one
that fails leave the text as it was, and the document had no entries to lose. -/
theorem errorAtomic_iff (A : Analyzer) (s : StateStore) (uri : Url) (version : ℤ)
    (changes : List ContentChange) :
    ErrorAtomic A s uri version changes ↔
      ∀ doc, s.documents.lookup uri = some doc → doc.version < version →
        ∀ r, Refused doc.rope changes r → r = doc.rope ∧ s.Unlisted uri doc := by
  unfold ErrorAtomic
  rcases s.applyAndReparseDocument_cases A uri version changes with
    ⟨hd,he⟩ | ⟨doc,hd,⟨hv,he⟩ | ⟨hv,hb,cache,he⟩ | ⟨hv,r,cache,source,hr,he⟩ |
      ⟨hv,-,hnr,r,cache,he⟩⟩
  · simp [hd,he]
  · have hnv : ¬ doc.version < version := Int.not_lt.mpr hv
    simp [hd,he,hnv]
  · have hnr : ∀ r, ¬ Refused doc.rope changes r := fun r hr => hr.not_batchFits hb
    simp [hd,he,hnr]
  · have hcontent : ∀ doc' : DocumentState,
        doc' = { doc with rope := r, formatCache := cache } →
          (content doc' = content doc ↔ r = doc.rope) := by
      rintro _ rfl
      simp [content,DocumentState.text,String.ofList_inj]
    simp only [he,Prod.mk.injEq,Outcome.err.injEq,and_imp,forall_eq',forall_apply_eq_imp_iff,
      sameContent_unfiled_iff hd,hcontent _ rfl,hd,Option.some.injEq,hv,true_implies]
    exact ⟨fun h r' hr' => hr.unique hr' ▸ h,fun h => h r hr⟩
  · simp [hd,he,hnr]

/-- The store with one open one-line file. -/
def oneDocument : StateStore :=
  ({} : StateStore).upsertDocument (.new declarationAnalyzer mainUri "variable \"x\" {}" 1)

theorem oneDocument_edit_not_atomic :
    ¬ ErrorAtomic declarationAnalyzer oneDocument mainUri 2 [⟨some ⟨⟨99,0⟩,⟨99,0⟩⟩,"y"⟩] := by
  intro h
  have hlen := ((h _ _ rfl).definitions ⟨.variable,"x"⟩).length_eq
  revert hlen
  decide

end atomicity

end StateStore
end TerraformLs
