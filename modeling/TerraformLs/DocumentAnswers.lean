import TerraformLs.IndexRaces

/-! The rules that ask the indexes, against the same rules going over the
documents. Whatever edits a run makes, the indexes hide no report; they add one
only after an edit that has failed. -/
namespace TerraformLs
namespace DocumentAnswers

open ModuleAggregates PeerDiagnostics IndexRaces StateStore

section rules

variable (fs : FileSystem) (docs : KeyedMap Url DocumentState) (moduleDir : Option Path)

/-- Some document of the directory has an entry under the key. -/
def mentions (table : IndexTable) (key : SymbolKey) : Bool :=
  docs.entries.any fun e => moduleDir.all (fs.inDir e.1) &&
    ((rows e.2 table).map Prod.fst).contains key

def definedByDocuments : ReferenceKind → Bool
  | .variable name => mentions fs docs moduleDir .definitions ⟨.variable,name⟩
  | .local name => mentions fs docs moduleDir .definitions ⟨.local,name⟩
  | .module name => mentions fs docs moduleDir .definitions ⟨.module,name⟩
  | .resource _ _ | .dataSource _ _ => true

/-- The adapter without its index. -/
def documentLookup (currentUri : Url) : ModuleGraphLookup :=
  { ModuleGraphAdapter.lookup fs { documents := docs } moduleDir currentUri with
    variableIsReferenced := fun name => mentions fs docs moduleDir .references ⟨.variable,name⟩
    localIsReferenced := fun name => mentions fs docs moduleDir .references ⟨.local,name⟩
    dataSourceIsReferenced := fun typeName name =>
      mentions fs docs moduleDir .references (.resource .dataSource typeName name) }

end rules

/-- What the two rules say when they go over the documents. -/
def documentDiagnostics (env : IndexerEnvironment) (docs : KeyedMap Url DocumentState) (uri : Url)
    (doc : DocumentState) : List String :=
  if doc.parsed.hasErrors then [] else
    undefinedReferenceDiagnostics doc.references (fun kind =>
        definedInCurrentDoc doc.symbols kind ||
          definedByDocuments env.fs docs (moduleScopeDir env uri) kind) ++
      if isTftestUri uri then []
      else doc.parsed.body.elim [] fun body => unusedDeclarationsDiagnostics
        (documentLookup env.fs docs (env.fs.parentDir uri) uri) body

section answers

variable {fs : FileSystem} {s : StateStore}

/-- An entry of a document of the module, seen from the index. -/
theorem mentions_of_standsIn (hp : s.PartlyIndexed) (hw : s.WellOwned) (table : IndexTable)
    {moduleDir : Option Path} {key : SymbolKey} (h : standsIn fs (index s table) moduleDir key = true) :
    mentions fs s.documents moduleDir table key = true := by
  obtain ⟨items,hitems,hindexed⟩ := hp
  rw [standsIn_eq_any,List.any_eq_true] at h
  obtain ⟨loc,hloc,hdir⟩ := h
  have hrow : ∃ uri doc, items.lookup uri = some doc ∧ (key,loc) ∈ rows doc table := by
    cases table with
    | definitions => exact hindexed.definitions.mem_filed.mp hloc
    | references => exact hindexed.references.mem_filed.mp hloc
  obtain ⟨uri,doc,hdoc,hin⟩ := hrow
  have howned : loc.uri = uri := by
    obtain ⟨rfl,hown⟩ := hw uri doc (hitems uri doc hdoc)
    cases table with
    | definitions => exact hown.definitions _ hin
    | references => exact hown.references _ hin
  refine List.any_eq_true.mpr ⟨⟨uri,doc⟩,KeyedMap.mem_entries.mpr (hitems uri doc hdoc),?_⟩
  rw [Bool.and_eq_true]
  exact ⟨howned ▸ hdir,List.contains_iff_mem.mpr (List.mem_map_of_mem hin)⟩

theorem standsIn_of_mentions (hc : s.IndexConsistent) (hw : s.WellOwned) (table : IndexTable)
    {moduleDir : Option Path} {key : SymbolKey} (h : mentions fs s.documents moduleDir table key = true) :
    standsIn fs (index s table) moduleDir key = true := by
  obtain ⟨e,he,h⟩ := List.any_eq_true.mp h
  obtain ⟨hdir,hkey⟩ := Bool.and_eq_true_iff.mp h
  obtain ⟨loc,hloc,hlocUri⟩ := listed_stands hc hw
    ⟨e.2,KeyedMap.mem_entries.mp he,List.contains_iff_mem.mp hkey⟩
  rw [standsIn_eq_any]
  exact List.any_eq_true.mpr ⟨loc,hloc,hlocUri ▸ hdir⟩

end answers

section reports

theorem filterMap_sublist {α β : Type} {f g : α → Option β} {l : List α}
    (h : ∀ a ∈ l, f a = none ∨ f a = g a) : (l.filterMap f).Sublist (l.filterMap g) := by
  rw [List.filterMap_eq_flatMap_toList,List.filterMap_eq_flatMap_toList]
  refine List.Sublist.flatMap_right l fun a ha => ?_
  rcases h a ha with h | h <;> rw [h]
  · exact List.nil_sublist _

/-- The second lookup says of the module what the first says, and finds no more references. -/
structure FindsNoMore (lookup lookup' : ModuleGraphLookup) : Prop where
  root : lookup'.isRootModule = lookup.isRootModule
  applyable : lookup'.isApplyableRoot = lookup.isApplyableRoot
  «variable» : ∀ name, lookup'.variableIsReferenced name → lookup.variableIsReferenced name
  «local» : ∀ name, lookup'.localIsReferenced name → lookup.localIsReferenced name
  dataSource : ∀ typeName name, lookup'.dataSourceIsReferenced typeName name →
    lookup.dataSourceIsReferenced typeName name

variable {lookup lookup' : ModuleGraphLookup}

theorem FindsNoMore.checkDeclaration (h : FindsNoMore lookup lookup') (item : Structure) :
    (checkDeclaration lookup item).Sublist (checkDeclaration lookup' item) := by
  cases item with
  | «attribute» key span value => exact .slnil
  | block ident labels body =>
    rw [IndexRaces.checkDeclaration,IndexRaces.checkDeclaration]
    split
    · unfold checkVariable
      cases firstLabel labels with
      | none => exact .slnil
      | some name =>
        dsimp only
        rw [h.applyable]
        cases href : lookup.variableIsReferenced name with
        | true => exact List.nil_sublist _
        | false =>
          have href' : lookup'.variableIsReferenced name = false :=
            Bool.eq_false_iff.mpr fun hr => by simp [h.variable name hr] at href
          rw [href']
    · split
      · refine filterMap_sublist fun a _ => ?_
        cases href : lookup.localIsReferenced a.1 with
        | true => exact .inl (by simp)
        | false =>
          have href' : lookup'.localIsReferenced a.1 = false :=
            Bool.eq_false_iff.mpr fun hr => by simp [h.local a.1 hr] at href
          exact .inr (by simp [href'])
      · split
        · rcases labels with - | ⟨typeName,- | ⟨name,labels⟩⟩
          · exact .slnil
          · exact .slnil
          · simp only [checkData]
            cases href : lookup.dataSourceIsReferenced typeName.asStr name.asStr with
            | true => exact List.nil_sublist _
            | false =>
              have href' : lookup'.dataSourceIsReferenced typeName.asStr name.asStr = false :=
                Bool.eq_false_iff.mpr fun hr => by
                  simp [h.dataSource typeName.asStr name.asStr hr] at href
              rw [href']
        · exact .slnil

theorem FindsNoMore.unusedDeclarations (h : FindsNoMore lookup lookup') (body : Body) :
    (unusedDeclarationsDiagnostics lookup body).Sublist
      (unusedDeclarationsDiagnostics lookup' body) := by
  unfold unusedDeclarationsDiagnostics
  rw [h.root]
  split
  · exact .slnil
  · exact List.Sublist.flatMap_right body fun item _ => h.checkDeclaration item

theorem undefinedReferences_sublist {references : List Reference}
    {resolver resolver' : ReferenceKind → Bool} (h : ∀ kind, resolver' kind → resolver kind) :
    (undefinedReferenceDiagnostics references resolver).Sublist
      (undefinedReferenceDiagnostics references resolver') := by
  refine filterMap_sublist fun r _ => ?_
  cases hr : resolver r.kind with
  | true => exact .inl (by simp)
  | false =>
    have hr' : resolver' r.kind = false := Bool.eq_false_iff.mpr fun h' => by
      simp [h r.kind h'] at hr
    exact .inr (by simp [hr'])

end reports

section runs

variable {env : IndexerEnvironment} {s : StateStore}

theorem definedByDocuments_of_isDefinedInModule (hp : s.PartlyIndexed) (hw : s.WellOwned)
    {moduleDir : Option Path} {kind : ReferenceKind}
    (h : isDefinedInModule env.fs s moduleDir kind = true) :
    definedByDocuments env.fs s.documents moduleDir kind = true := by
  cases kind with
  | «variable» name => exact mentions_of_standsIn hp hw .definitions h
  | «local» name => exact mentions_of_standsIn hp hw .definitions h
  | «module» name => exact mentions_of_standsIn hp hw .definitions h
  | resource resourceType name => rfl
  | dataSource resourceType name => rfl

theorem isDefinedInModule_of_definedByDocuments (hc : s.IndexConsistent) (hw : s.WellOwned)
    {moduleDir : Option Path} {kind : ReferenceKind}
    (h : definedByDocuments env.fs s.documents moduleDir kind = true) :
    isDefinedInModule env.fs s moduleDir kind = true := by
  cases kind with
  | «variable» name => exact standsIn_of_mentions hc hw .definitions h
  | «local» name => exact standsIn_of_mentions hc hw .definitions h
  | «module» name => exact standsIn_of_mentions hc hw .definitions h
  | resource resourceType name => rfl
  | dataSource resourceType name => rfl

theorem findsNoMore_adapter (hp : s.PartlyIndexed) (hw : s.WellOwned) (moduleDir : Option Path)
    (uri : Url) : FindsNoMore (documentLookup env.fs s.documents moduleDir uri)
      (ModuleGraphAdapter.lookup env.fs s moduleDir uri) where
  root := rfl
  applyable := rfl
  «variable» _ h := mentions_of_standsIn hp hw .references h
  «local» _ h := mentions_of_standsIn hp hw .references h
  dataSource _ _ h := mentions_of_standsIn hp hw .references h

theorem findsNoMore_documents (hc : s.IndexConsistent) (hw : s.WellOwned)
    (moduleDir : Option Path) (uri : Url) :
    FindsNoMore (ModuleGraphAdapter.lookup env.fs s moduleDir uri)
      (documentLookup env.fs s.documents moduleDir uri) where
  root := rfl
  applyable := rfl
  «variable» _ h := standsIn_of_mentions hc hw .references h
  «local» _ h := standsIn_of_mentions hc hw .references h
  dataSource _ _ h := standsIn_of_mentions hc hw .references h

/-- Nothing stale stands in the indexes, so no report is kept back. -/
theorem documentDiagnostics_sublist (hp : s.PartlyIndexed) (hw : s.WellOwned) (uri : Url)
    (doc : DocumentState) : (documentDiagnostics env s.documents uri doc).Sublist
      (indexDiagnostics env s uri doc) := by
  unfold documentDiagnostics indexDiagnostics
  split
  · exact .slnil
  · refine List.Sublist.append (undefinedReferences_sublist fun kind h => ?_) ?_
    · rw [Bool.or_eq_true] at h ⊢
      exact h.imp_right (definedByDocuments_of_isDefinedInModule hp hw)
    · split
      · exact .slnil
      · cases doc.parsed.body with
        | none => exact .slnil
        | some body => exact (findsNoMore_adapter hp hw _ uri).unusedDeclarations body

/-- Where the indexes are exact nothing is added either. -/
theorem indexDiagnostics_sublist (hc : s.IndexConsistent) (hw : s.WellOwned) (uri : Url)
    (doc : DocumentState) : (indexDiagnostics env s uri doc).Sublist
      (documentDiagnostics env s.documents uri doc) := by
  unfold documentDiagnostics indexDiagnostics
  split
  · exact .slnil
  · refine List.Sublist.append (undefinedReferences_sublist fun kind h => ?_) ?_
    · rw [Bool.or_eq_true] at h ⊢
      exact h.imp_right (isDefinedInModule_of_definedByDocuments hc hw)
    · split
      · exact .slnil
      · cases doc.parsed.body with
        | none => exact .slnil
        | some body => exact (findsNoMore_documents hc hw _ uri).unusedDeclarations body

/-- In every state of every run the indexes give at least the reports that the
documents give, and no others as long as no edit has failed. -/
theorem indexDiagnostics_throughout (env : IndexerEnvironment) {A : Analyzer} (hA : A.Located)
    {ops : List StoreOp} (hops : ∀ op ∈ ops, op.OwnUri) :
    Throughout (StoreOp.step A) (fun s => ∀ uri doc, (documentDiagnostics env s.documents uri
      doc).Sublist (indexDiagnostics env s uri doc)) {} ops ∧
    (Guarded (StoreOp.step A) StoreOp.KeepsEntries {} ops →
      Throughout (StoreOp.step A) (fun s => ∀ uri doc,
        indexDiagnostics env s uri doc = documentDiagnostics env s.documents uri doc) {} ops) := by
  have hpartly := partlyIndexed_throughout hA hops
  refine ⟨hpartly.mono fun s hs uri doc => documentDiagnostics_sublist hs.2 hs.1 uri doc,?_⟩
  intro hkeeps
  have hexact : Throughout (StoreOp.step A) StateStore.IndexConsistent {} ops :=
    (throughout_iff_guarded (fun op hop _ hs => wellOwned_step hA (hops op hop) hs)
      (fun _ op hw h => indexConsistent_step_iff A hw h op) wellOwned_empty
      indexConsistent_empty).mpr hkeeps
  intro pre hpre uri doc
  obtain ⟨hw,hp⟩ := hpartly pre hpre
  have hc := hexact pre hpre
  exact (indexDiagnostics_sublist hc hw uri doc).antisymm (documentDiagnostics_sublist hp hw uri doc)

/-- A file refers to a variable, and the file that declares it is given another text. -/
def renamedDeclaration : List StoreOp :=
  [.upsertDocument referringFile,.upsertDocument declaringFile,
   .applyAndReparseDocument mainUri 2 [⟨none,"variable \"y\" {}"⟩]]

theorem renamedDeclaration_answers :
    indexDiagnostics twoFilesEnvironment
        (run (StoreOp.step declarationAnalyzer) {} renamedDeclaration) consumerUri referringFile =
      documentDiagnostics twoFilesEnvironment
        (run (StoreOp.step declarationAnalyzer) {} renamedDeclaration).documents consumerUri
        referringFile := by
  have hops : ∀ op ∈ renamedDeclaration, op.OwnUri := by
    simp only [renamedDeclaration,List.forall_mem_cons,List.not_mem_nil,false_implies,implies_true,
      and_true]
    refine ⟨⟨?_,?_⟩,DocumentState.new_ownUri declarationAnalyzer_located _ _ _,trivial⟩
    · exact (DocumentState.new_ownUri declarationAnalyzer_located consumerUri "" 1).definitions
    · intro e he
      obtain rfl := List.mem_singleton.mp he
      rfl
  exact (indexDiagnostics_throughout twoFilesEnvironment declarationAnalyzer_located hops).2
    ⟨trivial,trivial,fun _ _ _ => .inl ⟨trivial,trivial⟩,trivial⟩ _ List.prefix_rfl consumerUri
    referringFile

end runs
end DocumentAnswers
end TerraformLs
