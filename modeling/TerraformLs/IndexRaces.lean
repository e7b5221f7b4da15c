import TerraformLs.ModuleAggregates
import TerraformLs.PeerDiagnostics
import TerraformLs.StoreIndex

/-! A store operation takes the entries of a document out of the indexes and files them
again one by one, while the diagnostics of another document look names up without the
lock. -/
namespace TerraformLs
namespace IndexRaces

open ModuleAggregates PeerDiagnostics Multimap

section operations

inductive IndexTable
  | definitions
  | references
  deriving DecidableEq

/-- One access of an operation to the maps of the store. -/
inductive IndexStep
  | withdraw (table : IndexTable) (key : SymbolKey)
  | prune (table : IndexTable)
  | file (table : IndexTable) (key : SymbolKey) (location : SymbolLocation)
  | put (doc : DocumentState)

/-- The operations that rebuild the entries of a document. -/
inductive DocumentOp
  | upsertDocument (doc : DocumentState)
  | applyAndReparseDocument (uri : Url) (version : ℤ) (changes : List ContentChange)
  | reparseDocument (uri : Url)

def DocumentOp.uri : DocumentOp → Url
  | upsertDocument doc => doc.uri
  | applyAndReparseDocument uri _ _ => uri
  | reparseDocument uri => uri

def DocumentOp.toStoreOp : DocumentOp → StoreOp
  | upsertDocument doc => .upsertDocument doc
  | applyAndReparseDocument uri version changes => .applyAndReparseDocument uri version changes
  | reparseDocument uri => .reparseDocument uri

def index (s : StateStore) : IndexTable → Multimap SymbolKey SymbolLocation
  | .definitions => s.definitionsByName
  | .references => s.referencesByName

def setIndex (s : StateStore) (m : Multimap SymbolKey SymbolLocation) : IndexTable → StateStore
  | .definitions => { s with definitionsByName := m }
  | .references => { s with referencesByName := m }

def rows (doc : DocumentState) : IndexTable → List (SymbolKey × SymbolLocation)
  | .definitions => doc.definitionRows
  | .references => doc.referenceRows

def docKeys (doc : DocumentState) : IndexTable → List SymbolKey
  | .definitions => (collectDocKeys doc).definitions
  | .references => (collectDocKeys doc).references

/-- The store after one access on behalf of the document. -/
def access (uri : Url) (s : StateStore) : IndexStep → StateStore
  | .withdraw table key =>
    setIndex s (KeyedMap.modify key (List.filter fun loc => loc.uri ≠ uri) (index s table)) table
  | .prune table => setIndex s (index s table).prune table
  | .file table key location => setIndex s ((index s table).push (key,location)) table
  | .put doc => { s with documents := s.documents.insert uri doc }

def withdrawals (doc : DocumentState) (table : IndexTable) : List IndexStep :=
  (docKeys doc table).map (.withdraw table)

def filings (doc : DocumentState) (table : IndexTable) : List IndexStep :=
  (rows doc table).map fun row => .file table row.1 row.2

/-- Nothing is withdrawn for a document that is not stored. -/
def removeSteps (s : StateStore) (uri : Url) : List IndexStep :=
  match s.documents.lookup uri with
  | none => []
  | some doc => withdrawals doc .definitions ++ withdrawals doc .references ++
    [.prune .definitions,.prune .references]

def addSteps (doc : DocumentState) : List IndexStep :=
  filings doc .definitions ++ filings doc .references

/-- The edited document, and whether its entries are filed again. -/
def editSteps (A : Analyzer) (doc : DocumentState) (version : ℤ) (changes : List ContentChange) :
    List IndexStep :=
  match doc.applyVersionedChanges version changes with
  | (doc,.ok applied) =>
    let doc := if applied.isSome then doc.reparse A else doc
    .put doc :: addSteps doc
  | (doc,.err _) => [.put doc]
  | (doc,.panicked) => [.put doc]

/-- The accesses of an operation, in order. -/
def steps (A : Analyzer) (s : StateStore) : DocumentOp → List IndexStep
  | .upsertDocument doc => removeSteps s doc.uri ++ (addSteps doc ++ [.put doc])
  | .applyAndReparseDocument uri version changes =>
    removeSteps s uri ++ match s.documents.lookup uri with
      | none => []
      | some doc => editSteps A doc version changes
  | .reparseDocument uri =>
    removeSteps s uri ++ match s.documents.lookup uri with
      | none => []
      | some doc => .put (doc.reparse A) :: addSteps (doc.reparse A)

end operations

section atomic

variable {A : Analyzer} {uri : Url}

@[simp] theorem index_setIndex (s : StateStore) (m : Multimap SymbolKey SymbolLocation)
    (table : IndexTable) : index (setIndex s m table) table = m := by
  cases table <;> rfl

@[simp] theorem setIndex_setIndex (s : StateStore) (m n : Multimap SymbolKey SymbolLocation)
    (table : IndexTable) : setIndex (setIndex s m table) n table = setIndex s n table := by
  cases table <;> rfl

theorem index_setIndex_of_ne (s : StateStore) (m : Multimap SymbolKey SymbolLocation)
    {table other : IndexTable} (h : other ≠ table) :
    index (setIndex s m table) other = index s other := by
  cases table <;> cases other <;> first | rfl | exact absurd rfl h

theorem run_withdrawals (s : StateStore) (keys : List SymbolKey) (table : IndexTable) :
    run (access uri) s (keys.map (.withdraw table)) =
      setIndex s ((index s table).keepAt (fun loc => loc.uri ≠ uri) keys) table := by
  induction keys generalizing s with
  | nil => cases table <;> rfl
  | cons key keys ih =>
    rw [List.map_cons,run_cons,ih]
    simp [access,keepAt]

theorem run_filings (s : StateStore) (es : List (SymbolKey × SymbolLocation))
    (table : IndexTable) :
    run (access uri) s (es.map fun row => .file table row.1 row.2) =
      setIndex s ((index s table).pushAll es) table := by
  induction es generalizing s with
  | nil => cases table <;> rfl
  | cons e es ih =>
    rw [List.map_cons,run_cons,ih]
    simp [access,pushAll]

theorem run_removeSteps (s : StateStore) (uri : Url) :
    run (access uri) s (removeSteps s uri) = s.removeFromIndexes uri := by
  unfold removeSteps StateStore.removeFromIndexes
  cases s.documents.lookup uri with
  | none => rfl
  | some doc =>
    simp only [run_append,withdrawals,run_withdrawals]
    rfl

theorem run_addSteps (s : StateStore) (doc : DocumentState) :
    run (access uri) s (addSteps doc) = s.addToIndexes doc := by
  simp only [addSteps,run_append,filings,run_filings]
  rfl

/-- One access after the other, an operation does what it does at once. -/
theorem run_steps (A : Analyzer) (s : StateStore) (op : DocumentOp) :
    run (access op.uri) s (steps A s op) = op.toStoreOp.step A s := by
  cases op with
  | upsertDocument doc =>
    simp only [steps,DocumentOp.uri,run_append,run_removeSteps,run_addSteps]
    rfl
  | applyAndReparseDocument uri version changes =>
    simp only [steps,DocumentOp.uri,run_append,run_removeSteps,DocumentOp.toStoreOp,StoreOp.step,
      StateStore.applyAndReparseDocument,StateStore.removeFromIndexes_documents]
    cases s.documents.lookup uri with
    | none => rfl
    | some doc =>
      simp only [editSteps]
      rcases doc.applyVersionedChanges version changes with ⟨doc,_ | _ | _⟩
      · simp only [run_cons,run_addSteps,access,StateStore.removeFromIndexes_documents]
      · simp only [run_cons,run_nil,access,StateStore.removeFromIndexes_documents]
      · simp only [run_cons,run_nil,access,StateStore.removeFromIndexes_documents]
  | reparseDocument uri =>
    simp only [steps,DocumentOp.uri,run_append,run_removeSteps,DocumentOp.toStoreOp,StoreOp.step,
      StateStore.reparseDocument,StateStore.removeFromIndexes_documents]
    cases s.documents.lookup uri with
    | none => rfl
    | some doc =>
      simp only [run_cons,run_addSteps,access,StateStore.removeFromIndexes_documents]

end atomic
section entries

variable {uri : Url}

def IndexStep.isFile : IndexStep → Bool
  | .file _ _ _ => true
  | _ => false

def IndexStep.isWithdraw : IndexStep → Bool
  | .withdraw _ _ => true
  | _ => false

/-- Nothing is withdrawn once something has been filed. -/
def Ordered (ws : List IndexStep) : Prop :=
  ws.Pairwise fun a b => a.isFile = true → b.isWithdraw = false

theorem mem_filed_access (s : StateStore) (a : IndexStep) (table : IndexTable) (key : SymbolKey)
    (loc : SymbolLocation) : loc ∈ (index (access uri s a) table).filed key ↔
      (loc ∈ (index s table).filed key ∧ (loc.uri = uri → a ≠ .withdraw table key)) ∨
        a = .file table key loc := by
  cases a with
  | withdraw table' key' =>
    by_cases ht : table = table'
    · subst ht
      have hfiled := filed_keepAt (index s table) (fun loc => loc.uri ≠ uri) [key'] key
      simp only [keepAt,List.foldl_cons,List.foldl_nil,List.mem_singleton] at hfiled
      rw [access,index_setIndex,hfiled]
      by_cases hk : key = key'
      · simp [hk]
      · simp [hk,Ne.symm hk]
    · rw [access,index_setIndex_of_ne _ _ ht]
      simp [Ne.symm ht]
  | prune table' =>
    by_cases ht : table = table'
    · subst ht
      simp [access]
    · simp [access,index_setIndex_of_ne _ _ ht]
  | file table' key' loc' =>
    by_cases ht : table = table'
    · subst ht
      by_cases hk : key' = key
      · simp [access,hk,eq_comm]
      · simp [access,hk]
    · simp [access,index_setIndex_of_ne _ _ ht,Ne.symm ht]
  | put doc => cases table <;> simp [access,index]

/-- An entry stands that was there and has not been withdrawn, or that has been filed. -/
theorem mem_filed_run (s : StateStore) {ws : List IndexStep} (hws : Ordered ws)
    (table : IndexTable) (key : SymbolKey) (loc : SymbolLocation) :
    loc ∈ (index (run (access uri) s ws) table).filed key ↔
      (loc ∈ (index s table).filed key ∧ (loc.uri = uri → .withdraw table key ∉ ws)) ∨
        .file table key loc ∈ ws := by
  induction ws using List.reverseRecOn with
  | nil => simp
  | append_singleton ws a ih =>
    have hordered := List.pairwise_append.mp hws
    rw [run_concat,mem_filed_access,ih hordered.1]
    constructor
    · rintro (⟨⟨hold,hws⟩ | hfile,ha⟩ | hfile)
      · refine .inl ⟨hold,fun huri hmem => ?_⟩
        rcases List.mem_append.mp hmem with hmem | hmem
        · exact hws huri hmem
        · exact ha huri (List.mem_singleton.mp hmem).symm
      · exact .inr (List.mem_append_left _ hfile)
      · exact .inr (List.mem_append_right _ (by simp [hfile]))
    · rintro (⟨hold,hws⟩ | hfile)
      · refine .inl ⟨.inl ⟨hold,fun huri hmem => ?_⟩,fun huri ha => ?_⟩
        · exact hws huri (List.mem_append_left _ hmem)
        · exact hws huri (by simp [ha])
      · rcases List.mem_append.mp hfile with hfile | hfile
        · refine .inl ⟨.inr hfile,fun _ ha => ?_⟩
          have hlast := hordered.2.2 _ hfile a (List.mem_singleton_self a) rfl
          rw [ha] at hlast
          cases hlast
        · exact .inr (List.mem_singleton.mp hfile).symm

theorem ordered_append {xs ys : List IndexStep} (hxs : ∀ a ∈ xs, a.isFile = false)
    (hys : ∀ b ∈ ys, b.isWithdraw = false) : Ordered (xs ++ ys) := by
  refine List.pairwise_append.mpr ⟨?_,?_,fun a _ b hb _ => hys b hb⟩
  · exact List.Pairwise.imp_of_mem (fun ha _ _ h => absurd h (by simp [hxs _ ha]))
      (List.pairwise_of_forall fun _ _ => trivial)
  · exact List.Pairwise.imp_of_mem (fun _ hb _ _ => hys _ hb)
      (List.pairwise_of_forall fun _ _ => trivial)

theorem isFile_of_mem_removeSteps {s : StateStore} {a : IndexStep} (h : a ∈ removeSteps s uri) :
    a.isFile = false := by
  unfold removeSteps at h
  split at h
  · cases h
  · simp only [withdrawals,List.mem_append,List.mem_map,List.mem_cons,List.not_mem_nil,
      or_false] at h
    rcases h with (⟨key,-,rfl⟩ | ⟨key,-,rfl⟩) | rfl | rfl <;> rfl

theorem isWithdraw_of_mem_addSteps {doc : DocumentState} {a : IndexStep} (h : a ∈ addSteps doc) :
    a.isWithdraw = false := by
  simp only [addSteps,filings,List.mem_append,List.mem_map] at h
  rcases h with ⟨row,-,rfl⟩ | ⟨row,-,rfl⟩ <;> rfl

theorem isWithdraw_of_mem_put {doc : DocumentState} {a : IndexStep}
    (h : a ∈ .put doc :: addSteps doc) : a.isWithdraw = false := by
  rcases List.mem_cons.mp h with rfl | h
  · rfl
  · exact isWithdraw_of_mem_addSteps h

theorem isWithdraw_of_mem_editSteps {A : Analyzer} {doc : DocumentState} {version : ℤ}
    {changes : List ContentChange} {a : IndexStep} (h : a ∈ editSteps A doc version changes) :
    a.isWithdraw = false := by
  unfold editSteps at h
  split at h
  · exact isWithdraw_of_mem_put h
  · rw [List.mem_singleton.mp h]
    rfl
  · rw [List.mem_singleton.mp h]
    rfl

/-- An operation withdraws before it files. -/
theorem steps_ordered (A : Analyzer) (s : StateStore) (op : DocumentOp) :
    Ordered (steps A s op) := by
  cases op with
  | upsertDocument doc =>
    refine ordered_append (fun a ha => isFile_of_mem_removeSteps ha) fun b hb => ?_
    rcases List.mem_append.mp hb with hb | hb
    · exact isWithdraw_of_mem_addSteps hb
    · rw [List.mem_singleton.mp hb]
      rfl
  | applyAndReparseDocument uri version changes =>
    refine ordered_append (fun a ha => isFile_of_mem_removeSteps ha) fun b hb => ?_
    split at hb
    · cases hb
    · exact isWithdraw_of_mem_editSteps hb
  | reparseDocument uri =>
    refine ordered_append (fun a ha => isFile_of_mem_removeSteps ha) fun b hb => ?_
    split at hb
    · cases hb
    · exact isWithdraw_of_mem_put hb

/-- The document has an entry under the key. -/
def Lists (s : StateStore) (uri : Url) (table : IndexTable) (key : SymbolKey) : Prop :=
  ∃ doc, s.documents.lookup uri = some doc ∧ key ∈ (rows doc table).map Prod.fst

/-- What a consistent store lists for a document stands in its indexes. -/
theorem listed_stands {s : StateStore} (hc : s.IndexConsistent) (hw : s.WellOwned)
    {table : IndexTable} {key : SymbolKey} (h : Lists s uri table key) :
    ∃ loc ∈ (index s table).filed key, loc.uri = uri := by
  obtain ⟨doc,hdoc,hkey⟩ := h
  obtain ⟨⟨key,loc⟩,hrow,rfl⟩ := List.mem_map.mp hkey
  cases table with
  | definitions =>
    exact ⟨loc,hc.definitions.mem_filed.mpr ⟨uri,doc,hdoc,hrow⟩,
      hw.definitions (fun _ _ hd => hd) uri doc hdoc _ hrow⟩
  | references =>
    exact ⟨loc,hc.references.mem_filed.mpr ⟨uri,doc,hdoc,hrow⟩,
      hw.references (fun _ _ hd => hd) uri doc hdoc _ hrow⟩

theorem row_of_mem_addSteps {doc : DocumentState} {table : IndexTable} {key : SymbolKey}
    {loc : SymbolLocation} (h : .file table key loc ∈ addSteps doc) :
    (key,loc) ∈ rows doc table := by
  simp only [addSteps,filings,List.mem_append,List.mem_map] at h
  rcases h with ⟨row,hrow,he⟩ | ⟨row,hrow,he⟩ <;>
    · cases he
      exact hrow

theorem row_of_mem_put {doc doc' : DocumentState} {table : IndexTable} {key : SymbolKey}
    {loc : SymbolLocation} (h : .file table key loc ∈ .put doc' :: addSteps doc) :
    (key,loc) ∈ rows doc table := by
  rcases List.mem_cons.mp h with h | h
  · cases h
  · exact row_of_mem_addSteps h

/-- What an operation files are the rows of the document it leaves. -/
theorem row_of_mem_steps {A : Analyzer} {s : StateStore} {op : DocumentOp} {table : IndexTable}
    {key : SymbolKey} {loc : SymbolLocation} (h : .file table key loc ∈ steps A s op) :
    ∃ doc, (op.toStoreOp.step A s).documents.lookup op.uri = some doc ∧
      (key,loc) ∈ rows doc table := by
  have hremove : ∀ uri, .file table key loc ∉ removeSteps s uri := by
    intro uri hmem
    cases isFile_of_mem_removeSteps hmem
  cases op with
  | upsertDocument doc =>
    refine ⟨doc,AList.lookup_insert _,?_⟩
    rcases List.mem_append.mp ((List.mem_append.mp h).resolve_left (hremove _)) with h | h
    · exact row_of_mem_addSteps h
    · simp at h
  | applyAndReparseDocument uri version changes =>
    have h := (List.mem_append.mp h).resolve_left (hremove _)
    simp only [DocumentOp.toStoreOp,StoreOp.step,StateStore.applyAndReparseDocument,
      StateStore.removeFromIndexes_documents,DocumentOp.uri]
    cases hdoc : s.documents.lookup uri with
    | none =>
      rw [hdoc] at h
      cases h
    | some doc =>
      rw [hdoc] at h
      simp only [editSteps] at h ⊢
      generalize doc.applyVersionedChanges version changes = result at h ⊢
      rcases result with ⟨doc,applied | e | -⟩
      · exact ⟨_,AList.lookup_insert _,row_of_mem_put h⟩
      · simp at h
      · simp at h
  | reparseDocument uri =>
    have h := (List.mem_append.mp h).resolve_left (hremove _)
    simp only [DocumentOp.toStoreOp,StoreOp.step,StateStore.reparseDocument,
      StateStore.removeFromIndexes_documents,DocumentOp.uri]
    cases hdoc : s.documents.lookup uri with
    | none =>
      rw [hdoc] at h
      cases h
    | some doc =>
      rw [hdoc] at h
      exact ⟨_,AList.lookup_insert _,row_of_mem_put h⟩

theorem uri_of_mem_steps {A : Analyzer} (hA : A.Located) {s : StateStore} {op : DocumentOp}
    (hop : op.toStoreOp.OwnUri) (hw : s.WellOwned) {table : IndexTable} {key : SymbolKey}
    {loc : SymbolLocation} (h : .file table key loc ∈ steps A s op) : loc.uri = op.uri := by
  obtain ⟨doc,hdoc,hrow⟩ := row_of_mem_steps h
  have hown := StateStore.wellOwned_step hA hop hw op.uri doc hdoc
  cases table with
  | definitions => exact (hown.2.definitions _ hrow).trans hown.1
  | references => exact (hown.2.references _ hrow).trans hown.1

end entries

section rules

def definedInCurrentDoc (symbols : SymbolTable) : ReferenceKind → Bool
  | .variable name => name ∈ symbols.variables
  | .local name => name ∈ symbols.locals
  | .module name => name ∈ symbols.modules
  | .resource _ _ | .dataSource _ _ => false

def undefinedMessage : ReferenceKind → Option String
  | .variable name => some ("undefined variable `" ++ name ++ "`")
  | .local name => some ("undefined local `" ++ name ++ "`")
  | .module name => some ("undefined module `" ++ name ++ "`")
  | .resource _ _ | .dataSource _ _ => none

def undefinedReferenceDiagnostics (references : List Reference) (resolver : ReferenceKind → Bool) :
    List String :=
  references.filterMap fun r => if resolver r.kind then none else undefinedMessage r.kind

variable (lookup : ModuleGraphLookup)

def checkVariable (labels : List BlockLabel) : List String :=
  match firstLabel labels with
  | none => []
  | some name =>
    if lookup.variableIsReferenced name then []
    else if !lookup.isApplyableRoot then []
    else ["variable `" ++ name ++ "` is declared but not used"]

def checkLocals (body : Body) : List String :=
  (ModuleGraph.attrs body).filterMap fun a =>
    if lookup.localIsReferenced a.1 then none
    else some ("local `" ++ a.1 ++ "` is declared but not used")

def checkData : List BlockLabel → List String
  | typeName::name::_ =>
    if lookup.dataSourceIsReferenced typeName.asStr name.asStr then []
    else ["data `" ++ typeName.asStr ++ "." ++ name.asStr ++ "` is declared but not used"]
  | _ => []

def checkDeclaration : Structure → List String
  | .attribute _ _ _ => []
  | .block ident labels body =>
    if ident = "variable" then checkVariable lookup labels
    else if ident = "locals" then checkLocals lookup body
    else if ident = "data" then checkData lookup labels
    else []

def unusedDeclarationsDiagnostics (body : Body) : List String :=
  if !lookup.isRootModule then [] else body.flatMap (checkDeclaration lookup)

variable (env : IndexerEnvironment) (s : StateStore) (uri : Url)

/-- What the two rules say of a document in a store that stays as it is. -/
def indexDiagnostics (doc : DocumentState) : List String :=
  if doc.parsed.hasErrors then [] else
    undefinedReferenceDiagnostics doc.references (fun kind =>
        definedInCurrentDoc doc.symbols kind ||
          isDefinedInModule env.fs s (moduleScopeDir env uri) kind) ++
      if isTftestUri uri then []
      else doc.parsed.body.elim [] fun body => unusedDeclarationsDiagnostics
        (ModuleGraphAdapter.lookup env.fs s (env.fs.parentDir uri) uri) body

end rules

section lookups

/-- One access of the rules to an index, and what is said when nothing of the
module is found. -/
structure IndexLookup where
  table : IndexTable
  key : SymbolKey
  dir : Option Path
  message : Option String
  deriving DecidableEq

def IndexLookup.found (fs : FileSystem) (s : StateStore) (look : IndexLookup) : Bool :=
  standsIn fs (index s look.table) look.dir look.key

/-- The document's own symbols are asked first. -/
def undefinedLookup (symbols : SymbolTable) (dir : Option Path) (r : Reference) :
    Option IndexLookup :=
  if definedInCurrentDoc symbols r.kind then none
  else (undefinedMessage r.kind).map fun message =>
    ⟨.definitions,referenceKey r.kind,dir,some message⟩

/-- Unused variables are reported where the module can be applied. -/
def variableLookups (dir : Option Path) (applyable : String → Bool) (labels : List BlockLabel) :
    List IndexLookup :=
  match firstLabel labels with
  | none => []
  | some name => [⟨.references,⟨.variable,name⟩,dir,
      if applyable name then some ("variable `" ++ name ++ "` is declared but not used") else none⟩]

def localLookups (dir : Option Path) (body : Body) : List IndexLookup :=
  (ModuleGraph.attrs body).map fun a =>
    ⟨.references,⟨.local,a.1⟩,dir,some ("local `" ++ a.1 ++ "` is declared but not used")⟩

def dataLookups (dir : Option Path) : List BlockLabel → List IndexLookup
  | typeName::name::_ => [⟨.references,.resource .dataSource typeName.asStr name.asStr,dir,
      some ("data `" ++ typeName.asStr ++ "." ++ name.asStr ++ "` is declared but not used")⟩]
  | _ => []

def declarationLookups (dir : Option Path) (applyable : String → Bool) :
    Structure → List IndexLookup
  | .attribute _ _ _ => []
  | .block ident labels body =>
    if ident = "variable" then variableLookups dir applyable labels
    else if ident = "locals" then localLookups dir body
    else if ident = "data" then dataLookups dir labels
    else []

/-- The lookups for a document, in order, with the answers that the documents of
the workspace gave to the two questions about the module. -/
def lookups (env : IndexerEnvironment) (uri : Url) (doc : DocumentState) (root : Bool)
    (applyable : String → Bool) : List IndexLookup :=
  if doc.parsed.hasErrors then [] else
    doc.references.filterMap (undefinedLookup doc.symbols (moduleScopeDir env uri)) ++
      if isTftestUri uri then []
      else doc.parsed.body.elim [] fun body =>
        if !root then [] else body.flatMap (declarationLookups (env.fs.parentDir uri) applyable)

/-- The messages of lookups in a store that stays as it is. -/
def IndexLookup.diagnostic (fs : FileSystem) (s : StateStore) (look : IndexLookup) :
    Option String :=
  if look.found fs s then none else look.message

variable (env : IndexerEnvironment) (s : StateStore) (uri : Url)

theorem found_definition (dir : Option Path) (kind : ReferenceKind) (message : Option String)
    (h : (undefinedMessage kind).isSome) :
    (IndexLookup.mk .definitions (referenceKey kind) dir message).found env.fs s =
      isDefinedInModule env.fs s dir kind := by
  cases kind with
  | «variable» name => rfl
  | «local» name => rfl
  | «module» name => rfl
  | resource resourceType name => cases h
  | dataSource resourceType name => cases h

theorem undefinedLookup_diagnostics (symbols : SymbolTable) (dir : Option Path)
    (references : List Reference) :
    (references.filterMap (undefinedLookup symbols dir)).filterMap
        (IndexLookup.diagnostic env.fs s) =
      undefinedReferenceDiagnostics references fun kind =>
        definedInCurrentDoc symbols kind || isDefinedInModule env.fs s dir kind := by
  rw [List.filterMap_filterMap]
  apply List.filterMap_congr
  intro r _
  unfold undefinedLookup
  by_cases hown : definedInCurrentDoc symbols r.kind = true
  · simp [hown]
  · cases hm : undefinedMessage r.kind with
    | none => simp [hown]
    | some message =>
      have hfound := found_definition env s dir r.kind (some message) (by simp [hm])
      simp [hown,IndexLookup.diagnostic,hfound]

theorem found_reference (fs : FileSystem) (key : SymbolKey) (dir : Option Path)
    (message : Option String) :
    (IndexLookup.mk .references key dir message).found fs s =
      ModuleGraphAdapter.hasRef fs s dir key := rfl

theorem declarationLookups_diagnostics (item : Structure) :
    let lookup := ModuleGraphAdapter.lookup env.fs s (env.fs.parentDir uri) uri
    (declarationLookups (env.fs.parentDir uri) (fun _ => lookup.isApplyableRoot) item).filterMap
      (IndexLookup.diagnostic env.fs s) = checkDeclaration lookup item := by
  intro lookup
  cases item with
  | «attribute» key span value => rfl
  | block ident labels body =>
    rw [declarationLookups,checkDeclaration]
    split
    · unfold variableLookups checkVariable
      cases firstLabel labels with
      | none => rfl
      | some name =>
        have hfound : lookup.variableIsReferenced name =
          ModuleGraphAdapter.hasRef env.fs s (env.fs.parentDir uri) ⟨.variable,name⟩ := rfl
        cases href : lookup.variableIsReferenced name <;> cases hroot : lookup.isApplyableRoot <;>
          simp [IndexLookup.diagnostic,found_reference,← hfound,href]
    · split
      · unfold localLookups checkLocals
        rw [List.filterMap_map]
        rfl
      · split
        · rcases labels with - | ⟨typeName,- | ⟨name,labels⟩⟩
          · rfl
          · rfl
          · have hfound : lookup.dataSourceIsReferenced typeName.asStr name.asStr =
              ModuleGraphAdapter.hasRef env.fs s (env.fs.parentDir uri)
                (.resource .dataSource typeName.asStr name.asStr) := rfl
            cases href : lookup.dataSourceIsReferenced typeName.asStr name.asStr <;>
              simp [dataLookups,checkData,IndexLookup.diagnostic,found_reference,← hfound,href]
        · rfl

/-- Undisturbed, the lookups say what the rules say. -/
theorem lookups_diagnostics (doc : DocumentState) :
    let lookup := ModuleGraphAdapter.lookup env.fs s (env.fs.parentDir uri) uri
    (lookups env uri doc lookup.isRootModule fun _ => lookup.isApplyableRoot).filterMap
      (IndexLookup.diagnostic env.fs s) = indexDiagnostics env s uri doc := by
  intro lookup
  unfold lookups indexDiagnostics
  split
  · rfl
  · rw [List.filterMap_append,undefinedLookup_diagnostics]
    congr 1
    split
    · rfl
    · cases doc.parsed.body with
      | none => rfl
      | some body =>
        simp only [Option.elim_some,unusedDeclarationsDiagnostics]
        split
        · rfl
        · rw [List.filterMap_flatMap]
          exact List.flatMap_congr fun item _ => declarationLookups_diagnostics env s uri item

theorem dir_of_mem_declarationLookups {dir : Option Path} {applyable : String → Bool}
    {item : Structure} {look : IndexLookup} (h : look ∈ declarationLookups dir applyable item) :
    look.dir = dir := by
  cases item with
  | «attribute» key span value => cases h
  | block ident labels body =>
    rw [declarationLookups] at h
    split at h
    · unfold variableLookups at h
      split at h
      · cases h
      · rw [List.mem_singleton.mp h]
    · split at h
      · obtain ⟨a,-,rfl⟩ := List.mem_map.mp h
        rfl
      · split at h
        · unfold dataLookups at h
          split at h
          · rw [List.mem_singleton.mp h]
          · cases h
        · cases h

theorem dir_of_mem_lookups {env : IndexerEnvironment} {uri : Url} {doc : DocumentState}
    {root : Bool} {applyable : String → Bool} {look : IndexLookup}
    (h : look ∈ lookups env uri doc root applyable) :
    look.dir = moduleScopeDir env uri := by
  unfold lookups at h
  split at h
  · cases h
  · rcases List.mem_append.mp h with h | h
    · obtain ⟨r,-,hr⟩ := List.mem_filterMap.mp h
      unfold undefinedLookup at hr
      split at hr
      · cases hr
      · obtain ⟨message,-,rfl⟩ := Option.map_eq_some_iff.mp hr
        rfl
    · split at h
      · cases h
      · rename_i htest
        rw [moduleScopeDir,if_neg htest]
        cases hb : doc.parsed.body with
        | none =>
          rw [hb] at h
          cases h
        | some body =>
          rw [hb,Option.elim_some] at h
          split at h
          · cases h
          · obtain ⟨item,-,hitem⟩ := List.mem_flatMap.mp h
            exact dir_of_mem_declarationLookups hitem

end lookups

section overlaps

variable (env : IndexerEnvironment)

/-- A step of the operation, or a lookup of the rules, which keep what they have
found missing. -/
def overlapStep (fs : FileSystem) (uri : Url) (t : StateStore × List IndexLookup) :
    IndexStep ⊕ IndexLookup → StateStore × List IndexLookup
  | .inl a => (access uri t.1 a,t.2)
  | .inr look => (t.1,if look.found fs t.1 then t.2 else t.2 ++ [look])

/-- An operation on one document of a module overlaps with the diagnostics of another. -/
structure Overlap where
  store : StateStore
  op : DocumentOp
  reader : Url
  doc : DocumentState
  stored : store.documents.lookup reader = some doc
  distinct : reader ≠ op.uri
  sameModule : (moduleScopeDir env reader).all (env.fs.inDir op.uri) = true
  root : Bool
  applyable : String → Bool
  schedule : List (IndexStep ⊕ IndexLookup)
  interleaves : Interleaves [(steps env.analyzer store op).map .inl,
    (lookups env reader doc root applyable).map .inr] schedule

namespace Overlap

variable {env} (o : Overlap env)

/-- The other document declares the name, or refers to it, before the operation and after. -/
def Shared (look : IndexLookup) : Prop :=
  Lists o.store o.op.uri look.table look.key ∧
    Lists (o.op.toStoreOp.step env.analyzer o.store) o.op.uri look.table look.key

/-- What is reported, in the end. -/
def reported : List IndexLookup :=
  (run (overlapStep env.fs o.op.uri) (o.store,[]) o.schedule).2.filter fun look =>
    look.message.isSome

/-- At the lookup an entry of the module stands under its key: one from before that
is another document's or has not been withdrawn yet, or one that has been filed again. -/
def Covered (pre : List (IndexStep ⊕ IndexLookup)) (look : IndexLookup) : Prop :=
  (∃ loc ∈ (index o.store look.table).filed look.key, look.dir.all (env.fs.inDir loc.uri) ∧
      (loc.uri = o.op.uri → .inl (.withdraw look.table look.key) ∉ pre)) ∨
    ∃ loc, .inl (.file look.table look.key loc) ∈ pre ∧ look.dir.all (env.fs.inDir loc.uri)

theorem mem_reports {fs : FileSystem} {uri : Url} {look : IndexLookup}
    (schedule : List (IndexStep ⊕ IndexLookup)) (s : StateStore) (out : List IndexLookup) :
    look ∈ (run (overlapStep fs uri) (s,out) schedule).2 ↔ look ∈ out ∨
      ∃ pre post, schedule = pre ++ .inr look :: post ∧
        look.found fs (run (access uri) s (pre.filterMap Sum.getLeft?)) = false := by
  induction schedule generalizing s out with
  | nil => simp
  | cons a schedule ih =>
    rw [run_cons,exists_split_cons]
    cases a with
    | inl a =>
      rw [overlapStep,ih]
      simp
    | inr first =>
      rw [overlapStep,ih]
      by_cases hfirst : first.found fs s = true
      · have hother : ¬(Sum.inr (α:=IndexStep) first = .inr look ∧ look.found fs s = false) := by
          rintro ⟨heq,hlook⟩
          cases heq
          rw [hfirst] at hlook
          cases hlook
        rw [if_pos hfirst]
        exact or_congr_right (or_iff_right hother).symm
      · have hmem : look ∈ out ++ [first] ↔ look ∈ out ∨
            (Sum.inr (α:=IndexStep) first = .inr look ∧ look.found fs s = false) := by
          rw [List.mem_append,List.mem_singleton]
          refine or_congr_right ⟨?_,fun h => (Sum.inr.inj h.1).symm⟩
          rintro rfl
          exact ⟨rfl,by simpa using hfirst⟩
        rw [if_neg hfirst,hmem,or_assoc]
        rfl

theorem lefts_ordered {pre post : List (IndexStep ⊕ IndexLookup)} (h : o.schedule = pre ++ post) :
    Ordered (pre.filterMap Sum.getLeft?) := by
  have hlefts := o.interleaves.filterMap_getLeft?
  rw [h,List.filterMap_append] at hlefts
  refine List.Pairwise.sublist ?_ (steps_ordered env.analyzer o.store o.op)
  rw [← hlefts]
  exact List.sublist_append_left _ _

theorem mem_lefts {a : IndexStep} {pre : List (IndexStep ⊕ IndexLookup)} :
    a ∈ pre.filterMap Sum.getLeft? ↔ .inl a ∈ pre := by
  rw [List.mem_filterMap]
  constructor
  · rintro ⟨b,hb,ha⟩
    rwa [← Sum.getLeft?_eq_some_iff.mp ha]
  · exact fun ha => ⟨.inl a,ha,rfl⟩

/-- A lookup finds something exactly when an entry of the module stands. -/
theorem found_iff_covered {pre post : List (IndexStep ⊕ IndexLookup)} {look : IndexLookup}
    (h : o.schedule = pre ++ post) :
    look.found env.fs (run (access o.op.uri) o.store (pre.filterMap Sum.getLeft?)) = true ↔
      o.Covered pre look := by
  rw [IndexLookup.found,standsIn_eq_any,List.any_eq_true]
  simp only [mem_filed_run o.store (o.lefts_ordered h),mem_lefts]
  constructor
  · rintro ⟨loc,⟨hold,hwithdraw⟩ | hfile,hin⟩
    · exact .inl ⟨loc,hold,hin,hwithdraw⟩
    · exact .inr ⟨loc,hfile,hin⟩
  · rintro (⟨loc,hold,hin,hwithdraw⟩ | ⟨loc,hfile,hin⟩)
    · exact ⟨loc,.inl ⟨hold,hwithdraw⟩,hin⟩
    · exact ⟨loc,.inr hfile,hin⟩

/-- Nothing is reported that the other document provides before and after the
operation exactly when every lookup for it comes while an entry stands. -/
theorem nothing_spurious_iff :
    (∀ look ∈ o.reported, ¬o.Shared look) ↔ ∀ pre look post,
      o.schedule = pre ++ .inr look :: post → look.message.isSome → o.Shared look →
        o.Covered pre look := by
  have hreported : ∀ look, look ∈ o.reported ↔
      (∃ pre post, o.schedule = pre ++ .inr look :: post ∧
        look.found env.fs (run (access o.op.uri) o.store (pre.filterMap Sum.getLeft?)) = false) ∧
      look.message.isSome := by
    intro look
    rw [reported,List.mem_filter,mem_reports]
    simp
  constructor
  · intro h pre look post hsplit hmessage hshared
    rw [← o.found_iff_covered hsplit]
    by_contra hfound
    exact h look ((hreported look).mpr ⟨⟨pre,post,hsplit,by simpa using hfound⟩,hmessage⟩) hshared
  · intro h look hlook hshared
    obtain ⟨⟨pre,post,hsplit,hfound⟩,hmessage⟩ := (hreported look).mp hlook
    have hcovered := h pre look post hsplit hmessage hshared
    rw [← o.found_iff_covered hsplit,hfound] at hcovered
    cases hcovered

/-- The document under diagnosis is not touched. -/
theorem doc_undisturbed (ws : List IndexStep) :
    (run (access o.op.uri) o.store ws).documents.lookup o.reader = some o.doc := by
  have hstep : ∀ s a, (access o.op.uri s a).documents.lookup o.reader =
      s.documents.lookup o.reader := by
    intro s a
    cases a with
    | withdraw table key => cases table <;> rfl
    | prune table => cases table <;> rfl
    | file table key loc => cases table <;> rfl
    | put doc => exact AList.lookup_insert_ne o.distinct
  induction ws using List.reverseRecOn with
  | nil => exact o.stored
  | append_singleton ws a ih => rw [run_concat,hstep,ih]

section consistent

variable {look : IndexLookup} {pre post : List (IndexStep ⊕ IndexLookup)}

theorem dir_of_mem_schedule (h : .inr look ∈ o.schedule) :
    look.dir = moduleScopeDir env o.reader := by
  have hmem := o.interleaves.perm.mem_iff.mp h
  simp only [List.flatten_cons,List.flatten_nil,List.append_nil,List.mem_append,List.mem_map,
    reduceCtorEq,and_false,exists_false,false_or,Sum.inr.injEq,exists_eq_right] at hmem
  exact dir_of_mem_lookups hmem

theorem mem_steps_of_mem_schedule {a : IndexStep} (h : .inl a ∈ o.schedule) :
    a ∈ steps env.analyzer o.store o.op := by
  have hmem := o.interleaves.perm.mem_iff.mp h
  simpa using hmem

/-- In a consistent store the entries of a shared name are missing from when the
name is withdrawn until it is filed again. -/
theorem covered_iff_outside_gap (hc : o.store.IndexConsistent) (hw : o.store.WellOwned)
    (hA : env.analyzer.Located) (hop : o.op.toStoreOp.OwnUri) (hshared : o.Shared look)
    (hsplit : o.schedule = pre ++ .inr look :: post) :
    o.Covered pre look ↔
      (∃ loc ∈ (index o.store look.table).filed look.key, loc.uri ≠ o.op.uri ∧
        look.dir.all (env.fs.inDir loc.uri)) ∨
      .inl (.withdraw look.table look.key) ∉ pre ∨
        ∃ loc, .inl (.file look.table look.key loc) ∈ pre := by
  have hdir : look.dir.all (env.fs.inDir o.op.uri) = true := by
    rw [o.dir_of_mem_schedule (by simp [hsplit])]
    exact o.sameModule
  constructor
  · rintro (⟨loc,hold,hin,hwithdraw⟩ | ⟨loc,hfile,hin⟩)
    · by_cases huri : loc.uri = o.op.uri
      · exact .inr (.inl (hwithdraw huri))
      · exact .inl ⟨loc,hold,huri,hin⟩
    · exact .inr (.inr ⟨loc,hfile⟩)
  · rintro (⟨loc,hold,huri,hin⟩ | hwithdraw | ⟨loc,hfile⟩)
    · exact .inl ⟨loc,hold,hin,fun h => absurd h huri⟩
    · obtain ⟨loc,hold,huri⟩ := listed_stands hc hw hshared.1
      exact .inl ⟨loc,hold,by rw [huri]; exact hdir,fun _ => hwithdraw⟩
    · have hmem : .inl (.file look.table look.key loc) ∈ o.schedule := by
        rw [hsplit]
        exact List.mem_append_left _ hfile
      have huri := uri_of_mem_steps hA hop hw (o.mem_steps_of_mem_schedule hmem)
      exact .inr ⟨loc,hfile,by rw [huri]; exact hdir⟩

end consistent
end Overlap
end overlaps

section reparse

def declaringFile : DocumentState :=
  .new declarationAnalyzer mainUri "variable \"x\" {}" 1

/-- `/m/use.tf` refers to the variable of `/m/main.tf`. -/
def referringFile : DocumentState :=
  { DocumentState.new declarationAnalyzer consumerUri "" 1 with
    references := [⟨.variable "x",⟨consumerUri,0,0,0,5⟩⟩] }

def twoFiles : StateStore :=
  (({} : StateStore).upsertDocument referringFile).upsertDocument declaringFile

def twoFilesEnvironment : IndexerEnvironment := consumerPipeline.toIndexerEnvironment

def reparseMain : List IndexStep := steps declarationAnalyzer twoFiles (.reparseDocument mainUri)

def lookupsOfUse : List IndexLookup :=
  lookups twoFilesEnvironment consumerUri referringFile true fun _ => true

/-- The entry of the variable has been withdrawn when the diagnostics of the other
file look it up. -/
def lookupInGap : Overlap twoFilesEnvironment where
  store := twoFiles
  op := .reparseDocument mainUri
  reader := consumerUri
  doc := referringFile
  stored := rfl
  distinct := by decide
  sameModule := by decide
  root := true
  applyable := fun _ => true
  schedule := (reparseMain.take 1).map .inl ++ (lookupsOfUse.map .inr ++ (reparseMain.drop 1).map .inl)
  interleaves := by
    have h := interleaves_between ((reparseMain.take 1).map (Sum.inl (β:=IndexLookup)))
      ((reparseMain.drop 1).map .inl) (lookupsOfUse.map .inr)
    rwa [← List.map_append,List.take_append_drop] at h

theorem lookupInGap_spurious : ¬∀ look ∈ lookupInGap.reported, ¬lookupInGap.Shared look := by
  let look : IndexLookup :=
    ⟨.definitions,⟨.variable,"x"⟩,some ["m"],some "undefined variable `x`"⟩
  have hreported : lookupInGap.reported = [look] := by decide
  have hshared : lookupInGap.Shared look :=
    ⟨⟨declaringFile,rfl,by decide⟩,⟨declaringFile,rfl,by decide⟩⟩
  intro h
  exact h look (by rw [hreported]; exact List.mem_singleton_self look) hshared

end reparse
end IndexRaces
end TerraformLs
