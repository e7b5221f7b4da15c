import Mathlib.Logic.Encodable.Basic
import Mathlib.Logic.Equiv.List
import TerraformLs.EditDelivery
import TerraformLs.Indexer

/-! The index cache: the symbols and references of the store are saved to a
sidecar file and restored from it after a restart, for every file whose content
still has the hash it was saved with. -/
namespace TerraformLs

structure CacheHeader where
  version : ℕ
  workspaceRoot : Path
  deriving DecidableEq

structure IndexCache where
  header : CacheHeader
  entries : List CacheEntry

def cacheFormatVersion : ℕ := 3

/-- What changes about the file system while the server is away. -/
structure Disk where
  metadata : Path → Option (ℕ × ℕ)
  readToString : Path → Option String

/-- The environment with the given contents of the disk. -/
def IndexerEnvironment.onDisk (env : IndexerEnvironment) (disk : Disk) : IndexerEnvironment :=
  { env with fs := { env.fs with metadata := disk.metadata, readToString := disk.readToString } }

namespace IndexCache

variable (env : IndexerEnvironment) (disk : Disk)

/-- The entry of a document under the root; the hash is that of the text in memory. -/
def captureEntry (root : Path) (uri : Url) (doc : DocumentState) : Option CacheEntry := do
  let path ← env.fs.toFilePath uri
  if root.isPrefixOf path then
    let (mtimeNs,size) ← disk.metadata path
    return { path := path, mtimeNs := mtimeNs, size := size,
             contentHash := env.contentHash doc.text, symbols := doc.symbols,
             references := doc.references }
  else none

def capture (s : StateStore) (root : Path) : IndexCache where
  header := ⟨cacheFormatVersion,root⟩
  entries := s.documents.entries.filterMap fun e => captureEntry env disk root e.1 e.2

end IndexCache

/-- The server's store, and the sidecar files that outlive it. They are named by
a key of the workspace root, which may collide. -/
structure CachedServer where
  store : StateStore := {}
  sidecars : KeyedMap String IndexCache := ∅

inductive CacheOp
  | didOpen (uri : Url) (text : String) (version : ℤ)
  | readFile (uri : Url) (text : String)
  | applyAndReparseDocument (uri : Url) (version : ℤ) (changes : List ContentChange)
  | reparseDocument (uri : Url)
  | removeDocument (uri : Url)
  | markOpen (uri : Url)
  | markClosed (uri : Url)
  | save (disk : Disk) (root : Path)
  | hydrate (disk : Disk) (root : Path)
  | exit

namespace CachedServer

variable (env : IndexerEnvironment) (workspaceKey : Path → String)

def load (σ : CachedServer) (root : Path) : Option IndexCache :=
  match σ.sidecars.lookup (workspaceKey root) with
  | none => none
  | some cache =>
    if cache.header.version ≠ cacheFormatVersion then none
    else if cache.header.workspaceRoot ≠ root then none else some cache

/-- Restore what the sidecar of the workspace holds into a store. -/
def hydrated (σ : CachedServer) (disk : Disk) (root : Path) (s : StateStore) : StateStore :=
  match σ.load workspaceKey root with
  | some cache => s.hydrateIntoStore (env.onDisk disk) cache.entries
  | none => s

def on (σ : CachedServer) (op : StoreOp) : CachedServer :=
  { σ with store := op.step env.analyzer σ.store }

end CachedServer

def CacheOp.step (env : IndexerEnvironment) (workspaceKey : Path → String) (σ : CachedServer) :
    CacheOp → CachedServer
  | didOpen uri text version => σ.on env (.upsertDocument (.new env.analyzer uri text version))
  | readFile uri text => σ.on env (.upsertDocumentUnlessOpen (.new env.analyzer uri text 0))
  | applyAndReparseDocument uri version changes =>
    σ.on env (.applyAndReparseDocument uri version changes)
  | reparseDocument uri => σ.on env (.reparseDocument uri)
  | removeDocument uri => σ.on env (.removeDocument uri)
  | markOpen uri => σ.on env (.markOpen uri)
  | markClosed uri => σ.on env (.markClosed uri)
  | save disk root =>
    { σ with sidecars :=
        σ.sidecars.insert (workspaceKey root) (.capture env disk σ.store root) }
  | hydrate disk root => { σ with store := σ.hydrated env workspaceKey disk root σ.store }
  | exit => { σ with store := {} }

/-! What is extracted from a text, and when a document carries it. -/

/-- The symbols and references of a document newly built from a text. -/
def analysed (A : Analyzer) (uri : Url) (text : String) : SymbolTable × List Reference :=
  let doc := DocumentState.new A uri text 0
  (doc.symbols,doc.references)

namespace DocumentState

theorem fresh_iff {A : Analyzer} {doc : DocumentState} :
    doc.Fresh A ↔ (doc.symbols,doc.references) = analysed A doc.uri doc.text := by
  simp [Fresh,analysed,new]

/-- What an edit newer than the document leaves in the store. -/
def edited (A : Analyzer) (doc : DocumentState) (version : ℤ) (changes : List ContentChange) :
    DocumentState :=
  match doc.applyChanges changes with
  | (doc',.ok ()) => { doc' with version := version }.reparse A
  | (doc',_) => doc'

/-- The text an edit leaves, failed or not. -/
def textAfter (doc : DocumentState) (changes : List ContentChange) : String :=
  (doc.applyChanges changes).1.text

/-- The edit succeeds and its text has a body, or it leaves a text that the same
is extracted from. -/
def Reanalysed (A : Analyzer) (doc : DocumentState) (changes : List ContentChange) : Prop :=
  (BatchFits doc.rope changes ∧
      (A.parseSourceRecoveringForUri (doc.textAfter changes) doc.uri).body.isSome) ∨
    analysed A doc.uri (doc.textAfter changes) = analysed A doc.uri doc.text

theorem edited_uri (A : Analyzer) (doc : DocumentState) (version : ℤ)
    (changes : List ContentChange) : (doc.edited A version changes).uri = doc.uri := by
  unfold edited
  rcases doc.applyChanges_cases changes with
    ⟨-,cache,h⟩ | ⟨r,cache,source,-,h⟩ | ⟨-,-,r,cache,h⟩ <;> simp [h,reparse_uri]

/-- A text without a body leaves what was extracted last. -/
theorem reparse_noBody (A : Analyzer) (doc : DocumentState) (h : ¬ doc.HasBody A) :
    (doc.reparse A).symbols = doc.symbols ∧ (doc.reparse A).references = doc.references := by
  have hnone : (A.parseSourceRecoveringForUri (String.ofList doc.rope) doc.uri).body = none := by
    simpa [HasBody,text] using h
  simp [reparse,hnone]

theorem Fresh.reparse {A : Analyzer} {doc : DocumentState} (h : doc.Fresh A) :
    (doc.reparse A).Fresh A := by
  by_cases hbody : doc.HasBody A
  · refine reparse_fresh A doc ?_
    simpa [HasBody,text,reparse_uri] using hbody
  · obtain ⟨hs,hrefs⟩ := reparse_noBody A doc hbody
    rw [fresh_iff] at h ⊢
    simpa [hs,hrefs,text,reparse_uri] using h

/-- An edit of a document that carries its extraction leaves one that does
exactly when the text it leaves is analysed. -/
theorem edited_fresh_iff {A : Analyzer} {doc : DocumentState} (h : doc.Fresh A) (version : ℤ)
    (changes : List ContentChange) :
    (doc.edited A version changes).Fresh A ↔ doc.Reanalysed A changes := by
  have hsame := fresh_iff.mp h
  unfold edited Reanalysed textAfter
  rcases doc.applyChanges_cases changes with
    ⟨hfits,cache,happ⟩ | ⟨r,cache,source,hr,happ⟩ | ⟨hfits,-,r,cache,happ⟩
  · simp only [happ,hfits,true_and]
    by_cases hbody : (A.parseSourceRecoveringForUri
        (String.ofList (editedBy doc.rope changes)) doc.uri).body.isSome
    · refine iff_of_true (reparse_fresh A _ ?_) (.inl hbody)
      simpa [HasBody,text,reparse_uri] using hbody
    · obtain ⟨hs,hrefs⟩ := reparse_noBody A
        { doc with rope := editedBy doc.rope changes, version := version, formatCache := cache }
        hbody
      rw [fresh_iff,hs,hrefs]
      simp only [text,reparse_rope,reparse_uri] at hsame ⊢
      rw [hsame]
      simp [hbody,eq_comm]
  · simp only [happ,hr.not_batchFits,false_and,false_or,fresh_iff]
    rw [hsame]
    exact eq_comm
  · simp only [happ,hfits,false_and,false_or,fresh_iff]
    rw [hsame]
    exact eq_comm

end DocumentState

/-! The invariant of a session: the documents of the store carry what is
extracted from their texts, and so do the entries of the sidecars. -/

namespace StateStore

def Current (A : Analyzer) (s : StateStore) : Prop :=
  ∀ uri doc, s.documents.lookup uri = some doc → doc.uri = uri ∧ doc.Fresh A

variable {A : Analyzer} {s : StateStore}

theorem current_empty : ({} : StateStore).Current A := fun _ _ h => by cases h

theorem current_insert_iff (h : s.Current A) {s' : StateStore} {uri : Url} {doc : DocumentState}
    (hs : s'.documents = s.documents.insert uri doc) (hu : doc.uri = uri) :
    s'.Current A ↔ doc.Fresh A := by
  constructor
  · intro h'
    exact (h' uri doc (by rw [hs]; exact AList.lookup_insert _)).2
  · intro hf u d hd
    rw [hs,KeyedMap.lookup_insert_of] at hd
    split at hd
    · rename_i hu'
      cases hd
      exact ⟨hu.trans hu'.symm,hf⟩
    · exact h u d hd

theorem current_congr {s' : StateStore} (hs : s'.documents = s.documents) :
    s'.Current A ↔ s.Current A := by simp [Current,hs]

/-- What an edit does to the documents. -/
theorem applyAndReparse_documents (A : Analyzer) (s : StateStore) (uri : Url) (version : ℤ)
    (changes : List ContentChange) :
    (s.applyAndReparseDocument A uri version changes).1.documents =
      match s.documents.lookup uri with
      | none => s.documents
      | some doc => s.documents.insert uri
          (if version ≤ doc.version then doc else doc.edited A version changes) := by
  unfold applyAndReparseDocument
  dsimp only
  rw [removeFromIndexes_documents]
  cases hd : s.documents.lookup uri with
  | none => simp
  | some doc =>
    by_cases hv : version ≤ doc.version
    · simp [DocumentState.applyVersionedChanges,hv]
    · simp only [DocumentState.applyVersionedChanges,hv,if_false,DocumentState.edited]
      rcases doc.applyChanges changes with ⟨doc',o⟩
      cases o <;> simp

/-- Restoring an entry either changes nothing or adds the document of the entry. -/
theorem hydrateEntry_cases (env : IndexerEnvironment) (s : StateStore) (e : CacheEntry) :
    s.hydrateEntry env e = s ∨ ∃ text uri, env.fs.readToString e.path = some text ∧
      env.contentHash text = e.contentHash ∧ env.fs.fromFilePath e.path = some uri ∧
      s.hydrateEntry env e =
        s.upsertDocument (.hydratedFromCache uri text e.symbols e.references) := by
  unfold hydrateEntry
  split
  · split
    · exact .inl rfl
    · rename_i text htext
      split
      · rename_i hhash
        split
        · exact .inl rfl
        · rename_i uri huri
          split
          · exact .inl rfl
          · rcases s.upsertDocumentUnlessOpen_cases
              (.hydratedFromCache uri text e.symbols e.references) with ⟨-,h⟩ | ⟨-,h⟩
            · exact .inl (by rw [h])
            · exact .inr ⟨text,uri,htext,hhash,huri,by rw [h]⟩
      · exact .inl rfl
  · exact .inl rfl

end StateStore

/-- Under the hash of the entry there are only texts that it was extracted from. -/
def CacheEntry.Current (env : IndexerEnvironment) (e : CacheEntry) : Prop :=
  ∀ text uri, env.contentHash text = e.contentHash → env.fs.fromFilePath e.path = some uri →
    (e.symbols,e.references) = analysed env.analyzer uri text

def IndexCache.Current (env : IndexerEnvironment) (cache : IndexCache) : Prop :=
  ∀ e ∈ cache.entries, e.Current env

namespace StateStore

variable {env : IndexerEnvironment} {s : StateStore}

theorem hydratedFromCache_fresh {e : CacheEntry} (he : e.Current env) {text : String} {uri : Url}
    (hhash : env.contentHash text = e.contentHash) (huri : env.fs.fromFilePath e.path = some uri) :
    (DocumentState.hydratedFromCache uri text e.symbols e.references).Fresh env.analyzer := by
  rw [DocumentState.fresh_iff]
  simpa [DocumentState.hydratedFromCache,DocumentState.text] using he text uri hhash huri

theorem current_hydrateIntoStore {disk : Disk} {entries : List CacheEntry}
    (he : ∀ e ∈ entries, e.Current env) (h : s.Current env.analyzer) :
    (s.hydrateIntoStore (env.onDisk disk) entries).Current env.analyzer := by
  unfold hydrateIntoStore
  induction entries generalizing s with
  | nil => exact h
  | cons e es ih =>
    rw [List.foldl_cons]
    refine ih (fun e' he' => he e' (List.mem_cons_of_mem e he')) ?_
    rcases s.hydrateEntry_cases (env.onDisk disk) e with hs | ⟨text,uri,-,hhash,huri,hs⟩
    · rwa [hs]
    · rw [hs]
      refine (current_insert_iff h (upsertDocument_documents _ _) rfl).mpr ?_
      exact hydratedFromCache_fresh (he e List.mem_cons_self) hhash huri

/-- Every document has what is extracted from the text its file has on disk. -/
def MatchesDisk (env : IndexerEnvironment) (disk : Disk) (s : StateStore) : Prop :=
  ∀ uri doc, s.documents.lookup uri = some doc → ∃ path text,
    env.fs.fromFilePath path = some uri ∧ disk.readToString path = some text ∧
      (doc.symbols,doc.references) = analysed env.analyzer uri text

theorem matchesDisk_hydrateIntoStore {disk : Disk} {entries : List CacheEntry}
    (he : ∀ e ∈ entries, e.Current env) (h : s.MatchesDisk env disk) :
    (s.hydrateIntoStore (env.onDisk disk) entries).MatchesDisk env disk := by
  unfold hydrateIntoStore
  induction entries generalizing s with
  | nil => exact h
  | cons e es ih =>
    rw [List.foldl_cons]
    refine ih (fun e' he' => he e' (List.mem_cons_of_mem e he')) ?_
    rcases s.hydrateEntry_cases (env.onDisk disk) e with hs | ⟨text,uri,htext,hhash,huri,hs⟩
    · rwa [hs]
    · intro u d hd
      rw [hs,upsertDocument_documents,KeyedMap.lookup_insert_of] at hd
      split at hd
      · rename_i hu
        cases hd
        rw [hu]
        exact ⟨e.path,text,huri,htext,he e List.mem_cons_self text uri hhash huri⟩
      · exact h u d hd

end StateStore

def CachedServer.Current (env : IndexerEnvironment) (σ : CachedServer) : Prop :=
  σ.store.Current env.analyzer ∧
    ∀ key cache, σ.sidecars.lookup key = some cache → cache.Current env

/-- An edit has its text analysed, and a document is saved under the uri that
its file is read back with, or one that makes no difference. -/
def CacheOp.KeepsCurrent (env : IndexerEnvironment) (σ : CachedServer) : CacheOp → Prop
  | applyAndReparseDocument uri version changes =>
    ∀ doc, σ.store.documents.lookup uri = some doc → doc.version < version →
      doc.Reanalysed env.analyzer changes
  | save disk root =>
    ∀ uri doc path canonical, σ.store.documents.lookup uri = some doc →
      env.fs.toFilePath uri = some path → root.isPrefixOf path → (disk.metadata path).isSome →
      env.fs.fromFilePath path = some canonical →
        analysed env.analyzer canonical doc.text = analysed env.analyzer uri doc.text
  | _ => True

section sessions

variable {env : IndexerEnvironment} {workspaceKey : Path → String} {σ : CachedServer}

theorem CachedServer.load_eq_some {root : Path} {cache : IndexCache}
    (h : σ.load workspaceKey root = some cache) :
    σ.sidecars.lookup (workspaceKey root) = some cache := by
  unfold CachedServer.load at h
  split at h
  · cases h
  · split_ifs at h
    rename_i hl _ _
    cases h
    exact hl

theorem IndexCache.mem_capture {disk : Disk} {s : StateStore} {root : Path} {e : CacheEntry} :
    e ∈ (capture env disk s root).entries ↔ ∃ uri doc path mtimeNs size,
      s.documents.lookup uri = some doc ∧ env.fs.toFilePath uri = some path ∧
      root.isPrefixOf path ∧ disk.metadata path = some (mtimeNs,size) ∧
      e = ⟨path,mtimeNs,size,env.contentHash doc.text,doc.symbols,doc.references⟩ := by
  simp only [capture,List.mem_filterMap]
  constructor
  · rintro ⟨⟨uri,doc⟩,hmem,he⟩
    cases hp : env.fs.toFilePath uri with
    | none => simp [captureEntry,hp] at he
    | some path =>
      cases hm : disk.metadata path with
      | none => simp [captureEntry,hp,hm] at he
      | some m =>
        simp [captureEntry,hp,hm] at he
        exact ⟨uri,doc,path,m.1,m.2,KeyedMap.mem_entries.mp hmem,hp,by simpa using he.1,hm,he.2.symm⟩
  · rintro ⟨uri,doc,path,mtimeNs,size,hd,hp,hpre,hm,rfl⟩
    exact ⟨⟨uri,doc⟩,KeyedMap.mem_entries.mpr hd,by simp [captureEntry,hp,hm] at hpre ⊢; exact hpre⟩

/-- A saved cache is current exactly when every uri saved is as good as the one
its file is read back with. -/
theorem IndexCache.capture_current_iff (hinj : Function.Injective env.contentHash)
    (h : σ.store.Current env.analyzer) (disk : Disk) (root : Path) :
    (capture env disk σ.store root).Current env ↔ (CacheOp.save disk root).KeepsCurrent env σ := by
  constructor
  · intro hc uri doc path canonical hd hp hpre hm huri
    obtain ⟨⟨mtimeNs,size⟩,hm⟩ := Option.isSome_iff_exists.mp hm
    have he := hc _ (mem_capture.mpr ⟨uri,doc,path,mtimeNs,size,hd,hp,hpre,hm,rfl⟩)
      doc.text canonical rfl huri
    obtain ⟨hu,hf⟩ := h uri doc hd
    rw [← he,DocumentState.fresh_iff.mp hf,hu]
  · intro hk e he text canonical hhash huri
    obtain ⟨uri,doc,path,mtimeNs,size,hd,hp,hpre,hm,rfl⟩ := mem_capture.mp he
    obtain ⟨hu,hf⟩ := h uri doc hd
    rw [hinj hhash,hk uri doc path canonical hd hp hpre (by simp [hm]) huri,
      DocumentState.fresh_iff.mp hf,hu]

theorem current_step_iff (hinj : Function.Injective env.contentHash) (h : σ.Current env)
    (op : CacheOp) : (op.step env workspaceKey σ).Current env ↔ op.KeepsCurrent env σ := by
  obtain ⟨hs,hc⟩ := h
  have hstore : ∀ s : StateStore, s.Current env.analyzer →
      CachedServer.Current env { σ with store := s } := fun s hs' => ⟨hs',hc⟩
  cases op with
  | didOpen uri text version =>
    refine iff_of_true (hstore _ ?_) trivial
    exact (StateStore.current_insert_iff hs (StateStore.upsertDocument_documents _ _) rfl).mpr
      (DocumentState.new_fresh _ _ _ _)
  | readFile uri text =>
    refine iff_of_true (hstore _ ?_) trivial
    rcases σ.store.upsertDocumentUnlessOpen_cases (.new env.analyzer uri text 0) with
      ⟨-,he⟩ | ⟨-,he⟩
    · simpa only [StoreOp.step,he] using hs
    · simp only [StoreOp.step,he]
      exact (StateStore.current_insert_iff hs (StateStore.upsertDocument_documents _ _) rfl).mpr
        (DocumentState.new_fresh _ _ _ _)
  | applyAndReparseDocument uri version changes =>
    have hdocs := StateStore.applyAndReparse_documents env.analyzer σ.store uri version changes
    simp only [CacheOp.step,CachedServer.on,StoreOp.step,CachedServer.Current,CacheOp.KeepsCurrent]
    rw [and_iff_left (fun key cache hl => hc key cache hl)]
    cases hd : σ.store.documents.lookup uri with
    | none =>
      rw [hd] at hdocs
      simpa [StateStore.current_congr hdocs] using hs
    | some doc =>
      rw [hd] at hdocs
      obtain ⟨hu,hf⟩ := hs uri doc hd
      by_cases hv : version ≤ doc.version
      · simp only [hv,if_true] at hdocs
        rw [StateStore.current_insert_iff hs hdocs hu]
        exact iff_of_true hf fun d hd' hlt => by cases hd'; omega
      · simp only [hv,if_false] at hdocs
        rw [StateStore.current_insert_iff hs hdocs ((doc.edited_uri _ _ _).trans hu),
          DocumentState.edited_fresh_iff hf]
        simp [Int.not_le.mp hv]
  | reparseDocument uri =>
    refine iff_of_true (hstore _ ?_) trivial
    rcases σ.store.reparseDocument_cases env.analyzer uri with ⟨-,he⟩ | ⟨doc,hd,he⟩
    · simpa only [StoreOp.step,he] using hs
    · obtain ⟨hu,hf⟩ := hs uri doc hd
      simp only [StoreOp.step,he]
      exact (StateStore.current_insert_iff hs rfl ((doc.reparse_uri _).trans hu)).mpr hf.reparse
  | removeDocument uri =>
    refine iff_of_true (hstore _ fun u d hl => ?_) trivial
    simp only [StoreOp.step,StateStore.removeDocument_documents,KeyedMap.lookup_erase_of] at hl
    split at hl
    · cases hl
    · exact hs u d hl
  | markOpen uri => exact iff_of_true (hstore _ hs) trivial
  | markClosed uri => exact iff_of_true (hstore _ hs) trivial
  | save disk root =>
    rw [← IndexCache.capture_current_iff hinj hs]
    constructor
    · intro h
      exact h.2 (workspaceKey root) _ (AList.lookup_insert _)
    · refine fun h => ⟨hs,fun key cache hl => ?_⟩
      simp only [CacheOp.step,KeyedMap.lookup_insert_of] at hl
      split at hl
      · cases hl
        exact h
      · exact hc key cache hl
  | hydrate disk root =>
    refine iff_of_true (hstore _ ?_) trivial
    unfold CachedServer.hydrated
    split
    · rename_i cache hl
      exact StateStore.current_hydrateIntoStore (hc _ cache (CachedServer.load_eq_some hl)) hs
    · exact hs
  | exit => exact iff_of_true (hstore _ StateStore.current_empty) trivial

/-- In every session the documents and the sidecars are current throughout
exactly when every edit has its text analysed and every uri saved is as good as
the one its file is read back with. -/
theorem current_throughout_iff (hinj : Function.Injective env.contentHash)
    {ops : List CacheOp} :
    Throughout (CacheOp.step env workspaceKey) (CachedServer.Current env) {} ops ↔
      Guarded (CacheOp.step env workspaceKey) (CacheOp.KeepsCurrent env) {} ops :=
  throughout_iff_guarded (I:=fun _ => True) (fun _ _ _ _ => trivial)
    (fun _ op _ h => current_step_iff hinj h op) trivial
    ⟨StateStore.current_empty,fun _ _ h => by cases h⟩

/-- The store of a new server that has only read the sidecar of a workspace. -/
def CachedServer.restarted (env : IndexerEnvironment) (workspaceKey : Path → String)
    (σ : CachedServer) (disk : Disk) (root : Path) : StateStore :=
  σ.hydrated env workspaceKey disk root {}

/-- Whatever has become of the files meanwhile, a restart restores what their
texts now have. -/
theorem restarted_matchesDisk (hinj : Function.Injective env.contentHash) {ops : List CacheOp}
    (hg : Guarded (CacheOp.step env workspaceKey) (CacheOp.KeepsCurrent env) {} ops)
    (disk : Disk) (root : Path) :
    ((run (CacheOp.step env workspaceKey) {} ops).restarted env workspaceKey disk
      root).MatchesDisk env disk := by
  have hcurrent := ((current_throughout_iff hinj).mpr hg).final
  have hempty : ({} : StateStore).MatchesDisk env disk := fun _ _ h => by cases h
  unfold CachedServer.restarted CachedServer.hydrated
  split
  · rename_i cache hl
    exact StateStore.matchesDisk_hydrateIntoStore
      (hcurrent.2 _ cache (CachedServer.load_eq_some hl)) hempty
  · exact hempty

end sessions

/-! A JSON configuration that is saved while its text is incomplete. -/

def jsonUri : Url := "file:///m/main.tf.json"

def completeJson : String := "\x7b\"variable\":\x7b\"x\":\x7b\x7d\x7d\x7d"

/-- The variable of `completeJson`, located by the spans of the configuration it
is translated to. -/
def jsonSymbol : Symbol where
  name := "x"
  kind := .variable
  location := ⟨jsonUri,0,0,0,16⟩
  nameRange := ⟨⟨0,9⟩,⟨0,12⟩⟩
  detail := none
  doc := none

/-- The analyzer on `completeJson` and on texts that are no JSON. -/
def jsonAnalyzer : Analyzer where
  parseSourceRecoveringForUri text _ :=
    if text = completeJson then ⟨some [.block "variable" [.string "x"] []],[]⟩
    else ⟨none,[.json "invalid JSON: EOF while parsing an object at line 1 column 1"]⟩
  extractSymbols _ _ _ := { «variables» := (∅ : KeyedMap String Symbol).insert "x" jsonSymbol }
  extractSymbolsFallback _ _ _ := {}
  extractReferences _ _ _ := []
  extractReferencesFallback _ _ _ := []
  extractTestSymbols _ _ _ := []

def jsonFiles : FileSystem where
  canonicalize := some
  readDir := fun _ => none
  readToString := fun _ => none
  metadata := fun _ => none
  isDir := fun path => path = ["m"]
  isFile := fun path => path = ["m","main.tf.json"]
  toFilePath := fun uri => if uri = jsonUri then some ["m","main.tf.json"] else none
  fromFilePath := fun path => if path = ["m","main.tf.json"] then some jsonUri else none

def textCode (text : String) : ℕ := Encodable.encode (text.toList.map Char.toNat)

theorem textCode_injective : Function.Injective textCode := by
  intro a b h
  have hmap := Encodable.encode_injective h
  have hlist := List.map_injective_iff.mpr (fun c d hcd => Char.toNat_inj.mp hcd) hmap
  exact String.toList_inj.mp hlist

def jsonEnvironment : IndexerEnvironment where
  fs := jsonFiles
  discoverTfvarsAttributableTo := fun _ => some []
  parseBody := fun _ => none
  parseManifest := fun _ => none
  parseValueShape := fun _ => .any
  parseValueShapeWithSchema := fun _ _ _ _ => .any
  analyzer := jsonAnalyzer
  contentHash := textCode
  setOrder := fun dirs => ⟨dirs,.refl dirs⟩

/-- The file with the given text in it. -/
def jsonDisk (text : String) : Disk where
  metadata := fun path => if path = ["m","main.tf.json"] then some (0,text.length) else none
  readToString := fun path => if path = ["m","main.tf.json"] then some text else none

/-- The sidecar of the only workspace. -/
def soleSidecar : Path → String := fun _ => "index"

theorem jsonFiles_fromFilePath {path : Path} (h : jsonFiles.fromFilePath path = some jsonUri) :
    path = ["m","main.tf.json"] := by
  by_contra hne
  simp [jsonFiles,hne] at h

theorem restarted_unedited :
    ((run (CacheOp.step jsonEnvironment soleSidecar) {}
      [.didOpen jsonUri completeJson 1,.save (jsonDisk completeJson) ["m"]]).restarted
        jsonEnvironment soleSidecar (jsonDisk completeJson) ["m"]).MatchesDisk jsonEnvironment
          (jsonDisk completeJson) := by
  apply restarted_matchesDisk textCode_injective
  refine ⟨trivial,?_,trivial⟩
  intro uri doc path canonical hd hp _ _ hc
  have huri : uri = jsonUri := by
    by_contra hne
    simp [jsonEnvironment,jsonFiles,hne] at hp
  have hcanonical : canonical = jsonUri := by
    have hsome : jsonFiles.fromFilePath path = some canonical := hc
    simp only [jsonFiles,Option.ite_none_right_eq_some] at hsome
    exact (Option.some.inj hsome.2).symm
  rw [huri,hcanonical]

/-- An incomplete text keeps the symbols of the complete one, and they are saved
under its hash. -/
theorem restarted_not_matchesDisk :
    ¬ ∀ (env : IndexerEnvironment) (workspaceKey : Path → String) (ops : List CacheOp)
        (disk : Disk) (root : Path), Function.Injective env.contentHash →
      ((run (CacheOp.step env workspaceKey) {} ops).restarted env workspaceKey disk
        root).MatchesDisk env disk := by
  intro h
  have hmatch := h jsonEnvironment soleSidecar
    [.didOpen jsonUri completeJson 1,.applyAndReparseDocument jsonUri 2 [⟨none,"\x7b"⟩],
      .save (jsonDisk "\x7b") ["m"]] (jsonDisk "\x7b") ["m"] textCode_injective
  obtain ⟨path,text,hpath,htext,hanalysed⟩ := hmatch jsonUri
    (.hydratedFromCache jsonUri "\x7b"
      { «variables» := (∅ : KeyedMap String Symbol).insert "x" jsonSymbol } []) rfl
  cases jsonFiles_fromFilePath hpath
  cases htext
  have hlookup := congrArg (fun a => a.1.variables.lookup "x") hanalysed
  exact absurd hlookup (by decide)

end TerraformLs
