import Mathlib.Data.List.Dedup
import TerraformLs.AssignedTypes
import TerraformLs.JobQueue

/-! The indexer: how files are read from disk into the store, which scans are
scheduled, and the handlers that open and close documents. -/
namespace TerraformLs

/-- A document of the index cache, with what identifies the file it came from. -/
structure CacheEntry where
  path : Path
  mtimeNs : ℕ
  size : ℕ
  contentHash : ℕ
  symbols : SymbolTable
  references : List Reference

structure IndexerEnvironment extends AssignedTypes.Environment where
  analyzer : Analyzer
  contentHash : String → ℕ
  /-- The order in which a set of directories is walked. -/
  setOrder : (dirs : List Path) → { order : List Path // order.Perm dirs }

namespace StateStore

variable (env : IndexerEnvironment)

/-- Read a file into the store, unless it is open or already parsed. -/
def indexFile (s : StateStore) (path : Path) : StateStore :=
  match env.fs.fromFilePath path with
  | none => s
  | some url =>
    if s.isOpen url then s
    else if (s.documents.lookup url).any fun doc => doc.parsed.body.isSome then s
    else match env.fs.readToString path with
      | none => s
      | some text => (s.upsertDocumentUnlessOpen (.new env.analyzer url text 0)).1

def indexModuleDirSync (s : StateStore) (dir : Path) : StateStore :=
  match env.fs.discoverTerraformFilesInDir dir with
  | none => s
  | some files => files.foldl (indexFile env) s

/-- The documents that a scan leaves alone: those open or already parsed. -/
def skips (s : StateStore) (url : Url) : Bool :=
  (s.documents.lookup url).any fun doc => s.isOpen url || doc.parsed.body.isSome

def parseFile (s : StateStore) (path : Path) : Option DocumentState :=
  env.fs.fromFilePath path >>= fun url =>
    if s.skips url then none
    else (env.fs.readToString path).map fun text => .new env.analyzer url text 0

/-- All files are parsed before the first of them is inserted. -/
def parseAndUpsertFiles (s : StateStore) (files : List Path) : StateStore :=
  (files.filterMap (s.parseFile env)).foldl (fun s doc => (s.upsertDocumentUnlessOpen doc).1) s

/-- Restore a document whose file has not changed since it was cached. -/
def hydrateEntry (s : StateStore) (entry : CacheEntry) : StateStore :=
  if env.fs.metadata entry.path = some (entry.mtimeNs,entry.size) then
    match env.fs.readToString entry.path with
    | none => s
    | some text =>
      if env.contentHash text = entry.contentHash then
        match env.fs.fromFilePath entry.path with
        | none => s
        | some uri =>
          if (s.documents.lookup uri).isSome then s
          else (s.upsertDocumentUnlessOpen
            (.hydratedFromCache uri text entry.symbols entry.references)).1
      else s
  else s

def hydrateIntoStore (s : StateStore) (cache : List CacheEntry) : StateStore :=
  cache.foldl (hydrateEntry env) s

/-- The directories of the modules called from a directory. -/
def childModules (s : StateStore) (dir : Path) : List Path :=
  s.documents.entries.flatMap fun e =>
    if AssignedTypes.inDir env.toEnvironment dir e.1 then
      e.2.symbols.moduleSources.entries.filterMap fun call =>
        env.fs.resolveModuleSource env.parseManifest dir call.1 call.2
    else []

end StateStore

/-- The store and the queue of background jobs. -/
structure Server where
  store : StateStore := {}
  queue : JobQueue := {}

namespace Server

variable (env : IndexerEnvironment)

/-- A directory nobody tracks yet is marked and its scan queued. -/
def scheduleScan (srv : Server) (dir : Path) (priority : Priority) : Server :=
  let marked := srv.store.markScanScheduled dir
  { store := marked.1
    queue := if marked.2 then srv.queue.enqueue (.scanDirectory dir) priority else srv.queue }

def enqueueChildModuleScans (srv : Server) (dir : Path) : Server :=
  (srv.store.childModules env dir).foldl (fun srv child => srv.scheduleScan child .normal) srv

def findTerraformInitRoot (start : Path) : Option Path :=
  (Path.ancestors start).find? fun dir => env.fs.isDir (dir ++ [".terraform","providers"])

/-- Fetch schemas when the providers directory has changed since the last fetch. -/
def maybeEnqueueSchemaFetch (srv : Server) (initRoot : Path) : Server :=
  match env.fs.metadata (initRoot ++ [".terraform","providers"]) with
  | none => srv
  | some (mtime,_) =>
    if srv.store.fetchedSchemaDirs.lookup initRoot = some mtime then srv else
      { store := { srv.store with
          fetchedSchemaDirs := srv.store.fetchedSchemaDirs.insert initRoot mtime }
        queue := srv.queue.enqueue (.fetchSchemas initRoot) .normal }

/-- A test file in `tests` exercises the module one directory up. -/
def moduleUnderTestDir (uri : Url) : Option Path :=
  (env.fs.toFilePath uri >>= Path.parent).map fun dir =>
    if dir.getLast? = some "tests" ∧ dir.dropLast ≠ [] then dir.dropLast else dir

def indexDir (srv : Server) (dir : Path) : Server :=
  { srv with store := srv.store.indexModuleDirSync env dir }

/-- Fetch the schemas of the initialised directory at or above, when there is one. -/
def fetchSchemasAbove (srv : Server) (dir : Path) : Server :=
  match findTerraformInitRoot env dir with
  | some initRoot => srv.maybeEnqueueSchemaFetch env initRoot
  | none => srv

/-- A test file also needs the module it exercises, when that is another directory. -/
def indexModuleUnderTest (srv : Server) (fileUri : Url) (dirBuf : Path) : Server :=
  match moduleUnderTestDir env fileUri with
  | none => srv
  | some mutDir =>
    let mutDir := (env.fs.canonicalize mutDir).getD mutDir
    if mutDir = dirBuf then srv else (srv.indexDir env mutDir).scheduleScan mutDir .high

def ensureModuleIndexed (srv : Server) (fileUri : Url) : Server :=
  match env.fs.toFilePath fileUri >>= Path.parent with
  | none => srv
  | some dir =>
    let dirBuf := (env.fs.canonicalize dir).getD dir
    let srv := (srv.fetchSchemasAbove env dirBuf).indexDir env dirBuf
    let srv := srv.indexModuleUnderTest env fileUri dirBuf
    (srv.scheduleScan dirBuf .high).enqueueChildModuleScans env dirBuf

def enqueueWorkspaceScan (srv : Server) (root : Path) : Server :=
  { srv with queue := srv.queue.enqueue (.bulkWorkspaceScan root) .low }

def rebuildDir (s : StateStore) (dir : Path) : StateStore :=
  s.rebuildAssignedVariableTypesForDir env.toEnvironment dir

/-- The directories of the files found, in the order they are walked. -/
def scannedDirs (files : List Path) : List Path :=
  env.setOrder (files.filterMap Path.parent).dedup

/-- Complete the scanned directories, one after another. -/
def completeAll (dirs : List Path) (s : StateStore) : StateStore :=
  dirs.foldl (fun s dir => (rebuildDir env s dir).markScanCompleted dir) s

def scanDirIntoState (srv : Server) (dir : Path) : Server :=
  match env.fs.discoverTerraformFilesInDir dir with
  | none => srv
  | some files =>
    let s := (srv.store.parseAndUpsertFiles env files).markScanCompleted dir
    enqueueChildModuleScans env { srv with store := rebuildDir env s dir } dir

/-- The whole scan of a workspace. The fuel bounds the walk over its directories;
a scan whose walk has not ended is left out. -/
def bulkWorkspaceScan (srv : Server) (cache : List CacheEntry) (fuel : ℕ) (root : Path) : Server :=
  match env.fs.discoverTerraformFiles fuel root with
  | none => srv
  | some (.error _) => { srv with store := srv.store.hydrateIntoStore env cache }
  | some (.ok files) =>
    let s := srv.store.hydrateIntoStore env cache
    let dirs := scannedDirs env files
    let s := dirs.foldl (fun s dir => (s.markScanScheduled dir).1) s
    let s := s.parseAndUpsertFiles env files
    { srv with store := completeAll env dirs s }

def didOpen (srv : Server) (uri : Url) (text : String) (version : ℤ) : Server :=
  let s := srv.store.markOpen uri
  let srv := { srv with store := s.upsertDocument (.new env.analyzer uri text version) }
  srv.ensureModuleIndexed env uri

def didClose (srv : Server) (uri : Url) : Server :=
  { srv with store := ((srv.store.markClosed uri).removeDocument uri).1 }

def handleDiskRemoval (srv : Server) (uri : Url) : Server :=
  if srv.store.isOpen uri then srv
  else { srv with store := (srv.store.removeDocument uri).1 }

end Server

namespace StateStore

/-- Documents are added to the store, and nothing changes that says which of
them are open or which directories are scanned. -/
structure ReadsDisk (s s' : StateStore) : Prop where
  present : ∀ uri ∈ s.documents, uri ∈ s'.documents
  openDocs : s'.openDocs = s.openDocs
  dirScans : s'.dirScans = s.dirScans

theorem ReadsDisk.refl (s : StateStore) : s.ReadsDisk s := ⟨fun _ h => h,rfl,rfl⟩

theorem ReadsDisk.foldl {α : Type} {f : StateStore → α → StateStore}
    (h : ∀ (s : StateStore) (a : α), s.ReadsDisk (f s a)) (as : List α) (s : StateStore) :
    s.ReadsDisk (as.foldl f s) := by
  induction as generalizing s with
  | nil => exact .refl s
  | cons a as ih =>
    have hstep := h s a
    have hrest := ih (f s a)
    exact ⟨fun uri hu => hrest.present uri (hstep.present uri hu),
      hrest.openDocs.trans hstep.openDocs,hrest.dirScans.trans hstep.dirScans⟩

theorem readsDisk_upsertUnlessOpen (s : StateStore) (doc : DocumentState) :
    s.ReadsDisk (s.upsertDocumentUnlessOpen doc).1 := by
  rcases s.upsertDocumentUnlessOpen_cases doc with ⟨-,h⟩ | ⟨-,h⟩
  · rw [h]
    exact .refl s
  · rw [h]
    exact ⟨fun uri hu => by simp [hu],by simp,by simp⟩

variable (env : IndexerEnvironment)

theorem readsDisk_rebuild (s : StateStore) (dir : Path) :
    s.ReadsDisk (Server.rebuildDir env s dir) := by
  obtain ⟨m,hm⟩ := s.rebuild_frame env.toEnvironment dir
  rw [Server.rebuildDir,hm]
  exact ⟨fun _ h => h,rfl,rfl⟩

theorem readsDisk_indexFile (s : StateStore) (path : Path) :
    s.ReadsDisk (s.indexFile env path) := by
  unfold indexFile
  repeat' split
  all_goals first
    | exact .refl s
    | exact s.readsDisk_upsertUnlessOpen _

theorem readsDisk_indexModuleDirSync (s : StateStore) (dir : Path) :
    s.ReadsDisk (s.indexModuleDirSync env dir) := by
  unfold indexModuleDirSync
  split
  · exact .refl s
  · exact .foldl (readsDisk_indexFile env) _ s

theorem readsDisk_parseAndUpsertFiles (s : StateStore) (files : List Path) :
    s.ReadsDisk (s.parseAndUpsertFiles env files) :=
  .foldl readsDisk_upsertUnlessOpen _ s

theorem readsDisk_hydrateIntoStore (s : StateStore) (cache : List CacheEntry) :
    s.ReadsDisk (s.hydrateIntoStore env cache) := by
  refine .foldl (fun s entry => ?_) cache s
  unfold hydrateEntry
  repeat' split
  all_goals first
    | exact .refl s
    | exact s.readsDisk_upsertUnlessOpen _

end StateStore

/-- A disk with the module directory `/m` and the file `main.tf` in it. -/
def oneFileDisk : FileSystem where
  canonicalize := some
  readDir := fun dir => if dir = ["m"] then some [⟨"main.tf",false,true⟩] else none
  readToString := fun path => if path = ["m","main.tf"] then some "variable \"x\" {}" else none
  metadata := fun _ => none
  isDir := fun path => path = ["m"]
  isFile := fun path => path = ["m","main.tf"]
  toFilePath := fun uri => if uri = mainUri then some ["m","main.tf"] else none
  fromFilePath := fun path => if path = ["m","main.tf"] then some mainUri else none

def oneFileEnvironment : IndexerEnvironment where
  fs := oneFileDisk
  discoverTfvarsAttributableTo := fun _ => some []
  parseBody := fun _ => none
  parseManifest := fun _ => none
  parseValueShape := fun _ => .any
  parseValueShapeWithSchema := fun _ _ _ _ => .any
  analyzer := declarationAnalyzer
  contentHash := String.length
  setOrder := fun dirs => ⟨dirs,.refl dirs⟩

end TerraformLs
