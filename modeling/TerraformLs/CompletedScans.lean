import TerraformLs.Indexer
import TerraformLs.Runs

/-! A directory whose scan is completed has its files in the store, for as long
as no handler takes one of them out again. -/
namespace TerraformLs

namespace StateStore

/-- Documents are added. None is opened or removed, and no scan is completed. -/
structure Grows (s s' : StateStore) : Prop where
  present : ∀ uri ∈ s.documents, uri ∈ s'.documents
  openDocs : s'.openDocs = s.openDocs
  completed : ∀ dir, s'.isScanCompleted dir = s.isScanCompleted dir

theorem Grows.refl (s : StateStore) : s.Grows s := ⟨fun _ h => h,rfl,fun _ => rfl⟩

theorem Grows.trans {s t u : StateStore} (h : s.Grows t) (h' : t.Grows u) : s.Grows u :=
  ⟨fun uri hu => h'.present uri (h.present uri hu),h'.openDocs.trans h.openDocs,
    fun dir => (h'.completed dir).trans (h.completed dir)⟩

theorem Grows.foldl {α : Type} {f : StateStore → α → StateStore} (h : ∀ (s : StateStore) (a : α), s.Grows (f s a))
    (as : List α) (s : StateStore) : s.Grows (as.foldl f s) := by
  induction as generalizing s with
  | nil => exact .refl s
  | cons a as ih => exact (h s a).trans (ih (f s a))

/-- Open documents are in the store. -/
def OpenPresent (s : StateStore) : Prop := ∀ uri ∈ s.openDocs, uri ∈ s.documents

theorem OpenPresent.grows {s s' : StateStore} (ho : s.OpenPresent) (h : s.Grows s') :
    s'.OpenPresent := by
  intro uri hu
  rw [h.openDocs] at hu
  exact h.present uri (ho uri hu)

theorem OpenPresent.complete {s : StateStore} (ho : s.OpenPresent) (dir : Path) :
    (s.markScanCompleted dir).OpenPresent := ho

theorem isScanCompleted_markScanCompleted (s : StateStore) (dir dir' : Path) :
    (s.markScanCompleted dir).isScanCompleted dir' ↔ dir' = dir ∨ s.isScanCompleted dir' := by
  simp only [markScanCompleted,isScanCompleted,KeyedMap.lookup_insert_of]
  by_cases h : dir' = dir <;> simp [h]

theorem ReadsDisk.grows {s s' : StateStore} (h : s.ReadsDisk s') : s.Grows s' :=
  ⟨h.present,h.openDocs,fun dir => by simp [isScanCompleted,h.dirScans]⟩

theorem grows_markScanScheduled (s : StateStore) (dir : Path) :
    s.Grows (s.markScanScheduled dir).1 := by
  unfold markScanScheduled
  split
  · exact .refl s
  · rename_i hnone
    refine ⟨fun _ h => h,rfl,fun dir' => ?_⟩
    simp only [isScanCompleted,KeyedMap.lookup_insert_of]
    split
    · rename_i h
      subst h
      simp [hnone]
    · rfl

section disk

variable (env : IndexerEnvironment)

theorem upserted_present {s : StateStore} (ho : s.OpenPresent) {docs : List DocumentState}
    {doc : DocumentState} (hd : doc ∈ docs) :
    doc.uri ∈ (docs.foldl (fun s doc => (s.upsertDocumentUnlessOpen doc).1) s).documents := by
  induction docs generalizing s with
  | nil => cases hd
  | cons d docs ih =>
    have hgrow := (s.readsDisk_upsertUnlessOpen d).grows
    rcases List.mem_cons.mp hd with rfl | hd
    · refine (ReadsDisk.foldl readsDisk_upsertUnlessOpen docs _).present _ ?_
      rcases s.upsertDocumentUnlessOpen_cases doc with ⟨hopen,-⟩ | ⟨-,h⟩
      · exact hgrow.present _ (ho _ hopen)
      · simp [h]
    · exact ih (ho.grows hgrow) hd

/-- A scan leaves every readable file with a document. -/
theorem parseAndUpsertFiles_present {s : StateStore} (ho : s.OpenPresent) {files : List Path}
    {path : Path} (hp : path ∈ files) {url : Url} (hurl : env.fs.fromFilePath path = some url)
    (hread : (env.fs.readToString path).isSome) :
    url ∈ (s.parseAndUpsertFiles env files).documents := by
  by_cases hskip : s.skips url
  · refine (s.readsDisk_parseAndUpsertFiles env files).present url ?_
    have hlookup : (s.documents.lookup url).isSome := by
      unfold skips at hskip
      cases h : s.documents.lookup url with
      | none => simp [h] at hskip
      | some doc => rfl
    exact AList.lookup_isSome.mp hlookup
  · obtain ⟨text,htext⟩ := Option.isSome_iff_exists.mp hread
    have hparse : s.parseFile env path = some (.new env.analyzer url text 0) := by
      simp [parseFile,hurl,hskip,htext]
    exact upserted_present ho (List.mem_filterMap.mpr ⟨path,hp,hparse⟩)

end disk
end StateStore

/-- What may change on a disk whose set of files is fixed. -/
structure Snapshot where
  contents : Path → String
  metadata : Path → Option (ℕ × ℕ)

def IndexerEnvironment.at (env : IndexerEnvironment) (disk : Snapshot) : IndexerEnvironment :=
  { env with
    fs := { env.fs with
      readToString := fun path => (env.fs.readToString path).map fun _ => disk.contents path
      metadata := disk.metadata } }

/-- The document is that of a readable configuration file directly in the directory. -/
def FileSystem.Holds (fs : FileSystem) (dir : Path) (uri : Url) : Prop :=
  ∃ entries path, fs.readDir dir = some entries ∧ path ∈ FileSystem.terraformFiles dir entries ∧
    (fs.readToString path).isSome ∧ fs.fromFilePath path = some uri

theorem holds_at (env : IndexerEnvironment) (disk : Snapshot) (dir : Path) (uri : Url) :
    (env.at disk).fs.Holds dir uri ↔ env.fs.Holds dir uri := by
  simp [IndexerEnvironment.at,FileSystem.Holds]

namespace StateStore

variable (env : IndexerEnvironment)

/-- A completed directory has a document for each of its readable files. -/
def CompletedIndexed (s : StateStore) : Prop :=
  ∀ dir, s.isScanCompleted dir → ∀ uri, env.fs.Holds dir uri → uri ∈ s.documents

/-- The document is that of a file of some completed directory. -/
def FromCompleted (s : StateStore) (uri : Url) : Prop :=
  ∃ dir, s.isScanCompleted dir ∧ env.fs.Holds dir uri

variable {env} {s : StateStore}

/-- Disk reads keep completed directories indexed. -/
theorem CompletedIndexed.grows {s' : StateStore} (h : s.CompletedIndexed env) (hg : s.Grows s') :
    s'.CompletedIndexed env := by
  intro dir hdir uri hholds
  rw [hg.completed] at hdir
  exact hg.present uri (h dir hdir uri hholds)

theorem CompletedIndexed.complete (h : s.CompletedIndexed env) {dir : Path}
    (hdir : ∀ uri, env.fs.Holds dir uri → uri ∈ s.documents) :
    (s.markScanCompleted dir).CompletedIndexed env := by
  intro dir' hd uri hholds
  rcases (s.isScanCompleted_markScanCompleted dir dir').mp hd with rfl | hd
  · exact hdir uri hholds
  · exact h dir' hd uri hholds

theorem OpenPresent.completeAll (ho : s.OpenPresent) (dirs : List Path) :
    (Server.completeAll env dirs s).OpenPresent := by
  induction dirs generalizing s with
  | nil => exact ho
  | cons dir dirs ih =>
    have hrebuilt : (Server.rebuildDir env s dir).OpenPresent := ho.grows (s.readsDisk_rebuild env dir).grows
    exact ih (hrebuilt.complete dir)

theorem CompletedIndexed.completeAll {dirs : List Path} (h : s.CompletedIndexed env)
    (hdirs : ∀ dir ∈ dirs, ∀ uri, env.fs.Holds dir uri → uri ∈ s.documents) :
    (Server.completeAll env dirs s).CompletedIndexed env := by
  induction dirs generalizing s with
  | nil => exact h
  | cons dir dirs ih =>
    have hg := (s.readsDisk_rebuild env dir).grows
    have hheld : ∀ d ∈ dir :: dirs, ∀ uri, env.fs.Holds d uri →
        uri ∈ (Server.rebuildDir env s dir).documents :=
      fun d hd uri hu => hg.present uri (hdirs d hd uri hu)
    refine ih (s:=(Server.rebuildDir env s dir).markScanCompleted dir) ?_ ?_
    · exact (h.grows hg).complete (hheld dir List.mem_cons_self)
    · exact fun d hd => hheld d (List.mem_cons_of_mem dir hd)

/-- Removing a document keeps completed directories indexed unless it is of one of them. -/
theorem CompletedIndexed.remove_iff (h : s.CompletedIndexed env) (uri : Url) :
    (s.removeDocument uri).1.CompletedIndexed env ↔ ¬s.FromCompleted env uri := by
  have hcompleted : ∀ dir, (s.removeDocument uri).1.isScanCompleted dir = s.isScanCompleted dir :=
    fun dir => by simp [isScanCompleted]
  constructor
  · rintro hafter ⟨dir,hdir,hholds⟩
    rw [← hcompleted] at hdir
    have hin := hafter dir hdir uri hholds
    simp at hin
  · intro hnone dir hdir u hholds
    rw [hcompleted] at hdir
    have hne : u ≠ uri := by
      rintro rfl
      exact hnone ⟨dir,hdir,hholds⟩
    simpa [hne] using h dir hdir u hholds

theorem OpenPresent.remove (ho : s.OpenPresent) {uri : Url} (hclosed : uri ∉ s.openDocs) :
    (s.removeDocument uri).1.OpenPresent := by
  intro u hu
  simp only [removeDocument_openDocs] at hu
  have hne : u ≠ uri := by
    rintro rfl
    exact hclosed hu
  simpa [hne] using ho u hu

end StateStore

inductive ServerStep
  | didOpen (uri : Url) (text : String) (version : ℤ)
  | didClose (uri : Url)
  | scanDir (dir : Path)
  | bulkScan (cache : List CacheEntry) (fuel : ℕ) (root : Path)
  | hydrate (cache : List CacheEntry)
  | diskRemoval (uri : Url)

namespace Server

open StateStore

variable (env : IndexerEnvironment)

/-- Each step finds the disk with contents of its own. -/
def step (srv : Server) (st : Snapshot × ServerStep) : Server :=
  match st.2 with
  | .didOpen uri text version => srv.didOpen (env.at st.1) uri text version
  | .didClose uri => srv.didClose uri
  | .scanDir dir => srv.scanDirIntoState (env.at st.1) dir
  | .bulkScan cache fuel root => srv.bulkWorkspaceScan (env.at st.1) cache fuel root
  | .hydrate cache => { srv with store := srv.store.hydrateIntoStore (env.at st.1) cache }
  | .diskRemoval uri => srv.handleDiskRemoval uri

/-- No document of a completed directory is closed in the editor, or removed
after a removal from disk while it is not open. -/
def KeepsCompleted (srv : Server) (st : Snapshot × ServerStep) : Prop :=
  match st.2 with
  | .didClose uri => ¬srv.store.FromCompleted env uri
  | .diskRemoval uri => srv.store.isOpen uri ∨ ¬srv.store.FromCompleted env uri
  | _ => True

variable {env}

theorem grows_scheduleScan (srv : Server) (dir : Path) (priority : Priority) :
    srv.store.Grows (srv.scheduleScan dir priority).store :=
  srv.store.grows_markScanScheduled dir

theorem grows_enqueueChildModuleScans (srv : Server) (dir : Path) :
    srv.store.Grows (srv.enqueueChildModuleScans env dir).store := by
  unfold enqueueChildModuleScans
  generalize srv.store.childModules env dir = children
  induction children generalizing srv with
  | nil => exact .refl srv.store
  | cons child children ih => exact (srv.grows_scheduleScan child .normal).trans (ih _)

theorem grows_indexDir (srv : Server) (dir : Path) : srv.store.Grows (srv.indexDir env dir).store :=
  (srv.store.readsDisk_indexModuleDirSync env dir).grows

theorem grows_fetchSchemasAbove (srv : Server) (dir : Path) :
    srv.store.Grows (srv.fetchSchemasAbove env dir).store := by
  unfold fetchSchemasAbove maybeEnqueueSchemaFetch
  repeat' split
  all_goals exact ⟨fun _ h => h,rfl,fun _ => rfl⟩

theorem grows_indexModuleUnderTest (srv : Server) (uri : Url) (dirBuf : Path) :
    srv.store.Grows (srv.indexModuleUnderTest env uri dirBuf).store := by
  unfold indexModuleUnderTest
  split
  · exact .refl srv.store
  · dsimp only
    split
    · exact .refl srv.store
    · exact (srv.grows_indexDir _).trans (grows_scheduleScan _ _ _)

theorem grows_ensureModuleIndexed (srv : Server) (uri : Url) :
    srv.store.Grows (srv.ensureModuleIndexed env uri).store := by
  unfold ensureModuleIndexed
  split
  · exact .refl srv.store
  · refine .trans ?_ (grows_enqueueChildModuleScans _ _)
    refine .trans ?_ (grows_scheduleScan _ _ _)
    refine .trans ?_ (grows_indexModuleUnderTest _ uri _)
    refine .trans ?_ (grows_indexDir _ _)
    exact srv.grows_fetchSchemasAbove _

theorem scanDir_openPresent {srv : Server} (ho : srv.store.OpenPresent) (dir : Path) :
    (srv.scanDirIntoState env dir).store.OpenPresent := by
  unfold scanDirIntoState
  split
  · exact ho
  · rename_i files hfiles
    have hparsed := ho.grows (srv.store.readsDisk_parseAndUpsertFiles env files).grows
    exact ((hparsed.complete dir).grows (readsDisk_rebuild env _ dir).grows).grows
      (grows_enqueueChildModuleScans ⟨_,srv.queue⟩ dir)

theorem scanDir_indexed {srv : Server} (ho : srv.store.OpenPresent)
    (h : srv.store.CompletedIndexed env) (dir : Path) :
    (srv.scanDirIntoState env dir).store.CompletedIndexed env := by
  unfold scanDirIntoState
  split
  · exact h
  · rename_i files hfiles
    have hheld : ∀ uri, env.fs.Holds dir uri →
        uri ∈ (srv.store.parseAndUpsertFiles env files).documents := by
      rintro uri ⟨entries,path,hread,hpath,hreadable,huri⟩
      obtain ⟨found,hfound,hin⟩ :=
        (FileSystem.mem_discoverTerraformFilesInDir path hread).mpr hpath
      rw [hfiles] at hfound
      cases hfound
      exact parseAndUpsertFiles_present env ho hin huri hreadable
    have hparsed := h.grows (srv.store.readsDisk_parseAndUpsertFiles env files).grows
    exact ((hparsed.complete hheld).grows (readsDisk_rebuild env _ dir).grows).grows
      (grows_enqueueChildModuleScans ⟨_,srv.queue⟩ dir)

theorem bulkScan_openPresent {srv : Server} (ho : srv.store.OpenPresent) (cache : List CacheEntry)
    (fuel : ℕ) (root : Path) :
    (srv.bulkWorkspaceScan env cache fuel root).store.OpenPresent := by
  have hhydrated := ho.grows (srv.store.readsDisk_hydrateIntoStore env cache).grows
  unfold bulkWorkspaceScan
  split
  · exact ho
  · exact hhydrated
  · rename_i files hfiles
    have hmarked := hhydrated.grows (.foldl grows_markScanScheduled (scannedDirs env files) _)
    exact (hmarked.grows (readsDisk_parseAndUpsertFiles env _ files).grows).completeAll _

theorem bulkScan_indexed {srv : Server} (ho : srv.store.OpenPresent)
    (h : srv.store.CompletedIndexed env) (cache : List CacheEntry) (fuel : ℕ) (root : Path) :
    (srv.bulkWorkspaceScan env cache fuel root).store.CompletedIndexed env := by
  have hhydrate := (srv.store.readsDisk_hydrateIntoStore env cache).grows
  unfold bulkWorkspaceScan
  split
  · exact h
  · exact h.grows hhydrate
  · rename_i files hfiles
    have hmark := hhydrate.trans (.foldl grows_markScanScheduled (scannedDirs env files) _)
    have hparsed := h.grows (hmark.trans (readsDisk_parseAndUpsertFiles env _ files).grows)
    refine hparsed.completeAll ?_
    -- the walk has found the other files of the directory as well
    rintro dir hdir uri ⟨entries,path,hread,hpath,hreadable,huri⟩
    have hdir := List.mem_dedup.mp ((env.setOrder _).property.mem_iff.mp hdir)
    obtain ⟨found,hfound,hparent⟩ := List.mem_filterMap.mp hdir
    obtain ⟨dir',entries',-,hread',hin,hsub⟩ :=
      (FileSystem.discoverTerraformFiles_complete hfiles).siblings found hfound
    rw [FileSystem.parent_of_mem_terraformFiles hin] at hparent
    cases hparent
    rw [hread] at hread'
    cases hread'
    exact parseAndUpsertFiles_present env (ho.grows hmark) (hsub hpath) huri hreadable

theorem didOpen_openPresent {srv : Server} (ho : srv.store.OpenPresent) (uri : Url) (text : String)
    (version : ℤ) : (srv.didOpen env uri text version).store.OpenPresent := by
  refine OpenPresent.grows (fun u hu => ?_) (grows_ensureModuleIndexed _ uri)
  have huri : (DocumentState.new env.analyzer uri text version).uri = uri := rfl
  simp only [upsertDocument_openDocs,markOpen,Finset.mem_insert] at hu
  rcases hu with rfl | hu
  · simp [huri]
  · simpa [huri,markOpen] using .inr (ho u hu)

theorem didOpen_indexed {srv : Server} (h : srv.store.CompletedIndexed env) (uri : Url)
    (text : String) (version : ℤ) :
    (srv.didOpen env uri text version).store.CompletedIndexed env := by
  refine CompletedIndexed.grows (fun dir hdir u hholds => ?_) (grows_ensureModuleIndexed _ uri)
  have huri : (DocumentState.new env.analyzer uri text version).uri = uri := rfl
  have hdir : srv.store.isScanCompleted dir := by simpa [isScanCompleted,markOpen] using hdir
  simpa [huri,markOpen] using .inr (h dir hdir u hholds)

theorem step_openPresent {srv : Server} (ho : srv.store.OpenPresent)
    (st : Snapshot × ServerStep) : (step env srv st).store.OpenPresent := by
  obtain ⟨disk,st⟩ := st
  cases st with
  | didOpen uri text version => exact didOpen_openPresent ho uri text version
  | didClose uri =>
    refine OpenPresent.remove (fun u hu => ?_) (Finset.notMem_erase uri _)
    exact ho u (Finset.mem_of_mem_erase hu)
  | scanDir dir => exact scanDir_openPresent ho dir
  | bulkScan cache fuel root => exact bulkScan_openPresent ho cache fuel root
  | hydrate cache => exact ho.grows (readsDisk_hydrateIntoStore _ _ cache).grows
  | diskRemoval uri =>
    by_cases hopen : srv.store.isOpen uri
    · simpa [step,handleDiskRemoval,hopen] using ho
    · have hclosed : uri ∉ srv.store.openDocs := by simpa [isOpen] using hopen
      simpa [step,handleDiskRemoval,hopen] using ho.remove hclosed

/-- Taking a document of a completed directory out of the store breaks the
property, and no other step does. -/
theorem step_indexed_iff {srv : Server} {st : Snapshot × ServerStep} (ho : srv.store.OpenPresent)
    (h : srv.store.CompletedIndexed env) :
    (step env srv st).store.CompletedIndexed env ↔ KeepsCompleted env srv st := by
  obtain ⟨disk,st⟩ := st
  have hat : ∀ s : StateStore, s.CompletedIndexed (env.at disk) ↔ s.CompletedIndexed env := by
    intro s
    simp only [CompletedIndexed,holds_at]
  cases st with
  | didOpen uri text version =>
    exact iff_of_true ((hat _).mp (didOpen_indexed ((hat _).mpr h) uri text version)) trivial
  | didClose uri => exact CompletedIndexed.remove_iff (s:=srv.store.markClosed uri) h uri
  | scanDir dir => exact iff_of_true ((hat _).mp (scanDir_indexed ho ((hat _).mpr h) dir)) trivial
  | bulkScan cache fuel root =>
    exact iff_of_true ((hat _).mp (bulkScan_indexed ho ((hat _).mpr h) cache fuel root)) trivial
  | hydrate cache => exact iff_of_true (h.grows (readsDisk_hydrateIntoStore _ _ cache).grows) trivial
  | diskRemoval uri =>
    by_cases hopen : srv.store.isOpen uri
    · simpa [step,handleDiskRemoval,KeepsCompleted,hopen] using h
    · simpa [step,handleDiskRemoval,KeepsCompleted,hopen] using h.remove_iff uri

/-- A run keeps completed directories indexed exactly when it never takes a
document of one of them out of the store. -/
theorem completedIndexed_throughout_iff (env : IndexerEnvironment)
    (steps : List (Snapshot × ServerStep)) :
    Throughout (step env) (fun srv => srv.store.CompletedIndexed env) {} steps ↔
      Guarded (step env) (KeepsCompleted env) {} steps := by
  refine throughout_iff_guarded (I := fun srv => srv.store.OpenPresent) ?_ ?_ ?_ ?_
  · exact fun st _ srv ho => step_openPresent ho st
  · exact fun srv st ho h => step_indexed_iff ho h
  · intro uri hu
    simp at hu
  · intro dir hdir
    simp [isScanCompleted] at hdir

def oneFileSnapshot : Snapshot where
  contents := fun _ => "variable \"x\" {}"
  metadata := fun _ => none

/-- The directory is scanned, then its file is opened and closed. -/
theorem openedAndClosed_not_indexed :
    ¬Throughout (step oneFileEnvironment)
      (fun srv => srv.store.CompletedIndexed oneFileEnvironment) {}
      [(oneFileSnapshot,.scanDir ["m"]),
        (oneFileSnapshot,.didOpen mainUri "variable \"x\" {}" 1),
        (oneFileSnapshot,.didClose mainUri)] := by
  intro h
  have hholds : oneFileEnvironment.fs.Holds ["m"] mainUri :=
    ⟨[⟨"main.tf",false,true⟩],["m","main.tf"],rfl,by decide,by decide,rfl⟩
  have hpresent := h.final ["m"] (by decide) mainUri hholds
  revert hpresent
  decide

end Server
end TerraformLs
