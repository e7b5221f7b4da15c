import TerraformLs.Indexer
import TerraformLs.Runs

/-! The worker loop step by step, next to the handlers that schedule scans. A
directory marked as scheduled has a job that will complete it, unless a scan is
cut short before it has marked the directory. -/
namespace TerraformLs

/-- What the worker is doing. -/
inductive Phase
  | idle
  /-- A job has been popped; discovery comes next. -/
  | started (job : Job)
  /-- A directory has been listed; its files are to be read. -/
  | scanning (dir : Path) (files : List Path)
  /-- A directory is completed; the modules it calls are to be scheduled. -/
  | schedulingChildren (dir : Path) (children : List Path)
  /-- The files of a workspace are found; some of their directories are marked, and
  the rest is to be marked. -/
  | marking (root : Path) (files marked rest : List Path)
  | bulkScanning (root : Path) (files dirs : List Path)
  /-- The rest of the directories is to be completed. -/
  | completing (root : Path) (rest : List Path)
  /-- The job has been handled, with whatever result. -/
  | finished (job : Job)

/-- The job in hand. -/
def Phase.job : Phase → Option Job
  | .idle => none
  | .started job | .finished job => some job
  | .scanning dir _ | .schedulingChildren dir _ => some (.scanDirectory dir)
  | .marking root _ _ _ | .bulkScanning root _ _ | .completing root _ =>
    some (.bulkWorkspaceScan root)

/-- The directories that are still to be completed. -/
def Phase.owes : Phase → List Path
  | .started (.scanDirectory dir) | .scanning dir _ => [dir]
  | .marking _ _ marked rest => marked ++ rest
  | .bulkScanning _ _ dirs => dirs
  | .completing _ rest => rest
  | _ => []

structure Worker extends Server where
  phase : Phase := .idle

inductive WorkerStep
  | ensureModuleIndexed (env : IndexerEnvironment) (uri : Url)
  | enqueueWorkspaceScan (root : Path)
  | enqueue (job : Job) (priority : Priority)
  /-- Any other handler, or any other job, changes the store but for the scans. -/
  | edit (store : StateStore)
  | advance (env : IndexerEnvironment) (cache : List CacheEntry) (fuel : ℕ)
  | panic

namespace Worker

/-- Take the next job. -/
def next (w : Worker) : Worker :=
  match w.queue.tryNext with
  | none => w
  | some (job,queue) => { w with queue := queue, phase := .started job }

/-- A listing that cannot be read ends the scan of a directory with a warning. -/
def startScan (env : IndexerEnvironment) (w : Worker) (dir : Path) : Worker :=
  match env.fs.discoverTerraformFilesInDir dir with
  | none => { w with phase := .finished (.scanDirectory dir) }
  | some files => { w with phase := .scanning dir files }

def startBulkScan (env : IndexerEnvironment) (cache : List CacheEntry) (fuel : ℕ) (w : Worker)
    (root : Path) : Worker :=
  match env.fs.discoverTerraformFiles fuel root with
  | none => w
  | some (.error _) =>
    { w with store := w.store.hydrateIntoStore env cache
             phase := .finished (.bulkWorkspaceScan root) }
  | some (.ok files) =>
    let dirs := Server.scannedDirs env files
    { w with store := w.store.hydrateIntoStore env cache, phase := .marking root files [] dirs }

def scanDir (env : IndexerEnvironment) (w : Worker) (dir : Path) (files : List Path) : Worker :=
  let s := (w.store.parseAndUpsertFiles env files).markScanCompleted dir
  let s := Server.rebuildDir env s dir
  { w with store := s, phase := .schedulingChildren dir (s.childModules env dir) }

/-- The worker goes on. Jobs that are no scans end at once: what they do to the
store is done by `edit`. -/
def advance (env : IndexerEnvironment) (cache : List CacheEntry) (fuel : ℕ) (w : Worker) : Worker :=
  match w.phase with
  | .idle => w.next
  | .started (.scanDirectory dir) => w.startScan env dir
  | .started (.bulkWorkspaceScan root) => w.startBulkScan env cache fuel root
  | .started job => { w with phase := .finished job }
  | .scanning dir files => w.scanDir env dir files
  | .schedulingChildren dir [] => { w with phase := .finished (.scanDirectory dir) }
  | .schedulingChildren dir (child::children) =>
    { w.toServer.scheduleScan child .normal with phase := .schedulingChildren dir children }
  | .marking root files marked [] => { w with phase := .bulkScanning root files marked }
  | .marking root files marked (dir::rest) =>
    { w with store := (w.store.markScanScheduled dir).1
             phase := .marking root files (marked ++ [dir]) rest }
  | .bulkScanning root files dirs =>
    { w with store := w.store.parseAndUpsertFiles env files, phase := .completing root dirs }
  | .completing root [] => { w with phase := .finished (.bulkWorkspaceScan root) }
  | .completing root (dir::rest) =>
    { w with store := (Server.rebuildDir env w.store dir).markScanCompleted dir
             phase := .completing root rest }
  | .finished _ => { w with queue := w.queue.complete, phase := .idle }

def step (w : Worker) : WorkerStep → Worker
  | .ensureModuleIndexed env uri =>
    { w.toServer.ensureModuleIndexed env uri with phase := w.phase }
  | .enqueueWorkspaceScan root => { w.toServer.enqueueWorkspaceScan root with phase := w.phase }
  | .enqueue job priority => { w with queue := w.queue.enqueue job priority }
  | .edit store => { w with store := { store with dirScans := w.store.dirScans } }
  | .advance env cache fuel => w.advance env cache fuel
  -- the worker catches the panic and drops the job
  | .panic =>
    match w.phase.job with
    | none => w
    | some job => { w with phase := .finished job }

end Worker

/-- A scan of the directory, or of a workspace above it. -/
def Job.Covers (dir : Path) : Job → Prop
  | .scanDirectory d => d = dir
  | .bulkWorkspaceScan root => root <+: dir
  | _ => False

namespace Server

def Scheduled (srv : Server) (dir : Path) : Prop :=
  srv.store.dirScans.lookup dir = some .scheduled

instance (srv : Server) (dir : Path) : Decidable (srv.Scheduled dir) :=
  inferInstanceAs (Decidable (_ = _))

/-- The directory is marked, and no scan of its own is queued for it. -/
def Unqueued (srv : Server) (dir : Path) : Prop :=
  srv.Scheduled dir ∧ ¬srv.queue.Queued (.scanDirectory dir)

end Server

namespace Worker

/-- A scan that covers the directory is queued or being handled. -/
def Covered (w : Worker) (dir : Path) : Prop :=
  ∃ job : Job, job.Covers dir ∧ (w.queue.Queued job ∨ w.phase.job = some job)

/-- Every scheduled directory is covered, so there is none when the queue is idle. -/
structure ScheduledPending (w : Worker) : Prop where
  covered : ∀ dir, w.Scheduled dir → w.Covered dir
  idle : w.queue.isIdle → ∀ dir, ¬w.Scheduled dir

/-- A scan is cut short: its discovery fails or it panics. -/
def abandons (w : Worker) : WorkerStep → Bool
  | .panic => true
  | .advance env _ _ =>
    match w.phase with
    | .started (.scanDirectory dir) => (env.fs.discoverTerraformFilesInDir dir).isNone
    | _ => false
  | _ => false

/-- A scan is cut short only when the scheduled directories it has not
completed have a scan of their own in the queue. -/
def AbandonsQueued (w : Worker) (st : WorkerStep) : Prop :=
  w.abandons st → ∀ dir ∈ w.phase.owes, w.Scheduled dir → w.queue.Queued (.scanDirectory dir)

instance (w : Worker) (st : WorkerStep) : Decidable (w.AbandonsQueued st) :=
  inferInstanceAs (Decidable (_ → _))

/-- The job in hand owes every scheduled directory that has no scan in the queue. -/
structure Accounted (w : Worker) : Prop where
  pendingQueued : w.queue.PendingQueued
  owed : ∀ dir, w.Unqueued dir → dir ∈ w.phase.owes
  owes_covered : ∀ dir ∈ w.phase.owes, ∃ job : Job, w.phase.job = some job ∧ job.Covers dir
  inFlight : w.phase.job.isSome → w.queue.inFlight ≠ 0

end Worker

namespace Server

theorem unqueued_store {srv : Server} {s : StateStore} (hs : s.dirScans = srv.store.dirScans)
    (dir : Path) : Unqueued { srv with store := s } dir ↔ srv.Unqueued dir := by
  simp only [Unqueued,Scheduled,hs]

/-- No directory is left scheduled without a scan in the queue that was not so before. -/
structure Schedules (srv srv' : Server) : Prop where
  pendingQueued : srv'.queue.PendingQueued
  unqueued : ∀ dir, srv'.Unqueued dir → srv.Unqueued dir
  inFlight : srv'.queue.inFlight = srv.queue.inFlight

theorem Schedules.trans {srv₁ srv₂ srv₃ : Server} (h : srv₁.Schedules srv₂)
    (h' : srv₂.Schedules srv₃) : srv₁.Schedules srv₃ :=
  ⟨h'.pendingQueued,fun dir hd => h.unqueued dir (h'.unqueued dir hd),
    h'.inFlight.trans h.inFlight⟩

variable {srv : Server}

theorem schedules_store (h : srv.queue.PendingQueued) {s : StateStore}
    (hs : s.dirScans = srv.store.dirScans) : srv.Schedules { srv with store := s } :=
  ⟨h,fun dir hd => (unqueued_store hs dir).mp hd,rfl⟩

theorem schedules_enqueue (h : srv.queue.PendingQueued) {s : StateStore}
    (hs : s.dirScans = srv.store.dirScans) (job : Job) (priority : Priority) :
    srv.Schedules { store := s, queue := srv.queue.enqueue job priority } := by
  refine ⟨JobQueue.pendingQueued_enqueue h job priority,fun dir hd => ?_,by simp⟩
  obtain ⟨hd,hq⟩ := hd
  rw [JobQueue.queued_enqueue h,not_or] at hq
  exact (unqueued_store hs dir).mp ⟨hd,hq.2⟩

/-- A mark makes the directory scheduled when it was not tracked. -/
theorem markScanScheduled_cases (s : StateStore) (dir : Path) :
    s.markScanScheduled dir = (s,false) ∨
      s.markScanScheduled dir = ({ s with dirScans := s.dirScans.insert dir .scheduled },true) := by
  unfold StateStore.markScanScheduled
  split
  · exact .inl rfl
  · exact .inr rfl

theorem schedules_scheduleScan (h : srv.queue.PendingQueued) (dir : Path) (priority : Priority) :
    srv.Schedules (srv.scheduleScan dir priority) := by
  rcases markScanScheduled_cases srv.store dir with hm | hm
  · rw [scheduleScan,hm]
    exact schedules_store h rfl
  · rw [scheduleScan,hm]
    refine ⟨JobQueue.pendingQueued_enqueue h _ _,fun d hd => ?_,by simp⟩
    obtain ⟨hs,hq⟩ := hd
    simp only [if_true] at hq
    rw [JobQueue.queued_enqueue h,not_or] at hq
    have hne : d ≠ dir := by
      rintro rfl
      exact hq.1 rfl
    simp only [Scheduled,KeyedMap.lookup_insert_of,if_neg hne] at hs
    exact ⟨hs,hq.2⟩

theorem schedules_enqueueChildModuleScans (h : srv.queue.PendingQueued) (env : IndexerEnvironment)
    (dir : Path) : srv.Schedules (srv.enqueueChildModuleScans env dir) := by
  unfold enqueueChildModuleScans
  generalize srv.store.childModules env dir = children
  induction children generalizing srv with
  | nil => exact schedules_store h rfl
  | cons child children ih =>
    have hstep := schedules_scheduleScan h child .normal
    exact hstep.trans (ih hstep.pendingQueued)

theorem schedules_indexDir (h : srv.queue.PendingQueued) (env : IndexerEnvironment) (dir : Path) :
    srv.Schedules (srv.indexDir env dir) :=
  schedules_store h (srv.store.readsDisk_indexModuleDirSync env dir).dirScans

theorem schedules_fetchSchemasAbove (h : srv.queue.PendingQueued) (env : IndexerEnvironment)
    (dir : Path) : srv.Schedules (srv.fetchSchemasAbove env dir) := by
  unfold fetchSchemasAbove maybeEnqueueSchemaFetch
  repeat' split
  all_goals first
    | exact schedules_store h rfl
    | exact schedules_enqueue h (by rfl) _ _

theorem schedules_indexModuleUnderTest (h : srv.queue.PendingQueued) (env : IndexerEnvironment)
    (uri : Url) (dirBuf : Path) : srv.Schedules (srv.indexModuleUnderTest env uri dirBuf) := by
  unfold indexModuleUnderTest
  split
  · exact schedules_store h rfl
  · rename_i mutDir hmut
    dsimp only
    split
    · exact schedules_store h rfl
    · have hindex := schedules_indexDir h env ((env.fs.canonicalize mutDir).getD mutDir)
      exact hindex.trans (schedules_scheduleScan hindex.pendingQueued _ _)

theorem schedules_ensureModuleIndexed (h : srv.queue.PendingQueued) (env : IndexerEnvironment)
    (uri : Url) : srv.Schedules (srv.ensureModuleIndexed env uri) := by
  unfold ensureModuleIndexed
  split
  · exact schedules_store h rfl
  · rename_i dir hdir
    dsimp only
    generalize (env.fs.canonicalize dir).getD dir = dirBuf
    have hfetch := schedules_fetchSchemasAbove h env dirBuf
    have hindex := hfetch.trans (schedules_indexDir hfetch.pendingQueued env dirBuf)
    have htest := hindex.trans (schedules_indexModuleUnderTest hindex.pendingQueued env uri dirBuf)
    have hscan := htest.trans (schedules_scheduleScan htest.pendingQueued dirBuf .high)
    exact hscan.trans (schedules_enqueueChildModuleScans hscan.pendingQueued env dirBuf)

end Server
namespace Worker

variable {w : Worker}

theorem Accounted.scheduledPending (h : w.Accounted) : w.ScheduledPending := by
  have hcovered : ∀ dir, w.Scheduled dir → w.queue.Queued (.scanDirectory dir) ∨
      ∃ job : Job, w.phase.job = some job ∧ job.Covers dir := by
    intro dir hs
    by_cases hq : w.queue.Queued (.scanDirectory dir)
    · exact .inl hq
    · exact .inr (h.owes_covered dir (h.owed dir ⟨hs,hq⟩))
  constructor
  · intro dir hs
    rcases hcovered dir hs with hq | ⟨job,hjob,hcov⟩
    · exact ⟨.scanDirectory dir,rfl,.inl hq⟩
    · exact ⟨job,hcov,.inr hjob⟩
  · intro hidle dir hs
    rcases hcovered dir hs with hq | ⟨job,hjob,-⟩
    · exact JobQueue.not_queued_of_idle hidle _ hq
    · refine h.inFlight (by simp [hjob]) ?_
      simp only [JobQueue.isIdle,Bool.and_eq_true,decide_eq_true_eq] at hidle
      exact hidle.2

/-- The handlers schedule scans and leave the worker alone. -/
theorem Accounted.schedules {srv : Server} (h : w.Accounted) (hs : w.toServer.Schedules srv) :
    Accounted { srv with phase := w.phase } where
  pendingQueued := hs.pendingQueued
  owed dir hd := h.owed dir (hs.unqueued dir hd)
  owes_covered := h.owes_covered
  inFlight hjob := by
    rw [hs.inFlight]
    exact h.inFlight hjob

/-- The worker goes on with its job, and accounts for what it owes. -/
theorem Accounted.next_phase {s : StateStore} {phase : Phase} (h : w.Accounted)
    (hjob : phase.job = w.phase.job)
    (howed : ∀ dir, Server.Unqueued { w.toServer with store := s } dir → dir ∈ phase.owes)
    (hcovered : ∀ dir ∈ phase.owes, ∃ job : Job, w.phase.job = some job ∧ job.Covers dir) :
    Accounted { w with store := s, phase := phase } where
  pendingQueued := h.pendingQueued
  owed := howed
  owes_covered dir hd := by
    rw [hjob]
    exact hcovered dir hd
  inFlight hj := by
    rw [hjob] at hj
    exact h.inFlight hj

/-- The job is over, and owes nothing any more. -/
theorem Accounted.finish {job : Job} {s : StateStore} (h : w.Accounted)
    (hjob : w.phase.job = some job) (hs : s.dirScans = w.store.dirScans)
    (howed : ∀ dir ∈ w.phase.owes, ¬w.Unqueued dir) :
    Accounted { w with store := s, phase := .finished job } := by
  refine h.next_phase (by rw [hjob]; rfl) (fun dir hd => ?_) (by simp [Phase.owes])
  have hd := (Server.unqueued_store hs dir).mp hd
  exact absurd hd (howed dir (h.owed dir hd))

theorem accounted_next (h : w.Accounted) (hidle : w.phase = .idle) : w.next.Accounted := by
  unfold next
  split
  · exact h
  · rename_i job queue hnext
    have hqueued := JobQueue.queued_of_tryNext hnext
    refine ⟨JobQueue.pendingQueued_tryNext h.pendingQueued hnext,fun dir hd => ?_,?_,fun _ => ?_⟩
    · -- only the job that was popped can have been the scan of the directory
      obtain ⟨hs,hq⟩ := hd
      by_cases hw : w.queue.Queued (.scanDirectory dir)
      · rcases (hqueued _).mp hw with rfl | hw
        · simp [Phase.owes]
        · exact absurd hw hq
      · have howes := h.owed dir ⟨hs,hw⟩
        simp [hidle,Phase.owes] at howes
    · intro dir hd
      cases job <;> simp [Phase.owes] at hd
      subst hd
      exact ⟨_,rfl,rfl⟩
    · rw [JobQueue.inFlight_tryNext hnext]
      omega

theorem accounted_startScan (h : w.Accounted) {dir : Path}
    (hphase : w.phase = .started (.scanDirectory dir)) (env : IndexerEnvironment)
    (hok : env.fs.discoverTerraformFilesInDir dir = none →
      w.Scheduled dir → w.queue.Queued (.scanDirectory dir)) :
    (w.startScan env dir).Accounted := by
  unfold startScan
  split
  · rename_i hnone
    refine h.finish (by rw [hphase]; rfl) rfl fun d hd => ?_
    simp only [hphase,Phase.owes,List.mem_singleton] at hd
    subst hd
    exact fun hun => hun.2 (hok hnone hun.1)
  · refine h.next_phase (by rw [hphase]; rfl) (fun d hd => ?_) (fun d hd => ?_)
    · simpa [hphase,Phase.owes] using h.owed d hd
    · have hd : d ∈ w.phase.owes := by simpa [hphase,Phase.owes] using hd
      exact h.owes_covered d hd

theorem accounted_startBulkScan (h : w.Accounted) {root : Path}
    (hphase : w.phase = .started (.bulkWorkspaceScan root)) (env : IndexerEnvironment)
    (cache : List CacheEntry) (fuel : ℕ) : (w.startBulkScan env cache fuel root).Accounted := by
  have hscans := (w.store.readsDisk_hydrateIntoStore env cache).dirScans
  have howes : w.phase.owes = [] := by rw [hphase]; rfl
  unfold startBulkScan
  split
  · exact h
  · exact h.finish (by rw [hphase]; rfl) hscans (by simp [howes])
  · rename_i files hfiles
    refine h.next_phase (by rw [hphase]; rfl) (fun d hd => ?_) (fun d hd => ?_)
    · have hd := h.owed d ((Server.unqueued_store hscans d).mp hd)
      simp [howes] at hd
    · -- the walk stays below the root
      have hd : d ∈ (files.filterMap Path.parent).dedup := (env.setOrder _).property.mem_iff.mp hd
      obtain ⟨path,hpath,hparent⟩ := List.mem_filterMap.mp (List.mem_dedup.mp hd)
      obtain ⟨dir,entries,hroot,-,hin,-⟩ :=
        (FileSystem.discoverTerraformFiles_complete hfiles).siblings path hpath
      rw [FileSystem.parent_of_mem_terraformFiles hin] at hparent
      cases hparent
      exact ⟨.bulkWorkspaceScan root,by rw [hphase]; rfl,hroot⟩

theorem scheduled_markScanCompleted (srv : Server) {s : StateStore}
    (hs : s.dirScans = srv.store.dirScans) {dir d : Path}
    (hd : Server.Unqueued { srv with store := s.markScanCompleted dir } d) :
    d ≠ dir ∧ srv.Unqueued d := by
  obtain ⟨hs',hq⟩ := hd
  simp only [Server.Scheduled,StateStore.markScanCompleted,KeyedMap.lookup_insert_of,hs] at hs'
  split at hs'
  · cases hs'
  · rename_i hne
    exact ⟨hne,hs',hq⟩

theorem accounted_scanDir (h : w.Accounted) {dir : Path} {files : List Path}
    (hphase : w.phase = .scanning dir files) (env : IndexerEnvironment) :
    (w.scanDir env dir files).Accounted := by
  have hparsed := (w.store.readsDisk_parseAndUpsertFiles env files).dirScans
  refine h.next_phase (by rw [hphase]; rfl) (fun d hd => ?_) (by simp [Phase.owes])
  have hrebuilt := StateStore.readsDisk_rebuild env
    ((w.store.parseAndUpsertFiles env files).markScanCompleted dir) dir
  have hd : Server.Unqueued { w.toServer with
      store := (w.store.parseAndUpsertFiles env files).markScanCompleted dir } d :=
    (Server.unqueued_store hrebuilt.dirScans d).mp hd
  obtain ⟨hne,hd⟩ := scheduled_markScanCompleted w.toServer hparsed hd
  have howes := h.owed d hd
  simp only [hphase,Phase.owes,List.mem_singleton] at howes
  exact absurd howes hne

theorem accounted_mark (h : w.Accounted) {root dir : Path} {files marked rest : List Path}
    (hphase : w.phase = .marking root files marked (dir::rest)) :
    Accounted { w with store := (w.store.markScanScheduled dir).1
                       phase := .marking root files (marked ++ [dir]) rest } := by
  have howes : ∀ d, d ∈ w.phase.owes ↔ d ∈ marked ++ [dir] ++ rest := by
    intro d
    simp [hphase,Phase.owes]
  refine h.next_phase (by rw [hphase]; rfl) (fun d hd => ?_) (fun d hd => ?_)
  · refine (howes d).mp ?_
    rcases Server.markScanScheduled_cases w.store dir with hm | hm
    · rw [hm] at hd
      exact h.owed d hd
    · rw [hm] at hd
      obtain ⟨hs,hq⟩ := hd
      simp only [Server.Scheduled,KeyedMap.lookup_insert_of] at hs
      split at hs
      · rename_i heq
        exact (howes d).mpr (by simp [heq])
      · exact h.owed d ⟨hs,hq⟩
  · exact h.owes_covered d ((howes d).mpr hd)

theorem accounted_complete (h : w.Accounted) {root dir : Path} {rest : List Path}
    (hphase : w.phase = .completing root (dir::rest)) (env : IndexerEnvironment) :
    Accounted { w with store := (Server.rebuildDir env w.store dir).markScanCompleted dir
                       phase := .completing root rest } := by
  refine h.next_phase (by rw [hphase]; rfl) (fun d hd => ?_) (fun d hd => ?_)
  · obtain ⟨hne,hd⟩ := scheduled_markScanCompleted w.toServer
      (w.store.readsDisk_rebuild env dir).dirScans hd
    have howes := h.owed d hd
    simp only [hphase,Phase.owes,List.mem_cons] at howes
    exact howes.resolve_left hne
  · exact h.owes_covered d (by simpa [hphase,Phase.owes] using .inr hd)

theorem accounted_finished (h : w.Accounted) {job : Job} (hphase : w.phase = .finished job) :
    Accounted { w with queue := w.queue.complete, phase := .idle } := by
  refine ⟨h.pendingQueued,fun dir hd => ?_,by simp [Phase.owes],by simp [Phase.job]⟩
  have howes := h.owed dir hd
  simp [hphase,Phase.owes] at howes

/-- Moving on without a change of the store, when the same directories are owed. -/
theorem Accounted.move {phase : Phase} (h : w.Accounted) (hjob : phase.job = w.phase.job)
    (howes : phase.owes = w.phase.owes) : Accounted { w with phase := phase } := by
  refine h.next_phase hjob (fun d hd => ?_) (fun d hd => ?_)
  · rw [howes]
    exact h.owed d hd
  · rw [howes] at hd
    exact h.owes_covered d hd

theorem accounted_advance (h : w.Accounted) (env : IndexerEnvironment) (cache : List CacheEntry)
    (fuel : ℕ) (hok : w.AbandonsQueued (.advance env cache fuel)) :
    (w.advance env cache fuel).Accounted := by
  unfold advance
  split
  · rename_i hphase
    exact accounted_next h hphase
  · rename_i dir hphase
    refine accounted_startScan h hphase env fun hnone hs => ?_
    refine hok ?_ dir (by simp [hphase,Phase.owes]) hs
    simpa [abandons,hphase] using hnone
  · rename_i root hphase
    exact accounted_startBulkScan h hphase env cache fuel
  · rename_i job hscan hbulk hphase
    refine h.move (by rw [hphase]; rfl) ?_
    rw [hphase]
    cases job with
    | scanDirectory dir => exact absurd rfl (hscan dir)
    | _ => rfl
  · rename_i dir files hphase
    exact accounted_scanDir h hphase env
  · rename_i dir hphase
    exact h.move (by rw [hphase]; rfl) (by rw [hphase]; rfl)
  · rename_i dir child children hphase
    have hchild := h.schedules (Server.schedules_scheduleScan h.pendingQueued child .normal)
    exact hchild.move (by rw [hphase]; rfl) (by rw [hphase]; rfl)
  · rename_i root files marked hphase
    exact h.move (by rw [hphase]; rfl) (by simp [hphase,Phase.owes])
  · rename_i root files marked dir rest hphase
    exact accounted_mark h hphase
  · rename_i root files dirs hphase
    have hstore := h.schedules (Server.schedules_store h.pendingQueued
      (w.store.readsDisk_parseAndUpsertFiles env files).dirScans)
    exact hstore.move (by rw [hphase]; rfl) (by rw [hphase]; rfl)
  · rename_i root hphase
    exact h.move (by rw [hphase]; rfl) (by rw [hphase]; rfl)
  · rename_i root dir rest hphase
    exact accounted_complete h hphase env
  · rename_i job hphase
    exact accounted_finished h hphase

theorem accounted_step (h : w.Accounted) {st : WorkerStep} (hok : w.AbandonsQueued st) :
    (w.step st).Accounted := by
  cases st with
  | ensureModuleIndexed env uri =>
    exact h.schedules (Server.schedules_ensureModuleIndexed h.pendingQueued env uri)
  | enqueueWorkspaceScan root =>
    exact h.schedules (Server.schedules_enqueue h.pendingQueued rfl _ _)
  | enqueue job priority => exact h.schedules (Server.schedules_enqueue h.pendingQueued rfl _ _)
  | edit store =>
    exact h.schedules (Server.schedules_store (s:={ store with dirScans := w.store.dirScans })
      h.pendingQueued rfl)
  | advance env cache fuel => exact accounted_advance h env cache fuel hok
  | panic =>
    simp only [step]
    split
    · exact h
    · rename_i job hjob
      refine h.finish hjob rfl fun dir hd hun => ?_
      exact hun.2 (hok rfl dir hd hun.1)

/-- In a run whose scans are cut short only when the directories they leave
scheduled are queued on their own, every scheduled directory is covered. -/
theorem scheduledPending_throughout {steps : List WorkerStep}
    (h : Guarded step AbandonsQueued {} steps) : Throughout step ScheduledPending {} steps := by
  have h0 : Accounted {} := by
    refine ⟨JobQueue.pendingQueued_empty,fun dir hd => ?_,by simp [Phase.owes],by simp [Phase.job]⟩
    simp [Server.Unqueued,Server.Scheduled] at hd
  have hstep : ∀ (w : Worker) (st : WorkerStep), w.Accounted → w.AbandonsQueued st →
      (w.step st).Accounted := fun _ _ hw hok => accounted_step hw hok
  exact (throughout_of_guarded hstep h0 h).mono fun _ hw => hw.scheduledPending

/-- A scan that is cut short leaves the store and the queue as they are. -/
theorem step_of_abandons {st : WorkerStep} (habandons : w.abandons st) {dir : Path}
    (hd : dir ∈ w.phase.owes) : ∃ job, w.step st = { w with phase := .finished job } := by
  cases st with
  | panic =>
    cases hjob : w.phase.job with
    | none =>
      have hidle : w.phase = .idle := by
        cases hphase : w.phase <;> simp [hphase,Phase.job] at hjob ⊢
      simp [hidle,Phase.owes] at hd
    | some job => exact ⟨job,by simp [step,hjob]⟩
  | advance env cache fuel =>
    simp only [abandons] at habandons
    split at habandons
    · rename_i dir' hphase
      have hnone := Option.isNone_iff_eq_none.mp habandons
      exact ⟨.scanDirectory dir',by simp [step,advance,hphase,startScan,hnone]⟩
    · cases habandons
  | _ => cases habandons

/-- The condition is needed: a scan that is cut short strands the directories it
owes, unless another scan of them is queued. -/
theorem abandoned_not_pending {st : WorkerStep} (habandons : w.abandons st) {dir : Path}
    (hd : dir ∈ w.phase.owes) (hs : w.Scheduled dir)
    (hq : ∀ job : Job, job.Covers dir → ¬w.queue.Queued job) (env : IndexerEnvironment) :
    ¬Throughout step ScheduledPending w [st,.advance env [] 0] := by
  intro h
  obtain ⟨job,hjob⟩ := step_of_abandons habandons hd
  have hlast := h.final
  rw [run_cons,run_cons,run_nil,hjob] at hlast
  obtain ⟨job',hcov,hin | hin⟩ := hlast.covered dir hs
  · exact hq job' hcov hin
  · cases hin

/-- A file is opened, and the worker handles the scan of its directory. -/
def openAndScan (env : IndexerEnvironment) : List WorkerStep :=
  [.ensureModuleIndexed env mainUri,.advance env [] 0,.advance env [] 0,.advance env [] 0,
    .advance env [] 0,.advance env [] 0]

theorem openAndScan_pending :
    Throughout step ScheduledPending {} (openAndScan oneFileEnvironment) := by
  apply scheduledPending_throughout
  refine ⟨?_,?_,?_,?_,?_,?_,trivial⟩
  all_goals decide

/-- The file is opened before its directory exists. -/
def noDirEnvironment : IndexerEnvironment :=
  { oneFileEnvironment with fs := { oneFileDisk with readDir := fun _ => none } }

/-- The listing of the directory fails, and the directory stays scheduled when
the queue is idle. -/
theorem openAndScan_stranded :
    ¬Throughout step ScheduledPending {} (openAndScan noDirEnvironment) := by
  intro h
  have hidle := h.final.idle (by decide) ["m"]
  revert hidle
  decide

end Worker
end TerraformLs
