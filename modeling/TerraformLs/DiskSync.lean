import TerraformLs.CacheKeys
import TerraformLs.IndexCache
import TerraformLs.Indexer
import TerraformLs.Runs
import TerraformLs.Watcher

/-! The disk, the watcher's events and the job worker, in any order of their
steps, and when the store ends up with the files that are on the disk. -/
namespace TerraformLs

/-- What the worker is doing. A file is read first and stored in a later step. -/
inductive WorkerPhase
  | idle
  | popped (job : Job)
  | holding (path : Path) (text : String)
  deriving DecidableEq

structure DiskSync where
  disk : Path → Option String
  /-- What happened on the disk and the debouncer has not delivered yet. -/
  events : List DebouncedEvent := []
  /-- What the watcher has sent and the event loop has not received yet. -/
  channel : List WorkspaceEvent := []
  server : Server
  worker : WorkerPhase := .idle

inductive SyncAction
  | write (path : Path) (text : String)
  | remove (path : Path)
  | rename (source target : Path)
  | deliver
  | handle
  | pop
  | work
  deriving DecidableEq

namespace DiskSync

variable (env : IndexerEnvironment)

/-- A write creates the file or modifies it. -/
def write (s : DiskSync) (path : Path) (text : String) : DiskSync :=
  { s with
    disk := Function.update s.disk path (some text)
    events := s.events ++
      [⟨if (s.disk path).isNone then .create else .modify .data,[path]⟩] }

def remove (s : DiskSync) (path : Path) : DiskSync :=
  { s with
    disk := Function.update s.disk path none
    events := s.events ++ [⟨.remove,[path]⟩] }

/-- A file that was at the target is replaced. -/
def rename (s : DiskSync) (source target : Path) : DiskSync :=
  { s with
    disk := Function.update (Function.update s.disk target (s.disk source)) source none
    events := s.events ++ [⟨.modify .nameBoth,[source,target]⟩] }

def deliver (s : DiskSync) : DiskSync :=
  match s.events with
  | [] => s
  | de::events => { s with events := events, channel := s.channel ++ Watcher.classify de }

/-- The event loop of `spawn_watcher`. -/
def handleEvent (srv : Server) : WorkspaceEvent → Server
  | .fileChanged path => { srv with queue := srv.queue.enqueue (.parseFile path) .normal }
  | .fileRemoved path =>
    match env.fs.fromFilePath path with
    | some url => srv.handleDiskRemoval url
    | none => srv
  | .lockFileChanged dir =>
    Server.maybeEnqueueSchemaFetch env { srv with store := { srv.store with
      fetchedSchemaDirs := srv.store.fetchedSchemaDirs.erase dir } } dir

def handle (s : DiskSync) : DiskSync :=
  match s.channel with
  | [] => s
  | event::channel => { s with channel := channel, server := handleEvent env s.server event }

def pop (s : DiskSync) : DiskSync :=
  match s.worker with
  | .idle =>
    match s.server.queue.tryNext with
    | some (job,queue) =>
      { s with server := { s.server with queue := queue }, worker := .popped job }
    | none => s
  | _ => s

/-- The second step of `parse_file_into_state`. -/
def storeFile (store : StateStore) (path : Path) (text : String) : StateStore :=
  match env.fs.fromFilePath path with
  | some url => (store.upsertDocumentUnlessOpen (.new env.analyzer url text 0)).1
  | none => store

def completed (s : DiskSync) : DiskSync :=
  { s with server := { s.server with queue := s.server.queue.complete }, worker := .idle }

/-- The worker's next step. A fetch of schemas leaves the documents alone, and no other job is
queued by the watcher. -/
def work (s : DiskSync) : DiskSync :=
  match s.worker with
  | .idle => s
  | .popped (.parseFile path) =>
    match s.disk path with
    | some text => { s with worker := .holding path text }
    | none => s.completed
  | .popped _ => s.completed
  | .holding path text =>
    { s with server := { s.server with store := storeFile env s.server.store path text } }.completed

def step (s : DiskSync) : SyncAction → DiskSync
  | .write path text => s.write path text
  | .remove path => s.remove path
  | .rename source target => s.rename source target
  | .deliver => s.deliver
  | .handle => s.handle env
  | .pop => s.pop
  | .work => s.work env

def textAt (store : StateStore) (path : Path) : Option String :=
  (env.fs.fromFilePath path >>= store.documents.lookup).map DocumentState.text

/-- The text the store has for a file. -/
def stored (s : DiskSync) (path : Path) : Option String := textAt env s.server.store path

/-- What is still to be told to the event loop. -/
def pending (s : DiskSync) : List WorkspaceEvent := s.channel ++ s.events.flatMap Watcher.classify

/-- Parsing the file is queued, or the worker is about to read it. -/
def Due (s : DiskSync) (path : Path) : Prop :=
  s.server.queue.Queued (.parseFile path) ∨ s.worker = .popped (.parseFile path)

def Held (s : DiskSync) (path : Path) : Prop := ∃ text, s.worker = .holding path text

/-- Nothing is left to be handled. -/
structure Quiet (s : DiskSync) : Prop where
  events : s.events = []
  channel : s.channel = []
  jobs : ∀ path, ¬s.Due path
  worker : ∀ path, ¬s.Held path

/-- The documents under the root are the files that a scan finds, with their texts. -/
def InSync (root : Path) (s : DiskSync) : Prop := ∀ path, root <+: path.dropLast →
  ∀ text, s.stored env path = some text ↔ Watcher.Discoverable root path ∧ s.disk path = some text

/-- What happens on the disk happens to existing files under the root. -/
def Occurs (root : Path) (s : DiskSync) : SyncAction → Prop
  | .write path _ => root <+: path.dropLast
  | .remove path => root <+: path.dropLast ∧ (s.disk path).isSome
  | .rename source target => root <+: source.dropLast ∧ root <+: target.dropLast ∧
    source ≠ target ∧ (s.disk source).isSome
  | _ => True

/-- A renamed file leaves no document behind when none is stored or about to be, or its removal is
still to be handled. A removal is not handled while the worker holds the text of the file. -/
def Undisturbed (root : Path) (s : DiskSync) : SyncAction → Prop
  | .rename source _ => Watcher.Discoverable root source →
    .fileRemoved source ∈ s.pending ∨ (s.stored env source = none ∧ ¬s.Held source)
  | .handle => ∀ path, s.channel.head? = some (.fileRemoved path) → s.disk path = none →
    .fileRemoved path ∈ s.pending.tail ∨ ¬s.Held path
  | _ => True

/-- The URL of a file: every absolute path has one, and different paths have different ones. -/
structure FileUrls : Prop where
  total : ∀ path, ∃ url, env.fs.fromFilePath path = some url
  injective : ∀ path path' url, env.fs.fromFilePath path = some url →
    env.fs.fromFilePath path' = some url → path = path'

/-- A change of the file is still to be told, and no removal of it after that. -/
def Announced (path : Path) (events : List WorkspaceEvent) : Prop :=
  ∃ pre post, events = pre ++ .fileChanged path :: post ∧ .fileRemoved path ∉ post

open Watcher

/-- What every undisturbed step keeps. -/
structure Converging (root : Path) (s : DiskSync) : Prop where
  closed : s.server.store.openDocs = ∅
  queue : s.server.queue.PendingQueued
  jobs : ∀ path, s.Due path ∨ s.Held path → Watched path
  changed : ∀ path, .fileChanged path ∈ s.channel → Watched path
  unwatched : ∀ path, root <+: path.dropLast → ¬Watched path → s.stored env path = none
  present : ∀ path, root <+: path.dropLast → Watched path → ∀ text, s.disk path = some text →
    Announced path s.pending ∨ (.fileRemoved path ∉ s.pending ∧
      (s.Due path ∨ s.worker = .holding path text ∨
        (s.stored env path = some text ∧ ¬s.Held path)))
  absent : ∀ path, root <+: path.dropLast → Watched path → s.disk path = none →
    .fileRemoved path ∈ s.pending ∨ (s.stored env path = none ∧ ¬s.Held path)

section announced

variable {path : Path} {events more : List WorkspaceEvent}

theorem announced_of_append (h : Announced path more) : Announced path (events ++ more) := by
  obtain ⟨pre,post,rfl,hpost⟩ := h
  exact ⟨events ++ pre,post,by simp,hpost⟩

theorem announced_append (h : Announced path events) (hmore : .fileRemoved path ∉ more) :
    Announced path (events ++ more) := by
  obtain ⟨pre,post,rfl,hpost⟩ := h
  refine ⟨pre,post ++ more,by simp,?_⟩
  rw [List.mem_append]
  rintro (h | h)
  · exact hpost h
  · exact hmore h

theorem announced_cons {event : WorkspaceEvent} (h : Announced path (event :: events)) :
    (event = .fileChanged path ∧ .fileRemoved path ∉ events) ∨ Announced path events := by
  obtain ⟨pre,post,heq,hpost⟩ := h
  cases pre with
  | nil =>
    cases heq
    exact .inl ⟨rfl,hpost⟩
  | cons first pre =>
    cases heq
    exact .inr ⟨pre,post,rfl,hpost⟩

theorem announced_classifyPath {kind : EventKind} (h : Watched path)
    (hkind : changes kind = true) : Announced path (classifyPath kind path) := by
  rw [classifyPath_changes h hkind]
  exact ⟨[],[],rfl,by simp⟩

end announced

section texts

variable {env}

theorem url_eq_iff (hurls : FileUrls env) {path path' : Path} {url url' : Url}
    (hurl : env.fs.fromFilePath path = some url) (hurl' : env.fs.fromFilePath path' = some url') :
    url' = url ↔ path' = path := by
  constructor
  · rintro rfl
    exact hurls.injective path' path url' hurl' hurl
  · rintro rfl
    exact Option.some.inj (hurl'.symm.trans hurl)

theorem textAt_storeFile (hurls : FileUrls env) {store : StateStore} (hclosed : store.openDocs = ∅)
    (path : Path) (text : String) (path' : Path) :
    textAt env (storeFile env store path text) path' =
      if path' = path then some text else textAt env store path' := by
  obtain ⟨url,hurl⟩ := hurls.total path
  obtain ⟨url',hurl'⟩ := hurls.total path'
  have hsame := url_eq_iff hurls hurl hurl'
  have hupsert : storeFile env store path text =
      store.upsertDocument (.new env.analyzer url text 0) := by
    simp [storeFile,hurl,StateStore.upsertDocumentUnlessOpen,StateStore.isOpen,hclosed]
  have huri : (DocumentState.new env.analyzer url text 0).uri = url := rfl
  have htext : (DocumentState.new env.analyzer url text 0).text = text :=
    String.ofList_toList
  rw [textAt,textAt,hurl',hupsert]
  simp only [Option.bind_eq_bind,Option.bind_some,StateStore.upsertDocument_documents,huri,
    KeyedMap.lookup_insert_of]
  by_cases hpath : path' = path
  · rw [if_pos (hsame.mpr hpath),if_pos hpath,Option.map_some,htext]
  · rw [if_neg fun h => hpath (hsame.mp h),if_neg hpath]

theorem textAt_removal (hurls : FileUrls env) {srv : Server} (hclosed : srv.store.openDocs = ∅)
    (path path' : Path) :
    textAt env (handleEvent env srv (.fileRemoved path)).store path' =
      if path' = path then none else textAt env srv.store path' := by
  obtain ⟨url,hurl⟩ := hurls.total path
  obtain ⟨url',hurl'⟩ := hurls.total path'
  have hsame := url_eq_iff hurls hurl hurl'
  have hremove : (handleEvent env srv (.fileRemoved path)).store = (srv.store.removeDocument url).1 := by
    simp [handleEvent,hurl,Server.handleDiskRemoval,StateStore.isOpen,hclosed]
  rw [textAt,textAt,hurl',hremove]
  simp only [Option.bind_eq_bind,Option.bind_some,StateStore.removeDocument_documents,
    KeyedMap.lookup_erase_of]
  by_cases hpath : path' = path
  · rw [if_pos (hsame.mpr hpath),if_pos hpath,Option.map_none]
  · rw [if_neg fun h => hpath (hsame.mp h),if_neg hpath]

end texts

section disk

variable {env} {root : Path} {s : DiskSync}

/-- Something happened on the disk. Of the files it did not report, none has changed. -/
theorem converging_event (hs : Converging env root s) (disk : Path → Option String)
    (de : DebouncedEvent) (hreport : ∀ path, root <+: path.dropLast → Watched path →
      (Announced path (classify de) ∧ (disk path).isSome) ∨
        (disk path = none ∧
          (.fileRemoved path ∈ s.pending ++ classify de ∨
            (s.stored env path = none ∧ ¬s.Held path))) ∨
        (disk path = s.disk path ∧ .fileRemoved path ∉ classify de)) :
    Converging env root { s with disk := disk, events := s.events ++ [de] } := by
  have hpending : ({ s with disk := disk, events := s.events ++ [de] } : DiskSync).pending =
      s.pending ++ classify de := by simp [pending]
  refine ⟨hs.closed,hs.queue,hs.jobs,hs.changed,hs.unwatched,?_,?_⟩
  · intro path hpath hwatched text htext
    rw [hpending]
    rcases hreport path hpath hwatched with ⟨hann,-⟩ | ⟨hnone,-⟩ | ⟨hsame,hremoved⟩
    · exact .inl (announced_of_append hann)
    · cases hnone.symm.trans htext
    · rcases hs.present path hpath hwatched text (hsame.symm.trans htext) with hann | ⟨hnot,hdone⟩
      · exact .inl (announced_append hann hremoved)
      · refine .inr ⟨?_,hdone⟩
        rw [List.mem_append]
        rintro (h | h)
        · exact hnot h
        · exact hremoved h
  · intro path hpath hwatched hnone
    rw [hpending]
    rcases hreport path hpath hwatched with ⟨-,hsome⟩ | ⟨-,hgone⟩ | ⟨hsame,-⟩
    · have hnone : disk path = none := hnone
      rw [hnone] at hsome
      cases hsome
    · exact hgone
    · exact (hs.absent path hpath hwatched (hsame.symm.trans hnone)).imp_left
        (List.mem_append_left _)

theorem classify_single (kind : EventKind) (path : Path) :
    classify ⟨kind,[path]⟩ = classifyPath kind path := by simp [classify]

theorem converging_write (hs : Converging env root s) (path : Path) (text : String) :
    Converging env root (s.write path text) := by
  apply converging_event hs
  intro path' hpath hwatched
  rw [classify_single]
  have hkind : changes (if (s.disk path).isNone then .create else .modify .data) = true := by
    split_ifs <;> rfl
  by_cases hsame : path' = path
  · left
    rw [hsame] at hwatched ⊢
    exact ⟨announced_classifyPath hwatched hkind,by simp⟩
  · right; right
    refine ⟨Function.update_of_ne hsame _ _,fun hremoved => ?_⟩
    exact hsame (watched_of_removed hremoved).1

theorem converging_remove (hs : Converging env root s) (path : Path) :
    Converging env root (s.remove path) := by
  apply converging_event hs
  intro path' hpath hwatched
  rw [classify_single]
  by_cases hsame : path' = path
  · right; left
    rw [hsame] at hwatched ⊢
    refine ⟨Function.update_self _ _ _,.inl (List.mem_append_right _ ?_)⟩
    rw [classifyPath_remove hwatched]
    exact List.mem_singleton_self _
  · right; right
    refine ⟨Function.update_of_ne hsame _ _,fun hremoved => ?_⟩
    exact hsame (watched_of_removed hremoved).1

theorem converging_rename (hs : Converging env root s) {source target : Path}
    (hne : source ≠ target) (hfile : (s.disk source).isSome)
    (hundisturbed : Watched source →
      .fileRemoved source ∈ s.pending ∨ (s.stored env source = none ∧ ¬s.Held source)) :
    Converging env root (s.rename source target) := by
  have hclassify : classify ⟨.modify .nameBoth,[source,target]⟩ =
      classifyPath (.modify .nameBoth) source ++ classifyPath (.modify .nameBoth) target := by
    simp [classify]
  have hnot : ∀ path, .fileRemoved path ∉ classify ⟨.modify .nameBoth,[source,target]⟩ := by
    intro path hremoved
    rw [hclassify] at hremoved
    rcases List.mem_append.mp hremoved with hremoved | hremoved
    · cases (watched_of_removed hremoved).2
    · cases (watched_of_removed hremoved).2
  apply converging_event hs
  intro path hpath hwatched
  by_cases hsource : path = source
  · right; left
    rw [hsource] at hwatched ⊢
    refine ⟨Function.update_self _ _ _,?_⟩
    exact (hundisturbed hwatched).imp_left (List.mem_append_left _)
  · by_cases htarget : path = target
    · left
      rw [htarget] at hwatched ⊢
      rw [hclassify]
      refine ⟨announced_of_append (announced_classifyPath hwatched rfl),?_⟩
      rw [Function.update_of_ne hne.symm,Function.update_self]
      exact hfile
    · right; right
      refine ⟨?_,hnot path⟩
      rw [Function.update_of_ne hsource,Function.update_of_ne htarget]

end disk

section handling

variable {env} {root : Path} {s : DiskSync}

theorem converging_deliver (hs : Converging env root s) : Converging env root s.deliver := by
  cases hevents : s.events with
  | nil =>
    have hsame : s.deliver = s := by simp [deliver,hevents]
    rw [hsame]
    exact hs
  | cons de events =>
    have hdeliver : s.deliver =
        { s with events := events, channel := s.channel ++ classify de } := by
      simp [deliver,hevents]
    have hpending : s.deliver.pending = s.pending := by simp [hdeliver,pending,hevents]
    refine ⟨?_,?_,?_,?_,?_,?_,?_⟩
    · simpa [hdeliver] using hs.closed
    · simpa [hdeliver] using hs.queue
    · simpa [hdeliver,Due,Held] using hs.jobs
    · intro path hpath
      simp only [hdeliver,List.mem_append] at hpath
      rcases hpath with hpath | hpath
      · exact hs.changed path hpath
      · obtain ⟨path',-,hpath'⟩ := List.mem_flatMap.mp hpath
        obtain ⟨rfl,-,hwatched⟩ := watched_of_changed hpath'
        exact hwatched
    · simpa [hdeliver,stored] using hs.unwatched
    · rw [hpending]
      simpa [hdeliver,Due,stored,Held] using hs.present
    · rw [hpending]
      simpa [hdeliver,stored,Held] using hs.absent

variable (env) in
/-- The next event of the channel is told to the event loop. -/
theorem handle_cons {event : WorkspaceEvent} {channel : List WorkspaceEvent}
    (hchannel : s.channel = event :: channel) : s.handle env =
      { s with channel := channel, server := handleEvent env s.server event } := by
  simp [handle,hchannel]

variable (env) in
theorem pending_cons {event : WorkspaceEvent} {channel : List WorkspaceEvent}
    (hchannel : s.channel = event :: channel) :
    s.pending = event :: (s.handle env).pending := by
  rw [handle_cons env hchannel]
  simp [pending,hchannel]

theorem converging_changed (hs : Converging env root s) {path : Path}
    {channel : List WorkspaceEvent} (hchannel : s.channel = .fileChanged path :: channel) :
    Converging env root (s.handle env) := by
  have hpending := pending_cons env hchannel
  have hhandle := handle_cons env hchannel
  have hqueued := JobQueue.queued_enqueue hs.queue (.parseFile path)
  have hdue : ∀ path', (s.handle env).Due path' ↔ path' = path ∨ s.Due path' := by
    intro path'
    simp only [Due,hhandle,handleEvent,hqueued,Job.parseFile.injEq]
    tauto
  have hheld : ∀ path', (s.handle env).Held path' ↔ s.Held path' := by
    intro path'
    simp [Held,hhandle]
  have hstored : ∀ path', (s.handle env).stored env path' = s.stored env path' := by
    intro path'
    simp [stored,hhandle,handleEvent]
  refine ⟨?_,?_,?_,?_,?_,?_,?_⟩
  · simpa [hhandle,handleEvent] using hs.closed
  · rw [hhandle]
    exact JobQueue.pendingQueued_enqueue hs.queue _ _
  · intro path' hjob
    rw [hdue,hheld] at hjob
    rcases hjob with (rfl | hjob) | hjob
    · exact hs.changed path' (by rw [hchannel]; exact List.mem_cons_self)
    · exact hs.jobs path' (.inl hjob)
    · exact hs.jobs path' (.inr hjob)
  · intro path' hpath'
    apply hs.changed path'
    rw [hchannel]
    rw [hhandle] at hpath'
    exact List.mem_cons_of_mem _ hpath'
  · intro path' hpath' hwatched
    rw [hstored]
    exact hs.unwatched path' hpath' hwatched
  · intro path' hpath' hwatched text htext
    have hdisk : s.disk path' = some text := by simpa [hhandle] using htext
    have hworker : (s.handle env).worker = s.worker := by simp [hhandle]
    rw [hdue,hheld,hstored,hworker]
    rcases hs.present path' hpath' hwatched text hdisk with hann | ⟨hnot,hdone⟩
    · rw [hpending] at hann
      rcases announced_cons hann with ⟨heq,hnot⟩ | hann
      · cases heq
        exact .inr ⟨hnot,.inl (.inl rfl)⟩
      · exact .inl hann
    · rw [hpending] at hnot
      exact .inr ⟨fun h => hnot (List.mem_cons_of_mem _ h),hdone.imp_left .inr⟩
  · intro path' hpath' hwatched hnone
    have hdisk : s.disk path' = none := by simpa [hhandle] using hnone
    rw [hstored,hheld]
    refine (hs.absent path' hpath' hwatched hdisk).imp_left fun h => ?_
    rw [hpending] at h
    rcases List.mem_cons.mp h with h | h
    · cases h
    · exact h

theorem converging_removed (hurls : FileUrls env) (hs : Converging env root s) {path : Path}
    {channel : List WorkspaceEvent} (hchannel : s.channel = .fileRemoved path :: channel)
    (hundisturbed : s.disk path = none →
      .fileRemoved path ∈ s.pending.tail ∨ ¬s.Held path) :
    Converging env root (s.handle env) := by
  have hpending := pending_cons env hchannel
  have hhandle := handle_cons env hchannel
  have hqueue : (s.handle env).server.queue = s.server.queue := by
    obtain ⟨url,hurl⟩ := hurls.total path
    simp only [hhandle,handleEvent,hurl,Server.handleDiskRemoval]
    split_ifs <;> rfl
  have hopen : (s.handle env).server.store.openDocs = s.server.store.openDocs := by
    obtain ⟨url,hurl⟩ := hurls.total path
    simp only [hhandle,handleEvent,hurl,Server.handleDiskRemoval]
    split_ifs <;> simp
  have hdue : ∀ path', (s.handle env).Due path' ↔ s.Due path' := by
    intro path'
    simp only [Due,hqueue]
    simp [hhandle]
  have hheld : ∀ path', (s.handle env).Held path' ↔ s.Held path' := by
    intro path'
    simp [Held,hhandle]
  have hstored : ∀ path', (s.handle env).stored env path' =
      if path' = path then none else s.stored env path' := by
    intro path'
    simp only [stored,hhandle]
    exact textAt_removal hurls hs.closed path path'
  refine ⟨?_,?_,?_,?_,?_,?_,?_⟩
  · rw [hopen]
    exact hs.closed
  · rw [hqueue]
    exact hs.queue
  · intro path' hjob
    rw [hdue,hheld] at hjob
    exact hs.jobs path' hjob
  · intro path' hpath'
    apply hs.changed path'
    rw [hchannel]
    rw [hhandle] at hpath'
    exact List.mem_cons_of_mem _ hpath'
  · intro path' hpath' hwatched
    rw [hstored,hs.unwatched path' hpath' hwatched,ite_self]
  · intro path' hpath' hwatched text htext
    have hdisk : s.disk path' = some text := by simpa [hhandle] using htext
    have hworker : (s.handle env).worker = s.worker := by simp [hhandle]
    rw [hdue,hheld,hstored,hworker]
    rcases hs.present path' hpath' hwatched text hdisk with hann | ⟨hnot,hdone⟩
    · rw [hpending] at hann
      rcases announced_cons hann with ⟨heq,-⟩ | hann
      · cases heq
      · exact .inl hann
    · rw [hpending] at hnot
      have hne : path' ≠ path := by
        rintro rfl
        exact hnot List.mem_cons_self
      rw [if_neg hne]
      exact .inr ⟨fun h => hnot (List.mem_cons_of_mem _ h),hdone⟩
  · intro path' hpath' hwatched hnone
    have hdisk : s.disk path' = none := by simpa [hhandle] using hnone
    rw [hstored,hheld]
    by_cases hsame : path' = path
    · rw [if_pos hsame]
      rw [hsame] at hdisk ⊢
      rw [hpending,List.tail_cons] at hundisturbed
      exact (hundisturbed hdisk).imp_right fun h => ⟨rfl,h⟩
    · rw [if_neg hsame]
      refine (hs.absent path' hpath' hwatched hdisk).imp_left fun h => ?_
      rw [hpending] at h
      rcases List.mem_cons.mp h with h | h
      · cases h
        exact absurd rfl hsame
      · exact h

end handling

section worker

variable {env} {root : Path} {s : DiskSync}

variable (env) in
/-- A lock file only changes what is known of providers, and may queue a fetch of schemas. -/
theorem handle_lock (srv : Server) (hqueue : srv.queue.PendingQueued) (dir : Path) :
    (handleEvent env srv (.lockFileChanged dir)).store.documents = srv.store.documents ∧
      (handleEvent env srv (.lockFileChanged dir)).store.openDocs = srv.store.openDocs ∧
      (handleEvent env srv (.lockFileChanged dir)).queue.PendingQueued ∧
      ∀ path, (handleEvent env srv (.lockFileChanged dir)).queue.Queued (.parseFile path) ↔
        srv.queue.Queued (.parseFile path) := by
  simp only [handleEvent,Server.maybeEnqueueSchemaFetch]
  cases env.fs.metadata (dir ++ [".terraform","providers"]) with
  | none => exact ⟨rfl,rfl,hqueue,fun _ => Iff.rfl⟩
  | some found =>
    simp only
    split_ifs
    · exact ⟨rfl,rfl,hqueue,fun _ => Iff.rfl⟩
    · refine ⟨rfl,rfl,JobQueue.pendingQueued_enqueue hqueue _ _,fun path => ?_⟩
      simp [JobQueue.queued_enqueue hqueue]

theorem converging_lock (hs : Converging env root s) {dir : Path} {channel : List WorkspaceEvent}
    (hchannel : s.channel = .lockFileChanged dir :: channel) :
    Converging env root (s.handle env) := by
  have hpending := pending_cons env hchannel
  have hhandle := handle_cons env hchannel
  obtain ⟨hdocuments,hopen,hqueue,hqueued⟩ := handle_lock env s.server hs.queue dir
  have hdue : ∀ path', (s.handle env).Due path' ↔ s.Due path' := by
    intro path'
    simp [Due,hhandle,hqueued]
  have hheld : ∀ path', (s.handle env).Held path' ↔ s.Held path' := by
    intro path'
    simp [Held,hhandle]
  have hstored : ∀ path', (s.handle env).stored env path' = s.stored env path' := by
    intro path'
    simp [stored,textAt,hhandle,hdocuments]
  have hremoved : ∀ path', .fileRemoved path' ∈ (s.handle env).pending ↔
      .fileRemoved path' ∈ s.pending := by
    intro path'
    rw [hpending,List.mem_cons]
    simp
  refine ⟨?_,?_,?_,?_,?_,?_,?_⟩
  · simpa [hhandle,hopen] using hs.closed
  · simpa [hhandle] using hqueue
  · intro path' hjob
    rw [hdue,hheld] at hjob
    exact hs.jobs path' hjob
  · intro path' hpath'
    apply hs.changed path'
    rw [hchannel]
    rw [hhandle] at hpath'
    exact List.mem_cons_of_mem _ hpath'
  · intro path' hpath' hwatched
    rw [hstored]
    exact hs.unwatched path' hpath' hwatched
  · intro path' hpath' hwatched text htext
    have hdisk : s.disk path' = some text := by simpa [hhandle] using htext
    have hworker : (s.handle env).worker = s.worker := by simp [hhandle]
    rw [hdue,hheld,hstored,hworker,hremoved]
    refine (hs.present path' hpath' hwatched text hdisk).imp_left fun hann => ?_
    rw [hpending] at hann
    rcases announced_cons hann with ⟨heq,-⟩ | hann
    · cases heq
    · exact hann
  · intro path' hpath' hwatched hnone
    have hdisk : s.disk path' = none := by simpa [hhandle] using hnone
    rw [hstored,hheld,hremoved]
    exact hs.absent path' hpath' hwatched hdisk

theorem converging_handle (hurls : FileUrls env) (hs : Converging env root s)
    (hundisturbed : ∀ path, s.channel.head? = some (.fileRemoved path) → s.disk path = none →
      .fileRemoved path ∈ s.pending.tail ∨ ¬s.Held path) : Converging env root (s.handle env) := by
  cases hchannel : s.channel with
  | nil =>
    have hsame : s.handle env = s := by simp [handle,hchannel]
    rw [hsame]
    exact hs
  | cons event channel =>
    cases event with
    | fileChanged path => exact converging_changed hs hchannel
    | fileRemoved path =>
      exact converging_removed hurls hs hchannel (hundisturbed path (by rw [hchannel]; rfl))
    | lockFileChanged dir => exact converging_lock hs hchannel

def withWorker (s : DiskSync) (queue : JobQueue) (worker : WorkerPhase) : DiskSync :=
  { s with server := { s.server with queue := queue }, worker := worker }

/-- A step of the worker that stores nothing and drops no job for a file that exists. -/
theorem converging_worker (hs : Converging env root s) {queue : JobQueue} {worker : WorkerPhase}
    (hqueue : queue.PendingQueued)
    (hnext : ∀ path, (s.withWorker queue worker).Due path → s.Due path)
    (hhold : ∀ path text, worker = .holding path text →
      s.disk path = some text ∧ (s.Due path ∨ s.Held path))
    (hkeep : ∀ path text, s.disk path = some text → s.Due path ∨ s.worker = .holding path text →
      (s.withWorker queue worker).Due path ∨ worker = .holding path text) :
    Converging env root (s.withWorker queue worker) := by
  refine ⟨hs.closed,hqueue,?_,hs.changed,hs.unwatched,?_,?_⟩
  · rintro path (hdue | ⟨text,hheld⟩)
    · exact hs.jobs path (.inl (hnext path hdue))
    · exact hs.jobs path (hhold path text hheld).2
  · intro path hpath hwatched text htext
    refine (hs.present path hpath hwatched text htext).imp_right fun ⟨hnot,hdone⟩ => ⟨hnot,?_⟩
    rcases hdone with hdue | hheld | ⟨hstored,hnone⟩
    · exact (hkeep path text htext (.inl hdue)).imp_right .inl
    · exact (hkeep path text htext (.inr hheld)).imp_right .inl
    · by_cases hheld : ∃ text', worker = .holding path text'
      · obtain ⟨text',hheld⟩ := hheld
        have hdisk := (hhold path text' hheld).1
        cases hdisk.symm.trans htext
        exact .inr (.inl hheld)
      · exact .inr (.inr ⟨hstored,hheld⟩)
  · intro path hpath hwatched hnone
    refine (hs.absent path hpath hwatched hnone).imp_right fun ⟨hstored,hnone'⟩ => ⟨hstored,?_⟩
    rintro ⟨text,hheld⟩
    have hdisk := (hhold path text hheld).1
    cases hdisk.symm.trans hnone

theorem converging_pop (hs : Converging env root s) : Converging env root s.pop := by
  cases hworker : s.worker with
  | idle =>
    cases hnext : s.server.queue.tryNext with
    | none =>
      have hsame : s.pop = s := by simp [pop,hworker,hnext]
      rw [hsame]
      exact hs
    | some popped =>
      obtain ⟨job,queue⟩ := popped
      have hpop : s.pop = s.withWorker queue (.popped job) := by
        simp [pop,hworker,hnext,withWorker]
      have hqueued := JobQueue.queued_of_tryNext hnext
      rw [hpop]
      apply converging_worker hs (JobQueue.pendingQueued_tryNext hs.queue hnext)
      · intro path hdue
        left
        rw [hqueued]
        rcases hdue with hdue | hdue
        · exact .inr hdue
        · cases hdue
          exact .inl rfl
      · intro path text hheld
        cases hheld
      · rintro path text - (hdue | hheld)
        · left
          rcases hdue with hdue | hdue
          · rw [hqueued] at hdue
            rcases hdue with rfl | hdue
            · exact .inr rfl
            · exact .inl hdue
          · rw [hworker] at hdue
            cases hdue
        · rw [hworker] at hheld
          cases hheld
  | popped job =>
    have hsame : s.pop = s := by simp [pop,hworker]
    rw [hsame]
    exact hs
  | holding path text =>
    have hsame : s.pop = s := by simp [pop,hworker]
    rw [hsame]
    exact hs

/-- The file is read, if it is still there. -/
theorem converging_read (hs : Converging env root s) {path : Path}
    (hworker : s.worker = .popped (.parseFile path)) : Converging env root (s.work env) := by
  have hdue : s.Due path := .inr hworker
  cases hdisk : s.disk path with
  | some text =>
    have hwork : s.work env = s.withWorker s.server.queue (.holding path text) := by
      simp [work,hworker,hdisk,withWorker]
    rw [hwork]
    apply converging_worker hs hs.queue
    · intro path' hnext
      rcases hnext with hnext | hnext
      · exact .inl hnext
      · cases hnext
    · intro path' text' hheld
      cases hheld
      exact ⟨hdisk,.inl hdue⟩
    · rintro path' text' hdisk' (hnext | hheld)
      · rcases hnext with hnext | hnext
        · exact .inl (.inl hnext)
        · rw [hworker] at hnext
          cases hnext
          cases hdisk.symm.trans hdisk'
          exact .inr rfl
      · rw [hworker] at hheld
        cases hheld
  | none =>
    have hwork : s.work env = s.withWorker s.server.queue.complete .idle := by
      simp [work,hworker,hdisk,withWorker,completed]
    have hqueue : s.server.queue.complete.PendingQueued := hs.queue
    rw [hwork]
    apply converging_worker hs hqueue
    · intro path' hnext
      rcases hnext with hnext | hnext
      · exact .inl hnext
      · cases hnext
    · intro path' text' hheld
      cases hheld
    · rintro path' text' hdisk' (hnext | hheld)
      · rcases hnext with hnext | hnext
        · exact .inl (.inl hnext)
        · rw [hworker] at hnext
          cases hnext
          cases hdisk.symm.trans hdisk'
      · rw [hworker] at hheld
        cases hheld

/-- A job that is not about a file. -/
theorem converging_other (hs : Converging env root s) {job : Job}
    (hworker : s.worker = .popped job) (hjob : ∀ path, job ≠ .parseFile path) :
    Converging env root (s.work env) := by
  have hwork : s.work env = s.withWorker s.server.queue.complete .idle := by
    cases job with
    | parseFile path => exact absurd rfl (hjob path)
    | _ => simp [work,hworker,withWorker,completed]
  have hqueue : s.server.queue.complete.PendingQueued := hs.queue
  rw [hwork]
  apply converging_worker hs hqueue
  · intro path hnext
    rcases hnext with hnext | hnext
    · exact .inl hnext
    · cases hnext
  · intro path text hheld
    cases hheld
  · rintro path text - (hnext | hheld)
    · rcases hnext with hnext | hnext
      · exact .inl (.inl hnext)
      · rw [hworker] at hnext
        cases hnext
        exact absurd rfl (hjob path)
    · rw [hworker] at hheld
      cases hheld

/-- The text that was read is stored. -/
theorem converging_store (hurls : FileUrls env) (hs : Converging env root s) {path : Path}
    {text : String} (hworker : s.worker = .holding path text) :
    Converging env root (s.work env) := by
  have hwork : s.work env = ({ s with server :=
      { s.server with store := storeFile env s.server.store path text } } : DiskSync).completed := by
    simp [work,hworker]
  have hopen : (s.work env).server.store.openDocs = ∅ := by
    obtain ⟨url,hurl⟩ := hurls.total path
    rw [hwork]
    simp [completed,storeFile,hurl,StateStore.upsertDocumentUnlessOpen,StateStore.isOpen,hs.closed]
  have hdue : ∀ path', (s.work env).Due path' ↔ s.Due path' := by
    intro path'
    simp [Due,hwork,completed,hworker]
  have hheld : ∀ path', ¬(s.work env).Held path' := by
    rintro path' ⟨text',hheld⟩
    rw [hwork] at hheld
    cases hheld
  have hstored : ∀ path', (s.work env).stored env path' =
      if path' = path then some text else s.stored env path' := by
    intro path'
    rw [hwork]
    exact textAt_storeFile hurls hs.closed path text path'
  have hpending : (s.work env).pending = s.pending := by
    rw [hwork]
    rfl
  have hdisk : (s.work env).disk = s.disk := by
    rw [hwork]
    rfl
  have hholds : s.Held path := ⟨text,hworker⟩
  refine ⟨hopen,?_,?_,?_,?_,?_,?_⟩
  · rw [hwork]
    exact hs.queue
  · rintro path' (hjob | hjob)
    · exact hs.jobs path' (.inl ((hdue path').mp hjob))
    · exact absurd hjob (hheld path')
  · rw [hwork]
    exact hs.changed
  · intro path' hpath' hwatched
    have hne : path' ≠ path := by
      rintro rfl
      exact hwatched (hs.jobs path' (.inr hholds))
    rw [hstored,if_neg hne]
    exact hs.unwatched path' hpath' hwatched
  · intro path' hpath' hwatched text' htext
    rw [hdisk] at htext
    rw [hdue,hstored,hpending]
    refine (hs.present path' hpath' hwatched text' htext).imp_right ?_
    rintro ⟨hnot,hdone⟩
    refine ⟨hnot,?_⟩
    rcases hdone with hnext | hnext | ⟨htext',hnone⟩
    · exact .inl hnext
    · rw [hworker] at hnext
      cases hnext
      exact .inr (.inr ⟨if_pos rfl,hheld _⟩)
    · have hne : path' ≠ path := by
        rintro rfl
        exact hnone hholds
      rw [if_neg hne]
      exact .inr (.inr ⟨htext',hheld path'⟩)
  · intro path' hpath' hwatched hnone
    rw [hdisk] at hnone
    rw [hstored,hpending]
    refine (hs.absent path' hpath' hwatched hnone).imp_right ?_
    rintro ⟨hgone,hnot⟩
    have hne : path' ≠ path := by
      rintro rfl
      exact hnot hholds
    rw [if_neg hne]
    exact ⟨hgone,hheld path'⟩

theorem converging_work (hurls : FileUrls env) (hs : Converging env root s) :
    Converging env root (s.work env) := by
  cases hworker : s.worker with
  | idle =>
    have hsame : s.work env = s := by simp [work,hworker]
    rw [hsame]
    exact hs
  | popped job =>
    by_cases hjob : ∃ path, job = .parseFile path
    · obtain ⟨path,rfl⟩ := hjob
      exact converging_read hs hworker
    · exact converging_other hs hworker fun path h => hjob ⟨path,h⟩
  | holding path text => exact converging_store hurls hs hworker

end worker

section runs

variable {env} {root : Path}

theorem converging_step (hurls : FileUrls env) (hroot : ∀ dir ∈ root, isIgnoredDir dir = false)
    (s : DiskSync) (action : SyncAction) (hs : Converging env root s)
    (hok : s.Occurs root action ∧ s.Undisturbed env root action) :
    Converging env root (s.step env action) := by
  obtain ⟨hoccurs,hundisturbed⟩ := hok
  cases action with
  | write path text => exact converging_write hs path text
  | remove path => exact converging_remove hs path
  | rename source target =>
    obtain ⟨hsource,-,hne,hfile⟩ := hoccurs
    exact converging_rename hs hne hfile fun hwatched =>
      hundisturbed ((watched_iff hroot hsource).mp hwatched)
  | deliver => exact converging_deliver hs
  | handle => exact converging_handle hurls hs hundisturbed
  | pop => exact converging_pop hs
  | work => exact converging_work hurls hs

theorem converging_start (hroot : ∀ dir ∈ root, isIgnoredDir dir = false) {s : DiskSync}
    (hopen : s.server.store.openDocs = ∅) (hqueue : s.server.queue = {}) (hquiet : s.Quiet)
    (hsync : s.InSync env root) : Converging env root s := by
  have hpending : s.pending = [] := by simp [pending,hquiet.events,hquiet.channel]
  refine ⟨hopen,?_,?_,?_,?_,?_,?_⟩
  · rw [hqueue]
    exact JobQueue.pendingQueued_empty
  · rintro path (hdue | hheld)
    · exact absurd hdue (hquiet.jobs path)
    · exact absurd hheld (hquiet.worker path)
  · simp [hquiet.channel]
  · intro path hpath hwatched
    rw [watched_iff hroot hpath] at hwatched
    cases hstored : s.stored env path with
    | none => rfl
    | some text => exact absurd ((hsync path hpath text).mp hstored).1 hwatched
  · intro path hpath hwatched text htext
    right
    rw [hpending]
    refine ⟨by simp,.inr (.inr ⟨?_,hquiet.worker path⟩)⟩
    exact (hsync path hpath text).mpr ⟨(watched_iff hroot hpath).mp hwatched,htext⟩
  · intro path hpath hwatched hnone
    right
    refine ⟨?_,hquiet.worker path⟩
    cases hstored : s.stored env path with
    | none => rfl
    | some text =>
      have hdisk := ((hsync path hpath text).mp hstored).2
      cases hdisk.symm.trans hnone

/-- When all is handled, the store is what the disk is. -/
theorem inSync_of_converging (hroot : ∀ dir ∈ root, isIgnoredDir dir = false) {s : DiskSync}
    (hs : Converging env root s) (hquiet : s.Quiet) : s.InSync env root := by
  have hpending : s.pending = [] := by simp [pending,hquiet.events,hquiet.channel]
  have hnone : ∀ path, ¬Announced path s.pending := by
    rintro path ⟨pre,post,heq,-⟩
    rw [hpending] at heq
    simp at heq
  intro path hpath text
  by_cases hwatched : Watched path
  · have hfound := (watched_iff hroot hpath).mp hwatched
    cases hdisk : s.disk path with
    | none =>
      rcases hs.absent path hpath hwatched hdisk with hremoved | ⟨hstored,-⟩
      · rw [hpending] at hremoved
        cases hremoved
      · simp [hstored]
    | some text' =>
      rcases hs.present path hpath hwatched text' hdisk with hann | ⟨-,hdue | hheld | ⟨hstored,-⟩⟩
      · exact absurd hann (hnone path)
      · exact absurd hdue (hquiet.jobs path)
      · exact absurd ⟨text',hheld⟩ (hquiet.worker path)
      · simp [hstored,hfound]
  · have hfound : ¬Discoverable root path := fun h => hwatched ((watched_iff hroot hpath).mpr h)
    simp [hs.unwatched path hpath hwatched,hfound]

/-- In an undisturbed run below a root that is not ignored, the store converges to the disk. -/
theorem store_converges (hurls : FileUrls env) (hroot : ∀ dir ∈ root, isIgnoredDir dir = false)
    {s : DiskSync} (hopen : s.server.store.openDocs = ∅) (hqueue : s.server.queue = {})
    (hstart : s.Quiet) (hsync : s.InSync env root) {actions : List SyncAction}
    (hactions : Guarded (step env)
      (fun s action => s.Occurs root action ∧ s.Undisturbed env root action) s actions)
    (hquiet : (run (step env) s actions).Quiet) : (run (step env) s actions).InSync env root := by
  have hs := converging_start hroot hopen hqueue hstart hsync
  have hend := (throughout_of_guarded (converging_step hurls hroot) hs hactions).final
  exact inSync_of_converging hroot hend hquiet

end runs

section fileUrls

/-- A character of a file's name as a URL has it. -/
def escapeChar (c : Char) : List Char :=
  if c = '/' then ['%', '2', 'F'] else if c = '%' then ['%', '2', '5'] else [c]

def urlChars (path : Path) : List Char :=
  path.flatMap fun name => '/' :: name.toList.flatMap escapeChar

def fileUrl (path : Path) : Url := "file://" ++ String.ofList (urlChars path)

theorem slash_notMem_escape (name : List Char) : '/' ∉ name.flatMap escapeChar := by
  rw [List.mem_flatMap]
  rintro ⟨c,-,hc⟩
  unfold escapeChar at hc
  split_ifs at hc with hslash hpercent
  · revert hc
    decide
  · revert hc
    decide
  · exact hslash (List.mem_singleton.mp hc).symm

theorem escapeChar_cancel {c d : Char} {a b : List Char}
    (h : escapeChar c ++ a = escapeChar d ++ b) : c = d ∧ a = b := by
  simp only [escapeChar] at h
  split_ifs at h <;> grind

theorem escapeChar_ne_nil (c : Char) : escapeChar c ≠ [] := by
  simp only [escapeChar]
  split_ifs <;> simp

theorem escape_injective {a b : List Char} (h : a.flatMap escapeChar = b.flatMap escapeChar) :
    a = b := by
  induction a generalizing b with
  | nil =>
    cases b with
    | nil => rfl
    | cons d b => simp [escapeChar_ne_nil d] at h
  | cons c a ih =>
    cases b with
    | nil => simp [escapeChar_ne_nil c] at h
    | cons d b =>
      simp only [List.flatMap_cons] at h
      obtain ⟨hfirst,hrest⟩ := escapeChar_cancel h
      rw [hfirst,ih hrest]

/-- A name ends where the next slash is. -/
theorem urlChars_injective {path path' : Path} (h : urlChars path = urlChars path') :
    path = path' := by
  have hstop : ∀ path : Path, (urlChars path).takeWhile (· != '/') = [] := by
    intro path
    cases path <;> simp [urlChars]
  have hname : ∀ (name : String) (path : Path),
      (name.toList.flatMap escapeChar ++ urlChars path).takeWhile (· != '/') =
        name.toList.flatMap escapeChar := by
    intro name path
    have hall : ∀ c ∈ name.toList.flatMap escapeChar, (c != '/') = true := by
      intro c hc
      simp only [bne_iff_ne]
      rintro rfl
      exact slash_notMem_escape _ hc
    rw [List.takeWhile_append_of_pos hall,hstop,List.append_nil]
  induction path generalizing path' with
  | nil =>
    cases path' with
    | nil => rfl
    | cons name path' => simp [urlChars] at h
  | cons name path ih =>
    cases path' with
    | nil => simp [urlChars] at h
    | cons name' path' =>
      have htail : name.toList.flatMap escapeChar ++ urlChars path =
          name'.toList.flatMap escapeChar ++ urlChars path' := by
        simpa [urlChars] using h
      have hescaped : name.toList.flatMap escapeChar = name'.toList.flatMap escapeChar := by
        rw [← hname name path,htail,hname name' path']
      rw [hescaped] at htail
      have hsame := String.toList_inj.mp (escape_injective hescaped)
      rw [hsame,ih (List.append_cancel_left htail)]

end fileUrls

def diskEnvironment : IndexerEnvironment :=
  { jsonEnvironment with fs := { jsonFiles with fromFilePath := fun path => some (fileUrl path) } }

theorem diskEnvironment_fileUrls : FileUrls diskEnvironment := by
  refine ⟨fun path => ⟨fileUrl path,rfl⟩,?_⟩
  intro path path' url h h'
  have heq : fileUrl path = fileUrl path' := (Option.some.inj h).trans (Option.some.inj h').symm
  have hchars : "file://".toList ++ urlChars path = "file://".toList ++ urlChars path' := by
    simpa [fileUrl] using congrArg String.toList heq
  exact urlChars_injective (List.append_cancel_left hchars)

/-- An empty disk and a server that knows nothing. -/
def emptySync : DiskSync := { disk := fun _ => none, server := {} }

theorem emptySync_inSync (env : IndexerEnvironment) (root : Path) : emptySync.InSync env root := by
  intro path hpath text
  have hstored : emptySync.stored env path = none := by
    rw [stored,textAt]
    cases env.fs.fromFilePath path <;> rfl
  rw [hstored]
  simp [emptySync]

theorem quiet_of_empty {s : DiskSync} (hevents : s.events = []) (hchannel : s.channel = [])
    (hheap : s.server.queue.heap = []) (hworker : s.worker = .idle) : s.Quiet := by
  refine ⟨hevents,hchannel,?_,?_⟩
  · rintro path (hqueued | hpopped)
    · simp [JobQueue.Queued,hheap] at hqueued
    · cases hworker.symm.trans hpopped
  · rintro path ⟨text,hheld⟩
    cases hworker.symm.trans hheld

theorem emptySync_quiet : emptySync.Quiet := quiet_of_empty rfl rfl rfl rfl

/-- A file is created and parsed. -/
def createdActions : List SyncAction :=
  [.write ["w","a.tf"] "",.deliver,.handle,.pop,.work,.work]

theorem created_inSync :
    (run (step diskEnvironment) emptySync createdActions).InSync diskEnvironment ["w"] := by
  have hunder : ["w"] <+: ["w","a.tf"].dropLast := by decide
  apply store_converges diskEnvironment_fileUrls (by decide) rfl rfl emptySync_quiet
    (emptySync_inSync _ _)
  · refine ⟨⟨hunder,trivial⟩,⟨trivial,trivial⟩,⟨trivial,?_⟩,⟨trivial,trivial⟩,⟨trivial,trivial⟩,
      ⟨trivial,trivial⟩,trivial⟩
    intro path hremoved
    have hchanged : some (WorkspaceEvent.fileChanged ["w","a.tf"]) =
        some (.fileRemoved path) := hremoved
    cases hchanged
  · exact quiet_of_empty rfl rfl (by decide +kernel) rfl

/-- The file is then renamed, and all is handled. -/
def renamedActions : List SyncAction :=
  createdActions ++ [.rename ["w","a.tf"] ["w","b.tf"],.deliver,.handle,.handle,.pop,.work,.pop,
    .work,.work]

/-- The document of a file that was renamed away stays. -/
theorem renamed_not_inSync :
    ¬ ∀ (env : IndexerEnvironment) (root : Path) (s : DiskSync) (actions : List SyncAction),
      FileUrls env → s.server.store.openDocs = ∅ → s.server.queue = {} → s.Quiet →
        s.InSync env root → Guarded (step env) (fun s action => s.Occurs root action) s actions →
          (run (step env) s actions).Quiet → (run (step env) s actions).InSync env root := by
  intro h
  have hunder : ["w"] <+: ["w","a.tf"].dropLast := by decide
  have hoccurs : Guarded (step diskEnvironment) (fun s action => s.Occurs ["w"] action) emptySync
      renamedActions := by
    refine ⟨hunder,trivial,trivial,trivial,trivial,trivial,⟨hunder,hunder,by decide,?_⟩,trivial,
      trivial,trivial,trivial,trivial,trivial,trivial,trivial,trivial⟩
    decide +kernel
  have hquiet : (run (step diskEnvironment) emptySync renamedActions).Quiet := by
    apply quiet_of_empty <;> decide +kernel
  have hsync := h diskEnvironment ["w"] emptySync renamedActions diskEnvironment_fileUrls rfl rfl
    emptySync_quiet (emptySync_inSync _ _) hoccurs hquiet
  have hstored : (run (step diskEnvironment) emptySync renamedActions).stored diskEnvironment
      ["w","a.tf"] = some "" := by decide +kernel
  have hgone : (run (step diskEnvironment) emptySync renamedActions).disk ["w","a.tf"] = none := by
    decide +kernel
  have hdisk := ((hsync ["w","a.tf"] hunder "").mp hstored).2
  cases hgone.symm.trans hdisk

end DiskSync
end TerraformLs
