import TerraformLs.KeyedMap
import TerraformLs.PathTrees
import TerraformLs.Runs
import TerraformLs.Watcher

/-! The poller of lock files: a thread that goes over the tree again and again and reports
the directories whose lock file is not as it was the time before. -/
namespace TerraformLs

namespace LockPoller

open PathTrees Watcher

section scans

/-- An entry of a listing, links not followed. What cannot be asked of it is `none`. -/
structure LockEntry where
  name : String
  isDir : Option Bool
  modified : Option ℕ

/-- What the poller may read: finitely many directories, some of them unreadable. -/
structure Disk (root : Path) where
  dirs : Finset Path
  readDir : Path → Option (List LockEntry)
  root_mem : root ∈ dirs
  names_nodup : ∀ dir entries, readDir dir = some entries → (entries.map LockEntry.name).Nodup
  child_mem : ∀ dir ∈ dirs, ∀ entries, readDir dir = some entries → ∀ e ∈ entries,
    e.isDir = some true → dir ++ [e.name] ∈ dirs

variable {root : Path}

def descends (e : LockEntry) : Bool := e.isDir = some true && !isIgnoredDir e.name

def isLock (dir : Path) (e : LockEntry) : Bool := e.isDir = some false && isLockfile (dir ++ [e.name])

/-- The lock files of a listing go into the table, the last one on top. -/
def fileLocks (dir : Path) (entries : List LockEntry) (out : KeyedMap Path ℕ) : KeyedMap Path ℕ :=
  entries.foldl (fun out e =>
    if isLock dir e then
      match e.modified with
      | some mtime => out.insert (dir ++ [e.name]) mtime
      | none => out
    else out) out

def subdirs (dir : Path) (entries : List LockEntry) : List Path :=
  children dir ((entries.filter descends).map LockEntry.name).reverse

/-- The walk, one directory of the stack a round. Without enough fuel it has not ended. -/
def scanLoop (disk : Disk root) : ℕ → List Path → KeyedMap Path ℕ → Option (KeyedMap Path ℕ)
  | _,[],out => some out
  | 0,_::_,_ => none
  | fuel+1,dir::stack,out =>
    match disk.readDir dir with
    | none => scanLoop disk fuel stack out
    | some entries => scanLoop disk fuel (subdirs dir entries ++ stack) (fileLocks dir entries out)

/-- A walk reads each directory once, so that as many rounds are enough. -/
def scanLockFiles (disk : Disk root) : KeyedMap Path ℕ :=
  (scanLoop disk disk.dirs.card [root] ∅).getD ∅

/-- The directories that the walk goes down to. -/
inductive Reaches (disk : Disk root) : Path → Path → Prop
  | here (dir : Path) : Reaches disk dir dir
  | down {dir sub : Path} {entries : List LockEntry} {e : LockEntry}
      (hread : disk.readDir dir = some entries) (he : e ∈ entries) (hdown : descends e = true)
      (h : Reaches disk (dir ++ [e.name]) sub) : Reaches disk dir sub

/-- The lock file of a directory has a time of modification. -/
def LockAt (disk : Disk root) (dir : Path) (mtime : ℕ) : Prop :=
  ∃ entries, disk.readDir dir = some entries ∧ ∃ e ∈ entries, e.name = ".terraform.lock.hcl" ∧
    e.isDir = some false ∧ e.modified = some mtime

def lockPath (dir : Path) : Path := dir ++ [".terraform.lock.hcl"]

variable {disk : Disk root}

theorem isLock_iff {dir : Path} {e : LockEntry} :
    isLock dir e = true ↔ e.isDir = some false ∧ e.name = ".terraform.lock.hcl" := by
  simp [isLock,isLockfile]

theorem lockAt_unique {dir : Path} {mtime mtime' : ℕ} (h : LockAt disk dir mtime)
    (h' : LockAt disk dir mtime') : mtime = mtime' := by
  obtain ⟨entries,hread,e,he,hname,-,hmtime⟩ := h
  obtain ⟨entries',hread',e',he',hname',-,hmtime'⟩ := h'
  cases hread.symm.trans hread'
  cases List.inj_on_of_nodup_map (disk.names_nodup dir entries hread) he he' (hname.trans hname'.symm)
  exact Option.some.inj (hmtime.symm.trans hmtime')

/-- Only the lock file of a listing may be new in a table, and nothing is missing. -/
structure Files (dir : Path) (entries : List LockEntry) (out out' : KeyedMap Path ℕ) : Prop where
  sound : ∀ path mtime, out'.lookup path = some mtime → out.lookup path = some mtime ∨
    (path = lockPath dir ∧ ∃ e ∈ entries, e.name = ".terraform.lock.hcl" ∧ e.isDir = some false ∧
      e.modified = some mtime)
  kept : ∀ path ∈ out, path ∈ out'
  filed : ∀ e ∈ entries, isLock dir e = true → e.modified ≠ none → lockPath dir ∈ out'

section entries

variable {dir : Path} {e : LockEntry} {entries : List LockEntry} {out out' : KeyedMap Path ℕ}

theorem Files.skip (h : Files dir entries out out') (hno : isLock dir e = true → e.modified = none) :
    Files dir (e :: entries) out out' where
  sound path mtime hlookup := (h.sound path mtime hlookup).imp_right fun ⟨hpath,e',he',hrest⟩ =>
    ⟨hpath,e',List.mem_cons_of_mem e he',hrest⟩
  kept := h.kept
  filed e' he' hlock hmtime := by
    rcases List.mem_cons.mp he' with rfl | he'
    · exact absurd (hno hlock) hmtime
    · exact h.filed e' he' hlock hmtime

theorem Files.file {mtime : ℕ} (h : Files dir entries (out.insert (lockPath dir) mtime) out')
    (hlock : isLock dir e = true) (hmtime : e.modified = some mtime) :
    Files dir (e :: entries) out out' where
  sound path t hlookup := by
    rcases h.sound path t hlookup with hlookup | ⟨hpath,e',he',hrest⟩
    · rw [KeyedMap.lookup_insert_of] at hlookup
      split at hlookup
      · rename_i hpath
        cases hlookup
        obtain ⟨hfile,hname⟩ := isLock_iff.mp hlock
        exact .inr ⟨hpath,e,List.mem_cons_self,hname,hfile,hmtime⟩
      · exact .inl hlookup
    · exact .inr ⟨hpath,e',List.mem_cons_of_mem e he',hrest⟩
  kept path hp := h.kept path ((AList.mem_insert out).mpr (.inr hp))
  filed _ _ _ _ := h.kept _ ((AList.mem_insert out).mpr (.inl rfl))

theorem fileLocks_files (dir : Path) (entries : List LockEntry) (out : KeyedMap Path ℕ) :
    Files dir entries out (fileLocks dir entries out) := by
  induction entries generalizing out with
  | nil => exact ⟨fun _ _ h => .inl h,fun _ h => h,fun _ h => absurd h List.not_mem_nil⟩
  | cons e entries ih =>
    cases hlock : isLock dir e with
    | false =>
      have hstep : fileLocks dir (e :: entries) out = fileLocks dir entries out := by
        simp [fileLocks,hlock]
      rw [hstep]
      exact (ih out).skip fun h => absurd (hlock.symm.trans h) (by decide)
    | true =>
      cases hmtime : e.modified with
      | none =>
        have hstep : fileLocks dir (e :: entries) out = fileLocks dir entries out := by
          simp [fileLocks,hlock,hmtime]
        rw [hstep]
        exact (ih out).skip fun _ => hmtime
      | some mtime =>
        have hstep : fileLocks dir (e :: entries) out =
            fileLocks dir entries (out.insert (lockPath dir) mtime) := by
          simp [fileLocks,hlock,hmtime,lockPath,(isLock_iff.mp hlock).2]
        rw [hstep]
        exact (ih _).file hlock hmtime

end entries

section walks

variable {dir : Path} {stack : List Path} {entries : List LockEntry}

/-- Directories of the disk that are apart are still to be read. -/
structure Ahead (disk : Disk root) (stack : List Path) : Prop where
  mem : ∀ dir ∈ stack, dir ∈ disk.dirs
  apart : stack.Pairwise Apart

theorem mem_subdirs {sub : Path} :
    sub ∈ subdirs dir entries ↔ ∃ e ∈ entries, descends e = true ∧ dir ++ [e.name] = sub := by
  simp [subdirs,and_assoc]

theorem Ahead.pop (h : Ahead disk (dir :: stack)) : Ahead disk stack where
  mem d hd := h.mem d (List.mem_cons_of_mem dir hd)
  apart := (List.pairwise_cons.mp h.apart).2

theorem Ahead.push (h : Ahead disk (dir :: stack)) (hread : disk.readDir dir = some entries) :
    Ahead disk (subdirs dir entries ++ stack) where
  mem d hd := by
    rcases List.mem_append.mp hd with hd | hd
    · obtain ⟨e,he,hdown,rfl⟩ := mem_subdirs.mp hd
      rw [descends,Bool.and_eq_true,decide_eq_true_eq] at hdown
      exact disk.child_mem dir (h.mem dir List.mem_cons_self) entries hread e he hdown.1
    · exact h.pop.mem d hd
  apart := by
    refine apart_push (List.nodup_reverse.mpr ?_) h.apart
    exact (disk.names_nodup dir entries hread).sublist (List.filter_sublist.map _)

theorem reaches_iff {sub : Path} : Reaches disk dir sub ↔ sub = dir ∨
    ∃ entries, disk.readDir dir = some entries ∧ ∃ d ∈ subdirs dir entries, Reaches disk d sub := by
  constructor
  · rintro (_ | ⟨hread,he,hdown,h⟩)
    · exact .inl rfl
    · exact .inr ⟨_,hread,_,mem_subdirs.mpr ⟨_,he,hdown,rfl⟩,h⟩
  · rintro (rfl | ⟨entries,hread,d,hd,h⟩)
    · exact .here sub
    · obtain ⟨e,he,hdown,rfl⟩ := mem_subdirs.mp hd
      exact .down hread he hdown h

/-- The walk has put in all the lock files it comes to, and only those. -/
structure Scanned (disk : Disk root) (stack : List Path) (out out' : KeyedMap Path ℕ) : Prop where
  sound : ∀ path mtime, out'.lookup path = some mtime → out.lookup path = some mtime ∨
    ∃ top ∈ stack, ∃ dir, Reaches disk top dir ∧ path = lockPath dir ∧ LockAt disk dir mtime
  kept : ∀ path ∈ out, path ∈ out'
  filed : ∀ top ∈ stack, ∀ dir, Reaches disk top dir → ∀ mtime, LockAt disk dir mtime →
    lockPath dir ∈ out'

theorem Scanned.skip {out out' : KeyedMap Path ℕ} (h : Scanned disk stack out out')
    (hread : disk.readDir dir = none) : Scanned disk (dir :: stack) out out' where
  sound path mtime hlookup := (h.sound path mtime hlookup).imp_right fun ⟨top,htop,hrest⟩ =>
    ⟨top,List.mem_cons_of_mem dir htop,hrest⟩
  kept := h.kept
  filed top htop sub hsub mtime hlock := by
    rcases List.mem_cons.mp htop with rfl | htop
    · obtain rfl | ⟨entries,hread',-⟩ := reaches_iff.mp hsub
      · obtain ⟨entries,hread',-⟩ := hlock
        exact nomatch hread.symm.trans hread'
      · exact nomatch hread.symm.trans hread'
    · exact h.filed top htop sub hsub mtime hlock

theorem Scanned.read {out mid out' : KeyedMap Path ℕ}
    (h : Scanned disk (subdirs dir entries ++ stack) mid out')
    (hread : disk.readDir dir = some entries) (hfiles : Files dir entries out mid) :
    Scanned disk (dir :: stack) out out' where
  sound path mtime hlookup := by
    rcases h.sound path mtime hlookup with hlookup | ⟨top,htop,sub,hsub,hrest⟩
    · refine (hfiles.sound path mtime hlookup).imp_right fun ⟨hpath,hlock⟩ => ?_
      exact ⟨dir,List.mem_cons_self,dir,.here dir,hpath,entries,hread,hlock⟩
    · rcases List.mem_append.mp htop with htop | htop
      · have hdown : Reaches disk dir sub := reaches_iff.mpr (.inr ⟨entries,hread,top,htop,hsub⟩)
        exact .inr ⟨dir,List.mem_cons_self,sub,hdown,hrest⟩
      · exact .inr ⟨top,List.mem_cons_of_mem dir htop,sub,hsub,hrest⟩
  kept path hp := h.kept path (hfiles.kept path hp)
  filed top htop sub hsub mtime hlock := by
    rcases List.mem_cons.mp htop with rfl | htop
    · obtain rfl | ⟨entries',hread',d,hd,hsub⟩ := reaches_iff.mp hsub
      · obtain ⟨entries',hread',e,he,hname,hfile,hmtime⟩ := hlock
        cases hread.symm.trans hread'
        refine h.kept _ (hfiles.filed e he (isLock_iff.mpr ⟨hfile,hname⟩) ?_)
        rw [hmtime]
        exact Option.some_ne_none mtime
      · cases hread.symm.trans hread'
        exact h.filed d (List.mem_append_left stack hd) sub hsub mtime hlock
    · exact h.filed top (List.mem_append_right _ htop) sub hsub mtime hlock

theorem Scanned.done (out : KeyedMap Path ℕ) : Scanned disk [] out out :=
  ⟨fun _ _ h => .inl h,fun _ h => h,fun _ h => absurd h List.not_mem_nil⟩

theorem scanLoop_scanned {fuel : ℕ} (h : Ahead disk stack)
    (hfuel : (pending disk.dirs stack).card ≤ fuel) (out : KeyedMap Path ℕ) :
    ∃ out', scanLoop disk fuel stack out = some out' ∧ Scanned disk stack out out' := by
  induction fuel generalizing stack out with
  | zero =>
    cases stack with
    | nil => exact ⟨out,by rw [scanLoop],.done out⟩
    | cons dir stack =>
      have hdir : dir ∈ pending disk.dirs (dir :: stack) :=
        mem_pending.mpr ⟨h.mem dir List.mem_cons_self,dir,List.mem_cons_self,List.prefix_rfl⟩
      have hpos := Finset.card_pos.mpr ⟨dir,hdir⟩
      omega
  | succ fuel ih =>
    cases stack with
    | nil => exact ⟨out,by rw [scanLoop],.done out⟩
    | cons dir stack =>
      have hmem := h.mem dir List.mem_cons_self
      rw [scanLoop]
      cases hread : disk.readDir dir with
      | none =>
        have hlt := card_pending_push_lt [] hmem h.apart
        obtain ⟨out',hrun,hscan⟩ := ih h.pop (Nat.le_of_lt_succ (hlt.trans_le hfuel)) out
        exact ⟨out',hrun,hscan.skip hread⟩
      | some entries =>
        have hlt := card_pending_push_lt ((entries.filter descends).map LockEntry.name).reverse hmem
          h.apart
        obtain ⟨out',hrun,hscan⟩ := ih (h.push hread) (Nat.le_of_lt_succ (hlt.trans_le hfuel))
          (fileLocks dir entries out)
        exact ⟨out',hrun,hscan.read hread (fileLocks_files dir entries out)⟩

end walks

theorem lockPath_injective : Function.Injective lockPath := fun _ _ h => List.append_cancel_right h

theorem lookup_scanLockFiles {dir : Path} {mtime : ℕ} :
    (scanLockFiles disk).lookup (lockPath dir) = some mtime ↔
      Reaches disk root dir ∧ LockAt disk dir mtime := by
  have h : Ahead disk [root] := ⟨by simp [disk.root_mem],List.pairwise_singleton _ _⟩
  obtain ⟨out,hrun,hscan⟩ := scanLoop_scanned h (card_pending_le disk.dirs [root]) ∅
  rw [scanLockFiles,hrun,Option.getD_some]
  have hsound : ∀ t, out.lookup (lockPath dir) = some t →
      Reaches disk root dir ∧ LockAt disk dir t := by
    intro t ht
    obtain hempty | ⟨top,htop,sub,hsub,hpath,hlock⟩ := hscan.sound (lockPath dir) t ht
    · cases hempty
    · cases List.mem_singleton.mp htop
      cases lockPath_injective hpath
      exact ⟨hsub,hlock⟩
  refine ⟨hsound mtime,fun ⟨hreach,hlock⟩ => ?_⟩
  have hin := hscan.filed root List.mem_cons_self dir hreach mtime hlock
  obtain ⟨t,ht⟩ := Option.isSome_iff_exists.mp (AList.lookup_isSome.mpr hin)
  rw [ht,lockAt_unique (hsound t ht).2 hlock]

theorem keys_scanLockFiles {path : Path} (h : path ∈ scanLockFiles disk) :
    ∃ dir, lockPath dir = path := by
  have hahead : Ahead disk [root] := ⟨by simp [disk.root_mem],List.pairwise_singleton _ _⟩
  obtain ⟨out,hrun,hscan⟩ := scanLoop_scanned hahead (card_pending_le disk.dirs [root]) ∅
  rw [scanLockFiles,hrun,Option.getD_some] at h
  obtain ⟨t,ht⟩ := Option.isSome_iff_exists.mp (AList.lookup_isSome.mpr h)
  obtain hempty | ⟨-,-,dir,-,hpath,-⟩ := hscan.sound path t ht
  · cases hempty
  · exact ⟨dir,hpath.symm⟩

end scans

section polling

variable {root : Path}

structure Poller where
  seen : KeyedMap Path ℕ
  /-- What has been put into the channel, the newest last. -/
  sent : List WorkspaceEvent

def lockEvent (path : Path) : Option WorkspaceEvent := (Path.parent path).map .lockFileChanged

/-- The tree as it is at the start is not reported. -/
def prime (disk : Disk root) : Poller := ⟨scanLockFiles disk,[]⟩

/-- A round of the thread. -/
def poll (p : Poller) (disk : Disk root) : Poller :=
  let current := scanLockFiles disk
  ⟨current,p.sent ++ (p.seen.changed current).filterMap lockEvent⟩

open Classical in
/-- When the lock file of a directory was modified, where the walk comes to it. -/
noncomputable def lockState (disk : Disk root) (dir : Path) : Option ℕ :=
  if h : ∃ mtime, Reaches disk root dir ∧ LockAt disk dir mtime then some h.choose else none

theorem lockState_eq (disk : Disk root) (dir : Path) :
    (scanLockFiles disk).lookup (lockPath dir) = lockState disk dir := by
  rw [lockState]
  split
  · rename_i h
    exact lookup_scanLockFiles.mpr h.choose_spec
  · rename_i h
    refine Option.eq_none_iff_forall_ne_some.mpr fun mtime hmtime => ?_
    exact h ⟨mtime,lookup_scanLockFiles.mp hmtime⟩

theorem lockEvent_lockPath (dir : Path) : lockEvent (lockPath dir) = some (.lockFileChanged dir) := by
  simp [lockEvent,lockPath]

/-- How often a thing is not as it was before. -/
def changes {α β : Type} [DecidableEq β] (f : α → β) : α → List α → ℕ
  | _,[] => 0
  | a,b::bs => (if f a = f b then 0 else 1) + changes f b bs

/-- A round reports the directories whose lock files are not as they were, each once. -/
theorem count_round (before after : Disk root) (dir : Path) :
    (((scanLockFiles before).changed (scanLockFiles after)).filterMap lockEvent).count
      (.lockFileChanged dir) = if lockState before dir = lockState after dir then 0 else 1 := by
  obtain ⟨dirs,hdirs⟩ : (scanLockFiles before).changed (scanLockFiles after) ∈
      Set.range (List.map lockPath) := by
    rw [Set.range_list_map]
    intro path hpath
    by_cases hin : path ∈ scanLockFiles before
    · exact keys_scanLockFiles hin
    · have hafter : path ∈ scanLockFiles after := by
        by_contra hout
        refine KeyedMap.mem_changed.mp hpath ?_
        rw [AList.lookup_eq_none.mpr hin,AList.lookup_eq_none.mpr hout]
      exact keys_scanLockFiles hafter
  have hevents : (dirs.map lockPath).filterMap lockEvent = dirs.map WorkspaceEvent.lockFileChanged := by
    simp [List.filterMap_map,lockEvent_lockPath]
  have hnodup : dirs.Nodup := List.Nodup.of_map lockPath (hdirs ▸ KeyedMap.nodup_changed)
  have hmem : dir ∈ dirs ↔ lockState before dir ≠ lockState after dir := by
    rw [← lockState_eq,← lockState_eq,← KeyedMap.mem_changed,← hdirs,
      List.mem_map_of_injective lockPath_injective]
  have hinj : Function.Injective WorkspaceEvent.lockFileChanged :=
    fun _ _ h => WorkspaceEvent.lockFileChanged.inj h
  rw [← hdirs,hevents,List.count_map_of_injective _ _ hinj]
  split
  · rename_i h
    exact List.count_eq_zero_of_not_mem fun hin => hmem.mp hin h
  · rename_i h
    exact List.count_eq_one_of_mem hnodup (hmem.mpr h)

theorem events_round {before after : Disk root} {event : WorkspaceEvent}
    (h : event ∈ ((scanLockFiles before).changed (scanLockFiles after)).filterMap lockEvent) :
    ∃ dir, event = .lockFileChanged dir := by
  obtain ⟨path,-,hpath⟩ := List.mem_filterMap.mp h
  obtain ⟨dir,-,rfl⟩ := Option.map_eq_some_iff.mp hpath
  exact ⟨dir,rfl⟩

theorem polls_from (before : Disk root) (disks : List (Disk root)) (sent : List WorkspaceEvent) :
    ∃ events, (run poll ⟨scanLockFiles before,sent⟩ disks).sent = sent ++ events ∧
      (∀ dir, events.count (.lockFileChanged dir) =
        changes (fun disk => lockState disk dir) before disks) ∧
      ∀ event ∈ events, ∃ dir, event = .lockFileChanged dir := by
  induction disks generalizing before sent with
  | nil => exact ⟨[],(List.append_nil sent).symm,fun _ => rfl,fun _ h => absurd h List.not_mem_nil⟩
  | cons after disks ih =>
    obtain ⟨events,hsent,hcount,honly⟩ := ih after
      (sent ++ ((scanLockFiles before).changed (scanLockFiles after)).filterMap lockEvent)
    refine ⟨_ ++ events,hsent.trans (List.append_assoc _ _ _),fun dir => ?_,fun event hevent => ?_⟩
    · rw [List.count_append,count_round,hcount,changes]
    · exact (List.mem_append.mp hevent).elim events_round (honly event)

/-- However the tree changes under the poller, each change of a directory's lock file from one
round to the next is reported once, and nothing else is. -/
theorem polls_report_changes (start : Disk root) (disks : List (Disk root)) :
    (∀ dir, (run poll (prime start) disks).sent.count (.lockFileChanged dir) =
      changes (fun disk => lockState disk dir) start disks) ∧
    ∀ event ∈ (run poll (prime start) disks).sent, ∃ dir, event = .lockFileChanged dir := by
  obtain ⟨events,hsent,hcount,honly⟩ := polls_from start disks []
  rw [List.nil_append] at hsent
  rw [prime,hsent]
  exact ⟨hcount,honly⟩

end polling
end LockPoller
end TerraformLs
