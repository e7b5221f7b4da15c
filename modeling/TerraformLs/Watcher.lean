import TerraformLs.FileSystem

/-! The file watcher: which workspace events a file system event is classified as. -/
namespace TerraformLs

inductive ModifyKind
  | data
  /-- A rename. Its paths are the old one and the new one. -/
  | nameBoth
  | other
  deriving DecidableEq

inductive EventKind
  | any | access | create | remove | other
  | modify (kind : ModifyKind)
  deriving DecidableEq

structure DebouncedEvent where
  kind : EventKind
  paths : List Path

inductive WorkspaceEvent
  | fileChanged (path : Path)
  | fileRemoved (path : Path)
  | lockFileChanged (dir : Path)
  deriving DecidableEq

namespace Watcher

/-- Every directory above the file counts, those above the watched root too. -/
def shouldIgnore (path : Path) : Bool := path.any isIgnoredDir

def isLockfile (path : Path) : Bool := path.getLast? = some ".terraform.lock.hcl"

def isTerraformPath (path : Path) : Bool := path.getLast?.any isTerraformFile

def changes : EventKind → Bool
  | .create | .modify _ => true
  | _ => false

def classifyPath (kind : EventKind) (path : Path) : List WorkspaceEvent :=
  if shouldIgnore path then []
  else if isLockfile path then
    match Path.parent path with
    | some parent => if changes kind || kind = .remove then [.lockFileChanged parent] else []
    | none => []
  else if !isTerraformPath path then []
  else if changes kind then [.fileChanged path]
  else if kind = .remove then [.fileRemoved path]
  else []

def classify (de : DebouncedEvent) : List WorkspaceEvent := de.paths.flatMap (classifyPath de.kind)

/-- The files that the watcher reports. -/
def Watched (path : Path) : Prop := shouldIgnore path = false ∧ isTerraformPath path = true

/-- The files that a scan of the root finds, when they exist. -/
def Discoverable (root path : Path) : Prop :=
  ∃ dirs name, path = root ++ dirs ++ [name] ∧ (∀ dir ∈ dirs, isIgnoredDir dir = false) ∧
    isTerraformFile name = true

theorem not_lockfile_of_terraform {path : Path} (h : isTerraformPath path = true) :
    isLockfile path = false := by
  cases hlast : path.getLast? with
  | none => simp [isLockfile,hlast]
  | some name =>
    simp only [isTerraformPath,hlast,Option.any_some] at h
    simp only [isLockfile,hlast,Option.some.injEq,decide_eq_false_iff_not]
    rintro rfl
    revert h
    decide

theorem classifyPath_changes {kind : EventKind} {path : Path} (h : Watched path)
    (hkind : changes kind = true) : classifyPath kind path = [.fileChanged path] := by
  simp [classifyPath,h.1,h.2,not_lockfile_of_terraform h.2,hkind]

theorem classifyPath_remove {path : Path} (h : Watched path) :
    classifyPath .remove path = [.fileRemoved path] := by
  simp [classifyPath,h.1,h.2,not_lockfile_of_terraform h.2,changes]

/-- An event about a file itself is reported only of watched files. -/
theorem classifyPath_cases {kind : EventKind} {path : Path} {event : WorkspaceEvent}
    (h : event ∈ classifyPath kind path) : (∃ dir, event = .lockFileChanged dir) ∨
      (Watched path ∧ ((event = .fileChanged path ∧ changes kind = true) ∨
        (event = .fileRemoved path ∧ kind = .remove))) := by
  rw [classifyPath] at h
  by_cases hignore : shouldIgnore path = true
  · simp [hignore] at h
  rw [if_neg hignore] at h
  by_cases hlock : isLockfile path = true
  · rw [if_pos hlock] at h
    left
    cases hparent : Path.parent path with
    | none => simp [hparent] at h
    | some parent =>
      simp only [hparent] at h
      split_ifs at h
      · exact ⟨parent,List.mem_singleton.mp h⟩
      · cases h
  rw [if_neg hlock] at h
  by_cases hterraform : isTerraformPath path = true
  · right
    refine ⟨⟨by simpa using hignore,hterraform⟩,?_⟩
    rw [hterraform] at h
    by_cases hchanges : changes kind = true
    · left
      simp only [hchanges,Bool.not_true,Bool.false_eq_true,if_false,if_true,
        List.mem_singleton] at h
      exact ⟨h,hchanges⟩
    · by_cases hremove : kind = .remove
      · right
        simp only [hchanges,Bool.not_true,Bool.false_eq_true,if_false] at h
        rw [if_pos hremove] at h
        exact ⟨List.mem_singleton.mp h,hremove⟩
      · simp [hchanges,hremove] at h
  · simp [hterraform] at h

theorem watched_of_changed {kind : EventKind} {path path' : Path}
    (h : .fileChanged path' ∈ classifyPath kind path) :
    path' = path ∧ changes kind = true ∧ Watched path := by
  rcases classifyPath_cases h with ⟨dir,hdir⟩ | ⟨hw,⟨heq,hkind⟩ | ⟨heq,-⟩⟩
  · cases hdir
  · cases heq
    exact ⟨rfl,hkind,hw⟩
  · cases heq

theorem watched_of_removed {kind : EventKind} {path path' : Path}
    (h : .fileRemoved path' ∈ classifyPath kind path) : path' = path ∧ kind = .remove := by
  rcases classifyPath_cases h with ⟨dir,hdir⟩ | ⟨-,⟨heq,-⟩ | ⟨heq,hkind⟩⟩
  · cases hdir
  · cases heq
  · cases heq
    exact ⟨rfl,hkind⟩

/-- Below a root that no ignored directory contains, the watcher reports what a scan finds. -/
theorem watched_iff {root path : Path} (hroot : ∀ dir ∈ root, isIgnoredDir dir = false)
    (hunder : root <+: path.dropLast) : Watched path ↔ Discoverable root path := by
  obtain ⟨dirs,hdirs⟩ := hunder
  constructor
  · rintro ⟨hignore,hterraform⟩
    cases hlast : path.getLast? with
    | none => simp [isTerraformPath,hlast] at hterraform
    | some name =>
      have hpath : path = root ++ dirs ++ [name] := by
        rw [hdirs]
        exact (List.dropLast_append_getLast? name hlast).symm
      refine ⟨dirs,name,hpath,fun dir hdir => ?_,by simpa [isTerraformPath,hlast] using hterraform⟩
      have hall := List.any_eq_false.mp hignore dir (by rw [hpath]; simp [hdir])
      simpa using hall
  · rintro ⟨below,name,rfl,hbelow,hname⟩
    refine ⟨List.any_eq_false.mpr fun dir hdir => ?_,by simpa [isTerraformPath] using hname⟩
    simp only [List.mem_append,List.mem_singleton] at hdir
    rcases hdir with (hdir | hdir) | rfl
    · simpa using hroot dir hdir
    · simpa using hbelow dir hdir
    · intro hignored
      have hnone : ∀ name ∈ ignoredDirs, isTerraformFile name = false := by decide
      have hmem : dir ∈ ignoredDirs := by simpa [isIgnoredDir] using hignored
      rw [hnone dir hmem] at hname
      cases hname

end Watcher
end TerraformLs
