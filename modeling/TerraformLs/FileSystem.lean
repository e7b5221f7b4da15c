import Mathlib.Data.List.Sort
import Mathlib.Data.String.Basic
import TerraformLs.Symbols

/-! The file system as the server reads it: directory listings, paths and the
discovery of configuration files, in one directory or in a whole tree. -/
namespace TerraformLs

/-- An entry of a directory, symbolic links followed. -/
structure DirEntry where
  name : String
  isDir : Bool
  isFile : Bool
  deriving DecidableEq

/-- What can be asked of the disk. A listing or a file that cannot be read is `none`. -/
structure FileSystem where
  canonicalize : Path → Option Path
  readDir : Path → Option (List DirEntry)
  readToString : Path → Option String
  /-- The modification time in nanoseconds, and the length. -/
  metadata : Path → Option (ℕ × ℕ)
  isDir : Path → Bool
  isFile : Path → Bool
  toFilePath : Url → Option Path
  fromFilePath : Path → Option Url

namespace Path

def parent (path : Path) : Option Path := if path = [] then none else some path.dropLast

def components (s : String) : Path :=
  ((s.toList.splitOn '/').filter fun c => c ≠ [] && c ≠ ['.']).map String.ofList

/-- An absolute path replaces the one it is joined to. -/
def join (dir : Path) (s : String) : Path :=
  if s.toList.head? = some '/' then components s else dir ++ components s

/-- The path and those above it, up to the root. -/
def ancestors (path : Path) : List Path := path.inits.reverse

def sort (paths : List Path) : List Path := paths.insertionSort (· ≤ ·)

@[simp] theorem mem_sort {path : Path} {paths : List Path} : path ∈ sort paths ↔ path ∈ paths :=
  List.mem_insertionSort _

@[simp] theorem parent_concat (dir : Path) (name : String) : parent (dir ++ [name]) = some dir := by
  simp [parent]

end Path

def ignoredDirs : List String :=
  [".git",".terraform",".terragrunt-cache",".direnv","node_modules","target"]

def isIgnoredDir (name : String) : Bool := name ∈ ignoredDirs

def isTerraformFile (name : String) : Bool :=
  [".tf",".tf.json",".tofu",".tofu.json",".tftest.hcl",".tftest.json",".tofutest.hcl",
    ".tofutest.json"].any fun suffix => suffix.toList.isSuffixOf name.toList

namespace FileSystem

variable (fs : FileSystem)

def dirPathsMatch (a b : Path) : Bool :=
  a = b ||
    match fs.canonicalize a,fs.canonicalize b with
    | some ca,some cb => ca = cb
    | _,_ => false

/-- The module a document belongs to: the directory of its file. -/
def parentDir (uri : Url) : Option Path := fs.toFilePath uri >>= Path.parent

/-- Links are followed: a document may be indexed under another path of the
same directory. -/
def inDir (uri : Url) (dir : Path) : Bool :=
  match fs.parentDir uri with
  | some parent => fs.dirPathsMatch parent dir
  | none => false

def locationInDir (loc : SymbolLocation) (dir : Path) : Bool := fs.inDir loc.uri dir

/-- The canonical path, when it is that of a directory. -/
def canonicalDir (path : Path) : Option Path := (fs.canonicalize path).filter fs.isDir

/-- Where the nearest module manifest at or above the path puts `label`. The
search ends there, also when the manifest cannot be used. -/
def manifestDir (parseManifest : String → Option (List (String × String))) (label : String) :
    List Path → Option Path
  | [] => none
  | dir::dirs =>
    let manifest := dir ++ [".terraform","modules","modules.json"]
    if fs.isFile manifest then
      match (fs.readToString manifest).bind parseManifest with
      | some entries => entries.findSome? fun e =>
          if e.1 = label then fs.canonicalDir (Path.join dir e.2) else none
      | none => none
    else manifestDir parseManifest label dirs

/-- A source is a local directory, or what the manifest of `init` installed. -/
def resolveModuleSource (parseManifest : String → Option (List (String × String)))
    (parentDir : Path) (label source : String) : Option Path :=
  (fs.canonicalDir (Path.join parentDir source)).or
    (fs.manifestDir parseManifest label (Path.ancestors parentDir))

/-- The configuration files of a listing of `dir`. -/
def terraformFiles (dir : Path) (entries : List DirEntry) : List Path :=
  (entries.filter fun e => e.isFile && isTerraformFile e.name).map fun e => dir ++ [e.name]

def subdirs (dir : Path) (entries : List DirEntry) : List Path :=
  (entries.filter fun e => e.isDir && !isIgnoredDir e.name).map fun e => dir ++ [e.name]

def discoverTerraformFilesInDir (dir : Path) : Option (List Path) :=
  (fs.readDir dir).map fun entries => Path.sort (terraformFiles dir entries)

/-- The walk over a tree. The stack holds the directories still to be read, and
a directory whose canonical path has been seen is skipped. The fuel bounds the
number of rounds; without enough of it the walk has not ended. -/
def discoverLoop : ℕ → List Path → List Path → List Path → Option (Except Path (List Path))
  | 0, _, _, _ => none
  | _+1, [], _, out => some (.ok (Path.sort out))
  | fuel+1, dir::stack, visited, out =>
    let canon := (fs.canonicalize dir).getD dir
    if canon ∈ visited then discoverLoop fuel stack visited out else
      match fs.readDir dir with
      | none => some (.error dir)
      | some entries =>
        discoverLoop fuel ((subdirs dir entries).reverse ++ stack) (canon :: visited)
          (out ++ terraformFiles dir entries)

def discoverTerraformFiles (fuel : ℕ) (root : Path) : Option (Except Path (List Path)) :=
  discoverLoop fs fuel [root] [] []

variable {fs}

theorem mem_discoverTerraformFilesInDir {dir : Path} {entries : List DirEntry} (path : Path)
    (h : fs.readDir dir = some entries) :
    (∃ files, fs.discoverTerraformFilesInDir dir = some files ∧ path ∈ files) ↔
      path ∈ terraformFiles dir entries := by
  simp [discoverTerraformFilesInDir,h]

theorem parent_of_mem_terraformFiles {dir path : Path} {entries : List DirEntry}
    (h : path ∈ terraformFiles dir entries) : Path.parent path = some dir := by
  obtain ⟨e,-,rfl⟩ := List.mem_map.mp h
  simp

/-- Every file found lies under the root, and the files next to it are found with it. -/
structure Complete (fs : FileSystem) (root : Path) (files : List Path) : Prop where
  siblings : ∀ path ∈ files, ∃ dir entries, root <+: dir ∧ fs.readDir dir = some entries ∧
    path ∈ terraformFiles dir entries ∧ terraformFiles dir entries ⊆ files

theorem discoverLoop_complete {root : Path} {fuel : ℕ} {stack visited out files : List Path}
    (hstack : ∀ dir ∈ stack, root <+: dir) (hout : Complete fs root out)
    (h : discoverLoop fs fuel stack visited out = some (.ok files)) : Complete fs root files := by
  induction fuel generalizing stack visited out with
  | zero => cases h
  | succ fuel ih =>
    cases stack with
    | nil =>
      cases h
      refine ⟨fun path hp => ?_⟩
      obtain ⟨dir,entries,hroot,hread,hin,hsub⟩ := hout.siblings path (Path.mem_sort.mp hp)
      exact ⟨dir,entries,hroot,hread,hin,fun p hp => Path.mem_sort.mpr (hsub hp)⟩
    | cons dir stack =>
      have hrest : ∀ d ∈ stack, root <+: d := fun d hd => hstack d (List.mem_cons_of_mem dir hd)
      have hdir : root <+: dir := hstack dir List.mem_cons_self
      unfold discoverLoop at h
      dsimp only at h
      split at h
      · exact ih hrest hout h
      · split at h
        · cases h
        · rename_i entries hread
          refine ih (fun d hd => ?_) ⟨fun path hp => ?_⟩ h
          · rcases List.mem_append.mp hd with hd | hd
            · obtain ⟨e,-,rfl⟩ := List.mem_map.mp (List.mem_reverse.mp hd)
              exact hdir.trans (List.prefix_append dir _)
            · exact hrest d hd
          · rcases List.mem_append.mp hp with hp | hp
            · obtain ⟨d,es,hroot,hread',hin,hsub⟩ := hout.siblings path hp
              exact ⟨d,es,hroot,hread',hin,fun p hp => List.mem_append_left _ (hsub hp)⟩
            · exact ⟨dir,entries,hdir,hread,hp,List.subset_append_right _ _⟩

/-- A walk that ends well finds whole directories. -/
theorem discoverTerraformFiles_complete {fuel : ℕ} {root : Path} {files : List Path}
    (h : fs.discoverTerraformFiles fuel root = some (.ok files)) : Complete fs root files := by
  refine discoverLoop_complete (fun dir hd => ?_) ⟨by simp⟩ h
  exact List.mem_singleton.mp hd ▸ List.prefix_rfl

end FileSystem
end TerraformLs
