import TerraformLs.FileSystem

/-! The modules of a tree that `init` has installed, and where the calls in them lead. The
keys of the manifest are dotted paths of labels from the root. -/
namespace TerraformLs
namespace FileSystem

def manifestPath (dir : Path) : Path := dir ++ [".terraform","modules","modules.json"]

section spec

variable (fs : FileSystem) (parseManifest : String → Option (List (String × String)))

/-- The entries of the manifest of a directory, none when it cannot be used. -/
def manifestEntries (dir : Path) : List (String × String) :=
  ((fs.readToString (manifestPath dir)).bind parseManifest).getD []

/-- The manifest of `dir` puts the key there: entries without a directory do not count. -/
def Places (dir : Path) (key : String) (target : Path) : Prop :=
  ∃ before e after, fs.manifestEntries parseManifest dir = before ++ e::after ∧
    e.1 = key ∧ fs.canonicalDir (Path.join dir e.2) = some target ∧
    ∀ x ∈ before, x.1 = key → fs.canonicalDir (Path.join dir x.2) = none

/-- The nearest directory with a manifest. -/
def nearestManifest (path : Path) : Option Path :=
  (Path.ancestors path).find? fun dir => fs.isFile (manifestPath dir)

/-- A root whose manifest has one entry for each key, with a directory on the disk. -/
structure Installed (root : Path) : Prop where
  isFile : fs.isFile (manifestPath root) = true
  keys : ((fs.manifestEntries parseManifest root).map Prod.fst).Nodup
  dirs : ∀ e ∈ fs.manifestEntries parseManifest root,
    (fs.canonicalDir (Path.join root e.2)).isSome

def dotted (path : List String) : String := String.intercalate "." path

/-- The directory of the entry with that key. -/
def entryDir (root : Path) (key : String) : Option Path :=
  ((fs.manifestEntries parseManifest root).find? fun e => e.1 = key).bind fun e =>
    fs.canonicalDir (Path.join root e.2)

/-- The module at a path of calls from the root. -/
inductive ModuleAt (root : Path) : List String → Path → Prop
  | root : ModuleAt root [] root
  | call {p : List String} {label : String} {dir : Path}
      (h : fs.entryDir parseManifest root (dotted (p ++ [label])) = some dir) :
      ModuleAt root (p ++ [label]) dir

/-- A call leads to the directory of its own entry. -/
def ResolvesOwn (root : Path) (path : List String) (dir : Path) (label source : String) : Prop :=
  fs.resolveModuleSource parseManifest dir label source =
    fs.entryDir parseManifest root (dotted (path ++ [label]))

/-- The nearest manifest has the bare label where the root has the dotted path. -/
def LabelAgrees (root : Path) (path : List String) (dir : Path) (label : String) : Prop :=
  ∀ target, (∃ near, fs.nearestManifest dir = some near ∧ fs.Places parseManifest near label target) ↔
    fs.Places parseManifest root (dotted (path ++ [label])) target

end spec

section lemmas

variable {fs : FileSystem} {parseManifest : String → Option (List (String × String))}

theorem dotted_singleton (label : String) : dotted [label] = label := rfl

/-- The search ends at the first entry with a directory. -/
theorem findSome?_entries_eq_some {dir target : Path} {key : String} {entries : List (String × String)} :
    (entries.findSome? fun e => if e.1 = key then fs.canonicalDir (Path.join dir e.2) else none) =
      some target ↔ ∃ before e after, entries = before ++ e::after ∧ e.1 = key ∧
        fs.canonicalDir (Path.join dir e.2) = some target ∧
        ∀ x ∈ before, x.1 = key → fs.canonicalDir (Path.join dir x.2) = none := by
  rw [List.findSome?_eq_some_iff]
  constructor
  · rintro ⟨before,e,after,hentries,he,hbefore⟩
    split_ifs at he with hkey
    refine ⟨before,e,after,hentries,hkey,he,fun x hx hxkey => ?_⟩
    have hnone := hbefore x hx
    rwa [if_pos hxkey] at hnone
  · rintro ⟨before,e,after,hentries,hkey,he,hbefore⟩
    refine ⟨before,e,after,hentries,by rw [if_pos hkey,he],fun x hx => ?_⟩
    split_ifs with hxkey
    · exact hbefore x hx hxkey
    · rfl

/-- The walk up looks the label up in the nearest manifest, and nowhere else. -/
theorem manifestDir_eq (label : String) (dirs : List Path) :
    fs.manifestDir parseManifest label dirs =
      (dirs.find? fun dir => fs.isFile (manifestPath dir)).bind fun dir =>
        (fs.manifestEntries parseManifest dir).findSome? fun e =>
          if e.1 = label then fs.canonicalDir (Path.join dir e.2) else none := by
  induction dirs with
  | nil => rfl
  | cons dir dirs ih =>
    by_cases hfile : fs.isFile (manifestPath dir) = true
    · rw [List.find?_cons_of_pos (by exact hfile),Option.bind_some,manifestEntries,manifestDir]
      refine (if_pos hfile).trans ?_
      rw [manifestPath]
      cases (fs.readToString (dir ++ [".terraform","modules","modules.json"])).bind parseManifest with
      | none => rfl
      | some entries => rfl
    · rw [List.find?_cons_of_neg (by exact hfile),manifestDir]
      exact (if_neg hfile).trans ih

theorem manifestDir_eq_some {label : String} {path target : Path} :
    fs.manifestDir parseManifest label (Path.ancestors path) = some target ↔
      ∃ near, fs.nearestManifest path = some near ∧ fs.Places parseManifest near label target := by
  rw [manifestDir_eq,Option.bind_eq_some_iff]
  exact exists_congr fun near => and_congr_right fun _ => findSome?_entries_eq_some

/-- In the manifest of an installed tree a key has one place. -/
theorem Installed.places_iff {root target : Path} {key : String} (h : fs.Installed parseManifest root) :
    fs.Places parseManifest root key target ↔ fs.entryDir parseManifest root key = some target := by
  constructor
  · rintro ⟨before,e,after,hentries,hkey,htarget,-⟩
    have hfind : (fs.manifestEntries parseManifest root).find? (fun x => x.1 = key) = some e := by
      rw [List.find?_eq_some_iff_append]
      refine ⟨decide_eq_true hkey,before,after,hentries,fun x hx => ?_⟩
      have hnodup := h.keys
      rw [hentries,List.map_append,List.map_cons,List.nodup_append] at hnodup
      have hne := hnodup.2.2 x.1 (List.mem_map_of_mem hx) e.1 List.mem_cons_self
      rw [hkey] at hne
      simpa using hne
    rw [entryDir,hfind]
    exact htarget
  · intro hdir
    obtain ⟨e,hfind,htarget⟩ := Option.bind_eq_some_iff.mp hdir
    obtain ⟨hkey,before,after,hentries,hbefore⟩ := List.find?_eq_some_iff_append.mp hfind
    refine ⟨before,e,after,hentries,of_decide_eq_true hkey,htarget,fun x hx hxkey => ?_⟩
    have hne := hbefore x hx
    rw [hxkey] at hne
    simp at hne

/-- The walk up starts at the path itself. -/
theorem ancestors_eq_cons (path : Path) : ∃ above, Path.ancestors path = path::above := by
  rcases List.eq_nil_or_concat path with rfl | ⟨dir,name,rfl⟩
  · exact ⟨[],rfl⟩
  · refine ⟨dir.inits.reverse,?_⟩
    rw [Path.ancestors,List.concat_eq_append,List.inits_append,List.reverse_append]
    rfl

theorem Installed.nearestManifest_root {root : Path} (h : fs.Installed parseManifest root) :
    fs.nearestManifest root = some root := by
  obtain ⟨above,habove⟩ := ancestors_eq_cons root
  rw [nearestManifest,habove,List.find?_cons_of_pos (by exact h.isFile)]

end lemmas

section theorems

variable {fs : FileSystem} {parseManifest : String → Option (List (String × String))}

/-- A remote call in a module of the tree leads to its own entry when it is one of the root,
or when its bare label and its dotted path are in the same place. -/
theorem resolves_own_iff {root dir : Path} {path : List String} {label source : String}
    (h : fs.Installed parseManifest root) (hdir : fs.ModuleAt parseManifest root path dir)
    (hremote : fs.canonicalDir (Path.join dir source) = none) :
    fs.ResolvesOwn parseManifest root path dir label source ↔
      path = [] ∨ fs.LabelAgrees parseManifest root path dir label := by
  have hagrees : fs.ResolvesOwn parseManifest root path dir label source ↔
      fs.LabelAgrees parseManifest root path dir label := by
    rw [ResolvesOwn,resolveModuleSource,hremote,Option.none_or,Option.ext_iff]
    refine forall_congr' fun target => ?_
    rw [manifestDir_eq_some,h.places_iff]
  rw [hagrees]
  refine ⟨Or.inr,fun hcase => hcase.elim (fun hroot => ?_) id⟩
  cases hdir with
  | root =>
    intro target
    rw [List.nil_append,dotted_singleton]
    constructor
    · rintro ⟨near,hnear,hplaces⟩
      obtain rfl := Option.some.inj (h.nearestManifest_root.symm.trans hnear)
      exact hplaces
    · exact fun hplaces => ⟨root,h.nearestManifest_root,hplaces⟩
  | call => simp at hroot

/-- The manifest of a root with modules `app` and `net`, where `app` calls another `net`. -/
def nestedManifest : String :=
  "\x7b\"Modules\":[\x7b\"Key\":\"\",\"Dir\":\".\"\x7d," ++
    "\x7b\"Key\":\"app\",\"Dir\":\".terraform/modules/app\"\x7d," ++
    "\x7b\"Key\":\"net\",\"Dir\":\".terraform/modules/net\"\x7d," ++
    "\x7b\"Key\":\"app.net\",\"Dir\":\".terraform/modules/app.net\"\x7d]\x7d"

def nestedParser (content : String) : Option (List (String × String)) :=
  if content = nestedManifest then
    some [("","."),("app",".terraform/modules/app"),("net",".terraform/modules/net"),
      ("app.net",".terraform/modules/app.net")]
  else none

def moduleDir (name : String) : Path := ["w",".terraform","modules",name]

def nestedFileSystem : FileSystem where
  canonicalize := some
  readDir := fun _ => none
  readToString := fun path => if path = manifestPath ["w"] then some nestedManifest else none
  metadata := fun _ => none
  isDir := (["w"] :: ["app","net","app.net"].map moduleDir).contains
  isFile := fun path => path = manifestPath ["w"]
  toFilePath := fun _ => none
  fromFilePath := fun _ => none

theorem nested_installed : nestedFileSystem.Installed nestedParser ["w"] :=
  ⟨by decide +kernel,by decide +kernel,by decide +kernel⟩

theorem root_call_resolves : nestedFileSystem.ResolvesOwn nestedParser ["w"] [] ["w"] "net"
    "example/net/aws" :=
  (resolves_own_iff nested_installed .root (by decide +kernel)).mpr (Or.inl rfl)

/-- The call of `net` in `app` leads to the `net` of the root. -/
theorem nested_call_elsewhere : nestedFileSystem.Installed nestedParser ["w"] ∧
    nestedFileSystem.ModuleAt nestedParser ["w"] ["app"] (moduleDir "app") ∧
    nestedFileSystem.canonicalDir (Path.join (moduleDir "app") "example/net/aws") = none ∧
    nestedFileSystem.resolveModuleSource nestedParser (moduleDir "app") "net" "example/net/aws" =
      some (moduleDir "net") ∧
    ¬nestedFileSystem.ResolvesOwn nestedParser ["w"] ["app"] (moduleDir "app") "net"
      "example/net/aws" := by
  refine ⟨nested_installed,ModuleAt.call (p := []) (by decide +kernel),by decide +kernel,
    by decide +kernel,?_⟩
  unfold ResolvesOwn
  decide +kernel

end theorems

end FileSystem
end TerraformLs
