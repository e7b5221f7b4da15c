import TerraformLs.FileSystem
import TerraformLs.PathTrees

/-! The variable files read for a module directory: those in it and below it,
down to the directories that hold configuration of their own. Over a tree
without links the walk is compared with the nearest module of each file. -/
namespace TerraformLs

def isTfvarsFile (name : String) : Bool :=
  [".tfvars",".tfvars.json"].any fun suffix => suffix.toList.isSuffixOf name.toList

namespace FileSystem

variable (fs : FileSystem)

def hasTerraformFile (entries : List DirEntry) : Bool :=
  entries.any fun e => !e.isDir && e.isFile && isTerraformFile e.name

def tfvarsFiles (dir : Path) (entries : List DirEntry) : List Path :=
  (entries.filter fun e =>
    !e.isDir && e.isFile && !isTerraformFile e.name && isTfvarsFile e.name).map
      fun e => dir ++ [e.name]

/-- The walk below a module directory, bounded as `discoverLoop` is. The flag
marks the directory it started from, which is read whatever it holds. -/
def attributableLoop :
    ℕ → List (Path × Bool) → List Path → List Path → Option (Except Path (List Path))
  | 0, _, _, _ => none
  | _+1, [], _, out => some (.ok (Path.sort out))
  | fuel+1, (dir,isRoot)::stack, visited, out =>
    let canon := (fs.canonicalize dir).getD dir
    if visited.contains canon then attributableLoop fuel stack visited out else
      (fs.readDir dir).elim (some (.error dir)) fun entries =>
        if isRoot || !hasTerraformFile entries then
          attributableLoop fuel (((subdirs dir entries).map fun sd => (sd,false)).reverse ++ stack)
            (canon :: visited) (out ++ tfvarsFiles dir entries)
        else attributableLoop fuel stack (canon :: visited) out

def discoverTfvarsAttributableTo (fuel : ℕ) (moduleDir : Path) :
    Option (Except Path (List Path)) :=
  attributableLoop fs fuel [(moduleDir,true)] [] []

end FileSystem

/-- A finite tree of directories, all of them readable, without symbolic links. -/
structure DirectoryTree extends FileSystem where
  dirs : Finset Path
  listing : Path → List DirEntry
  readDir_eq : ∀ dir ∈ dirs, readDir dir = some (listing dir)
  canonicalize_eq : ∀ dir ∈ dirs, canonicalize dir = some dir
  names_nodup : ∀ dir ∈ dirs, ((listing dir).map DirEntry.name).Nodup
  one_kind : ∀ dir ∈ dirs, ∀ e ∈ listing dir, e.isFile = true → e.isDir = false
  child_mem : ∀ dir ∈ dirs, ∀ e ∈ listing dir, e.isDir = true → dir ++ [e.name] ∈ dirs
  parent_mem : ∀ dir ∈ dirs, ∀ name ∈ dir.getLast?,
    dir.dropLast ∈ dirs ∧ ∃ e ∈ listing dir.dropLast, e.isDir = true ∧ e.name = name

namespace DirectoryTree

open FileSystem PathTrees

variable (tree : DirectoryTree)

/-! ## The nearest module of a file -/

/-- A configuration file of a module, by the names the walk is documented to stop at. -/
def isModuleFile (name : String) : Bool :=
  [".tf",".tf.json"].any fun suffix => suffix.toList.isSuffixOf name.toList

def IsModule (dir : Path) : Prop :=
  dir ∈ tree.dirs ∧ ∃ e ∈ tree.listing dir, e.isFile = true ∧ isModuleFile e.name = true

/-- The other files that count as configuration: OpenTofu's, and those of tests. -/
def HoldsOther (dir : Path) : Prop :=
  ∃ e ∈ tree.listing dir, e.isFile = true ∧ isTerraformFile e.name = true ∧
    isModuleFile e.name = false

def IsTfvars (file : Path) : Prop :=
  ∃ dir ∈ tree.dirs, ∃ e ∈ tree.listing dir, e.isFile = true ∧ isTfvarsFile e.name = true ∧
    file = dir ++ [e.name]

def Ignored (dir : Path) : Prop := ∃ name ∈ dir.getLast?, isIgnoredDir name = true

/-- A directory strictly between another and a file under it. -/
def Between (dir file between : Path) : Prop :=
  dir <+: between ∧ between ≠ dir ∧ between <+: file ∧ between ≠ file

/-- The directory is the nearest module above the file, and no ignored one lies between. -/
structure Nearest (dir file : Path) : Prop where
  isModule : tree.IsModule dir
  above : dir <+: file ∧ dir ≠ file
  between : ∀ p, Between dir file p → ¬tree.IsModule p ∧ ¬Ignored p

/-- The walk from the directory ends well, and the file is among those it finds. -/
def Finds (dir file : Path) : Prop :=
  ∃ files, (∀ fuel > tree.dirs.card,
    tree.discoverTfvarsAttributableTo fuel dir = some (.ok files)) ∧ file ∈ files

/-- Each file goes to its nearest module: to one at most, and to one if there is one. -/
structure Partition : Prop where
  attributed : ∀ dir file, tree.IsModule dir → tree.IsTfvars file →
    (tree.Finds dir file ↔ tree.Nearest dir file)
  atMostOne : ∀ dir dir' file, tree.IsModule dir → tree.IsModule dir' → tree.IsTfvars file →
    tree.Finds dir file → tree.Finds dir' file → dir = dir'
  exactlyOne : ∀ file, tree.IsTfvars file → (∃ dir, tree.Nearest dir file) →
    ∃ dir, (tree.IsModule dir ∧ tree.Finds dir file) ∧
      ∀ dir', tree.IsModule dir' → tree.Finds dir' file → dir' = dir

/-! ## What the walk reaches -/

/-- What is found from a directory, going down where the walk goes down. -/
inductive Reaches : Path → Bool → Path → Prop
  | here {dir file : Path} {isRoot : Bool} :
      isRoot = true ∨ hasTerraformFile (tree.listing dir) = false →
      file ∈ tfvarsFiles dir (tree.listing dir) → Reaches dir isRoot file
  | down {dir sub file : Path} {isRoot : Bool} :
      isRoot = true ∨ hasTerraformFile (tree.listing dir) = false →
      sub ∈ subdirs dir (tree.listing dir) → Reaches sub false file → Reaches dir isRoot file

variable {tree}

theorem subdirs_eq_children (dir : Path) (entries : List DirEntry) :
    (subdirs dir entries).reverse = children dir
      (((entries.filter fun e => e.isDir && !isIgnoredDir e.name).map DirEntry.name).reverse) := by
  simp [subdirs,children,Function.comp_def]

theorem mem_subdirs {dir sub : Path} {entries : List DirEntry} : sub ∈ subdirs dir entries ↔
    ∃ e ∈ entries, e.isDir = true ∧ isIgnoredDir e.name = false ∧ dir ++ [e.name] = sub := by
  simp [subdirs,and_assoc]

theorem subdir_mem_dirs {dir sub : Path} (hd : dir ∈ tree.dirs)
    (h : sub ∈ subdirs dir (tree.listing dir)) : sub ∈ tree.dirs := by
  obtain ⟨e,he,hdir,-,rfl⟩ := mem_subdirs.mp h
  exact tree.child_mem dir hd e he hdir

theorem apart_push_subdirs {dir : Path} {stack : List Path} (hd : dir ∈ tree.dirs)
    (h : (dir :: stack).Pairwise Apart) :
    ((subdirs dir (tree.listing dir)).reverse ++ stack).Pairwise Apart := by
  rw [subdirs_eq_children]
  refine apart_push (List.nodup_reverse.mpr ?_) h
  exact (tree.names_nodup dir hd).sublist (List.filter_sublist.map _)

theorem pending_push_subdirs_lt {dir : Path} {stack : List Path} (hd : dir ∈ tree.dirs)
    (h : (dir :: stack).Pairwise Apart) :
    (pending tree.dirs ((subdirs dir (tree.listing dir)).reverse ++ stack)).card <
      (pending tree.dirs (dir :: stack)).card := by
  rw [subdirs_eq_children]
  exact card_pending_push_lt _ hd h

theorem pending_pop_lt {dir : Path} {stack : List Path} (hd : dir ∈ tree.dirs)
    (h : (dir :: stack).Pairwise Apart) :
    (pending tree.dirs stack).card < (pending tree.dirs (dir :: stack)).card :=
  card_pending_push_lt [] hd h

/-- The stack of a walk: directories apart from one another, none of them with
a directory below it that has been read. -/
structure Ahead (tree : DirectoryTree) (stack : List (Path × Bool)) (visited : List Path) :
    Prop where
  mem : ∀ x ∈ stack, x.1 ∈ tree.dirs
  apart : (stack.map Prod.fst).Pairwise Apart
  unread : ∀ x ∈ stack, ∀ p ∈ visited, ¬x.1 <+: p

namespace Ahead

variable {dir : Path} {isRoot : Bool} {stack : List (Path × Bool)} {visited : List Path}

theorem pop (h : Ahead tree ((dir,isRoot) :: stack) visited) :
    Ahead tree stack (dir :: visited) where
  mem x hx := h.mem x (List.mem_cons_of_mem _ hx)
  apart := (List.pairwise_cons.mp h.apart).2
  unread x hx p hp := by
    rcases List.mem_cons.mp hp with rfl | hp
    · exact (List.rel_of_pairwise_cons h.apart (List.mem_map_of_mem hx)).2
    · exact h.unread x (List.mem_cons_of_mem _ hx) p hp

theorem push (h : Ahead tree ((dir,isRoot) :: stack) visited) :
    Ahead tree (((subdirs dir (tree.listing dir)).map fun sd => (sd,false)).reverse ++ stack)
      (dir :: visited) where
  mem x hx := by
    rcases List.mem_append.mp hx with hx | hx
    · obtain ⟨sub,hs,rfl⟩ := List.mem_map.mp (List.mem_reverse.mp hx)
      exact subdir_mem_dirs (h.mem _ List.mem_cons_self) hs
    · exact h.pop.mem x hx
  apart := by
    have hpush := apart_push_subdirs (h.mem _ List.mem_cons_self) h.apart
    simpa [Function.comp_def] using hpush
  unread x hx p hp := by
    rcases List.mem_append.mp hx with hx | hx
    · obtain ⟨sub,hs,rfl⟩ := List.mem_map.mp (List.mem_reverse.mp hx)
      obtain ⟨e,-,-,-,rfl⟩ := mem_subdirs.mp hs
      rcases List.mem_cons.mp hp with rfl | hp
      · exact not_child_prefix_self p e.name
      · exact fun hpre => h.unread _ List.mem_cons_self p hp (prefix_of_child hpre)
    · exact h.pop.unread x hx p hp

theorem notMem_visited (h : Ahead tree ((dir,isRoot) :: stack) visited) : dir ∉ visited :=
  fun hv => h.unread _ List.mem_cons_self dir hv List.prefix_rfl

end Ahead

/-- A round reads the directory on the top of the stack. -/
theorem attributableLoop_round {fuel : ℕ} {dir : Path} {isRoot : Bool}
    {stack : List (Path × Bool)} {visited out : List Path}
    (h : Ahead tree ((dir,isRoot) :: stack) visited) :
    tree.attributableLoop (fuel + 1) ((dir,isRoot) :: stack) visited out =
      if isRoot = true ∨ hasTerraformFile (tree.listing dir) = false then
        tree.attributableLoop fuel
          (((subdirs dir (tree.listing dir)).map fun sd => (sd,false)).reverse ++ stack)
          (dir :: visited) (out ++ tfvarsFiles dir (tree.listing dir))
      else tree.attributableLoop fuel stack (dir :: visited) out := by
  have hd := h.mem _ List.mem_cons_self
  simp [attributableLoop,tree.canonicalize_eq dir hd,h.notMem_visited,tree.readDir_eq dir hd]

theorem reaches_iff_step {dir file : Path} {isRoot : Bool} :
    tree.Reaches dir isRoot file ↔
      (isRoot = true ∨ hasTerraformFile (tree.listing dir) = false) ∧
        (file ∈ tfvarsFiles dir (tree.listing dir) ∨
          ∃ sub ∈ subdirs dir (tree.listing dir), tree.Reaches sub false file) := by
  constructor
  · rintro (⟨ho,hf⟩ | ⟨ho,hs,hr⟩)
    · exact ⟨ho,.inl hf⟩
    · exact ⟨ho,.inr ⟨_,hs,hr⟩⟩
  · rintro ⟨ho,hf | ⟨sub,hs,hr⟩⟩
    · exact .here ho hf
    · exact .down ho hs hr

/-- With a round for each directory still to be read, the walk ends with what
it had found and what is reached from the stack. -/
theorem attributableLoop_spec (out : List Path) {fuel : ℕ} {stack : List (Path × Bool)}
    {visited : List Path} (h : Ahead tree stack visited) (hf : (pending tree.dirs (stack.map Prod.fst)).card < fuel) :
    ∃ files, (∀ more ≥ fuel, tree.attributableLoop more stack visited out = some (.ok files)) ∧
      ∀ file, file ∈ files ↔ file ∈ out ∨ ∃ x ∈ stack, tree.Reaches x.1 x.2 file := by
  induction fuel generalizing stack visited out with
  | zero => omega
  | succ fuel ih =>
    rcases stack with _ | ⟨⟨dir,isRoot⟩,stack⟩
    · refine ⟨Path.sort out,fun more hm => ?_,by simp⟩
      obtain ⟨more,rfl⟩ := Nat.exists_eq_succ_of_ne_zero (by omega : more ≠ 0)
      rfl
    · have hd := h.mem _ List.mem_cons_self
      have hround : ∀ more ≥ fuel + 1, ∃ n ≥ fuel, more = n + 1 :=
        fun more hm => ⟨more - 1,by omega,by omega⟩
      by_cases ho : isRoot = true ∨ hasTerraformFile (tree.listing dir) = false
      · have hlt := pending_push_subdirs_lt hd h.apart
        obtain ⟨files,hrun,hmem⟩ := ih (out ++ tfvarsFiles dir (tree.listing dir)) h.push
          (by simpa [Function.comp_def] using hlt.trans_le (Nat.le_of_lt_succ hf))
        refine ⟨files,fun more hm => ?_,fun file => ?_⟩
        · obtain ⟨n,hn,rfl⟩ := hround more hm
          rw [attributableLoop_round h,if_pos ho]
          exact hrun n hn
        · rw [hmem,List.exists_mem_cons_iff,reaches_iff_step]
          simp only [List.mem_append,List.mem_reverse,List.mem_map,ho,true_and]
          grind
      · have hlt := pending_pop_lt hd h.apart
        obtain ⟨files,hrun,hmem⟩ := ih out h.pop (hlt.trans_le (Nat.le_of_lt_succ hf))
        refine ⟨files,fun more hm => ?_,fun file => ?_⟩
        · obtain ⟨n,hn,rfl⟩ := hround more hm
          rw [attributableLoop_round h,if_neg ho]
          exact hrun n hn
        · rw [hmem,List.exists_mem_cons_iff,reaches_iff_step]
          simp [ho]

theorem finds_iff {dir file : Path} (hd : dir ∈ tree.dirs) :
    tree.Finds dir file ↔ tree.Reaches dir true file := by
  have hahead : Ahead tree [(dir,true)] [] := ⟨by simpa using hd,by simp,by simp⟩
  obtain ⟨files,hrun,hmem⟩ := attributableLoop_spec [] hahead
    (Nat.lt_succ_of_le (card_pending_le tree.dirs _))
  have hfile : file ∈ files ↔ tree.Reaches dir true file := by simpa using hmem file
  rw [← hfile]
  constructor
  · rintro ⟨files',hrun',hin⟩
    have he := (hrun' _ (Nat.lt_succ_self _)).symm.trans (hrun _ le_rfl)
    cases he
    exact hin
  · exact fun hin => ⟨files,fun fuel hfuel => hrun fuel hfuel,hin⟩

/-! ## The walk against the nearest module -/

/-- A file is a configuration file or a variable file, never both. -/
theorem isTerraformFile_of_isTfvarsFile {name : String} (h : isTfvarsFile name = true) :
    isTerraformFile name = false := by
  rw [Bool.eq_false_iff]
  intro ht
  simp only [isTfvarsFile,isTerraformFile,List.any_eq_true,List.isSuffixOf_iff_suffix] at h ht
  obtain ⟨s,hs,hsn⟩ := h
  obtain ⟨t,ht,htn⟩ := ht
  have hend : ∀ s ∈ [".tfvars",".tfvars.json"], ∀ t ∈ [".tf",".tf.json",".tofu",".tofu.json",
      ".tftest.hcl",".tftest.json",".tofutest.hcl",".tofutest.json"],
      ¬s.toList <:+ t.toList ∧ ¬t.toList <:+ s.toList := by decide +kernel
  rcases List.suffix_or_suffix_of_suffix hsn htn with hst | hts
  · exact (hend s hs t ht).1 hst
  · exact (hend s hs t ht).2 hts

theorem mem_tfvarsFiles {dir file : Path} (hd : dir ∈ tree.dirs) :
    file ∈ tfvarsFiles dir (tree.listing dir) ↔ ∃ e ∈ tree.listing dir, e.isFile = true ∧
      isTfvarsFile e.name = true ∧ file = dir ++ [e.name] := by
  simp only [tfvarsFiles,List.mem_map,List.mem_filter,Bool.and_eq_true,Bool.not_eq_true']
  constructor
  · rintro ⟨e,⟨he,⟨⟨-,hfile⟩,-⟩,htf⟩,rfl⟩
    exact ⟨e,he,hfile,htf,rfl⟩
  · rintro ⟨e,he,hfile,htf,rfl⟩
    exact ⟨e,⟨he,⟨⟨tree.one_kind dir hd e he hfile,hfile⟩,isTerraformFile_of_isTfvarsFile htf⟩,
      htf⟩,rfl⟩

theorem isTerraformFile_of_isModuleFile {name : String} (h : isModuleFile name = true) :
    isTerraformFile name = true := by
  simp only [isModuleFile,isTerraformFile,List.any_cons,List.any_nil,Bool.or_eq_true] at h ⊢
  tauto

theorem hasTerraformFile_iff {dir : Path} (hd : dir ∈ tree.dirs) :
    hasTerraformFile (tree.listing dir) = true ↔ tree.IsModule dir ∨ tree.HoldsOther dir := by
  simp only [hasTerraformFile,List.any_eq_true,Bool.and_eq_true,Bool.not_eq_true']
  constructor
  · rintro ⟨e,he,⟨-,hfile⟩,ht⟩
    cases hm : isModuleFile e.name with
    | true => exact .inl ⟨hd,e,he,hfile,hm⟩
    | false => exact .inr ⟨e,he,hfile,ht,hm⟩
  · rintro (⟨-,e,he,hfile,hm⟩ | ⟨e,he,hfile,ht,-⟩)
    · exact ⟨e,he,⟨tree.one_kind dir hd e he hfile,hfile⟩,isTerraformFile_of_isModuleFile hm⟩
    · exact ⟨e,he,⟨tree.one_kind dir hd e he hfile,hfile⟩,ht⟩

theorem parent_lists {dir : Path} {name : String} (h : dir ++ [name] ∈ tree.dirs) :
    dir ∈ tree.dirs ∧ ∃ e ∈ tree.listing dir, e.isDir = true ∧ e.name = name := by
  simpa using tree.parent_mem (dir ++ [name]) h name (by simp)

theorem mem_dirs_above {dir below : Path} (h : dir <+: below) (hb : below ∈ tree.dirs) :
    dir ∈ tree.dirs := by
  induction below using List.reverseRecOn with
  | nil => exact List.prefix_nil.mp h ▸ hb
  | append_singleton below name ih =>
    obtain rfl | h := List.prefix_concat_iff.mp h
    · exact hb
    · exact ih h (parent_lists hb).1

/-- The child of a directory towards one below it is listed in it. -/
theorem child_listed {dir below : Path} {name : String} (h : dir ++ [name] <+: below)
    (hb : below ∈ tree.dirs) : ∃ e ∈ tree.listing dir, e.isDir = true ∧ e.name = name :=
  (parent_lists (mem_dirs_above h hb)).2

@[simp] theorem ignored_concat {dir : Path} {name : String} :
    Ignored (dir ++ [name]) ↔ isIgnoredDir name = true := by
  simp [Ignored]

theorem not_between_child {dir p : Path} {name : String} : ¬Between dir (dir ++ [name]) p := by
  rintro ⟨hdir,hne,hfile,hnf⟩
  obtain rfl | hp := List.prefix_concat_iff.mp hfile
  · exact hnf rfl
  · exact hne (hp.eq_of_length_le hdir.length_le)

/-- The directories between, seen from one step below. -/
theorem between_iff {dir file p : Path} {name : String} (h : dir ++ [name] <+: file)
    (hne : dir ++ [name] ≠ file) :
    Between dir file p ↔ p = dir ++ [name] ∨ Between (dir ++ [name]) file p := by
  constructor
  · rintro ⟨hdir,hp,hfile,hpf⟩
    obtain rfl | ⟨other,ho⟩ := eq_or_child_of_prefix hdir
    · exact absurd rfl hp
    obtain rfl := child_name_unique (ho.trans hfile) h
    by_cases he : p = dir ++ [other]
    · exact .inl he
    · exact .inr ⟨ho,he,hfile,hpf⟩
  · rintro (rfl | ⟨hdir,hp,hfile,hpf⟩)
    · exact ⟨List.prefix_append dir _,by simp,h,hne⟩
    · refine ⟨prefix_of_child hdir,?_,hfile,hpf⟩
      rintro rfl
      exact not_child_prefix_self p name hdir

/-- The way from a directory down to a file is open to the walk. -/
structure Open (tree : DirectoryTree) (dir file : Path) : Prop where
  above : dir <+: file ∧ dir ≠ file
  between : ∀ p, Between dir file p →
    hasTerraformFile (tree.listing p) = false ∧ ¬Ignored p

theorem open_child {dir file : Path} {name : String} (h : dir ++ [name] <+: file)
    (hne : dir ++ [name] ≠ file) : Open tree dir file ↔
      (hasTerraformFile (tree.listing (dir ++ [name])) = false ∧ isIgnoredDir name = false) ∧
        Open tree (dir ++ [name]) file := by
  constructor
  · intro ho
    have hchild := ho.between _ ((between_iff h hne).mpr (.inl rfl))
    refine ⟨⟨hchild.1,by simpa using hchild.2⟩,⟨h,hne⟩,fun p hp => ?_⟩
    exact ho.between p ((between_iff h hne).mpr (.inr hp))
  · rintro ⟨⟨htf,hig⟩,ho⟩
    refine ⟨⟨prefix_of_child h,?_⟩,fun p hp => ?_⟩
    · rintro rfl
      exact not_child_prefix_self dir name h
    · obtain rfl | hp := (between_iff h hne).mp hp
      · exact ⟨htf,by simp [hig]⟩
      · exact ho.between p hp

theorem reaches_file {dir file : Path} {isRoot : Bool} (h : tree.Reaches dir isRoot file)
    (hd : dir ∈ tree.dirs) : tree.IsTfvars file ∧ Open tree dir file := by
  induction h with
  | here _ hf =>
    obtain ⟨e,he,hfile,htf,rfl⟩ := (mem_tfvarsFiles hd).mp hf
    exact ⟨⟨_,hd,e,he,hfile,htf,rfl⟩,⟨List.prefix_append _ _,by simp⟩,
      fun p hp => absurd hp not_between_child⟩
  | @down dir sub file isRoot _ hs hr ih =>
    obtain ⟨htf,ho⟩ := ih (subdir_mem_dirs hd hs)
    obtain ⟨e,-,-,hig,rfl⟩ := mem_subdirs.mp hs
    have hclear : hasTerraformFile (tree.listing (dir ++ [e.name])) = false := by
      simpa using (reaches_iff_step.mp hr).1
    exact ⟨htf,(open_child ho.above.1 ho.above.2).mpr ⟨⟨hclear,hig⟩,ho⟩⟩

/-- An open way is gone down step by step, on the names that are left of it. -/
theorem reaches_of_open {dir file : Path} {isRoot : Bool} (htf : tree.IsTfvars file)
    (ho : Open tree dir file) (hread : isRoot = true ∨ hasTerraformFile (tree.listing dir) = false) :
    tree.Reaches dir isRoot file := by
  obtain ⟨parent,hp,e,he,hfile,hname,rfl⟩ := htf
  have hdp : dir <+: parent :=
    (List.prefix_concat_iff.mp ho.above.1).resolve_left ho.above.2
  obtain ⟨rest,rfl⟩ := hdp
  induction rest generalizing dir isRoot with
  | nil =>
    rw [List.append_nil] at hp he ⊢
    exact .here hread ((mem_tfvarsFiles hp).mpr ⟨e,he,hfile,hname,rfl⟩)
  | cons name rest ih =>
    have hway : dir ++ [name] <+: dir ++ name :: rest := ⟨rest,by simp⟩
    have hbelow : dir ++ [name] <+: dir ++ name :: rest ++ [e.name] :=
      hway.trans (List.prefix_append _ _)
    obtain ⟨⟨hclear,hig⟩,ho'⟩ := (open_child hbelow (by simp)).mp ho
    obtain ⟨sub,hsub,hdir,rfl⟩ := child_listed hway hp
    have he' : dir ++ sub.name :: rest = dir ++ [sub.name] ++ rest := by simp
    rw [he'] at hp he ho' ⊢
    exact .down hread (mem_subdirs.mpr ⟨sub,hsub,hdir,hig,rfl⟩) (ih (.inr hclear) hp he ho')

theorem finds_iff_open {dir file : Path} (hd : dir ∈ tree.dirs) (htf : tree.IsTfvars file) :
    tree.Finds dir file ↔ Open tree dir file := by
  rw [finds_iff hd]
  exact ⟨fun h => (reaches_file h hd).2,fun h => reaches_of_open htf h (.inl rfl)⟩

theorem between_mem_dirs {dir file p : Path} (htf : tree.IsTfvars file) (h : Between dir file p) :
    p ∈ tree.dirs := by
  obtain ⟨parent,hp,e,-,-,-,rfl⟩ := htf
  exact mem_dirs_above ((List.prefix_concat_iff.mp h.2.2.1).resolve_left h.2.2.2) hp

/-- The walk takes a file from its nearest module, unless it is held up by
configuration that is not a module's. -/
theorem finds_iff_nearest {dir file : Path} (hm : tree.IsModule dir) (htf : tree.IsTfvars file) :
    tree.Finds dir file ↔
      tree.Nearest dir file ∧ ∀ p, Between dir file p → ¬tree.HoldsOther p := by
  rw [finds_iff_open hm.1 htf]
  have hclear : ∀ p, Between dir file p → (hasTerraformFile (tree.listing p) = false ↔
      ¬tree.IsModule p ∧ ¬tree.HoldsOther p) := fun p hp => by
    rw [Bool.eq_false_iff,ne_eq,hasTerraformFile_iff (between_mem_dirs htf hp),not_or]
  constructor
  · intro ho
    have hb := fun p hp => (hclear p hp).mp (ho.between p hp).1
    exact ⟨⟨hm,ho.above,fun p hp => ⟨(hb p hp).1,(ho.between p hp).2⟩⟩,fun p hp => (hb p hp).2⟩
  · rintro ⟨hn,hother⟩
    exact ⟨hn.above,fun p hp =>
      ⟨(hclear p hp).mpr ⟨(hn.between p hp).1,hother p hp⟩,(hn.between p hp).2⟩⟩

/-- A file has one nearest module: of two above it, one is between the other and the file. -/
theorem nearest_unique {dir dir' file : Path} (h : tree.Nearest dir file)
    (h' : tree.Nearest dir' file) : dir = dir' := by
  by_contra hne
  rcases List.prefix_or_prefix_of_prefix h.above.1 h'.above.1 with hp | hp
  · exact (h.between dir' ⟨hp,Ne.symm hne,h'.above.1,h'.above.2⟩).1 h'.isModule
  · exact (h'.between dir ⟨hp,hne,h.above.1,h.above.2⟩).1 h.isModule

/-- Each file is attributed to its nearest module exactly where no directory on
the way down to it holds OpenTofu or test files instead of a module's. -/
theorem partition_iff (tree : DirectoryTree) : tree.Partition ↔
    ∀ dir file, tree.IsTfvars file → tree.Nearest dir file →
      ∀ p, Between dir file p → ¬tree.HoldsOther p := by
  constructor
  · intro h dir file htf hn
    have hm := hn.isModule
    exact ((finds_iff_nearest hm htf).mp ((h.attributed dir file hm htf).mpr hn)).2
  · intro h
    have hfinds : ∀ dir file, tree.IsModule dir → tree.IsTfvars file →
        (tree.Finds dir file ↔ tree.Nearest dir file) := fun dir file hm htf => by
      rw [finds_iff_nearest hm htf]
      exact and_iff_left_of_imp fun hn => h dir file htf hn
    refine ⟨hfinds,fun dir dir' file hm hm' htf hf hf' => ?_,fun file htf ⟨dir,hn⟩ => ?_⟩
    · exact nearest_unique ((hfinds dir file hm htf).mp hf) ((hfinds dir' file hm' htf).mp hf')
    · refine ⟨dir,⟨hn.isModule,(hfinds dir file hn.isModule htf).mpr hn⟩,fun dir' hm' hf' => ?_⟩
      exact nearest_unique ((hfinds dir' file hm' htf).mp hf') hn

/-- A module with a directory of tests, and variables for the tests next to them. -/
def testedModule : DirectoryTree where
  dirs := {[],["app"],["app","tests"]}
  listing dir :=
    if dir = [] then [⟨"app",true,false⟩]
    else if dir = ["app"] then [⟨"main.tf",false,true⟩,⟨"tests",true,false⟩]
    else if dir = ["app","tests"] then
      [⟨"main.tftest.hcl",false,true⟩,⟨"terraform.tfvars",false,true⟩]
    else []
  readDir dir :=
    if dir = [] then some [⟨"app",true,false⟩]
    else if dir = ["app"] then some [⟨"main.tf",false,true⟩,⟨"tests",true,false⟩]
    else if dir = ["app","tests"] then
      some [⟨"main.tftest.hcl",false,true⟩,⟨"terraform.tfvars",false,true⟩]
    else none
  canonicalize := some
  readToString _ := none
  metadata _ := none
  isDir dir := dir ∈ ({[],["app"],["app","tests"]} : Finset Path)
  isFile _ := false
  toFilePath _ := none
  fromFilePath _ := none
  readDir_eq := by decide
  canonicalize_eq _ _ := rfl
  names_nodup := by decide
  one_kind := by decide
  child_mem := by decide
  parent_mem := by decide

/-- The variables of the tests are the module's, and the walk leaves them out. -/
theorem tests_directory_unattributed : ¬testedModule.Partition := by
  intro h
  have hm : testedModule.IsModule ["app"] :=
    ⟨by decide,⟨"main.tf",false,true⟩,by decide,rfl,by decide +kernel⟩
  have htf : testedModule.IsTfvars ["app","tests","terraform.tfvars"] :=
    ⟨["app","tests"],by decide,⟨"terraform.tfvars",false,true⟩,by decide,rfl,by decide +kernel,rfl⟩
  have hbetween : ∀ p, Between ["app"] ["app","tests","terraform.tfvars"] p → p = ["app","tests"] :=
    fun p hp => ((between_iff ⟨["terraform.tfvars"],rfl⟩ (by simp)).mp hp).resolve_right
      not_between_child
  have hn : testedModule.Nearest ["app"] ["app","tests","terraform.tfvars"] := by
    refine ⟨hm,⟨⟨["tests","terraform.tfvars"],rfl⟩,by simp⟩,fun p hp => ?_⟩
    obtain rfl := hbetween p hp
    refine ⟨fun hmod => ?_,by simp [Ignored,isIgnoredDir,ignoredDirs]⟩
    have hnone : ∀ e ∈ testedModule.listing ["app","tests"], isModuleFile e.name = false := by
      decide +kernel
    obtain ⟨-,e,he,-,hname⟩ := hmod
    exact absurd hname (by simp [hnone e he])
  have hclear := ((finds_iff_nearest hm htf).mp ((h.attributed _ _ hm htf).mpr hn)).2
  exact hclear ["app","tests"] ⟨⟨["tests"],rfl⟩,by simp,⟨["terraform.tfvars"],rfl⟩,by simp⟩
    ⟨⟨"main.tftest.hcl",false,true⟩,by decide,rfl,by decide +kernel,by decide +kernel⟩

end DirectoryTree
end TerraformLs
