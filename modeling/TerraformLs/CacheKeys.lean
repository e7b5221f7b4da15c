import Mathlib.Data.List.Forall2
import Mathlib.Tactic.SplitIfs
import TerraformLs.GitUrls
import TerraformLs.Symbols

/-! The files of the disk caches. A key is turned into a file by replacing most
characters of its components, so different keys may share a file, and a key of
double dots leaves the cache directory. -/
namespace TerraformLs

namespace Path

/-- The directory a component leads to, as the system resolves it. -/
def enter (dir : Path) (step : String) : Path :=
  if step = "" ∨ step = "." then dir else if step = ".." then dir.dropLast else dir ++ [step]

def walk (dir : Path) (steps : List String) : Path := steps.foldl enter dir

/-- No component leads above the directory the walk began in. -/
def Stays : ℕ → List String → Prop
  | _, [] => True
  | depth, step::steps =>
    if step = "" ∨ step = "." then Stays depth steps
    else if step = ".." then 0 < depth ∧ Stays (depth-1) steps
    else Stays (depth+1) steps

/-- The file is in the directory or below it. -/
def Under (root file : Path) : Prop := root <+: file.dropLast

@[simp] theorem walk_nil (dir : Path) : walk dir [] = dir := rfl

@[simp] theorem walk_cons (dir : Path) (step : String) (steps : List String) :
    walk dir (step :: steps) = walk (enter dir step) steps := rfl

theorem walk_of_stays (root dir : Path) {steps : List String} (h : Stays dir.length steps) :
    walk (root ++ dir) steps = root ++ walk dir steps := by
  induction steps generalizing dir with
  | nil => rfl
  | cons step steps ih =>
    rw [Stays] at h
    rw [walk_cons,walk_cons,enter,enter]
    by_cases hskip : step = "" ∨ step = "."
    · rw [if_pos hskip] at h
      rw [if_pos hskip,if_pos hskip]
      exact ih dir h
    · rw [if_neg hskip] at h
      rw [if_neg hskip,if_neg hskip]
      by_cases hup : step = ".."
      · rw [if_pos hup] at h
        rw [if_pos hup,if_pos hup]
        have hne : dir ≠ [] := List.ne_nil_of_length_pos h.1
        rw [List.dropLast_append_of_ne_nil hne]
        apply ih
        rw [List.length_dropLast]
        exact h.2
      · rw [if_neg hup] at h
        rw [if_neg hup,if_neg hup,List.append_assoc]
        apply ih
        rw [List.length_append]
        exact h

end Path

/-- `char::is_alphanumeric`, which is the usual test on ASCII characters. -/
structure CharClass where
  isAlphanumeric : Char → Bool
  ascii : ∀ c : Char, c.toNat < 128 → isAlphanumeric c = c.isAlphanum

section sanitise

variable (C : CharClass)

def isKept (c : Char) : Bool := C.isAlphanumeric c || c = '-' || c = '.' || c = '_'

def sanitiseChar (c : Char) : Char := if isKept C c then c else '_'

def sanitise (component : String) : String :=
  String.ofList (component.toList.map (sanitiseChar C))

/-- Replaced by an underscore, or an underscore itself. -/
def Blurred (c : Char) : Prop := c = '_' ∨ isKept C c = false

/-- The components differ at most in blurred characters. -/
def Lookalike (a b : String) : Prop :=
  List.Forall₂ (fun c d => c = d ∨ (Blurred C c ∧ Blurred C d)) a.toList b.toList

variable {C}

theorem sanitiseChar_eq_iff (c d : Char) :
    sanitiseChar C c = sanitiseChar C d ↔ c = d ∨ (Blurred C c ∧ Blurred C d) := by
  have hmark : isKept C '_' = true := by simp [isKept]
  unfold sanitiseChar Blurred
  by_cases hc : isKept C c = true
  · by_cases hd : isKept C d = true
    · simp only [hc,hd,if_true,Bool.true_eq_false,or_false]
      constructor
      · exact .inl
      · rintro (h | ⟨rfl,rfl⟩)
        · exact h
        · rfl
    · simp only [hc,hd,if_true,Bool.true_eq_false,or_false]
      constructor
      · exact fun h => .inr ⟨h,.inr (by simp)⟩
      · rintro (rfl | ⟨rfl,-⟩)
        · exact absurd hc hd
        · simp
  · by_cases hd : isKept C d = true
    · simp only [hc,hd,if_true,Bool.true_eq_false,or_false]
      constructor
      · exact fun h => .inr ⟨.inr (by simp),by simpa using h.symm⟩
      · rintro (rfl | ⟨-,rfl⟩)
        · exact absurd hd hc
        · simp
    · simp [hc,hd]

theorem sanitise_eq_iff (a b : String) : sanitise C a = sanitise C b ↔ Lookalike C a b := by
  rw [sanitise,sanitise,Lookalike]
  have hrel : (fun c d => c = d ∨ (Blurred C c ∧ Blurred C d)) =
      fun c d => sanitiseChar C c = sanitiseChar C d := by
    funext c d
    exact propext (sanitiseChar_eq_iff c d).symm
  have hmap : List.Forall₂ (fun c d => sanitiseChar C c = sanitiseChar C d) a.toList b.toList ↔
      a.toList.map (sanitiseChar C) = b.toList.map (sanitiseChar C) := by
    rw [← List.forall₂_eq_eq_eq,List.forall₂_map_left_iff,List.forall₂_map_right_iff]
  rw [hrel,hmap]
  constructor
  · exact fun h => String.ofList_injective h
  · exact fun h => congrArg String.ofList h

theorem sanitise_of_kept {s : String} (h : ∀ c ∈ s.toList, isKept C c = true) :
    sanitise C s = s := by
  have hmap : s.toList.map (sanitiseChar C) = s.toList.map id :=
    List.map_congr_left fun c hc => if_pos (h c hc)
  rw [sanitise,hmap,List.map_id,String.ofList_toList]

theorem sanitiseChar_eq_dot (c : Char) : sanitiseChar C c = '.' ↔ c = '.' := by
  have hdot : sanitiseChar C '.' = '.' := by simp [sanitiseChar,isKept]
  constructor
  · intro h
    rcases (sanitiseChar_eq_iff c '.').mp (h.trans hdot.symm) with h | ⟨-,h | h⟩
    · exact h
    · cases h
    · simp [isKept] at h
  · rintro rfl
    exact hdot

/-- A component of dots is kept, and no other becomes one. -/
theorem sanitise_eq_dots {s d : String} (h : ∀ c ∈ d.toList, c = '.') :
    sanitise C s = d ↔ s = d := by
  constructor
  · rintro rfl
    symm
    apply sanitise_of_kept
    intro c hc
    have hdot : sanitiseChar C c = '.' := by
      apply h
      rw [sanitise,String.toList_ofList]
      exact List.mem_map_of_mem hc
    rw [(sanitiseChar_eq_dot c).mp hdot]
    simp [isKept]
  · rintro rfl
    apply sanitise_of_kept
    intro c hc
    rw [h c hc]
    simp [isKept]

theorem sanitise_eq_empty (s : String) : sanitise C s = "" ↔ s = "" := sanitise_eq_dots (by simp)

theorem sanitise_eq_here (s : String) : sanitise C s = "." ↔ s = "." := sanitise_eq_dots (by simp)

theorem sanitise_eq_up (s : String) : sanitise C s = ".." ↔ s = ".." := sanitise_eq_dots (by simp)

/-- Sanitising the components does not change how a walk resolves. -/
theorem stays_sanitise (depth : ℕ) (steps : List String) :
    Path.Stays depth (steps.map (sanitise C)) ↔ Path.Stays depth steps := by
  induction steps generalizing depth with
  | nil => rfl
  | cons step steps ih =>
    rw [List.map_cons,Path.Stays,Path.Stays]
    simp only [sanitise_eq_empty,sanitise_eq_here,sanitise_eq_up,ih]

theorem walk_sanitise (dir : Path) (steps : List String) :
    Path.walk (dir.map (sanitise C)) (steps.map (sanitise C)) =
      (Path.walk dir steps).map (sanitise C) := by
  induction steps generalizing dir with
  | nil => rfl
  | cons step steps ih =>
    have henter : Path.enter (dir.map (sanitise C)) (sanitise C step) =
        (Path.enter dir step).map (sanitise C) := by
      simp only [Path.enter,sanitise_eq_empty,sanitise_eq_here,sanitise_eq_up]
      split_ifs
      · rfl
      · exact List.map_dropLast.symm
      · simp
    rw [List.map_cons,Path.walk_cons,Path.walk_cons,henter]
    exact ih (Path.enter dir step)

end sanitise

/-- A URL that some module source is normalised to. -/
structure GitUrl where
  url : Rope
  normalized : ∃ source, GitRefs.normalizeGitUrl source = some url

inductive Registry
  | terraform | openTofu
  deriving DecidableEq

def Registry.label : Registry → String
  | .terraform => "terraform"
  | .openTofu => "opentofu"

/-- Where the environment puts caches. -/
structure CacheHome where
  xdgCacheHome : Option Path
  home : Option Path

def CacheHome.cacheRoot (env : CacheHome) (cache : String) : Path :=
  match env.xdgCacheHome with
  | some dir => dir ++ ["terraform-ls-rs",cache]
  | none =>
    match env.home with
    | some home => home ++ [".cache","terraform-ls-rs",cache]
    | none => ["tmp","terraform-ls-rs",cache]

theorem CacheHome.cacheRoot_ne_nil (env : CacheHome) (cache : String) :
    env.cacheRoot cache ≠ [] := by
  unfold CacheHome.cacheRoot
  cases env.xdgCacheHome with
  | some dir => simp
  | none => cases env.home <;> simp

section paths

variable (C : CharClass) (env : CacheHome)

namespace GitRefs

def cacheRoot : Path := env.cacheRoot "git-refs"

def cachePath (url : Rope) : Path :=
  (cacheRoot env).walk [sanitise C (String.ofList url),"tags.json"]

end GitRefs

namespace RegistryVersions

def cacheRoot : Path := env.cacheRoot "registry-versions"

def versionsCachePath (registry namespace_ name : String) : Path :=
  (cacheRoot env).walk
    [sanitise C registry,sanitise C namespace_,sanitise C name,"versions.json"]

def moduleVersionsCachePath (registry namespace_ name provider : String) : Path :=
  (cacheRoot env).walk ["modules",sanitise C registry,sanitise C namespace_,sanitise C name,
    sanitise C provider,"versions.json"]

def providerDatesCachePath (namespace_ name : String) : Path :=
  (cacheRoot env).walk ["dates",sanitise C namespace_,sanitise C name,"dates.json"]

def opentofuDatesCachePath (namespace_ name : String) : Path :=
  (cacheRoot env).walk ["dates-opentofu",sanitise C namespace_,sanitise C name,"dates.json"]

end RegistryVersions
end paths

/-- What is cached. -/
inductive CacheKey
  | repoTags (url : GitUrl)
  | providerVersions (registry : Registry) (namespace_ name : String)
  | providerDates (namespace_ name : String)
  | opentofuDates (namespace_ name : String)
  | moduleVersions (registry : Registry) (namespace_ name provider : String)

namespace CacheKey

variable (C : CharClass) (env : CacheHome)

def root : CacheKey → Path
  | .repoTags _ => GitRefs.cacheRoot env
  | _ => RegistryVersions.cacheRoot env

def file : CacheKey → Path
  | .repoTags url => GitRefs.cachePath C env url.url
  | .providerVersions registry namespace_ name =>
    RegistryVersions.versionsCachePath C env registry.label namespace_ name
  | .providerDates namespace_ name =>
    RegistryVersions.providerDatesCachePath C env namespace_ name
  | .opentofuDates namespace_ name =>
    RegistryVersions.opentofuDatesCachePath C env namespace_ name
  | .moduleVersions registry namespace_ name provider =>
    RegistryVersions.moduleVersionsCachePath C env registry.label namespace_ name provider

/-- The components below the root, as the key has them. -/
def dirs : CacheKey → List String
  | .repoTags url => [String.ofList url.url]
  | .providerVersions registry namespace_ name => [registry.label,namespace_,name]
  | .providerDates namespace_ name => ["dates",namespace_,name]
  | .opentofuDates namespace_ name => ["dates-opentofu",namespace_,name]
  | .moduleVersions registry namespace_ name provider =>
    ["modules",registry.label,namespace_,name,provider]

def fileName : CacheKey → String
  | .repoTags _ => "tags.json"
  | .providerDates _ _ | .opentofuDates _ _ => "dates.json"
  | .providerVersions _ _ _ | .moduleVersions _ _ _ _ => "versions.json"

/-- Every component that the user chooses is a double dot. -/
def Escapes : CacheKey → Prop
  | .repoTags _ => False
  | .providerVersions _ namespace_ name | .providerDates namespace_ name
  | .opentofuDates namespace_ name => namespace_ = ".." ∧ name = ".."
  | .moduleVersions _ namespace_ name provider =>
    namespace_ = ".." ∧ name = ".." ∧ provider = ".."

variable {C} {env}

theorem sanitise_word {w : String}
    (h : w.toList.all (fun c => c.toNat < 128 && (c.isAlphanum || c = '-')) = true) :
    sanitise C w = w := by
  apply sanitise_of_kept
  intro c hc
  have hchar := List.all_eq_true.mp h c hc
  simp only [Bool.and_eq_true,Bool.or_eq_true,decide_eq_true_eq] at hchar
  simp only [isKept,Bool.or_eq_true,decide_eq_true_eq]
  rcases hchar with ⟨hascii,halpha | hdash⟩
  · left; left; left
    rw [C.ascii c hascii]
    exact halpha
  · left; left; right
    exact hdash

theorem fileName_normal (key : CacheKey) (dir : Path) :
    dir.enter key.fileName = dir ++ [key.fileName] := by
  cases key <;> rfl

theorem file_eq (key : CacheKey) : key.file C env =
    (key.root env).walk (key.dirs.map (sanitise C)) ++ [key.fileName] := by
  rw [← fileName_normal]
  cases key with
  | repoTags url => rfl
  | providerVersions registry namespace_ name => rfl
  | providerDates namespace_ name =>
    simp only [dirs,List.map_cons,sanitise_word (w:="dates") rfl]
    rfl
  | opentofuDates namespace_ name =>
    simp only [dirs,List.map_cons,sanitise_word (w:="dates-opentofu") rfl]
    rfl
  | moduleVersions registry namespace_ name provider =>
    simp only [dirs,List.map_cons,sanitise_word (w:="modules") rfl]
    rfl

theorem root_ne_nil (key : CacheKey) : key.root env ≠ [] := by
  cases key <;> exact env.cacheRoot_ne_nil _

theorem label_cases (registry : Registry) :
    registry.label ≠ "" ∧ registry.label ≠ "." ∧ registry.label ≠ ".." := by
  cases registry <;> decide

/-- A normalised URL is no empty component, and no dots. -/
theorem url_cases (url : GitUrl) : String.ofList url.url ≠ "" ∧ String.ofList url.url ≠ "." ∧
    String.ofList url.url ≠ ".." := by
  obtain ⟨source,hsource⟩ := url.normalized
  have hcolon := GitRefs.colon_of_normalized hsource
  have hne : ∀ s : String, ':' ∉ s.toList → String.ofList url.url ≠ s := by
    rintro s hs rfl
    apply hs
    rw [String.toList_ofList]
    exact hcolon
  exact ⟨hne "" (by decide),hne "." (by decide),hne ".." (by decide)⟩

theorem stays_cons {step : String} (hstep : step ≠ "" ∧ step ≠ "." ∧ step ≠ "..") (depth : ℕ)
    (steps : List String) : Path.Stays depth (step :: steps) ↔ Path.Stays (depth+1) steps := by
  rw [Path.Stays,if_neg (by tauto),if_neg hstep.2.2]

/-- A component that is no double dot leads nowhere up. -/
theorem stays_of_ne {step : String} (hstep : step ≠ "..") {depth : ℕ} {steps : List String}
    (h : Path.Stays depth steps) (h' : Path.Stays (depth+1) steps) :
    Path.Stays depth (step :: steps) := by
  rw [Path.Stays]
  by_cases hskip : step = "" ∨ step = "."
  · rw [if_pos hskip]
    exact h
  · rw [if_neg hskip,if_neg hstep]
    exact h'

theorem stays_up (depth : ℕ) (steps : List String) :
    Path.Stays (depth+1) (".." :: steps) ↔ Path.Stays depth steps := by
  rw [Path.Stays,if_neg (by decide),if_pos rfl]
  simp

/-- As many components as there are directories to go up. -/
theorem stays_of_le {steps : List String} {depth : ℕ} (h : steps.length ≤ depth) :
    Path.Stays depth steps := by
  induction steps generalizing depth with
  | nil => trivial
  | cons step steps ih =>
    rw [List.length_cons] at h
    by_cases hstep : step = ".."
    · obtain ⟨d,rfl⟩ := Nat.exists_eq_add_of_le' (show 1 ≤ depth by omega)
      rw [hstep,stays_up]
      exact ih (by omega)
    · exact stays_of_ne hstep (ih (by omega)) (ih (by omega))

/-- One component more than that leads out only when they all go up. -/
theorem stays_iff {steps : List String} {depth : ℕ} (h : steps.length = depth+1) :
    Path.Stays depth steps ↔ ¬∀ step ∈ steps, step = ".." := by
  induction steps generalizing depth with
  | nil => simp at h
  | cons step steps ih =>
    rw [List.length_cons] at h
    rw [List.forall_mem_cons]
    by_cases hstep : step = ".."
    · cases depth with
      | zero =>
        have hnil : steps = [] := List.length_eq_zero_iff.mp (by omega)
        rw [hstep,hnil,Path.Stays,if_neg (by decide),if_pos rfl]
        simp
      | succ depth =>
        rw [hstep,stays_up,ih (by omega)]
        simp
    · have hrest : Path.Stays depth steps := stays_of_le (by omega)
      have hstays := stays_of_ne hstep hrest (stays_of_le (by omega))
      simp [hstep,hstays]

theorem stays_dirs (key : CacheKey) : Path.Stays 0 key.dirs ↔ ¬key.Escapes := by
  cases key with
  | repoTags url =>
    rw [dirs,stays_cons (url_cases url)]
    simp [Path.Stays,Escapes]
  | providerVersions registry namespace_ name =>
    rw [dirs,stays_cons (label_cases registry),stays_iff rfl]
    simp [Escapes]
  | providerDates namespace_ name =>
    rw [dirs,stays_cons (by decide),stays_iff rfl]
    simp [Escapes]
  | opentofuDates namespace_ name =>
    rw [dirs,stays_cons (by decide),stays_iff rfl]
    simp [Escapes]
  | moduleVersions registry namespace_ name provider =>
    rw [dirs,stays_cons (by decide),stays_cons (label_cases registry),stays_iff rfl]
    simp [Escapes]

/-- A key that does not escape has its file below the root, where its resolved components say. -/
theorem file_of_inside {key : CacheKey} (h : ¬key.Escapes) : key.file C env =
    key.root env ++ (Path.walk [] key.dirs).map (sanitise C) ++ [key.fileName] := by
  have hstays : Path.Stays ([] : Path).length (key.dirs.map (sanitise C)) := by
    rw [stays_sanitise]
    exact (stays_dirs key).mpr h
  have hwalk := Path.walk_of_stays (key.root env) [] hstays
  have hsanitise := walk_sanitise (C:=C) [] key.dirs
  rw [List.append_nil] at hwalk
  rw [List.map_nil] at hsanitise
  rw [file_eq,hwalk,hsanitise]

theorem enter_up (dir : Path) : Path.enter dir ".." = dir.dropLast := by
  rw [Path.enter,if_neg (by decide),if_pos rfl]

theorem enter_normal (dir : Path) {step : String}
    (hstep : step ≠ "" ∧ step ≠ "." ∧ step ≠ "..") : Path.enter dir step = dir ++ [step] := by
  rw [Path.enter,if_neg (by tauto),if_neg hstep.2.2]

/-- Down one component and up two. -/
theorem walk_down_up (dir : Path) {step : String}
    (hstep : step ≠ "" ∧ step ≠ "." ∧ step ≠ "..") :
    Path.walk dir [step,"..",".."] = dir.dropLast := by
  rw [Path.walk_cons,Path.walk_cons,Path.walk_cons,Path.walk_nil,enter_normal dir hstep,enter_up,
    enter_up,List.dropLast_concat]

/-- The file of a key that escapes is beside the root. -/
theorem file_of_escapes {key : CacheKey} (h : key.Escapes) : (key.file C env).dropLast =
    (key.root env).dropLast := by
  have hup : sanitise C ".." = ".." := (sanitise_eq_up "..").mpr rfl
  have hlabel : ∀ registry : Registry, sanitise C registry.label = registry.label := by
    intro registry
    cases registry <;> exact sanitise_word rfl
  rw [file_eq,List.dropLast_concat]
  cases key with
  | repoTags url => cases h
  | providerVersions registry namespace_ name =>
    obtain ⟨rfl,rfl⟩ := h
    simp only [dirs,List.map_cons,List.map_nil,hup,hlabel]
    exact walk_down_up _ (label_cases registry)
  | providerDates namespace_ name =>
    obtain ⟨rfl,rfl⟩ := h
    simp only [dirs,List.map_cons,List.map_nil,hup,sanitise_word (w:="dates") rfl]
    exact walk_down_up _ (by decide)
  | opentofuDates namespace_ name =>
    obtain ⟨rfl,rfl⟩ := h
    simp only [dirs,List.map_cons,List.map_nil,hup,sanitise_word (w:="dates-opentofu") rfl]
    exact walk_down_up _ (by decide)
  | moduleVersions registry namespace_ name provider =>
    obtain ⟨rfl,rfl,rfl⟩ := h
    simp only [dirs,List.map_cons,List.map_nil,hup,hlabel,sanitise_word (w:="modules") rfl]
    rw [Path.walk_cons,enter_normal _ (by decide),Path.walk_cons,
      enter_normal _ (label_cases registry),Path.walk_cons,Path.walk_cons,Path.walk_cons,
      Path.walk_nil,enter_up,enter_up,enter_up,List.dropLast_concat,List.dropLast_concat]

theorem under_iff (key : CacheKey) :
    Path.Under (key.root env) (key.file C env) ↔ ¬key.Escapes := by
  rw [Path.Under]
  constructor
  · intro hunder hescapes
    rw [file_of_escapes hescapes] at hunder
    have hlength := hunder.length_le
    have hne : key.root env ≠ [] := root_ne_nil key
    have hpos := List.length_pos_of_ne_nil hne
    rw [List.length_dropLast] at hlength
    omega
  · intro h
    rw [file_of_inside h,List.dropLast_concat]
    exact List.prefix_append _ _

/-- The two keys differ at most in blurred characters, once empty and dot components are dropped
and double dots resolved. -/
def Alike (C : CharClass) (key key' : CacheKey) : Prop :=
  key.fileName = key'.fileName ∧
    List.Forall₂ (Lookalike C) (Path.walk [] key.dirs) (Path.walk [] key'.dirs)

/-- Only tags are kept under the other root. -/
theorem root_eq_of_fileName {key key' : CacheKey} (h : key.fileName = key'.fileName) :
    key.root env = key'.root env := by
  cases key <;> cases key' <;> first | rfl | (simp [fileName] at h)

theorem map_sanitise_eq_iff (a b : List String) :
    a.map (sanitise C) = b.map (sanitise C) ↔ List.Forall₂ (Lookalike C) a b := by
  have hrel : Lookalike C = fun a b => sanitise C a = sanitise C b := by
    funext a b
    exact propext (sanitise_eq_iff a b).symm
  rw [hrel,← List.forall₂_eq_eq_eq,List.forall₂_map_left_iff,List.forall₂_map_right_iff]

/-- Two keys share a file when they are alike. -/
theorem file_eq_iff {key key' : CacheKey} (h : ¬key.Escapes) (h' : ¬key'.Escapes) :
    key.file C env = key'.file C env ↔ Alike C key key' := by
  rw [file_of_inside h,file_of_inside h',Alike,← map_sanitise_eq_iff]
  constructor
  · intro heq
    obtain ⟨hdir,hname⟩ := List.append_inj' heq rfl
    have hfile : key.fileName = key'.fileName := by simpa using hname
    rw [root_eq_of_fileName hfile] at hdir
    exact ⟨hfile,List.append_cancel_left hdir⟩
  · rintro ⟨hfile,hdirs⟩
    rw [hfile,hdirs,root_eq_of_fileName hfile]

end CacheKey
end TerraformLs
