import Mathlib.Data.List.Sort
import Mathlib.Data.Prod.Lex
import Mathlib.Data.String.Basic
import TerraformLs.CacheKeys

/-! What the disk caches hold: the tags of a repository, the versions that a
registry lists, and the dates they were published at. -/
namespace TerraformLs

structure TagEntry where
  name : String
  commitSha : String

namespace GitRefs

abbrev RepoTags := List TagEntry

def splitWhitespace (line : Rope) : List Rope := (line.splitOnP isWhitespace).filter (· ≠ [])

def stripSuffix (suffix s : Rope) : Option Rope :=
  if suffix.isSuffixOf s then some (s.take (s.length - suffix.length)) else none

/-- The peeled commit of an annotated tag is kept over the tag object. -/
def insertTag (map : KeyedMap String (String × Bool)) (line : Rope) :
    KeyedMap String (String × Bool) :=
  match splitWhitespace line with
  | sha::refname::_ =>
    match stripPrefix "refs/tags/".toList refname with
    | some rest =>
      let peeled := (stripSuffix "^\x7b\x7d".toList rest).isSome
      let name := String.ofList ((stripSuffix "^\x7b\x7d".toList rest).getD rest)
      match map.lookup name with
      | some (_,true) => map
      | _ => map.insert name (String.ofList sha,peeled)
    | none => map
  | _ => map

/-- A carriage return at the end of a line is white space, and an empty line has no parts. -/
def parseLsRemoteTags (stdout : String) : RepoTags :=
  let map := (stdout.toList.splitOn '\n').foldl insertTag ∅
  (map.entries.map fun e => (⟨e.1,e.2.1⟩ : TagEntry)).mergeSort fun a b => a.name ≤ b.name

end GitRefs

structure VersionInfo where
  version : String
  registries : List Registry
  publishedAt : Option String

namespace RegistryVersions

def parseDigits (s : Rope) : Option ℤ :=
  if s ≠ [] && s.all Char.isDigit then some (s.foldl (fun n c => n*10 + (c.toNat - 48)) 0)
  else none

/-- `str::parse::<i64>`. -/
def parseI64 (s : Rope) : Option ℤ :=
  let n := match s with
    | '-' :: s => (parseDigits s).map fun n => -n
    | '+' :: s => parseDigits s
    | s => parseDigits s
  n.filter fun n => -2^63 ≤ n && n < 2^63

/-- `str::split_once`. -/
def splitOnce (c : Char) (s : Rope) : Rope × Option Rope :=
  (s.takeWhile (· ≠ c),(s.dropWhile (· ≠ c)).tail?)

/-- A text that does not begin with a number comes last. -/
def semverKey (v : String) : ℤ ×ₗ ℤ ×ₗ ℤ ×ₗ ℤ ×ₗ String :=
  let (core,pre) := splitOnce '-' v.toList
  let (major,rest) := splitOnce '.' (core.takeWhile (· ≠ '+'))
  let minor := rest.map fun rest => (splitOnce '.' rest).1
  let patch := rest.bind fun rest => (splitOnce '.' rest).2
  match parseI64 major with
  | some major => toLex (major,toLex ((minor.bind parseI64).getD 0,
      toLex ((patch.bind parseI64).getD 0,
        toLex ((if pre.isSome then 0 else 1),String.ofList (pre.getD [])))))
  | none => toLex (-2^63,toLex (0,toLex (0,toLex (0,v))))

/-- A version that is listed already is not listed again. -/
def pushVersion (registries : String → List Registry) (out : List VersionInfo) (v : String) :
    List VersionInfo :=
  if v ∈ out.map VersionInfo.version then out else out ++ [⟨v,registries v,none⟩]

/-- The newest version comes first. -/
def mergeWithProvenance (tf tofu : List String) : List VersionInfo :=
  let out := tf.foldl (pushVersion fun v => if v ∈ tofu then [.terraform,.openTofu] else [.terraform]) []
  let out := tofu.foldl (pushVersion fun _ => [.openTofu]) out
  out.mergeSort fun a b => semverKey b.version ≤ semverKey a.version

abbrev Dates := KeyedMap String String

/-- A date that is known already is kept. -/
def attachDates (versions : List VersionInfo) (dates : Dates) : List VersionInfo :=
  versions.map fun v =>
    if v.publishedAt.isNone then { v with publishedAt := dates.lookup v.version } else v

/-- A listed version comes from the registries it names, and has no date yet. -/
def FromRegistries (tf tofu : List String) (v : VersionInfo) : Prop :=
  v.registries ≠ [] ∧ v.publishedAt = none ∧
    ∀ registry ∈ v.registries, v.version ∈ match registry with
      | .terraform => tf
      | .openTofu => tofu

theorem pushVersion_from {tf tofu : List String} {registries : String → List Registry} {v : String}
    {out : List VersionInfo} (hv : FromRegistries tf tofu ⟨v,registries v,none⟩)
    (hout : ∀ info ∈ out, FromRegistries tf tofu info) :
    ∀ info ∈ pushVersion registries out v, FromRegistries tf tofu info := by
  intro info hinfo
  rw [pushVersion] at hinfo
  split_ifs at hinfo with hseen
  · exact hout info hinfo
  · rcases List.mem_append.mp hinfo with hinfo | hinfo
    · exact hout info hinfo
    · rw [List.mem_singleton.mp hinfo]
      exact hv

theorem pushVersions_from {tf tofu vs : List String} {registries : String → List Registry}
    {out : List VersionInfo} (hvs : ∀ v ∈ vs, FromRegistries tf tofu ⟨v,registries v,none⟩)
    (hout : ∀ info ∈ out, FromRegistries tf tofu info) :
    ∀ info ∈ vs.foldl (pushVersion registries) out, FromRegistries tf tofu info := by
  induction vs generalizing out with
  | nil => exact hout
  | cons v vs ih =>
    rw [List.foldl_cons]
    apply ih (fun w hw => hvs w (List.mem_cons_of_mem v hw))
    exact pushVersion_from (hvs v List.mem_cons_self) hout

theorem mergeWithProvenance_from {tf tofu : List String} :
    ∀ info ∈ mergeWithProvenance tf tofu, FromRegistries tf tofu info := by
  intro info hinfo
  rw [mergeWithProvenance,List.mem_mergeSort] at hinfo
  refine pushVersions_from (fun v hv => ?_) (pushVersions_from (fun v hv => ?_) (by simp)) info hinfo
  · refine ⟨by simp,rfl,fun registry hregistry => ?_⟩
    rw [List.mem_singleton.mp hregistry]
    exact hv
  · by_cases htofu : v ∈ tofu
    · simp only [if_pos htofu]
      refine ⟨by simp,rfl,fun registry _ => ?_⟩
      cases registry with
      | terraform => exact hv
      | openTofu => exact htofu
    · simp only [if_neg htofu]
      refine ⟨by simp,rfl,fun registry hregistry => ?_⟩
      rw [List.mem_singleton.mp hregistry]
      exact hv

/-- Attaching dates changes nothing but missing dates. -/
theorem attachDates_mem {versions : List VersionInfo} {dates : Dates} {info : VersionInfo}
    (h : info ∈ attachDates versions dates) : ∃ v ∈ versions, info.version = v.version ∧
      info.registries = v.registries ∧
      (info.publishedAt = v.publishedAt ∨ info.publishedAt = dates.lookup v.version) := by
  obtain ⟨v,hv,rfl⟩ := List.mem_map.mp h
  refine ⟨v,hv,?_⟩
  split_ifs
  · exact ⟨rfl,rfl,.inr rfl⟩
  · exact ⟨rfl,rfl,.inl rfl⟩

end RegistryVersions
end TerraformLs
