import Mathlib.Data.List.DropRight
import TerraformLs.Rope

/-! Git module sources and the URL they are normalised to, which always holds a
colon, and the tags that `git ls-remote` lists. -/
namespace TerraformLs
namespace GitRefs

/-- The white space of Unicode. -/
def isWhitespace (c : Char) : Bool :=
  let n := c.toNat
  (9 ≤ n && n ≤ 13) || n = 32 || n = 133 || n = 160 || n = 5760 || (8192 ≤ n && n ≤ 8202) ||
    n = 8232 || n = 8233 || n = 8239 || n = 8287 || n = 12288

def trim (s : Rope) : Rope := (s.dropWhile isWhitespace).rdropWhile isWhitespace

def stripPrefix (start s : Rope) : Option Rope :=
  if start.isPrefixOf s then some (s.drop start.length) else none

/-- Where a text first occurs in another. -/
def find (pattern : Rope) : Rope → Option ℕ
  | [] => if pattern = [] then some 0 else none
  | c::s => if pattern.isPrefixOf (c::s) then some 0 else (find pattern s).map (·+1)

theorem find_spec {pattern s : Rope} {i : ℕ} (h : find pattern s = some i) :
    pattern <+: s.drop i := by
  induction s generalizing i with
  | nil =>
    rw [find] at h
    split_ifs at h with hempty
    rw [hempty]
    exact List.nil_prefix
  | cons c s ih =>
    rw [find] at h
    split_ifs at h with hprefix
    · cases h
      exact List.isPrefixOf_iff_prefix.mp hprefix
    · obtain ⟨j,hj,rfl⟩ := Option.map_eq_some_iff.mp h
      exact ih hj

def schemeMark : Rope := "://".toList

/-- The `//subdir` of a module is cut off, after the scheme if there is one. -/
def stripSubdir (s : Rope) : Rope :=
  let schemeEnd := ((find schemeMark s).map (·+3)).getD 0
  match find "//".toList (s.drop schemeEnd) with
  | some rel => s.take (schemeEnd+rel)
  | none => s

/-- `user@host:path`. -/
def isScp (s : Rope) : Bool :=
  match find [':'] s with
  | some colon => '@' ∈ s.take colon && '/' ∉ s.take colon
  | none => false

def normalizeGitUrl (source : String) : Option Rope :=
  let s := trim source.toList
  let s := trim ((stripPrefix "git::".toList s).getD s)
  let s := s.takeWhile fun c => c ≠ '?' && c ≠ '#'
  if s = [] then none else
    let hasScheme := (find schemeMark s).isSome
    let s := (stripSubdir s).rdropWhile (· = '/')
    if s = [] then none else
      if hasScheme then some s else if isScp s then some s else some ("https://".toList ++ s)

theorem mem_rdropWhile {p : Char → Bool} {c : Char} (hc : p c = false) {s : Rope} (h : c ∈ s) :
    c ∈ s.rdropWhile p := by
  rw [List.rdropWhile,List.mem_reverse]
  have hmem : c ∈ s.reverse.takeWhile p ++ s.reverse.dropWhile p := by
    rw [List.takeWhile_append_dropWhile,List.mem_reverse]
    exact h
  refine (List.mem_append.mp hmem).resolve_left fun htake => ?_
  have htrue := List.mem_takeWhile_imp htake
  rw [hc] at htrue
  cases htrue

/-- The scheme stands before the subdirectory. -/
theorem colon_stripSubdir {s : Rope} (h : (find schemeMark s).isSome) : ':' ∈ stripSubdir s := by
  obtain ⟨i,hi⟩ := Option.isSome_iff_exists.mp h
  obtain ⟨rest,hrest⟩ := find_spec hi
  have hs : s = s.take i ++ (schemeMark ++ rest) := by rw [hrest,List.take_append_drop]
  have hcolon : ':' ∈ s.take (i+3) := by
    have hi3 : (s.take (i+3)) = s.take i ++ (s.drop i).take 3 := List.take_add
    rw [hi3,← hrest]
    simp [schemeMark]
  simp only [stripSubdir,hi,Option.map_some,Option.getD_some]
  cases find "//".toList (s.drop (i+3)) with
  | some rel =>
    show ':' ∈ s.take (i+3+rel)
    rw [List.take_add]
    exact List.mem_append_left _ hcolon
  | none => exact List.mem_of_mem_take hcolon

theorem colon_of_scp {s : Rope} (h : isScp s = true) : ':' ∈ s := by
  rw [isScp] at h
  cases hfind : find [':'] s with
  | none => simp [hfind] at h
  | some i =>
    have hstart := find_spec hfind
    exact List.mem_of_mem_drop (hstart.subset List.mem_cons_self)

/-- A normalised URL holds a colon. -/
theorem colon_of_normalized {source : String} {url : Rope} (h : normalizeGitUrl source = some url) :
    ':' ∈ url := by
  rw [normalizeGitUrl] at h
  simp only at h
  split_ifs at h with hempty hend hscheme hscp
  · rw [← Option.some.inj h]
    exact mem_rdropWhile (by decide) (colon_stripSubdir hscheme)
  · rw [← Option.some.inj h]
    exact colon_of_scp hscp
  · rw [← Option.some.inj h]
    simp

end GitRefs
end TerraformLs
