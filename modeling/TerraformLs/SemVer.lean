import Mathlib.Data.Char
import Mathlib.Data.List.DropRight
import Mathlib.Data.List.Lex
import Mathlib.Data.Prod.Lex
import Mathlib.Data.Sum.Order
import Mathlib.Order.WithBot

/-! Semantic versions and their precedence: the numbers of the core first, then a
pre-release before its release, then the identifiers of the pre-release one after
another. Build metadata, everything from the first plus sign on, has no part in it. -/
namespace TerraformLs
namespace SemVer

abbrev Text := List Char

/-- A numeric identifier comes before one that is not. -/
abbrev Identifier := ℕ ⊕ₗ Text

/-- A release is above all of its pre-releases. -/
abbrev Precedence := ℕ ×ₗ ℕ ×ₗ ℕ ×ₗ WithTop (List Identifier)

section reading

def digitsValue (s : Text) : ℕ := s.foldl (fun n c => n*10 + (c.toNat - 48)) 0

def isNumeric (s : Text) : Bool := s ≠ [] && s.all Char.isDigit

def identifier (s : Text) : Identifier :=
  if isNumeric s then Sum.inlₗ (digitsValue s) else Sum.inrₗ s

def withoutBuild (v : Text) : Text := v.takeWhile (· ≠ '+')

def core (v : Text) : Text := (withoutBuild v).takeWhile (· ≠ '-')

/-- What stands behind the first dash before the build metadata. -/
def tag (v : Text) : Option Text := ((withoutBuild v).dropWhile (· ≠ '-')).tail?

def segments (v : Text) : List Text := (core v).splitOn '.'

/-- A missing segment counts as `0`. -/
def segment (v : Text) (i : ℕ) : ℕ := (segments v)[i]?.elim 0 digitsValue

def identifiers (v : Text) : WithTop (List Identifier) :=
  match tag v with
  | none => ⊤
  | some t => ((t.splitOn '.').map identifier : List Identifier)

def precedence (v : Text) : Precedence :=
  toLex (segment v 0,toLex (segment v 1,toLex (segment v 2,identifiers v)))

def compareVersions (a b : Text) : Ordering := cmp (precedence a) (precedence b)

/-- The tag of a pre-release. -/
def IsPreRelease (v : Text) : Prop := (tag v).isSome

instance (v : Text) : Decidable (IsPreRelease v) := inferInstanceAs (Decidable (_ = true))

def SameCore (a b : Text) : Prop :=
  segment a 0 = segment b 0 ∧ segment a 1 = segment b 1 ∧ segment a 2 = segment b 2

instance (a b : Text) : Decidable (SameCore a b) := inferInstanceAs (Decidable (_ ∧ _))

end reading

section writing

/-- The version with these segments and identifiers. -/
def write (segs : List Text) : Option (List Text) → Text
  | none => ['.'].intercalate segs
  | some idents => ['.'].intercalate segs ++ '-' :: ['.'].intercalate idents

/-- The segments are digits, and the identifiers hold no dot and no plus sign. -/
structure Writable (segs idents : List Text) : Prop where
  segs : segs ≠ [] ∧ ∀ seg ∈ segs, isNumeric seg
  idents : ∀ ident ∈ idents, '.' ∉ ident ∧ '+' ∉ ident

theorem mem_intercalate {sep x : Char} {ls : List Text} (h : x ∈ [sep].intercalate ls) :
    x = sep ∨ ∃ l ∈ ls, x ∈ l := by
  induction ls with
  | nil => simp at h
  | cons l ls ih =>
    cases ls with
    | nil => exact .inr ⟨l,by simp,by simpa using h⟩
    | cons l' ls =>
      rw [List.intercalate_cons_cons,List.append_assoc,List.mem_append,List.mem_append] at h
      rcases h with h | h | h
      · exact .inr ⟨l,by simp,h⟩
      · exact .inl (List.mem_singleton.mp h)
      · rcases ih h with h | ⟨m,hm,hx⟩
        · exact .inl h
        · exact .inr ⟨m,List.mem_cons_of_mem l hm,hx⟩

theorem not_mem_of_isNumeric {s : Text} (h : isNumeric s) {c : Char} (hc : c.isDigit = false) :
    c ∉ s := by
  intro hmem
  simp only [isNumeric,ne_eq,Bool.and_eq_true,List.all_eq_true] at h
  rw [h.2 c hmem] at hc
  cases hc

theorem not_mem_core {segs : List Text} (h : ∀ seg ∈ segs, isNumeric seg) {c : Char}
    (hc : c.isDigit = false) (hdot : c ≠ '.') : c ∉ ['.'].intercalate segs := by
  intro hmem
  rcases mem_intercalate hmem with h' | ⟨seg,hseg,hx⟩
  · exact hdot h'
  · exact not_mem_of_isNumeric (h seg hseg) hc hx

theorem takeWhile_append_not_mem {x : Char} {a b : Text} (ha : x ∉ a) :
    (a ++ b).takeWhile (· ≠ x) = a ++ b.takeWhile (· ≠ x) := by
  apply List.takeWhile_append_of_pos
  intro c hc
  have hne : c ≠ x := fun h => ha (h ▸ hc)
  simpa using hne

theorem dropWhile_append_not_mem {x : Char} {a b : Text} (ha : x ∉ a) :
    (a ++ b).dropWhile (· ≠ x) = b.dropWhile (· ≠ x) := by
  apply List.dropWhile_append_of_pos
  intro c hc
  have hne : c ≠ x := fun h => ha (h ▸ hc)
  simpa using hne

theorem takeWhile_not_mem {x : Char} {a : Text} (ha : x ∉ a) : a.takeWhile (· ≠ x) = a := by
  simpa using takeWhile_append_not_mem (b:=[]) ha

/-- Without its characters up to the first `x`, a text is empty or begins with it. -/
theorem dropWhile_ne (x : Char) (v : Text) :
    (v.dropWhile (· ≠ x) = [] ∧ x ∉ v) ∨ ∃ rest, v.dropWhile (· ≠ x) = x :: rest := by
  induction v with
  | nil => exact .inl ⟨rfl,List.not_mem_nil⟩
  | cons c v ih =>
    by_cases hc : c = x
    · subst hc
      exact .inr ⟨v,by simp⟩
    · have hdrop : (c :: v).dropWhile (· ≠ x) = v.dropWhile (· ≠ x) := by simp [hc]
      rw [hdrop]
      refine ih.imp_left fun h => ⟨h.1,?_⟩
      simp [h.2,Ne.symm hc]

theorem withoutBuild_write {segs : List Text} {tag : Option (List Text)}
    (h : Writable segs (tag.getD [])) : withoutBuild (write segs tag) = write segs tag := by
  apply takeWhile_not_mem
  have hcore := not_mem_core h.segs.2 (c := '+') (by decide) (by decide)
  cases tag with
  | none => exact hcore
  | some idents =>
    rw [write,List.mem_append,List.mem_cons,not_or,not_or]
    refine ⟨hcore,by decide,fun hmem => ?_⟩
    rcases mem_intercalate hmem with h' | ⟨ident,hident,hx⟩
    · exact absurd h' (by decide)
    · exact (h.idents ident hident).2 hx

theorem core_write {segs : List Text} {tag : Option (List Text)}
    (h : Writable segs (tag.getD [])) : core (write segs tag) = ['.'].intercalate segs := by
  have hcore := not_mem_core h.segs.2 (c := '-') (by decide) (by decide)
  rw [core,withoutBuild_write h]
  cases tag with
  | none => exact takeWhile_not_mem hcore
  | some idents =>
    rw [write,takeWhile_append_not_mem hcore]
    simp

theorem tag_write {segs : List Text} {tag : Option (List Text)}
    (h : Writable segs (tag.getD [])) :
    SemVer.tag (write segs tag) = tag.map fun idents => ['.'].intercalate idents := by
  have hcore := not_mem_core h.segs.2 (c := '-') (by decide) (by decide)
  rw [SemVer.tag,withoutBuild_write h]
  cases tag with
  | none =>
    rw [write,← List.append_nil (['.'].intercalate segs),dropWhile_append_not_mem hcore]
    rfl
  | some idents =>
    rw [write,dropWhile_append_not_mem hcore]
    simp

theorem segments_write {segs : List Text} {tag : Option (List Text)}
    (h : Writable segs (tag.getD [])) : segments (write segs tag) = segs := by
  rw [segments,core_write h]
  refine List.splitOn_intercalate '.' (fun seg hseg => ?_) h.segs.1
  exact not_mem_of_isNumeric (h.segs.2 seg hseg) (by decide)

/-- A piece of a split holds no separator, and nothing that the text does not. -/
theorem mem_splitOn {x : Char} {t piece : Text} (h : piece ∈ t.splitOn x) :
    x ∉ piece ∧ piece ⊆ t := by
  induction t generalizing piece with
  | nil =>
    rw [List.splitOn_eq_singleton List.not_mem_nil,List.mem_singleton] at h
    simp [h]
  | cons c t ih =>
    rw [List.splitOn_cons_eq_if_modifyHead] at h
    split_ifs at h with hc
    · rcases List.mem_cons.mp h with rfl | h
      · simp
      · exact ⟨(ih h).1,fun y hy => List.mem_cons_of_mem c ((ih h).2 hy)⟩
    · obtain ⟨first,rest,hsplit⟩ := List.exists_cons_of_ne_nil (List.splitOn_ne_nil x t)
      rw [hsplit,List.modifyHead_cons] at h
      have hne : x ≠ c := fun hxc => hc (by simp [hxc])
      rcases List.mem_cons.mp h with rfl | h
      · have hfirst := ih (hsplit ▸ List.mem_cons_self)
        refine ⟨by simp [hne,hfirst.1],?_⟩
        exact List.cons_subset_cons c hfirst.2
      · have hpiece := ih (hsplit ▸ List.mem_cons_of_mem first h)
        exact ⟨hpiece.1,fun y hy => List.mem_cons_of_mem c (hpiece.2 hy)⟩

theorem plus_not_mem_tag {v t : Text} (h : tag v = some t) : '+' ∉ t := by
  intro hmem
  have htail : t <:+ (withoutBuild v).dropWhile (· ≠ '-') := by
    rw [tag] at h
    cases hdrop : (withoutBuild v).dropWhile (· ≠ '-') with
    | nil => rw [hdrop] at h; cases h
    | cons c rest =>
      rw [hdrop] at h
      cases h
      exact List.suffix_cons c _
  have hbuild : '+' ∈ withoutBuild v :=
    (List.dropWhile_suffix _).subset (htail.subset hmem)
  simpa using List.mem_takeWhile_imp hbuild

theorem append_lt_append_iff {α : Type} [LinearOrder α] {front l l' : List α} :
    front ++ l < front ++ l' ↔ l < l' := by
  induction front with
  | nil => simp
  | cons x front ih => rw [List.cons_append,List.cons_append,List.cons_lt_cons_self,ih]

theorem splitOn_identifiers {idents : List Text} (h : ∀ ident ∈ idents, '.' ∉ ident)
    (hne : idents ≠ []) : (['.'].intercalate idents).splitOn '.' = idents :=
  List.splitOn_intercalate '.' h hne

end writing
end SemVer
end TerraformLs
