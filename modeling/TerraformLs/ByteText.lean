import TerraformLs.BoundedLoops
import TerraformLs.GitUrls
import TerraformLs.Recovery

/-! Offsets into a text that lie between two of its characters. An offset next to an
ASCII byte does, and so does one at which a text is found. -/
namespace TerraformLs
namespace Rope

open Outcome Loops Recovery

/-- The offset lies between two characters of the text, or at an end of it. -/
def Seam (s : Rope) (i : ℕ) : Prop := ∃ before after, s = before ++ after ∧ lenBytes before = i

variable {s : Rope} {i j : ℕ}

theorem seam_iff : Seam s i ↔ s.onBoundary i = true := by
  constructor
  · rintro ⟨before,after,rfl,rfl⟩
    exact onBoundary_append before after
  · intro h
    obtain ⟨before,after,hs,hi⟩ := prefix_of_onBoundary h
    exact ⟨before,after,hs,hi.symm⟩

theorem Seam.le (h : Seam s i) : i ≤ s.lenBytes := by
  obtain ⟨before,after,rfl,rfl⟩ := h
  rw [lenBytes_append]
  exact Nat.le_add_right _ _

theorem seam_zero (s : Rope) : Seam s 0 := ⟨[],s,rfl,rfl⟩

theorem seam_length (s : Rope) : Seam s s.lenBytes := ⟨s,[],(List.append_nil s).symm,rfl⟩

/-- A slice between two such offsets is what stands between them. -/
theorem slice_safe {ε : Type} (hi : Seam s i) (hj : Seam s j) (hle : i ≤ j) :
    (slice s i j : Outcome ε Rope).Safe fun part => s.At (i,j) part := by
  obtain ⟨a,b,rfl,rfl⟩ := hi
  obtain ⟨c,d,hsplit,rfl⟩ := hj
  rcases List.append_eq_append_iff.mp hsplit with ⟨part,rfl,rfl⟩ | ⟨part,rfl,rfl⟩
  · have hat : At (a ++ (part ++ d)) (lenBytes a,lenBytes (a ++ part)) part :=
      ⟨a,d,rfl,by rw [lenBytes_append]⟩
    exact ⟨part,hat.slice,hat⟩
  · have hzero : part = [] := lenBytes_eq_zero.mp (by rw [lenBytes_append] at hle; omega)
    subst hzero
    have hat : At (c ++ [] ++ b) (lenBytes (c ++ []),lenBytes c) [] :=
      ⟨c,b,by simp,by simp⟩
    exact ⟨[],hat.slice,hat⟩

theorem slice_panics {ε : Type} (h : ¬Seam s i ∨ ¬Seam s j) :
    (slice s i j : Outcome ε Rope) = .panicked := by
  refine if_neg fun hall => ?_
  rcases h with h | h
  · exact h (seam_iff.mpr hall.2.2.1)
  · exact h (seam_iff.mpr hall.2.2.2)

/-- An offset inside of a character is none of these. -/
theorem not_seam_inside {before after : Rope} {c : Char}
    (hlow : lenBytes before < i) (hhigh : i < lenBytes before + c.utf8Size) :
    ¬Seam (before ++ c :: after) i := by
  rintro ⟨x,y,hsplit,rfl⟩
  rcases List.append_eq_append_iff.mp hsplit with ⟨z,rfl,hz⟩ | ⟨z,rfl,hz⟩
  · cases z with
    | nil => simp at hlow
    | cons d z =>
      obtain ⟨rfl,-⟩ := List.cons_eq_cons.mp hz
      simp only [lenBytes_append,lenBytes_cons] at hhigh
      omega
  · rw [lenBytes_append] at hlow
    omega

theorem ascii_of_size {c : Char} {b : UInt8} (hmem : b ∈ String.utf8EncodeChar c)
    (hb : b.toNat < 128) : c.utf8Size = 1 := by
  by_contra hne
  have hbit := high_bit hne b hmem
  rw [BitVec.getLsbD,Nat.testBit_lt_two_pow (by simpa using hb)] at hbit
  cases hbit

/-- An ASCII byte is a character of its own. -/
theorem ascii_split {b : UInt8} (h : (bytes s)[i]? = some b) (hb : b.toNat < 128) :
    ∃ before c after, s = before ++ c :: after ∧ lenBytes before = i ∧ c.utf8Size = 1 := by
  induction s generalizing i with
  | nil => simp at h
  | cons c s ih =>
    rw [bytes_cons] at h
    by_cases hi : i < c.utf8Size
    · rw [List.getElem?_append_left (by simpa using hi)] at h
      have hone := ascii_of_size (List.mem_of_getElem? h) hb
      exact ⟨[],c,s,rfl,by rw [lenBytes_nil]; omega,hone⟩
    · rw [List.getElem?_append_right (by simpa using not_lt.mp hi),
        String.length_utf8EncodeChar] at h
      obtain ⟨before,d,after,rfl,hlen,hone⟩ := ih h
      exact ⟨c :: before,d,after,rfl,by rw [lenBytes_cons,hlen]; omega,hone⟩

theorem seam_ascii {b : UInt8} (h : (bytes s)[i]? = some b) (hb : b.toNat < 128) :
    Seam s i ∧ Seam s (i+1) := by
  obtain ⟨before,c,after,rfl,rfl,hone⟩ := ascii_split h hb
  exact ⟨⟨before,c :: after,rfl,rfl⟩,before ++ [c],after,by simp,by simp [hone]⟩

section searches

/-- Where a text last occurs in another, in characters. -/
def rfind (pattern : Rope) : Rope → Option ℕ
  | [] => if pattern = [] then some 0 else none
  | c::s =>
    match rfind pattern s with
    | some i => some (i+1)
    | none => if pattern.isPrefixOf (c::s) then some 0 else none

theorem rfind_spec {pattern : Rope} (h : rfind pattern s = some i) : pattern <+: s.drop i := by
  induction s generalizing i with
  | nil =>
    rw [rfind] at h
    split_ifs at h with hempty
    rw [hempty]
    exact List.nil_prefix
  | cons c s ih =>
    rw [rfind] at h
    split at h
    · rename_i k hk
      cases h
      exact ih hk
    · split_ifs at h with hprefix
      cases h
      exact List.isPrefixOf_iff_prefix.mp hprefix

/-- `str::find`, in bytes. -/
def findBytes (pattern : String) (s : Rope) : Option ℕ :=
  (GitRefs.find pattern.toList s).map s.charToByte

/-- `str::rfind`, in bytes. -/
def rfindBytes (pattern : String) (s : Rope) : Option ℕ := (rfind pattern.toList s).map s.charToByte

/-- The text occurs at the offset. -/
def Occurs (pattern : Rope) (s : Rope) (i : ℕ) : Prop :=
  ∃ before after, s = before ++ (pattern ++ after) ∧ lenBytes before = i

variable {pattern : Rope}

theorem occurs_at {n : ℕ} (h : pattern <+: s.drop n) : Occurs pattern s (s.charToByte n) := by
  obtain ⟨after,hafter⟩ := h
  exact ⟨s.take n,after,by rw [hafter,List.take_append_drop],rfl⟩

theorem findBytes_occurs {p : String} (h : findBytes p s = some i) : Occurs p.toList s i := by
  obtain ⟨n,hn,rfl⟩ := Option.map_eq_some_iff.mp h
  exact occurs_at (GitRefs.find_spec hn)

theorem rfindBytes_occurs {p : String} (h : rfindBytes p s = some i) : Occurs p.toList s i := by
  obtain ⟨n,hn,rfl⟩ := Option.map_eq_some_iff.mp h
  exact occurs_at (rfind_spec hn)

theorem Occurs.seam (h : Occurs pattern s i) : Seam s i := by
  obtain ⟨before,after,rfl,rfl⟩ := h
  exact ⟨before,pattern ++ after,rfl,rfl⟩

theorem Occurs.seam_after (h : Occurs pattern s i) : Seam s (i + lenBytes pattern) := by
  obtain ⟨before,after,rfl,rfl⟩ := h
  exact ⟨before ++ pattern,after,by simp,lenBytes_append _ _⟩

theorem Occurs.seam_succ {c : Char} (h : Occurs (c :: pattern) s i) (hc : c.utf8Size = 1) :
    Seam s (i+1) := by
  obtain ⟨before,after,rfl,rfl⟩ := h
  exact ⟨before ++ [c],pattern ++ after,by simp,by simp [hc]⟩

theorem Occurs.append_left (h : Occurs pattern s i) (front : Rope) :
    Occurs pattern (front ++ s) (lenBytes front + i) := by
  obtain ⟨before,after,rfl,rfl⟩ := h
  exact ⟨front ++ before,after,by simp,lenBytes_append _ _⟩

theorem Occurs.append_right (h : Occurs pattern s i) (back : Rope) :
    Occurs pattern (s ++ back) i := by
  obtain ⟨before,after,rfl,rfl⟩ := h
  exact ⟨before,after ++ back,by simp,rfl⟩

theorem Occurs.le (h : Occurs pattern s i) : i + lenBytes pattern ≤ lenBytes s := h.seam_after.le

end searches

/-- `str::strip_suffix`. -/
def stripSuffix (suffix : String) (s : Rope) : Option Rope :=
  if suffix.toList <:+ s then some (s.take (s.length - suffix.toList.length)) else none

theorem stripSuffix_eq_some {suffix : String} {r : Rope} :
    stripSuffix suffix s = some r ↔ s = r ++ suffix.toList := by
  rw [stripSuffix]
  constructor
  · intro h
    split_ifs at h with hsuffix
    obtain ⟨t,rfl⟩ := hsuffix
    cases h
    simp
  · rintro rfl
    rw [if_pos (List.suffix_append r _)]
    simp

/-- `&s[i..]`. -/
def sliceFrom (s : Rope) (i : ℕ) : Scan Rope := slice s i s.lenBytes

/-- `&s[..i]`. -/
def sliceTo (s : Rope) (i : ℕ) : Scan Rope := slice s 0 i

theorem sliceFrom_split (h : Seam s i) :
    (sliceFrom s i).Safe fun part => ∃ front, s = front ++ part ∧ lenBytes front = i := by
  refine (slice_safe h (seam_length s) h.le).imp fun part hat => ?_
  obtain ⟨front,after,hs,hspan⟩ := hat
  obtain ⟨hfront,hback⟩ := Prod.mk.inj hspan
  have hafter : after = [] := lenBytes_eq_zero.mp (by
    rw [hs] at hback
    simp only [lenBytes_append] at hback
    omega)
  exact ⟨front,by rw [hs,hafter,List.append_nil],hfront.symm⟩

theorem sliceTo_split (h : Seam s i) :
    (sliceTo s i).Safe fun part => ∃ after, s = part ++ after ∧ lenBytes part = i := by
  refine (slice_safe (seam_zero s) h (Nat.zero_le i)).imp fun part hat => ?_
  obtain ⟨front,after,hs,hspan⟩ := hat
  obtain ⟨hfront,hback⟩ := Prod.mk.inj hspan
  rw [lenBytes_eq_zero.mp hfront.symm] at hs
  exact ⟨after,hs,by omega⟩

theorem sliceFrom_safe (h : Seam s i) :
    (sliceFrom s i).Safe fun part => lenBytes part + i = lenBytes s := by
  refine (sliceFrom_split h).imp fun part hpart => ?_
  obtain ⟨front,rfl,rfl⟩ := hpart
  rw [lenBytes_append,Nat.add_comm]

theorem sliceTo_safe (h : Seam s i) : (sliceTo s i).Safe fun part => lenBytes part = i :=
  (sliceTo_split h).imp fun _ ⟨_,_,hpart⟩ => hpart

end Rope
end TerraformLs
