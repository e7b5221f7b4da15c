import Mathlib.Data.List.Forall2
import TerraformLs.JsonSymbols

/-! Slices of a text by byte offsets, which panic when the range is inverted, ends
past the text or cuts a character, and the pieces of a text between separators
with the bytes they take up. -/
namespace TerraformLs
namespace Rope

/-- `&s[start..stop]`. -/
def slice {ε : Type} (s : Rope) (start stop : ℕ) : Outcome ε Rope :=
  if start ≤ stop ∧ stop ≤ s.lenBytes ∧ s.onBoundary start ∧ s.onBoundary stop then
    .ok (s.byteSlice start stop)
  else .panicked

@[simp] theorem lenBytes_nil : lenBytes [] = 0 := rfl

@[simp] theorem lenBytes_cons (c : Char) (s : Rope) :
    lenBytes (c :: s) = c.utf8Size + lenBytes s := by simp [lenBytes]

@[simp] theorem lenBytes_append (a b : Rope) : lenBytes (a ++ b) = lenBytes a + lenBytes b := by
  simp [lenBytes]

@[simp] theorem lenBytes_reverse (s : Rope) : lenBytes s.reverse = lenBytes s := by
  simp [lenBytes,List.sum_reverse]

theorem lenBytes_eq_zero {s : Rope} : lenBytes s = 0 ↔ s = [] := by
  cases s with
  | nil => simp
  | cons c s =>
    have hpos := c.utf8Size_pos
    simp only [lenBytes_cons,reduceCtorEq,iff_false]
    omega

theorem byteToChar_append (a b : Rope) : byteToChar (a ++ b) (lenBytes a) = a.length := by
  induction a with
  | nil =>
    cases b with
    | nil => rfl
    | cons c b =>
      have hpos : c.utf8Size ≠ 0 := c.utf8Size_pos.ne'
      simp [byteToChar,hpos]
  | cons c a ih =>
    have hsub : c.utf8Size + lenBytes a - c.utf8Size = lenBytes a := by omega
    simp [byteToChar,hsub,ih]

theorem onBoundary_append (a b : Rope) : onBoundary (a ++ b) (lenBytes a) = true := by
  rw [onBoundary,byteToChar_append,charToByte,List.take_left,decide_eq_true_eq]

theorem byteSlice_middle (a b c : Rope) :
    byteSlice (a ++ b ++ c) (lenBytes a) (lenBytes (a ++ b)) = b := by
  rw [byteSlice,byteToChar_append (a ++ b),List.take_left,List.append_assoc,byteToChar_append,
    List.drop_left]

/-- The slice over the middle of three parts is the middle part. -/
theorem slice_middle {ε : Type} (a b c : Rope) :
    (slice (a ++ (b ++ c)) (lenBytes a) (lenBytes a + lenBytes b) : Outcome ε Rope) = .ok b := by
  have hassoc : a ++ (b ++ c) = (a ++ b) ++ c := (List.append_assoc a b c).symm
  have hstop : lenBytes a + lenBytes b = lenBytes (a ++ b) := (lenBytes_append a b).symm
  have hstart : onBoundary (a ++ (b ++ c)) (lenBytes a) = true := onBoundary_append a (b ++ c)
  have hend : onBoundary (a ++ (b ++ c)) (lenBytes (a ++ b)) = true := by
    rw [hassoc]
    exact onBoundary_append (a ++ b) c
  have hlen : lenBytes (a ++ b) ≤ lenBytes (a ++ (b ++ c)) := by simp
  have hslice : byteSlice (a ++ (b ++ c)) (lenBytes a) (lenBytes (a ++ b)) = b := by
    rw [hassoc,byteSlice_middle]
  rw [slice,hstop,if_pos ⟨by simp,hlen,hstart,hend⟩,hslice]

theorem slice_prefix {ε : Type} (a b : Rope) :
    (slice (a ++ b) 0 (lenBytes a) : Outcome ε Rope) = .ok a := by
  simpa using slice_middle (ε:=ε) [] a b

theorem slice_suffix {ε : Type} (a b : Rope) :
    (slice (a ++ b) (lenBytes a) (lenBytes (a ++ b)) : Outcome ε Rope) = .ok b := by
  simpa using slice_middle (ε:=ε) a b []

theorem slice_of_inverted {ε : Type} {s : Rope} {start stop : ℕ} (h : stop < start) :
    (slice s start stop : Outcome ε Rope) = .panicked := by
  rw [slice,if_neg]
  rintro ⟨hle,-⟩
  omega

/-- The part of a text, and the bytes it takes up. -/
def At (s : Rope) (span : Span) (part : Rope) : Prop :=
  ∃ before after, s = before ++ (part ++ after) ∧
    span = (lenBytes before,lenBytes before + lenBytes part)

theorem At.slice {ε : Type} {s part : Rope} {span : Span} (h : At s span part) :
    (s.slice span.1 span.2 : Outcome ε Rope) = .ok part := by
  obtain ⟨before,after,rfl,rfl⟩ := h
  exact slice_middle before part after

theorem At.length {s part : Rope} {span : Span} (h : At s span part) :
    span.2 = span.1 + lenBytes part := by
  obtain ⟨before,after,-,rfl⟩ := h
  rfl

end Rope

namespace Pieces

/-- What stands on the right of related lists has a partner on the left. -/
theorem exists_left {α β : Type} {R : α → β → Prop} {as : List α} {bs : List β}
    (h : List.Forall₂ R as bs) : ∀ b ∈ bs, ∃ a ∈ as, R a b := by
  induction h with
  | nil => simp
  | @cons a b as bs hab _ ih =>
    intro x hx
    rcases List.mem_cons.mp hx with rfl | hx
    · exact ⟨a,List.mem_cons_self,hab⟩
    · obtain ⟨y,hy,hR⟩ := ih x hx
      exact ⟨y,List.mem_cons_of_mem a hy,hR⟩

theorem exists_right {α β : Type} {R : α → β → Prop} {as : List α} {bs : List β}
    (h : List.Forall₂ R as bs) : ∀ a ∈ as, ∃ b ∈ bs, R a b := exists_left h.flip

variable (separator : Char)

/-- The pieces between separators, from a piece that began at `start`. -/
def splitFrom (start pos : ℕ) : Rope → List Span
  | [] => [(start,pos)]
  | c::s =>
    if c = separator then (start,pos) :: splitFrom (pos + c.utf8Size) (pos + c.utf8Size) s
    else splitFrom start (pos + c.utf8Size) s

variable {separator}

/-- The spans are those of the pieces, in order. -/
theorem splitFrom_at {whole : Rope} (before piece s : Rope) (hpiece : separator ∉ piece)
    (hwhole : whole = before ++ (piece ++ s)) :
    List.Forall₂ whole.At
      (splitFrom separator before.lenBytes (before.lenBytes + piece.lenBytes) s)
      ((piece ++ s).splitOn separator) := by
  induction s generalizing before piece with
  | nil =>
    rw [List.append_nil,List.splitOn_eq_singleton hpiece]
    exact .cons ⟨before,[],hwhole,rfl⟩ .nil
  | cons c s ih =>
    by_cases hc : c = separator
    · subst hc
      have hnext : before.lenBytes + piece.lenBytes + c.utf8Size =
          Rope.lenBytes (before ++ (piece ++ [c])) := by
        simp only [Rope.lenBytes_append,Rope.lenBytes_cons,Rope.lenBytes_nil]
        omega
      have hrest := ih (before ++ (piece ++ [c])) [] List.not_mem_nil
        (by simp [hwhole])
      rw [splitFrom,if_pos rfl,List.splitOn_append_cons_self_of_not_mem hpiece,hnext]
      simp only [Rope.lenBytes_nil,Nat.add_zero,List.nil_append] at hrest
      exact .cons ⟨before,c :: s,hwhole,rfl⟩ hrest
    · have hmem : separator ∉ piece ++ [c] := by
        simp [hpiece,Ne.symm hc]
      have hrest := ih before (piece ++ [c]) hmem (by simp [hwhole])
      have hpos : before.lenBytes + piece.lenBytes + c.utf8Size =
          before.lenBytes + Rope.lenBytes (piece ++ [c]) := by
        simp only [Rope.lenBytes_append,Rope.lenBytes_cons,Rope.lenBytes_nil]
        omega
      rw [splitFrom,if_neg hc,hpos]
      simpa only [List.append_assoc,List.singleton_append] using hrest

theorem start_le_splitFrom {start pos : ℕ} (hpos : start ≤ pos) (s : Rope) :
    ∀ span ∈ splitFrom separator start pos s, start ≤ span.1 := by
  induction s generalizing start pos with
  | nil => simp [splitFrom]
  | cons c s ih =>
    rw [splitFrom]
    split_ifs with hc
    · have hrest := ih (Nat.le_refl (pos + c.utf8Size))
      intro span hspan
      rcases List.mem_cons.mp hspan with rfl | hspan
      · exact Nat.le_refl _
      · have hstart := hrest span hspan
        omega
    · exact ih (by omega)

/-- A piece ends before the next one begins. -/
theorem splitFrom_pairwise {start pos : ℕ} (s : Rope) :
    (splitFrom separator start pos s).Pairwise fun a b => a.2 < b.1 := by
  induction s generalizing start pos with
  | nil => simp [splitFrom]
  | cons c s ih =>
    rw [splitFrom]
    split_ifs with hc
    · refine List.pairwise_cons.mpr ⟨fun span hspan => ?_,ih⟩
      have hstart := start_le_splitFrom (Nat.le_refl (pos + c.utf8Size)) s span hspan
      have hsize := c.utf8Size_pos
      omega
    · exact ih

theorem length_splitFrom {start pos : ℕ} (s : Rope) :
    (splitFrom separator start pos s).length = s.count separator + 1 := by
  induction s generalizing start pos with
  | nil => rfl
  | cons c s ih =>
    rw [splitFrom]
    split_ifs with hc
    · subst hc
      simp [ih]
    · rw [ih,List.count_cons_of_ne hc]

end Pieces
end TerraformLs
