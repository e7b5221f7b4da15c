import Mathlib.Data.List.Basic
import TerraformLs.Lines
import TerraformLs.TextSlices

/-! The conversions between byte offsets and positions are inverse to each other, on
offsets that cut neither a character nor a line end. The fields of a position are 32
bits wide, and a line or column that does not fit wraps around. -/
namespace TerraformLs

/-- `as u32`, for both fields. -/
def Position.truncated (p : Position) : Position := ⟨p.line % 2^32,p.character % 2^32⟩

/-- The order of a text: by lines, then by columns. -/
def Position.NotAfter (p q : Position) : Prop :=
  p.line < q.line ∨ p.line = q.line ∧ p.character ≤ q.character

namespace Rope

/-- The position that is returned for an offset. -/
def offsetPosition (rope : Rope) (offset : ℕ) : Except ParseError Position :=
  (byteOffsetToLspPosition rope offset).map Position.truncated

/-! The lines of a text. -/

theorem lineStartBytesFrom_append (pos : ℕ) (a b : Rope) : lineStartBytesFrom pos (a ++ b) =
    lineStartBytesFrom pos a ++ lineStartBytesFrom (pos + lenBytes a) b := by
  induction a generalizing pos with
  | nil => simp [lineStartBytesFrom]
  | cons c a ih =>
    have hpos : pos + c.utf8Size + lenBytes a = pos + lenBytes (c :: a) := by
      rw [lenBytes_cons]
      omega
    simp only [List.cons_append,lineStartBytesFrom]
    split_ifs <;> simp [ih,hpos]

theorem length_lineStartBytesFrom (pos : ℕ) (a : Rope) :
    (lineStartBytesFrom pos a).length = a.count '\n' := by
  induction a generalizing pos with
  | nil => rfl
  | cons c a ih =>
    simp only [lineStartBytesFrom]
    split_ifs with hc
    · subst hc
      simp [ih]
    · rw [ih,List.count_cons_of_ne hc]

theorem length_lineStartBytes (rope : Rope) :
    (lineStartBytes rope).length = rope.count '\n' + 1 := by
  simp [lineStartBytes,length_lineStartBytesFrom]

theorem lineStartBytesFrom_eq_nil {pos : ℕ} {a : Rope} (h : '\n' ∉ a) :
    lineStartBytesFrom pos a = [] := by
  rw [← List.length_eq_zero_iff,length_lineStartBytesFrom,List.count_eq_zero_of_not_mem h]

theorem le_of_mem_lineStartBytesFrom {pos : ℕ} {a : Rope} :
    ∀ s ∈ lineStartBytesFrom pos a, pos < s ∧ s ≤ pos + lenBytes a := by
  induction a generalizing pos with
  | nil => simp [lineStartBytesFrom]
  | cons c a ih =>
    have hsize := c.utf8Size_pos
    simp only [lineStartBytesFrom,lenBytes_cons]
    split_ifs
    · refine List.forall_mem_cons.mpr ⟨by omega,fun s hs => ?_⟩
      have hbound := ih s hs
      omega
    · intro s hs
      have hbound := ih s hs
      omega

/-- The lines before a line start where its own start is the last one. -/
theorem getLast_lineStarts (before : Rope)
    (h : before = [] ∨ before.getLast? = some '\n') :
    (0 :: lineStartBytesFrom 0 before)[before.count '\n']? = some (lenBytes before) := by
  rcases h with rfl | h
  · rfl
  · obtain ⟨init,rfl⟩ := List.getLast?_eq_some_iff.mp h
    simp [lineStartBytesFrom_append,lineStartBytesFrom,← length_lineStartBytesFrom 0 init]

theorem exists_lineAt_number {rope : Rope} {n : ℕ} (h : n < (lineStartBytes rope).length) :
    ∃ before line after, LineAt '\n' rope n before line after := by
  rw [length_lineStartBytes] at h
  exact LineAt.exists_number (Nat.le_of_lt_succ h)

section lineAt

variable {rope before line after : Rope} {n : ℕ}

theorem lineStart_of_lineAt (h : LineAt '\n' rope n before line after) :
    (lineStartBytes rope).getD n 0 = lenBytes before := by
  obtain ⟨rfl,hstart,-,-,rfl⟩ := h
  have hget := getLast_lineStarts before hstart
  have hlt : before.count '\n' < (0 :: lineStartBytesFrom 0 before).length :=
    List.getElem?_eq_some_iff.mp hget |>.1
  rw [lineStartBytes,lineStartBytesFrom_append,← List.cons_append,List.getD_eq_getElem?_getD,
    List.getElem?_append_left hlt,hget]
  rfl

/-- The next line starts behind the line feed; the last line ends with the text. -/
theorem lineStop_of_lineAt (h : LineAt '\n' rope n before line after) :
    (lineStartBytes rope).getD (n+1) (lenBytes rope) =
      lenBytes before + lenBytes (line ++ after.take 1) := by
  obtain ⟨rfl,-,hinside,hstop,rfl⟩ := h
  have hlen : (0 :: lineStartBytesFrom 0 before).length = before.count '\n' + 1 := by
    rw [List.length_cons,length_lineStartBytesFrom]
  rw [lineStartBytes,lineStartBytesFrom_append,← List.cons_append,List.getD_eq_getElem?_getD,
    List.getElem?_append_right hlen.le,hlen,Nat.sub_self,lineStartBytesFrom_append,
    lineStartBytesFrom_eq_nil hinside,List.nil_append]
  rcases hstop with rfl | hstop
  · simp [lineStartBytesFrom]
  · obtain ⟨rest,rfl⟩ := List.head?_eq_some_iff.mp hstop
    simp [lineStartBytesFrom]
    omega

theorem byteSlice_of_lineAt (h : LineAt '\n' rope n before line after) :
    byteSlice rope (lenBytes before) (lenBytes before + lenBytes (line ++ after.take 1)) =
      line ++ after.take 1 := by
  obtain ⟨rfl,-,-,-,-⟩ := h
  have hsplit : before ++ (line ++ after) = (before ++ (line ++ after.take 1)) ++ after.drop 1 := by
    rw [List.append_assoc,List.append_assoc,List.take_append_drop]
  rw [byteSlice,byteToChar_append,hsplit,← lenBytes_append,byteToChar_append,List.take_left,
    List.drop_left]

/-- An offset of the line is on no other line. -/
theorem lineOf_of_lineAt (h : LineAt '\n' rope n before line after) {offset : ℕ}
    (hstart : lenBytes before ≤ offset) (hstop : offset ≤ lenBytes before + lenBytes line) :
    lineOf (lineStartBytes rope) offset = n := by
  obtain ⟨rfl,-,hinside,-,rfl⟩ := h
  have hbefore : (lineStartBytesFrom 0 before).filter (fun start => start ≤ offset) =
      lineStartBytesFrom 0 before := by
    rw [List.filter_eq_self]
    intro s hs
    have hbound := le_of_mem_lineStartBytesFrom s hs
    rw [decide_eq_true_eq]
    omega
  have hafter : (lineStartBytesFrom (0 + lenBytes before + lenBytes line) after).filter
      (fun start => start ≤ offset) = [] := by
    rw [List.filter_eq_nil_iff]
    intro s hs
    have hbound := le_of_mem_lineStartBytesFrom s hs
    rw [decide_eq_true_eq]
    omega
  rw [lineOf,lineStartBytes,List.filter_cons_of_pos (by simp),lineStartBytesFrom_append,
    lineStartBytesFrom_append,lineStartBytesFrom_eq_nil hinside,List.nil_append,
    List.filter_append,hbefore,hafter,List.append_nil,List.length_cons,
    length_lineStartBytesFrom,Nat.add_sub_cancel]

end lineAt

/-! The columns of a line. -/

theorem utf16Len_pos (c : Char) : 0 < utf16Len c := by
  unfold utf16Len
  split_ifs <;> omega

@[simp] theorem lenUtf16Cu_cons (c : Char) (v : Rope) :
    lenUtf16Cu (c :: v) = utf16Len c + lenUtf16Cu v := by simp [lenUtf16Cu]

@[simp] theorem utf16CuToChar_zero (v : Rope) : utf16CuToChar v 0 = 0 := by
  cases v with
  | nil => rfl
  | cons c v => rw [utf16CuToChar,if_pos (utf16Len_pos c)]

theorem utf16CuToChar_le (v : Rope) (cu : ℕ) : utf16CuToChar v cu ≤ v.length := by
  induction v generalizing cu with
  | nil => exact Nat.le_refl 0
  | cons c v ih =>
    rw [utf16CuToChar]
    split_ifs
    · exact Nat.zero_le _
    · exact Nat.succ_le_succ (ih _)

/-- A column inside the visible part is looked up in it. -/
theorem utf16CuToChar_clamped (v t : Rope) (cu : ℕ) :
    utf16CuToChar (v ++ t) (min cu (lenUtf16Cu v)) = utf16CuToChar v cu := by
  induction v generalizing cu with
  | nil =>
    rw [List.nil_append,show lenUtf16Cu [] = 0 from rfl,Nat.min_zero,utf16CuToChar_zero]
    rfl
  | cons c v ih =>
    have hc := utf16Len_pos c
    rw [List.cons_append,lenUtf16Cu_cons,utf16CuToChar,utf16CuToChar]
    by_cases hcu : cu < utf16Len c
    · rw [if_pos (by omega),if_pos hcu]
    · have hsub : min cu (utf16Len c + lenUtf16Cu v) - utf16Len c =
          min (cu - utf16Len c) (lenUtf16Cu v) := by omega
      rw [if_neg (by omega),if_neg hcu,hsub,ih]

theorem utf16CuToChar_mono (v : Rope) {cu cu' : ℕ} (h : cu ≤ cu') :
    utf16CuToChar v cu ≤ utf16CuToChar v cu' := by
  induction v generalizing cu cu' with
  | nil => exact Nat.le_refl 0
  | cons c v ih =>
    rw [utf16CuToChar,utf16CuToChar]
    split_ifs
    · exact Nat.le_refl 0
    · exact Nat.zero_le _
    · omega
    · exact Nat.succ_le_succ (ih (by omega))

theorem utf16CuToChar_lenUtf16Cu (a b : Rope) : utf16CuToChar (a ++ b) (lenUtf16Cu a) = a.length := by
  induction a with
  | nil => exact utf16CuToChar_zero b
  | cons c a ih =>
    rw [List.cons_append,utf16CuToChar,lenUtf16Cu_cons,if_neg (by omega),Nat.add_sub_cancel_left,ih,
      List.length_cons]

theorem utf16CuToChar_lt (v : Rope) {cu : ℕ} (h : cu < lenUtf16Cu v) :
    utf16CuToChar v cu < v.length := by
  induction v generalizing cu with
  | nil => exact absurd h (Nat.not_lt_zero cu)
  | cons c v ih =>
    rw [lenUtf16Cu_cons] at h
    rw [utf16CuToChar]
    split_ifs
    · exact Nat.succ_pos _
    · exact Nat.succ_lt_succ (ih (by omega))

theorem lenUtf16Cu_append (a b : Rope) : lenUtf16Cu (a ++ b) = lenUtf16Cu a + lenUtf16Cu b := by
  simp [lenUtf16Cu]

/-- A line without the carriage return of its line end. -/
def visiblePart (line after : Rope) : Rope :=
  if line.getLast? = some '\r' ∧ after ≠ [] then line.dropLast else line

theorem visiblePart_append (line after : Rope) :
    visiblePart line after = line ∨ after ≠ [] ∧ line = visiblePart line after ++ ['\r'] := by
  unfold visiblePart
  split_ifs with h
  · obtain ⟨init,rfl⟩ := List.getLast?_eq_some_iff.mp h.1
    exact .inr ⟨h.2,by rw [List.dropLast_concat]⟩
  · exact .inl rfl

section visible

variable {rope before line after : Rope} {n : ℕ}

theorem take_visibleChars (h : LineAt '\n' rope n before line after) :
    (line ++ after.take 1).take (visibleChars (line ++ after.take 1)) = visiblePart line after := by
  obtain ⟨rfl,-,hinside,hstop,rfl⟩ := h
  rcases hstop with rfl | hstop
  · have hlast : line.getLast? ≠ some '\n' := fun hlast =>
      hinside (List.mem_of_getLast? hlast)
    simp [visibleChars,visiblePart,hlast]
  · obtain ⟨rest,rfl⟩ := List.head?_eq_some_iff.mp hstop
    simp only [List.take_succ_cons,List.take_zero,visibleChars,List.getLast?_concat,
      List.dropLast_concat,if_true,visiblePart,ne_eq,reduceCtorEq,not_false_eq_true,and_true]
    by_cases hcr : line.getLast? = some '\r'
    · obtain ⟨init,rfl⟩ := List.getLast?_eq_some_iff.mp hcr
      simp
    · simp [hcr]

/-- A position on a line leads to the end of a prefix of its visible part. -/
theorem lspPositionToByteOffset_of_lineAt (h : LineAt '\n' rope n before line after) (cu : ℕ) :
    lspPositionToByteOffset rope ⟨n,cu⟩ = .ok (lenBytes before +
      lenBytes ((visiblePart line after).take (utf16CuToChar (visiblePart line after) cu))) := by
  have hexists : ¬ (lineStartBytes rope).length ≤ n := by
    obtain ⟨rfl,-,-,-,rfl⟩ := h
    rw [length_lineStartBytes,List.count_append]
    omega
  have hbody : ∃ t, line ++ after.take 1 = visiblePart line after ++ t := by
    rcases visiblePart_append line after with hv | ⟨-,hv⟩
    · exact ⟨after.take 1,by rw [hv]⟩
    · exact ⟨['\r'] ++ after.take 1,by rw [← List.append_assoc,← hv]⟩
  obtain ⟨t,ht⟩ := hbody
  have htake : ∀ k ≤ (visiblePart line after).length,
      (visiblePart line after ++ t).take k = (visiblePart line after).take k :=
    fun k hk => List.take_append_of_le_length hk
  rw [lspPositionToByteOffset]
  simp only [lineByteRange,lineStart_of_lineAt h,lineStop_of_lineAt h,byteSlice_of_lineAt h,
    take_visibleChars h,if_neg hexists]
  rw [ht,utf16CuToChar_clamped,charToByte,htake _ (utf16CuToChar_le _ _)]

end visible

/-! Offsets and prefixes. -/

theorem prefix_of_onBoundary {rope : Rope} {offset : ℕ} (h : onBoundary rope offset) :
    ∃ pre rest, rope = pre ++ rest ∧ offset = lenBytes pre := by
  rw [onBoundary,charToByte,decide_eq_true_eq] at h
  exact ⟨rope.take (byteToChar rope offset),rope.drop (byteToChar rope offset),
    (List.take_append_drop _ rope).symm,h.symm⟩

theorem append_inj_lenBytes {a b a' b' : Rope} (h : a ++ b = a' ++ b')
    (hlen : lenBytes a = lenBytes a') : a = a' ∧ b = b' := by
  have hchar : a.length = a'.length := by
    rw [← byteToChar_append a b,← byteToChar_append a' b',h,hlen]
  exact List.append_inj h hchar

theorem lenBytes_take_mono (v : Rope) {k k' : ℕ} (h : k ≤ k') :
    lenBytes (v.take k) ≤ lenBytes (v.take k') := by
  have hsplit : (v.take k').take k ++ (v.take k').drop k = v.take k' := List.take_append_drop _ _
  rw [List.take_take,Nat.min_eq_left h] at hsplit
  rw [← hsplit,lenBytes_append]
  exact Nat.le_add_right _ _

theorem lenBytes_take_lt (v : Rope) {k : ℕ} (h : k < v.length) :
    lenBytes (v.take k) < lenBytes v := by
  have hsplit : lenBytes (v.take k) + lenBytes (v.drop k) = lenBytes v := by
    rw [← lenBytes_append,List.take_append_drop]
  have hdrop : lenBytes (v.drop k) ≠ 0 := fun hzero => by
    have hnil := lenBytes_eq_zero.mp hzero
    rw [List.drop_eq_nil_iff] at hnil
    omega
  omega

/-- The offset cuts a line end in two. -/
def InsideCrlf (rope : Rope) (offset : ℕ) : Prop :=
  ∃ before after, rope = before ++ '\r' :: '\n' :: after ∧ offset = lenBytes before + 1

theorem insideCrlf_iff {pre rest : Rope} : InsideCrlf (pre ++ rest) (lenBytes pre) ↔
    pre.getLast? = some '\r' ∧ rest.head? = some '\n' := by
  constructor
  · rintro ⟨before,after,hsplit,hlen⟩
    have hpre : lenBytes pre = lenBytes (before ++ ['\r']) := by
      rw [hlen,lenBytes_append]
      rfl
    have hsplit' : pre ++ rest = (before ++ ['\r']) ++ '\n' :: after := by simpa using hsplit
    obtain ⟨rfl,rfl⟩ := append_inj_lenBytes hsplit' hpre
    simp
  · rintro ⟨hlast,hhead⟩
    obtain ⟨before,rfl⟩ := List.getLast?_eq_some_iff.mp hlast
    obtain ⟨after,rfl⟩ := List.head?_eq_some_iff.mp hhead
    exact ⟨before,after,by simp,by rw [lenBytes_append]; rfl⟩

section around

variable {rope before line after left right : Rope} {n : ℕ}

theorem byteSlice_left (h : LineAt '\n' rope n before line after) (hline : line = left ++ right) :
    byteSlice rope (lenBytes before) (lenBytes (before ++ left)) = left := by
  have hsplit : rope = (before ++ left) ++ (right ++ after) := by
    rw [h.split,hline]
    simp
  rw [byteSlice,hsplit,byteToChar_append,List.append_assoc,byteToChar_append,
    ← List.append_assoc,List.take_left,List.drop_left]

/-- An offset and its position, over the line around the offset. -/
theorem byteOffsetToLspPosition_of_lineAt (h : LineAt '\n' rope n before line after)
    (hline : line = left ++ right) :
    byteOffsetToLspPosition rope (lenBytes (before ++ left)) = .ok ⟨n,lenUtf16Cu left⟩ := by
  have hlen : lenBytes (before ++ left) = lenBytes before + lenBytes left := lenBytes_append _ _
  have hlineLen : lenBytes line = lenBytes left + lenBytes right := by
    rw [hline,lenBytes_append]
  have hbound : ¬ lenBytes rope < lenBytes (before ++ left) := by
    rw [h.split,lenBytes_append before,lenBytes_append line]
    omega
  have hlineOf : lineOf (lineStartBytes rope) (lenBytes (before ++ left)) = n :=
    lineOf_of_lineAt h (by omega) (by omega)
  simp only [byteOffsetToLspPosition,if_neg hbound,hlineOf,lineStart_of_lineAt h,
    byteSlice_left h hline]

theorem offsetPosition_of_lineAt (h : LineAt '\n' rope n before line after)
    (hline : line = left ++ right) :
    offsetPosition rope (lenBytes (before ++ left)) =
      .ok ⟨n % 2^32,lenUtf16Cu left % 2^32⟩ := by
  rw [offsetPosition,byteOffsetToLspPosition_of_lineAt h hline]
  rfl

end around

/-! What the two conversions are to each other. -/

/-- Offsets that cut neither a character nor a line end come back from their position;
positions on a line of the text lead to a place on that line, later ones no earlier. -/
structure Inverse (rope : Rope) : Prop where
  roundTrip : ∀ offset ≤ lenBytes rope, onBoundary rope offset → ¬ InsideCrlf rope offset →
    ∃ pos, offsetPosition rope offset = .ok pos ∧ lspPositionToByteOffset rope pos = .ok offset
  onLine : ∀ pos : Position, pos.line < (lineStartBytes rope).length →
    ∃ offset, lspPositionToByteOffset rope pos = .ok offset ∧ offset ≤ lenBytes rope ∧
      onBoundary rope offset ∧ lineOf (lineStartBytes rope) offset = pos.line
  monotone : ∀ pos pos' offset offset', pos.NotAfter pos' →
    lspPositionToByteOffset rope pos = .ok offset →
    lspPositionToByteOffset rope pos' = .ok offset' → offset ≤ offset'

/-- Every line number, and every column of a line, fits into 32 bits. -/
structure Fits (rope : Rope) : Prop where
  lines : (lineStartBytes rope).length ≤ 2^32
  columns : ∀ number before line after, LineAt '\n' rope number before line after →
    lenUtf16Cu (visiblePart line after) < 2^32

theorem lineOf_mono (lineStarts : List ℕ) {a b : ℕ} (h : a ≤ b) :
    lineOf lineStarts a ≤ lineOf lineStarts b := by
  refine Nat.sub_le_sub_right (List.Sublist.length_le ?_) 1
  exact List.monotone_filter_right lineStarts fun s hs => by
    rw [decide_eq_true_eq] at hs ⊢
    omega

theorem position_onLine {rope : Rope} {pos : Position}
    (h : pos.line < (lineStartBytes rope).length) :
    ∃ offset, lspPositionToByteOffset rope pos = .ok offset ∧ offset ≤ lenBytes rope ∧
      onBoundary rope offset ∧ lineOf (lineStartBytes rope) offset = pos.line := by
  obtain ⟨before,line,after,hline⟩ := exists_lineAt_number h
  set k := utf16CuToChar (visiblePart line after) pos.character
  obtain ⟨right,hright⟩ : ∃ right, line = (visiblePart line after).take k ++ right := by
    have htake := List.take_append_drop k (visiblePart line after)
    rcases visiblePart_append line after with hv | ⟨-,hv⟩
    · exact ⟨(visiblePart line after).drop k,by rw [htake,hv]⟩
    · exact ⟨(visiblePart line after).drop k ++ ['\r'],by rw [← List.append_assoc,htake,← hv]⟩
  set left := (visiblePart line after).take k
  have hoff := lspPositionToByteOffset_of_lineAt hline pos.character
  have hsplit : rope = (before ++ left) ++ (right ++ after) := by
    rw [hline.split,hright]
    simp
  have hlineLen : lenBytes line = lenBytes left + lenBytes right := by
    rw [hright,lenBytes_append]
  refine ⟨lenBytes before + lenBytes left,hoff,?_,?_,lineOf_of_lineAt hline ?_ ?_⟩
  · rw [hsplit,lenBytes_append (before ++ left),lenBytes_append before]
    omega
  · rw [hsplit,← lenBytes_append]
    exact onBoundary_append _ _
  · omega
  · omega

theorem position_monotone {rope : Rope} {pos pos' : Position} {offset offset' : ℕ}
    (h : pos.NotAfter pos') (hoff : lspPositionToByteOffset rope pos = .ok offset)
    (hoff' : lspPositionToByteOffset rope pos' = .ok offset') : offset ≤ offset' := by
  have hexists : ∀ {p : Position} {o : ℕ}, lspPositionToByteOffset rope p = .ok o →
      p.line < (lineStartBytes rope).length := by
    intro p o hp
    by_contra hge
    have herr := lspPositionToByteOffset_error.mpr ⟨Nat.le_of_not_lt hge,rfl⟩
    rw [hp] at herr
    cases herr
  rcases h with hlt | ⟨heq,hle⟩
  · obtain ⟨o,ho,-,-,hline⟩ := position_onLine (hexists hoff)
    obtain ⟨o',ho',-,-,hline'⟩ := position_onLine (hexists hoff')
    obtain rfl : o = offset := by simpa [ho] using hoff
    obtain rfl : o' = offset' := by simpa [ho'] using hoff'
    by_contra hge
    have hmono := lineOf_mono (lineStartBytes rope) (Nat.le_of_not_le hge)
    omega
  · obtain ⟨before,line,after,hline⟩ := exists_lineAt_number (hexists hoff)
    have ho := lspPositionToByteOffset_of_lineAt hline pos.character
    have ho' := lspPositionToByteOffset_of_lineAt hline pos'.character
    rw [hoff] at ho
    rw [heq,hoff'] at ho'
    obtain rfl := Except.ok.inj ho
    obtain rfl := Except.ok.inj ho'
    have hk := utf16CuToChar_mono (visiblePart line after) hle
    exact Nat.add_le_add_left (lenBytes_take_mono _ hk) _

/-- The line around a place that is not inside of a line end; the place is in its
visible part. -/
theorem exists_around_visible {pre rest : Rope}
    (hcrlf : ¬ InsideCrlf (pre ++ rest) (lenBytes pre)) : ∃ before left right after t,
      LineAt '\n' (pre ++ rest) (pre.count '\n') before (left ++ right) after ∧
        pre = before ++ left ∧ visiblePart (left ++ right) after = left ++ t := by
  obtain ⟨before,left,right,after,hline,rfl,rfl⟩ := LineAt.exists_around '\n' pre rest
  suffices ht : ∃ t, visiblePart (left ++ right) after = left ++ t by
    obtain ⟨t,ht⟩ := ht
    exact ⟨before,left,right,after,t,hline,rfl,ht⟩
  rcases visiblePart_append (left ++ right) after with hv | ⟨hafter,hv⟩
  · exact ⟨right,hv⟩
  · rcases List.eq_nil_or_concat right with rfl | ⟨init,c,rfl⟩
    · refine absurd ?_ hcrlf
      rw [insideCrlf_iff]
      rw [List.append_nil] at hv
      rw [List.nil_append,List.getLast?_append,hv,List.getLast?_concat]
      exact ⟨rfl,hline.stop.resolve_left hafter⟩
    · rw [List.concat_eq_append,← List.append_assoc] at hv
      rw [List.concat_eq_append,← List.append_assoc]
      exact ⟨init,(List.append_inj_left' hv rfl).symm⟩

/-- Where every line and column fits, an offset comes back from its position. -/
theorem roundTrip_of_fits {rope : Rope} (hfits : Fits rope) {offset : ℕ}
    (hboundary : onBoundary rope offset) (hcrlf : ¬ InsideCrlf rope offset) :
    ∃ pos, offsetPosition rope offset = .ok pos ∧
      lspPositionToByteOffset rope pos = .ok offset := by
  obtain ⟨pre,rest,rfl,rfl⟩ := prefix_of_onBoundary hboundary
  obtain ⟨before,left,right,after,t,hline,hpre,ht⟩ := exists_around_visible hcrlf
  have hcount : pre.count '\n' < (lineStartBytes (pre ++ rest)).length := by
    rw [length_lineStartBytes,List.count_append]
    omega
  have hlines := hfits.lines
  have hcolumns := hfits.columns _ before (left ++ right) after hline
  rw [ht,lenUtf16Cu_append] at hcolumns
  conv in lenBytes pre => rw [hpre]
  refine ⟨_,offsetPosition_of_lineAt hline rfl,?_⟩
  rw [Nat.mod_eq_of_lt (by omega),Nat.mod_eq_of_lt (by omega),
    lspPositionToByteOffset_of_lineAt hline,ht,utf16CuToChar_lenUtf16Cu,List.take_left,
    hpre,lenBytes_append]

/-- A text with more lines than that has one whose start does not come back. -/
theorem lines_of_inverse {rope : Rope} (h : Inverse rope) : (lineStartBytes rope).length ≤ 2^32 := by
  by_contra hlines
  obtain ⟨before,line,after,hline⟩ := exists_lineAt_number (Nat.lt_of_not_le hlines)
  have hpre : rope = before ++ (line ++ after) := hline.split
  have hcrlf : ¬ InsideCrlf rope (lenBytes before) := by
    rw [hpre,insideCrlf_iff]
    rintro ⟨hlast,-⟩
    rcases hline.start with rfl | hstart
    · cases hlast
    · rw [hstart] at hlast
      cases hlast
  have hpos := offsetPosition_of_lineAt hline (List.nil_append line).symm
  rw [List.append_nil] at hpos
  obtain ⟨pos,hok,hback⟩ := h.roundTrip (lenBytes before)
    (by rw [hpre,lenBytes_append]; omega) (by rw [hpre]; exact onBoundary_append _ _) hcrlf
  obtain rfl := Except.ok.inj (hpos.symm.trans hok)
  have hfirstLine : (⟨2^32 % 2^32,lenUtf16Cu [] % 2^32⟩ : Position).line <
      (lineStartBytes rope).length := by
    simp only [Nat.mod_self]
    omega
  obtain ⟨offset,hoffset,-,-,hfirst⟩ := position_onLine hfirstLine
  obtain rfl := Except.ok.inj (hback.symm.trans hoffset)
  rw [lineOf_of_lineAt hline (Nat.le_refl _) (Nat.le_add_right _ _),Nat.mod_self] at hfirst
  exact absurd hfirst (by decide)

/-- The visible part of a line does not stop inside a line end. -/
theorem not_insideCrlf_visible {rope before line after right : Rope} {n : ℕ}
    (h : LineAt '\n' rope n before line after) (hright : line = visiblePart line after ++ right)
    (hlast : (before ++ visiblePart line after).getLast? = some '\r') :
    (right ++ after).head? ≠ some '\n' := by
  intro hhead
  have hnil : right = [] := by
    cases right with
    | nil => rfl
    | cons c right =>
      obtain rfl : c = '\n' := Option.some.inj hhead
      exact absurd (by rw [hright]; simp) h.inside
  rw [hnil,List.append_nil] at hright
  rw [hnil,List.nil_append] at hhead
  rw [← hright] at hlast
  have hafter : after ≠ [] := by
    rintro rfl
    cases hhead
  have hcr : line.getLast? = some '\r' := by
    rw [List.getLast?_append] at hlast
    rcases hline : line.getLast? with _ | c
    · rw [hline,Option.none_or] at hlast
      rcases h.start with rfl | hstart
      · cases hlast
      · rw [hstart] at hlast
        cases hlast
    · rwa [hline,Option.some_or] at hlast
  obtain ⟨init,rfl⟩ := List.getLast?_eq_some_iff.mp hcr
  rw [visiblePart,if_pos ⟨hcr,hafter⟩,List.dropLast_concat] at hright
  simpa using congrArg List.length hright

/-- A line whose last column does not fit has an end that does not come back. -/
theorem columns_of_inverse {rope : Rope} (h : Inverse rope) {n : ℕ} {before line after : Rope}
    (hline : LineAt '\n' rope n before line after) :
    lenUtf16Cu (visiblePart line after) < 2^32 := by
  by_contra hcolumns
  have hlines := lines_of_inverse h
  set visible := visiblePart line after with hvisible
  obtain ⟨right,hright⟩ : ∃ right, line = visible ++ right := by
    rcases visiblePart_append line after with hv | ⟨-,hv⟩
    · exact ⟨[],by rw [List.append_nil,hvisible,hv]⟩
    · exact ⟨['\r'],hv⟩
  have hsplit : rope = (before ++ visible) ++ (right ++ after) := by
    rw [hline.split]
    conv_lhs => rw [hright]
    simp
  have hnumber : n < (lineStartBytes rope).length := by
    rw [length_lineStartBytes,hline.split,List.count_append,hline.number]
    omega
  have hcrlf : ¬ InsideCrlf rope (lenBytes (before ++ visible)) := by
    rw [hsplit,insideCrlf_iff]
    rintro ⟨hlast,hhead⟩
    exact not_insideCrlf_visible hline hright hlast hhead
  obtain ⟨pos,hok,hback⟩ := h.roundTrip (lenBytes (before ++ visible))
    (by rw [hsplit,lenBytes_append (before ++ visible)]; omega)
    (by rw [hsplit]; exact onBoundary_append _ _) hcrlf
  obtain rfl := Except.ok.inj ((offsetPosition_of_lineAt hline hright).symm.trans hok)
  rw [Nat.mod_eq_of_lt (by omega),lspPositionToByteOffset_of_lineAt hline] at hback
  have hoffset := Except.ok.inj hback
  rw [lenBytes_append,Nat.add_left_cancel_iff] at hoffset
  have hwrapped : lenUtf16Cu visible % 2^32 < lenUtf16Cu visible :=
    (Nat.mod_lt _ (by decide)).trans_le (Nat.le_of_not_lt hcolumns)
  exact (lenBytes_take_lt visible (utf16CuToChar_lt visible hwrapped)).ne hoffset

theorem inverse_iff_fits (rope : Rope) : Inverse rope ↔ Fits rope := by
  constructor
  · exact fun h => ⟨lines_of_inverse h,fun _ _ _ _ hline => columns_of_inverse h hline⟩
  · intro hfits
    exact ⟨fun offset _ hboundary hcrlf => roundTrip_of_fits hfits hboundary hcrlf,
      fun _ h => position_onLine h,
      fun _ _ _ _ h hoff hoff' => position_monotone h hoff hoff'⟩

theorem not_inverse_of_long {k : ℕ} (h : 2^32 ≤ k) : ¬ Inverse (List.replicate k 'a') := by
  intro hinverse
  have hline : LineAt '\n' (List.replicate k 'a') 0 [] (List.replicate k 'a') [] :=
    ⟨by simp,.inl rfl,fun hmem => by simpa using List.eq_of_mem_replicate hmem,.inl rfl,rfl⟩
  have hfits := columns_of_inverse hinverse hline
  have hlen : lenUtf16Cu (List.replicate k 'a') = k := by simp [lenUtf16Cu,utf16Len]
  rw [visiblePart,if_neg (fun hand => hand.2 rfl),hlen] at hfits
  omega

/-- A line of so many characters that its last column wraps around. -/
theorem long_line_not_inverse : ¬ Inverse (List.replicate (2^32) 'a') :=
  not_inverse_of_long (Nat.le_refl _)

end Rope
end TerraformLs
