import TerraformLs.Blanking
import TerraformLs.PositionConversions

/-! Recovery of a text that does not parse: the line of each syntax error is blanked
and the text is parsed again. The buffer is a list of bytes; what the parser answers
is a parameter, and it may answer differently on each pass. -/
namespace TerraformLs
namespace Recovery

def lf : UInt8 := 10
def cr : UInt8 := 13
def space : UInt8 := 32

/-- `str::as_bytes`. -/
def bytes (text : Rope) : List UInt8 := text.flatMap String.utf8EncodeChar

/-- `str::from_utf8`. -/
def fromUtf8 (buf : List UInt8) : Option Rope :=
  (String.fromUTF8? buf.toByteArray).map String.toList

/-- The place of the last element that satisfies `p`. -/
def rposition (p : UInt8 → Bool) (buf : List UInt8) : Option ℕ :=
  (buf.reverse.findIdx? p).map fun i => buf.length - 1 - i

/-- The line around `offset`, without its line end. -/
def lineBounds (buf : List UInt8) (offset : ℕ) : ℕ × ℕ :=
  let offset := min offset buf.length
  let start := ((rposition (· == lf) (buf.take offset)).map (· + 1)).getD 0
  let stop := (((buf.drop offset).findIdx? (· == lf)).map (offset + ·)).getD buf.length
  if start < stop ∧ buf[stop-1]? = some cr then (start,stop-1) else (start,stop)

def overwrite (buf : List UInt8) (start stop : ℕ) : List UInt8 :=
  buf.take start ++ (List.replicate (stop - start) space ++ buf.drop stop)

/-- What the parser says of a text. -/
inductive Answer (β : Type)
  | body (body : β)
  | syntaxError (offset : ℕ)
  | panicked

/-- The buffers of the passes, in order, and the body that was recovered. -/
structure Recovered (β : Type) where
  bufs : List (List UInt8)
  body : Option β

def maxRecoveryPasses : ℕ := 64

variable {β : Type}

/-- The passes that are left; `blanked` holds the line starts blanked so far. -/
def recoverFrom (parseBody : ℕ → Rope → Answer β) :
    ℕ → ℕ → List UInt8 → List ℕ → Recovered β
  | 0, _, _, _ => ⟨[],none⟩
  | passes+1, pass, buf, blanked =>
    match fromUtf8 buf with
    | none => ⟨[buf],none⟩
    | some text =>
      match parseBody pass text with
      | .body body => ⟨[buf],some body⟩
      | .panicked => ⟨[buf],none⟩
      | .syntaxError offset =>
        let offset := min offset buf.length
        let bounds := lineBounds buf offset
        if bounds.1 ∈ blanked then ⟨[buf],none⟩ else
          let rest := recoverFrom parseBody passes (pass+1) (overwrite buf bounds.1 bounds.2)
            (bounds.1 :: blanked)
          ⟨buf :: rest.bufs,rest.body⟩

def recoverBody (parseBody : ℕ → Rope → Answer β) (source : Rope) : Recovered β :=
  recoverFrom parseBody maxRecoveryPasses 0 (bytes source) []

/-! Texts and their bytes. -/

@[simp] theorem bytes_nil : bytes [] = [] := rfl

@[simp] theorem bytes_cons (c : Char) (text : Rope) :
    bytes (c :: text) = String.utf8EncodeChar c ++ bytes text := by
  simp [bytes]

@[simp] theorem bytes_append (a b : Rope) : bytes (a ++ b) = bytes a ++ bytes b := by
  simp [bytes]

@[simp] theorem length_bytes (text : Rope) : (bytes text).length = text.lenBytes := by
  induction text with
  | nil => rfl
  | cons c text ih => simp [ih]

theorem fromUtf8_bytes (text : Rope) : fromUtf8 (bytes text) = some text := by
  have hencode : (bytes text).toByteArray = text.utf8Encode := rfl
  have hread : String.fromUTF8 text.utf8Encode ByteArray.isValidUTF8_utf8Encode =
      String.ofList text := rfl
  rw [fromUtf8,hencode,String.fromUTF8?,dif_pos ByteArray.isValidUTF8_utf8Encode,hread,
    Option.map_some,String.toList_ofList]

/-- The bytes of a character of several bytes have their high bit set. -/
theorem high_bit {c : Char} (h : c.utf8Size ≠ 1) :
    ∀ b ∈ String.utf8EncodeChar c, b.toBitVec.getLsbD 7 = true := by
  have hle := c.utf8Size_le_four
  have hpos := c.utf8Size_pos
  obtain h | h | h : c.utf8Size = 2 ∨ c.utf8Size = 3 ∨ c.utf8Size = 4 := by omega
  · rw [String.utf8EncodeChar_eq_cons_cons h]
    simp
  · rw [String.utf8EncodeChar_eq_cons_cons_cons h]
    simp
  · rw [String.utf8EncodeChar_eq_cons_cons_cons_cons h]
    simp

theorem not_ascii_of_high {c : Char} (h : c.utf8Size ≠ 1) :
    ∀ b ∈ String.utf8EncodeChar c, b ≠ lf ∧ b ≠ cr := by
  intro b hb
  have hbit := high_bit h b hb
  constructor
  · rintro rfl
    exact absurd hbit (by decide)
  · rintro rfl
    exact absurd hbit (by decide)

/-- Characters of one byte differ in it. -/
theorem eq_of_toUInt8 {c d : Char} (hc : c.utf8Size = 1) (hd : d.utf8Size = 1)
    (h : c.val.toUInt8 = d.val.toUInt8) : c = d := by
  rw [Char.utf8Size_eq_one_iff,UInt32.le_iff_toNat_le] at hc hd
  have hmod := congrArg UInt8.toNat h
  rw [UInt32.toNat_toUInt8,UInt32.toNat_toUInt8] at hmod
  have hseven : (127 : UInt32).toNat = 127 := rfl
  exact Char.ext (UInt32.toNat_inj.mp (by omega))

def blankBytes (blanked : List ℕ) (buf : List UInt8) : List UInt8 :=
  blankWith lf cr (fun _ => [space]) blanked 0 buf

/-- A character gives way to as many spaces as it has bytes. -/
def blankText (blanked : List ℕ) (text : Rope) : Rope :=
  blankWith '\n' '\r' (fun c => List.replicate c.utf8Size ' ') blanked 0 text

theorem bytes_replicate_space (k : ℕ) :
    bytes (List.replicate k ' ') = List.replicate k space := by
  induction k with
  | zero => rfl
  | succ k ih =>
    rw [List.replicate_succ,bytes_cons,ih]
    rfl

theorem endsLine_bytes (text : Rope) : EndsLine lf (bytes text) ↔ EndsLine '\n' text := by
  cases text with
  | nil => simp [EndsLine]
  | cons c text =>
    by_cases hsize : c.utf8Size = 1
    · have hbyte : c.val.toUInt8 = lf ↔ c = '\n' :=
        ⟨fun h => eq_of_toUInt8 (d := '\n') hsize rfl h,fun h => by rw [h]; rfl⟩
      rw [bytes_cons,String.utf8EncodeChar_eq_singleton hsize]
      simp [EndsLine,-Char.toUInt8_val,hbyte]
    · obtain ⟨b,rest,hb⟩ := List.exists_cons_of_ne_nil (String.utf8EncodeChar_ne_nil (c:=c))
      have hlf : b ≠ lf := (not_ascii_of_high hsize b (by rw [hb]; exact List.mem_cons_self)).1
      have hc : c ≠ '\n' := by
        rintro rfl
        exact hsize rfl
      simp [EndsLine,hb,hlf,hc]

theorem flatMap_space (l : List UInt8) :
    l.flatMap (fun _ => [space]) = List.replicate l.length space := by
  induction l with
  | nil => rfl
  | cons _ l ih =>
    rw [List.flatMap_cons,ih]
    rfl

/-- Blanking the bytes of a text is blanking the text. -/
theorem bytes_blankWith (blanked : List ℕ) (n : ℕ) (text : Rope) :
    bytes (blankWith '\n' '\r' (fun c => List.replicate c.utf8Size ' ') blanked n text) =
      blankWith lf cr (fun _ => [space]) blanked n (bytes text) := by
  induction text generalizing n with
  | nil => rfl
  | cons c text ih =>
    by_cases hsize : c.utf8Size = 1
    · have hlf : c.val.toUInt8 = lf ↔ c = '\n' :=
        ⟨fun h => eq_of_toUInt8 (d := '\n') hsize rfl h,fun h => by rw [h]; rfl⟩
      have hcr : c.val.toUInt8 = cr ↔ c = '\r' :=
        ⟨fun h => eq_of_toUInt8 (d := '\r') hsize rfl h,fun h => by rw [h]; rfl⟩
      rw [bytes_cons,String.utf8EncodeChar_eq_singleton hsize,List.singleton_append,blankWith,
        blankWith]
      simp only [hlf,hcr,endsLine_bytes,hsize]
      split_ifs
      · rw [bytes_cons,String.utf8EncodeChar_eq_singleton hsize,ih]
        rfl
      · rw [bytes_append,bytes_replicate_space,ih]
        rfl
      · rw [bytes_cons,String.utf8EncodeChar_eq_singleton hsize,ih]
        rfl
    · have hlf : c ≠ '\n' := by
        rintro rfl
        exact hsize rfl
      have hcr : c ≠ '\r' := by
        rintro rfl
        exact hsize rfl
      rw [bytes_cons,blankWith_plain (not_ascii_of_high hsize),blankWith,if_neg hlf,← ih]
      by_cases hn : n ∈ blanked
      · simp [hn,hcr,flatMap_space,bytes_replicate_space]
      · simp [hn]

theorem bytes_blankText (blanked : List ℕ) (text : Rope) :
    bytes (blankText blanked text) = blankBytes blanked (bytes text) :=
  bytes_blankWith blanked 0 text

/-! One pass blanks the line of the error. -/

theorem rposition_eq_some {before left : List UInt8} (hbefore : before.getLast? = some lf)
    (hleft : lf ∉ left) :
    rposition (· == lf) (before ++ left) = some (before.length - 1) := by
  obtain ⟨init,rfl⟩ := List.getLast?_eq_some_iff.mp hbefore
  have hfind : ((init ++ [lf]) ++ left).reverse.findIdx? (· == lf) = some left.length := by
    rw [List.reverse_append,List.findIdx?_append,List.findIdx?_eq_none_iff.mpr]
    · simp [List.findIdx?_cons]
    · intro b hb
      rw [beq_eq_false_iff_ne]
      rintro rfl
      exact hleft (List.mem_reverse.mp hb)
  rw [rposition,hfind,Option.map_some]
  simp only [List.length_append,List.length_singleton,Option.some.injEq]
  omega

/-- The bounds of the line around an offset. -/
theorem lineBounds_of_lineAt {buf before left right after : List UInt8} {n : ℕ}
    (h : LineAt lf buf n before (left ++ right) after) :
    lineBounds buf (before ++ left).length = if (left ++ right).getLast? = some cr
      then (before.length,before.length + (left ++ right).length - 1)
      else (before.length,before.length + (left ++ right).length) := by
  have hsplit : buf = (before ++ left) ++ (right ++ after) := by
    rw [h.split]
    simp
  obtain ⟨hleft,hright⟩ := not_or.mp (fun hmem => h.inside (List.mem_append.mpr hmem))
  have hlen : min (before ++ left).length buf.length = (before ++ left).length := by
    rw [hsplit]
    simp
  have hstart : ((rposition (· == lf) (before ++ left)).map (· + 1)).getD 0 = before.length := by
    rcases h.start with rfl | hlast
    · have hnone : rposition (· == lf) ([] ++ left) = none := by
        rw [List.nil_append,rposition,List.findIdx?_eq_none_iff.mpr,Option.map_none]
        intro b hb
        rw [beq_eq_false_iff_ne]
        rintro rfl
        exact hleft (List.mem_reverse.mp hb)
      rw [hnone]
      rfl
    · have hpos : before ≠ [] := by
        rintro rfl
        cases hlast
      have hlen := List.length_pos_iff.mpr hpos
      rw [rposition_eq_some hlast hleft,Option.map_some,Option.getD_some]
      omega
  have hnone : right.findIdx? (· == lf) = none := by
    rw [List.findIdx?_eq_none_iff]
    intro b hb
    rw [beq_eq_false_iff_ne]
    rintro rfl
    exact hright hb
  have hstop : (((right ++ after).findIdx? (· == lf)).map ((before ++ left).length + ·)).getD
      buf.length = before.length + (left ++ right).length := by
    rw [List.findIdx?_append,hnone,Option.none_or]
    rcases h.stop with rfl | hhead
    · simp [hsplit,Nat.add_assoc]
    · obtain ⟨rest,rfl⟩ := List.head?_eq_some_iff.mp hhead
      simp [List.findIdx?_cons,Nat.add_assoc,Nat.add_comm]
  have hlast : before.length < before.length + (left ++ right).length ∧
      buf[before.length + (left ++ right).length - 1]? = some cr ↔
      (left ++ right).getLast? = some cr := by
    rw [h.split]
    rcases List.eq_nil_or_concat (left ++ right) with hnil | ⟨init,c,hinit⟩
    · simp [hnil]
    · rw [hinit]
      simp
  simp only [lineBounds,hlen]
  rw [hsplit,List.take_left,List.drop_left,← hsplit,hstart,hstop]
  simp only [hlast]

theorem overwrite_lineBounds {buf before left right after : List UInt8} {n : ℕ}
    (h : LineAt lf buf n before (left ++ right) after) :
    overwrite buf (lineBounds buf (before ++ left).length).1
      (lineBounds buf (before ++ left).length).2 = blankBytes [n] buf := by
  have hbefore : blankWith lf cr (fun _ => [space]) [n] 0 before = before :=
    blankWith_of_closed 0 h.start fun i _ hlt => by
      rw [Nat.zero_add,h.number] at hlt
      exact List.mem_singleton.not.mpr hlt.ne
  have hafter : blankWith lf cr (fun _ => [space]) [n] n after = after := by
    rcases h.stop with rfl | hhead
    · rfl
    · obtain ⟨rest,rfl⟩ := List.head?_eq_some_iff.mp hhead
      rw [blankWith,if_pos rfl,blankWith_of_not_mem]
      intro i hi _
      exact List.mem_singleton.not.mpr (by omega)
  rw [lineBounds_of_lineAt h,blankBytes,blankWith_lineAt h,hbefore,hafter,
    if_pos (List.mem_singleton_self n),blankLine,h.split]
  split_ifs with hcr
  · obtain ⟨init,hinit⟩ := List.getLast?_eq_some_iff.mp hcr
    simp [overwrite,hinit,flatMap_space]
  · simp [overwrite,flatMap_space]

/-- The line of an error, and what the pass makes of the buffer. -/
theorem exists_blanked {buf : List UInt8} {offset : ℕ} (h : offset ≤ buf.length) :
    ∃ n before line after, LineAt lf buf n before line after ∧
      (lineBounds buf offset).1 = before.length ∧
      overwrite buf (lineBounds buf offset).1 (lineBounds buf offset).2 = blankBytes [n] buf := by
  obtain ⟨before,left,right,after,hline,hpre,-⟩ :=
    LineAt.exists_around lf (buf.take offset) (buf.drop offset)
  rw [List.take_append_drop] at hline
  have hoffset : offset = (before ++ left).length := by
    rw [← hpre,List.length_take,Nat.min_eq_left h]
  rw [hoffset]
  refine ⟨_,before,left ++ right,after,hline,?_,overwrite_lineBounds hline⟩
  rw [lineBounds_of_lineAt hline]
  split_ifs <;> rfl

theorem blankBytes_blankBytes (blanked more : List ℕ) (buf : List UInt8) :
    blankBytes more (blankBytes blanked buf) = blankBytes (blanked ++ more) buf :=
  blankWith_blankWith (by decide) (by decide) more 0 buf

theorem count_blankBytes (blanked : List ℕ) (buf : List UInt8) :
    (blankBytes blanked buf).count lf = buf.count lf :=
  count_blankWith (fun _ => by decide) 0 buf

theorem lineAt_blankBytes {buf before line after : List UInt8} {n : ℕ} (blanked : List ℕ)
    (h : LineAt lf buf n before line after) : ∃ before' line' after',
      LineAt lf (blankBytes blanked buf) n before' line' after' ∧
        before'.length = before.length := by
  exact ⟨_,_,_,lineAt_blankWith (fun _ => by decide) (by decide) h,length_blankWith 0 before⟩

/-- The line starts recorded as blanked are those of the blanked lines. -/
def Recorded (source : List UInt8) (lines starts : List ℕ) : Prop :=
  ∀ n ∈ lines, ∀ before line after, LineAt lf source n before line after →
    before.length ∈ starts

/-- Each further buffer has one more line of the source blanked. -/
theorem recoverFrom_bufs (parseBody : ℕ → Rope → Answer β) (source : Rope) (passes pass : ℕ)
    (lines starts : List ℕ) (hnodup : lines.Nodup)
    (hstarts : Recorded (bytes source) lines starts) :
    ∃ more, (lines ++ more).Nodup ∧
      (recoverFrom parseBody passes pass (blankBytes lines (bytes source)) starts).bufs.length ≤
        min passes (more.length + 1) ∧
      ∀ i buf, (recoverFrom parseBody passes pass (blankBytes lines (bytes source)) starts).bufs[i]?
        = some buf → buf = blankBytes (lines ++ more.take i) (bytes source) := by
  induction passes generalizing pass lines starts with
  | zero => exact ⟨[],by simpa using hnodup,by simp [recoverFrom],by simp [recoverFrom]⟩
  | succ passes ih =>
    have hstop : ∀ i buf, [blankBytes lines (bytes source)][i]? = some buf →
        buf = blankBytes (lines ++ ([] : List ℕ).take i) (bytes source) := by
      intro i buf hbuf
      obtain rfl : blankBytes lines (bytes source) = buf := by
        simpa [eq_comm] using List.mem_of_getElem? hbuf
      simp
    have hone : 1 ≤ min (passes + 1) (([] : List ℕ).length + 1) := by simp
    have hnil : (lines ++ []).Nodup := by rwa [List.append_nil]
    rw [recoverFrom,← bytes_blankText,fromUtf8_bytes]
    dsimp only
    rw [bytes_blankText]
    cases parseBody pass (blankText lines source) with
    | body body => exact ⟨[],hnil,hone,hstop⟩
    | panicked => exact ⟨[],hnil,hone,hstop⟩
    | syntaxError offset =>
      dsimp only
      split_ifs with hmem
      · exact ⟨[],hnil,hone,hstop⟩
      · obtain ⟨n,before,line,after,hline,hstart,hover⟩ :=
          exists_blanked (Nat.min_le_right offset (blankBytes lines (bytes source)).length)
        rw [hstart] at hmem
        have hsource : n ≤ (bytes source).count lf := by
          rw [← count_blankBytes lines]
          exact hline.number_le
        obtain ⟨b,l,a,hsourceLine⟩ := LineAt.exists_number hsource
        obtain ⟨b',l',a',hline',hlen⟩ := lineAt_blankBytes lines hsourceLine
        obtain ⟨rfl,-,-⟩ := hline.unique hline'
        have hnew : n ∉ lines := fun hn => hmem (hlen ▸ hstarts n hn b l a hsourceLine)
        have hnodup' : (lines ++ [n]).Nodup := by
          rw [List.nodup_append]
          exact ⟨hnodup,List.nodup_singleton n,fun x hx y hy => by
            rintro rfl
            exact hnew (List.mem_singleton.mp hy ▸ hx)⟩
        have hstarts' : Recorded (bytes source) (lines ++ [n]) (before.length :: starts) := by
          intro m hm c k d hm'
          rcases List.mem_append.mp hm with hm | hm
          · exact List.mem_cons_of_mem _ (hstarts m hm c k d hm')
          · obtain rfl := List.mem_singleton.mp hm
            obtain ⟨rfl,-,-⟩ := hm'.unique hsourceLine
            exact hlen ▸ List.mem_cons_self
        obtain ⟨more,hmore,hcount,hbufs⟩ := ih (pass+1) (lines ++ [n]) (before.length :: starts)
          hnodup' hstarts'
        rw [hover,blankBytes_blankBytes,hstart]
        refine ⟨n :: more,by simpa using hmore,?_,?_⟩
        · simp only [List.length_cons]
          omega
        · intro i buf hbuf
          cases i with
          | zero => simpa [eq_comm] using hbuf
          | succ i => simpa using hbufs i buf hbuf

theorem recoverFrom_body (parseBody : ℕ → Rope → Answer β) (passes pass : ℕ)
    (buf : List UInt8) (starts : List ℕ) {body : β}
    (h : (recoverFrom parseBody passes pass buf starts).body = some body) :
    ∃ last text, (recoverFrom parseBody passes pass buf starts).bufs.getLast? = some last ∧
      fromUtf8 last = some text ∧ parseBody (pass +
        ((recoverFrom parseBody passes pass buf starts).bufs.length - 1)) text = .body body := by
  induction passes generalizing pass buf starts with
  | zero => simp [recoverFrom] at h
  | succ passes ih =>
    rcases htext : fromUtf8 buf with _ | text
    · simp [recoverFrom,htext] at h
    · rcases hanswer : parseBody pass text with b | offset | _
      · have hrun : recoverFrom parseBody (passes+1) pass buf starts = ⟨[buf],some b⟩ := by
          simp only [recoverFrom,htext,hanswer]
        rw [hrun] at h ⊢
        obtain rfl := Option.some.inj h
        exact ⟨buf,text,rfl,htext,hanswer⟩
      · simp only [recoverFrom,htext,hanswer] at h ⊢
        split_ifs at h ⊢
        obtain ⟨last,text',hlast,hread,hparse⟩ := ih (pass+1) _ _ h
        refine ⟨last,text',by rw [List.getLast?_cons,hlast]; rfl,hread,?_⟩
        have hpos := List.length_pos_iff.mpr (List.ne_nil_of_mem (List.mem_of_getLast? hlast))
        rw [List.length_cons,Nat.add_sub_cancel]
        convert hparse using 2
        omega
      · simp [recoverFrom,htext,hanswer] at h

/-! The places of a blanked text. -/

theorem lf_not_mem_encode {c : Char} (h : c ≠ '\n') : lf ∉ String.utf8EncodeChar c := by
  by_cases hsize : c.utf8Size = 1
  · rw [String.utf8EncodeChar_eq_singleton hsize,List.mem_singleton]
    exact fun hbyte => h (eq_of_toUInt8 (d := '\n') hsize rfl hbyte.symm)
  · exact fun hmem => (not_ascii_of_high hsize lf hmem).1 rfl

/-- The line of an offset, by the line feeds in front of it. -/
def lineNumber (buf : List UInt8) (offset : ℕ) : ℕ := (buf.take offset).count lf

theorem length_starts_le (pos k : ℕ) (rope : Rope) :
    ((Rope.lineStartBytesFrom pos rope).filter fun start => start ≤ pos + k).length =
      lineNumber (bytes rope) k := by
  induction rope generalizing pos k with
  | nil => simp [Rope.lineStartBytesFrom,lineNumber]
  | cons c rope ih =>
    have hlen := String.length_utf8EncodeChar c
    by_cases hk : k < c.utf8Size
    · have hstarts : (Rope.lineStartBytesFrom pos (c :: rope)).filter
          (fun start => start ≤ pos + k) = [] := by
        rw [List.filter_eq_nil_iff]
        intro s hs
        have hrest := @Rope.le_of_mem_lineStartBytesFrom (pos + c.utf8Size) rope
        simp only [Rope.lineStartBytesFrom] at hs
        rw [decide_eq_true_eq]
        split_ifs at hs
        · rcases List.mem_cons.mp hs with rfl | hs
          · omega
          · have hbound := hrest s hs
            omega
        · have hbound := hrest s hs
          omega
      have hbytes : lf ∉ (String.utf8EncodeChar c).take k := by
        by_cases hc : c = '\n'
        · subst hc
          obtain rfl : k = 0 := by
            have hone : ('\n').utf8Size = 1 := rfl
            omega
          simp
        · exact fun hmem => lf_not_mem_encode hc (List.mem_of_mem_take hmem)
      rw [hstarts,lineNumber,bytes_cons,List.take_append_of_le_length (by omega),
        List.count_eq_zero_of_not_mem hbytes,List.length_nil]
    · have hpos : pos + k = pos + c.utf8Size + (k - c.utf8Size) := by omega
      have hrest := ih (pos + c.utf8Size) (k - c.utf8Size)
      rw [lineNumber,bytes_cons,List.take_append,hlen,List.take_of_length_le (by omega),
        List.count_append,← lineNumber,← hrest,hpos]
      simp only [Rope.lineStartBytesFrom]
      split_ifs with hc
      · subst hc
        have hone : (String.utf8EncodeChar '\n').count lf = 1 := by decide
        rw [List.filter_cons_of_pos (by simp),List.length_cons,hone,Nat.add_comm]
      · rw [List.count_eq_zero_of_not_mem (lf_not_mem_encode hc),Nat.zero_add]

/-- The line of a position is the number of line feeds in front of the offset. -/
theorem lineOf_eq_lineNumber (rope : Rope) (offset : ℕ) :
    Rope.lineOf (Rope.lineStartBytes rope) offset = lineNumber (bytes rope) offset := by
  have hstarts := length_starts_le 0 offset rope
  rw [Nat.zero_add] at hstarts
  rw [Rope.lineOf,Rope.lineStartBytes,List.filter_cons_of_pos (by simp),List.length_cons,hstarts,
    Nat.add_sub_cancel]

/-- What a text shares with its source when those lines of it are blanked. -/
structure Preserves (source : Rope) (blanked : List ℕ) (text : Rope) : Prop where
  length : (bytes text).length = (bytes source).length
  elsewhere : ∀ i : ℕ, lineNumber (bytes source) i ∉ blanked → (bytes text)[i]? = (bytes source)[i]?
  changed : ∀ i : ℕ, (bytes text)[i]? ≠ (bytes source)[i]? → (bytes text)[i]? = some space
  lineFeeds : ∀ i : ℕ, (bytes text)[i]? = some lf ↔ (bytes source)[i]? = some lf
  carriageReturns : ∀ i : ℕ, (bytes text)[i]? = some cr ↔ (bytes source)[i]? = some cr ∧
    (lineNumber (bytes source) i ∈ blanked → EndsLine lf ((bytes source).drop (i+1)))
  line : ∀ offset, Rope.lineOf (Rope.lineStartBytes text) offset =
    Rope.lineOf (Rope.lineStartBytes source) offset
  column : ∀ offset, Rope.onBoundary text offset →
    (lineNumber (bytes source) offset ∉ blanked ∨ Rope.onBoundary source offset ∧
      ∀ c ∈ Rope.byteSlice source ((Rope.lineStartBytes source).getD
        (lineNumber (bytes source) offset) 0) offset, c.utf8Size = 1) →
    Rope.byteOffsetToLspPosition text offset = Rope.byteOffsetToLspPosition source offset

theorem getElem?_blankBytes (blanked : List ℕ) (buf : List UInt8) (i : ℕ) :
    (blankBytes blanked buf)[i]? = buf[i]?.map fun c =>
      if c ≠ lf ∧ lineNumber buf i ∈ blanked ∧ ¬ (c = cr ∧ EndsLine lf (buf.drop (i+1)))
      then space else c := by
  rw [blankBytes,getElem?_blankWith,Nat.zero_add]
  rfl

theorem lineNumber_blankBytes (blanked : List ℕ) (buf : List UInt8) (i : ℕ) :
    lineNumber (blankBytes blanked buf) i = lineNumber buf i :=
  count_take_blankWith (by decide) 0 i buf

theorem count_lf_bytes (text : Rope) : (bytes text).count lf = text.count '\n' := by
  induction text with
  | nil => rfl
  | cons c text ih =>
    rw [bytes_cons,List.count_append,ih]
    by_cases hc : c = '\n'
    · subst hc
      have hone : (String.utf8EncodeChar '\n').count lf = 1 := by decide
      rw [hone,List.count_cons_self,Nat.add_comm]
    · rw [List.count_eq_zero_of_not_mem (lf_not_mem_encode hc),List.count_cons_of_ne hc,
        Nat.zero_add]

theorem newline_not_mem_spaces (c : Char) : '\n' ∉ List.replicate c.utf8Size ' ' := fun hmem => by
  simpa using List.eq_of_mem_replicate hmem

theorem count_blankText (blanked : List ℕ) (text : Rope) :
    (blankText blanked text).count '\n' = text.count '\n' :=
  count_blankWith newline_not_mem_spaces 0 text

theorem lenBytes_blankWith (blanked : List ℕ) (n : ℕ) (a : Rope) : Rope.lenBytes
    (blankWith '\n' '\r' (fun c => List.replicate c.utf8Size ' ') blanked n a) = a.lenBytes := by
  rw [← length_bytes,bytes_blankWith,length_blankWith,length_bytes]

/-- The characters of a blanked line have one byte and one code unit each. -/
theorem ascii_blankLine (line : Rope) :
    ∀ c ∈ blankLine '\r' (fun c => List.replicate c.utf8Size ' ') line, c.utf8Size = 1 := by
  intro c hc
  have hspaces : ∀ l : Rope, c ∈ l.flatMap (fun c => List.replicate c.utf8Size ' ') →
      c.utf8Size = 1 := fun l hl => by
    obtain ⟨d,-,hd⟩ := List.mem_flatMap.mp hl
    rw [List.eq_of_mem_replicate hd]
    rfl
  unfold blankLine at hc
  split_ifs at hc
  · rcases List.mem_append.mp hc with hc | hc
    · exact hspaces _ hc
    · rw [List.mem_singleton.mp hc]
      rfl
  · exact hspaces _ hc

theorem lenUtf16Cu_of_ascii {a : Rope} (h : ∀ c ∈ a, c.utf8Size = 1) :
    Rope.lenUtf16Cu a = a.lenBytes := by
  induction a with
  | nil => rfl
  | cons c a ih =>
    obtain ⟨hc,ha⟩ := List.forall_mem_cons.mp h
    rw [Rope.lenUtf16Cu_cons,Rope.lenBytes_cons,hc,ih ha]
    rw [Char.utf8Size_eq_one_iff,UInt32.le_iff_toNat_le] at hc
    have hseven : (127 : UInt32).toNat = 127 := rfl
    have hval : c.toNat = c.val.toNat := rfl
    rw [Rope.utf16Len,if_pos (by omega)]

theorem lineNumber_lenBytes (pre rest : Rope) :
    lineNumber (bytes (pre ++ rest)) pre.lenBytes = pre.count '\n' := by
  rw [lineNumber,bytes_append,← length_bytes,List.take_left,count_lf_bytes]

theorem column_blankText (source : Rope) (blanked : List ℕ) {offset : ℕ}
    (hboundary : Rope.onBoundary (blankText blanked source) offset)
    (h : lineNumber (bytes source) offset ∉ blanked ∨ Rope.onBoundary source offset ∧
      ∀ c ∈ Rope.byteSlice source ((Rope.lineStartBytes source).getD
        (lineNumber (bytes source) offset) 0) offset, c.utf8Size = 1) :
    Rope.byteOffsetToLspPosition (blankText blanked source) offset =
      Rope.byteOffsetToLspPosition source offset := by
  obtain ⟨pre,rest,hsplit,rfl⟩ := Rope.prefix_of_onBoundary hboundary
  obtain ⟨before,left,right,after,hline,rfl,rfl⟩ := LineAt.exists_around '\n' pre rest
  have hnumber : lineNumber (bytes source) (Rope.lenBytes (before ++ left)) =
      (before ++ left).count '\n' := by
    rw [← lineNumber_blankBytes blanked,← bytes_blankText,hsplit,lineNumber_lenBytes]
  rw [hnumber] at h
  set m := (before ++ left).count '\n'
  rw [← hsplit] at hline
  have hexists : m ≤ source.count '\n' := by
    exact (count_blankText blanked source) ▸ hline.number_le
  obtain ⟨b,l,a,hsource⟩ := LineAt.exists_number hexists
  obtain ⟨hbefore,hleft,-⟩ := hline.unique (lineAt_blankWith newline_not_mem_spaces (by decide) hsource)
  have hlenBefore : Rope.lenBytes before = Rope.lenBytes b := by
    rw [hbefore,lenBytes_blankWith]
  rw [Rope.byteOffsetToLspPosition_of_lineAt hline rfl]
  by_cases hm : m ∈ blanked
  · rw [if_pos hm] at hleft
    obtain ⟨hsourceBoundary,hascii⟩ := h.resolve_left (not_not.mpr hm)
    obtain ⟨pre,rest,hsourceSplit,hlenPre⟩ := Rope.prefix_of_onBoundary hsourceBoundary
    obtain ⟨b',left',right',a',hline',rfl,rfl⟩ := LineAt.exists_around '\n' pre rest
    have hnumber' : (b' ++ left').count '\n' = m := by
      rw [← hnumber,hlenPre,hsourceSplit,lineNumber_lenBytes]
    rw [← hsourceSplit,hnumber'] at hline'
    obtain ⟨rfl,rfl,-⟩ := hline'.unique hsource
    rw [Rope.lineStart_of_lineAt hline',hlenPre,Rope.byteSlice_left hline' rfl] at hascii
    rw [hlenPre,Rope.byteOffsetToLspPosition_of_lineAt hline' rfl]
    have hasciiLeft : ∀ c ∈ left, c.utf8Size = 1 := fun c hc =>
      ascii_blankLine (left' ++ right') c (hleft ▸ List.mem_append_left _ hc)
    rw [Rope.lenBytes_append,Rope.lenBytes_append,hlenBefore,Nat.add_left_cancel_iff] at hlenPre
    rw [lenUtf16Cu_of_ascii hasciiLeft,lenUtf16Cu_of_ascii hascii,hlenPre]
  · rw [if_neg hm] at hleft
    have hoffset : Rope.lenBytes (before ++ left) = Rope.lenBytes (b ++ left) := by
      rw [Rope.lenBytes_append,Rope.lenBytes_append,hlenBefore]
    rw [hoffset,Rope.byteOffsetToLspPosition_of_lineAt hsource hleft.symm]

theorem preserves_blankText (source : Rope) (blanked : List ℕ) :
    Preserves source blanked (blankText blanked source) := by
  have hsep : space ≠ lf := by decide
  have hret : space ≠ cr := by decide
  have hcrlf : cr ≠ lf := by decide
  have hget := fun i => getElem?_blankBytes blanked (bytes source) i
  refine ⟨?_,?_,?_,?_,?_,?_,fun _ => column_blankText source blanked⟩
  · rw [bytes_blankText,blankBytes,length_blankWith]
  · intro i hi
    rw [bytes_blankText,hget]
    simp [hi]
  · intro i hi
    rw [bytes_blankText,hget] at hi ⊢
    cases hbyte : (bytes source)[i]? with
    | none => simp [hbyte] at hi
    | some c =>
      rw [hbyte] at hi
      rw [Option.map_some] at hi ⊢
      split_ifs at hi ⊢ with hc
      · rfl
      · exact absurd rfl hi
  · intro i
    rw [bytes_blankText,hget]
    cases (bytes source)[i]? with
    | none => simp
    | some c =>
      rw [Option.map_some]
      split_ifs with hc
      · simp [hsep,hc.1]
      · rfl
  · intro i
    rw [bytes_blankText,hget]
    cases (bytes source)[i]? with
    | none => simp
    | some c =>
      rw [Option.map_some,Option.some_inj,Option.some_inj]
      by_cases hc : c = cr
      · subst hc
        by_cases hline : lineNumber (bytes source) i ∈ blanked
        · by_cases hend : EndsLine lf ((bytes source).drop (i+1)) <;> simp [hcrlf,hline,hend,hret]
        · simp [hline]
      · split_ifs <;> simp [hc,hret]
  · intro offset
    rw [lineOf_eq_lineNumber,lineOf_eq_lineNumber,bytes_blankText,lineNumber_blankBytes]

/-- Every buffer of a recovery is the source with some lines blanked, one more on each
pass, and the body is that of the last one. -/
theorem recoverBody_preserves (parseBody : ℕ → Rope → Answer β) (source : Rope) :
    (recoverBody parseBody source).bufs.length ≤ maxRecoveryPasses ∧
      (∃ lines : List ℕ, lines.Nodup ∧
        (recoverBody parseBody source).bufs.length ≤ lines.length + 1 ∧
        ∀ i buf, (recoverBody parseBody source).bufs[i]? = some buf →
          ∃ text, fromUtf8 buf = some text ∧ buf = bytes text ∧
            Preserves source (lines.take i) text) ∧
      ∀ body, (recoverBody parseBody source).body = some body → ∃ buf text,
        (recoverBody parseBody source).bufs.getLast? = some buf ∧ fromUtf8 buf = some text ∧
          parseBody ((recoverBody parseBody source).bufs.length - 1) text = .body body := by
  have hnone : blankBytes [] (bytes source) = bytes source :=
    blankWith_of_not_mem 0 (bytes source) fun _ _ _ => List.not_mem_nil
  obtain ⟨lines,hnodup,hcount,hbufs⟩ := recoverFrom_bufs parseBody source maxRecoveryPasses 0 [] []
    List.nodup_nil (fun _ h => absurd h List.not_mem_nil)
  rw [hnone] at hcount hbufs
  refine ⟨hcount.trans (Nat.min_le_left _ _),
    ⟨lines,hnodup,hcount.trans (Nat.min_le_right _ _),fun i buf hbuf => ?_⟩,fun body hbody => ?_⟩
  · have hblanked := hbufs i buf hbuf
    rw [List.nil_append,← bytes_blankText] at hblanked
    exact ⟨blankText (lines.take i) source,by rw [hblanked,fromUtf8_bytes],hblanked,
      preserves_blankText source (lines.take i)⟩
  · obtain ⟨buf,text,hlast,hread,hparse⟩ :=
      recoverFrom_body parseBody maxRecoveryPasses 0 (bytes source) [] hbody
    rw [Nat.zero_add] at hparse
    exact ⟨buf,text,hlast,hread,hparse⟩

/-- A parser that finds an error at the start of its first text and accepts the next one. -/
def errorThenBody : ℕ → Rope → Answer Unit
  | 0, _ => .syntaxError 0
  | _+1, _ => .body ()

/-- A carriage return inside a blanked line does not stay where it was. -/
theorem lone_return_blanked : ¬ ∀ (source : Rope) (parseBody : ℕ → Rope → Answer Unit),
    ∀ buf ∈ (recoverBody parseBody source).bufs, ∀ i : ℕ,
      buf[i]? = some cr ↔ (bytes source)[i]? = some cr := by
  intro h
  have hrun : recoverBody errorThenBody ['a','\r','b'] =
      ⟨[bytes ['a','\r','b'],bytes [' ',' ',' ']],some ()⟩ := by
    have hover : overwrite (bytes ['a','\r','b']) 0 3 = bytes [' ',' ',' '] := by decide
    have hbounds : lineBounds (bytes ['a','\r','b']) 0 = (0,3) := by decide
    simp [recoverBody,maxRecoveryPasses,recoverFrom,fromUtf8_bytes,errorThenBody,hbounds,
      hover,-bytes_cons]
  have hbyte := h ['a','\r','b'] errorThenBody (bytes [' ',' ',' ']) (by rw [hrun]; simp) 1
  exact absurd (hbyte.mpr (by decide)) (by decide)

end Recovery
end TerraformLs
