import TerraformLs.RopeLines

/-! The edits of a formatting pass. A diff by lines says which lines change, the rope
says where the lines of that number are, and positions carry this to the editor. -/
namespace TerraformLs
namespace Formatting

open Outcome Loops Rope LineBreaks

/-- Lines as the diff splits them: at line feeds, also after a carriage return, and at
carriage returns. -/
def endsDiffLine (c : Char) (rest : Rope) : Bool := endsFeed c rest || endsReturn c rest

def splitLines (text : Rope) : List Rope := lines endsDiffLine text

inductive DiffOp
  | equal (oldIndex newIndex len : ℕ)
  | delete (oldIndex oldLen newIndex : ℕ)
  | insert (oldIndex newIndex newLen : ℕ)
  | replace (oldIndex oldLen newIndex newLen : ℕ)
  deriving DecidableEq

namespace DiffOp

def oldIndex : DiffOp → ℕ
  | equal i _ _ | delete i _ _ | insert i _ _ | replace i _ _ _ => i

def oldLen : DiffOp → ℕ
  | equal _ _ len | delete _ len _ | replace _ len _ _ => len
  | insert _ _ _ => 0

def newIndex : DiffOp → ℕ
  | equal _ j _ | delete _ _ j | insert _ j _ | replace _ _ j _ => j

def newLen : DiffOp → ℕ
  | equal _ _ len | insert _ _ len | replace _ _ _ len => len
  | delete _ _ _ => 0

def isEqual : DiffOp → Bool
  | equal _ _ _ => true
  | _ => false

end DiffOp

section edits

variable (rope : Rope)

/-- The place of a line, by the lines of the rope; past the last one it is the end. -/
def lineByte (line : ℕ) : Scan ℕ :=
  if lenLines rope ≤ line then return lenBytes rope else lineToByte rope line

def linePos (line : ℕ) : Scan Position := do
  let byte ← lineByte rope line
  return match offsetPosition rope byte with
    | .ok pos => pos
    | .error _ => ⟨0,0⟩

def takeNew (newLines : List Rope) (start len : ℕ) : Rope :=
  if start + len ≤ newLines.length then ((newLines.drop start).take len).flatten else []

/-- The lines of the rope that an operation changes, and what they become. -/
def hunk (newLines : List Rope) : DiffOp → Option (ℕ × ℕ × Rope)
  | .equal _ _ _ => none
  | .delete oldIndex oldLen _ => some (oldIndex,oldIndex + oldLen,[])
  | .insert oldIndex newIndex newLen =>
    some (oldIndex,oldIndex,takeNew newLines newIndex newLen)
  | .replace oldIndex oldLen newIndex newLen =>
    some (oldIndex,oldIndex + oldLen,takeNew newLines newIndex newLen)

def hunkEdit (oldStart oldEnd : ℕ) (newText : Rope) : Scan TextEdit := do
  let start ← linePos rope oldStart
  let stop ← linePos rope oldEnd
  return ⟨⟨start,stop⟩,String.ofList newText⟩

def opEdits (newLines : List Rope) : List DiffOp → Scan (List TextEdit)
  | [] => return []
  | op::ops =>
    match hunk newLines op with
    | none => opEdits newLines ops
    | some (oldStart,oldEnd,newText) => do
      let edit ← hunkEdit rope oldStart oldEnd newText
      let edits ← opEdits newLines ops
      return edit :: edits

def minimalTextEdits (new : Rope) (ops : List DiffOp) : Scan (List TextEdit) :=
  opEdits rope (splitLines new) ops

end edits

/-! ## What the edits are for -/

/-- The operations go through both lists of lines from these on, in order, and what they
keep is the same in both. -/
def Correct (old new : List Rope) : ℕ → ℕ → List DiffOp → Prop
  | i, j, [] => i = old.length ∧ j = new.length
  | i, j, op::ops =>
    (op.oldIndex = i ∧ op.newIndex = j) ∧
      (i + op.oldLen ≤ old.length ∧ j + op.newLen ≤ new.length) ∧
      (op.isEqual = true → (old.drop i).take op.oldLen = (new.drop j).take op.newLen) ∧
      Correct old new (i + op.oldLen) (j + op.newLen) ops

def IsDiff (old new : Rope) (ops : List DiffOp) : Prop :=
  Correct (splitLines old) (splitLines new) 0 0 ops

/-- The place of an edit, by the lines of positions. -/
def Denotes (old : Rope) (edit : TextEdit) (span : Span) : Prop :=
  lspPositionToByteOffset old edit.range.start = .ok span.1 ∧
    lspPositionToByteOffset old edit.range.end = .ok span.2

/-- `String::replace_range`. -/
def replaceRange (text : Rope) (start stop : ℕ) (newText : Rope) : Scan Rope :=
  if start ≤ stop then do
    let before ← sliceTo text start
    let after ← sliceFrom text stop
    return before ++ newText ++ after
  else .panicked

/-- The places of the edits are those of the old text, so the last is applied first. -/
def applyEdits (old : Rope) : List (TextEdit × Span) → Scan Rope
  | [] => return old
  | e::es => do
    let text ← applyEdits old es
    replaceRange text e.2.1 e.2.2 e.1.newText.toList

/-- The offset at which a line starts, by the lines of the diff. -/
def lineOffset (text : Rope) (k : ℕ) : ℕ := lenBytes ((splitLines text).take k).flatten

/-- The lines that the diff keeps. -/
def Kept (old : Rope) (ops : List DiffOp) (line : Span) : Prop :=
  ∃ op ∈ ops, op.isEqual = true ∧ ∃ k, op.oldIndex ≤ k ∧ k < op.oldIndex + op.oldLen ∧
    line = (lineOffset old k,lineOffset old (k+1))

/-- The edits are apart from one another and in order, touch the inside of no line that
is kept, and lead from the old text to the new one. -/
structure RoundTrips (old new : Rope) (ops : List DiffOp) (edits : List (TextEdit × Span)) :
    Prop where
  denotes : ∀ e ∈ edits, Denotes old e.1 e.2
  proper : ∀ e ∈ edits, e.2.1 ≤ e.2.2
  ordered : edits.Pairwise fun e f => e.2.2 ≤ f.2.1
  keeps : ∀ e ∈ edits, ∀ line, Kept old ops line → ¬(e.2.1 < line.2 ∧ line.1 < e.2.2)
  applied : applyEdits old edits = .ok new

/-- The edits of a diff do what they are for. -/
def Faithful (old new : Rope) (ops : List DiffOp) : Prop :=
  ∃ edits, minimalTextEdits old new ops = .ok (edits.map Prod.fst) ∧ RoundTrips old new ops edits

/-- Each operation that changes something begins and ends at such a line. -/
def HunksAt (K : ℕ → Prop) (ops : List DiffOp) : Prop :=
  ∀ op ∈ ops, op.isEqual = false →
    (op.oldIndex = 0 ∨ K op.oldIndex) ∧
      (op.oldIndex + op.oldLen = 0 ∨ K (op.oldIndex + op.oldLen))

def endsSeparator (c : Char) (_rest : Rope) : Bool := unicodeBreaks.contains c

/-- No break that only the rope counts ends before the line, and the numbers of its
position fit into 32 bits. -/
structure Sound (old : Rope) (k : ℕ) : Prop where
  unbroken : (breaksFrom Char.utf8Size endsSeparator 0 old).countP (· < lineOffset old k) = 0
  fits : ∀ pos, byteOffsetToLspPosition old (lineOffset old k) = .ok pos →
    pos.line < 2^32 ∧ pos.character < 2^32

/-! ## Where the position of a line leads -/

section positions

variable {rope : Rope} {k : ℕ}

/-- A position that is cut to 32 bits leads no further, and back to its offset just where
nothing is cut off. -/
theorem truncated_position {offset : ℕ} (h : Seam rope offset) (hcrlf : ¬InsideCrlf rope offset) :
    ∃ pos offset', byteOffsetToLspPosition rope offset = .ok pos ∧
      lspPositionToByteOffset rope pos.truncated = .ok offset' ∧ offset' ≤ offset ∧
      (offset' = offset ↔ pos.line < 2^32 ∧ pos.character < 2^32) := by
  obtain ⟨pre,rest,rfl,rfl⟩ := h
  obtain ⟨before,left,right,after,t,hline,rfl,ht⟩ := exists_around_visible hcrlf
  set n := (before ++ left).count '\n' with hn
  have hcount : n < (lineStartBytes (before ++ left ++ rest)).length := by
    rw [length_lineStartBytes,List.count_append]
    omega
  have hback : lspPositionToByteOffset (before ++ left ++ rest) ⟨n,lenUtf16Cu left⟩ =
      .ok (lenBytes (before ++ left)) := by
    rw [lspPositionToByteOffset_of_lineAt hline,ht,utf16CuToChar_lenUtf16Cu,List.take_left,
      lenBytes_append]
  have hlower : (⟨n,lenUtf16Cu left⟩ : Position).truncated.line <
      (lineStartBytes (before ++ left ++ rest)).length := (Nat.mod_le n (2^32)).trans_lt hcount
  obtain ⟨offset',hoffset',-,-,hlineOf⟩ := position_onLine hlower
  refine ⟨⟨n,lenUtf16Cu left⟩,offset',byteOffsetToLspPosition_of_lineAt hline rfl,hoffset',
    position_monotone ?_ hoffset' hback,?_⟩
  · rcases (Nat.mod_le n (2^32)).lt_or_eq with hlt | heq
    · exact .inl hlt
    · exact .inr ⟨heq,Nat.mod_le _ _⟩
  constructor
  · rintro rfl
    have hlines : n % 2^32 = n := by
      rw [lineOf_of_lineAt hline (by rw [lenBytes_append]; omega)
        (by rw [lenBytes_append,lenBytes_append]; omega)] at hlineOf
      exact hlineOf.symm
    refine ⟨Nat.mod_eq_iff_lt (by decide) |>.mp hlines,?_⟩
    by_contra hwide
    have hcut : lenUtf16Cu left % 2^32 < lenUtf16Cu left :=
      (Nat.mod_lt _ (by decide)).trans_le (Nat.le_of_not_lt hwide)
    rw [Position.truncated] at hoffset'
    simp only [hlines] at hoffset'
    rw [lspPositionToByteOffset_of_lineAt hline,ht] at hoffset'
    have hclamp := utf16CuToChar_clamped left t (lenUtf16Cu left % 2^32)
    rw [Nat.min_eq_left hcut.le] at hclamp
    have hlt := utf16CuToChar_lt left hcut
    rw [hclamp,List.take_append_of_le_length hlt.le] at hoffset'
    have hoffset := Except.ok.inj hoffset'
    rw [lenBytes_append,Nat.add_left_cancel_iff] at hoffset
    exact (lenBytes_take_lt left hlt).ne hoffset
  · rintro ⟨hl,hc⟩
    rw [Position.truncated,Nat.mod_eq_of_lt hl,Nat.mod_eq_of_lt hc,hback] at hoffset'
    exact (Except.ok.inj hoffset').symm

/-- No line of the rope starts inside of a line end. -/
theorem not_insideCrlf_ropeStart (rope : Rope) (k : ℕ) :
    ¬InsideCrlf rope ((ropeStarts rope).getD k (lenBytes rope)) := by
  rintro ⟨before,after,rfl,hinside⟩
  rw [List.getD_eq_getElem?_getD] at hinside
  cases hget : (ropeStarts (before ++ '\r' :: '\n' :: after))[k]? with
  | none =>
    rw [hget,Option.getD_none,lenBytes_append,lenBytes_cons,lenBytes_cons] at hinside
    have hr : Char.utf8Size '\r' = 1 := rfl
    have hn : Char.utf8Size '\n' = 1 := rfl
    omega
  | some i =>
    rw [hget,Option.getD_some] at hinside
    rcases List.mem_cons.mp (List.mem_of_getElem? hget) with hzero | hbreak
    · omega
    obtain ⟨a,c,b,hsplit,hends,hi⟩ := mem_breaksFrom.mp hbreak
    have hsplit' : (before ++ ['\r']) ++ '\n' :: after = (a ++ [c]) ++ b := by simpa using hsplit
    have hlen : lenBytes (before ++ ['\r']) = lenBytes (a ++ [c]) := by
      rw [weight_utf8Size] at hi
      rw [lenBytes_append,lenBytes_append,lenBytes_cons,lenBytes_cons,lenBytes_nil]
      have hr : Char.utf8Size '\r' = 1 := rfl
      omega
    obtain ⟨hac,rfl⟩ := append_inj_lenBytes hsplit' hlen
    obtain ⟨rfl,hc⟩ := List.append_inj' hac rfl
    cases hc
    exact absurd hends (by simp [endsRopeLine,endsFeed,endsExtra,endsReturn,unicodeBreaks])

theorem lineByte_eq (rope : Rope) (k : ℕ) :
    lineByte rope k = .ok ((ropeStarts rope).getD k (lenBytes rope)) := by
  rw [lineByte]
  split_ifs with h
  · rw [List.getD_eq_getElem?_getD,List.getElem?_eq_none h]
    rfl
  · rw [lineToByte,if_pos (Nat.le_of_not_le h)]

theorem lineOffset_eq (rope : Rope) (k : ℕ) : lineOffset rope k =
    (starts Char.utf8Size endsDiffLine rope).getD k (lenBytes rope) :=
  (getD_starts endsDiffLine rope k).symm

theorem endsRopeLine_eq_diff (c : Char) (rest : Rope) :
    endsRopeLine c rest = (endsDiffLine c rest || endsSeparator c rest) := by
  rw [endsRopeLine,endsExtra,endsDiffLine,endsSeparator,Bool.or_assoc]

theorem endsSeparator_of_endsDiffLine (c : Char) (rest : Rope) (h : endsDiffLine c rest = true) :
    endsSeparator c rest = false := by
  have hc : c = '\n' ∨ c = '\r' := by
    rw [endsDiffLine,endsFeed,endsReturn,Bool.or_eq_true,Bool.and_eq_true] at h
    simp only [decide_eq_true_eq] at h
    exact h.imp_right And.left
  rcases hc with rfl | rfl <;> rfl

theorem ropeStart_le_lineOffset (rope : Rope) (k : ℕ) :
    (ropeStarts rope).getD k (lenBytes rope) ≤ lineOffset rope k := by
  rw [lineOffset_eq]
  exact starts_getD_le Char.utf8Size_pos endsRopeLine_eq_diff endsSeparator_of_endsDiffLine k

theorem ropeStart_eq_lineOffset_iff (h : k ≤ (splitLines rope).length) :
    (ropeStarts rope).getD k (lenBytes rope) = lineOffset rope k ↔
      (breaksFrom Char.utf8Size endsSeparator 0 rope).countP (· < lineOffset rope k) = 0 := by
  rw [lineOffset_eq]
  exact starts_getD_eq_iff Char.utf8Size_pos endsRopeLine_eq_diff endsSeparator_of_endsDiffLine
    (countP_line_start Char.utf8Size_pos h)

/-- The position of a line leads back to its start just where the line is sound. -/
theorem linePos_spec (h : k ≤ (splitLines rope).length) : ∃ pos offset,
    linePos rope k = .ok pos ∧ lspPositionToByteOffset rope pos = .ok offset ∧
      offset ≤ lineOffset rope k ∧ (offset = lineOffset rope k ↔ Sound rope k) := by
  have hseam : Seam rope ((ropeStarts rope).getD k (lenBytes rope)) := seam_getD_starts k
  obtain ⟨pos,offset,hpos,hoffset,hle,hiff⟩ :=
    truncated_position hseam (not_insideCrlf_ropeStart rope k)
  have hstart := ropeStart_le_lineOffset rope k
  have hstartIff := ropeStart_eq_lineOffset_iff h
  refine ⟨pos.truncated,offset,?_,hoffset,hle.trans hstart,?_⟩
  · rw [linePos,lineByte_eq]
    change ok (match offsetPosition rope _ with | .ok pos => pos | .error _ => _) = _
    rw [offsetPosition,hpos]
    rfl
  constructor
  · intro heq
    have hbyte : (ropeStarts rope).getD k (lenBytes rope) = lineOffset rope k := by omega
    refine ⟨hstartIff.mp hbyte,fun pos' hpos' => ?_⟩
    rw [hbyte] at hpos hiff
    cases hpos.symm.trans hpos'
    exact hiff.mp heq
  · intro hsound
    have hbyte := hstartIff.mpr hsound.unbroken
    rw [hbyte] at hpos hiff
    exact hiff.mpr (hsound.fits pos hpos)

end positions

/-! ## Applying the edits -/

section applying

variable {old new : Rope} {newLines : List Rope} {i j : ℕ} {op : DiffOp} {ops : List DiffOp}
  {K : ℕ → Prop}

theorem hunk_of_isEqual (h : op.isEqual = true) : hunk newLines op = none := by
  cases op <;> first | rfl | cases h

theorem hunk_of_change (h : op.isEqual = false) : hunk newLines op =
    some (op.oldIndex,op.oldIndex + op.oldLen,takeNew newLines op.newIndex op.newLen) := by
  cases op with
  | equal => cases h
  | delete oldIndex oldLen newIndex =>
    simp [hunk,takeNew,DiffOp.oldIndex,DiffOp.oldLen,DiffOp.newLen]
  | insert oldIndex newIndex newLen => rfl
  | replace oldIndex oldLen newIndex newLen => rfl

theorem lineOffset_mono (old : Rope) {m n : ℕ} (h : m ≤ n) :
    lineOffset old m ≤ lineOffset old n := by
  rw [lineOffset_eq,lineOffset_eq]
  exact getD_mono (starts_pairwise Char.utf8Size_pos) (fun _ hy => le_of_mem_starts hy) h

theorem replaceRange_middle (a b c t : Rope) :
    replaceRange (a ++ b ++ c) (lenBytes a) (lenBytes (a ++ b)) t = .ok (a ++ t ++ c) := by
  have hle : lenBytes a ≤ lenBytes (a ++ b) := by
    rw [lenBytes_append]
    exact Nat.le_add_right _ _
  have hto : sliceTo (a ++ b ++ c) (lenBytes a) = .ok a := by
    rw [sliceTo,List.append_assoc]
    exact slice_prefix a (b ++ c)
  have hfrom : sliceFrom (a ++ b ++ c) (lenBytes (a ++ b)) = .ok c := slice_suffix (a ++ b) c
  rw [replaceRange,if_pos hle,hto]
  change (sliceFrom (a ++ b ++ c) (lenBytes (a ++ b)) >>= _) = _
  rw [hfrom]
  rfl

theorem take_add_flatten (ls : List Rope) (m n : ℕ) :
    (ls.take (m+n)).flatten = (ls.take m).flatten ++ ((ls.drop m).take n).flatten := by
  rw [List.take_add,List.flatten_append]

theorem drop_add_flatten (ls : List Rope) (m n : ℕ) :
    ((ls.drop m).take n).flatten ++ (ls.drop (m+n)).flatten = (ls.drop m).flatten := by
  rw [← List.flatten_append,← List.drop_drop,List.take_append_drop]

/-- The edits of the operations from a line on: they touch nothing before it, and leave
what stands there in front of the new text from its line on. -/
structure RoundTripsFrom (old : Rope) (newLines : List Rope) (i j : ℕ) (ops : List DiffOp)
    (edits : List (TextEdit × Span)) : Prop where
  denotes : ∀ e ∈ edits, Denotes old e.1 e.2
  proper : ∀ e ∈ edits, e.2.1 ≤ e.2.2
  ordered : edits.Pairwise fun e f => e.2.2 ≤ f.2.1
  keeps : ∀ e ∈ edits, ∀ line, Kept old ops line → ¬(e.2.1 < line.2 ∧ line.1 < e.2.2)
  behind : ∀ e ∈ edits, lineOffset old i ≤ e.2.1
  applied : applyEdits old edits =
    .ok (((splitLines old).take i).flatten ++ (newLines.drop j).flatten)

/-- What is kept is kept where the operations are. -/
theorem kept_behind (h : Correct (splitLines old) newLines i j ops) {line : Span}
    (hk : Kept old ops line) : lineOffset old i ≤ line.1 := by
  induction ops generalizing i j with
  | nil =>
    obtain ⟨op,hop,-⟩ := hk
    cases hop
  | cons op ops ih =>
    obtain ⟨⟨hi,-⟩,-,-,hrest⟩ := h
    obtain ⟨found,hfound,heq,k,hlow,hhigh,rfl⟩ := hk
    rcases List.mem_cons.mp hfound with rfl | hfound
    · exact lineOffset_mono old (hi ▸ hlow)
    · exact (lineOffset_mono old (Nat.le_add_right i _)).trans
        (ih hrest ⟨found,hfound,heq,k,hlow,hhigh,rfl⟩)

theorem kept_cons {line : Span} (h : Kept old (op :: ops) line) :
    Kept old ops line ∨ op.isEqual = true ∧ line.2 ≤ lineOffset old (op.oldIndex + op.oldLen) := by
  obtain ⟨found,hfound,heq,k,hlow,hhigh,rfl⟩ := h
  rcases List.mem_cons.mp hfound with rfl | hfound
  · exact .inr ⟨heq,lineOffset_mono old hhigh⟩
  · exact .inl ⟨found,hfound,heq,k,hlow,hhigh,rfl⟩

/-- An operation that keeps its lines goes on with the edits of the others. -/
theorem roundTripsFrom_equal {edits : List (TextEdit × Span)} (heq : op.isEqual = true)
    (h : Correct (splitLines old) newLines i j (op :: ops))
    (hrest : RoundTripsFrom old newLines (i + op.oldLen) (j + op.newLen) ops edits) :
    RoundTripsFrom old newLines i j (op :: ops) edits := by
  obtain ⟨⟨rfl,rfl⟩,-,hsame,-⟩ := h
  refine ⟨hrest.denotes,hrest.proper,hrest.ordered,fun e he line hk hcover => ?_,
    fun e he => (lineOffset_mono old (Nat.le_add_right _ _)).trans (hrest.behind e he),?_⟩
  · rcases kept_cons hk with hk | ⟨-,hend⟩
    · exact hrest.keeps e he line hk hcover
    · exact absurd (hcover.1.trans_le hend) (Nat.not_lt.mpr (hrest.behind e he))
  · rw [hrest.applied,take_add_flatten,List.append_assoc,hsame heq,drop_add_flatten]

/-- An operation that changes lines puts its edit in front of those of the others. -/
theorem roundTripsFrom_change {edits : List (TextEdit × Span)} {edit : TextEdit}
    (hchange : op.isEqual = false) (h : Correct (splitLines old) newLines i j (op :: ops))
    (hrest : RoundTripsFrom old newLines (i + op.oldLen) (j + op.newLen) ops edits)
    (hedit : Denotes old edit (lineOffset old i,lineOffset old (i + op.oldLen)))
    (htext : edit.newText.toList = takeNew newLines j op.newLen) :
    RoundTripsFrom old newLines i j (op :: ops)
      ((edit,(lineOffset old i,lineOffset old (i + op.oldLen))) :: edits) := by
  have hstart := lineOffset_mono old (Nat.le_add_right i op.oldLen)
  obtain ⟨⟨rfl,rfl⟩,⟨-,hnew⟩,-,hcorrect⟩ := h
  refine ⟨?_,?_,?_,?_,?_,?_⟩
  · exact List.forall_mem_cons.mpr ⟨hedit,hrest.denotes⟩
  · exact List.forall_mem_cons.mpr ⟨hstart,hrest.proper⟩
  · exact List.pairwise_cons.mpr ⟨hrest.behind,hrest.ordered⟩
  · refine List.forall_mem_cons.mpr ⟨fun line hk hcover => ?_,fun e he line hk hcover => ?_⟩
    · rcases kept_cons hk with hk | ⟨heq,-⟩
      · exact absurd hcover.2 (Nat.not_lt.mpr (kept_behind hcorrect hk))
      · rw [hchange] at heq
        cases heq
    · rcases kept_cons hk with hk | ⟨heq,-⟩
      · exact hrest.keeps e he line hk hcover
      · rw [hchange] at heq
        cases heq
  · exact List.forall_mem_cons.mpr ⟨Nat.le_refl _,fun e he => hstart.trans (hrest.behind e he)⟩
  · rw [applyEdits,hrest.applied]
    change replaceRange _ _ _ _ = _
    rw [htext,takeNew,if_pos hnew,lineOffset,lineOffset,take_add_flatten,replaceRange_middle,
      List.append_assoc,drop_add_flatten]

theorem linePos_of_sound {k : ℕ} (h : k ≤ (splitLines old).length) (hsound : Sound old k) :
    ∃ pos, linePos old k = .ok pos ∧
      lspPositionToByteOffset old pos = .ok (lineOffset old k) := by
  obtain ⟨pos,offset,hpos,hoffset,-,hiff⟩ := linePos_spec h
  exact ⟨pos,hpos,hiff.mpr hsound ▸ hoffset⟩

theorem hunkEdit_of_sound {m n : ℕ} (hm : m ≤ (splitLines old).length)
    (hn : n ≤ (splitLines old).length) (hm' : Sound old m) (hn' : Sound old n) (newText : Rope) :
    ∃ edit, hunkEdit old m n newText = .ok edit ∧
      Denotes old edit (lineOffset old m,lineOffset old n) ∧ edit.newText.toList = newText := by
  obtain ⟨start,hstart,hfrom⟩ := linePos_of_sound hm hm'
  obtain ⟨stop,hstop,hto⟩ := linePos_of_sound hn hn'
  refine ⟨⟨⟨start,stop⟩,String.ofList newText⟩,?_,⟨hfrom,hto⟩,String.toList_ofList⟩
  rw [hunkEdit,hstart]
  change (linePos old n >>= _) = _
  rw [hstop]
  rfl

theorem bounds_of_correct {oldLines : List Rope} (h : Correct oldLines newLines i j ops) :
    ∀ op ∈ ops, op.oldIndex + op.oldLen ≤ oldLines.length := by
  induction ops generalizing i j with
  | nil => simp
  | cons op ops ih =>
    obtain ⟨⟨hi,-⟩,⟨hold,-⟩,-,hrest⟩ := h
    exact List.forall_mem_cons.mpr ⟨hi ▸ hold,ih hrest⟩

/-- From the last operation to the first. -/
theorem opEdits_roundTrips (hcorrect : Correct (splitLines old) newLines i j ops)
    (hsound : ∀ op ∈ ops, op.isEqual = false →
      Sound old op.oldIndex ∧ Sound old (op.oldIndex + op.oldLen)) :
    ∃ edits, opEdits old newLines ops = .ok (edits.map Prod.fst) ∧
      RoundTripsFrom old newLines i j ops edits := by
  induction ops generalizing i j with
  | nil =>
    obtain ⟨rfl,rfl⟩ := hcorrect
    refine ⟨[],rfl,by simp,by simp,List.Pairwise.nil,by simp,by simp,?_⟩
    rw [applyEdits,List.take_length,List.drop_length,splitLines,flatten_lines,List.flatten_nil,
      List.append_nil]
    rfl
  | cons op ops ih =>
    obtain ⟨⟨hi,hj⟩,⟨hold,hnew⟩,-,hrest⟩ := id hcorrect
    obtain ⟨edits,hedits,htrip⟩ := ih hrest fun o ho => hsound o (List.mem_cons_of_mem op ho)
    cases heq : op.isEqual with
    | true =>
      exact ⟨edits,by rw [opEdits,hunk_of_isEqual heq]; exact hedits,
        roundTripsFrom_equal heq hcorrect htrip⟩
    | false =>
      obtain ⟨hstart,hstop⟩ := hsound op List.mem_cons_self heq
      obtain ⟨edit,hedit,hdenotes,htext⟩ := hunkEdit_of_sound
        (hi ▸ (Nat.le_add_right _ _).trans hold) (hi ▸ hold) hstart hstop
        (takeNew newLines op.newIndex op.newLen)
      rw [hi] at hedit hdenotes
      rw [hj] at hedit htext
      refine ⟨(edit,_) :: edits,?_,roundTripsFrom_change heq hcorrect htrip hdenotes htext⟩
      rw [opEdits,hunk_of_change heq,hi,hj]
      change (hunkEdit old _ _ _ >>= _) = _
      rw [hedit]
      change (opEdits old newLines ops >>= _) = _
      rw [hedits]
      rfl

theorem faithful_of_sound (hdiff : IsDiff old new ops) (hsound : ∀ op ∈ ops, op.isEqual = false →
    Sound old op.oldIndex ∧ Sound old (op.oldIndex + op.oldLen)) : Faithful old new ops := by
  obtain ⟨edits,hedits,htrip⟩ := opEdits_roundTrips hdiff hsound
  refine ⟨edits,hedits,htrip.denotes,htrip.proper,htrip.ordered,htrip.keeps,?_⟩
  rw [htrip.applied,List.take_zero,List.drop_zero,splitLines,flatten_lines,List.flatten_nil,
    List.nil_append]

theorem sound_zero (old : Rope) : Sound old 0 := by
  obtain ⟨before,left,right,after,hline,hnil,-⟩ := LineAt.exists_around '\n' [] old
  obtain ⟨rfl,rfl⟩ := List.append_eq_nil_iff.mp hnil.symm
  have hpos := byteOffsetToLspPosition_of_lineAt hline rfl
  refine ⟨by simp [lineOffset,lenBytes],fun pos h => ?_⟩
  cases hpos.symm.trans h
  exact ⟨by simp,by simp [lenUtf16Cu]⟩

end applying

/-! ## A diff that a line that is not sound spoils -/

section spoiled

variable {old : Rope} {k : ℕ}

/-- The first lines are removed, the others are kept. -/
def dropLines (old : Rope) (k : ℕ) : List DiffOp :=
  [.delete 0 k 0,.equal k 0 ((splitLines old).length - k)]

theorem isDiff_dropLines (h : k ≤ (splitLines old).length) :
    IsDiff old ((splitLines old).drop k).flatten (dropLines old k) := by
  have hnew : splitLines ((splitLines old).drop k).flatten = (splitLines old).drop k :=
    lines_drop endsDiffLine old k
  have hlen : k + ((splitLines old).length - k) = (splitLines old).length :=
    Nat.add_sub_of_le h
  rw [IsDiff,hnew]
  refine ⟨⟨rfl,rfl⟩,⟨by simpa [DiffOp.oldLen] using h,by simp [DiffOp.newLen]⟩,?_,
    ⟨by simp [DiffOp.oldIndex,DiffOp.oldLen],rfl⟩,?_,fun _ => ?_,?_⟩
  · intro heq
    cases heq
  · simp [DiffOp.oldLen,DiffOp.newLen,hlen]
  · simp [DiffOp.oldLen,DiffOp.newLen]
  · simp [Correct,DiffOp.oldLen,DiffOp.newLen,hlen]

theorem hunksAt_dropLines {K : ℕ → Prop} (h : K k) : HunksAt K (dropLines old k) := by
  intro op hop hchange
  rcases List.mem_cons.mp hop with rfl | hop
  · exact ⟨.inl rfl,.inr (by simpa [DiffOp.oldIndex,DiffOp.oldLen] using h)⟩
  · rw [List.mem_singleton.mp hop] at hchange
    cases hchange

theorem replaceRange_ok {text newText result : Rope} {start stop : ℕ}
    (h : replaceRange text start stop newText = .ok result) :
    lenBytes result + stop = lenBytes text + lenBytes newText + start := by
  rw [replaceRange] at h
  split_ifs at h
  have hstart : Seam text start := by
    by_contra hnot
    rw [sliceTo,slice_panics (.inr hnot)] at h
    cases h
  obtain ⟨before,hbefore,hlen⟩ := sliceTo_safe hstart
  rw [hbefore] at h
  have hstop : Seam text stop := by
    by_contra hnot
    change (sliceFrom text stop >>= _) = _ at h
    rw [sliceFrom,slice_panics (.inl hnot)] at h
    cases h
  obtain ⟨after,hafter,hlen'⟩ := sliceFrom_safe hstop
  change (sliceFrom text stop >>= _) = _ at h
  rw [hafter] at h
  cases h
  rw [lenBytes_append,lenBytes_append]
  omega

/-- What is left has the length of the lines behind just where the position of the line
leads to its start. -/
theorem sound_of_faithful_dropLines (h : k ≤ (splitLines old).length)
    (hf : Faithful old ((splitLines old).drop k).flatten (dropLines old k)) : Sound old k := by
  obtain ⟨edits,hedits,htrip⟩ := hf
  obtain ⟨start,hstart,hfrom⟩ := linePos_of_sound (Nat.zero_le _) (sound_zero old)
  obtain ⟨stop,offset,hstop,hto,-,hiff⟩ := linePos_spec h
  have hremoved : hunkEdit old 0 k [] = .ok ⟨⟨start,stop⟩,""⟩ := by
    rw [hunkEdit,hstart]
    change (linePos old k >>= _) = _
    rw [hstop]
    rfl
  have hone : minimalTextEdits old ((splitLines old).drop k).flatten (dropLines old k) =
      .ok [⟨⟨start,stop⟩,""⟩] := by
    rw [minimalTextEdits,dropLines,opEdits,hunk,Nat.zero_add]
    change (hunkEdit old 0 k [] >>= _) = _
    rw [hremoved]
    rfl
  have hmap := Outcome.ok.inj (hone.symm.trans hedits)
  obtain ⟨⟨edit,span⟩,rest,rfl,hedit,hrest⟩ := List.map_eq_cons_iff.mp hmap.symm
  obtain rfl := List.map_eq_nil_iff.mp hrest
  obtain rfl : edit = ⟨⟨start,stop⟩,""⟩ := hedit
  obtain ⟨hspan,hspan'⟩ := htrip.denotes _ List.mem_cons_self
  have happlied : replaceRange old span.1 span.2 [] = .ok ((splitLines old).drop k).flatten :=
    htrip.applied
  have hlen := replaceRange_ok happlied
  have hzero := Except.ok.inj (hfrom.symm.trans hspan)
  have hoffset := Except.ok.inj (hto.symm.trans hspan')
  have hsplit := congrArg lenBytes (flatten_lines endsDiffLine old)
  rw [← List.take_append_drop k (lines endsDiffLine old),List.flatten_append,lenBytes_append]
    at hsplit
  refine hiff.mp ?_
  simp only [lineOffset,splitLines,List.take_zero,List.flatten_nil,lenBytes_nil] at *
  omega

end spoiled

/-- The edits of the diffs that have their hunks at some lines all do what they are for just
where these lines are sound. -/
theorem faithful_iff_sound (old : Rope) (K : ℕ → Prop) :
    (∀ new ops, IsDiff old new ops → HunksAt K ops → Faithful old new ops) ↔
      ∀ k ≤ (splitLines old).length, K k → Sound old k := by
  constructor
  · intro hall k hk hK
    exact sound_of_faithful_dropLines hk
      (hall _ _ (isDiff_dropLines hk) (hunksAt_dropLines hK))
  · intro hsound new ops hdiff hunks
    refine faithful_of_sound hdiff fun op hop hchange => ?_
    have hbound := bounds_of_correct hdiff op hop
    obtain ⟨hstart,hstop⟩ := hunks op hop hchange
    constructor
    · rcases hstart with hzero | hK
      · exact hzero ▸ sound_zero old
      · exact hsound _ (by omega) hK
    · rcases hstop with hzero | hK
      · exact hzero ▸ sound_zero old
      · exact hsound _ hbound hK

/-- A line separator in a string: the line below it is reformatted, and the end of the string
is overwritten instead. -/
theorem separator_before_hunk_unfaithful :
    IsDiff "x = \"\u2028\"\ny=1\n".toList "x = \"\u2028\"\ny = 1\n".toList
        [.equal 0 0 1,.replace 1 1 1 1] ∧
      ¬Faithful "x = \"\u2028\"\ny=1\n".toList "x = \"\u2028\"\ny = 1\n".toList
        [.equal 0 0 1,.replace 1 1 1 1] := by
  have hlines : splitLines "x = \"\u2028\"\ny=1\n".toList =
      ["x = \"\u2028\"\n".toList,"y=1\n".toList] := by decide +kernel
  have hlines' : splitLines "x = \"\u2028\"\ny = 1\n".toList =
      ["x = \"\u2028\"\n".toList,"y = 1\n".toList] := by decide +kernel
  constructor
  · rw [IsDiff,hlines,hlines']
    simp [Correct,DiffOp.oldIndex,DiffOp.newIndex,DiffOp.oldLen,DiffOp.newLen,DiffOp.isEqual]
  · rintro ⟨edits,hedits,htrip⟩
    have hone : minimalTextEdits "x = \"\u2028\"\ny=1\n".toList
        "x = \"\u2028\"\ny = 1\n".toList [.equal 0 0 1,.replace 1 1 1 1] =
          .ok [⟨⟨⟨0,6⟩,⟨1,0⟩⟩,"y = 1\n"⟩] := by decide +kernel
    obtain ⟨⟨edit,start,stop⟩,rest,rfl,hedit,hrest⟩ :=
      List.map_eq_cons_iff.mp (Outcome.ok.inj (hone.symm.trans hedits)).symm
    obtain rfl := List.map_eq_nil_iff.mp hrest
    obtain rfl : edit = ⟨⟨⟨0,6⟩,⟨1,0⟩⟩,"y = 1\n"⟩ := hedit
    obtain ⟨hfrom,hto⟩ := htrip.denotes _ List.mem_cons_self
    have hstart : lspPositionToByteOffset "x = \"\u2028\"\ny=1\n".toList ⟨0,6⟩ = .ok 8 := by
      decide +kernel
    have hstop : lspPositionToByteOffset "x = \"\u2028\"\ny=1\n".toList ⟨1,0⟩ = .ok 10 := by
      decide +kernel
    obtain rfl : 8 = start := Except.ok.inj (hstart.symm.trans hfrom)
    obtain rfl : 10 = stop := Except.ok.inj (hstop.symm.trans hto)
    exact absurd htrip.applied (by decide +kernel)

end Formatting
end TerraformLs
