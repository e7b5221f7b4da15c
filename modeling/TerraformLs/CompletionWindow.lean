import TerraformLs.CursorClassification
import TerraformLs.RopeLines

/-! The part of a document that a completion request looks at. The cursor is found by
the lines of positions, and the text around it is cut by the lines of the rope. -/
namespace TerraformLs
namespace Completion

open Outcome Loops Rope Recovery LineBreaks

/-- What the request is answered from. -/
inductive Window
  | tfvars (linePrefix : Rope)
  | tftest (linePrefix : Rope) (offset : ℕ)
  | classify (text : Rope) (offset : ℕ)
  deriving DecidableEq

/-- A classified cursor, with what else of the text its items are computed from. -/
structure Classified where
  context : CompletionContext
  labelClosed : Bool
  line : Option Rope

/-- A `:` asks for completion only after another one. -/
def triggered (rope : Rope) (offset : ℕ) (triggerChar : Option String) : Scan Bool :=
  if triggerChar = some ":" then
    if 2 ≤ offset then do
      let b ← index (bytes rope) (offset - 2)
      return b = ':'.toUInt8
    else return false
  else return true

def windowEnd (rope : Rope) (lineIdx : ℕ) : Scan ℕ :=
  if lineIdx + 1 < lenLines rope then lineToByte rope (lineIdx+1) else return lenBytes rope

def linePrefixAt (rope : Rope) (lineIdx offset : ℕ) : Scan Rope := do
  let curLineStart ← lineToByte rope lineIdx
  slice rope curLineStart offset

section handler

variable (C : CharClass) (uriPath : Url → String)

def isTfvarsUri (uri : Url) : Bool :=
  [".tfvars",".tfvars.json"].any fun suffix => suffix.toList.isSuffixOf (uriPath uri).toList

def cutWindow (uri : Url) (rope : Rope) (lineIdx offset : ℕ) : Scan Window := do
  let lineEnd ← windowEnd rope lineIdx
  if isTfvarsUri uriPath uri then do
    let linePrefix ← linePrefixAt rope lineIdx offset
    return .tfvars linePrefix
  else if isTftestUri uri then do
    let linePrefix ← linePrefixAt rope lineIdx offset
    return .tftest linePrefix offset
  else do
    let text ← sliceTo rope lineEnd
    return .classify text offset

/-- The window of a request; there is none for a position past the last line and for
a colon that is no second one. -/
def window (uri : Url) (rope : Rope) (pos : Position) (triggerChar : Option String) :
    Scan (Option Window) :=
  match lspPositionToByteOffset rope pos with
  | .error _ => return none
  | .ok offset => do
    if ← triggered rope offset triggerChar then
      let cut ← cutWindow uriPath uri rope pos.line offset
      return some cut
    else return none

def labelClosedAfter (text : Rope) (offset : ℕ) : Scan Bool :=
  if lenBytes text < offset then return false
  else do
    let after ← sliceFrom text offset
    let tail ← sliceTo after ((findBytes "\n" after).getD (lenBytes after))
    return (tail.dropWhile fun c => C.isAlphanumeric c || c = '_').head? = some '"'

/-- The line of an index key is looked up once more. -/
def indexLine (rope : Rope) (lineIdx : ℕ) : CompletionContext → Scan (Option Rope)
  | .indexKeyRef _ _ => do
    let found ← line rope lineIdx
    return some found
  | _ => return none

/-- The handler, up to the items: the windows of variable and test files are answered as
they are, any other is classified. -/
def completion (uri : Url) (rope : Rope) (pos : Position) (triggerChar : Option String) :
    Scan (Option (Window × Option Classified)) := do
  match ← window uriPath uri rope pos triggerChar with
  | some (.classify text offset) => do
    let ctx ← classifyContext C text offset
    let labelClosed ← labelClosedAfter C text offset
    let found ← indexLine rope pos.line ctx
    return some (.classify text offset,some ⟨ctx,labelClosed,found⟩)
  | some cut => return some (cut,none)
  | none => return none

end handler

/-! ## What a window has to hold -/

section specification

variable (C : CharClass) (uriPath : Url → String)

/-- The line of a position, its line feed included. -/
def cursorLine (rope : Rope) (lineIdx : ℕ) : ℕ × ℕ :=
  lineByteRange (lineStartBytes rope) lineIdx (lenBytes rope)

/-- The text reaches to the cursor and to the end of its line, and the prefix of the line
is what stands between its start and the cursor. -/
def Window.Holds (rope : Rope) (lineIdx cursor : ℕ) : Window → Prop
  | .tfvars linePrefix => rope.At ((cursorLine rope lineIdx).1,cursor) linePrefix
  | .tftest linePrefix offset =>
    rope.At ((cursorLine rope lineIdx).1,cursor) linePrefix ∧ offset = cursor
  | .classify text offset =>
    offset = cursor ∧ cursor ≤ lenBytes text ∧ (cursorLine rope lineIdx).2 ≤ lenBytes text

/-- The handler looks up no line and cuts no slice that the rope does not have (it panics
only where the classification does), and it hands on a window that holds the cursor. -/
structure Contained (uri : Url) (rope : Rope) (pos : Position) (cursor : ℕ) : Prop where
  ends : ∀ triggerChar, (completion C uriPath uri rope pos triggerChar).Ends ∨
    ∃ text offset, window uriPath uri rope pos triggerChar = .ok (some (.classify text offset)) ∧
      ¬(classifyContext C text offset).Ends
  holds : ∀ triggerChar cut, window uriPath uri rope pos triggerChar = .ok (some cut) →
    cut.Holds rope pos.line cursor

/-- The breaks of the rope that no position counts, so far as they end before an offset. -/
def extraBreaks (rope : Rope) (offset : ℕ) : ℕ :=
  (breaksFrom Char.utf8Size endsExtra 0 rope).countP (· < offset)

/-- None of these ends before the line, for a prefix of it, or before its end, for a text.
On the empty line after the last line feed one of them does no harm. -/
def NoneAhead (uri : Url) (rope : Rope) (lineIdx : ℕ) : Prop :=
  let (lineStart,lineEnd) := cursorLine rope lineIdx
  if isTfvarsUri uriPath uri || isTftestUri uri then extraBreaks rope lineStart = 0
  else extraBreaks rope lineEnd ≤ if lineStart = lineEnd then 1 else 0

end specification

/-! ## The cursor on its line -/

section cursor

variable {rope : Rope} {pos : Position} {cursor lineIdx : ℕ}

/-- A position that is accepted lies on a line of the text. -/
structure OnLine (rope : Rope) (lineIdx cursor : ℕ) : Prop where
  exists_line : lineIdx < (lineStartBytes rope).length
  seam : Seam rope cursor
  start_le : (cursorLine rope lineIdx).1 ≤ cursor
  le_end : cursor ≤ (cursorLine rope lineIdx).2

theorem onLine_of_accepted (h : lspPositionToByteOffset rope pos = .ok cursor) :
    OnLine rope pos.line cursor := by
  have hline : pos.line < (lineStartBytes rope).length := by
    by_contra hge
    have herr := lspPositionToByteOffset_error.mpr ⟨Nat.le_of_not_lt hge,rfl⟩
    rw [h] at herr
    cases herr
  obtain ⟨before,line,after,hat⟩ := exists_lineAt_number hline
  obtain ⟨offset,hoffset,-,hboundary,-⟩ := position_onLine hline
  obtain rfl := Except.ok.inj (h.symm.trans hoffset)
  have hvalue := lspPositionToByteOffset_of_lineAt hat pos.character
  obtain hcursor := Except.ok.inj (h.symm.trans hvalue)
  set k := utf16CuToChar (visiblePart line after) pos.character
  have htake : lenBytes ((visiblePart line after).take k) ≤ lenBytes line := by
    have hvisible : lenBytes (visiblePart line after) ≤ lenBytes line := by
      rcases visiblePart_append line after with hv | ⟨-,hv⟩
      · rw [hv]
      · conv_rhs => rw [hv,lenBytes_append]
        exact Nat.le_add_right _ _
    have hk := congrArg lenBytes (List.take_append_drop k (visiblePart line after))
    rw [lenBytes_append] at hk
    omega
  refine ⟨hline,seam_iff.mpr hboundary,?_,?_⟩
  · rw [cursorLine,lineByteRange,lineStart_of_lineAt hat]
    omega
  · rw [cursorLine,lineByteRange,lineStop_of_lineAt hat,lenBytes_append]
    omega

theorem cursorLine_start (h : lineIdx < (lineStartBytes rope).length) :
    (cursorLine rope lineIdx).1 =
      (starts Char.utf8Size endsFeed rope).getD lineIdx (lenBytes rope) := by
  rw [cursorLine,lineByteRange]
  simp only [List.getD_eq_getElem?_getD,List.getElem?_eq_getElem h,← lineStartBytes_eq,
    Option.getD_some]

theorem cursorLine_le (h : lineIdx < (lineStartBytes rope).length) :
    (cursorLine rope lineIdx).1 ≤ (cursorLine rope lineIdx).2 := by
  obtain ⟨before,line,after,hat⟩ := exists_lineAt_number h
  rw [cursorLine,lineByteRange,lineStart_of_lineAt hat,lineStop_of_lineAt hat]
  exact Nat.le_add_right _ _

theorem cursorLine_end (rope : Rope) (lineIdx : ℕ) : (cursorLine rope lineIdx).2 =
    (starts Char.utf8Size endsFeed rope).getD (lineIdx+1) (lenBytes rope) := by
  rw [cursorLine,lineByteRange,lineStartBytes_eq]

theorem le_lenBytes_of_mem_starts {ends : Char → Rope → Bool} :
    ∀ y ∈ starts Char.utf8Size ends rope, y ≤ lenBytes rope := fun _ hy => le_of_mem_starts hy

theorem cursorLine_end_le (rope : Rope) (lineIdx : ℕ) :
    (cursorLine rope lineIdx).2 ≤ lenBytes rope := by
  rw [cursorLine_end]
  exact getD_le le_lenBytes_of_mem_starts _

/-- The line in the rope's sense starts no later. -/
theorem ropeStarts_le (rope : Rope) (n : ℕ) : (ropeStarts rope).getD n (lenBytes rope) ≤
    (starts Char.utf8Size endsFeed rope).getD n (lenBytes rope) :=
  starts_getD_le Char.utf8Size_pos endsRopeLine_eq endsExtra_of_endsFeed n

theorem ropeStart_eq_iff (h : lineIdx < (lineStartBytes rope).length) :
    (ropeStarts rope).getD lineIdx (lenBytes rope) = (cursorLine rope lineIdx).1 ↔
      extraBreaks rope (cursorLine rope lineIdx).1 = 0 := by
  have hn := countP_getD (starts_pairwise Char.utf8Size_pos) le_lenBytes_of_mem_starts
    (by rwa [lineStartBytes_eq] at h)
  rw [cursorLine_start h]
  exact starts_getD_eq_iff Char.utf8Size_pos endsRopeLine_eq endsExtra_of_endsFeed hn

/-- The line feeds leave room for one break more where the line is empty and last. -/
theorem end_le_ropeEnd_iff (h : lineIdx < (lineStartBytes rope).length) :
    (cursorLine rope lineIdx).2 ≤ (ropeStarts rope).getD (lineIdx+1) (lenBytes rope) ↔
      extraBreaks rope (cursorLine rope lineIdx).2 ≤
        if (cursorLine rope lineIdx).1 = (cursorLine rope lineIdx).2 then 1 else 0 := by
  have hpair : (starts Char.utf8Size endsFeed rope).Pairwise (· < ·) :=
    starts_pairwise Char.utf8Size_pos
  have hend := cursorLine_end_le rope lineIdx
  have hshort := starts_getD_lt_iff Char.utf8Size_pos endsRopeLine_eq endsExtra_of_endsFeed
    hend (lineIdx+1)
  have hcount := countP_getD hpair le_lenBytes_of_mem_starts
    (by rwa [lineStartBytes_eq] at h)
  have hstart := getD_lt_iff hpair hend lineIdx
  have hle := countP_getD_le hpair le_lenBytes_of_mem_starts (lineIdx+1)
  rw [← cursorLine_start h] at hcount hstart
  rw [← cursorLine_end] at hle
  rw [← not_lt,ropeStarts,← weight_utf8Size,hshort,extraBreaks]
  split_ifs with heq
  · rw [← heq,hcount]
    omega
  · have hstop := lt_of_le_of_ne (cursorLine_le h) heq
    rw [hstart] at hstop
    omega

end cursor

/-! ## Looking up and cutting -/

section cutting

variable {rope : Rope} {pos : Position} {cursor lineIdx : ℕ}

theorem triggered_ends (triggerChar : Option String) (h : OnLine rope lineIdx cursor) :
    (triggered rope cursor triggerChar).Ends := by
  rw [triggered]
  split_ifs with hcolon htwo
  · refine (index_safe ?_).bind_ends fun b _ => ends_ok _
    have hle := h.seam.le
    rw [length_bytes]
    omega
  · exact ends_ok _
  · exact ends_ok _

theorem windowEnd_eq (rope : Rope) (lineIdx : ℕ) :
    windowEnd rope lineIdx = .ok ((ropeStarts rope).getD (lineIdx+1) (lenBytes rope)) := by
  rw [windowEnd]
  split_ifs with h
  · rw [lineToByte,if_pos h.le]
  · rw [List.getD_eq_getElem?_getD,List.getElem?_eq_none (Nat.le_of_not_lt h)]
    rfl

/-- The prefix starts with the line in the rope's sense. -/
theorem linePrefixAt_safe (h : OnLine rope lineIdx cursor) :
    (linePrefixAt rope lineIdx cursor).Safe fun part =>
      rope.At ((ropeStarts rope).getD lineIdx (lenBytes rope),cursor) part := by
  have hlines := h.exists_line.le.trans (length_lineStartBytes_le rope)
  have hstart := ropeStarts_le rope lineIdx
  rw [← cursorLine_start h.exists_line] at hstart
  rw [linePrefixAt,lineToByte,if_pos hlines]
  exact slice_safe (seam_getD_starts lineIdx) h.seam (hstart.trans h.start_le)

theorem line_ends (h : lineIdx < (lineStartBytes rope).length) : (line rope lineIdx).Ends := by
  rw [line,if_pos (h.trans_le (length_lineStartBytes_le rope))]
  refine (slice_safe (seam_getD_starts lineIdx) (seam_getD_starts (lineIdx+1)) ?_).ends
  exact getD_mono (starts_pairwise Char.utf8Size_pos) le_lenBytes_of_mem_starts (Nat.le_succ _)

theorem labelClosedAfter_ends (C : CharClass) {text : Rope} (h : Seam text cursor ∨
    lenBytes text < cursor) : (labelClosedAfter C text cursor).Ends := by
  rw [labelClosedAfter]
  split_ifs with hlen
  · exact ends_ok _
  · refine (sliceFrom_safe (h.resolve_right hlen)).bind_ends fun after _ => ?_
    refine (sliceTo_safe ?_).bind_ends fun tail _ => ends_ok _
    cases hfind : findBytes "\n" after with
    | none => exact seam_length after
    | some i => exact (findBytes_occurs hfind).seam

/-- What a window of a document is, by the lines of the rope. -/
def Cut (uriPath : Url → String) (uri : Url) (rope : Rope) (lineIdx cursor : ℕ) :
    Window → Prop
  | .tfvars linePrefix => isTfvarsUri uriPath uri = true ∧
    rope.At ((ropeStarts rope).getD lineIdx (lenBytes rope),cursor) linePrefix
  | .tftest linePrefix offset => isTfvarsUri uriPath uri = false ∧ isTftestUri uri = true ∧
    rope.At ((ropeStarts rope).getD lineIdx (lenBytes rope),cursor) linePrefix ∧ offset = cursor
  | .classify text offset => isTfvarsUri uriPath uri = false ∧ isTftestUri uri = false ∧
    rope.At (0,(ropeStarts rope).getD (lineIdx+1) (lenBytes rope)) text ∧ offset = cursor

theorem cutWindow_safe (uriPath : Url → String) (uri : Url) (h : OnLine rope lineIdx cursor) :
    (cutWindow uriPath uri rope lineIdx cursor).Safe (Cut uriPath uri rope lineIdx cursor) := by
  rw [cutWindow,windowEnd_eq]
  change Safe (if _ then _ else _) _
  split_ifs with hvars htest
  · exact (linePrefixAt_safe h).bind fun part hpart => safe_ok ⟨hvars,hpart⟩
  · exact (linePrefixAt_safe h).bind fun part hpart =>
      safe_ok ⟨by simpa using hvars,htest,hpart,rfl⟩
  · refine (slice_safe (seam_zero rope) (seam_getD_starts _) (Nat.zero_le _)).bind
      fun text htext => safe_ok ⟨by simpa using hvars,by simpa using htest,htext,rfl⟩

end cutting

section windows

variable (C : CharClass) (uriPath : Url → String) {uri : Url} {rope : Rope} {pos : Position}
  {cursor : ℕ}

theorem window_safe (uri : Url) (triggerChar : Option String)
    (h : lspPositionToByteOffset rope pos = .ok cursor) :
    (window uriPath uri rope pos triggerChar).Safe fun found =>
      ∀ cut, found = some cut → Cut uriPath uri rope pos.line cursor cut := by
  have hline := onLine_of_accepted h
  rw [window,h]
  refine (triggered_ends triggerChar hline).safe.bind fun asked _ => ?_
  split
  · refine (cutWindow_safe uriPath uri hline).bind fun cut hcut => safe_ok fun cut' hcut' => ?_
    cases hcut'
    exact hcut
  · exact safe_ok fun cut hcut => by cases hcut

/-- A place of the text is one of its beginning, or lies behind that. -/
theorem seam_of_cut {text : Rope} {stop : ℕ} (htext : rope.At (0,stop) text)
    (h : Seam rope cursor) : Seam text cursor ∨ lenBytes text < cursor := by
  obtain ⟨before,after,rfl,hspan⟩ := htext
  obtain rfl : before = [] := lenBytes_eq_zero.mp (congrArg Prod.fst hspan).symm
  obtain ⟨a,b,hsplit,rfl⟩ := h
  rw [List.nil_append] at hsplit
  rcases List.append_eq_append_iff.mp hsplit with ⟨c,rfl,-⟩ | ⟨c,hc,-⟩
  · cases c with
    | nil => exact .inl ⟨text,[],by simp,by simp⟩
    | cons d c =>
      have hd := d.utf8Size_pos
      refine .inr ?_
      rw [lenBytes_append,lenBytes_cons]
      omega
  · exact .inl ⟨a,c,hc,rfl⟩

/-- Without a trigger there is a window. -/
theorem window_untriggered (uri : Url) (h : lspPositionToByteOffset rope pos = .ok cursor) :
    (window uriPath uri rope pos none).Safe fun found =>
      ∃ cut, found = some cut ∧ Cut uriPath uri rope pos.line cursor cut := by
  rw [window,h]
  exact (cutWindow_safe uriPath uri (onLine_of_accepted h)).bind fun cut hcut =>
    safe_ok ⟨cut,rfl,hcut⟩

/-- Neither the window nor the later lookups panic; only the classification may. -/
theorem completion_ends (uri : Url) (triggerChar : Option String)
    (h : lspPositionToByteOffset rope pos = .ok cursor) :
    (completion C uriPath uri rope pos triggerChar).Ends ∨
      ∃ text offset, window uriPath uri rope pos triggerChar = .ok (some (.classify text offset)) ∧
        ¬(classifyContext C text offset).Ends := by
  obtain ⟨found,hfound,hcut⟩ := window_safe uriPath uri triggerChar h
  have hline := onLine_of_accepted h
  rw [completion,hfound]
  rcases found with _ | (linePrefix | ⟨linePrefix,offset⟩ | ⟨text,offset⟩)
  · exact .inl (ends_ok _)
  · exact .inl (ends_ok _)
  · exact .inl (ends_ok _)
  · by_cases hctx : (classifyContext C text offset).Ends
    · obtain ⟨-,-,htext,rfl⟩ := hcut _ rfl
      refine .inl (hctx.bind fun ctx _ => ?_)
      have hseam := seam_of_cut htext hline.seam
      refine (labelClosedAfter_ends C hseam).bind fun closed _ => ?_
      refine Ends.bind ?_ fun found _ => ends_ok _
      cases ctx with
      | indexKeyRef root path => exact (line_ends hline.exists_line).bind fun _ _ => ends_ok _
      | _ => exact ends_ok _
    · exact .inr ⟨text,offset,rfl,hctx⟩

/-- A window holds the cursor where no break of the rope has run ahead. -/
theorem holds_iff {lineIdx : ℕ} {cut : Window} (h : OnLine rope lineIdx cursor)
    (hcut : Cut uriPath uri rope lineIdx cursor cut) :
    cut.Holds rope lineIdx cursor ↔ NoneAhead uriPath uri rope lineIdx := by
  have hstart := ropeStarts_le rope lineIdx
  rw [← cursorLine_start h.exists_line] at hstart
  have hprefix : ∀ part, rope.At ((ropeStarts rope).getD lineIdx (lenBytes rope),cursor) part →
      (rope.At ((cursorLine rope lineIdx).1,cursor) part ↔
        extraBreaks rope (cursorLine rope lineIdx).1 = 0) := by
    intro part hpart
    rw [← ropeStart_eq_iff h.exists_line]
    constructor
    · intro hpart'
      have hlen := hpart.length
      have hlen' := hpart'.length
      have hle := h.start_le
      simp only at hlen hlen'
      omega
    · exact fun heq => heq ▸ hpart
  cases cut with
  | tfvars linePrefix =>
    obtain ⟨hvars,hpart⟩ := hcut
    simpa [Window.Holds,NoneAhead,hvars] using hprefix linePrefix hpart
  | tftest linePrefix offset =>
    obtain ⟨hvars,htest,hpart,rfl⟩ := hcut
    simpa [Window.Holds,NoneAhead,hvars,htest] using hprefix linePrefix hpart
  | classify text offset =>
    obtain ⟨hvars,htest,htext,rfl⟩ := hcut
    have hlen := htext.length
    have hend := end_le_ropeEnd_iff h.exists_line
    have hle := h.le_end
    simp only [Window.Holds,NoneAhead,hvars,htest,Bool.or_self,true_and,← hend] at hlen ⊢
    simp only [Bool.false_eq_true,if_false] 
    omega

/-- For each position that is accepted. -/
theorem contained_iff (uri : Url) (h : lspPositionToByteOffset rope pos = .ok cursor) :
    Contained C uriPath uri rope pos cursor ↔ NoneAhead uriPath uri rope pos.line := by
  have hline := onLine_of_accepted h
  constructor
  · intro hc
    obtain ⟨-,hfound,cut,rfl,hcut⟩ := window_untriggered uriPath uri h
    exact (holds_iff uriPath hline hcut).mp (hc.holds none cut hfound)
  · intro hnone
    refine ⟨fun triggerChar => completion_ends C uriPath uri triggerChar h,
      fun triggerChar cut hfound => ?_⟩
    obtain ⟨found,hfound',hcut⟩ := window_safe uriPath uri triggerChar h
    cases hfound.symm.trans hfound'
    exact (holds_iff uriPath hline (hcut cut rfl)).mpr hnone

theorem plain_line_contained :
    Contained ordinalClass id "file:///m/main.tf" "é = var.\n".toList ⟨0,8⟩ 9 :=
  (contained_iff ordinalClass id "file:///m/main.tf" (by decide +kernel)).mpr
    (by unfold NoneAhead; decide +kernel)

/-- A line separator in a string above the cursor: the text ends before the line of the cursor. -/
theorem separator_above_cursor_cut :
    lspPositionToByteOffset "k = \"\u2028\"\nv = var.\n".toList ⟨1,8⟩ = .ok 18 ∧
      ¬Contained ordinalClass id "file:///m/main.tf" "k = \"\u2028\"\nv = var.\n".toList ⟨1,8⟩ 18 := by
  refine ⟨by decide +kernel,fun hc => ?_⟩
  have hcut : window id "file:///m/main.tf" "k = \"\u2028\"\nv = var.\n".toList ⟨1,8⟩ none =
      .ok (some (.classify "k = \"\u2028\"\n".toList 18)) := by decide +kernel
  have hreach := (hc.holds none _ hcut).2.1
  exact absurd hreach (by decide +kernel)

end windows

end Completion
end TerraformLs
