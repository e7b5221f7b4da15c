import TerraformLs.ConstraintGrammar
import TerraformLs.CyclicLocals
import TerraformLs.InterpolationUnwraps
import TerraformLs.LexicalTrees
import TerraformLs.Recovery

/-! The rule that prefers `#` to `//` in comments. It reads the text by itself, with flags for
strings, heredocs and comments, and counts lines and bytes as it goes. -/
namespace TerraformLs
namespace CommentSyntax

open GitRefs LexicalTrees Rope TextTrees

/-- What the scan is in; the flags of the source exclude each other. -/
inductive Mode
  | code | string | lineComment | blockComment
  | heredoc (tag : Rope)

/-- How far the scan has come, with the text of the line up to there. -/
structure Cursor where
  mode : Mode
  lineText : Rope
  line : ℕ
  col : ℕ

def Cursor.enter (s : Cursor) (mode : Mode) : Cursor := { s with mode := mode }

/-- The bytes of a character are passed one by one. -/
def Cursor.pass (s : Cursor) (c : Char) : Cursor :=
  { s with lineText := s.lineText ++ [c], col := s.col + c.utf8Size }

def Cursor.move (s : Cursor) (c : Char) : Cursor :=
  if c = '\n' then ⟨s.mode,[],s.line + 1,0⟩ else s.pass c

def isTagChar (c : Char) : Bool := c.isAlphanum || c = '_'

/-- The tag behind `<<`. -/
def tagOf (s : Rope) : Option Rope :=
  let tag := (afterDash s).takeWhile isTagChar
  if tag = [] then none else some tag

def message : String := "use `#` for comments instead of `//`"

def slashDiagnostic (line col : ℕ) : Diagnostic :=
  ⟨⟨⟨line,col⟩,⟨line,col + 2⟩⟩,some .information,some "terraform-ls-rs",message⟩

/-- The scan from a place on. A tag is passed as the first of its heredoc. -/
def scan : Cursor → Rope → List Diagnostic
  | _, [] => []
  | s, c :: rest =>
    match s.mode with
    | .heredoc tag =>
      scan ((s.move c).enter (if c = '\n' ∧ trim s.lineText = tag then .code else .heredoc tag)) rest
    | .lineComment => scan ((s.move c).enter (if c = '\n' then .code else .lineComment)) rest
    | .blockComment =>
      match c, rest with
      | '*', '/' :: rest => scan (((s.pass '*').pass '/').enter .code) rest
      | c, rest => scan (s.move c) rest
    | .string =>
      match c, rest with
      | '\\', d :: rest => scan ((s.pass '\\').pass d) rest
      | c, rest => scan ((s.move c).enter (if c = '"' then .code else .string)) rest
    | .code =>
      match c, rest with
      | '"', rest => scan ((s.pass '"').enter .string) rest
      | '<', '<' :: rest =>
        match tagOf rest with
        | some tag => scan (((s.pass '<').pass '<').enter (.heredoc tag)) rest
        | none => scan (s.pass '<') ('<' :: rest)
      | '/', '/' :: rest =>
        slashDiagnostic s.line s.col :: scan (((s.pass '/').pass '/').enter .lineComment) rest
      | '/', '*' :: rest => scan (((s.pass '/').pass '*').enter .blockComment) rest
      -- the loop to the end of the line
      | '#', rest => scan ((s.pass '#').enter .lineComment) rest
      | c, rest => scan (s.move c) rest

def commentSyntaxDiagnostics (rope : Rope) : List Diagnostic := scan ⟨.code,[],0,0⟩ rope

/-! ### Where the scan is -/

section cursors

variable {p s next : Rope} {m m' : Mode} {c : Char}

def lastLine (p : Rope) : Rope := p.rtakeWhile (· ≠ '\n')

theorem lastLine_concat (p : Rope) (c : Char) :
    lastLine (p ++ [c]) = if c = '\n' then [] else lastLine p ++ [c] := by
  rw [lastLine,List.rtakeWhile_concat]
  by_cases hc : c = '\n' <;> simp [hc,lastLine]

/-- The scan in a mode behind a text. -/
def cursorAt (m : Mode) (p : Rope) : Cursor := ⟨m,lastLine p,p.count '\n',lenBytes (lastLine p)⟩

@[simp] theorem cursorAt_mode : (cursorAt m p).mode = m := rfl

@[simp] theorem cursorAt_enter : (cursorAt m p).enter m' = cursorAt m' p := rfl

theorem cursorAt_pass (hc : c ≠ '\n') : (cursorAt m p).pass c = cursorAt m (p ++ [c]) := by
  rw [Cursor.pass,cursorAt,cursorAt,lastLine_concat,if_neg hc,lenBytes_append]
  simp [hc,lenBytes]

theorem cursorAt_move (c : Char) : (cursorAt m p).move c = cursorAt m (p ++ [c]) := by
  rw [Cursor.move]
  split_ifs with hc
  · rw [cursorAt,cursorAt,lastLine_concat,if_pos hc]
    simp [hc,lenBytes]
  · exact cursorAt_pass hc

end cursors

/-! ### The scan over what the grammar has -/

section code

variable {p s next : Rope} {c : Char}

theorem tagOf_eq_none (h : (afterDash s).head?.any isIdentChar = false) : tagOf s = none := by
  rw [tagOf]
  cases hs : afterDash s with
  | nil => rfl
  | cons c t =>
    rw [hs] at h
    have hc : isTagChar c = false := by
      simp only [List.head?_cons,Option.any_some,isIdentChar,Bool.or_eq_false_iff] at h
      rw [isTagChar,h.1.1,h.1.2]
      rfl
    simp [hc]

theorem scan_code_cons (h : opensSign (c :: s) = false) :
    scan (cursorAt .code p) (c :: s) = scan (cursorAt .code (p ++ [c])) s := by
  rw [← cursorAt_move,scan.eq_def]
  dsimp only [cursorAt_mode]
  split
  case h_1 => simp [opensSign] at h
  case h_2 rest =>
    have hnone : tagOf rest = none := tagOf_eq_none (by
      simp only [opensSign,opensHeredoc,Bool.or_eq_false_iff] at h
      exact h.2)
    rw [hnone,cursorAt_move,cursorAt_pass (by decide)]
  case h_3 => simp [opensSign] at h
  case h_4 => simp [opensSign] at h
  case h_5 => simp [opensSign] at h
  case h_6 => rfl

theorem scan_quiet (h : isQuiet next s = true) :
    scan (cursorAt .code p) (s ++ next) = scan (cursorAt .code (p ++ s)) next := by
  induction s generalizing p with
  | nil => rw [List.nil_append,List.append_nil]
  | cons c s ih =>
    rw [isQuiet,Bool.and_eq_true,Bool.not_eq_true'] at h
    have hsign : opensSign (c :: (s ++ next)) = false := h.1
    rw [List.cons_append,scan_code_cons hsign,ih h.2,← List.append_cons]

end code

section strings

variable {p s next : Rope} {c d : Char}

theorem scan_string_cons (hquote : c ≠ '"') (hslash : c ≠ '\\') :
    scan (cursorAt .string p) (c :: s) = scan (cursorAt .string (p ++ [c])) s := by
  rw [← cursorAt_move,scan.eq_def]
  dsimp only [cursorAt_mode]
  split
  case h_1 => exact absurd rfl hslash
  case h_2 => rw [if_neg hquote,cursorAt_move,cursorAt_enter]

theorem scan_string_escape (hd : d ≠ '\n') :
    scan (cursorAt .string p) ('\\' :: d :: s) = scan (cursorAt .string (p ++ ['\\',d])) s := by
  rw [scan]
  dsimp only [cursorAt_mode]
  rw [cursorAt_pass (by decide),cursorAt_pass hd,List.append_assoc]
  rfl

theorem scan_string_quote :
    scan (cursorAt .string p) ('"' :: s) = scan (cursorAt .code (p ++ ['"'])) s := by
  rw [scan]
  dsimp only [cursorAt_mode]
  rw [if_pos rfl,cursorAt_move,cursorAt_enter]

theorem scan_code_quote :
    scan (cursorAt .code p) ('"' :: s) = scan (cursorAt .string (p ++ ['"'])) s := by
  rw [scan]
  dsimp only [cursorAt_mode]
  rw [cursorAt_pass (by decide),cursorAt_enter]

/-- A text without what a string ends with or escapes. -/
structure Still (s : Rope) : Prop where
  quote : '"' ∉ s
  escape : '\\' ∉ s

theorem scan_still (h : Still s) :
    scan (cursorAt .string p) (s ++ next) = scan (cursorAt .string (p ++ s)) next := by
  induction s generalizing p with
  | nil => rw [List.nil_append,List.append_nil]
  | cons c s ih =>
    obtain ⟨hquote,hquotes⟩ := List.ne_and_not_mem_of_not_mem_cons h.quote
    obtain ⟨hslash,hslashes⟩ := List.ne_and_not_mem_of_not_mem_cons h.escape
    rw [List.cons_append,scan_string_cons hquote.symm hslash.symm,ih ⟨hquotes,hslashes⟩,
      ← List.append_cons]

/-- What is read before the text that an escape goes on with. -/
def begun : Escape → Rope
  | .any => ['\\']
  | _ => []

theorem scan_literal {e : Escape} (h : isLiteral true next e s = true) :
    scan (cursorAt .string p) (begun e ++ (s ++ next)) =
      scan (cursorAt .string (p ++ (begun e ++ s))) next := by
  induction s generalizing p e with
  | nil =>
    obtain rfl : e = .done := by simpa [isLiteral] using h
    simp [begun]
  | cons c s ih =>
    cases e with
    | any =>
      simp only [isLiteral,Bool.and_eq_true,decide_eq_true_eq] at h
      have hrest := ih (p:=p ++ ['\\',c]) h.2
      simp only [begun,List.nil_append,List.append_assoc,List.cons_append] at hrest ⊢
      rw [scan_string_escape h.1,hrest]
    | sign =>
      simp only [isLiteral,Bool.and_eq_true,Bool.or_eq_true,decide_eq_true_eq] at h
      have hrest := ih (p:=p ++ [c]) h.2
      simp only [begun,List.nil_append,List.append_assoc,List.cons_append] at hrest ⊢
      rw [scan_string_cons (by rintro rfl; simp at h) (by rintro rfl; simp at h),hrest]
    | brace =>
      simp only [isLiteral,Bool.and_eq_true,decide_eq_true_eq] at h
      obtain ⟨rfl,h⟩ := h
      have hrest := ih (p:=p ++ ['\x7b']) h
      simp only [begun,List.nil_append,List.append_assoc,List.cons_append] at hrest ⊢
      rw [scan_string_cons (by decide) (by decide),hrest]
    | done =>
      rw [isLiteral,Bool.true_and,Bool.true_and] at h
      simp only [decide_eq_true_eq] at h
      split_ifs at h with hslash hescape
      · obtain rfl := hslash
        simpa [begun] using ih (p:=p) h
      · have hrest := ih (p:=p ++ [c]) h
        simp only [begun,List.nil_append,List.append_assoc,List.cons_append] at hrest ⊢
        rw [scan_string_cons (by rintro rfl; simp [escapesSequence] at hescape) hslash,hrest]
      · simp only [Bool.and_eq_true,Bool.not_eq_true',Bool.or_eq_false_iff,decide_eq_false_iff_not] at h
        have hrest := ih (p:=p ++ [c]) h.2
        simp only [begun,List.nil_append,List.append_assoc,List.cons_append] at hrest ⊢
        rw [scan_string_cons h.1.1.1 hslash,hrest]

end strings

section comments

variable {p s next : Rope} {c : Char}

theorem scan_lineComment (h : '\n' ∉ s) :
    scan (cursorAt .lineComment p) (s ++ next) = scan (cursorAt .lineComment (p ++ s)) next := by
  induction s generalizing p with
  | nil => rw [List.nil_append,List.append_nil]
  | cons c s ih =>
    obtain ⟨hc,hs⟩ := List.ne_and_not_mem_of_not_mem_cons h
    rw [List.cons_append,scan.eq_def]
    dsimp only [cursorAt_mode]
    rw [if_neg hc.symm,cursorAt_move,cursorAt_enter,ih hs,← List.append_cons]

theorem scan_lineComment_ends (h : AtLineEnd next) :
    scan (cursorAt .lineComment p) next = scan (cursorAt .code p) next := by
  rcases h with rfl | h
  · rfl
  · obtain ⟨rest,rfl⟩ := List.head?_eq_some_iff.mp h
    rw [scan_code_cons (by rfl),scan.eq_def]
    dsimp only [cursorAt_mode]
    rw [if_pos rfl,cursorAt_move,cursorAt_enter]

/-- A comment that is not preferred. -/
def flagged (p : Rope) : Diagnostic := slashDiagnostic (p.count '\n') (lenBytes (lastLine p))

theorem scan_slashes (hs : ['/','/'] <+: s) (hline : '\n' ∉ s) (h : AtLineEnd next) :
    scan (cursorAt .code p) (s ++ next) = flagged p :: scan (cursorAt .code (p ++ s)) next := by
  obtain ⟨u,rfl⟩ := hs
  have hu : '\n' ∉ u := fun hc => hline (List.mem_append_right _ hc)
  change scan (cursorAt .code p) ('/' :: '/' :: (u ++ next)) = _
  rw [scan]
  dsimp only [cursorAt_mode]
  rw [cursorAt_pass (by decide),cursorAt_pass (by decide),cursorAt_enter,scan_lineComment hu,
    scan_lineComment_ends h]
  simp [flagged,cursorAt]

theorem scan_hash (hs : s.head? = some '#') (hline : '\n' ∉ s) (h : AtLineEnd next) :
    scan (cursorAt .code p) (s ++ next) = scan (cursorAt .code (p ++ s)) next := by
  obtain ⟨u,rfl⟩ := List.head?_eq_some_iff.mp hs
  have hu : '\n' ∉ u := fun hc => hline (List.mem_cons_of_mem _ hc)
  rw [List.cons_append,scan]
  dsimp only [cursorAt_mode]
  rw [cursorAt_pass (by decide),cursorAt_enter,scan_lineComment hu,scan_lineComment_ends h,
    ← List.append_cons]

theorem scan_blockComment_cons (h : ¬['*','/'] <+: c :: s) :
    scan (cursorAt .blockComment p) (c :: s) = scan (cursorAt .blockComment (p ++ [c])) s := by
  rw [← cursorAt_move,scan.eq_def]
  dsimp only [cursorAt_mode]
  split
  case h_1 => exact absurd ⟨_,rfl⟩ h
  case h_2 => rfl

theorem scan_blockComment {inside : Rope} (h : ¬['*','/'] <:+: inside ++ ['*']) :
    scan (cursorAt .blockComment p) (inside ++ ('*' :: '/' :: next)) =
      scan (cursorAt .code (p ++ (inside ++ ['*','/']))) next := by
  induction inside generalizing p with
  | nil =>
    rw [List.nil_append,scan.eq_def]
    dsimp only [cursorAt_mode]
    rw [cursorAt_pass (by decide),cursorAt_pass (by decide),cursorAt_enter,List.append_assoc]
    rfl
  | cons c inside ih =>
    have hrest : ¬['*','/'] <:+: inside ++ ['*'] := fun hin => h (hin.trans (List.suffix_cons c _).isInfix)
    have hhere : ¬['*','/'] <+: c :: (inside ++ ('*' :: '/' :: next)) := by
      rintro hin
      refine h (List.IsPrefix.isInfix ?_)
      obtain ⟨hc,hslash⟩ := List.cons_prefix_cons.mp hin
      refine List.cons_prefix_cons.mpr ⟨hc,?_⟩
      cases inside with
      | nil => exact absurd (List.cons_prefix_cons.mp hslash).1 (by decide)
      | cons d inside =>
        exact List.cons_prefix_cons.mpr ⟨(List.cons_prefix_cons.mp hslash).1,List.nil_prefix⟩
    rw [List.cons_append,scan_blockComment_cons hhere,ih hrest]
    simp

theorem scan_block {inside : Rope} (hs : s = ['/','*'] ++ (inside ++ ['*','/']))
    (h : ¬['*','/'] <:+: inside ++ ['*']) :
    scan (cursorAt .code p) (s ++ next) = scan (cursorAt .code (p ++ s)) next := by
  have hsplit : s ++ next = '/' :: '*' :: (inside ++ ('*' :: '/' :: next)) := by simp [hs]
  rw [hsplit,scan]
  dsimp only [cursorAt_mode]
  rw [cursorAt_pass (by decide),cursorAt_pass (by decide),cursorAt_enter,scan_blockComment h,hs]
  simp

end comments

section heredocs

variable {p s next tag line : Rope}

def endsHeredoc (tag line : Rope) : Bool := trim line = tag

theorem scan_heredoc (h : (lastLineOf (endsHeredoc tag) (lastLine p) s).isSome) :
    scan (cursorAt (.heredoc tag) p) (s ++ next) = scan (cursorAt (.heredoc tag) (p ++ s)) next := by
  induction s generalizing p with
  | nil => rw [List.nil_append,List.append_nil]
  | cons c s ih =>
    have hstep : (if c = '\n' ∧ trim (lastLine p) = tag then Mode.code else .heredoc tag) =
          .heredoc tag ∧
        (lastLineOf (endsHeredoc tag) (lastLine (p ++ [c])) s).isSome := by
      rw [lastLineOf] at h
      rw [lastLine_concat]
      split_ifs at h ⊢ with hc hends <;> simp_all [endsHeredoc]
    rw [List.cons_append,scan.eq_def]
    dsimp only [cursorAt_mode]
    rw [cursorAt_move]
    change scan (Cursor.enter _
      (if c = '\n' ∧ trim (lastLine p) = tag then Mode.code else .heredoc tag)) _ = _
    rw [hstep.1,cursorAt_enter,ih hstep.2,← List.append_cons]

theorem lastLineOf_line {ends : Rope → Bool} {u : Rope} (hu : '\n' ∉ u)
    (hends : ends (line ++ u) = false) :
    lastLineOf ends line (u ++ ['\n']) = some [] := by
  induction u generalizing line with
  | nil =>
    rw [List.append_nil] at hends
    simp [lastLineOf,hends]
  | cons c u ih =>
    obtain ⟨hc,hu⟩ := List.ne_and_not_mem_of_not_mem_cons hu
    rw [List.cons_append,lastLineOf,if_neg hc.symm]
    exact ih hu (by rwa [← List.append_cons])

theorem isTagChar_not_blank {c : Char} (h : isTagChar c = true) : isWhitespace c = false := by
  rcases Bool.or_eq_true_iff.mp h with h | h
  · exact VersionConstraint.not_isWhitespace_of_alphanum h
  · rw [of_decide_eq_true h]
    rfl

theorem bare_of_tag (h : tag.all isTagChar) : trim tag = tag := by
  have hblank : ∀ c ∈ tag, isWhitespace c = false := fun c hc =>
    isTagChar_not_blank (List.all_eq_true.mp h c hc)
  rw [trim]
  cases htag : tag with
  | nil => rfl
  | cons c t =>
    have hdrop : (c :: t).dropWhile isWhitespace = c :: t :=
      List.dropWhile_cons_of_neg (by simp [hblank c (htag ▸ List.mem_cons_self)])
    rw [hdrop,← htag,List.rdropWhile_eq_self_iff]
    intro hne
    simp [hblank _ (List.getLast_mem hne)]

theorem tagOf_opener {dash rest : Rope} (hdash : dash = [] ∨ dash = ['-']) (htag : tag.all isTagChar)
    (hne : tag ≠ []) (hrest : rest.all fun c => isBlank c || c = '\r') :
    tagOf (dash ++ (tag ++ (rest ++ ('\n' :: s)))) = some tag := by
  obtain ⟨c,t,rfl⟩ := List.exists_cons_of_ne_nil hne
  have hafter : afterDash (dash ++ ((c :: t) ++ (rest ++ ('\n' :: s)))) =
      (c :: t) ++ (rest ++ ('\n' :: s)) := by
    rcases hdash with rfl | rfl
    · have hc : c ≠ '-' := by
        rintro rfl
        exact absurd (List.all_eq_true.mp htag _ List.mem_cons_self) (by decide)
      rw [List.nil_append,List.cons_append,afterDash]
      exact fun _ h => hc (List.cons.inj h).1
    · rfl
  have hstop : (rest ++ ('\n' :: s)).takeWhile isTagChar = [] := by
    cases rest with
    | nil => rfl
    | cons d rest =>
      have hd : isTagChar d = false := by
        have hor : (d = ' ' ∨ d = '\t') ∨ d = '\r' := by
          simpa [isBlank] using List.all_eq_true.mp hrest d List.mem_cons_self
        rcases hor with (rfl | rfl) | rfl <;> rfl
      rw [List.cons_append,List.takeWhile_cons_of_neg (by simp [hd])]
  rw [tagOf,hafter,List.takeWhile_append_of_pos (List.all_eq_true.mp htag),hstop,List.append_nil]
  simp

/-- The line of the opener does not close its heredoc. -/
theorem not_endsHeredoc (htag : tag.all isTagChar) {u : Rope} (hu : '<' ∈ u) :
    endsHeredoc tag u = false := by
  rw [endsHeredoc,decide_eq_false_iff_not]
  rintro rfl
  obtain ⟨w,w',hsplit,hw,hw'⟩ := Interpolations.trim_split u
  rw [hsplit,List.append_assoc] at hu
  rcases List.mem_append.mp hu with h | h
  · exact absurd (hw _ h) (by decide)
  rcases List.mem_append.mp h with h | h
  · exact absurd (List.all_eq_true.mp htag _ h) (by decide)
  · exact absurd (hw' _ h) (by decide)

theorem scan_opener (hs : Opener tag s) (htag : tag.all isTagChar) :
    scan (cursorAt .code p) (s ++ next) = scan (cursorAt (.heredoc tag) (p ++ s)) next := by
  obtain ⟨dash,rest,rfl,hdash,hrest⟩ := hs.split
  have hne : tag ≠ [] := by
    rintro rfl
    exact absurd hs.head (by decide)
  have htagOf := tagOf_opener (s:=next) hdash htag hne hrest
  have hline : '\n' ∉ dash ++ (tag ++ rest) := by
    rw [List.mem_append,List.mem_append]
    rintro (h | h | h)
    · rcases hdash with rfl | rfl
      · cases h
      · exact absurd h (by decide)
    · exact absurd (List.all_eq_true.mp htag _ h) (by decide)
    · exact absurd (List.all_eq_true.mp hrest _ h) (by decide)
  have hends : endsHeredoc tag (lastLine (p ++ ['<'] ++ ['<']) ++ (dash ++ (tag ++ rest))) = false := by
    refine not_endsHeredoc htag (List.mem_append_left _ ?_)
    rw [lastLine_concat,if_neg (by decide)]
    exact List.mem_append_right _ List.mem_cons_self
  have hopens : (lastLineOf (endsHeredoc tag) (lastLine (p ++ ['<'] ++ ['<']))
      (dash ++ (tag ++ rest) ++ ['\n'])).isSome := by
    rw [lastLineOf_line hline hends]
    rfl
  have hrun : scan (cursorAt (.heredoc tag) _) (_ ++ next) = _ := scan_heredoc hopens
  have hsplit : "<<".toList ++ (dash ++ (tag ++ (rest ++ ['\n']))) ++ next =
      '<' :: '<' :: (dash ++ (tag ++ (rest ++ ('\n' :: next)))) := by simp
  rw [hsplit,scan]
  dsimp only [cursorAt_mode]
  rw [htagOf]
  dsimp only
  rw [cursorAt_pass (by decide),cursorAt_pass (by decide),cursorAt_enter]
  simpa using hrun

/-- A text that comes to the start of a line ends in a line feed. -/
theorem lastLineOf_eq_nil {ends : Rope → Bool} (h : lastLineOf ends line s = some []) :
    (s = [] ∧ line = []) ∨ s.getLast? = some '\n' := by
  induction s generalizing line with
  | nil => exact .inl ⟨rfl,Option.some.inj h⟩
  | cons c s ih =>
    rw [lastLineOf] at h
    split_ifs at h with hc
    · rcases ih h with ⟨rfl,-⟩ | hlast
      · exact .inr (congrArg some hc)
      · exact .inr (by rw [List.getLast?_cons,hlast]; rfl)
    · rcases ih h with ⟨-,hline⟩ | hlast
      · simp at hline
      · exact .inr (by rw [List.getLast?_cons,hlast]; rfl)

/-- The body of a heredoc ends in the line that closes it. -/
theorem heredoc_closes : ∀ {parts : Parts Kind Rope} {line : Rope},
    PartsLexed (.heredoc tag line) parts next →
    ∃ above indent, parts.render = above ++ (indent ++ tag) ∧ indent.all isBlank ∧
      ((above = [] ∧ line = []) ∨ above.getLast? = some '\n')
  | .nil, line, h => by
    rw [PartsLexed] at h
    exact h.elim
  | .text s rest, line, h => by
    rw [PartsLexed] at h
    rcases h with ⟨rfl,hline,indent,rfl,hindent⟩ | ⟨-,line',hlines,hrest⟩
    · exact ⟨[],indent,by simp [Parts.render],hindent,.inl ⟨rfl,hline⟩⟩
    · obtain ⟨above,indent,hsplit,hindent,hlast⟩ := heredoc_closes hrest
      refine ⟨s ++ above,indent,by rw [Parts.render,hsplit,List.append_assoc],hindent,?_⟩
      rcases hlast with ⟨rfl,rfl⟩ | hlast
      · rw [List.append_nil]
        exact lastLineOf_eq_nil hlines
      · exact .inr (by rw [List.getLast?_append,hlast]; rfl)
  | .child t rest, line, h => by
    rw [PartsLexed] at h
    obtain ⟨above,indent,hsplit,hindent,hlast⟩ := heredoc_closes h.2.2
    have habove : above.getLast? = some '\n' := hlast.resolve_left (by simp)
    refine ⟨t.render ++ above,indent,by rw [Parts.render,hsplit,List.append_assoc],hindent,.inr ?_⟩
    rw [List.getLast?_append,habove]
    rfl

/-- Behind the line that closes it. -/
theorem scan_heredoc_closed (hclosed : trim (lastLine p) = tag)
    (hreturn : trim (lastLine p ++ ['\r']) = tag) (h : AtLineEnd next ∨ ['\r','\n'] <+: next) :
    scan (cursorAt (.heredoc tag) p) next = scan (cursorAt .code p) next := by
  have hfeed : ∀ {q rest : Rope}, trim (lastLine q) = tag →
      scan (cursorAt (.heredoc tag) q) ('\n' :: rest) = scan (cursorAt .code q) ('\n' :: rest) := by
    intro q rest hq
    rw [scan_code_cons (by rfl),scan.eq_def]
    dsimp only [cursorAt_mode]
    rw [if_pos ⟨rfl,hq⟩,cursorAt_move,cursorAt_enter]
  rcases h with (rfl | h) | h
  · rfl
  · obtain ⟨rest,rfl⟩ := List.head?_eq_some_iff.mp h
    exact hfeed hclosed
  · obtain ⟨rest,rfl⟩ := h
    change scan (cursorAt (.heredoc tag) p) ('\r' :: '\n' :: rest) =
      scan (cursorAt .code p) ('\r' :: '\n' :: rest)
    rw [scan_code_cons (by rfl),scan.eq_def]
    dsimp only [cursorAt_mode]
    rw [if_neg (fun h => absurd h.1 (by decide)),cursorAt_move,cursorAt_enter]
    refine hfeed ?_
    rwa [lastLine_concat,if_neg (by decide)]

theorem lastLine_append {u : Rope} (hu : '\n' ∉ u) : lastLine (p ++ u) = lastLine p ++ u := by
  induction u using List.reverseRecOn with
  | nil => rw [List.append_nil,List.append_nil]
  | append_singleton u c ih =>
    rw [List.mem_append,not_or,List.mem_singleton] at hu
    rw [← List.append_assoc,lastLine_concat,if_neg (Ne.symm hu.2),ih hu.1,List.append_assoc]

theorem lastLine_feed (hp : p.getLast? = some '\n') : lastLine p = [] := by
  obtain ⟨q,rfl⟩ := List.getLast?_eq_some_iff.mp hp
  rw [lastLine_concat,if_pos rfl]

theorem scan_heredoc_body {inner : Parts Kind Rope} (hp : lastLine p = [])
    (hin : PartsLexed (.heredoc tag []) inner s) (htag : tag.all isTagChar) (hne : tag ≠ [])
    (hlines : (lastLineOf (endsHeredoc tag) [] inner.render).isSome)
    (h : AtLineEnd next ∨ ['\r','\n'] <+: next) :
    scan (cursorAt (.heredoc tag) p) (inner.render ++ next) =
      scan (cursorAt .code (p ++ inner.render)) next := by
  obtain ⟨above,indent,hsplit,hindent,habove⟩ := heredoc_closes hin
  have hblank : Interpolations.Blank indent := fun c hc => by
    have hor : c = ' ' ∨ c = '\t' := by simpa [isBlank] using List.all_eq_true.mp hindent c hc
    rcases hor with rfl | rfl <;> rfl
  have hline : '\n' ∉ indent ++ tag := by
    rw [List.mem_append]
    rintro (hc | hc)
    · exact absurd (List.all_eq_true.mp hindent _ hc) (by decide)
    · exact absurd (List.all_eq_true.mp htag _ hc) (by decide)
  have hlast : lastLine (p ++ inner.render) = indent ++ tag := by
    have habove : lastLine (p ++ above) = [] := by
      rcases habove with ⟨rfl,-⟩ | habove
      · rwa [List.append_nil]
      · exact lastLine_feed (by rw [List.getLast?_append,habove]; rfl)
    rw [hsplit,← List.append_assoc,lastLine_append hline,habove,List.nil_append]
  rw [← hp] at hlines
  rw [scan_heredoc hlines]
  refine scan_heredoc_closed ?_ ?_ h
  · rw [hlast]
    simpa using Interpolations.trim_of_blank (r:=[]) hblank (fun _ h => by cases h) (bare_of_tag htag) hne
  · rw [hlast]
    refine Interpolations.trim_of_blank hblank ?_ (bare_of_tag htag) hne
    intro c hc
    rw [List.mem_singleton.mp hc]
    rfl

theorem scan_whole_heredoc {opener : Rope} {inner : Parts Kind Rope} (hs : Opener tag opener)
    (hin : PartsLexed (.heredoc tag []) inner next)
    (h : tag.all isTagChar ∧ (lastLineOf (endsHeredoc tag) [] inner.render).isSome)
    (hnext : AtLineEnd next ∨ ['\r','\n'] <+: next) :
    scan (cursorAt .code p) (opener ++ inner.render ++ next) =
      scan (cursorAt .code (p ++ (opener ++ inner.render))) next := by
  have hline : lastLine (p ++ opener) = [] := by
    obtain ⟨dash,rest,rfl,-⟩ := hs.split
    refine lastLine_feed ?_
    simp only [← List.append_assoc]
    exact List.getLast?_concat
  have hne : tag ≠ [] := by
    rintro rfl
    exact absurd hs.head (by decide)
  rw [List.append_assoc,scan_opener hs h.1,scan_heredoc_body hline hin h.1 hne h.2 hnext,List.append_assoc]

end heredocs

/-! ### Where the scan keeps in step -/

/-- The trees in which a comment begins with slashes. -/
def isSlashes (t : Source) : Bool := t.kind = .slashes

mutual

/-- What is before each of these comments. -/
def slashComments : Rope → Source → List Rope
  | p, .node kind parts => if kind = .slashes then [p] else slashCommentsIn p parts

def slashCommentsIn : Rope → Parts Kind Rope → List Rope
  | _, .nil => []
  | p, .text s rest => slashCommentsIn (p ++ s) rest
  | p, .child t rest => slashComments p t ++ slashCommentsIn (p ++ t.render) rest

end

mutual

/-- The scan's flag for strings says the same behind a tree as before it, and nothing in the
tree is taken for what it is not. -/
def TreeSteady : Bool → Source → Rope → Prop
  | inString, .node .slashes (.text _ _), _ => inString = false
  | inString, .node .hash (.text s _), _ => inString → Still s
  | inString, .node .block (.text s _), _ => inString → Still s
  -- in a template inside of another one the flag says that it is code
  | inString, .node .quoted (.text _ inner), next => PartsSteady true (!inString) inner next
  | inString, .node .sequence (.text _ inner), next => PartsSteady false inString inner next
  | inString, .node (.heredoc tag) (.text s inner), _ => inner.picked isSlashes = [] ∧
    if inString then Still (s ++ inner.render)
    else tag.all isTagChar ∧ (lastLineOf (endsHeredoc tag) [] inner.render).isSome
  | _, .node _ .nil, _ => True
  | _, .node _ (.child _ _), _ => True

def PartsSteady (literal : Bool) : Bool → Parts Kind Rope → Rope → Prop
  | _, .nil, _ => True
  | inString, .text s rest, next =>
    (literal → rest ≠ .nil → inString = false → isQuiet (rest.render ++ next) s) ∧
      PartsSteady literal inString rest next
  | inString, .child t rest, next =>
    TreeSteady inString t (rest.render ++ next) ∧ PartsSteady literal inString rest next

end

mutual

theorem slashComments_of_none {p : Rope} : ∀ {t : Source}, t.picked isSlashes = [] →
    slashComments p t = []
  | .node kind parts, h => by
    rw [Tree.picked] at h
    obtain ⟨hkind,hparts⟩ := List.append_eq_nil_iff.mp h
    have hne : kind ≠ .slashes := fun hk => by simp [isSlashes,Tree.kind,hk] at hkind
    rw [slashComments,if_neg hne,slashCommentsIn_of_none hparts]

theorem slashCommentsIn_of_none {p : Rope} : ∀ {parts : Parts Kind Rope}, parts.picked isSlashes = [] →
    slashCommentsIn p parts = []
  | .nil, _ => rfl
  | .text s rest, h => by
    rw [Parts.picked] at h
    rw [slashCommentsIn,slashCommentsIn_of_none h]
  | .child t rest, h => by
    rw [Parts.picked] at h
    obtain ⟨ht,hrest⟩ := List.append_eq_nil_iff.mp h
    rw [slashCommentsIn,slashComments_of_none ht,slashCommentsIn_of_none hrest,List.append_nil]

end

section steady

variable {p s next : Rope} {b : Bool}

/-- The mode that the flag for strings stands for. -/
def modeOf (inString : Bool) : Mode := if inString then .string else .code

theorem still_of_isCode (h : isCode next s = true) : Still s := by
  rw [isCode,Bool.and_eq_true,Bool.not_eq_true'] at h
  refine ⟨?_,by simpa using h.2⟩
  have hquiet := h.1
  clear h
  induction s with
  | nil => exact List.not_mem_nil
  | cons c s ih =>
    rw [isQuiet,Bool.and_eq_true,Bool.not_eq_true'] at hquiet
    rw [List.mem_cons,not_or]
    refine ⟨?_,ih hquiet.2⟩
    rintro rfl
    simp [opensSign] at hquiet

theorem scan_code (h : isCode next s = true) :
    scan (cursorAt (modeOf b) p) (s ++ next) = scan (cursorAt (modeOf b) (p ++ s)) next := by
  cases b with
  | false =>
    rw [isCode,Bool.and_eq_true] at h
    exact scan_quiet h.1
  | true => exact scan_still (still_of_isCode h)

theorem scan_quote : scan (cursorAt (modeOf b) p) ('"' :: s) =
    scan (cursorAt (modeOf !b) (p ++ ['"'])) s := by
  cases b with
  | false => exact scan_code_quote
  | true => exact scan_string_quote

theorem scan_text (hliteral : isLiteral true next .done s = true)
    (hquiet : b = false → isQuiet next s = true) :
    scan (cursorAt (modeOf b) p) (s ++ next) = scan (cursorAt (modeOf b) (p ++ s)) next := by
  cases b with
  | false => exact scan_quiet (hquiet rfl)
  | true => exact scan_literal hliteral

/-- The scan of parts, before a text, finds the comments with slashes in them. -/
def Reads (m m' : Mode) (parts : Parts Kind Rope) (next : Rope) : Prop :=
  ∀ p, scan (cursorAt m p) (parts.render ++ next) =
    (slashCommentsIn p parts).map flagged ++ scan (cursorAt m' (p ++ parts.render)) next

variable {m m₁ m' : Mode} {t : Source} {rest : Parts Kind Rope}

theorem Reads.nil : Reads m m .nil next := fun p => by
  simp [Parts.render,slashCommentsIn]

theorem Reads.text (hs : ∀ p, scan (cursorAt m p) (s ++ (rest.render ++ next)) =
    scan (cursorAt m₁ (p ++ s)) (rest.render ++ next)) (hrest : Reads m₁ m' rest next) :
    Reads m m' (.text s rest) next := fun p => by
  rw [Parts.render,slashCommentsIn,List.append_assoc,hs,hrest,List.append_assoc]

theorem Reads.child (ht : ∀ p, scan (cursorAt m p) (t.render ++ (rest.render ++ next)) =
      (slashComments p t).map flagged ++ scan (cursorAt m (p ++ t.render)) (rest.render ++ next))
    (hrest : Reads m m' rest next) : Reads m m' (.child t rest) next := fun p => by
  rw [Parts.render,slashCommentsIn,List.append_assoc,ht,hrest,List.map_append,List.append_assoc,
    List.append_assoc]

theorem isCode_opener (hs : s = "$\x7b".toList ∨ s = "%\x7b".toList) : isCode next s = true := by
  rcases hs with rfl | rfl <;> rfl

theorem render_leaf {kind : Kind} : (.node kind (.text s .nil) : Source).render = s := by
  rw [Tree.render,Parts.render,Parts.render,List.append_nil]

theorem slashComments_leaf {kind : Kind} (h : kind ≠ .slashes) :
    slashComments p (.node kind (.text s .nil)) = [] := by
  rw [slashComments,if_neg h,slashCommentsIn,slashCommentsIn]

/-- A comment that the scan passes by. -/
theorem reads_comment (hs : scan (cursorAt .code p) (s ++ next) = scan (cursorAt .code (p ++ s)) next)
    (hstill : b = true → Still s) :
    scan (cursorAt (modeOf b) p) (s ++ next) = scan (cursorAt (modeOf b) (p ++ s)) next := by
  cases b with
  | false => exact hs
  | true => exact scan_still (hstill rfl)

end steady

mutual

theorem scan_tree : ∀ {t : Source} {b : Bool} {next : Rope}, TreeLexed t next →
    TreeSteady b t next → ∀ p,
    scan (cursorAt (modeOf b) p) (t.render ++ next) =
      (slashComments p t).map flagged ++ scan (cursorAt (modeOf b) (p ++ t.render)) next
  | .node .hash (.text s inner), b, next, h, hb, p => by
    rw [TreeLexed] at h
    rw [TreeSteady] at hb
    obtain ⟨rfl,hs,hline,hnext⟩ := h
    rw [render_leaf,slashComments_leaf (by rintro ⟨⟩)]
    exact reads_comment (scan_hash hs hline hnext) hb
  | .node .slashes (.text s inner), b, next, h, hb, p => by
    rw [TreeLexed] at h
    rw [TreeSteady] at hb
    obtain ⟨rfl,hs,hline,hnext⟩ := h
    obtain rfl := hb
    rw [render_leaf,slashComments,if_pos rfl]
    exact scan_slashes hs hline hnext
  | .node .block (.text s inner), b, next, h, hb, p => by
    rw [TreeLexed] at h
    rw [TreeSteady] at hb
    obtain ⟨rfl,inside,hs,hinside⟩ := h
    rw [render_leaf,slashComments_leaf (by rintro ⟨⟩)]
    exact reads_comment (scan_block hs hinside) hb
  | .node .quoted (.text s inner), b, next, h, hb, p => by
    rw [TreeLexed] at h
    rw [TreeSteady] at hb
    obtain ⟨rfl,hinner⟩ := h
    have hquotes := scan_quotes hinner hb
    rw [Bool.not_not] at hquotes
    rw [Tree.render,slashComments,if_neg (by rintro ⟨⟩)]
    exact Reads.text (fun p => scan_quote) hquotes p
  | .node .sequence (.text s inner), b, next, h, hb, p => by
    rw [TreeLexed] at h
    rw [TreeSteady] at hb
    rw [Tree.render,slashComments,if_neg (by rintro ⟨⟩)]
    exact Reads.text (fun p => scan_code (isCode_opener h.1)) (scan_code_parts h.2 (.inr ⟨0,rfl⟩) hb) p
  | .node (.heredoc tag) (.text s inner), b, next, h, hb, p => by
    rw [TreeLexed] at h
    rw [TreeSteady] at hb
    obtain ⟨hs,hinner,hnext⟩ := h
    rw [Tree.render,slashComments,if_neg (by rintro ⟨⟩),slashCommentsIn,
      slashCommentsIn_of_none hb.1,Parts.render]
    cases b with
    | false => exact scan_whole_heredoc hs hinner hb.2 hnext
    | true => exact scan_still hb.2

theorem scan_code_parts : ∀ {ctx : Context} {parts : Parts Kind Rope} {b : Bool} {next : Rope},
    PartsLexed ctx parts next → (ctx = .document ∨ ∃ depth, ctx = .sequence depth) →
    PartsSteady false b parts next → Reads (modeOf b) (modeOf b) parts next
  | _, .nil, b, next, h, hctx, _ => Reads.nil
  | .document, .text s rest, b, next, h, hctx, hb => by
    rw [PartsLexed] at h
    exact .text (fun p => scan_code h.1) (scan_code_parts h.2 hctx hb.2)
  | .document, .child t rest, b, next, h, hctx, hb => by
    rw [PartsLexed] at h
    rw [PartsSteady] at hb
    exact .child (scan_tree h.2.1 hb.1) (scan_code_parts h.2.2 hctx hb.2)
  | .sequence depth, .text s rest, b, next, h, hctx, hb => by
    rw [PartsLexed] at h
    rcases h with ⟨rfl,rfl,-⟩ | ⟨hs,d,-,hrest⟩
    · exact .text (fun p => scan_code (by rfl)) .nil
    · exact .text (fun p => scan_code hs) (scan_code_parts hrest (.inr ⟨d,rfl⟩) hb.2)
  | .sequence depth, .child t rest, b, next, h, hctx, hb => by
    rw [PartsLexed] at h
    rw [PartsSteady] at hb
    exact .child (scan_tree h.2.1 hb.1) (scan_code_parts h.2.2 hctx hb.2)

theorem scan_quotes : ∀ {parts : Parts Kind Rope} {b : Bool} {next : Rope},
    PartsLexed .quotes parts next → PartsSteady true b parts next →
    Reads (modeOf b) (modeOf !b) parts next
  | .nil, b, next, h, _ => by
    rw [PartsLexed] at h
    exact h.elim
  | .text s rest, b, next, h, hb => by
    rw [PartsLexed] at h
    rw [PartsSteady] at hb
    rcases h with ⟨rfl,rfl⟩ | ⟨hs,hrest⟩
    · exact .text (fun p => scan_quote) .nil
    · have hne : rest ≠ .nil := by
        rintro rfl
        rw [PartsLexed] at hrest
        exact hrest
      exact .text (fun p => scan_text hs (hb.1 rfl hne)) (scan_quotes hrest hb.2)
  | .child t rest, b, next, h, hb => by
    rw [PartsLexed] at h
    rw [PartsSteady] at hb
    exact .child (scan_tree h.2.1 hb.1) (scan_quotes h.2.2 hb.2)

end

/-! ### What is reported -/

/-- The scan of a whole document that it keeps in step with. -/
theorem commentSyntaxDiagnostics_eq {parts : Parts Kind Rope} (h : Lexed parts)
    (hsteady : PartsSteady false false parts []) :
    commentSyntaxDiagnostics parts.render = (slashCommentsIn [] parts).map flagged := by
  have hscan := scan_code_parts h (.inl rfl) hsteady []
  have hend : scan (cursorAt (modeOf false) parts.render) [] = [] := rfl
  rw [List.append_nil,List.nil_append,hend,List.append_nil] at hscan
  exact hscan

mutual

theorem slashComments_split : ∀ {t : Source} {p next x : Rope}, TreeLexed t next →
    x ∈ slashComments p t → ∃ y, p ++ t.render = x ++ '/' :: '/' :: y
  | .node kind (.text s inner), p, next, x, h, hx => by
    rw [slashComments] at hx
    split_ifs at hx with hkind
    · subst hkind
      rw [TreeLexed] at h
      obtain ⟨-,⟨y,rfl⟩,-⟩ := h
      exact ⟨y ++ inner.render,by rw [List.mem_singleton.mp hx,Tree.render,Parts.render]; simp⟩
    · rw [slashCommentsIn] at hx
      rcases h.inner with rfl | ⟨ctx,hinner⟩
      · cases hx
      · obtain ⟨y,hy⟩ := slashCommentsIn_split hinner hx
        exact ⟨y,by rw [Tree.render,Parts.render,← List.append_assoc,hy]⟩
  | .node kind .nil, p, next, x, h, hx => by
    rw [TreeLexed] at h
    exact h.elim
  | .node kind (.child t rest), p, next, x, h, hx => by
    rw [TreeLexed] at h
    exact h.elim

theorem slashCommentsIn_split : ∀ {ctx : Context} {parts : Parts Kind Rope} {p next x : Rope},
    PartsLexed ctx parts next → x ∈ slashCommentsIn p parts →
    ∃ y, p ++ parts.render = x ++ '/' :: '/' :: y
  | ctx, .nil, p, next, x, h, hx => by
    rw [slashCommentsIn] at hx
    cases hx
  | ctx, .text s rest, p, next, x, h, hx => by
    rw [slashCommentsIn] at hx
    rcases h.text with rfl | ⟨ctx',hrest⟩
    · cases hx
    · obtain ⟨y,hy⟩ := slashCommentsIn_split hrest hx
      exact ⟨y,by rw [Parts.render,← List.append_assoc,hy]⟩
  | ctx, .child t rest, p, next, x, h, hx => by
    obtain ⟨ht,ctx',hrest⟩ := h.child
    rw [slashCommentsIn] at hx
    rcases List.mem_append.mp hx with hx | hx
    · obtain ⟨y,hy⟩ := slashComments_split ht hx
      exact ⟨y ++ rest.render,by rw [Parts.render,← List.append_assoc,hy]; simp⟩
    · obtain ⟨y,hy⟩ := slashCommentsIn_split hrest hx
      exact ⟨y,by rw [Parts.render,← List.append_assoc,hy]⟩

end

section ranges

variable {x rest y : Rope}

theorem lastLine_of_split {before left : Rope} (hbefore : before = [] ∨ before.getLast? = some '\n')
    (hleft : '\n' ∉ left) : lastLine (before ++ left) = left := by
  rw [lastLine_append hleft]
  rcases hbefore with rfl | hbefore
  · rfl
  · rw [lastLine_feed hbefore,List.nil_append]

theorem byteOffsetToLspPosition_behind (x rest : Rope) : byteOffsetToLspPosition (x ++ rest) (lenBytes x) =
    .ok ⟨x.count '\n',lenUtf16Cu (lastLine x)⟩ := by
  obtain ⟨before,left,right,after,hline,rfl,-⟩ := LineAt.exists_around '\n' x rest
  rw [byteOffsetToLspPosition_of_lineAt hline rfl,
    lastLine_of_split hline.start fun h => hline.inside (List.mem_append_left _ h)]

theorem hclSpanToLspRange_slashes (x y : Rope) :
    hclSpanToLspRange (x ++ '/' :: '/' :: y) (lenBytes x,lenBytes x + 2) =
      .ok ⟨⟨x.count '\n',lenUtf16Cu (lastLine x)⟩,⟨x.count '\n',lenUtf16Cu (lastLine x) + 2⟩⟩ := by
  have hlen : lenBytes x + 2 = lenBytes (x ++ ['/','/']) := by
    rw [lenBytes_append]
    rfl
  have hsplit : x ++ '/' :: '/' :: y = (x ++ ['/','/']) ++ y := by simp
  have hstop := byteOffsetToLspPosition_behind (x ++ ['/','/']) y
  rw [lastLine_append (by decide),lenUtf16Cu_append,List.count_append] at hstop
  rw [hclSpanToLspRange,byteOffsetToLspPosition_behind,hlen,hsplit,hstop]
  rfl

/-- Only ASCII characters have as many code units as bytes. -/
theorem utf16Len_le (c : Char) :
    utf16Len c ≤ c.utf8Size ∧ (utf16Len c = c.utf8Size → c.utf8Size = 1) := by
  have hval : c.toNat = c.val.toNat := rfl
  rw [utf16Len]
  rcases c.utf8Size_eq with h | h | h | h
  · rw [h]
    rw [Char.utf8Size_eq_one_iff,UInt32.le_iff_toNat_le] at h
    have hlast : (127 : UInt32).toNat = 127 := rfl
    rw [if_pos (by omega)]
    exact ⟨Nat.le_refl _,fun _ => rfl⟩
  · rw [h]
    rw [Char.utf8Size_eq_two_iff,UInt32.le_iff_toNat_le] at h
    have hlast : (0x7ff : UInt32).toNat = 0x7ff := rfl
    rw [if_pos (by omega)]
    omega
  · split_ifs <;> omega
  · split_ifs <;> omega

theorem lenUtf16Cu_le (a : Rope) : lenUtf16Cu a ≤ lenBytes a := by
  induction a with
  | nil => exact Nat.le_refl _
  | cons c a ih =>
    have hc := (utf16Len_le c).1
    rw [lenUtf16Cu_cons,lenBytes_cons]
    omega

theorem ascii_of_lenUtf16Cu {a : Rope} (h : lenUtf16Cu a = lenBytes a) : ∀ c ∈ a, c.utf8Size = 1 := by
  induction a with
  | nil => rintro c ⟨⟩
  | cons c a ih =>
    obtain ⟨hle,hone⟩ := utf16Len_le c
    have hrest := lenUtf16Cu_le a
    rw [lenUtf16Cu_cons,lenBytes_cons] at h
    exact List.forall_mem_cons.mpr ⟨hone (by omega),ih (by omega)⟩

end ranges

/-- What the diagnostics mark are the slashes of the comments, in the order of the text. -/
def Exact (parts : Parts Kind Rope) : Prop :=
  (commentSyntaxDiagnostics parts.render).map (fun d => (.ok d.range : Except ParseError Range)) =
    (slashCommentsIn [] parts).map fun x => hclSpanToLspRange parts.render (lenBytes x,lenBytes x + 2)

theorem slash_comments_exact {parts : Parts Kind Rope} (h : Lexed parts)
    (hsteady : PartsSteady false false parts []) :
    commentSyntaxDiagnostics parts.render =
        (slashCommentsIn [] parts).map (fun x => slashDiagnostic (x.count '\n') (lenBytes (lastLine x))) ∧
      (Exact parts ↔ ∀ x ∈ slashCommentsIn [] parts, ∀ c ∈ lastLine x, c.utf8Size = 1) := by
  have hscan := commentSyntaxDiagnostics_eq h hsteady
  refine ⟨hscan,?_⟩
  have hrange : ∀ x ∈ slashCommentsIn [] parts, ((.ok (flagged x).range : Except ParseError Range) =
      hclSpanToLspRange parts.render (lenBytes x,lenBytes x + 2) ↔ ∀ c ∈ lastLine x, c.utf8Size = 1) := by
    intro x hx
    obtain ⟨y,hy⟩ := slashCommentsIn_split h hx
    rw [List.nil_append] at hy
    rw [hy,hclSpanToLspRange_slashes]
    constructor
    · intro heq
      refine ascii_of_lenUtf16Cu ?_
      have hstart := congrArg (fun r : Range => r.start.character) (Except.ok.inj heq)
      exact hstart.symm
    · intro hascii
      rw [flagged,slashDiagnostic,Recovery.lenUtf16Cu_of_ascii hascii]
  rw [Exact,hscan,List.map_map,List.map_inj_left]
  exact forall₂_congr hrange

/-- A call inside of a template, a comment, and a heredoc with slashes in it. -/
def templateDocument : Parts Kind Rope :=
  .text "a = ".toList <|
  .child (.node .quoted <| .text ['"'] <|
    .child (.node .sequence <| .text "$\x7b".toList <| .text "f(".toList <|
      .child (.node .quoted <| .text ['"'] <| .text ['b'] <| .text ['"'] .nil) <|
      .text [')'] <| .text ['\x7d'] .nil) <|
    .text ['"'] .nil) <|
  .text [' '] <| .child (.node .slashes <| .text "// c".toList .nil) <|
  .text "\nx = ".toList <|
  .child (.node (.heredoc "EOT".toList) <| .text "<<EOT\n".toList <| .text "http://x\n".toList <|
    .text "EOT".toList .nil) <|
  .text ['\n'] <| .child (.node .hash <| .text "# d".toList .nil) .nil

theorem slash_comments_exact_template :
    Lexed templateDocument ∧ PartsSteady false false templateDocument [] ∧ Exact templateDocument := by
  have hlexed : Lexed templateDocument := by
    refine ⟨rfl,nofun,⟨rfl,rfl,⟨.inl rfl,.inr ⟨rfl,0,rfl,nofun,⟨rfl,?_⟩,?_⟩⟩,.inl ⟨rfl,rfl⟩⟩,
      rfl,nofun,⟨rfl,⟨_,rfl⟩,by decide,.inr rfl⟩,rfl,nofun,⟨?_,?_,.inl (.inr rfl)⟩,
      rfl,nofun,⟨rfl,rfl,by decide,.inl rfl⟩,trivial⟩
    · exact .inr ⟨rfl,.inl ⟨rfl,rfl⟩⟩
    · exact .inr ⟨rfl,0,rfl,.inl ⟨rfl,rfl,rfl⟩⟩
    · exact ⟨⟨[],[],rfl,.inl rfl,rfl⟩,rfl,rfl⟩
    · exact .inr ⟨rfl,[],rfl,.inl ⟨rfl,rfl,[],rfl,rfl⟩⟩
  have hsteady : PartsSteady false false templateDocument [] := by
    have hclosing : ∀ {q : Prop}, Parts.nil ≠ (Parts.nil : Parts Kind Rope) → q :=
      fun h => absurd rfl h
    exact ⟨nofun,⟨⟨nofun,⟨fun _ _ _ => rfl,fun _ => hclosing,trivial⟩,nofun,nofun,trivial⟩,
      fun _ => hclosing,trivial⟩,
      nofun,rfl,nofun,⟨rfl,rfl,rfl⟩,nofun,nofun,trivial⟩
  have hascii : (slashCommentsIn [] templateDocument).all fun x =>
      (lastLine x).all fun c => c.utf8Size = 1 := rfl
  refine ⟨hlexed,hsteady,(slash_comments_exact hlexed hsteady).2.mpr fun x hx c hc => ?_⟩
  exact of_decide_eq_true (List.all_eq_true.mp (List.all_eq_true.mp hascii x hx) c hc)

end CommentSyntax
end TerraformLs
