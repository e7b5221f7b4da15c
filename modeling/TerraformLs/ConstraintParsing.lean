import TerraformLs.VersionConstraint

/-! Parsing a constraint text yields one result for each piece between commas, with
a span in that piece, unless a piece is made of white space only: then the slice
that trims it is inverted and panics. -/
namespace TerraformLs
namespace VersionConstraint

open GitRefs

/-- Something is written in the piece, and all of it is white space. -/
def Blank (piece : Rope) : Prop := piece ≠ [] ∧ ∀ c ∈ piece, isAsciiWhitespace c

instance (piece : Rope) : Decidable (Blank piece) := inferInstanceAs (Decidable (_ ∧ _))

/-- The span of the constraint or of the error that a piece came to. -/
def resultSpan : Constraint ⊕ ConstraintError → Span
  | .inl c => c.span
  | .inr e => e.span

def Within (piece span : Span) : Prop :=
  piece.1 ≤ span.1 ∧ span.1 ≤ span.2 ∧ span.2 ≤ piece.2

/-- Each piece between commas has one result, in order, with a span inside of it. -/
structure Accounted (input : Rope) (parsed : Parsed) : Prop where
  count : parsed.constraints.length + parsed.errors.length = input.count ',' + 1
  results : ∃ (pieces : List Span) (results : List (Constraint ⊕ ConstraintError)),
    List.Forall₂ input.At pieces (input.splitOn ',') ∧
      results.filterMap Sum.getLeft? = parsed.constraints ∧
      results.filterMap Sum.getRight? = parsed.errors ∧
      List.Forall₂ (fun piece result => Within piece (resultSpan result)) pieces results ∧
      (results.map resultSpan).Pairwise fun a b => a.2 < b.1

/-! What the parts of a piece are. -/

theorem splitCommas_at (input : Rope) :
    List.Forall₂ input.At (splitCommas input) (input.splitOn ',') := by
  simpa [splitCommas] using Pieces.splitFrom_at [] [] input
    List.not_mem_nil (by simp)

/-- What is left of a piece when white space is cut off at both ends. -/
def trimmed (raw : Rope) : Rope := (raw.dropWhile isAsciiWhitespace).rdropWhile isAsciiWhitespace

theorem takeWhile_reverse_of_mem {p : Char → Bool} {a b : Rope} (hb : ∃ c ∈ b, ¬p c) :
    (a ++ b).reverse.takeWhile p = b.reverse.takeWhile p := by
  obtain ⟨c,hc,hp⟩ := hb
  have hstop : b.reverse.takeWhile p ≠ b.reverse := by
    intro hall
    have hmem : c ∈ b.reverse.takeWhile p := by rw [hall]; exact List.mem_reverse.mpr hc
    exact hp (List.mem_takeWhile_imp hmem)
  have hlen : (b.reverse.takeWhile p).length ≠ b.reverse.length := fun h =>
    hstop ((List.takeWhile_prefix p).eq_of_length h)
  rw [List.reverse_append,List.takeWhile_append,if_neg hlen]

/-- A piece with something other than white space is that between white space. -/
theorem trimmed_parts {raw : Rope} (h : ∃ c ∈ raw, ¬isAsciiWhitespace c) :
    trimmed raw ≠ [] ∧ raw = raw.takeWhile isAsciiWhitespace ++
      (trimmed raw ++ (raw.reverse.takeWhile isAsciiWhitespace).reverse) := by
  have hraw : raw.takeWhile isAsciiWhitespace ++ raw.dropWhile isAsciiWhitespace = raw :=
    List.takeWhile_append_dropWhile
  have hrest : ∃ c ∈ raw.dropWhile isAsciiWhitespace, ¬isAsciiWhitespace c := by
    obtain ⟨c,hc,hp⟩ := h
    rw [← hraw] at hc
    rcases List.mem_append.mp hc with hc | hc
    · exact absurd (List.mem_takeWhile_imp hc) hp
    · exact ⟨c,hc,hp⟩
  have hend : raw.reverse.takeWhile isAsciiWhitespace =
      (raw.dropWhile isAsciiWhitespace).reverse.takeWhile isAsciiWhitespace := by
    conv_lhs => rw [← hraw]
    exact takeWhile_reverse_of_mem hrest
  have hparts : raw.dropWhile isAsciiWhitespace = trimmed raw ++
      (raw.reverse.takeWhile isAsciiWhitespace).reverse := by
    rw [hend,trimmed,List.rdropWhile,← List.reverse_append,List.takeWhile_append_dropWhile,
      List.reverse_reverse]
  refine ⟨fun hempty => ?_,?_⟩
  · obtain ⟨c,hc,hp⟩ := hrest
    rw [hparts,hempty,List.nil_append,List.mem_reverse] at hc
    exact hp (List.mem_takeWhile_imp hc)
  · rw [← hparts,hraw]

/-- The operator with its token, which is empty where none is written. -/
def operatorOf (s : Rope) : Rope × ConstraintOp :=
  (operatorTokens.find? fun t => t.1.isPrefixOf s).getD ([],.eq)

def afterOperator (s : Rope) : Rope := s.drop (operatorOf s).1.length

theorem detectOperator_eq (s : Rope) :
    detectOperator s = ((operatorOf s).2,Rope.lenBytes (operatorOf s).1) := by
  rw [detectOperator,operatorOf]
  cases operatorTokens.find? fun t => t.1.isPrefixOf s with
  | none => rfl
  | some t => rfl

theorem operatorOf_append (s : Rope) : (operatorOf s).1 ++ afterOperator s = s := by
  have hprefix : (operatorOf s).1 <+: s := by
    rw [operatorOf]
    cases hfind : operatorTokens.find? fun t => t.1.isPrefixOf s with
    | none => exact List.nil_prefix
    | some t => exact List.isPrefixOf_iff_prefix.mp (by simpa using List.find?_some hfind)
  obtain ⟨rest,hrest⟩ := hprefix
  have hdrop := congrArg (List.drop (operatorOf s).1.length) hrest
  rw [List.drop_left] at hdrop
  rw [afterOperator,← hdrop,hrest]

/-- The version that is read, as it stands between white space. -/
def versionOf (s : Rope) : Rope :=
  ((afterOperator s).dropWhile isAsciiWhitespace).rdropWhile isWhitespace

/-- Where the version begins. -/
def versionStart (s : Rope) : ℕ :=
  Rope.lenBytes (operatorOf s).1 + Rope.lenBytes ((afterOperator s).takeWhile isAsciiWhitespace)

/-- What is reported as an unknown operator. -/
def operatorRun (s : Rope) : Rope := s.takeWhile fun c => !c.isAlphanum && !isAsciiWhitespace c

/-- The characters that may begin an operator are not skipped as part of a version. -/
theorem nonVersionPrefixLen_eq {s : Rope} (h : startsWithOperatorChar s) :
    nonVersionPrefixLen s = Rope.lenBytes (operatorRun s) := by
  rw [nonVersionPrefixLen,operatorRun,Nat.max_eq_left]
  cases s with
  | nil => cases h
  | cons c s =>
    have hchar : (!c.isAlphanum && !isAsciiWhitespace c) = true := by
      simp only [startsWithOperatorChar,List.head?_cons,Option.any_some,List.mem_cons,
        List.not_mem_nil,or_false,decide_eq_true_eq] at h
      rcases h with rfl | rfl | rfl | rfl | rfl | rfl | rfl | rfl | rfl <;> decide
    have hpos := c.utf8Size_pos
    rw [List.takeWhile_cons,hchar,if_pos rfl,Rope.lenBytes_cons]
    omega

/-- What a piece comes to, from where its content starts and from its content. -/
def readPiece (start : ℕ) (content : Rope) : Constraint ⊕ ConstraintError :=
  let version := versionOf content
  let versionEnd := start + versionStart content + version.lenBytes
  if (operatorOf content).1 = [] ∧ startsWithOperatorChar content then
    .inr ⟨(start,start + nonVersionPrefixLen content),unknownMessage (operatorRun content)⟩
  else if version = [] then
    .inr ⟨(start,start + content.lenBytes),missingMessage (operatorOf content).2⟩
  else
    match validateVersion version with
    | .error reason =>
      .inr ⟨(start + versionStart content,versionEnd),malformedMessage version reason⟩
    | .ok _ => .inl ⟨(operatorOf content).2,version,(start,versionEnd)⟩

def outcomeOf : Constraint ⊕ ConstraintError → Outcome ConstraintError Constraint
  | .inl c => .ok c
  | .inr e => .err e

/-! What a piece comes to. -/

/-- White space only: the slice that cuts it off at both ends is inverted. -/
theorem parsePiece_blank {input piece : Rope} {span : Span} (hat : input.At span piece)
    (hblank : Blank piece) : parsePiece input span = .panicked := by
  have hall : piece.takeWhile isAsciiWhitespace = piece := List.takeWhile_eq_self_iff.mpr hblank.2
  have hend : piece.reverse.takeWhile isAsciiWhitespace = piece.reverse :=
    List.takeWhile_eq_self_iff.mpr fun c hc => hblank.2 c (List.mem_reverse.mp hc)
  have hlen : piece.lenBytes ≠ 0 := fun h => hblank.1 (Rope.lenBytes_eq_zero.mp h)
  have hpanic : (Rope.slice piece piece.lenBytes (piece.lenBytes - piece.lenBytes) :
      Outcome ConstraintError Rope) = .panicked := Rope.slice_of_inverted (by omega)
  simp only [parsePiece,hat.slice,Outcome.bind_ok,hall,hend,Rope.lenBytes_reverse,hpanic,
    Outcome.bind_panicked]

theorem parsePiece_empty {input : Rope} {span : Span} (hat : input.At span []) :
    parsePiece input span = .err ⟨span,emptyMessage⟩ := by
  have hslice : (Rope.slice [] 0 0 : Outcome ConstraintError Rope) = .ok [] := rfl
  simp only [parsePiece,hat.slice,List.takeWhile_nil,List.reverse_nil,Rope.lenBytes_nil,
    Nat.sub_zero,hslice,Outcome.bind_ok,if_true]

theorem lenBytes_rdropWhile_le (p : Char → Bool) (s : Rope) :
    Rope.lenBytes (s.rdropWhile p) ≤ Rope.lenBytes s := by
  obtain ⟨after,hafter⟩ := List.rdropWhile_prefix p s
  have hlen := Rope.lenBytes_append (s.rdropWhile p) after
  rw [hafter] at hlen
  omega

/-- Anything else is read from its content, and no slice panics. -/
theorem parsePiece_eq {input piece : Rope} {span : Span} (hat : input.At span piece)
    (hchar : ∃ c ∈ piece, ¬isAsciiWhitespace c) :
    parsePiece input span = outcomeOf (readPiece
      (span.1 + Rope.lenBytes (piece.takeWhile isAsciiWhitespace)) (trimmed piece)) := by
  obtain ⟨hcontent,hparts⟩ := trimmed_parts hchar
  have hoperator := operatorOf_append (trimmed piece)
  -- The bytes of the piece, counted over its parts.
  have hbytes : piece.lenBytes = Rope.lenBytes (piece.takeWhile isAsciiWhitespace) +
      (Rope.lenBytes (trimmed piece) +
        Rope.lenBytes (piece.reverse.takeWhile isAsciiWhitespace)) := by
    conv_lhs => rw [hparts]
    simp only [Rope.lenBytes_append,Rope.lenBytes_reverse]
  have hstop : piece.lenBytes - Rope.lenBytes (piece.reverse.takeWhile isAsciiWhitespace) =
      Rope.lenBytes (piece.takeWhile isAsciiWhitespace) + Rope.lenBytes (trimmed piece) := by
    omega
  have hslice : (Rope.slice piece (Rope.lenBytes (piece.takeWhile isAsciiWhitespace))
      (piece.lenBytes - Rope.lenBytes (piece.reverse.takeWhile isAsciiWhitespace)) :
      Outcome ConstraintError Rope) = .ok (trimmed piece) := by
    have hmiddle : Rope.At piece (_,_) (trimmed piece) := ⟨_,_,hparts,rfl⟩
    rw [hstop]
    exact hmiddle.slice
  have hafter : (Rope.slice (trimmed piece) (Rope.lenBytes (operatorOf (trimmed piece)).1)
      (Rope.lenBytes (trimmed piece)) : Outcome ConstraintError Rope) =
        .ok (afterOperator (trimmed piece)) := by
    have hsuffix := Rope.slice_suffix (ε := ConstraintError)
      (operatorOf (trimmed piece)).1 (afterOperator (trimmed piece))
    rwa [hoperator] at hsuffix
  have hrest : (Rope.slice (trimmed piece) (versionStart (trimmed piece))
      (Rope.lenBytes (trimmed piece)) : Outcome ConstraintError Rope) =
        .ok ((afterOperator (trimmed piece)).dropWhile isAsciiWhitespace) := by
    have hsuffix := Rope.slice_suffix (ε := ConstraintError) ((operatorOf (trimmed piece)).1 ++
      (afterOperator (trimmed piece)).takeWhile isAsciiWhitespace)
      ((afterOperator (trimmed piece)).dropWhile isAsciiWhitespace)
    rw [List.append_assoc,List.takeWhile_append_dropWhile,hoperator,Rope.lenBytes_append]
      at hsuffix
    exact hsuffix
  have hempty : Rope.lenBytes (operatorOf (trimmed piece)).1 = 0 ↔
      (operatorOf (trimmed piece)).1 = [] := Rope.lenBytes_eq_zero
  simp only [parsePiece,hat.slice,Outcome.bind_ok,hslice,if_neg hcontent,detectOperator_eq,
    hafter,hempty]
  have hversion : ((afterOperator (trimmed piece)).dropWhile isAsciiWhitespace).rdropWhile
      isWhitespace = versionOf (trimmed piece) := rfl
  rw [← versionStart,hrest]
  simp only [Outcome.bind_ok,readPiece,hversion]
  split_ifs with hunknown hmissing
  · have hrun : (Rope.slice (trimmed piece) 0 (nonVersionPrefixLen (trimmed piece)) :
        Outcome ConstraintError Rope) = .ok (operatorRun (trimmed piece)) := by
      have hprefix := Rope.slice_prefix (ε := ConstraintError) (operatorRun (trimmed piece))
        ((trimmed piece).dropWhile fun c => !c.isAlphanum && !isAsciiWhitespace c)
      rwa [operatorRun,List.takeWhile_append_dropWhile,← operatorRun,
        ← nonVersionPrefixLen_eq hunknown.2] at hprefix
    rw [hrun]
    rfl
  · rfl
  · cases validateVersion (versionOf (trimmed piece)) <;> rfl

/-- The parts of a content in bytes. -/
theorem lenBytes_content (content : Rope) : versionStart content +
    Rope.lenBytes (versionOf content) ≤ Rope.lenBytes content := by
  have hblanks : (operatorOf content).1 ++ ((afterOperator content).takeWhile isAsciiWhitespace ++
      (afterOperator content).dropWhile isAsciiWhitespace) = content := by
    rw [List.takeWhile_append_dropWhile,operatorOf_append]
  have hcontent := congrArg Rope.lenBytes hblanks
  have hversion := lenBytes_rdropWhile_le isWhitespace
    ((afterOperator content).dropWhile isAsciiWhitespace)
  rw [← versionOf] at hversion
  simp only [Rope.lenBytes_append] at hcontent
  rw [versionStart]
  omega

theorem readPiece_within (start : ℕ) (content : Rope) :
    Within (start,start + Rope.lenBytes content) (resultSpan (readPiece start content)) := by
  have hcontent := lenBytes_content content
  unfold readPiece
  simp only
  split_ifs with hunknown hmissing
  · have hrun : Rope.lenBytes (operatorRun content) ≤ Rope.lenBytes content := by
      have hsplit := congrArg Rope.lenBytes (List.takeWhile_append_dropWhile
        (p := fun c : Char => !c.isAlphanum && !isAsciiWhitespace c) (l := content))
      rw [Rope.lenBytes_append] at hsplit
      rw [operatorRun]
      omega
    rw [nonVersionPrefixLen_eq hunknown.2]
    simp only [Within,resultSpan]
    omega
  · simp only [Within,resultSpan]
    omega
  · cases validateVersion (versionOf content) with
    | error reason =>
      simp only [Within,resultSpan]
      omega
    | ok _ =>
      simp only [Within,resultSpan]
      omega

/-- Anything else has a constraint or an error, with a span in the piece. -/
theorem parsePiece_within {input piece : Rope} {span : Span} (hat : input.At span piece)
    (hchar : ∃ c ∈ piece, ¬isAsciiWhitespace c) :
    (∃ c, parsePiece input span = .ok c ∧ Within span c.span) ∨
      ∃ e, parsePiece input span = .err e ∧ Within span e.span := by
  have hparts := congrArg Rope.lenBytes (trimmed_parts hchar).2
  have hread := readPiece_within
    (span.1 + Rope.lenBytes (piece.takeWhile isAsciiWhitespace)) (trimmed piece)
  have hlen := hat.length
  simp only [Rope.lenBytes_append] at hparts
  have hwithin : Within span (resultSpan (readPiece
      (span.1 + Rope.lenBytes (piece.takeWhile isAsciiWhitespace)) (trimmed piece))) := by
    simp only [Within] at hread ⊢
    omega
  rw [parsePiece_eq hat hchar]
  cases hresult : readPiece
      (span.1 + Rope.lenBytes (piece.takeWhile isAsciiWhitespace)) (trimmed piece) with
  | inl c => exact .inl ⟨c,rfl,by rw [hresult] at hwithin; exact hwithin⟩
  | inr e => exact .inr ⟨e,rfl,by rw [hresult] at hwithin; exact hwithin⟩

/-! What the whole text comes to. -/

theorem length_results (results : List (Constraint ⊕ ConstraintError)) :
    (results.filterMap Sum.getLeft?).length + (results.filterMap Sum.getRight?).length =
      results.length := by
  induction results with
  | nil => rfl
  | cons result results ih =>
    cases result with
    | inl c =>
      simp only [List.filterMap_cons,Sum.getLeft?_inl,Sum.getRight?_inl,List.length_cons]
      omega
    | inr e =>
      simp only [List.filterMap_cons,Sum.getLeft?_inr,Sum.getRight?_inr,List.length_cons]
      omega

/-- Spans inside of pieces are apart where the pieces are. -/
theorem pairwise_within {pieces : List Span} {results : List (Constraint ⊕ ConstraintError)}
    (h : List.Forall₂ (fun piece result => Within piece (resultSpan result)) pieces results)
    (hpieces : pieces.Pairwise fun a b => a.2 < b.1) :
    (results.map resultSpan).Pairwise fun a b => a.2 < b.1 := by
  induction h with
  | nil => exact List.Pairwise.nil
  | @cons piece result pieces results hwithin hrest ih =>
    obtain ⟨hfirst,htail⟩ := List.pairwise_cons.mp hpieces
    refine List.pairwise_cons.mpr ⟨fun span hspan => ?_,ih htail⟩
    obtain ⟨later,hlater,rfl⟩ := List.mem_map.mp hspan
    obtain ⟨piece',hpiece',hwithin'⟩ := Pieces.exists_left hrest later hlater
    have hapart := hfirst piece' hpiece'
    have hend := hwithin.2.2
    have hstart := hwithin'.1
    omega

theorem foldlM_parseInto {input : Rope} {spans : List Span}
    (h : ∀ span ∈ spans, (∃ c, parsePiece input span = .ok c ∧ Within span c.span) ∨
      ∃ e, parsePiece input span = .err e ∧ Within span e.span) (parsed : Parsed) :
    ∃ results : List (Constraint ⊕ ConstraintError),
      List.Forall₂ (fun piece result => Within piece (resultSpan result)) spans results ∧
      spans.foldlM (parseInto input) parsed =
        .ok ⟨parsed.constraints ++ results.filterMap Sum.getLeft?,
          parsed.errors ++ results.filterMap Sum.getRight?⟩ := by
  induction spans generalizing parsed with
  | nil => exact ⟨[],.nil,by simp⟩
  | cons span spans ih =>
    have hrest := fun s hs => h s (List.mem_cons_of_mem span hs)
    rcases h span List.mem_cons_self with ⟨c,hc,hwithin⟩ | ⟨e,he,hwithin⟩
    · obtain ⟨results,hresults,hfold⟩ :=
        ih hrest { parsed with constraints := parsed.constraints ++ [c] }
      refine ⟨.inl c :: results,.cons hwithin hresults,?_⟩
      rw [List.foldlM_cons,parseInto,hc]
      simpa [List.filterMap_cons] using hfold
    · obtain ⟨results,hresults,hfold⟩ :=
        ih hrest { parsed with errors := parsed.errors ++ [e] }
      refine ⟨.inr e :: results,.cons hwithin hresults,?_⟩
      rw [List.foldlM_cons,parseInto,he]
      simpa [List.filterMap_cons] using hfold

theorem foldlM_panics {input : Rope} {spans : List Span} {span : Span} (hspan : span ∈ spans)
    (hpanic : parsePiece input span = .panicked) (parsed : Parsed) :
    spans.foldlM (parseInto input) parsed = .panicked := by
  induction spans generalizing parsed with
  | nil => cases hspan
  | cons first spans ih =>
    rw [List.foldlM_cons]
    rcases List.mem_cons.mp hspan with rfl | hrest
    · rw [parseInto,hpanic]
      rfl
    · rw [parseInto]
      cases parsePiece input first with
      | ok c => exact ih hrest _
      | err e => exact ih hrest _
      | panicked => rfl

/-- Every piece has exactly one result and nothing panics, unless a piece is blank. -/
theorem parse_accounted_iff (input : Rope) :
    (∃ parsed, parse input = .ok parsed ∧ Accounted input parsed) ↔
      ∀ piece ∈ input.splitOn ',', ¬Blank piece := by
  have hat := splitCommas_at input
  constructor
  · rintro ⟨parsed,hparse,-⟩ piece hpiece hblank
    obtain ⟨span,hspan,hpos⟩ := Pieces.exists_left hat piece hpiece
    rw [parse,foldlM_panics hspan (parsePiece_blank hpos hblank)] at hparse
    cases hparse
  · intro h
    have hpieces : ∀ span ∈ splitCommas input,
        (∃ c, parsePiece input span = .ok c ∧ Within span c.span) ∨
          ∃ e, parsePiece input span = .err e ∧ Within span e.span := by
      intro span hspan
      obtain ⟨piece,hpiece,hpos⟩ := Pieces.exists_right hat span hspan
      by_cases hempty : piece = []
      · subst hempty
        refine .inr ⟨_,parsePiece_empty hpos,?_⟩
        have hlen := hpos.length
        simp only [Within]
        omega
      · have hchar : ∃ c ∈ piece, ¬isAsciiWhitespace c := by
          by_contra hall
          push Not at hall
          exact h piece hpiece ⟨hempty,hall⟩
        exact parsePiece_within hpos hchar
    obtain ⟨results,hresults,hfold⟩ := foldlM_parseInto hpieces {}
    have hlen : results.length = input.count ',' + 1 := by
      rw [← hresults.length_eq,splitCommas,Pieces.length_splitFrom]
    have hapart := pairwise_within hresults (Pieces.splitFrom_pairwise input)
    refine ⟨_,hfold,?_,splitCommas input,results,hat,by simp,by simp,hresults,hapart⟩
    simp only [List.nil_append]
    rw [length_results,hlen]

/-- A comma with a blank behind it panics. -/
theorem trailing_blank_not_accounted :
    ¬∃ parsed, parse ['1',',',' '] = .ok parsed ∧ Accounted ['1',',',' '] parsed := by
  have hpanic : parse ['1',',',' '] = .panicked := by decide +kernel
  rintro ⟨parsed,hparse,-⟩
  rw [hpanic] at hparse
  cases hparse

end VersionConstraint
end TerraformLs
