import TerraformLs.ConstraintParsing
import TerraformLs.VersionOrder

/-! The grammar of constraint texts, and what the parser accepts. The parser looks at the
numeric core of a version only: whatever follows a dash or a plus sign passes, and so
does white space outside of ASCII at the end of a piece. -/
namespace TerraformLs
namespace VersionConstraint

open GitRefs SemVer

section grammar

/-- `DIGIT+ ("." DIGIT+)*`. -/
def IsCore (s : Rope) : Prop :=
  ∃ segs, (segs ≠ [] ∧ ∀ seg ∈ segs, isNumeric seg) ∧ s = ['.'].intercalate segs

def IsIdent (s : Rope) : Prop := s ≠ [] ∧ ∀ c ∈ s, c.isAlphanum = true ∨ c = '-' ∨ c = '.'

/-- A mark and an identifier, or nothing. -/
def IsTag (mark : Char) (s : Rope) : Prop := s = [] ∨ ∃ ident, IsIdent ident ∧ s = mark :: ident

/-- `("-" IDENT)? ("+" IDENT)?`. -/
def IsTags (s : Rope) : Prop := ∃ pre build, IsTag '-' pre ∧ IsTag '+' build ∧ s = pre ++ build

def IsVersion (v : Rope) : Prop := ∃ core tags, IsCore core ∧ IsTags tags ∧ v = core ++ tags

/-- An operator; where none is written, it is `=`. -/
def IsOperator (token : Rope) (op : ConstraintOp) : Prop :=
  token = op.token.toList ∨ token = [] ∧ op = .eq

def Blanks (s : Rope) : Prop := ∀ c ∈ s, isAsciiWhitespace c = true

/-- The piece is derived as a constraint with this operator and version token. -/
def Derives (piece : Rope) (c : ConstraintOp × Rope) : Prop :=
  ∃ lead token gap trail, piece = lead ++ (token ++ (gap ++ (c.2 ++ trail))) ∧
    Blanks lead ∧ IsOperator token c.1 ∧ Blanks gap ∧ IsVersion c.2 ∧ Blanks trail

/-- `constraint ("," constraint)*`. -/
def Derived (input : Rope) (cs : List (ConstraintOp × Rope)) : Prop :=
  ∃ pieces, pieces ≠ [] ∧ input = [','].intercalate pieces ∧ List.Forall₂ Derives pieces cs

end grammar

/-- A piece with an optional operator and a numeric core, and what follows the core. -/
def Written (Tail : Rope → Prop) (piece : Rope) : Prop :=
  ∃ lead token op gap core tail, piece = lead ++ (token ++ (gap ++ (core ++ tail))) ∧
    Blanks lead ∧ IsOperator token op ∧ Blanks gap ∧ IsCore core ∧ Tail tail

/-- A dash or a plus sign with anything behind it, or white space of any kind. -/
def RunsOn (tail : Rope) : Prop :=
  tail.head? = some '-' ∨ tail.head? = some '+' ∨ ∀ c ∈ tail, isWhitespace c = true

/-- Tags as in the grammar, and white space. -/
def EndsWell (tail : Rope) : Prop := ∃ tags trail, IsTags tags ∧ Blanks trail ∧ tail = tags ++ trail

theorem strict_iff (piece : Rope) : Written EndsWell piece ↔ ∃ c, Derives piece c := by
  constructor
  · rintro ⟨lead,token,op,gap,core,-,hpiece,hlead,hop,hgap,hcore,tags,trail,htags,htrail,rfl⟩
    refine ⟨(op,core ++ tags),lead,token,gap,trail,?_,hlead,hop,hgap,⟨core,tags,hcore,htags,rfl⟩,
      htrail⟩
    rw [hpiece,List.append_assoc]
  · rintro ⟨⟨op,-⟩,lead,token,gap,trail,hpiece,hlead,hop,hgap,⟨core,tags,hcore,htags,rfl⟩,htrail⟩
    refine ⟨lead,token,op,gap,core,tags ++ trail,?_,hlead,hop,hgap,hcore,tags,trail,htags,htrail,
      rfl⟩
    rw [hpiece,List.append_assoc]

/-! Characters. -/

theorem isWhitespace_of_ascii {c : Char} (h : isAsciiWhitespace c = true) :
    isWhitespace c = true := by
  simp only [isAsciiWhitespace,Bool.or_eq_true,decide_eq_true_eq,or_assoc] at h
  obtain rfl | rfl | rfl | rfl | rfl := h <;> rfl

/-- The characters of versions lie between the white space of ASCII and that beyond. -/
theorem not_isWhitespace {c : Char} (hlow : 33 ≤ c.toNat) (hhigh : c.toNat ≤ 126) :
    isWhitespace c = false := by
  simp only [isWhitespace]
  simp
  omega

theorem not_isWhitespace_of_alphanum {c : Char} (h : c.isAlphanum = true) :
    isWhitespace c = false := by
  have h : ((decide (c.val ≥ 'A'.val ∧ c.val ≤ 'Z'.val) ||
      (decide (c.val ≥ 'a'.val) && decide (c.val ≤ 'z'.val))) ||
      (decide (c.val ≥ '0'.val) && decide (c.val ≤ '9'.val))) = true := h
  simp only [Bool.or_eq_true,Bool.and_eq_true,decide_eq_true_eq,UInt32.le_iff_toNat_le,
    ge_iff_le] at h
  have hdigits : '0'.val.toNat = 48 ∧ '9'.val.toNat = 57 := ⟨rfl,rfl⟩
  have hupper : 'A'.val.toNat = 65 ∧ 'Z'.val.toNat = 90 := ⟨rfl,rfl⟩
  have hlower : 'a'.val.toNat = 97 ∧ 'z'.val.toNat = 122 := ⟨rfl,rfl⟩
  have hval : c.toNat = c.val.toNat := rfl
  exact not_isWhitespace (by omega) (by omega)

theorem not_ascii_of_not {c : Char} (h : isWhitespace c = false) : isAsciiWhitespace c = false := by
  cases hascii : isAsciiWhitespace c
  · rfl
  · rw [isWhitespace_of_ascii hascii] at h
    cases h

theorem not_isWhitespace_of_digit {c : Char} (h : c.isDigit = true) : isWhitespace c = false :=
  not_isWhitespace_of_alphanum (by simp [Char.isAlphanum,h])

/-! Cutting off at the end. -/

theorem rdropWhile_append_of_none {p : Char → Bool} {a : Rope} (ha : ∀ c ∈ a, p c = false)
    (b : Rope) : (a ++ b).rdropWhile p = a ++ b.rdropWhile p := by
  induction b using List.reverseRecOn with
  | nil =>
    rw [List.append_nil,List.rdropWhile_nil,List.append_nil,List.rdropWhile_eq_self_iff]
    intro hne
    simp [ha _ (List.getLast_mem hne)]
  | append_singleton b c ih =>
    rw [← List.append_assoc,List.rdropWhile_concat,List.rdropWhile_concat]
    split_ifs
    · exact ih
    · rw [List.append_assoc]

theorem rdropWhile_append_of_ne {p : Char → Bool} (a : Rope) {b : Rope}
    (hb : b.rdropWhile p ≠ []) : (a ++ b).rdropWhile p = a ++ b.rdropWhile p := by
  induction b using List.reverseRecOn with
  | nil => exact absurd rfl hb
  | append_singleton b c ih =>
    rw [← List.append_assoc,List.rdropWhile_concat,List.rdropWhile_concat]
    rw [List.rdropWhile_concat] at hb
    split_ifs with hc
    · rw [if_pos hc] at hb
      exact ih hb
    · rw [List.append_assoc]

theorem rdropWhile_rdropWhile {p q : Char → Bool} (h : ∀ c, p c = true → q c = true) (l : Rope) :
    (l.rdropWhile p).rdropWhile q = l.rdropWhile q := by
  induction l using List.reverseRecOn with
  | nil => rfl
  | append_singleton l c ih =>
    rw [List.rdropWhile_concat]
    split_ifs with hc
    · rw [ih,List.rdropWhile_concat,if_pos (h c hc)]
    · rfl

/-! Numeric cores. -/

theorem IsCore.chars {core : Rope} (h : IsCore core) {c : Char} (hc : c ∈ core) :
    c.isDigit = true ∨ c = '.' := by
  obtain ⟨segs,⟨-,hnumeric⟩,rfl⟩ := h
  cases hdigit : c.isDigit
  · right
    by_contra hdot
    exact not_mem_core hnumeric hdigit hdot hc
  · exact .inl rfl

theorem IsCore.not_isWhitespace {core : Rope} (h : IsCore core) :
    ∀ c ∈ core, isWhitespace c = false := by
  intro c hc
  rcases h.chars hc with hdigit | rfl
  · exact not_isWhitespace_of_digit hdigit
  · rfl

theorem IsCore.head {core : Rope} (h : IsCore core) :
    ∃ c rest, core = c :: rest ∧ c.isDigit = true := by
  obtain ⟨segs,⟨hne,hnumeric⟩,rfl⟩ := h
  cases segs with
  | nil => exact absurd rfl hne
  | cons seg segs =>
    have hseg := hnumeric seg List.mem_cons_self
    cases seg with
    | nil => simp [isNumeric] at hseg
    | cons c seg =>
      have hc : c.isDigit = true := by
        simp only [isNumeric,Bool.and_eq_true,List.all_cons] at hseg
        exact hseg.2.1
      cases segs with
      | nil => exact ⟨c,seg,by simp,hc⟩
      | cons seg' segs => exact ⟨c,_,List.intercalate_cons_cons,hc⟩

theorem IsCore.splitOn {core : Rope} (h : IsCore core) :
    ∀ seg ∈ core.splitOn '.', isNumeric seg := by
  obtain ⟨segs,⟨hne,hnumeric⟩,rfl⟩ := h
  rw [List.splitOn_intercalate '.' (fun seg hseg => not_mem_of_isNumeric (hnumeric seg hseg) rfl)
    hne]
  exact hnumeric

theorem isCore_of_splitOn {core : Rope} (h : ∀ seg ∈ core.splitOn '.', isNumeric seg) :
    IsCore core :=
  ⟨core.splitOn '.',⟨List.splitOn_ne_nil '.' core,h⟩,(List.intercalate_splitOn '.').symm⟩

/-- Only the numeric core of a version is validated. -/
theorem validateVersion_iff_isCore {v : Rope} : validateVersion v = .ok () ↔ IsCore (coreOf v) :=
  validateVersion_ok.trans ⟨isCore_of_splitOn,IsCore.splitOn⟩

theorem coreOf_append {core tail : Rope} (h : IsCore core)
    (htail : tail = [] ∨ tail.head? = some '-' ∨ tail.head? = some '+') :
    coreOf (core ++ tail) = core := by
  have hplus : '+' ∉ core := fun hmem => by
    rcases h.chars hmem with hc | hc <;> cases hc
  have hdash : '-' ∉ core := fun hmem => by
    rcases h.chars hmem with hc | hc <;> cases hc
  rw [coreOf,takeWhile_append_not_mem hplus,takeWhile_append_not_mem hdash]
  cases tail with
  | nil => simp
  | cons c tail =>
    rcases htail with htail | htail | htail
    · cases htail
    · cases htail
      simp
    · cases htail
      simp

/-! Operators. -/

/-- The longest operator token is read when what follows is no operator character. -/
theorem operatorOf_token {op : ConstraintOp} {rest : Rope}
    (h : rest.head? ≠ some '=' ∧ rest.head? ≠ some '>') :
    operatorOf (op.token.toList ++ rest) = (op.token.toList,op) := by
  cases rest with
  | nil => cases op <;> decide
  | cons c rest =>
    have hequals : c ≠ '=' := fun hc => h.1 (by rw [hc]; rfl)
    cases op <;>
      simp [operatorOf,operatorTokens,ConstraintOp.token,List.isPrefixOf,hequals.symm]

/-- Nothing is read as an operator before a digit. -/
theorem operatorOf_digit {c : Char} (hc : c.isDigit = true) (rest : Rope) :
    operatorOf (c :: rest) = ([],.eq) ∧ startsWithOperatorChar (c :: rest) = false := by
  have hne : ∀ d : Char, d.isDigit = false → c ≠ d := by
    rintro d hd rfl
    rw [hd] at hc
    cases hc
  constructor
  · simp [operatorOf,operatorTokens,List.isPrefixOf,(hne '~' rfl).symm,(hne '>' rfl).symm,
      (hne '<' rfl).symm,(hne '!' rfl).symm,(hne '=' rfl).symm]
  · simp [startsWithOperatorChar,hne '=' rfl,hne '!' rfl,hne '<' rfl,hne '>' rfl,hne '~' rfl,
      hne '^' rfl,hne '&' rfl,hne '|' rfl,hne '+' rfl]

/-- What the parser reads of a content that begins with an operator and a core. -/
structure Reads (content : Rope) (op : ConstraintOp) (version : Rope) : Prop where
  operator : (operatorOf content).2 = op
  known : ¬((operatorOf content).1 = [] ∧ startsWithOperatorChar content = true)
  version : versionOf content = version

theorem versionOf_body {core tail gap : Rope} (hcore : IsCore core) (hgap : Blanks gap) :
    ((gap ++ (core ++ tail.rdropWhile isAsciiWhitespace)).dropWhile
      isAsciiWhitespace).rdropWhile isWhitespace = core ++ tail.rdropWhile isWhitespace := by
  obtain ⟨c,rest,hc,hdigit⟩ := hcore.head
  have hstop : isAsciiWhitespace c = false := not_ascii_of_not (not_isWhitespace_of_digit hdigit)
  have hbody : (core ++ tail.rdropWhile isAsciiWhitespace).dropWhile isAsciiWhitespace =
      core ++ tail.rdropWhile isAsciiWhitespace := by
    rw [hc,List.cons_append,List.dropWhile_cons,if_neg (by simp [hstop])]
  rw [List.dropWhile_append_of_pos hgap,hbody,
    rdropWhile_append_of_none hcore.not_isWhitespace,
    rdropWhile_rdropWhile fun _ => isWhitespace_of_ascii]

theorem reads_written {lead token gap core tail : Rope} {op : ConstraintOp}
    (hlead : Blanks lead) (hop : IsOperator token op) (hgap : Blanks gap) (hcore : IsCore core) :
    Reads (trimmed (lead ++ (token ++ (gap ++ (core ++ tail))))) op
      (core ++ tail.rdropWhile isWhitespace) := by
  obtain ⟨c,rest,hc,hdigit⟩ := hcore.head
  have hstop : isAsciiWhitespace c = false := not_ascii_of_not (not_isWhitespace_of_digit hdigit)
  have hbody : (core ++ tail).rdropWhile isAsciiWhitespace =
      core ++ tail.rdropWhile isAsciiWhitespace :=
    rdropWhile_append_of_none (fun c hc => not_ascii_of_not (hcore.not_isWhitespace c hc)) tail
  have hne : (core ++ tail).rdropWhile isAsciiWhitespace ≠ [] := by
    rw [hbody,hc]
    simp
  rw [trimmed,List.dropWhile_append_of_pos hlead]
  rcases hop with rfl | ⟨rfl,rfl⟩
  · -- an operator is written, and the white space behind it belongs to it
    have hdrop : (op.token.toList ++ (gap ++ (core ++ tail))).dropWhile isAsciiWhitespace =
        op.token.toList ++ (gap ++ (core ++ tail)) := by
      cases op <;> rfl
    have hcontent : (op.token.toList ++ (gap ++ (core ++ tail))).rdropWhile isAsciiWhitespace =
        op.token.toList ++ (gap ++ (core ++ tail.rdropWhile isAsciiWhitespace)) := by
      rw [← List.append_assoc,rdropWhile_append_of_ne _ hne,hbody,List.append_assoc]
    have hnext : ∀ d, (gap ++ (core ++ tail.rdropWhile isAsciiWhitespace)).head? = some d →
        isAsciiWhitespace d = true ∨ d.isDigit = true := by
      intro d hd
      cases gap with
      | nil =>
        rw [hc] at hd
        cases hd
        exact .inr hdigit
      | cons g gap =>
        cases hd
        exact .inl (hgap _ List.mem_cons_self)
    have hfree : (gap ++ (core ++ tail.rdropWhile isAsciiWhitespace)).head? ≠ some '=' ∧
        (gap ++ (core ++ tail.rdropWhile isAsciiWhitespace)).head? ≠ some '>' := by
      constructor
      · intro h
        rcases hnext _ h with h | h <;> exact absurd h (by decide)
      · intro h
        rcases hnext _ h with h | h <;> exact absurd h (by decide)
    have htoken : operatorOf (op.token.toList ++
        (gap ++ (core ++ tail.rdropWhile isAsciiWhitespace))) = (op.token.toList,op) :=
      operatorOf_token hfree
    rw [hdrop,hcontent]
    refine ⟨by rw [htoken],fun h => ?_,?_⟩
    · rw [htoken] at h
      cases op <;> exact absurd h.1 (by decide)
    · rw [versionOf,afterOperator,htoken,List.drop_left]
      exact versionOf_body hcore hgap
  · have hdrop : ([] ++ (gap ++ (core ++ tail))).dropWhile isAsciiWhitespace = core ++ tail := by
      rw [List.nil_append,List.dropWhile_append_of_pos hgap,hc,List.cons_append,
        List.dropWhile_cons,if_neg (by simp [hstop])]
    obtain ⟨hnone,hknown⟩ := operatorOf_digit hdigit
      (rest ++ tail.rdropWhile isAsciiWhitespace)
    rw [← List.cons_append,← hc] at hnone hknown
    rw [hdrop,hbody]
    refine ⟨by rw [hnone],fun h => ?_,?_⟩
    · rw [hknown] at h
      exact absurd h.2 Bool.false_ne_true
    · rw [versionOf,afterOperator,hnone,List.length_nil,List.drop_zero]
      have hnil : Blanks [] := fun c hc => by cases hc
      exact versionOf_body hcore hnil

/-! What is accepted. -/

theorem reads_accepted (start : ℕ) {content : Rope} {op : ConstraintOp} {version : Rope}
    (h : Reads content op version) (hcore : IsCore (coreOf version)) :
    ∃ span, readPiece start content = .inl ⟨op,version,span⟩ := by
  have hne : version ≠ [] := by
    rintro rfl
    obtain ⟨c,rest,hc,-⟩ := hcore.head
    cases hc
  unfold readPiece
  simp only [if_neg h.known,h.operator,h.version,if_neg hne,validateVersion_iff_isCore.mpr hcore]
  exact ⟨_,rfl⟩

theorem runsOn_rdropWhile {tail : Rope} (h : RunsOn tail) :
    tail.rdropWhile isWhitespace = [] ∨ (tail.rdropWhile isWhitespace).head? = some '-' ∨
      (tail.rdropWhile isWhitespace).head? = some '+' := by
  have hhead : ∀ mark, isWhitespace mark = false → tail.head? = some mark →
      (tail.rdropWhile isWhitespace).head? = some mark := by
    intro mark hmark hhead
    cases tail with
    | nil => cases hhead
    | cons c tail =>
      cases hhead
      have hsplit := rdropWhile_append_of_none (p := isWhitespace) (a := [mark])
        (by simpa using hmark) tail
      rw [List.singleton_append] at hsplit
      rw [hsplit]
      rfl
  rcases h with h | h | h
  · exact .inr (.inl (hhead '-' rfl h))
  · exact .inr (.inr (hhead '+' rfl h))
  · exact .inl (List.rdropWhile_eq_nil_iff.mpr h)

/-- A piece that runs on after its core is accepted. -/
theorem accepted_of_written {piece : Rope} (h : Written RunsOn piece) (start : ℕ) :
    ∃ c, readPiece start (trimmed piece) = .inl c := by
  obtain ⟨lead,token,op,gap,core,tail,rfl,hlead,hop,hgap,hcore,htail⟩ := h
  have hcoreOf := coreOf_append hcore (runsOn_rdropWhile htail)
  have hreads : Reads (trimmed (lead ++ (token ++ (gap ++ (core ++ tail))))) op
      (core ++ tail.rdropWhile isWhitespace) := reads_written hlead hop hgap hcore
  obtain ⟨span,hread⟩ := reads_accepted start hreads (by rw [hcoreOf]; exact hcore)
  exact ⟨_,hread⟩

theorem isOperator_operatorOf (content : Rope) :
    IsOperator (operatorOf content).1 (operatorOf content).2 := by
  rw [operatorOf]
  cases hfind : operatorTokens.find? fun t => t.1.isPrefixOf content with
  | none => exact .inr ⟨rfl,rfl⟩
  | some t =>
    have htokens : ∀ t ∈ operatorTokens, t.1 = t.2.token.toList := by decide
    exact .inl (htokens t (List.mem_of_find?_eq_some hfind))

/-- A version is its core, and what begins with a dash or a plus sign. -/
theorem coreOf_split (v : Rope) : ∃ tail, v = coreOf v ++ tail ∧
    (tail = [] ∨ tail.head? = some '-' ∨ tail.head? = some '+') := by
  have hplus : v.takeWhile (· ≠ '+') ++ v.dropWhile (· ≠ '+') = v :=
    List.takeWhile_append_dropWhile
  have hdash : coreOf v ++ (v.takeWhile (· ≠ '+')).dropWhile (· ≠ '-') =
      v.takeWhile (· ≠ '+') := List.takeWhile_append_dropWhile
  refine ⟨(v.takeWhile (· ≠ '+')).dropWhile (· ≠ '-') ++ v.dropWhile (· ≠ '+'),?_,?_⟩
  · rw [← List.append_assoc,hdash,hplus]
  · rcases dropWhile_ne '-' (v.takeWhile (· ≠ '+')) with ⟨hnone,-⟩ | ⟨rest,hrest⟩
    · rw [hnone,List.nil_append]
      rcases dropWhile_ne '+' v with ⟨hnone,-⟩ | ⟨rest,hrest⟩
      · exact .inl hnone
      · exact .inr (.inr (by rw [hrest]; rfl))
    · exact .inr (.inl (by rw [hrest]; rfl))

/-- Only pieces that run on after a numeric core are accepted. -/
theorem written_of_accepted {piece : Rope} {start : ℕ} {c : Constraint}
    (hchar : ∃ c ∈ piece, ¬isAsciiWhitespace c)
    (h : readPiece start (trimmed piece) = .inl c) : Written RunsOn piece := by
  obtain ⟨-,hpiece⟩ := trimmed_parts hchar
  have hvalid : IsCore (coreOf (versionOf (trimmed piece))) := by
    rw [← validateVersion_iff_isCore]
    unfold readPiece at h
    simp only at h
    split_ifs at h
    cases hvalidate : validateVersion (versionOf (trimmed piece)) with
    | error reason =>
      rw [hvalidate] at h
      cases h
    | ok u => rfl
  obtain ⟨tail,hversion,htail⟩ := coreOf_split (versionOf (trimmed piece))
  have hcontent := operatorOf_append (trimmed piece)
  have hgap : (afterOperator (trimmed piece)).takeWhile isAsciiWhitespace ++
      (afterOperator (trimmed piece)).dropWhile isAsciiWhitespace =
        afterOperator (trimmed piece) := List.takeWhile_append_dropWhile
  have hrest : versionOf (trimmed piece) ++ ((afterOperator (trimmed piece)).dropWhile
      isAsciiWhitespace).rtakeWhile isWhitespace =
        (afterOperator (trimmed piece)).dropWhile isAsciiWhitespace :=
    List.rdropWhile_append_rtakeWhile
  rw [← hrest] at hgap
  rw [← hgap] at hcontent
  refine ⟨piece.takeWhile isAsciiWhitespace,(operatorOf (trimmed piece)).1,
    (operatorOf (trimmed piece)).2,(afterOperator (trimmed piece)).takeWhile isAsciiWhitespace,
    coreOf (versionOf (trimmed piece)),tail ++ (((afterOperator (trimmed piece)).dropWhile
      isAsciiWhitespace).rtakeWhile isWhitespace ++
        (piece.reverse.takeWhile isAsciiWhitespace).reverse),?_,
    fun c hc => List.mem_takeWhile_imp hc,isOperator_operatorOf _,
    fun c hc => List.mem_takeWhile_imp hc,hvalid,?_⟩
  · conv_lhs => rw [hpiece,← hcontent,hversion]
    simp only [List.append_assoc]
  · rcases htail with rfl | htail | htail
    · refine .inr (.inr fun c hc => ?_)
      rw [List.nil_append,List.mem_append,List.mem_reverse] at hc
      rcases hc with hc | hc
      · exact List.mem_rtakeWhile_imp hc
      · exact isWhitespace_of_ascii (List.mem_takeWhile_imp hc)
    · exact .inl (by rw [List.head?_append,htail]; rfl)
    · exact .inr (.inl (by rw [List.head?_append,htail]; rfl))

theorem isTags_chars {tags : Rope} (h : IsTags tags) : ∀ c ∈ tags, isWhitespace c = false := by
  have htag : ∀ {mark : Char} {s : Rope}, isWhitespace mark = false → IsTag mark s →
      ∀ c ∈ s, isWhitespace c = false := by
    rintro mark s hmark (rfl | ⟨ident,hident,rfl⟩) c hc
    · cases hc
    · rcases List.mem_cons.mp hc with rfl | hc
      · exact hmark
      · rcases hident.2 c hc with hc | rfl | rfl
        · exact not_isWhitespace_of_alphanum hc
        · rfl
        · rfl
  obtain ⟨pre,build,hpre,hbuild,rfl⟩ := h
  intro c hc
  rcases List.mem_append.mp hc with hc | hc
  · exact htag rfl hpre c hc
  · exact htag rfl hbuild c hc

theorem isTags_comma {tags : Rope} (h : IsTags tags) : ',' ∉ tags := by
  have htag : ∀ {mark : Char} {s : Rope}, mark ≠ ',' → IsTag mark s → ',' ∉ s := by
    rintro mark s hmark (rfl | ⟨ident,hident,rfl⟩) hmem
    · cases hmem
    · rcases List.mem_cons.mp hmem with hc | hc
      · exact hmark hc.symm
      · rcases hident.2 ',' hc with hc | hc | hc <;> cases hc
  obtain ⟨pre,build,hpre,hbuild,rfl⟩ := h
  rw [List.mem_append]
  rintro (hmem | hmem)
  · exact htag (by decide) hpre hmem
  · exact htag (by decide) hbuild hmem

theorem isTags_head {tags : Rope} (h : IsTags tags) :
    tags = [] ∨ tags.head? = some '-' ∨ tags.head? = some '+' := by
  obtain ⟨pre,build,hpre,hbuild,rfl⟩ := h
  rcases hpre with rfl | ⟨ident,-,rfl⟩
  · rcases hbuild with rfl | ⟨ident,-,rfl⟩
    · exact .inl rfl
    · exact .inr (.inr rfl)
  · exact .inr (.inl rfl)

theorem Written.mono {P Q : Rope → Prop} (hPQ : ∀ tail, P tail → Q tail) {piece : Rope}
    (h : Written P piece) : Written Q piece := by
  obtain ⟨lead,token,op,gap,core,tail,hpiece,hlead,hop,hgap,hcore,htail⟩ := h
  exact ⟨lead,token,op,gap,core,tail,hpiece,hlead,hop,hgap,hcore,hPQ tail htail⟩

/-- What a piece is derived as is what is read. -/
theorem read_of_derives {piece : Rope} {c : ConstraintOp × Rope} (h : Derives piece c)
    (start : ℕ) : ∃ span, readPiece start (trimmed piece) = .inl ⟨c.1,c.2,span⟩ := by
  obtain ⟨op,version⟩ := c
  obtain ⟨lead,token,gap,trail,rfl,hlead,hop,hgap,⟨core,tags,hcore,htags,rfl⟩,htrail⟩ := h
  have htail : (tags ++ trail).rdropWhile isWhitespace = tags := by
    rw [rdropWhile_append_of_none (isTags_chars htags),List.rdropWhile_eq_nil_iff.mpr
      fun c hc => isWhitespace_of_ascii (htrail c hc),List.append_nil]
  have hreads : Reads (trimmed (lead ++ (token ++ (gap ++ (core ++ (tags ++ trail)))))) op
      (core ++ (tags ++ trail).rdropWhile isWhitespace) := reads_written hlead hop hgap hcore
  rw [htail] at hreads
  rw [List.append_assoc]
  exact reads_accepted start hreads (by rw [coreOf_append hcore (isTags_head htags)]; exact hcore)

theorem written_char {P : Rope → Prop} {piece : Rope} (h : Written P piece) :
    ∃ c ∈ piece, ¬isAsciiWhitespace c := by
  obtain ⟨lead,token,op,gap,core,tail,rfl,-,-,-,hcore,-⟩ := h
  obtain ⟨c,rest,rfl,hdigit⟩ := hcore.head
  exact ⟨c,by simp,by simp [not_ascii_of_not (not_isWhitespace_of_digit hdigit)]⟩

/-! The pieces of a text, one after another. -/

/-- What a piece comes to that starts at a byte offset. -/
def pieceResult (start : ℕ) (piece : Rope) : Constraint ⊕ ConstraintError :=
  if piece = [] then .inr ⟨(start,start),emptyMessage⟩
  else readPiece (start + Rope.lenBytes (piece.takeWhile isAsciiWhitespace)) (trimmed piece)

def resultsFrom : ℕ → List Rope → List (Constraint ⊕ ConstraintError)
  | _, [] => []
  | start, piece :: pieces =>
    pieceResult start piece :: resultsFrom (start + piece.lenBytes + 1) pieces

def collect (results : List (Constraint ⊕ ConstraintError)) : Parsed :=
  ⟨results.filterMap Sum.getLeft?,results.filterMap Sum.getRight?⟩

def spansFrom : ℕ → List Rope → List Span
  | _, [] => []
  | start, piece :: pieces =>
    (start,start + piece.lenBytes) :: spansFrom (start + piece.lenBytes + 1) pieces

theorem splitFrom_eq (start : ℕ) (piece s : Rope) (hpiece : ',' ∉ piece) :
    Pieces.splitFrom ',' start (start + piece.lenBytes) s =
      spansFrom start ((piece ++ s).splitOn ',') := by
  induction s generalizing start piece with
  | nil =>
    rw [List.append_nil,List.splitOn_eq_singleton hpiece]
    rfl
  | cons c s ih =>
    by_cases hc : c = ','
    · subst hc
      have hsize : Char.utf8Size ',' = 1 := rfl
      have hrest := ih (start + piece.lenBytes + 1) [] List.not_mem_nil
      rw [Pieces.splitFrom,if_pos rfl,List.splitOn_append_cons_self_of_not_mem hpiece,hsize,
        spansFrom]
      rw [← List.nil_append s,← hrest]
      rfl
    · have hmem : ',' ∉ piece ++ [c] := by simp [hpiece,Ne.symm hc]
      have hrest := ih start (piece ++ [c]) hmem
      have hpos : start + piece.lenBytes + c.utf8Size =
          start + Rope.lenBytes (piece ++ [c]) := by
        simp only [Rope.lenBytes_append,Rope.lenBytes_cons,Rope.lenBytes_nil]
        omega
      rw [Pieces.splitFrom,if_neg hc,hpos,hrest,List.append_assoc]
      rfl

theorem parsePiece_result {input piece : Rope} {start : ℕ}
    (hat : input.At (start,start + piece.lenBytes) piece) (hblank : ¬Blank piece) :
    parsePiece input (start,start + piece.lenBytes) = outcomeOf (pieceResult start piece) := by
  unfold pieceResult
  split_ifs with hempty
  · subst hempty
    exact parsePiece_empty hat
  · refine parsePiece_eq hat ?_
    by_contra hall
    push Not at hall
    exact hblank ⟨hempty,hall⟩

theorem foldlM_results {input : Rope} {start : ℕ} {pieces : List Rope}
    (hat : List.Forall₂ input.At (spansFrom start pieces) pieces)
    (hblank : ∀ piece ∈ pieces, ¬Blank piece) (parsed : Parsed) :
    (spansFrom start pieces).foldlM (parseInto input) parsed =
      .ok ⟨parsed.constraints ++ (collect (resultsFrom start pieces)).constraints,
        parsed.errors ++ (collect (resultsFrom start pieces)).errors⟩ := by
  induction pieces generalizing start parsed with
  | nil =>
    simp only [resultsFrom,collect,List.filterMap_nil,List.append_nil]
    rfl
  | cons piece pieces ih =>
    obtain ⟨hpiece,hrest⟩ := List.forall₂_cons.mp hat
    have hnext := ih hrest fun p hp => hblank p (List.mem_cons_of_mem piece hp)
    rw [spansFrom,List.foldlM_cons,parseInto,
      parsePiece_result hpiece (hblank piece List.mem_cons_self)]
    cases hresult : pieceResult start piece with
    | inl c =>
      simp only [outcomeOf,Outcome.bind_ok,hnext,resultsFrom,hresult,collect,
        List.filterMap_cons,Sum.getLeft?_inl,Sum.getRight?_inl,List.append_assoc,
        List.singleton_append]
    | inr e =>
      simp only [outcomeOf,Outcome.bind_ok,hnext,resultsFrom,hresult,collect,
        List.filterMap_cons,Sum.getLeft?_inr,Sum.getRight?_inr,List.append_assoc,
        List.singleton_append]

/-- What a text comes to, piece by piece. -/
theorem parse_eq {input : Rope} (h : ∀ piece ∈ input.splitOn ',', ¬Blank piece) :
    parse input = .ok (collect (resultsFrom 0 (input.splitOn ','))) := by
  have hspans : splitCommas input = spansFrom 0 (input.splitOn ',') :=
    splitFrom_eq 0 [] input List.not_mem_nil
  have hat := splitCommas_at input
  rw [hspans] at hat
  rw [parse,hspans,foldlM_results hat h]
  rfl

theorem parse_blank {input piece : Rope} (hpiece : piece ∈ input.splitOn ',')
    (hblank : Blank piece) : parse input = .panicked := by
  obtain ⟨span,hspan,hpos⟩ := Pieces.exists_left (splitCommas_at input) piece hpiece
  exact foldlM_panics hspan (parsePiece_blank hpos hblank) {}

/-! The grammar. -/

/-- On this text the parser does what its grammar says: it reports no error exactly when
the text is derived, and then its constraints are those of the derivation. -/
def MatchesGrammar (input : Rope) : Prop :=
  ∃ parsed, parse input = .ok parsed ∧ (parsed.errors = [] ↔ ∃ cs, Derived input cs) ∧
    ∀ cs, Derived input cs → parsed.constraints.map (fun c => (c.op,c.version)) = cs

theorem pieceResult_of_written {P : Rope → Prop} {piece : Rope} (h : Written P piece) (start : ℕ) :
    pieceResult start piece =
      readPiece (start + Rope.lenBytes (piece.takeWhile isAsciiWhitespace)) (trimmed piece) := by
  obtain ⟨c,hc,-⟩ := written_char h
  rw [pieceResult,if_neg (List.ne_nil_of_mem hc)]

theorem pieceResult_inl_iff {piece : Rope} (hblank : ¬Blank piece) (start : ℕ) :
    (∃ c, pieceResult start piece = .inl c) ↔ Written RunsOn piece := by
  constructor
  · rintro ⟨c,hc⟩
    unfold pieceResult at hc
    split_ifs at hc with hempty
    refine written_of_accepted ?_ hc
    by_contra hall
    push Not at hall
    exact hblank ⟨hempty,hall⟩
  · intro h
    rw [pieceResult_of_written h]
    exact accepted_of_written h _

/-- No error is reported exactly when every piece is accepted. -/
theorem errors_eq_nil_iff {start : ℕ} {pieces : List Rope}
    (hblank : ∀ piece ∈ pieces, ¬Blank piece) :
    (collect (resultsFrom start pieces)).errors = [] ↔ ∀ piece ∈ pieces, Written RunsOn piece := by
  induction pieces generalizing start with
  | nil => simp [resultsFrom,collect]
  | cons piece pieces ih =>
    have hrest := @ih (start + piece.lenBytes + 1)
      fun p hp => hblank p (List.mem_cons_of_mem piece hp)
    have hpiece := pieceResult_inl_iff (hblank piece List.mem_cons_self) start
    rw [List.forall_mem_cons,← hrest,← hpiece]
    cases hresult : pieceResult start piece with
    | inl c => simp [resultsFrom,collect,hresult]
    | inr e => simp [resultsFrom,collect,hresult]

theorem comma_not_token (op : ConstraintOp) : ',' ∉ op.token.toList := by
  cases op <;> decide

theorem comma_not_mem {piece : Rope} {c : ConstraintOp × Rope} (h : Derives piece c) :
    ',' ∉ piece := by
  obtain ⟨op,version⟩ := c
  obtain ⟨lead,token,gap,trail,rfl,hlead,hop,hgap,⟨core,tags,hcore,htags,rfl⟩,htrail⟩ := h
  have htoken : ',' ∉ token := by
    rcases hop with rfl | ⟨rfl,-⟩
    · exact comma_not_token op
    · exact List.not_mem_nil
  have hblanks : ∀ {s : Rope}, Blanks s → ',' ∉ s := fun hs hmem => by
    have hcomma := hs ',' hmem
    revert hcomma
    decide
  have hdigits : ',' ∉ core := fun hmem => by
    rcases hcore.chars hmem with hc | hc <;> cases hc
  simp [hblanks hlead,htoken,hblanks hgap,hdigits,isTags_comma htags,hblanks htrail]

theorem derived_iff {input : Rope} {cs : List (ConstraintOp × Rope)} :
    Derived input cs ↔ List.Forall₂ Derives (input.splitOn ',') cs := by
  constructor
  · rintro ⟨pieces,hne,rfl,h⟩
    have hcomma : ∀ piece ∈ pieces, ',' ∉ piece := by
      intro piece hpiece
      obtain ⟨c,-,hc⟩ := Pieces.exists_right h piece hpiece
      exact comma_not_mem hc
    rwa [List.splitOn_intercalate ',' hcomma hne]
  · exact fun h => ⟨input.splitOn ',',List.splitOn_ne_nil ',' input,
      (List.intercalate_splitOn ',').symm,h⟩

theorem exists_derived_iff {input : Rope} :
    (∃ cs, Derived input cs) ↔ ∀ piece ∈ input.splitOn ',', Written EndsWell piece := by
  constructor
  · rintro ⟨cs,hcs⟩ piece hpiece
    obtain ⟨c,-,hc⟩ := Pieces.exists_right (derived_iff.mp hcs) piece hpiece
    exact (strict_iff piece).mpr ⟨c,hc⟩
  · intro h
    have hall : ∀ pieces : List Rope, (∀ piece ∈ pieces, Written EndsWell piece) →
        ∃ cs, List.Forall₂ Derives pieces cs := by
      intro pieces hpieces
      induction pieces with
      | nil => exact ⟨[],.nil⟩
      | cons piece pieces ih =>
        obtain ⟨c,hc⟩ := (strict_iff piece).mp (hpieces piece List.mem_cons_self)
        obtain ⟨cs,hcs⟩ := ih fun p hp => hpieces p (List.mem_cons_of_mem piece hp)
        exact ⟨c :: cs,.cons hc hcs⟩
    obtain ⟨cs,hcs⟩ := hall _ h
    exact ⟨cs,derived_iff.mpr hcs⟩

/-- The constraints of derived pieces are those of the derivation. -/
theorem constraints_of_derives {start : ℕ} {pieces : List Rope}
    {cs : List (ConstraintOp × Rope)} (h : List.Forall₂ Derives pieces cs) :
    (collect (resultsFrom start pieces)).constraints.map (fun c => (c.op,c.version)) = cs ∧
      (collect (resultsFrom start pieces)).errors = [] := by
  induction h generalizing start with
  | nil => exact ⟨rfl,rfl⟩
  | @cons piece c pieces cs hpiece _ ih =>
    obtain ⟨hconstraints,herrors⟩ := @ih (start + piece.lenBytes + 1)
    obtain ⟨span,hread⟩ := read_of_derives hpiece
      (start + Rope.lenBytes (piece.takeWhile isAsciiWhitespace))
    have hresult : pieceResult start piece = .inl ⟨c.1,c.2,span⟩ := by
      rw [pieceResult_of_written ((strict_iff piece).mpr ⟨c,hpiece⟩),hread]
    constructor
    · simpa [collect,resultsFrom,hresult] using hconstraints
    · simpa [collect,resultsFrom,hresult] using herrors

theorem not_blank_of_derived {input : Rope} {cs : List (ConstraintOp × Rope)}
    (h : Derived input cs) : ∀ piece ∈ input.splitOn ',', ¬Blank piece := by
  intro piece hpiece hblank
  obtain ⟨c,hc,hchar⟩ := written_char (exists_derived_iff.mp ⟨cs,h⟩ piece hpiece)
  exact hchar (hblank.2 c hc)

/-- A derived text is parsed as its derivation says. -/
theorem parse_derived {input : Rope} {cs : List (ConstraintOp × Rope)} (h : Derived input cs) :
    ∃ parsed, parse input = .ok parsed ∧ parsed.errors = [] ∧
      parsed.constraints.map (fun c => (c.op,c.version)) = cs := by
  obtain ⟨hconstraints,herrors⟩ := @constraints_of_derives 0 _ _ (derived_iff.mp h)
  exact ⟨_,parse_eq (not_blank_of_derived h),herrors,hconstraints⟩

theorem matchesGrammar_iff (input : Rope) :
    MatchesGrammar input ↔ (∀ piece ∈ input.splitOn ',', ¬Blank piece) ∧
      ((∀ piece ∈ input.splitOn ',', Written RunsOn piece) →
        ∀ piece ∈ input.splitOn ',', Written EndsWell piece) := by
  by_cases hblank : ∀ piece ∈ input.splitOn ',', ¬Blank piece
  · rw [MatchesGrammar,parse_eq hblank,and_iff_right hblank,exists_derived_iff.symm]
    constructor
    · rintro ⟨parsed,hparse,herrors,-⟩ hall
      cases hparse
      exact herrors.mp ((errors_eq_nil_iff hblank).mpr hall)
    · intro h
      refine ⟨_,rfl,⟨fun herrors => h ((errors_eq_nil_iff hblank).mp herrors),?_⟩,?_⟩
      · rintro ⟨cs,hcs⟩
        exact (constraints_of_derives (derived_iff.mp hcs)).2
      · intro cs hcs
        exact (constraints_of_derives (derived_iff.mp hcs)).1
  · refine iff_of_false ?_ fun h => hblank h.1
    push Not at hblank
    obtain ⟨piece,hpiece,hpanic⟩ := hblank
    rintro ⟨parsed,hparse,-⟩
    rw [parse_blank hpiece hpanic] at hparse
    cases hparse

/-! Lists that are written out. -/

/-- `op version, op version`. -/
def render (cs : List (ConstraintOp × Rope)) : Rope :=
  [',',' '].intercalate (cs.map fun c => c.1.token.toList ++ ' ' :: c.2)

theorem intercalate_comma_space (text : Rope) (texts : List Rope) :
    [',',' '].intercalate (text :: texts) =
      [','].intercalate (text :: texts.map fun t => ' ' :: t) := by
  induction texts generalizing text with
  | nil => simp
  | cons t texts ih =>
    rw [List.intercalate_cons_cons,ih,List.map_cons,List.intercalate_cons_cons]
    cases texts with
    | nil => simp
    | cons u texts =>
      rw [List.map_cons,List.intercalate_cons_cons,List.intercalate_cons_cons]
      simp

theorem derives_text {lead : Rope} (hlead : Blanks lead) {c : ConstraintOp × Rope}
    (h : IsVersion c.2) : Derives (lead ++ (c.1.token.toList ++ ' ' :: c.2)) c := by
  have hspace : Blanks [' '] := by simp [Blanks,isAsciiWhitespace]
  have hnil : Blanks [] := fun c hc => by cases hc
  exact ⟨lead,c.1.token.toList,[' '],[],by simp,hlead,.inl rfl,hspace,h,hnil⟩

theorem derived_render {cs : List (ConstraintOp × Rope)} (hne : cs ≠ [])
    (h : ∀ c ∈ cs, IsVersion c.2) : Derived (render cs) cs := by
  have hspace : Blanks [' '] := by simp [Blanks,isAsciiWhitespace]
  have hnil : Blanks [] := fun c hc => by cases hc
  cases cs with
  | nil => exact absurd rfl hne
  | cons c cs =>
    refine ⟨_,List.cons_ne_nil _ _,intercalate_comma_space _ _,
      .cons (derives_text hnil (h c List.mem_cons_self)) ?_⟩
    rw [List.map_map,List.forall₂_map_left_iff]
    exact List.forall₂_same.mpr fun c hc =>
      derives_text hspace (h c (List.mem_cons_of_mem _ hc))

/-! Texts that are joined. -/

def shiftSpan (n : ℕ) (span : Span) : Span := (span.1 + n,span.2 + n)

def shiftResult (n : ℕ) : Constraint ⊕ ConstraintError → Constraint ⊕ ConstraintError
  | .inl c => .inl { c with span := shiftSpan n c.span }
  | .inr e => .inr { e with span := shiftSpan n e.span }

def Parsed.shift (n : ℕ) (parsed : Parsed) : Parsed :=
  ⟨parsed.constraints.map fun c => { c with span := shiftSpan n c.span },
    parsed.errors.map fun e => { e with span := shiftSpan n e.span }⟩

/-- Parsing two texts with a comma and a space between them gives the results of both, one
after the other, those of the second at their place in the joined text; where one of them
panics, so does their join. -/
def Concatenates (a b : Rope) : Prop :=
  parse (a ++ ',' :: ' ' :: b) = (parse a).bind fun first => (parse b).bind fun second =>
    .ok ⟨first.constraints ++ (second.shift (a.lenBytes + 2)).constraints,
      first.errors ++ (second.shift (a.lenBytes + 2)).errors⟩

theorem readPiece_shift (n start : ℕ) (content : Rope) :
    readPiece (start + n) content = shiftResult n (readPiece start content) := by
  have hadd : ∀ m k, m + n + k = m + k + n := fun m k => by omega
  unfold readPiece
  simp only [hadd]
  split_ifs
  · rfl
  · rfl
  · cases validateVersion (versionOf content) with
    | error reason => rfl
    | ok _ => rfl

theorem pieceResult_shift (n start : ℕ) (piece : Rope) :
    pieceResult (start + n) piece = shiftResult n (pieceResult start piece) := by
  have hadd : ∀ k, start + n + k = start + k + n := fun k => by omega
  unfold pieceResult
  split_ifs
  · rfl
  · rw [hadd,readPiece_shift]

theorem resultsFrom_shift (n start : ℕ) (pieces : List Rope) :
    resultsFrom (start + n) pieces = (resultsFrom start pieces).map (shiftResult n) := by
  induction pieces generalizing start with
  | nil => rfl
  | cons piece pieces ih =>
    have hadd : start + n + piece.lenBytes + 1 = start + piece.lenBytes + 1 + n := by omega
    rw [resultsFrom,pieceResult_shift,hadd,ih,resultsFrom,List.map_cons]

theorem collect_append (rs rs' : List (Constraint ⊕ ConstraintError)) :
    collect (rs ++ rs') = ⟨(collect rs).constraints ++ (collect rs').constraints,
      (collect rs).errors ++ (collect rs').errors⟩ := by
  simp [collect]

theorem collect_shift (n : ℕ) (rs : List (Constraint ⊕ ConstraintError)) :
    collect (rs.map (shiftResult n)) = (collect rs).shift n := by
  induction rs with
  | nil => rfl
  | cons r rs ih =>
    have hparts := ih
    simp only [collect,Parsed.shift,Parsed.mk.injEq] at hparts
    cases r with
    | inl c =>
      simp [collect,Parsed.shift,shiftResult,List.filterMap_cons,hparts.1,hparts.2]
    | inr e =>
      simp [collect,Parsed.shift,shiftResult,List.filterMap_cons,hparts.1,hparts.2]

/-- The bytes of pieces with a comma behind each. -/
theorem resultsFrom_append (start : ℕ) {pieces : List Rope} (hne : pieces ≠ [])
    (pieces' : List Rope) : resultsFrom start (pieces ++ pieces') = resultsFrom start pieces ++
      resultsFrom (start + Rope.lenBytes ([','].intercalate pieces) + 1) pieces' := by
  induction pieces generalizing start with
  | nil => exact absurd rfl hne
  | cons piece pieces ih =>
    cases pieces with
    | nil => simp [resultsFrom]
    | cons piece' pieces =>
      have hsize : Char.utf8Size ',' = 1 := rfl
      have hoffset : start + piece.lenBytes + 1 +
          Rope.lenBytes ([','].intercalate (piece' :: pieces)) + 1 =
            start + Rope.lenBytes ([','].intercalate (piece :: piece' :: pieces)) + 1 := by
        rw [List.intercalate_cons_cons]
        simp only [Rope.lenBytes_append,Rope.lenBytes_cons,Rope.lenBytes_nil,hsize]
        omega
      rw [List.cons_append,resultsFrom,ih _ (List.cons_ne_nil _ _),hoffset]
      rfl

/-- The pieces of a joined text: the first piece of the second text has a space before
it. -/
theorem splitOn_joined {a b first : Rope} {rest : List Rope} (hb : b.splitOn ',' = first :: rest) :
    (a ++ ',' :: ' ' :: b).splitOn ',' = a.splitOn ',' ++ (' ' :: first) :: rest := by
  rw [List.splitOn_append_cons_self,List.splitOn_cons_eq_if_modifyHead,hb]
  rfl

theorem pieceResult_space {first : Rope} (hne : first ≠ []) (start : ℕ) :
    pieceResult start (' ' :: first) = pieceResult (start + 1) first := by
  have hspace : isAsciiWhitespace ' ' = true := by decide
  have hsize : Char.utf8Size ' ' = 1 := rfl
  have htrimmed : trimmed (' ' :: first) = trimmed first := by
    rw [trimmed,List.dropWhile_cons,if_pos hspace,trimmed]
  have hadd : ∀ k, start + (1 + k) = start + 1 + k := fun k => by omega
  rw [pieceResult,if_neg (List.cons_ne_nil _ _),pieceResult,if_neg hne,htrimmed,
    List.takeWhile_cons,if_pos hspace,Rope.lenBytes_cons,hsize,hadd]

theorem resultsFrom_space {first : Rope} (hne : first ≠ []) (start : ℕ) (rest : List Rope) :
    resultsFrom start ((' ' :: first) :: rest) = resultsFrom (start + 1) (first :: rest) := by
  have hsize : Char.utf8Size ' ' = 1 := rfl
  have hoffset : start + Rope.lenBytes (' ' :: first) + 1 =
      start + 1 + Rope.lenBytes first + 1 := by
    rw [Rope.lenBytes_cons,hsize]
    omega
  rw [resultsFrom,resultsFrom,pieceResult_space hne,hoffset]

theorem blank_space {first : Rope} (hne : first ≠ []) : Blank (' ' :: first) ↔ Blank first := by
  have hspace : isAsciiWhitespace ' ' = true := by decide
  simp [Blank,hne,hspace]

theorem first_eq_nil_iff {b first : Rope} {rest : List Rope}
    (hb : b.splitOn ',' = first :: rest) : first = [] ↔ b = [] ∨ b.head? = some ',' := by
  cases b with
  | nil =>
    cases hb
    simp
  | cons c b =>
    rw [List.splitOn_cons_eq_if_modifyHead] at hb
    split_ifs at hb with hc
    · cases hb
      simpa using hc
    · obtain ⟨first',rest',hsplit⟩ := List.exists_cons_of_ne_nil (List.splitOn_ne_nil ',' b)
      rw [hsplit] at hb
      cases hb
      simpa using hc

theorem joined_panics {a b piece : Rope} (hpiece : piece ∈ a.splitOn ',' ++ b.splitOn ',')
    (hblank : Blank piece) : parse (a ++ ',' :: ' ' :: b) = .panicked := by
  obtain ⟨first,rest,hb⟩ := List.exists_cons_of_ne_nil (List.splitOn_ne_nil ',' b)
  have hpieces := splitOn_joined (a := a) hb
  rw [hb,List.mem_append,List.mem_cons] at hpiece
  rcases hpiece with ha | rfl | hrest
  · exact parse_blank (by rw [hpieces]; exact List.mem_append_left _ ha) hblank
  · have hspace : Blank (' ' :: piece) := (blank_space hblank.1).mpr hblank
    refine parse_blank ?_ hspace
    rw [hpieces]
    exact List.mem_append_right _ List.mem_cons_self
  · refine parse_blank ?_ hblank
    rw [hpieces]
    exact List.mem_append_right _ (List.mem_cons_of_mem _ hrest)

theorem concatenates_of_blank {a b piece : Rope}
    (hpiece : piece ∈ a.splitOn ',' ++ b.splitOn ',') (hblank : Blank piece) :
    Concatenates a b := by
  rw [Concatenates,joined_panics hpiece hblank]
  rcases List.mem_append.mp hpiece with ha | hb
  · rw [parse_blank ha hblank]
    rfl
  · rw [parse_blank hb hblank]
    cases parse a with
    | ok parsed => rfl
    | err e => exact e.elim
    | panicked => rfl

/-- Joining is concatenation unless the second text is empty or begins with a comma: then
its first piece becomes a blank one. -/
theorem concatenates_iff (a b : Rope) :
    Concatenates a b ↔ (b ≠ [] ∧ b.head? ≠ some ',') ∨
      ∃ piece ∈ a.splitOn ',' ++ b.splitOn ',', Blank piece := by
  obtain ⟨first,rest,hb⟩ := List.exists_cons_of_ne_nil (List.splitOn_ne_nil ',' b)
  have hfirst := first_eq_nil_iff hb
  have hpieces := splitOn_joined (a := a) hb
  by_cases hpanic : ∃ piece ∈ a.splitOn ',' ++ b.splitOn ',', Blank piece
  · obtain ⟨piece,hpiece,hblank⟩ := hpanic
    exact iff_of_true (concatenates_of_blank hpiece hblank) (.inr ⟨piece,hpiece,hblank⟩)
  · push Not at hpanic
    have ha := parse_eq fun piece hpiece => hpanic piece (List.mem_append_left _ hpiece)
    have hb' := parse_eq fun piece hpiece => hpanic piece (List.mem_append_right _ hpiece)
    rw [or_iff_left (by simpa using hpanic),Concatenates,ha,hb',← not_or,← hfirst]
    by_cases hempty : first = []
    · -- the space before it makes the empty piece a blank one
      refine iff_of_false ?_ (not_not.mpr hempty)
      subst hempty
      have hblank : Blank [' '] := ⟨List.cons_ne_nil _ _,List.forall_mem_singleton.mpr rfl⟩
      rw [parse_blank (by rw [hpieces]; exact List.mem_append_right _ List.mem_cons_self) hblank]
      simp [Outcome.bind]
    · refine iff_of_true ?_ hempty
      have hjoined : ∀ piece ∈ (a ++ ',' :: ' ' :: b).splitOn ',', ¬Blank piece := by
        intro piece hpiece
        rw [hpieces,List.mem_append,List.mem_cons] at hpiece
        rcases hpiece with hpiece | rfl | hpiece
        · exact hpanic piece (List.mem_append_left _ hpiece)
        · rw [blank_space hempty]
          exact hpanic first (List.mem_append_right _ (by rw [hb]; exact List.mem_cons_self))
        · refine hpanic piece (List.mem_append_right _ ?_)
          rw [hb]
          exact List.mem_cons_of_mem first hpiece
      rw [parse_eq hjoined,hpieces,resultsFrom_append 0 (List.splitOn_ne_nil ',' a),
        List.intercalate_splitOn,resultsFrom_space hempty,← hb,collect_append,Nat.zero_add,
        Nat.add_assoc]
      have hshift := resultsFrom_shift (a.lenBytes + 2) 0 (b.splitOn ',')
      rw [Nat.zero_add] at hshift
      rw [hshift,collect_shift]
      rfl

/-- The parser accepts what its grammar derives exactly where no piece is blank and every
tag is proper; lists that are written out come back; and texts are joined as the
aggregation over a module expects, unless the second begins with an empty piece. -/
theorem accepts_grammar_iff (input a b : Rope) (cs : List (ConstraintOp × Rope)) :
    (MatchesGrammar input ↔ (∀ piece ∈ input.splitOn ',', ¬Blank piece) ∧
        ((∀ piece ∈ input.splitOn ',', Written RunsOn piece) →
          ∀ piece ∈ input.splitOn ',', Written EndsWell piece)) ∧
      (cs ≠ [] → (∀ c ∈ cs, IsVersion c.2) →
        ∃ parsed, parse (render cs) = .ok parsed ∧ parsed.errors = [] ∧
          parsed.constraints.map (fun c => (c.op,c.version)) = cs) ∧
      (Concatenates a b ↔ (b ≠ [] ∧ b.head? ≠ some ',') ∨
        ∃ piece ∈ a.splitOn ',' ++ b.splitOn ',', Blank piece) :=
  ⟨matchesGrammar_iff input,fun hne h => parse_derived (derived_render hne h),
    concatenates_iff a b⟩

theorem two_constraints_parsed :
    ∃ parsed, parse (render [(.gte,"1.2".toList),(.lt,"2.0-rc.1+b".toList)]) = .ok parsed ∧
      parsed.errors = [] ∧ parsed.constraints.map (fun c => (c.op,c.version)) =
        [(.gte,"1.2".toList),(.lt,"2.0-rc.1+b".toList)] := by
  have hlow : IsVersion "1.2".toList :=
    ⟨['1','.','2'],[],⟨[['1'],['2']],by decide,rfl⟩,⟨[],[],.inl rfl,.inl rfl,rfl⟩,rfl⟩
  have hhigh : IsVersion "2.0-rc.1+b".toList := by
    refine ⟨['2','.','0'],['-','r','c','.','1','+','b'],⟨[['2'],['0']],by decide,rfl⟩,
      ⟨['-','r','c','.','1'],['+','b'],.inr ⟨['r','c','.','1'],?_,rfl⟩,
        .inr ⟨['b'],?_,rfl⟩,rfl⟩,rfl⟩
    · refine ⟨List.cons_ne_nil _ _,?_⟩
      simp only [List.forall_mem_cons]
      exact ⟨.inl rfl,.inl rfl,.inr (.inr trivial),.inl rfl,by simp⟩
    · refine ⟨List.cons_ne_nil _ _,?_⟩
      simp only [List.forall_mem_cons]
      exact ⟨.inl rfl,by simp⟩
  refine (accepts_grammar_iff [] [] [] _).2.1 (List.cons_ne_nil _ _) ?_
  rw [List.forall_mem_cons,List.forall_mem_singleton]
  exact ⟨hlow,hhigh⟩

theorem IsVersion.not_isWhitespace {v : Rope} (h : IsVersion v) :
    ∀ c ∈ v, isWhitespace c = false := by
  obtain ⟨core,tags,hcore,htags,rfl⟩ := h
  intro c hc
  rcases List.mem_append.mp hc with hc | hc
  · exact hcore.not_isWhitespace c hc
  · exact isTags_chars htags c hc

/-- A tag with a space in it is accepted as part of the version. -/
theorem spaced_tag_accepted : ¬∀ input, MatchesGrammar input := by
  intro h
  obtain ⟨parsed,hparse,herrors,hconstraints⟩ := h "1.2-rc 1".toList
  have hresult : parse "1.2-rc 1".toList =
      .ok ⟨[⟨.eq,"1.2-rc 1".toList,(0,8)⟩],[]⟩ := by decide +kernel
  rw [hresult] at hparse
  cases hparse
  obtain ⟨cs,hcs⟩ := herrors.mp rfl
  have hread : [(ConstraintOp.eq,"1.2-rc 1".toList)] = cs := hconstraints cs hcs
  subst hread
  obtain ⟨piece,-,hderives⟩ := Pieces.exists_left (derived_iff.mp hcs) _ List.mem_cons_self
  obtain ⟨lead,token,gap,trail,-,-,-,-,hversion,-⟩ := hderives
  have hspace := hversion.not_isWhitespace ' ' (by decide)
  revert hspace
  decide

end VersionConstraint
end TerraformLs
