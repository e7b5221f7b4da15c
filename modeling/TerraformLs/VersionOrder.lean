import TerraformLs.SemVer
import TerraformLs.VersionConstraint

/-! Versions are compared as their precedence has it, as long as their numbers fit,
no identifier is empty and no dash of the build metadata is taken for a tag. Every
version that is read in another way is compared wrongly with some other. -/
namespace TerraformLs
namespace VersionConstraint

open RegistryVersions

/-- A version that validates, of at most three segments. -/
def Accepted (v : Rope) : Prop :=
  validateVersion v = .ok () ∧ (SemVer.segments v).length ≤ 3

/-- An identifier that is not empty and, when it is a number, fits. -/
def FitsIdentifier (ident : Rope) : Prop :=
  ident ≠ [] ∧ (SemVer.isNumeric ident → SemVer.digitsValue ident < 2^64)

instance (ident : Rope) : Decidable (FitsIdentifier ident) := inferInstanceAs (Decidable (_ ∧ _))

/-- The key of the version says what the version says. -/
structure PlainlyRead (v : Rope) : Prop where
  segments : ∀ seg ∈ SemVer.segments v, SemVer.digitsValue seg < 2^63
  build : SemVer.tag v = none → '-' ∉ v
  identifiers : ∀ t, SemVer.tag v = some t → ∀ ident ∈ t.splitOn '.', FitsIdentifier ident

/-! What a validated version is read as. -/

theorem validatePart_ok {part : Rope} : validatePart part = .ok () ↔ SemVer.isNumeric part := by
  rw [validatePart,SemVer.isNumeric]
  split_ifs with hempty hdigits <;> simp_all

theorem validateParts_ok {parts : List Rope} :
    (parts.forM validatePart : Except String Unit) = .ok () ↔
      ∀ part ∈ parts, SemVer.isNumeric part := by
  induction parts with
  | nil => simp [pure,Except.pure]
  | cons part parts ih =>
    rw [List.forM,List.forall_mem_cons,← ih,← validatePart_ok]
    cases hpart : validatePart part with
    | error reason => simp [bind,Except.bind]
    | ok _ => simp [bind,Except.bind]

theorem validateVersion_ok {v : Rope} :
    validateVersion v = .ok () ↔ ∀ seg ∈ SemVer.segments v, SemVer.isNumeric seg := by
  have hcore : coreOf v = SemVer.core v := rfl
  rw [validateVersion,hcore]
  split_ifs with hempty hmissing
  · subst hempty
    simp [SemVer.segments,SemVer.core,SemVer.withoutBuild,SemVer.isNumeric]
  · simp [SemVer.segments,hmissing,SemVer.isNumeric]
  · exact validateParts_ok

theorem parseDigits_numeric {s : Rope} (h : SemVer.isNumeric s) :
    parseDigits s = some (SemVer.digitsValue s : ℤ) := by
  have hfold : ∀ (s : Rope) (n : ℕ), s.all Char.isDigit → (s.foldl (fun (n : ℤ) c =>
      n*10 + (c.toNat - 48)) n) = ((s.foldl (fun n c => n*10 + (c.toNat - 48)) n : ℕ) : ℤ) := by
    intro s
    induction s with
    | nil => simp
    | cons c s ih =>
      intro n hs
      rw [List.all_cons,Bool.and_eq_true] at hs
      have hdigit : 48 ≤ c.toNat := (Char.isDigit_iff_toNat.mp hs.1).1
      have hstep : (n : ℤ)*10 + ((c.toNat : ℤ) - 48) = ((n*10 + (c.toNat - 48) : ℕ) : ℤ) := by
        omega
      rw [List.foldl_cons,List.foldl_cons,hstep]
      exact ih _ hs.2
  have hdigits : s.all Char.isDigit := by
    simp only [SemVer.isNumeric,Bool.and_eq_true] at h
    exact h.2
  rw [SemVer.isNumeric] at h
  rw [parseDigits,if_pos h,SemVer.digitsValue]
  simpa using hfold s 0 hdigits

theorem parseI64_numeric {s : Rope} (h : SemVer.isNumeric s) : parseI64 s =
    if SemVer.digitsValue s < 2^63 then some (SemVer.digitsValue s : ℤ) else none := by
  have hsign : parseI64 s = (parseDigits s).filter fun n => -2^63 ≤ n && n < 2^63 := by
    cases s with
    | nil => rfl
    | cons c s =>
      have hdash : c ≠ '-' := fun hc =>
        SemVer.not_mem_of_isNumeric h (c := '-') (by decide) (by simp [hc])
      have hplus : c ≠ '+' := fun hc =>
        SemVer.not_mem_of_isNumeric h (c := '+') (by decide) (by simp [hc])
      rw [parseI64]
      · exact fun _ heq => hdash (List.cons.inj heq).1
      · exact fun _ heq => hplus (List.cons.inj heq).1
  rw [hsign,parseDigits_numeric h,Option.filter_some]
  split_ifs with h1 h2 h2
  · rfl
  · simp only [Bool.and_eq_true,decide_eq_true_eq] at h1
    omega
  · simp only [Bool.and_eq_true,decide_eq_true_eq,not_and,not_lt] at h1
    have := h1 (by omega)
    omega
  · rfl

/-- A core number that does not fit counts as `0`. -/
def readSegment (n : ℕ) : ℤ := if n < 2^63 then n else 0

theorem read_segment {v : Rope} (h : validateVersion v = .ok ()) (i : ℕ) :
    ((SemVer.segments v)[i]?.bind parseI64).getD 0 = readSegment (SemVer.segment v i) := by
  rw [SemVer.segment]
  cases hseg : (SemVer.segments v)[i]? with
  | none => rfl
  | some seg =>
    have hnumeric := validateVersion_ok.mp h seg (List.mem_of_getElem? hseg)
    rw [Option.bind_some,parseI64_numeric hnumeric,Option.elim_some,readSegment]
    split_ifs <;> rfl

theorem core_splitOnce (v : Rope) :
    (splitOnce '-' v).1.takeWhile (· ≠ '+') = SemVer.core v := by
  rw [splitOnce,SemVer.core,SemVer.withoutBuild,List.takeWhile_takeWhile,List.takeWhile_takeWhile]
  congr 1
  funext c
  rw [decide_eq_decide]
  exact And.comm

/-- The identifiers that the key takes from a version. -/
def keyIdentifiers (v : Rope) : List PreSegment :=
  ((splitOnce '-' v).2.map preSegments).getD []

/-- What a version that validates is read as. -/
def keyOf (v : Rope) : VersionKey where
  major := SemVer.segment v 0
  minor := readSegment (SemVer.segment v 1)
  patch := readSegment (SemVer.segment v 2)
  stability := if (splitOnce '-' v).2.isSome then 0 else 1
  pre := keyIdentifiers v

theorem versionKey_valid {v : Rope} (h : validateVersion v = .ok ()) :
    versionKey v = if SemVer.segment v 0 < 2^63 then some (keyOf v) else none := by
  have hparts : ((splitOnce '-' v).1.takeWhile (· ≠ '+')).splitOn '.' = SemVer.segments v := by
    rw [core_splitOnce,SemVer.segments]
  obtain ⟨seg,segs,hsegs⟩ := List.exists_cons_of_ne_nil (List.splitOn_ne_nil '.' (SemVer.core v))
  have hhead : SemVer.segments v = seg :: segs := hsegs
  have hnumeric := validateVersion_ok.mp h seg (by simp [hhead])
  have hmajor : (SemVer.segments v).head?.bind parseI64 =
      if SemVer.segment v 0 < 2^63 then some (SemVer.segment v 0 : ℤ) else none := by
    rw [SemVer.segment,hhead]
    simpa using parseI64_numeric hnumeric
  have hminor := read_segment h 1
  have hpatch := read_segment h 2
  simp only [versionKey,hparts,hmajor,hminor,hpatch]
  by_cases hfits : SemVer.segment v 0 < 2^63
  · simp only [if_pos hfits]
    rfl
  · simp only [if_neg hfits]

/-- The tag is what the key is taken from, when the version has one. -/
theorem splitOnce_tag {v t : Rope} (h : SemVer.tag v = some t) :
    ∃ rest, (splitOnce '-' v).2 = some rest ∧ rest.takeWhile (· ≠ '+') = t := by
  have hv : v = SemVer.withoutBuild v ++ v.dropWhile (· ≠ '+') :=
    List.takeWhile_append_dropWhile.symm
  have hw : SemVer.withoutBuild v = SemVer.core v ++ '-' :: t := by
    have hparts : SemVer.core v ++ (SemVer.withoutBuild v).dropWhile (· ≠ '-') =
        SemVer.withoutBuild v := List.takeWhile_append_dropWhile
    rw [SemVer.tag] at h
    rcases SemVer.dropWhile_ne '-' (SemVer.withoutBuild v) with ⟨hnone,-⟩ | ⟨rest,hrest⟩
    · rw [hnone] at h
      cases h
    · rw [hrest] at h hparts
      cases h
      exact hparts.symm
  have hplus : '+' ∉ SemVer.withoutBuild v := by
    intro hmem
    simpa using List.mem_takeWhile_imp hmem
  have hdash : '-' ∉ SemVer.core v := by
    intro hmem
    simpa using List.mem_takeWhile_imp hmem
  have hsplit : v = SemVer.core v ++ ('-' :: (t ++ v.dropWhile (· ≠ '+'))) := by
    conv_lhs => rw [hv,hw]
    simp
  refine ⟨t ++ v.dropWhile (· ≠ '+'),?_,?_⟩
  · rw [splitOnce]
    conv_lhs => rw [hsplit]
    rw [SemVer.dropWhile_append_not_mem hdash]
    simp
  · have htag : '+' ∉ t := by
      rw [hw,List.mem_append,List.mem_cons,not_or,not_or] at hplus
      exact hplus.2.2
    have hbuild : (v.dropWhile (· ≠ '+')).takeWhile (· ≠ '+') = [] := by
      rcases SemVer.dropWhile_ne '+' v with ⟨hnone,-⟩ | ⟨build,hbuild⟩
      · rw [hnone]
        rfl
      · rw [hbuild]
        simp
    rw [SemVer.takeWhile_append_not_mem htag,hbuild,List.append_nil]

theorem splitOnce_isSome {v : Rope} : (splitOnce '-' v).2.isSome ↔ '-' ∈ v := by
  rcases SemVer.dropWhile_ne '-' v with ⟨hnone,hmem⟩ | ⟨rest,hrest⟩
  · rw [splitOnce,hnone]
    simp [hmem]
  · have hmem : '-' ∈ v := (List.dropWhile_suffix _).subset (hrest ▸ List.mem_cons_self)
    rw [splitOnce,hrest]
    simp [hmem]

/-! Identifiers that fit are compared as they are. -/

theorem ranked_preSegment {ident : Rope} (h : FitsIdentifier ident) :
    (preSegment ident).ranked = SemVer.identifier ident := by
  obtain ⟨hne,hfits⟩ := h
  rw [preSegment,SemVer.identifier]
  by_cases hdigits : ident.all Char.isDigit
  · have hnumeric : SemVer.isNumeric ident := by simp [SemVer.isNumeric,hne,hdigits]
    have hparse : parseU64 ident = some (SemVer.digitsValue ident) := by
      have hcond : (ident ≠ [] && ident.all Char.isDigit) = true := hnumeric
      rw [parseU64,if_pos hcond]
      exact Option.filter_eq_some_iff.mpr ⟨rfl,by simpa using hfits hnumeric⟩
    rw [if_pos hdigits,hparse,if_pos hnumeric]
    rfl
  · have hnumeric : ¬SemVer.isNumeric ident := by simp [SemVer.isNumeric,hdigits]
    rw [if_neg hdigits,if_neg hnumeric]
    rfl

theorem ranked_strictMono : StrictMono PreSegment.ranked := fun _ _ h => h

theorem map_ranked_lt {l l' : List PreSegment} :
    l.map PreSegment.ranked < l'.map PreSegment.ranked ↔ l < l' := by
  have hmono : StrictMono fun l : List PreSegment => l.map PreSegment.ranked :=
    fun _ _ h => List.map_lt (fun _ _ h => ranked_strictMono h) h
  exact hmono.lt_iff_lt

/-! Versions that are read plainly are compared as their precedence has it. -/

theorem cmp_eq_of_lt_iff {α β : Type} [LinearOrder α] [LinearOrder β] {a b : α} {x y : β}
    (hlt : a < b ↔ x < y) (hgt : b < a ↔ y < x) : compare a b = cmp x y := by
  rcases lt_trichotomy a b with h | h | h
  · rw [compare_lt_iff_lt.mpr h,(cmp_eq_lt_iff x y).mpr (hlt.mp h)]
  · have heq : x = y := by
      have h1 : ¬x < y := fun hxy => (hlt.mpr hxy).ne h
      have h2 : ¬y < x := fun hyx => (hgt.mpr hyx).ne h.symm
      exact le_antisymm (not_lt.mp h2) (not_lt.mp h1)
    rw [compare_eq_iff_eq.mpr h,(cmp_eq_eq_iff x y).mpr heq]
  · rw [compare_gt_iff_gt.mpr h,(cmp_eq_gt_iff x y).mpr (hgt.mp h)]

theorem key_lt_iff {a b : VersionKey} : a < b ↔ a.major < b.major ∨ a.major = b.major ∧
    (a.minor < b.minor ∨ a.minor = b.minor ∧ (a.patch < b.patch ∨ a.patch = b.patch ∧
      (a.stability < b.stability ∨ a.stability = b.stability ∧ a.pre < b.pre))) := by
  have hlift : a < b ↔ a.fields < b.fields := Iff.rfl
  rw [hlift,VersionKey.fields,VersionKey.fields]
  simp only [Prod.Lex.toLex_lt_toLex]

theorem precedence_lt_iff {a b : Rope} : SemVer.precedence a < SemVer.precedence b ↔
    SemVer.segment a 0 < SemVer.segment b 0 ∨ SemVer.segment a 0 = SemVer.segment b 0 ∧
      (SemVer.segment a 1 < SemVer.segment b 1 ∨ SemVer.segment a 1 = SemVer.segment b 1 ∧
        (SemVer.segment a 2 < SemVer.segment b 2 ∨ SemVer.segment a 2 = SemVer.segment b 2 ∧
          SemVer.identifiers a < SemVer.identifiers b)) := by
  rw [SemVer.precedence,SemVer.precedence]
  simp only [Prod.Lex.toLex_lt_toLex]

theorem readSegment_of_fits {n : ℕ} (h : n < 2^63) : readSegment n = n := if_pos h

theorem segment_fits {v : Rope} (h : ∀ seg ∈ SemVer.segments v, SemVer.digitsValue seg < 2^63)
    (i : ℕ) : SemVer.segment v i < 2^63 := by
  rw [SemVer.segment]
  cases hseg : (SemVer.segments v)[i]? with
  | none => simp
  | some seg => exact h seg (List.mem_of_getElem? hseg)

theorem keyIdentifiers_tag {v t : Rope} (h : SemVer.tag v = some t) :
    keyIdentifiers v = ((t.splitOn '.').filter (· ≠ [])).map preSegment := by
  obtain ⟨rest,hrest,htag⟩ := splitOnce_tag h
  rw [keyIdentifiers,hrest,Option.map_some,Option.getD_some,preSegments,htag]

theorem PlainlyRead.keyIdentifiers {v t : Rope} (h : PlainlyRead v) (ht : SemVer.tag v = some t) :
    (VersionConstraint.keyIdentifiers v).map PreSegment.ranked =
      (t.splitOn '.').map SemVer.identifier := by
  have hfits := h.identifiers t ht
  rw [keyIdentifiers_tag ht,List.filter_eq_self.mpr,List.map_map]
  · exact List.map_congr_left fun ident hident => ranked_preSegment (hfits ident hident)
  · intro ident hident
    simpa using (hfits ident hident).1

/-- The last two fields of a key are compared as the pre-releases are. -/
theorem PlainlyRead.pre_lt_iff {a b : Rope} (ha : PlainlyRead a) (hb : PlainlyRead b) :
    ((if (splitOnce '-' a).2.isSome then 0 else 1) < (if (splitOnce '-' b).2.isSome then 0 else 1) ∨
      (if (splitOnce '-' a).2.isSome then 0 else 1) = (if (splitOnce '-' b).2.isSome then 0 else 1) ∧
        VersionConstraint.keyIdentifiers a < VersionConstraint.keyIdentifiers b) ↔
      SemVer.identifiers a < SemVer.identifiers b := by
  have hstable : ∀ {v : Rope}, PlainlyRead v → SemVer.tag v = none →
      (splitOnce '-' v).2 = none := by
    intro v hv htag
    have hnot := mt splitOnce_isSome.mp (hv.build htag)
    exact Option.not_isSome_iff_eq_none.mp hnot
  rw [SemVer.identifiers,SemVer.identifiers]
  cases hta : SemVer.tag a with
  | none =>
    cases htb : SemVer.tag b with
    | none => simp [hstable ha hta,hstable hb htb,VersionConstraint.keyIdentifiers]
    | some u =>
      obtain ⟨rest,hrest,-⟩ := splitOnce_tag htb
      simp [hstable ha hta,hrest]
  | some t =>
    obtain ⟨rest,hrest,-⟩ := splitOnce_tag hta
    cases htb : SemVer.tag b with
    | none => simp [hstable hb htb,hrest]
    | some u =>
      obtain ⟨rest',hrest',-⟩ := splitOnce_tag htb
      rw [← map_ranked_lt,ha.keyIdentifiers hta,hb.keyIdentifiers htb]
      simp [hrest,hrest']

theorem PlainlyRead.key_lt_iff {a b : Rope} (ha : PlainlyRead a) (hb : PlainlyRead b) :
    keyOf a < keyOf b ↔ SemVer.precedence a < SemVer.precedence b := by
  rw [VersionConstraint.key_lt_iff,precedence_lt_iff,← ha.pre_lt_iff hb]
  simp only [keyOf,readSegment_of_fits (segment_fits ha.segments _),
    readSegment_of_fits (segment_fits hb.segments _),Int.ofNat_lt,Int.natCast_inj]

theorem compareVersions_valid {a b : Rope} (ha : validateVersion a = .ok ())
    (hb : validateVersion b = .ok ()) (hfa : SemVer.segment a 0 < 2^63)
    (hfb : SemVer.segment b 0 < 2^63) : compareVersions a b = some (compare (keyOf a) (keyOf b)) := by
  rw [compareVersions,versionKey_valid ha,versionKey_valid hb,if_pos hfa,if_pos hfb]
  rfl

theorem PlainlyRead.compareVersions {a b : Rope} (ha : PlainlyRead a) (hb : PlainlyRead b)
    (hva : validateVersion a = .ok ()) (hvb : validateVersion b = .ok ()) :
    VersionConstraint.compareVersions a b = some (SemVer.compareVersions a b) := by
  rw [compareVersions_valid hva hvb (segment_fits ha.segments 0) (segment_fits hb.segments 0),
    SemVer.compareVersions,cmp_eq_of_lt_iff (ha.key_lt_iff hb) (hb.key_lt_iff ha)]

/-! A version that is not read plainly is compared wrongly with some other one. -/

theorem written_plain {segs : List Rope} {tag : Option (List Rope)}
    (hw : SemVer.Writable segs (tag.getD [])) (hlen : segs.length ≤ 3)
    (hsegs : ∀ seg ∈ segs, SemVer.digitsValue seg < 2^63)
    (htag : ∀ idents, tag = some idents → idents ≠ [] ∧ ∀ ident ∈ idents, FitsIdentifier ident) :
    Accepted (SemVer.write segs tag) ∧ PlainlyRead (SemVer.write segs tag) := by
  have hsegments := SemVer.segments_write hw
  refine ⟨⟨validateVersion_ok.mpr ?_,?_⟩,?_,?_,?_⟩
  · rw [hsegments]
    exact hw.segs.2
  · rw [hsegments]
    exact hlen
  · rw [hsegments]
    exact hsegs
  · intro hnone
    rw [SemVer.tag_write hw,Option.map_eq_none_iff] at hnone
    subst hnone
    exact SemVer.not_mem_core hw.segs.2 (by decide) (by decide)
  · intro t ht
    rw [SemVer.tag_write hw,Option.map_eq_some_iff] at ht
    obtain ⟨idents,rfl,rfl⟩ := ht
    obtain ⟨hne,hfits⟩ := htag idents rfl
    have hdots : ∀ ident ∈ idents, '.' ∉ ident := fun ident hident => (hw.idents ident hident).1
    rw [SemVer.splitOn_identifiers hdots hne]
    exact hfits

/-- The comparison with the other version is right. -/
def ComparedRightly (a b : Rope) : Prop :=
  compareVersions a b = some (SemVer.compareVersions a b)

theorem ComparedRightly.lt_iff {a b : Rope} (h : ComparedRightly a b)
    (ha : validateVersion a = .ok ()) (hb : validateVersion b = .ok ())
    (hfa : SemVer.segment a 0 < 2^63) (hfb : SemVer.segment b 0 < 2^63) :
    (keyOf a < keyOf b ↔ SemVer.precedence a < SemVer.precedence b) ∧
      (keyOf b < keyOf a ↔ SemVer.precedence b < SemVer.precedence a) := by
  have heq : compare (keyOf a) (keyOf b) = cmp (SemVer.precedence a) (SemVer.precedence b) := by
    rw [ComparedRightly,compareVersions_valid ha hb hfa hfb] at h
    exact Option.some.inj h
  constructor
  · rw [← compare_lt_iff_lt,heq,cmp_eq_lt_iff]
  · rw [← compare_gt_iff_gt,heq,cmp_eq_gt_iff]

section wrongly

variable {a : Rope}

/-- What the comparisons with written versions tell. -/
def ComparesWritten (a : Rope) : Prop := ∀ b, Accepted b → PlainlyRead b → ComparedRightly a b

/-- A version whose major number does not fit has no key. -/
theorem major_fits (ha : Accepted a) (h : ComparesWritten a) : SemVer.segment a 0 < 2^63 := by
  have hw : SemVer.Writable [['0']] ((none : Option (List Rope)).getD []) := ⟨by decide,by simp⟩
  obtain ⟨haccepted,hplain⟩ := written_plain hw (by decide) (by decide) (by simp)
  have hright := h _ haccepted hplain
  by_contra hbig
  have hkey := versionKey_valid ha.1
  rw [if_neg hbig] at hkey
  rw [ComparedRightly,compareVersions,hkey] at hright
  cases hright

/-- Another core number that does not fit is taken to be below `1`. -/
theorem next_fits (ha : Accepted a) (h : ComparesWritten a) {front rest : List Rope} {seg : Rope}
    (hsegs : SemVer.segments a = front ++ seg :: rest) (hne : front ≠ [])
    (hfront : ∀ seg ∈ front, SemVer.digitsValue seg < 2^63) : SemVer.digitsValue seg < 2^63 := by
  by_contra hbig
  have hlen := ha.2
  rw [hsegs,List.length_append,List.length_cons] at hlen
  have hw : SemVer.Writable (front ++ [['1']]) ((none : Option (List Rope)).getD []) := by
    refine ⟨⟨by simp,fun s hs => ?_⟩,by simp⟩
    rcases List.mem_append.mp hs with hs | hs
    · exact validateVersion_ok.mp ha.1 s (by simp [hsegs,hs])
    · rw [List.mem_singleton.mp hs]
      decide
  have hfits : ∀ s ∈ front ++ [['1']], SemVer.digitsValue s < 2^63 := by
    intro s hs
    rcases List.mem_append.mp hs with hs | hs
    · exact hfront s hs
    · rw [List.mem_singleton.mp hs]
      decide
  obtain ⟨haccepted,hplain⟩ := written_plain hw (by simp; omega) hfits (by simp)
  have hsegments := SemVer.segments_write hw
  obtain ⟨hlt,-⟩ := (h _ haccepted hplain).lt_iff ha.1 haccepted.1 (major_fits ha h)
    (segment_fits hplain.segments 0)
  suffices hcmp : keyOf a < keyOf (SemVer.write (front ++ [['1']]) none) ∧
      SemVer.precedence (SemVer.write (front ++ [['1']]) none) < SemVer.precedence a from
    lt_asymm hcmp.2 (hlt.mp hcmp.1)
  rw [key_lt_iff,precedence_lt_iff]
  have hone : SemVer.digitsValue ['1'] = 1 := by decide
  have hread : readSegment (SemVer.digitsValue seg) = 0 := if_neg hbig
  have hread1 : readSegment 1 = 1 := rfl
  have hb : 1 < SemVer.digitsValue seg := by omega
  rcases front with _ | ⟨first,_ | ⟨second,_ | ⟨third,front⟩⟩⟩
  · exact absurd rfl hne
  · rw [List.singleton_append] at hsegments hsegs
    simp only [keyOf,SemVer.segment,List.singleton_append,hsegs,hsegments]
    simp [hone,hread,hread1,hb]
  · rw [List.cons_append,List.singleton_append] at hsegments hsegs
    simp only [keyOf,SemVer.segment,List.cons_append,List.nil_append,hsegs,hsegments]
    simp [hone,hread,hread1,hb]
  · simp only [List.length_cons] at hlen
    omega

theorem segments_fit (ha : Accepted a) (h : ComparesWritten a) :
    ∀ seg ∈ SemVer.segments a, SemVer.digitsValue seg < 2^63 := by
  -- The segments in front of the one looked at fit already.
  have hback : ∀ back front : List Rope, SemVer.segments a = front ++ back → front ≠ [] →
      (∀ seg ∈ front, SemVer.digitsValue seg < 2^63) →
      ∀ seg ∈ back, SemVer.digitsValue seg < 2^63 := by
    intro back
    induction back with
    | nil => simp
    | cons seg back ih =>
      intro front hsegs hne hfront
      have hseg := next_fits ha h hsegs hne hfront
      have hfronts : ∀ s ∈ front ++ [seg], SemVer.digitsValue s < 2^63 :=
        List.forall_mem_append.mpr ⟨hfront,List.forall_mem_singleton.mpr hseg⟩
      have hrest := ih (front ++ [seg]) (by simp [hsegs]) (by simp) hfronts
      exact List.forall_mem_cons.mpr ⟨hseg,hrest⟩
  obtain ⟨first,rest,hsegs⟩ := List.exists_cons_of_ne_nil
    (List.splitOn_ne_nil '.' (SemVer.core a))
  have hcons : SemVer.segments a = first :: rest := hsegs
  have hfirst : SemVer.digitsValue first < 2^63 := by
    simpa [SemVer.segment,hcons] using major_fits ha h
  have hrest := hback rest [first] hcons (by simp) (by simpa using hfirst)
  rw [hcons]
  exact List.forall_mem_cons.mpr ⟨hfirst,hrest⟩

theorem writable_segments (ha : Accepted a) {idents : List Rope}
    (hidents : ∀ ident ∈ idents, '.' ∉ ident ∧ '+' ∉ ident) :
    SemVer.Writable (SemVer.segments a) idents :=
  ⟨⟨List.splitOn_ne_nil '.' _,validateVersion_ok.mp ha.1⟩,hidents⟩

theorem segment_write {idents : Option (List Rope)}
    (hw : SemVer.Writable (SemVer.segments a) (idents.getD [])) (i : ℕ) :
    SemVer.segment (SemVer.write (SemVer.segments a) idents) i = SemVer.segment a i := by
  rw [SemVer.segment,SemVer.segments_write hw,SemVer.segment]

/-- A dash in the build metadata of a release makes it a pre-release. -/
theorem no_dash (ha : Accepted a) (h : ComparesWritten a) (htag : SemVer.tag a = none) :
    '-' ∉ a := by
  intro hdash
  have hfits := segments_fit ha h
  have hw : SemVer.Writable (SemVer.segments a) ((none : Option (List Rope)).getD []) :=
    writable_segments ha (by simp)
  obtain ⟨haccepted,hplain⟩ := written_plain hw ha.2 hfits (by simp)
  have htagb := SemVer.tag_write hw
  obtain ⟨hlt,-⟩ := (h _ haccepted hplain).lt_iff ha.1 haccepted.1 (major_fits ha h)
    (segment_fits hplain.segments 0)
  have hstable : (splitOnce '-' (SemVer.write (SemVer.segments a) none)).2.isSome = false := by
    rw [Bool.eq_false_iff]
    exact mt splitOnce_isSome.mp (hplain.build htagb)
  have hkeys : keyOf a < keyOf (SemVer.write (SemVer.segments a) none) := by
    rw [key_lt_iff]
    simp [keyOf,segment_write hw,splitOnce_isSome.mpr hdash,hstable]
  have hprec := hlt.mp hkeys
  rw [precedence_lt_iff] at hprec
  simp only [segment_write hw,SemVer.identifiers,htag,htagb,Option.map_none,lt_self_iff_false,
    and_false,or_false] at hprec

/-- What the comparisons tell of the identifiers behind those that are read plainly. -/
theorem compared_rest (ha : Accepted a) (h : ComparesWritten a) {t : Rope}
    (htag : SemVer.tag a = some t) {front back : List Rope} (hidents : t.splitOn '.' = front ++ back)
    (hfront : ∀ ident ∈ front, FitsIdentifier ident) {other : List Rope} (hne : other ≠ [])
    (hother : ∀ ident ∈ other, FitsIdentifier ident ∧ '.' ∉ ident ∧ '+' ∉ ident) :
    ((back.filter (· ≠ [])).map preSegment < other.map preSegment ↔
        back.map SemVer.identifier < other.map SemVer.identifier) ∧
      (other.map preSegment < (back.filter (· ≠ [])).map preSegment ↔
        other.map SemVer.identifier < back.map SemVer.identifier) := by
  have hfits := segments_fit ha h
  have hclean : ∀ ident ∈ front, '.' ∉ ident ∧ '+' ∉ ident := by
    intro ident hident
    have hpiece := SemVer.mem_splitOn (t:=t) (x := '.') (by rw [hidents]; exact List.mem_append_left _ hident)
    exact ⟨hpiece.1,fun hplus => SemVer.plus_not_mem_tag htag (hpiece.2 hplus)⟩
  have hw : SemVer.Writable (SemVer.segments a) ((some (front ++ other)).getD []) :=
    writable_segments ha (List.forall_mem_append.mpr ⟨hclean,fun ident hident =>
      (hother ident hident).2⟩)
  obtain ⟨haccepted,hplain⟩ := written_plain hw ha.2 hfits fun idents hsome => by
    cases hsome
    exact ⟨by simp [hne],List.forall_mem_append.mpr ⟨hfront,fun ident hident =>
      (hother ident hident).1⟩⟩
  have htagb := SemVer.tag_write hw
  rw [Option.map_some] at htagb
  have hsplit : (['.'].intercalate (front ++ other)).splitOn '.' = front ++ other :=
    SemVer.splitOn_identifiers (List.forall_mem_append.mpr ⟨fun ident hident =>
      (hclean ident hident).1,fun ident hident => (hother ident hident).2.1⟩) (by simp [hne])
  have hcompared := (h _ haccepted hplain).lt_iff ha.1 haccepted.1 (major_fits ha h)
    (segment_fits hplain.segments 0)
  have hkeep : ∀ {l : List Rope}, (∀ ident ∈ l, FitsIdentifier ident) → l.filter (· ≠ []) = l :=
    fun hl => List.filter_eq_self.mpr fun ident hident => by simpa using (hl ident hident).1
  have hka : keyIdentifiers a = front.map preSegment ++ (back.filter (· ≠ [])).map preSegment := by
    rw [keyIdentifiers_tag htag,hidents,List.filter_append,hkeep hfront,List.map_append]
  have hkb : keyIdentifiers (SemVer.write (SemVer.segments a) (some (front ++ other))) =
      front.map preSegment ++ other.map preSegment := by
    rw [keyIdentifiers_tag htagb,hsplit,List.filter_append,hkeep hfront,
      hkeep fun ident hident => (hother ident hident).1,List.map_append]
  obtain ⟨resta,hresta,-⟩ := splitOnce_tag htag
  obtain ⟨restb,hrestb,-⟩ := splitOnce_tag htagb
  rw [key_lt_iff,key_lt_iff,precedence_lt_iff,precedence_lt_iff] at hcompared
  simpa only [keyOf,segment_write hw,hresta,hrestb,hka,hkb,SemVer.identifiers,htag,htagb,hidents,
    hsplit,List.map_append,WithTop.coe_lt_coe,SemVer.append_lt_append_iff,lt_self_iff_false,
    false_or,true_and,Option.isSome_some,if_true] using hcompared

theorem preSegment_text {s : Rope} (hne : s ≠ [])
    (hbig : SemVer.isNumeric s → 2^64 ≤ SemVer.digitsValue s) :
    preSegment s = .text s := by
  rw [preSegment]
  split_ifs with hdigits
  · have hcond : (s ≠ [] && s.all Char.isDigit) = true := by simp [hne,hdigits]
    have hparse : parseU64 s = none := by
      rw [parseU64,if_pos hcond,Option.filter_eq_none_iff]
      intro n hn
      have hle := hbig hcond
      rw [← Option.some.inj hn]
      simpa [SemVer.digitsValue] using hle
    rw [hparse]
  · rfl

theorem text_lt_text {s t : Rope} : PreSegment.text s < PreSegment.text t ↔ s < t :=
  Sum.Lex.inr_lt_inr_iff

theorem num_lt_text (n : ℕ) (t : Rope) : PreSegment.num n < PreSegment.text t :=
  Sum.Lex.inl_lt_inr n t

theorem identifier_text {s : Rope} (h : ¬SemVer.isNumeric s) :
    SemVer.identifier s = Sum.inrₗ s := if_neg h

theorem identifier_number {s : Rope} (h : SemVer.isNumeric s) :
    SemVer.identifier s = Sum.inlₗ (SemVer.digitsValue s) := if_pos h

theorem lt_append_self (s : Rope) (c : Char) : s < s ++ [c] := by
  induction s with
  | nil => exact List.nil_lt_cons c []
  | cons d s ih => exact List.cons_lt_cons_self.mpr ih

/-- The text is below every number that is written down. -/
theorem dash_lt_numeric {ident : Rope} (h : SemVer.isNumeric ident) : ['-'] < ident := by
  cases ident with
  | nil => cases h
  | cons c ident =>
    rw [SemVer.isNumeric,Bool.and_eq_true,List.all_cons,Bool.and_eq_true] at h
    have hdigit := (Char.isDigit_iff_toNat.mp h.2.1).1
    have hlt : '-' < c := by
      have hzero : '0'.toNat = 48 := rfl
      rw [Char.lt_def,UInt32.lt_iff_toNat_lt]
      show 45 < c.toNat
      omega
    exact List.cons_lt_cons_iff.mpr (.inl hlt)

/-- The first identifier of a list that does not fit, and those around it. -/
theorem exists_first_misfit {idents : List Rope} (h : ¬∀ ident ∈ idents, FitsIdentifier ident) :
    ∃ front ident back, idents = front ++ ident :: back ∧
      (∀ ident ∈ front, FitsIdentifier ident) ∧ ¬FitsIdentifier ident := by
  induction idents with
  | nil => simp at h
  | cons first idents ih =>
    by_cases hfirst : FitsIdentifier first
    · have hrest : ¬∀ ident ∈ idents, FitsIdentifier ident := fun hall =>
        h (List.forall_mem_cons.mpr ⟨hfirst,hall⟩)
      obtain ⟨front,ident,back,rfl,hfront,hmisfit⟩ := ih hrest
      exact ⟨first :: front,ident,back,rfl,List.forall_mem_cons.mpr ⟨hfirst,hfront⟩,hmisfit⟩
    · exact ⟨[],first,idents,rfl,by simp,hfirst⟩

theorem preSegment_cases (ident : Rope) :
    (∃ n, preSegment ident = .num n) ∨ preSegment ident = .text ident := by
  rw [preSegment]
  split_ifs
  · cases parseU64 ident with
    | none => exact .inr rfl
    | some n => exact .inl ⟨n,rfl⟩
  · exact .inr rfl

/-- Two lists of identifiers are told apart in the same way by the keys and by
the precedence, empty identifiers being dropped for the keys. -/
def SameOrder (back other : List Rope) : Prop :=
  ((back.filter (· ≠ [])).map preSegment < other.map preSegment ↔
      back.map SemVer.identifier < other.map SemVer.identifier) ∧
    (other.map preSegment < (back.filter (· ≠ [])).map preSegment ↔
      other.map SemVer.identifier < back.map SemVer.identifier)

def Clean (ident : Rope) : Prop := '.' ∉ ident ∧ '+' ∉ ident

/-- Any list of identifiers that fit can stand in a version to compare with. -/
def OrderedWithAll (back : List Rope) : Prop :=
  ∀ other : List Rope, other ≠ [] → (∀ ident ∈ other, FitsIdentifier ident ∧ Clean ident) →
    SameOrder back other

/-- A number that is too large is above the dash as a text, and below it as a number. -/
theorem not_ordered_overflow {ident : Rope} {back : List Rope} (hnumeric : SemVer.isNumeric ident)
    (hbig : 2^64 ≤ SemVer.digitsValue ident) : ¬OrderedWithAll (ident :: back) := by
  intro h
  have hne : ident ≠ [] := by
    intro hempty
    subst hempty
    cases hnumeric
  have hfilter : (ident :: back).filter (· ≠ []) = ident :: back.filter (· ≠ []) :=
    List.filter_cons_of_pos (by simpa using hne)
  have hdash : FitsIdentifier ['-'] ∧ Clean ['-'] := by
    refine ⟨by decide,?_⟩
    simp [Clean]
  obtain ⟨-,hgt⟩ := h [['-']] (by simp) (by simpa using hdash)
  simp only [hfilter,List.map_cons,List.map_nil] at hgt
  rw [preSegment_text hne fun _ => hbig,preSegment_text (s:=['-']) (by simp) (by decide),
    identifier_number hnumeric,identifier_text (s:=['-']) (by decide)] at hgt
  have hkeys := hgt.mp (List.cons_lt_cons_iff.mpr (.inl (text_lt_text.mpr (dash_lt_numeric hnumeric))))
  rcases List.cons_lt_cons_iff.mp hkeys with hlt | ⟨heq,-⟩
  · exact Sum.Lex.not_inr_lt_inl hlt
  · cases heq

theorem not_ordered_last {back : List Rope} (hback : back.filter (· ≠ []) = []) :
    ¬OrderedWithAll ([] :: back) := by
  intro h
  have hzero : FitsIdentifier ['0'] ∧ Clean ['0'] := by
    refine ⟨by decide,?_⟩
    simp [Clean]
  obtain ⟨hlt,-⟩ := h [['0']] (by simp) (by simpa using hzero)
  rw [List.filter_cons_of_neg (by simp),hback] at hlt
  simp only [List.map_cons,List.map_nil] at hlt
  rw [identifier_text (s:=[]) (by decide),identifier_number (s:=['0']) (by decide)] at hlt
  rcases List.cons_lt_cons_iff.mp (hlt.mp (List.nil_lt_cons _ _)) with hlt | ⟨heq,-⟩
  · exact Sum.Lex.not_inr_lt_inl hlt
  · cases heq

/-- With the empty identifier dropped, a number stands where a text should. -/
theorem not_ordered_number {back rest : List Rope} {next : Rope}
    (hback : back.filter (· ≠ []) = next :: rest) (hclean : ∀ ident ∈ back, Clean ident)
    (hnumeric : SemVer.isNumeric next) (hfits : FitsIdentifier next) :
    ¬OrderedWithAll ([] :: back) := by
  intro h
  have hmem : ∀ ident ∈ next :: rest, Clean ident := fun ident hident =>
    hclean ident (List.mem_of_mem_filter (hback ▸ hident))
  have hheadClean : Clean (rest.headD []) := by
    cases rest with
    | nil => simp [Clean]
    | cons s rest => exact hmem s (by simp)
  have hlonger : FitsIdentifier (rest.headD [] ++ ['a']) ∧ Clean (rest.headD [] ++ ['a']) := by
    refine ⟨⟨by simp,fun hnum => ?_⟩,?_⟩
    · exact absurd (List.mem_append_right _ (List.mem_singleton.mpr rfl))
        (SemVer.not_mem_of_isNumeric hnum (c := 'a') (by decide))
    · simpa [Clean] using hheadClean
  have hnot : ¬SemVer.isNumeric (rest.headD [] ++ ['a']) := fun hnum =>
    SemVer.not_mem_of_isNumeric hnum (c := 'a') (by decide) (by simp)
  have hother : ∀ ident ∈ [next,rest.headD [] ++ ['a']], FitsIdentifier ident ∧ Clean ident :=
    List.forall_mem_cons.mpr ⟨⟨hfits,hmem next List.mem_cons_self⟩,
      List.forall_mem_singleton.mpr hlonger⟩
  obtain ⟨hlt,-⟩ := h _ (by simp) hother
  rw [List.filter_cons_of_neg (by simp),hback] at hlt
  have hrest : rest.map preSegment < [preSegment (rest.headD [] ++ ['a'])] := by
    rw [preSegment_text (by simp) fun hnum => absurd hnum hnot]
    cases rest with
    | nil => exact List.nil_lt_cons _ _
    | cons s rest =>
      refine List.cons_lt_cons_iff.mpr (.inl ?_)
      rcases preSegment_cases s with ⟨n,hn⟩ | htext
      · rw [hn]
        exact num_lt_text n _
      · rw [htext]
        exact text_lt_text.mpr (lt_append_self s 'a')
  have hwrong := hlt.mp (List.cons_lt_cons_iff.mpr (.inr ⟨rfl,hrest⟩))
  rw [List.map_cons,List.map_cons,identifier_text (s:=[]) (by decide),
    identifier_number hnumeric] at hwrong
  rcases List.cons_lt_cons_iff.mp hwrong with hlt | ⟨heq,-⟩
  · exact Sum.Lex.not_inr_lt_inl hlt
  · cases heq

/-- With the empty identifier dropped, the next text stands in its place. -/
theorem not_ordered_text {back rest : List Rope} {next : Rope}
    (hback : back.filter (· ≠ []) = next :: rest) (hclean : ∀ ident ∈ back, Clean ident)
    (hbig : SemVer.isNumeric next → 2^64 ≤ SemVer.digitsValue next) :
    ¬OrderedWithAll ([] :: back) := by
  intro h
  have hnext := List.mem_filter.mp (hback ▸ List.mem_cons_self : next ∈ back.filter (· ≠ []))
  have hne : next ≠ [] := by simpa using hnext.2
  -- A text up to the next one that is no number.
  obtain ⟨word,hword,hle⟩ : ∃ word : Rope, (¬SemVer.isNumeric word ∧ word ≠ [] ∧ Clean word) ∧
      word ≤ next := by
    by_cases hnum : SemVer.isNumeric next
    · exact ⟨['-'],⟨by decide,by simp,by simp [Clean]⟩,(dash_lt_numeric hnum).le⟩
    · exact ⟨next,⟨hnum,hne,hclean next hnext.1⟩,le_rfl⟩
  obtain ⟨hlt,-⟩ := h [word] (by simp) (by
    simpa using ⟨⟨hword.2.1,fun hnum => absurd hnum hword.1⟩,hword.2.2⟩)
  rw [List.filter_cons_of_neg (by simp),hback] at hlt
  simp only [List.map_cons,List.map_nil] at hlt
  rw [preSegment_text hne hbig,preSegment_text hword.2.1 fun hnum => absurd hnum hword.1,
    identifier_text (s:=[]) (by decide),identifier_text hword.1] at hlt
  have hempty : ([] : Rope) < word := by
    cases word with
    | nil => exact absurd rfl hword.2.1
    | cons c word => exact List.nil_lt_cons c word
  have hkeys := hlt.mpr (List.cons_lt_cons_iff.mpr (.inl (Sum.Lex.inr_lt_inr_iff.mpr hempty)))
  rcases List.cons_lt_cons_iff.mp hkeys with hlt | ⟨-,hnil⟩
  · exact (text_lt_text.mp hlt).not_ge hle
  · exact List.not_lt_nil _ hnil

/-- The first identifier that does not fit is compared wrongly with some identifier. -/
theorem identifiers_fit (ha : Accepted a) (h : ComparesWritten a) {t : Rope}
    (htag : SemVer.tag a = some t) : ∀ ident ∈ t.splitOn '.', FitsIdentifier ident := by
  by_contra hall
  obtain ⟨front,ident,back,hidents,hfront,hmisfit⟩ := exists_first_misfit hall
  have hordered : OrderedWithAll (ident :: back) := fun other hne hother =>
    compared_rest ha h htag hidents hfront hne hother
  have hclean : ∀ s ∈ back, Clean s := by
    intro s hs
    have hpiece : '.' ∉ s ∧ s ⊆ t := SemVer.mem_splitOn (by rw [hidents]; simp [hs])
    exact ⟨hpiece.1,fun hplus => SemVer.plus_not_mem_tag htag (hpiece.2 hplus)⟩
  by_cases hempty : ident = []
  · subst hempty
    cases hrest : back.filter (· ≠ []) with
    | nil => exact not_ordered_last hrest hordered
    | cons next rest =>
      by_cases hbig : SemVer.isNumeric next → 2^64 ≤ SemVer.digitsValue next
      · exact not_ordered_text hrest hclean hbig hordered
      · push Not at hbig
        have hne : next ≠ [] := fun hnil => by
          subst hnil
          cases hbig.1
        exact not_ordered_number hrest hclean hbig.1 ⟨hne,fun _ => hbig.2⟩ hordered
  · have hnumeric : SemVer.isNumeric ident ∧ 2^64 ≤ SemVer.digitsValue ident := by
      simpa [FitsIdentifier,hempty] using hmisfit
    exact not_ordered_overflow hnumeric.1 hnumeric.2 hordered

end wrongly

/-- A version is compared rightly with all that are read plainly exactly if it is
read plainly itself. -/
theorem compared_rightly_iff {a : Rope} (ha : Accepted a) :
    (∀ b, Accepted b → PlainlyRead b → ComparedRightly a b) ↔ PlainlyRead a := by
  constructor
  · intro h
    exact ⟨segments_fit ha h,no_dash ha h,fun t htag => identifiers_fit ha h htag⟩
  · intro hplain b hb hbplain
    exact hplain.compareVersions hbplain ha.1 hb.1

/-- A candidate for release, which is read plainly. -/
def secondCandidate : Rope := "1.0.0-rc.2".toList

theorem secondCandidate_compared : ComparedRightly secondCandidate ['1'] := by
  have hsegments : SemVer.segments secondCandidate = [['1'],['0'],['0']] := by decide
  have htag : SemVer.tag secondCandidate = some ['r','c','.','2'] := by decide
  have haccepted : Accepted secondCandidate := by
    refine ⟨validateVersion_ok.mpr ?_,?_⟩
    · rw [hsegments]
      decide
    · rw [hsegments]
      decide
  have hplain : PlainlyRead secondCandidate := by
    refine ⟨?_,?_,?_⟩
    · rw [hsegments]
      decide
    · rw [htag]
      simp
    · rw [htag]
      intro t ht
      cases ht
      decide
  refine (compared_rightly_iff haccepted).mpr hplain ['1'] ⟨by decide,by decide⟩ ⟨by decide,?_,?_⟩
  · intro _
    decide
  · intro t ht
    cases ht

/-- A release whose build metadata holds a dash. -/
def dashedBuild : Rope := "1+a-b".toList

/-- It is the same version as the one without build metadata, and is taken for a
pre-release of it. -/
theorem dashedBuild_not_compared :
    Accepted dashedBuild ∧ Accepted ['1'] ∧ ¬ComparedRightly dashedBuild ['1'] := by
  refine ⟨⟨by decide,by decide⟩,⟨by decide,by decide⟩,?_⟩
  have hcode : compareVersions dashedBuild ['1'] = some .lt := by decide +kernel
  have hspec : SemVer.compareVersions dashedBuild ['1'] = .eq := by decide +kernel
  rw [ComparedRightly,hcode,hspec]
  decide

end VersionConstraint
end TerraformLs
