import TerraformLs.VersionOrder

/-! Which versions the operators admit: pre-releases in ranges, the pessimistic
operator against its expansion, and the lowest version that is admitted. -/
namespace TerraformLs
namespace VersionConstraint

open RegistryVersions

/-- The operators that ask for a range of versions. -/
def ConstraintOp.isRange : ConstraintOp → Bool
  | .gt | .gte | .lt | .lte | .pessimistic => true
  | .eq | .ne => false

/-- The candidate lies on the side of the operand that the operator asks for. -/
def OnSide (op : ConstraintOp) (operand : Rope) (candidate key : VersionKey) : Prop :=
  match op with
  | .gt => key < candidate
  | .gte => key ≤ candidate
  | .lt => candidate < key
  | .lte => candidate ≤ key
  | .pessimistic => key ≤ candidate ∧ samePrefix (segmentCount operand) candidate key
  | .eq | .ne => False

/-- An upper bound that is stable admits the pre-releases of its own core. An operand
with a dash admits every pre-release on its side. -/
def AdmitsOthers (op : ConstraintOp) (operand candidate : Rope) : Prop :=
  ∃ key candidateKey, versionKey operand = some key ∧ versionKey candidate = some candidateKey ∧
    (('-' ∉ operand ∧ (op = .lt ∨ op = .lte) ∧ sameCore candidateKey key) ∨
      ('-' ∈ operand ∧ ¬(SemVer.IsPreRelease operand ∧ SemVer.SameCore operand candidate) ∧
        OnSide op operand candidateKey key))

/-! What the keys of two versions tell. -/

theorem stability_of_key {v : Rope} {key : VersionKey} (h : versionKey v = some key) :
    key.stability = if '-' ∈ v then 0 else 1 := by
  simp only [versionKey] at h
  split at h
  · cases h
  · cases h
    by_cases hdash : '-' ∈ v
    · simp [hdash,splitOnce_isSome.mpr hdash]
    · have hnone : ¬(splitOnce '-' v).2.isSome := mt splitOnce_isSome.mp hdash
      simp only [if_neg hnone,if_neg hdash]

theorem dash_of_preRelease {v : Rope} (h : SemVer.IsPreRelease v) : '-' ∈ v := by
  obtain ⟨t,ht⟩ := Option.isSome_iff_exists.mp h
  obtain ⟨rest,hrest,-⟩ := splitOnce_tag ht
  exact splitOnce_isSome.mp (by rw [hrest]; rfl)

theorem sameCore_iff {a b : VersionKey} : sameCore a b = true ↔
    a.major = b.major ∧ a.minor = b.minor ∧ a.patch = b.patch := by
  simp [sameCore,and_assoc]

theorem preExcluded_iff {candidate key : VersionKey} : preExcluded candidate key = true ↔
    candidate.stability = 0 ∧ key.stability = 1 ∧ ¬sameCore candidate key := by
  simp [preExcluded,and_assoc]

/-- A pre-release is below the release of its core. -/
theorem lt_of_sameCore {candidate key : VersionKey} (h : sameCore candidate key)
    (hcandidate : candidate.stability = 0) (hkey : key.stability = 1) : candidate < key := by
  rw [sameCore_iff] at h
  rw [key_lt_iff]
  simp [h.1,h.2.1,h.2.2,hcandidate,hkey]

theorem satisfiesOne_range {op : ConstraintOp} {operand : Rope} {span : Span}
    {key candidate : VersionKey} (hop : op.isRange) (hkey : versionKey operand = some key) :
    satisfiesOne ⟨op,operand,span⟩ candidate = true ↔
      ¬preExcluded candidate key ∧ OnSide op operand candidate key := by
  cases op with
  | eq => cases hop
  | ne => cases hop
  | gt => simp [satisfiesOne,hkey,OnSide]
  | gte => simp [satisfiesOne,hkey,OnSide]
  | lt => simp [satisfiesOne,hkey,OnSide]
  | lte => simp [satisfiesOne,hkey,OnSide]
  | pessimistic =>
    by_cases hlt : candidate < key
    · simp [satisfiesOne,hkey,OnSide,pessimisticMatches,hlt]
    · simp [satisfiesOne,hkey,OnSide,pessimisticMatches,hlt,not_lt.mp hlt]

theorem satisfiesAll_range {op : ConstraintOp} {operand candidate : Rope} {span : Span}
    (hop : op.isRange) : satisfiesAll [⟨op,operand,span⟩] candidate = true ↔
      ∃ key candidateKey, versionKey operand = some key ∧
        versionKey candidate = some candidateKey ∧ ¬preExcluded candidateKey key ∧
          OnSide op operand candidateKey key := by
  rw [satisfiesAll]
  cases hc : versionKey candidate with
  | none => simp
  | some candidateKey =>
    simp only [List.all_cons,List.all_nil,Bool.and_true]
    cases hk : versionKey operand with
    | none => simp [satisfiesOne,hk]
    | some key => simp [satisfiesOne_range hop hk]

/-- A range holds a pre-release only beside a pre-release operand of its core, as
long as the range is not one of those that admit others. -/
theorem preRelease_in_range_iff {c : Constraint} {candidate : Rope} (hop : c.op.isRange)
    (hpre : SemVer.IsPreRelease candidate) :
    (satisfiesAll [c] candidate = true →
        SemVer.IsPreRelease c.version ∧ SemVer.SameCore c.version candidate) ↔
      ¬AdmitsOthers c.op c.version candidate := by
  obtain ⟨op,operand,span⟩ := c
  rw [satisfiesAll_range hop]
  simp only
  have hstable : ∀ {candidateKey}, versionKey candidate = some candidateKey →
      candidateKey.stability = 0 := fun h => by
    rw [stability_of_key h,if_pos (dash_of_preRelease hpre)]
  constructor
  · rintro h ⟨key,candidateKey,hk,hc,⟨hdash,hops,hcore⟩ | ⟨hdash,hnot,hside⟩⟩
    · have hkey : key.stability = 1 := by rw [stability_of_key hk,if_neg hdash]
      have hlt := lt_of_sameCore hcore (hstable hc) hkey
      have hside : OnSide op operand candidateKey key := by
        rcases hops with rfl | rfl
        · exact hlt
        · exact hlt.le
      have hexcluded : ¬preExcluded candidateKey key := fun hex =>
        (preExcluded_iff.mp hex).2.2 hcore
      exact hdash (dash_of_preRelease (h ⟨key,candidateKey,hk,hc,hexcluded,hside⟩).1)
    · have hexcluded : ¬preExcluded candidateKey key := fun hex => by
        have hone := (preExcluded_iff.mp hex).2.1
        rw [stability_of_key hk,if_pos hdash] at hone
        cases hone
      exact hnot (h ⟨key,candidateKey,hk,hc,hexcluded,hside⟩)
  · rintro h ⟨key,candidateKey,hk,hc,hexcluded,hside⟩
    by_contra hnot
    refine h ⟨key,candidateKey,hk,hc,?_⟩
    by_cases hdash : '-' ∈ operand
    · exact .inr ⟨hdash,hnot,hside⟩
    · have hkey : key.stability = 1 := by rw [stability_of_key hk,if_neg hdash]
      have hcore : sameCore candidateKey key := by
        by_contra hcore
        exact hexcluded (preExcluded_iff.mpr ⟨hstable hc,hkey,hcore⟩)
      have hlt := lt_of_sameCore hcore (hstable hc) hkey
      -- Below a release of its core, so no lower bound holds.
      cases op with
      | eq => cases hop
      | ne => cases hop
      | gt => exact absurd hside hlt.le.not_gt
      | gte => exact absurd hside hlt.not_ge
      | lt => exact .inl ⟨hdash,.inl rfl,hcore⟩
      | lte => exact .inl ⟨hdash,.inr rfl,hcore⟩
      | pessimistic => exact absurd hside.1 hlt.not_ge

/-- A lower bound that is stable holds no pre-release of another core. -/
theorem beta_not_in_stable_range :
    satisfiesAll [⟨.gte,['6'],(0,4)⟩] ['7','-','b'] = false := by
  rw [Bool.eq_false_iff]
  intro hadmitted
  have hpre := (preRelease_in_range_iff (c:=⟨.gte,['6'],(0,4)⟩) rfl (by decide)).mpr ?_ hadmitted
  · exact absurd hpre.1 (by decide)
  · rintro ⟨-,-,-,-,⟨-,hop,-⟩ | ⟨hdash,-⟩⟩
    · simp at hop
    · simp at hdash

/-- A lower bound with a tag admits a pre-release of another core. -/
theorem beta_in_other_range : validateVersion ['6','-','a'] = .ok () ∧
    SemVer.IsPreRelease ['7','-','b'] ∧
    ¬(satisfiesAll [⟨.gte,['6','-','a'],(0,6)⟩] ['7','-','b'] = true →
      SemVer.IsPreRelease ['6','-','a'] ∧ SemVer.SameCore ['6','-','a'] ['7','-','b']) := by
  have hadmitted : satisfiesAll [⟨.gte,['6','-','a'],(0,6)⟩] ['7','-','b'] = true := by
    decide +kernel
  refine ⟨rfl,by decide,fun h => ?_⟩
  exact absurd (h hadmitted).2 (by decide)

/-! The pessimistic operator and its expansion. -/

def written (n : ℕ) : Rope := Nat.toDigits 10 n

/-- The last segment is incremented. -/
def incrementLast : List Rope → List Rope
  | [] => []
  | [seg] => [written (SemVer.digitsValue seg + 1)]
  | seg::segs => seg :: incrementLast segs

/-- The last segment is dropped, the new last one incremented, and a `0` put behind it. -/
def upperBound (v : Rope) : Rope :=
  SemVer.write (incrementLast (SemVer.segments v).dropLast ++ [['0']]) none

/-- The constraints that the pessimistic operator is documented to stand for. -/
def expansion (v : Rope) (span : Span) : List Constraint :=
  [⟨.gte,v,span⟩,⟨.lt,upperBound v,span⟩]

theorem digitsValue_written (n : ℕ) : SemVer.digitsValue (written n) = n := by
  have hfold : SemVer.digitsValue (written n) = Nat.ofDigitChars 10 (Nat.toDigits 10 n) 0 := by
    rw [SemVer.digitsValue,written,Nat.ofDigitChars_eq_foldl]
    congr 1
    funext m c
    rw [Nat.mul_comm]
    rfl
  rw [hfold,Nat.ofDigitChars_ten_toDigits]

theorem isNumeric_written (n : ℕ) : SemVer.isNumeric (written n) := by
  have hdigits : (written n).all Char.isDigit := List.all_eq_true.mpr fun c hc =>
    Nat.isDigit_of_mem_toDigits (by decide) (by decide) hc
  have hne : written n ≠ [] := Nat.toDigits_ne_nil
  simp [SemVer.isNumeric,hdigits,hne]

/-- The key of a stable version with these numbers. -/
def releaseKey (major minor : ℤ) : VersionKey := ⟨major,minor,0,1,[]⟩

theorem versionKey_release {segs : List Rope} (hne : segs ≠ [])
    (hnumeric : ∀ seg ∈ segs, SemVer.isNumeric seg) (hlen : segs.length ≤ 3)
    (hfits : ∀ seg ∈ segs, SemVer.digitsValue seg < 2^63) :
    versionKey (SemVer.write segs none) = some ⟨(segs[0]?.elim 0 SemVer.digitsValue : ℕ),
      (segs[1]?.elim 0 SemVer.digitsValue : ℕ),(segs[2]?.elim 0 SemVer.digitsValue : ℕ),1,[]⟩ := by
  have hw : SemVer.Writable segs ((none : Option (List Rope)).getD []) := ⟨⟨hne,hnumeric⟩,by simp⟩
  obtain ⟨haccepted,hplain⟩ := written_plain hw hlen hfits (by simp)
  have hdash := hplain.build (SemVer.tag_write hw)
  have hnone : (splitOnce '-' (SemVer.write segs none)).2 = none :=
    Option.not_isSome_iff_eq_none.mp (mt splitOnce_isSome.mp hdash)
  have hsegment : ∀ i, SemVer.segment (SemVer.write segs none) i =
      segs[i]?.elim 0 SemVer.digitsValue := fun i => by
    rw [SemVer.segment,SemVer.segments_write hw]
  rw [versionKey_valid haccepted.1,if_pos (segment_fits hplain.segments 0),keyOf,
    readSegment_of_fits (segment_fits hplain.segments 1),
    readSegment_of_fits (segment_fits hplain.segments 2),hsegment,hsegment,hsegment,hnone,
    keyIdentifiers,hnone]
  rfl

theorem parseI64_nonneg {s : Rope} (hdash : '-' ∉ s) {n : ℤ} (h : parseI64 s = some n) : 0 ≤ n := by
  have hdigits : ∀ {s : Rope} {n : ℤ}, parseDigits s = some n → 0 ≤ n := by
    intro s n h
    rw [parseDigits] at h
    split_ifs at h with hcond
    have hnumeric : SemVer.isNumeric s := hcond
    have hvalue := parseDigits_numeric hnumeric
    rw [parseDigits,if_pos hcond] at hvalue
    rw [← Option.some.inj h,Option.some.inj hvalue]
    omega
  unfold parseI64 at h
  obtain ⟨hn,-⟩ := Option.filter_eq_some_iff.mp h
  split at hn
  · simp at hdash
  · exact hdigits hn
  · exact hdigits hn

/-- No number of a key is negative. -/
theorem key_nonneg {v : Rope} {key : VersionKey} (h : versionKey v = some key) :
    0 ≤ key.minor ∧ 0 ≤ key.patch := by
  have hpart : ∀ i : ℕ, 0 ≤ ((SemVer.segments v)[i]?.bind parseI64).getD 0 := by
    intro i
    cases hseg : (SemVer.segments v)[i]? with
    | none => exact le_refl 0
    | some seg =>
      have hmem := (SemVer.mem_splitOn (List.mem_of_getElem? hseg)).2
      have hdash : '-' ∉ seg := fun hd => by simpa using List.mem_takeWhile_imp (hmem hd)
      rw [Option.bind_some]
      cases hn : parseI64 seg with
      | none => exact le_refl 0
      | some n => exact parseI64_nonneg hdash hn
  have hparts : ((splitOnce '-' v).1.takeWhile (· ≠ '+')).splitOn '.' = SemVer.segments v := by
    rw [core_splitOnce,SemVer.segments]
  simp only [versionKey,hparts] at h
  split at h
  · cases h
  · cases h
    exact ⟨hpart 1,hpart 2⟩

/-- A version with two or three segments that leave room for one more. -/
structure Expandable (v : Rope) : Prop where
  valid : validateVersion v = .ok ()
  segments : (SemVer.segments v).length = 2 ∨ (SemVer.segments v).length = 3
  fits : ∀ seg ∈ SemVer.segments v, SemVer.digitsValue seg + 1 < 2^63

/-- Two pre-releases are apart when the second is below the first, or has the core of
no version from the first up to the bound. -/
def Apart (v candidate : Rope) : Prop :=
  '-' ∉ v ∨ '-' ∉ candidate ∨ compareVersions candidate v = some .lt ∨
    ∀ key upper candidateKey, versionKey v = some key → versionKey (upperBound v) = some upper →
      versionKey candidate = some candidateKey →
        ¬samePrefix (segmentCount v) candidateKey key ∧ ¬sameCore candidateKey upper

theorem segmentCount_eq (v : Rope) : segmentCount v = (SemVer.segments v).length := by
  rw [segmentCount,SemVer.segments,← core_splitOnce]
  rfl

theorem Expandable.versionKey {v : Rope} (h : Expandable v) :
    VersionConstraint.versionKey v = some (keyOf v) := by
  have hfits : ∀ seg ∈ SemVer.segments v, SemVer.digitsValue seg < 2^63 := fun seg hseg => by
    have := h.fits seg hseg
    omega
  rw [versionKey_valid h.valid,if_pos (segment_fits hfits 0)]

theorem le_key_cases {a b : VersionKey} (h : a ≤ b) :
    a.major < b.major ∨ a.major = b.major ∧ a.minor ≤ b.minor := by
  rcases h.lt_or_eq with hlt | rfl
  · rw [key_lt_iff] at hlt
    omega
  · exact .inr ⟨rfl,le_refl _⟩

/-- Below a release of a whole minor number: of a lower core, or a pre-release of it. -/
theorem lt_releaseKey_iff {key : VersionKey} (hpatch : 0 ≤ key.patch) {major minor : ℤ} :
    key < releaseKey major minor ↔
      (key.major < major ∨ key.major = major ∧ key.minor < minor) ∨
        key.stability = 0 ∧ sameCore key (releaseKey major minor) := by
  rw [key_lt_iff]
  simp only [releaseKey,sameCore_iff,List.not_lt_nil,and_false,or_false,Nat.lt_one_iff]
  omega

/-- The key of the upper bound. From the version on, a key below it has the prefix
of the version, or is a pre-release of the bound; no key has both cores. -/
theorem upperBound_spec {v : Rope} (h : Expandable v) : ∃ upper,
    versionKey (upperBound v) = some upper ∧ upper.stability = 1 ∧
      ∀ key, 0 ≤ key.minor → 0 ≤ key.patch → keyOf v ≤ key →
        (key < upper ↔ samePrefix (segmentCount v) key (keyOf v) ∨
          key.stability = 0 ∧ sameCore key upper) ∧
        ¬(samePrefix (segmentCount v) key (keyOf v) ∧ sameCore key upper) := by
  have hnumeric := validateVersion_ok.mp h.valid
  have hfits := h.fits
  rw [segmentCount_eq]
  have hzero : SemVer.isNumeric ['0'] ∧ SemVer.digitsValue ['0'] = 0 := by decide
  have hread : ∀ n : ℕ, n + 1 < 2^63 → readSegment n = n := fun n hn =>
    readSegment_of_fits (by omega)
  rcases h.segments with hlen | hlen
  · obtain ⟨x,y,hsegs⟩ := List.length_eq_two.mp hlen
    rw [hsegs] at hnumeric hfits
    simp only [List.forall_mem_cons,List.not_mem_nil,false_implies,implies_true,and_true]
      at hnumeric hfits
    have hupper : upperBound v =
        SemVer.write [written (SemVer.digitsValue x + 1),['0']] none := by
      rw [upperBound,hsegs]
      rfl
    refine ⟨releaseKey (SemVer.digitsValue x + 1) 0,?_,rfl,fun key hminor hpatch hle => ?_⟩
    · rw [hupper,versionKey_release (by simp) (by simp [isNumeric_written,hzero.1]) (by simp)
        (by simpa [digitsValue_written,hzero.2] using hfits.1)]
      simp [digitsValue_written,hzero.2,releaseKey]
    · have hcases := le_key_cases hle
      simp only [keyOf,SemVer.segment,hsegs,List.getElem?_cons_zero,List.getElem?_cons_succ,
        Option.elim_some,hread _ hfits.2] at hcases
      rw [lt_releaseKey_iff hpatch]
      simp only [samePrefix,keyOf,SemVer.segment,hsegs,List.length_cons,List.length_nil,sameCore_iff,
        releaseKey,List.getElem?_cons_zero,Option.elim_some,decide_eq_true_eq]
      omega
  · obtain ⟨x,y,z,hsegs⟩ := List.length_eq_three.mp hlen
    rw [hsegs] at hnumeric hfits
    simp only [List.forall_mem_cons,List.not_mem_nil,false_implies,implies_true,and_true]
      at hnumeric hfits
    have hupper : upperBound v =
        SemVer.write [x,written (SemVer.digitsValue y + 1),['0']] none := by
      rw [upperBound,hsegs]
      rfl
    have hx : SemVer.digitsValue x < 2^63 := by omega
    refine ⟨releaseKey (SemVer.digitsValue x) (SemVer.digitsValue y + 1),?_,rfl,
      fun key hminor hpatch hle => ?_⟩
    · rw [hupper,versionKey_release (by simp)
        (by simp [isNumeric_written,hzero.1,hnumeric.1]) (by simp)
        (by simpa [digitsValue_written,hzero.2] using ⟨hx,hfits.2.1⟩)]
      simp [digitsValue_written,hzero.2,releaseKey]
    · have hcases := le_key_cases hle
      simp only [keyOf,SemVer.segment,hsegs,List.getElem?_cons_zero,List.getElem?_cons_succ,
        Option.elim_some,hread _ hfits.2.1] at hcases
      rw [lt_releaseKey_iff hpatch]
      simp only [samePrefix,keyOf,SemVer.segment,hsegs,List.length_cons,List.length_nil,sameCore_iff,
        releaseKey,List.getElem?_cons_zero,List.getElem?_cons_succ,Option.elim_some,
        hread _ hfits.2.1,Bool.and_eq_true,decide_eq_true_eq]
      omega

theorem satisfiesAll_append {cs cs' : List Constraint} {candidate : Rope} :
    satisfiesAll (cs ++ cs') candidate = (satisfiesAll cs candidate && satisfiesAll cs' candidate) := by
  rw [satisfiesAll,satisfiesAll,satisfiesAll]
  cases versionKey candidate with
  | none => rfl
  | some candidateKey => exact List.all_append

theorem satisfiesAll_pessimistic {v candidate : Rope} {span : Span} {key candidateKey : VersionKey}
    (hkey : versionKey v = some key) (hcandidate : versionKey candidate = some candidateKey) :
    satisfiesAll [⟨.pessimistic,v,span⟩] candidate = true ↔ ¬preExcluded candidateKey key ∧
      key ≤ candidateKey ∧ samePrefix (segmentCount v) candidateKey key := by
  rw [satisfiesAll_range rfl,hkey,hcandidate]
  simp [OnSide]

theorem satisfiesAll_expansion {v candidate : Rope} {span : Span}
    {key upper candidateKey : VersionKey} (hkey : versionKey v = some key)
    (hupper : versionKey (upperBound v) = some upper)
    (hcandidate : versionKey candidate = some candidateKey) :
    satisfiesAll (expansion v span) candidate = true ↔
      (¬preExcluded candidateKey key ∧ key ≤ candidateKey) ∧
        ¬preExcluded candidateKey upper ∧ candidateKey < upper := by
  have happend : expansion v span = [⟨.gte,v,span⟩] ++ [⟨.lt,upperBound v,span⟩] := rfl
  rw [happend,satisfiesAll_append,Bool.and_eq_true,satisfiesAll_range rfl,satisfiesAll_range rfl,
    hkey,hupper,hcandidate]
  simp [OnSide]

/-- A stable key is excluded by no bound. -/
theorem not_preExcluded_of_stable {candidate key : VersionKey} (h : candidate.stability ≠ 0) :
    ¬preExcluded candidate key := fun hex => h (preExcluded_iff.mp hex).1

theorem samePrefix_of_sameCore {a b : VersionKey} (h : sameCore a b) (n : ℕ) :
    samePrefix n a b := by
  obtain ⟨hmajor,hminor,-⟩ := sameCore_iff.mp h
  unfold samePrefix
  split <;> simp [hmajor,hminor]

/-- A pre-release that a bound does not exclude has the core of the bound. -/
theorem preRelease_below {candidate upper : VersionKey} (hcandidate : candidate.stability = 0)
    (hupper : upper.stability = 1) :
    ¬preExcluded candidate upper ∧ candidate < upper ↔ sameCore candidate upper := by
  rw [preExcluded_iff]
  simp only [hcandidate,hupper,true_and,not_not]
  exact ⟨fun h => h.1,fun h => ⟨h,lt_of_sameCore h hcandidate hupper⟩⟩

/-- From a version on, two pre-releases that are apart lie neither in the prefix nor
at the bound. -/
theorem Apart.not_near {v candidate : Rope} {key upper candidateKey : VersionKey}
    (h : Apart v candidate) (hdash : '-' ∈ candidate) (hkey : versionKey v = some key)
    (hupper : versionKey (upperBound v) = some upper)
    (hcandidate : versionKey candidate = some candidateKey)
    (hexcluded : ¬preExcluded candidateKey key) (hle : key ≤ candidateKey) :
    ¬samePrefix (segmentCount v) candidateKey key ∧ ¬sameCore candidateKey upper := by
  have hstability := stability_of_key hcandidate
  rw [if_pos hdash] at hstability
  rcases h with hv | hnot | hlt | hnone
  · have hstable := stability_of_key hkey
    rw [if_neg hv] at hstable
    have hcore : sameCore candidateKey key := by
      by_contra hcore
      exact hexcluded (preExcluded_iff.mpr ⟨hstability,hstable,hcore⟩)
    exact absurd hle (lt_of_sameCore hcore hstability hstable).not_ge
  · exact absurd hdash hnot
  · simp only [compareVersions,hkey,hcandidate] at hlt
    have hlt' : candidateKey < key := compare_lt_iff_lt.mp (Option.some.inj hlt)
    exact absurd hle hlt'.not_ge
  · exact hnone _ _ _ hkey hupper hcandidate

theorem satisfiesAll_apart {v candidate : Rope} (h : Expandable v) (hapart : Apart v candidate)
    (span : Span) : satisfiesAll [⟨.pessimistic,v,span⟩] candidate =
      satisfiesAll (expansion v span) candidate := by
  obtain ⟨upper,hupper,hstable,hspec⟩ := upperBound_spec h
  cases hcandidate : versionKey candidate with
  | none => rw [satisfiesAll,satisfiesAll,hcandidate]
  | some candidateKey =>
    rw [Bool.eq_iff_iff,satisfiesAll_pessimistic h.versionKey hcandidate,
      satisfiesAll_expansion h.versionKey hupper hcandidate,and_assoc]
    refine and_congr_right fun hexcluded => and_congr_right fun hle => ?_
    have hstability := stability_of_key hcandidate
    by_cases hdash : '-' ∈ candidate
    · rw [if_pos hdash] at hstability
      have hnear := hapart.not_near hdash h.versionKey hupper hcandidate hexcluded hle
      rw [preRelease_below hstability hstable]
      exact iff_of_false hnear.1 hnear.2
    · rw [if_neg hdash] at hstability
      have hne : candidateKey.stability ≠ 0 := by simp [hstability]
      obtain ⟨hbelow,-⟩ := hspec candidateKey (key_nonneg hcandidate).1
        (key_nonneg hcandidate).2 hle
      rw [hbelow]
      simp [not_preExcluded_of_stable hne,hne]

theorem satisfiesAll_preRelease {v candidate : Rope} (h : Expandable v) {candidateKey : VersionKey}
    (hcandidate : versionKey candidate = some candidateKey) (hdash : '-' ∈ candidate)
    (hcore : sameCore candidateKey (keyOf v)) (hle : keyOf v ≤ candidateKey) (span : Span) :
    satisfiesAll [⟨.pessimistic,v,span⟩] candidate = true ∧
      satisfiesAll (expansion v span) candidate = false := by
  obtain ⟨upper,hupper,hstable,hspec⟩ := upperBound_spec h
  obtain ⟨-,hnotBoth⟩ := hspec candidateKey (key_nonneg hcandidate).1 (key_nonneg hcandidate).2 hle
  have hsame := samePrefix_of_sameCore hcore (segmentCount v)
  constructor
  · rw [satisfiesAll_pessimistic h.versionKey hcandidate]
    exact ⟨fun hex => (preExcluded_iff.mp hex).2.2 hcore,hle,hsame⟩
  · rw [Bool.eq_false_iff,ne_eq,satisfiesAll_expansion h.versionKey hupper hcandidate]
    rintro ⟨-,hexcluded,-⟩
    refine hexcluded (preExcluded_iff.mpr ⟨?_,hstable,fun hother => hnotBoth ⟨hsame,hother⟩⟩)
    rw [stability_of_key hcandidate,if_pos hdash]

/-- The pessimistic operator admits what its expansion admits, as long as the version
and the candidate are not both pre-releases near each other. A pre-release of the
same core is admitted by the operator, and by the expansion never. -/
theorem pessimistic_expansion {v : Rope} (h : Expandable v) (span : Span) (candidate : Rope) :
    (Apart v candidate → satisfiesAll [⟨.pessimistic,v,span⟩] candidate =
        satisfiesAll (expansion v span) candidate) ∧
      ∀ key candidateKey, versionKey v = some key → versionKey candidate = some candidateKey →
        '-' ∈ candidate → sameCore candidateKey key → key ≤ candidateKey →
          satisfiesAll [⟨.pessimistic,v,span⟩] candidate = true ∧
            satisfiesAll (expansion v span) candidate = false := by
  refine ⟨fun hapart => satisfiesAll_apart h hapart span,?_⟩
  intro key candidateKey hkey hcandidate hdash hcore hle
  cases hkey.symm.trans h.versionKey
  exact satisfiesAll_preRelease h hcandidate hdash hcore hle span

theorem pessimistic_expansion_minor :
    satisfiesAll [⟨.pessimistic,['1','.','2'],(0,6)⟩] ['1','.','5'] =
      satisfiesAll (expansion ['1','.','2'] (0,6)) ['1','.','5'] := by
  have hexpandable : Expandable ['1','.','2'] := by
    have hsegments : SemVer.segments ['1','.','2'] = [['1'],['2']] := by decide
    refine ⟨validateVersion_ok.mpr ?_,?_,?_⟩ <;> rw [hsegments] <;> decide
  have happart : Apart ['1','.','2'] ['1','.','5'] := .inl (by simp)
  exact (pessimistic_expansion hexpandable (0,6) ['1','.','5']).1 happart

/-- Between two pre-releases of one core, the operator and its expansion disagree. -/
theorem pessimistic_not_expansion : Expandable ['1','.','2','-','a'] ∧
    ¬(satisfiesAll [⟨.pessimistic,['1','.','2','-','a'],(0,8)⟩] ['1','.','2','-','b'] =
      satisfiesAll (expansion ['1','.','2','-','a'] (0,8)) ['1','.','2','-','b']) := by
  have hsegments : SemVer.segments ['1','.','2','-','a'] = [['1'],['2']] := by decide
  refine ⟨?_,by decide +kernel⟩
  refine ⟨validateVersion_ok.mpr ?_,?_,?_⟩ <;> rw [hsegments] <;> decide

/-! The lowest version that is admitted. -/

/-- The best bound is the greatest of the operands that bound from below. -/
structure IsBest (cs : List Constraint) (v : Rope) (key : VersionKey) : Prop where
  mem : ∃ c ∈ cs, c.op.isLowerBound ∧ c.version = v
  read : versionKey v = some key
  greatest : ∀ c ∈ cs, c.op.isLowerBound → ∀ k, versionKey c.version = some k → k ≤ key

/-- What is kept after some constraints, when one that is best among them is. -/
def KeepsBest (cs : List Constraint) : Option (Rope × VersionKey) → Prop
  | none => ∀ c ∈ cs, c.op.isLowerBound → versionKey c.version = none
  | some best => IsBest cs best.1 best.2

theorem IsBest.append {cs : List Constraint} {v : Rope} {key : VersionKey} (h : IsBest cs v key)
    {c : Constraint} (hc : c.op.isLowerBound → ∀ k, versionKey c.version = some k → k ≤ key) :
    IsBest (cs ++ [c]) v key where
  mem := by
    obtain ⟨b,hb,hop,hv⟩ := h.mem
    exact ⟨b,List.mem_append_left _ hb,hop,hv⟩
  read := h.read
  greatest := List.forall_mem_append.mpr ⟨h.greatest,List.forall_mem_singleton.mpr hc⟩

theorem raiseBound_keepsBest {cs : List Constraint} {best : Option (Rope × VersionKey)}
    (h : KeepsBest cs best) (c : Constraint) : KeepsBest (cs ++ [c]) (raiseBound best c) := by
  unfold raiseBound
  by_cases hop : c.op.isLowerBound
  · rw [if_pos hop]
    cases hkey : versionKey c.version with
    | none =>
      cases best with
      | none => exact List.forall_mem_append.mpr ⟨h,List.forall_mem_singleton.mpr fun _ => hkey⟩
      | some best => exact IsBest.append h (by simp [hkey])
    | some key =>
      cases best with
      | none =>
        refine ⟨⟨c,by simp,hop,rfl⟩,hkey,List.forall_mem_append.mpr ⟨?_,?_⟩⟩
        · intro b hb hbop k hk
          rw [h b hb hbop] at hk
          cases hk
        · simp [hkey]
      | some best =>
        obtain ⟨v,prevKey⟩ := best
        simp only
        split_ifs with hlt
        · refine ⟨⟨c,by simp,hop,rfl⟩,hkey,List.forall_mem_append.mpr ⟨?_,?_⟩⟩
          · intro b hb hbop k hk
            exact (h.greatest b hb hbop k hk).trans hlt.le
          · simp [hkey]
        · exact IsBest.append h (by simpa [hkey] using fun _ => not_lt.mp hlt)
  · rw [if_neg hop]
    cases best with
    | none =>
      exact List.forall_mem_append.mpr ⟨h,List.forall_mem_singleton.mpr fun h => absurd h hop⟩
    | some best => exact IsBest.append h fun h => absurd h hop

theorem foldl_raiseBound (cs : List Constraint) : KeepsBest cs (cs.foldl raiseBound none) := by
  induction cs using List.reverseRecOn with
  | nil => simp [KeepsBest]
  | append_singleton cs c ih =>
    rw [List.foldl_append]
    exact raiseBound_keepsBest ih c

theorem minAdmittedVersion_isBest {cs : List Constraint} {m : Rope}
    (h : minAdmittedVersion cs = some m) : ∃ key, IsBest cs m key := by
  obtain ⟨best,hbest,rfl⟩ := Option.map_eq_some_iff.mp h
  have hkeeps := foldl_raiseBound cs
  rw [hbest] at hkeeps
  exact ⟨best.2,hkeeps⟩

theorem versionAtLeast_iff {a b : Rope} : versionAtLeast a b = true ↔
    ∃ key bound, versionKey a = some key ∧ versionKey b = some bound ∧ bound ≤ key := by
  rw [versionAtLeast,compareVersions]
  cases versionKey a with
  | none => simp
  | some key =>
    cases versionKey b with
    | none => simp
    | some bound =>
      rcases lt_trichotomy bound key with h | h | h
      · simp [compare_gt_iff_gt.mpr h,h.le]
      · simp [h]
      · simp [compare_lt_iff_lt.mpr h,h.not_ge]

theorem versionAtLeast_trans {a b c : Rope} (h : versionAtLeast a b) (h' : versionAtLeast b c) :
    versionAtLeast a c := by
  obtain ⟨key,bound,ha,hb,hle⟩ := versionAtLeast_iff.mp h
  obtain ⟨key',bound',hb',hc,hle'⟩ := versionAtLeast_iff.mp h'
  cases hb.symm.trans hb'
  exact versionAtLeast_iff.mpr ⟨key,bound',ha,hc,hle'.trans hle⟩

/-- The operand of an operator that bounds from below is below what it admits. -/
theorem operand_le {c : Constraint} {candidate key : VersionKey} (hop : c.op.isLowerBound)
    (hkey : versionKey c.version = some key) (h : satisfiesOne c candidate) : key ≤ candidate := by
  obtain ⟨op,v,span⟩ := c
  by_cases hrange : op.isRange
  · have hside := ((satisfiesOne_range hrange hkey).mp h).2
    cases op with
    | eq => cases hrange
    | ne => cases hop
    | gt => exact le_of_lt hside
    | gte => exact hside
    | lt => cases hop
    | lte => cases hop
    | pessimistic => exact hside.1
  · cases op with
    | eq =>
      simp only [satisfiesOne,hkey,decide_eq_true_eq] at h
      exact h.ge
    | ne => cases hop
    | gt => exact absurd rfl hrange
    | gte => exact absurd rfl hrange
    | lt => cases hop
    | lte => cases hop
    | pessimistic => exact absurd rfl hrange

theorem IsBest.versionAtLeast {cs : List Constraint} {m : Rope} {key : VersionKey}
    (h : IsBest cs m key) {candidate : Rope} (hsat : satisfiesAll cs candidate) :
    VersionConstraint.versionAtLeast candidate m := by
  rw [satisfiesAll] at hsat
  cases hcandidate : VersionConstraint.versionKey candidate with
  | none =>
    rw [hcandidate] at hsat
    cases hsat
  | some candidateKey =>
    rw [hcandidate] at hsat
    obtain ⟨c,hc,hop,rfl⟩ := h.mem
    have hone := List.all_eq_true.mp hsat c hc
    exact versionAtLeast_iff.mpr ⟨candidateKey,key,hcandidate,h.read,operand_le hop h.read hone⟩

/-- No operand that bounds from below is greater than the best. -/
theorem IsBest.not_gt {cs : List Constraint} {m : Rope} {key : VersionKey} (h : IsBest cs m key)
    {c : Constraint} (hc : c ∈ cs) (hop : c.op.isLowerBound) :
    compareVersions c.version m ≠ some .gt := by
  rw [compareVersions,h.read]
  cases hkey : versionKey c.version with
  | none => simp
  | some k => simpa [compare_gt_iff_gt] using h.greatest c hc hop k hkey

/-- A feature that the gate lets through is there in every version that is admitted. -/
theorem gate_sound (cs : List Constraint) (m : Rope) (rule : DeprecationRule) (constraint : Rope)
    (parsed : Parsed) :
    (minAdmittedVersion cs = some m →
      (∃ c ∈ cs, c.op.isLowerBound ∧ c.version = m) ∧
      (∀ c ∈ cs, c.op.isLowerBound → compareVersions c.version m ≠ some .gt) ∧
      ∀ candidate, satisfiesAll cs candidate → versionAtLeast candidate m) ∧
    (parse constraint = .ok parsed → (∃ c ∈ parsed.constraints, c.op.isLowerBound) →
      supports rule constraint = .ok true → ∀ candidate, satisfiesAll parsed.constraints candidate →
        versionAtLeast candidate rule.threshold) := by
  constructor
  · intro hmin
    obtain ⟨key,hbest⟩ := minAdmittedVersion_isBest hmin
    exact ⟨hbest.mem,fun c hc hop => hbest.not_gt hc hop,fun candidate => hbest.versionAtLeast⟩
  · rintro hparse ⟨c,hc,-⟩ hsupports candidate hsat
    have hne : parsed.constraints ≠ [] := List.ne_nil_of_mem hc
    rw [supports,hparse] at hsupports
    change (if parsed.constraints = [] then _ else _) = Outcome.ok true at hsupports
    rw [if_neg hne] at hsupports
    cases hmin : minAdmittedVersion parsed.constraints with
    | none =>
      rw [hmin] at hsupports
      cases hsupports
    | some min =>
      rw [hmin] at hsupports
      obtain ⟨key,hbest⟩ := minAdmittedVersion_isBest hmin
      have hthreshold : versionAtLeast min rule.threshold := by
        simpa using hsupports
      exact versionAtLeast_trans (hbest.versionAtLeast hsat) hthreshold

/-- A rule with the replacement in version `1`. -/
def firstRule : DeprecationRule := ⟨"resource","null",.terraformVersion ['1'],"replaced"⟩

theorem gate_sound_pinned :
    versionAtLeast ['1','.','2'] ['1','.','2'] ∧ versionAtLeast ['1','.','2'] ['1'] := by
  have hsound := gate_sound [⟨.eq,['1','.','2'],(0,3)⟩] ['1','.','2'] firstRule ['1','.','2']
    ⟨[⟨.eq,['1','.','2'],(0,3)⟩],[]⟩
  have hsat : satisfiesAll [⟨.eq,['1','.','2'],(0,3)⟩] ['1','.','2'] := by decide +kernel
  refine ⟨(hsound.1 ?_).2.2 _ hsat,hsound.2 ?_ ?_ ?_ _ hsat⟩
  · decide +kernel
  · decide +kernel
  · simp [ConstraintOp.isLowerBound]
  · decide +kernel

end VersionConstraint
end TerraformLs
