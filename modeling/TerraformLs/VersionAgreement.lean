import Mathlib.Data.List.Dedup
import TerraformLs.FirstReports
import TerraformLs.VersionLists
import TerraformLs.VersionOrder

/-! Three readings of a version, in the registry lists, in the hints and in the
constraints, and what is offered as newest: where they order versions by their
precedence. -/
namespace TerraformLs

namespace InlayHints

/-- The key of the registry lists, written once more. -/
def semverTuple (v : String) : ℤ ×ₗ ℤ ×ₗ ℤ ×ₗ ℤ ×ₗ String := RegistryVersions.semverKey v

end InlayHints

namespace RegistryVersions

open FirstReports InlayHints VersionConstraint

/-- A version that validates, of at most three segments that fit. -/
def Readable (v : String) : Prop :=
  Accepted v.toList ∧ ∀ seg ∈ SemVer.segments v.toList, SemVer.digitsValue seg < 2^63

/-- The text behind the first dash, which may stand in the build metadata. -/
def dashed (v : String) : Option Rope := (splitOnce '-' v.toList).2

def precedence (v : String) : SemVer.Precedence := SemVer.precedence v.toList

/-- How two values of an ordered type compare. -/
def orderOf {α : Type} [LinearOrder α] (x y : α) : Ordering := cmp x y

/-- How the pre-releases of two versions compare. -/
def tagOrder (a b : String) : Ordering :=
  orderOf (SemVer.identifiers a.toList) (SemVer.identifiers b.toList)

/-- All three keys order the versions by precedence. -/
structure OrdersAgree (a b : String) : Prop where
  registry : orderOf (semverKey a) (semverKey b) = orderOf (precedence a) (precedence b)
  hints : orderOf (semverTuple a) (semverTuple b) = orderOf (precedence a) (precedence b)
  constraints : compareVersions a.toList b.toList = some (orderOf (precedence a) (precedence b))

/-- What is read behind the dashes is in the order of the pre-releases: a dash on one
side alone is one of a pre-release, and of two dashes the texts behind them, and the
identifiers in these, are in that order. -/
def DashesAgree (a b : String) : Prop :=
  match dashed a,dashed b with
  | none,none => True
  | some _,none => (SemVer.tag a.toList).isSome
  | none,some _ => (SemVer.tag b.toList).isSome
  | some r,some s =>
    orderOf r s = tagOrder a b ∧ orderOf (preSegments r) (preSegments s) = tagOrder a b

/-- The fields behind the core numbers. -/
def tagKey (v : String) : ℤ ×ₗ String :=
  toLex ((if (dashed v).isSome then 0 else 1),String.ofList ((dashed v).getD []))

theorem segments_splitOnce (s : Rope) : (splitOnce '.' s).1 = (s.splitOn '.').headD [] ∧
    ((splitOnce '.' s).2.map fun rest => (splitOnce '.' rest).1) = (s.splitOn '.')[1]? ∧
    ((s.splitOn '.').length ≤ 3 →
      ((splitOnce '.' s).2.bind fun rest => (splitOnce '.' rest).2) = (s.splitOn '.')[2]?) := by
  have hsplit {s : Rope} : ('.' ∉ s ∧ splitOnce '.' s = (s,none) ∧ s.splitOn '.' = [s]) ∨
      ∃ a b, splitOnce '.' s = (a,some b) ∧ s.splitOn '.' = a :: b.splitOn '.' := by
    rcases SemVer.dropWhile_ne '.' s with ⟨hnone,hmem⟩ | ⟨rest,hrest⟩
    · refine .inl ⟨hmem,?_,List.splitOn_eq_singleton hmem⟩
      rw [splitOnce,hnone,SemVer.takeWhile_not_mem hmem]
      rfl
    · refine .inr ⟨s.takeWhile (· ≠ '.'),rest,?_,?_⟩
      · rw [splitOnce,hrest]
        rfl
      · have hs : s = s.takeWhile (· ≠ '.') ++ '.' :: rest := by
          rw [← hrest,List.takeWhile_append_dropWhile]
        have hfront : ∀ c ∈ s.takeWhile (· ≠ '.'), (c == '.') = false := fun c hc => by
          have := List.mem_takeWhile_imp hc
          simpa using this
        conv_lhs => rw [hs]
        rw [List.splitOn_eq_splitOnP,
          List.splitOnP_append_cons_of_forall_mem hfront '.' (by decide),← List.splitOn_eq_splitOnP]
  rcases hsplit (s:=s) with ⟨-,hs,hl⟩ | ⟨a,b,hs,hl⟩
  · rw [hs,hl]
    exact ⟨rfl,rfl,fun _ => rfl⟩
  · rcases hsplit (s:=b) with ⟨-,hb,hlb⟩ | ⟨c,d,hb,hlb⟩
    · rw [hs,hl,hlb]
      simp [hb]
    · rw [hs,hl,hlb]
      refine ⟨rfl,by simp [hb],fun hlen => ?_⟩
      rcases hsplit (s:=d) with ⟨-,-,hld⟩ | ⟨e,f,-,hld⟩
      · rw [hld]
        simp [hb]
      · have hne := List.length_pos_of_ne_nil (List.splitOn_ne_nil '.' f)
        rw [hld] at hlen
        simp only [List.length_cons] at hlen
        omega

theorem semverKey_readable {v : String} (h : Readable v) : semverKey v =
    toLex ((SemVer.segment v.toList 0 : ℤ),toLex ((SemVer.segment v.toList 1 : ℤ),
      toLex ((SemVer.segment v.toList 2 : ℤ),tagKey v))) := by
  obtain ⟨⟨hvalid,hlen⟩,hfits⟩ := h
  have hread (i : ℕ) : ((SemVer.segments v.toList)[i]?.bind parseI64).getD 0 =
      (SemVer.segment v.toList i : ℤ) := by
    rw [read_segment hvalid,readSegment_of_fits (segment_fits hfits i)]
  obtain ⟨hmajor,hminor,hpatch⟩ := segments_splitOnce (SemVer.core v.toList)
  have hne : SemVer.segments v.toList ≠ [] := List.splitOn_ne_nil _ _
  obtain ⟨seg,rest,hsegments⟩ := List.exists_cons_of_ne_nil hne
  have hnumeric := validateVersion_ok.mp hvalid seg (hsegments ▸ List.mem_cons_self)
  have hfit := hfits seg (hsegments ▸ List.mem_cons_self)
  have hparse : parseI64 (splitOnce '.' (SemVer.core v.toList)).1 =
      some (SemVer.segment v.toList 0 : ℤ) := by
    have hhead : (splitOnce '.' (SemVer.core v.toList)).1 = seg := by
      rw [hmajor]
      exact congrArg (List.headD · []) hsegments
    have hzero : SemVer.segment v.toList 0 = SemVer.digitsValue seg := by
      rw [SemVer.segment,hsegments]
      rfl
    rw [hhead,parseI64_numeric hnumeric,if_pos hfit,hzero]
  have hcore := core_splitOnce v.toList
  rw [semverKey]
  simp only [hcore,hparse]
  have hminor : ((splitOnce '.' (SemVer.core v.toList)).2.map fun rest => (splitOnce '.' rest).1) =
      (SemVer.segments v.toList)[1]? := hminor
  have hpatch : ((splitOnce '.' (SemVer.core v.toList)).2.bind fun rest => (splitOnce '.' rest).2) =
      (SemVer.segments v.toList)[2]? := hpatch hlen
  rw [hminor,hpatch,hread,hread]
  rfl

theorem orderOf_toLex {α β : Type} [LinearOrder α] [LinearOrder β] (a a' : α) (b b' : β) :
    orderOf (toLex (a,b)) (toLex (a',b')) = (orderOf a a').then (orderOf b b') := by
  unfold orderOf
  rcases lt_trichotomy a a' with h | rfl | h
  · rw [(cmp_eq_lt_iff a a').mpr h,Ordering.lt_then,cmp_eq_lt_iff,Prod.Lex.toLex_lt_toLex]
    exact .inl h
  · rw [cmp_self_eq_eq,Ordering.eq_then]
    rcases lt_trichotomy b b' with h | rfl | h
    · rw [(cmp_eq_lt_iff b b').mpr h,cmp_eq_lt_iff,Prod.Lex.toLex_lt_toLex]
      exact .inr ⟨rfl,h⟩
    · rw [cmp_self_eq_eq,cmp_self_eq_eq]
    · rw [(cmp_eq_gt_iff b b').mpr h,cmp_eq_gt_iff,Prod.Lex.toLex_lt_toLex]
      exact .inr ⟨rfl,h⟩
  · rw [(cmp_eq_gt_iff a a').mpr h,Ordering.gt_then,cmp_eq_gt_iff,Prod.Lex.toLex_lt_toLex]
    exact .inl h

/-- How the core numbers of two versions compare. -/
def coreOrder (a b : String) : Ordering :=
  (orderOf (SemVer.segment a.toList 0) (SemVer.segment b.toList 0)).then
    ((orderOf (SemVer.segment a.toList 1) (SemVer.segment b.toList 1)).then
      (orderOf (SemVer.segment a.toList 2) (SemVer.segment b.toList 2)))

theorem orderOf_eq_iff {α : Type} [LinearOrder α] {x y : α} : orderOf x y = .eq ↔ x = y :=
  cmp_eq_eq_iff x y

theorem orderOf_lt_iff {α : Type} [LinearOrder α] {x y : α} : orderOf x y = .lt ↔ x < y :=
  cmp_eq_lt_iff x y

theorem orderOf_gt_iff {α : Type} [LinearOrder α] {x y : α} : orderOf x y = .gt ↔ y < x :=
  cmp_eq_gt_iff x y

theorem coreOrder_eq_iff {a b : String} :
    coreOrder a b = .eq ↔ SemVer.SameCore a.toList b.toList := by
  rw [coreOrder,Ordering.then_eq_eq,Ordering.then_eq_eq,orderOf_eq_iff,orderOf_eq_iff,orderOf_eq_iff]
  rfl

theorem orderOf_natCast (m n : ℕ) : orderOf (m : ℤ) (n : ℤ) = orderOf m n :=
  StrictMono.cmp_map_eq (fun _ _ h => Int.ofNat_lt.mpr h) m n

theorem orderOf_precedence (a b : String) :
    orderOf (precedence a) (precedence b) = (coreOrder a b).then (tagOrder a b) := by
  rw [precedence,precedence,SemVer.precedence,SemVer.precedence,orderOf_toLex,orderOf_toLex,
    orderOf_toLex,coreOrder,Ordering.then_assoc,Ordering.then_assoc,tagOrder]

theorem orderOf_semverKey {a b : String} (ha : Readable a) (hb : Readable b) :
    orderOf (semverKey a) (semverKey b) = (coreOrder a b).then (orderOf (tagKey a) (tagKey b)) := by
  rw [semverKey_readable ha,semverKey_readable hb,orderOf_toLex,orderOf_toLex,orderOf_toLex,coreOrder,
    Ordering.then_assoc,Ordering.then_assoc,orderOf_natCast,orderOf_natCast,orderOf_natCast]

theorem orderOf_keyOf {a b : String} (ha : Readable a) (hb : Readable b) :
    compareVersions a.toList b.toList = some ((coreOrder a b).then
      ((orderOf (if (dashed a).isSome then 0 else 1) (if (dashed b).isSome then 0 else 1)).then
        (orderOf (keyIdentifiers a.toList) (keyIdentifiers b.toList)))) := by
  rw [compareVersions_valid ha.1.1 hb.1.1 (segment_fits ha.2 0) (segment_fits hb.2 0)]
  have hkey {v : String} (hv : Readable v) : keyOf v.toList =
      ⟨SemVer.segment v.toList 0,SemVer.segment v.toList 1,SemVer.segment v.toList 2,
        if (dashed v).isSome then 0 else 1,keyIdentifiers v.toList⟩ := by
    rw [keyOf,readSegment_of_fits (segment_fits hv.2 1),readSegment_of_fits (segment_fits hv.2 2)]
    rfl
  have hfields : compare (keyOf a.toList) (keyOf b.toList) =
      orderOf (keyOf a.toList).fields (keyOf b.toList).fields :=
    cmp_eq_of_lt_iff Iff.rfl Iff.rfl
  rw [hfields,hkey ha,hkey hb,VersionKey.fields,VersionKey.fields,orderOf_toLex,orderOf_toLex,
    orderOf_toLex,orderOf_toLex,coreOrder,Ordering.then_assoc,Ordering.then_assoc,orderOf_natCast,
    orderOf_natCast,orderOf_natCast]

theorem then_right_iff {o p q : Ordering} : o.then p = o.then q ↔ (o = .eq → p = q) := by
  cases o <;> simp

theorem tagOrder_release {a b : String} (ha : SemVer.tag a.toList = none)
    (hb : SemVer.tag b.toList = none) : tagOrder a b = .eq := by
  rw [tagOrder,orderOf_eq_iff,SemVer.identifiers,SemVer.identifiers,ha,hb]

theorem tagOrder_lt_release {a b : String} (ha : (SemVer.tag a.toList).isSome)
    (hb : SemVer.tag b.toList = none) : tagOrder a b = .lt := by
  obtain ⟨t,ht⟩ := Option.isSome_iff_exists.mp ha
  rw [tagOrder,orderOf_lt_iff,SemVer.identifiers,SemVer.identifiers,ht,hb]
  exact WithTop.coe_lt_top _

theorem orderOf_swap {α : Type} [LinearOrder α] (x y : α) : orderOf y x = (orderOf x y).swap :=
  (cmp_swap x y).symm

theorem tag_of_undashed {v : String} (h : dashed v = none) : SemVer.tag v.toList = none := by
  by_contra hne
  obtain ⟨t,ht⟩ := Option.ne_none_iff_exists'.mp hne
  obtain ⟨rest,hrest,-⟩ := splitOnce_tag ht
  rw [dashed,hrest] at h
  cases h

/-- A release on one side leaves the pre-release below it. -/
theorem tagOrder_lt_iff {a b : String} (hb : SemVer.tag b.toList = none) :
    .lt = tagOrder a b ↔ (SemVer.tag a.toList).isSome := by
  constructor
  · intro h
    by_contra hnot
    rw [tagOrder_release (Option.not_isSome_iff_eq_none.mp hnot) hb] at h
    cases h
  · exact fun h => (tagOrder_lt_release h hb).symm

theorem orderOf_ofList (r s : Rope) : orderOf (String.ofList r) (String.ofList s) = orderOf r s := by
  refine StrictMono.cmp_map_eq (f:=String.ofList) (fun r s h => ?_) r s
  rwa [String.lt_iff_toList_lt,String.toList_ofList,String.toList_ofList]

/-- Both keys compare what they read of the tags. -/
theorem dashesAgree_iff {a b : String} : DashesAgree a b ↔
    orderOf (tagKey a) (tagKey b) = tagOrder a b ∧
      (orderOf (if (dashed a).isSome then 0 else 1) (if (dashed b).isSome then 0 else 1)).then
        (orderOf (keyIdentifiers a.toList) (keyIdentifiers b.toList)) = tagOrder a b := by
  have hread (v : String) : keyIdentifiers v.toList = ((dashed v).map preSegments).getD [] := rfl
  rw [DashesAgree,tagKey,tagKey,hread,hread,orderOf_toLex]
  cases hda : dashed a with
  | none =>
    have hta := tag_of_undashed hda
    cases hdb : dashed b with
    | none =>
      have hzero : orderOf ([] : List PreSegment) [] = .eq := orderOf_eq_iff.mpr rfl
      simp [tagOrder_release hta (tag_of_undashed hdb),orderOf_eq_iff]
    | some s =>
      have hgt : tagOrder a b = (tagOrder b a).swap := orderOf_swap _ _
      have hiff := tagOrder_lt_iff (a:=b) hta
      have hz : orderOf (1 : ℤ) 0 = .gt := by decide
      have hn : orderOf 1 0 = .gt := by decide
      simp only [Option.isSome_none,Option.isSome_some,Bool.false_eq_true,if_false,if_true,hz,hn,
        Ordering.gt_then,and_self,hgt]
      rw [← hiff]
      cases tagOrder b a <;> simp
  | some r =>
    cases hdb : dashed b with
    | none =>
      have hz : orderOf (0 : ℤ) 1 = .lt := by decide
      have hn : orderOf 0 1 = .lt := by decide
      simp only [Option.isSome_none,Option.isSome_some,Bool.false_eq_true,if_false,if_true,hz,hn,
        Ordering.lt_then,and_self]
      exact (tagOrder_lt_iff (tag_of_undashed hdb)).symm
    | some s =>
      have hz : orderOf (0 : ℤ) 0 = .eq := by decide
      have hn : orderOf 0 0 = .eq := by decide
      simp only [Option.isSome_some,if_true,hz,hn,Ordering.eq_then,Option.getD_some,
        Option.map_some,orderOf_ofList]

/-- The keys of two versions are in the order of precedence exactly if, the core numbers
being the same, what stands behind the dashes is. -/
theorem ordersAgree_iff {a b : String} (ha : Readable a) (hb : Readable b) :
    OrdersAgree a b ↔ (SemVer.SameCore a.toList b.toList → DashesAgree a b) := by
  rw [dashesAgree_iff,← coreOrder_eq_iff]
  constructor
  · rintro ⟨hregistry,-,hconstraints⟩ hcore
    rw [orderOf_semverKey ha hb,orderOf_precedence] at hregistry
    rw [orderOf_keyOf ha hb,orderOf_precedence,Option.some.injEq] at hconstraints
    exact ⟨then_right_iff.mp hregistry hcore,then_right_iff.mp hconstraints hcore⟩
  · intro h
    have hregistry : orderOf (semverKey a) (semverKey b) = orderOf (precedence a) (precedence b) := by
      rw [orderOf_semverKey ha hb,orderOf_precedence]
      exact then_right_iff.mpr fun hcore => (h hcore).1
    refine ⟨hregistry,hregistry,?_⟩
    rw [orderOf_keyOf ha hb,orderOf_precedence,Option.some.injEq]
    exact then_right_iff.mpr fun hcore => (h hcore).2

/-! ### The merged list -/

/-- A version is listed once, with its registries, before those that are lower. -/
structure MergedRight (tf tofu : List String) : Prop where
  once : ((mergeWithProvenance tf tofu).map VersionInfo.version).Nodup
  all : ∀ v, v ∈ (mergeWithProvenance tf tofu).map VersionInfo.version ↔ v ∈ tf ∨ v ∈ tofu
  tagged : ∀ info ∈ mergeWithProvenance tf tofu, info.registries.Nodup ∧
    ((.terraform ∈ info.registries ↔ info.version ∈ tf) ∧
      (.openTofu ∈ info.registries ↔ info.version ∈ tofu))
  newest : ((mergeWithProvenance tf tofu).map VersionInfo.version).Pairwise fun a b =>
    Readable a → Readable b → precedence b ≤ precedence a

/-- The first place of `a` comes before that of `b`. -/
def ListedBefore (vs : List String) (a b : String) : Prop :=
  ∃ front back, vs = front ++ a :: back ∧ b ∉ front

/-- Of versions with one core, the texts behind the dashes rise with the pre-releases,
or are the same and the higher version is listed first. -/
def TagsRise (vs : List String) : Prop :=
  ∀ a ∈ vs, ∀ b ∈ vs, Readable a → Readable b → SemVer.SameCore a.toList b.toList →
    ∀ r s, dashed a = some r → dashed b = some s →
      SemVer.identifiers a.toList < SemVer.identifiers b.toList →
      r < s ∨ (r = s ∧ ListedBefore vs b a)

theorem versions_foldl {vs : List String} {registries : String → List Registry}
    {out : List VersionInfo} {seen : List String} (h : ∀ v, v ∈ seen ↔ v ∈ out.map VersionInfo.version) :
    (vs.foldl (pushVersion registries) out).map VersionInfo.version =
      out.map VersionInfo.version ++ (firsts id seen vs).2 := by
  induction vs generalizing out seen with
  | nil => simp [firsts]
  | cons v vs ih =>
    rw [List.foldl_cons,pushVersion]
    by_cases hv : v ∈ out.map VersionInfo.version
    · rw [if_pos hv,ih h,firsts_cons_of_mem (f:=id) ((h v).mpr hv)]
    · have hmap : (out ++ [(⟨v,registries v,none⟩ : VersionInfo)]).map VersionInfo.version =
          out.map VersionInfo.version ++ [v] := by simp
      have hseen : ∀ w, w ∈ v :: seen ↔
          w ∈ (out ++ [(⟨v,registries v,none⟩ : VersionInfo)]).map VersionInfo.version := fun w => by
        rw [hmap,List.mem_cons,List.mem_append,List.mem_singleton,h w,or_comm]
      rw [if_neg hv,ih hseen,firsts_cons_of_notMem (f:=id) (fun hmem => hv ((h v).mp hmem)),hmap,
        List.append_assoc]
      rfl

theorem mem_seen_iff {v : String} {is : List String} :
    v ∈ (firsts id [] is).1 ↔ v ∈ (firsts id [] is).2 := by
  rw [mem_seen,mem_firsts]
  simp

/-- The listed versions, each where it first stands, sorted by their keys. -/
theorem merged_versions (tf tofu : List String) :
    (mergeWithProvenance tf tofu).map VersionInfo.version =
      (firsts id [] (tf ++ tofu)).2.mergeSort fun a b => semverKey b ≤ semverKey a := by
  have hempty : ∀ v : String, v ∈ [] ↔ v ∈ ([] : List VersionInfo).map VersionInfo.version := by simp
  rw [mergeWithProvenance]
  refine (List.map_mergeSort (f:=VersionInfo.version)
    (s:=fun a b => semverKey b ≤ semverKey a) fun a _ b _ => rfl).trans ?_
  congr 1
  have hfirst (v : String) : v ∈ (firsts id [] tf).1 ↔ v ∈ (tf.foldl (pushVersion fun v =>
      if v ∈ tofu then [.terraform,.openTofu] else [.terraform]) []).map VersionInfo.version := by
    rw [versions_foldl hempty]
    exact mem_seen_iff
  rw [versions_foldl hfirst,versions_foldl hempty,firsts_append]
  rfl

theorem registries_foldl {vs : List String} {registries : String → List Registry}
    {out : List VersionInfo} {info : VersionInfo} (h : info ∈ vs.foldl (pushVersion registries) out) :
    info ∈ out ∨ info.version ∈ vs ∧ info.version ∉ out.map VersionInfo.version ∧
      info.registries = registries info.version := by
  induction vs generalizing out with
  | nil => exact .inl h
  | cons v vs ih =>
    rw [List.foldl_cons] at h
    rcases ih h with hin | ⟨hmem,hfresh,hregistries⟩
    · rw [pushVersion] at hin
      split_ifs at hin with hv
      · exact .inl hin
      · rcases List.mem_append.mp hin with hin | hin
        · exact .inl hin
        · rw [List.mem_singleton.mp hin]
          exact .inr ⟨List.mem_cons_self,hv,rfl⟩
    · refine .inr ⟨List.mem_cons_of_mem v hmem,fun hout => hfresh ?_,hregistries⟩
      rw [pushVersion]
      split_ifs
      · exact hout
      · rw [List.map_append]
        exact List.mem_append_left _ hout

theorem registries_merged {tf tofu : List String} :
    ∀ info ∈ mergeWithProvenance tf tofu, info.registries.Nodup ∧
      ((.terraform ∈ info.registries ↔ info.version ∈ tf) ∧
        (.openTofu ∈ info.registries ↔ info.version ∈ tofu)) := by
  intro info hin
  rw [mergeWithProvenance,List.mem_mergeSort] at hin
  rcases registries_foldl hin with hin | ⟨hmem,hfresh,hregistries⟩
  · rcases registries_foldl hin with hin | ⟨hmem,-,hregistries⟩
    · cases hin
    · rw [hregistries]
      split_ifs with htofu <;> simp [hmem,htofu]
  · have hnot : info.version ∉ tf := by
      intro htf
      refine hfresh ?_
      have hempty : ∀ v : String, v ∈ [] ↔ v ∈ ([] : List VersionInfo).map VersionInfo.version := by simp
      rw [versions_foldl hempty]
      exact mem_firsts.mpr htf
    rw [hregistries]
    simp [hmem,hnot]

theorem mem_firsts_of_new {v : String} {seen vs : List String} (hv : v ∈ vs) (hnew : v ∉ seen) :
    v ∈ (firsts id seen vs).2 := by
  have hcount := countP_firsts (f:=id) v seen vs
  rw [if_pos ⟨hnew,v,hv,rfl⟩] at hcount
  obtain ⟨w,hw,heq⟩ := List.countP_pos_iff.mp (hcount ▸ Nat.one_pos)
  exact of_decide_eq_true heq ▸ hw

theorem listedBefore_firsts {vs : List String} {seen : List String} {a b : String}
    (h : ListedBefore vs a b) (hb : b ∈ vs) (hne : a ≠ b) (hna : a ∉ seen) (hnb : b ∉ seen) :
    [a,b].Sublist (firsts id seen vs).2 := by
  induction vs generalizing seen with
  | nil => cases hb
  | cons v vs ih =>
    by_cases hva : v = a
    · subst hva
      have hmem : b ∈ (firsts id (v :: seen) vs).2 :=
        mem_firsts_of_new ((List.mem_cons.mp hb).resolve_left hne.symm) fun h =>
          (List.mem_cons.mp h).elim (fun h => hne h.symm) hnb
      rw [firsts_cons_of_notMem (f:=id) hna]
      exact .cons_cons v (List.singleton_sublist.mpr hmem)
    · obtain ⟨front,back,heq,hfront⟩ := h
      cases front with
      | nil => exact absurd (List.cons.inj heq).1 hva
      | cons w front =>
        obtain ⟨rfl,rfl⟩ := List.cons.inj heq
        have hvb : v ≠ b := fun h => hfront (h ▸ List.mem_cons_self)
        have hrest : ListedBefore (front ++ a :: back) a b :=
          ⟨front,back,rfl,fun hmem => hfront (List.mem_cons_of_mem v hmem)⟩
        have hmem : b ∈ front ++ a :: back := (List.mem_cons.mp hb).resolve_left hvb.symm
        by_cases hseen : v ∈ seen
        · rw [firsts_cons_of_mem (f:=id) hseen]
          exact ih hrest hmem hna hnb
        · rw [firsts_cons_of_notMem (f:=id) hseen]
          refine .cons v (ih hrest hmem ?_ ?_)
          · exact fun h => (List.mem_cons.mp h).elim (fun h => hva h.symm) hna
          · exact fun h => (List.mem_cons.mp h).elim (fun h => hvb h.symm) hnb

theorem listedBefore_total {vs : List String} {a b : String} (ha : a ∈ vs) (hb : b ∈ vs) :
    ListedBefore vs a b ∨ ListedBefore vs b a := by
  induction vs with
  | nil => cases ha
  | cons v vs ih =>
    by_cases hva : v = a
    · exact .inl ⟨[],vs,by rw [hva]; rfl,List.not_mem_nil⟩
    by_cases hvb : v = b
    · exact .inr ⟨[],vs,by rw [hvb]; rfl,List.not_mem_nil⟩
    rcases ih ((List.mem_cons.mp ha).resolve_left fun h => hva h.symm)
      ((List.mem_cons.mp hb).resolve_left fun h => hvb h.symm) with
      ⟨front,back,rfl,hfront⟩ | ⟨front,back,rfl,hfront⟩
    · refine .inl ⟨v :: front,back,rfl,fun hmem => ?_⟩
      exact (List.mem_cons.mp hmem).elim (fun h => hvb h.symm) hfront
    · refine .inr ⟨v :: front,back,rfl,fun hmem => ?_⟩
      exact (List.mem_cons.mp hmem).elim (fun h => hva h.symm) hfront

theorem ListedBefore.sublist {vs : List String} {a b : String} (h : ListedBefore vs a b)
    (hb : b ∈ vs) (hne : a ≠ b) : [a,b].Sublist vs := by
  obtain ⟨front,back,rfl,hfront⟩ := h
  have hmem : b ∈ back := by
    rcases List.mem_append.mp hb with hb | hb
    · exact absurd hb hfront
    · exact (List.mem_cons.mp hb).resolve_left hne.symm
  exact (List.Sublist.cons_cons a (List.singleton_sublist.mpr hmem)).trans
    (List.sublist_append_right front _)

/-- Without repetitions only one of two elements comes first. -/
theorem pair_sublist_once {vs : List String} {a b : String} (h : vs.Nodup) (hab : [a,b].Sublist vs)
    (hba : [b,a].Sublist vs) : False := by
  induction vs with
  | nil => cases hab
  | cons v vs ih =>
    rw [List.nodup_cons] at h
    rcases List.sublist_cons_iff.mp hab with hab' | ⟨rest,hrest,hab'⟩
    · rcases List.sublist_cons_iff.mp hba with hba' | ⟨rest,hrest,-⟩
      · exact ih h.2 hab' hba'
      · obtain ⟨rfl,-⟩ := List.cons.inj hrest
        exact h.1 (hab'.subset (List.mem_cons_of_mem a List.mem_cons_self))
    · obtain ⟨rfl,rfl⟩ := List.cons.inj hrest
      rcases List.sublist_cons_iff.mp hba with hba' | ⟨rest,hrest,-⟩
      · exact h.1 (hba'.subset (List.mem_cons_of_mem b List.mem_cons_self))
      · obtain ⟨rfl,-⟩ := List.cons.inj hrest
        exact h.1 (hab'.subset List.mem_cons_self)

theorem key_trans (a b c : String) : decide (semverKey b ≤ semverKey a) →
    decide (semverKey c ≤ semverKey b) → decide (semverKey c ≤ semverKey a) := by
  simp only [decide_eq_true_eq]
  exact fun hab hbc => hbc.trans hab

theorem key_total (a b : String) :
    decide (semverKey b ≤ semverKey a) || decide (semverKey a ≤ semverKey b) := by
  simp only [Bool.or_eq_true,decide_eq_true_eq]
  exact le_total _ _

theorem orderOf_dashed {a b : String} (ha : Readable a) (hb : Readable b)
    (hcore : SemVer.SameCore a.toList b.toList) {r s : Rope} (hr : dashed a = some r)
    (hs : dashed b = some s) : orderOf (semverKey a) (semverKey b) = orderOf r s := by
  have hz : orderOf (0 : ℤ) 0 = .eq := by decide
  rw [orderOf_semverKey ha hb,coreOrder_eq_iff.mpr hcore,Ordering.eq_then,tagKey,tagKey,hr,hs,
    orderOf_toLex]
  simp only [Option.isSome_some,if_true,hz,Ordering.eq_then,Option.getD_some,orderOf_ofList]

/-- A lower version with a higher or the same key has a dash too, and its core. -/
theorem dashes_of_misordered {a b : String} (ha : Readable a) (hb : Readable b)
    (hlt : precedence a < precedence b) (hkey : semverKey b ≤ semverKey a) :
    SemVer.SameCore a.toList b.toList ∧
      SemVer.identifiers a.toList < SemVer.identifiers b.toList ∧
      ∃ r s, dashed a = some r ∧ dashed b = some s := by
  have hprec := orderOf_lt_iff.mpr hlt
  have hnot : orderOf (semverKey a) (semverKey b) ≠ .lt := fun h =>
    absurd (orderOf_lt_iff.mp h) (not_lt.mpr hkey)
  rw [orderOf_precedence] at hprec
  rw [orderOf_semverKey ha hb] at hnot
  have hcore : coreOrder a b = .eq := by
    cases hc : coreOrder a b with
    | lt => exact absurd (by rw [hc]; rfl) hnot
    | eq => rfl
    | gt => rw [hc] at hprec; cases hprec
  rw [hcore,Ordering.eq_then] at hprec hnot
  have htags := orderOf_lt_iff.mp hprec
  refine ⟨coreOrder_eq_iff.mp hcore,htags,?_⟩
  cases hda : dashed a with
  | none =>
    rw [SemVer.identifiers,tag_of_undashed hda] at htags
    exact absurd htags not_top_lt
  | some r =>
    cases hdb : dashed b with
    | none =>
      have hz : orderOf (0 : ℤ) 1 = .lt := by decide
      rw [tagKey,tagKey,hda,hdb,orderOf_toLex] at hnot
      exact absurd (by simp [hz]) hnot
    | some s => exact ⟨r,s,rfl,rfl⟩

theorem precedence_lt {a b : String} (hcore : SemVer.SameCore a.toList b.toList)
    (htags : SemVer.identifiers a.toList < SemVer.identifiers b.toList) :
    precedence a < precedence b := by
  rw [← orderOf_lt_iff,orderOf_precedence,coreOrder_eq_iff.mpr hcore,Ordering.eq_then]
  exact orderOf_lt_iff.mpr htags

/-- The merged list is right exactly if its pre-releases rise with the texts behind
their dashes. -/
theorem mergedRight_iff {tf tofu : List String} : MergedRight tf tofu ↔ TagsRise (tf ++ tofu) := by
  have hmerged := merged_versions tf tofu
  have hmem (v : String) : v ∈ (mergeWithProvenance tf tofu).map VersionInfo.version ↔
      v ∈ tf ++ tofu := by
    rw [hmerged,List.mem_mergeSort,mem_firsts]
  have hnodup : ((mergeWithProvenance tf tofu).map VersionInfo.version).Nodup := by
    rw [hmerged]
    exact (List.mergeSort_perm _ _).nodup_iff.mpr (nodup_firsts [] _)
  have hsorted := List.pairwise_mergeSort key_trans key_total (firsts id [] (tf ++ tofu)).2
  rw [← hmerged] at hsorted
  have hstable {a b : String} (h : ListedBefore (tf ++ tofu) a b) (hb : b ∈ tf ++ tofu) (hne : a ≠ b)
      (hkey : semverKey b ≤ semverKey a) :
      [a,b].Sublist ((mergeWithProvenance tf tofu).map VersionInfo.version) := by
    rw [hmerged]
    exact List.pair_sublist_mergeSort key_trans key_total (decide_eq_true hkey)
      (listedBefore_firsts h hb hne List.not_mem_nil List.not_mem_nil)
  constructor
  · intro h a ha b hb hra hrb hcore r s hr hs htags
    have hlt := precedence_lt hcore htags
    have hne : a ≠ b := fun heq => absurd (heq ▸ hlt) (lt_irrefl _)
    have hkeys := orderOf_dashed hra hrb hcore hr hs
    -- the lower version does not come first
    have hnot (hfirst : [a,b].Sublist ((mergeWithProvenance tf tofu).map VersionInfo.version)) :
        False := not_le.mpr hlt (h.newest.forall_sublist hfirst hra hrb)
    rcases lt_trichotomy r s with hrs | rfl | hrs
    · exact .inl hrs
    · refine .inr ⟨rfl,(listedBefore_total hb ha).resolve_right fun hbefore => ?_⟩
      have hkey : semverKey a = semverKey b := orderOf_eq_iff.mp (hkeys.trans (orderOf_eq_iff.mpr rfl))
      exact hnot (hstable hbefore hb hne hkey.ge)
    · have hkey : semverKey b < semverKey a := orderOf_gt_iff.mp (hkeys.trans (orderOf_gt_iff.mpr hrs))
      rcases listedBefore_total ((hmem a).mpr ha) ((hmem b).mpr hb) with hbefore | hbefore
      · exact (hnot (hbefore.sublist ((hmem b).mpr hb) hne)).elim
      · have := hsorted.forall_sublist (hbefore.sublist ((hmem a).mpr ha) hne.symm)
        exact absurd (of_decide_eq_true this) (not_le.mpr hkey)
  · intro h
    refine ⟨hnodup,fun v => (hmem v).trans List.mem_append,registries_merged,?_⟩
    refine List.pairwise_of_forall_sublist fun {a b} hfirst hra hrb => not_lt.mp fun hlt => ?_
    have ha := (hmem a).mp (hfirst.subset List.mem_cons_self)
    have hb := (hmem b).mp (hfirst.subset (List.mem_cons_of_mem a List.mem_cons_self))
    have hne : a ≠ b := fun heq => absurd (heq ▸ hlt) (lt_irrefl _)
    have hkey : semverKey b ≤ semverKey a := of_decide_eq_true (hsorted.forall_sublist hfirst)
    obtain ⟨hcore,htags,r,s,hr,hs⟩ := dashes_of_misordered hra hrb hlt hkey
    have hkeys := orderOf_dashed hra hrb hcore hr hs
    rcases h a ha b hb hra hrb hcore r s hr hs htags with hrs | ⟨rfl,hbefore⟩
    · exact not_lt.mpr hkey (orderOf_lt_iff.mp (hkeys.trans (orderOf_lt_iff.mpr hrs)))
    · have heq : semverKey a = semverKey b := orderOf_eq_iff.mp (hkeys.trans (orderOf_eq_iff.mpr rfl))
      exact pair_sublist_once hnodup hfirst (hstable hbefore ha hne.symm heq.le)

/-! ### The newest version -/

/-- A hash set is walked in some order, once through each element. -/
structure HashWalk where
  order : List String → List String
  perm : ∀ names, (order names).Perm names.dedup

/-- A cache without the names that have a dash. -/
def readCache (versions : List String) : List String := versions.filter fun v => '-' ∉ v.toList

def latestCandidates (tf tofu : Option (List String)) : Option (List String) :=
  (tf.map readCache).elim (tofu.map readCache) fun a =>
    some ((tofu.map readCache).elim a fun b => a.filter (· ∈ b))

/-- `max_by`: of the names with the highest key the last one. -/
def maxBy (names : List String) : Option String :=
  names.foldl (fun best v => some (best.elim v fun w => if semverKey v < semverKey w then w else v)) none

/-- A cache that is missing or no list of names is `none`. -/
def cachedLatestVersion (walk : HashWalk) (tf tofu : Option (List String)) : Option String :=
  (latestCandidates tf tofu).bind fun names => maxBy (walk.order names)

/-- Each cache that exists lists the version. -/
def Offered (tf tofu : Option (List String)) (v : String) : Prop :=
  (tf.isSome ∨ tofu.isSome) ∧ (∀ names ∈ tf, v ∈ names) ∧ ∀ names ∈ tofu, v ∈ names

/-- The name does not begin with a number. -/
def Unparsed (v : String) : Prop :=
  parseI64 (splitOnce '.' ((splitOnce '-' v.toList).1.takeWhile (· ≠ '+'))).1 = none

def Stable (v : String) : Prop := Readable v ∧ SemVer.tag v.toList = none

/-- The answer is a stable version, the highest of those offered. -/
structure LatestRight (walk : HashWalk) (tf tofu : Option (List String)) : Prop where
  highest : ∀ v, Offered tf tofu v → Stable v → ∃ w, cachedLatestVersion walk tf tofu = some w ∧
    Offered tf tofu w ∧ Stable w ∧ precedence v ≤ precedence w
  unanswered : (∀ v, Offered tf tofu v → ¬Stable v) → cachedLatestVersion walk tf tofu = none

/-- No stable version is above those without a dash, and without a stable version each
name has one. -/
structure LatestPlain (tf tofu : Option (List String)) : Prop where
  highest : ∀ v, Offered tf tofu v → Stable v →
    ∃ w, Offered tf tofu w ∧ Stable w ∧ '-' ∉ w.toList ∧ precedence v ≤ precedence w
  unanswered : (∀ v, Offered tf tofu v → ¬Stable v) → ∀ v, Offered tf tofu v → '-' ∈ v.toList

theorem mem_readCache {v : String} {names : List String} :
    v ∈ readCache names ↔ v ∈ names ∧ '-' ∉ v.toList := by
  rw [readCache,List.mem_filter,decide_eq_true_eq]

theorem mem_latestCandidates {tf tofu : Option (List String)} {v : String} :
    (∃ names, latestCandidates tf tofu = some names ∧ v ∈ names) ↔
      Offered tf tofu v ∧ '-' ∉ v.toList := by
  cases tf with
  | none =>
    cases tofu with
    | none => simp [latestCandidates,Offered]
    | some b => simp [latestCandidates,Offered,mem_readCache]
  | some a =>
    cases tofu with
    | none => simp [latestCandidates,Offered,mem_readCache]
    | some b =>
      simp only [latestCandidates,Offered,Option.map_some,Option.elim_some,Option.some.injEq,
        exists_eq_left',List.mem_filter,decide_eq_true_eq,mem_readCache,Option.isSome_some,true_or,
        true_and,Option.mem_def,forall_eq']
      tauto

theorem mem_order {walk : HashWalk} {names : List String} {v : String} :
    v ∈ walk.order names ↔ v ∈ names := by
  rw [(walk.perm names).mem_iff,List.mem_dedup]

theorem maxBy_append (names : List String) (v : String) : maxBy (names ++ [v]) =
    some ((maxBy names).elim v fun w => if semverKey v < semverKey w then w else v) := by
  rw [maxBy,List.foldl_append]
  rfl

theorem maxBy_none {names : List String} : maxBy names = none ↔ names = [] := by
  cases names using List.reverseRecOn with
  | nil => simp [maxBy]
  | append_singleton names v => simp [maxBy_append]

theorem maxBy_some {names : List String} {w : String} (h : maxBy names = some w) :
    w ∈ names ∧ ∀ v ∈ names, semverKey v ≤ semverKey w := by
  induction names using List.reverseRecOn generalizing w with
  | nil => cases h
  | append_singleton names v ih =>
    have hmem {u : String} : u ∈ names ++ [v] ↔ u ∈ names ∨ u = v := by simp
    rw [maxBy_append,Option.some.injEq] at h
    cases hbest : maxBy names with
    | none =>
      rw [hbest,Option.elim_none] at h
      rw [← h,maxBy_none.mp hbest]
      simp
    | some u =>
      rw [hbest,Option.elim_some] at h
      obtain ⟨hu,hmax⟩ := ih hbest
      split_ifs at h with hlt
      · subst h
        exact ⟨hmem.mpr (.inl hu),fun x hx => (hmem.mp hx).elim (hmax x) fun heq => heq ▸ hlt.le⟩
      · subst h
        refine ⟨hmem.mpr (.inr rfl),fun x hx => (hmem.mp hx).elim (fun hx => ?_) fun heq => heq ▸ le_rfl⟩
        exact (hmax x hx).trans (not_lt.mp hlt)

/-- The answer has no dash and the highest key. -/
theorem cachedLatest_some {walk : HashWalk} {tf tofu : Option (List String)} {w : String}
    (h : cachedLatestVersion walk tf tofu = some w) : (Offered tf tofu w ∧ '-' ∉ w.toList) ∧
      ∀ v, Offered tf tofu v → '-' ∉ v.toList → semverKey v ≤ semverKey w := by
  obtain ⟨names,hnames,hmax⟩ := Option.bind_eq_some_iff.mp h
  obtain ⟨hw,hmax⟩ := maxBy_some hmax
  refine ⟨mem_latestCandidates.mp ⟨names,hnames,mem_order.mp hw⟩,?_⟩
  intro v hv hplain
  obtain ⟨names',hnames',hmem⟩ := mem_latestCandidates.mpr ⟨hv,hplain⟩
  obtain rfl : names = names' := Option.some.inj (hnames.symm.trans hnames')
  exact hmax v (mem_order.mpr hmem)

theorem cachedLatest_none {walk : HashWalk} {tf tofu : Option (List String)} :
    cachedLatestVersion walk tf tofu = none ↔ ∀ v, Offered tf tofu v → '-' ∈ v.toList := by
  rw [cachedLatestVersion,Option.bind_eq_none_iff]
  constructor
  · intro h v hv
    by_contra hplain
    obtain ⟨names,hnames,hmem⟩ := mem_latestCandidates.mpr ⟨hv,hplain⟩
    have hmem : v ∈ walk.order names := mem_order.mpr hmem
    rw [maxBy_none.mp (h names hnames)] at hmem
    cases hmem
  · intro h names hnames
    rw [maxBy_none,List.eq_nil_iff_forall_not_mem]
    intro v hmem
    obtain ⟨hv,hplain⟩ := mem_latestCandidates.mp ⟨names,hnames,mem_order.mp hmem⟩
    exact hplain (h v hv)

theorem semverKey_unparsed {v : String} (h : Unparsed v) :
    semverKey v = toLex (-2^63,toLex (0,toLex (0,toLex (0,v)))) := by
  rw [Unparsed] at h
  rw [semverKey]
  simp only [h]

theorem unparsed_lt {v w : String} (hv : Unparsed v) (hw : Readable w) :
    semverKey v < semverKey w := by
  have hmajor : (-2^63 : ℤ) < SemVer.segment w.toList 0 :=
    lt_of_lt_of_le (by decide) (Int.natCast_nonneg _)
  rw [semverKey_unparsed hv,semverKey_readable hw,Prod.Lex.toLex_lt_toLex]
  exact .inl hmajor

theorem dashed_none {v : String} (h : '-' ∉ v.toList) : dashed v = none := by
  rw [dashed,splitOnce]
  rcases SemVer.dropWhile_ne '-' v.toList with ⟨hnone,-⟩ | ⟨rest,hrest⟩
  · rw [hnone]
    rfl
  · refine absurd ?_ h
    exact (List.dropWhile_suffix _).subset (hrest ▸ List.mem_cons_self)

theorem readable_stable {v : String} (hv : Readable v) (h : '-' ∉ v.toList) : Stable v :=
  ⟨hv,tag_of_undashed (dashed_none h)⟩

/-- Without dashes the keys are in the order of precedence. -/
theorem precedence_le_of_plain {a b : String} (ha : Readable a) (hb : Readable b)
    (hplaina : '-' ∉ a.toList) (hplainb : '-' ∉ b.toList) (hkey : semverKey a ≤ semverKey b) :
    precedence a ≤ precedence b := by
  have hagree : DashesAgree a b := by
    rw [DashesAgree,dashed_none hplaina,dashed_none hplainb]
    trivial
  have horders := ((ordersAgree_iff ha hb).mpr fun _ => hagree).registry
  refine not_lt.mp fun hlt => not_lt.mpr hkey (orderOf_gt_iff.mp (horders.trans ?_))
  exact orderOf_gt_iff.mpr hlt

/-- The newest version is right exactly if a stable one without a dash is, and names
without a dash come with such a version. -/
theorem latestRight_iff {walk : HashWalk} {tf tofu : Option (List String)}
    (h : ∀ v, Offered tf tofu v → Readable v ∨ Unparsed v) :
    LatestRight walk tf tofu ↔ LatestPlain tf tofu := by
  constructor
  · intro hright
    refine ⟨fun v hv hstable => ?_,fun hno => ?_⟩
    · obtain ⟨w,hw,hoffered,hstablew,hle⟩ := hright.highest v hv hstable
      exact ⟨w,hoffered,hstablew,(cachedLatest_some hw).1.2,hle⟩
    · exact cachedLatest_none.mp (hright.unanswered hno)
  · intro hplain
    refine ⟨fun v hv hstable => ?_,fun hno => cachedLatest_none.mpr (hplain.unanswered hno)⟩
    obtain ⟨w,hw,hstablew,hplainw,hle⟩ := hplain.highest v hv hstable
    cases hanswer : cachedLatestVersion walk tf tofu with
    | none => exact absurd (cachedLatest_none.mp hanswer w hw) hplainw
    | some u =>
      obtain ⟨⟨hu,hplainu⟩,hmax⟩ := cachedLatest_some hanswer
      have hkey := hmax w hw hplainw
      have hreadu : Readable u := (h u hu).resolve_right fun hunparsed =>
        absurd (unparsed_lt hunparsed hstablew.1) (not_lt.mpr hkey)
      exact ⟨u,rfl,hu,readable_stable hreadu hplainu,
        hle.trans (precedence_le_of_plain hstablew.1 hreadu hplainw hplainu hkey)⟩

/-! ### The orders and what rests on them -/

/-- Two versions are in one order if what stands behind their dashes is, the merged list
if its pre-releases rise with these texts, and the newest version is right if it is
among the names without a dash. -/
theorem orders_agree_iff {a b : String} (ha : Readable a) (hb : Readable b) {tf tofu : List String}
    {walk : HashWalk} {tfCache tofuCache : Option (List String)}
    (h : ∀ v, Offered tfCache tofuCache v → Readable v ∨ Unparsed v) :
    (OrdersAgree a b ↔ (SemVer.SameCore a.toList b.toList → DashesAgree a b)) ∧
      (MergedRight tf tofu ↔ TagsRise (tf ++ tofu)) ∧
        (LatestRight walk tfCache tofuCache ↔ LatestPlain tfCache tofuCache) :=
  ⟨ordersAgree_iff ha hb,mergedRight_iff,latestRight_iff h⟩

/-- The set's order is that of the list. -/
def listedWalk : HashWalk := ⟨List.dedup,fun _ => .refl _⟩

theorem alpha_below_release : OrdersAgree "1.0.0-alpha" "1.0.0" ∧ MergedRight ["1.0.0"] ["1.0.0"] ∧
    LatestRight listedWalk (some ["1.0.0"]) none := by
  have hoffered (v : String) : Offered (some ["1.0.0"]) none v ↔ v = "1.0.0" := by
    simp [Offered]
  have halpha : Readable "1.0.0-alpha" := ⟨⟨by decide,by decide⟩,by decide⟩
  have hrelease : Readable "1.0.0" := ⟨⟨by decide,by decide⟩,by decide⟩
  obtain ⟨horders,hmerged,hlatest⟩ := @orders_agree_iff "1.0.0-alpha" "1.0.0" halpha hrelease
    ["1.0.0"] ["1.0.0"] listedWalk (some ["1.0.0"]) none
    fun v hv => .inl (((hoffered v).mp hv) ▸ hrelease)
  refine ⟨horders.mpr fun _ => ?_,hmerged.mpr ?_,hlatest.mpr ⟨fun v hv hstable => ?_,?_⟩⟩
  · have htag : (SemVer.tag "1.0.0-alpha".toList).isSome := by decide
    exact htag
  · intro a ha b hb _ _ _ r s hr
    have ha : a = "1.0.0" := by simpa using ha
    have hnone : dashed "1.0.0" = none := by decide
    rw [ha,hnone] at hr
    cases hr
  · rw [(hoffered v).mp hv]
    exact ⟨"1.0.0",(hoffered "1.0.0").mpr rfl,⟨hrelease,by decide⟩,by decide,le_refl _⟩
  · intro hno
    exact absurd ⟨hrelease,by decide⟩ (hno "1.0.0" ((hoffered "1.0.0").mpr rfl))

/-- A dash in the build metadata makes a release a pre-release, whose number is a text,
and a branch is the newest version if it is listed alone. -/
theorem dashed_build_below : ¬OrdersAgree "1.0.0+a-b" "1.0.0" ∧
    ¬MergedRight ["1.0.0-rc.2"] ["1.0.0-rc.10"] ∧ ¬LatestRight listedWalk (some ["main"]) none := by
  have hbuild : Readable "1.0.0+a-b" := ⟨⟨by decide,by decide⟩,by decide⟩
  have hrelease : Readable "1.0.0" := ⟨⟨by decide,by decide⟩,by decide⟩
  have hsecond : Readable "1.0.0-rc.2" := ⟨⟨by decide,by decide⟩,by decide⟩
  have htenth : Readable "1.0.0-rc.10" := ⟨⟨by decide,by decide⟩,by decide⟩
  refine ⟨fun h => ?_,fun h => ?_,fun h => ?_⟩
  · have hagree := (ordersAgree_iff hbuild hrelease).mp h ⟨by decide,by decide,by decide⟩
    have hnotag : ¬(SemVer.tag "1.0.0+a-b".toList).isSome := by decide
    exact hnotag hagree
  · have htags : SemVer.identifiers "1.0.0-rc.2".toList < SemVer.identifiers "1.0.0-rc.10".toList := by
      decide +kernel
    rcases mergedRight_iff.mp h "1.0.0-rc.2" (by simp) "1.0.0-rc.10" (by simp) hsecond htenth
      ⟨by decide,by decide,by decide⟩ ['r','c','.','2'] ['r','c','.','1','0'] (by decide) (by decide)
      htags with hlt | ⟨heq,-⟩
    · revert hlt
      decide
    · revert heq
      decide
  · have hoffered (v : String) : Offered (some ["main"]) none v ↔ v = "main" := by
      simp [Offered]
    have hnone := h.unanswered fun v hv hstable => by
      rw [(hoffered v).mp hv] at hstable
      have hvalid := hstable.1.1.1
      revert hvalid
      decide
    have := cachedLatest_none.mp hnone "main" ((hoffered "main").mpr rfl)
    revert this
    decide

end RegistryVersions
end TerraformLs
