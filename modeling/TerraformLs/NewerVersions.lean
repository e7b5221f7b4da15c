import Mathlib.Data.List.Destutter
import Mathlib.Data.List.Sort
import TerraformLs.GitUrls
import TerraformLs.SemVer

/-! The tags of a repository that are newer than a pinned one. Candidates are sorted by
version, the highest first, and of equal neighbours one is kept. -/
namespace TerraformLs

namespace Sorting

variable {α β : Type} [LinearOrder α]

/-- Stable, the highest first. -/
def descending (l : List (α × β)) : List (α × β) := l.insertionSort fun a b => b.1 ≤ a.1

theorem descending_perm (l : List (α × β)) : (descending l).Perm l := List.perm_insertionSort _ _

theorem descending_pairwise (l : List (α × β)) :
    (descending l).Pairwise fun a b => b.1 ≤ a.1 := by
  have htotal : Std.Total fun a b : α × β => b.1 ≤ a.1 := ⟨fun a b => le_total b.1 a.1⟩
  have htrans : IsTrans (α × β) fun a b => b.1 ≤ a.1 := ⟨fun _ _ _ hab hbc => hbc.trans hab⟩
  exact List.pairwise_insertionSort _ l

/-- Of equal neighbours the first is kept. -/
theorem mem_destutter_ne [DecidableEq β] {l : List β} {b : β} :
    b ∈ l.destutter (· ≠ ·) ↔ b ∈ l := by
  have hfrom : ∀ (l : List β) (a : β), b ∈ l.destutter' (· ≠ ·) a ↔ b = a ∨ b ∈ l := by
    intro l
    induction l with
    | nil => simp
    | cons c l ih =>
      intro a
      by_cases hac : a = c
      · subst hac
        rw [List.destutter'_cons_neg (h:=by simp),ih]
        simp
      · rw [List.destutter'_cons_pos (h:=hac),List.mem_cons,ih,List.mem_cons]
  cases l with
  | nil => simp
  | cons a l => rw [List.destutter_cons',hfrom,List.mem_cons]

theorem isChain_and {γ : Type} {R S : γ → γ → Prop} :
    ∀ {l : List γ}, l.IsChain R → l.IsChain S → l.IsChain fun a b => R a b ∧ S a b
  | [], _, _ => .nil
  | [a], _, _ => .singleton a
  | _::_::_, .cons_cons hr hrs, .cons_cons hs hss => .cons_cons ⟨hr,hs⟩ (isChain_and hrs hss)

/-- Where equal keys have equal values, the keys that are left are in strict order. -/
theorem destutter_strict [DecidableEq β] {l : List (α × β)}
    (h : ∀ a ∈ l, ∀ b ∈ l, a.1 = b.1 → a.2 = b.2) :
    ((descending l).destutter fun a b => a.2 ≠ b.2).Pairwise fun a b => b.1 < a.1 := by
  have hsub := List.destutter_sublist (fun a b : α × β => a.2 ≠ b.2) (descending l)
  have hmem : ∀ a ∈ (descending l).destutter fun a b => a.2 ≠ b.2, a ∈ l :=
    fun a ha => (descending_perm l).mem_iff.mp (hsub.subset ha)
  have hle := (descending_pairwise l).sublist hsub
  have hne := List.isChain_destutter (fun a b : α × β => a.2 ≠ b.2) (descending l)
  have hstrict : ((descending l).destutter fun a b => a.2 ≠ b.2).IsChain fun a b => b.1 < a.1 := by
    refine (isChain_and hle.isChain hne).imp_of_mem_imp fun a b ha hb hab => ?_
    refine lt_of_le_of_ne hab.1 fun heq => hab.2 ?_
    exact h a (hmem a ha) b (hmem b hb) heq.symm
  have htrans : IsTrans (α × β) fun a b => b.1 < a.1 := ⟨fun _ _ _ hab hbc => hbc.trans hab⟩
  exact hstrict.pairwise

end Sorting

namespace GitRefs

/-- What is used of the versions of the `semver` crate, which have a total order. -/
structure VersionReader (V : Type) where
  parse : Rope → Option V
  isPreRelease : V → Bool

variable {V : Type} [LinearOrder V] (S : VersionReader V)

section newer

def stripV : Rope → Rope
  | [] => []
  | c::core => if c = 'v' ∨ c = 'V' then core else c :: core

/-- `1.2` is read as `1.2.0`. -/
def parseVersionCore (core : Rope) : Option V :=
  let parts := (stripV core).splitOn '.'
  (S.parse (stripV core)).or
    (if parts.length = 2 && parts.all SemVer.isNumeric then S.parse (stripV core ++ ".0".toList)
    else none)

/-- The leftmost split of a tag after which a version stands. -/
def tagNamespace : Rope → Option (Rope × Rope)
  | [] => none
  | c::tag =>
    if (parseVersionCore S (c::tag)).isSome then some ([],c::tag)
    else (tagNamespace tag).map fun split => (c :: split.1,split.2)

/-- The namespace and the version of a tag. -/
def tagVersion (tag : Rope) : Option (Rope × V) :=
  (tagNamespace S tag).bind fun split => (parseVersionCore S split.2).map (split.1,·)

def candidate (space : Rope) (curVer : V) (tag : Rope) : Option (V × Rope) :=
  match tagVersion S tag with
  | none => none
  | some (tagSpace,v) =>
    if tagSpace ≠ space then none
    else if v ≤ curVer then none
    else if !S.isPreRelease curVer && S.isPreRelease v then none
    else some (v,tag)

def newerVersions (allTags : List Rope) (current : Rope) : List Rope :=
  match tagVersion S current with
  | none => []
  | some (space,curVer) =>
    ((Sorting.descending (allTags.filterMap (candidate S space curVer))).destutter
      fun a b => a.2 ≠ b.2).map Prod.snd

end newer

section listing

/-- The tag has this version, a higher one than the current tag of the same namespace.
A pre-release counts beside a pre-release only. -/
def Newer (current tag : Rope) (v : V) : Prop :=
  ∃ space curVer, tagVersion S current = some (space,curVer) ∧ tagVersion S tag = some (space,v) ∧
    curVer < v ∧ (S.isPreRelease v = true → S.isPreRelease curVer = true)

/-- The newer tags, one for each version, the highest first, in whatever order the
tags come. -/
structure Listed (allTags : List Rope) (current : Rope) (tags : List Rope) : Prop where
  mem : ∀ tag, tag ∈ tags ↔ tag ∈ allTags ∧ ∃ v, Newer S current tag v
  descending : tags.Pairwise fun a b => ∀ v w, Newer S current a v → Newer S current b w → w < v
  unordered : ∀ tags', tags'.Perm allTags → newerVersions S tags' current = tags

/-- No two newer tags have the same version. -/
def SpelledOnce (allTags : List Rope) (current : Rope) : Prop :=
  ∀ a ∈ allTags, ∀ b ∈ allTags, ∀ v, Newer S current a v → Newer S current b v → a = b

variable {S} {allTags : List Rope} {current : Rope}

theorem candidate_eq_some {space : Rope} {curVer v : V} {tag tag' : Rope} :
    candidate S space curVer tag = some (v,tag') ↔ tag' = tag ∧ tagVersion S tag = some (space,v) ∧
      curVer < v ∧ (S.isPreRelease v = true → S.isPreRelease curVer = true) := by
  unfold candidate
  split
  · rename_i hnone
    rw [hnone]
    simp
  · rename_i tagSpace w hsome
    rw [hsome]
    by_cases hspace : tagSpace = space
    · rw [if_neg (not_not.mpr hspace)]
      by_cases hle : w ≤ curVer
      · rw [if_pos hle]
        constructor
        · intro h
          cases h
        · rintro ⟨-,hv,hlt,-⟩
          cases hv
          exact absurd hle hlt.not_ge
      · rw [if_neg hle]
        by_cases hpre : (!S.isPreRelease curVer && S.isPreRelease w) = true
        · rw [if_pos hpre]
          constructor
          · intro h
            cases h
          · rintro ⟨-,hv,-,hallowed⟩
            cases hv
            simp only [Bool.and_eq_true,Bool.not_eq_true'] at hpre
            rw [hallowed hpre.2] at hpre
            exact absurd hpre.1 (by decide)
        · rw [if_neg hpre]
          constructor
          · intro h
            cases h
            exact ⟨rfl,by rw [hspace],not_le.mp hle,fun hw => by simpa [hw] using hpre⟩
          · rintro ⟨rfl,hv,-⟩
            cases hv
            rfl
    · rw [if_pos hspace]
      simp [hspace]

/-- The candidates, with their versions. -/
theorem newerVersions_eq {space : Rope} {curVer : V}
    (h : tagVersion S current = some (space,curVer)) (allTags : List Rope) :
    newerVersions S allTags current =
      ((Sorting.descending (allTags.filterMap (candidate S space curVer))).destutter
        fun a b => a.2 ≠ b.2).map Prod.snd := by
  rw [newerVersions,h]

theorem mem_candidates {space : Rope} {curVer : V}
    (h : tagVersion S current = some (space,curVer)) {v : V} {tag : Rope} :
    (v,tag) ∈ allTags.filterMap (candidate S space curVer) ↔
      tag ∈ allTags ∧ Newer S current tag v := by
  rw [List.mem_filterMap]
  constructor
  · rintro ⟨tag',hmem,htag⟩
    obtain ⟨rfl,hversion⟩ := candidate_eq_some.mp htag
    exact ⟨hmem,space,curVer,h,hversion⟩
  · rintro ⟨hmem,space',curVer',hcur,hversion⟩
    rw [h] at hcur
    cases hcur
    exact ⟨tag,hmem,candidate_eq_some.mpr ⟨rfl,hversion⟩⟩

theorem mem_newerVersions (allTags : List Rope) (current tag : Rope) :
    tag ∈ newerVersions S allTags current ↔ tag ∈ allTags ∧ ∃ v, Newer S current tag v := by
  cases hcur : tagVersion S current with
  | none =>
    rw [newerVersions,hcur]
    simp [Newer,hcur]
  | some cur =>
    obtain ⟨space,curVer⟩ := cur
    have hdedup : ∀ l : List (V × Rope), (l.destutter fun a b => a.2 ≠ b.2).map Prod.snd =
        (l.map Prod.snd).destutter (· ≠ ·) :=
      fun l => List.map_destutter fun _ _ _ _ => Iff.rfl
    rw [newerVersions_eq hcur,hdedup,
      Sorting.mem_destutter_ne,((Sorting.descending_perm _).map _).mem_iff,List.mem_map]
    constructor
    · rintro ⟨⟨v,tag⟩,hmem,rfl⟩
      exact ⟨((mem_candidates hcur).mp hmem).1,v,((mem_candidates hcur).mp hmem).2⟩
    · rintro ⟨hmem,v,hv⟩
      exact ⟨(v,tag),(mem_candidates hcur).mpr ⟨hmem,hv⟩,rfl⟩

theorem Newer.version_unique {tag : Rope} {v w : V} (hv : Newer S current tag v)
    (hw : Newer S current tag w) : v = w := by
  obtain ⟨_,_,-,hv,-⟩ := hv
  obtain ⟨_,_,-,hw,-⟩ := hw
  rw [hv] at hw
  cases hw
  rfl

theorem descending_of_spelledOnce (h : SpelledOnce S allTags current) :
    (newerVersions S allTags current).Pairwise fun a b =>
      ∀ v w, Newer S current a v → Newer S current b w → w < v := by
  cases hcur : tagVersion S current with
  | none =>
    rw [newerVersions,hcur]
    exact .nil
  | some cur =>
    obtain ⟨space,curVer⟩ := cur
    have hcandidates : ∀ a ∈ allTags.filterMap (candidate S space curVer),
        ∀ b ∈ allTags.filterMap (candidate S space curVer), a.1 = b.1 → a.2 = b.2 := by
      intro a ha b hb hab
      have ha := (mem_candidates hcur).mp ha
      have hb := (mem_candidates hcur).mp hb
      exact h a.2 ha.1 b.2 hb.1 a.1 ha.2 (hab ▸ hb.2)
    rw [newerVersions_eq hcur,List.pairwise_map]
    have hsub := List.destutter_sublist (fun a b : V × Rope => a.2 ≠ b.2)
      (Sorting.descending (allTags.filterMap (candidate S space curVer)))
    refine (Sorting.destutter_strict hcandidates).imp_of_mem fun {a b} ha hb hlt v w hv hw => ?_
    have hmem : ∀ c ∈ (Sorting.descending (allTags.filterMap
        (candidate S space curVer))).destutter fun a b => a.2 ≠ b.2, Newer S current c.2 c.1 :=
      fun c hc => ((mem_candidates hcur).mp
        ((Sorting.descending_perm _).mem_iff.mp (hsub.subset hc))).2
    rw [hv.version_unique (hmem a ha),hw.version_unique (hmem b hb)]
    exact hlt

/-- Two lists of the same newer tags, both strictly descending, are the same. -/
theorem eq_of_descending {l l' : List Rope}
    (hnewer : ∀ tag ∈ l, ∃ v, Newer S current tag v) (hmem : ∀ tag, tag ∈ l ↔ tag ∈ l')
    (h : l.Pairwise fun a b => ∀ v w, Newer S current a v → Newer S current b w → w < v)
    (h' : l'.Pairwise fun a b => ∀ v w, Newer S current a v → Newer S current b w → w < v) :
    l = l' := by
  have hirrefl : ∀ {m : List Rope}, (∀ tag ∈ m, tag ∈ l) →
      m.Pairwise (fun a b => ∀ v w, Newer S current a v → Newer S current b w → w < v) →
      m.Nodup := by
    intro m hm hpairwise
    refine hpairwise.imp_of_mem fun {a b} ha _ hab heq => ?_
    subst heq
    obtain ⟨v,hv⟩ := hnewer a (hm a ha)
    exact lt_irrefl v (hab v v hv hv)
  have hperm : l.Perm l' := (List.perm_ext_iff_of_nodup (hirrefl (fun _ h => h) h)
    (hirrefl (fun tag => (hmem tag).mpr) h')).mpr hmem
  refine hperm.eq_of_pairwise (fun a b ha hb hab hba => ?_) h h'
  obtain ⟨v,hv⟩ := hnewer a ha
  obtain ⟨w,hw⟩ := hnewer b ((hmem b).mpr hb)
  exact absurd (hab v w hv hw) (hba w v hw hv).not_gt

/-- The newer tags are listed as they should be exactly when no version among them is
spelled in two ways. -/
theorem newerVersions_listed_iff (S : VersionReader V) (allTags : List Rope) (current : Rope) :
    Listed S allTags current (newerVersions S allTags current) ↔ SpelledOnce S allTags current := by
  constructor
  · intro h a ha b hb v hva hvb
    by_contra hne
    have hmem : ∀ tag, tag ∈ allTags → Newer S current tag v →
        tag ∈ newerVersions S allTags current := fun tag htag hv => (h.mem tag).mpr ⟨htag,v,hv⟩
    have hpairwise : (newerVersions S allTags current).Pairwise fun a b =>
        ¬(Newer S current a v ∧ Newer S current b v) := by
      refine h.descending.imp ?_
      rintro a b hab ⟨hva,hvb⟩
      exact lt_irrefl v (hab v v hva hvb)
    have hsymm : Std.Symm fun a b : Rope => ¬(Newer S current a v ∧ Newer S current b v) :=
      ⟨fun _ _ hab hv => hab hv.symm⟩
    exact hpairwise.forall (hmem a ha hva) (hmem b hb hvb) hne ⟨hva,hvb⟩
  · intro h
    refine ⟨mem_newerVersions allTags current,descending_of_spelledOnce h,fun tags' hperm => ?_⟩
    have h' : SpelledOnce S tags' current := fun a ha b hb =>
      h a (hperm.mem_iff.mp ha) b (hperm.mem_iff.mp hb)
    refine eq_of_descending (fun tag htag => ((mem_newerVersions _ _ _).mp htag).2)
      (fun tag => ?_) (descending_of_spelledOnce h') (descending_of_spelledOnce h)
    rw [mem_newerVersions,mem_newerVersions,hperm.mem_iff]

/-- Releases with three numbers. -/
def releaseReader : VersionReader (ℕ ×ₗ ℕ ×ₗ ℕ) where
  parse s := match s.splitOn '.' with
    | [major,minor,patch] =>
      if [major,minor,patch].all fun n => SemVer.isNumeric n && (n.head? ≠ some '0' || n.length = 1)
      then some (toLex (SemVer.digitsValue major,
        toLex (SemVer.digitsValue minor,SemVer.digitsValue patch)))
      else none
    | _ => none
  isPreRelease _ := false

def twoSpellings : List Rope := ["v2.0.0".toList,"2.0.0".toList,"v2.0.0".toList]

/-- The tag in the middle keeps the two others apart, so the first one is listed twice. -/
theorem spellings_listed_apart : ¬Listed releaseReader twoSpellings "v1.0.0".toList
    (newerVersions releaseReader twoSpellings "v1.0.0".toList) := by
  intro h
  have hlist : newerVersions releaseReader twoSpellings "v1.0.0".toList = twoSpellings := by
    decide +kernel
  have hcur : tagVersion releaseReader "v1.0.0".toList = some ([],toLex (1,toLex (0,0))) := by
    decide +kernel
  have htag : tagVersion releaseReader "v2.0.0".toList = some ([],toLex (2,toLex (0,0))) := by
    decide +kernel
  have htag' : tagVersion releaseReader "2.0.0".toList = some ([],toLex (2,toLex (0,0))) := by
    decide +kernel
  have hlt : (toLex (1,toLex (0,0)) : ℕ ×ₗ ℕ ×ₗ ℕ) < toLex (2,toLex (0,0)) := by decide
  have hdescending := h.descending
  rw [hlist,twoSpellings,List.pairwise_cons] at hdescending
  exact lt_irrefl _ (hdescending.1 _ List.mem_cons_self _ _
    ⟨[],_,hcur,htag,hlt,fun h => h⟩ ⟨[],_,hcur,htag',hlt,fun h => h⟩)

end listing

end GitRefs
end TerraformLs
