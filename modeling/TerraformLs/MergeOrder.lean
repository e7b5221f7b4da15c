import Mathlib.Algebra.Group.Nat.Even
import TerraformLs.MergedLists

/-! The order in which observations are merged. A conflict leaves an unknown type behind,
which the next observation replaces: the order does not matter where there is no conflict,
or where the conflicts cancel out. -/
namespace TerraformLs
namespace VariableType

open Merging

/-- The merge of an empty list is unknown. -/
def mergeAll (l : List VariableType) : VariableType := l.foldl mergeTypes .any

theorem mergeObservations_eq (l : List VariableType) :
    mergeObservations l = if l = [] then none else some (mergeAll l) := by
  cases l with
  | nil => rfl
  | cons t l => simp [mergeObservations,mergeAll]

theorem mergedInto_mergeAll (l : List VariableType) : MergedInto l (mergeAll l) := merged_foldl l

/-- Every order of the observations gives the same type. -/
def OrderIndependent (l : List VariableType) : Prop :=
  ∀ l', l'.Perm l → mergeObservations l' = mergeObservations l ∧
    mergedAssignedType l' = mergedAssignedType l

theorem orderIndependent_iff {l : List VariableType} :
    OrderIndependent l ↔ ∀ l', l'.Perm l → mergeAll l' = mergeAll l := by
  constructor
  · intro h l' hperm
    have hmerge := (h l' hperm).1
    rw [mergeObservations_eq,mergeObservations_eq] at hmerge
    by_cases hnil : l = []
    · subst hnil
      rw [hperm.eq_nil]
    · have hnil' : l' ≠ [] := fun h => hnil (h ▸ hperm).nil_eq.symm
      rw [if_neg hnil,if_neg hnil'] at hmerge
      exact Option.some.inj hmerge
  · intro h l' hperm
    have hmerge : mergeObservations l' = mergeObservations l := by
      rw [mergeObservations_eq,mergeObservations_eq,h l' hperm]
      by_cases hnil : l = []
      · subst hnil
        rw [hperm.eq_nil]
      · have hnil' : l' ≠ [] := fun h => hnil (h ▸ hperm).nil_eq.symm
        rw [if_neg hnil,if_neg hnil']
    exact ⟨hmerge,by rw [mergedAssignedType,hmerge,← mergedAssignedType]⟩

/-- Two known types of different kinds whose elements are not pooled. -/
def Conflict (a b : VariableType) : Prop :=
  ∃ k k', a.kind = some k ∧ b.kind = some k' ∧ k ≠ k' ∧ ¬ k.Pools k'

theorem Conflict.merge {a b : VariableType} (h : Conflict a b) : mergeTypes a b = .any := by
  obtain ⟨k,k',ha,hb,hne,hpools⟩ := h
  exact merge_conflict ha hb hne hpools

theorem Conflict.symm {a b : VariableType} (h : Conflict a b) : Conflict b a := by
  obtain ⟨k,k',ha,hb,hne,hpools⟩ := h
  exact ⟨k',k,hb,ha,hne.symm,fun h => hpools h.symm⟩

def known (l : List VariableType) : List VariableType := l.filter fun t => !t.isAny

theorem isAny_iff {t : VariableType} : t.isAny ↔ t = .any := by cases t <;> simp [isAny]

theorem mem_known {l : List VariableType} {t : VariableType} : t ∈ known l ↔ t ∈ l ∧ t ≠ .any := by
  rw [known,List.mem_filter,Bool.not_eq_true',← Bool.not_eq_true,isAny_iff]

theorem known_append (l l' : List VariableType) : known (l ++ l') = known l ++ known l' :=
  List.filter_append l l'

theorem known_perm {l l' : List VariableType} (h : l.Perm l') : (known l).Perm (known l') :=
  h.filter _

theorem pairwise_conflict_perm {l l' : List VariableType} (h : l.Perm l') :
    (known l).Pairwise Conflict ↔ (known l').Pairwise Conflict :=
  (known_perm h).pairwise_iff fun h => h.symm

/-- Types that go together: of one kind with types below that go together, of kinds whose
elements are pooled and go together, or two types in conflict. -/
inductive Join : List VariableType → Prop
  | same {l : List VariableType} (k : Kind) (hkind : ∀ t ∈ l, OfKind k t)
      (h : ∀ step, children step l ≠ [] → Join (children step l)) : Join l
  | pooled {l : List VariableType} (hl : Poolable l) (h : Join (pool l)) : Join l
  | pair {l : List VariableType} (hlen : (known l).length = 2)
      (h : (known l).Pairwise Conflict) : Join l

theorem Pooled.unknown_iff {l : List VariableType} {a : VariableType} (h : Pooled l a) :
    a = .any ↔ ∀ t ∈ l, t = .any := by
  cases h with
  | unknown h => exact iff_of_true rfl h
  | list hspread _ =>
    exact iff_of_false (by simp) fun h =>
      hspread.not_ofKind (k:=.set) (by simp) fun t ht => .inl (h t ht)
  | set _ hset _ =>
    obtain ⟨s,hs,hisSet⟩ := hset
    exact iff_of_false (by simp) fun h => by
      rw [h s hs] at hisSet
      cases hisSet
  | tuple _ hknown _ =>
    obtain ⟨t,ht,hne⟩ := hknown
    exact iff_of_false (by simp) fun h => hne (h t ht)

/-- A list comes from types that are spread, anything else from types of its own kind. -/
theorem Pooled.of_kind {l : List VariableType} {a : VariableType} {k : Kind} (h : Pooled l a)
    (hk : a.kind = some k) : (k = .list ∧ Spread l) ∨ (k ≠ .list ∧ ∀ t ∈ l, OfKind k t) := by
  cases h with
  | unknown _ => cases hk
  | list hspread _ =>
    cases hk
    exact .inl ⟨rfl,hspread⟩
  | set hkind _ _ =>
    cases hk
    exact .inr ⟨by simp,hkind⟩
  | tuple hkind _ _ =>
    cases hk
    exact .inr ⟨by simp,hkind⟩

theorem Pooled.kind_eq {l : List VariableType} {a b : VariableType} (ha : Pooled l a)
    (hb : Pooled l b) : a.kind = b.kind := by
  have hany : a = .any ↔ b = .any := ha.unknown_iff.trans hb.unknown_iff.symm
  cases hka : a.kind with
  | none => rw [hany.mp (kind_eq_none.mp hka),kind]
  | some k =>
    cases hkb : b.kind with
    | none =>
      rw [hany.mpr (kind_eq_none.mp hkb)] at hka
      cases hka
    | some k' =>
      rcases ha.of_kind hka with ⟨rfl,hspread⟩ | ⟨hne,hkind⟩
      · rcases hb.of_kind hkb with ⟨rfl,-⟩ | ⟨hne,hkind⟩
        · rfl
        · exact absurd hkind (hspread.not_ofKind hne)
      · rcases hb.of_kind hkb with ⟨-,hspread⟩ | ⟨-,hkind'⟩
        · exact absurd hkind (hspread.not_ofKind hne)
        · have hknown : ¬ ∀ t ∈ l, t = .any := fun h => by
            rw [ha.unknown_iff.mpr h] at hka
            cases hka
          push Not at hknown
          obtain ⟨t,ht,hneany⟩ := hknown
          exact ((hkind t ht).resolve_left hneany).symm.trans
            ((hkind' t ht).resolve_left hneany)

/-- Poolable types are merged in one way only if their elements are. -/
theorem confluent_pooled {l : List VariableType} (hkeyed : ∀ t ∈ l, t.Keyed) (hl : Poolable l)
    (h : Confluent mergeTypes .any (pool l)) : Confluent mergeTypes .any l := by
  intro part hpart a b ha hb
  have hkeyed' : ∀ t ∈ part, t.Keyed := fun t ht => hkeyed t (hpart.subset ht)
  have hpool := h.subperm (pool_subperm hpart)
  have hpa := merged_pooled ha hkeyed' (hl.subperm hpart)
  have hpb := merged_pooled hb hkeyed' (hl.subperm hpart)
  have hkind := hpa.kind_eq hpb
  have hself := List.Subperm.refl (pool part)
  cases hpa with
  | unknown _ => exact (kind_eq_none.mp hkind.symm).symm
  | list _ hma =>
    cases hpb <;> cases hkind
    rename_i hmb
    rw [hpool _ hself _ _ hma hmb]
  | set _ _ hma =>
    cases hpb <;> cases hkind
    rename_i hmb
    rw [hpool _ hself _ _ hma hmb]
  | @tuple items htuple _ hma =>
    cases hpb with
    | @tuple items' _ _ hmb =>
      have hlen : items'.length = items.length := by simpa [kind] using hkind.symm
      have hcolumns : ∀ c ∈ columns items.length part, c.Subperm (pool part) := fun c hc =>
        ((List.sublist_flatten_of_mem hc).subperm).trans (columns_flatten htuple).subperm
      have hunique : ∀ cs : List (List VariableType), (∀ c ∈ cs, c.Subperm (pool part)) →
          ∀ xs ys, List.Forall₂ MergedInto cs xs → List.Forall₂ MergedInto cs ys → xs = ys := by
        intro cs
        induction cs with
        | nil =>
          intro _ xs ys hxs hys
          cases hxs
          cases hys
          rfl
        | cons c cs ih =>
          intro hcs xs ys hxs hys
          obtain ⟨hc,hrest⟩ := List.forall_mem_cons.mp hcs
          cases hxs with
          | cons hx hxs =>
            cases hys with
            | cons hy hys => rw [hpool c hc _ _ hx hy,ih hrest _ _ hxs hys]
      exact congrArg tuple (hunique _ hcolumns _ _ (merged_columns hkeyed' htuple hma rfl)
        (merged_columns hkeyed' htuple hmb hlen))
    | _ => cases hkind

/-- Two types in conflict, and what is merged from them. -/
theorem merged_pair {l : List VariableType} {a : VariableType} (h : MergedInto l a)
    (hlen : (known l).length ≤ 2) (hconflict : (known l).Pairwise Conflict) :
    (known l = [] ∧ a = .any) ∨ known l = [a] ∨ ((known l).length = 2 ∧ a = .any) := by
  induction h with
  | nil => exact .inl ⟨rfl,rfl⟩
  | single t =>
    by_cases ht : t = .any
    · exact .inl ⟨by simp [known,ht,isAny],ht⟩
    · have hknown : t.isAny = false := by rwa [← Bool.not_eq_true,isAny_iff]
      exact .inr (.inl (by simp [known,hknown]))
  | @merge l l' a b _ _ iha ihb =>
    rw [known_append] at hlen hconflict ⊢
    obtain ⟨hpl,hpl',hcross⟩ := List.pairwise_append.mp hconflict
    rw [List.length_append] at hlen
    have hpa := iha (by omega) hpl
    have hpb := ihb (by omega) hpl'
    rcases hpa with ⟨hka,rfl⟩ | hka | ⟨hka,rfl⟩
    · rwa [hka,mergeTypes_any_left,List.nil_append]
    · rcases hpb with ⟨hkb,rfl⟩ | hkb | ⟨hkb,-⟩
      · rw [hkb,mergeTypes_any_right,List.append_nil]
        exact .inr (.inl hka)
      · refine .inr (.inr ⟨by rw [hka,hkb]; rfl,Conflict.merge (hcross a ?_ b ?_)⟩)
        · rw [hka]
          exact List.mem_cons_self
        · rw [hkb]
          exact List.mem_cons_self
      · rw [hka,hkb,List.length_singleton] at hlen
        omega
    · rcases hpb with ⟨hkb,rfl⟩ | hkb | ⟨hkb,-⟩
      · rw [hkb,List.append_nil,mergeTypes_self]
        exact .inr (.inr ⟨hka,rfl⟩)
      · rw [hka,hkb,List.length_singleton] at hlen
        omega
      · omega
  | perm hperm _ ih =>
    have hknown := known_perm hperm
    rw [← pairwise_conflict_perm hperm] at hconflict
    rw [← hknown.length_eq] at hlen ⊢
    rcases ih hlen hconflict with ⟨hk,ha⟩ | hk | ⟨hk,ha⟩
    · rw [hk] at hknown
      exact .inl ⟨hknown.nil_eq.symm,ha⟩
    · rw [hk] at hknown
      exact .inr (.inl (List.perm_singleton.mp hknown.symm))
    · exact .inr (.inr ⟨hk,ha⟩)

theorem conflict_of_subperm {l part : List VariableType} (hpart : part.Subperm l)
    (h : (known l).Pairwise Conflict) :
    (known part).length ≤ (known l).length ∧ (known part).Pairwise Conflict := by
  obtain ⟨m,hperm,hm⟩ := hpart
  have hsub : (known m).Sublist (known l) := hm.filter _
  rw [← (known_perm hperm).length_eq,← pairwise_conflict_perm hperm]
  exact ⟨hsub.length_le,h.sublist hsub⟩

theorem confluent_pair {l : List VariableType} (hlen : (known l).length = 2)
    (h : (known l).Pairwise Conflict) : Confluent mergeTypes .any l := by
  intro part hpart a b ha hb
  obtain ⟨hlen',hconflict⟩ := conflict_of_subperm hpart h
  rw [hlen] at hlen'
  rcases merged_pair ha hlen' hconflict with ⟨hka,rfl⟩ | hka | ⟨hka,rfl⟩ <;>
    rcases merged_pair hb hlen' hconflict with ⟨hkb,rfl⟩ | hkb | ⟨hkb,rfl⟩ <;>
    first
    | rfl
    | simp_all

theorem Join.confluent {l : List VariableType} (h : Join l) (hkeyed : ∀ t ∈ l, t.Keyed) :
    Confluent mergeTypes .any l := by
  induction h with
  | same k hkind _ ih =>
    exact confluent_of_kind hkeyed hkind fun step hne => ih step hne (keyed_children hkeyed step)
  | pooled hl _ ih => exact confluent_pooled hkeyed hl (ih (keyed_pool hkeyed))
  | pair hlen h => exact confluent_pair hlen h

/-! Conflicts that cancel out. -/

theorem mergeAll_concat (l : List VariableType) (t : VariableType) :
    mergeAll (l ++ [t]) = mergeTypes (mergeAll l) t := by
  simp [mergeAll]

theorem known_singleton {t : VariableType} (h : t ≠ .any) : known [t] = [t] := by
  have hknown : t.isAny = false := by rwa [← Bool.not_eq_true,isAny_iff]
  simp [known,hknown]

/-- Types that are all in conflict with each other cancel two by two. -/
theorem mergeAll_of_conflict {l : List VariableType} (h : (known l).Pairwise Conflict) :
    mergeAll l = if Even (known l).length then .any else (known l).getLast?.getD .any := by
  induction l using List.reverseRecOn with
  | nil => rfl
  | append_singleton l t ih =>
    rw [known_append] at h ⊢
    obtain ⟨hl,-,hcross⟩ := List.pairwise_append.mp h
    rw [mergeAll_concat,ih hl]
    by_cases ht : t = .any
    · simp [ht,known,isAny]
    rw [known_singleton ht] at hcross ⊢
    rw [List.length_append,List.length_singleton]
    by_cases heven : Even (known l).length
    · simp [heven,Nat.even_add_one]
    · rw [if_neg heven,if_pos (Nat.even_add_one.mpr heven)]
      rcases List.eq_nil_or_concat (known l) with hnil | ⟨init,s,hs⟩
      · rw [hnil] at heven
        exact absurd Even.zero heven
      · have hconflict : Conflict s t := hcross s (by rw [hs]; simp) t List.mem_cons_self
        rw [hs,List.concat_eq_append,List.getLast?_concat]
        exact hconflict.merge

/-! Types of one kind. -/

theorem children_concat (step : TypeStep) (l : List VariableType) (t : VariableType) :
    children step (l ++ [t]) = children step l ++ (child step t).toList := by
  rw [children_append,children,children,List.filterMap_cons]
  cases child step t <;> rfl

/-- Below the merged type stand the types below, merged in their order. -/
theorem child_mergeAll {k : Kind} {l : List VariableType} (hkeyed : ∀ t ∈ l, t.Keyed)
    (hkind : ∀ t ∈ l, OfKind k t) (step : TypeStep) : child step (mergeAll l) =
      if children step l = [] then none else some (mergeAll (children step l)) := by
  induction l using List.reverseRecOn with
  | nil => exact child_any step
  | append_singleton l t ih =>
    obtain ⟨hkl,hkt⟩ := List.forall_mem_append.mp hkeyed
    obtain ⟨hl,ht⟩ := List.forall_mem_append.mp hkind
    have hmerged := mergedInto_mergeAll l
    rw [mergeAll_concat,child_mergeTypes (keyed_merged hmerged hkl) (mergedOfKind hmerged hkl hl).kind
      (ht t List.mem_cons_self),ih hkl hl,children_concat]
    cases child step t with
    | none =>
      rw [Option.toList_none,List.append_nil]
      split_ifs <;> rfl
    | some c =>
      have hne : children step l ++ [c] ≠ [] := by simp
      rw [Option.toList_some,if_neg hne,mergeAll_concat]
      by_cases hnil : children step l = []
      · rw [if_pos hnil,hnil]
        simp [mergeOption,mergeAll]
      · rw [if_neg hnil]
        rfl

/-- Observations whose order does not matter: they go together, they are all in conflict
and cancel out, or they are of one kind and their order does not matter below. -/
inductive Settled : List VariableType → Prop
  | join {l : List VariableType} (h : Join l) : Settled l
  | cancel {l : List VariableType} (heven : Even (known l).length)
      (h : (known l).Pairwise Conflict) : Settled l
  | same {l : List VariableType} (k : Kind) (hkind : ∀ t ∈ l, OfKind k t)
      (h : ∀ step, children step l ≠ [] → Settled (children step l)) : Settled l

theorem Settled.mergeAll_eq {l : List VariableType} (h : Settled l) (hkeyed : ∀ t ∈ l, t.Keyed)
    {l' : List VariableType} (hperm : l'.Perm l) : mergeAll l' = mergeAll l := by
  induction h generalizing l' with
  | join h => exact (h.confluent hkeyed).foldl_eq hperm
  | cancel heven h =>
    have heven' : Even (known l').length := by rwa [(known_perm hperm).length_eq]
    rw [mergeAll_of_conflict h,mergeAll_of_conflict ((pairwise_conflict_perm hperm).mpr h),
      if_pos heven,if_pos heven']
  | @same l k hkind _ ih =>
    have hkeyed' : ∀ t ∈ l', t.Keyed := fun t ht => hkeyed t (hperm.subset ht)
    have hkind' : ∀ t ∈ l', OfKind k t := fun t ht => hkind t (hperm.subset ht)
    have hmerged := mergedOfKind (mergedInto_mergeAll l) hkeyed hkind
    have hmerged' := mergedOfKind (.perm hperm (mergedInto_mergeAll l')) hkeyed hkind
    refine ext_of_kind (keyed_merged (mergedInto_mergeAll l') hkeyed')
      (keyed_merged (mergedInto_mergeAll l) hkeyed) ?_ fun step => ?_
    · have hany := hmerged'.unknown.trans hmerged.unknown.symm
      rcases hmerged'.kind with hk' | hk'
      · rw [hk',hany.mp hk']
      rcases hmerged.kind with hk | hk
      · rw [hk,hany.mpr hk]
      · rw [hk,hk']
    · have hstep : (children step l').Perm (children step l) := hperm.filterMap _
      rw [child_mergeAll hkeyed' hkind',child_mergeAll hkeyed hkind]
      by_cases hnil : children step l = []
      · rw [hnil] at hstep
        rw [if_pos hnil,if_pos hstep.eq_nil]
      · have hnil' : children step l' ≠ [] := fun h => hnil (h ▸ hstep).nil_eq.symm
        rw [if_neg hnil,if_neg hnil',ih step hnil (keyed_children hkeyed step) hstep]

/-! Observations without pooled elements. -/

/-- The types a path below those of a list. -/
def descend : List TypeStep → List VariableType → List VariableType
  | [], l => l
  | step::path, l => descend path (children step l)

/-- No two types have elements that would be pooled. -/
def Separate (l : List VariableType) : Prop := ∀ a ∈ l, ∀ b ∈ l, ∀ k k',
  a.kind = some k → b.kind = some k' → ¬ k.Pools k'

/-- Nowhere are elements pooled: tuples at one place have one length, and neither lists
nor sets beside them. -/
def Unmixed (l : List VariableType) : Prop := ∀ path, Separate (descend path l)

theorem Unmixed.children {l : List VariableType} (h : Unmixed l) (step : TypeStep) :
    Unmixed (children step l) :=
  fun path => h (step :: path)

theorem depth_child {t c : VariableType} {step : TypeStep} (h : child step t = some c) :
    c.depth < t.depth := by
  cases t <;> cases step <;> try cases h
  · exact Nat.lt_succ_self _
  · exact Nat.lt_succ_self _
  · exact Nat.lt_succ_self _
  · exact Nat.lt_succ_of_le (depth_le_of_mem (List.mem_of_getElem? h))
  · exact Nat.lt_succ_of_le (depth_le_of_mem_fields (mem_of_getField h))

def kinds (l : List VariableType) : List Kind := l.filterMap kind

/-- The kind that is left when the kinds cancel. -/
theorem kind_mergeAll {l : List VariableType} (hkeyed : ∀ t ∈ l, t.Keyed) (hl : Separate l) :
    (mergeAll l).kind = kept (kinds l) := by
  induction l using List.reverseRecOn with
  | nil => rfl
  | append_singleton l t ih =>
    obtain ⟨hkl,hkt⟩ := List.forall_mem_append.mp hkeyed
    have hleft : ∀ a ∈ l, a ∈ l ++ [t] := fun a ha => List.mem_append_left _ ha
    have hkind := ih hkl fun a ha b hb => hl a (hleft a ha) b (hleft b hb)
    have hsplit : kinds (l ++ [t]) = kinds l ++ kinds [t] := List.filterMap_append
    rw [mergeAll_concat,hsplit]
    cases hk : t.kind with
    | none =>
      obtain rfl := kind_eq_none.mp hk
      have hnone : kinds [.any] = [] := rfl
      rw [mergeTypes_any_right,hkind,hnone,List.append_nil]
    | some k =>
      have hone : kinds [t] = [k] := by simp [kinds,hk]
      rw [hone,kept_concat,← hkind]
      cases hall : (mergeAll l).kind with
      | none => rw [kind_eq_none.mp hall,mergeTypes_any_left,hk,keep]
      | some k' =>
        rw [keep]
        split_ifs with heq
        · subst heq
          exact (merge_same_kind (keyed_merged (mergedInto_mergeAll l) hkl) hall hk).1
        · rw [hkind] at hall
          obtain ⟨s,hs,hks⟩ := List.mem_filterMap.mp (mem_of_kept hall)
          rw [← hkind] at hall
          rw [merge_conflict hall hk heq (hl s (hleft s hs) t (by simp) _ _ hks hk),kind]

theorem pairwise_conflict_of_nodup {l : List VariableType} (hl : Separate l)
    (h : (kinds l).Nodup) : (known l).Pairwise Conflict := by
  induction l with
  | nil => exact List.Pairwise.nil
  | cons t l ih =>
    have hrest : Separate l := fun a ha b hb =>
      hl a (List.mem_cons_of_mem t ha) b (List.mem_cons_of_mem t hb)
    cases hk : t.kind with
    | none =>
      obtain rfl := kind_eq_none.mp hk
      exact ih hrest h
    | some k =>
      have hne : t ≠ .any := fun hany => by
        rw [hany] at hk
        cases hk
      rw [kinds,List.filterMap_cons_some hk] at h
      obtain ⟨hfresh,hnodup⟩ := List.nodup_cons.mp h
      have hsplit : known (t :: l) = t :: known l := by
        have hone := known_append [t] l
        rwa [known_singleton hne] at hone
      rw [hsplit]
      refine List.pairwise_cons.mpr ⟨fun s hs => ?_,ih hrest hnodup⟩
      obtain ⟨hs,hsne⟩ := mem_known.mp hs
      cases hks : s.kind with
      | none => exact absurd (kind_eq_none.mp hks) hsne
      | some k' =>
        exact ⟨k,k',hk,hks,fun heq => hfresh (heq ▸ List.mem_filterMap.mpr ⟨s,hs,hks⟩),
          hl t List.mem_cons_self s (List.mem_cons_of_mem t hs) _ _ hk hks⟩

theorem length_kinds (l : List VariableType) : (kinds l).length = (known l).length := by
  induction l with
  | nil => rfl
  | cons t l ih =>
    cases hk : t.kind with
    | none =>
      obtain rfl := kind_eq_none.mp hk
      exact ih
    | some k =>
      have hne : t ≠ .any := fun hany => by
        rw [hany] at hk
        cases hk
      have hsplit := known_append [t] l
      rw [known_singleton hne,List.singleton_append,List.singleton_append] at hsplit
      rw [kinds,List.filterMap_cons_some hk,hsplit,List.length_cons,List.length_cons,← kinds,ih]

/-- Without pooled elements, an order that does not matter is a settled one. -/
theorem settled_of_mergeAll_eq {d : ℕ} {l : List VariableType} (hd : ∀ t ∈ l, t.depth < d)
    (hkeyed : ∀ t ∈ l, t.Keyed) (hl : Unmixed l)
    (h : ∀ l', l'.Perm l → mergeAll l' = mergeAll l) : Settled l := by
  induction d generalizing l with
  | zero =>
    have hnil : l = [] := List.eq_nil_iff_forall_not_mem.mpr fun t ht =>
      absurd (hd t ht) (Nat.not_lt_zero _)
    subst hnil
    exact .cancel Even.zero List.Pairwise.nil
  | succ d ih =>
    have hkept : ∀ ks, ks.Perm (kinds l) → kept ks = kept (kinds l) := by
      intro ks hks
      obtain ⟨l',hperm,rfl⟩ := exists_perm_filterMap kind hks
      have hkeyed' : ∀ t ∈ l', t.Keyed := fun t ht => hkeyed t (hperm.subset ht)
      have hl' : Separate l' := fun a ha b hb => hl [] a (hperm.subset ha) b (hperm.subset hb)
      rw [← kinds,← kind_mergeAll hkeyed' hl',← kind_mergeAll hkeyed (hl []),h l' hperm]
    rcases eq_or_cancel hkept with hone | ⟨hnodup,heven⟩
    · obtain ⟨k,hkind⟩ : ∃ k, ∀ t ∈ l, OfKind k t := by
        cases hks : kinds l with
        | nil =>
          refine ⟨.list,fun t ht => .inl (kind_eq_none.mp ?_)⟩
          exact List.filterMap_eq_nil_iff.mp hks t ht
        | cons k ks =>
          refine ⟨k,fun t ht => ?_⟩
          cases hk : t.kind with
          | none => exact .inl (kind_eq_none.mp hk)
          | some k' =>
            have hmem : k' ∈ kinds l := List.mem_filterMap.mpr ⟨t,ht,hk⟩
            exact .inr (hk.trans (congrArg some (hone k' hmem k (hks ▸ List.mem_cons_self))))
      refine .same k hkind fun step hne => ?_
      refine ih (fun c hc => ?_) (keyed_children hkeyed step) (hl.children step) fun p hp => ?_
      · obtain ⟨t,ht,hchild⟩ := List.mem_filterMap.mp hc
        exact (depth_child hchild).trans_le (Nat.le_of_lt_succ (hd t ht))
      · obtain ⟨l',hperm,rfl⟩ := exists_perm_filterMap (child step) hp
        have hkeyed' : ∀ t ∈ l', t.Keyed := fun t ht => hkeyed t (hperm.subset ht)
        have hkind' : ∀ t ∈ l', OfKind k t := fun t ht => hkind t (hperm.subset ht)
        have hchild := congrArg (child step) (h l' hperm)
        have hne' : children step l' ≠ [] := fun hnil => hne (by
          have hperm' : (children step l').Perm (children step l) := hp
          rw [hnil] at hperm'
          exact hperm'.nil_eq.symm)
        rw [child_mergeAll hkeyed' hkind',child_mergeAll hkeyed hkind,if_neg hne,if_neg hne'] at hchild
        exact Option.some.inj hchild
    · rw [length_kinds] at heven
      exact .cancel heven (pairwise_conflict_of_nodup (hl []) hnodup)

end VariableType
end TerraformLs
