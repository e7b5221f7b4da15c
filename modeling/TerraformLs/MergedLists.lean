import Mathlib.Data.List.Flatten
import Mathlib.Data.List.Perm.Basic
import TerraformLs.MergeLaws

/-! What lists of types are merged into, whatever the order and the brackets: types of
one kind, elements that are pooled, and two types that do not go together. -/
namespace TerraformLs
namespace VariableType

open Merging

/-- The types one step below those of a list. -/
def children (step : TypeStep) (l : List VariableType) : List VariableType :=
  l.filterMap (child step)

/-- The elements of lists, sets and tuples. -/
def pool (l : List VariableType) : List VariableType := l.flatMap elements

/-- A list of types merged in some way. -/
abbrev MergedInto (l : List VariableType) (a : VariableType) : Prop := Merged mergeTypes .any l a

/-- Nothing is known, or the kind. -/
def OfKind (k : Kind) (t : VariableType) : Prop := t = .any ∨ t.kind = some k

theorem children_append (step : TypeStep) (l l' : List VariableType) :
    children step (l ++ l') = children step l ++ children step l' := List.filterMap_append

theorem pool_append (l l' : List VariableType) : pool (l ++ l') = pool l ++ pool l' :=
  List.flatMap_append

theorem pool_eq_nil_of_any {l : List VariableType} (h : ∀ t ∈ l, t = .any) : pool l = [] := by
  rw [pool,List.flatMap_eq_nil_iff]
  intro t ht
  rw [h t ht]
  rfl

theorem children_subperm {l l' : List VariableType} (h : l.Subperm l') (step : TypeStep) :
    (children step l).Subperm (children step l') := by
  obtain ⟨m,hperm,hsub⟩ := h
  exact ⟨children step m,hperm.filterMap _,hsub.filterMap _⟩

theorem pool_subperm {l l' : List VariableType} (h : l.Subperm l') :
    (pool l).Subperm (pool l') := by
  obtain ⟨m,hperm,hsub⟩ := h
  exact ⟨pool m,hperm.flatMap_right _,hsub.flatMap _⟩

theorem keyed_child {t c : VariableType} {step : TypeStep} (ht : t.Keyed)
    (h : child step t = some c) : c.Keyed := by
  cases t <;> cases step <;> try cases h
  · exact ht
  · exact ht
  · exact ht
  · exact keyed_tuple.mp ht c (List.mem_of_getElem? h)
  · exact (keyed_object.mp ht).2 _ (mem_of_getField h)

theorem keyed_children {l : List VariableType} (hl : ∀ t ∈ l, t.Keyed) (step : TypeStep) :
    ∀ t ∈ children step l, t.Keyed := by
  intro t ht
  obtain ⟨s,hs,hchild⟩ := List.mem_filterMap.mp ht
  exact keyed_child (hl s hs) hchild

theorem keyed_pool {l : List VariableType} (hl : ∀ t ∈ l, t.Keyed) : ∀ t ∈ pool l, t.Keyed := by
  intro t ht
  obtain ⟨s,hs,helement⟩ := List.mem_flatMap.mp ht
  have hkeyed := hl s hs
  cases s <;> simp only [elements,List.mem_singleton,List.not_mem_nil] at helement
  · exact helement ▸ hkeyed
  · exact helement ▸ hkeyed
  · exact keyed_tuple.mp hkeyed t helement

theorem keyed_merged {l : List VariableType} {a : VariableType} (h : MergedInto l a)
    (hl : ∀ t ∈ l, t.Keyed) : a.Keyed := by
  induction h with
  | nil => trivial
  | single x => exact hl x List.mem_cons_self
  | merge _ _ iha ihb =>
    obtain ⟨hl,hl'⟩ := List.forall_mem_append.mp hl
    exact keyed_mergeTypes (iha hl) (ihb hl')
  | perm hperm _ ih => exact ih fun t ht => hl t (hperm.subset ht)

/-! Types of one kind. -/

/-- What is below the merged type is merged from what is below the types. -/
def MergedBelow (l : List VariableType) : Option VariableType → Prop
  | none => l = []
  | some c => l ≠ [] ∧ MergedInto l c

theorem MergedBelow.merge {l l' : List VariableType} {x y : Option VariableType}
    (hx : MergedBelow l x) (hy : MergedBelow l' y) : MergedBelow (l ++ l') (mergeOption x y) := by
  cases x with
  | none =>
    obtain rfl : l = [] := hx
    cases y <;> exact hy
  | some a =>
    cases y with
    | none =>
      obtain rfl : l' = [] := hy
      rw [List.append_nil]
      exact hx
    | some b => exact ⟨List.append_ne_nil_of_left_ne_nil hx.1 _,hx.2.merge hy.2⟩

theorem child_any (step : TypeStep) : child step .any = none := by cases step <;> rfl

/-- Merging keeps the kind, step by step below. -/
theorem child_mergeTypes {k : Kind} {a b : VariableType} (hkeyed : a.Keyed) (ha : OfKind k a)
    (hb : OfKind k b) (step : TypeStep) :
    child step (mergeTypes a b) = mergeOption (child step a) (child step b) := by
  rcases ha with rfl | ha
  · rw [mergeTypes_any_left,child_any]
    rfl
  rcases hb with rfl | hb
  · rw [mergeTypes_any_right,child_any]
    cases child step a <;> rfl
  · exact (merge_same_kind hkeyed ha hb).2 step

structure MergedOfKind (k : Kind) (l : List VariableType) (a : VariableType) : Prop where
  kind : OfKind k a
  unknown : a = .any ↔ ∀ t ∈ l, t = .any
  children : ∀ step, MergedBelow (VariableType.children step l) (child step a)

theorem mergedOfKind {k : Kind} {l : List VariableType} {a : VariableType} (h : MergedInto l a)
    (hkeyed : ∀ t ∈ l, t.Keyed) (hkind : ∀ t ∈ l, OfKind k t) : MergedOfKind k l a := by
  induction h with
  | nil => exact ⟨.inl rfl,by simp,fun step => by rw [child_any]; rfl⟩
  | single x =>
    refine ⟨hkind x List.mem_cons_self,by simp,fun step => ?_⟩
    rw [children]
    cases hchild : child step x with
    | none => simp [MergedBelow,hchild]
    | some c => simpa [MergedBelow,hchild] using Merged.single c
  | @merge l l' a b ha hb iha ihb =>
    obtain ⟨hkl,hkl'⟩ := List.forall_mem_append.mp hkeyed
    obtain ⟨hl,hl'⟩ := List.forall_mem_append.mp hkind
    obtain ⟨hka,huna,hchildren⟩ := iha hkl hl
    obtain ⟨hkb,hunb,hchildren'⟩ := ihb hkl' hl'
    refine ⟨?_,?_,fun step => ?_⟩
    · rcases hka with rfl | hka
      · rwa [mergeTypes_any_left]
      rcases hkb with rfl | hkb
      · rw [mergeTypes_any_right]
        exact .inr hka
      · exact .inr (merge_same_kind (keyed_merged ha hkl) hka hkb).1
    · rw [List.forall_mem_append,← huna,← hunb]
      rcases hka with rfl | hka
      · simp
      rcases hkb with rfl | hkb
      · simp
      · have hmerge := (merge_same_kind (keyed_merged ha hkl) hka hkb).1
        have hne : ∀ {t : VariableType}, t.kind = some k → t ≠ .any := fun ht hany => by
          rw [hany] at ht
          cases ht
        simp [hne hmerge,hne hka]
    · rw [child_mergeTypes (keyed_merged ha hkl) hka hkb,children_append]
      exact (hchildren step).merge (hchildren' step)
  | @perm l l' a hperm _ ih =>
    obtain ⟨hka,hun,hchildren⟩ := ih (fun t ht => hkeyed t (hperm.subset ht))
      (fun t ht => hkind t (hperm.subset ht))
    refine ⟨hka,hun.trans ⟨fun h t ht => h t (hperm.symm.subset ht),
      fun h t ht => h t (hperm.subset ht)⟩,fun step => ?_⟩
    have hperm' : (VariableType.children step l).Perm (VariableType.children step l') :=
      hperm.filterMap _
    have hstep := hchildren step
    cases hchild : child step a with
    | none =>
      rw [hchild] at hstep
      have hnil : VariableType.children step l = [] := hstep
      rw [hnil] at hperm'
      exact hperm'.nil_eq.symm
    | some c =>
      rw [hchild] at hstep
      exact ⟨fun hnil => hstep.1 (hnil ▸ hperm').eq_nil,.perm hperm' hstep.2⟩

theorem MergedBelow.unique {l : List VariableType} {x y : Option VariableType}
    (hl : Confluent mergeTypes .any l) (hx : MergedBelow l x) (hy : MergedBelow l y) : x = y := by
  cases x with
  | none =>
    cases y with
    | none => rfl
    | some b => exact absurd hx hy.1
  | some a =>
    cases y with
    | none => exact absurd hy hx.1
    | some b => exact congrArg some (hl l (List.Subperm.refl l) a b hx.2 hy.2)

theorem confluent_nil : Confluent mergeTypes .any [] := by
  have hany : ∀ a, MergedInto [] a → a = .any := fun a h =>
    (mergedOfKind (k:=.list) h (by simp) (by simp)).unknown.mpr (by simp)
  intro part hpart a b ha hb
  obtain rfl := List.subperm_nil.mp hpart
  rw [hany a ha,hany b hb]

/-- Types of one kind are merged in one way only if those below them are. -/
theorem confluent_of_kind {k : Kind} {l : List VariableType} (hkeyed : ∀ t ∈ l, t.Keyed)
    (hkind : ∀ t ∈ l, OfKind k t)
    (h : ∀ step, children step l ≠ [] → Confluent mergeTypes .any (children step l)) :
    Confluent mergeTypes .any l := by
  intro part hpart a b ha hb
  have hkeyed' : ∀ t ∈ part, t.Keyed := fun t ht => hkeyed t (hpart.subset ht)
  have hkind' : ∀ t ∈ part, OfKind k t := fun t ht => hkind t (hpart.subset ht)
  have hmergedA := mergedOfKind ha hkeyed' hkind'
  have hmergedB := mergedOfKind hb hkeyed' hkind'
  refine ext_of_kind (keyed_merged ha hkeyed') (keyed_merged hb hkeyed') ?_ fun step => ?_
  · have hany : a = .any ↔ b = .any := hmergedA.unknown.trans hmergedB.unknown.symm
    rcases hmergedA.kind with rfl | hka
    · rw [hany.mp rfl]
    rcases hmergedB.kind with rfl | hkb
    · rw [hany.mpr rfl]
    · rw [hka,hkb]
  · have hconfluent : Confluent mergeTypes .any (children step l) := by
      by_cases hnil : children step l = []
      · rw [hnil]
        exact confluent_nil
      · exact h step hnil
    exact (hmergedA.children step).unique (hconfluent.subperm (children_subperm hpart step))
      (hmergedB.children step)

/-! Types whose elements are pooled. -/

def isSet : VariableType → Bool
  | .set _ => true
  | _ => false

/-- Lists and tuples, or a single set and tuples of one length: what they are merged
into does not depend on when the first two of them meet. -/
structure Poolable (l : List VariableType) : Prop where
  collections : ∀ t ∈ l, t = .any ∨ t.kind = some .list ∨ t.kind = some .set ∨
    ∃ n, t.kind = some (.tuple n)
  sets : l.countP isSet ≤ 1
  alone : (∃ s ∈ l, isSet s) → ∃ n, ∀ t ∈ l, isSet t ∨ OfKind (.tuple n) t

theorem Poolable.subperm {l l' : List VariableType} (h : Poolable l) (hsub : l'.Subperm l) :
    Poolable l' := by
  refine ⟨fun t ht => h.collections t (hsub.subset ht),(hsub.countP_le isSet).trans h.sets,?_⟩
  rintro ⟨s,hs,hset⟩
  obtain ⟨n,hn⟩ := h.alone ⟨s,hsub.subset hs,hset⟩
  exact ⟨n,fun t ht => hn t (hsub.subset ht)⟩

/-- There is a list among the types, or two whose elements are pooled. -/
def Spread (l : List VariableType) : Prop :=
  (∃ t ∈ l, t.kind = some .list) ∨
    ∃ t ∈ l, ∃ t' ∈ l, ∃ k k', t.kind = some k ∧ t'.kind = some k' ∧ k.Pools k'

theorem Spread.mono {l l' : List VariableType} (h : Spread l) (hsub : ∀ t ∈ l, t ∈ l') :
    Spread l' := by
  rcases h with ⟨t,ht,hk⟩ | ⟨t,ht,t',ht',hk⟩
  · exact .inl ⟨t,hsub t ht,hk⟩
  · exact .inr ⟨t,hsub t ht,t',hsub t' ht',hk⟩

theorem Spread.not_ofKind {l : List VariableType} (h : Spread l) {k : Kind} (hk : k ≠ .list) :
    ¬ ∀ t ∈ l, OfKind k t := by
  intro hall
  have hkind : ∀ t ∈ l, ∀ k', t.kind = some k' → k' = k := fun t ht k' hk' => by
    rcases hall t ht with rfl | ht
    · cases hk'
    · exact Option.some.inj (hk'.symm.trans ht)
  rcases h with ⟨t,ht,hlist⟩ | ⟨t,ht,t',ht',j,j',hj,hj',hpools⟩
  · exact hk (hkind t ht _ hlist).symm
  · obtain rfl := hkind t ht j hj
    obtain rfl := hkind t' ht' j' hj'
    cases j' <;> simp [Kind.Pools] at hpools

/-- The columns of tuples of one length. -/
def columns (n : ℕ) (l : List VariableType) : List (List VariableType) :=
  (List.range n).map fun i => children (.item i) l

theorem flatMap_getElem? (items : List VariableType) :
    (List.range items.length).flatMap (fun i => items[i]?.toList) = items := by
  induction items with
  | nil => rfl
  | cons t items ih =>
    rw [List.length_cons,List.range_succ_eq_map,List.flatMap_cons,List.flatMap_map]
    simpa using ih

theorem columns_flatten {n : ℕ} {l : List VariableType} (h : ∀ t ∈ l, OfKind (.tuple n) t) :
    (columns n l).flatten.Perm (pool l) := by
  induction l with
  | nil => simp [columns,children,pool]
  | cons t l ih =>
    obtain ⟨ht,hl⟩ := List.forall_mem_cons.mp h
    have hsplit : (columns n (t :: l)).flatten =
        (List.range n).flatMap fun i => (child (.item i) t).toList ++ children (.item i) l := by
      rw [columns,← List.flatMap_def]
      refine List.flatMap_congr fun i _ => ?_
      rw [children,List.filterMap_cons]
      cases child (.item i) t <;> rfl
    have hitems : (List.range n).flatMap (fun i => (child (.item i) t).toList) = elements t := by
      rcases ht with rfl | ht
      · simp [child,elements]
      · cases t <;> cases ht
        exact flatMap_getElem? _
    rw [hsplit]
    refine (List.flatMap_append_perm _ _ _).symm.trans ?_
    rw [hitems]
    exact (ih hl).append_left _

theorem merged_columns {n : ℕ} {l items : List VariableType} (hkeyed : ∀ t ∈ l, t.Keyed)
    (hkind : ∀ t ∈ l, OfKind (.tuple n) t) (h : MergedInto l (.tuple items))
    (hlen : items.length = n) : List.Forall₂ MergedInto (columns n l) items := by
  have hmerged := mergedOfKind h hkeyed hkind
  rw [columns,List.forall₂_map_left_iff,List.forall₂_iff_get]
  refine ⟨by rw [List.length_range,hlen],fun i hi hi' => ?_⟩
  have hchild := hmerged.children (.item i)
  rw [child,List.getElem?_eq_getElem hi'] at hchild
  simpa using hchild.2

/-- What poolable types are merged into, by the types themselves. -/
inductive Pooled (l : List VariableType) : VariableType → Prop
  | unknown (h : ∀ t ∈ l, t = .any) : Pooled l .any
  | list {t : VariableType} (hspread : Spread l) (h : MergedInto (pool l) t) : Pooled l (.list t)
  | set {t : VariableType} (hkind : ∀ t ∈ l, OfKind .set t) (hset : ∃ s ∈ l, isSet s)
      (h : MergedInto (pool l) t) : Pooled l (.set t)
  | tuple {items : List VariableType} (hkind : ∀ t ∈ l, OfKind (.tuple items.length) t)
      (hknown : ∃ t ∈ l, t ≠ .any) (h : MergedInto l (.tuple items)) : Pooled l (.tuple items)

/-- The elements of what was merged are merged from those that were pooled. -/
theorem Pooled.elements {l : List VariableType} {a : VariableType} (h : Pooled l a)
    (hkeyed : ∀ t ∈ l, t.Keyed) (hne : a ≠ .any) :
    ∃ parts, List.Forall₂ MergedInto parts (VariableType.elements a) ∧
      parts.flatten.Perm (pool l) := by
  cases h with
  | unknown _ => exact absurd rfl hne
  | list _ h => exact ⟨[pool l],.cons h .nil,by simp⟩
  | set _ _ h => exact ⟨[pool l],.cons h .nil,by simp⟩
  | tuple hkind _ h => exact ⟨columns _ l,merged_columns hkeyed hkind h rfl,columns_flatten hkind⟩

/-- Where the kinds of both pool, the elements of both sides are merged. -/
theorem Pooled.merge {l l' : List VariableType} {a b : VariableType} {k k' : Kind}
    (ha : Pooled l a) (hb : Pooled l' b) (hkeyed : ∀ t ∈ l, t.Keyed) (hkeyed' : ∀ t ∈ l', t.Keyed)
    (hka : a.kind = some k) (hkb : b.kind = some k') (hpools : k.Pools k')
    (hspread : Spread (l ++ l')) : Pooled (l ++ l') (mergeTypes a b) := by
  have hneA : a ≠ .any := fun hany => by rw [hany] at hka; cases hka
  have hneB : b ≠ .any := fun hany => by rw [hany] at hkb; cases hkb
  obtain ⟨parts,hparts,hperm⟩ := ha.elements hkeyed hneA
  obtain ⟨parts',hparts',hperm'⟩ := hb.elements hkeyed' hneB
  obtain ⟨t,heq,ht⟩ := merge_pools hka hkb hpools
  rw [heq]
  refine .list hspread (.perm ?_ (ht.substitute (List.rel_append hparts hparts')))
  rw [List.flatten_append,pool_append]
  exact hperm.append hperm'

theorem Pooled.append_any {l l' : List VariableType} {a : VariableType} (h : Pooled l a)
    (hany : ∀ t ∈ l', t = .any) : Pooled (l ++ l') a := by
  have hpool : pool (l ++ l') = pool l := by
    rw [pool_append,pool_eq_nil_of_any hany,List.append_nil]
  have hleft : ∀ t ∈ l, t ∈ l ++ l' := fun t ht => List.mem_append_left _ ht
  cases h with
  | unknown h => exact .unknown (List.forall_mem_append.mpr ⟨h,hany⟩)
  | list hspread h => exact .list (hspread.mono hleft) (hpool ▸ h)
  | set hkind hset h =>
    obtain ⟨s,hs,hisSet⟩ := hset
    exact .set (List.forall_mem_append.mpr ⟨hkind,fun t ht => .inl (hany t ht)⟩)
      ⟨s,hleft s hs,hisSet⟩ (hpool ▸ h)
  | tuple hkind hknown h =>
    obtain ⟨t,ht,hne⟩ := hknown
    refine .tuple (List.forall_mem_append.mpr ⟨hkind,fun t ht => .inl (hany t ht)⟩)
      ⟨t,hleft t ht,hne⟩ ?_
    have hmerged := h.merge (merged_foldl (m:=mergeTypes) (e:=.any) l')
    have hfold : l'.foldl mergeTypes .any = .any := by
      clear hpool hleft hmerged
      induction l' with
      | nil => rfl
      | cons t l' ih =>
        obtain ⟨rfl,hrest⟩ := List.forall_mem_cons.mp hany
        exact ih hrest
    rwa [hfold,mergeTypes_any_right] at hmerged

theorem Pooled.perm {l l' : List VariableType} {a : VariableType} (h : Pooled l a)
    (hperm : l.Perm l') : Pooled l' a := by
  have hsub : ∀ t ∈ l', t ∈ l := fun t ht => hperm.symm.subset ht
  have hpool : (pool l).Perm (pool l') := hperm.flatMap_right _
  cases h with
  | unknown h => exact .unknown fun t ht => h t (hsub t ht)
  | list hspread h => exact .list (hspread.mono fun t ht => hperm.subset ht) (.perm hpool h)
  | set hkind hset h =>
    obtain ⟨s,hs,hisSet⟩ := hset
    exact .set (fun t ht => hkind t (hsub t ht)) ⟨s,hperm.subset hs,hisSet⟩ (.perm hpool h)
  | tuple hkind hknown h =>
    obtain ⟨t,ht,hne⟩ := hknown
    exact .tuple (fun t ht => hkind t (hsub t ht)) ⟨t,hperm.subset ht,hne⟩ (.perm hperm h)

theorem isSet_iff {t : VariableType} : isSet t ↔ t.kind = some .set := by
  cases t <;> simp [isSet,kind]

/-- The single set stands against tuples of one length. -/
theorem Poolable.tuples_of_set {l l' : List VariableType} (h : Poolable (l ++ l'))
    (hset : ∃ s ∈ l', isSet s) : ∃ n, ∀ t ∈ l, OfKind (.tuple n) t := by
  obtain ⟨s,hs,hisSet⟩ := hset
  obtain ⟨n,hn⟩ := h.alone ⟨s,List.mem_append_right l hs,hisSet⟩
  have hcount := h.sets
  rw [List.countP_append] at hcount
  have hpos := List.countP_pos_iff.mpr ⟨s,hs,hisSet⟩
  have hzero : l.countP isSet = 0 := by omega
  exact ⟨n,fun t ht => (hn t (List.mem_append_left l' ht)).resolve_left
    (List.countP_eq_zero.mp hzero t ht)⟩

theorem exists_tuple {n : ℕ} {l : List VariableType} (hkind : ∀ t ∈ l, OfKind (.tuple n) t)
    (hknown : ∃ t ∈ l, t ≠ .any) : ∃ t ∈ l, t.kind = some (.tuple n) := by
  obtain ⟨t,ht,hne⟩ := hknown
  exact ⟨t,ht,(hkind t ht).resolve_left hne⟩

theorem merged_pooled {l : List VariableType} {a : VariableType} (h : MergedInto l a)
    (hkeyed : ∀ t ∈ l, t.Keyed) (hl : Poolable l) : Pooled l a := by
  induction h with
  | nil => exact .unknown (by simp)
  | single x =>
    have hmem : ∀ {P : VariableType → Prop}, P x → ∀ t ∈ [x], P t := fun hP t ht => by
      rwa [List.mem_singleton.mp ht]
    have hx := hl.collections x List.mem_cons_self
    cases x with
    | any => exact .unknown (hmem rfl)
    | list t => exact .list (.inl ⟨_,List.mem_cons_self,rfl⟩) (.single t)
    | set t => exact .set (hmem (.inr rfl)) ⟨_,List.mem_cons_self,rfl⟩ (.single t)
    | tuple items =>
      exact .tuple (hmem (.inr rfl)) ⟨_,List.mem_cons_self,by simp⟩ (.single _)
    | primitive _ | map _ | object _ => simp [kind] at hx
  | @merge l l' a b ha hb iha ihb =>
    obtain ⟨hkl,hkl'⟩ := List.forall_mem_append.mp hkeyed
    have hpa := iha hkl (hl.subperm (List.sublist_append_left l l').subperm)
    have hpb := ihb hkl' (hl.subperm (List.sublist_append_right l l').subperm)
    have hpl' : Poolable (l' ++ l) := hl.subperm List.perm_append_comm.subperm
    cases hpa with
    | unknown hany =>
      rw [mergeTypes_any_left]
      exact (hpb.append_any hany).perm List.perm_append_comm
    | @list t hspread hmerged =>
      have hspread' := hspread.mono fun t ht => List.mem_append_left l' ht
      cases hpb with
      | unknown hany =>
        rw [mergeTypes_any_right]
        exact (Pooled.list hspread hmerged).append_any hany
      | list _ hmerged' =>
        rw [mergeTypes_list]
        exact .list hspread' (pool_append l l' ▸ hmerged.merge hmerged')
      | set _ hset _ =>
        obtain ⟨n,hn⟩ := hl.tuples_of_set hset
        exact absurd hn (hspread.not_ofKind (by simp))
      | tuple hkind hknown hmerged' =>
        exact (Pooled.list hspread hmerged).merge (.tuple hkind hknown hmerged') hkl hkl' rfl rfl
          trivial hspread'
    | @set t hkind hset hmerged =>
      obtain ⟨s,hs,hisSet⟩ := hset
      cases hpb with
      | unknown hany =>
        rw [mergeTypes_any_right]
        exact (Pooled.set hkind ⟨s,hs,hisSet⟩ hmerged).append_any hany
      | list hspread _ =>
        obtain ⟨n,hn⟩ := hpl'.tuples_of_set ⟨s,hs,hisSet⟩
        exact absurd hn (hspread.not_ofKind (by simp))
      | set hkind' hset' _ =>
        obtain ⟨n,hn⟩ := hpl'.tuples_of_set ⟨s,hs,hisSet⟩
        obtain ⟨s',hs',hisSet'⟩ := hset'
        rw [isSet_iff] at hisSet'
        rcases hn s' hs' with rfl | hs'
        · cases hisSet'
        · rw [hisSet'] at hs'
          cases hs'
      | tuple hkind' hknown hmerged' =>
        obtain ⟨t',ht',hk'⟩ := exists_tuple hkind' hknown
        exact (Pooled.set hkind ⟨s,hs,hisSet⟩ hmerged).merge (.tuple hkind' hknown hmerged') hkl
          hkl' rfl rfl trivial (.inr ⟨s,List.mem_append_left l' hs,t',List.mem_append_right l ht',
            _,_,isSet_iff.mp hisSet,hk',trivial⟩)
    | @tuple items hkind hknown hmerged =>
      obtain ⟨t,ht,hk⟩ := exists_tuple hkind hknown
      cases hpb with
      | unknown hany =>
        rw [mergeTypes_any_right]
        exact (Pooled.tuple hkind hknown hmerged).append_any hany
      | list hspread hmerged' =>
        exact (Pooled.tuple hkind hknown hmerged).merge (.list hspread hmerged') hkl hkl' rfl rfl
          trivial (hspread.mono fun t ht => List.mem_append_right l ht)
      | set hkind' hset hmerged' =>
        obtain ⟨s,hs,hisSet⟩ := hset
        exact (Pooled.tuple hkind hknown hmerged).merge (.set hkind' ⟨s,hs,hisSet⟩ hmerged') hkl
          hkl' rfl rfl trivial (.inr ⟨t,List.mem_append_left l' ht,s,List.mem_append_right l hs,
            _,_,hk,isSet_iff.mp hisSet,trivial⟩)
      | @tuple items' hkind' hknown' hmerged' =>
        obtain ⟨t',ht',hk'⟩ := exists_tuple hkind' hknown'
        by_cases hlen : items.length = items'.length
        · have hmerge := hmerged.merge hmerged'
          rw [mergeTypes_tuple hlen] at hmerge ⊢
          have hzip : (items.zipWith mergeTypes items').length = items.length := by
            rw [List.length_zipWith,← hlen,Nat.min_self]
          refine .tuple ?_ ⟨t,List.mem_append_left l' ht,?_⟩ hmerge
          · rw [hzip]
            exact List.forall_mem_append.mpr ⟨hkind,hlen ▸ hkind'⟩
          · rintro rfl
            cases hk
        · exact (Pooled.tuple hkind hknown hmerged).merge (.tuple hkind' hknown' hmerged') hkl hkl'
            rfl rfl hlen (.inr ⟨t,List.mem_append_left l' ht,t',List.mem_append_right l ht',
              _,_,hk,hk',hlen⟩)
  | perm hperm _ ih =>
    exact (ih (fun t ht => hkeyed t (hperm.subset ht)) (hl.subperm hperm.subperm)).perm hperm

end VariableType
end TerraformLs
