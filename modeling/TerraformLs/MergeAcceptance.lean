import TerraformLs.MergeOrder

/-! Whether a merged type is satisfied by the observations it was merged from. -/
namespace TerraformLs
namespace VariableType

open Merging

/-- However some of the types are merged, the result is satisfied by all of them. -/
def Admitting (l : List VariableType) : Prop :=
  ∀ part, part.Subperm l → ∀ a, MergedInto part a → ∀ o ∈ part, satisfies a o

/-- What is known below one of the types is there below all of them. -/
def Complete (l : List VariableType) (step : TypeStep) : Prop :=
  (∀ t ∈ children step l, t = .any) ∨ ∀ o ∈ l, o ≠ .any → (child step o).isSome

/-- Kinds whose types are compared below. -/
def Kind.Nested : Kind → Prop
  | .tuple _ | .object => True
  | _ => False

/-- Types that admit each other: primitives that convert, lists and sets, maps, tuples and
objects that do so below, two types in conflict, and types whose pooled elements do so. -/
inductive Agree : List VariableType → Prop
  | primitives {l : List VariableType} (hkind : ∀ t ∈ l, t = .any ∨ ∃ p, t = .primitive p)
      (h : ∀ p q, primitive p ∈ l → primitive q ∈ l → primitivesCompatible p q) : Agree l
  | collections {l : List VariableType} (h : ∀ t ∈ l, OfKind .list t ∨ OfKind .set t) : Agree l
  | maps {l : List VariableType} (h : ∀ t ∈ l, OfKind .map t) : Agree l
  | nested {l : List VariableType} (k : Kind) (hk : k.Nested) (hkind : ∀ t ∈ l, OfKind k t)
      (hcomplete : ∀ step, Complete l step) (h : ∀ step, Agree (children step l)) : Agree l
  | pair {l : List VariableType} (hlen : (known l).length = 2)
      (h : (known l).Pairwise Conflict) : Agree l
  | pooled {l : List VariableType} (hl : Poolable l) (h : Agree (pool l)) : Agree l

theorem Admitting.subperm {l l' : List VariableType} (h : Admitting l) (hsub : l'.Subperm l) :
    Admitting l' :=
  fun part hpart => h part (hpart.trans hsub)

theorem Admitting.merged {l : List VariableType} (h : Admitting l) {a o : VariableType}
    (ha : MergedInto l a) (ho : o ∈ l) : satisfies a o :=
  h l (List.Subperm.refl l) a ha o ho

theorem satisfies_list_of_kind {t o : VariableType} (h : OfKind .list o ∨ OfKind .set o) :
    satisfies (.list t) o ∧ satisfies (.set t) o := by
  rcases h with (rfl | h) | (rfl | h)
  · exact ⟨rfl,rfl⟩
  · cases o <;> cases h
    exact ⟨rfl,rfl⟩
  · exact ⟨rfl,rfl⟩
  · cases o <;> cases h
    exact ⟨rfl,rfl⟩

theorem merged_primitives {l : List VariableType} {a : VariableType} (h : MergedInto l a)
    (hkind : ∀ t ∈ l, t = .any ∨ ∃ p, t = .primitive p) :
    a = .any ∨ ∃ p, a = .primitive p ∧ primitive p ∈ l := by
  induction h with
  | nil => exact .inl rfl
  | single x =>
    rcases hkind x List.mem_cons_self with rfl | ⟨p,rfl⟩
    · exact .inl rfl
    · exact .inr ⟨p,rfl,List.mem_cons_self⟩
  | @merge l l' a b _ _ iha ihb =>
    obtain ⟨hl,hl'⟩ := List.forall_mem_append.mp hkind
    rcases iha hl with rfl | ⟨p,rfl,hp⟩
    · rw [mergeTypes_any_left]
      exact (ihb hl').imp_right fun ⟨q,hb,hq⟩ => ⟨q,hb,List.mem_append_right l hq⟩
    rcases ihb hl' with rfl | ⟨q,rfl,-⟩
    · rw [mergeTypes_any_right]
      exact .inr ⟨p,rfl,List.mem_append_left l' hp⟩
    by_cases hpq : p = q
    · rw [hpq,mergeTypes_self]
      exact .inr ⟨q,rfl,List.mem_append_left l' (hpq ▸ hp)⟩
    · exact .inl (merge_conflict rfl rfl (fun h => hpq (by simpa using h)) not_false)
  | perm hperm _ ih =>
    exact (ih fun t ht => hkind t (hperm.subset ht)).imp_right fun ⟨p,ha,hp⟩ =>
      ⟨p,ha,hperm.subset hp⟩

theorem merged_collections {l : List VariableType} {a : VariableType} (h : MergedInto l a)
    (hkeyed : ∀ t ∈ l, t.Keyed) (hkind : ∀ t ∈ l, OfKind .list t ∨ OfKind .set t) :
    OfKind .list a ∨ OfKind .set a := by
  induction h with
  | nil => exact .inl (.inl rfl)
  | single x => exact hkind x List.mem_cons_self
  | @merge l l' a b ha _ iha ihb =>
    obtain ⟨hkl,hkl'⟩ := List.forall_mem_append.mp hkeyed
    obtain ⟨hl,hl'⟩ := List.forall_mem_append.mp hkind
    have hka := iha hkl hl
    have hkb := ihb hkl' hl'
    have hkeyedA := keyed_merged ha hkl
    by_cases hanyA : a = .any
    · rwa [hanyA,mergeTypes_any_left]
    by_cases hanyB : b = .any
    · rwa [hanyB,mergeTypes_any_right]
    rcases hka with hka | hka <;> rcases hkb with hkb | hkb <;>
      have hka := hka.resolve_left hanyA <;> have hkb := hkb.resolve_left hanyB
    · exact .inl (.inr (merge_same_kind hkeyedA hka hkb).1)
    · exact .inl (.inl (merge_conflict hka hkb (by simp) not_false))
    · exact .inl (.inl (merge_conflict hka hkb (by simp) not_false))
    · exact .inr (.inr (merge_same_kind hkeyedA hka hkb).1)
  | perm hperm _ ih =>
    exact ih (fun t ht => hkeyed t (hperm.subset ht)) fun t ht => hkind t (hperm.subset ht)

/-- What a type below asks of the one at its place. -/
def childSatisfied : Option VariableType → Option VariableType → Prop
  | none, actual => actual = none
  | some declared, actual => fieldSatisfied declared actual

/-- Tuples of one length and objects are compared step by step. -/
theorem satisfies_iff_children {k : Kind} (hk : k.Nested) {a o : VariableType} (ha : a.Keyed)
    (ho : o.Keyed) (hka : a.kind = some k) (hko : o.kind = some k) :
    satisfies a o ↔ ∀ step, childSatisfied (child step a) (child step o) := by
  cases a with
  | tuple items =>
    cases o with
    | tuple items' =>
      have hlen : items.length = items'.length := by
        rw [← hka] at hko
        simpa [kind,eq_comm] using hko
      rw [satisfies,satisfiesItems_iff,List.forall₂_iff_get]
      constructor
      · rintro ⟨-,h⟩ step
        cases step with
        | item i =>
          by_cases hi : i < items.length
          · rw [child,child,List.getElem?_eq_getElem hi,List.getElem?_eq_getElem (hlen ▸ hi)]
            exact h i hi (hlen ▸ hi)
          · rw [child,child,List.getElem?_eq_none (Nat.le_of_not_lt hi),
              List.getElem?_eq_none (hlen ▸ Nat.le_of_not_lt hi)]
            rfl
        | inner | field _ => rfl
      · refine fun h => ⟨hlen,fun i hi hi' => ?_⟩
        have hstep := h (.item i)
        rwa [child,child,List.getElem?_eq_getElem hi,List.getElem?_eq_getElem hi'] at hstep
    | _ =>
      cases hka
      cases hko
  | object declared =>
    cases o with
    | object actual =>
      have hfield : ∀ name, FieldSatisfied declared actual name ↔
          childSatisfied (child (.field name) (.object declared))
            (child (.field name) (.object actual)) := fun name => by
        rw [FieldSatisfied,child,child]
        cases getField declared name <;> rfl
      rw [satisfies_iff_fields ha ho]
      constructor
      · intro h step
        cases step with
        | field name => exact (hfield name).mp (h name)
        | inner | item _ => rfl
      · exact fun h name => (hfield name).mpr (h (.field name))
    | _ =>
      cases hka
      cases hko
  | _ => cases hka <;> exact absurd hk not_false

theorem Complete.subperm {l l' : List VariableType} {step : TypeStep} (h : Complete l step)
    (hsub : l'.Subperm l) : Complete l' step :=
  h.imp (fun hany t ht => hany t ((children_subperm hsub step).subset ht))
    fun hall o ho => hall o (hsub.subset ho)

theorem mem_children {l : List VariableType} {o c : VariableType} {step : TypeStep} (ho : o ∈ l)
    (h : child step o = some c) : c ∈ children step l :=
  List.mem_filterMap.mpr ⟨o,ho,h⟩

/-- Types of a nested kind are satisfied if the types below are. -/
theorem satisfies_merged {k : Kind} (hk : k.Nested) {l : List VariableType} {a : VariableType}
    (ha : MergedInto l a) (hkeyed : ∀ t ∈ l, t.Keyed) (hkind : ∀ t ∈ l, OfKind k t)
    (h : ∀ step c, child step a = some c → (∀ o ∈ children step l, satisfies c o) ∧
      (c = .any ∨ ∀ o ∈ l, o ≠ .any → (child step o).isSome)) :
    ∀ o ∈ l, satisfies a o := by
  intro o ho
  have hmerged := mergedOfKind ha hkeyed hkind
  rcases hmerged.kind with rfl | hka
  · rfl
  by_cases hany : o = .any
  · rw [hany]
    exact satisfies_any_right a
  rw [satisfies_iff_children hk (keyed_merged ha hkeyed) (hkeyed o ho) hka
    ((hkind o ho).resolve_left hany)]
  intro step
  have hbelow := hmerged.children step
  cases hchild : child step a with
  | none =>
    rw [hchild] at hbelow
    cases hco : child step o with
    | none => rfl
    | some c =>
      have hmem := mem_children ho hco
      rw [show children step l = [] from hbelow] at hmem
      cases hmem
  | some c =>
    obtain ⟨hsat,hcomplete⟩ := h step c hchild
    cases hco : child step o with
    | some d => exact hsat d (mem_children ho hco)
    | none =>
      rcases hcomplete with rfl | hall
      · rfl
      · have hsome := hall o ho hany
        rw [hco] at hsome
        cases hsome

theorem child_item_isSome {t : VariableType} {n i : ℕ} (h : t.kind = some (.tuple n))
    (hi : i < n) : (child (.item i) t).isSome := by
  cases t with
  | tuple items =>
    have hlen : items.length = n := by simpa [kind] using h
    rw [child,List.getElem?_eq_getElem (hlen ▸ hi)]
    rfl
  | _ => cases h

theorem merged_any {l : List VariableType} {a : VariableType} (h : MergedInto l a)
    (hany : ∀ t ∈ l, t = .any) : a = .any :=
  (mergedOfKind (k:=.list) h (fun t ht => by rw [hany t ht]; trivial)
    fun t ht => .inl (hany t ht)).unknown.mpr hany

theorem Agree.admitting {l : List VariableType} (h : Agree l) (hkeyed : ∀ t ∈ l, t.Keyed) :
    Admitting l := by
  induction h with
  | primitives hkind h =>
    intro part hpart a ha o ho
    rcases merged_primitives ha fun t ht => hkind t (hpart.subset ht) with rfl | ⟨p,rfl,hp⟩
    · rfl
    rcases hkind o (hpart.subset ho) with rfl | ⟨q,rfl⟩
    · rfl
    · exact h p q (hpart.subset hp) (hpart.subset ho)
  | collections h =>
    intro part hpart a ha o ho
    have hkind := merged_collections ha (fun t ht => hkeyed t (hpart.subset ht))
      fun t ht => h t (hpart.subset ht)
    have hsat := fun t => satisfies_list_of_kind (t:=t) (h o (hpart.subset ho))
    rcases hkind with (rfl | hk) | (rfl | hk)
    · rfl
    · cases a <;> cases hk
      exact (hsat _).1
    · rfl
    · cases a <;> cases hk
      exact (hsat _).2
  | maps h =>
    intro part hpart a ha o ho
    have hmerged := mergedOfKind ha (fun t ht => hkeyed t (hpart.subset ht))
      fun t ht => h t (hpart.subset ht)
    rcases hmerged.kind with rfl | hk
    · rfl
    rcases h o (hpart.subset ho) with rfl | hko
    · exact satisfies_any_right a
    · cases a <;> cases hk
      cases o <;> cases hko
      rfl
  | nested k hk hkind hcomplete _ ih =>
    intro part hpart a ha
    have hkeyed' : ∀ t ∈ part, t.Keyed := fun t ht => hkeyed t (hpart.subset ht)
    have hkind' : ∀ t ∈ part, OfKind k t := fun t ht => hkind t (hpart.subset ht)
    refine satisfies_merged hk ha hkeyed' hkind' fun step c hc => ?_
    have hbelow := (mergedOfKind ha hkeyed' hkind').children step
    rw [hc] at hbelow
    refine ⟨ih step (keyed_children hkeyed step) _ (children_subperm hpart step) c hbelow.2,?_⟩
    exact ((hcomplete step).subperm hpart).imp_left fun hany => merged_any hbelow.2 hany
  | pair hlen h =>
    intro part hpart a ha o ho
    obtain ⟨hlen',hconflict⟩ := conflict_of_subperm hpart h
    rw [hlen] at hlen'
    by_cases hany : o = .any
    · rw [hany]
      exact satisfies_any_right a
    have hmem : o ∈ known part := mem_known.mpr ⟨ho,hany⟩
    rcases merged_pair ha hlen' hconflict with ⟨hk,-⟩ | hk | ⟨-,rfl⟩
    · rw [hk] at hmem
      cases hmem
    · rw [hk,List.mem_singleton] at hmem
      rw [← hmem]
      exact satisfies_refl (hkeyed o (hpart.subset ho))
    · rfl
  | pooled hl _ ih =>
    intro part hpart a ha o ho
    have hkeyed' : ∀ t ∈ part, t.Keyed := fun t ht => hkeyed t (hpart.subset ht)
    have hpool := (ih (keyed_pool hkeyed)).subperm (pool_subperm hpart)
    have hcollection := hl.collections o (hpart.subset ho)
    cases merged_pooled ha hkeyed' (hl.subperm hpart) with
    | unknown _ => rfl
    | @list t _ hmerged =>
      cases o with
      | tuple items =>
        refine satisfies_list_tuple.mpr fun item hitem => hpool.merged hmerged ?_
        exact List.mem_flatMap.mpr ⟨_,ho,hitem⟩
      | any | list _ | set _ => rfl
      | primitive _ | map _ | object _ => simp [kind] at hcollection
    | set hkind _ _ =>
      rcases hkind o ho with rfl | hko
      · rfl
      · cases o <;> cases hko
        rfl
    | @tuple items hkind _ hmerged =>
      refine satisfies_merged (k:=.tuple items.length) trivial hmerged hkeyed' hkind
        (fun step c hc => ?_) o ho
      have hbelow := (mergedOfKind hmerged hkeyed' hkind).children step
      rw [hc] at hbelow
      cases step with
      | item i =>
        have hcolumn : children (.item i) part ∈ columns items.length part :=
          List.mem_map.mpr ⟨i,List.mem_range.mpr (List.getElem?_eq_some_iff.mp hc).1,rfl⟩
        have hsub := ((List.sublist_flatten_of_mem hcolumn).subperm).trans
          (columns_flatten hkind).subperm
        refine ⟨fun d hd => (hpool.subperm hsub).merged hbelow.2 hd,.inr fun s hs hany => ?_⟩
        exact child_item_isSome ((hkind s hs).resolve_left hany)
          (List.getElem?_eq_some_iff.mp hc).1
      | inner | field _ => cases hc

/-! Observations merged in their order. -/

/-- The kinds cancel out: the merged type is unknown. -/
def Cancels (l : List VariableType) : Prop := Separate l ∧ kept (kinds l) = none

/-- Observations that satisfy their merged type: those that admit each other, those whose
kinds cancel out, primitives that all convert to the one that is left, and tuples and
objects that do so below, where what is left of a field is in all of them. -/
inductive Admits : List VariableType → Prop
  | agree {l : List VariableType} (h : Agree l) : Admits l
  | cancel {l : List VariableType} (h : Cancels l) : Admits l
  | primitives {l : List VariableType} (hkind : ∀ t ∈ l, t = .any ∨ ∃ p, t = .primitive p)
      (h : ∀ p, kept (kinds l) = some (.primitive p) →
        ∀ q, primitive q ∈ l → primitivesCompatible p q) : Admits l
  | nested {l : List VariableType} (k : Kind) (hk : k.Nested) (hkind : ∀ t ∈ l, OfKind k t)
      (hcomplete : ∀ step, Cancels (children step l) ∨ Complete l step)
      (h : ∀ step, children step l ≠ [] → Admits (children step l)) : Admits l

theorem mergeAll_of_cancels {l : List VariableType} (hkeyed : ∀ t ∈ l, t.Keyed) (h : Cancels l) :
    mergeAll l = .any := by
  rw [← kind_eq_none,kind_mergeAll hkeyed h.1,h.2]

theorem separate_of_primitives {l : List VariableType}
    (h : ∀ t ∈ l, t = .any ∨ ∃ p, t = .primitive p) : Separate l := by
  intro a ha b _ k k' hk _ hpools
  rcases h a ha with rfl | ⟨p,rfl⟩
  · cases hk
  · cases hk
    exact hpools

theorem Admits.satisfied {l : List VariableType} (h : Admits l) (hkeyed : ∀ t ∈ l, t.Keyed) :
    ∀ o ∈ l, satisfies (mergeAll l) o := by
  induction h with
  | agree h => exact fun o ho => (h.admitting hkeyed).merged (mergedInto_mergeAll _) ho
  | cancel h =>
    intro o _
    rw [mergeAll_of_cancels hkeyed h]
    rfl
  | @primitives l hkind h =>
    intro o ho
    rcases merged_primitives (mergedInto_mergeAll l) hkind with hall | ⟨p,hall,-⟩
    · rw [hall]
      rfl
    rw [hall]
    have hkept := kind_mergeAll hkeyed (separate_of_primitives hkind)
    rw [hall] at hkept
    rcases hkind o ho with rfl | ⟨q,rfl⟩
    · rfl
    · exact h p hkept.symm q ho
  | @nested l k hk hkind hcomplete _ ih =>
    refine satisfies_merged hk (mergedInto_mergeAll l) hkeyed hkind fun step c hc => ?_
    rw [child_mergeAll hkeyed hkind] at hc
    split_ifs at hc with hnil
    obtain rfl := Option.some.inj hc
    refine ⟨ih step hnil (keyed_children hkeyed step),?_⟩
    rcases hcomplete step with hcancels | hany | hall
    · exact .inl (mergeAll_of_cancels (keyed_children hkeyed step) hcancels)
    · exact .inl (merged_any (mergedInto_mergeAll _) hany)
    · exact .inr hall

/-- Every observation satisfies the merged type. -/
def Accepted (l : List VariableType) : Prop :=
  ∀ t, mergeObservations l = some t → ∀ o ∈ l, satisfies t o

theorem accepted_iff {l : List VariableType} : Accepted l ↔ ∀ o ∈ l, satisfies (mergeAll l) o := by
  unfold Accepted
  rw [mergeObservations_eq]
  by_cases hnil : l = []
  · simp [hnil]
  · simp [hnil]

/-- Nowhere are elements pooled, and nowhere do maps stand beside objects. -/
def Plain (l : List VariableType) : Prop := Unmixed l ∧ ∀ path, ∀ a ∈ descend path l,
  ∀ b ∈ descend path l, ¬ (a.kind = some .map ∧ b.kind = some .object)

theorem Plain.children {l : List VariableType} (h : Plain l) (step : TypeStep) :
    Plain (children step l) :=
  ⟨h.1.children step,fun path => h.2 (step :: path)⟩

theorem nested_of_accepted {k : Kind} (hk : k.Nested) {l : List VariableType}
    (hkeyed : ∀ t ∈ l, t.Keyed) (hl : Unmixed l) (hkind : ∀ t ∈ l, OfKind k t)
    (hall : (mergeAll l).kind = some k) (h : ∀ o ∈ l, satisfies (mergeAll l) o) :
    (∀ step, Cancels (children step l) ∨ Complete l step) ∧
      ∀ step, ∀ c ∈ children step l, satisfies (mergeAll (children step l)) c := by
  have hchild := child_mergeAll hkeyed hkind
  have hstep : ∀ o ∈ l, o ≠ .any → ∀ step,
      childSatisfied (child step (mergeAll l)) (child step o) := fun o ho hany =>
    (satisfies_iff_children hk (keyed_merged (mergedInto_mergeAll l) hkeyed) (hkeyed o ho) hall
      ((hkind o ho).resolve_left hany)).mp (h o ho)
  refine ⟨fun step => ?_,fun step c hc => ?_⟩
  · by_cases hcomplete : ∀ o ∈ l, o ≠ .any → (child step o).isSome
    · exact .inr (.inr hcomplete)
    · push Not at hcomplete
      obtain ⟨o,ho,hany,hnone⟩ := hcomplete
      have hsat := hstep o ho hany step
      rw [Option.not_isSome_iff_eq_none.mp hnone,hchild] at hsat
      refine .inl ⟨hl [step],?_⟩
      rw [← kind_mergeAll (keyed_children hkeyed step) (hl [step])]
      split_ifs at hsat with hnil
      · rw [hnil]
        rfl
      · exact kind_eq_none.mpr (isAny_iff.mp hsat)
  · obtain ⟨o,ho,hco⟩ := List.mem_filterMap.mp hc
    have hany : o ≠ .any := fun hany => by
      rw [hany,child_any] at hco
      cases hco
    have hsat := hstep o ho hany step
    rw [hchild,if_neg (List.ne_nil_of_mem hc),hco] at hsat
    exact hsat

/-- Without pooled elements, and without maps beside objects, observations that satisfy
their merged type are of this form. -/
theorem admits_of_accepted {d : ℕ} {l : List VariableType} (hd : ∀ t ∈ l, t.depth < d)
    (hkeyed : ∀ t ∈ l, t.Keyed) (hl : Plain l) (h : ∀ o ∈ l, satisfies (mergeAll l) o) :
    Admits l := by
  induction d generalizing l with
  | zero => exact .agree (.collections fun t ht => absurd (hd t ht) (Nat.not_lt_zero _))
  | succ d ih =>
    have hkept := kind_mergeAll hkeyed (hl.1 [])
    have hmem : ∀ k, (mergeAll l).kind = some k → ∃ s ∈ l, s.kind = some k := fun k hk =>
      List.mem_filterMap.mp (mem_of_kept (hkept.symm.trans hk))
    have hnested : ∀ k : Kind, k.Nested → (mergeAll l).kind = some k → (∀ t ∈ l, OfKind k t) →
        Admits l := by
      intro k hk hall hkind
      obtain ⟨hcomplete,hbelow⟩ := nested_of_accepted hk hkeyed hl.1 hkind hall h
      refine .nested k hk hkind hcomplete fun step _ =>
        ih (fun c hc => ?_) (keyed_children hkeyed step) (hl.children step) (hbelow step)
      obtain ⟨t,ht,hchild⟩ := List.mem_filterMap.mp hc
      exact (depth_child hchild).trans_le (Nat.le_of_lt_succ (hd t ht))
    have hcollections : (∃ s ∈ l, s.kind = some .list ∨ s.kind = some .set) →
        (∀ o ∈ l, o.kind = none ∨ o.kind = some .list ∨ o.kind = some .set ∨
          ∃ n, o.kind = some (.tuple n)) → Admits l := by
      rintro ⟨s,hs,hks⟩ hall
      refine .agree (.collections fun o ho => ?_)
      rcases hall o ho with hko | hko | hko | ⟨n,hko⟩
      · exact .inl (.inl (kind_eq_none.mp hko))
      · exact .inl (.inr hko)
      · exact .inr (.inr hko)
      · rcases hks with hks | hks
        · exact absurd trivial (hl.1 [] s hs o ho _ _ hks hko)
        · exact absurd trivial (hl.1 [] s hs o ho _ _ hks hko)
    cases hall : mergeAll l with
    | any =>
      rw [hall] at hkept
      exact .cancel ⟨hl.1 [],hkept.symm⟩
    | primitive p =>
      rw [hall] at h hkept
      refine .primitives (fun o ho => ?_) fun p' hp' q hq => ?_
      · have hsat := h o ho
        cases o with
        | any => exact .inl rfl
        | primitive q => exact .inr ⟨q,rfl⟩
        | _ => cases hsat
      · obtain rfl : p = p' := by simpa [kind] using hkept.trans hp'
        exact h _ hq
    | list t =>
      obtain ⟨s,hs,hks⟩ := hmem .list (by rw [hall]; rfl)
      rw [hall] at h
      refine hcollections ⟨s,hs,.inl hks⟩ fun o ho => ?_
      have hsat := h o ho
      cases o <;> first | cases hsat; done | simp [kind]
    | set t =>
      obtain ⟨s,hs,hks⟩ := hmem .set (by rw [hall]; rfl)
      rw [hall] at h
      refine hcollections ⟨s,hs,.inr hks⟩ fun o ho => ?_
      have hsat := h o ho
      cases o <;> first | cases hsat; done | simp [kind]
    | map t =>
      obtain ⟨s,hs,hks⟩ := hmem .map (by rw [hall]; rfl)
      rw [hall] at h
      refine .agree (.maps fun o ho => ?_)
      have hsat := h o ho
      cases o with
      | any => exact .inl rfl
      | map _ => exact .inr rfl
      | object _ => exact absurd ⟨hks,rfl⟩ (hl.2 [] s hs _ ho)
      | _ => cases hsat
    | tuple items =>
      refine hnested (.tuple items.length) trivial (by rw [hall]; rfl) fun o ho => ?_
      have hsat := h o ho
      rw [hall] at hsat
      cases o with
      | any => exact .inl rfl
      | tuple items' =>
        have hlen := (satisfiesItems_iff.mp hsat).length_eq
        exact .inr (by rw [kind,hlen])
      | _ => cases hsat
    | object fields =>
      refine hnested .object trivial (by rw [hall]; rfl) fun o ho => ?_
      have hsat := h o ho
      rw [hall] at hsat
      cases o with
      | any => exact .inl rfl
      | object _ => exact .inr rfl
      | _ => cases hsat

end VariableType
end TerraformLs
