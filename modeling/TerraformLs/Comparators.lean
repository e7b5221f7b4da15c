import Mathlib.Data.List.Destutter
import Mathlib.Data.List.Sort
import Mathlib.Order.Compare

/-! Comparisons given to a sort. A sort by comparison is only described for a
comparison that orders the elements of its list; this says which comparisons do,
for those put together by stages and for one that reads some keys as values of an
ordered type and compares the rest as they are. -/
namespace TerraformLs.Comparators

variable {α β : Type}

/-- The comparison orders the elements of the list, equal ones being tied. -/
structure TotalOn (order : α → α → Ordering) (l : List α) : Prop where
  swap : ∀ a ∈ l, ∀ b ∈ l, order b a = (order a b).swap
  trans : ∀ a ∈ l, ∀ b ∈ l, ∀ c ∈ l, (order a b).isLE → (order b c).isLE → (order a c).isLE

section orders

variable {order order' : α → α → Ordering} {l : List α}

theorem TotalOn.mono (h : TotalOn order l) {l' : List α} (hsub : ∀ a ∈ l', a ∈ l) :
    TotalOn order l' where
  swap a ha b hb := h.swap a (hsub a ha) b (hsub b hb)
  trans a ha b hb c hc := h.trans a (hsub a ha) b (hsub b hb) c (hsub c hc)

theorem TotalOn.refl (h : TotalOn order l) {a : α} (ha : a ∈ l) : order a a = .eq := by
  have hswap := h.swap a ha a ha
  cases horder : order a a with
  | eq => rfl
  | lt | gt => rw [horder] at hswap; cases hswap

theorem TotalOn.total (h : TotalOn order l) {a b : α} (ha : a ∈ l) (hb : b ∈ l) :
    (order a b).isLE ∨ (order b a).isLE := by
  rw [h.swap a ha b hb]
  cases order a b <;> simp

theorem TotalOn.tied (h : TotalOn order l) {a b : α} (ha : a ∈ l) (hb : b ∈ l)
    (hab : (order a b).isLE) (hba : (order b a).isLE) : order a b = .eq := by
  rw [h.swap a ha b hb] at hba
  cases horder : order a b <;> simp_all

theorem TotalOn.tied_trans (h : TotalOn order l) {a b c : α} (ha : a ∈ l) (hb : b ∈ l) (hc : c ∈ l)
    (hab : order a b = .eq) (hbc : order b c = .eq) : order a c = .eq := by
  have hba : order b a = .eq := by rw [h.swap a ha b hb,hab]; rfl
  have hcb : order c b = .eq := by rw [h.swap b hb c hc,hbc]; rfl
  exact h.tied ha hc (h.trans a ha b hb c hc (by simp [hab]) (by simp [hbc]))
    (h.trans c hc b hb a ha (by simp [hcb]) (by simp [hba]))

theorem TotalOn.tied_symm (h : TotalOn order l) {a b : α} (ha : a ∈ l) (hb : b ∈ l)
    (hab : order a b = .eq) : order b a = .eq := by
  rw [h.swap a ha b hb,hab]
  rfl

theorem totalOn_comap_iff {f : β → α} {l : List β} :
    TotalOn (fun a b => order (f a) (f b)) l ↔ TotalOn order (l.map f) := by
  constructor
  · rintro ⟨hswap,htrans⟩
    constructor
    · intro a ha b hb
      obtain ⟨a,hmem,rfl⟩ := List.mem_map.mp ha
      obtain ⟨b,hmem',rfl⟩ := List.mem_map.mp hb
      exact hswap a hmem b hmem'
    · intro a ha b hb c hc
      obtain ⟨a,hmem,rfl⟩ := List.mem_map.mp ha
      obtain ⟨b,hmem',rfl⟩ := List.mem_map.mp hb
      obtain ⟨c,hmem'',rfl⟩ := List.mem_map.mp hc
      exact htrans a hmem b hmem' c hmem''
  · rintro ⟨hswap,htrans⟩
    have hmem {a : β} (ha : a ∈ l) : f a ∈ l.map f := List.mem_map_of_mem ha
    exact ⟨fun a ha b hb => hswap _ (hmem ha) _ (hmem hb),
      fun a ha b hb c hc => htrans _ (hmem ha) _ (hmem hb) _ (hmem hc)⟩

theorem TotalOn.flip (h : TotalOn order l) : TotalOn (fun a b => order b a) l where
  swap a ha b hb := h.swap b hb a ha
  trans a ha b hb c hc hab hbc := h.trans c hc b hb a ha hbc hab

theorem totalOn_flip_iff : TotalOn (fun a b => order b a) l ↔ TotalOn order l :=
  ⟨TotalOn.flip,TotalOn.flip⟩

theorem isLE_cmp [LinearOrder β] {x y : β} : (cmp x y).isLE ↔ x ≤ y := by
  rw [← Ordering.ne_gt_iff_isLE,← not_lt,← cmp_eq_gt_iff]

theorem totalOn_cmp [LinearOrder β] (f : α → β) (l : List α) :
    TotalOn (fun a b => cmp (f a) (f b)) l where
  swap a _ b _ := (cmp_swap (f a) (f b)).symm
  trans _ _ _ _ _ _ hab hbc := isLE_cmp.mpr ((isLE_cmp.mp hab).trans (isLE_cmp.mp hbc))

/-- What a first comparison ties is left to a second one. -/
theorem totalOn_then_iff (h : TotalOn order l) :
    TotalOn (fun a b => (order a b).then (order' a b)) l ↔
      ∀ a ∈ l, TotalOn order' (l.filter fun b => order a b = .eq) := by
  constructor
  · intro hthen a ha
    have htied {b c : α} (hb : b ∈ l.filter fun b => order a b = .eq)
        (hc : c ∈ l.filter fun b => order a b = .eq) : order b c = .eq := by
      obtain ⟨hb,hab⟩ := List.mem_filter.mp hb
      obtain ⟨hc,hac⟩ := List.mem_filter.mp hc
      exact h.tied_trans hb ha hc (h.tied_symm ha hb (of_decide_eq_true hab)) (of_decide_eq_true hac)
    constructor
    · intro b hb c hc
      have hswap := hthen.swap b (List.mem_filter.mp hb).1 c (List.mem_filter.mp hc).1
      rwa [htied hb hc,htied hc hb,Ordering.eq_then,Ordering.eq_then] at hswap
    · intro b hb c hc d hd hbc hcd
      have htrans := hthen.trans b (List.mem_filter.mp hb).1 c (List.mem_filter.mp hc).1 d
        (List.mem_filter.mp hd).1
      rw [htied hb hc,htied hc hd,htied hb hd] at htrans
      exact htrans hbc hcd
  · intro hstage
    have hself {a : α} (ha : a ∈ l) : a ∈ l.filter fun b => order a b = .eq :=
      List.mem_filter.mpr ⟨ha,decide_eq_true (h.refl ha)⟩
    have hmem {a b : α} (hb : b ∈ l) (hab : order a b = .eq) :
        b ∈ l.filter fun b => order a b = .eq :=
      List.mem_filter.mpr ⟨hb,decide_eq_true hab⟩
    constructor
    · intro a ha b hb
      rw [h.swap a ha b hb]
      cases hab : order a b with
      | lt | gt => rfl
      | eq => exact (hstage a ha).swap a (hself ha) b (hmem hb hab)
    · intro a ha b hb c hc hab hbc
      rw [Ordering.isLE_then_iff_and] at hab hbc ⊢
      have hac := h.trans a ha b hb c hc hab.1 hbc.1
      refine ⟨hac,?_⟩
      -- the ends are tied only if the middle is tied with both
      rw [or_iff_not_imp_left]
      intro hlt
      have hac : order a c = .eq := by cases horder : order a c <;> simp_all
      have hca := h.tied_symm ha hc hac
      have htiedab := h.tied ha hb hab.1 (h.trans b hb c hc a ha hbc.1 (by simp [hca]))
      have htiedbc := h.tied hb hc hbc.1 (h.trans c hc a ha b hb (by simp [hca]) hab.1)
      exact (hstage a ha).trans a (hself ha) b (hmem hb htiedab) c (hmem hc hac)
        (hab.2.resolve_left (by simp [htiedab])) (hbc.2.resolve_left (by simp [htiedbc]))

end orders

section mixed

variable {T V : Type} [LinearOrder T] [LinearOrder V] (parse : T → Option V)

/-- Two keys that can be read are compared as read, other ones as they are. -/
def mixed (a b : T) : Ordering :=
  match parse a, parse b with
  | some v, some w => cmp v w
  | _, _ => cmp a b

/-- No key that cannot be read stands between two that can, in the order of keys,
unless these are ordered in the same way as values. -/
def NoneBetween (l : List T) : Prop :=
  ∀ a ∈ l, ∀ b ∈ l, ∀ c ∈ l, ∀ v w, parse a = some v → parse b = some w → parse c = none →
    a < c → c < b → v < w

variable {parse} {l : List T} {a b : T}

theorem mixed_read {v w : V} (ha : parse a = some v) (hb : parse b = some w) :
    mixed parse a b = cmp v w := by
  rw [mixed,ha,hb]

theorem mixed_left (ha : parse a = none) : mixed parse a b = cmp a b := by
  rw [mixed,ha]

theorem mixed_right (hb : parse b = none) : mixed parse a b = cmp a b := by
  rw [mixed,hb]
  cases parse a <;> rfl

theorem mixed_swap (a b : T) : mixed parse b a = (mixed parse a b).swap := by
  cases ha : parse a with
  | none => rw [mixed_left ha,mixed_right ha,cmp_swap]
  | some v =>
    cases hb : parse b with
    | none => rw [mixed_left hb,mixed_right hb,cmp_swap]
    | some w => rw [mixed_read ha hb,mixed_read hb ha,cmp_swap]

theorem mixed_self : mixed parse a a = .eq := by
  cases ha : parse a with
  | none => rw [mixed_left ha,cmp_self_eq_eq]
  | some v => rw [mixed_read ha ha,cmp_self_eq_eq]

omit [LinearOrder T] [LinearOrder V] in
theorem ne_of_read {v : V} (ha : parse a = some v) (hb : parse b = none) : a ≠ b := by
  rintro rfl
  rw [ha] at hb
  cases hb

theorem NoneBetween.mixed_trans (h : NoneBetween parse l) {c : T} (ha : a ∈ l) (hb : b ∈ l)
    (hc : c ∈ l) (hab : (mixed parse a b).isLE) (hbc : (mixed parse b c).isLE) :
    (mixed parse a c).isLE := by
  cases hpa : parse a with
  | none =>
    rw [mixed_left hpa,isLE_cmp] at hab ⊢
    cases hpb : parse b with
    | none =>
      rw [mixed_left hpb,isLE_cmp] at hbc
      exact hab.trans hbc
    | some w =>
      cases hpc : parse c with
      | none =>
        rw [mixed_right hpc,isLE_cmp] at hbc
        exact hab.trans hbc
      | some x =>
        rw [mixed_read hpb hpc,isLE_cmp] at hbc
        by_contra hca
        have hab := hab.lt_of_ne (ne_of_read hpb hpa).symm
        exact (h c hc b hb a ha x w hpc hpb hpa (not_le.mp hca) hab).not_ge hbc
  | some v =>
    cases hpb : parse b with
    | none =>
      rw [mixed_right hpb,isLE_cmp] at hab
      rw [mixed_left hpb,isLE_cmp] at hbc
      cases hpc : parse c with
      | none =>
        rw [mixed_right hpc,isLE_cmp]
        exact hab.trans hbc
      | some x =>
        rw [mixed_read hpa hpc,isLE_cmp]
        exact (h a ha c hc b hb v x hpa hpc hpb (hab.lt_of_ne (ne_of_read hpa hpb))
          (hbc.lt_of_ne (ne_of_read hpc hpb).symm)).le
    | some w =>
      rw [mixed_read hpa hpb,isLE_cmp] at hab
      cases hpc : parse c with
      | none =>
        rw [mixed_right hpc,isLE_cmp] at hbc ⊢
        by_contra hca
        have hbc := hbc.lt_of_ne (ne_of_read hpb hpc)
        exact (h b hb a ha c hc w v hpb hpa hpc hbc (not_le.mp hca)).not_ge hab
      | some x =>
        rw [mixed_read hpb hpc,isLE_cmp] at hbc
        rw [mixed_read hpa hpc,isLE_cmp]
        exact hab.trans hbc

/-- The mixed comparison orders a list exactly if no unread key stands between two
read ones that are ordered the other way as values. -/
theorem totalOn_mixed_iff : TotalOn (mixed parse) l ↔ NoneBetween parse l := by
  constructor
  · intro h a ha b hb c hc v w hpa hpb hpc hac hcb
    by_contra hwv
    have hba : (mixed parse b a).isLE := by
      rw [mixed_read hpb hpa,isLE_cmp]
      exact not_lt.mp hwv
    have hac' : (mixed parse a c).isLE := by
      rw [mixed_right hpc,isLE_cmp]
      exact hac.le
    have hbc := h.trans b hb a ha c hc hba hac'
    rw [mixed_right hpc,isLE_cmp] at hbc
    exact hcb.not_ge hbc
  · intro h
    exact ⟨fun a _ b _ => mixed_swap a b,fun a ha b hb c hc => h.mixed_trans ha hb hc⟩

end mixed

/-! ### Sorting by comparison -/

section sorting

variable {order : α → α → Ordering}

/-- What the documentation of a sort by comparison says: the elements stay, and they
are in order if the comparison orders them; else the sort may also panic. -/
structure SortBy where
  sort : ∀ {α : Type}, (α → α → Ordering) → List α → Option (List α)
  perm : ∀ {α : Type} {order : α → α → Ordering} {l l' : List α}, sort order l = some l' → l'.Perm l
  ordered : ∀ {α : Type} {order : α → α → Ordering} {l : List α}, TotalOn order l →
    ∃ l', sort order l = some l' ∧ l'.Pairwise fun a b => (order a b).isLE

/-- The last of a list is not before any other. -/
theorem last_of_pairwise {R : α → α → Prop} {l : List α} {a b : α} (h : l.Pairwise R)
    (hlast : l.getLast? = some b) (ha : a ∈ l) : a = b ∨ R a b := by
  obtain ⟨front,rfl⟩ := List.getLast?_eq_some_iff.mp hlast
  rcases List.mem_append.mp ha with ha | ha
  · exact .inr ((List.pairwise_append.mp h).2.2 a ha b (List.mem_singleton.mpr rfl))
  · exact .inl (List.mem_singleton.mp ha)

/-- An insertion sort. -/
def insertion (order : α → α → Ordering) (l : List α) : List α :=
  (l.attach.insertionSort fun a b => (order a.1 b.1).isLE).map Subtype.val

theorem insertion_perm (l : List α) : (insertion order l).Perm l := by
  have h := (List.perm_insertionSort (fun a b => (order a.1 b.1).isLE) l.attach).map Subtype.val
  rwa [List.attach_map_subtype_val] at h

theorem insertion_pairwise {l : List α} (h : TotalOn order l) :
    (insertion order l).Pairwise fun a b => (order a b).isLE := by
  have htotal : Std.Total fun a b : {a // a ∈ l} => (order a.1 b.1).isLE = true :=
    ⟨fun a b => h.total a.2 b.2⟩
  have htrans : IsTrans {a // a ∈ l} fun a b => (order a.1 b.1).isLE = true :=
    ⟨fun a b c => h.trans a.1 a.2 b.1 b.2 c.1 c.2⟩
  exact List.pairwise_map.mpr (List.pairwise_insertionSort _ l.attach)

def insertionSort : SortBy where
  sort order l := some (insertion order l)
  perm h := Option.some.inj h ▸ insertion_perm _
  ordered h := ⟨_,rfl,insertion_pairwise h⟩

open Classical in
/-- A sort that notices when the comparison does not order its list. -/
noncomputable def strictSort : SortBy where
  sort order l := if TotalOn order l then some (insertion order l) else none
  perm h := by
    split_ifs at h
    exact Option.some.inj h ▸ insertion_perm _
  ordered h := ⟨_,if_pos h,insertion_pairwise h⟩

theorem strictSort_none {l : List α} (h : ¬TotalOn order l) : strictSort.sort order l = none :=
  if_neg h

end sorting

/-! ### The first of each run of one key -/

section runs

variable {κ : Type} [LinearOrder κ] {k : α → κ}

/-- The first of a run stands for all of the run. -/
theorem first_of_run' {R : α → α → Prop} {a b : α} {l : List α} (h : (a :: l).Pairwise R)
    (hb : b ∈ a :: l) :
    ∃ c ∈ l.destutter' (fun x y => k x ≠ k y) a, k c = k b ∧ (c = b ∨ R c b) := by
  induction l generalizing a b with
  | nil => exact ⟨a,by simp,by simp_all⟩
  | cons x l ih =>
    obtain ⟨hhead,htail⟩ := List.pairwise_cons.mp h
    by_cases hkey : k a = k x
    · rw [List.destutter'_cons_neg _ (not_not_intro hkey)]
      have hskip : (a :: l).Pairwise R := h.sublist (.cons_cons a (List.sublist_cons_self x l))
      have hmem := List.mem_destutter' (R:=fun x y => k x ≠ k y) (l:=l) a
      rcases List.mem_cons.mp hb with rfl | hb
      · exact ⟨b,hmem,rfl,.inl rfl⟩
      · rcases List.mem_cons.mp hb with rfl | hb
        · exact ⟨a,hmem,hkey,.inr (hhead b List.mem_cons_self)⟩
        · exact ih hskip (List.mem_cons_of_mem a hb)
    · rw [List.destutter'_cons_pos _ hkey]
      rcases List.mem_cons.mp hb with rfl | hb
      · exact ⟨b,List.mem_cons_self,rfl,.inl rfl⟩
      · obtain ⟨c,hc,hcb⟩ := ih htail hb
        exact ⟨c,List.mem_cons_of_mem a hc,hcb⟩

theorem first_of_run {R : α → α → Prop} {b : α} {l : List α} (h : l.Pairwise R) (hb : b ∈ l) :
    ∃ c ∈ l.destutter fun x y => k x ≠ k y, k c = k b ∧ (c = b ∨ R c b) := by
  cases l with
  | nil => cases hb
  | cons a l => exact first_of_run' h hb

theorem runs_strict' {a : α} {l : List α} (h : (a :: l).Pairwise fun x y => k x ≤ k y) :
    (l.destutter' (fun x y => k x ≠ k y) a).Pairwise fun x y => k x < k y := by
  induction l generalizing a with
  | nil => simp
  | cons x l ih =>
    obtain ⟨hhead,htail⟩ := List.pairwise_cons.mp h
    by_cases hkey : k a = k x
    · rw [List.destutter'_cons_neg _ (not_not_intro hkey)]
      exact ih (h.sublist (.cons_cons a (List.sublist_cons_self x l)))
    · rw [List.destutter'_cons_pos _ hkey]
      refine List.pairwise_cons.mpr ⟨fun y hy => ?_,ih htail⟩
      have hlt : k a < k x := (hhead x List.mem_cons_self).lt_of_ne hkey
      rcases List.mem_cons.mp ((List.destutter'_sublist l _ x).subset hy) with rfl | hy
      · exact hlt
      · exact hlt.trans_le ((List.pairwise_cons.mp htail).1 y hy)

/-- Where the keys are in order, the runs have keys of their own. -/
theorem runs_strict {l : List α} (h : l.Pairwise fun x y => k x ≤ k y) :
    (l.destutter fun x y => k x ≠ k y).Pairwise fun x y => k x < k y := by
  cases l with
  | nil => exact .nil
  | cons a l => exact runs_strict' h

/-- The one that is left of a key stands before all others of it. -/
theorem left_first {R : α → α → Prop} {b c : α} {l : List α} (hkeys : l.Pairwise fun x y => k x ≤ k y)
    (h : l.Pairwise R) (hb : b ∈ l) (hc : c ∈ l.destutter fun x y => k x ≠ k y) (hkey : k b = k c) :
    c = b ∨ R c b := by
  obtain ⟨c',hc',hkey',hor⟩ := first_of_run (k:=k) h hb
  have hinj : ∀ x ∈ l.destutter (fun x y => k x ≠ k y), ∀ y ∈ l.destutter fun x y => k x ≠ k y,
      k x = k y → x = y := by
    intro x hx y hy heq
    by_contra hne
    have hlt := List.pairwise_iff_getElem.mp (runs_strict hkeys)
    obtain ⟨i,hi,rfl⟩ := List.getElem_of_mem hx
    obtain ⟨j,hj,rfl⟩ := List.getElem_of_mem hy
    rcases lt_trichotomy i j with hij | rfl | hij
    · exact (hlt i j hi hj hij).ne heq
    · exact hne rfl
    · exact (hlt j i hj hi hij).ne heq.symm
  exact hinj c' hc' c hc (hkey'.trans hkey) ▸ hor

end runs

end TerraformLs.Comparators
