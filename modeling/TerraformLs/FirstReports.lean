import Mathlib.Data.List.Count
import Mathlib.Data.List.Nodup

/-! A loop that reports each key once: it carries the keys it has met, passes
over an item whose key is among them and keeps any other item. -/
namespace TerraformLs.FirstReports

variable {ι κ : Type} [DecidableEq κ] {f : ι → κ}

/-- The keys met and the items kept after a walk. -/
def firsts (f : ι → κ) : List κ → List ι → List κ × List ι
  | seen, [] => (seen,[])
  | seen, i :: is =>
    if f i ∈ seen then firsts f seen is
    else ((firsts f (f i :: seen) is).1,i :: (firsts f (f i :: seen) is).2)

theorem firsts_cons_of_mem {i : ι} {seen : List κ} {is : List ι} (h : f i ∈ seen) :
    firsts f seen (i :: is) = firsts f seen is := by
  rw [firsts,if_pos h]

theorem firsts_cons_of_notMem {i : ι} {seen : List κ} {is : List ι} (h : f i ∉ seen) :
    firsts f seen (i :: is) =
      ((firsts f (f i :: seen) is).1,i :: (firsts f (f i :: seen) is).2) := by
  rw [firsts,if_neg h]

theorem mem_seen {k : κ} {seen : List κ} {is : List ι} :
    k ∈ (firsts f seen is).1 ↔ k ∈ seen ∨ ∃ i ∈ is, f i = k := by
  induction is generalizing seen with
  | nil => simp [firsts]
  | cons i is ih =>
    rw [firsts]
    split_ifs with hi
    · rw [ih]
      constructor
      · rintro (h | ⟨j,hj,rfl⟩)
        · exact .inl h
        · exact .inr ⟨j,List.mem_cons_of_mem i hj,rfl⟩
      · rintro (h | ⟨j,hj,rfl⟩)
        · exact .inl h
        · rcases List.mem_cons.mp hj with rfl | hj
          · exact .inl hi
          · exact .inr ⟨j,hj,rfl⟩
    · rw [ih]
      grind

/-- A walk goes on with the keys that its first part met. -/
theorem firsts_append {seen : List κ} {is js : List ι} :
    firsts f seen (is ++ js) = ((firsts f (firsts f seen is).1 js).1,
      (firsts f seen is).2 ++ (firsts f (firsts f seen is).1 js).2) := by
  induction is generalizing seen with
  | nil => rfl
  | cons i is ih =>
    rw [List.cons_append]
    by_cases h : f i ∈ seen
    · rw [firsts_cons_of_mem h,firsts_cons_of_mem h,ih]
    · rw [firsts_cons_of_notMem h,firsts_cons_of_notMem h,ih,List.cons_append]

theorem firsts_map {ι' : Type} {g : ι' → ι} {seen : List κ} {is : List ι'} :
    firsts f seen (is.map g) =
      ((firsts (f ∘ g) seen is).1,(firsts (f ∘ g) seen is).2.map g) := by
  induction is generalizing seen with
  | nil => rfl
  | cons i is ih =>
    rw [List.map_cons]
    by_cases h : f (g i) ∈ seen
    · rw [firsts_cons_of_mem h,ih,firsts_cons_of_mem (f:=f ∘ g) h]
    · rw [firsts_cons_of_notMem h,ih,firsts_cons_of_notMem (f:=f ∘ g) h]
      rfl

theorem mem_of_firsts {i : ι} {seen : List κ} {is : List ι} (h : i ∈ (firsts f seen is).2) :
    i ∈ is := by
  induction is generalizing seen with
  | nil => cases h
  | cons j is ih =>
    rw [firsts] at h
    split_ifs at h with hj
    · exact List.mem_cons_of_mem j (ih h)
    · rcases List.mem_cons.mp h with rfl | h
      · exact List.mem_cons_self
      · exact List.mem_cons_of_mem j (ih h)

/-- Each key that the walk meets for the first time is kept with one item. -/
theorem countP_firsts (k : κ) (seen : List κ) (is : List ι) :
    (firsts f seen is).2.countP (f · = k) =
      if k ∉ seen ∧ ∃ i ∈ is, f i = k then 1 else 0 := by
  induction is generalizing seen with
  | nil => simp [firsts]
  | cons i is ih =>
    rw [firsts]
    split_ifs with hi hk hk
    · rw [ih,if_pos]
      obtain ⟨hseen,j,hj,rfl⟩ := hk
      rcases List.mem_cons.mp hj with rfl | hj
      · exact absurd hi hseen
      · exact ⟨hseen,j,hj,rfl⟩
    · rw [ih,if_neg]
      rintro ⟨hseen,j,hj,rfl⟩
      exact hk ⟨hseen,j,List.mem_cons_of_mem i hj,rfl⟩
    · rw [List.countP_cons,ih]
      by_cases h : f i = k
      · simp [h]
      · obtain ⟨hseen,j,hj,rfl⟩ := hk
        have hj : j ∈ is := (List.mem_cons.mp hj).resolve_left fun heq => h (heq ▸ rfl)
        have hnew : f j ∉ f i :: seen := by
          rw [List.mem_cons]
          exact fun hor => hor.elim (fun heq => h heq.symm) hseen
        rw [if_pos ⟨hnew,j,hj,rfl⟩]
        simp [h]
    · rw [List.countP_cons,ih,if_neg]
      · have h : f i ≠ k := fun heq => hk ⟨heq ▸ hi,i,List.mem_cons_self,heq⟩
        simp [h]
      · rintro ⟨hseen,j,hj,rfl⟩
        exact hk ⟨fun h => hseen (List.mem_cons_of_mem _ h),j,List.mem_cons_of_mem i hj,rfl⟩

/-- Walking a key's own list keeps its distinct elements. -/
theorem nodup_firsts (seen is : List κ) : (firsts id seen is).2.Nodup := by
  rw [List.nodup_iff_count_le_one]
  intro k
  have hcount := countP_firsts (f:=id) k seen is
  rw [List.count_eq_countP]
  have heq : (fun x : κ => x == k) = fun x => decide (id x = k) := rfl
  rw [heq,hcount]
  split_ifs
  · exact Nat.le_refl 1
  · exact Nat.zero_le 1

theorem nodup_firsts_map (seen : List κ) (is : List ι) :
    ((firsts f seen is).2.map f).Nodup := by
  have hmap : firsts id seen (is.map f) = _ := firsts_map
  have hnodup := nodup_firsts seen (is.map f)
  rw [hmap] at hnodup
  exact hnodup

theorem exists_firsts {i : ι} {is : List ι} (hi : i ∈ is) :
    ∃ j ∈ (firsts f [] is).2, f j = f i := by
  have hcount := countP_firsts (f:=f) (f i) [] is
  rw [if_pos ⟨List.not_mem_nil,i,hi,rfl⟩] at hcount
  obtain ⟨j,hj,heq⟩ := List.countP_pos_iff.mp (hcount ▸ Nat.one_pos)
  exact ⟨j,hj,of_decide_eq_true heq⟩

theorem mem_firsts {k : κ} {is : List κ} : k ∈ (firsts id [] is).2 ↔ k ∈ is := by
  refine ⟨mem_of_firsts,fun h => ?_⟩
  obtain ⟨j,hj,rfl⟩ := exists_firsts (f:=id) h
  exact hj

/-- A property singles out at most one element of a list without repetitions
exactly if its count says whether it occurs. -/
theorem countP_eq_ite_iff {p : ι → Bool} {is : List ι} (hnodup : is.Nodup) :
    (is.countP p = if ∃ i ∈ is, p i then 1 else 0) ↔
      ∀ i ∈ is, ∀ j ∈ is, p i → p j → i = j := by
  rw [List.countP_eq_length_filter]
  have hfilter : (is.filter p).Nodup := hnodup.filter p
  have hmem : ∀ {i}, i ∈ is.filter p ↔ i ∈ is ∧ p i := List.mem_filter
  constructor
  · intro h i hi j hj hpi hpj
    rw [if_pos ⟨i,hi,hpi⟩] at h
    obtain ⟨k,hk⟩ := List.length_eq_one_iff.mp h
    have hi := hmem.mpr ⟨hi,hpi⟩
    have hj := hmem.mpr ⟨hj,hpj⟩
    rw [hk,List.mem_singleton] at hi hj
    rw [hi,hj]
  · intro h
    cases hl : is.filter p with
    | nil =>
      rw [if_neg]
      · rfl
      · rintro ⟨i,hi,hpi⟩
        have := hmem.mpr ⟨hi,hpi⟩
        rw [hl] at this
        cases this
    | cons i rest =>
      have hi := hmem.mp (hl ▸ List.mem_cons_self (a:=i))
      rw [if_pos ⟨i,hi⟩]
      cases rest with
      | nil => rfl
      | cons j rest =>
        have hj := hmem.mp (hl ▸ List.mem_cons_of_mem i (List.mem_cons_self (a:=j) (l:=rest)))
        rw [hl,h i hi.1 j hj.1 hi.2 hj.2] at hfilter
        simp at hfilter

/-! ### Repetitions -/

/-- Each item with the key of one before it, along with the first such. -/
def repeatsFrom (f : ι → κ) : List ι → List ι → List (ι × ι)
  | _, [] => []
  | before, i :: is =>
    ((before.find? fun j => f j = f i).map fun j => (i,j)).toList ++ repeatsFrom f (before ++ [i]) is

section repeats

variable {ξ : Type} [DecidableEq ξ] {g : ι → ξ} {before is : List ι}

theorem repeatsFrom_congr (h : ∀ i ∈ before ++ is, ∀ j ∈ before ++ is, g i = g j ↔ f i = f j) :
    repeatsFrom g before is = repeatsFrom f before is := by
  induction is generalizing before with
  | nil => rfl
  | cons i is ih =>
    have hi : i ∈ before ++ i :: is := List.mem_append_right before List.mem_cons_self
    have hfind : (before.find? fun j => g j = g i) = before.find? fun j => f j = f i := by
      rw [← List.head?_filter,← List.head?_filter]
      refine congrArg List.head? (List.filter_congr fun j hj => ?_)
      exact decide_eq_decide.mpr (h j (List.mem_append_left _ hj) i hi)
    rw [← List.singleton_append,← List.append_assoc] at h
    rw [repeatsFrom,repeatsFrom,hfind,ih h]

/-- A coarser key repeats wherever a finer one does. -/
theorem find_of_finer (hfg : ∀ i j, f i = f j → g i = g j) {i : ι}
    (h : (before.find? fun j => f j = f i).isSome) : (before.find? fun j => g j = g i).isSome := by
  rw [List.find?_isSome] at h ⊢
  obtain ⟨j,hj,heq⟩ := h
  exact ⟨j,hj,decide_eq_true (hfg j i (of_decide_eq_true heq))⟩

theorem length_toList_map {α β : Type} {o : Option α} {o' : Option α} {a b : α → β}
    (h : o.isSome → o'.isSome) : (o.map a).toList.length ≤ (o'.map b).toList.length := by
  cases o with
  | none => exact Nat.zero_le _
  | some x =>
    obtain ⟨y,rfl⟩ := Option.isSome_iff_exists.mp (h rfl)
    exact Nat.le_refl 1

theorem length_repeatsFrom_le (hfg : ∀ i j, f i = f j → g i = g j) :
    (repeatsFrom f before is).length ≤ (repeatsFrom g before is).length := by
  induction is generalizing before with
  | nil => exact Nat.le_refl 0
  | cons i is ih =>
    rw [repeatsFrom,repeatsFrom,List.length_append,List.length_append]
    exact Nat.add_le_add (length_toList_map (find_of_finer hfg)) ih

/-- A coarser key has as many repetitions only where it tells the items apart as the finer one. -/
theorem eq_of_length_repeatsFrom (hfg : ∀ i j, f i = f j → g i = g j)
    (hbefore : ∀ i ∈ before, ∀ j ∈ before, g i = g j → f i = f j)
    (h : (repeatsFrom g before is).length = (repeatsFrom f before is).length) :
    ∀ i ∈ before ++ is, ∀ j ∈ before ++ is, g i = g j → f i = f j := by
  induction is generalizing before with
  | nil => simpa using hbefore
  | cons i is ih =>
    rw [repeatsFrom,repeatsFrom,List.length_append,List.length_append] at h
    have hhead : ((before.find? fun j => f j = f i).map fun j => (i,j)).toList.length ≤
        ((before.find? fun j => g j = g i).map fun j => (i,j)).toList.length :=
      length_toList_map (find_of_finer hfg)
    have htail : (repeatsFrom f (before ++ [i]) is).length ≤ (repeatsFrom g (before ++ [i]) is).length :=
      length_repeatsFrom_le hfg
    have hsame : ∀ j ∈ before, g j = g i → f j = f i := by
      intro j hj hgj
      have hg : (before.find? fun j => g j = g i).isSome :=
        List.find?_isSome.mpr ⟨j,hj,decide_eq_true hgj⟩
      obtain ⟨k,hk⟩ := Option.isSome_iff_exists.mp hg
      have hf : (before.find? fun j => f j = f i).isSome := by
        cases hnone : before.find? fun j => f j = f i with
        | some l => rfl
        | none =>
          rw [hnone,hk] at h hhead
          simp at h hhead
          omega
      rw [List.find?_isSome] at hf
      obtain ⟨l,hl,hfl⟩ := hf
      have hfl := of_decide_eq_true hfl
      exact (hbefore j hj l hl (hgj.trans (hfg l i hfl).symm)).trans hfl
    have hnext : ∀ j ∈ before ++ [i], ∀ k ∈ before ++ [i], g j = g k → f j = f k := by
      intro j hj k hk hjk
      rcases List.mem_append.mp hj with hj' | hj' <;> rcases List.mem_append.mp hk with hk' | hk'
      · exact hbefore j hj' k hk' hjk
      · obtain rfl := List.mem_singleton.mp hk'
        exact hsame j hj' hjk
      · obtain rfl := List.mem_singleton.mp hj'
        exact (hsame k hk' hjk.symm).symm
      · rw [List.mem_singleton.mp hj',List.mem_singleton.mp hk']
    rw [← List.singleton_append,← List.append_assoc]
    exact ih hnext (by omega)

/-- A coarser key finds the same repetitions exactly if it tells the items apart as the finer one. -/
theorem repeatsFrom_map_eq_iff {α : Type} (hfg : ∀ i j, f i = f j → g i = g j) (a : ι × ι → α) :
    (repeatsFrom g [] is).map a = (repeatsFrom f [] is).map a ↔
      ∀ i ∈ is, ∀ j ∈ is, g i = g j → f i = f j := by
  constructor
  · intro h
    have hlength := congrArg List.length h
    rw [List.length_map,List.length_map] at hlength
    exact eq_of_length_repeatsFrom hfg (fun i hi => absurd hi List.not_mem_nil) hlength
  · intro h
    rw [repeatsFrom_congr fun i hi j hj => ⟨h i hi j hj,hfg i j⟩]

end repeats

end TerraformLs.FirstReports
