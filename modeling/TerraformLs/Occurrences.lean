import Mathlib.Data.List.Basic

/-! The places of a pattern in a list that a search from left to right finds, when it goes
on behind each of them. -/
namespace TerraformLs.Occurrences

variable {α : Type}

section clear

variable {p a b : List α}

/-- The pattern does not overlap with a place before it: no proper beginning of it stands
right before. -/
def Clear (p before : List α) : Prop := ∀ v ≠ [], v <+: p → v ≠ p → ¬v <:+ before

theorem Clear.of_suffix (h : Clear p b) (hab : a <:+ b) : Clear p a :=
  fun v hv hp hne hva => h v hv hp hne (hva.trans hab)

end clear

variable [DecidableEq α] {p : List α}

/-- What stands before and behind each place. The search carries what it has passed, and
the number of elements that a place still covers. -/
def placesFrom (p : List α) : ℕ → List α → List α → List (List α × List α)
  | _, _, [] => []
  | skip+1, passed, a::rest => placesFrom p skip (passed ++ [a]) rest
  | 0, passed, a::rest =>
    if p.isPrefixOf (a :: rest) then
      (passed,(a :: rest).drop p.length) :: placesFrom p (p.length - 1) (passed ++ [a]) rest
    else placesFrom p 0 (passed ++ [a]) rest

def places (p text : List α) : List (List α × List α) := placesFrom p 0 [] text

/-- At a place the pattern stands. -/
theorem placesFrom_spec {x : List α × List α} (skip : ℕ) (passed rest : List α)
    (h : x ∈ placesFrom p skip passed rest) :
    ∃ u, x.1 = passed ++ u ∧ rest = u ++ (p ++ x.2) ∧ skip ≤ u.length := by
  induction skip, passed, rest using placesFrom.induct p with
  | case1 skip passed => simp [placesFrom] at h
  | case2 skip passed a rest ih =>
    rw [placesFrom] at h
    obtain ⟨u,hx,hrest,hskip⟩ := ih h
    exact ⟨a :: u,by rw [hx]; simp,by rw [hrest]; rfl,Nat.succ_le_succ hskip⟩
  | case3 passed a rest hprefix ih =>
    rw [placesFrom,if_pos hprefix] at h
    rcases List.mem_cons.mp h with rfl | h
    · obtain ⟨t,ht⟩ := List.isPrefixOf_iff_prefix.mp hprefix
      refine ⟨[],(List.append_nil _).symm,?_,Nat.zero_le _⟩
      rw [← ht,List.drop_left,List.nil_append]
    · obtain ⟨u,hx,hrest,-⟩ := ih h
      exact ⟨a :: u,by rw [hx]; simp,by rw [hrest]; rfl,Nat.zero_le _⟩
  | case4 passed a rest hnot ih =>
    rw [placesFrom,if_neg hnot] at h
    obtain ⟨u,hx,hrest,-⟩ := ih h
    exact ⟨a :: u,by rw [hx]; simp,by rw [hrest]; rfl,Nat.zero_le _⟩

theorem places_spec {text : List α} {x : List α × List α} (h : x ∈ places p text) :
    text = x.1 ++ (p ++ x.2) := by
  obtain ⟨u,hx,htext,-⟩ := placesFrom_spec 0 [] text h
  rw [hx,List.nil_append,← htext]

/-- A place that no other overlaps is found. -/
theorem mem_placesFrom (hp : p ≠ []) {u t : List α} (hclear : Clear p u) (skip : ℕ)
    (passed rest : List α) (hrest : rest = u ++ (p ++ t)) (hskip : skip ≤ u.length) :
    (passed ++ u,t) ∈ placesFrom p skip passed rest := by
  induction skip, passed, rest using placesFrom.induct p generalizing u with
  | case1 skip passed => simp [hp] at hrest
  | case2 skip passed a rest ih =>
    cases u with
    | nil => simp at hskip
    | cons b u =>
      obtain ⟨rfl,hrest'⟩ := List.cons.inj hrest
      rw [placesFrom]
      have := ih (hclear.of_suffix (List.suffix_cons a u)) hrest' (Nat.le_of_succ_le_succ hskip)
      simpa using this
  | case3 passed a rest hprefix ih =>
    rw [placesFrom,if_pos hprefix]
    cases u with
    | nil =>
      rw [List.nil_append] at hrest
      rw [hrest,List.drop_left,List.append_nil]
      exact List.mem_cons_self
    | cons b u =>
      obtain ⟨rfl,hrest'⟩ := List.cons.inj hrest
      have hlen : p.length ≤ (a :: u).length := by
        -- otherwise the beginning of the pattern stands right before the other place
        by_contra hlt
        have hpre : a :: u <+: p := List.prefix_of_prefix_length_le
          (hrest ▸ List.prefix_append _ _) (List.isPrefixOf_iff_prefix.mp hprefix) (by omega)
        refine hclear (a :: u) (List.cons_ne_nil a u) hpre ?_ List.suffix_rfl
        rintro heq
        rw [heq] at hlt
        exact hlt (Nat.le_refl _)
      have := ih (hclear.of_suffix (List.suffix_cons a u)) hrest'
        (by rw [List.length_cons] at hlen; omega)
      exact List.mem_cons_of_mem _ (by simpa using this)
  | case4 passed a rest hnot ih =>
    cases u with
    | nil => exact absurd (List.isPrefixOf_iff_prefix.mpr ⟨t,hrest.symm⟩) hnot
    | cons b u =>
      obtain ⟨rfl,hrest'⟩ := List.cons.inj hrest
      rw [placesFrom,if_neg hnot]
      have := ih (hclear.of_suffix (List.suffix_cons a u)) hrest' (Nat.zero_le _)
      simpa using this

theorem mem_places (hp : p ≠ []) {u t : List α} (hclear : Clear p u) :
    (u,t) ∈ places p (u ++ (p ++ t)) := by
  have := mem_placesFrom (t := t) hp hclear 0 [] _ rfl (Nat.zero_le _)
  rwa [List.nil_append] at this

/-- Each place starts behind those before it. -/
theorem pairwise_placesFrom (skip : ℕ) (passed rest : List α) :
    (placesFrom p skip passed rest).Pairwise fun x y => x.1.length < y.1.length := by
  induction skip, passed, rest using placesFrom.induct p with
  | case1 skip passed => simp [placesFrom]
  | case2 skip passed a rest ih =>
    rw [placesFrom]
    exact ih
  | case3 passed a rest hprefix ih =>
    rw [placesFrom,if_pos hprefix]
    refine List.pairwise_cons.mpr ⟨fun y hy => ?_,ih⟩
    obtain ⟨u,hu,-⟩ := placesFrom_spec _ _ _ hy
    rw [hu]
    simp only [List.length_append,List.length_cons]
    omega
  | case4 passed a rest hnot ih =>
    rw [placesFrom,if_neg hnot]
    exact ih

theorem pairwise_places (p text : List α) :
    (places p text).Pairwise fun x y => x.1.length < y.1.length := pairwise_placesFrom 0 [] text

end TerraformLs.Occurrences
