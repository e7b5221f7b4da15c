import Mathlib.Data.List.Basic
import Mathlib.Data.List.DropRight

/-! Lines of a list: what stands between two places of a separator. -/
namespace TerraformLs

variable {α : Type}

/-- The line of that number, with what stands before it and from its end on. -/
structure LineAt [BEq α] (sep : α) (whole : List α) (number : ℕ) (before line after : List α) :
    Prop where
  split : whole = before ++ (line ++ after)
  start : before = [] ∨ before.getLast? = some sep
  inside : sep ∉ line
  stop : after = [] ∨ after.head? = some sep
  number : before.count sep = number

namespace LineAt

variable [DecidableEq α] {sep : α}

theorem number_le {whole before line after : List α} {n : ℕ}
    (h : LineAt sep whole n before line after) : n ≤ whole.count sep := by
  rw [← h.number,h.split,List.count_append]
  exact Nat.le_add_right _ _

theorem exists_prefix_count {whole : List α} {n : ℕ} (h : n ≤ whole.count sep) :
    ∃ pre rest, whole = pre ++ rest ∧ pre.count sep = n := by
  induction whole generalizing n with
  | nil => exact ⟨[],[],rfl,(Nat.le_zero.mp h).symm⟩
  | cons c whole ih =>
    by_cases hn : n = 0
    · exact ⟨[],c :: whole,rfl,by simp [hn]⟩
    by_cases hc : c = sep
    · subst hc
      rw [List.count_cons_self] at h
      obtain ⟨pre,rest,rfl,hpre⟩ := ih (n:=n-1) (by omega)
      exact ⟨c :: pre,rest,rfl,by rw [List.count_cons_self]; omega⟩
    · rw [List.count_cons_of_ne hc] at h
      obtain ⟨pre,rest,rfl,hpre⟩ := ih h
      exact ⟨c :: pre,rest,rfl,by rw [List.count_cons_of_ne hc,hpre]⟩

/-- The line around a place. -/
theorem exists_around (sep : α) (pre rest : List α) : ∃ before left right after,
    LineAt sep (pre ++ rest) (pre.count sep) before (left ++ right) after ∧
      pre = before ++ left ∧ rest = right ++ after := by
  let p : α → Bool := fun c => c ≠ sep
  have hpre : pre.rdropWhile p ++ pre.rtakeWhile p = pre := List.rdropWhile_append_rtakeWhile
  have hrest : rest.takeWhile p ++ rest.dropWhile p = rest := List.takeWhile_append_dropWhile
  have hleft : sep ∉ pre.rtakeWhile p := fun h => by
    simpa [p] using List.mem_rtakeWhile_imp h
  have hright : sep ∉ rest.takeWhile p := fun h => by
    simpa [p] using List.mem_takeWhile_imp h
  refine ⟨pre.rdropWhile p,pre.rtakeWhile p,rest.takeWhile p,rest.dropWhile p,
    ⟨?_,?_,?_,?_,?_⟩,hpre.symm,hrest.symm⟩
  · rw [List.append_assoc,hrest,← List.append_assoc,hpre]
  · by_cases hnil : pre.rdropWhile p = []
    · exact .inl hnil
    · have hlast := List.rdropWhile_last_not p pre hnil
      rw [List.getLast?_eq_some_getLast hnil]
      exact .inr (by simpa [p] using hlast)
  · rw [List.mem_append]
    exact not_or.mpr ⟨hleft,hright⟩
  · by_cases hnil : rest.dropWhile p = []
    · exact .inl hnil
    · have hhead := List.head_dropWhile_not p hnil
      rw [List.head?_eq_some_head hnil]
      exact .inr (by simpa [p] using hhead)
  · conv_rhs => rw [← hpre]
    rw [List.count_append,List.count_eq_zero_of_not_mem hleft,Nat.add_zero]

theorem exists_number {whole : List α} {n : ℕ} (h : n ≤ whole.count sep) :
    ∃ before line after, LineAt sep whole n before line after := by
  obtain ⟨pre,rest,rfl,rfl⟩ := exists_prefix_count h
  obtain ⟨before,left,right,after,hline,-,-⟩ := exists_around sep pre rest
  exact ⟨before,left ++ right,after,hline⟩

/-- What a prefix with the same number of separators adds is empty. -/
theorem eq_of_count {a x : List α} (h : a ++ x = [] ∨ (a ++ x).getLast? = some sep)
    (hcount : (a ++ x).count sep = a.count sep) : x = [] := by
  by_contra hx
  have hlast : x.getLast? = some sep := by
    rcases h with h | h
    · exact absurd (List.append_eq_nil_iff.mp h).2 hx
    · rwa [List.getLast?_append_of_ne_nil _ hx] at h
  have hpos := List.count_pos_iff.mpr (List.mem_of_getLast? hlast)
  rw [List.count_append] at hcount
  omega

omit [DecidableEq α] in
theorem eq_of_inside {l x a a' : List α} (hinside : sep ∉ l ++ x) (hx : a = x ++ a')
    (ha : a = [] ∨ a.head? = some sep) : x = [] := by
  cases x with
  | nil => rfl
  | cons c x =>
    rcases ha with rfl | ha
    · cases hx
    · rw [hx] at ha
      obtain rfl : c = sep := Option.some.inj ha
      exact absurd (by simp) hinside

/-- A number belongs to one line only. -/
theorem unique {whole before line after before' line' after' : List α} {n : ℕ}
    (h : LineAt sep whole n before line after) (h' : LineAt sep whole n before' line' after') :
    before = before' ∧ line = line' ∧ after = after' := by
  have hnumber := h.number.trans h'.number.symm
  obtain ⟨rfl,hrest⟩ : before = before' ∧ line ++ after = line' ++ after' := by
    rcases List.append_eq_append_iff.mp (h.split.symm.trans h'.split) with
      ⟨x,rfl,hrest⟩ | ⟨x,rfl,hrest⟩
    · obtain rfl := eq_of_count h'.start hnumber.symm
      exact ⟨(List.append_nil _).symm,hrest⟩
    · obtain rfl := eq_of_count h.start hnumber
      exact ⟨List.append_nil _,hrest.symm⟩
  refine ⟨rfl,?_⟩
  rcases List.append_eq_append_iff.mp hrest with ⟨x,rfl,hafter⟩ | ⟨x,rfl,hafter⟩
  · obtain rfl := eq_of_inside h'.inside hafter h.stop
    exact ⟨(List.append_nil _).symm,hafter⟩
  · obtain rfl := eq_of_inside h.inside hafter h'.stop
    exact ⟨List.append_nil _,hafter.symm⟩

end LineAt
end TerraformLs
