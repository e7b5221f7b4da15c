import Mathlib.Data.Finset.Basic
import Mathlib.Data.Finset.Lattice.Lemmas
import Mathlib.Logic.Function.Basic

/-! A family of parts, each computed from all of them, and a sweep that computes
every part once. The sweep starts from nothing, so that a part is computed before
those that come later in the order. -/
namespace TerraformLs
namespace Sweeps

variable {ι α : Type} [DecidableEq ι] (computes : ι → (ι → α) → α → Prop)

inductive Sweep : List ι → (ι → α) → (ι → α) → Prop
  | nil (x : ι → α) : Sweep [] x x
  | cons {i : ι} {is : List ι} {x y : ι → α} {a : α} (head : computes i x a)
      (tail : Sweep is (Function.update x i a) y) : Sweep (i :: is) x y

/-- The parts of `S` alone. -/
def only (nothing : α) (S : Finset ι) (x : ι → α) : ι → α := fun i => if i ∈ S then x i else nothing

variable {computes} {nothing : α}

@[simp] theorem only_empty (x : ι → α) : only nothing ∅ x = fun _ => nothing := by
  funext i
  simp [only]

theorem only_self {S : Finset ι} {x : ι → α} (h : ∀ i ∉ S, x i = nothing) :
    only nothing S x = x := by
  funext i
  rw [only]
  split
  · rfl
  · rename_i hi
    exact (h i hi).symm

theorem update_only (S : Finset ι) (x : ι → α) (i : ι) :
    Function.update (only nothing S x) i (x i) = only nothing (insert i S) x := by
  funext j
  by_cases h : j = i
  · subst h
    simp [only]
  · simp [only,h]

/-- A part keeps its value when the sweep does not meet it. -/
theorem Sweep.frame {is : List ι} {x y : ι → α} (h : Sweep computes is x y) {i : ι}
    (hi : i ∉ is) : y i = x i := by
  induction h with
  | nil x => rfl
  | cons head tail ih =>
    obtain ⟨hne,hi⟩ := not_or.mp (mt List.mem_cons.mpr hi)
    rw [ih hi,Function.update_of_ne hne]

theorem sweep_from_iff {target : ι → α} {is : List ι} (hnodup : is.Nodup) (done : Finset ι)
    (hfresh : ∀ i ∈ is, i ∉ done) (houtside : ∀ i, i ∉ done → i ∉ is → target i = nothing) :
    Sweep computes is (only nothing done target) target ↔
      ∀ pre i post, is = pre ++ i :: post →
        computes i (only nothing (done ∪ pre.toFinset) target) (target i) := by
  induction is generalizing done with
  | nil =>
    constructor
    · intro _ pre i post h
      cases pre <;> cases h
    · intro _
      rw [only_self fun i hi => houtside i hi List.not_mem_nil]
      exact .nil target
  | cons j is ih =>
    obtain ⟨hj,hnodup⟩ := List.nodup_cons.mp hnodup
    have hfresh' : ∀ i ∈ is, i ∉ insert j done := by
      intro i hi hmem
      rcases Finset.mem_insert.mp hmem with rfl | hmem
      · exact hj hi
      · exact hfresh i (List.mem_cons_of_mem j hi) hmem
    have houtside' : ∀ i, i ∉ insert j done → i ∉ is → target i = nothing := by
      intro i hi his
      obtain ⟨hne,hdone⟩ := not_or.mp (mt Finset.mem_insert.mpr hi)
      exact houtside i hdone (mt List.mem_cons.mp (not_or.mpr ⟨hne,his⟩))
    have ih := ih hnodup (insert j done) hfresh' houtside'
    constructor
    · intro h
      cases h with
      | cons head tail =>
        -- the part just computed is not met again
        have htarget := tail.frame hj
        rw [Function.update_self] at htarget
        rw [← htarget] at head tail
        rw [update_only] at tail
        intro pre i post hsplit
        cases pre with
        | nil =>
          cases hsplit
          simpa using head
        | cons k pre =>
          cases hsplit
          have hlater := ih.mp tail pre i post rfl
          rwa [List.toFinset_cons,Finset.union_insert,← Finset.insert_union]
    · intro h
      have hhead : computes j (only nothing done target) (target j) := by
        simpa using h [] j is rfl
      apply Sweep.cons hhead
      rw [update_only]
      apply ih.mpr
      intro pre i post hsplit
      have hlater := h (j :: pre) i post (congrArg (List.cons j) hsplit)
      rwa [List.toFinset_cons,Finset.union_insert,← Finset.insert_union] at hlater

/-- A sweep from nothing ends with `target` exactly when each part is computed to be
what it is there from the parts that come before it. -/
theorem sweep_iff {target : ι → α} {order : List ι} (hnodup : order.Nodup)
    (houtside : ∀ i ∉ order.toFinset, target i = nothing) :
    Sweep computes order (fun _ => nothing) target ↔
      ∀ pre i post, order = pre ++ i :: post →
        computes i (only nothing pre.toFinset target) (target i) := by
  have hempty : only nothing ∅ target = fun _ => nothing := only_empty target
  rw [← hempty,sweep_from_iff hnodup ∅ (fun i _ => Finset.notMem_empty i)
    fun i _ hi => houtside i (mt List.mem_toFinset.mp hi)]
  simp only [Finset.empty_union]

/-- The order of the sweep does not matter exactly when any of the other parts
may come before. -/
theorem sweep_all_iff {target : ι → α} {dirs : Finset ι} (houtside : ∀ i ∉ dirs, target i = nothing) :
    (∀ order : List ι, order.Nodup → order.toFinset = dirs →
        Sweep computes order (fun _ => nothing) target) ↔
      ∀ i ∈ dirs, ∀ S ⊆ dirs, i ∉ S → computes i (only nothing S target) (target i) := by
  constructor
  · intro h i hi S hS hiS
    -- first the parts of `S`, then this one, then the rest
    have hnodup : (S.toList ++ i :: (dirs \ insert i S).toList).Nodup := by
      rw [List.nodup_append]
      refine ⟨S.nodup_toList,?_,?_⟩
      · simp [Finset.nodup_toList]
      · intro a ha b hb
        rw [Finset.mem_toList] at ha
        rcases List.mem_cons.mp hb with rfl | hb
        · exact fun he => hiS (he ▸ ha)
        · rw [Finset.mem_toList,Finset.mem_sdiff] at hb
          exact fun he => hb.2 (Finset.mem_insert_of_mem (he ▸ ha))
    have hdirs : (S.toList ++ i :: (dirs \ insert i S).toList).toFinset = dirs := by
      ext j
      simp only [List.mem_toFinset,List.mem_append,List.mem_cons,Finset.mem_toList,
        Finset.mem_sdiff,Finset.mem_insert]
      constructor
      · rintro (hj | rfl | hj)
        · exact hS hj
        · exact hi
        · exact hj.1
      · intro hj
        tauto
    have hsweep := h _ hnodup hdirs
    have houtside' : ∀ j ∉ (S.toList ++ i :: (dirs \ insert i S).toList).toFinset,
        target j = nothing := by
      rw [hdirs]
      exact houtside
    have hcomputes := (sweep_iff hnodup houtside').mp hsweep _ i _ rfl
    rwa [Finset.toList_toFinset] at hcomputes
  · intro h order hnodup hdirs
    apply (sweep_iff hnodup (hdirs ▸ houtside)).mpr
    rintro pre i post rfl
    have hi : i ∉ pre := by
      intro hi
      exact (List.nodup_append.mp hnodup).2.2 i hi i List.mem_cons_self rfl
    apply h
    · rw [← hdirs]
      simp
    · rw [← hdirs]
      intro j hj
      simp [List.mem_toFinset.mp hj]
    · rwa [List.mem_toFinset]

end Sweeps
end TerraformLs
