import Mathlib.Data.List.Basic
import Mathlib.Data.List.Flatten

/-! Two walks over a list, where one leaves out some of what the other gives at an element:
they give the same exactly when nothing is left out at any element. -/
namespace TerraformLs.LeftOut

variable {α β : Type}

theorem flatMap_eq_iff {f g : α → List β} {l : List α} (h : ∀ a ∈ l, (g a).Sublist (f a)) :
    l.flatMap f = l.flatMap g ↔ ∀ a ∈ l, f a = g a := by
  constructor
  · intro heq
    induction l with
    | nil => exact fun a ha => absurd ha List.not_mem_nil
    | cons a l ih =>
      have hhead := h a List.mem_cons_self
      have htail := fun b hb => h b (List.mem_cons_of_mem a hb)
      have hlength := congrArg List.length heq
      rw [List.flatMap_cons,List.flatMap_cons,List.length_append,List.length_append] at hlength
      -- The lengths can only agree at the head and behind it.
      have hle := (List.Sublist.flatMap_right l htail).length_le
      have hfa : g a = f a := hhead.eq_of_length_le (by omega)
      rw [List.flatMap_cons,List.flatMap_cons,hfa,List.append_cancel_left_eq] at heq
      exact List.forall_mem_cons.mpr ⟨hfa.symm,ih htail heq⟩
  · exact List.flatMap_congr

section conditions

variable {f : α → Option β} {p : α → Prop} [DecidablePred p] {l : List α}

theorem toList_sublist (a : α) : (if p a then none else f a).toList.Sublist (f a).toList := by
  split_ifs
  · exact List.nil_sublist _
  · exact List.Sublist.refl _

theorem filterMap_sublist :
    (l.filterMap fun a => if p a then none else f a).Sublist (l.filterMap f) := by
  rw [List.filterMap_eq_flatMap_toList,List.filterMap_eq_flatMap_toList]
  exact List.Sublist.flatMap_right l fun a _ => toList_sublist a

/-- What is left out where a condition holds was not there. -/
theorem filterMap_eq_iff :
    l.filterMap f = l.filterMap (fun a => if p a then none else f a) ↔ ∀ a ∈ l, p a → f a = none := by
  rw [List.filterMap_eq_flatMap_toList,List.filterMap_eq_flatMap_toList,
    flatMap_eq_iff fun a _ => toList_sublist a]
  refine forall₂_congr fun a _ => ?_
  by_cases hp : p a
  · rw [if_pos hp,Option.toList_none,Option.toList_eq_nil_iff]
    exact ⟨fun h _ => h,fun h => h hp⟩
  · rw [if_neg hp]
    exact ⟨fun _ hp' => absurd hp' hp,fun _ => rfl⟩

end conditions

end TerraformLs.LeftOut
