import Mathlib.Data.Finset.Basic
import Mathlib.Data.List.Basic

/-! A table walked in order, with one of its entries replaced. What is collected
from all entries stays the same exactly when the old and the new entry contribute
alike, or the others make up for the difference. -/
namespace TerraformLs

structure Replacement (α : Type) where
  before : List α
  after : List α
  old : α
  new : α

namespace Replacement

variable {α β : Type} (R : Replacement α)

def source : List α := R.before ++ R.old :: R.after

def target : List α := R.before ++ R.new :: R.after

/-- The entries agree on a property, or another entry has it. -/
def Unnoticed (P : α → Prop) : Prop := (P R.new ↔ P R.old) ∨ ∃ z ∈ R.before ++ R.after, P z

/-- An earlier entry provides a value, or the first value from here on is the same. -/
def FirstUnnoticed (f : α → Option β) : Prop :=
  (∃ z ∈ R.before, (f z).isSome) ∨
    (f R.new).or (R.after.findSome? f) = (f R.old).or (R.after.findSome? f)

variable {R}

theorem mem_source {z : α} : z ∈ R.source ↔ z = R.old ∨ z ∈ R.before ++ R.after := by
  simp only [source,List.mem_append,List.mem_cons]
  tauto

theorem mem_target {z : α} : z ∈ R.target ↔ z = R.new ∨ z ∈ R.before ++ R.after := by
  simp only [target,List.mem_append,List.mem_cons]
  tauto

theorem exists_source (P : α → Prop) :
    (∃ z ∈ R.source, P z) ↔ P R.old ∨ ∃ z ∈ R.before ++ R.after, P z := by
  simp only [mem_source,or_and_right,exists_or,exists_eq_left]

theorem exists_target (P : α → Prop) :
    (∃ z ∈ R.target, P z) ↔ P R.new ∨ ∃ z ∈ R.before ++ R.after, P z := by
  simp only [mem_target,or_and_right,exists_or,exists_eq_left]

/-- Whether some entry has a property. -/
theorem exists_iff (P : α → Prop) :
    ((∃ z ∈ R.target, P z) ↔ ∃ z ∈ R.source, P z) ↔ R.Unnoticed P := by
  rw [exists_source,exists_target,Unnoticed]
  tauto

theorem any_iff (p : α → Bool) :
    R.target.any p = R.source.any p ↔ R.Unnoticed fun z => p z = true := by
  rw [Bool.eq_iff_iff,List.any_eq_true,List.any_eq_true]
  exact exists_iff _

/-- The first value that an entry provides. -/
theorem findSome?_iff (f : α → Option β) :
    R.target.findSome? f = R.source.findSome? f ↔ R.FirstUnnoticed f := by
  have hsplit : ∀ z : α, (R.before ++ z :: R.after).findSome? f =
      (R.before.findSome? f).or ((f z).or (R.after.findSome? f)) := by
    intro z
    rw [List.findSome?_append,List.findSome?_cons]
    cases f z <;> rfl
  have hbefore : (∃ z ∈ R.before, (f z).isSome) ↔ (R.before.findSome? f).isSome := by
    rw [List.findSome?_isSome_iff]
  rw [target,source,hsplit,hsplit,FirstUnnoticed,hbefore]
  cases R.before.findSome? f with
  | none => simp
  | some b => simp

/-- All the values that the entries provide, in their order. -/
theorem filterMap_iff (f : α → Option β) :
    R.target.filterMap f = R.source.filterMap f ↔ f R.new = f R.old := by
  have hcons : ∀ z : α, (z :: R.after).filterMap f = (f z).toList ++ R.after.filterMap f := by
    intro z
    rw [List.filterMap_cons]
    cases f z <;> rfl
  rw [target,source,List.filterMap_append,List.filterMap_append,List.append_cancel_left_eq,
    hcons,hcons,List.append_cancel_right_eq]
  cases f R.new <;> cases f R.old <;> simp

/-- Sets collected from the entries. -/
theorem mem_foldl_union [DecidableEq β] {step : Finset β → α → Finset β} {add : α → Finset β}
    (h : ∀ acc z, step acc z = acc ∪ add z) (items : List α) (acc : Finset β) (b : β) :
    b ∈ items.foldl step acc ↔ b ∈ acc ∨ ∃ z ∈ items, b ∈ add z := by
  induction items generalizing acc with
  | nil => simp
  | cons item items ih =>
    rw [List.foldl_cons,ih,h,Finset.mem_union]
    simp only [List.mem_cons,or_and_right,exists_or,exists_eq_left,or_assoc]

/-- A fold that only adds starts over from nothing. -/
theorem foldl_union [DecidableEq β] {step : Finset β → α → Finset β}
    (h : ∀ acc z, step acc z = acc ∪ step ∅ z) (items : List α) (acc : Finset β) :
    items.foldl step acc = acc ∪ items.foldl step ∅ := by
  induction items generalizing acc with
  | nil => simp
  | cons item items ih =>
    rw [List.foldl_cons,List.foldl_cons,ih,ih (step ∅ item),h,Finset.union_assoc]

theorem union_iff [DecidableEq β] {step : Finset β → α → Finset β} {add : α → Finset β}
    (h : ∀ acc z, step acc z = acc ∪ add z) :
    R.target.foldl step ∅ = R.source.foldl step ∅ ↔ ∀ b, R.Unnoticed fun z => b ∈ add z := by
  rw [Finset.ext_iff]
  apply forall_congr'
  intro b
  rw [mem_foldl_union h,mem_foldl_union h]
  simp only [Finset.notMem_empty,false_or]
  exact exists_iff _

end Replacement
end TerraformLs
