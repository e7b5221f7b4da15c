import Mathlib.Algebra.Group.Nat.Even
import Mathlib.Data.List.Induction
import Mathlib.Data.List.Nodup
import Mathlib.Data.List.Perm.Subperm

/-! Merging the elements of a list in any order and with any brackets. -/
namespace TerraformLs
namespace Merging

variable {α : Type} {m : α → α → α} {e : α}

/-- What comes out when the elements are merged, each once, in whatever way. -/
inductive Merged (m : α → α → α) (e : α) : List α → α → Prop
  | nil : Merged m e [] e
  | single (x : α) : Merged m e [x] x
  | merge {l l' : List α} {a b : α} : Merged m e l a → Merged m e l' b →
      Merged m e (l ++ l') (m a b)
  | perm {l l' : List α} {a : α} : l.Perm l' → Merged m e l a → Merged m e l' a

theorem Merged.foldl {l : List α} {a : α} (h : Merged m e l a) (l' : List α) :
    Merged m e (l ++ l') (l'.foldl m a) := by
  induction l' generalizing l a with
  | nil => rwa [List.append_nil]
  | cons x l' ih =>
    have hstep := ih (h.merge (.single x))
    rwa [List.append_assoc,List.singleton_append] at hstep

theorem merged_foldl (l : List α) : Merged m e l (l.foldl m e) := by
  simpa using (Merged.nil (m:=m) (e:=e)).foldl l

/-- Elements may themselves have been merged from lists. -/
theorem Merged.substitute {l : List α} {a : α} (h : Merged m e l a) {parts : List (List α)}
    (hparts : List.Forall₂ (Merged m e) parts l) : Merged m e parts.flatten a := by
  induction h generalizing parts with
  | nil =>
    obtain rfl := List.forall₂_nil_right_iff.mp hparts
    exact .nil
  | single x =>
    obtain ⟨part,_,hpart,hnil,rfl⟩ := List.forall₂_cons_right_iff.mp hparts
    obtain rfl := List.forall₂_nil_right_iff.mp hnil
    simpa using hpart
  | @merge l l' a b _ _ iha ihb =>
    rw [← List.take_append_drop l.length parts,List.flatten_append]
    exact .merge (iha (List.forall₂_take_append parts l l' hparts))
      (ihb (List.forall₂_drop_append parts l l' hparts))
  | perm hperm _ ih =>
    obtain ⟨parts',hparts',hperm'⟩ := List.perm_comp_forall₂ hperm hparts.flip
    exact .perm hperm'.flatten (ih hparts'.flip)

/-- Part of the elements can be merged in one way only. -/
def Confluent (m : α → α → α) (e : α) (l : List α) : Prop :=
  ∀ part, part.Subperm l → ∀ a b, Merged m e part a → Merged m e part b → a = b

theorem Confluent.subperm {l l' : List α} (h : Confluent m e l) (hsub : l'.Subperm l) :
    Confluent m e l' :=
  fun part hpart => h part (hpart.trans hsub)

theorem Confluent.foldl_eq {l l' : List α} (h : Confluent m e l) (hperm : l'.Perm l) :
    l'.foldl m e = l.foldl m e :=
  h l (List.Subperm.refl l) _ _ (.perm hperm (merged_foldl l')) (merged_foldl l)

/-- An order of what a list is mapped to comes from an order of the list. -/
theorem exists_perm_filterMap {β : Type} (f : α → Option β) {l : List α} {p : List β}
    (h : p.Perm (l.filterMap f)) : ∃ l' : List α, l'.Perm l ∧ l'.filterMap f = p := by
  induction p generalizing l with
  | nil => exact ⟨l,.refl l,h.nil_eq.symm⟩
  | cons y p ih =>
    obtain ⟨x,hx,hfx⟩ := List.mem_filterMap.mp (h.subset List.mem_cons_self)
    obtain ⟨before,after,rfl⟩ := List.append_of_mem hx
    have hmiddle : (before ++ x :: after).Perm (x :: (before ++ after)) := List.perm_middle
    have hrest : p.Perm ((before ++ after).filterMap f) := by
      have hperm := h.trans (hmiddle.filterMap f)
      rw [List.filterMap_cons_some hfx] at hperm
      exact hperm.cons_inv
    obtain ⟨l',hl',hmap⟩ := ih hrest
    exact ⟨x :: l',(hl'.cons x).trans hmiddle.symm,by rw [List.filterMap_cons_some hfx,hmap]⟩

/-! Labels of which two different ones cancel. -/

section cancel

variable {β : Type} [DecidableEq β]

/-- The label that is left when one more comes. -/
def keep : Option β → β → Option β
  | none, x => some x
  | some y, x => if y = x then some y else none

def kept (l : List β) : Option β := l.foldl keep none

@[simp] theorem kept_concat (l : List β) (x : β) : kept (l ++ [x]) = keep (kept l) x := by
  simp [kept]

theorem keep_eq_some {o : Option β} {x y : β} (h : keep o x = some y) : y = x := by
  cases o with
  | none => exact (Option.some.inj h).symm
  | some z =>
    rw [keep] at h
    split_ifs at h with hz
    exact (Option.some.inj h).symm.trans hz

theorem mem_of_kept {l : List β} {x : β} (h : kept l = some x) : x ∈ l := by
  rcases List.eq_nil_or_concat l with rfl | ⟨init,y,rfl⟩
  · cases h
  · rw [List.concat_eq_append,kept_concat] at h
    rw [keep_eq_some h]
    simp

/-- Different labels cancel two by two. -/
theorem kept_of_nodup {l : List β} (h : l.Nodup) :
    kept l = if Even l.length then none else l.getLast? := by
  induction l using List.reverseRecOn with
  | nil => rfl
  | append_singleton l x ih =>
    obtain ⟨hl,-,hx⟩ := List.nodup_append.mp h
    rw [kept_concat,ih hl,List.length_append,List.length_singleton]
    by_cases heven : Even l.length
    · simp [heven,keep,Nat.even_add_one]
    · rw [if_neg heven,if_pos (Nat.even_add_one.mpr heven)]
      rcases List.eq_nil_or_concat l with rfl | ⟨init,y,rfl⟩
      · exact absurd Even.zero heven
      · have hne : y ≠ x := hx y (by simp) x List.mem_cons_self
        simp [keep,hne]

/-- Where the order does not matter there is one label, or an even number of different ones. -/
theorem eq_or_cancel {l : List β} (h : ∀ l' : List β, l'.Perm l → kept l' = kept l) :
    (∀ x ∈ l, ∀ y ∈ l, x = y) ∨ (l.Nodup ∧ Even l.length) := by
  have hlast : ∀ y ∈ l, ∃ rest, l.Perm (rest ++ [y]) := fun y hy => by
    obtain ⟨before,after,rfl⟩ := List.append_of_mem hy
    exact ⟨before ++ after,List.perm_middle.trans (List.perm_append_singleton y _).symm⟩
  cases hkept : kept l with
  | some k =>
    have heq : ∀ y ∈ l, y = k := fun y hy => by
      obtain ⟨rest,hperm⟩ := hlast y hy
      have hrest := h _ hperm.symm
      rw [kept_concat,hkept] at hrest
      exact (keep_eq_some hrest).symm
    exact .inl fun x hx y hy => (heq x hx).trans (heq y hy).symm
  | none =>
    have hnodup : l.Nodup := by
      rw [List.nodup_iff_count_le_one]
      intro y
      by_contra hcount
      obtain ⟨rest,hperm⟩ := hlast y (List.count_pos_iff.mp (by omega))
      have hrest : y ∈ rest := by
        rw [hperm.count_eq,List.count_append,List.count_singleton_self] at hcount
        exact List.count_pos_iff.mp (by omega)
      obtain ⟨before,after,rfl⟩ := List.append_of_mem hrest
      have hperm' : ((before ++ after) ++ [y] ++ [y]).Perm l :=
        (((List.perm_append_singleton y _).trans List.perm_middle.symm).append_right [y]).trans
          hperm.symm
      have hnone := h _ hperm'
      rw [kept_concat,kept_concat,hkept] at hnone
      cases hfirst : kept (before ++ after) with
      | none => simp [hfirst,keep] at hnone
      | some z =>
        rw [hfirst,keep] at hnone
        split_ifs at hnone with hz
        · simp [keep,hz] at hnone
        · simp [keep] at hnone
    refine .inr ⟨hnodup,?_⟩
    by_contra hodd
    rw [kept_of_nodup hnodup,if_neg hodd,List.getLast?_eq_none_iff] at hkept
    subst hkept
    exact hodd Even.zero

end cancel

end Merging
end TerraformLs
