import Mathlib.Data.List.Chain
import Mathlib.Logic.Relation

/-! Walks along a relation. A node is on a cycle when it reaches itself; a walk
that avoids a node shows which cycles a search can run into without it. -/
namespace TerraformLs
namespace Walks

open Relation

variable {α : Type} (r : α → α → Prop)

def OnCycle (a : α) : Prop := TransGen r a a

/-- The steps that neither leave nor enter `n`. -/
def Avoiding (n a b : α) : Prop := r a b ∧ a ≠ n ∧ b ≠ n

/-- A sequence of steps that closes on its first node. -/
structure ClosedWalk (p : List α) : Prop where
  chain : p.IsChain r
  closes : ∃ a b, p.head? = some a ∧ p.getLast? = some b ∧ r b a

/-- From here a cycle can be reached without meeting `n`. -/
def Escapes (n a : α) : Prop :=
  ∃ c, ReflTransGen (Avoiding r n) a c ∧ OnCycle (Avoiding r n) c

variable {r}

/-- A walk reaches each of its nodes. -/
theorem reaches_of_chain {a : α} {p : List α} (h : (a :: p).IsChain r) {b : α}
    (hb : b ∈ a :: p) : ReflTransGen r a b := by
  induction p generalizing a with
  | nil => rw [List.mem_singleton.mp hb]
  | cons c p ih =>
    obtain ⟨hac,hc⟩ := List.isChain_cons_cons.mp h
    rcases List.mem_cons.mp hb with rfl | hb
    · exact .refl
    · exact (ih hc hb).head hac

/-- Each node of a walk reaches its last. -/
theorem reaches_last {p : List α} (h : p.IsChain r) {a b : α} (ha : a ∈ p)
    (hb : p.getLast? = some b) : ReflTransGen r a b := by
  obtain ⟨pre,post,rfl⟩ := List.append_of_mem ha
  have hpost : (a :: post).IsChain r := (List.isChain_append.mp h).2.1
  refine reaches_of_chain hpost (List.mem_of_getLast? ?_)
  rwa [List.getLast?_append_of_ne_nil _ (List.cons_ne_nil a post)] at hb

/-- Every node of a closed walk is on a cycle. -/
theorem ClosedWalk.onCycle {p : List α} (h : ClosedWalk r p) {a : α} (ha : a ∈ p) :
    OnCycle r a := by
  obtain ⟨b,c,hb,hc,hcb⟩ := h.closes
  have hac := reaches_last h.chain ha hc
  have hba : ReflTransGen r b a := by
    cases p with
    | nil => cases hb
    | cons d p =>
      cases hb
      exact reaches_of_chain h.chain ha
  exact TransGen.tail' hac hcb |>.trans_left hba

/-- A closed walk that does not meet `n` is one that avoids it. -/
theorem ClosedWalk.avoiding {p : List α} (h : ClosedWalk r p) {n : α} (hn : n ∉ p) :
    ClosedWalk (Avoiding r n) p := by
  have hne : ∀ a ∈ p, a ≠ n := fun a ha he => hn (he ▸ ha)
  obtain ⟨a,b,ha,hb,hba⟩ := h.closes
  refine ⟨?_,a,b,ha,hb,hba,hne b (List.mem_of_getLast? hb),hne a (List.mem_of_head? ha)⟩
  have hchain := h.chain
  clear ha hb h hn
  induction p with
  | nil => exact .nil
  | cons c p ih =>
    cases p with
    | nil => exact .singleton c
    | cons d p =>
      obtain ⟨hcd,hp⟩ := List.isChain_cons_cons.mp hchain
      have ih := ih (fun e he => hne e (List.mem_cons_of_mem c he)) hp
      exact List.isChain_cons_cons.mpr ⟨⟨hcd,hne c (by simp),hne d (by simp)⟩,ih⟩

theorem OnCycle.mono {r' : α → α → Prop} (h : ∀ a b, r a b → r' a b) {a : α}
    (ha : OnCycle r a) : OnCycle r' a := TransGen.mono h a a ha

theorem OnCycle.ne_avoided {n a : α} (h : OnCycle (Avoiding r n) a) : a ≠ n := by
  obtain ⟨b,hab,-⟩ := TransGen.head'_iff.mp h
  exact hab.2.1

theorem Escapes.ne {n a : α} (h : Escapes r n a) : a ≠ n := by
  obtain ⟨c,hac,hc⟩ := h
  rcases hac.cases_head with rfl | ⟨b,hab,-⟩
  · exact hc.ne_avoided
  · exact hab.2.1

/-- One who escapes has a next step that escapes. -/
theorem Escapes.next {n a : α} (h : Escapes r n a) : ∃ b, r a b ∧ Escapes r n b := by
  obtain ⟨c,hac,hc⟩ := h
  rcases hac.cases_head with rfl | ⟨b,hab,hbc⟩
  · obtain ⟨b,hab,hba⟩ := TransGen.head'_iff.mp hc
    exact ⟨b,hab.1,a,hba,hc⟩
  · exact ⟨b,hab.1,c,hbc,hc⟩

/-- When `n` reaches a cycle that avoids it, its last step away from itself escapes. -/
theorem escapes_of_reaches {n c : α} (h : ReflTransGen r n c)
    (hc : OnCycle (Avoiding r n) c) : ∃ b, r n b ∧ Escapes r n b := by
  have key : ∀ a, ReflTransGen r a c → Escapes r n a ∨ ∃ b, r n b ∧ Escapes r n b := by
    intro a ha
    induction ha using ReflTransGen.head_induction_on with
    | refl => exact .inl ⟨c,.refl,hc⟩
    | @head a b hab _ ih =>
      rcases ih with hb | hb
      · by_cases han : a = n
        · exact .inr ⟨b,han ▸ hab,hb⟩
        · have hbn := hb.ne
          obtain ⟨d,hbd,hd⟩ := hb
          exact .inl ⟨d,hbd.head ⟨hab,han,hbn⟩,hd⟩
      · exact .inr hb
  rcases key n h with hn | hb
  · exact absurd rfl hn.ne
  · exact hb

/-- No cycle goes through a node from which every walk ends. -/
theorem not_onCycle_of_acc {a : α} (h : Acc (fun b a => r a b) a) : ¬ OnCycle r a := by
  induction h with
  | intro a _ ih =>
    intro hc
    obtain ⟨b,hab,hba⟩ := TransGen.head'_iff.mp hc
    exact ih b hab (TransGen.tail' hba hab)

end Walks
end TerraformLs
