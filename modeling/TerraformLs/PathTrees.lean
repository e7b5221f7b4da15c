import Mathlib.Data.Finset.Card
import Mathlib.Data.List.Infix
import Mathlib.Data.List.Pairwise

/-! Finite trees whose nodes are paths, and the stack of a walk that goes down
them. Where the subtrees on the stack are apart, taking a node from it and
putting the children back leaves less to be read. -/
namespace TerraformLs.PathTrees

variable {α : Type*}

/-- Neither path is above the other, so their subtrees share nothing. -/
def Apart (p q : List α) : Prop := ¬p <+: q ∧ ¬q <+: p

theorem Apart.symm {p q : List α} (h : Apart p q) : Apart q p := ⟨h.2,h.1⟩

def children (p : List α) (names : List α) : List (List α) := names.map fun name => p ++ [name]

@[simp] theorem mem_children {p q : List α} {names : List α} :
    q ∈ children p names ↔ ∃ name ∈ names, p ++ [name] = q := List.mem_map

/-- The step down from a node to one below it. -/
theorem eq_or_child_of_prefix {p q : List α} (h : p <+: q) :
    q = p ∨ ∃ name, p ++ [name] <+: q := by
  obtain ⟨rest,rfl⟩ := h
  cases rest with
  | nil => exact .inl (List.append_nil p)
  | cons name rest => exact .inr ⟨name,rest,by simp⟩

theorem prefix_of_child {p q : List α} {name : α} (h : p ++ [name] <+: q) : p <+: q :=
  (List.prefix_append p [name]).trans h

theorem not_child_prefix_self (p : List α) (name : α) : ¬p ++ [name] <+: p := by
  intro h
  have hlen := h.length_le
  rw [List.length_append,List.length_singleton] at hlen
  omega

theorem child_name_unique {p q : List α} {a b : α} (ha : p ++ [a] <+: q) (hb : p ++ [b] <+: q) :
    a = b := by
  have h : p ++ [a] <+: p ++ [b] := List.prefix_of_prefix_length_le ha hb (by simp)
  simpa using (List.prefix_append_right_inj p).mp h

theorem apart_siblings {p : List α} {a b : α} (h : a ≠ b) : Apart (p ++ [a]) (p ++ [b]) := by
  constructor <;> intro hp
  · exact h (child_name_unique (List.prefix_rfl.trans hp) List.prefix_rfl)
  · exact h (child_name_unique List.prefix_rfl (List.prefix_rfl.trans hp))

theorem Apart.child {p q : List α} (name : α) (h : Apart p q) : Apart (p ++ [name]) q := by
  refine ⟨fun hp => h.1 (prefix_of_child hp),fun hq => ?_⟩
  obtain rfl | hq := List.prefix_concat_iff.mp hq
  · exact h.1 (List.prefix_append p [name])
  · exact h.2 hq

theorem apart_children {p : List α} {names : List α} (h : names.Nodup) :
    (children p names).Pairwise Apart :=
  List.pairwise_map.mpr (h.imp fun hab => apart_siblings hab)

/-- The children of a node take its place on the stack. -/
theorem apart_push {p : List α} {names : List α} {stack : List (List α)} (hn : names.Nodup)
    (h : (p :: stack).Pairwise Apart) : (children p names ++ stack).Pairwise Apart := by
  obtain ⟨hp,hstack⟩ := List.pairwise_cons.mp h
  refine List.pairwise_append.mpr ⟨apart_children hn,hstack,fun q hq r hr => ?_⟩
  obtain ⟨name,-,rfl⟩ := mem_children.mp hq
  exact (hp r hr).child name

variable [DecidableEq α]

/-- The nodes still to be read: those at or below a node of the stack. -/
def pending (nodes : Finset (List α)) (stack : List (List α)) : Finset (List α) :=
  nodes.filter fun p => ∃ q ∈ stack, q <+: p

theorem mem_pending {nodes : Finset (List α)} {stack : List (List α)} {p : List α} :
    p ∈ pending nodes stack ↔ p ∈ nodes ∧ ∃ q ∈ stack, q <+: p := Finset.mem_filter

theorem card_pending_le (nodes : Finset (List α)) (stack : List (List α)) :
    (pending nodes stack).card ≤ nodes.card := Finset.card_filter_le _ _

theorem self_notMem_pending {nodes : Finset (List α)} {names : List α} {p : List α}
    {stack : List (List α)} (h : (p :: stack).Pairwise Apart) :
    p ∉ pending nodes (children p names ++ stack) := by
  intro hp
  obtain ⟨-,q,hq,hqp⟩ := mem_pending.mp hp
  rcases List.mem_append.mp hq with hq | hq
  · obtain ⟨name,-,rfl⟩ := mem_children.mp hq
    exact not_child_prefix_self p name hqp
  · exact (List.rel_of_pairwise_cons h hq).2 hqp

theorem pending_push_subset (nodes : Finset (List α)) (names : List α) (p : List α)
    (stack : List (List α)) :
    pending nodes (children p names ++ stack) ⊆ pending nodes (p :: stack) := by
  intro r hr
  obtain ⟨hnode,q,hq,hqr⟩ := mem_pending.mp hr
  rcases List.mem_append.mp hq with hq | hq
  · obtain ⟨name,-,rfl⟩ := mem_children.mp hq
    exact mem_pending.mpr ⟨hnode,p,List.mem_cons_self,prefix_of_child hqr⟩
  · exact mem_pending.mpr ⟨hnode,q,List.mem_cons_of_mem p hq,hqr⟩

/-- A round of the walk reads one node. -/
theorem card_pending_push_lt {nodes : Finset (List α)} (names : List α) {p : List α}
    {stack : List (List α)} (hp : p ∈ nodes) (h : (p :: stack).Pairwise Apart) :
    (pending nodes (children p names ++ stack)).card < (pending nodes (p :: stack)).card := by
  refine Finset.card_lt_card (Finset.ssubset_iff_subset_ne.mpr
    ⟨pending_push_subset nodes names p stack,fun he => ?_⟩)
  have hself : p ∈ pending nodes (p :: stack) :=
    mem_pending.mpr ⟨hp,p,List.mem_cons_self,List.prefix_rfl⟩
  exact self_notMem_pending h (he ▸ hself)

end TerraformLs.PathTrees
