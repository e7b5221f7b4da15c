import Mathlib.Data.List.Infix
import Mathlib.Tactic.Linarith

/-! A counter that goes up at some elements of a list and down at others, and stays
at zero where it would go below. What it shows at the end is the largest surplus of a
suffix, so it stays under a bound exactly when every stretch of the list does. -/
namespace TerraformLs
namespace SaturatingCount

variable {α : Type} (up down : α → Bool)

def tick (n : ℕ) (a : α) : ℕ := if up a then n+1 else if down a then n-1 else n

/-- What the counter shows after a list, from `n`. -/
def count (n : ℕ) (l : List α) : ℕ := l.foldl (tick up down) n

@[simp] theorem count_nil (n : ℕ) : count up down n [] = n := rfl

@[simp] theorem count_cons (n : ℕ) (a : α) (l : List α) :
    count up down n (a :: l) = count up down (tick up down n a) l := rfl

/-- How many more elements of a list count up than down. -/
def surplus (l : List α) : ℤ :=
  l.countP up - l.countP (fun a => !up a && down a)

@[simp] theorem surplus_nil : surplus up down [] = 0 := rfl

theorem surplus_append (l r : List α) :
    surplus up down (l ++ r) = surplus up down l + surplus up down r := by
  simp only [surplus,List.countP_append,Nat.cast_add]
  omega

/-- One element, in the counter and in the surplus. -/
theorem tick_cases (a : α) :
    (∀ n, tick up down n a = n+1) ∧ surplus up down [a] = 1 ∨
      (∀ n, tick up down n a = n-1) ∧ surplus up down [a] = -1 ∨
      (∀ n, tick up down n a = n) ∧ surplus up down [a] = 0 := by
  cases hup : up a
  · cases hdown : down a
    · exact .inr (.inr ⟨fun n => by simp [tick,hup,hdown],by simp [surplus,hup,hdown]⟩)
    · exact .inr (.inl ⟨fun n => by simp [tick,hup,hdown],by simp [surplus,hup,hdown]⟩)
  · exact .inl ⟨fun n => by simp [tick,hup],by simp [surplus,hup]⟩

theorem surplus_le_count (n : ℕ) (l : List α) :
    n + surplus up down l ≤ count up down n l := by
  induction l generalizing n with
  | nil => simp
  | cons a l ih =>
    have hsplit := surplus_append up down [a] l
    rw [List.singleton_append] at hsplit
    have hrest := ih (tick up down n a)
    rw [count_cons]
    obtain ⟨htick,hone⟩ | ⟨htick,hone⟩ | ⟨htick,hone⟩ :=
      tick_cases up down a
    all_goals
      rw [htick] at hrest ⊢
      omega

/-- From zero the counter shows the surplus of some suffix. -/
theorem exists_suffix (l : List α) :
    ∃ t, t <:+ l ∧ surplus up down t = count up down 0 l := by
  induction l using List.reverseRecOn with
  | nil => exact ⟨[],List.suffix_refl [],rfl⟩
  | append_singleton l a ih =>
    obtain ⟨t,⟨before,hbefore⟩,ht⟩ := ih
    have hlast : count up down 0 (l ++ [a]) = tick up down (count up down 0 l) a := by
      simp [count]
    have hextended : t ++ [a] <:+ l ++ [a] :=
      ⟨before,by rw [← List.append_assoc,hbefore]⟩
    have hsplit := surplus_append up down t [a]
    rw [hlast]
    obtain ⟨htick,hone⟩ | ⟨htick,hone⟩ | ⟨htick,hone⟩ :=
      tick_cases up down a
    · exact ⟨t ++ [a],hextended,by rw [htick]; omega⟩
    · cases hzero : count up down 0 l with
      | zero => exact ⟨[],List.nil_suffix,by rw [htick]; rfl⟩
      | succ n => exact ⟨t ++ [a],hextended,by rw [htick]; omega⟩
    · exact ⟨t ++ [a],hextended,by rw [htick]; omega⟩

theorem count_append (n : ℕ) (l r : List α) :
    count up down n (l ++ r) = count up down (count up down n l) r := List.foldl_append

/-- The counter never passes a bound exactly when no stretch has a surplus beyond it. -/
theorem count_le_iff (bound : ℕ) (l : List α) :
    (∀ p, p <+: l → count up down 0 p ≤ bound) ↔
      ∀ t, t <:+: l → surplus up down t ≤ bound := by
  constructor
  · rintro h t ⟨before,after,hl⟩
    have hcount := h (before ++ t) ⟨after,hl⟩
    have hle := surplus_le_count up down (count up down 0 before) t
    rw [count_append] at hcount
    omega
  · rintro h p ⟨after,hl⟩
    obtain ⟨t,⟨before,hbefore⟩,ht⟩ := exists_suffix up down p
    have hle := h t ⟨before,after,by rw [hbefore,hl]⟩
    omega

end SaturatingCount
end TerraformLs
