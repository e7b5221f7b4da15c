import Mathlib.Logic.Function.Basic
import Mathlib.Order.Nat

/-! What each of a set of places holds over time, and what readers can make of
it. A stamp that never comes back once it is gone tells a reader that nothing
was written in between. -/
namespace TerraformLs

/-- What each place holds at each moment, the present the last of them. -/
structure Timeline (K V : Type) where
  now : ℕ
  holds : ℕ → K → V

namespace Timeline

variable {K V S R : Type}

/-- Nothing has been written yet. -/
def start (v : K → V) : Timeline K V := ⟨0,fun _ => v⟩

def current (t : Timeline K V) (k : K) : V := t.holds t.now k

section writing

variable [DecidableEq K]

def write (t : Timeline K V) (k : K) (v : V) : Timeline K V :=
  ⟨t.now+1,Function.update t.holds (t.now+1) (Function.update (t.holds t.now) k v)⟩

@[simp] theorem write_now (t : Timeline K V) (k : K) (v : V) : (t.write k v).now = t.now+1 := rfl

/-- The past stays as it was. -/
theorem write_holds {t : Timeline K V} {n : ℕ} (hn : n ≤ t.now) (k : K) (v : V) :
    (t.write k v).holds n = t.holds n := Function.update_of_ne (by omega) _ _

@[simp] theorem write_current_self (t : Timeline K V) (k : K) (v : V) :
    (t.write k v).current k = v := by simp [write,current]

@[simp] theorem write_current_ne (t : Timeline K V) {k j : K} (h : j ≠ k) (v : V) :
    (t.write k v).current j = t.current j := by simp [write,current,h]

end writing

section stamps

variable (stamp : V → Option S)

/-- Between two moments at which a place bears one stamp it holds one value. -/
def Steady (t : Timeline K V) : Prop :=
  ∀ k m n p, m ≤ n → n ≤ p → p ≤ t.now → ∀ a, stamp (t.holds m k) = some a →
    stamp (t.holds p k) = some a → t.holds n k = t.holds m k

/-- The stamp of the value is new to the place. -/
def Unused (t : Timeline K V) (k : K) (v : V) : Prop :=
  ∀ a, stamp v = some a → ∀ n ≤ t.now, stamp (t.holds n k) ≠ some a

variable {stamp}

theorem steady_start (v : K → V) : Steady stamp (start v) := by
  intro k m n p hmn hnp hp a hm hpa
  rfl

theorem steady_write [DecidableEq K] {t : Timeline K V} (h : Steady stamp t) {k : K} {v : V}
    (hv : Unused stamp t k v) : Steady stamp (t.write k v) := by
  intro j m n p hmn hnp hp a hm hpa
  rw [write_now] at hp
  rcases Nat.lt_or_ge t.now p with hlast | hpast
  · obtain rfl : p = t.now+1 := by omega
    rcases Nat.lt_or_ge t.now m with hm' | hm'
    · rw [show n = m by omega]
    have hholds : (t.write k v).holds (t.now+1) j = (t.write k v).current j := rfl
    rw [write_holds hm'] at hm ⊢
    by_cases hj : j = k
    · subst j
      rw [hholds,write_current_self] at hpa
      exact absurd hm (hv a hpa m hm')
    · rw [hholds,write_current_ne t hj] at hpa
      have hpresent : t.holds t.now j = t.holds m j := h j m t.now t.now hm' le_rfl le_rfl a hm hpa
      rcases Nat.lt_or_ge t.now n with hn | hn
      · obtain rfl : n = t.now+1 := by omega
        rw [hholds,write_current_ne t hj]
        exact hpresent
      · rw [write_holds hn]
        exact h j m n t.now hmn hn le_rfl a hm hpa
  · rw [write_holds hpast] at hpa
    rw [write_holds (by omega : m ≤ t.now)] at hm ⊢
    rw [write_holds (by omega : n ≤ t.now)]
    exact h j m n p hmn hnp hpast a hm hpa

end stamps

section readings

variable (stamp : V → Option S) (read : V → R) (t : Timeline K V) (k : K)

/-- The place could be read so at some moment between the two. -/
def Seen (first last : ℕ) (r : R) : Prop := ∃ n, first ≤ n ∧ n ≤ last ∧ read (t.holds n k) = r

/-- The place bore the stamp at some moment from `first` on. -/
def Stamped (first : ℕ) (a : S) : Prop :=
  ∃ n, first ≤ n ∧ n ≤ t.now ∧ stamp (t.holds n k) = some a

/-- The place could be read so when it bore the stamp or later. -/
def ReadSince (first : ℕ) (a : S) (r : R) : Prop :=
  ∃ m n, first ≤ m ∧ m ≤ n ∧ n ≤ t.now ∧ stamp (t.holds m k) = some a ∧ read (t.holds n k) = r

variable {stamp read t k}

theorem Seen.write [DecidableEq K] {first last : ℕ} {r : R} (h : t.Seen read k first last r) (hl : last ≤ t.now)
    (j : K) (v : V) : (t.write j v).Seen read k first last r := by
  obtain ⟨n,h1,h2,h3⟩ := h
  exact ⟨n,h1,h2,by rwa [write_holds (h2.trans hl)]⟩

theorem Seen.mono {first last last' : ℕ} {r : R} (h : t.Seen read k first last r)
    (hl : last ≤ last') : t.Seen read k first last' r := by
  obtain ⟨n,h1,h2,h3⟩ := h
  exact ⟨n,h1,h2.trans hl,h3⟩

theorem Stamped.write [DecidableEq K] {first : ℕ} {a : S} (h : t.Stamped stamp k first a)
    (j : K) (v : V) : (t.write j v).Stamped stamp k first a := by
  obtain ⟨n,h1,h2,h3⟩ := h
  exact ⟨n,h1,h2.trans (Nat.le_succ _),by rwa [write_holds h2]⟩

theorem ReadSince.write [DecidableEq K] {first : ℕ} {a : S} {r : R}
    (h : t.ReadSince stamp read k first a r) (j : K) (v : V) :
    (t.write j v).ReadSince stamp read k first a r := by
  obtain ⟨m,n,h1,h2,h3,h4,h5⟩ := h
  refine ⟨m,n,h1,h2,h3.trans (Nat.le_succ _),?_,?_⟩
  · rwa [write_holds (h2.trans h3)]
  · rwa [write_holds h3]

theorem ReadSince.weaken {first : ℕ} {a : S} {r : R} (h : t.ReadSince stamp read k first a r) :
    t.ReadSince stamp read k 0 a r := by
  obtain ⟨m,n,-,h⟩ := h
  exact ⟨m,n,Nat.zero_le m,h⟩

theorem ReadSince.seen {first : ℕ} {a : S} {r : R} (h : t.ReadSince stamp read k first a r) :
    t.Seen read k first t.now r := by
  obtain ⟨m,n,h1,h2,h3,-,h5⟩ := h
  exact ⟨n,h1.trans h2,h3,h5⟩

/-- What is read now is read after every stamp so far. -/
theorem Stamped.readSince (read : V → R) {first : ℕ} {a : S} (h : t.Stamped stamp k first a) :
    t.ReadSince stamp read k first a (read (t.current k)) := by
  obtain ⟨n,h1,h2,h3⟩ := h
  exact ⟨n,t.now,h1,h2,le_rfl,h3,rfl⟩

theorem stamped_current {a : S} (h : stamp (t.current k) = some a) {first : ℕ}
    (hfirst : first ≤ t.now) : t.Stamped stamp k first a := ⟨t.now,hfirst,le_rfl,h⟩

/-- Who finds the stamp that an earlier reading goes with may use the reading:
it is also one of the reader's own time. -/
theorem ReadSince.seen_of_stamped {a : S} {r : R} {since first : ℕ} (hsteady : t.Steady stamp)
    (h : t.ReadSince stamp read k since a r) (hs : t.Stamped stamp k first a) :
    t.Seen read k first t.now r := by
  obtain ⟨m,n,-,hmn,hn,hm,hr⟩ := h
  obtain ⟨p,hp1,hp2,hp⟩ := hs
  rcases Nat.le_total p n with hle | hle
  · exact ⟨n,hp1.trans hle,hn,hr⟩
  · refine ⟨p,hp1,hp2,?_⟩
    have h1 := hsteady k m n p hmn hle hp2 a hm hp
    have h2 := hsteady k m p p (hmn.trans hle) le_rfl hp2 a hm hp
    rw [h2,← h1]
    exact hr

end readings
end Timeline
end TerraformLs
