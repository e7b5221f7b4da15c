import Mathlib.Data.List.Perm.Basic
import Mathlib.Data.List.Infix

/-! Runs of a deterministic step function, conditions on their steps, and the
interleavings of several threads of steps. -/
namespace TerraformLs

section runs

variable {σ α : Type} (step : σ → α → σ)

/-- The state after the steps of a list, taken one after another. -/
def run (s : σ) (as : List α) : σ := as.foldl step s

@[simp] theorem run_nil (s : σ) : run step s [] = s := rfl

@[simp] theorem run_cons (s : σ) (a : α) (as : List α) :
    run step s (a :: as) = run step (step s a) as := rfl

theorem run_append (s : σ) (as bs : List α) :
    run step s (as ++ bs) = run step (run step s as) bs := List.foldl_append

theorem run_concat (s : σ) (as : List α) (a : α) :
    run step s (as ++ [a]) = step (run step s as) a := run_append step s as [a]

/-- Every step of the run satisfies `ok` in the state it is taken in. -/
def Guarded (ok : σ → α → Prop) : σ → List α → Prop
  | _, [] => True
  | s, a::as => ok s a ∧ Guarded ok (step s a) as

/-- `P` holds in every state the run passes through, the first and the last included. -/
def Throughout (P : σ → Prop) (s : σ) (as : List α) : Prop :=
  ∀ pre, pre <+: as → P (run step s pre)

variable {step}

theorem Throughout.final {P : σ → Prop} {s : σ} {as : List α} (h : Throughout step P s as) :
    P (run step s as) := h as List.prefix_rfl

theorem throughout_nil {P : σ → Prop} {s : σ} : Throughout step P s [] ↔ P s := by
  constructor
  · exact fun h => h.final
  · intro h pre hp
    rw [List.prefix_nil.mp hp]
    exact h

theorem throughout_cons {P : σ → Prop} {s : σ} {a : α} {as : List α} :
    Throughout step P s (a :: as) ↔ P s ∧ Throughout step P (step s a) as := by
  constructor
  · intro h
    refine ⟨h [] List.nil_prefix,fun pre hp => ?_⟩
    exact h (a :: pre) (List.cons_prefix_cons.mpr ⟨rfl,hp⟩)
  · rintro ⟨h0,h⟩ pre hp
    cases pre with
    | nil => exact h0
    | cons b pre =>
      obtain ⟨rfl,hp'⟩ := List.cons_prefix_cons.mp hp
      exact h pre hp'

theorem Throughout.mono {P Q : σ → Prop} {s : σ} {as : List α} (h : Throughout step P s as)
    (hpq : ∀ s, P s → Q s) : Throughout step Q s as := fun pre hp => hpq _ (h pre hp)

/-- A property that every step of the run preserves holds throughout it. -/
theorem throughout_of_step {P : σ → Prop} {as : List α}
    (hstep : ∀ a ∈ as, ∀ s, P s → P (step s a)) {s : σ} (h0 : P s) : Throughout step P s as := by
  induction as generalizing s with
  | nil => exact throughout_nil.mpr h0
  | cons a as ih =>
    have hs : ∀ b ∈ as, ∀ s, P s → P (step s b) := fun b hb => hstep b (List.mem_cons_of_mem a hb)
    exact throughout_cons.mpr ⟨h0,ih hs (hstep a List.mem_cons_self s h0)⟩

/-- The same for runs whose steps satisfy a condition. -/
theorem throughout_of_guarded {P : σ → Prop} {ok : σ → α → Prop}
    (hstep : ∀ s a, P s → ok s a → P (step s a)) {s : σ} (h0 : P s) {as : List α}
    (hg : Guarded step ok s as) : Throughout step P s as := by
  induction as generalizing s with
  | nil => exact throughout_nil.mpr h0
  | cons a as ih => exact throughout_cons.mpr ⟨h0,ih (hstep s a h0 hg.1) hg.2⟩

/-- Let every step keep `I`, and keep `P` exactly under a condition. Then a run
keeps `P` throughout exactly when all its steps meet the condition. -/
theorem throughout_iff_guarded {I P : σ → Prop} {ok : σ → α → Prop} {as : List α}
    (hI : ∀ a ∈ as, ∀ s, I s → I (step s a))
    (hstep : ∀ s a, I s → P s → (P (step s a) ↔ ok s a)) {s : σ} (hi : I s) (h0 : P s) :
    Throughout step P s as ↔ Guarded step ok s as := by
  induction as generalizing s with
  | nil => simpa [Guarded] using throughout_nil.mpr h0
  | cons a as ih =>
    have hi' := hI a List.mem_cons_self s hi
    have ih := @ih fun b hb => hI b (List.mem_cons_of_mem a hb)
    rw [throughout_cons,Guarded]
    constructor
    · rintro ⟨-,h⟩
      have h1 : P (step s a) := h [] List.nil_prefix
      exact ⟨(hstep s a hi h0).mp h1,(ih hi' h1).mp h⟩
    · rintro ⟨hok,hg⟩
      have h1 := (hstep s a hi h0).mpr hok
      exact ⟨h0,(ih hi' h1).mpr hg⟩

/-- Let some steps overwrite what is read of a state and the others leave it
alone. After a run it is what one of the overwriting steps wrote, unless there
was none. -/
theorem run_overwrites {ν : Type} (I : σ → Prop) (read : σ → ν) {writes : α → Prop}
    {value : α → ν} (hI : ∀ s a, I s → I (step s a))
    (hwrite : ∀ s a, I s → writes a → read (step s a) = value a)
    (hkeep : ∀ s a, I s → ¬writes a → read (step s a) = read s) {s : σ} (hi : I s)
    (as : List α) :
    (∃ a ∈ as, writes a ∧ read (run step s as) = value a) ∨
      ((∀ a ∈ as, ¬writes a) ∧ read (run step s as) = read s) := by
  induction as generalizing s with
  | nil => exact .inr ⟨by simp,rfl⟩
  | cons a as ih =>
    rcases ih (hI s a hi) with ⟨b,hb,hw,hr⟩ | ⟨hnone,hr⟩
    · exact .inl ⟨b,List.mem_cons_of_mem a hb,hw,hr⟩
    · by_cases ha : writes a
      · exact .inl ⟨a,List.mem_cons_self,ha,hr.trans (hwrite s a hi ha)⟩
      · refine .inr ⟨fun b hb => ?_,hr.trans (hkeep s a hi ha)⟩
        rcases List.mem_cons.mp hb with rfl | hb
        · exact ha
        · exact hnone b hb

end runs

section interleavings

variable {α : Type}

/-- A schedule of several threads: as long as some thread has steps left, one of
them takes its next step. -/
inductive Interleaves : List (List α) → List α → Prop
  | done {ts : List (List α)} (h : ∀ t ∈ ts, t = []) : Interleaves ts []
  | step (us vs : List (List α)) {a : α} {t as : List α}
      (h : Interleaves (us ++ t :: vs) as) : Interleaves (us ++ (a :: t) :: vs) (a :: as)

/-- A schedule runs exactly the steps of its threads. -/
theorem Interleaves.perm {ts : List (List α)} {as : List α} (h : Interleaves ts as) :
    as.Perm ts.flatten := by
  induction h with
  | done h => rw [List.flatten_eq_nil_iff.mpr h]
  | step us vs h ih =>
    rename_i a t as
    have hp : (a :: (us ++ t :: vs).flatten).Perm (us ++ (a :: t) :: vs).flatten := by
      simpa using (@List.perm_middle α a us.flatten (t ++ vs.flatten)).symm
    exact (ih.cons a).trans hp

/-- A schedule runs the steps of each thread in their order. -/
theorem Interleaves.sublist {ts : List (List α)} {as : List α} (h : Interleaves ts as) :
    ∀ t ∈ ts, t.Sublist as := by
  induction h with
  | done h =>
    intro t ht
    rw [h t ht]
  | step us vs h ih =>
    rename_i a t as
    intro t' ht
    rcases List.mem_append.mp ht with ht | ht
    · exact (ih t' (by simp [ht])).cons a
    · rcases List.mem_cons.mp ht with rfl | ht
      · exact (ih t (by simp)).cons_cons a
      · exact (ih t' (by simp [ht])).cons a

/-- One of two threads runs from start to end at some point of the other. -/
theorem interleaves_between (us us' vs : List α) :
    Interleaves [us ++ us',vs] (us ++ (vs ++ us')) := by
  induction us with
  | cons u us ih => exact .step [] [vs] ih
  | nil =>
    induction vs with
    | cons v vs ih => exact .step [us'] [] ih
    | nil =>
      induction us' with
      | nil => exact .done (by simp)
      | cons u us' ih => exact .step [] [[]] ih

/-- Where an element stands in a list, from the head on. -/
theorem exists_split_cons {a b : α} {as : List α} {Q : List α → Prop} :
    (∃ pre post, a :: as = pre ++ b :: post ∧ Q pre) ↔
      (a = b ∧ Q []) ∨ ∃ pre post, as = pre ++ b :: post ∧ Q (a :: pre) := by
  constructor
  · rintro ⟨pre,post,hsplit,hQ⟩
    cases pre with
    | nil =>
      cases hsplit
      exact .inl ⟨rfl,hQ⟩
    | cons c pre =>
      cases hsplit
      exact .inr ⟨pre,post,rfl,hQ⟩
  · rintro (⟨rfl,hQ⟩ | ⟨pre,post,rfl,hQ⟩)
    · exact ⟨[],as,rfl,hQ⟩
    · exact ⟨a :: pre,post,rfl,hQ⟩

/-- The steps of one of two threads, picked out of their schedule. -/
theorem Interleaves.filterMap_getLeft? {β γ : Type} {us : List β} {vs : List γ}
    {as : List (β ⊕ γ)} (h : Interleaves [us.map .inl,vs.map .inr] as) :
    as.filterMap Sum.getLeft? = us := by
  have hleft : (us.map (Sum.inl (β:=γ))).filterMap Sum.getLeft? = us := by
    simp [List.filterMap_map,Function.comp_def]
  have hright : (vs.map (Sum.inr (α:=β))).filterMap Sum.getLeft? = [] := by
    simp [List.filterMap_map,Function.comp_def]
  have hperm := h.perm.filterMap Sum.getLeft?
  rw [List.flatten_cons,List.flatten_cons,List.flatten_nil,List.append_nil,List.filterMap_append,
    hleft,hright,List.append_nil] at hperm
  have hsub := (h.sublist _ List.mem_cons_self).filterMap Sum.getLeft?
  rw [hleft] at hsub
  exact (hsub.eq_of_length hperm.length_eq.symm).symm

/-- After the only `a` of a schedule, `b` comes later exactly when it is in the rest. -/
theorem pair_sublist_iff {a b : α} {pre post : List α} (h : a ∉ pre) :
    [a,b].Sublist (pre ++ a :: post) ↔ b ∈ post := by
  induction pre with
  | nil => simp
  | cons c pre ih =>
    have hc : a ≠ c := fun hc => h (hc ▸ List.mem_cons_self)
    rw [List.cons_append,List.sublist_cons_iff,ih fun hp => h (List.mem_cons_of_mem c hp)]
    simp [hc]

end interleavings
end TerraformLs
