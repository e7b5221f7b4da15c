import Mathlib.Data.List.Basic

/-! Partial automata, and what one reads of a text before it is stuck. -/
namespace TerraformLs.PartialRuns

variable {σ α : Type} (step : σ → α → Option σ)

/-- The state behind a text that is read to its end. -/
def run : σ → List α → Option σ
  | q, [] => some q
  | q, a::s => (step q a).bind (run · s)

/-- What is read of a text, the state behind it, and what is left. -/
def consume : σ → List α → List α × σ × List α
  | q, [] => ([],q,[])
  | q, a::s =>
    match step q a with
    | none => ([],q,a :: s)
    | some q' => (a :: (consume q' s).1,(consume q' s).2)

variable {step} {q q' : σ} {a : α} {s t x : List α}

theorem run_append : run step q (s ++ t) = (run step q s).bind (run step · t) := by
  induction s generalizing q with
  | nil => rfl
  | cons a s ih =>
    rw [List.cons_append,run,run]
    cases step q a with
    | none => rfl
    | some q' => exact ih

theorem run_append_of (h : run step q s = some q') : run step q (s ++ t) = run step q' t := by
  rw [run_append,h,Option.bind_some]

/-- A text that is read is read in front of another one too. -/
theorem consume_append (h : run step q s = some q') :
    consume step q (s ++ t) = (s ++ (consume step q' t).1,(consume step q' t).2) := by
  induction s generalizing q with
  | nil =>
    cases h
    rfl
  | cons a s ih =>
    obtain ⟨p,hp,hrest⟩ := Option.bind_eq_some_iff.mp h
    rw [List.cons_append,consume,hp]
    simp only [ih hrest,List.cons_append]

theorem consume_stuck (h : run step q s = some q') (ha : step q' a = none) :
    consume step q (s ++ a :: t) = (s,q',a :: t) := by
  rw [consume_append h,consume,ha,List.append_nil]

theorem consume_eq (h : consume step q s = (x,q',a :: t)) :
    s = x ++ a :: t ∧ run step q x = some q' ∧ step q' a = none := by
  induction s generalizing q x with
  | nil => cases h
  | cons b s ih =>
    rw [consume] at h
    cases hb : step q b with
    | none =>
      rw [hb] at h
      cases h
      exact ⟨rfl,rfl,hb⟩
    | some p =>
      rw [hb,Prod.mk.injEq] at h
      obtain ⟨rfl,hrest⟩ := h
      obtain ⟨hs,hrun,ha⟩ := ih (Prod.ext rfl hrest)
      exact ⟨congrArg (b :: ·) hs,by rw [run,hb,Option.bind_some,hrun],ha⟩

/-- A text is read to its end, or stuck at a symbol of it. -/
theorem run_eq_none (h : run step q s = none) : ∃ x a t q', s = x ++ a :: t ∧
    run step q x = some q' ∧ step q' a = none := by
  induction s generalizing q with
  | nil => cases h
  | cons b s ih =>
    cases hb : step q b with
    | none => exact ⟨[],b,s,q,rfl,rfl,hb⟩
    | some p =>
      rw [run,hb,Option.bind_some] at h
      obtain ⟨x,a,t,q',rfl,hrun,ha⟩ := ih h
      exact ⟨b :: x,a,t,q',rfl,by rw [run,hb,Option.bind_some,hrun],ha⟩

end TerraformLs.PartialRuns
