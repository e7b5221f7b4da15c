import TerraformLs.Procedures

/-! What the answers of a system of calls come from, and when two systems answer
alike. Bodies are compared call by call, up to calls that are known to return the same;
on one side a call may only pass on another. -/
namespace TerraformLs
namespace Proc

@[simp] theorem run_ask {Q A : Type} {ask : Q → Option A} (q : Q) :
    (Proc.ask q : Proc Q A).run ask = ask q := by
  rw [Proc.ask,run]
  cases ask q <;> rfl

section booleans

variable {Q : Type} {ask : Q → Option Bool}

theorem run_or_false {p p' : Proc Q Bool} :
    (p.or p').run ask = some false ↔ p.run ask = some false ∧ p'.run ask = some false := by
  induction p with
  | answer b => cases b <;> simp [or,run]
  | call q next ih =>
    simp only [or,run]
    cases ask q with
    | none => simp
    | some b => exact ih b

theorem run_any_false {X : Type} {f : X → Proc Q Bool} {xs : List X} :
    (any f xs).run ask = some false ↔ ∀ x ∈ xs, (f x).run ask = some false := by
  induction xs with
  | nil => simp [any,run]
  | cons x xs ih => rw [any,run_or_false,ih,List.forall_mem_cons]

theorem run_or_true {p p' : Proc Q Bool} (h : (p.or p').run ask = some true) :
    p.run ask = some true ∨ p'.run ask = some true := by
  induction p with
  | answer b =>
    cases b with
    | false => exact .inr h
    | true => exact .inl rfl
  | call q next ih =>
    simp only [or,run] at h ⊢
    cases hq : ask q with
    | none => simp [hq] at h
    | some b =>
      rw [hq] at h
      exact ih b h

theorem run_any_true {X : Type} {f : X → Proc Q Bool} {xs : List X}
    (h : (any f xs).run ask = some true) : ∃ x ∈ xs, (f x).run ask = some true := by
  induction xs with
  | nil => cases h
  | cons x xs ih =>
    rcases run_or_true h with h | h
    · exact ⟨x,List.mem_cons_self,h⟩
    · obtain ⟨y,hy,h⟩ := ih h
      exact ⟨y,List.mem_cons_of_mem x hy,h⟩

end booleans

section reasons

variable {Q : Type} {body : Q → Proc Q Bool} {invariant : Q → Prop} {goal : Prop}

/-- The calls a body makes keep the invariant, and it answers `true` of its own accord
for the goal alone. -/
def Justified (invariant : Q → Prop) (goal : Prop) : Proc Q Bool → Prop
  | .answer b => b = true → goal
  | .call q next => invariant q ∧ (next false).Justified invariant goal

theorem justified_ask {q : Q} (h : invariant q) :
    (Proc.ask q : Proc Q Bool).Justified invariant goal := by
  refine ⟨h,fun h => ?_⟩
  cases h

theorem justified_false : (Proc.answer false : Proc Q Bool).Justified invariant goal := by
  intro h
  cases h

theorem justified_or {p p' : Proc Q Bool} (h : p.Justified invariant goal)
    (h' : p'.Justified invariant goal) : (p.or p').Justified invariant goal := by
  induction p with
  | answer b =>
    cases b with
    | false => exact h'
    | true => exact h
  | call q next ih => exact ⟨h.1,ih false h.2⟩

theorem justified_any {X : Type} {f : X → Proc Q Bool} {xs : List X}
    (h : ∀ x ∈ xs, (f x).Justified invariant goal) : (any f xs).Justified invariant goal := by
  induction xs with
  | nil => exact justified_false
  | cons x xs ih =>
    exact justified_or (h x List.mem_cons_self) (ih fun y hy => h y (List.mem_cons_of_mem x hy))

/-- A call that returns `true` does so for the goal. -/
theorem goal_of_returns (hbody : ∀ q, invariant q → (body q).Justified invariant goal) {q : Q}
    (hq : invariant q) (h : Returns body q true) : goal := by
  obtain ⟨fuel,h⟩ := h
  induction fuel generalizing q with
  | zero => cases h
  | succ fuel ih =>
    have hrun : ∀ p : Proc Q Bool, p.Justified invariant goal →
        p.run (eval body fuel) = some true → goal := by
      intro p
      induction p with
      | answer b => exact fun hp h => hp (Option.some.inj h)
      | call q next ih' =>
        intro hp h
        rw [run] at h
        cases hq : eval body fuel q with
        | none => simp [hq] at h
        | some b =>
          rw [hq] at h
          cases b with
          | true => exact ih hp.1 hq
          | false => exact ih' false hp.2 h
    exact hrun (body q) (hbody q hq) h

end reasons

section alike

variable {Q Q' A : Type} {alike : Q → Q' → Prop}

/-- The bodies make calls that are alike, one after another, and answer the same. -/
def Alike (alike : Q → Q' → Prop) : Proc Q A → Proc Q' A → Prop
  | .answer a, .answer a' => a = a'
  | .call q next, .call q' next' => alike q q' ∧ ∀ a, (next a).Alike alike (next' a)
  | .answer _, .call _ _ => False
  | .call _ _, .answer _ => False

theorem alike_answer (a : A) : (Proc.answer a : Proc Q A).Alike alike (.answer a) := rfl

theorem alike_ask {q : Q} {q' : Q'} (h : alike q q') :
    (Proc.ask q : Proc Q A).Alike alike (Proc.ask q') := ⟨h,fun _ => rfl⟩

theorem alike_refl {alike : Q → Q → Prop} (h : ∀ q, alike q q) (p : Proc Q A) :
    p.Alike alike p := by
  induction p with
  | answer a => exact rfl
  | call q next ih => exact ⟨h q,ih⟩

theorem alike_ite {c : Prop} [Decidable c] {p₁ p₂ : Proc Q A} {p₁' p₂' : Proc Q' A}
    (h₁ : p₁.Alike alike p₁') (h₂ : p₂.Alike alike p₂') :
    (if c then p₁ else p₂).Alike alike (if c then p₁' else p₂') := by
  split
  · exact h₁
  · exact h₂

theorem alike_or {p₁ p₂ : Proc Q Bool} {p₁' p₂' : Proc Q' Bool} (h₁ : p₁.Alike alike p₁')
    (h₂ : p₂.Alike alike p₂') : (p₁.or p₂).Alike alike (p₁'.or p₂') := by
  induction p₁ generalizing p₁' with
  | answer b =>
    cases p₁' with
    | answer b' =>
      cases h₁
      cases b with
      | false => exact h₂
      | true => exact rfl
    | call q' next' => exact h₁.elim
  | call q next ih =>
    cases p₁' with
    | answer b' => exact h₁.elim
    | call q' next' => exact ⟨h₁.1,fun b => ih b (h₁.2 b)⟩

theorem alike_any {X X' : Type} {f : X → Proc Q Bool} {f' : X' → Proc Q' Bool} {xs : List X}
    {xs' : List X'} (h : List.Forall₂ (fun x x' => (f x).Alike alike (f' x')) xs xs') :
    (any f xs).Alike alike (any f' xs') := by
  induction h with
  | nil => exact rfl
  | cons hx _ ih => exact alike_or hx ih

theorem alike_imp {alike' : Q → Q' → Prop} (himp : ∀ q q', alike q q' → alike' q q') {p : Proc Q A}
    {p' : Proc Q' A} (h : p.Alike alike p') : p.Alike alike' p' := by
  induction p generalizing p' with
  | answer a =>
    cases p' with
    | answer a' => exact h
    | call q' next' => exact h.elim
  | call q next ih =>
    cases p' with
    | answer a' => exact h.elim
    | call q' next' => exact ⟨himp q q' h.1,fun a => ih a (h.2 a)⟩

theorem alike_flip {p : Proc Q A} {p' : Proc Q' A} (h : p.Alike alike p') :
    p'.Alike (flip alike) p := by
  induction p generalizing p' with
  | answer a =>
    cases p' with
    | answer a' => exact Eq.symm h
    | call q' next' => exact h.elim
  | call q next ih =>
    cases p' with
    | answer a' => exact h.elim
    | call q' next' => exact ⟨h.1,fun a => ih a (h.2 a)⟩

theorem alike_trans {Q'' : Type} {alike' : Q' → Q'' → Prop} {p : Proc Q A} {p' : Proc Q' A}
    {p'' : Proc Q'' A} (h : p.Alike alike p') (h' : p'.Alike alike' p'') :
    p.Alike (Relation.Comp alike alike') p'' := by
  induction p generalizing p' p'' with
  | answer a =>
    cases p' with
    | answer a' =>
      cases p'' with
      | answer a'' => exact Eq.trans h h'
      | call q'' next'' => exact h'.elim
    | call q' next' => exact h.elim
  | call q next ih =>
    cases p' with
    | answer a' => exact h.elim
    | call q' next' =>
      cases p'' with
      | answer a'' => exact h'.elim
      | call q'' next'' => exact ⟨⟨q',h.1,h'.1⟩,fun a => ih a (h.2 a) (h'.2 a)⟩

variable {body : Q → Proc Q A} {body' : Q' → Proc Q' A} {size : Q → ℕ}

/-- One body runs as the other does, with fuel enough for all the calls. -/
theorem exists_run_of_alike {fuel : ℕ}
    (hask : ∀ q q' a, alike q q' → eval body fuel q = some a → Returns body' q' a)
    {p : Proc Q A} {p' : Proc Q' A} (h : p.Alike alike p') {a : A}
    (hrun : p.run (eval body fuel) = some a) : ∃ fuel', p'.run (eval body' fuel') = some a := by
  induction p generalizing p' with
  | answer b =>
    cases p' with
    | answer b' => exact ⟨0,h ▸ hrun⟩
    | call q' next' => exact h.elim
  | call q next ih =>
    cases p' with
    | answer b' => exact h.elim
    | call q' next' =>
      rw [run] at hrun
      cases hq : eval body fuel q with
      | none => simp [hq] at hrun
      | some b =>
        rw [hq] at hrun
        obtain ⟨m,hm⟩ := hask q q' b h.1 hq
        obtain ⟨n,hn⟩ := ih b (h.2 b) hrun
        refine ⟨max m n,?_⟩
        rw [run,eval_mono (Nat.le_max_left m n) hm]
        exact run_mono (fun _ _ => eval_mono (Nat.le_max_right m n)) hn

/-- What a call passes on is what it returns. -/
theorem returns_ask_iff {q r : Q} (h : body q = Proc.ask r) (a : A) :
    Returns body q a ↔ Returns body r a := by
  refine ⟨?_,returns_ask h⟩
  rintro ⟨fuel,hfuel⟩
  cases fuel with
  | zero => cases hfuel
  | succ fuel =>
    rw [eval,h,run_ask] at hfuel
    exact ⟨fuel,hfuel⟩

/-- The calls return the same. -/
def Concur (body : Q → Proc Q A) (body' : Q' → Proc Q' A) (q : Q) (q' : Q') : Prop :=
  ∀ a, Returns body q a ↔ Returns body' q' a

/-- The bodies make, one after another, calls that are alike or known to return the same;
or the first passes on a smaller call that is alike. -/
def Follows (body : Q → Proc Q A) (body' : Q' → Proc Q' A) (alike : Q → Q' → Prop) (size : Q → ℕ)
    (q : Q) (q' : Q') : Prop :=
  (body q).Alike (fun r r' => alike r r' ∨ Concur body body' r r') (body' q') ∨
    ∃ r, body q = Proc.ask r ∧ alike r q' ∧ size r < size q

/-- Calls whose bodies follow one another return the same. -/
theorem concur_of_alike (hbody : ∀ q q', alike q q' → Follows body body' alike size q q') {q : Q}
    {q' : Q'} (h : alike q q') : Concur body body' q q' := by
  intro a
  constructor
  · rintro ⟨fuel,hfuel⟩
    induction fuel generalizing q q' a with
    | zero => cases hfuel
    | succ fuel ih =>
      rcases hbody q q' h with hsame | ⟨r,hr,halike,-⟩
      · have hask : ∀ r r' b, (alike r r' ∨ Concur body body' r r') → eval body fuel r = some b →
            Returns body' r' b := fun r r' b hr hb => hr.elim (fun hr => ih hr b hb)
          fun hr => (hr b).mp ⟨fuel,hb⟩
        obtain ⟨fuel',h⟩ := exists_run_of_alike hask hsame hfuel
        exact ⟨fuel'+1,h⟩
      · rw [eval,hr,run_ask] at hfuel
        exact ih halike a hfuel
  · rintro ⟨fuel,hfuel⟩
    induction fuel generalizing q q' a with
    | zero => cases hfuel
    | succ fuel ih =>
      -- what is passed on gets smaller
      induction hn : size q using Nat.strong_induction_on generalizing q with
      | _ n ihn =>
        rcases hbody q q' h with hsame | ⟨r,hr,halike,hsize⟩
        · have hask : ∀ r' r b, flip (fun r r' => alike r r' ∨ Concur body body' r r') r' r →
              eval body' fuel r' = some b → Returns body r b :=
            fun r' r b hr hb => hr.elim (fun hr => ih hr b hb) fun hr => (hr b).mpr ⟨fuel,hb⟩
          obtain ⟨fuel',h⟩ := exists_run_of_alike hask (alike_flip hsame) hfuel
          exact ⟨fuel'+1,h⟩
        · exact returns_ask hr (ihn (size r) (hn ▸ hsize) halike rfl)

/-- Calls whose bodies are alike return the same. -/
theorem returns_iff_of_bodies (hbody : ∀ q q', alike q q' → (body q).Alike alike (body' q'))
    {q : Q} {q' : Q'} (h : alike q q') (a : A) : Returns body q a ↔ Returns body' q' a := by
  have hsteps : ∀ q q', alike q q' → Follows body body' alike (fun _ => 0) q q' :=
    fun q q' h => .inl (alike_imp (fun _ _ => Or.inl) (hbody q q' h))
  exact concur_of_alike hsteps h a

end alike

end Proc
end TerraformLs
