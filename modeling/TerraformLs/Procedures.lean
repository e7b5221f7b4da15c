import Mathlib.Data.Fintype.Card
import Mathlib.Data.Set.Finite.Basic
import Mathlib.Order.WellFounded
import TerraformLs.Walks

/-! Mutually recursive functions as a system of calls. The body of a call
answers, or makes a call and goes on with what it returns. A system in which only
some calls, the lookups, can fail to get smaller, and which meets finitely many of
them, ends unless a lookup leads back to itself. -/
namespace TerraformLs

inductive Proc (Q A : Type)
  | answer (a : A)
  | call (q : Q) (next : A → Proc Q A)

namespace Proc

variable {Q A : Type}

/-- Run a body, given what its calls return. -/
def run (ask : Q → Option A) : Proc Q A → Option A
  | .answer a => some a
  | .call q next =>
    match ask q with
    | some a => (next a).run ask
    | none => none

/-- The call is made when the body runs. -/
def Asks (returns : Q → A → Prop) : Proc Q A → Q → Prop
  | .answer _, _ => False
  | .call q next, q' => q' = q ∨ ∃ a, returns q a ∧ (next a).Asks returns q'

/-- Every call the body can make satisfies `P`. -/
def Only (P : Q → Prop) : Proc Q A → Prop
  | .answer _ => True
  | .call q next => P q ∧ ∀ a, (next a).Only P

theorem Only.of_asks {P : Q → Prop} {returns : Q → A → Prop} {p : Proc Q A} (h : p.Only P)
    {q : Q} (hq : p.Asks returns q) : P q := by
  induction p with
  | answer a => exact hq.elim
  | call q' next ih =>
    rcases hq with rfl | ⟨a,-,ha⟩
    · exact h.1
    · exact ih a (h.2 a) ha

theorem run_mono {ask ask' : Q → Option A} (h : ∀ q a, ask q = some a → ask' q = some a)
    {p : Proc Q A} {a : A} (hp : p.run ask = some a) : p.run ask' = some a := by
  induction p with
  | answer b => exact hp
  | call q next ih =>
    unfold run at hp ⊢
    split at hp
    · rename_i b hb
      rw [h q b hb]
      exact ih b hp
    · cases hp

/-- The calls of a run that ends have returned. -/
theorem returned_of_run {ask : Q → Option A} {returns : Q → A → Prop}
    (hret : ∀ q a b, ask q = some a → returns q b → b = a) {p : Proc Q A} {a : A}
    (hp : p.run ask = some a) {q : Q} (hq : p.Asks returns q) : ∃ b, ask q = some b := by
  induction p with
  | answer b => exact hq.elim
  | call q' next ih =>
    unfold run at hp
    split at hp
    · rename_i b hb
      rcases hq with rfl | ⟨c,hc,hq⟩
      · exact ⟨b,hb⟩
      · rw [hret q' b c hb hc] at hq
        exact ih b hp hq
    · cases hp

section any

/-- Make a call and answer what it returns. -/
def ask (q : Q) : Proc Q A := .call q .answer

/-- The second is run only when the first answers `false`. -/
def or : Proc Q Bool → Proc Q Bool → Proc Q Bool
  | .answer b, p => if b then .answer true else p
  | .call q next, p => .call q fun b => (next b).or p

/-- Run the bodies of the items one after another, until one answers `true`. -/
def any {X : Type} (f : X → Proc Q Bool) : List X → Proc Q Bool
  | [] => .answer false
  | x::xs => (f x).or (any f xs)

variable {P : Q → Prop}

@[simp] theorem only_answer (a : A) : (Proc.answer a).Only P := trivial

@[simp] theorem only_ask (q : Q) : (ask q : Proc Q A).Only P ↔ P q := by simp [ask,Only]

theorem only_ite {c : Prop} [Decidable c] {p p' : Proc Q A} (h : p.Only P) (h' : p'.Only P) :
    (if c then p else p').Only P := by
  split
  · exact h
  · exact h'

theorem only_or {p p' : Proc Q Bool} (h : p.Only P) (h' : p'.Only P) : (p.or p').Only P := by
  induction p with
  | answer b => cases b <;> simp [or,h']
  | call q next ih => exact ⟨h.1,fun b => ih b (h.2 b)⟩

theorem only_any {X : Type} {f : X → Proc Q Bool} {xs : List X}
    (h : ∀ x ∈ xs, (f x).Only P) : (any f xs).Only P := by
  induction xs with
  | nil => trivial
  | cons x xs ih =>
    exact only_or (h x List.mem_cons_self) (ih fun y hy => h y (List.mem_cons_of_mem x hy))

end any

section all

/-- Make the calls one after another and go on with what they return. -/
def askAll : List Q → (List A → Proc Q A) → Proc Q A
  | [], next => next []
  | q::qs, next => .call q fun a => askAll qs fun as => next (a :: as)

/-- Make the calls until one returns something that passes. -/
def askUntil (passes : A → Bool) (otherwise : A) : List Q → Proc Q A
  | [] => .answer otherwise
  | q::qs => .call q fun a => if passes a then .answer a else askUntil passes otherwise qs

/-- What the body answers when the calls return what the oracle says. -/
def answerWith (oracle : Q → A) : Proc Q A → A
  | .answer a => a
  | .call q next => (next (oracle q)).answerWith oracle

/-- The same body, with its calls under other names. -/
def retag {Q' : Type} (f : Q → Q') : Proc Q A → Proc Q' A
  | .answer a => .answer a
  | .call q next => .call (f q) fun a => (next a).retag f

variable {P : Q → Prop}

theorem only_askAll {qs : List Q} {next : List A → Proc Q A} (hqs : ∀ q ∈ qs, P q)
    (hnext : ∀ as, (next as).Only P) : (askAll qs next).Only P := by
  induction qs generalizing next with
  | nil => exact hnext []
  | cons q qs ih =>
    have htail : ∀ q' ∈ qs, P q' := fun q' hq' => hqs q' (List.mem_cons_of_mem q hq')
    exact ⟨hqs q List.mem_cons_self,fun a => ih htail fun as => hnext (a :: as)⟩

theorem only_askUntil {passes : A → Bool} {otherwise : A} {qs : List Q} (hqs : ∀ q ∈ qs, P q) :
    (askUntil passes otherwise qs).Only P := by
  induction qs with
  | nil => trivial
  | cons q qs ih =>
    refine ⟨hqs q List.mem_cons_self,fun a => ?_⟩
    show (if passes a then answer a else askUntil passes otherwise qs).Only P
    split
    · trivial
    · exact ih fun q' hq' => hqs q' (List.mem_cons_of_mem q hq')

theorem answerWith_askAll (oracle : Q → A) (qs : List Q) (next : List A → Proc Q A) :
    (askAll qs next).answerWith oracle = (next (qs.map oracle)).answerWith oracle := by
  induction qs generalizing next with
  | nil => rfl
  | cons q qs ih => exact ih fun as => next (oracle q :: as)

/-- An oracle that knows what the calls return knows the answer. -/
theorem answerWith_of_run {ask : Q → Option A} {oracle : Q → A}
    (h : ∀ q a, ask q = some a → oracle q = a) {p : Proc Q A} {a : A} (hp : p.run ask = some a) :
    p.answerWith oracle = a := by
  induction p with
  | answer b => exact Option.some.inj hp
  | call q next ih =>
    unfold run at hp
    split at hp
    · rename_i b hb
      show (next (oracle q)).answerWith oracle = a
      rw [h q b hb]
      exact ih b hp
    · cases hp

/-- With calls that return at most one answer each, a body makes finitely many. -/
theorem finite_asks {returns : Q → A → Prop}
    (hret : ∀ q a b, returns q a → returns q b → a = b) (p : Proc Q A) :
    {q | p.Asks returns q}.Finite := by
  induction p with
  | answer a => exact Set.finite_empty
  | call q next ih =>
    by_cases h : ∃ a, returns q a
    · obtain ⟨a,ha⟩ := h
      apply ((ih a).insert q).subset
      intro q' hq'
      rcases hq' with rfl | ⟨b,hb,hq'⟩
      · exact Set.mem_insert _ _
      · rw [hret q b a hb ha] at hq'
        exact Set.mem_insert_of_mem _ hq'
    · apply (Set.finite_singleton q).subset
      intro q' hq'
      rcases hq' with rfl | ⟨b,hb,-⟩
      · exact Set.mem_singleton _
      · exact absurd ⟨b,hb⟩ h

end all

section system

variable (body : Q → Proc Q A)

/-- Evaluate a call; the fuel bounds the depth of the recursion. -/
def eval : ℕ → Q → Option A
  | 0, _ => none
  | fuel+1, q => (body q).run (eval fuel)

def Returns (q : Q) (a : A) : Prop := ∃ fuel, eval body fuel q = some a

def Terminates (q : Q) : Prop := ∃ a, Returns body q a

/-- The evaluation of the first call makes the second. -/
def Calls (q q' : Q) : Prop := (body q).Asks (Returns body) q'

variable {body}

theorem eval_mono {fuel fuel' : ℕ} (h : fuel ≤ fuel') {q : Q} {a : A}
    (hq : eval body fuel q = some a) : eval body fuel' q = some a := by
  induction fuel generalizing fuel' q a with
  | zero => cases hq
  | succ fuel ih =>
    cases fuel' with
    | zero => cases h
    | succ fuel' =>
      exact run_mono (fun _ _ => ih (Nat.le_of_succ_le_succ h)) hq

theorem returns_unique {q : Q} {a b : A} (ha : Returns body q a) (hb : Returns body q b) :
    a = b := by
  obtain ⟨m,hm⟩ := ha
  obtain ⟨n,hn⟩ := hb
  have hm := eval_mono (Nat.le_max_left m n) hm
  rw [eval_mono (Nat.le_max_right m n) hn] at hm
  exact (Option.some.inj hm).symm

theorem acc_of_eval {fuel : ℕ} {q : Q} {a : A} (h : eval body fuel q = some a) :
    Acc (fun q' q => Calls body q q') q := by
  induction fuel generalizing q a with
  | zero => cases h
  | succ fuel ih =>
    refine ⟨q,fun q' hq' => ?_⟩
    have hret : ∀ q a b, eval body fuel q = some a → Returns body q b → b = a :=
      fun q a b ha hb => returns_unique hb ⟨fuel,ha⟩
    rw [eval] at h
    obtain ⟨b,hb⟩ := returned_of_run hret h hq'
    exact ih hb

/-- A body whose calls all terminate has an answer. -/
theorem answers_of_calls {p : Proc Q A}
    (h : ∀ q, p.Asks (Returns body) q → Terminates body q) :
    ∃ fuel a, p.run (eval body fuel) = some a := by
  induction p with
  | answer a => exact ⟨0,a,rfl⟩
  | call q next ih =>
    obtain ⟨a,m,hm⟩ := h q (.inl rfl)
    obtain ⟨n,b,hn⟩ := ih a fun q' hq' => h q' (.inr ⟨a,⟨m,hm⟩,hq'⟩)
    refine ⟨max m n,b,?_⟩
    rw [run,eval_mono (Nat.le_max_left m n) hm]
    exact run_mono (fun _ _ => eval_mono (Nat.le_max_right m n)) hn

theorem terminates_of_acc {q : Q} (h : Acc (fun q' q => Calls body q q') q) :
    Terminates body q := by
  induction h with
  | intro q _ ih =>
    obtain ⟨fuel,a,ha⟩ := answers_of_calls ih
    exact ⟨a,fuel+1,ha⟩

theorem terminates_iff_acc {q : Q} :
    Terminates body q ↔ Acc (fun q' q => Calls body q q') q :=
  ⟨fun ⟨_,_,h⟩ => acc_of_eval h,terminates_of_acc⟩

theorem returns_answer {q : Q} {a : A} (h : body q = .answer a) : Returns body q a :=
  ⟨1,by rw [eval,h]; rfl⟩

theorem returns_ask {q q' : Q} {a : A} (h : body q = ask q') (hq' : Returns body q' a) :
    Returns body q a := by
  obtain ⟨fuel,hfuel⟩ := hq'
  refine ⟨fuel+1,?_⟩
  rw [eval,h,ask,run,hfuel]
  rfl

theorem calls_first {q q' : Q} {next : A → Proc Q A} (h : body q = .call q' next) :
    Calls body q q' := by
  rw [Calls,h]
  exact .inl rfl

/-- A call made once the first has returned. -/
theorem calls_after {q q₁ q' : Q} {next : A → Proc Q A} {a : A} (h : body q = .call q₁ next)
    (ha : Returns body q₁ a) (hq' : (next a).Asks (Returns body) q') : Calls body q q' := by
  rw [Calls,h]
  exact .inr ⟨a,ha,hq'⟩

/-- A call that terminates leads to no call that leads back to itself. -/
theorem not_onCycle_of_terminates {q q' : Q} (h : Terminates body q)
    (hq : Relation.ReflTransGen (Calls body) q q') : ¬Walks.OnCycle (Calls body) q' := by
  have hacc : Acc (fun q' q => Calls body q q') q' := by
    induction hq with
    | refl => exact terminates_iff_acc.mp h
    | tail _ hcall ih => exact ih.inv hcall
  exact Walks.not_onCycle_of_acc hacc

/-- A call terminates when no infinite chain of calls starts from it. -/
theorem terminates_iff_no_chain {q : Q} : Terminates body q ↔
    ¬∃ chain : ℕ → Q, chain 0 = q ∧ ∀ n, Calls body (chain n) (chain (n+1)) := by
  rw [terminates_iff_acc,← not_iff_not,not_not,not_acc_iff_exists_descending_chain]

end system

section reentry

open Relation Walks

variable {body : Q → Proc Q A} {lookup : Q → Prop} {W : Type} {smaller : W → W → Prop}
  {weight : Q → W}

/-- A call from which only terminating lookups are reached terminates. -/
theorem acc_of_lookups (hwf : WellFounded smaller)
    (hweight : ∀ q q', Calls body q q' → ¬lookup q' → smaller (weight q') (weight q)) {q : Q}
    (h : ∀ l, lookup l → TransGen (Calls body) q l → Acc (fun q' q => Calls body q q') l) :
    Acc (fun q' q => Calls body q q') q := by
  -- along calls that are no lookups the weight goes down
  have hdown : ∀ w, ∀ q, weight q = w →
      (∀ l, lookup l → TransGen (Calls body) q l → Acc (fun q' q => Calls body q q') l) →
      Acc (fun q' q => Calls body q q') q := by
    intro w
    induction w using hwf.induction with
    | _ w ih =>
      rintro q rfl hq
      refine ⟨q,fun q' hq' => ?_⟩
      by_cases hl : lookup q'
      · exact hq q' hl (.single hq')
      · exact ih _ (hweight q q' hq' hl) q' rfl fun l hl hql => hq l hl (hql.head hq')
  exact hdown _ q rfl h

/-- Let calls that are no lookups get smaller, and let finitely many lookups be
reached. Then a call terminates exactly when no lookup leads back to itself. -/
theorem terminates_iff_no_reentry (hwf : WellFounded smaller)
    (hweight : ∀ q q', Calls body q q' → ¬lookup q' → smaller (weight q') (weight q)) {q : Q}
    (hfin : {l | lookup l ∧ ReflTransGen (Calls body) q l}.Finite) :
    Terminates body q ↔
      ∀ l, lookup l → ReflTransGen (Calls body) q l → ¬OnCycle (Calls body) l := by
  constructor
  · exact fun h l _ hql => not_onCycle_of_terminates h hql
  · intro h
    rw [terminates_iff_acc]
    -- among the lookups that are reached, leading to one another is a finite strict order
    have hlookups : ∀ l : {l | lookup l ∧ ReflTransGen (Calls body) q l},
        Acc (fun q' q => Calls body q q') l.1 := by
      have hfinite : Finite {l | lookup l ∧ ReflTransGen (Calls body) q l} := hfin
      let leads : {l | lookup l ∧ ReflTransGen (Calls body) q l} →
        {l | lookup l ∧ ReflTransGen (Calls body) q l} → Prop :=
        fun l' l => TransGen (Calls body) l.1 l'.1
      have htrans : IsTrans _ leads := ⟨fun _ _ _ hab hbc => hbc.trans hab⟩
      have hirrefl : Std.Irrefl leads := ⟨fun l => h l.1 l.2.1 l.2.2⟩
      intro l
      induction l using (Finite.wellFounded_of_trans_of_irrefl leads).induction with
      | _ l ih =>
        refine acc_of_lookups hwf hweight fun l' hl' hll' => ?_
        exact ih ⟨l',hl',l.2.2.trans hll'.to_reflTransGen⟩ hll'
    exact acc_of_lookups hwf hweight fun l hl hql => hlookups ⟨l,hl,hql.to_reflTransGen⟩

end reentry
end Proc
end TerraformLs
