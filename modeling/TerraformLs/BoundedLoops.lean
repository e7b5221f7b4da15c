import TerraformLs.JsonSymbols

/-! Loops whose rounds may panic. A loop is cut short after a number of rounds, and it
ends by itself when each round lowers a measure. -/
namespace TerraformLs

/-- A loop was cut short. -/
inductive Unfinished
  | unfinished
  deriving DecidableEq

namespace Outcome

variable {ε α β : Type}

/-- The run ends in a value that satisfies `Q`, without an error or a panic. -/
def Safe (x : Outcome ε α) (Q : α → Prop) : Prop := ∃ a, x = .ok a ∧ Q a

def Ends (x : Outcome ε α) : Prop := ∃ a, x = .ok a

variable {x : Outcome ε α} {Q Q' : α → Prop} {R : β → Prop} {f : α → Outcome ε β}

theorem safe_ok {a : α} (h : Q a) : (ok a : Outcome ε α).Safe Q := ⟨a,rfl,h⟩

theorem ends_ok (a : α) : (ok a : Outcome ε α).Ends := ⟨a,rfl⟩

theorem Safe.ends (h : x.Safe Q) : x.Ends := by
  obtain ⟨a,ha,-⟩ := h
  exact ⟨a,ha⟩

theorem Ends.safe (h : x.Ends) : x.Safe fun a => x = .ok a := by
  obtain ⟨a,ha⟩ := h
  exact ⟨a,ha,ha⟩

theorem Safe.imp (h : x.Safe Q) (hQ : ∀ a, Q a → Q' a) : x.Safe Q' := by
  obtain ⟨a,ha,h⟩ := h
  exact ⟨a,ha,hQ a h⟩

theorem Safe.bind (h : x.Safe Q) (hf : ∀ a, Q a → (f a).Safe R) : (x >>= f).Safe R := by
  obtain ⟨a,rfl,h⟩ := h
  exact hf a h

theorem Safe.bind_ends (h : x.Safe Q) (hf : ∀ a, Q a → (f a).Ends) : (x >>= f).Ends := by
  obtain ⟨a,rfl,h⟩ := h
  exact hf a h

theorem Ends.bind (h : x.Ends) (hf : ∀ a, x = .ok a → (f a).Ends) : (x >>= f).Ends :=
  h.safe.bind_ends hf

/-- The run panics under a condition, and ends without an error otherwise. -/
def PanicsWhen (x : Outcome ε α) (T : Prop) : Prop := (T → x = .panicked) ∧ (¬T → x.Ends)

variable {T T' : Prop} {U : α → Prop}

theorem panicsWhen_panicked (h : T) : (panicked : Outcome ε α).PanicsWhen T :=
  ⟨fun _ => rfl,fun hnot => absurd h hnot⟩

theorem Ends.panicsWhen (h : x.Ends) (hT : ¬T) : x.PanicsWhen T :=
  ⟨fun hpanic => absurd hpanic hT,fun _ => h⟩

theorem PanicsWhen.congr (h : x.PanicsWhen T) (hT : T ↔ T') : x.PanicsWhen T' :=
  ⟨fun hpanic => h.1 (hT.mpr hpanic),fun hnot => h.2 fun hpanic => hnot (hT.mp hpanic)⟩

theorem Ends.bind_panicsWhen (h : x.Ends) (hf : ∀ a, x = .ok a → (f a).PanicsWhen (U a)) :
    (x >>= f).PanicsWhen (∃ a, x = .ok a ∧ U a) := by
  obtain ⟨a,rfl⟩ := h
  refine (hf a rfl).congr ⟨fun hU => ⟨a,rfl,hU⟩,?_⟩
  rintro ⟨b,hb,hU⟩
  cases hb
  exact hU

theorem PanicsWhen.bind (h : x.PanicsWhen T) (hf : ∀ a, x = .ok a → (f a).PanicsWhen (U a)) :
    (x >>= f).PanicsWhen (T ∨ ∃ a, x = .ok a ∧ U a) := by
  by_cases hT : T
  · rw [h.1 hT]
    exact panicsWhen_panicked (.inl hT)
  · exact ((h.2 hT).bind_panicsWhen hf).congr ⟨.inr,fun hor => hor.resolve_left hT⟩

theorem PanicsWhen.ends_iff (h : x.PanicsWhen T) : x.Ends ↔ ¬T := by
  refine ⟨fun ⟨a,ha⟩ hT => ?_,h.2⟩
  have hpanic := h.1 hT
  rw [ha] at hpanic
  cases hpanic

theorem PanicsWhen.ne_err (h : x.PanicsWhen T) (e : ε) : x ≠ .err e := by
  rintro rfl
  by_cases hT : T
  · cases h.1 hT
  · obtain ⟨a,ha⟩ := h.2 hT
    cases ha

end Outcome

namespace Loops

open Outcome

variable {σ α β : Type}

abbrev Scan := Outcome Unfinished

/-- Take rounds, each of which goes on from a state or is the last. -/
def loop (step : σ → Scan (σ ⊕ α)) : ℕ → σ → Scan α
  | 0, _ => .err .unfinished
  | fuel+1, s => do
    match ← step s with
    | .inl s' => loop step fuel s'
    | .inr a => return a

theorem loop_next {step : σ → Scan (σ ⊕ α)} {s s' : σ} (h : step s = .ok (.inl s')) (fuel : ℕ) :
    loop step (fuel+1) s = loop step fuel s' := by
  rw [loop,h]
  rfl

theorem loop_last {step : σ → Scan (σ ⊕ α)} {s : σ} {a : α} (h : step s = .ok (.inr a))
    (fuel : ℕ) : loop step (fuel+1) s = .ok a := by
  rw [loop,h]
  rfl

theorem loop_panicked {step : σ → Scan (σ ⊕ α)} {s : σ} (h : step s = .panicked) (fuel : ℕ) :
    loop step (fuel+1) s = .panicked := by
  rw [loop,h]
  rfl

/-- Every round keeps the invariant and lowers the measure, or is the last one. -/
theorem loop_safe {step : σ → Scan (σ ⊕ α)} {P : σ → Prop} {Q : α → Prop} {m : σ → ℕ}
    (hstep : ∀ s, P s → (step s).Safe fun r => (∀ s', r = .inl s' → P s' ∧ m s' < m s) ∧
      ∀ a, r = .inr a → Q a) {fuel : ℕ} {s : σ} (hs : P s) (hfuel : m s < fuel) :
    (loop step fuel s).Safe Q := by
  induction fuel generalizing s with
  | zero => omega
  | succ fuel ih =>
    rw [loop]
    refine (hstep s hs).bind fun r hr => ?_
    cases r with
    | inl s' =>
      obtain ⟨hs',hlt⟩ := hr.1 s' rfl
      exact ih hs' (by omega)
    | inr a => exact safe_ok (hr.2 a rfl)

theorem safe_next {x : σ} {Q : σ → Prop} {R : α → Prop} (h : Q x) :
    (ok (.inl x) : Scan (σ ⊕ α)).Safe fun r => (∀ s', r = .inl s' → Q s') ∧
      ∀ a, r = .inr a → R a := by
  refine safe_ok ⟨fun s' hs' => ?_,fun a ha => ?_⟩
  · cases hs'
    exact h
  · cases ha

theorem safe_last {x : α} {Q : σ → Prop} {R : α → Prop} (h : R x) :
    (ok (.inr x) : Scan (σ ⊕ α)).Safe fun r => (∀ s', r = .inl s' → Q s') ∧
      ∀ a, r = .inr a → R a := by
  refine safe_ok ⟨fun s' hs' => ?_,fun a ha => ?_⟩
  · cases hs'
  · cases ha
    exact h

/-- `bs[i]`. -/
def index (bs : List β) (i : ℕ) : Scan β :=
  match bs[i]? with
  | some b => .ok b
  | none => .panicked

/-- `bs[i] = b`. -/
def store (bs : List β) (i : ℕ) (b : β) : Scan (List β) :=
  if i < bs.length then .ok (bs.set i b) else .panicked

/-- `a - b` on unsigned integers. -/
def minus (a b : ℕ) : Scan ℕ := if b ≤ a then .ok (a - b) else .panicked

variable {bs : List β} {i j : ℕ}

theorem index_of_getElem? {b : β} (h : bs[i]? = some b) : index bs i = .ok b := by
  rw [index,h]

theorem index_safe (h : i < bs.length) : (index bs i).Safe fun b => bs[i]? = some b :=
  ⟨bs[i],index_of_getElem? (List.getElem?_eq_getElem h),List.getElem?_eq_getElem h⟩

theorem store_safe {b : β} (h : i < bs.length) :
    (store bs i b).Safe fun bs' => bs'.length = bs.length :=
  ⟨bs.set i b,if_pos h,List.length_set⟩

theorem minus_safe {a b : ℕ} (h : b ≤ a) : (minus a b).Safe fun c => c + b = a :=
  ⟨a - b,if_pos h,Nat.sub_add_cancel h⟩

def skipStep (p : β → Bool) (bs : List β) (j : ℕ) : Scan (ℕ ⊕ ℕ) :=
  if j < bs.length then do
    let b ← index bs j
    return if p b then .inl (j+1) else .inr j
  else return .inr j

/-- `while j < bs.len() && p(bs[j]) { j += 1; }`. -/
def skipWhile (p : β → Bool) (bs : List β) (j : ℕ) : Scan ℕ :=
  loop (skipStep p bs) (bs.length + 1) j

theorem skipWhile_safe (p : β → Bool) (bs : List β) (i : ℕ) :
    (skipWhile p bs i).Safe fun j => i ≤ j ∧ j ≤ max i bs.length := by
  refine loop_safe (P:=fun j => i ≤ j ∧ j ≤ max i bs.length) (m:=fun j => bs.length - j)
    (fun j hj => ?_) ⟨le_refl i,le_max_left i _⟩ (by omega)
  rw [skipStep]
  split
  · rename_i hlt
    refine (index_safe hlt).bind fun b _ => ?_
    cases p b with
    | true => exact safe_next ⟨by omega,by omega⟩
    | false => exact safe_last hj
  · exact safe_last hj

end Loops
end TerraformLs
