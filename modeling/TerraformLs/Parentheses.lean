import TerraformLs.CongruentVerdicts

/-! Parentheses and the analysis of unknown values. The analysis evaluates what stands in
parentheses, and does not look through them where it asks for a shape. -/
namespace TerraformLs
namespace UnknownValue

open Proc

section shapes

/-- The shapes that the membership of a `for_each` or `count` value goes by. -/
def membershipShape (kind : MetaKind) : Expression → Bool
  | .array _ | .object _ | .forExpr _ _ _ _ _ _ _ => true
  | .funcCall _ name _ =>
    (kind = .count ∧ name = "length") ∨ isCollectionBuilder name ∨ isMembershipPassthrough name
  | e => (localName e).isSome || (varName e).isSome

/-- The shapes that a lookup in what a loop runs over goes by. -/
def collectionShape (ctx : UnknownCtx) : Expression → Bool
  | .array _ | .object _ => true
  | e => (localName e).isSome || (identityPassthroughArg e).isSome || (varName e).isSome ||
    (allowlistedCollection ctx e).isSome

/-- The analysis goes by the shape of the expression where it stands. -/
def Role.looksAt (ctx : UnknownCtx) : Role → Expression → Bool
  | .value,_ => false
  | .membership kind,e => membershipShape kind e
  | .counted,e => membershipShape .forEach e || (allowlistedCollection ctx e).isSome
  | .collection,e => collectionShape ctx e
  | .element,.object _ => true
  | .key,.string _ => true
  | .head,.variable _ => true
  | _,_ => false

variable {ctx : UnknownCtx} {e : Expression} {kind : MetaKind} {binds : Binds}
  {visited : Finset String}

theorem membership_plain (h : membershipShape kind e = false) :
    membershipApplyTimeInner ctx e kind binds visited =
      Proc.ask (.references e binds visited) := by
  cases e with
  | array | object | forExpr => cases h
  | funcCall ns name args =>
    simp only [membershipShape,decide_eq_false_iff_not,not_or] at h
    simp only [membershipApplyTimeInner]
    rw [if_neg h.1,if_neg (not_or.mpr h.2)]
  | traversal expr operators =>
    simp only [membershipShape,Bool.or_eq_false_iff,Option.isSome_eq_false_iff,
      Option.isNone_iff_eq_none] at h
    simp only [membershipApplyTimeInner]
    rw [h.1,h.2]
  | _ => rfl

theorem collection_plain (h : collectionShape ctx e = false) :
    (∀ field, elementValueApplyTime ctx e field binds visited =
        Proc.ask (.references e binds visited)) ∧
      keySetApplyTime ctx e binds visited = Proc.ask (.references e binds visited) := by
  have hother : ∀ entries, e ≠ .object entries := by
    rintro entries rfl
    cases h
  have hitems : ∀ items, e ≠ .array items := by
    rintro items rfl
    cases h
  have hshape : localName e = none ∧ identityPassthroughArg e = none ∧ varName e = none ∧
      allowlistedCollection ctx e = none := by
    have hsplit : ((localName e).isSome || (identityPassthroughArg e).isSome ||
        (varName e).isSome || (allowlistedCollection ctx e).isSome) = false := by
      cases e with
      | array items => exact (hitems items rfl).elim
      | object entries => exact (hother entries rfl).elim
      | _ => exact h
    simpa [and_assoc] using hsplit
  obtain ⟨hlocal,hidentity,hvar,hlisted⟩ := hshape
  have hres : resolveThroughLocals ctx e visited = (e,visited) :=
    resolveThroughLocals_other hlocal hidentity
  simp only [elementValueApplyTime,keySetApplyTime,hres]
  cases e with
  | array items => exact (hitems items rfl).elim
  | object entries => exact (hother entries rfl).elim
  | _ =>
    rw [hlisted,hvar]
    exact ⟨fun field => rfl,rfl⟩

end shapes

section parentheses

variable (ctx : UnknownCtx)

/-- Parentheses where the analysis does not go by the shape of what stands in them. -/
inductive Parenthesised : Role → Expression → Expression → Prop
  | intro {r : Role} {e : Expression} (h : r.looksAt ctx e = false) :
    Parenthesised r (.parenthesis e) e

def parentheses : Change where
  hole := Parenthesised ctx
  scope := fun _ => True
  reference := fun _ => True
  path := fun visited visited' => visited = visited'

/-- The first expression is the second with such parentheses around some of its parts. -/
def Enclosed (r : Role) (e e' : Expression) : Prop := Rewritten (parentheses ctx) r e e'

variable {ctx}

theorem admits_parentheses (e : Expression) : Admits (parentheses ctx) e :=
  fun _ _ => ⟨fun _ _ => trivial,trivial⟩

theorem harmless_parentheses : Harmless ctx (parentheses ctx) where
  references := by
    rintro r _ e binds binds' visited visited' ⟨h⟩ hb hv
    have hinner : Rewritten (parentheses ctx) .value e e :=
      rewritten_refl e (admits_parentheses e) .value
    refine .inr ⟨.references e binds visited,rfl,.references hinner hb hv,?_⟩
    simp [Call.site]
  membership := by
    rintro r _ e kind binds binds' visited visited' ⟨h⟩ hr hb hv
    have hplain : membershipShape kind e = false := by
      cases r with
      | membership => cases hr; exact h
      | counted => cases hr; exact (Bool.or_eq_false_iff.mp h).1
      | _ => cases hr
    rw [membership_plain (e:=e) hplain]
    exact matched_references (.hole (.intro h)) hb hv
  element := by
    rintro _ e field binds binds' visited visited' ⟨h⟩ hb hv
    rw [(collection_plain (e:=e) h).1,(collection_plain (e:=.parenthesis e) rfl).1]
    exact matched_references (.hole (.intro h)) hb hv
  keySet := by
    rintro _ e binds binds' visited visited' ⟨h⟩ hb hv
    rw [(collection_plain (e:=e) h).2,(collection_plain (e:=.parenthesis e) rfl).2]
    exact matched_references (.hole (.intro h)) hb hv
  counted := by
    rintro _ e ⟨h⟩
    exact ⟨rfl,Option.not_isSome_iff_eq_none.mp (Bool.eq_false_iff.mp (Bool.or_eq_false_iff.mp h).2)⟩
  object := by
    rintro _ e entries ⟨h⟩
    refine ⟨by simp,?_⟩
    rintro rfl
    cases h
  head := by
    rintro _ e name ⟨h⟩
    refine ⟨by simp,?_⟩
    rintro rfl
    cases h
  key := by
    rintro _ e text ⟨h⟩
    refine ⟨by simp,?_⟩
    rintro rfl
    cases h
  blocks := by
    rintro visited _ rfl a b
    exact ⟨Iff.rfl,Iff.rfl⟩
  locals := by
    rintro e x visited _ rfl _ _
    exact Iff.rfl
  undefined := by
    rintro x visited _ rfl _
    rfl
  definition := by
    rintro e x d visited _ rfl _ _ _ _
    exact .inl ⟨rfl,admits_parentheses d⟩
  configuration := fun hv _ _ => .inr hv

/-- The membership of what stands in parentheses is its value. -/
theorem membership_parenthesis (ctx : UnknownCtx) (e : Expression) (kind : MetaKind) :
    Concur (body ctx) (body ctx) (membershipApplyTime (.parenthesis e) kind) (valueApplyTime e) := by
  intro a
  have hvalue : body ctx (membershipApplyTime (.parenthesis e) kind) =
      Proc.ask (valueApplyTime (.parenthesis e)) := rfl
  have hinner : body ctx (valueApplyTime (.parenthesis e)) = Proc.ask (valueApplyTime e) := rfl
  rw [returns_ask_iff hvalue,returns_ask_iff hinner]

/-- `{ a = aws_instance.web.id }`. -/
def webMap : Expression := .object [(.ident "a",webId)]

end parentheses
end UnknownValue
end TerraformLs
