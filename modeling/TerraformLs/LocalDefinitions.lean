import TerraformLs.Parentheses

/-! References to locals and the definitions they stand for. A reference is evaluated as
its whole definition, whatever field it selects, and the path remembers the name. -/
namespace TerraformLs
namespace UnknownValue

open Proc Relation

section mentions

variable (ctx : UnknownCtx)

/-- The expression leads to a reference to the local, itself or through the definitions and
configurations that it refers to. -/
inductive Mentions : Expression → String → Prop
  | here {e : Expression} {x : String} (hx : localName e = some x) : Mentions e x
  | definition {e d : Expression} {x y : String} (hy : localName e = some y)
    (hd : ctx.locals.lookup y = some d) (h : Mentions d x) : Mentions e x
  | configuration {e d : Expression} {key x : String} (hd : Configured ctx e key d)
    (h : Mentions d x) : Mentions e x
  | part {e c : Expression} {x : String} (hc : c ∈ children e) (h : Mentions c x) : Mentions e x

/-- The paths differ in whether they have visited the local. -/
def detour (x : String) : Change where
  hole := fun _ _ _ => False
  scope := fun _ => True
  reference := fun e => ¬Mentions ctx e x
  path := fun visited visited' => ∀ k ≠ x, k ∈ visited ↔ k ∈ visited'

variable {ctx} {e d : Expression} {x : String} {visited : Finset String}

theorem mentions_below {c : Expression} (hc : ReflTransGen (fun e c => c ∈ children e) e c)
    (h : Mentions ctx c x) : Mentions ctx e x := by
  induction hc using ReflTransGen.head_induction_on with
  | refl => exact h
  | head hc _ ih => exact .part hc ih

theorem admits_detour (h : ¬Mentions ctx e x) : Admits (detour ctx x) e :=
  fun _ hc => ⟨fun _ _ => trivial,fun hm => h (mentions_below hc hm)⟩

/-- Names of locals have no colon, unlike those of blocks. -/
theorem colon_key (a b : String) :
    ':' ∈ (resourceKey a b).toList ∧ ':' ∈ (dataKey a b).toList := by
  simp [resourceKey,dataKey]

theorem harmless_detour (hx : ':' ∉ x.toList) : Harmless ctx (detour ctx x) where
  references := fun h => h.elim
  membership := fun h => h.elim
  element := fun h => h.elim
  keySet := fun h => h.elim
  counted := fun h => h.elim
  object := fun h => h.elim
  head := fun h => h.elim
  key := fun h => h.elim
  blocks := by
    intro visited visited' hv a b
    refine ⟨hv _ ?_,hv _ ?_⟩
    · exact fun h => hx (h ▸ (colon_key a b).1)
    · exact fun h => hx (h ▸ (colon_key a b).2)
  locals := by
    intro e y visited visited' hv hmention hy
    refine hv y ?_
    rintro rfl
    exact hmention (.here hy)
  undefined := by
    intro y visited visited' hv _ k hk
    rw [Finset.mem_insert,Finset.mem_insert,hv k hk]
  definition := by
    intro e y d visited visited' hv hmention hy _ hd
    refine .inl ⟨fun k hk => ?_,admits_detour fun hm => hmention (.definition hy hd hm)⟩
    rw [Finset.mem_insert,Finset.mem_insert,hv k hk]
  configuration := by
    intro e key d visited visited' hv hmention hd
    refine .inl ⟨fun k hk => ?_,admits_detour fun hm => hmention (.configuration hd hm)⟩
    rw [Finset.mem_insert,Finset.mem_insert,hv k hk]

theorem detour_path (x : String) (visited : Finset String) :
    (detour ctx x).path (insert x visited) visited := by
  intro k hk
  simp [hk]

/-- A local that is not mentioned may have been visited or not. -/
theorem concur_detour (hx : ':' ∉ x.toList) (h : ¬Mentions ctx e x) :
    Concur (body ctx) (body ctx) (.references e ∅ (insert x visited)) (.references e ∅ visited) := by
  have hrefl : Rewritten (detour ctx x) .value e e := rewritten_refl e (admits_detour h) .value
  exact concur_of_linked (harmless_detour hx)
    (.references hrefl linkedBinds_empty (detour_path x visited))

theorem concur_detour_membership {kind : MetaKind} (hx : ':' ∉ x.toList) (h : ¬Mentions ctx e x) :
    Concur (body ctx) (body ctx) (.membership e kind ∅ (insert x visited))
      (.membership e kind ∅ visited) := by
  have hrefl : Rewritten (detour ctx x) (.membership kind) e e :=
    rewritten_refl e (admits_detour h) (.membership kind)
  exact concur_of_linked (harmless_detour hx)
    (.membership rfl hrefl linkedBinds_empty (detour_path x visited))

end mentions

section inlining

/-- `local.x`, followed by operators. -/
def localRef (x : String) (operators : List TraversalOperator) : Expression :=
  .traversal (.variable "local") (.getAttr x :: operators)

/-- The definition in parentheses in place of the local. -/
def inlinedRef (d : Expression) : List TraversalOperator → Expression
  | [] => .parenthesis d
  | op::operators => .traversal (.parenthesis d) (op :: operators)

variable (ctx : UnknownCtx) (x : String) (d : Expression)

/-- The local where the analysis does not go by the shape of its definition. The operators
behind it evaluate nothing. -/
inductive InlinedLocal : Role → Expression → Expression → Prop
  | intro {r : Role} {operators : List TraversalOperator} (hindex : operatorExprs operators = [])
    (hmembership : ∀ kind, r.kind = some kind → membershipShape kind d = false)
    (hcollection : r = .collection → collectionShape ctx d = false) :
    InlinedLocal r (localRef x operators) (inlinedRef d operators)

/-- The loops around the local bind no name that its definition reads. -/
def inlining : Change where
  hole := InlinedLocal ctx x d
  scope := fun name => ¬Reads ctx d name
  reference := fun _ => True
  path := fun visited visited' => visited = visited' ∧ x ∉ visited

/-- The first expression is the second with the local in place of its definition. -/
def Inlined (r : Role) (e e' : Expression) : Prop := Rewritten (inlining ctx x d) r e e'

variable {ctx x d} {binds binds' : Binds} {visited : Finset String} {e e' : Expression}
  {operators : List TraversalOperator}

theorem localName_localRef (operators : List TraversalOperator) :
    localName (localRef x operators) = some x := rfl

theorem resolveLocalDef_fresh (hd : ctx.locals.lookup x = some d) (hv : x ∉ visited) :
    resolveLocalDef ctx (some x) visited = some (d,insert x visited) := by
  simp only [resolveLocalDef]
  rw [if_neg hv,hd]
  rfl

theorem body_localRef (hd : ctx.locals.lookup x = some d) (hv : x ∉ visited) :
    body ctx (.references (localRef x operators) binds visited) =
      Proc.ask (.references d binds (insert x visited)) := by
  have hfirst : firstAttr (.getAttr x :: operators) = some x := rfl
  simp only [body,localRef,referencesApplyTime,traversalApplyTime]
  rw [if_pos trivial,hfirst,resolveLocalDef_fresh hd hv]

theorem membership_localRef {kind : MetaKind} (operators : List TraversalOperator)
    (hd : ctx.locals.lookup x = some d) (hv : x ∉ visited) : membershipApplyTimeInner ctx (localRef x operators) kind binds visited =
      Proc.ask (.membership d kind binds (insert x visited)) := by
  have hname : localName (.traversal (.variable "local") (.getAttr x :: operators)) = some x := rfl
  simp only [localRef,membershipApplyTimeInner]
  rw [hname]
  dsimp only
  rw [resolveLocalDef_fresh hd hv]

theorem or_false_right (p : Proc Call Bool) : p.or (.answer false) = p := by
  induction p with
  | answer b => cases b <;> rfl
  | call q next ih => exact congrArg (Proc.call q) (funext ih)

/-- The definition in its place is evaluated as it stands. -/
theorem body_inlinedRef (ctx : UnknownCtx) (d : Expression) (binds : Binds)
    (visited : Finset String) (hindex : operatorExprs operators = []) :
    ∃ q, body ctx (.references (inlinedRef d operators) binds visited) = Proc.ask q ∧
      Concur (body ctx) (body ctx) q (.references d binds visited) := by
  have hinner : body ctx (.references (.parenthesis d) binds visited) =
      Proc.ask (.references d binds visited) := rfl
  cases operators with
  | nil => exact ⟨_,hinner,fun _ => Iff.rfl⟩
  | cons op operators =>
    refine ⟨.references (.parenthesis d) binds visited,?_,returns_ask_iff hinner⟩
    simp only [body,inlinedRef,referencesApplyTime,traversalApplyTime]
    rw [indexOperators_eq,hindex]
    exact or_false_right _

theorem concur_inlinedRef (hindex : operatorExprs operators = []) :
    Concur (body ctx) (body ctx) (.references (inlinedRef d operators) binds visited)
      (.references d binds visited) := by
  obtain ⟨q,hq,hagree⟩ := body_inlinedRef ctx d binds visited hindex
  exact fun a => (returns_ask_iff hq a).trans (hagree a)

theorem membershipShape_inlinedRef (kind : MetaKind) :
    membershipShape kind (inlinedRef d operators) = false := by
  cases operators with
  | nil => rfl
  | cons op operators => simp [membershipShape,inlinedRef,localName,varName,headName]

theorem allowlisted_inlinedRef : allowlistedCollection ctx (inlinedRef d operators) = none := by
  cases operators <;> rfl

theorem collectionShape_inlinedRef : collectionShape ctx (inlinedRef d operators) = false := by
  have hlisted : allowlistedCollection ctx (inlinedRef d operators) = none := allowlisted_inlinedRef
  cases operators with
  | nil => rfl
  | cons op operators =>
    simp only [inlinedRef] at hlisted
    simp [collectionShape,inlinedRef,localName,varName,headName,identityPassthroughArg,hlisted]

theorem allowlisted_localRef : allowlistedCollection ctx (localRef x operators) = none := by
  have hsafe : "local" = "data" ∨ "local" ∈ safeRoots := by decide
  simp only [localRef,allowlistedCollection,allowlistedTraversal]
  rw [if_pos hsafe]

/-- Neither has a shape that the analysis goes by in the other places. -/
theorem inlinedRef_shape :
    (∀ entries, inlinedRef d operators ≠ .object entries) ∧
      (∀ name, inlinedRef d operators ≠ .variable name) ∧
        ∀ text, inlinedRef d operators ≠ .string text := by
  cases operators <;> exact ⟨nofun,nofun,nofun⟩

/-- What reads no name that is bound is evaluated as if none were. -/
theorem concur_unbound (h : ∀ name, binds.lookup name ≠ none → ¬Reads ctx e name) :
    Concur (body ctx) (body ctx) (.references e binds visited) (.references e ∅ visited) := by
  refine fun a => returns_iff_of_twin (.references (overlaid_empty binds) ?_) a
  intro name hname _
  by_contra hbound
  exact h name hbound hname

/-- The definition is evaluated alike behind the local and in its place. -/
theorem concur_definition (hx : ':' ∉ x.toList) (hmention : ¬Mentions ctx d x)
    (hb : LinkedBinds (inlining ctx x d) binds binds') :
    Concur (body ctx) (body ctx) (.references d binds (insert x visited))
      (.references d binds' visited) := by
  intro a
  rw [concur_unbound hb.scope a,concur_detour hx hmention a]
  exact (concur_unbound (fun _ => hb.scope_right) a).symm

theorem harmless_inlining (hd : ctx.locals.lookup x = some d) (hx : ':' ∉ x.toList)
    (hmention : ¬Mentions ctx d x)
    (hloops : ∀ y d', ctx.locals.lookup y = some d' → y ≠ x → Admits (inlining ctx x d) d') :
    Harmless ctx (inlining ctx x d) where
  references := by
    rintro r _ _ binds binds' visited _ ⟨hindex,-,-⟩ hb ⟨rfl,hv⟩
    obtain ⟨q,hq,hagree⟩ := body_inlinedRef ctx d binds' visited hindex
    refine .inl ?_
    rw [body_localRef hd hv,hq]
    refine alike_ask (.inr fun a => ?_)
    rw [concur_definition hx hmention hb a,hagree a]
  membership := by
    rintro r _ _ kind binds binds' visited _ ⟨hindex,hmembership,-⟩ hr hb ⟨rfl,hv⟩
    have hplain : ∀ binds path, body ctx (.membership d kind binds path) =
        Proc.ask (.references d binds path) :=
      fun binds path => membership_plain (hmembership kind hr)
    rw [membership_localRef _ hd hv,membership_plain (membershipShape_inlinedRef kind)]
    refine alike_ask (.inr fun a => ?_)
    rw [returns_ask_iff (hplain binds _),concur_definition hx hmention hb a,
      concur_inlinedRef hindex a]
  element := by
    rintro _ _ field binds binds' visited _ ⟨hindex,-,hcollection⟩ hb ⟨rfl,hv⟩
    rename_i operators
    have hleft := resolveThroughLocals_local (localName_localRef operators) hv hd
    rw [(bindApplyTime_resolved hleft field binds).1,(collection_plain (hcollection rfl)).1,
      (collection_plain collectionShape_inlinedRef).1]
    refine alike_ask (.inr fun a => ?_)
    rw [concur_definition hx hmention hb a,concur_inlinedRef hindex a]
  keySet := by
    rintro _ _ binds binds' visited _ ⟨hindex,-,hcollection⟩ hb ⟨rfl,hv⟩
    rename_i operators
    have hleft := resolveThroughLocals_local (localName_localRef operators) hv hd
    rw [(bindApplyTime_resolved hleft none binds).2,(collection_plain (hcollection rfl)).2,
      (collection_plain collectionShape_inlinedRef).2]
    refine alike_ask (.inr fun a => ?_)
    rw [concur_definition hx hmention hb a,concur_inlinedRef hindex a]
  counted := by
    rintro _ _ ⟨-,-,-⟩
    exact ⟨allowlisted_localRef,allowlisted_inlinedRef⟩
  object := by
    rintro _ _ entries ⟨-,-,-⟩
    exact ⟨nofun,inlinedRef_shape.1 entries⟩
  head := by
    rintro _ _ name ⟨-,-,-⟩
    exact ⟨nofun,inlinedRef_shape.2.1 name⟩
  key := by
    rintro _ _ text ⟨-,-,-⟩
    exact ⟨nofun,inlinedRef_shape.2.2 text⟩
  blocks := by
    rintro visited _ ⟨rfl,-⟩ a b
    exact ⟨Iff.rfl,Iff.rfl⟩
  locals := by
    rintro e y visited _ ⟨rfl,-⟩ _ _
    exact Iff.rfl
  undefined := by
    rintro y visited _ ⟨rfl,hv⟩ hy
    refine ⟨rfl,?_⟩
    rw [Finset.mem_insert,not_or]
    refine ⟨?_,hv⟩
    rintro rfl
    rw [hd] at hy
    cases hy
  definition := by
    rintro e y d' visited _ ⟨rfl,hv⟩ _ _ _ hd'
    by_cases hy : y = x
    · subst hy
      rw [hd] at hd'
      cases hd'
      exact .inr ⟨rfl,fun name hname => hname⟩
    · refine .inl ⟨⟨rfl,?_⟩,hloops y d' hd' hy⟩
      rw [Finset.mem_insert,not_or]
      exact ⟨Ne.symm hy,hv⟩
  configuration := fun hv _ _ => .inr hv.1

end inlining

section fields

variable {ctx : UnknownCtx} {x : String} {d e : Expression}

/-- A reference to a local is analysed as its whole definition, whatever it selects. -/
theorem concur_localRef (hd : ctx.locals.lookup x = some d) (hx : ':' ∉ x.toList)
    (hmention : ¬Mentions ctx d x) (operators : List TraversalOperator) :
    Concur (body ctx) (body ctx) (valueApplyTime (localRef x operators)) (valueApplyTime d) ∧
      ∀ kind, Concur (body ctx) (body ctx) (membershipApplyTime (localRef x operators) kind)
        (membershipApplyTime d kind) := by
  have hv : x ∉ (∅ : Finset String) := Finset.notMem_empty x
  refine ⟨fun a => ?_,fun kind a => ?_⟩
  · rw [valueApplyTime,returns_ask_iff (body_localRef hd hv)]
    exact concur_detour hx hmention a
  · have hbody : body ctx (membershipApplyTime (localRef x operators) kind) =
        Proc.ask (.membership d kind ∅ (insert x ∅)) := membership_localRef operators hd hv
    rw [returns_ask_iff hbody]
    exact concur_detour_membership hx hmention a

def IsLiteral : Expression → Prop
  | .null | .bool _ | .number _ | .string _ => True
  | _ => False

/-- The members are written out, without a reference. -/
inductive WrittenOut : Expression → Prop
  | literal {e : Expression} (h : IsLiteral e) : WrittenOut e
  | array {items : List Expression} (h : ∀ e ∈ items, IsLiteral e) : WrittenOut (.array items)
  | object {entries : List (ObjectKey × Expression)}
    (h : ∀ key val, (ObjectKey.expression key,val) ∈ entries → IsLiteral key) :
    WrittenOut (.object entries)
  | call {ns : List String} {name : String} {args : List Expression}
    (hname : isCollectionBuilder name ∨ isMembershipPassthrough name)
    (h : ∀ arg ∈ args, WrittenOut arg) : WrittenOut (.funcCall ns name args)

theorem eval_literal {binds : Binds} {visited : Finset String} (h : IsLiteral e) (fuel : ℕ) :
    eval (body ctx) (fuel+1) (.references e binds visited) = some false := by
  cases e with
  | null | bool | number | string => rfl
  | _ => exact h.elim

theorem eval_writtenOut {kind : MetaKind} {binds : Binds} {visited : Finset String}
    (h : WrittenOut e) (fuel : ℕ) :
    eval (body ctx) (sizeOf e+fuel+2) (.membership e kind binds visited) = some false := by
  induction h generalizing fuel with
  | @literal e h =>
    cases e with
    | null | bool | number | string => rfl
    | _ => exact h.elim
  | @array items h =>
    refine run_any_false.mpr fun item hitem => ?_
    rw [run_ask]
    exact eval_literal (h item hitem) _
  | @object entries h =>
    refine run_any_false.mpr fun entry hentry => ?_
    obtain ⟨key,val⟩ := entry
    cases key with
    | ident name => rfl
    | expression key =>
      dsimp only
      rw [run_ask]
      exact eval_literal (h key val hentry) _
  | @call ns name args hname h ih =>
    have hlength : ¬(kind = .count ∧ name = "length") := by
      rintro ⟨-,rfl⟩
      revert hname
      decide
    have hbody : body ctx (.membership (.funcCall ns name args) kind binds visited) =
        any (fun arg => Proc.ask (.membership arg kind binds visited)) args := by
      simp only [body,membershipApplyTimeInner]
      rw [if_neg hlength,if_pos hname]
    show (body ctx _).run _ = some false
    rw [hbody]
    refine run_any_false.mpr fun arg harg => ?_
    rw [run_ask]
    have hlt := List.sizeOf_lt_of_mem harg
    refine eval_mono ?_ (ih arg harg 0)
    simp only [Expression.funcCall.sizeOf_spec]
    omega

/-- What is written out has a membership that is known. -/
theorem concur_writtenOut {e' : Expression} {kind : MetaKind} (h : WrittenOut e)
    (h' : WrittenOut e') :
    Concur (body ctx) (body ctx) (membershipApplyTime e kind) (membershipApplyTime e' kind) := by
  have hleft : Returns (body ctx) (membershipApplyTime e kind) false := ⟨_,eval_writtenOut h 0⟩
  have hright : Returns (body ctx) (membershipApplyTime e' kind) false := ⟨_,eval_writtenOut h' 0⟩
  intro a
  constructor
  · exact fun ha => returns_unique hleft ha ▸ hright
  · exact fun ha => returns_unique hright ha ▸ hleft

theorem concur_singleEntry {key : ObjectKey} {f : String} (hkey : keyNamed f key) :
    Concur (body ctx) (body ctx) (valueApplyTime (.object [(key,e)])) (valueApplyTime e) := by
  cases key with
  | ident name =>
    have hbody : body ctx (valueApplyTime (.object [(.ident name,e)])) =
        Proc.ask (valueApplyTime e) := or_false_right _
    exact returns_ask_iff hbody
  | expression k =>
    cases k with
    | string text =>
      have hrun : ∀ fuel, eval (body ctx) (fuel+2)
          (valueApplyTime (.object [(.expression (.string text),e)])) =
            eval (body ctx) (fuel+1) (valueApplyTime e) := by
        intro fuel
        have hbody : body ctx (valueApplyTime (.object [(.expression (.string text),e)])) =
            .call (valueApplyTime (.string text)) fun b =>
              ((Proc.answer b).or (Proc.ask (valueApplyTime e))).or (.answer false) := rfl
        have hliteral : IsLiteral (.string text) := trivial
        have hstring : eval (body ctx) (fuel+1) (valueApplyTime (.string text)) = some false :=
          eval_literal hliteral fuel
        have hfalse : (Proc.answer false).or (Proc.ask (valueApplyTime e)) =
            Proc.ask (valueApplyTime e) := rfl
        rw [eval,hbody,Proc.run,hstring]
        dsimp only
        rw [or_false_right,hfalse,run_ask]
      intro a
      constructor
      · rintro ⟨fuel,h⟩
        exact ⟨fuel+1,(hrun fuel).symm.trans (eval_mono (by omega) h)⟩
      · rintro ⟨fuel,h⟩
        exact ⟨fuel+2,(hrun fuel).trans (eval_mono (Nat.le_succ fuel) h)⟩
    | _ => cases hkey

/-- `{ a = aws_instance.web.id, b = "ok", c = [aws_instance.web.id] }`. -/
def mixed : Expression :=
  .object [(.ident "a",webId),(.ident "b",.string "ok"),(.ident "c",.array [webId])]

def mixedCtx : UnknownCtx := { locals := (∅ : KeyedMap String Expression).insert "x" mixed }

end fields
end UnknownValue
end TerraformLs
