import TerraformLs.Hygiene

/-! Replacing parts of an expression. What the analysis asks about a part depends on
where the part stands, and in some places it looks at the shape of what stands there. A
replacement that is sound where it is made is sound in every larger expression. -/
namespace TerraformLs
namespace UnknownValue

open Proc

section roles

/-- Where an expression stands, by what the analysis asks about it. -/
inductive Role
  | value
  | membership (kind : MetaKind)
  /-- The argument of `length` in a count. -/
  | counted
  /-- What a loop runs over. -/
  | collection
  /-- An element of a literal collection that a loop runs over. -/
  | element
  | key
  /-- In front of the operators of a traversal. -/
  | head

/-- The kind for which the membership is asked. -/
def Role.kind : Role → Option MetaKind
  | .membership kind => some kind
  | .counted => some .forEach
  | _ => none

def Role.item : Role → Role
  | .collection => .element
  | _ => .value

def Role.entryKey : Role → Role
  | .element => .key
  | _ => .value

/-- The place of the arguments of a call that has a place itself. -/
def Role.arg (r : Role) (name : String) : Role :=
  match r.kind,r with
  | some kind,_ =>
    if kind = .count ∧ name = "length" then .counted
    else if isCollectionBuilder name ∨ isMembershipPassthrough name then .membership kind
    else .value
  | none,.collection => if isIdentityPassthrough name then .collection else .value
  | none,_ => .value

/-- The names by which a `lookup` call reads a field of a loop variable. -/
def lookupNames (name : String) (args : List Expression) : Option (String × String) :=
  if name = "lookup" then
    match args with
    | .variable var::.string field::_ => some (var,field)
    | _ => none
  else none

theorem lookupNames_eq_none {args : List Expression}
    (h : ∀ var field rest, args ≠ .variable var::.string field::rest) (name : String) :
    lookupNames name args = none := by
  unfold lookupNames
  split_ifs
  · split
    · exact (h _ _ _ rfl).elim
    · rfl
  · rfl

theorem lookupBind_eq_names (name : String) (args : List Expression) (binds : Binds) :
    lookupBind name args binds =
      (lookupNames name args).bind fun n => (binds.lookup n.1).map fun b => (b,n.2) := by
  by_cases h : name = "lookup"
  · unfold lookupBind
    rw [if_pos h]
    split
    · rw [lookupNames,if_pos h]
      rfl
    · rename_i hnone
      rw [lookupNames_eq_none fun var field rest hargs => hnone var field rest hargs]
      rfl
  · unfold lookupBind lookupNames
    rw [if_neg h,if_neg h]
    rfl

/-- Literals and variables. -/
def IsLeaf : Expression → Prop
  | .null | .bool _ | .number _ | .string _ | .variable _ => True
  | _ => False

/-- A change to an expression, or to the path on which it is evaluated. -/
structure Change where
  /-- The parts that replace one another where they stand. -/
  hole : Role → Expression → Expression → Prop
  /-- The names that loops bind. -/
  scope : String → Prop
  /-- The references that may stand in the expression. -/
  reference : Expression → Prop
  path : Finset String → Finset String → Prop

variable (C : Change)

mutual

/-- The first expression becomes the second when some of its parts are replaced. -/
inductive Rewritten : Role → Expression → Expression → Prop
  | hole {r : Role} {e e' : Expression} (h : C.hole r e e') : Rewritten r e e'
  | leaf {r : Role} {e : Expression} (h : IsLeaf e) : Rewritten r e e
  | array {r : Role} {items items' : List Expression}
    (h : RewrittenAll r.item items items') : Rewritten r (.array items) (.array items')
  | object {r : Role} {entries entries' : List (ObjectKey × Expression)}
    (h : RewrittenEntries r entries entries') :
    Rewritten r (.object entries) (.object entries')
  | stringTemplate {r : Role} {elements elements' : List Element}
    (h : RewrittenAll .value (templateExprs elements) (templateExprs elements')) :
    Rewritten r (.stringTemplate elements) (.stringTemplate elements')
  | heredocTemplate {r : Role} {elements elements' : List Element}
    (h : RewrittenAll .value (templateExprs elements) (templateExprs elements')) :
    Rewritten r (.heredocTemplate elements) (.heredocTemplate elements')
  | parenthesis {r : Role} {inner inner' : Expression} (h : Rewritten .value inner inner') :
    Rewritten r (.parenthesis inner) (.parenthesis inner')
  | conditional {r : Role} {cond whenTrue whenFalse cond' whenTrue' whenFalse' : Expression}
    (hcond : Rewritten .value cond cond') (htrue : Rewritten .value whenTrue whenTrue')
    (hfalse : Rewritten .value whenFalse whenFalse') :
    Rewritten r (.conditional cond whenTrue whenFalse) (.conditional cond' whenTrue' whenFalse')
  | funcCall {r : Role} {ns : List String} {name : String} {args args' : List Expression}
    (hnames : lookupNames name args = lookupNames name args')
    (h : RewrittenAll (r.arg name) args args') :
    Rewritten r (.funcCall ns name args) (.funcCall ns name args')
  | traversal {r : Role} {expr expr' : Expression} {operators operators' : List TraversalOperator}
    (href : C.reference (.traversal expr operators)) (h : Rewritten .head expr expr') (hattrs : getAttrs operators = getAttrs operators')
    (hlength : operators.length = operators'.length)
    (hindex : RewrittenAll .value (operatorExprs operators) (operatorExprs operators')) :
    Rewritten r (.traversal expr operators) (.traversal expr' operators')
  | unaryOp {r : Role} {operator : UnaryOperator} {operand operand' : Expression}
    (h : Rewritten .value operand operand') :
    Rewritten r (.unaryOp operator operand) (.unaryOp operator operand')
  | binaryOp {r : Role} {operator : BinaryOperator} {lhs rhs lhs' rhs' : Expression}
    (hlhs : Rewritten .value lhs lhs') (hrhs : Rewritten .value rhs rhs') :
    Rewritten r (.binaryOp lhs operator rhs) (.binaryOp lhs' operator rhs')
  | forExpr {r : Role} {keyVar : Option String} {valueVar : String}
    {coll coll' valueExpr valueExpr' : Expression} {keyExpr keyExpr' cond cond' : Option Expression}
    {grouping : Bool} (hscope : ∀ name ∈ valueVar :: keyVar.toList, C.scope name)
    (hcoll : Rewritten .collection coll coll') (hkey : Option.Rel (Rewritten .value) keyExpr keyExpr')
    (hvalue : Rewritten .value valueExpr valueExpr')
    (hcond : Option.Rel (Rewritten .value) cond cond') :
    Rewritten r (.forExpr keyVar valueVar coll keyExpr valueExpr grouping cond)
      (.forExpr keyVar valueVar coll' keyExpr' valueExpr' grouping cond')

inductive RewrittenAll : Role → List Expression → List Expression → Prop
  | nil {r : Role} : RewrittenAll r [] []
  | cons {r : Role} {e e' : Expression} {es es' : List Expression} (h : Rewritten r e e')
    (hs : RewrittenAll r es es') : RewrittenAll r (e :: es) (e' :: es')

inductive RewrittenEntries :
    Role → List (ObjectKey × Expression) → List (ObjectKey × Expression) → Prop
  | nil {r : Role} : RewrittenEntries r [] []
  | ident {r : Role} {name : String} {val val' : Expression}
    {entries entries' : List (ObjectKey × Expression)} (h : Rewritten r.item val val')
    (hs : RewrittenEntries r entries entries') :
    RewrittenEntries r ((.ident name,val) :: entries) ((.ident name,val') :: entries')
  | expression {r : Role} {key key' val val' : Expression}
    {entries entries' : List (ObjectKey × Expression)} (hkey : Rewritten r.entryKey key key')
    (h : Rewritten r.item val val') (hs : RewrittenEntries r entries entries') :
    RewrittenEntries r ((.expression key,val) :: entries) ((.expression key',val') :: entries')

end

variable {C} {e e' : Expression}

/-- The variables that a loop binds. -/
def loopNames : Expression → List String
  | .forExpr keyVar valueVar _ _ _ _ _ => valueVar :: keyVar.toList
  | _ => []

theorem RewrittenAll.forall₂ {r : Role} : ∀ {es es' : List Expression},
    RewrittenAll C r es es' → List.Forall₂ (Rewritten C r) es es'
  | _,_,.nil => .nil
  | _,_,.cons h hs => .cons h hs.forall₂

theorem rewrittenAll_refl {r : Role} {es : List Expression}
    (h : ∀ e ∈ es, Rewritten C r e e) : RewrittenAll C r es es := by
  induction es with
  | nil => exact .nil
  | cons e es ih =>
    exact .cons (h e List.mem_cons_self) (ih fun c hc => h c (List.mem_cons_of_mem e hc))

theorem rewrittenEntries_refl {r : Role} {entries : List (ObjectKey × Expression)}
    (h : ∀ c ∈ entryExprs entries, ∀ r, Rewritten C r c c) :
    RewrittenEntries C r entries entries := by
  induction entries with
  | nil => exact .nil
  | cons entry entries ih =>
    have hin : ∀ c, entry.1 = .expression c ∨ entry.2 = c → ∀ r, Rewritten C r c c :=
      fun c hc => h c (mem_entryExprs.mpr ⟨entry,List.mem_cons_self,hc⟩)
    have htail : RewrittenEntries C r entries entries := by
      refine ih fun c hc => h c ?_
      exact List.mem_flatMap.mpr ((List.mem_flatMap.mp hc).imp fun x hx =>
        ⟨List.mem_cons_of_mem entry hx.1,hx.2⟩)
    obtain ⟨key,val⟩ := entry
    cases key with
    | ident name => exact .ident (hin val (.inr rfl) _) htail
    | expression key => exact .expression (hin key (.inl rfl) _) (hin val (.inr rfl) _) htail

theorem rel_refl {R : Expression → Expression → Prop} {o : Option Expression}
    (h : ∀ c ∈ o.toList, R c c) : Option.Rel R o o := by
  cases o with
  | none => exact .none
  | some c => exact .some (h c (Option.mem_toList.mpr rfl))

/-- What stands in the expression may stand there. -/
def Admits (C : Change) (e : Expression) : Prop :=
  ∀ e', Relation.ReflTransGen (fun e c => c ∈ children e) e e' →
    (∀ name ∈ loopNames e', C.scope name) ∧ C.reference e'

theorem Admits.child {c : Expression} (h : Admits C e) (hc : c ∈ children e) : Admits C c :=
  fun e' he' => h e' (.head hc he')

/-- No part need be replaced. -/
theorem rewritten_refl (e : Expression) (h : Admits C e) (r : Role) : Rewritten C r e e := by
  induction hn : sizeOf e using Nat.strong_induction_on generalizing e r with
  | _ n ih =>
    have hpart : ∀ c ∈ children e, ∀ r, Rewritten C r c c := by
      intro c hc r
      exact ih (sizeOf c) (hn ▸ sizeOf_children hc) c (h.child hc) r rfl
    have hparts : ∀ exprs : List Expression, (∀ c ∈ exprs, c ∈ children e) → ∀ r,
        RewrittenAll C r exprs exprs :=
      fun exprs hexprs r => rewrittenAll_refl fun c hc => hpart c (hexprs c hc) r
    cases e with
    | null | bool | number | string | «variable» => exact .leaf trivial
    | array items => exact .array (hparts items (fun _ hc => hc) _)
    | object entries => exact .object (rewrittenEntries_refl hpart)
    | stringTemplate elements => exact .stringTemplate (hparts _ (fun _ hc => hc) _)
    | heredocTemplate elements => exact .heredocTemplate (hparts _ (fun _ hc => hc) _)
    | parenthesis inner => exact .parenthesis (hpart inner List.mem_cons_self _)
    | conditional cond whenTrue whenFalse =>
      refine .conditional (hpart _ ?_ _) (hpart _ ?_ _) (hpart _ ?_ _) <;> simp [children]
    | funcCall ns name args => exact .funcCall rfl (hparts args (fun _ hc => hc) _)
    | traversal expr operators =>
      refine .traversal (h _ .refl).2 (hpart expr List.mem_cons_self _) rfl rfl (hparts _ ?_ _)
      exact fun c hc => List.mem_cons_of_mem expr hc
    | unaryOp operator operand => exact .unaryOp (hpart operand List.mem_cons_self _)
    | binaryOp lhs operator rhs =>
      refine .binaryOp (hpart _ ?_ _) (hpart _ ?_ _) <;> simp [children]
    | forExpr keyVar valueVar coll keyExpr valueExpr grouping cond =>
      refine .forExpr (h _ .refl).1 (hpart _ ?_ _) (rel_refl fun c hc => hpart c ?_ _) (hpart _ ?_ _)
        (rel_refl fun c hc => hpart c ?_ _)
      · simp [children]
      · exact List.mem_append_left _ (List.mem_append_right _ hc)
      · simp [children]
      · exact List.mem_append_right _ hc

end roles

section linked

variable (ctx : UnknownCtx) (C : Change)

inductive LinkedBind : Bind → Bind → Prop
  | value {coll coll' : Expression} (h : Rewritten C .collection coll coll') :
    LinkedBind (.value coll) (.value coll')
  | key {coll coll' : Expression} (h : Rewritten C .collection coll coll') :
    LinkedBind (.key coll) (.key coll')

structure LinkedBinds (binds binds' : Binds) : Prop where
  lookup : ∀ name, Option.Rel (LinkedBind C) (binds.lookup name) (binds'.lookup name)
  scope : ∀ name, binds.lookup name ≠ none → C.scope name

/-- The calls are about an expression before and after the change. -/
inductive Linked : Call → Call → Prop
  | membership {r : Role} {e e' : Expression} {kind : MetaKind} {binds binds' : Binds}
    {visited visited' : Finset String} (hr : r.kind = some kind) (h : Rewritten C r e e')
    (hb : LinkedBinds C binds binds') (hv : C.path visited visited') :
    Linked (.membership e kind binds visited) (.membership e' kind binds' visited')
  | references {r : Role} {e e' : Expression} {binds binds' : Binds}
    {visited visited' : Finset String} (h : Rewritten C r e e') (hb : LinkedBinds C binds binds')
    (hv : C.path visited visited') :
    Linked (.references e binds visited) (.references e' binds' visited')
  | bind {b b' : Bind} {field : Option String} {binds binds' : Binds}
    {visited visited' : Finset String} (h : LinkedBind C b b') (hb : LinkedBinds C binds binds')
    (hv : C.path visited visited') :
    Linked (.bind b field binds visited) (.bind b' field binds' visited')

/-- The expression reads no variable of the loops that are changed. -/
def Closed (e : Expression) : Prop := ∀ name, C.scope name → ¬Reads ctx e name

/-- The two bodies make calls that are linked or return the same. -/
abbrev Matched (p p' : Proc Call Bool) : Prop :=
  p.Alike (fun q q' => Linked C q q' ∨ Concur (body ctx) (body ctx) q q') p'

abbrev MatchedCalls (q q' : Call) : Prop :=
  Follows (body ctx) (body ctx) (Linked C) (fun q => sizeOf q.site.expr) q q'

/-- The reference is to a block of which the expression is part of the configuration; the
block stands on the path under the name given. -/
inductive Configured : Expression → String → Expression → Prop
  | resource {operators : List TraversalOperator} {rtype name attr : String} {rest : List String}
    {d : Expression} (hattrs : getAttrs operators = name :: attr :: rest)
    (hd : ((ctx.resourceConfigs.lookup (rtype,name)).bind fun config =>
      config.attrs.lookup attr) = some d) :
    Configured (.traversal (.variable rtype) operators) (resourceKey rtype name) d
  | data {operators : List TraversalOperator} {dtype name : String} {rest : List String}
    {config : BlockConfig} {d : Expression} (hattrs : getAttrs operators = dtype :: name :: rest)
    (hconfig : ctx.dataConfigs.lookup (dtype,name) = some config) (hd : d ∈ config.exprs) :
    Configured (.traversal (.variable "data") operators) (dataKey dtype name) d

/-- What a change owes to the places where the analysis could notice it. -/
structure Harmless : Prop where
  references : ∀ {r e e' binds binds' visited visited'}, C.hole r e e' →
    LinkedBinds C binds binds' → C.path visited visited' →
    MatchedCalls ctx C (.references e binds visited) (.references e' binds' visited')
  membership : ∀ {r e e' kind binds binds' visited visited'}, C.hole r e e' →
    r.kind = some kind → LinkedBinds C binds binds' → C.path visited visited' →
    Matched ctx C (membershipApplyTimeInner ctx e kind binds visited)
      (membershipApplyTimeInner ctx e' kind binds' visited')
  element : ∀ {e e' field binds binds' visited visited'}, C.hole .collection e e' →
    LinkedBinds C binds binds' → C.path visited visited' →
    Matched ctx C (elementValueApplyTime ctx e field binds visited)
      (elementValueApplyTime ctx e' field binds' visited')
  keySet : ∀ {e e' binds binds' visited visited'}, C.hole .collection e e' →
    LinkedBinds C binds binds' → C.path visited visited' →
    Matched ctx C (keySetApplyTime ctx e binds visited) (keySetApplyTime ctx e' binds' visited')
  counted : ∀ {e e'}, C.hole .counted e e' →
    allowlistedCollection ctx e = none ∧ allowlistedCollection ctx e' = none
  object : ∀ {e e' entries}, C.hole .element e e' → e ≠ .object entries ∧ e' ≠ .object entries
  head : ∀ {e e' name}, C.hole .head e e' → e ≠ .variable name ∧ e' ≠ .variable name
  key : ∀ {e e' text}, C.hole .key e e' → e ≠ .string text ∧ e' ≠ .string text
  /-- The two paths have visited the same blocks and, of those referred to, locals. -/
  blocks : ∀ {visited visited'}, C.path visited visited' → ∀ a b,
    (resourceKey a b ∈ visited ↔ resourceKey a b ∈ visited') ∧
      (dataKey a b ∈ visited ↔ dataKey a b ∈ visited')
  locals : ∀ {e x visited visited'}, C.path visited visited' → C.reference e →
    localName e = some x → (x ∈ visited ↔ x ∈ visited')
  undefined : ∀ {x visited visited'}, C.path visited visited' → ctx.locals.lookup x = none →
    C.path (insert x visited) (insert x visited')
  /-- The definition of a local is subject to the change too, or has no use for the loops. -/
  definition : ∀ {e x d visited visited'}, C.path visited visited' → C.reference e →
    localName e = some x → x ∉ visited → ctx.locals.lookup x = some d →
    (C.path (insert x visited) (insert x visited') ∧ Admits C d) ∨
      visited = visited' ∧ Closed ctx C d
  configuration : ∀ {e key d visited visited'}, C.path visited visited' → C.reference e →
    Configured ctx e key d →
    (C.path (insert key visited) (insert key visited') ∧ Admits C d) ∨ visited = visited'

end linked

section closed

variable {ctx : UnknownCtx} {C : Change} {binds binds' : Binds} {visited visited' : Finset String} {e e' : Expression}

theorem LinkedBinds.scope_right (h : LinkedBinds C binds binds') {name : String}
    (hname : binds'.lookup name ≠ none) : C.scope name := by
  refine h.scope name fun hnone => hname ?_
  have hrel := h.lookup name
  rw [hnone] at hrel
  generalize binds'.lookup name = found at hrel
  cases hrel with
  | none => rfl

theorem LinkedBinds.insert {n : String} {b b' : Bind} (h : LinkedBinds C binds binds')
    (hb : LinkedBind C b b') (hn : C.scope n) :
    LinkedBinds C (binds.insert n b) (binds'.insert n b') := by
  constructor
  · intro name
    rw [KeyedMap.lookup_insert_of,KeyedMap.lookup_insert_of]
    split_ifs
    · exact .some hb
    · exact h.lookup name
  · intro name hname
    rw [KeyedMap.lookup_insert_of] at hname
    split_ifs at hname with heq
    · exact heq ▸ hn
    · exact h.scope name hname

theorem LinkedBinds.loop {keyVar : Option String} {valueVar : String} {coll coll' : Expression}
    (h : LinkedBinds C binds binds')
    (hscope : ∀ name ∈ valueVar :: keyVar.toList, C.scope name)
    (hcoll : Rewritten C .collection coll coll') :
    LinkedBinds C (bindLoop keyVar valueVar coll binds)
      (bindLoop keyVar valueVar coll' binds') := by
  have hinner := h.insert (LinkedBind.value hcoll) (hscope valueVar List.mem_cons_self)
  cases keyVar with
  | none => exact hinner
  | some kv =>
    exact hinner.insert (.key hcoll) (hscope kv (List.mem_cons_of_mem _ List.mem_cons_self))

theorem linkedBinds_empty : LinkedBinds C ∅ ∅ := by
  constructor
  · exact fun name => .none
  · exact fun name h => (h rfl).elim

theorem overlaid_empty (binds : Binds) : Overlaid ctx binds binds ∅ := by
  constructor
  · exact fun name => rfl
  · intro name b h
    cases h

theorem Closed.clear (h : Closed ctx C e) (hb : ∀ name, binds.lookup name ≠ none → C.scope name) :
    Clear ctx binds ∅ e := by
  intro name hname _
  by_contra hbound
  exact h name (hb name hbound) hname

/-- What is closed is evaluated alike under the bindings before and after. -/
theorem concur_references (h : Closed ctx C e) (hb : LinkedBinds C binds binds') :
    Concur (body ctx) (body ctx) (.references e binds visited) (.references e binds' visited) := by
  intro a
  rw [returns_iff_of_twin (.references (overlaid_empty binds) (h.clear hb.scope)),
    returns_iff_of_twin (.references (overlaid_empty binds')
      (h.clear fun _ => hb.scope_right))]

theorem concur_membership {kind : MetaKind} (h : Closed ctx C e)
    (hb : LinkedBinds C binds binds') :
    Concur (body ctx) (body ctx) (.membership e kind binds visited)
      (.membership e kind binds' visited) := by
  intro a
  rw [returns_iff_of_twin (.membership (overlaid_empty binds) (h.clear hb.scope)),
    returns_iff_of_twin (.membership (overlaid_empty binds')
      (h.clear fun _ => hb.scope_right))]

/-- The body of a lookup in a collection that is closed. -/
theorem matched_closed {b : Bind} {field : Option String} (h : Closed ctx C b.coll)
    (hb : LinkedBinds C binds binds') :
    Matched ctx C (bindApplyTime ctx b field binds visited)
      (bindApplyTime ctx b field binds' visited) := by
  have hleft : (bindApplyTime ctx b field binds visited).Alike (Twin ctx binds)
      (bindApplyTime ctx b field ∅ visited) :=
    twin_body_bind b field (overlaid_empty binds) (h.clear hb.scope)
  have hright : (bindApplyTime ctx b field binds' visited).Alike (Twin ctx binds')
      (bindApplyTime ctx b field ∅ visited) :=
    twin_body_bind b field (overlaid_empty binds') (h.clear fun _ => hb.scope_right)
  refine alike_imp (fun q q' h => .inr ?_) (alike_trans hleft (alike_flip hright))
  obtain ⟨r,hqr,hrq'⟩ := h
  exact fun a => (returns_iff_of_twin hqr a).trans (returns_iff_of_twin hrq' a).symm

end closed

end UnknownValue
end TerraformLs
