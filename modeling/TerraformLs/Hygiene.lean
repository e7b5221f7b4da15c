import TerraformLs.ProcedureAnswers
import TerraformLs.UnknownTermination

/-! Loop variables and the definitions that a reference leads to. Data sources and
resources are evaluated without the loop variables at the point of use; the definition
of a local is evaluated with them, so a name that it reads can be captured. -/
namespace TerraformLs
namespace UnknownValue

open Proc

section reads

variable (ctx : UnknownCtx)

/-- The expressions right below one, with the loop variables bound for each. -/
def scopedChildren : Expression → List (Expression × List String)
  | .traversal (.variable _) operators => (operatorExprs operators).map fun e => (e,[])
  | .forExpr keyVar valueVar coll keyExpr valueExpr _ cond =>
    (coll,[]) :: ([valueExpr] ++ keyExpr.toList ++ cond.toList).map fun e =>
      (e,valueVar :: keyVar.toList)
  | e => (children e).map fun c => (c,[])

/-- The expression looks the name up among the loop variables, itself or in the locals
that it refers to. -/
inductive Reads : Expression → String → Prop
  | var {name : String} : Reads (.variable name) name
  | head {name : String} {operators : List TraversalOperator}
    (h : name ∉ ["local","data","var","module"]) : Reads (.traversal (.variable name) operators) name
  | definition {e d : Expression} {x name : String} (hx : localName e = some x)
    (hd : ctx.locals.lookup x = some d) (h : Reads d name) : Reads e name
  | part {e c : Expression} {bound : List String} {name : String}
    (hc : (c,bound) ∈ scopedChildren e) (hname : name ∉ bound) (h : Reads c name) : Reads e name

variable {ctx} {e : Expression} {name : String}

/-- Wherever no loop variable is bound on the way down. -/
theorem Reads.under {c : Expression} (hc : (c,[]) ∈ scopedChildren e) (h : Reads ctx c name) :
    Reads ctx e name := .part hc List.not_mem_nil h

theorem reads_resolved {visited : Finset String}
    (h : Reads ctx (resolveThroughLocals ctx e visited).1 name) : Reads ctx e name := by
  induction e, visited using resolveThroughLocals.induct ctx with
  | case1 e visited x hx hin =>
    rw [resolveThroughLocals_cycle hx hin] at h
    exact h
  | case2 e visited x hx hin d hd ih =>
    rw [resolveThroughLocals_local hx hin hd] at h
    exact .definition hx hd (ih h)
  | case3 e visited x hx hin hd =>
    rw [resolveThroughLocals_undefined hx hin hd] at h
    exact h
  | case4 e visited hx inner harg ih =>
    rw [resolveThroughLocals_identity hx harg] at h
    refine .under ?_ (ih h)
    have hmem := identityPassthroughArg_mem harg
    cases e with
    | funcCall => exact List.mem_map.mpr ⟨inner,hmem,rfl⟩
    | _ => simp [identityPassthroughArg] at harg
  | case5 e visited hx harg =>
    rw [resolveThroughLocals_other hx harg] at h
    exact h

end reads

section twins

variable (ctx : UnknownCtx) (B : Binds)

/-- No name that the expression reads is left to the outer bindings. -/
def Clear (binds : Binds) (e : Expression) : Prop :=
  ∀ name, Reads ctx e name → binds.lookup name = none → B.lookup name = none

/-- The first bindings are the second ones over the outer ones, and what the loops run
over leaves nothing to the outer ones. -/
structure Overlaid (binds binds' : Binds) : Prop where
  lookup : ∀ name, binds.lookup name = (binds'.lookup name).or (B.lookup name)
  clear : ∀ name b, binds'.lookup name = some b → Clear ctx B binds' b.coll

/-- The calls differ in the outer bindings alone, and leave nothing to them. -/
inductive Twin : Call → Call → Prop
  | same (q : Call) : Twin q q
  | membership {value : Expression} {kind : MetaKind} {binds binds' : Binds}
    {visited : Finset String} (h : Overlaid ctx B binds binds') (hclear : Clear ctx B binds' value) :
    Twin (.membership value kind binds visited) (.membership value kind binds' visited)
  | references {e : Expression} {binds binds' : Binds} {visited : Finset String}
    (h : Overlaid ctx B binds binds') (hclear : Clear ctx B binds' e) :
    Twin (.references e binds visited) (.references e binds' visited)
  | bind {b : Bind} {field : Option String} {binds binds' : Binds} {visited : Finset String}
    (h : Overlaid ctx B binds binds') (hclear : Clear ctx B binds' b.coll) :
    Twin (.bind b field binds visited) (.bind b field binds' visited)

variable {ctx B} {binds binds' : Binds} {e : Expression} {visited : Finset String}

theorem Clear.part {c : Expression} (h : Clear ctx B binds' e) (hc : (c,[]) ∈ scopedChildren e) :
    Clear ctx B binds' c := fun name hname => h name (.under hc hname)

theorem Clear.definition {d : Expression} {x : String} (h : Clear ctx B binds' e)
    (hx : localName e = some x) (hd : ctx.locals.lookup x = some d) : Clear ctx B binds' d :=
  fun name hname => h name (.definition hx hd hname)

theorem Clear.resolved (h : Clear ctx B binds' e) :
    Clear ctx B binds' (resolveThroughLocals ctx e visited).1 :=
  fun name hname => h name (reads_resolved hname)

theorem Clear.insert {n : String} {b : Bind} (h : Clear ctx B binds' e) :
    Clear ctx B (binds'.insert n b) e := by
  intro name hname hlookup
  rw [KeyedMap.lookup_insert_of] at hlookup
  split_ifs at hlookup
  exact h name hname hlookup

theorem Overlaid.insert {n : String} {b : Bind} (h : Overlaid ctx B binds binds')
    (hb : Clear ctx B binds' b.coll) :
    Overlaid ctx B (binds.insert n b) (binds'.insert n b) := by
  constructor
  · intro name
    rw [KeyedMap.lookup_insert_of,KeyedMap.lookup_insert_of]
    split_ifs
    · rfl
    · exact h.lookup name
  · intro name b' hlookup
    rw [KeyedMap.lookup_insert_of] at hlookup
    split_ifs at hlookup
    · cases hlookup
      exact hb.insert
    · exact (h.clear name b' hlookup).insert

theorem Overlaid.loop {keyVar : Option String} {valueVar : String} {coll : Expression}
    (h : Overlaid ctx B binds binds') (hcoll : Clear ctx B binds' coll) :
    Overlaid ctx B (bindLoop keyVar valueVar coll binds) (bindLoop keyVar valueVar coll binds') := by
  have hinner := h.insert (n:=valueVar) (b:=.value coll) hcoll
  cases keyVar with
  | none => exact hinner
  | some kv => exact hinner.insert (b:=.key coll) hcoll.insert

/-- The names of a loop are bound inside it, and the others stay as they are. -/
theorem lookup_bindLoop {keyVar : Option String} {valueVar : String} {coll : Expression}
    {name : String} (h : (bindLoop keyVar valueVar coll binds).lookup name = none) :
    name ∉ valueVar :: keyVar.toList ∧ binds.lookup name = none := by
  have hinner : ∀ {n : String} {b : Bind} {binds : Binds}, (binds.insert n b).lookup name = none →
      name ≠ n ∧ binds.lookup name = none := by
    intro n b binds h
    rw [KeyedMap.lookup_insert_of] at h
    split_ifs at h with hn
    exact ⟨hn,h⟩
  cases keyVar with
  | none =>
    obtain ⟨hne,h⟩ := hinner h
    exact ⟨by simpa using hne,h⟩
  | some kv =>
    obtain ⟨hkey,h⟩ := hinner h
    obtain ⟨hvalue,h⟩ := hinner h
    exact ⟨by simp [hkey,hvalue],h⟩

theorem Clear.loop {keyVar : Option String} {valueVar : String} {coll c : Expression}
    (h : Clear ctx B binds' e) (hc : (c,valueVar :: keyVar.toList) ∈ scopedChildren e) :
    Clear ctx B (bindLoop keyVar valueVar coll binds') c := by
  intro name hname hlookup
  obtain ⟨hfree,hlookup⟩ := lookup_bindLoop hlookup
  exact h name (.part hc hfree hname) hlookup

/-- A name that is read is looked up alike. -/
theorem Overlaid.lookup_eq (h : Overlaid ctx B binds binds') (hclear : Clear ctx B binds' e)
    {name : String} (hname : Reads ctx e name) : binds.lookup name = binds'.lookup name := by
  rw [h.lookup]
  cases hl : binds'.lookup name with
  | some b => rfl
  | none =>
    rw [hclear name hname hl]
    rfl

end twins

section bodies

variable {ctx : UnknownCtx} {B binds binds' : Binds} {e : Expression} {visited : Finset String}
  {operators : List TraversalOperator}

/-- Expressions under the same bindings as the one they stand in. -/
def Unscoped (exprs : List Expression) (e : Expression) : Prop :=
  ∀ c ∈ exprs, (c,[]) ∈ scopedChildren e

theorem twin_references (h : Overlaid ctx B binds binds') (hclear : Clear ctx B binds' e) :
    (Proc.ask (.references e binds visited) : Proc Call Bool).Alike (Twin ctx B)
      (Proc.ask (.references e binds' visited)) := alike_ask (.references h hclear)

theorem twin_anyReferences {exprs : List Expression} (h : Overlaid ctx B binds binds')
    (hclear : ∀ c ∈ exprs, Clear ctx B binds' c) :
    (anyReferences exprs binds visited).Alike (Twin ctx B)
      (anyReferences exprs binds' visited) := by
  refine alike_any (List.forall₂_same.mpr fun c hc => ?_)
  exact twin_references h (hclear c hc)

theorem twin_indexOperators (h : Overlaid ctx B binds binds') (hclear : Clear ctx B binds' e)
    (hindex : Unscoped (operatorExprs operators) e) :
    (indexOperatorsApplyTime operators binds visited).Alike (Twin ctx B)
      (indexOperatorsApplyTime operators binds' visited) := by
  refine alike_any (List.forall₂_same.mpr fun op hop => ?_)
  cases op with
  | index idx =>
    have hidx : idx ∈ operatorExprs operators := List.mem_filterMap.mpr ⟨_,hop,rfl⟩
    exact twin_references h (hclear.part (hindex idx hidx))
  | attrSplat | fullSplat | getAttr | legacyIndex => exact alike_answer _

theorem twin_resourceReference (rtype : String) (h : Overlaid ctx B binds binds')
    (hclear : Clear ctx B binds' e) (hindex : Unscoped (operatorExprs operators) e) :
    (resourceReferenceApplyTime ctx operators rtype binds visited).Alike (Twin ctx B)
      (resourceReferenceApplyTime ctx operators rtype binds' visited) := by
  have hindices : (indexOperatorsApplyTime operators binds visited).Alike (Twin ctx B)
      (indexOperatorsApplyTime operators binds' visited) := twin_indexOperators h hclear hindex
  unfold resourceReferenceApplyTime
  split
  · dsimp only
    refine alike_ite (alike_answer _) ?_
    split
    · exact alike_or hindices (alike_ask (.same _))
    · split
      · exact alike_ite (alike_answer _) hindices
      · exact alike_answer _
  · exact alike_answer _

theorem twin_dataReference (h : Overlaid ctx B binds binds') (hclear : Clear ctx B binds' e)
    (hindex : Unscoped (operatorExprs operators) e) :
    (dataReferenceApplyTime ctx operators binds visited).Alike (Twin ctx B)
      (dataReferenceApplyTime ctx operators binds' visited) := by
  have hindices : (indexOperatorsApplyTime operators binds visited).Alike (Twin ctx B)
      (indexOperatorsApplyTime operators binds' visited) := twin_indexOperators h hclear hindex
  unfold dataReferenceApplyTime
  split
  · refine alike_or hindices ?_
    dsimp only
    refine alike_ite (alike_answer _) ?_
    split
    · exact alike_answer _
    · refine alike_ite (alike_answer _) (alike_any (List.forall₂_same.mpr fun c _ => ?_))
      exact alike_ask (.same _)
  · exact hindices

theorem resolveLocalDef_lookup {name : Option String} {d : Expression} {visited' : Finset String}
    (h : resolveLocalDef ctx name visited = some (d,visited')) :
    ∃ x, name = some x ∧ ctx.locals.lookup x = some d := by
  obtain ⟨x,hx,-,hd,-⟩ := resolveLocalDef_entered h
  exact ⟨x,hx,hd⟩

theorem twin_traversal {expr : Expression} (h : Overlaid ctx B binds binds')
    (hclear : Clear ctx B binds' (.traversal expr operators)) :
    (traversalApplyTime ctx expr operators binds visited).Alike (Twin ctx B)
      (traversalApplyTime ctx expr operators binds' visited) := by
  cases expr with
  | «variable» head =>
    have hindex : Unscoped (operatorExprs operators) (.traversal (.variable head) operators) :=
      fun c hc => List.mem_map.mpr ⟨c,hc,rfl⟩
    have hindices : (indexOperatorsApplyTime operators binds visited).Alike (Twin ctx B)
        (indexOperatorsApplyTime operators binds' visited) := twin_indexOperators h hclear hindex
    simp only [traversalApplyTime]
    by_cases hlocal : head = "local"
    · rw [if_pos hlocal,if_pos hlocal]
      subst hlocal
      cases hd : resolveLocalDef ctx (firstAttr operators) visited with
      | none => exact alike_answer _
      | some d =>
        obtain ⟨x,hx,hd⟩ := resolveLocalDef_lookup hd
        exact twin_references h (hclear.definition hx hd)
    rw [if_neg hlocal,if_neg hlocal]
    by_cases hdata : head = "data"
    · rw [if_pos hdata,if_pos hdata]
      exact twin_dataReference h hclear hindex
    rw [if_neg hdata,if_neg hdata]
    by_cases hvar : head = "var"
    · rw [if_pos hvar,if_pos hvar]
      split
      · exact alike_answer _
      · exact hindices
    rw [if_neg hvar,if_neg hvar]
    by_cases hmodule : head = "module"
    · rw [if_pos hmodule,if_pos hmodule]
      split
      · split
        · exact alike_answer _
        · exact hindices
      · exact hindices
    rw [if_neg hmodule,if_neg hmodule]
    have hhead : Reads ctx (.traversal (.variable head) operators) head :=
      .head (by simp [hlocal,hdata,hvar,hmodule])
    rw [h.lookup_eq hclear hhead]
    cases hb : binds'.lookup head with
    | some b => exact alike_ask (.bind h (h.clear head b hb))
    | none =>
      refine alike_ite hindices ?_
      split
      · exact alike_ite (alike_answer _) hindices
      · exact twin_resourceReference head h hclear hindex
  | _ =>
    refine alike_or (twin_references h (hclear.part ?_)) (twin_indexOperators h hclear ?_)
    · exact List.mem_map.mpr ⟨_,List.mem_cons_self,rfl⟩
    · exact fun c hc => List.mem_map.mpr ⟨c,List.mem_cons_of_mem _ hc,rfl⟩

/-- The variable of a `lookup` call is an argument of it. -/
theorem lookupBind_eq {ns : List String} {name : String} {args : List Expression}
    (h : Overlaid ctx B binds binds') (hclear : Clear ctx B binds' (.funcCall ns name args)) :
    lookupBind name args binds = lookupBind name args binds' := by
  unfold lookupBind
  split_ifs
  · split
    · rename_i var field rest
      have hmem : (Expression.variable var,[]) ∈
          scopedChildren (.funcCall ns name (.variable var :: .string field :: rest)) :=
        List.mem_map.mpr ⟨_,List.mem_cons_self,rfl⟩
      rw [h.lookup_eq (hclear.part hmem) .var]
    · rfl
  · rfl

theorem twin_entries {entries : List (ObjectKey × Expression)} (h : Overlaid ctx B binds binds')
    (hclear : Clear ctx B binds' (.object entries)) :
    (referencesApplyTime ctx (.object entries) binds visited).Alike (Twin ctx B)
      (referencesApplyTime ctx (.object entries) binds' visited) := by
  refine alike_any (List.forall₂_same.mpr fun entry hentry => ?_)
  have hpart : ∀ c, entry.1 = .expression c ∨ entry.2 = c → Clear ctx B binds' c := fun c hc =>
    hclear.part (List.mem_map.mpr ⟨c,mem_entryExprs.mpr ⟨entry,hentry,hc⟩,rfl⟩)
  obtain ⟨key,val⟩ := entry
  cases key with
  | ident name => exact twin_references h (hpart val (.inr rfl))
  | expression key =>
    exact alike_or (twin_references h (hpart key (.inl rfl)))
      (twin_references h (hpart val (.inr rfl)))

theorem twin_loop {keyVar : Option String} {valueVar : String} {coll valueExpr : Expression}
    {keyExpr cond : Option Expression} {grouping : Bool} {exprs : List Expression}
    (h : Overlaid ctx B binds binds')
    (hclear : Clear ctx B binds' (.forExpr keyVar valueVar coll keyExpr valueExpr grouping cond))
    (hexprs : ∀ c ∈ exprs, c ∈ [valueExpr] ++ keyExpr.toList ++ cond.toList) :
    (anyReferences exprs (bindLoop keyVar valueVar coll binds) visited).Alike (Twin ctx B)
      (anyReferences exprs (bindLoop keyVar valueVar coll binds') visited) := by
  have hcoll : Clear ctx B binds' coll := hclear.part List.mem_cons_self
  refine twin_anyReferences (h.loop hcoll) fun c hc => hclear.loop ?_
  exact List.mem_cons_of_mem _ (List.mem_map.mpr ⟨c,hexprs c hc,rfl⟩)

theorem twin_body_references (h : Overlaid ctx B binds binds') (hclear : Clear ctx B binds' e) :
    (referencesApplyTime ctx e binds visited).Alike (Twin ctx B)
      (referencesApplyTime ctx e binds' visited) := by
  have hparts : ∀ exprs : List Expression, Unscoped exprs e →
      (anyReferences exprs binds visited).Alike (Twin ctx B)
        (anyReferences exprs binds' visited) :=
    fun exprs hexprs => twin_anyReferences h fun c hc => hclear.part (hexprs c hc)
  cases e with
  | null | bool | number | string => exact alike_answer _
  | «variable» name =>
    simp only [referencesApplyTime]
    rw [h.lookup_eq hclear .var]
    cases hb : binds'.lookup name with
    | some b => exact alike_ask (.bind h (h.clear name b hb))
    | none => exact alike_answer _
  | object entries => exact twin_entries h hclear
  | array | stringTemplate | heredocTemplate | conditional | binaryOp =>
    exact hparts _ fun c hc => List.mem_map.mpr ⟨c,hc,rfl⟩
  | parenthesis | unaryOp => exact twin_references h (hclear.part List.mem_cons_self)
  | funcCall ns name args =>
    have hargs : Unscoped args (.funcCall ns name args) :=
      fun c hc => List.mem_map.mpr ⟨c,hc,rfl⟩
    simp only [referencesApplyTime]
    rw [lookupBind_eq h hclear]
    cases hb : lookupBind name args binds' with
    | some found =>
      obtain ⟨⟨var,hvar⟩,-⟩ := lookupBind_some hb
      refine alike_or (alike_ask (.bind h (h.clear var _ hvar))) (hparts _ fun c hc => hargs c ?_)
      exact List.mem_of_getElem? (Option.mem_toList.mp hc)
    | none => exact hparts _ hargs
  | traversal expr operators => exact twin_traversal h hclear
  | forExpr keyVar valueVar coll keyExpr valueExpr grouping cond =>
    refine alike_or (twin_references h (hclear.part List.mem_cons_self)) ?_
    exact twin_loop h hclear fun c hc => hc

theorem twin_body_membership (kind : MetaKind) (h : Overlaid ctx B binds binds')
    (hclear : Clear ctx B binds' e) :
    (membershipApplyTimeInner ctx e kind binds visited).Alike (Twin ctx B)
      (membershipApplyTimeInner ctx e kind binds' visited) := by
  cases e with
  | null | bool | number | string | «variable» | stringTemplate | heredocTemplate | parenthesis
  | conditional | unaryOp | binaryOp => exact twin_references h hclear
  | array items =>
    exact twin_anyReferences h fun c hc => hclear.part (List.mem_map.mpr ⟨c,hc,rfl⟩)
  | object entries =>
    refine alike_any (List.forall₂_same.mpr fun entry hentry => ?_)
    obtain ⟨key,val⟩ := entry
    cases key with
    | ident name => exact alike_answer _
    | expression key =>
      refine twin_references h (hclear.part (List.mem_map.mpr ⟨key,?_,rfl⟩))
      exact mem_entryExprs.mpr ⟨_,hentry,.inl rfl⟩
  | funcCall ns name args =>
    have hargs : ∀ c ∈ args, Clear ctx B binds' c :=
      fun c hc => hclear.part (List.mem_map.mpr ⟨c,hc,rfl⟩)
    simp only [membershipApplyTimeInner]
    refine alike_ite ?_ (alike_ite ?_ (twin_references h hclear))
    · cases args with
      | nil => exact alike_answer _
      | cons arg rest =>
        exact alike_ite (alike_answer _)
          (alike_ask (.membership h (hargs arg List.mem_cons_self)))
    · exact alike_any (List.forall₂_same.mpr fun c hc => alike_ask (.membership h (hargs c hc)))
  | forExpr keyVar valueVar coll keyExpr valueExpr grouping cond =>
    refine twin_loop h hclear fun c hc => ?_
    cases keyExpr with
    | none => exact hc
    | some key => exact List.mem_cons_of_mem valueExpr hc
  | traversal expr operators =>
    simp only [membershipApplyTimeInner]
    cases hx : localName (.traversal expr operators) with
    | some x =>
      dsimp only
      cases hd : resolveLocalDef ctx (some x) visited with
      | none => exact alike_answer _
      | some d =>
        obtain ⟨x',hx',hd⟩ := resolveLocalDef_lookup hd
        cases hx'
        exact alike_ask (.membership h (hclear.definition hx hd))
    | none =>
      dsimp only
      split
      · exact alike_answer _
      · exact twin_references h hclear

theorem twin_elementField {elem : Expression} {field : Option String}
    (h : Overlaid ctx B binds binds') (hclear : Clear ctx B binds' elem) :
    (elementFieldApplyTime elem field binds visited).Alike (Twin ctx B)
      (elementFieldApplyTime elem field binds' visited) := by
  unfold elementFieldApplyTime
  split
  · split
    · rename_i val hval
      exact twin_references h (hclear.part (List.mem_map.mpr ⟨val,objectGet_mem hval,rfl⟩))
    · exact alike_answer _
  · exact twin_references h hclear

theorem twin_body_bind (b : Bind) (field : Option String) (h : Overlaid ctx B binds binds')
    (hclear : Clear ctx B binds' b.coll) :
    (bindApplyTime ctx b field binds visited).Alike (Twin ctx B)
      (bindApplyTime ctx b field binds' visited) := by
  have hresolved : Clear ctx B binds' (resolveThroughLocals ctx b.coll visited).1 :=
    hclear.resolved
  cases b with
  | value coll =>
    simp only [bindApplyTime,elementValueApplyTime]
    simp only [Bind.coll] at hresolved
    generalize resolveThroughLocals ctx coll visited = r at hresolved ⊢
    obtain ⟨resolved,visited'⟩ := r
    dsimp only at hresolved ⊢
    split
    · rename_i entries
      refine alike_any (List.forall₂_same.mpr fun entry hentry => twin_elementField h ?_)
      refine hresolved.part (List.mem_map.mpr ⟨entry.2,?_,rfl⟩)
      exact mem_entryExprs.mpr ⟨entry,hentry,.inr rfl⟩
    · refine alike_any (List.forall₂_same.mpr fun el hel => twin_elementField h ?_)
      exact hresolved.part (List.mem_map.mpr ⟨el,hel,rfl⟩)
    · split
      · exact alike_answer _
      · exact twin_references h hresolved
  | key coll =>
    simp only [bindApplyTime,keySetApplyTime]
    simp only [Bind.coll] at hresolved
    generalize resolveThroughLocals ctx coll visited = r at hresolved ⊢
    obtain ⟨resolved,visited'⟩ := r
    dsimp only at hresolved ⊢
    split
    · exact alike_answer _
    · exact twin_anyReferences h fun el hel => hresolved.part (List.mem_map.mpr ⟨el,hel,rfl⟩)
    · split
      · exact alike_answer _
      · exact twin_references h hresolved

theorem twin_body {q q' : Call} (h : Twin ctx B q q') :
    (body ctx q).Alike (Twin ctx B) (body ctx q') := by
  cases h with
  | same => exact alike_refl Twin.same (body ctx q)
  | membership h hclear => exact twin_body_membership _ h hclear
  | references h hclear => exact twin_body_references h hclear
  | bind h hclear => exact twin_body_bind _ _ h hclear

/-- Calls that differ in the outer bindings alone return the same. -/
theorem returns_iff_of_twin {q q' : Call} (h : Twin ctx B q q') (a : Bool) :
    Returns (body ctx) q a ↔ Returns (body ctx) q' a :=
  returns_iff_of_bodies (fun _ _ => twin_body) h a

end bodies

section jumps

variable (ctx : UnknownCtx)

/-- The definition of a local that a call goes on to. -/
def enteredLocal : Call → Option Expression
  | .membership e _ _ visited => (resolveLocalDef ctx (localName e) visited).map Prod.fst
  | .references e _ visited => (resolveLocalDef ctx (localName e) visited).map Prod.fst
  | .bind b _ _ visited =>
    let (resolved,visited') := resolveThroughLocals ctx b.coll visited
    if visited' = visited then none else some resolved

def Call.unbound : Call → Call
  | .membership value kind _ visited => .membership value kind ∅ visited
  | .references expr _ visited => .references expr ∅ visited
  | .bind b field _ visited => .bind b field ∅ visited

/-- What a call goes on to along its own path, a data source or a resource, or a part of
the definition of a local. -/
inductive Enters (q : Call) : Call → Prop
  | inside {q' : Call} (h : q'.site.visited = q.site.visited) : Enters q q'
  | block {e : Expression} {visited : Finset String} : Enters q (.references e ∅ visited)
  | local {q' : Call} {d : Expression} (hd : enteredLocal ctx q = some d)
    (hreads : ∀ name, Reads ctx q'.site.expr name → Reads ctx d name)
    (hbinds : q'.site.binds = q.site.binds) : Enters q q'

variable {ctx} {q : Call} {expr : Expression} {operators : List TraversalOperator}
  {binds : Binds} {visited : Finset String}

theorem enters_anyReferences {exprs : List Expression} {binds' : Binds}
    (h : q.site.visited = visited) : (anyReferences exprs binds' visited).Only (Enters ctx q) :=
  only_anyReferences fun _ _ => .inside h.symm

theorem enters_indexOperators (h : q.site.visited = visited) :
    (indexOperatorsApplyTime operators binds visited).Only (Enters ctx q) :=
  only_indexOperators fun _ _ => .inside h.symm

theorem enters_resourceReference (rtype : String) (h : q.site.visited = visited) :
    (resourceReferenceApplyTime ctx operators rtype binds visited).Only (Enters ctx q) := by
  unfold resourceReferenceApplyTime
  split
  · dsimp only
    refine only_ite (only_answer _) ?_
    split
    · exact only_or (enters_indexOperators h) ((only_ask _).mpr .block)
    · split
      · exact only_ite (only_answer _) (enters_indexOperators h)
      · exact only_answer _
  · exact only_answer _

theorem enters_dataReference (h : q.site.visited = visited) :
    (dataReferenceApplyTime ctx operators binds visited).Only (Enters ctx q) := by
  unfold dataReferenceApplyTime
  split
  · refine only_or (enters_indexOperators h) (only_ite (only_answer _) ?_)
    split
    · exact only_answer _
    · exact only_ite (only_answer _) (only_anyReferences fun _ _ => .block)
  · exact enters_indexOperators h

theorem enters_traversal :
    (traversalApplyTime ctx expr operators binds visited).Only
      (Enters ctx (.references (.traversal expr operators) binds visited)) := by
  have hindices : (indexOperatorsApplyTime operators binds visited).Only
      (Enters ctx (.references (.traversal expr operators) binds visited)) :=
    enters_indexOperators rfl
  cases expr with
  | «variable» head =>
    simp only [traversalApplyTime]
    by_cases hlocal : head = "local"
    · rw [if_pos hlocal]
      subst hlocal
      cases hd : resolveLocalDef ctx (firstAttr operators) visited with
      | none => exact only_answer _
      | some d =>
        refine (only_ask _).mpr (.local (d:=d.1) ?_ (fun _ h => h) rfl)
        exact congrArg (Option.map Prod.fst) hd
    rw [if_neg hlocal]
    refine only_ite (enters_dataReference rfl) (only_ite ?_ (only_ite ?_ ?_))
    · split
      · exact only_answer _
      · exact hindices
    · split
      · split
        · exact only_answer _
        · exact hindices
      · exact hindices
    · split
      · exact (only_ask _).mpr (.inside rfl)
      · refine only_ite hindices ?_
        split
        · exact only_ite (only_answer _) hindices
        · exact enters_resourceReference head rfl
  | _ => exact only_or ((only_ask _).mpr (.inside rfl)) hindices

theorem enters_references (e : Expression) :
    (referencesApplyTime ctx e binds visited).Only (Enters ctx (.references e binds visited)) := by
  cases e with
  | null | bool | number | string => exact only_answer _
  | «variable» name =>
    simp only [referencesApplyTime]
    split
    · exact (only_ask _).mpr (.inside rfl)
    · exact only_answer _
  | object entries =>
    refine only_any fun entry _ => ?_
    obtain ⟨key,val⟩ := entry
    cases key with
    | ident name => exact (only_ask _).mpr (.inside rfl)
    | expression key => exact only_or ((only_ask _).mpr (.inside rfl)) ((only_ask _).mpr (.inside rfl))
  | array | stringTemplate | heredocTemplate | conditional | binaryOp =>
    exact enters_anyReferences rfl
  | parenthesis | unaryOp => exact (only_ask _).mpr (.inside rfl)
  | funcCall ns name args =>
    simp only [referencesApplyTime]
    split
    · exact only_or ((only_ask _).mpr (.inside rfl)) (enters_anyReferences rfl)
    · exact enters_anyReferences rfl
  | traversal expr operators => exact enters_traversal
  | forExpr keyVar valueVar coll keyExpr valueExpr grouping cond =>
    exact only_or ((only_ask _).mpr (.inside rfl)) (enters_anyReferences rfl)

theorem enters_membership (e : Expression) (kind : MetaKind) :
    (membershipApplyTimeInner ctx e kind binds visited).Only
      (Enters ctx (.membership e kind binds visited)) := by
  cases e with
  | null | bool | number | string | «variable» | stringTemplate | heredocTemplate | parenthesis
  | conditional | unaryOp | binaryOp => exact (only_ask _).mpr (.inside rfl)
  | array | forExpr => exact enters_anyReferences rfl
  | object entries =>
    refine only_any fun entry _ => ?_
    obtain ⟨key,val⟩ := entry
    cases key with
    | ident name => exact only_answer _
    | expression key => exact (only_ask _).mpr (.inside rfl)
  | funcCall ns name args =>
    simp only [membershipApplyTimeInner]
    refine only_ite ?_ (only_ite ?_ ((only_ask _).mpr (.inside rfl)))
    · cases args with
      | nil => exact only_answer _
      | cons => exact only_ite (only_answer _) ((only_ask _).mpr (.inside rfl))
    · exact only_any fun arg _ => (only_ask _).mpr (.inside rfl)
  | traversal expr operators =>
    simp only [membershipApplyTimeInner]
    cases hx : localName (.traversal expr operators) with
    | some x =>
      dsimp only
      cases hd : resolveLocalDef ctx (some x) visited with
      | none => exact only_answer _
      | some d =>
        refine (only_ask _).mpr (.local (d:=d.1) ?_ (fun _ h => h) rfl)
        rw [enteredLocal,hx,hd]
        rfl
    | none =>
      dsimp only
      split
      · exact only_answer _
      · exact (only_ask _).mpr (.inside rfl)

theorem enters_bind (b : Bind) (field : Option String) :
    (bindApplyTime ctx b field binds visited).Only (Enters ctx (.bind b field binds visited)) := by
  -- a part of what the collection resolves to, under the same bindings
  have hpart : ∀ e, (∀ name, Reads ctx e name →
      Reads ctx (resolveThroughLocals ctx b.coll visited).1 name) →
      Enters ctx (.bind b field binds visited)
        (.references e binds (resolveThroughLocals ctx b.coll visited).2) := by
    intro e he
    by_cases hv : (resolveThroughLocals ctx b.coll visited).2 = visited
    · exact .inside hv
    · exact .local (if_neg hv) he rfl
  have hfield : ∀ elem, (elem,[]) ∈ scopedChildren (resolveThroughLocals ctx b.coll visited).1 →
      (elementFieldApplyTime elem field binds (resolveThroughLocals ctx b.coll visited).2).Only
        (Enters ctx (.bind b field binds visited)) := by
    intro elem helem
    unfold elementFieldApplyTime
    split
    · split
      · rename_i val hval
        refine (only_ask _).mpr (hpart val fun name hname => .under helem (.under ?_ hname))
        exact List.mem_map.mpr ⟨val,objectGet_mem hval,rfl⟩
      · exact only_answer _
    · exact (only_ask _).mpr (hpart _ fun name hname => .under helem hname)
  cases b with
  | value coll =>
    simp only [bindApplyTime,elementValueApplyTime]
    simp only [Bind.coll] at hpart hfield
    generalize resolveThroughLocals ctx coll visited = r at hpart hfield ⊢
    obtain ⟨resolved,visited'⟩ := r
    dsimp only at hpart hfield ⊢
    split
    · refine only_any fun entry hentry => hfield _ (List.mem_map.mpr ⟨entry.2,?_,rfl⟩)
      exact mem_entryExprs.mpr ⟨entry,hentry,.inr rfl⟩
    · exact only_any fun el hel => hfield _ (List.mem_map.mpr ⟨el,hel,rfl⟩)
    · split
      · exact only_answer _
      · exact (only_ask _).mpr (hpart _ fun _ h => h)
  | key coll =>
    simp only [bindApplyTime,keySetApplyTime]
    simp only [Bind.coll] at hpart
    generalize resolveThroughLocals ctx coll visited = r at hpart ⊢
    obtain ⟨resolved,visited'⟩ := r
    dsimp only at hpart ⊢
    split
    · exact only_answer _
    · refine only_anyReferences fun el hel => hpart el fun name hname => .under ?_ hname
      exact List.mem_map.mpr ⟨el,hel,rfl⟩
    · split
      · exact only_answer _
      · exact (only_ask _).mpr (hpart _ fun _ h => h)

theorem calls_enters {q q' : Call} (h : Calls (body ctx) q q') : Enters ctx q q' := by
  cases q with
  | membership e kind binds visited => exact (enters_membership e kind).of_asks h
  | references e binds visited => exact (enters_references e).of_asks h
  | bind b field binds visited => exact (enters_bind b field).of_asks h

/-- A definition that a call goes on to is judged as it is without loop variables, when it
reads none of the names that loops bind where the call stands: for a data source and a
resource always, for a local in this case. -/
theorem jump_hygienic {q q' : Call} (hcall : Calls (body ctx) q q')
    (hjump : q'.site.visited ≠ q.site.visited)
    (hfree : ∀ d, enteredLocal ctx q = some d → ∀ name, Reads ctx d name →
      q.site.binds.lookup name = none) (a : Bool) :
    Returns (body ctx) q' a ↔ Returns (body ctx) q'.unbound a := by
  cases calls_enters hcall with
  | inside h => exact absurd h hjump
  | block => exact Iff.rfl
  | «local» hd hreads hbinds =>
    have hclear : Clear ctx q'.site.binds ∅ q'.site.expr := by
      intro name hname _
      rw [hbinds]
      exact hfree _ hd name (hreads name hname)
    have hover : Overlaid ctx q'.site.binds q'.site.binds ∅ :=
      ⟨fun name => rfl,fun name b hb => by cases hb⟩
    apply returns_iff_of_twin (B:=q'.site.binds)
    cases q' with
    | membership value kind binds' visited' => exact .membership hover hclear
    | references e binds' visited' => exact .references hover hclear
    | bind b field binds' visited' => exact .bind hover hclear

end jumps

section capture

/-- `local.ids`. -/
def localIds : Expression := .traversal (.variable "local") [.getAttr "ids"]

/-- `aws_instance.web.id`. -/
def webId : Expression := .traversal (.variable "aws_instance") [.getAttr "web",.getAttr "id"]

def idsCtx : UnknownCtx := { locals := (∅ : KeyedMap String Expression).insert "ids" webId }

/-- `["a"]`. -/
def onlyA : Expression := .array [.string "a"]

/-- The binding of `for name in ["a"]`. -/
def overA (name : String) : Binds := bindLoop none name onlyA ∅

/-- `[for x in ["a"] : local.ids]`. -/
theorem ids_hygienic : Returns (body idsCtx) (.references webId (overA "x") {"ids"}) true ↔
    Returns (body idsCtx) (.references webId ∅ {"ids"}) true := by
  have hcall : Calls (body idsCtx) (.references localIds (overA "x") ∅)
      (.references webId (overA "x") {"ids"}) := calls_first rfl
  have hd : enteredLocal idsCtx (.references localIds (overA "x") ∅) = some webId := rfl
  refine jump_hygienic hcall (by decide) (fun d hd' name hname => ?_) true
  rw [hd] at hd'
  cases hd'
  cases hname with
  | head => rfl
  | definition hx => cases hx
  | part hc =>
    have hchildren : scopedChildren webId = [] := rfl
    rw [hchildren] at hc
    cases hc

/-- `[for aws_instance in ["a"] : local.ids]`. -/
def capturing : Expression := .forExpr none "aws_instance" onlyA none localIds false none

/-- The loop variable stands for the resource type in the definition. -/
theorem ids_captured : ∃ q q' : Call,
    Relation.ReflTransGen (Calls (body idsCtx)) (valueApplyTime capturing) q ∧
      Calls (body idsCtx) q q' ∧ q'.site.visited ≠ q.site.visited ∧
        Returns (body idsCtx) q' false ∧ Returns (body idsCtx) q'.unbound true := by
  have hnames : Returns (body idsCtx) (.references onlyA ∅ ∅) false := ⟨2,rfl⟩
  have hloop : Calls (body idsCtx) (valueApplyTime capturing)
      (.references localIds (overA "aws_instance") ∅) := calls_after rfl hnames (.inl rfl)
  have hres : resolveThroughLocals idsCtx onlyA {"ids"} = (onlyA,{"ids"}) :=
    resolveThroughLocals_other rfl rfl
  have hbind : Returns (body idsCtx)
      (.bind (.value onlyA) (some "web") (overA "aws_instance") {"ids"}) false := by
    refine ⟨2,?_⟩
    simp only [eval,body,bindApplyTime,elementValueApplyTime,hres]
    rfl
  refine ⟨_,.references webId (overA "aws_instance") {"ids"},.single hloop,calls_first rfl,
    by decide,returns_ask rfl hbind,returns_answer rfl⟩

end capture

end UnknownValue
end TerraformLs
