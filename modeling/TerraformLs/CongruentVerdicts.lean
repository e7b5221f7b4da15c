import TerraformLs.Congruence

/-! A change that is sound where it is made. The evaluations before and after the change
go through the same cases, call by call, and come to the same verdict. -/
namespace TerraformLs
namespace UnknownValue

open Proc

section references

variable {ctx : UnknownCtx} {C : Change} {binds binds' : Binds} {visited visited' : Finset String}
  {e e' : Expression} {r : Role} {operators operators' : List TraversalOperator}

theorem matched_references (h : Rewritten C r e e') (hb : LinkedBinds C binds binds')
    (hv : C.path visited visited') :
    Matched ctx C (Proc.ask (.references e binds visited))
      (Proc.ask (.references e' binds' visited')) := alike_ask (.inl (.references h hb hv))

theorem matched_anyReferences {es es' : List Expression}
    (h : List.Forall₂ (Rewritten C r) es es') (hb : LinkedBinds C binds binds')
    (hv : C.path visited visited') :
    Matched ctx C (anyReferences es binds visited)
      (anyReferences es' binds' visited') :=
  alike_any (h.imp fun _ _ h => matched_references h hb hv)

/-- Only the index expressions among the operators are evaluated. -/
theorem indexOperators_eq (operators : List TraversalOperator) (binds : Binds)
    (visited : Finset String) : indexOperatorsApplyTime operators binds visited =
      anyReferences (operatorExprs operators) binds visited := by
  induction operators with
  | nil => rfl
  | cons op operators ih =>
    have htail := congrArg (fun p => Proc.or (Proc.answer false) p) ih
    cases op with
    | index idx => exact congrArg (Proc.or (Proc.ask (.references idx binds visited))) ih
    | attrSplat | fullSplat | getAttr | legacyIndex => exact htail

theorem matched_index
    (h : List.Forall₂ (Rewritten C .value) (operatorExprs operators) (operatorExprs operators'))
    (hb : LinkedBinds C binds binds') (hv : C.path visited visited') :
    Matched ctx C (indexOperatorsApplyTime operators binds visited)
      (indexOperatorsApplyTime operators' binds' visited') := by
  rw [indexOperators_eq,indexOperators_eq]
  exact matched_anyReferences h hb hv

theorem head_cases (hs : Harmless ctx C) (h : Rewritten C .head e e') :
    (∃ name, e = .variable name ∧ e' = .variable name) ∨
      ∀ name, e ≠ .variable name ∧ e' ≠ .variable name := by
  cases h with
  | hole h => exact .inr fun name => hs.head h
  | leaf h =>
    cases e with
    | «variable» name => exact .inl ⟨name,rfl,rfl⟩
    | _ => exact .inr fun name => ⟨nofun,nofun⟩
  | _ => exact .inr fun name => ⟨nofun,nofun⟩

/-- A part of the configuration of a block is evaluated alike. -/
theorem matched_configuration (hs : Harmless ctx C) {key : String} {d : Expression}
    (hv : C.path visited visited') (href : C.reference e) (h : Configured ctx e key d) :
    Matched ctx C (Proc.ask (.references d ∅ (insert key visited)))
      (Proc.ask (.references d ∅ (insert key visited'))) := by
  rcases hs.configuration hv href h with ⟨hin,hadmits⟩ | rfl
  · exact matched_references (rewritten_refl d hadmits .value) linkedBinds_empty hin
  · exact alike_ask (.inr fun _ => Iff.rfl)

/-- The evaluation of a reference to a resource looks at the attributes alone. -/
theorem matched_resource (hs : Harmless ctx C) (rtype : String)
    (href : C.reference (.traversal (.variable rtype) operators)) (hv : C.path visited visited')
    (hattrs : getAttrs operators = getAttrs operators')
    (hindex : Matched ctx C (indexOperatorsApplyTime operators binds visited)
      (indexOperatorsApplyTime operators' binds' visited')) :
    Matched ctx C (resourceReferenceApplyTime ctx operators rtype binds visited)
      (resourceReferenceApplyTime ctx operators' rtype binds' visited') := by
  unfold resourceReferenceApplyTime
  rw [← hattrs]
  split
  · rename_i name attr rest hnames
    dsimp only
    simp only [(hs.blocks hv rtype name).1]
    refine alike_ite (alike_answer _) ?_
    split
    · rename_i d hd
      exact alike_or hindex (matched_configuration hs hv href (.resource hnames hd))
    · split
      · exact alike_ite (alike_answer _) hindex
      · exact alike_answer _
  · exact alike_answer _

theorem matched_data (hs : Harmless ctx C)
    (href : C.reference (.traversal (.variable "data") operators)) (hv : C.path visited visited')
    (hattrs : getAttrs operators = getAttrs operators')
    (hindex : Matched ctx C (indexOperatorsApplyTime operators binds visited)
      (indexOperatorsApplyTime operators' binds' visited')) :
    Matched ctx C (dataReferenceApplyTime ctx operators binds visited)
      (dataReferenceApplyTime ctx operators' binds' visited') := by
  unfold dataReferenceApplyTime
  rw [← hattrs]
  split
  · rename_i dtype name rest hnames
    refine alike_or hindex ?_
    dsimp only
    simp only [(hs.blocks hv dtype name).2]
    refine alike_ite (alike_answer _) ?_
    split
    · exact alike_answer _
    · rename_i config hconfig
      refine alike_ite (alike_answer _) (alike_any (List.forall₂_same.mpr fun d hd => ?_))
      exact matched_configuration hs hv href (.data hnames hconfig hd)
  · exact hindex

/-- A local is entered alike: on both paths or on none, with its definition subject to the
change or closed. -/
inductive Entered (ctx : UnknownCtx) (C : Change) (x : Option String)
    (visited visited' : Finset String) : Prop
  | none (hleft : resolveLocalDef ctx x visited = none)
    (hright : resolveLocalDef ctx x visited' = none)
  | linked {d : Expression} {path path' : Finset String}
    (hleft : resolveLocalDef ctx x visited = some (d,path))
    (hright : resolveLocalDef ctx x visited' = some (d,path')) (hv : C.path path path')
    (h : Admits C d)
  | closed {d : Expression} {path : Finset String}
    (hleft : resolveLocalDef ctx x visited = some (d,path))
    (hright : resolveLocalDef ctx x visited' = some (d,path)) (h : Closed ctx C d)

theorem entered_local (hs : Harmless ctx C) (hv : C.path visited visited') (href : C.reference e) :
    Entered ctx C (localName e) visited visited' := by
  cases hx : localName e with
  | none => exact .none rfl rfl
  | some x =>
    have hsame := hs.locals hv href hx
    by_cases hin : x ∈ visited
    · exact .none (if_pos hin) (if_pos (hsame.mp hin))
    have hleft : resolveLocalDef ctx (some x) visited =
        (ctx.locals.lookup x).map fun d => (d,insert x visited) := if_neg hin
    have hright : resolveLocalDef ctx (some x) visited' =
        (ctx.locals.lookup x).map fun d => (d,insert x visited') := if_neg (mt hsame.mpr hin)
    cases hd : ctx.locals.lookup x with
    | none =>
      rw [hd] at hleft hright
      exact .none hleft hright
    | some d =>
      rw [hd] at hleft hright
      rcases hs.definition hv href hx hin hd with ⟨hpath,hadmits⟩ | ⟨rfl,hclosed⟩
      · exact .linked hleft hright hpath hadmits
      · exact .closed hleft hright hclosed

theorem firstAttr_eq (hattrs : getAttrs operators = getAttrs operators') :
    firstAttr operators = firstAttr operators' := congrArg List.head? hattrs

theorem allowlistedTraversal_eq (expr : Expression)
    (hattrs : getAttrs operators = getAttrs operators') :
    allowlistedTraversal ctx expr operators = allowlistedTraversal ctx expr operators' := by
  unfold allowlistedTraversal
  rw [hattrs]

theorem matched_traversal (hs : Harmless ctx C) (href : C.reference (.traversal e operators))
    (h : Rewritten C .head e e') (hattrs : getAttrs operators = getAttrs operators')
    (hindex : List.Forall₂ (Rewritten C .value) (operatorExprs operators)
      (operatorExprs operators'))
    (hb : LinkedBinds C binds binds') (hv : C.path visited visited') :
    Matched ctx C (traversalApplyTime ctx e operators binds visited)
      (traversalApplyTime ctx e' operators' binds' visited') := by
  have hindices : Matched ctx C (indexOperatorsApplyTime operators binds visited)
      (indexOperatorsApplyTime operators' binds' visited') := matched_index hindex hb hv
  rcases head_cases hs h with ⟨head,rfl,rfl⟩ | hhead
  · simp only [traversalApplyTime]
    rw [← firstAttr_eq hattrs,← allowlistedTraversal_eq _ hattrs,← hattrs]
    by_cases hlocal : head = "local"
    · subst hlocal
      rw [if_pos rfl,if_pos rfl]
      cases entered_local hs hv href with
      | none hleft hright =>
        rw [localName,headName,if_pos rfl] at hleft hright
        rw [hleft,hright]
        exact alike_answer _
      | linked hleft hright hin h =>
        rw [localName,headName,if_pos rfl] at hleft hright
        rw [hleft,hright]
        exact matched_references (rewritten_refl _ h .value) hb hin
      | closed hleft hright h =>
        rw [localName,headName,if_pos rfl] at hleft hright
        rw [hleft,hright]
        exact alike_ask (.inr (concur_references h hb))
    rw [if_neg hlocal,if_neg hlocal]
    by_cases hdata : head = "data"
    · subst hdata
      rw [if_pos rfl,if_pos rfl]
      exact matched_data hs href hv hattrs hindices
    rw [if_neg hdata,if_neg hdata]
    refine alike_ite ?_ (alike_ite ?_ ?_)
    · split
      · exact alike_answer _
      · exact hindices
    · split
      · split
        · exact alike_answer _
        · exact hindices
      · exact hindices
    · have hlookup := hb.lookup head
      generalize binds.lookup head = found at hlookup
      generalize binds'.lookup head = found' at hlookup
      cases hlookup with
      | some h => exact alike_ask (.inl (.bind h hb hv))
      | none =>
        refine alike_ite hindices ?_
        split
        · exact alike_ite (alike_answer _) hindices
        · exact matched_resource hs head href hv hattrs hindices
  · have hplain : ∀ {e : Expression} {operators : List TraversalOperator} {binds : Binds},
        (∀ name, e ≠ .variable name) → ∀ visited,
          traversalApplyTime ctx e operators binds visited =
            (Proc.ask (.references e binds visited)).or
              (indexOperatorsApplyTime operators binds visited) := by
      intro e operators binds h visited
      cases e with
      | «variable» name => exact (h name rfl).elim
      | _ => rfl
    rw [hplain fun name => (hhead name).1,hplain fun name => (hhead name).2]
    exact alike_or (matched_references h hb hv) hindices

/-- The entries of two objects, one by one. -/
inductive RewrittenEntry (C : Change) (r : Role) : ObjectKey × Expression → ObjectKey × Expression → Prop
  | ident {name : String} {val val' : Expression} (h : Rewritten C r.item val val') :
    RewrittenEntry C r (.ident name,val) (.ident name,val')
  | expression {key key' val val' : Expression} (hkey : Rewritten C r.entryKey key key')
    (h : Rewritten C r.item val val') :
    RewrittenEntry C r (.expression key,val) (.expression key',val')

theorem RewrittenEntries.forall₂ : ∀ {entries entries' : List (ObjectKey × Expression)},
    RewrittenEntries C r entries entries' →
      List.Forall₂ (RewrittenEntry C r) entries entries'
  | _,_,.nil => .nil
  | _,_,.ident h hs => .cons (.ident h) hs.forall₂
  | _,_,.expression hkey h hs => .cons (.expression hkey h) hs.forall₂

theorem rel_toList {o o' : Option Expression} (h : Option.Rel (Rewritten C r) o o') :
    List.Forall₂ (Rewritten C r) o.toList o'.toList := by
  cases h with
  | none => exact .nil
  | some h => exact .cons h .nil

theorem forall₂_getElem {es es' : List Expression}
    (h : List.Forall₂ (Rewritten C r) es es') (i : ℕ) :
    Option.Rel (Rewritten C r) es[i]? es'[i]? := by
  induction h generalizing i with
  | nil => exact .none
  | cons h _ ih =>
    cases i with
    | zero => exact .some h
    | succ i => simpa using ih i

theorem matched_object {entries entries' : List (ObjectKey × Expression)}
    (h : RewrittenEntries C r entries entries') (hb : LinkedBinds C binds binds')
    (hv : C.path visited visited') :
    Matched ctx C (referencesApplyTime ctx (.object entries) binds visited)
      (referencesApplyTime ctx (.object entries') binds' visited') := by
  refine alike_any (h.forall₂.imp fun entry entry' hentry => ?_)
  cases hentry with
  | ident h => exact matched_references h hb hv
  | expression hkey h =>
    exact alike_or (matched_references hkey hb hv) (matched_references h hb hv)

theorem matched_call (ns : List String) {name : String} {args args' : List Expression}
    (hnames : lookupNames name args = lookupNames name args')
    (h : List.Forall₂ (Rewritten C r) args args') (hb : LinkedBinds C binds binds')
    (hv : C.path visited visited') :
    Matched ctx C (referencesApplyTime ctx (.funcCall ns name args) binds visited)
      (referencesApplyTime ctx (.funcCall ns name args') binds' visited') := by
  have hargs : Matched ctx C (anyReferences args binds visited)
      (anyReferences args' binds' visited') := matched_anyReferences h hb hv
  simp only [referencesApplyTime]
  rw [lookupBind_eq_names,lookupBind_eq_names,hnames]
  cases lookupNames name args' with
  | none => exact hargs
  | some n =>
    have hlookup := hb.lookup n.1
    simp only [Option.bind_some]
    generalize binds.lookup n.1 = found at hlookup
    generalize binds'.lookup n.1 = found' at hlookup
    cases hlookup with
    | none => exact hargs
    | some hbind =>
      refine alike_or (alike_ask (.inl (.bind hbind hb hv))) ?_
      exact matched_anyReferences (rel_toList (forall₂_getElem h 2)) hb hv

theorem matched_loop {keyVar : Option String} {valueVar : String} {coll coll' : Expression}
    {es es' : List Expression} (hscope : ∀ name ∈ valueVar :: keyVar.toList, C.scope name)
    (hcoll : Rewritten C .collection coll coll')
    (h : List.Forall₂ (Rewritten C .value) es es') (hb : LinkedBinds C binds binds')
    (hv : C.path visited visited') :
    Matched ctx C
      (anyReferences es (bindLoop keyVar valueVar coll binds) visited)
      (anyReferences es' (bindLoop keyVar valueVar coll' binds') visited') :=
  matched_anyReferences h (hb.loop hscope hcoll) hv

theorem follows_references (hs : Harmless ctx C) (h : Rewritten C r e e')
    (hb : LinkedBinds C binds binds') (hv : C.path visited visited') :
    MatchedCalls ctx C (.references e binds visited)
      (.references e' binds' visited') := by
  cases h with
  | hole h => exact hs.references h hb hv
  | leaf h =>
    refine .inl ?_
    cases e with
    | null | bool | number | string => exact alike_answer _
    | «variable» name =>
      have hlookup := hb.lookup name
      simp only [body,referencesApplyTime]
      generalize binds.lookup name = found at hlookup
      generalize binds'.lookup name = found' at hlookup
      cases hlookup with
      | some h => exact alike_ask (.inl (.bind h hb hv))
      | none => exact alike_answer _
    | _ => exact h.elim
  | array h => exact .inl (matched_anyReferences h.forall₂ hb hv)
  | object h => exact .inl (matched_object h hb hv)
  | stringTemplate h => exact .inl (matched_anyReferences h.forall₂ hb hv)
  | heredocTemplate h => exact .inl (matched_anyReferences h.forall₂ hb hv)
  | parenthesis h => exact .inl (matched_references h hb hv)
  | conditional hcond htrue hfalse =>
    exact .inl (matched_anyReferences (.cons hcond (.cons htrue (.cons hfalse .nil))) hb hv)
  | @funcCall _ ns _ _ _ hnames h => exact .inl (matched_call ns hnames h.forall₂ hb hv)
  | traversal href h hattrs hlength hindex =>
    exact .inl (matched_traversal hs href h hattrs hindex.forall₂ hb hv)
  | unaryOp h => exact .inl (matched_references h hb hv)
  | binaryOp hlhs hrhs =>
    exact .inl (matched_anyReferences (.cons hlhs (.cons hrhs .nil)) hb hv)
  | forExpr hscope hcoll hkey hvalue hcond =>
    refine .inl (alike_or (matched_references hcoll hb hv) ?_)
    refine matched_loop hscope hcoll ?_ hb hv
    exact List.rel_append (List.rel_append (.cons hvalue .nil) (rel_toList hkey)) (rel_toList hcond)

end references

section membership

variable {ctx : UnknownCtx} {C : Change} {binds binds' : Binds} {visited visited' : Finset String}
  {e e' : Expression} {r : Role} {operators operators' : List TraversalOperator}

/-- The shapes that the analysis looks for survive what is replaced below the head. -/
theorem headName_eq (hs : Harmless ctx C) (h : Rewritten C .head e e')
    (hattrs : getAttrs operators = getAttrs operators') (expected : String) :
    headName (.traversal e operators) expected = headName (.traversal e' operators') expected := by
  rcases head_cases hs h with ⟨head,rfl,rfl⟩ | hhead
  · simp only [headName]
    rw [firstAttr_eq hattrs]
  · have hnone : ∀ {e : Expression} {operators : List TraversalOperator},
        (∀ name, e ≠ .variable name) → headName (.traversal e operators) expected = none := by
      intro e operators h
      cases e with
      | «variable» name => exact (h name rfl).elim
      | _ => rfl
    rw [hnone fun name => (hhead name).1,hnone fun name => (hhead name).2]

theorem varName_eq (hs : Harmless ctx C) (h : Rewritten C .head e e')
    (hattrs : getAttrs operators = getAttrs operators')
    (hlength : operators.length = operators'.length) :
    varName (.traversal e operators) = varName (.traversal e' operators') := by
  simp only [varName]
  rw [hlength,headName_eq hs h hattrs]

theorem allowlisted_eq (hs : Harmless ctx C) (h : Rewritten C .head e e')
    (hattrs : getAttrs operators = getAttrs operators') :
    allowlistedCollection ctx (.traversal e operators) =
      allowlistedCollection ctx (.traversal e' operators') := by
  simp only [allowlistedCollection]
  rcases head_cases hs h with ⟨head,rfl,rfl⟩ | hhead
  · rw [allowlistedTraversal_eq _ hattrs]
  · have hnone : ∀ {e : Expression} {operators : List TraversalOperator},
        (∀ name, e ≠ .variable name) → allowlistedTraversal ctx e operators = none := by
      intro e operators h
      cases e with
      | «variable» name => exact (h name rfl).elim
      | _ => rfl
    rw [hnone fun name => (hhead name).1,hnone fun name => (hhead name).2]

theorem counted_eq (hs : Harmless ctx C) (h : Rewritten C .counted e e') :
    allowlistedCollection ctx e = allowlistedCollection ctx e' := by
  cases h with
  | hole h =>
    obtain ⟨hnone,hnone'⟩ := hs.counted h
    rw [hnone,hnone']
  | traversal _ h hattrs => exact allowlisted_eq hs h hattrs
  | _ => rfl

theorem matched_membership {kind : MetaKind} (hs : Harmless ctx C)
    (hr : r.kind = some kind) (h : Rewritten C r e e') (hb : LinkedBinds C binds binds')
    (hv : C.path visited visited') :
    Matched ctx C (membershipApplyTimeInner ctx e kind binds visited)
      (membershipApplyTimeInner ctx e' kind binds' visited') := by
  have hwhole : Matched ctx C (Proc.ask (.references e binds visited))
      (Proc.ask (.references e' binds' visited')) := matched_references h hb hv
  cases h with
  | hole h => exact hs.membership h hr hb hv
  | leaf h =>
    cases e with
    | null | bool | number | string | «variable» => exact hwhole
    | _ => exact h.elim
  | stringTemplate | heredocTemplate | parenthesis | conditional | unaryOp | binaryOp =>
    exact hwhole
  | array h => exact matched_anyReferences h.forall₂ hb hv
  | object h =>
    refine alike_any (h.forall₂.imp fun entry entry' hentry => ?_)
    cases hentry with
    | ident h => exact alike_answer _
    | expression hkey h => exact matched_references hkey hb hv
  | @funcCall _ ns name args args' hnames h =>
    have harg : r.arg name = if kind = .count ∧ name = "length" then Role.counted
        else if isCollectionBuilder name ∨ isMembershipPassthrough name then .membership kind
        else .value := by
      unfold Role.arg
      rw [hr]
    rw [harg] at h
    simp only [membershipApplyTimeInner]
    split_ifs at h ⊢ with hcount hbuilder
    · cases h with
      | nil => exact alike_answer _
      | cons h =>
        dsimp only
        rw [counted_eq hs h]
        exact alike_ite (alike_answer _) (alike_ask (.inl (.membership rfl h hb hv)))
    · refine alike_any (h.forall₂.imp fun arg arg' h => ?_)
      exact alike_ask (.inl (.membership rfl h hb hv))
    · exact hwhole
  | traversal href h hattrs hlength hindex =>
    simp only [membershipApplyTimeInner]
    have hentered := entered_local hs hv href
    rw [localName,headName_eq hs h hattrs] at hentered
    rw [localName,localName,headName_eq hs h hattrs,varName_eq hs h hattrs hlength]
    split
    · rename_i x hx
      rw [hx] at hentered
      cases hentered with
      | none hleft hright =>
        rw [hleft,hright]
        exact alike_answer _
      | linked hleft hright hin h =>
        rw [hleft,hright]
        exact alike_ask (.inl (.membership rfl (rewritten_refl _ h (.membership kind)) hb hin))
      | closed hleft hright h =>
        rw [hleft,hright]
        exact alike_ask (.inr (concur_membership h hb))
    · split
      · exact alike_answer _
      · exact hwhole
  | forExpr hscope hcoll hkey hvalue hcond =>
    refine matched_loop hscope hcoll ?_ hb hv
    refine List.rel_append (.cons ?_ .nil) (rel_toList hcond)
    cases hkey with
    | none => exact hvalue
    | some h => exact h

end membership

section lookups

variable {ctx : UnknownCtx} {C : Change} {binds binds' : Binds} {visited visited' : Finset String}
  {e e' : Expression} {field : Option String}

theorem resolveThroughLocals_fixed (e : Expression) (visited : Finset String) :
    resolveThroughLocals ctx (resolveThroughLocals ctx e visited).1
      (resolveThroughLocals ctx e visited).2 = resolveThroughLocals ctx e visited := by
  induction e, visited using resolveThroughLocals.induct ctx with
  | case1 e visited x hx hin =>
    rw [resolveThroughLocals_cycle hx hin,resolveThroughLocals_cycle hx hin]
  | case2 e visited x hx hin d hd ih => rwa [resolveThroughLocals_local hx hin hd]
  | case3 e visited x hx hin hd =>
    rw [resolveThroughLocals_undefined hx hin hd]
    exact resolveThroughLocals_cycle hx (Finset.mem_insert_self x visited)
  | case4 e visited hx inner harg ih => rwa [resolveThroughLocals_identity hx harg]
  | case5 e visited hx harg =>
    rw [resolveThroughLocals_other hx harg,resolveThroughLocals_other hx harg]

/-- A lookup depends on what the collection resolves to. -/
theorem bindApplyTime_resolved {coll coll' : Expression} {visited' : Finset String}
    (h : resolveThroughLocals ctx coll visited = resolveThroughLocals ctx coll' visited')
    (field : Option String) (binds : Binds) :
    elementValueApplyTime ctx coll field binds visited =
      elementValueApplyTime ctx coll' field binds visited' ∧
    keySetApplyTime ctx coll binds visited = keySetApplyTime ctx coll' binds visited' := by
  unfold elementValueApplyTime keySetApplyTime
  rw [h]
  exact ⟨rfl,rfl⟩

/-- What two collections resolve to: they meet a replaced part, or are subject to the
change, or have come to the same closed definition. -/
inductive Resolved (ctx : UnknownCtx) (C : Change) (e e' : Expression)
    (visited visited' : Finset String) : Prop
  | hole {coll coll' : Expression} (h : C.hole .collection coll coll')
    (hv : C.path visited visited')
    (hleft : resolveThroughLocals ctx e visited = resolveThroughLocals ctx coll visited)
    (hright : resolveThroughLocals ctx e' visited' = resolveThroughLocals ctx coll' visited')
  | linked {coll coll' : Expression} {path path' : Finset String}
    (hleft : resolveThroughLocals ctx e visited = (coll,path))
    (hright : resolveThroughLocals ctx e' visited' = (coll',path')) (hv : C.path path path')
    (h : Rewritten C .collection coll coll')
  | closed {coll : Expression} {path : Finset String}
    (hleft : resolveThroughLocals ctx e visited = (coll,path))
    (hright : resolveThroughLocals ctx e' visited' = (coll,path)) (h : Closed ctx C coll)

/-- Both sides go on to the same. -/
theorem Resolved.of_eq {d d' : Expression} {path path' : Finset String}
    (hleft : resolveThroughLocals ctx e visited = resolveThroughLocals ctx d path)
    (hright : resolveThroughLocals ctx e' visited' = resolveThroughLocals ctx d' path')
    (h : (∃ coll coll' last last', resolveThroughLocals ctx d path = (coll,last) ∧
        resolveThroughLocals ctx d' path' = (coll',last') ∧ C.path last last' ∧
          Rewritten C .collection coll coll') ∨
      ∃ coll last, resolveThroughLocals ctx d path = (coll,last) ∧
        resolveThroughLocals ctx d' path' = (coll,last) ∧ Closed ctx C coll) :
    Resolved ctx C e e' visited visited' := by
  rcases h with ⟨coll,coll',last,last',hl,hr,hv,h⟩ | ⟨coll,last,hl,hr,h⟩
  · exact .linked (hleft.trans hl) (hright.trans hr) hv h
  · exact .closed (hleft.trans hl) (hright.trans hr) h

/-- Along definitions nothing is replaced. -/
theorem resolved_definition (hs : Harmless ctx C) (hv : C.path visited visited') (h : Admits C e) :
    (∃ coll coll' last last', resolveThroughLocals ctx e visited = (coll,last) ∧
        resolveThroughLocals ctx e visited' = (coll',last') ∧ C.path last last' ∧
          Rewritten C .collection coll coll') ∨
      ∃ coll last, resolveThroughLocals ctx e visited = (coll,last) ∧
        resolveThroughLocals ctx e visited' = (coll,last) ∧ Closed ctx C coll := by
  induction e, visited using resolveThroughLocals.induct ctx generalizing visited' with
  | case1 e visited x hx hin =>
    have hin' := (hs.locals hv (h e .refl).2 hx).mp hin
    exact .inl ⟨e,e,_,_,resolveThroughLocals_cycle hx hin,resolveThroughLocals_cycle hx hin',hv,
      rewritten_refl e h .collection⟩
  | case2 e visited x hx hin d hd ih =>
    have hin' := mt (hs.locals hv (h e .refl).2 hx).mpr hin
    rw [resolveThroughLocals_local hx hin hd,resolveThroughLocals_local hx hin' hd]
    rcases hs.definition hv (h e .refl).2 hx hin hd with ⟨hpath,hadmits⟩ | ⟨rfl,hclosed⟩
    · exact ih hpath hadmits
    · exact .inr ⟨_,_,rfl,rfl,fun name hname hreads => hclosed name hname (reads_resolved hreads)⟩
  | case3 e visited x hx hin hd =>
    have hin' := mt (hs.locals hv (h e .refl).2 hx).mpr hin
    exact .inl ⟨e,e,_,_,resolveThroughLocals_undefined hx hin hd,
      resolveThroughLocals_undefined hx hin' hd,hs.undefined hv hd,rewritten_refl e h .collection⟩
  | case4 e visited hx inner harg ih =>
    rw [resolveThroughLocals_identity hx harg,resolveThroughLocals_identity hx harg]
    exact ih hv (h.child (identityPassthroughArg_mem harg))
  | case5 e visited hx harg =>
    exact .inl ⟨e,e,_,_,resolveThroughLocals_other hx harg,resolveThroughLocals_other hx harg,hv,
      rewritten_refl e h .collection⟩

theorem resolved_of_rewritten (hs : Harmless ctx C) (hv : C.path visited visited')
    (h : Rewritten C .collection e e') : Resolved ctx C e e' visited visited' := by
  induction hn : sizeOf e using Nat.strong_induction_on generalizing e e' with
  | _ n ih =>
    have hstay : localName e = none → identityPassthroughArg e = none → localName e' = none →
        identityPassthroughArg e' = none → Resolved ctx C e e' visited visited' :=
      fun hx ha hx' ha' => .linked (resolveThroughLocals_other hx ha)
        (resolveThroughLocals_other hx' ha') hv h
    have hwhole := h
    cases h with
    | hole h => exact .hole h hv rfl rfl
    | leaf h =>
      cases e with
      | null | bool | number | string | «variable» => exact hstay rfl rfl rfl rfl
      | _ => exact h.elim
    | array | object | stringTemplate | heredocTemplate | parenthesis | conditional | unaryOp
    | binaryOp | forExpr => exact hstay rfl rfl rfl rfl
    | @funcCall _ ns name args args' hnames hargs =>
      by_cases hname : isIdentityPassthrough name
      · have harg : Role.arg .collection name = .collection := by
          simp only [Role.arg,Role.kind]
          rw [if_pos hname]
        rw [harg] at hargs
        have hempty : identityPassthroughArg (.funcCall ns name []) = none := by
          simp [identityPassthroughArg]
        cases hargs with
        | nil => exact hstay rfl hempty rfl hempty
        | @cons _ arg arg' rest rest' harg hrest =>
          have hinner : ∀ arg rest path, resolveThroughLocals ctx (.funcCall ns name (arg :: rest))
              path = resolveThroughLocals ctx arg path := fun arg rest path =>
            resolveThroughLocals_identity rfl (by simp [identityPassthroughArg,hname])
          have hleft := hinner arg rest visited
          have hright := hinner arg' rest' visited'
          have hlt : sizeOf arg < n := by
            rw [← hn]
            simp only [Expression.funcCall.sizeOf_spec,List.cons.sizeOf_spec]
            omega
          cases ih (sizeOf arg) hlt harg rfl with
          | hole h hv hl hr => exact .hole h hv (hleft.trans hl) (hright.trans hr)
          | linked hl hr hv h => exact .linked (hleft.trans hl) (hright.trans hr) hv h
          | closed hl hr h => exact .closed (hleft.trans hl) (hright.trans hr) h
      · have hnone : ∀ args, identityPassthroughArg (.funcCall ns name args) = none :=
          fun args => if_neg hname
        exact hstay rfl (hnone args) rfl (hnone args')
    | @traversal _ expr expr' operators operators' href hhead hattrs hlength hindex =>
      have hnames : localName (.traversal expr operators) = localName (.traversal expr' operators') :=
        headName_eq hs hhead hattrs "local"
      cases hx : localName (.traversal expr operators) with
      | none => exact hstay hx rfl (hnames ▸ hx) rfl
      | some x =>
        have hx' : localName (.traversal expr' operators') = some x := hnames ▸ hx
        have hsame := hs.locals hv href hx
        by_cases hin : x ∈ visited
        · exact .linked (resolveThroughLocals_cycle hx hin)
            (resolveThroughLocals_cycle hx' (hsame.mp hin)) hv hwhole
        have hin' := mt hsame.mpr hin
        cases hd : ctx.locals.lookup x with
        | none =>
          exact .linked (resolveThroughLocals_undefined hx hin hd)
            (resolveThroughLocals_undefined hx' hin' hd) (hs.undefined hv hd) hwhole
        | some d =>
          refine .of_eq (resolveThroughLocals_local hx hin hd)
            (resolveThroughLocals_local hx' hin' hd) ?_
          rcases hs.definition hv href hx hin hd with ⟨hpath,hadmits⟩ | ⟨rfl,hclosed⟩
          · exact resolved_definition hs hpath hadmits
          · refine .inr ⟨_,_,rfl,rfl,fun name hname hreads => ?_⟩
            exact hclosed name hname (reads_resolved hreads)

theorem elementField_other {elem : Expression} (h : ∀ entries, elem ≠ .object entries) :
    elementFieldApplyTime elem field binds visited = Proc.ask (.references elem binds visited) := by
  unfold elementFieldApplyTime
  split
  · rename_i f entries
    exact (h entries rfl).elim
  · rfl

theorem keyNamed_eq (hs : Harmless ctx C) {key key' : Expression}
    (h : Rewritten C .key key key') (name : String) :
    keyNamed name (.expression key) = keyNamed name (.expression key') := by
  have hnot : ∀ {key : Expression}, (∀ text, key ≠ .string text) →
      keyNamed name (.expression key) = false := by
    intro key h
    cases key with
    | string text => exact (h text rfl).elim
    | _ => rfl
  cases h with
  | hole h => rw [hnot fun text => (hs.key h).1,hnot fun text => (hs.key h).2]
  | _ => rfl

theorem objectGet_rel (hs : Harmless ctx C)
    {entries entries' : List (ObjectKey × Expression)}
    (h : List.Forall₂ (RewrittenEntry C .element) entries entries') (name : String) :
    Option.Rel (Rewritten C .value) (objectGet entries name) (objectGet entries' name) := by
  have hcons : ∀ entry entries, objectGet (entry :: entries) name =
      if keyNamed name entry.1 then some entry.2 else objectGet entries name := by
    intro entry entries
    unfold objectGet
    rw [List.find?_cons]
    cases keyNamed name entry.1 <;> rfl
  induction h with
  | nil => exact .none
  | cons h _ ih =>
    rw [hcons,hcons]
    cases h with
    | @ident key val val' h =>
      cases keyNamed name (.ident key) with
      | true => exact .some h
      | false => exact ih
    | @expression key key' val val' hkey h =>
      dsimp only
      rw [keyNamed_eq hs hkey]
      cases keyNamed name (.expression key') with
      | true => exact .some h
      | false => exact ih

theorem matched_elementField (hs : Harmless ctx C) (h : Rewritten C .element e e')
    (hb : LinkedBinds C binds binds') (hv : C.path visited visited') :
    Matched ctx C (elementFieldApplyTime e field binds visited)
      (elementFieldApplyTime e' field binds' visited') := by
  have hwhole : Matched ctx C (Proc.ask (.references e binds visited))
      (Proc.ask (.references e' binds' visited')) := matched_references h hb hv
  have hother : (∀ entries, e ≠ .object entries ∧ e' ≠ .object entries) →
      Matched ctx C (elementFieldApplyTime e field binds visited)
        (elementFieldApplyTime e' field binds' visited') := by
    intro h
    rw [elementField_other fun entries => (h entries).1,
      elementField_other fun entries => (h entries).2]
    exact hwhole
  cases h with
  | hole h => exact hother fun entries => hs.object h
  | leaf h =>
    cases e with
    | null | bool | number | string | «variable» => exact hother fun entries => ⟨nofun,nofun⟩
    | _ => exact h.elim
  | object h =>
    cases field with
    | none => exact hwhole
    | some f =>
      have hfound := objectGet_rel hs h.forall₂ f
      simp only [elementFieldApplyTime]
      generalize objectGet _ f = found at hfound ⊢
      generalize objectGet _ f = found' at hfound ⊢
      cases hfound with
      | none => exact alike_answer _
      | some h => exact matched_references h hb hv
  | _ => exact hother fun entries => ⟨nofun,nofun⟩

/-- The shapes of two collections that still differ by replaced parts. -/
theorem matched_element (hs : Harmless ctx C) (h : Rewritten C .collection e e')
    (hb : LinkedBinds C binds binds') (hv : C.path visited visited')
    (hfix : resolveThroughLocals ctx e visited = (e,visited))
    (hfix' : resolveThroughLocals ctx e' visited' = (e',visited')) :
    Matched ctx C (elementValueApplyTime ctx e field binds visited)
      (elementValueApplyTime ctx e' field binds' visited') := by
  have hwhole : Matched ctx C (Proc.ask (.references e binds visited))
      (Proc.ask (.references e' binds' visited')) := matched_references h hb hv
  cases h with
  | hole h => exact hs.element h hb hv
  | array h =>
    simp only [elementValueApplyTime,hfix,hfix']
    exact alike_any (h.forall₂.imp fun _ _ h => matched_elementField hs h hb hv)
  | object h =>
    simp only [elementValueApplyTime,hfix,hfix']
    refine alike_any (h.forall₂.imp fun _ _ h => ?_)
    cases h with
    | ident h => exact matched_elementField hs h hb hv
    | expression hkey h => exact matched_elementField hs h hb hv
  | traversal _ h hattrs =>
    simp only [elementValueApplyTime,hfix,hfix']
    rw [allowlisted_eq hs h hattrs]
    split
    · exact alike_answer _
    · exact hwhole
  | leaf h =>
    cases e with
    | null | bool | number | string | «variable» =>
      simp only [elementValueApplyTime,hfix,hfix']
      exact hwhole
    | _ => exact h.elim
  | _ =>
    simp only [elementValueApplyTime,hfix,hfix']
    exact hwhole

theorem matched_keySet (hs : Harmless ctx C) (h : Rewritten C .collection e e')
    (hb : LinkedBinds C binds binds') (hv : C.path visited visited')
    (hfix : resolveThroughLocals ctx e visited = (e,visited))
    (hfix' : resolveThroughLocals ctx e' visited' = (e',visited')) :
    Matched ctx C (keySetApplyTime ctx e binds visited)
      (keySetApplyTime ctx e' binds' visited') := by
  have hwhole : Matched ctx C (Proc.ask (.references e binds visited))
      (Proc.ask (.references e' binds' visited')) := matched_references h hb hv
  cases h with
  | hole h => exact hs.keySet h hb hv
  | array h =>
    simp only [keySetApplyTime,hfix,hfix']
    exact matched_anyReferences h.forall₂ hb hv
  | object h =>
    simp only [keySetApplyTime,hfix,hfix']
    exact alike_answer _
  | traversal _ h hattrs hlength =>
    simp only [keySetApplyTime,hfix,hfix']
    rw [varName_eq hs h hattrs hlength]
    split
    · exact alike_answer _
    · exact hwhole
  | leaf h =>
    cases e with
    | null | bool | number | string | «variable» =>
      simp only [keySetApplyTime,hfix,hfix']
      exact hwhole
    | _ => exact h.elim
  | _ =>
    simp only [keySetApplyTime,hfix,hfix']
    exact hwhole

theorem matched_bind {b b' : Bind} (hs : Harmless ctx C) (h : LinkedBind C b b')
    (hb : LinkedBinds C binds binds') (hv : C.path visited visited') :
    Matched ctx C (bindApplyTime ctx b field binds visited)
      (bindApplyTime ctx b' field binds' visited') := by
  have hfixed : ∀ {coll c : Expression} {path path' : Finset String},
      resolveThroughLocals ctx coll path = (c,path') →
        resolveThroughLocals ctx c path' = (c,path') := by
    intro coll c path path' h
    have hfix : resolveThroughLocals ctx (resolveThroughLocals ctx coll path).1
        (resolveThroughLocals ctx coll path).2 = resolveThroughLocals ctx coll path :=
      resolveThroughLocals_fixed coll path
    rwa [h] at hfix
  cases h with
  | value h =>
    simp only [bindApplyTime]
    cases resolved_of_rewritten hs hv h with
    | hole h hv hleft hright =>
      rw [(bindApplyTime_resolved hleft field binds).1,(bindApplyTime_resolved hright field binds').1]
      exact hs.element h hb hv
    | linked hleft hright hin h =>
      rw [(bindApplyTime_resolved (hleft.trans (hfixed hleft).symm) field binds).1,
        (bindApplyTime_resolved (hright.trans (hfixed hright).symm) field binds').1]
      exact matched_element hs h hb hin (hfixed hleft) (hfixed hright)
    | @closed coll _ hleft hright h =>
      rw [(bindApplyTime_resolved (hleft.trans (hfixed hleft).symm) field binds).1,
        (bindApplyTime_resolved (hright.trans (hfixed hright).symm) field binds').1]
      exact matched_closed (b:=.value coll) h hb
  | key h =>
    simp only [bindApplyTime]
    cases resolved_of_rewritten hs hv h with
    | hole h hv hleft hright =>
      rw [(bindApplyTime_resolved hleft field binds).2,(bindApplyTime_resolved hright field binds').2]
      exact hs.keySet h hb hv
    | linked hleft hright hin h =>
      rw [(bindApplyTime_resolved (hleft.trans (hfixed hleft).symm) field binds).2,
        (bindApplyTime_resolved (hright.trans (hfixed hright).symm) field binds').2]
      exact matched_keySet hs h hb hin (hfixed hleft) (hfixed hright)
    | @closed coll _ hleft hright h =>
      rw [(bindApplyTime_resolved (hleft.trans (hfixed hleft).symm) field binds).2,
        (bindApplyTime_resolved (hright.trans (hfixed hright).symm) field binds').2]
      exact @matched_closed ctx C _ _ _ (.key coll) field h hb

/-- A change that is sound where it is made changes no verdict. -/
theorem concur_of_linked (hs : Harmless ctx C) {q q' : Call} (h : Linked C q q') :
    Concur (body ctx) (body ctx) q q' := by
  have hsteps : ∀ q q', Linked C q q' → MatchedCalls ctx C q q' := by
    intro q q' h
    cases h with
    | membership hr h hb hv => exact .inl (matched_membership hs hr h hb hv)
    | references h hb hv => exact follows_references hs h hb hv
    | bind h hb hv => exact .inl (matched_bind hs h hb hv)
  exact concur_of_alike hsteps h

end lookups
end UnknownValue
end TerraformLs
