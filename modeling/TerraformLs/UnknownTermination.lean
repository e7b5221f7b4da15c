import Mathlib.Data.Set.Finite.List
import TerraformLs.UnknownValue

/-! When the analysis of unknown values ends. A call goes on to an expression
inside its own, or to a definition not yet on the path; only the lookup of a
loop variable goes back, to the collection it is bound to. -/
namespace TerraformLs
namespace UnknownValue

open Proc Relation Walks

section children

def operatorExprs (operators : List TraversalOperator) : List Expression :=
  operators.filterMap fun
    | .index idx => some idx
    | _ => none

def entryExprs (entries : List (ObjectKey × Expression)) : List Expression :=
  entries.flatMap fun
    | (.ident _,val) => [val]
    | (.expression key,val) => [key,val]

/-- The expressions right below an expression. -/
def children : Expression → List Expression
  | .null | .bool _ | .number _ | .string _ | .variable _ => []
  | .array items => items
  | .object entries => entryExprs entries
  | .stringTemplate elements | .heredocTemplate elements => templateExprs elements
  | .parenthesis inner => [inner]
  | .conditional cond whenTrue whenFalse => [cond,whenTrue,whenFalse]
  | .funcCall _ _ args => args
  | .traversal expr operators => expr :: operatorExprs operators
  | .unaryOp _ operand => [operand]
  | .binaryOp lhs _ rhs => [lhs,rhs]
  | .forExpr _ _ coll keyExpr valueExpr _ cond =>
    [coll,valueExpr] ++ keyExpr.toList ++ cond.toList

mutual

theorem sizeOf_templateExprs {e : Expression} : ∀ elements : List Element,
    e ∈ templateExprs elements → sizeOf e < sizeOf elements
  | [],h => by simp [templateExprs] at h
  | .literal text::elements,h => by
    rw [templateExprs] at h
    have hlt := sizeOf_templateExprs elements h
    simp only [List.cons.sizeOf_spec]
    omega
  | .interpolation expr::elements,h => by
    rw [templateExprs,List.mem_cons] at h
    simp only [List.cons.sizeOf_spec,Element.interpolation.sizeOf_spec]
    rcases h with rfl | h
    · omega
    · have hlt := sizeOf_templateExprs elements h
      omega
  | .directive d::elements,h => by
    rw [templateExprs,List.mem_append] at h
    simp only [List.cons.sizeOf_spec,Element.directive.sizeOf_spec]
    rcases h with h | h
    · have hlt := sizeOf_directiveExprs d h
      omega
    · have hlt := sizeOf_templateExprs elements h
      omega

theorem sizeOf_directiveExprs {e : Expression} : ∀ d : Directive,
    e ∈ directiveExprs d → sizeOf e < sizeOf d
  | .if cond whenTrue whenFalse,h => by
    rw [directiveExprs,List.mem_cons,List.mem_append] at h
    simp only [Directive.if.sizeOf_spec]
    rcases h with rfl | h | h
    · omega
    · have hlt := sizeOf_templateExprs whenTrue h
      omega
    · have hlt := sizeOf_elseExprs whenFalse h
      omega
  | .for keyVar valueVar collection elements,h => by
    rw [directiveExprs,List.mem_cons] at h
    simp only [Directive.for.sizeOf_spec]
    rcases h with rfl | h
    · omega
    · have hlt := sizeOf_templateExprs elements h
      omega

theorem sizeOf_elseExprs {e : Expression} : ∀ elements : Option (List Element),
    e ∈ elseExprs elements → sizeOf e < sizeOf elements
  | none,h => by simp [elseExprs] at h
  | some elements,h => by
    rw [elseExprs] at h
    have hlt := sizeOf_templateExprs elements h
    simp only [Option.some.sizeOf_spec]
    omega

end

theorem sizeOf_operatorExprs {e : Expression} {operators : List TraversalOperator}
    (h : e ∈ operatorExprs operators) : sizeOf e < sizeOf operators := by
  obtain ⟨op,hop,he⟩ := List.mem_filterMap.mp h
  have hlt := List.sizeOf_lt_of_mem hop
  cases op <;> cases he
  simp only [TraversalOperator.index.sizeOf_spec] at hlt
  omega

theorem mem_entryExprs {e : Expression} {entries : List (ObjectKey × Expression)} :
    e ∈ entryExprs entries ↔ ∃ entry ∈ entries, entry.1 = .expression e ∨ entry.2 = e := by
  rw [entryExprs,List.mem_flatMap]
  refine exists_congr fun entry => and_congr_right fun _ => ?_
  obtain ⟨key,val⟩ := entry
  cases key <;> simp [eq_comm]

theorem sizeOf_entryExprs {e : Expression} {entries : List (ObjectKey × Expression)}
    (h : e ∈ entryExprs entries) : sizeOf e < sizeOf entries := by
  obtain ⟨⟨key,val⟩,hmem,he⟩ := mem_entryExprs.mp h
  have hlt := List.sizeOf_lt_of_mem hmem
  simp only [Prod.mk.sizeOf_spec] at hlt
  rcases he with rfl | rfl
  · simp only [ObjectKey.expression.sizeOf_spec] at hlt
    omega
  · dsimp only
    omega

theorem sizeOf_toList {e : Expression} {o : Option Expression} (h : e ∈ o.toList) :
    sizeOf e < sizeOf o := by
  rw [Option.mem_toList] at h
  subst h
  simp

theorem sizeOf_children {e c : Expression} (h : c ∈ children e) : sizeOf c < sizeOf e := by
  cases e with
  | null | bool | number | string | «variable» => cases h
  | array items =>
    have hlt : sizeOf c < sizeOf items := List.sizeOf_lt_of_mem h
    simp only [Expression.array.sizeOf_spec]
    omega
  | object entries =>
    have hlt := sizeOf_entryExprs h
    simp only [Expression.object.sizeOf_spec]
    omega
  | stringTemplate elements =>
    have hlt := sizeOf_templateExprs elements h
    simp only [Expression.stringTemplate.sizeOf_spec]
    omega
  | heredocTemplate elements =>
    have hlt := sizeOf_templateExprs elements h
    simp only [Expression.heredocTemplate.sizeOf_spec]
    omega
  | parenthesis inner =>
    rw [List.mem_singleton.mp h,Expression.parenthesis.sizeOf_spec]
    omega
  | conditional cond whenTrue whenFalse =>
    simp only [children,List.mem_cons,List.not_mem_nil,or_false] at h
    simp only [Expression.conditional.sizeOf_spec]
    rcases h with rfl | rfl | rfl <;> omega
  | funcCall ns name args =>
    have hlt : sizeOf c < sizeOf args := List.sizeOf_lt_of_mem h
    simp only [Expression.funcCall.sizeOf_spec]
    omega
  | traversal expr operators =>
    simp only [Expression.traversal.sizeOf_spec]
    rcases List.mem_cons.mp h with rfl | h
    · omega
    · have hlt := sizeOf_operatorExprs h
      omega
  | unaryOp op operand =>
    rw [List.mem_singleton.mp h,Expression.unaryOp.sizeOf_spec]
    omega
  | binaryOp lhs op rhs =>
    simp only [children,List.mem_cons,List.not_mem_nil,or_false] at h
    simp only [Expression.binaryOp.sizeOf_spec]
    rcases h with rfl | rfl <;> omega
  | forExpr keyVar valueVar coll keyExpr valueExpr grouping cond =>
    simp only [children,List.mem_append,List.mem_cons,List.not_mem_nil,or_false] at h
    simp only [Expression.forExpr.sizeOf_spec]
    rcases h with ((rfl | rfl) | h) | h
    · omega
    · omega
    · have hlt := sizeOf_toList h
      omega
    · have hlt := sizeOf_toList h
      omega

/-- Finitely many expressions lie at or below an expression. -/
theorem finite_below (e : Expression) :
    {e' | ReflTransGen (fun e c => c ∈ children e) e e'}.Finite := by
  induction hn : sizeOf e using Nat.strong_induction_on generalizing e with
  | _ n ih =>
    have hchildren : (⋃ c ∈ {c | c ∈ children e},
        {e' | ReflTransGen (fun e c => c ∈ children e) c e'}).Finite :=
      (List.finite_toSet (children e)).biUnion fun c hc =>
        ih (sizeOf c) (hn ▸ sizeOf_children hc) c rfl
    refine (hchildren.insert e).subset fun e' he' => ?_
    rcases ReflTransGen.cases_head he' with rfl | ⟨c,hc,hce⟩
    · exact Set.mem_insert _ _
    · exact Set.mem_insert_of_mem _ (Set.mem_biUnion hc hce)

end children

section steps

/-- Where a call stands: its expression, the bindings in force and the path. -/
structure Site where
  expr : Expression
  binds : Binds
  visited : Finset String

def Call.site : Call → Site
  | .membership value _ binds visited => ⟨value,binds,visited⟩
  | .references expr binds visited => ⟨expr,binds,visited⟩
  | .bind b _ binds visited => ⟨b.coll,binds,visited⟩

def Call.field : Call → Option String
  | .bind _ field _ _ => field
  | _ => none

/-- The lookup of a loop variable. -/
def Call.IsLookup : Call → Prop
  | .bind _ _ _ _ => True
  | _ => False

/-- Orders the calls that stand at one expression. -/
def Call.rank : Call → ℕ
  | .references _ _ _ => 0
  | _ => 1

/-- The names that definitions have on the path. -/
def keys (ctx : UnknownCtx) : Finset String :=
  ctx.locals.keys.toFinset ∪
    ((ctx.dataConfigs.keys.map fun id => dataKey id.1 id.2).toFinset ∪
      (ctx.resourceConfigs.keys.map fun id => resourceKey id.1 id.2).toFinset)

def definitions (ctx : UnknownCtx) : List Expression :=
  ctx.locals.entries.map Sigma.snd ++
    ((ctx.dataConfigs.entries.flatMap fun e => e.2.exprs) ++
      ctx.resourceConfigs.entries.flatMap fun e => e.2.exprs)

/-- The names an expression can bind, visit or read a field by. -/
def names : Expression → List String
  | .traversal _ operators => getAttrs operators
  | .funcCall _ _ args => args.filterMap fun
    | .string field => some field
    | _ => none
  | .forExpr keyVar valueVar _ _ _ _ _ => valueVar :: keyVar.toList
  | _ => []

/-- One step of the analysis from where it stands. -/
inductive Moves (ctx : UnknownCtx) : Site → Site → Prop
  | child {s : Site} {c : Expression} (h : c ∈ children s.expr) :
    Moves ctx s { s with expr := c }
  | loop {keyVar : Option String} {valueVar : String} {coll valueExpr c : Expression}
      {keyExpr cond : Option Expression} {grouping : Bool} {binds : Binds}
      {visited : Finset String}
      (h : c ∈ children (.forExpr keyVar valueVar coll keyExpr valueExpr grouping cond)) :
    Moves ctx ⟨.forExpr keyVar valueVar coll keyExpr valueExpr grouping cond,binds,visited⟩
      ⟨c,bindLoop keyVar valueVar coll binds,visited⟩
  | jump {s : Site} {key : String} {d : Expression} {binds : Binds} (hkey : key ∈ keys ctx)
      (hfresh : key ∉ s.visited) (hd : d ∈ definitions ctx)
      (hbinds : binds = s.binds ∨ binds = ∅) :
    Moves ctx s ⟨d,binds,insert key s.visited⟩

/-- What the evaluation of a call can go on to. -/
inductive Step (ctx : UnknownCtx) : Call → Call → Prop
  | move {q q' : Call} (hq : ¬q.IsLookup) (hq' : ¬q'.IsLookup)
      (hrank : q'.rank ≤ q.rank) (h : Moves ctx q.site q'.site) : Step ctx q q'
  | stay {q q' : Call} (hq' : ¬q'.IsLookup) (hrank : q'.rank < q.rank)
      (h : q'.site = q.site) : Step ctx q q'
  | lookup {expr : Expression} {name : String} {b : Bind} {field : Option String}
      {binds : Binds} {visited : Finset String} (h : binds.lookup name = some b)
      (hfield : ∀ f ∈ field, f ∈ names expr) :
    Step ctx (.references expr binds visited) (.bind b field binds visited)
  | resolve {b : Bind} {field : Option String} {e : Expression} {binds : Binds}
      {visited : Finset String}
      (h : ReflTransGen (fun e c => c ∈ children e) (resolveThroughLocals ctx b.coll visited).1 e) :
    Step ctx (.bind b field binds visited)
      (.references e binds (resolveThroughLocals ctx b.coll visited).2)

end steps

section bodies

variable {ctx : UnknownCtx}

theorem mem_keys_of_lookup {κ ν : Type} [DecidableEq κ] {m : KeyedMap κ ν} {k : κ} {v : ν}
    (h : m.lookup k = some v) : k ∈ m.keys := by
  rw [← AList.mem_keys,← AList.lookup_isSome,h]
  rfl

theorem local_key {name : String} {d : Expression} (h : ctx.locals.lookup name = some d) :
    name ∈ keys ctx ∧ d ∈ definitions ctx := by
  constructor
  · exact Finset.mem_union_left _ (mem_locals_keys ctx h)
  · exact List.mem_append_left _ (List.mem_map.mpr ⟨_,KeyedMap.mem_entries.mpr h,rfl⟩)

theorem data_key {dtype name : String} {config : BlockConfig}
    (h : ctx.dataConfigs.lookup (dtype,name) = some config) :
    dataKey dtype name ∈ keys ctx ∧ ∀ d ∈ config.exprs, d ∈ definitions ctx := by
  constructor
  · refine Finset.mem_union_right _ (Finset.mem_union_left _ ?_)
    exact List.mem_toFinset.mpr (List.mem_map.mpr ⟨_,mem_keys_of_lookup h,rfl⟩)
  · intro d hd
    refine List.mem_append_right _ (List.mem_append_left _ ?_)
    exact List.mem_flatMap.mpr ⟨_,KeyedMap.mem_entries.mpr h,hd⟩

theorem resource_key {rtype name attr : String} {d : Expression}
    (h : (ctx.resourceConfigs.lookup (rtype,name)).bind (fun config => config.attrs.lookup attr) =
      some d) : resourceKey rtype name ∈ keys ctx ∧ d ∈ definitions ctx := by
  obtain ⟨config,hconfig,hd⟩ := Option.bind_eq_some_iff.mp h
  constructor
  · refine Finset.mem_union_right _ (Finset.mem_union_right _ ?_)
    exact List.mem_toFinset.mpr (List.mem_map.mpr ⟨_,mem_keys_of_lookup hconfig,rfl⟩)
  · refine List.mem_append_right _ (List.mem_append_right _ ?_)
    refine List.mem_flatMap.mpr ⟨_,KeyedMap.mem_entries.mpr hconfig,?_⟩
    exact List.mem_append_left _ (List.mem_map.mpr ⟨_,KeyedMap.mem_entries.mpr hd,rfl⟩)

/-- A local is entered once, with its name on the path. -/
theorem resolveLocalDef_entered {name : Option String} {visited : Finset String}
    {found : Expression × Finset String} (h : resolveLocalDef ctx name visited = some found) :
    ∃ x, name = some x ∧ x ∉ visited ∧ ctx.locals.lookup x = some found.1 ∧
      found.2 = insert x visited := by
  unfold resolveLocalDef at h
  split at h
  · cases h
  · rename_i x
    split_ifs at h with hv
    obtain ⟨d,hd,he⟩ := Option.map_eq_some_iff.mp h
    exact ⟨x,rfl,hv,he ▸ hd,he ▸ rfl⟩

theorem resolveLocalDef_some {name : Option String} {visited visited' : Finset String}
    {d : Expression} (h : resolveLocalDef ctx name visited = some (d,visited')) :
    ∃ key ∈ keys ctx, key ∉ visited ∧ d ∈ definitions ctx ∧ visited' = insert key visited := by
  obtain ⟨x,-,hfresh,hdef,hvisited⟩ := resolveLocalDef_entered h
  exact ⟨x,(local_key hdef).1,hfresh,(local_key hdef).2,hvisited⟩

/-- A reference moves on to an expression below its own. -/
theorem step_child {e c : Expression} {binds : Binds} {visited : Finset String}
    (h : c ∈ children e) :
    Step ctx (.references e binds visited) (.references c binds visited) :=
  .move id id le_rfl (Moves.child (s:=⟨e,binds,visited⟩) h)

theorem step_jump {e d : Expression} {binds binds' : Binds} {visited : Finset String}
    {key : String} (hkey : key ∈ keys ctx) (hfresh : key ∉ visited) (hd : d ∈ definitions ctx)
    (hbinds : binds' = binds ∨ binds' = ∅) :
    Step ctx (.references e binds visited) (.references d binds' (insert key visited)) :=
  .move id id le_rfl (Moves.jump (s:=⟨e,binds,visited⟩) hkey hfresh hd hbinds)

theorem only_anyReferences {P : Call → Prop} {exprs : List Expression} {binds : Binds}
    {visited : Finset String} (h : ∀ e ∈ exprs, P (.references e binds visited)) :
    (anyReferences exprs binds visited).Only P :=
  only_any fun e he => (only_ask _).mpr (h e he)

theorem only_indexOperators {P : Call → Prop} {operators : List TraversalOperator}
    {binds : Binds} {visited : Finset String}
    (h : ∀ e ∈ operatorExprs operators, P (.references e binds visited)) :
    (indexOperatorsApplyTime operators binds visited).Only P := by
  refine only_any fun op hop => ?_
  cases op with
  | index idx => exact (only_ask _).mpr (h idx (List.mem_filterMap.mpr ⟨_,hop,rfl⟩))
  | attrSplat | fullSplat | getAttr | legacyIndex => exact only_answer _

variable {expr : Expression} {operators : List TraversalOperator} {binds : Binds}
  {visited : Finset String}

theorem only_index : (indexOperatorsApplyTime operators binds visited).Only
    (Step ctx (.references (.traversal expr operators) binds visited)) :=
  only_indexOperators fun _ he => step_child (List.mem_cons_of_mem _ he)

theorem only_resourceReference (rtype : String) :
    (resourceReferenceApplyTime ctx operators rtype binds visited).Only
      (Step ctx (.references (.traversal expr operators) binds visited)) := by
  unfold resourceReferenceApplyTime
  split
  · dsimp only
    split_ifs with hv
    · exact only_answer _
    · split
      · rename_i d hd
        obtain ⟨hkey,hd⟩ := resource_key hd
        exact only_or only_index ((only_ask _).mpr (step_jump hkey hv hd (.inr rfl)))
      · split
        · split_ifs
          · exact only_answer _
          · exact only_index
        · exact only_answer _
  · exact only_answer _

theorem only_dataReference :
    (dataReferenceApplyTime ctx operators binds visited).Only
      (Step ctx (.references (.traversal expr operators) binds visited)) := by
  unfold dataReferenceApplyTime
  split
  · refine only_or only_index ?_
    dsimp only
    split_ifs with hv
    · exact only_answer _
    · split
      · exact only_answer _
      · rename_i config hconfig
        obtain ⟨hkey,hdefs⟩ := data_key hconfig
        split_ifs
        · exact only_answer _
        · exact only_anyReferences fun d hd => step_jump hkey hv (hdefs d hd) (.inr rfl)
  · exact only_index

theorem firstAttr_mem {f : String} (h : f ∈ firstAttr operators) :
    f ∈ names (.traversal expr operators) := List.mem_of_head? h

theorem only_traversal :
    (traversalApplyTime ctx expr operators binds visited).Only
      (Step ctx (.references (.traversal expr operators) binds visited)) := by
  unfold traversalApplyTime
  split
  · rename_i head
    by_cases hlocal : head = "local"
    · rw [if_pos hlocal]
      split
      · rename_i d visited' hd
        obtain ⟨key,hkey,hfresh,hdef,rfl⟩ := resolveLocalDef_some hd
        exact (only_ask _).mpr (step_jump hkey hfresh hdef (.inl rfl))
      · exact only_answer _
    rw [if_neg hlocal]
    by_cases hdata : head = "data"
    · rw [if_pos hdata]
      exact only_dataReference
    rw [if_neg hdata]
    by_cases hvar : head = "var"
    · rw [if_pos hvar]
      split
      · exact only_answer _
      · exact only_index
    rw [if_neg hvar]
    by_cases hmodule : head = "module"
    · rw [if_pos hmodule]
      split
      · split
        · exact only_answer _
        · exact only_index
      · exact only_index
    rw [if_neg hmodule]
    split
    · rename_i b hb
      exact (only_ask _).mpr (.lookup hb fun f hf => firstAttr_mem hf)
    · split_ifs
      · exact only_index
      · split
        · split_ifs
          · exact only_answer _
          · exact only_index
        · exact only_resourceReference head
  · exact only_or ((only_ask _).mpr (step_child List.mem_cons_self)) only_index

theorem lookupBind_some {name field : String} {args : List Expression} {b : Bind}
    (h : lookupBind name args binds = some (b,field)) :
    (∃ var, binds.lookup var = some b) ∧ ∀ ns, field ∈ names (.funcCall ns name args) := by
  unfold lookupBind at h
  split_ifs at h
  split at h
  · rename_i var field' rest
    obtain ⟨b',hb,he⟩ := Option.map_eq_some_iff.mp h
    cases he
    exact ⟨⟨var,hb⟩,fun ns => by simp [names]⟩
  · cases h

theorem only_references (e : Expression) :
    (referencesApplyTime ctx e binds visited).Only (Step ctx (.references e binds visited)) := by
  cases e with
  | null | bool | number | string => exact only_answer _
  | «variable» name =>
    simp only [referencesApplyTime]
    split
    · rename_i b hb
      exact (only_ask _).mpr (.lookup hb (by simp))
    · exact only_answer _
  | object entries =>
    refine only_any fun entry hentry => ?_
    have hstep : ∀ e, entry.1 = .expression e ∨ entry.2 = e →
        Step ctx (.references (.object entries) binds visited) (.references e binds visited) :=
      fun e he => step_child (mem_entryExprs.mpr ⟨entry,hentry,he⟩)
    obtain ⟨key,val⟩ := entry
    cases key with
    | ident name => exact (only_ask _).mpr (hstep val (.inr rfl))
    | expression key =>
      exact only_or ((only_ask _).mpr (hstep key (.inl rfl)))
        ((only_ask _).mpr (hstep val (.inr rfl)))
  | array | stringTemplate | heredocTemplate | conditional | binaryOp =>
    exact only_anyReferences fun e he => step_child he
  | parenthesis | unaryOp => exact (only_ask _).mpr (step_child List.mem_cons_self)
  | funcCall ns name args =>
    have hargs : ∀ e ∈ args, Step ctx (.references (.funcCall ns name args) binds visited)
        (.references e binds visited) := fun e he => step_child he
    simp only [referencesApplyTime]
    split
    · rename_i b field hlookup
      obtain ⟨⟨var,hb⟩,hfield⟩ := lookupBind_some hlookup
      refine only_or ((only_ask _).mpr (.lookup hb fun f hf => ?_))
        (only_anyReferences fun e he => hargs e ?_)
      · rw [← Option.mem_some.mp hf]
        exact hfield ns
      · exact List.mem_of_getElem? (Option.mem_toList.mp he)
    · exact only_anyReferences hargs
  | traversal expr operators => exact only_traversal
  | forExpr keyVar valueVar coll keyExpr valueExpr grouping cond =>
    refine only_or ((only_ask _).mpr (step_child List.mem_cons_self)) ?_
    refine only_anyReferences fun e he => .move id id le_rfl (.loop ?_)
    exact List.mem_cons_of_mem coll he

theorem step_same {e : Expression} {kind : MetaKind} :
    Step ctx (.membership e kind binds visited) (.references e binds visited) :=
  .stay id Nat.zero_lt_one rfl

theorem step_below {e c : Expression} {kind : MetaKind} (h : c ∈ children e) :
    Step ctx (.membership e kind binds visited) (.references c binds visited) :=
  .move id id (Nat.zero_le _) (Moves.child (s:=⟨e,binds,visited⟩) h)

theorem step_argument {e c : Expression} {kind kind' : MetaKind} (h : c ∈ children e) :
    Step ctx (.membership e kind binds visited) (.membership c kind' binds visited) :=
  .move id id le_rfl (Moves.child (s:=⟨e,binds,visited⟩) h)

theorem only_membership (e : Expression) (kind : MetaKind) :
    (membershipApplyTimeInner ctx e kind binds visited).Only
      (Step ctx (.membership e kind binds visited)) := by
  cases e with
  | null | bool | number | string | «variable» | stringTemplate | heredocTemplate | parenthesis
  | conditional | unaryOp | binaryOp => exact (only_ask _).mpr step_same
  | array items => exact only_anyReferences fun e he => step_below he
  | object entries =>
    refine only_any fun entry hentry => ?_
    obtain ⟨key,val⟩ := entry
    cases key with
    | ident name => exact only_answer _
    | expression key =>
      exact (only_ask _).mpr (step_below (mem_entryExprs.mpr ⟨_,hentry,.inl rfl⟩))
  | funcCall ns name args =>
    simp only [membershipApplyTimeInner]
    split_ifs
    · split
      · split_ifs
        · exact only_answer _
        · exact (only_ask _).mpr (step_argument List.mem_cons_self)
      · exact only_answer _
    · exact only_any fun arg harg => (only_ask _).mpr (step_argument harg)
    · exact (only_ask _).mpr step_same
  | forExpr keyVar valueVar coll keyExpr valueExpr grouping cond =>
    refine only_anyReferences fun e he => .move id id (Nat.zero_le _) (.loop ?_)
    cases keyExpr with
    | none => exact List.mem_cons_of_mem coll he
    | some key => exact List.mem_cons_of_mem coll (List.mem_cons_of_mem valueExpr he)
  | traversal expr operators =>
    simp only [membershipApplyTimeInner]
    split
    · split
      · rename_i d visited' hd
        obtain ⟨key,hkey,hfresh,hdef,rfl⟩ := resolveLocalDef_some hd
        exact (only_ask _).mpr (.move id id le_rfl
          (Moves.jump (s:=⟨.traversal expr operators,binds,visited⟩) hkey hfresh hdef (.inl rfl)))
      · exact only_answer _
    · split
      · exact only_answer _
      · exact (only_ask _).mpr step_same

theorem objectGet_mem {entries : List (ObjectKey × Expression)} {f : String} {val : Expression}
    (h : objectGet entries f = some val) : val ∈ children (.object entries) := by
  obtain ⟨entry,hentry,rfl⟩ := Option.map_eq_some_iff.mp h
  exact mem_entryExprs.mpr ⟨entry,List.mem_of_find?_eq_some hentry,.inr rfl⟩

theorem only_elementField {P : Call → Prop} {e elem : Expression} (helem : elem ∈ children e)
    {field : Option String}
    (h : ∀ e', ReflTransGen (fun e c => c ∈ children e) e e' → P (.references e' binds visited)) :
    (elementFieldApplyTime elem field binds visited).Only P := by
  unfold elementFieldApplyTime
  split
  · split
    · rename_i val hval
      exact (only_ask _).mpr (h val (.tail (.single helem) (objectGet_mem hval)))
    · exact only_answer _
  · exact (only_ask _).mpr (h elem (.single helem))

theorem only_bind (b : Bind) (field : Option String) :
    (bindApplyTime ctx b field binds visited).Only (Step ctx (.bind b field binds visited)) := by
  have hstep : ∀ e, ReflTransGen (fun e c => c ∈ children e)
      (resolveThroughLocals ctx b.coll visited).1 e → Step ctx (.bind b field binds visited)
        (.references e binds (resolveThroughLocals ctx b.coll visited).2) := fun _ he => .resolve he
  cases b with
  | value coll =>
    simp only [bindApplyTime,elementValueApplyTime]
    simp only [Bind.coll] at hstep
    split
    · rename_i entries hentries
      rw [hentries] at hstep
      exact only_any fun entry hentry =>
        only_elementField (mem_entryExprs.mpr ⟨entry,hentry,.inr rfl⟩) hstep
    · rename_i items hitems
      rw [hitems] at hstep
      exact only_any fun el hel => only_elementField (e:=.array items) hel hstep
    · split
      · exact only_answer _
      · exact (only_ask _).mpr (hstep _ .refl)
  | key coll =>
    simp only [bindApplyTime,keySetApplyTime]
    simp only [Bind.coll] at hstep
    split
    · exact only_answer _
    · rename_i items hitems
      rw [hitems] at hstep
      exact only_anyReferences fun e he => hstep e (.single he)
    · split
      · exact only_answer _
      · exact (only_ask _).mpr (hstep _ .refl)

/-- Every call that a body makes is a step. -/
theorem only_body (q : Call) : (body ctx q).Only (Step ctx q) := by
  cases q with
  | membership value kind binds visited => exact only_membership value kind
  | references expr binds visited => exact only_references expr
  | bind b field binds visited => exact only_bind b field

theorem step_of_calls {q q' : Call} (h : Calls (body ctx) q q') : Step ctx q q' :=
  (only_body q).of_asks h

end bodies

section weight

variable {ctx : UnknownCtx}

/-- The definitions that the path has not visited. -/
def unvisited (ctx : UnknownCtx) (visited : Finset String) : ℕ := (keys ctx \ visited).card

/-- The definitions left to visit, then the size of the expression and the rank. -/
noncomputable def weight (ctx : UnknownCtx) (q : Call) : ℕ × ℕ :=
  (unvisited ctx q.site.visited,2*sizeOf q.site.expr + q.rank)

theorem unvisited_insert_le (key : String) (visited : Finset String) :
    unvisited ctx (insert key visited) ≤ unvisited ctx visited :=
  Finset.card_le_card (Finset.sdiff_subset_sdiff subset_rfl (Finset.subset_insert _ _))

theorem moves_smaller {s s' : Site} (h : Moves ctx s s') :
    unvisited ctx s'.visited < unvisited ctx s.visited ∨
      s'.visited = s.visited ∧ sizeOf s'.expr < sizeOf s.expr := by
  cases h with
  | child h => exact .inr ⟨rfl,sizeOf_children h⟩
  | loop h => exact .inr ⟨rfl,sizeOf_children h⟩
  | jump hkey hfresh _ _ => exact .inl (card_unvisited_lt hkey hfresh)

/-- Following locals visits definitions or comes to a smaller expression. -/
theorem resolveThroughLocals_smaller (ctx : UnknownCtx) (e : Expression) (visited : Finset String) :
    unvisited ctx (resolveThroughLocals ctx e visited).2 < unvisited ctx visited ∨
      unvisited ctx (resolveThroughLocals ctx e visited).2 = unvisited ctx visited ∧
        sizeOf (resolveThroughLocals ctx e visited).1 ≤ sizeOf e := by
  induction e, visited using resolveThroughLocals.induct ctx with
  | case1 e visited name hname hv =>
    rw [resolveThroughLocals_cycle hname hv]
    exact .inr ⟨rfl,le_rfl⟩
  | case2 e visited name hname hv d hd ih =>
    rw [resolveThroughLocals_local hname hv hd]
    have hlt : unvisited ctx (insert name visited) < unvisited ctx visited :=
      card_unvisited_lt (local_key hd).1 hv
    rcases ih with ih | ⟨ih,-⟩
    · exact .inl (ih.trans hlt)
    · exact .inl (ih.trans_lt hlt)
  | case3 e visited name hname hv hd =>
    rw [resolveThroughLocals_undefined hname hv hd]
    rcases (unvisited_insert_le name visited).lt_or_eq with h | h
    · exact .inl h
    · exact .inr ⟨h,le_rfl⟩
  | case4 e visited hname inner harg ih =>
    rw [resolveThroughLocals_identity hname harg]
    have hlt := sizeOf_identityPassthroughArg harg
    exact ih.imp_right fun h => ⟨h.1,h.2.trans hlt.le⟩
  | case5 e visited hname harg =>
    rw [resolveThroughLocals_other hname harg]
    exact .inr ⟨rfl,le_rfl⟩

theorem sizeOf_below {e e' : Expression} (h : ReflTransGen (fun e c => c ∈ children e) e e') :
    sizeOf e' ≤ sizeOf e := by
  induction h with
  | refl => exact le_rfl
  | tail _ hc ih => exact (sizeOf_children hc).le.trans ih

/-- Only lookups can fail to get smaller. -/
theorem weight_smaller {q q' : Call} (h : Step ctx q q') (hq' : ¬q'.IsLookup) :
    Prod.Lex (· < ·) (· < ·) (weight ctx q') (weight ctx q) := by
  rw [Prod.lex_iff]
  cases h with
  | move _ _ hrank h =>
    rcases moves_smaller h with h | ⟨hv,hs⟩
    · exact .inl h
    · refine .inr ⟨by rw [weight,weight,hv],?_⟩
      simp only [weight]
      omega
  | stay _ hrank h =>
    refine .inr ⟨by rw [weight,weight,h],?_⟩
    simp only [weight,h]
    omega
  | lookup => exact absurd trivial hq'
  | @resolve b field e binds visited h =>
    rcases resolveThroughLocals_smaller ctx b.coll visited with hv | ⟨hv,hs⟩
    · exact .inl hv
    · have hle := (sizeOf_below h).trans hs
      refine .inr ⟨hv,?_⟩
      simp only [weight,Call.site,Call.rank]
      omega

end weight

section cover

variable {ctx : UnknownCtx} {S : Set Expression} {V : Set String}

/-- Expressions and names among which the analysis stays. -/
structure Covers (ctx : UnknownCtx) (S : Set Expression) (V : Set String) : Prop where
  children : ∀ e ∈ S, ∀ c ∈ children e, c ∈ S
  definitions : ∀ d ∈ definitions ctx, d ∈ S
  names : ∀ e ∈ S, ∀ n ∈ names e, n ∈ V
  keys : ∀ key ∈ keys ctx, key ∈ V

structure Site.Within (S : Set Expression) (V : Set String) (s : Site) : Prop where
  expr : s.expr ∈ S
  binds : ∀ name b, s.binds.lookup name = some b → name ∈ V ∧ b.coll ∈ S
  visited : ∀ key ∈ s.visited, key ∈ V

structure Call.Within (S : Set Expression) (V : Set String) (q : Call) : Prop where
  site : q.site.Within S V
  field : ∀ f ∈ q.field, f ∈ V

theorem localName_mem_names {e : Expression} {name : String} (h : localName e = some name) :
    name ∈ names e := by
  unfold localName headName at h
  split at h
  · split_ifs at h
    exact firstAttr_mem h
  · cases h

theorem identityPassthroughArg_mem {e arg : Expression}
    (h : identityPassthroughArg e = some arg) : arg ∈ children e := by
  unfold identityPassthroughArg at h
  split at h
  · split_ifs at h
    exact List.mem_of_head? h
  · cases h

theorem below_mem (hc : Covers ctx S V) {e e' : Expression}
    (h : ReflTransGen (fun e c => c ∈ UnknownValue.children e) e e') (he : e ∈ S) : e' ∈ S := by
  induction h with
  | refl => exact he
  | tail _ hmem ih => exact hc.children _ ih _ hmem

theorem insert_local_within (hc : Covers ctx S V) {e : Expression} {name : String}
    {visited : Finset String} (hname : localName e = some name) (he : e ∈ S)
    (hv : ∀ key ∈ visited, key ∈ V) : ∀ key ∈ insert name visited, key ∈ V := by
  intro key hkey
  rcases Finset.mem_insert.mp hkey with rfl | hkey
  · exact hc.names e he _ (localName_mem_names hname)
  · exact hv key hkey

theorem resolveThroughLocals_within (hc : Covers ctx S V) {e : Expression}
    {visited : Finset String} (he : e ∈ S) (hv : ∀ key ∈ visited, key ∈ V) :
    (resolveThroughLocals ctx e visited).1 ∈ S ∧
      ∀ key ∈ (resolveThroughLocals ctx e visited).2, key ∈ V := by
  induction e, visited using resolveThroughLocals.induct ctx with
  | case1 e visited name hname hin =>
    rw [resolveThroughLocals_cycle hname hin]
    exact ⟨he,hv⟩
  | case2 e visited name hname hin d hd ih =>
    rw [resolveThroughLocals_local hname hin hd]
    exact ih (hc.definitions d (local_key hd).2) (insert_local_within hc hname he hv)
  | case3 e visited name hname hin hd =>
    rw [resolveThroughLocals_undefined hname hin hd]
    exact ⟨he,insert_local_within hc hname he hv⟩
  | case4 e visited hname inner harg ih =>
    rw [resolveThroughLocals_identity hname harg]
    exact ih (hc.children e he inner (identityPassthroughArg_mem harg)) hv
  | case5 e visited hname harg =>
    rw [resolveThroughLocals_other hname harg]
    exact ⟨he,hv⟩

theorem bindings_insert_within {binds : Binds} {name : String} {b : Bind} (hname : name ∈ V)
    (hb : b.coll ∈ S)
    (hbinds : ∀ name b, binds.lookup name = some b → name ∈ V ∧ b.coll ∈ S) :
    ∀ name' b', (binds.insert name b).lookup name' = some b' → name' ∈ V ∧ b'.coll ∈ S := by
  intro name' b' h
  rw [KeyedMap.lookup_insert_of] at h
  split_ifs at h with heq
  · cases h
    exact ⟨heq ▸ hname,hb⟩
  · exact hbinds name' b' h

theorem moves_within (hc : Covers ctx S V) {s s' : Site} (h : Moves ctx s s')
    (hs : s.Within S V) : s'.Within S V := by
  cases h with
  | child h => exact ⟨hc.children _ hs.expr _ h,hs.binds,hs.visited⟩
  | @loop keyVar valueVar coll valueExpr c keyExpr cond grouping binds visited h =>
    have hcoll : coll ∈ S := hc.children _ hs.expr _ List.mem_cons_self
    have hvalue : valueVar ∈ V := hc.names _ hs.expr _ List.mem_cons_self
    refine ⟨hc.children _ hs.expr _ h,?_,hs.visited⟩
    have hinner := bindings_insert_within (b:=.value coll) hvalue hcoll hs.binds
    cases keyVar with
    | none => exact hinner
    | some kv =>
      have hkey : kv ∈ V := hc.names _ hs.expr _ (List.mem_cons_of_mem _ List.mem_cons_self)
      exact bindings_insert_within (b:=.key coll) hkey hcoll hinner
  | jump hkey _ hd hbinds =>
    refine ⟨hc.definitions _ hd,?_,fun k hk => ?_⟩
    · rcases hbinds with rfl | rfl
      · exact hs.binds
      · intro name b hb
        cases hb
    · rcases Finset.mem_insert.mp hk with rfl | hk
      · exact hc.keys _ hkey
      · exact hs.visited k hk

theorem step_within (hc : Covers ctx S V) {q q' : Call} (h : Step ctx q q')
    (hq : q.Within S V) : q'.Within S V := by
  have hnofield : ∀ {q : Call}, ¬q.IsLookup → ∀ f ∈ q.field, f ∈ V := by
    intro q hq f hf
    cases q with
    | membership | references => cases hf
    | bind => exact absurd trivial hq
  cases h with
  | move _ hq' _ h => exact ⟨moves_within hc h hq.site,hnofield hq'⟩
  | stay hq' _ h => exact ⟨h ▸ hq.site,hnofield hq'⟩
  | lookup h hfield =>
    exact ⟨⟨(hq.site.binds _ _ h).2,hq.site.binds,hq.site.visited⟩,
      fun f hf => hc.names _ hq.site.expr f (hfield f hf)⟩
  | resolve h =>
    have hres := resolveThroughLocals_within hc hq.site.expr hq.site.visited
    exact ⟨⟨below_mem hc h hres.1,hq.site.binds,hres.2⟩,hnofield id⟩

theorem calls_within (hc : Covers ctx S V) {q q' : Call}
    (h : ReflTransGen (Calls (body ctx)) q q') (hq : q.Within S V) : q'.Within S V := by
  induction h with
  | refl => exact hq
  | tail _ hcall ih => exact step_within hc (step_of_calls hcall) ih

/-- Everything a call meets is among finitely many expressions and names. -/
theorem exists_cover (ctx : UnknownCtx) (q : Call) :
    ∃ S V, S.Finite ∧ V.Finite ∧ Covers ctx S V ∧ q.Within S V := by
  let roots : List Expression :=
    q.site.expr :: (q.site.binds.entries.map fun b => b.2.coll) ++ definitions ctx
  let S : Set Expression :=
    ⋃ r ∈ {r | r ∈ roots}, {e | ReflTransGen (fun e c => c ∈ children e) r e}
  let V : Set String := (⋃ e ∈ S, {n | n ∈ names e}) ∪ (keys ctx ∪
    (q.site.visited ∪ ({name | name ∈ q.site.binds.keys} ∪ {f | f ∈ q.field.toList})))
  have hroots : ∀ r ∈ roots, r ∈ S := fun r hr => Set.mem_biUnion hr .refl
  have hS : S.Finite := (List.finite_toSet roots).biUnion fun r _ => finite_below r
  have hV : V.Finite := by
    refine (hS.biUnion fun e _ => List.finite_toSet (names e)).union ?_
    refine (Finset.finite_toSet _).union ((Finset.finite_toSet _).union ?_)
    exact (List.finite_toSet _).union (List.finite_toSet _)
  refine ⟨S,V,hS,hV,⟨?_,?_,?_,?_⟩,⟨⟨?_,?_,?_⟩,?_⟩⟩
  · intro e he c hc
    obtain ⟨r,hr,hre⟩ := Set.mem_iUnion₂.mp he
    exact Set.mem_biUnion hr (hre.tail hc)
  · exact fun d hd => hroots d (List.mem_append_right _ hd)
  · exact fun e he n hn => .inl (Set.mem_biUnion he hn)
  · exact fun key hkey => .inr (.inl hkey)
  · exact hroots _ List.mem_cons_self
  · intro name b hb
    refine ⟨.inr (.inr (.inr (.inl (mem_keys_of_lookup hb)))),hroots _ ?_⟩
    refine List.mem_append_left _ (List.mem_cons_of_mem _ ?_)
    exact List.mem_map.mpr ⟨_,KeyedMap.mem_entries.mpr hb,rfl⟩
  · exact fun key hkey => .inr (.inr (.inl hkey))
  · exact fun f hf => .inr (.inr (.inr (.inr (Option.mem_toList.mpr hf))))

end cover

section lookups

variable {ctx : UnknownCtx} {S : Set Expression} {V : Set String}

theorem finite_binds (hS : S.Finite) : {b : Bind | b.coll ∈ S}.Finite := by
  refine ((hS.image Bind.value).union (hS.image Bind.key)).subset fun b hb => ?_
  cases b with
  | value coll => exact .inl ⟨coll,hb,rfl⟩
  | key coll => exact .inr ⟨coll,hb,rfl⟩

theorem finite_bindings (hS : S.Finite) (hV : V.Finite) :
    {binds : Binds | ∀ name b, binds.lookup name = some b → name ∈ V ∧ b.coll ∈ S}.Finite := by
  have hE : {e : (_ : String) × Bind | e.1 ∈ V ∧ e.2.coll ∈ S}.Finite := by
    refine ((hV.prod (finite_binds hS)).image fun p => ⟨p.1,p.2⟩).subset fun e he => ?_
    exact ⟨(e.1,e.2),he,rfl⟩
  refine (KeyedMap.finite_of_entries hE).subset fun binds h e he => ?_
  exact h e.1 e.2 (KeyedMap.mem_entries.mp he)

theorem finite_paths (hV : V.Finite) :
    {visited : Finset String | ∀ key ∈ visited, key ∈ V}.Finite := by
  refine (Finset.finite_toSet hV.toFinset.powerset).subset fun visited h => ?_
  exact Finset.mem_powerset.mpr fun key hkey => hV.mem_toFinset.mpr (h key hkey)

theorem finite_fields (hV : V.Finite) : {field : Option String | ∀ f ∈ field, f ∈ V}.Finite := by
  refine ((hV.image some).insert none).subset fun field h => ?_
  cases field with
  | none => exact Set.mem_insert _ _
  | some f => exact Set.mem_insert_of_mem _ ⟨f,h f rfl,rfl⟩

theorem finite_lookups (hS : S.Finite) (hV : V.Finite) :
    {l : Call | l.IsLookup ∧ l.Within S V}.Finite := by
  have hfin := (finite_binds hS).prod
    ((finite_fields hV).prod ((finite_bindings hS hV).prod (finite_paths hV)))
  refine (hfin.image fun p => Call.bind p.1 p.2.1 p.2.2.1 p.2.2.2).subset ?_
  rintro l ⟨hl,hw⟩
  cases l with
  | membership | references => exact hl.elim
  | bind b field binds visited =>
    exact ⟨(b,field,binds,visited),⟨hw.site.expr,hw.field,hw.site.binds,hw.site.visited⟩,rfl⟩

end lookups

/-- A lookup of a loop variable is reached whose evaluation comes to the same
lookup again: the same variable and field, bindings and path. -/
def Reenters (ctx : UnknownCtx) (q : Call) : Prop :=
  ∃ l : Call, l.IsLookup ∧ ReflTransGen (Calls (body ctx)) q l ∧ OnCycle (Calls (body ctx)) l

theorem terminates_iff (ctx : UnknownCtx) (q : Call) :
    Terminates (body ctx) q ↔ ¬Reenters ctx q := by
  obtain ⟨S,V,hS,hV,hc,hq⟩ := exists_cover ctx q
  have hfin : {l | Call.IsLookup l ∧ ReflTransGen (Calls (body ctx)) q l}.Finite :=
    (finite_lookups hS hV).subset fun l hl => ⟨hl.1,calls_within hc hl.2 hq⟩
  have hwf : WellFounded (Prod.Lex (· < ·) (· < ·) : ℕ × ℕ → ℕ × ℕ → Prop) :=
    (Prod.lex Nat.lt_wfRel Nat.lt_wfRel).wf
  rw [terminates_iff_no_reentry hwf (fun q q' h => weight_smaller (step_of_calls h)) hfin]
  simp [Reenters]

/-- The analysis of an expression ends, whatever the definitions it meets,
exactly when no lookup of a loop variable comes back to itself. -/
theorem analysis_terminates_iff (ctx : UnknownCtx) (e : Expression) (kind : MetaKind) :
    Terminates (body ctx) (membershipApplyTime e kind) ∧ Terminates (body ctx) (valueApplyTime e) ↔
      ¬Reenters ctx (membershipApplyTime e kind) ∧ ¬Reenters ctx (valueApplyTime e) := by
  rw [terminates_iff,terminates_iff]

def varXs : Expression := .traversal (.variable "var") [.getAttr "xs"]

/-- `v.items`, the collection of the inner loop. -/
def itemsOfV : Expression := .traversal (.variable "v") [.getAttr "items"]

def nameOfV : Expression := .traversal (.variable "v") [.getAttr "name"]

/-- `[for v in v.items : v.name]`. -/
def innerLoop : Expression := .forExpr none "v" itemsOfV none nameOfV false none

/-- `[for v in var.xs : [for v in v.items : v.name]]`. -/
def shadowed : Expression := .forExpr none "v" varXs none innerLoop false none

def outerBinds : Binds := bindLoop none "v" varXs ∅

def innerBinds : Binds := bindLoop none "v" itemsOfV outerBinds

def lookupV (field : String) : Call := .bind (.value itemsOfV) (some field) innerBinds ∅

/-- The lookup goes back to `v.items`, under bindings that have `v` itself. -/
theorem body_lookupV (field : String) :
    body {} (lookupV field) = ask (.references itemsOfV innerBinds ∅) := by
  have hres : resolveThroughLocals {} itemsOfV ∅ = (itemsOfV,∅) :=
    resolveThroughLocals_other rfl rfl
  simp only [lookupV,body,bindApplyTime,elementValueApplyTime,hres]
  rfl

theorem lookupV_onCycle : OnCycle (Calls (body {})) (lookupV "items") := by
  have hback : Calls (body {}) (.references itemsOfV innerBinds ∅) (lookupV "items") :=
    calls_first rfl
  exact .tail (.single (calls_first (body_lookupV "items"))) hback

/-- Under the outer binding the inner collection is plan-known. -/
theorem itemsOfV_returns : Returns (body {}) (.references itemsOfV outerBinds ∅) false := by
  have hres : resolveThroughLocals {} varXs ∅ = (varXs,∅) := resolveThroughLocals_other rfl rfl
  have hbind : body {} (.bind (.value varXs) (some "items") outerBinds ∅) =
      ask (.references varXs outerBinds ∅) := by
    simp only [body,bindApplyTime,elementValueApplyTime,hres]
    rfl
  exact returns_ask rfl (returns_ask hbind (returns_answer rfl))

theorem innerLoop_reaches :
    ReflTransGen (Calls (body {})) (.references innerLoop outerBinds ∅) (lookupV "items") := by
  have hname : Calls (body {}) (.references innerLoop outerBinds ∅)
      (.references nameOfV innerBinds ∅) := calls_after rfl itemsOfV_returns (.inl rfl)
  have hlookup : Calls (body {}) (.references nameOfV innerBinds ∅) (lookupV "name") :=
    calls_first rfl
  have hitems := calls_first (body_lookupV "name")
  have hback : Calls (body {}) (.references itemsOfV innerBinds ∅) (lookupV "items") :=
    calls_first rfl
  exact (((ReflTransGen.single hname).tail hlookup).tail hitems).tail hback

/-- With an empty context, neither analysis of the shadowed loop ends. -/
theorem shadowed_not_terminates : ¬Terminates (body {}) (membershipApplyTime shadowed .forEach) ∧
    ¬Terminates (body {}) (valueApplyTime shadowed) := by
  constructor
  · intro h
    have hinner : Calls (body {}) (membershipApplyTime shadowed .forEach)
        (.references innerLoop outerBinds ∅) := calls_first rfl
    exact not_onCycle_of_terminates h (innerLoop_reaches.head hinner) lookupV_onCycle
  · intro h
    have hxs : Returns (body {}) (.references varXs ∅ ∅) false := returns_answer rfl
    have hinner : Calls (body {}) (valueApplyTime shadowed) (.references innerLoop outerBinds ∅) :=
      calls_after rfl hxs (.inl rfl)
    exact not_onCycle_of_terminates h (innerLoop_reaches.head hinner) lookupV_onCycle

end UnknownValue
end TerraformLs
