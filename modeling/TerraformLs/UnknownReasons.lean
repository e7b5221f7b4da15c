import TerraformLs.Hygiene

/-! Why a value counts as unknown until apply. A verdict leads, from its expression and
through the definitions that references name, to a reference that is unknown at plan
time or that the analysis takes to be. -/
namespace TerraformLs
namespace UnknownValue

open Proc Relation

section places

/-- An expression where it is read: the loop variables that comprehensions and template
directives bind around it, and the blocks whose configuration led to it. -/
structure Place where
  expr : Expression
  loops : List String := []
  directives : List String := []
  entered : Finset String := ∅

def templateElements : Expression → Option (List Element)
  | .stringTemplate elements | .heredocTemplate elements => some elements
  | _ => none

mutual

/-- The expressions of a template, with the variables of the directives around each. -/
def templateParts : List Element → List (Expression × List String)
  | [] => []
  | .literal _::elements => templateParts elements
  | .interpolation expr::elements => (expr,[]) :: templateParts elements
  | .directive d::elements => directiveParts d ++ templateParts elements

def directiveParts : Directive → List (Expression × List String)
  | .if cond whenTrue whenFalse => (cond,[]) :: (templateParts whenTrue ++ elseParts whenFalse)
  | .for keyVar valueVar collection elements =>
    (collection,[]) ::
      (templateParts elements).map fun part => (part.1,valueVar :: keyVar.toList ++ part.2)

def elseParts : Option (List Element) → List (Expression × List String)
  | none => []
  | some elements => templateParts elements

end

mutual

theorem mem_templateParts {e : Expression} : ∀ elements : List Element,
    e ∈ templateExprs elements → ∃ bound, (e,bound) ∈ templateParts elements
  | [],h => by simp [templateExprs] at h
  | .literal text::elements,h => mem_templateParts elements h
  | .interpolation expr::elements,h => by
    rw [templateExprs,List.mem_cons] at h
    rcases h with rfl | h
    · exact ⟨[],List.mem_cons_self⟩
    · obtain ⟨bound,h⟩ := mem_templateParts elements h
      exact ⟨bound,List.mem_cons_of_mem _ h⟩
  | .directive d::elements,h => by
    rw [templateExprs,List.mem_append] at h
    rcases h with h | h
    · obtain ⟨bound,h⟩ := mem_directiveParts d h
      exact ⟨bound,List.mem_append_left _ h⟩
    · obtain ⟨bound,h⟩ := mem_templateParts elements h
      exact ⟨bound,List.mem_append_right _ h⟩

theorem mem_directiveParts {e : Expression} : ∀ d : Directive,
    e ∈ directiveExprs d → ∃ bound, (e,bound) ∈ directiveParts d
  | .if cond whenTrue whenFalse,h => by
    rw [directiveExprs,List.mem_cons,List.mem_append] at h
    rcases h with rfl | h | h
    · exact ⟨[],List.mem_cons_self⟩
    · obtain ⟨bound,h⟩ := mem_templateParts whenTrue h
      exact ⟨bound,List.mem_cons_of_mem _ (List.mem_append_left _ h)⟩
    · obtain ⟨bound,h⟩ := mem_elseParts whenFalse h
      exact ⟨bound,List.mem_cons_of_mem _ (List.mem_append_right _ h)⟩
  | .for keyVar valueVar collection elements,h => by
    rw [directiveExprs,List.mem_cons] at h
    rcases h with rfl | h
    · exact ⟨[],List.mem_cons_self⟩
    · obtain ⟨bound,h⟩ := mem_templateParts elements h
      exact ⟨_,List.mem_cons_of_mem _ (List.mem_map.mpr ⟨_,h,rfl⟩)⟩

theorem mem_elseParts {e : Expression} : ∀ elements : Option (List Element),
    e ∈ elseExprs elements → ∃ bound, (e,bound) ∈ elseParts elements
  | none,h => by simp [elseExprs] at h
  | some elements,h => mem_templateParts elements h

end

variable (ctx : UnknownCtx)

/-- What the configuration of a resource sets an attribute to. -/
def configAttr (rtype name attr : String) : Option Expression :=
  (ctx.resourceConfigs.lookup (rtype,name)).bind fun config => config.attrs.lookup attr

def schemaAttr (rtype attr : String) : Option AttributeSchema :=
  (ctx.schema.bind fun lookup => lookup.resource rtype).bind fun schema =>
    schema.block.attributes.lookup attr

/-- The place refers to a resource: the head names no other root and no loop variable. -/
structure Place.RefersTo (p : Place) (rtype : String) (operators : List TraversalOperator) :
    Prop where
  expr : p.expr = .traversal (.variable rtype) operators
  root : rtype ∉ ["local","data","var","module"] ++ safeRoots
  loops : rtype ∉ p.loops
  directives : rtype ∉ p.directives

/-- From an expression to a part of it, or along a reference to the definition of a local
or the configuration of a data source or resource. -/
inductive Leads : Place → Place → Prop
  | part {p : Place} {c : Expression} {bound : List String} (hp : templateElements p.expr = none)
    (hc : (c,bound) ∈ scopedChildren p.expr) :
    Leads p { p with expr := c, loops := bound ++ p.loops }
  | piece {p : Place} {elements : List Element} {c : Expression} {bound : List String}
    (hp : templateElements p.expr = some elements) (hc : (c,bound) ∈ templateParts elements) :
    Leads p { p with expr := c, directives := bound ++ p.directives }
  | definition {p : Place} {x : String} {d : Expression} (hx : localName p.expr = some x)
    (hd : ctx.locals.lookup x = some d) : Leads p { expr := d, entered := p.entered }
  | dataConfig {p : Place} {operators : List TraversalOperator} {dtype name : String}
    {rest : List String} {config : BlockConfig} {d : Expression}
    (hp : p.expr = .traversal (.variable "data") operators)
    (hattrs : getAttrs operators = dtype :: name :: rest)
    (hconfig : ctx.dataConfigs.lookup (dtype,name) = some config) (hd : d ∈ config.exprs) :
    Leads p { expr := d, entered := insert (dataKey dtype name) p.entered }
  | resourceConfig {p : Place} {operators : List TraversalOperator} {rtype name attr : String}
    {rest : List String} {d : Expression} (hp : p.RefersTo rtype operators)
    (hattrs : getAttrs operators = name :: attr :: rest)
    (hd : configAttr ctx rtype name attr = some d) :
    Leads p { expr := d, entered := insert (resourceKey rtype name) p.entered }

/-- The place reads what is unknown at plan time. -/
inductive Source : Place → Prop
  /-- A computed attribute of a resource that its configuration does not set. -/
  | computed {p : Place} {operators : List TraversalOperator} {rtype name attr : String}
    {rest : List String} {s : AttributeSchema} (hp : p.RefersTo rtype operators)
    (hattrs : getAttrs operators = name :: attr :: rest)
    (hunset : configAttr ctx rtype name attr = none) (hs : schemaAttr ctx rtype attr = some s)
    (hcomputed : s.computed) : Source p
  /-- A variable that a caller passes an unknown value or key set. -/
  | marked {p : Place} {operators : List TraversalOperator} {name : String}
    {info : UnknownVarInfo} (hp : p.expr = .traversal (.variable "var") operators)
    (hname : firstAttr operators = some name)
    (hinfo : ctx.unknownVariables.lookup name = some info) (h : info.membership ∨ info.value) :
    Source p
  /-- A module output with the verdict that it is unknown. -/
  | output {p : Place} {operators : List TraversalOperator} {label output : String}
    {rest : List String} {lookup : ModuleOutputLookup}
    (hp : p.expr = .traversal (.variable "module") operators)
    (hattrs : getAttrs operators = label :: output :: rest) (hlookup : ctx.moduleOutputs = some lookup)
    (h : lookup.outputApplyTime label output rest = some true) : Source p
  /-- A data source whose read is put off. -/
  | deferred {p : Place} {operators : List TraversalOperator} {dtype name : String}
    {rest : List String} {config : BlockConfig}
    (hp : p.expr = .traversal (.variable "data") operators)
    (hattrs : getAttrs operators = dtype :: name :: rest)
    (hconfig : ctx.dataConfigs.lookup (dtype,name) = some config) (h : config.hasDependsOn) :
    Source p

/-- The place reads from a resource what the analysis takes to be unknown. -/
inductive Presumed : Place → Prop
  /-- A resource as a whole. -/
  | whole {p : Place} {operators : List TraversalOperator} {rtype : String}
    (hp : p.RefersTo rtype operators) (h : (getAttrs operators).length < 2) : Presumed p
  /-- An attribute that neither the configuration nor the schema has. -/
  | unseen {p : Place} {operators : List TraversalOperator} {rtype name attr : String}
    {rest : List String} (hp : p.RefersTo rtype operators)
    (hattrs : getAttrs operators = name :: attr :: rest)
    (hunset : configAttr ctx rtype name attr = none) (h : schemaAttr ctx rtype attr = none) :
    Presumed p
  /-- A resource whose own configuration led here. -/
  | cycle {p : Place} {operators : List TraversalOperator} {rtype name attr : String}
    {rest : List String} (hp : p.RefersTo rtype operators)
    (hattrs : getAttrs operators = name :: attr :: rest)
    (h : resourceKey rtype name ∈ p.entered) : Presumed p
  /-- A plan-known collection beyond its listed fields. -/
  | unlisted {p : Place} {operators : List TraversalOperator} {rtype : String}
    {use : AllowlistedUse} (hp : p.expr = .traversal (.variable rtype) operators)
    (hloops : rtype ∉ p.loops) (hdirectives : rtype ∉ p.directives)
    (huse : allowlistedTraversal ctx (.variable rtype) operators = some use)
    (h : use.tail ≠ some false) : Presumed p

/-- The place is read as something that it is not. -/
inductive Misread : Place → Prop
  /-- The variable of a template directive. -/
  | directive {p : Place} {head : String} {operators : List TraversalOperator}
    (hp : p.expr = .traversal (.variable head) operators) (hloops : head ∉ p.loops)
    (h : head ∈ p.directives) : Misread p
  /-- A loop variable with the name of a type that has a plan-known collection. -/
  | listed {p : Place} {head : String} {operators : List TraversalOperator}
    (hp : p.expr = .traversal (.variable head) operators) (hloops : head ∈ p.loops)
    (h : allowlistedTraversal ctx (.variable head) operators ≠ none) : Misread p
  /-- A resource on whose path a local has the name under which the resource is filed. -/
  | clash {p : Place} {rtype name attr : String} {rest : List String}
    {operators : List TraversalOperator} (hp : p.RefersTo rtype operators)
    (hattrs : getAttrs operators = name :: attr :: rest)
    (h : (ctx.locals.lookup (resourceKey rtype name)).isSome) : Misread p

/-- From the place a reason for the verdict is reached. -/
def Reasoned (root : Place) : Prop :=
  ∃ p, ReflTransGen (Leads ctx) root p ∧ (Source ctx p ∨ Presumed ctx p ∨ Misread ctx p)

end places

section stands

variable (ctx : UnknownCtx) (root : Place)

/-- The bindings have the loop variables of the place, and the path its blocks. -/
structure Place.Fits (p : Place) (s : Site) : Prop where
  expr : p.expr = s.expr
  loops : ∀ n ∈ p.loops, s.binds.lookup n ≠ none
  entered : ∀ key ∈ s.visited, key ∈ p.entered ∨ (ctx.locals.lookup key).isSome

def Located (s : Site) : Prop := ∃ p, ReflTransGen (Leads ctx) root p ∧ p.Fits ctx s

/-- The expression and all the collections that loops run over are reached. -/
structure Stands (s : Site) : Prop where
  located : Located ctx root s
  binds : ∀ n b, s.binds.lookup n = some b → Located ctx root { s with expr := b.coll }

variable {ctx root} {e c : Expression} {binds : Binds} {visited : Finset String}

theorem Stands.part (h : Stands ctx root ⟨e,binds,visited⟩) (he : templateElements e = none)
    (hc : (c,[]) ∈ scopedChildren e) : Stands ctx root ⟨c,binds,visited⟩ := by
  obtain ⟨p,hp,rfl,hloops,hentered⟩ := h.located
  exact ⟨⟨_,hp.tail (.part he hc),rfl,hloops,hentered⟩,h.binds⟩

theorem Stands.piece {elements : List Element} (h : Stands ctx root ⟨e,binds,visited⟩)
    (he : templateElements e = some elements) (hc : c ∈ templateExprs elements) :
    Stands ctx root ⟨c,binds,visited⟩ := by
  obtain ⟨p,hp,rfl,hloops,hentered⟩ := h.located
  obtain ⟨bound,hc⟩ := mem_templateParts elements hc
  exact ⟨⟨_,hp.tail (.piece he hc),rfl,hloops,hentered⟩,h.binds⟩

theorem Located.mono {binds' : Binds} {visited' : Finset String}
    (h : Located ctx root ⟨e,binds,visited⟩)
    (hbinds : ∀ n, binds.lookup n ≠ none → binds'.lookup n ≠ none)
    (hvisited : ∀ key ∈ visited', key ∈ visited ∨ (ctx.locals.lookup key).isSome) :
    Located ctx root ⟨e,binds',visited'⟩ := by
  obtain ⟨p,hp,hexpr,hloops,hentered⟩ := h
  refine ⟨p,hp,hexpr,fun n hn => hbinds n (hloops n hn),fun key hkey => ?_⟩
  rcases hvisited key hkey with hkey | hkey
  · exact hentered key hkey
  · exact .inr hkey

theorem Stands.bound {n : String} {b : Bind} (h : Stands ctx root ⟨e,binds,visited⟩)
    (hb : Located ctx root ⟨b.coll,binds,visited⟩) :
    Stands ctx root ⟨e,binds.insert n b,visited⟩ := by
  have hgrows : ∀ m, binds.lookup m ≠ none → (binds.insert n b).lookup m ≠ none := by
    intro m hm
    rw [KeyedMap.lookup_insert_of]
    split_ifs
    · exact Option.some_ne_none b
    · exact hm
  have hstays : ∀ e', Located ctx root ⟨e',binds,visited⟩ →
      Located ctx root ⟨e',binds.insert n b,visited⟩ :=
    fun e' he' => he'.mono hgrows fun key hkey => .inl hkey
  refine ⟨hstays e h.located,fun m b' hm => hstays _ ?_⟩
  simp only [KeyedMap.lookup_insert_of] at hm
  split_ifs at hm
  · cases hm
    exact hb
  · exact h.binds m b' hm

theorem Stands.loop {keyVar : Option String} {valueVar : String} {coll valueExpr : Expression}
    {keyExpr cond : Option Expression} {grouping : Bool}
    (h : Stands ctx root
      ⟨.forExpr keyVar valueVar coll keyExpr valueExpr grouping cond,binds,visited⟩)
    (hc : c ∈ [valueExpr] ++ keyExpr.toList ++ cond.toList) :
    Stands ctx root ⟨c,bindLoop keyVar valueVar coll binds,visited⟩ := by
  have hcoll := h.part rfl List.mem_cons_self
  have hinner := h.bound (n:=valueVar) (b:=.value coll) hcoll.located
  have hbinds : Stands ctx root
      ⟨.forExpr keyVar valueVar coll keyExpr valueExpr grouping cond,
        bindLoop keyVar valueVar coll binds,visited⟩ := by
    cases keyVar with
    | none => exact hinner
    | some kv =>
      have hcoll' := hcoll.bound (n:=valueVar) (b:=.value coll) hcoll.located
      exact hinner.bound (b:=.key coll) hcoll'.located
  refine ⟨?_,hbinds.binds⟩
  obtain ⟨p,hp,hexpr,hloops,hentered⟩ := hbinds.located
  have hmem : (c,valueVar :: keyVar.toList) ∈ scopedChildren p.expr := by
    rw [hexpr]
    exact List.mem_cons_of_mem _ (List.mem_map.mpr ⟨c,hc,rfl⟩)
  refine ⟨_,hp.tail (.part (by rw [hexpr]; rfl) hmem),rfl,fun n hn hnone => ?_,hentered⟩
  obtain ⟨hfree,-⟩ := lookup_bindLoop hnone
  rcases List.mem_append.mp hn with hn | hn
  · exact hfree hn
  · exact hloops n hn hnone

theorem Stands.definition {x : String} {d : Expression} (h : Stands ctx root ⟨e,binds,visited⟩)
    (hx : localName e = some x) (hd : ctx.locals.lookup x = some d) :
    Stands ctx root ⟨d,binds,insert x visited⟩ := by
  have hvisit : ∀ key ∈ insert x visited, key ∈ visited ∨ (ctx.locals.lookup key).isSome := by
    intro key hkey
    rcases Finset.mem_insert.mp hkey with rfl | hkey
    · exact .inr (Option.isSome_of_eq_some hd)
    · exact .inl hkey
  refine ⟨?_,fun n b hb => (h.binds n b hb).mono (fun _ hn => hn) hvisit⟩
  obtain ⟨p,hp,rfl,hloops,hentered⟩ := h.located
  refine ⟨_,hp.tail (.definition hx hd),rfl,fun _ hn => absurd hn List.not_mem_nil,fun key hkey => ?_⟩
  rcases hvisit key hkey with hkey | hkey
  · exact hentered key hkey
  · exact .inr hkey

/-- Inside the configuration of a block no loop variable is in force. -/
theorem stands_block {p : Place} {key : String} {d : Expression}
    (hp : ReflTransGen (Leads ctx) root { expr := d, entered := insert key p.entered })
    (hentered : ∀ key ∈ visited, key ∈ p.entered ∨ (ctx.locals.lookup key).isSome) :
    Stands ctx root ⟨d,∅,insert key visited⟩ := by
  refine ⟨⟨_,hp,rfl,fun _ hn => absurd hn List.not_mem_nil,fun key' hkey => ?_⟩,?_⟩
  · rcases Finset.mem_insert.mp hkey with rfl | hkey
    · exact .inl (Finset.mem_insert_self _ _)
    rcases hentered key' hkey with hkey | hkey
    · exact .inl (Finset.mem_insert_of_mem hkey)
    · exact .inr hkey
  · intro n b hb
    cases hb

end stands

section verdicts

variable (ctx : UnknownCtx) (root : Place)

/-- The call is about an expression that is reached, or answers `false` at once. -/
def Sound (q : Call) : Prop := Stands ctx root q.site ∨ body ctx q = .answer false

variable {ctx root} {e : Expression} {binds : Binds} {visited : Finset String}
  {operators : List TraversalOperator} (hno : ¬Reasoned ctx root)

/-- A body that makes sound calls and never answers `true` of its own accord. -/
abbrev Honest (ctx : UnknownCtx) (root : Place) (p : Proc Call Bool) : Prop :=
  p.Justified (Sound ctx root) False

theorem honest_references (h : Stands ctx root ⟨e,binds,visited⟩) :
    Honest ctx root (Proc.ask (.references e binds visited)) := justified_ask (.inl h)

theorem honest_anyReferences {exprs : List Expression}
    (h : ∀ c ∈ exprs, Stands ctx root ⟨c,binds,visited⟩) :
    Honest ctx root (anyReferences exprs binds visited) :=
  justified_any fun c hc => honest_references (h c hc)

theorem honest_parts {exprs : List Expression} (h : Stands ctx root ⟨e,binds,visited⟩)
    (he : templateElements e = none) (hexprs : Unscoped exprs e) :
    Honest ctx root (anyReferences exprs binds visited) :=
  honest_anyReferences fun c hc => h.part he (hexprs c hc)

theorem honest_template {elements : List Element} (h : Stands ctx root ⟨e,binds,visited⟩)
    (he : templateElements e = some elements) :
    Honest ctx root (templateApplyTime elements binds visited) :=
  honest_anyReferences fun _ hc => h.piece he hc

theorem honest_indexOperators (h : Stands ctx root ⟨e,binds,visited⟩)
    (he : templateElements e = none) (hindex : Unscoped (operatorExprs operators) e) :
    Honest ctx root (indexOperatorsApplyTime operators binds visited) := by
  refine justified_any fun op hop => ?_
  cases op with
  | index idx =>
    have hidx : idx ∈ operatorExprs operators := List.mem_filterMap.mpr ⟨_,hop,rfl⟩
    exact honest_references (h.part he (hindex idx hidx))
  | attrSplat | fullSplat | getAttr | legacyIndex => exact justified_false

theorem honest_elementField {elem : Expression} {field : Option String}
    (h : Stands ctx root ⟨elem,binds,visited⟩) :
    Honest ctx root (elementFieldApplyTime elem field binds visited) := by
  unfold elementFieldApplyTime
  split
  · split
    · rename_i val hval
      exact honest_references (h.part rfl (List.mem_map.mpr ⟨val,objectGet_mem hval,rfl⟩))
    · exact justified_false
  · exact honest_references h

theorem headName_some {head name : String} (h : headName e head = some name) :
    ∃ operators, e = .traversal (.variable head) operators ∧ firstAttr operators = some name := by
  unfold headName at h
  split at h
  · rename_i head' operators
    split_ifs at h with hhead
    subst hhead
    exact ⟨operators,rfl,h⟩
  · cases h

theorem varName_some {name : String} (h : varName e = some name) :
    headName e "var" = some name := by
  unfold varName at h
  split at h
  · split_ifs at h
    exact h
  · cases h

theorem resolveLocalDef_path {name : Option String} {d : Expression × Finset String} {x : String}
    (h : resolveLocalDef ctx name visited = some d) (hx : name = some x) :
    d.2 = insert x visited := by
  obtain ⟨y,hy,-,-,hpath⟩ := resolveLocalDef_entered h
  rw [hx] at hy
  cases hy
  exact hpath

include hno

/-- Where no reason is reached, an answer of its own is `false`. -/
theorem honest_answer {b : Bool} (h : b = true → ∃ p, ReflTransGen (Leads ctx) root p ∧
    (Source ctx p ∨ Presumed ctx p ∨ Misread ctx p)) : Honest ctx root (.answer b) :=
  fun hb => hno (h hb)

theorem honest_resourceReference {rtype : String}
    (h : Stands ctx root ⟨.traversal (.variable rtype) operators,binds,visited⟩)
    (hroot : rtype ∉ ["local","data","var","module"] ++ safeRoots)
    (hunbound : binds.lookup rtype = none) :
    Honest ctx root (resourceReferenceApplyTime ctx operators rtype binds visited) := by
  have hindices : Honest ctx root (indexOperatorsApplyTime operators binds visited) :=
    honest_indexOperators h rfl fun c hc => List.mem_map.mpr ⟨c,hc,rfl⟩
  obtain ⟨p,hp,hexpr,hloops,hentered⟩ := h.located
  have hloop : rtype ∉ p.loops := fun hin => hloops rtype hin hunbound
  by_cases hdirective : rtype ∈ p.directives
  · exact absurd ⟨p,hp,.inr (.inr (.directive hexpr hloop hdirective))⟩ hno
  have hrefers : p.RefersTo rtype operators := ⟨hexpr,hroot,hloop,hdirective⟩
  unfold resourceReferenceApplyTime
  split
  · rename_i name attr rest hattrs
    dsimp only
    split_ifs with hv
    · refine honest_answer hno fun _ => ⟨p,hp,.inr ?_⟩
      rcases hentered _ hv with hv | hv
      · exact .inl (.cycle hrefers hattrs hv)
      · exact .inr (.clash hrefers hattrs hv)
    · cases hd : configAttr ctx rtype name attr with
      | some d =>
        have hblock := stands_block (hp.tail (.resourceConfig hrefers hattrs hd)) hentered
        rw [configAttr] at hd
        rw [hd]
        exact justified_or hindices (honest_references hblock)
      | none =>
        cases hs : schemaAttr ctx rtype attr with
        | some a =>
          have hunset := hd
          rw [configAttr] at hd
          have hschema := hs
          rw [schemaAttr] at hs
          rw [hd,hs]
          dsimp only
          split_ifs with hcomputed
          · exact honest_answer hno fun _ =>
              ⟨p,hp,.inl (.computed hrefers hattrs hunset hschema hcomputed)⟩
          · exact hindices
        | none =>
          have hunset := hd
          rw [configAttr] at hd
          have hschema := hs
          rw [schemaAttr] at hs
          rw [hd,hs]
          exact honest_answer hno fun _ => ⟨p,hp,.inr (.inl (.unseen hrefers hattrs hunset hschema))⟩
  · rename_i hattrs
    refine honest_answer hno fun _ => ⟨p,hp,.inr (.inl (.whole hrefers ?_))⟩
    by_contra hlen
    match hops : getAttrs operators with
    | [] => simp [hops] at hlen
    | [_] => simp [hops] at hlen
    | name::attr::rest => exact hattrs name attr rest hops

theorem honest_dataReference
    (h : Stands ctx root ⟨.traversal (.variable "data") operators,binds,visited⟩) :
    Honest ctx root (dataReferenceApplyTime ctx operators binds visited) := by
  have hindices : Honest ctx root (indexOperatorsApplyTime operators binds visited) :=
    honest_indexOperators h rfl fun c hc => List.mem_map.mpr ⟨c,hc,rfl⟩
  obtain ⟨p,hp,hexpr,-,hentered⟩ := h.located
  unfold dataReferenceApplyTime
  split
  · rename_i dtype name rest hattrs
    refine justified_or hindices ?_
    dsimp only
    split_ifs with hv
    · exact justified_false
    · split
      · exact justified_false
      · rename_i config hconfig
        split_ifs with hdepends
        · exact honest_answer hno fun _ => ⟨p,hp,.inl (.deferred hexpr hattrs hconfig hdepends)⟩
        · refine honest_anyReferences fun d hd => stands_block (hp.tail ?_) hentered
          exact .dataConfig hexpr hattrs hconfig hd
  · exact hindices

theorem honest_traversal {expr : Expression}
    (h : Stands ctx root ⟨.traversal expr operators,binds,visited⟩) :
    Honest ctx root (traversalApplyTime ctx expr operators binds visited) := by
  obtain ⟨p,hp,hexpr,hloops,hentered⟩ := h.located
  cases expr with
  | «variable» head =>
    have hindices : Honest ctx root (indexOperatorsApplyTime operators binds visited) :=
      honest_indexOperators h rfl fun c hc => List.mem_map.mpr ⟨c,hc,rfl⟩
    simp only [traversalApplyTime]
    by_cases hlocal : head = "local"
    · rw [if_pos hlocal]
      subst hlocal
      cases hd : resolveLocalDef ctx (firstAttr operators) visited with
      | none => exact justified_false
      | some d =>
        obtain ⟨x,hx,hlookup⟩ := resolveLocalDef_lookup hd
        have hvisited : d.2 = insert x visited := resolveLocalDef_path hd hx
        dsimp only
        rw [hvisited]
        exact honest_references (h.definition hx hlookup)
    rw [if_neg hlocal]
    by_cases hdata : head = "data"
    · rw [if_pos hdata]
      subst hdata
      exact honest_dataReference hno h
    rw [if_neg hdata]
    by_cases hvar : head = "var"
    · rw [if_pos hvar]
      subst hvar
      split
      · rename_i membership hinfo
        obtain ⟨name,hname,hinfo⟩ := Option.bind_eq_some_iff.mp hinfo
        exact honest_answer hno fun _ => ⟨p,hp,.inl (.marked hexpr hname hinfo (.inr rfl))⟩
      · exact hindices
    rw [if_neg hvar]
    by_cases hmodule : head = "module"
    · rw [if_pos hmodule]
      subst hmodule
      split
      · rename_i label output rest hattrs
        split
        · rename_i hverdict
          obtain ⟨lookup,hlookup,hverdict⟩ := Option.bind_eq_some_iff.mp hverdict
          exact honest_answer hno fun _ => ⟨p,hp,.inl (.output hexpr hattrs hlookup hverdict)⟩
        · exact hindices
      · exact hindices
    rw [if_neg hmodule]
    cases hb : binds.lookup head with
    | some b => exact justified_ask (.inl ⟨h.binds head b hb,h.binds⟩)
    | none =>
      dsimp only
      have hloop : head ∉ p.loops := fun hin => hloops head hin hb
      by_cases hsafe : head ∈ safeRoots
      · rw [if_pos hsafe]
        exact hindices
      rw [if_neg hsafe]
      split
      · rename_i known unknown huse
        split_ifs with hunknown
        · refine honest_answer hno fun _ => ⟨p,hp,.inr ?_⟩
          by_cases hdirective : head ∈ p.directives
          · exact .inr (.directive hexpr hloop hdirective)
          · exact .inl (.unlisted hexpr hloop hdirective huse (by simp [hunknown]))
        · exact hindices
      · exact honest_resourceReference hno h (by simp [hlocal,hdata,hvar,hmodule,hsafe]) hb
  | _ =>
    refine justified_or (honest_references (h.part rfl ?_)) (honest_indexOperators h rfl ?_)
    · exact List.mem_map.mpr ⟨_,List.mem_cons_self,rfl⟩
    · exact fun c hc => List.mem_map.mpr ⟨c,List.mem_cons_of_mem _ hc,rfl⟩

theorem honest_body_references (h : Stands ctx root ⟨e,binds,visited⟩) :
    Honest ctx root (referencesApplyTime ctx e binds visited) := by
  cases e with
  | null | bool | number | string => exact justified_false
  | «variable» name =>
    simp only [referencesApplyTime]
    split
    · rename_i b hb
      exact justified_ask (.inl ⟨h.binds name b hb,h.binds⟩)
    · exact justified_false
  | object entries =>
    refine justified_any fun entry hentry => ?_
    have hpart : ∀ c, entry.1 = .expression c ∨ entry.2 = c → Stands ctx root ⟨c,binds,visited⟩ :=
      fun c hc => h.part rfl
        (List.mem_map.mpr ⟨c,mem_entryExprs.mpr ⟨entry,hentry,hc⟩,rfl⟩)
    obtain ⟨key,val⟩ := entry
    cases key with
    | ident name => exact honest_references (hpart val (.inr rfl))
    | expression key =>
      exact justified_or (honest_references (hpart key (.inl rfl)))
        (honest_references (hpart val (.inr rfl)))
  | stringTemplate | heredocTemplate => exact honest_template h rfl
  | array | conditional | binaryOp =>
    exact honest_parts h rfl fun c hc => List.mem_map.mpr ⟨c,hc,rfl⟩
  | parenthesis | unaryOp => exact honest_references (h.part rfl List.mem_cons_self)
  | funcCall ns name args =>
    have hargs : Unscoped args (.funcCall ns name args) :=
      fun c hc => List.mem_map.mpr ⟨c,hc,rfl⟩
    simp only [referencesApplyTime]
    split
    · rename_i b field hb
      obtain ⟨⟨var,hvar⟩,-⟩ := lookupBind_some hb
      refine justified_or (justified_ask (.inl ⟨h.binds var b hvar,h.binds⟩))
        (honest_parts h rfl fun c hc => hargs c ?_)
      exact List.mem_of_getElem? (Option.mem_toList.mp hc)
    · exact honest_parts h rfl hargs
  | traversal expr operators => exact honest_traversal hno h
  | forExpr keyVar valueVar coll keyExpr valueExpr grouping cond =>
    refine justified_or (honest_references (h.part rfl List.mem_cons_self)) ?_
    exact honest_anyReferences fun c hc => h.loop hc

/-- The `membership` bit of a variable. -/
theorem honest_varName {name : String} (h : Stands ctx root ⟨e,binds,visited⟩)
    (hname : varName e = some name) :
    Honest ctx root (.answer ((ctx.unknownVariables.lookup name).any UnknownVarInfo.membership)) := by
  obtain ⟨p,hp,hexpr,-,-⟩ := h.located
  obtain ⟨operators,rfl,hfirst⟩ := headName_some (varName_some hname)
  refine honest_answer hno fun hmember => ?_
  obtain ⟨info,hinfo,hmember⟩ := (Option.any_eq_true _ _).mp hmember
  exact ⟨p,hp,.inl (.marked hexpr hfirst hinfo (.inl hmember))⟩

theorem honest_body_membership {kind : MetaKind} (h : Stands ctx root ⟨e,binds,visited⟩) :
    Honest ctx root (membershipApplyTimeInner ctx e kind binds visited) := by
  cases e with
  | null | bool | number | string | «variable» | stringTemplate | heredocTemplate | parenthesis
  | conditional | unaryOp | binaryOp => exact honest_references h
  | array items => exact honest_parts h rfl fun c hc => List.mem_map.mpr ⟨c,hc,rfl⟩
  | object entries =>
    refine justified_any fun entry hentry => ?_
    obtain ⟨key,val⟩ := entry
    cases key with
    | ident name => exact justified_false
    | expression key =>
      refine honest_references (h.part rfl (List.mem_map.mpr ⟨key,?_,rfl⟩))
      exact mem_entryExprs.mpr ⟨_,hentry,.inl rfl⟩
  | funcCall ns name args =>
    have hargs : ∀ c ∈ args, Stands ctx root ⟨c,binds,visited⟩ :=
      fun c hc => h.part rfl (List.mem_map.mpr ⟨c,hc,rfl⟩)
    simp only [membershipApplyTimeInner]
    split_ifs
    · cases args with
      | nil => exact justified_false
      | cons arg rest =>
        dsimp only
        split_ifs
        · exact justified_false
        · exact justified_ask (.inl (hargs arg List.mem_cons_self))
    · exact justified_any fun c hc => justified_ask (.inl (hargs c hc))
    · exact honest_references h
  | forExpr keyVar valueVar coll keyExpr valueExpr grouping cond =>
    refine honest_anyReferences fun c hc => h.loop ?_
    cases keyExpr with
    | none => exact hc
    | some key => exact List.mem_cons_of_mem valueExpr hc
  | traversal expr operators =>
    simp only [membershipApplyTimeInner]
    cases hx : localName (.traversal expr operators) with
    | some x =>
      dsimp only
      cases hd : resolveLocalDef ctx (some x) visited with
      | none => exact justified_false
      | some d =>
        obtain ⟨x',hx',hlookup⟩ := resolveLocalDef_lookup hd
        cases hx'
        dsimp only
        rw [resolveLocalDef_path hd rfl]
        exact justified_ask (.inl (h.definition hx hlookup))
    | none =>
      dsimp only
      split
      · rename_i name hname
        exact honest_varName hno h hname
      · exact honest_references h

omit hno in
/-- What a collection resolves to is reached, or is a local without a definition. -/
theorem stands_resolved (h : Stands ctx root ⟨e,binds,visited⟩) :
    Stands ctx root ⟨(resolveThroughLocals ctx e visited).1,binds,
        (resolveThroughLocals ctx e visited).2⟩ ∨
      ∃ operators, (resolveThroughLocals ctx e visited).1 =
          .traversal (.variable "local") operators ∧
        referencesApplyTime ctx (resolveThroughLocals ctx e visited).1 binds
          (resolveThroughLocals ctx e visited).2 = .answer false := by
  induction e, visited using resolveThroughLocals.induct ctx with
  | case1 e visited x hx hin =>
    rw [resolveThroughLocals_cycle hx hin]
    exact .inl h
  | case2 e visited x hx hin d hd ih =>
    rw [resolveThroughLocals_local hx hin hd]
    exact ih (h.definition hx hd)
  | case3 e visited x hx hin hd =>
    rw [resolveThroughLocals_undefined hx hin hd]
    obtain ⟨operators,rfl,hfirst⟩ := headName_some hx
    refine .inr ⟨operators,rfl,?_⟩
    simp [referencesApplyTime,traversalApplyTime,resolveLocalDef,hfirst]
  | case4 e visited hx inner harg ih =>
    rw [resolveThroughLocals_identity hx harg]
    have hmem := identityPassthroughArg_mem harg
    cases e with
    | funcCall => exact ih (h.part rfl (List.mem_map.mpr ⟨inner,hmem,rfl⟩))
    | _ => simp [identityPassthroughArg] at harg
  | case5 e visited hx harg =>
    rw [resolveThroughLocals_other hx harg]
    exact .inl h

/-- A plan-known collection beyond its listed fields. -/
theorem honest_collection {known : List String} {b : Bool} (h : Stands ctx root ⟨e,binds,visited⟩)
    (hknown : allowlistedCollection ctx e = some known) : Honest ctx root (.answer b) := by
  obtain ⟨p,hp,hexpr,-,-⟩ := h.located
  refine honest_answer hno fun _ => ⟨p,hp,.inr ?_⟩
  cases e with
  | traversal expr operators =>
    simp only [allowlistedCollection] at hknown
    split at hknown
    · rename_i known' huse
      cases expr with
      | «variable» head =>
        by_cases hloop : head ∈ p.loops
        · exact .inr (.listed hexpr hloop (by simp [huse]))
        by_cases hdirective : head ∈ p.directives
        · exact .inr (.directive hexpr hloop hdirective)
        · exact .inl (.unlisted hexpr hloop hdirective huse (by simp))
      | _ => cases huse
    · cases hknown
  | _ => cases hknown

theorem honest_body_bind {b : Bind} {field : Option String}
    (h : Stands ctx root ⟨b.coll,binds,visited⟩) :
    Honest ctx root (bindApplyTime ctx b field binds visited) := by
  have hresolved := stands_resolved h
  cases b with
  | value coll =>
    simp only [bindApplyTime,elementValueApplyTime]
    simp only [Bind.coll] at hresolved
    generalize resolveThroughLocals ctx coll visited = r at hresolved ⊢
    obtain ⟨resolved,visited'⟩ := r
    dsimp only at hresolved ⊢
    rcases hresolved with hresolved | ⟨operators,rfl,hdead⟩
    · split
      · refine justified_any fun entry hentry => honest_elementField (hresolved.part rfl ?_)
        refine List.mem_map.mpr ⟨entry.2,?_,rfl⟩
        exact mem_entryExprs.mpr ⟨entry,hentry,.inr rfl⟩
      · refine justified_any fun el hel => honest_elementField (hresolved.part rfl ?_)
        exact List.mem_map.mpr ⟨el,hel,rfl⟩
      · split
        · rename_i known hknown
          exact honest_collection hno hresolved hknown
        · exact honest_references hresolved
    · exact justified_ask (.inr hdead)
  | key coll =>
    simp only [bindApplyTime,keySetApplyTime]
    simp only [Bind.coll] at hresolved
    generalize resolveThroughLocals ctx coll visited = r at hresolved ⊢
    obtain ⟨resolved,visited'⟩ := r
    dsimp only at hresolved ⊢
    rcases hresolved with hresolved | ⟨operators,rfl,hdead⟩
    · split
      · exact justified_false
      · exact honest_parts hresolved rfl fun c hc => List.mem_map.mpr ⟨c,hc,rfl⟩
      · split
        · rename_i name hname
          exact honest_varName hno hresolved hname
        · exact honest_references hresolved
    · have hname : varName (.traversal (.variable "local") operators) = none := by
        simp [varName,headName]
      dsimp only
      rw [hname]
      exact justified_ask (.inr hdead)

theorem honest_body {q : Call} (h : Sound ctx root q) : Honest ctx root (body ctx q) := by
  rcases h with h | h
  · cases q with
    | membership e kind binds visited => exact honest_body_membership hno h
    | references e binds visited => exact honest_body_references hno h
    | bind b field binds visited => exact honest_body_bind hno h
  · rw [h]
    exact justified_false

end verdicts

/-- The expression by itself. -/
def startPlace (e : Expression) : Place := { expr := e }

theorem stands_start (ctx : UnknownCtx) (e : Expression) :
    Stands ctx (startPlace e) ⟨e,∅,∅⟩ := by
  refine ⟨⟨_,.refl,rfl,fun _ hn => absurd hn List.not_mem_nil,?_⟩,fun n b hb => by cases hb⟩
  exact fun key hkey => absurd hkey (Finset.notMem_empty key)

/-- A call about an expression by itself that returns `true` has a reason. -/
theorem reasoned_of_returns {ctx : UnknownCtx} {e : Expression} {q : Call}
    (hq : q.site = ⟨e,∅,∅⟩) (h : Returns (body ctx) q true) : Reasoned ctx (startPlace e) := by
  by_contra hno
  have hsound : Sound ctx (startPlace e) q := .inl (hq ▸ stands_start ctx e)
  exact goal_of_returns (fun _ => honest_body hno) hsound h

section implication

/-- Whoever marks the key set of a variable marks its value. -/
def MembershipMarksValue (ctx : UnknownCtx) : Prop :=
  ∀ name info, ctx.unknownVariables.lookup name = some info → info.membership → info.value

variable {ctx : UnknownCtx} {e : Expression} {binds : Binds} {visited : Finset String}

/-- A call that terminates returns `true`, or all the calls of its body return `false`. -/
theorem returns_true_or {q : Call} (h : Terminates (body ctx) q) : Returns (body ctx) q true ∨
    ∃ fuel, (body ctx q).run (eval (body ctx) fuel) = some false := by
  obtain ⟨b,fuel,hb⟩ := h
  cases b with
  | true => exact .inl ⟨fuel,hb⟩
  | false =>
    cases fuel with
    | zero => cases hb
    | succ fuel => exact .inr ⟨fuel,hb⟩

theorem not_returns_both {q : Call} {fuel fuel' : ℕ} (ht : eval (body ctx) fuel q = some true)
    (hf : eval (body ctx) fuel' q = some false) : False := by
  cases returns_unique ⟨fuel,ht⟩ ⟨fuel',hf⟩

/-- A key set that is unknown makes the value unknown, when the analysis of the value ends. -/
theorem value_of_membership (hmarks : MembershipMarksValue ctx) {kind : MetaKind} {fuel : ℕ}
    (h : eval (body ctx) fuel (.membership e kind binds visited) = some true)
    (hends : Terminates (body ctx) (.references e binds visited)) :
    Returns (body ctx) (.references e binds visited) true := by
  induction fuel generalizing e kind binds visited with
  | zero => cases h
  | succ fuel ih =>
    have hsame : (membershipApplyTimeInner ctx e kind binds visited =
        Proc.ask (.references e binds visited)) → Returns (body ctx) (.references e binds visited) true := by
      intro hask
      rw [eval] at h
      simp only [body,hask,run_ask] at h
      exact ⟨fuel,h⟩
    rcases returns_true_or hends with hvalue | ⟨fuel',hvalue⟩
    · exact hvalue
    rw [eval] at h
    simp only [body] at h hvalue
    cases e with
    | null | bool | number | string | «variable» | stringTemplate | heredocTemplate | parenthesis
    | conditional | unaryOp | binaryOp => exact hsame rfl
    | array items =>
      obtain ⟨c,hc,ht⟩ := run_any_true h
      have hf := run_any_false.mp hvalue c hc
      rw [run_ask] at ht hf
      exact (not_returns_both ht hf).elim
    | object entries =>
      obtain ⟨⟨key,val⟩,hentry,ht⟩ := run_any_true h
      have hf := run_any_false.mp hvalue _ hentry
      cases key with
      | ident name => cases ht
      | expression key =>
        have hkey := (run_or_false.mp hf).1
        rw [run_ask] at ht hkey
        exact (not_returns_both ht hkey).elim
    | forExpr keyVar valueVar coll keyExpr valueExpr grouping cond =>
      obtain ⟨c,hc,ht⟩ := run_any_true h
      have hall := run_any_false.mp (run_or_false.mp hvalue).2
      have hf := hall c (by cases keyExpr <;> simp at hc ⊢ <;> tauto)
      rw [run_ask] at ht hf
      exact (not_returns_both ht hf).elim
    | funcCall ns name args =>
      -- the arguments are all looked at for the value, unless the call is a `lookup`
      have hargs : name ≠ "lookup" → ∀ c ∈ args, ∀ kind' : MetaKind,
          ¬eval (body ctx) fuel (.membership c kind' binds visited) = some true := by
        intro hname c hc kind' ht
        simp only [referencesApplyTime,lookupBind,if_neg hname] at hvalue
        have hf := run_any_false.mp hvalue c hc
        rw [run_ask] at hf
        obtain ⟨fuel'',ht⟩ := ih ht ⟨false,fuel',hf⟩
        exact not_returns_both ht hf
      simp only [membershipApplyTimeInner] at h hsame
      split_ifs at h hsame with hlength hbuilder
      · have hname : name ≠ "lookup" := by
          rw [hlength.2]
          decide
        cases args with
        | nil => cases h
        | cons arg rest =>
          dsimp only at h
          split_ifs at h
          · cases h
          · rw [run_ask] at h
            exact (hargs hname arg List.mem_cons_self _ h).elim
      · have hname : name ≠ "lookup" := by
          rintro rfl
          revert hbuilder
          decide
        obtain ⟨c,hc,ht⟩ := run_any_true h
        rw [run_ask] at ht
        exact (hargs hname c hc _ ht).elim
      · exact hsame rfl
    | traversal expr operators =>
      simp only [membershipApplyTimeInner] at h hsame
      cases hx : localName (.traversal expr operators) with
      | some x =>
        obtain ⟨operators',he,hfirst⟩ := headName_some hx
        cases he
        rw [hx] at h
        simp only [referencesApplyTime,traversalApplyTime,if_true,hfirst] at h hvalue
        cases hd : resolveLocalDef ctx (some x) visited with
        | none =>
          rw [hd] at h
          cases h
        | some d =>
          rw [hd] at h hvalue
          simp only [run_ask] at h hvalue
          obtain ⟨fuel'',ht⟩ := ih h ⟨false,fuel',hvalue⟩
          exact (not_returns_both ht hvalue).elim
      | none =>
        rw [hx] at h hsame
        dsimp only at h hsame
        cases hname : varName (.traversal expr operators) with
        | some name =>
          obtain ⟨operators',he,hfirst⟩ := headName_some (varName_some hname)
          cases he
          rw [hname] at h
          obtain ⟨info,hinfo,hmember⟩ := (Option.any_eq_true _ _).mp (Option.some.inj h)
          have hmark := hmarks name info hinfo hmember
          obtain ⟨m,v⟩ := info
          cases hmark
          refine ⟨1,?_⟩
          simp [eval,body,referencesApplyTime,traversalApplyTime,hfirst,hinfo,Proc.run]
        | none =>
          rw [hname] at hsame
          exact hsame rfl

end implication

/-- `aws_instance.web`. -/
def wholeWeb : Expression := .traversal (.variable "aws_instance") [.getAttr "web"]

/-- `aws_acm_certificate.c.domain_validation_options[*].type`. -/
def certificateType : Expression :=
  .traversal (.variable "aws_acm_certificate")
    [.getAttr "c",.getAttr "domain_validation_options",.fullSplat,.getAttr "type"]

/-- A resource with `id` set to its own `id`. -/
def selfCtx : UnknownCtx :=
  { resourceConfigs := (∅ : KeyedMap _ BlockConfig).insert ("aws_instance","web")
      { attrs := (∅ : KeyedMap String Expression).insert "id" webId } }

/-- `{ a = [for v in var.xs : [for v in v.items : v.name]], (aws_instance.web.id) = "" }`. -/
def unendingValue : Expression :=
  .object [(.ident "a",shadowed),(.expression webId,.string "")]

theorem not_source {ctx : UnknownCtx} (hschema : ctx.schema = none)
    (hvariables : ctx.unknownVariables = ∅) (houtputs : ctx.moduleOutputs = none)
    (hdata : ctx.dataConfigs = ∅) (p : Place) : ¬Source ctx p := by
  rintro (⟨-,-,-,hs,-⟩ | ⟨-,-,hinfo,-⟩ | ⟨-,-,hlookup,-⟩ | ⟨-,-,hconfig,-⟩)
  · rw [schemaAttr,hschema] at hs
    cases hs
  · rw [hvariables] at hinfo
    cases hinfo
  · rw [houtputs] at hlookup
    cases hlookup
  · rw [hdata] at hconfig
    cases hconfig

end UnknownValue
end TerraformLs
