import TerraformLs.ValueShape

/-! When the inference of assigned types ends. Within an expression it goes on
to expressions inside; only a local or a module output leads to a value written
elsewhere, and of these a workspace has finitely many. -/
namespace TerraformLs
namespace ValueShape

open Proc Relation Walks AssignedTypes VariableType UnknownValue

/-- The expressions inside an expression. -/
def Inside (e e' : Expression) : Prop := TransGen (fun e c => c ∈ children e) e e'

theorem sizeOf_inside {e e' : Expression} (h : Inside e e') : sizeOf e' < sizeOf e := by
  induction h with
  | single hc => exact sizeOf_children hc
  | tail _ hc ih => exact (sizeOf_children hc).trans ih

section sources

variable (env : Environment) (docs : KeyedMap Url DocumentState)

def blockValues : Structure → List Expression
  | .attribute _ _ _ => []
  | .block _ _ body => body.filterMap fun
    | .attribute _ _ value => some value
    | .block _ _ _ => none

/-- The values written in the top-level blocks of the workspace. -/
def definitions : List Expression :=
  docs.entries.flatMap fun e => (e.2.parsed.body.getD []).flatMap blockValues

/-- The directories that documents lie under. -/
def documentDirs : List Path := docs.entries.filterMap fun e => env.fs.parentDir e.1

variable {env docs} {name : String} {value : Expression} {dir : Path}

theorem attrValue_mem {body : Body} (h : attrValue name body = some value) (ident : String)
    (labels : List BlockLabel) : value ∈ blockValues (.block ident labels body) := by
  obtain ⟨item,hitem,hvalue⟩ := List.exists_of_findSome?_eq_some h
  cases item with
  | «attribute» key span v =>
    have hv : v = value := by
      have hif : (if key = name then some v else none) = some value := hvalue
      split_ifs at hif
      exact Option.some.inj hif
    apply List.mem_filterMap.mpr
    exact ⟨_,hitem,by rw [hv]⟩
  | block ident labels body => cases hvalue

theorem mem_definitions {doc : DocumentState} {item : Structure}
    (hdoc : doc ∈ docsUnder env docs dir) (hitem : item ∈ doc.parsed.body.getD [])
    (h : value ∈ blockValues item) : value ∈ definitions docs := by
  obtain ⟨e,he,rfl⟩ := List.mem_map.mp hdoc
  have hentry : e ∈ docs.entries := (List.mem_filter.mp he).1
  apply List.mem_flatMap.mpr
  exact ⟨e,hentry,List.mem_flatMap.mpr ⟨item,hitem,h⟩⟩

theorem localValue_mem (h : localValue name (docsUnder env docs dir) = some value) :
    value ∈ definitions docs := by
  obtain ⟨doc,hdoc,h⟩ := List.exists_of_findSome?_eq_some h
  obtain ⟨item,hitem,h⟩ := List.exists_of_findSome?_eq_some h
  cases item with
  | «attribute» key span v => cases h
  | block ident labels body =>
    have hif : (if ident = "locals" then attrValue name body else none) = some value := h
    split_ifs at hif
    exact mem_definitions hdoc hitem (attrValue_mem hif ident labels)

theorem outputValue_mem (h : outputValue name (docsUnder env docs dir) = some value) :
    value ∈ definitions docs ∧ dir ∈ documentDirs env docs := by
  have hfound := Option.join_eq_some_iff.mp h
  obtain ⟨doc,hdoc,h⟩ := List.exists_of_findSome?_eq_some hfound
  obtain ⟨item,hitem,h⟩ := List.exists_of_findSome?_eq_some h
  constructor
  · cases item with
    | «attribute» key span v => cases h
    | block ident labels body =>
      dsimp only at h
      split_ifs at h
      cases labels with
      | nil => cases h
      | cons label labels =>
        dsimp only at h
        split_ifs at h
        obtain ⟨v,hv,he⟩ := Option.map_eq_some_iff.mp h
        cases he
        exact mem_definitions hdoc hitem (attrValue_mem hv ident (label :: labels))
  · obtain ⟨e,he,-⟩ := List.mem_map.mp hdoc
    obtain ⟨hentry,hdir⟩ := List.mem_filter.mp he
    exact List.mem_filterMap.mpr ⟨e,hentry,of_decide_eq_true hdir⟩

end sources

section steps

variable (env : Environment) (docs : KeyedMap Url DocumentState)

/-- What the evaluation of a call can go on to. -/
inductive Step : Call → Call → Prop
  | inside {e e' : Expression} {scope : CallerScopedLookup} (h : Inside e e') :
    Step (.shape e scope) (.shape e' scope)
  | readLocal {e : Expression} {name : String} {scope : CallerScopedLookup}
      (h : name ∈ names e) : Step (.shape e scope) (.localShape name scope)
  | readOutput {e : Expression} {m o : String} {scope : CallerScopedLookup} (hm : m ∈ names e)
      (ho : o ∈ names e) : Step (.shape e scope) (.moduleOutput m o scope)
  | localValue {name : String} {value : Expression} {scope : CallerScopedLookup}
      (h : value ∈ definitions docs) : Step (.localShape name scope) (.shape value scope)
  | outputValue {m o : String} {value : Expression} {scope : CallerScopedLookup} {dir : Path}
      (h : value ∈ definitions docs) (hdir : dir ∈ documentDirs env docs) :
    Step (.moduleOutput m o scope) (.shape value ⟨dir,none⟩)
  | start {dir : Path} {e : Expression} {scope : CallerScopedLookup} :
    Step (.rebuild dir) (.shape e scope)

/-- The inference of a local or of a module output. -/
def Call.IsLookup : Call → Prop
  | .localShape _ _ => True
  | .moduleOutput _ _ _ => True
  | _ => False

noncomputable def weight : Call → ℕ × ℕ
  | .shape e _ => (0,sizeOf e)
  | _ => (1,0)

variable {env docs}

/-- Only lookups can fail to get smaller. -/
theorem weight_smaller {q q' : Call} (h : Step env docs q q') (hq' : ¬q'.IsLookup) :
    Prod.Lex (· < ·) (· < ·) (weight q') (weight q) := by
  cases h with
  | inside h => exact Prod.Lex.right 0 (sizeOf_inside h)
  | readLocal | readOutput => exact absurd trivial hq'
  | localValue | outputValue | start => exact Prod.Lex.left _ _ Nat.zero_lt_one

end steps

section bodies

variable {env : Environment} {schema : SchemaLookup} {docs : KeyedMap Url DocumentState}
  {scope : CallerScopedLookup}

theorem step_shapes {e : Expression} {es : List Expression} (h : ∀ e' ∈ es, Inside e e') :
    ∀ q ∈ es.map fun e' => Call.shape e' scope, Step env docs (.shape e scope) q := by
  intro q hq
  obtain ⟨e',he',rfl⟩ := List.mem_map.mp hq
  exact .inside (h e' he')

theorem mem_namedEntries {entries : List (ObjectKey × Expression)} {entry : String × Expression}
    (h : entry ∈ namedEntries entries) : entry.2 ∈ children (.object entries) := by
  obtain ⟨⟨key,value⟩,hmem,he⟩ := List.mem_filterMap.mp h
  obtain ⟨name,-,rfl⟩ := Option.map_eq_some_iff.mp he
  exact mem_entryExprs.mpr ⟨_,hmem,.inr rfl⟩

theorem objectShape_only {e : Expression} {entries : List (ObjectKey × Expression)}
    (h : ∀ c ∈ children (.object entries), Inside e c) :
    (objectShape entries scope).Only (Step env docs (.shape e scope)) := by
  apply only_askAll
  · intro q hq
    obtain ⟨entry,hentry,rfl⟩ := List.mem_map.mp hq
    exact .inside (h _ (mem_namedEntries hentry))
  · exact fun as => trivial

theorem objectArgShape_only {e : Expression} {args : List Expression}
    (h : ∀ arg ∈ args, Inside e arg) :
    (objectArgShape args scope).Only (Step env docs (.shape e scope)) := by
  unfold objectArgShape
  split
  · rename_i entries rest
    have hentries : Inside e (.object entries) := h _ List.mem_cons_self
    exact objectShape_only fun c hc => hentries.tail hc
  · trivial

theorem mergeArgs_only {e : Expression} {args : List Expression}
    (h : ∀ arg ∈ args, Inside e arg) (combined : List (String × VariableType)) :
    (mergeArgs scope combined args).Only (Step env docs (.shape e scope)) := by
  induction args generalizing combined with
  | nil => trivial
  | cons arg args ih =>
    have htail : ∀ arg' ∈ args, Inside e arg' := fun arg' ha => h arg' (List.mem_cons_of_mem arg ha)
    refine ⟨.inside (h arg List.mem_cons_self),fun a => ?_⟩
    dsimp only
    split
    · exact ih htail _
    · trivial

theorem ofFirst_only {e : Expression} {args : List Expression} (h : ∀ arg ∈ args, Inside e arg)
    (f : VariableType → VariableType) :
    (ofFirst args scope f).Only (Step env docs (.shape e scope)) := by
  cases args with
  | nil => trivial
  | cons arg args => exact ⟨.inside (h arg List.mem_cons_self),fun a => trivial⟩

theorem lookupShape_only {e : Expression} {args : List Expression}
    (h : ∀ arg ∈ args, Inside e arg) :
    (lookupShape args scope).Only (Step env docs (.shape e scope)) := by
  cases args with
  | nil => trivial
  | cons mapArg rest =>
    refine ⟨.inside (h mapArg List.mem_cons_self),fun a => ?_⟩
    dsimp only
    split
    · trivial
    · split
      · rename_i key default others _
        have hmem : default ∈ mapArg :: key :: default :: others := by simp
        exact (only_ask _).mpr (.inside (h default hmem))
      · trivial

theorem funcCallShape_only {ns : List String} {name : String} {args : List Expression} :
    (funcCallShape name args scope).Only
      (Step env docs (.shape (.funcCall ns name args) scope)) := by
  have hargs : ∀ arg ∈ args, Inside (.funcCall ns name args) arg := fun arg ha => .single ha
  have hask : (askAll (args.map fun arg => Call.shape arg scope) fun as =>
      .answer (known (concatOf (as.map Answer.ty)))).Only
      (Step env docs (.shape (.funcCall ns name args) scope)) :=
    only_askAll (step_shapes hargs) fun as => trivial
  unfold funcCallShape
  repeat' apply only_ite
  all_goals first
    | trivial
    | exact ofFirst_only hargs _
    | exact hask
    | exact mergeArgs_only hargs _
    | exact lookupShape_only hargs
    | exact only_askUntil (step_shapes hargs)
    | exact objectArgShape_only hargs

theorem traversalAttrType_only {expr : Expression} {operators : List TraversalOperator} :
    (traversalAttrType env schema docs expr operators scope).Only
      (Step env docs (.shape (.traversal expr operators) scope)) := by
  have hnames : ∀ name ∈ getAttrs operators, name ∈ names (.traversal expr operators) :=
    fun name h => h
  cases expr with
  | «variable» base =>
    simp only [traversalAttrType]
    generalize getAttrs operators = idents at *
    split_ifs
    · cases idents <;> trivial
    · cases idents with
      | nil => trivial
      | cons name idents =>
        exact ⟨.readLocal (hnames name List.mem_cons_self),fun a => trivial⟩
    · match idents with
      | [] => trivial
      | [_] => trivial
      | m::o::idents =>
        have hm := hnames m List.mem_cons_self
        have ho := hnames o (List.mem_cons_of_mem m List.mem_cons_self)
        exact ⟨.readOutput hm ho,fun a => trivial⟩
    all_goals
      repeat' split
      all_goals trivial
  | _ => trivial

theorem shape_only (e : Expression) : (parseValueShapeWithSchema env schema docs e scope).Only
    (Step env docs (.shape e scope)) := by
  cases e with
  | object entries => exact objectShape_only fun c hc => .single hc
  | array items =>
    have hitems : ∀ item ∈ items, Inside (.array items) item := fun item h => .single h
    exact only_askAll (step_shapes hitems) fun as => trivial
  | funcCall ns name args =>
    simp only [parseValueShapeWithSchema]
    split
    · exact funcCallShape_only
    · trivial
  | conditional cond whenTrue whenFalse =>
    have htrue : Inside (.conditional cond whenTrue whenFalse) whenTrue :=
      .single (List.mem_cons_of_mem _ List.mem_cons_self)
    have hfalse : Inside (.conditional cond whenTrue whenFalse) whenFalse :=
      .single (List.mem_cons_of_mem _ (List.mem_cons_of_mem _ List.mem_cons_self))
    exact ⟨.inside htrue,fun a => ⟨.inside hfalse,fun b => trivial⟩⟩
  | parenthesis inner => exact (only_ask _).mpr (.inside (.single List.mem_cons_self))
  | traversal expr operators => exact traversalAttrType_only
  | forExpr keyVar valueVar coll keyExpr valueExpr grouping cond =>
    have hvalue : Inside (.forExpr keyVar valueVar coll keyExpr valueExpr grouping cond)
        valueExpr := .single (List.mem_cons_of_mem _ List.mem_cons_self)
    simp only [parseValueShapeWithSchema]
    split
    · trivial
    · exact ⟨.inside hvalue,fun a => trivial⟩
  | _ => trivial

theorem localShape_only (name : String) : (localShape env docs name scope).Only
    (Step env docs (.localShape name scope)) := by
  unfold localShape
  split
  · rename_i value hvalue
    exact (only_ask _).mpr (.localValue (localValue_mem hvalue))
  · trivial

theorem moduleOutput_only (m o : String) : (moduleOutput env docs m o scope).Only
    (Step env docs (.moduleOutput m o scope)) := by
  simp only [moduleOutput]
  split
  · trivial
  · split
    · rename_i value hvalue
      have hfound := outputValue_mem hvalue
      exact (only_ask _).mpr (.outputValue hfound.1 hfound.2)
    · trivial

theorem inferInputs_only {dir : Path} {rows : List (String × Expression)}
    {next : List (String × VariableType) → Proc Call Answer}
    (h : ∀ types, (next types).Only (Step env docs (.rebuild dir))) :
    (inferInputs rows scope next).Only (Step env docs (.rebuild dir)) := by
  apply only_askAll
  · intro q hq
    obtain ⟨i,-,rfl⟩ := List.mem_map.mp hq
    exact .start
  · exact fun as => h _

theorem inferCalls_only {dir : Path} (sites : List (Path × Body))
    {next : List (Path × List (String × VariableType)) → Proc Call Answer}
    (h : ∀ calls, (next calls).Only (Step env docs (.rebuild dir))) :
    (inferCalls dir sites next).Only (Step env docs (.rebuild dir)) := by
  induction sites generalizing next with
  | nil => exact h []
  | cons site sites ih =>
    have hrest : ∀ rows, (inferCalls dir sites fun calls => next ((site.1,rows) :: calls)).Only
        (Step env docs (.rebuild dir)) := fun rows => ih fun calls => h _
    simp only [inferCalls,inferCall]
    split
    · exact inferInputs_only hrest
    · exact ⟨.start,fun a => inferInputs_only hrest⟩

theorem step_of_calls {q q' : Call} (h : Calls (body env docs schema) q q') :
    Step env docs q q' := by
  have honly : (body env docs schema q).Only (Step env docs q) := by
    cases q with
    | shape e scope => exact shape_only e
    | localShape name scope => exact localShape_only name
    | moduleOutput m o scope => exact moduleOutput_only m o
    | rebuild dir => exact inferCalls_only _ fun calls => trivial
  exact honly.of_asks h

end bodies

section cover

variable {env : Environment} {docs : KeyedMap Url DocumentState} {S : Set Expression}
  {V : Set String} {T : Set CallerScopedLookup}

/-- Expressions, names and scopes among which the inference stays. -/
structure Covers (env : Environment) (docs : KeyedMap Url DocumentState) (S : Set Expression)
    (V : Set String) (T : Set CallerScopedLookup) : Prop where
  children : ∀ e ∈ S, ∀ c ∈ children e, c ∈ S
  definitions : ∀ value ∈ definitions docs, value ∈ S
  names : ∀ e ∈ S, ∀ name ∈ names e, name ∈ V
  dirs : ∀ dir ∈ documentDirs env docs, ⟨dir,none⟩ ∈ T

/-- A call among the expressions, names and scopes. -/
def Call.Within (S : Set Expression) (V : Set String) (T : Set CallerScopedLookup) : Call → Prop
  | .shape e scope => e ∈ S ∧ scope ∈ T
  | .localShape name scope => name ∈ V ∧ scope ∈ T
  | .moduleOutput m o scope => (m ∈ V ∧ o ∈ V) ∧ scope ∈ T
  | .rebuild _ => False

theorem inside_mem (hc : Covers env docs S V T) {e e' : Expression} (h : Inside e e')
    (he : e ∈ S) : e' ∈ S := by
  induction h with
  | single hmem => exact hc.children _ he _ hmem
  | tail _ hmem ih => exact hc.children _ ih _ hmem

theorem step_within (hc : Covers env docs S V T) {q q' : Call} (h : Step env docs q q')
    (hq : q.Within S V T) : q'.Within S V T := by
  cases h with
  | inside h => exact ⟨inside_mem hc h hq.1,hq.2⟩
  | readLocal h => exact ⟨hc.names _ hq.1 _ h,hq.2⟩
  | readOutput hm ho => exact ⟨⟨hc.names _ hq.1 _ hm,hc.names _ hq.1 _ ho⟩,hq.2⟩
  | localValue h => exact ⟨hc.definitions _ h,hq.2⟩
  | outputValue h hdir => exact ⟨hc.definitions _ h,hc.dirs _ hdir⟩
  | start => exact hq.elim

theorem calls_within {schema : SchemaLookup} (hc : Covers env docs S V T) {q q' : Call}
    (h : ReflTransGen (Calls (body env docs schema)) q q') (hq : q.Within S V T) :
    q'.Within S V T := by
  induction h with
  | refl => exact hq
  | tail _ hcall ih => exact step_within hc (step_of_calls hcall) ih

/-- Everything that the inference of an expression meets is among finitely many
expressions, names and scopes. -/
theorem exists_cover (env : Environment) (docs : KeyedMap Url DocumentState) (e : Expression)
    (scope : CallerScopedLookup) : ∃ S V T, S.Finite ∧ V.Finite ∧ T.Finite ∧
      Covers env docs S V T ∧ (Call.shape e scope).Within S V T := by
  let roots : List Expression := e :: definitions docs
  let S : Set Expression :=
    ⋃ r ∈ {r | r ∈ roots}, {e | ReflTransGen (fun e c => c ∈ children e) r e}
  let V : Set String := ⋃ e ∈ S, {name | name ∈ names e}
  let T : Set CallerScopedLookup :=
    insert scope ((fun dir => ⟨dir,none⟩) '' {dir | dir ∈ documentDirs env docs})
  have hroots : ∀ r ∈ roots, r ∈ S := fun r hr => Set.mem_biUnion hr .refl
  have hS : S.Finite := (List.finite_toSet roots).biUnion fun r _ => finite_below r
  have hV : V.Finite := hS.biUnion fun e _ => List.finite_toSet (names e)
  have hT : T.Finite := ((List.finite_toSet _).image _).insert scope
  have hcovers : Covers env docs S V T := by
    constructor
    · intro e he c hc
      obtain ⟨r,hr,hre⟩ := Set.mem_iUnion₂.mp he
      exact Set.mem_biUnion hr (hre.tail hc)
    · exact fun value h => hroots value (List.mem_cons_of_mem e h)
    · exact fun e he name h => Set.mem_biUnion he h
    · exact fun dir h => Set.mem_insert_of_mem scope ⟨dir,h,rfl⟩
  exact ⟨S,V,T,hS,hV,hT,hcovers,hroots e List.mem_cons_self,Set.mem_insert scope _⟩

theorem finite_lookups (hV : V.Finite) (hT : T.Finite) :
    {l : Call | l.IsLookup ∧ l.Within S V T}.Finite := by
  have hlocals := (hV.prod hT).image fun p => Call.localShape p.1 p.2
  have houtputs := ((hV.prod hV).prod hT).image fun p => Call.moduleOutput p.1.1 p.1.2 p.2
  apply (hlocals.union houtputs).subset
  rintro l ⟨hl,hw⟩
  cases l with
  | shape | rebuild => exact hl.elim
  | localShape name scope => exact .inl ⟨(name,scope),hw,rfl⟩
  | moduleOutput m o scope => exact .inr ⟨((m,o),scope),hw,rfl⟩

end cover

section staged

variable {env : Environment} {schema : SchemaLookup} {docs : KeyedMap Url DocumentState}
  {oracle : Call → Answer} {dir : Path}

/-- The inference is the one that the rebuilds of the workspace are given. -/
def InfersAs (env : Environment) (docs : KeyedMap Url DocumentState) (schema : SchemaLookup) :
    Prop :=
  ∀ (e : Expression) (dir : Path) (each : Option VariableType) (a : Answer),
    Returns (body env docs schema) (.shape e ⟨dir,each⟩) a →
      a.ty = env.parseValueShapeWithSchema docs dir each e

/-- The inputs of a call are its attributes with a known type. -/
theorem callAssignments_eq (env : Environment) (docs : KeyedMap Url DocumentState) (dir : Path)
    (items : Body) : callAssignments env docs dir items =
      knownRows ((inputs items).map fun i =>
        (i.1,env.parseValueShapeWithSchema docs dir (eachValue env docs dir items) i.2)) := by
  rw [callAssignments]
  generalize eachValue env docs dir items = each
  induction items with
  | nil => rfl
  | cons item items ih =>
    rw [List.filterMap_cons]
    cases item with
    | block ident labels body => exact ih
    | «attribute» key span value =>
      by_cases hmeta : isMetaAttr key
      · simpa [inputs,hmeta] using ih
      · by_cases hany : (env.parseValueShapeWithSchema docs dir each value).isAny
        · simpa [inputs,knownRows,hmeta,hany] using ih
        · simpa [inputs,knownRows,hmeta,hany] using ih

theorem moduleCall_eq (symbols : SymbolTable) (item : Structure) :
    moduleCall env docs dir symbols item =
      (callSite env dir symbols item).map fun site =>
        (site.1,callAssignments env docs dir site.2) := by
  cases item with
  | «attribute» key span value => rfl
  | block ident labels body =>
    simp only [moduleCall,callSite]
    split
    · simp [Option.map_bind,Function.comp_def]
    · rfl

/-- The module calls of a directory are its call sites with their inputs. -/
theorem moduleCalls_eq (env : Environment) (docs : KeyedMap Url DocumentState) (dir : Path) :
    moduleCalls env docs dir =
      (callSites env docs dir).map fun site => (site.1,callAssignments env docs dir site.2) := by
  rw [moduleCalls,callSites,List.map_flatMap]
  congr 1
  funext e
  split
  · rw [List.map_filterMap]
    congr 1
    funext item
    exact moduleCall_eq e.2.symbols item
  · rfl

variable (horacle : ∀ (e : Expression) (dir : Path) (each : Option VariableType),
  (oracle (.shape e ⟨dir,each⟩)).ty = env.parseValueShapeWithSchema docs dir each e)

include horacle

theorem inferInputs_answer (rows : List (String × Expression)) (each : Option VariableType)
    (next : List (String × VariableType) → Proc Call Answer) :
    (inferInputs rows ⟨dir,each⟩ next).answerWith oracle =
      (next (knownRows (rows.map fun i =>
        (i.1,env.parseValueShapeWithSchema docs dir each i.2)))).answerWith oracle := by
  rw [inferInputs,answerWith_askAll]
  congr 3
  induction rows with
  | nil => rfl
  | cons row rows ih =>
    simp only [List.map_cons,List.zip_cons_cons]
    rw [ih,horacle]

theorem inferCall_answer (items : Body)
    (next : List (String × VariableType) → Proc Call Answer) :
    (inferCall dir items next).answerWith oracle =
      (next (callAssignments env docs dir items)).answerWith oracle := by
  have heach : eachValue env docs dir items = (attrValue "for_each" items).bind fun collection =>
      elementTypeOf (env.parseValueShapeWithSchema docs dir none collection) := rfl
  rw [callAssignments_eq,heach,inferCall]
  cases attrValue "for_each" items with
  | none => exact inferInputs_answer horacle _ _ _
  | some collection =>
    show (inferInputs (inputs items) ⟨dir,elementTypeOf (oracle _).ty⟩ next).answerWith oracle = _
    rw [horacle]
    exact inferInputs_answer horacle _ _ _

theorem inferCalls_answer (sites : List (Path × Body))
    (next : List (Path × List (String × VariableType)) → Proc Call Answer) :
    (inferCalls dir sites next).answerWith oracle =
      (next (sites.map fun site =>
        (site.1,callAssignments env docs dir site.2))).answerWith oracle := by
  induction sites generalizing next with
  | nil => rfl
  | cons site sites ih =>
    rw [inferCalls,inferCall_answer horacle,ih]
    rfl

omit horacle

/-- A rebuild that ends stages the module calls of the directory. -/
theorem rebuild_returns (h : InfersAs env docs schema) {a : Answer}
    (ha : Returns (body env docs schema) (.rebuild dir) a) :
    a = .staged (moduleCalls env docs dir) := by
  classical
  -- what a call returns, and for the others what is expected of it
  let oracle : Call → Answer := fun q =>
    if hq : ∃ a, Returns (body env docs schema) q a then hq.choose
    else match q with
      | .shape e scope =>
        known (env.parseValueShapeWithSchema docs scope.callerDir scope.eachValue e)
      | _ => .inferred none
  have horacle : ∀ (e : Expression) (dir : Path) (each : Option VariableType),
      (oracle (.shape e ⟨dir,each⟩)).ty = env.parseValueShapeWithSchema docs dir each e := by
    intro e dir each
    by_cases hq : ∃ a, Returns (body env docs schema) (.shape e ⟨dir,each⟩) a
    · simp only [oracle,dif_pos hq]
      exact h e dir each _ hq.choose_spec
    · simp only [oracle,dif_neg hq]
      rfl
  obtain ⟨fuel,hfuel⟩ := ha
  cases fuel with
  | zero => cases hfuel
  | succ fuel =>
    have hknows : ∀ q b, eval (body env docs schema) fuel q = some b → oracle q = b := by
      intro q b hb
      have hq : ∃ a, Returns (body env docs schema) q a := ⟨b,fuel,hb⟩
      simp only [oracle,dif_pos hq]
      exact returns_unique hq.choose_spec ⟨fuel,hb⟩
    have hanswer := answerWith_of_run hknows hfuel
    rw [← hanswer,moduleCalls_eq]
    exact inferCalls_answer horacle _ _

end staged

section termination

variable (env : Environment) (docs : KeyedMap Url DocumentState) (schema : SchemaLookup)

/-- Lookups that the inference of an expression comes to. -/
theorem finite_lookups_of_shape (e : Expression) (scope : CallerScopedLookup) :
    {l | Call.IsLookup l ∧
      ReflTransGen (Calls (body env docs schema)) (.shape e scope) l}.Finite := by
  obtain ⟨S,V,T,hS,hV,hT,hc,hq⟩ := exists_cover env docs e scope
  exact (finite_lookups hV hT).subset fun l hl => ⟨hl.1,calls_within hc hl.2 hq⟩

/-- A rebuild infers the finitely many expressions that the module blocks of the
directory hold. -/
theorem finite_lookups_of_rebuild (dir : Path) :
    {l | Call.IsLookup l ∧
      ReflTransGen (Calls (body env docs schema)) (.rebuild dir) l}.Finite := by
  have hret : ∀ q a b, Returns (body env docs schema) q a → Returns (body env docs schema) q b →
      a = b := fun q a b => returns_unique
  have hfirst : {q | Calls (body env docs schema) (.rebuild dir) q}.Finite := finite_asks hret _
  have hunion := hfirst.biUnion (t:=fun q => {l | Call.IsLookup l ∧
    ReflTransGen (Calls (body env docs schema)) q l}) fun q hq => by
      cases step_of_calls hq with
      | start => exact finite_lookups_of_shape env docs schema _ _
  apply hunion.subset
  rintro l ⟨hl,hql⟩
  rcases ReflTransGen.cases_head hql with rfl | ⟨q,hq,hql⟩
  · exact hl.elim
  · exact Set.mem_biUnion hq ⟨hl,hql⟩

/-- A local or a module output is inferred whose own value comes to it again, in
the same directory and with the same type of `each.value`. -/
def Reenters (q : Call) : Prop :=
  ∃ l : Call, l.IsLookup ∧ ReflTransGen (Calls (body env docs schema)) q l ∧
    OnCycle (Calls (body env docs schema)) l

/-- The rebuild of a directory ends exactly when none of the lookups that its
module calls come to leads back to itself. -/
theorem rebuild_terminates_iff (dir : Path) :
    Terminates (body env docs schema) (.rebuild dir) ↔
      ¬Reenters env docs schema (.rebuild dir) := by
  have hwf : WellFounded (Prod.Lex (· < ·) (· < ·) : ℕ × ℕ → ℕ × ℕ → Prop) :=
    (Prod.lex Nat.lt_wfRel Nat.lt_wfRel).wf
  have hweight : ∀ q q', Calls (body env docs schema) q q' → ¬q'.IsLookup →
      Prod.Lex (· < ·) (· < ·) (weight q') (weight q) :=
    fun q q' h => weight_smaller (step_of_calls h)
  rw [terminates_iff_no_reentry hwf hweight (finite_lookups_of_rebuild env docs schema dir)]
  simp [Reenters]

end termination

section selfReference

/-- `local.a`. -/
def localA : Expression := .traversal (.variable "local") [.getAttr "a"]

/-- A stack in the middle of an edit: `locals { a = local.a }`, and a module
call that passes `local.a`. -/
def selfReferringBody : Body :=
  [.block "locals" [] [.attribute "a" none localA],
    .block "module" [.string "c"] [.attribute "source" none (.string "./c"),
      .attribute "x" none localA]]

def selfReferring : KeyedMap Url DocumentState :=
  AList.singleton "file:///m/main.tf"
    { uri := "file:///m/main.tf"
      rope := []
      version := 0
      parsed := ⟨some selfReferringBody,[]⟩
      symbols := { moduleSources := AList.singleton "c" "./c" }
      references := []
      testRuns := []
      formatCache := none }

def oneStackEnvironment : Environment where
  fs :=
    { canonicalize := some
      readDir := fun _ => none
      readToString := fun _ => none
      metadata := fun _ => none
      isDir := fun _ => true
      isFile := fun _ => false
      toFilePath := fun _ => some ["m","main.tf"]
      fromFilePath := fun _ => none }
  discoverTfvarsAttributableTo := fun _ => none
  parseBody := fun _ => none
  parseManifest := fun _ => none
  parseValueShape := fun _ => .any
  parseValueShapeWithSchema := fun _ _ _ _ => .any

def noSchema : SchemaLookup := ⟨fun _ _ => none,fun _ _ => none,fun _ _ => none⟩

theorem selfReferring_not_terminates :
    ¬Terminates (body oneStackEnvironment selfReferring noSchema) (.rebuild ["m"]) := by
  intro h
  have hstart : Calls (body oneStackEnvironment selfReferring noSchema) (.rebuild ["m"])
      (.shape localA ⟨["m"],none⟩) := calls_first rfl
  have hread : Calls (body oneStackEnvironment selfReferring noSchema)
      (.shape localA ⟨["m"],none⟩) (.localShape "a" ⟨["m"],none⟩) := calls_first rfl
  have hvalue : Calls (body oneStackEnvironment selfReferring noSchema)
      (.localShape "a" ⟨["m"],none⟩) (.shape localA ⟨["m"],none⟩) := calls_first rfl
  exact not_onCycle_of_terminates h (.single hstart) (.tail (.single hread) hvalue)

end selfReference
end ValueShape
end TerraformLs
