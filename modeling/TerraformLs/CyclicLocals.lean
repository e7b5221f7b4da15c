import Mathlib.Data.Finset.Card
import Mathlib.Data.List.TakeWhile
import TerraformLs.Hcl
import TerraformLs.KeyedMap
import TerraformLs.Rope
import TerraformLs.Walks

/-! Dependency cycles among the locals of a file: how the definitions are
collected, the depth-first search for a cycle, and the files in which every
local on a cycle is reported. -/
namespace TerraformLs

inductive DiagnosticSeverity
  | error | warning | information | hint
  deriving DecidableEq

structure Diagnostic where
  range : Range
  severity : Option DiagnosticSeverity
  source : Option String
  message : String
  deriving DecidableEq

namespace CyclicLocals

/-- The dependencies of a local, in the order the set is walked. -/
structure LocalDef where
  deps : List String
  range : Range
  deriving DecidableEq

abbrev Defs := KeyedMap String LocalDef

section collect

mutual

/-- An expression and its sub-expressions, in the order they are visited. Names
of object keys and the directives of templates are not visited. -/
def visitExpr : Expression → List Expression
  | .array items => .array items :: visitExprs items
  | .object entries => .object entries :: visitEntries entries
  | .parenthesis inner => .parenthesis inner :: visitExpr inner
  | .conditional cond whenTrue whenFalse =>
    .conditional cond whenTrue whenFalse ::
      (visitExpr cond ++ visitExpr whenTrue ++ visitExpr whenFalse)
  | .funcCall ns name args => .funcCall ns name args :: visitExprs args
  | .traversal expr operators =>
    .traversal expr operators :: (visitExpr expr ++ visitOperators operators)
  | .unaryOp op operand => .unaryOp op operand :: visitExpr operand
  | .binaryOp lhs op rhs => .binaryOp lhs op rhs :: (visitExpr lhs ++ visitExpr rhs)
  | .forExpr keyVar valueVar collection keyExpr valueExpr grouping cond =>
    .forExpr keyVar valueVar collection keyExpr valueExpr grouping cond ::
      (visitExpr collection ++ visitOption keyExpr ++ visitExpr valueExpr ++ visitOption cond)
  | .stringTemplate elements => .stringTemplate elements :: visitElements elements
  | .heredocTemplate elements => .heredocTemplate elements :: visitElements elements
  | .null => [.null]
  | .bool value => [.bool value]
  | .number digits => [.number digits]
  | .string value => [.string value]
  | .variable name => [.variable name]

def visitExprs : List Expression → List Expression
  | [] => []
  | e::es => visitExpr e ++ visitExprs es

def visitEntries : List (ObjectKey × Expression) → List Expression
  | [] => []
  | (.ident _,value)::entries => visitExpr value ++ visitEntries entries
  | (.expression key,value)::entries => visitExpr key ++ visitExpr value ++ visitEntries entries

def visitOperators : List TraversalOperator → List Expression
  | [] => []
  | .index idx::operators => visitExpr idx ++ visitOperators operators
  | .attrSplat::operators => visitOperators operators
  | .fullSplat::operators => visitOperators operators
  | .getAttr _::operators => visitOperators operators
  | .legacyIndex _::operators => visitOperators operators

def visitOption : Option Expression → List Expression
  | some e => visitExpr e
  | none => []

def visitElements : List Element → List Expression
  | [] => []
  | .interpolation e::elements => visitExpr e ++ visitElements elements
  | .literal _::elements => visitElements elements
  | .directive _::elements => visitElements elements

end

/-- The name in `local.name[...]`. -/
def referencedLocal : Expression → Option String
  | .traversal (.variable v) (.getAttr name::_) => if v = "local" then some name else none
  | _ => none

/-- Insert into a set, kept in insertion order. -/
def insertDep (deps : List String) (dep : String) : List String :=
  if dep ∈ deps then deps else deps ++ [dep]

def depsOf (value : Expression) : List String :=
  ((visitExpr value).filterMap referencedLocal).foldl insertDep []

/-- A later definition of the same name wins the range; the dependencies add up. -/
def collectLocal (rope : Rope) (defs : Defs) : Structure → Defs
  | .block _ _ _ => defs
  | .attribute _ none _ => defs
  | .attribute name (some span) value =>
    match rope.hclSpanToLspRange span with
    | .error _ => defs
    | .ok range =>
      let deps := depsOf value
      let depUnion := match defs.lookup name with
        | some d => deps.foldl insertDep d.deps
        | none => deps
      defs.insert name ⟨depUnion,range⟩

def collectLocals (body : Body) (rope : Rope) : Defs :=
  body.foldl (fun defs item => match item with
    | .block ident _ entries =>
      if ident = "locals" then entries.foldl (collectLocal rope) defs else defs
    | .attribute _ _ _ => defs) ∅

end collect

section search

/-- The path being walked, the names on it, and the names entered so far. -/
structure Search where
  stack : List String := []
  onStack : Finset String := ∅
  visited : Finset String := ∅

/-- Trim the path to the part that starts at `dep`. -/
def drainTo (dep : String) (stack : List String) : List String :=
  if dep ∈ stack then stack.dropWhile (· ≠ dep) else stack

/-- Go through the dependencies of a node; `search` enters one of them. -/
def visitDeps (defs : Defs) (search : String → Search → Option (Bool × Search)) :
    List String → Search → Option (Bool × Search)
  | [], s => some (false,s)
  | dep::deps, s =>
    if (defs.lookup dep).isNone then visitDeps defs search deps s
    else if dep ∈ s.onStack then some (true,{ s with stack := drainTo dep s.stack })
    else if dep ∈ s.visited then visitDeps defs search deps s
    else match search dep { s with visited := insert dep s.visited } with
      | none => none
      | some (true,s) => some (true,s)
      | some (false,s) => visitDeps defs search deps s

/-- Depth-first search; the fuel bounds the depth of the recursion. -/
def dfs (defs : Defs) : ℕ → String → Search → Option (Bool × Search)
  | 0, _, _ => none
  | fuel+1, node, s =>
    let s := { s with stack := s.stack ++ [node], onStack := insert node s.onStack }
    let deps := match defs.lookup node with
      | some d => d.deps
      | none => []
    match visitDeps defs (dfs defs fuel) deps s with
    | none => none
    | some (true,s) => some (true,s)
    | some (false,s) =>
      some (false,{ s with stack := s.stack.dropLast, onStack := s.onStack.erase node })

/-- One level of recursion for each name is enough. -/
def findCycleFrom (start : String) (defs : Defs) : Option (List String) :=
  match dfs defs (defs.keys.length + 1) start {} with
  | some (true,s) => some s.stack
  | _ => none

end search

def renderPath (path : List String) : String :=
  let parts := path.map fun n => "local." ++ n
  " -> ".intercalate (parts ++ parts.head?.toList)

def cycleDiagnostic (member rendered : String) (d : LocalDef) : Diagnostic where
  range := d.range
  severity := some .error
  source := some "terraform-ls-rs"
  message := "`local." ++ member ++ "` is part of a dependency cycle: " ++ rendered

/-- The names reported so far and their diagnostics. -/
structure Reports where
  reported : Finset String := ∅
  out : List (String × Diagnostic) := []

def reportMember (defs : Defs) (rendered : String) (reports : Reports) (member : String) :
    Reports :=
  if member ∈ reports.reported then reports else
    { reported := insert member reports.reported
      out := match defs.lookup member with
        | some d => reports.out ++ [(member,cycleDiagnostic member rendered d)]
        | none => reports.out }

def reportFrom (defs : Defs) (reports : Reports) (name : String) : Reports :=
  if name ∈ reports.reported then reports else
    match findCycleFrom name defs with
    | some path => path.foldl (reportMember defs (renderPath path)) reports
    | none => reports

/-- Every diagnostic, with the local it is about. -/
def report (defs : Defs) : List (String × Diagnostic) :=
  (defs.keys.foldl (reportFrom defs) {}).out

def byPosition (d d' : Diagnostic) : Bool :=
  d.range.start.line < d'.range.start.line ||
    (d.range.start.line == d'.range.start.line &&
      d.range.start.character ≤ d'.range.start.character)

def cyclicLocalsDiagnostics (body : Body) (rope : Rope) : List Diagnostic :=
  let defs := collectLocals body rope
  if defs.keys = [] then [] else ((report defs).map Prod.snd).mergeSort byPosition

open Walks Relation

/-- `a` refers to `b`, and both are locals of the file. -/
def Edge (defs : Defs) (a b : String) : Prop :=
  ∃ d, defs.lookup a = some d ∧ b ∈ d.deps ∧ (defs.lookup b).isSome

theorem Edge.left {defs : Defs} {a b : String} (h : Edge defs a b) : (defs.lookup a).isSome := by
  obtain ⟨d,hd,-⟩ := h
  simp [hd]

theorem isSome_of_onCycle {defs : Defs} {a : String} (h : OnCycle (Edge defs) a) :
    (defs.lookup a).isSome := by
  obtain ⟨b,hab,-⟩ := TransGen.head'_iff.mp h
  exact hab.left

section fuel

/-- The names a search has not entered. -/
def unvisited (defs : Defs) (s : Search) : ℕ := (defs.keys.toFinset \ s.visited).card

theorem unvisited_mono {defs : Defs} {s t : Search} (h : s.visited ⊆ t.visited) :
    unvisited defs t ≤ unvisited defs s :=
  Finset.card_le_card (Finset.sdiff_subset_sdiff (Finset.Subset.refl _) h)

theorem unvisited_insert {defs : Defs} {s : Search} {dep : String}
    (hd : (defs.lookup dep).isSome) (hv : dep ∉ s.visited) :
    unvisited defs { s with visited := insert dep s.visited } < unvisited defs s := by
  refine Finset.card_lt_card ⟨Finset.sdiff_subset_sdiff (Finset.Subset.refl _)
    (Finset.subset_insert _ _),fun hsub => ?_⟩
  have hk : dep ∈ defs.keys.toFinset := List.mem_toFinset.mpr (AList.lookup_isSome.mp hd)
  have := hsub (Finset.mem_sdiff.mpr ⟨hk,hv⟩)
  simp at this

/-- If the search enters names without running out, so does the walk over the dependencies. -/
theorem visitDeps_isSome {defs : Defs} {search : String → Search → Option (Bool × Search)} {k : ℕ}
    (hsearch : ∀ dep s, unvisited defs s < k →
      ∃ r, search dep s = some r ∧ s.visited ⊆ r.2.visited)
    (deps : List String) {s : Search} (hs : unvisited defs s ≤ k) :
    ∃ r, visitDeps defs search deps s = some r ∧ s.visited ⊆ r.2.visited := by
  induction deps generalizing s with
  | nil => exact ⟨_,rfl,Finset.Subset.refl _⟩
  | cons dep deps ih =>
    unfold visitDeps
    split_ifs with hnone hon hv
    · exact ih hs
    · exact ⟨_,rfl,Finset.Subset.refl _⟩
    · exact ih hs
    · have hd : (defs.lookup dep).isSome := by simpa [Option.isSome_iff_ne_none] using hnone
      have hlt := unvisited_insert hd hv
      obtain ⟨⟨b,t⟩,he,hsub⟩ := hsearch dep { s with visited := insert dep s.visited } (by omega)
      have hsub' : s.visited ⊆ t.visited := (Finset.subset_insert _ _).trans hsub
      rw [he]
      cases b with
      | true => exact ⟨_,rfl,hsub'⟩
      | false =>
        obtain ⟨r,hr,hrs⟩ := ih (s:=t) ((unvisited_mono hsub').trans hs)
        exact ⟨r,hr,hsub'.trans hrs⟩

/-- The search never runs out when its fuel exceeds the names left to enter. -/
theorem dfs_isSome (defs : Defs) (fuel : ℕ) (node : String) (s : Search)
    (h : unvisited defs s < fuel) :
    ∃ r, dfs defs fuel node s = some r ∧ s.visited ⊆ r.2.visited := by
  induction fuel generalizing node s with
  | zero => omega
  | succ fuel ih =>
    unfold dfs
    dsimp only
    obtain ⟨⟨b,t⟩,he,hsub⟩ := visitDeps_isSome (k:=fuel) ih
      (match defs.lookup node with
        | some d => d.deps
        | none => [])
      (s:={ s with stack := s.stack ++ [node], onStack := insert node s.onStack })
      (Nat.lt_succ_iff.mp h)
    rw [he]
    cases b <;> exact ⟨_,rfl,hsub⟩

end fuel

section correctness

/-- No walk from here goes on forever. -/
def Dead (defs : Defs) (a : String) : Prop := Acc (fun b a => Edge defs a b) a

/-- The path is a walk, and what has been entered and left again is dead. -/
structure Ready (defs : Defs) (s : Search) : Prop where
  onStack : ∀ x, x ∈ s.onStack ↔ x ∈ s.stack
  chain : s.stack.IsChain (Edge defs)
  settled : ∀ x ∈ s.visited, x ∈ s.stack ∨ Dead defs x

/-- A search about to enter `node`. -/
structure Entering (defs : Defs) (node : String) (s : Search) : Prop where
  fresh : node ∉ s.stack
  onStack : ∀ x, x ∈ s.onStack ↔ x ∈ s.stack
  chain : (s.stack ++ [node]).IsChain (Edge defs)
  settled : ∀ x ∈ s.visited, x = node ∨ x ∈ s.stack ∨ Dead defs x

/-- The path found is a closed walk, and walking on from `stack` leads to it. -/
structure Found (defs : Defs) (stack : List String) (s : Search) : Prop where
  closed : ClosedWalk (Edge defs) s.stack
  onWalk : ∃ pre, (pre ++ s.stack).IsChain (Edge defs) ∧ stack <+: pre ++ s.stack

/-- The search came back where it was, and all it entered is dead. -/
structure Exhausted (defs : Defs) (s s' : Search) : Prop where
  stack : s'.stack = s.stack
  onStack : s'.onStack = s.onStack
  settled : ∀ x ∈ s'.visited, x ∈ s.stack ∨ Dead defs x

variable {defs : Defs}

theorem Entering.push {node : String} {s : Search} (h : Entering defs node s) :
    Ready defs { s with stack := s.stack ++ [node], onStack := insert node s.onStack } where
  onStack x := by
    rw [Finset.mem_insert,h.onStack,List.mem_append,List.mem_singleton,or_comm]
  chain := h.chain
  settled x hx := by
    rcases h.settled x hx with rfl | hx | hx
    · exact .inl (by simp)
    · exact .inl (by simp [hx])
    · exact .inr hx

/-- A dependency on the path closes a walk. -/
theorem found_onStack {s : Search} (h : Ready defs s) {node dep : String}
    (hlast : s.stack.getLast? = some node) (he : Edge defs node dep) (hdep : dep ∈ s.onStack) :
    Found defs s.stack { s with stack := drainTo dep s.stack } := by
  have hmem : dep ∈ s.stack := (h.onStack dep).mp hdep
  have hdrain : drainTo dep s.stack = s.stack.dropWhile (· ≠ dep) := if_pos hmem
  have hsplit : s.stack.takeWhile (· ≠ dep) ++ drainTo dep s.stack = s.stack := by
    rw [hdrain,List.takeWhile_append_dropWhile]
  have hne : drainTo dep s.stack ≠ [] := by
    rw [hdrain]
    intro hnil
    have := List.dropWhile_eq_nil_iff.mp hnil dep hmem
    simp at this
  have hhead : (drainTo dep s.stack).head? = some dep := by
    have := List.head?_dropWhile_not (· ≠ dep) s.stack
    rw [← hdrain] at this
    cases hd : drainTo dep s.stack with
    | nil => exact absurd hd hne
    | cons x xs => simpa [hd] using this
  constructor
  · refine ⟨?_,dep,node,hhead,?_,he⟩
    · have hc := h.chain
      rw [← hsplit] at hc
      exact (List.isChain_append.mp hc).2.1
    · rw [← hsplit,List.getLast?_append_of_ne_nil _ hne] at hlast
      exact hlast
  · exact ⟨s.stack.takeWhile (· ≠ dep),by simpa only [hsplit] using h.chain,
      by simp only [hsplit]; exact List.prefix_rfl⟩

/-- What entering a node must guarantee. -/
def Enters (defs : Defs) (search : String → Search → Option (Bool × Search)) : Prop :=
  ∀ node s, Entering defs node s →
    (∀ s', search node s = some (true,s') → Found defs (s.stack ++ [node]) s') ∧
      ∀ s', search node s = some (false,s') → Exhausted defs s s' ∧ Dead defs node

theorem visitDeps_spec {search : String → Search → Option (Bool × Search)}
    (hsearch : Enters defs search) {node : String} (deps : List String)
    (hedge : ∀ dep ∈ deps, (defs.lookup dep).isSome → Edge defs node dep) {s : Search}
    (hs : Ready defs s) (hlast : s.stack.getLast? = some node) :
    (∀ s', visitDeps defs search deps s = some (true,s') → Found defs s.stack s') ∧
      ∀ s', visitDeps defs search deps s = some (false,s') → Exhausted defs s s' ∧
        ∀ dep ∈ deps, (defs.lookup dep).isSome → Dead defs dep := by
  induction deps generalizing s with
  | nil =>
    constructor
    · rintro s' ⟨⟩
    · rintro s' ⟨⟩
      exact ⟨⟨rfl,rfl,hs.settled⟩,by simp⟩
  | cons dep deps ih =>
    have hedge' : ∀ d ∈ deps, (defs.lookup d).isSome → Edge defs node d :=
      fun d hd => hedge d (List.mem_cons_of_mem dep hd)
    have ih := @ih hedge'
    unfold visitDeps
    split_ifs with hnone hon hv
    · obtain ⟨ht,hf⟩ := ih hs hlast
      refine ⟨ht,fun s' h => ?_⟩
      obtain ⟨hex,hdead⟩ := hf s' h
      refine ⟨hex,fun d hd hsome => ?_⟩
      rcases List.mem_cons.mp hd with rfl | hd
      · simp [Option.isNone_iff_eq_none.mp hnone] at hsome
      · exact hdead d hd hsome
    · have hsome : (defs.lookup dep).isSome := by
        simpa [Option.isSome_iff_ne_none] using hnone
      constructor
      · rintro s' ⟨⟩
        exact found_onStack hs hlast (hedge dep List.mem_cons_self hsome) hon
      · rintro s' ⟨⟩
    · obtain ⟨ht,hf⟩ := ih hs hlast
      refine ⟨ht,fun s' h => ?_⟩
      obtain ⟨hex,hdead⟩ := hf s' h
      refine ⟨hex,fun d hd hsome => ?_⟩
      rcases List.mem_cons.mp hd with rfl | hd
      · -- entered before and no longer on the path
        exact (hs.settled d hv).resolve_left fun hin => hon ((hs.onStack d).mpr hin)
      · exact hdead d hd hsome
    · have hsome : (defs.lookup dep).isSome := by
        simpa [Option.isSome_iff_ne_none] using hnone
      have he := hedge dep List.mem_cons_self hsome
      have hent : Entering defs dep { s with visited := insert dep s.visited } := by
        refine ⟨fun h => hon ((hs.onStack dep).mpr h),hs.onStack,?_,fun x hx => ?_⟩
        · refine List.isChain_append.mpr ⟨hs.chain,.singleton dep,fun x hx y hy => ?_⟩
          rw [hlast] at hx
          cases hx
          cases hy
          exact he
        · rcases Finset.mem_insert.mp hx with rfl | hx
          · exact .inl rfl
          · exact .inr (hs.settled x hx)
      obtain ⟨ht,hf⟩ := hsearch dep _ hent
      cases hres : search dep { s with visited := insert dep s.visited } with
      | none => exact ⟨fun _ h => (by cases h),fun _ h => (by cases h)⟩
      | some r =>
        obtain ⟨b,t⟩ := r
        cases b with
        | true =>
          have hfound := ht t hres
          refine ⟨fun s' h => ?_,fun _ h => (by cases h)⟩
          cases h
          obtain ⟨pre,hchain,hpre⟩ := hfound.onWalk
          exact ⟨hfound.closed,pre,hchain,(List.prefix_append _ _).trans hpre⟩
        | false =>
          obtain ⟨hex,hdead⟩ := hf t hres
          have hstack : t.stack = s.stack := hex.stack
          have hready : Ready defs t := by
            refine ⟨fun x => ?_,hstack ▸ hs.chain,fun x hx => ?_⟩
            · rw [hex.onStack,hstack]
              exact hs.onStack x
            · rw [hstack]
              exact hex.settled x hx
          obtain ⟨ht',hf'⟩ := ih hready (hstack ▸ hlast)
          refine ⟨fun s' h => hstack ▸ ht' s' h,fun s' h => ?_⟩
          obtain ⟨hex',hdead'⟩ := hf' s' h
          refine ⟨⟨hex'.stack.trans hstack,hex'.onStack.trans hex.onStack,fun x hx => ?_⟩,
            fun d hd hsome' => ?_⟩
          · rw [← hstack]
            exact hex'.settled x hx
          · rcases List.mem_cons.mp hd with rfl | hd
            · exact hdead
            · exact hdead' d hd hsome'

theorem dfs_spec (defs : Defs) (fuel : ℕ) : Enters defs (dfs defs fuel) := by
  induction fuel with
  | zero => exact fun node s _ => ⟨fun _ h => (by cases h),fun _ h => (by cases h)⟩
  | succ fuel ih =>
    intro node s hs
    have hedge : ∀ dep ∈ (match defs.lookup node with
        | some d => d.deps
        | none => []), (defs.lookup dep).isSome → Edge defs node dep := by
      intro dep hdep hsome
      cases hd : defs.lookup node with
      | none => simp [hd] at hdep
      | some d => exact ⟨d,hd,by simpa [hd] using hdep,hsome⟩
    obtain ⟨ht,hf⟩ := visitDeps_spec ih _ hedge hs.push (by simp)
    unfold dfs
    dsimp only
    cases hres : visitDeps defs (dfs defs fuel) (match defs.lookup node with
        | some d => d.deps
        | none => []) { s with stack := s.stack ++ [node], onStack := insert node s.onStack } with
    | none => exact ⟨fun _ h => (by cases h),fun _ h => (by cases h)⟩
    | some r =>
      obtain ⟨b,t⟩ := r
      cases b with
      | true =>
        refine ⟨fun s' h => ?_,fun _ h => (by cases h)⟩
        cases h
        exact ht t hres
      | false =>
        refine ⟨fun _ h => (by cases h),fun s' h => ?_⟩
        cases h
        obtain ⟨hex,hdead⟩ := hf t hres
        have hdeadNode : Dead defs node := by
          refine Acc.intro node fun dep he => ?_
          obtain ⟨d,hd,hin,hsome⟩ := he
          exact hdead dep (by simpa [hd] using hin) hsome
        refine ⟨⟨?_,?_,fun x hx => ?_⟩,hdeadNode⟩
        · simp [hex.stack]
        · have hnode : node ∉ s.onStack := fun h => hs.fresh ((hs.onStack node).mp h)
          simp [hex.onStack,hnode]
        · rcases hex.settled x hx with hx | hx
          · rcases List.mem_append.mp hx with hx | hx
            · exact .inl hx
            · rw [List.mem_singleton.mp hx]
              exact .inr hdeadNode
          · exact .inr hx

theorem entering_start (defs : Defs) (start : String) : Entering defs start {} :=
  ⟨by simp,by simp,by simp,by simp⟩

/-- A path that is found is a closed walk within reach of the start. -/
theorem findCycleFrom_some {start : String} {path : List String}
    (h : findCycleFrom start defs = some path) :
    ClosedWalk (Edge defs) path ∧ ∀ a ∈ path, ReflTransGen (Edge defs) start a := by
  unfold findCycleFrom at h
  split at h
  · rename_i s hs
    cases h
    have hfound := ((dfs_spec defs _ start {} (entering_start defs start)).1 s hs)
    refine ⟨hfound.closed,fun a ha => ?_⟩
    obtain ⟨pre,hchain,rest,hrest⟩ := hfound.onWalk
    rw [← hrest] at hchain
    refine reaches_of_chain hchain ?_
    change a ∈ [] ++ [start] ++ rest
    rw [hrest]
    exact List.mem_append_right _ ha
  · cases h

/-- When no path is found, no walk from the start goes on forever. -/
theorem findCycleFrom_none {start : String} (h : findCycleFrom start defs = none) :
    Dead defs start := by
  have hfuel : unvisited defs {} < defs.keys.length + 1 := by
    have := List.toFinset_card_le defs.keys
    simp only [unvisited,Finset.sdiff_empty]
    omega
  obtain ⟨⟨b,t⟩,he,-⟩ := dfs_isSome defs _ start {} hfuel
  cases b with
  | true => simp [findCycleFrom,he] at h
  | false => exact ((dfs_spec defs _ start {} (entering_start defs start)).2 t he).2

end correctness

section report

variable {defs : Defs}

/-- Each reported name has exactly one diagnostic. -/
structure Reports.Matched (reports : Reports) : Prop where
  nodup : (reports.out.map Prod.fst).Nodup
  mem : ∀ m, m ∈ reports.reported ↔ m ∈ reports.out.map Prod.fst

theorem Reports.matched_empty : Reports.Matched {} := ⟨by simp,by simp⟩

theorem reportMember_spec {reports : Reports} (h : reports.Matched) (rendered : String)
    {member : String} (hm : (defs.lookup member).isSome) :
    (reportMember defs rendered reports member).Matched ∧
      ∀ m, m ∈ (reportMember defs rendered reports member).reported ↔
        m = member ∨ m ∈ reports.reported := by
  obtain ⟨d,hd⟩ := Option.isSome_iff_exists.mp hm
  unfold reportMember
  split_ifs with hin
  · refine ⟨h,fun m => ⟨.inr,?_⟩⟩
    rintro (rfl | hm)
    · exact hin
    · exact hm
  · rw [hd]
    refine ⟨⟨?_,fun m => ?_⟩,fun m => Finset.mem_insert⟩
    · have hout : member ∉ reports.out.map Prod.fst := fun hm => hin ((h.mem member).mpr hm)
      rw [List.map_append,List.nodup_append]
      refine ⟨h.nodup,List.nodup_singleton _,fun a ha b hb hab => hout ?_⟩
      rw [List.map_singleton,List.mem_singleton] at hb
      rwa [hab,hb] at ha
    · simp only [Finset.mem_insert,h.mem,List.map_append,List.mem_append,List.map_singleton,
        List.mem_singleton,or_comm]

theorem reportPath_spec {reports : Reports} (h : reports.Matched) (rendered : String)
    {path : List String} (hpath : ∀ m ∈ path, (defs.lookup m).isSome) :
    (path.foldl (reportMember defs rendered) reports).Matched ∧
      ∀ m, m ∈ (path.foldl (reportMember defs rendered) reports).reported ↔
        m ∈ path ∨ m ∈ reports.reported := by
  induction path generalizing reports with
  | nil => simp [h]
  | cons member path ih =>
    obtain ⟨h1,hm1⟩ := reportMember_spec h rendered (hpath member List.mem_cons_self)
    obtain ⟨h2,hm2⟩ := ih h1 fun m hm => hpath m (List.mem_cons_of_mem member hm)
    refine ⟨h2,fun m => ?_⟩
    rw [List.foldl_cons,hm2,hm1,List.mem_cons]
    tauto

/-- What one start adds: the path found from it, unless it was reported before. -/
theorem reportFrom_spec (defs : Defs) {reports : Reports} (h : reports.Matched) (name : String) :
    (reportFrom defs reports name).Matched ∧
      (∀ m ∈ reports.reported, m ∈ (reportFrom defs reports name).reported) ∧
      (∀ m ∈ (reportFrom defs reports name).reported, m ∈ reports.reported ∨
        ∃ path, findCycleFrom name defs = some path ∧ m ∈ path) ∧
      (name ∈ (reportFrom defs reports name).reported ∨ Dead defs name ∨
        ∃ path, findCycleFrom name defs = some path ∧
          ∀ m ∈ path, m ∈ (reportFrom defs reports name).reported) := by
  unfold reportFrom
  split_ifs with hin
  · exact ⟨h,fun _ hm => hm,fun _ hm => .inl hm,.inl hin⟩
  · cases hfind : findCycleFrom name defs with
    | none => exact ⟨h,fun _ hm => hm,fun _ hm => .inl hm,.inr (.inl (findCycleFrom_none hfind))⟩
    | some path =>
      have hpath : ∀ m ∈ path, (defs.lookup m).isSome := fun m hm =>
        isSome_of_onCycle ((findCycleFrom_some hfind).1.onCycle hm)
      obtain ⟨h',hm'⟩ := reportPath_spec h (renderPath path) hpath
      refine ⟨h',fun m hm => (hm' m).mpr (.inr hm),fun m hm => ?_,?_⟩
      · exact ((hm' m).mp hm).symm.imp_right fun hm => ⟨path,rfl,hm⟩
      · exact .inr (.inr ⟨path,rfl,fun m hm => (hm' m).mpr (.inl hm)⟩)

theorem reportAll_spec (defs : Defs) (names : List String) {reports : Reports} (h : reports.Matched) :
    (names.foldl (reportFrom defs) reports).Matched ∧
      (∀ m ∈ reports.reported, m ∈ (names.foldl (reportFrom defs) reports).reported) ∧
      (∀ m ∈ (names.foldl (reportFrom defs) reports).reported, m ∈ reports.reported ∨
        ∃ start path, findCycleFrom start defs = some path ∧ m ∈ path) ∧
      ∀ name ∈ names, name ∈ (names.foldl (reportFrom defs) reports).reported ∨ Dead defs name ∨
        ∃ path, findCycleFrom name defs = some path ∧
          ∀ m ∈ path, m ∈ (names.foldl (reportFrom defs) reports).reported := by
  induction names generalizing reports with
  | nil => exact ⟨h,fun _ hm => hm,fun _ hm => .inl hm,by simp⟩
  | cons name names ih =>
    obtain ⟨h1,hsub1,hsound1,hdone1⟩ := reportFrom_spec defs h name
    obtain ⟨h2,hsub2,hsound2,hdone2⟩ := ih h1
    rw [List.foldl_cons]
    refine ⟨h2,fun m hm => hsub2 m (hsub1 m hm),fun m hm => ?_,fun other hother => ?_⟩
    · rcases hsound2 m hm with hm | hm
      · exact (hsound1 m hm).imp_right fun ⟨path,hp⟩ => ⟨name,path,hp⟩
      · exact .inr hm
    · rcases List.mem_cons.mp hother with rfl | hother
      · rcases hdone1 with hin | hdead | ⟨path,hfind,hpath⟩
        · exact .inl (hsub2 _ hin)
        · exact .inr (.inl hdead)
        · exact .inr (.inr ⟨path,hfind,fun m hm => hsub2 m (hpath m hm)⟩)
      · exact hdone2 other hother

/-- The names that get a diagnostic. -/
def reportedNames (defs : Defs) : List String := (report defs).map Prod.fst

theorem reportedNames_nodup (defs : Defs) : (reportedNames defs).Nodup :=
  (reportAll_spec defs defs.keys Reports.matched_empty).1.nodup

theorem mem_reportedNames {m : String} (h : m ∈ reportedNames defs) :
    ∃ start path, findCycleFrom start defs = some path ∧ m ∈ path := by
  obtain ⟨hmatch,-,hsound,-⟩ :=
    reportAll_spec defs defs.keys Reports.matched_empty
  simpa using hsound m ((hmatch.mem m).mpr h)

theorem reportedNames_complete {n : String} (h : (defs.lookup n).isSome) :
    n ∈ reportedNames defs ∨ Dead defs n ∨
      ∃ path, findCycleFrom n defs = some path ∧ ∀ m ∈ path, m ∈ reportedNames defs := by
  obtain ⟨hmatch,-,-,hdone⟩ :=
    reportAll_spec defs defs.keys Reports.matched_empty
  have hkey : n ∈ defs.keys := AList.lookup_isSome.mp h
  rcases hdone n hkey with hin | hdead | ⟨path,hfind,hpath⟩
  · exact .inl ((hmatch.mem n).mp hin)
  · exact .inr (.inl hdead)
  · exact .inr (.inr ⟨path,hfind,fun m hm => (hmatch.mem m).mp (hpath m hm)⟩)

end report

section exactness

/-- Each name on a cycle is reported once, and no other name is. -/
structure Exact (defs : Defs) : Prop where
  once : (reportedNames defs).Nodup
  onCycle : ∀ n, n ∈ reportedNames defs ↔ OnCycle (Edge defs) n

/-- The same definitions, walked in another order. -/
def Reordered (defs defs' : Defs) : Prop :=
  ∀ name, Option.Rel (fun d d' : LocalDef => d.range = d'.range ∧ d.deps.Perm d'.deps)
    (defs.lookup name) (defs'.lookup name)

theorem Reordered.edge {defs defs' : Defs} (h : Reordered defs defs') :
    Edge defs' = Edge defs := by
  have hsome : ∀ name, (defs'.lookup name).isSome = (defs.lookup name).isSome := by
    intro name
    have hn := h name
    cases hd : defs.lookup name <;> cases hd' : defs'.lookup name <;> rw [hd,hd'] at hn <;>
      first | rfl | cases hn
  funext a b
  apply propext
  have ha := h a
  unfold Edge
  rw [hsome b]
  cases hd : defs.lookup a with
  | none =>
    rw [hd] at ha
    cases hd' : defs'.lookup a with
    | none => simp
    | some d' => rw [hd'] at ha; cases ha
  | some d =>
    rw [hd] at ha
    cases hd' : defs'.lookup a with
    | none => rw [hd'] at ha; cases ha
    | some d' =>
      rw [hd'] at ha
      obtain ⟨-,hp⟩ := Option.rel_some_some.mp ha
      simp [hp.mem_iff]

/-- Where every cycle in reach of a name on a cycle goes through that name, the
report is exact. -/
theorem exact_of_noEscape {defs : Defs}
    (h : ∀ n c, OnCycle (Edge defs) n → ReflTransGen (Edge defs) n c →
      ¬ OnCycle (Avoiding (Edge defs) n) c) : Exact defs where
  once := reportedNames_nodup defs
  onCycle n := by
    constructor
    · intro hn
      obtain ⟨start,path,hfind,hin⟩ := mem_reportedNames hn
      exact (findCycleFrom_some hfind).1.onCycle hin
    · intro hn
      rcases reportedNames_complete (isSome_of_onCycle hn) with hin | hdead | ⟨path,hfind,hpath⟩
      · exact hin
      · exact absurd hn (not_onCycle_of_acc hdead)
      · obtain ⟨hclosed,hreach⟩ := findCycleFrom_some hfind
        by_contra hnot
        have hnp : n ∉ path := fun hin => hnot (hpath n hin)
        obtain ⟨a,b,ha,hb⟩ := hclosed.closes
        have hmem : a ∈ path := List.mem_of_head? ha
        exact h n a hn (hreach a hmem) ((hclosed.avoiding hnp).onCycle hmem)

end exactness

section escape

/-- From `n`, and from each name of `B`, the first dependency walked is in `B`. -/
structure LedInto (defs : Defs) (n : String) (B : String → Prop) : Prop where
  avoids : ¬ B n
  first : ∀ a, B a ∨ a = n → ∃ d dep rest, defs.lookup a = some d ∧ d.deps = dep :: rest ∧
    B dep ∧ (defs.lookup dep).isSome

/-- The path has come into `B` and not left it. -/
structure Inside (B : String → Prop) (node : String) (s : Search) : Prop where
  inB : B node
  onStack : ∀ x, x ∈ s.onStack ↔ x ∈ s.stack
  split : ∃ pre suf, s.stack = pre ++ suf ∧ (∀ x ∈ pre, ¬ B x) ∧ ∀ x ∈ suf, B x
  visited : ∀ x ∈ s.visited, B x → x = node ∨ x ∈ s.stack

/-- The path has met neither `B` nor `n`. -/
structure Outside (B : String → Prop) (n : String) (s : Search) : Prop where
  onStack : ∀ x, x ∈ s.onStack ↔ x ∈ s.stack
  stack : ∀ x ∈ s.stack, ¬ B x ∧ x ≠ n
  visited : ∀ x ∈ s.visited, ¬ B x

variable {defs : Defs} {n : String} {B : String → Prop}

theorem mem_drainTo_append {dep x : String} {pre suf : List String} (hpre : dep ∉ pre)
    (hsuf : dep ∈ suf) (h : x ∈ drainTo dep (pre ++ suf)) : x ∈ suf := by
  have hall : ∀ y ∈ pre, (decide (y ≠ dep)) = true := fun y hy =>
    decide_eq_true fun he => hpre (he ▸ hy)
  rw [drainTo,if_pos (List.mem_append_right pre hsuf),List.dropWhile_append_of_pos hall] at h
  exact (List.dropWhile_sublist _).subset h

theorem mem_of_mem_drainTo {dep x : String} {stack : List String}
    (h : x ∈ drainTo dep stack) : x ∈ stack := by
  unfold drainTo at h
  split_ifs at h
  · exact (List.dropWhile_sublist _).subset h
  · exact h

/-- Inside `B` the search closes a walk without looking further. -/
theorem dfs_inside (hB : LedInto defs n B) (fuel : ℕ) {node : String} {s : Search}
    (hs : Inside B node s) {r : Bool × Search} (h : dfs defs fuel node s = some r) :
    r.1 = true ∧ ∀ x ∈ r.2.stack, B x := by
  induction fuel generalizing node s r with
  | zero => cases h
  | succ fuel ih =>
    obtain ⟨d,dep,rest,hd,hdeps,hdep,hsome⟩ := hB.first node (.inl hs.inB)
    obtain ⟨pre,suf,hstack,hpre,hsuf⟩ := hs.split
    have hnone : ¬ (defs.lookup dep).isNone := by
      simpa [Option.isSome_iff_ne_none] using hsome
    have hstack' : s.stack ++ [node] = pre ++ (suf ++ [node]) := by
      rw [hstack,List.append_assoc]
    have hsuf' : ∀ x ∈ suf ++ [node], B x := by
      intro x hx
      rcases List.mem_append.mp hx with hx | hx
      · exact hsuf x hx
      · rw [List.mem_singleton.mp hx]
        exact hs.inB
    have hon : ∀ x, x ∈ insert node s.onStack ↔ x ∈ s.stack ++ [node] := by
      intro x
      rw [Finset.mem_insert,hs.onStack,List.mem_append,List.mem_singleton,or_comm]
    unfold dfs at h
    simp only [hd,hdeps,visitDeps,hnone,Bool.false_eq_true,↓reduceIte] at h
    by_cases hin : dep ∈ insert node s.onStack
    · rw [if_pos hin] at h
      cases h
      refine ⟨rfl,fun x hx => hsuf' x ?_⟩
      have hmem : dep ∈ pre ++ (suf ++ [node]) := hstack' ▸ (hon dep).mp hin
      have hdpre : dep ∉ pre := fun hp => hpre dep hp hdep
      dsimp only at hx
      rw [hstack'] at hx
      exact mem_drainTo_append hdpre ((List.mem_append.mp hmem).resolve_left hdpre) hx
    · have hv : dep ∉ s.visited := by
        intro hv
        rcases hs.visited dep hv hdep with rfl | hm
        · exact hin (Finset.mem_insert_self _ _)
        · exact hin ((hon dep).mpr (List.mem_append_left _ hm))
      rw [if_neg hin,if_neg hv] at h
      have hnext : Inside B dep { stack := s.stack ++ [node], onStack := insert node s.onStack,
                                  visited := insert dep s.visited } := by
        refine ⟨hdep,hon,⟨pre,suf ++ [node],hstack',hpre,hsuf'⟩,fun x hx hBx => ?_⟩
        rcases Finset.mem_insert.mp hx with rfl | hx
        · exact .inl rfl
        · rcases hs.visited x hx hBx with rfl | hm
          · exact .inr (by simp)
          · exact .inr (List.mem_append_left _ hm)
      cases hres : dfs defs fuel dep { stack := s.stack ++ [node], onStack := insert node s.onStack,
                                       visited := insert dep s.visited } with
      | none => rw [hres] at h; cases h
      | some r' =>
        obtain ⟨b,t⟩ := r'
        obtain ⟨hb,ht⟩ := ih hnext hres
        cases hb
        rw [hres] at h
        cases h
        exact ⟨rfl,ht⟩

/-- The search never ends on a path through `n`. -/
structure Misses (B : String → Prop) (n : String) (s : Search) (r : Bool × Search) : Prop where
  found : r.1 = true → n ∉ r.2.stack
  exhausted : r.1 = false → r.2.stack = s.stack ∧ r.2.onStack = s.onStack ∧
    ∀ x ∈ r.2.visited, ¬ B x

theorem inside_of_outside {s : Search} (hs : Outside B n s) {dep : String} (hdep : B dep)
    {visited : Finset String} (hv : ∀ x ∈ visited, x = dep ∨ x ∈ s.visited) :
    Inside B dep { s with visited := visited } where
  inB := hdep
  onStack := hs.onStack
  split := ⟨s.stack,[],by simp,fun x hx => (hs.stack x hx).1,by simp⟩
  visited x hx hBx := by
    rcases hv x hx with rfl | hx
    · exact .inl rfl
    · exact absurd hBx (hs.visited x hx)

theorem visitDeps_outside (hB : LedInto defs n B) {fuel : ℕ}
    (ih : ∀ node s, Outside B n s → node ∉ s.stack → ¬ B node →
      ∀ r, dfs defs fuel node s = some r → Misses B n s r)
    (deps : List String) {s : Search} (hs : Outside B n s) {r : Bool × Search}
    (h : visitDeps defs (dfs defs fuel) deps s = some r) : Misses B n s r := by
  induction deps generalizing s with
  | nil =>
    cases h
    exact ⟨by simp,fun _ => ⟨rfl,rfl,hs.visited⟩⟩
  | cons dep deps ihd =>
    unfold visitDeps at h
    split_ifs at h with hnone hon hv
    · exact ihd hs h
    · cases h
      refine ⟨fun _ hn => ?_,fun h => (by cases h)⟩
      exact (hs.stack n (mem_of_mem_drainTo hn)).2 rfl
    · exact ihd hs h
    · have hvis : ∀ x ∈ insert dep s.visited, x = dep ∨ x ∈ s.visited :=
        fun x hx => Finset.mem_insert.mp hx
      cases hres : dfs defs fuel dep { s with visited := insert dep s.visited } with
      | none => rw [hres] at h; cases h
      | some r' =>
        obtain ⟨b,t⟩ := r'
        rw [hres] at h
        by_cases hdep : B dep
        · obtain ⟨hb,ht⟩ := dfs_inside hB fuel (inside_of_outside hs hdep hvis) hres
          cases hb
          cases h
          exact ⟨fun _ hn => hB.avoids (ht n hn),fun h => (by cases h)⟩
        · have hs' : Outside B n { s with visited := insert dep s.visited } := by
            refine ⟨hs.onStack,hs.stack,fun x hx => ?_⟩
            rcases hvis x hx with rfl | hx
            · exact hdep
            · exact hs.visited x hx
          have hmiss := ih dep _ hs' (fun hin => hon ((hs.onStack dep).mpr hin)) hdep _ hres
          cases b with
          | true =>
            cases h
            exact ⟨fun _ => hmiss.found rfl,fun h => (by cases h)⟩
          | false =>
            obtain ⟨hstack,honStack,hvisited⟩ := hmiss.exhausted rfl
            have ht : Outside B n t := by
              refine ⟨fun x => ?_,fun x hx => ?_,hvisited⟩
              · rw [hstack,honStack]
                exact hs.onStack x
              · rw [hstack] at hx
                exact hs.stack x hx
            have hrest := ihd ht h
            refine ⟨hrest.found,fun hr => ?_⟩
            obtain ⟨h1,h2,h3⟩ := hrest.exhausted hr
            exact ⟨h1.trans hstack,h2.trans honStack,h3⟩

theorem dfs_outside (hB : LedInto defs n B) (fuel : ℕ) (node : String) (s : Search)
    (hs : Outside B n s) (hfresh : node ∉ s.stack) (hnode : ¬ B node) (r : Bool × Search)
    (h : dfs defs fuel node s = some r) : Misses B n s r := by
  induction fuel generalizing node s r with
  | zero => cases h
  | succ fuel ih =>
    by_cases hn : node = n
    · -- from `n` the search is led into `B` at once
      subst hn
      obtain ⟨d,dep,rest,hd,hdeps,hdep,hsome⟩ := hB.first node (.inr rfl)
      have hnone : ¬ (defs.lookup dep).isNone := by
        simpa [Option.isSome_iff_ne_none] using hsome
      have hon : dep ∉ insert node s.onStack := by
        intro hin
        rcases Finset.mem_insert.mp hin with rfl | hin
        · exact hnode hdep
        · exact (hs.stack dep ((hs.onStack dep).mp hin)).1 hdep
      have hv : dep ∉ s.visited := fun hv => hs.visited dep hv hdep
      have hin : Inside B dep { stack := s.stack ++ [node], onStack := insert node s.onStack,
                                visited := insert dep s.visited } := by
        refine ⟨hdep,fun x => ?_,⟨s.stack ++ [node],[],by simp,fun x hx => ?_,by simp⟩,
          fun x hx hBx => ?_⟩
        · rw [Finset.mem_insert,hs.onStack,List.mem_append,List.mem_singleton,or_comm]
        · rcases List.mem_append.mp hx with hx | hx
          · exact (hs.stack x hx).1
          · rw [List.mem_singleton.mp hx]
            exact hnode
        · rcases Finset.mem_insert.mp hx with rfl | hx
          · exact .inl rfl
          · exact absurd hBx (hs.visited x hx)
      unfold dfs at h
      simp only [hd,hdeps,visitDeps,hnone,Bool.false_eq_true,↓reduceIte,hon,hv] at h
      cases hres : dfs defs fuel dep { stack := s.stack ++ [node], onStack := insert node s.onStack,
                                       visited := insert dep s.visited } with
      | none => rw [hres] at h; cases h
      | some r' =>
        obtain ⟨b,t⟩ := r'
        obtain ⟨hb,ht⟩ := dfs_inside hB fuel hin hres
        cases hb
        rw [hres] at h
        cases h
        exact ⟨fun _ hn => hB.avoids (ht node hn),fun h => (by cases h)⟩
    · have hpush : Outside B n { s with stack := s.stack ++ [node],
                                        onStack := insert node s.onStack } := by
        refine ⟨fun x => ?_,fun x hx => ?_,hs.visited⟩
        · rw [Finset.mem_insert,hs.onStack,List.mem_append,List.mem_singleton,or_comm]
        · rcases List.mem_append.mp hx with hx | hx
          · exact hs.stack x hx
          · rw [List.mem_singleton.mp hx]
            exact ⟨hnode,hn⟩
      unfold dfs at h
      dsimp only at h
      cases hres : visitDeps defs (dfs defs fuel) (match defs.lookup node with
          | some d => d.deps
          | none => []) { s with stack := s.stack ++ [node],
                                 onStack := insert node s.onStack } with
      | none => rw [hres] at h; cases h
      | some r' =>
        obtain ⟨b,t⟩ := r'
        have hmiss := visitDeps_outside hB ih _ hpush hres
        rw [hres] at h
        cases b with
        | true =>
          cases h
          exact ⟨fun _ => hmiss.found rfl,fun h => (by cases h)⟩
        | false =>
          cases h
          obtain ⟨hstack,honStack,hvisited⟩ := hmiss.exhausted rfl
          dsimp only at hstack honStack
          have hnot : node ∉ s.onStack := fun hin => hfresh ((hs.onStack node).mp hin)
          exact ⟨fun h => (by cases h),fun _ => ⟨by simp [hstack],by simp [honStack,hnot],hvisited⟩⟩

/-- No start finds a path through `n`. -/
theorem findCycleFrom_misses (hB : LedInto defs n B) {start : String} {path : List String}
    (h : findCycleFrom start defs = some path) : n ∉ path := by
  have hempty : Outside B n {} := ⟨by simp,by simp,by simp⟩
  unfold findCycleFrom at h
  split at h
  · rename_i s hs
    cases h
    by_cases hstart : B start
    · have hin : Inside B start {} := inside_of_outside hempty hstart (by simp)
      exact fun hn => hB.avoids ((dfs_inside hB _ hin hs).2 n hn)
    · exact (dfs_outside hB _ start {} hempty (by simp) hstart _ hs).found rfl
  · cases h

open Classical in
/-- Walk a dependency that escapes from `n` first, where there is one. -/
noncomputable def escapeFirst (defs : Defs) (n : String) (d : LocalDef) : LocalDef :=
  if h : ∃ b ∈ d.deps, (defs.lookup b).isSome ∧ Escapes (Edge defs) n b then
    ⟨h.choose :: d.deps.erase h.choose,d.range⟩
  else d

noncomputable def led (defs : Defs) (n : String) : Defs :=
  defs.mapValues fun _ => escapeFirst defs n

theorem led_reordered (defs : Defs) (n : String) : Reordered defs (led defs n) := by
  intro name
  rw [led,KeyedMap.lookup_mapValues]
  cases hd : defs.lookup name with
  | none => exact .none
  | some d =>
    refine .some ?_
    unfold escapeFirst
    split_ifs with h
    · exact ⟨rfl,List.perm_cons_erase h.choose_spec.1⟩
    · exact ⟨rfl,List.Perm.refl _⟩

theorem led_ledInto (h : ∃ c, ReflTransGen (Edge defs) n c ∧ OnCycle (Avoiding (Edge defs) n) c) :
    LedInto (led defs n) n (Escapes (Edge defs) n) where
  avoids hn := hn.ne rfl
  first a ha := by
    obtain ⟨c,hreach,hc⟩ := h
    have hnext : ∃ b, Edge defs a b ∧ Escapes (Edge defs) n b := by
      rcases ha with ha | rfl
      · exact ha.next
      · exact escapes_of_reaches hreach hc
    obtain ⟨b,⟨d,hd,hb,hsome⟩,hesc⟩ := hnext
    have hex : ∃ b ∈ d.deps, (defs.lookup b).isSome ∧ Escapes (Edge defs) n b :=
      ⟨b,hb,hsome,hesc⟩
    refine ⟨escapeFirst defs n d,hex.choose,d.deps.erase hex.choose,?_,?_,hex.choose_spec.2.2,?_⟩
    · rw [led,KeyedMap.lookup_mapValues,hd]
      rfl
    · simp only [escapeFirst,dif_pos hex]
    · rw [led,KeyedMap.lookup_mapValues,Option.isSome_map]
      exact hex.choose_spec.2.1

end escape

/-- Whatever order the maps and sets are walked in, exactly the locals on a
cycle are reported, if and only if every cycle within reach of a local on a
cycle goes through that local. -/
theorem exact_iff (defs : Defs) :
    (∀ defs', Reordered defs defs' → Exact defs') ↔
      ∀ n c, OnCycle (Edge defs) n → ReflTransGen (Edge defs) n c →
        ¬ OnCycle (Avoiding (Edge defs) n) c := by
  constructor
  · intro h n c hn hreach hc
    have hre := led_reordered defs n
    have hin : n ∈ reportedNames (led defs n) :=
      ((h _ hre).onCycle n).mpr (by rw [hre.edge]; exact hn)
    obtain ⟨start,path,hfind,hpath⟩ := mem_reportedNames hin
    exact findCycleFrom_misses (led_ledInto ⟨c,hreach,hc⟩) hfind hpath
  · intro h defs' hre
    refine exact_of_noEscape ?_
    rw [hre.edge]
    exact h

/-- The diagnostics are those of the report, in the order of their positions. -/
theorem cyclicLocalsDiagnostics_perm (body : Body) (rope : Rope) :
    (cyclicLocalsDiagnostics body rope).Perm ((report (collectLocals body rope)).map Prod.snd) := by
  unfold cyclicLocalsDiagnostics
  dsimp only
  split_ifs with h
  · rw [report,h]
    exact List.Perm.refl _
  · exact List.mergeSort_perm _ _

def tailText : Rope := "locals \x7b\n  n = [local.b, local.n]\n  b = local.b\n\x7d\n".toList

def localRef (name : String) : Expression := .traversal (.variable "local") [.getAttr name]

def tailBody : Body :=
  [.block "locals" []
    [.attribute "n" (some (11,12)) (.array [localRef "b",localRef "n"]),
     .attribute "b" (some (36,37)) (localRef "b")]]

/-- `n` depends on itself, but the search from `n` stops at the cycle through
`b`, and `n` is not reported. -/
theorem tail_not_exact : ¬ Exact (collectLocals tailBody tailText) := by
  intro h
  have hn : OnCycle (Edge (collectLocals tailBody tailText)) "n" :=
    .single ⟨⟨["b","n"],⟨⟨1,2⟩,⟨1,3⟩⟩⟩,by decide,by simp,by decide⟩
  have hin := (h.onCycle "n").mpr hn
  revert hin
  decide

end CyclicLocals
end TerraformLs
