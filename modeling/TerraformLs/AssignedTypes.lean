import Mathlib.Algebra.BigOperators.Group.Finset.Basic
import TerraformLs.FileSystem
import TerraformLs.Runs
import TerraformLs.StateStore

/-! The types assigned to the variables of each module directory, by its tfvars
files and by the module calls of other directories, and the rebuilds that
collect them. A rebuild replaces the whole entry of every directory it feeds. -/
namespace TerraformLs

namespace VariableType

mutual

/-- Equality of types, field by field. -/
def beq : VariableType → VariableType → Bool
  | .any, .any => true
  | .primitive p, .primitive q => p = q
  | .list a, .list b => beq a b
  | .set a, .set b => beq a b
  | .map a, .map b => beq a b
  | .tuple as, .tuple bs => beqItems as bs
  | .object fs, .object gs => beqFields fs gs
  | _, _ => false

def beqItems : List VariableType → List VariableType → Bool
  | [], [] => true
  | a::as, b::bs => beq a b && beqItems as bs
  | _, _ => false

def beqFields : List (String × VariableType) → List (String × VariableType) → Bool
  | [], [] => true
  | (k,a)::fs, (l,b)::gs => k = l && beq a b && beqFields fs gs
  | _, _ => false

end

def isAny : VariableType → Bool
  | .any => true
  | _ => false

/-- The fields of an object type. -/
def fields? : VariableType → Option (List (String × VariableType))
  | .object fields => some fields
  | _ => none

end VariableType

namespace AssignedTypes

open VariableType

/-- Fields by name, the first type given to each name. -/
def mergeFields (entries : List (List (String × VariableType))) : List (String × VariableType) :=
  (entries.flatten.foldl (fun merged field =>
    if merged.any fun f => f.1 = field.1 then merged else merged ++ [field]) []).insertionSort
      fun f g => f.1 ≤ g.1

/-- What `each.value` is when `for_each` ranges over the collection. -/
def elementTypeOf : VariableType → Option VariableType
  | .map inner | .list inner | .set inner => some inner
  | .object fields =>
    match fields with
    | [] => none
    | (_,first)::rest =>
      match (fields.map Prod.snd).mapM fields? with
      | none => if rest.all fun field => field.2.beq first then some first else none
      | some entries =>
        let merged := mergeFields entries
        if merged.isEmpty then none else some (.object merged)
  | .any | .primitive _ | .tuple _ => none

/-- The disk, the parsers and the inference of types. The inference is given the
documents, the directory of the caller and the type of `each.value`. -/
structure Environment where
  fs : FileSystem
  discoverTfvarsAttributableTo : Path → Option (List Path)
  parseBody : String → Option Body
  parseManifest : String → Option (List (String × String))
  parseValueShape : Expression → VariableType
  parseValueShapeWithSchema :
    KeyedMap Url DocumentState → Path → Option VariableType → Expression → VariableType

/-- Attributes of a module call that are no inputs of the module. -/
def metaAttrs : List String := ["source","version","providers","count","for_each","depends_on"]

def isMetaAttr (name : String) : Bool := name ∈ metaAttrs

section rebuild

variable (env : Environment) (docs : KeyedMap Url DocumentState)

/-- Values too vague to infer from are left out. -/
def isVague : VariableType → Bool
  | .any | .tuple [] | .object [] => true
  | _ => false

def parseTfvars (source : String) : KeyedMap String VariableType :=
  match env.parseBody source with
  | none => ∅
  | some body => body.foldl (fun out item => match item with
    | .attribute name _ value =>
      let ty := env.parseValueShape value
      if isVague ty then out else out.insert name ty
    | .block _ _ _ => out) ∅

/-- The assignments of the tfvars files attributable to a directory. -/
def tfvarsAssignments (dir : Path) : List (String × VariableType) :=
  ((env.discoverTfvarsAttributableTo dir).getD []).flatMap fun path =>
    match env.fs.readToString path with
    | some text => (parseTfvars env text).entries.map fun e => (e.1,e.2)
    | none => []

/-- The type of `each.value` in the body of a call. -/
def eachValue (dir : Path) (body : Body) : Option VariableType :=
  body.findSome? (fun item => match item with
    | .attribute key _ value => if key = "for_each" then some value else none
    | .block _ _ _ => none) >>= fun collection =>
      elementTypeOf (env.parseValueShapeWithSchema docs dir none collection)

/-- The inputs a call passes, as far as their types are known. -/
def callAssignments (dir : Path) (body : Body) : List (String × VariableType) :=
  let each := eachValue env docs dir body
  body.filterMap fun item => match item with
    | .attribute key _ value =>
      if isMetaAttr key then none else
        let ty := env.parseValueShapeWithSchema docs dir each value
        if ty.isAny then none else some (key,ty)
    | .block _ _ _ => none

/-- A call of a module, resolved to the directory it feeds. -/
def moduleCall (dir : Path) (symbols : SymbolTable) :
    Structure → Option (Path × List (String × VariableType))
  | .attribute _ _ _ => none
  | .block ident labels body =>
    if ident = "module" then
      labels.head? >>= fun label =>
        symbols.moduleSources.lookup label.asStr >>= fun source =>
          (env.fs.resolveModuleSource env.parseManifest dir label.asStr source).map
            fun childDir => (childDir,callAssignments env docs dir body)
    else none

/-- Whether the file of a document lies in the directory. -/
def inDir (dir : Path) (uri : Url) : Bool :=
  match env.fs.toFilePath uri >>= Path.parent with
  | some parent => env.fs.dirPathsMatch parent dir
  | none => false

/-- The module calls of a directory, in the order the documents are walked. -/
def moduleCalls (dir : Path) : List (Path × List (String × VariableType)) :=
  docs.entries.flatMap fun e =>
    if inDir env dir e.1 then
      (e.2.parsed.body.getD []).filterMap (moduleCall env docs dir e.2.symbols)
    else []

abbrev Staged := KeyedMap Path (Multimap String VariableType)

/-- A call that passes nothing still stages an entry for the directory it feeds. -/
def stageCall (staged : Staged) (call : Path × List (String × VariableType)) : Staged :=
  staged.insert call.1 (((staged.lookup call.1).getD ∅).pushAll call.2)

def stageTfvars (dir : Path) : Staged :=
  let forDir : Multimap String VariableType := Multimap.pushAll ∅ (tfvarsAssignments env dir)
  if forDir.entries.isEmpty then ∅ else AList.insert dir forDir ∅

def stage (dir : Path) : Staged :=
  (moduleCalls env docs dir).foldl stageCall (stageTfvars env dir)

end rebuild
end AssignedTypes

namespace StateStore

open AssignedTypes

def replaceAssignedVariableTypes (s : StateStore) (targetDir : Path)
    (assignments : Multimap String VariableType) : StateStore :=
  if assignments.entries.isEmpty then
    { s with assignedVariableTypes := s.assignedVariableTypes.erase targetDir }
  else { s with assignedVariableTypes := s.assignedVariableTypes.insert targetDir assignments }

def rebuildAssignedVariableTypesForDir (env : Environment) (s : StateStore) (dir : Path) :
    StateStore :=
  (stage env s.documents dir).entries.foldl
    (fun s e => s.replaceAssignedVariableTypes e.1 e.2) s

/-- The types assigned to a variable of a module directory. -/
def assignedTypes (s : StateStore) (dir : Path) (name : String) : List VariableType :=
  Multimap.filed ((s.assignedVariableTypes.lookup dir).getD ∅) name

end StateStore

namespace AssignedTypes

variable (env : Environment) (docs : KeyedMap Url DocumentState)

/-- What a directory contributes to the variables of the target: its own tfvars
files, and its calls of the module there. -/
def contributions (dir target : Path) : List (String × VariableType) :=
  (if dir = target then tfvarsAssignments env dir else []) ++
    ((moduleCalls env docs dir).filter fun call => call.1 = target).flatMap Prod.snd

/-- A directory feeds the target with a tfvars assignment of its own, or with a
call of the module there, even one that passes nothing. -/
def Feeds (dir target : Path) : Prop :=
  (dir = target ∧ tfvarsAssignments env dir ≠ []) ∨
    ∃ call ∈ moduleCalls env docs dir, call.1 = target

instance (dir target : Path) : Decidable (Feeds env docs dir target) :=
  inferInstanceAs (Decidable (_ ∨ _))

/-- Every variable has the types that the directories of the workspace contribute to it. -/
def AllContributions (dirs : Finset Path) (s : StateStore) : Prop :=
  ∀ target name, (s.assignedTypes target name : Multiset VariableType) =
    ∑ dir ∈ dirs, (Multimap.rowsAt name (contributions env s.documents dir target) :
      Multiset VariableType)

section stage

variable {env docs}

theorem pushAll_isEmpty (rows : List (String × VariableType)) :
    (Multimap.pushAll ∅ rows).entries.isEmpty = rows.isEmpty := by
  cases rows with
  | nil => rfl
  | cons row rows =>
    rw [List.isEmpty_cons,List.isEmpty_eq_false_iff]
    intro h
    have hnil : Multimap.pushAll ∅ (row :: rows) = ∅ := AList.ext h
    have hfiled := Multimap.filed_pushAll ∅ (row :: rows) row.1
    rw [hnil] at hfiled
    simp at hfiled

theorem stageTfvars_lookup (dir target : Path) : (stageTfvars env dir).lookup target =
    if dir = target ∧ tfvarsAssignments env dir ≠ [] then
      some (Multimap.pushAll ∅ (tfvarsAssignments env dir)) else none := by
  rw [stageTfvars,pushAll_isEmpty]
  by_cases h : tfvarsAssignments env dir = []
  · simp [h]
  · rw [if_neg (by simpa using h),KeyedMap.lookup_insert_of]
    simp [h,eq_comm]

theorem stageCalls_lookup (staged : Staged) (calls : List (Path × List (String × VariableType)))
    (target : Path) : ((calls.foldl stageCall staged).lookup target).isSome ↔
      (staged.lookup target).isSome ∨ ∃ call ∈ calls, call.1 = target := by
  induction calls generalizing staged with
  | nil => simp
  | cons call calls ih =>
    rw [List.foldl_cons,ih,stageCall,KeyedMap.lookup_insert_of]
    by_cases h : target = call.1
    · simp [h]
    · simp [h,Ne.symm h]

theorem stageCalls_filed (staged : Staged) (calls : List (Path × List (String × VariableType)))
    (target : Path) (name : String) :
    Multimap.filed (((calls.foldl stageCall staged).lookup target).getD ∅) name =
      Multimap.filed ((staged.lookup target).getD ∅) name ++
        Multimap.rowsAt name ((calls.filter fun call => call.1 = target).flatMap Prod.snd) := by
  induction calls generalizing staged with
  | nil => simp
  | cons call calls ih =>
    rw [List.foldl_cons,ih,stageCall,KeyedMap.lookup_insert_of]
    by_cases h : target = call.1
    · subst h
      simp [Multimap.filed_pushAll,Multimap.rowsAt_append]
    · simp [h,Ne.symm h]

theorem stage_lookup (dir target : Path) :
    ((stage env docs dir).lookup target).isSome ↔ Feeds env docs dir target := by
  rw [stage,stageCalls_lookup,stageTfvars_lookup,Feeds]
  split
  · rename_i h
    exact iff_of_true (.inl rfl) (.inl h)
  · rename_i h
    rw [or_iff_right h]
    simp

theorem stage_filed (dir target : Path) (name : String) :
    Multimap.filed (((stage env docs dir).lookup target).getD ∅) name =
      Multimap.rowsAt name (contributions env docs dir target) := by
  rw [stage,stageCalls_filed,contributions,Multimap.rowsAt_append,stageTfvars_lookup]
  congr 1
  by_cases hd : dir = target
  · subst hd
    by_cases h : tfvarsAssignments env dir = []
    · simp [h]
    · simp [h,Multimap.filed_pushAll]
  · simp [hd]

/-- A directory that does not feed the target contributes nothing to it. -/
theorem contributions_of_not_feeds {dir target : Path} (h : ¬Feeds env docs dir target) :
    contributions env docs dir target = [] := by
  rw [Feeds,not_or] at h
  have hcalls : ((moduleCalls env docs dir).filter fun call => call.1 = target) = [] :=
    List.filter_eq_nil_iff.mpr fun call hc he => h.2 ⟨call,hc,of_decide_eq_true he⟩
  rw [contributions,hcalls]
  by_cases hd : dir = target
  · simpa [hd] using h.1
  · simp [hd]

end stage
end AssignedTypes

namespace StateStore

open AssignedTypes

variable {env : Environment}

theorem assignedTypes_replace (s : StateStore) (targetDir : Path)
    (assignments : Multimap String VariableType) (dir : Path) (name : String) :
    (s.replaceAssignedVariableTypes targetDir assignments).assignedTypes dir name =
      if dir = targetDir then assignments.filed name else s.assignedTypes dir name := by
  unfold replaceAssignedVariableTypes assignedTypes
  split
  · rename_i h
    have hnil : assignments = ∅ := AList.ext (by simpa using h)
    rw [KeyedMap.lookup_erase_of,hnil]
    split <;> rfl
  · rw [KeyedMap.lookup_insert_of]
    split <;> rfl

theorem replaceAssignedVariableTypes_frame (s : StateStore) (targetDir : Path)
    (assignments : Multimap String VariableType) :
    ∃ m, s.replaceAssignedVariableTypes targetDir assignments =
      { s with assignedVariableTypes := m } := by
  unfold replaceAssignedVariableTypes
  split <;> exact ⟨_,rfl⟩

theorem assignedTypes_replaceAll (s : StateStore)
    {es : List (Σ _ : Path, Multimap String VariableType)} (hnd : es.NodupKeys) (dir : Path)
    (name : String) :
    (es.foldl (fun s e => s.replaceAssignedVariableTypes e.1 e.2) s).assignedTypes dir name =
      match es.dlookup dir with
      | some assignments => Multimap.filed assignments name
      | none => s.assignedTypes dir name := by
  induction es generalizing s with
  | nil => rfl
  | cons e es ih =>
    obtain ⟨hk,hnd⟩ := List.nodupKeys_cons.mp hnd
    rw [List.foldl_cons,ih _ hnd,assignedTypes_replace]
    by_cases h : dir = e.1
    · subst h
      rw [List.dlookup_eq_none.mpr hk,if_pos rfl,List.dlookup_cons_eq]
    · rw [List.dlookup_cons_ne _ _ h]
      simp [h]

/-- A rebuild touches nothing but the assigned types. -/
theorem rebuild_frame (s : StateStore) (env : Environment) (dir : Path) :
    ∃ m, s.rebuildAssignedVariableTypesForDir env dir = { s with assignedVariableTypes := m } := by
  unfold rebuildAssignedVariableTypesForDir
  generalize (stage env s.documents dir).entries = es
  induction es generalizing s with
  | nil => exact ⟨_,rfl⟩
  | cons e es ih =>
    obtain ⟨m,hm⟩ := s.replaceAssignedVariableTypes_frame e.1 e.2
    obtain ⟨m',hm'⟩ := ih { s with assignedVariableTypes := m }
    exact ⟨m',by rw [List.foldl_cons,hm,hm']⟩

@[simp] theorem rebuild_documents (s : StateStore) (dir : Path) :
    (s.rebuildAssignedVariableTypesForDir env dir).documents = s.documents := by
  obtain ⟨m,hm⟩ := s.rebuild_frame env dir
  rw [hm]

/-- A rebuild leaves the targets it feeds with its own contributions only, and
the other targets as they are. -/
theorem assignedTypes_rebuild (s : StateStore) (dir target : Path) (name : String) :
    (s.rebuildAssignedVariableTypesForDir env dir).assignedTypes target name =
      if Feeds env s.documents dir target then
        Multimap.rowsAt name (contributions env s.documents dir target)
      else s.assignedTypes target name := by
  rw [rebuildAssignedVariableTypesForDir,
    assignedTypes_replaceAll s (stage env s.documents dir).nodupKeys,← stage_filed]
  change (match (stage env s.documents dir).lookup target with
    | some assignments => Multimap.filed assignments name
    | none => s.assignedTypes target name) = _
  have hfeeds : ((stage env s.documents dir).lookup target).isSome ↔
      Feeds env s.documents dir target := stage_lookup dir target
  cases h : (stage env s.documents dir).lookup target with
  | none => rw [if_neg (by simpa [h] using hfeeds)]
  | some assignments => rw [if_pos (hfeeds.mp (by simp [h]))]; rfl

@[simp] theorem rebuilds_documents (s : StateStore) (seq : List Path) :
    (run (rebuildAssignedVariableTypesForDir env) s seq).documents = s.documents := by
  induction seq generalizing s with
  | nil => rfl
  | cons dir seq ih => rw [run_cons,ih,rebuild_documents]

/-- After a run of rebuilds a target has the contributions of one directory that feeds it. -/
theorem assignedTypes_rebuilds (s : StateStore) (env : Environment) (seq : List Path)
    (target : Path) :
    (∃ dir ∈ seq, Feeds env s.documents dir target ∧
        (run (rebuildAssignedVariableTypesForDir env) s seq).assignedTypes target =
          fun name => Multimap.rowsAt name (contributions env s.documents dir target)) ∨
      ((∀ dir ∈ seq, ¬Feeds env s.documents dir target) ∧
        (run (rebuildAssignedVariableTypesForDir env) s seq).assignedTypes target =
          s.assignedTypes target) := by
  apply run_overwrites (fun t : StateStore => t.documents = s.documents)
    (fun t : StateStore => t.assignedTypes target)
  · intro t dir ht
    rw [rebuild_documents,ht]
  · intro t dir ht hf
    funext name
    rw [assignedTypes_rebuild,ht,if_pos hf]
  · intro t dir ht hf
    funext name
    rw [assignedTypes_rebuild,ht,if_neg hf]
  · rfl

end StateStore

namespace AssignedTypes

/-- No target is fed by two directories of which one contributes something, and
one that no directory feeds has no types left from before. -/
structure SoleContributors (env : Environment) (dirs : Finset Path) (s : StateStore) : Prop where
  unfed : ∀ target, (∀ dir ∈ dirs, ¬Feeds env s.documents dir target) →
    ∀ name, s.assignedTypes target name = []
  sole : ∀ target, ∀ x ∈ dirs, ∀ y ∈ dirs, Feeds env s.documents x target →
    Feeds env s.documents y target → x ≠ y → contributions env s.documents x target = []

variable {env : Environment} {dirs : Finset Path} {s : StateStore}

theorem eq_nil_of_rowsAt {rows : List (String × VariableType)}
    (h : ∀ name, Multimap.rowsAt name rows = []) : rows = [] := by
  cases rows with
  | nil => rfl
  | cons row rows =>
    have hrow := h row.1
    simp at hrow

theorem sum_eq_of_others {f : Path → Multiset VariableType} {dir : Path} (hdir : dir ∈ dirs)
    (h : ∑ x ∈ dirs, f x = f dir) {x : Path} (hx : x ∈ dirs) (hne : x ≠ dir) : f x = 0 := by
  rw [← Finset.add_sum_erase dirs f hdir,add_eq_left] at h
  apply Multiset.eq_zero_of_forall_notMem
  intro ty hty
  have hmem := Multiset.mem_sum.mpr ⟨x,Finset.mem_erase.mpr ⟨hne,hx⟩,hty⟩
  rw [h] at hmem
  exact Multiset.notMem_zero ty hmem

theorem SoleContributors.allContributions (h : SoleContributors env dirs s) {seq : List Path}
    (hseq : seq.toFinset = dirs) :
    AllContributions env dirs (run (StateStore.rebuildAssignedVariableTypesForDir env) s seq) := by
  intro target name
  rw [StateStore.rebuilds_documents]
  rcases s.assignedTypes_rebuilds env seq target with ⟨y,hy,hf,hr⟩ | ⟨hnone,hr⟩
  · have hy : y ∈ dirs := hseq ▸ List.mem_toFinset.mpr hy
    rw [hr,Finset.sum_eq_single_of_mem y hy]
    intro x hx hne
    by_cases hfx : Feeds env s.documents x target
    · simp [h.sole target x hx y hy hfx hf hne]
    · simp [contributions_of_not_feeds hfx]
  · have hnone : ∀ dir ∈ dirs, ¬Feeds env s.documents dir target := by
      intro dir hd
      rw [← hseq,List.mem_toFinset] at hd
      exact hnone dir hd
    rw [hr,h.unfed target hnone name,Finset.sum_eq_zero]
    · rfl
    · intro dir hd
      simp [contributions_of_not_feeds (hnone dir hd)]

/-- The last directory rebuilt overrides what the others contribute to a target it feeds. -/
theorem contributions_of_last {seq : List Path} {x y target : Path}
    (h : AllContributions env dirs
      (run (StateStore.rebuildAssignedVariableTypesForDir env) s (seq ++ [y])))
    (hx : x ∈ dirs) (hy : y ∈ dirs) (hf : Feeds env s.documents y target) (hne : x ≠ y) :
    contributions env s.documents x target = [] := by
  apply eq_nil_of_rowsAt
  intro name
  have hsum := h target name
  rw [run_concat,StateStore.assignedTypes_rebuild,StateStore.rebuild_documents,
    StateStore.rebuilds_documents,if_pos hf] at hsum
  simpa using sum_eq_of_others hy hsum.symm hx hne

/-- Rebuilding every directory of the workspace, in whatever order and however
often, collects all contributions exactly when no target has two contributors. -/
theorem allContributions_iff (env : Environment) (dirs : Finset Path) (s : StateStore) :
    (∀ seq : List Path, seq.toFinset = dirs →
        AllContributions env dirs
          (run (StateStore.rebuildAssignedVariableTypesForDir env) s seq)) ↔
      SoleContributors env dirs s := by
  constructor
  · intro h
    constructor
    · intro target hnone name
      have hsum := h dirs.toList dirs.toList_toFinset target name
      rw [StateStore.rebuilds_documents,Finset.sum_eq_zero] at hsum
      · rcases s.assignedTypes_rebuilds env dirs.toList target with
          ⟨y,hy,hf,-⟩ | ⟨-,hr⟩
        · exact absurd hf (hnone y (Finset.mem_toList.mp hy))
        · rw [hr] at hsum
          exact Multiset.coe_eq_zero _ |>.mp hsum
      · intro dir hd
        simp [contributions_of_not_feeds (hnone dir hd)]
    · intro target x hx y hy hfx hfy hne
      have hseq : ((dirs.erase y).toList ++ [y]).toFinset = dirs := by
        simp [Finset.toList_toFinset,Finset.insert_erase hy]
      exact contributions_of_last (h _ hseq) hx hy hfy hne
  · intro h seq hseq
    exact h.allContributions hseq

section twoCallers

/-- Two stacks that call the same module, one with a string and one with a number. -/
def callerBody (x : Expression) : Body :=
  [.block "module" [.string "c"] [.attribute "source" none (.string "../c"),
    .attribute "x" none x]]

def callerDocument (uri : Url) (x : Expression) : DocumentState where
  uri := uri
  rope := []
  version := 0
  parsed := ⟨some (callerBody x),[]⟩
  symbols := { moduleSources := AList.singleton "c" "../c" }
  references := []
  testRuns := []
  formatCache := none

def literalShape : Expression → VariableType
  | .string _ => .primitive .string
  | .number _ => .primitive .number
  | _ => .any

def callersEnvironment : Environment where
  fs :=
    { canonicalize := fun path => if path = ["w","a","..","c"] ∨ path = ["w","b","..","c"]
        then some ["w","c"] else some path
      readDir := fun _ => none
      readToString := fun _ => none
      metadata := fun _ => none
      isDir := fun path => path = ["w","c"]
      isFile := fun _ => false
      toFilePath := fun uri => if uri = "file:///w/a/main.tf" then some ["w","a","main.tf"]
        else if uri = "file:///w/b/main.tf" then some ["w","b","main.tf"] else none
      fromFilePath := fun _ => none }
  discoverTfvarsAttributableTo := fun _ => some []
  parseBody := fun _ => none
  parseManifest := fun _ => none
  parseValueShape := literalShape
  parseValueShapeWithSchema := fun _ _ _ => literalShape

def callersStore : StateStore where
  documents :=
    (AList.singleton "file:///w/b/main.tf"
      (callerDocument "file:///w/b/main.tf" (.number "1"))).insert "file:///w/a/main.tf"
        (callerDocument "file:///w/a/main.tf" (.string "s"))

/-- The type from the first caller is lost when the second caller is rebuilt. -/
theorem secondCaller_overrides : ¬AllContributions callersEnvironment {["w","a"],["w","b"],["w","c"]}
    (run (StateStore.rebuildAssignedVariableTypesForDir callersEnvironment) callersStore
      [["w","a"],["w","b"],["w","c"]]) := by
  intro h
  have hcard := congrArg Multiset.card (h ["w","c"] "x")
  revert hcard
  decide

end twoCallers

end AssignedTypes
end TerraformLs
