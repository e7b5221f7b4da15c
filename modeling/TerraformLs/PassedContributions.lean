import TerraformLs.PassedVariables

/-! A rebuild in terms of what each caller passes: it judges the arguments of one
directory from what all callers pass, and replaces what that directory passes. -/
namespace TerraformLs
namespace PassedVariables

open Proc UnknownValue AssignedTypes

section congruence

variable {ctx : UnknownCtx} {vars : KeyedMap String UnknownVarInfo}

theorem resolveThroughLocals_unknown (expr : Expression) (visited : Finset String) :
    resolveThroughLocals { ctx with unknownVariables := vars } expr visited =
      resolveThroughLocals ctx expr visited := by
  fun_induction resolveThroughLocals ctx expr visited with
  | case1 expr visited name hname hv => exact resolveThroughLocals_cycle hname hv
  | case2 expr visited name hname hv d hd ih =>
    refine Eq.trans ?_ ih
    exact resolveThroughLocals_local hname hv hd
  | case3 expr visited name hname hv hd => exact resolveThroughLocals_undefined hname hv hd
  | case4 expr visited hname inner ha ih =>
    refine Eq.trans ?_ ih
    exact resolveThroughLocals_identity hname ha
  | case5 expr visited hname ha => exact resolveThroughLocals_other hname ha

variable (h : ∀ name, vars.lookup name = ctx.unknownVariables.lookup name)

include h

theorem traversalApplyTime_unknown (expr : Expression) (operators : List TraversalOperator)
    (binds : Binds) (visited : Finset String) :
    traversalApplyTime { ctx with unknownVariables := vars } expr operators binds visited =
      traversalApplyTime ctx expr operators binds visited := by
  have hvar : ((firstAttr operators).bind fun name => vars.lookup name) =
      (firstAttr operators).bind fun name => ctx.unknownVariables.lookup name := by
    congr 1
    funext name
    exact h name
  unfold traversalApplyTime
  simp only [hvar]
  rfl

theorem membershipApplyTimeInner_unknown (value : Expression) (kind : MetaKind) (binds : Binds)
    (visited : Finset String) :
    membershipApplyTimeInner { ctx with unknownVariables := vars } value kind binds visited =
      membershipApplyTimeInner ctx value kind binds visited := by
  unfold membershipApplyTimeInner
  simp only [h]
  rfl

theorem keySetApplyTime_unknown (coll : Expression) (binds : Binds) (visited : Finset String) :
    keySetApplyTime { ctx with unknownVariables := vars } coll binds visited =
      keySetApplyTime ctx coll binds visited := by
  unfold keySetApplyTime
  simp only [resolveThroughLocals_unknown,h]

omit h in
theorem elementValueApplyTime_unknown (coll : Expression) (field : Option String) (binds : Binds)
    (visited : Finset String) :
    elementValueApplyTime { ctx with unknownVariables := vars } coll field binds visited =
      elementValueApplyTime ctx coll field binds visited := by
  unfold elementValueApplyTime
  simp only [resolveThroughLocals_unknown]
  rfl

/-- The bodies read the unknown variables by their names. -/
theorem body_unknown (q : Call) :
    UnknownValue.body { ctx with unknownVariables := vars } q = UnknownValue.body ctx q := by
  cases q with
  | membership value kind binds visited =>
    exact membershipApplyTimeInner_unknown h value kind binds visited
  | references expr binds visited =>
    cases expr with
    | traversal head operators => exact traversalApplyTime_unknown h head operators binds visited
    | _ => rfl
  | bind b field binds visited =>
    cases b with
    | value coll => exact elementValueApplyTime_unknown coll field binds visited
    | key coll => exact keySetApplyTime_unknown h coll binds visited

end congruence

/-- What one directory passes: a child directory and a variable of it to its bits. -/
abbrev Contribution := Path → String → Option UnknownVarBits

def nothing : Contribution := fun _ _ => none

/-- What each caller passes. -/
def passed (vars : UnknownModuleVars) (caller : Path) : Contribution := fun child name =>
  ((vars.lookup child).bind fun callers => callers.lookup caller).bind fun names =>
    names.lookup name

def stagedBits (staged : Staged) : Contribution := fun child name =>
  (staged.lookup child).bind fun names => names.lookup name

/-- No directory is listed without a caller, and no caller without a variable. -/
structure Tidy (vars : UnknownModuleVars) : Prop where
  called : ∀ child callers, vars.lookup child = some callers →
    ∃ caller names, callers.lookup caller = some names
  named : ∀ child callers caller names, vars.lookup child = some callers →
    callers.lookup caller = some names → ∃ name bits, names.lookup name = some bits

def StagedTidy (staged : Staged) : Prop :=
  ∀ child names, staged.lookup child = some names → ∃ name bits, names.lookup name = some bits

section filling

variable {vars vars' : UnknownModuleVars}

theorem passed_eq_some {caller child : Path} {name : String} {bits : UnknownVarBits} :
    passed vars caller child name = some bits ↔ ∃ callers, vars.lookup child = some callers ∧
      ∃ names, callers.lookup caller = some names ∧ names.lookup name = some bits := by
  simp only [passed,Option.bind_eq_some_iff]
  constructor
  · rintro ⟨names,⟨callers,hcallers,hnames⟩,hbits⟩
    exact ⟨callers,hcallers,names,hnames,hbits⟩
  · rintro ⟨callers,hcallers,names,hnames,hbits⟩
    exact ⟨names,⟨callers,hcallers,hnames⟩,hbits⟩

/-- A tidy map lists the directories to which something is passed. -/
theorem Tidy.lookup_isSome (h : Tidy vars) (child : Path) :
    (vars.lookup child).isSome ↔ ∃ caller name bits, passed vars caller child name = some bits := by
  rw [Option.isSome_iff_exists]
  constructor
  · rintro ⟨callers,hcallers⟩
    obtain ⟨caller,names,hnames⟩ := h.called child callers hcallers
    obtain ⟨name,bits,hbits⟩ := h.named child callers caller names hcallers hnames
    exact ⟨caller,name,bits,passed_eq_some.mpr ⟨callers,hcallers,names,hnames,hbits⟩⟩
  · rintro ⟨caller,name,bits,h⟩
    obtain ⟨callers,hcallers,-⟩ := passed_eq_some.mp h
    exact ⟨callers,hcallers⟩

theorem lookup_joinBits (rows : List ((_ : String) × UnknownVarBits))
    (known : KeyedMap String UnknownVarInfo) (name : String) (info : UnknownVarInfo) :
    (rows.foldl joinBits known).lookup name = some info ↔
      ((known.lookup name).isSome ∨ ∃ bits, ⟨name,bits⟩ ∈ rows) ∧
      (info.membership = true ↔ (known.lookup name).any UnknownVarInfo.membership = true ∨
        ∃ bits : UnknownVarBits, ⟨name,bits⟩ ∈ rows ∧ bits.membership = true) ∧
      (info.value = true ↔ (known.lookup name).any UnknownVarInfo.value = true ∨
        ∃ bits : UnknownVarBits, ⟨name,bits⟩ ∈ rows ∧ bits.value = true) := by
  induction rows generalizing known with
  | nil =>
    rcases info with ⟨membership,value⟩
    rw [List.foldl_nil]
    cases hknown : known.lookup name with
    | none => simp
    | some info =>
      rcases info with ⟨membership',value'⟩
      simp only [Option.some.injEq,UnknownVarInfo.mk.injEq,Option.isSome_some,Option.any_some,
        List.not_mem_nil,exists_false,or_false,false_and,true_and]
      have hbool : ∀ a b : Bool, a = b ↔ (b = true ↔ a = true) := by decide
      rw [hbool membership' membership,hbool value' value]
  | cons row rows ih =>
    obtain ⟨key,bits⟩ := row
    rw [List.foldl_cons,ih,joinBits,KeyedMap.lookup_insert_of]
    by_cases hkey : name = key
    · subst hkey
      rw [if_pos rfl]
      cases known.lookup name with
      | none => simp [or_and_right,exists_or]
      | some info => simp [or_assoc,or_and_right,exists_or]
    · simp [hkey]

theorem mem_callerRows {child : Path} {callers : KeyedMap Path (KeyedMap String UnknownVarBits)}
    (h : vars.lookup child = some callers) (name : String) (bits : UnknownVarBits) :
    (⟨name,bits⟩ : (_ : String) × UnknownVarBits) ∈ callers.entries.flatMap (fun e => e.2.entries) ↔
      ∃ caller, passed vars caller child name = some bits := by
  rw [List.mem_flatMap]
  constructor
  · rintro ⟨⟨caller,names⟩,he,hbits⟩
    exact ⟨caller,passed_eq_some.mpr ⟨callers,h,names,KeyedMap.mem_entries.mp he,
      KeyedMap.mem_entries.mp hbits⟩⟩
  · rintro ⟨caller,hpassed⟩
    obtain ⟨callers',hcallers,names,hnames,hbits⟩ := passed_eq_some.mp hpassed
    rw [h] at hcallers
    cases hcallers
    exact ⟨⟨caller,names⟩,KeyedMap.mem_entries.mpr hnames,KeyedMap.mem_entries.mpr hbits⟩

/-- Maps in which the callers pass the same are asked for the same directory. -/
theorem entry_of_passed (h : Tidy vars) (h' : Tidy vars') (hpassed : passed vars = passed vars')
    (dir : Path) (canon : Option Path) :
    ((vars.lookup dir).or (canon.bind fun c => vars.lookup c) = none ∧
        (vars'.lookup dir).or (canon.bind fun c => vars'.lookup c) = none) ∨
      ∃ child callers callers', vars.lookup child = some callers ∧
        vars'.lookup child = some callers' ∧
        (vars.lookup dir).or (canon.bind fun c => vars.lookup c) = some callers ∧
        (vars'.lookup dir).or (canon.bind fun c => vars'.lookup c) = some callers' := by
  have hsome : ∀ child, (vars.lookup child).isSome ↔ (vars'.lookup child).isSome := by
    intro child
    rw [h.lookup_isSome,h'.lookup_isSome,hpassed]
  have hcases : ∀ child, (vars.lookup child = none ∧ vars'.lookup child = none) ∨
      ∃ callers callers', vars.lookup child = some callers ∧ vars'.lookup child = some callers' := by
    intro child
    have hchild := hsome child
    cases hl : vars.lookup child with
    | none =>
      rw [hl] at hchild
      exact .inl ⟨rfl,by simpa using hchild⟩
    | some callers =>
      rw [hl] at hchild
      obtain ⟨callers',hl'⟩ := Option.isSome_iff_exists.mp (hchild.mp rfl)
      exact .inr ⟨callers,callers',rfl,hl'⟩
  obtain ⟨hdir,hdir'⟩ | ⟨callers,callers',hdir,hdir'⟩ := hcases dir
  · rw [hdir,hdir',Option.none_or,Option.none_or]
    cases canon with
    | none => exact .inl ⟨rfl,rfl⟩
    | some c =>
      obtain hnone | ⟨callers,callers',hc,hc'⟩ := hcases c
      · exact .inl hnone
      · exact .inr ⟨c,callers,callers',hc,hc',hc,hc'⟩
  · refine .inr ⟨dir,callers,callers',hdir,hdir',?_,?_⟩
    · rw [hdir,Option.some_or]
    · rw [hdir',Option.some_or]

/-- What the variables of a directory are filled with depends on what the callers pass. -/
theorem fill_of_passed (h : Tidy vars) (h' : Tidy vars') (hpassed : passed vars = passed vars')
    (fs : FileSystem) (dir : Path) (inputs : ModuleUnknownInputs) :
    ∃ known, (∀ name, known.lookup name =
        (fillUnknownVariables fs vars dir inputs).unknownVariables.lookup name) ∧
      fillUnknownVariables fs vars' dir inputs =
        { fillUnknownVariables fs vars dir inputs with unknownVariables := known } := by
  rw [fillUnknownVariables,fillUnknownVariables]
  obtain ⟨hnone,hnone'⟩ | ⟨child,callers,callers',hchild,hchild',hsome,hsome'⟩ :=
    entry_of_passed h h' hpassed dir (fs.canonicalize dir)
  · rw [hnone,hnone']
    exact ⟨inputs.unknownVariables,fun _ => rfl,rfl⟩
  · rw [hsome,hsome']
    refine ⟨_,fun name => ?_,rfl⟩
    apply Option.ext
    intro info
    rw [lookup_joinBits,lookup_joinBits]
    simp only [mem_callerRows hchild,mem_callerRows hchild',hpassed]

end filling

section judging

variable {env : RebuildEnvironment} {docs : KeyedMap Url DocumentState}
  {vars vars' : UnknownModuleVars}

/-- The analysis sees of the map what the callers pass. -/
theorem scopedBody_of_passed (h : Tidy vars) (h' : Tidy vars')
    (hpassed : passed vars = passed vars') :
    scopedBody env docs vars' = scopedBody env docs vars := by
  have hbody : ∀ dir outputs q, UnknownValue.body (scopedCtx env docs vars' dir outputs) q =
      UnknownValue.body (scopedCtx env docs vars dir outputs) q := by
    intro dir outputs q
    obtain ⟨known,hknown,hfill⟩ := fill_of_passed h h' hpassed env.fs dir
      (moduleUnknownInputsForDir env.fs docs env.extraPlanKnown dir)
    have hctx : scopedCtx env docs vars' dir outputs =
        { scopedCtx env docs vars dir outputs with unknownVariables := known } := by
      rw [scopedCtx,filledInputs,hfill]
      rfl
    rw [hctx]
    exact body_unknown hknown q
  funext q
  rw [scopedBody,scopedBody]
  simp only [hbody]

theorem judge_of_passed (h : Tidy vars) (h' : Tidy vars') (hpassed : passed vars = passed vars')
    (fuel : ℕ) (dir : Path) (a : PassedArgument) :
    judge env docs vars' fuel dir a = judge env docs vars fuel dir a := by
  rw [judge,judge,scopedBody_of_passed h h' hpassed]

theorem judge_mono {fuel fuel' : ℕ} (h : fuel ≤ fuel') {dir : Path} {a : PassedArgument}
    {bits : UnknownVarBits} (ha : judge env docs vars fuel dir a = some bits) :
    judge env docs vars fuel' dir a = some bits := by
  simp only [judge,Option.bind_eq_some_iff,Option.map_eq_some_iff] at ha ⊢
  obtain ⟨membership,hm,value,hv,hbits⟩ := ha
  exact ⟨membership,eval_mono h hm,value,eval_mono h hv,hbits⟩

end judging

section staging

/-- An argument that is unknown until apply overrides what was passed there before. -/
def contribute (c : Contribution) (j : PassedArgument × UnknownVarBits) : Contribution :=
  fun child name =>
    if (j.2.membership || j.2.value) = true ∧ child = j.1.child ∧ name = j.1.name then some j.2
    else c child name

theorem stagedBits_stageArgument (staged : Staged) (a : PassedArgument) (bits : UnknownVarBits) :
    stagedBits (stageArgument staged a bits) = contribute (stagedBits staged) (a,bits) := by
  funext child name
  rw [stageArgument,contribute]
  by_cases hbits : (bits.membership || bits.value) = true
  · rw [if_pos hbits,stagedBits,KeyedMap.lookup_insert_of]
    by_cases hchild : child = a.child
    · subst hchild
      rw [if_pos rfl,Option.bind_some,KeyedMap.lookup_insert_of]
      by_cases hname : name = a.name
      · simp [hbits,hname]
      · rw [if_neg hname,if_neg fun h => hname h.2.2,stagedBits]
        cases staged.lookup a.child <;> rfl
    · rw [if_neg hchild,if_neg fun h => hchild h.2.1,stagedBits]
  · rw [if_neg hbits,if_neg fun h => hbits h.1]

theorem stagedTidy_stageArgument {staged : Staged} (h : StagedTidy staged) (a : PassedArgument)
    (bits : UnknownVarBits) : StagedTidy (stageArgument staged a bits) := by
  rw [stageArgument]
  split
  · intro child names hnames
    rw [KeyedMap.lookup_insert_of] at hnames
    split at hnames
    · cases hnames
      exact ⟨a.name,bits,AList.lookup_insert _⟩
    · exact h child names hnames
  · exact h

theorem stagedBits_foldl (judged : List (PassedArgument × UnknownVarBits)) (staged : Staged) :
    stagedBits (judged.foldl (fun staged j => stageArgument staged j.1 j.2) staged) =
      judged.foldl contribute (stagedBits staged) := by
  induction judged generalizing staged with
  | nil => rfl
  | cons j judged ih => rw [List.foldl_cons,List.foldl_cons,ih,stagedBits_stageArgument]

theorem stagedTidy_foldl (judged : List (PassedArgument × UnknownVarBits)) {staged : Staged}
    (h : StagedTidy staged) :
    StagedTidy (judged.foldl (fun staged j => stageArgument staged j.1 j.2) staged) := by
  induction judged generalizing staged with
  | nil => exact h
  | cons j judged ih => exact ih (stagedTidy_stageArgument h j.1 j.2)

variable {env : RebuildEnvironment} {docs : KeyedMap Url DocumentState}
  {vars vars' : UnknownModuleVars} {dir : Path}

/-- All arguments are judged, in their order. -/
theorem foldlM_judged (fuel : ℕ) (args : List PassedArgument) (staged staged' : Staged) :
    args.foldlM (fun staged a => (judge env docs vars fuel dir a).map (stageArgument staged a))
        staged = some staged' ↔
      ∃ judged : List (PassedArgument × UnknownVarBits), judged.map Prod.fst = args ∧
        (∀ j ∈ judged, judge env docs vars fuel dir j.1 = some j.2) ∧
        judged.foldl (fun staged j => stageArgument staged j.1 j.2) staged = staged' := by
  induction args generalizing staged with
  | nil =>
    constructor
    · intro h
      exact ⟨[],rfl,by simp,Option.some.inj h⟩
    · rintro ⟨judged,hargs,-,hstaged⟩
      rw [List.map_eq_nil_iff.mp hargs] at hstaged
      exact congrArg some hstaged
  | cons a args ih =>
    rw [List.foldlM_cons,Option.bind_eq_bind,Option.bind_eq_some_iff]
    simp only [Option.map_eq_some_iff]
    constructor
    · rintro ⟨_,⟨bits,hbits,rfl⟩,h⟩
      obtain ⟨judged,hargs,hjudged,hstaged⟩ := (ih _).mp h
      refine ⟨(a,bits) :: judged,congrArg (List.cons a) hargs,?_,hstaged⟩
      intro j hj
      rcases List.mem_cons.mp hj with rfl | hj
      · exact hbits
      · exact hjudged j hj
    · rintro ⟨judged,hargs,hjudged,hstaged⟩
      cases judged with
      | nil => cases hargs
      | cons j judged =>
        obtain ⟨rfl,htail⟩ := List.cons.inj hargs
        refine ⟨_,⟨j.2,hjudged j List.mem_cons_self,rfl⟩,?_⟩
        exact (ih _).mpr ⟨judged,htail,fun k hk => hjudged k (List.mem_cons_of_mem j hk),hstaged⟩

/-- An argument is judged so when the callers pass `x`. -/
def Judges (env : RebuildEnvironment) (docs : KeyedMap Url DocumentState)
    (x : Path → Contribution) (dir : Path) (a : PassedArgument) (bits : UnknownVarBits) : Prop :=
  ∃ vars fuel, Tidy vars ∧ passed vars = x ∧ judge env docs vars fuel dir a = some bits

/-- The arguments of the directory, judged when the callers pass `x`, pass `c`. -/
def Contributes (env : RebuildEnvironment) (docs : KeyedMap Url DocumentState) (dir : Path)
    (x : Path → Contribution) (c : Contribution) : Prop :=
  ∃ judged : List (PassedArgument × UnknownVarBits),
    judged.map Prod.fst = passedArguments env docs dir ∧
      (∀ j ∈ judged, Judges env docs x dir j.1 j.2) ∧ judged.foldl contribute nothing = c

theorem judged_fuel (h : Tidy vars) {judged : List (PassedArgument × UnknownVarBits)}
    (hjudged : ∀ j ∈ judged, Judges env docs (passed vars) dir j.1 j.2) :
    ∃ fuel, ∀ j ∈ judged, judge env docs vars fuel dir j.1 = some j.2 := by
  induction judged with
  | nil => exact ⟨0,by simp⟩
  | cons j judged ih =>
    obtain ⟨m,hm⟩ := ih fun k hk => hjudged k (List.mem_cons_of_mem j hk)
    obtain ⟨vars',n,h',hpassed,hn⟩ := hjudged j List.mem_cons_self
    rw [← judge_of_passed h' h hpassed] at hn
    refine ⟨max m n,fun k hk => ?_⟩
    rcases List.mem_cons.mp hk with rfl | hk
    · exact judge_mono (Nat.le_max_right m n) hn
    · exact judge_mono (Nat.le_max_left m n) (hm k hk)

theorem stage_iff (h : Tidy vars) (c : Contribution) :
    (∃ fuel staged, stage env docs vars fuel dir = some staged ∧ stagedBits staged = c) ↔
      Contributes env docs dir (passed vars) c := by
  constructor
  · rintro ⟨fuel,staged,hstage,rfl⟩
    obtain ⟨judged,hargs,hjudged,hstaged⟩ := (foldlM_judged fuel _ _ _).mp hstage
    refine ⟨judged,hargs,fun j hj => ⟨vars,fuel,h,rfl,hjudged j hj⟩,?_⟩
    rw [← hstaged,stagedBits_foldl]
    rfl
  · rintro ⟨judged,hargs,hjudged,hc⟩
    obtain ⟨fuel,hfuel⟩ := judged_fuel h hjudged
    refine ⟨fuel,_,(foldlM_judged fuel _ _ _).mpr ⟨judged,hargs,hfuel,rfl⟩,?_⟩
    rw [stagedBits_foldl]
    exact hc

theorem stage_tidy {fuel : ℕ} {staged : Staged} (h : stage env docs vars fuel dir = some staged) :
    StagedTidy staged := by
  obtain ⟨judged,-,-,rfl⟩ := (foldlM_judged fuel _ _ _).mp h
  apply stagedTidy_foldl
  intro child names hnames
  cases hnames

end staging

section replacing

variable {vars : UnknownModuleVars} {callerDir : Path} {staged : Staged}

theorem lookup_stageCallers {es : List ((_ : Path) × KeyedMap String UnknownVarBits)}
    (hes : es.NodupKeys) (vars : UnknownModuleVars) (child : Path) :
    (es.foldl (stageCaller callerDir) vars).lookup child =
      ((List.dlookup child es).map fun names =>
        ((vars.lookup child).getD ∅).insert callerDir names).or (vars.lookup child) := by
  induction es generalizing vars with
  | nil => simp
  | cons e es ih =>
    obtain ⟨hfresh,hes⟩ := List.nodupKeys_cons.mp hes
    rw [List.foldl_cons,ih hes,stageCaller,KeyedMap.lookup_insert_of]
    by_cases h : child = e.1
    · subst h
      rw [if_pos rfl,List.dlookup_eq_none.mpr hfresh,List.dlookup_cons_eq]
      simp
    · rw [if_neg h,List.dlookup_cons_ne es e h]

theorem lookup_dropCaller (child : Path) : (dropCaller vars callerDir staged).lookup child =
    if (staged.lookup child).isSome then vars.lookup child
    else ((vars.lookup child).map fun callers => callers.erase callerDir).filter
      fun callers => !callers.entries.isEmpty := by
  rw [dropCaller,KeyedMap.lookup_retain,KeyedMap.lookup_mapValues]
  cases staged.lookup child with
  | none => simp
  | some names => cases vars.lookup child <;> simp

theorem lookup_replace_staged {child : Path} {names : KeyedMap String UnknownVarBits}
    (h : staged.lookup child = some names) :
    (replaceUnknownModuleVarsFromCaller vars callerDir staged).lookup child =
      some (((vars.lookup child).getD ∅).insert callerDir names) := by
  have hentries : List.dlookup child staged.entries = some names := h
  rw [replaceUnknownModuleVarsFromCaller,lookup_stageCallers staged.nodupKeys,hentries,
    lookup_dropCaller,h]
  rfl

theorem lookup_replace_dropped {child : Path} (h : staged.lookup child = none) :
    (replaceUnknownModuleVarsFromCaller vars callerDir staged).lookup child =
      ((vars.lookup child).map fun callers => callers.erase callerDir).filter
        fun callers => !callers.entries.isEmpty := by
  have hentries : List.dlookup child staged.entries = none := h
  rw [replaceUnknownModuleVarsFromCaller,lookup_stageCallers staged.nodupKeys,hentries,
    lookup_dropCaller,h]
  rfl

/-- What is kept for one caller of a directory. -/
def callerEntry (vars : UnknownModuleVars) (caller child : Path) :
    Option (KeyedMap String UnknownVarBits) :=
  (vars.lookup child).bind fun callers => callers.lookup caller

theorem callerEntry_replace (caller child : Path) :
    callerEntry (replaceUnknownModuleVarsFromCaller vars callerDir staged) caller child =
      if caller = callerDir then staged.lookup child else callerEntry vars caller child := by
  rw [callerEntry,callerEntry]
  cases hstaged : staged.lookup child with
  | some names =>
    rw [lookup_replace_staged hstaged,Option.bind_some,KeyedMap.lookup_insert_of]
    split
    · rfl
    · cases vars.lookup child <;> rfl
  | none =>
    rw [lookup_replace_dropped hstaged]
    have herased : ∀ callers : KeyedMap Path (KeyedMap String UnknownVarBits),
        (((some callers).map fun callers => callers.erase callerDir).filter
          fun callers => !callers.entries.isEmpty).bind (fun callers => callers.lookup caller) =
            if caller = callerDir then none else callers.lookup caller := by
      intro callers
      rw [← KeyedMap.lookup_erase_of,Option.map_some,Option.filter_some]
      split
      · rfl
      · rename_i hempty
        have hnil : callers.erase callerDir = ∅ := AList.ext (by simpa using hempty)
        rw [hnil]
        rfl
    cases hvars : vars.lookup child with
    | none =>
      split
      · rfl
      · rfl
    | some callers => exact herased callers

/-- A rebuild replaces what the one directory passes. -/
theorem passed_replace : passed (replaceUnknownModuleVarsFromCaller vars callerDir staged) =
    Function.update (passed vars) callerDir (stagedBits staged) := by
  funext caller child name
  rw [Function.update_apply,passed,← callerEntry,callerEntry_replace]
  split
  · rfl
  · rfl

theorem tidy_replace (h : Tidy vars) (hstaged : StagedTidy staged) :
    Tidy (replaceUnknownModuleVarsFromCaller vars callerDir staged) := by
  constructor
  · intro child callers hcallers
    cases hs : staged.lookup child with
    | some names =>
      rw [lookup_replace_staged hs] at hcallers
      cases hcallers
      exact ⟨callerDir,names,AList.lookup_insert _⟩
    | none =>
      rw [lookup_replace_dropped hs,Option.filter_eq_some_iff] at hcallers
      obtain ⟨e,he⟩ := List.exists_mem_of_ne_nil callers.entries (by simpa using hcallers.2)
      exact ⟨e.1,e.2,KeyedMap.mem_entries.mp he⟩
  · intro child callers caller names hcallers hnames
    cases hs : staged.lookup child with
    | some names' =>
      rw [lookup_replace_staged hs] at hcallers
      cases hcallers
      rw [KeyedMap.lookup_insert_of] at hnames
      split at hnames
      · cases hnames
        exact hstaged child names hs
      · cases hv : vars.lookup child with
        | none =>
          rw [hv] at hnames
          cases hnames
        | some callers =>
          rw [hv] at hnames
          exact h.named child callers caller names hv hnames
    | none =>
      rw [lookup_replace_dropped hs,Option.filter_eq_some_iff,Option.map_eq_some_iff] at hcallers
      obtain ⟨⟨callers',hv,rfl⟩,-⟩ := hcallers
      rw [KeyedMap.lookup_erase_of] at hnames
      split at hnames
      · cases hnames
      · exact h.named child callers' caller names hv hnames

theorem tidy_empty : Tidy ∅ where
  called child callers h := by cases h
  named child callers caller names h := by cases h

end replacing
end PassedVariables
end TerraformLs
