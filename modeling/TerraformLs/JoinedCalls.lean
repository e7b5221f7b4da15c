import TerraformLs.RebuildOrder

/-! Several module calls of one directory that pass the same variable of the same
child. The last call that passes an unknown value is the one that is kept. -/
namespace TerraformLs
namespace PassedVariables

section votes

/-- What the calls say that pass the variable a value unknown until apply, in the order
they are met. -/
def unknownCalls (judged : List (PassedArgument × UnknownVarBits)) (child : Path)
    (name : String) : List UnknownVarBits :=
  (judged.filter fun j =>
    (j.2.membership || j.2.value) && (child = j.1.child && name = j.1.name)).map Prod.snd

/-- The bits of all the calls together. -/
def joinedBits (calls : List UnknownVarBits) : Option (Bool × Bool) :=
  if calls = [] then none
  else some (calls.any UnknownVarBits.membership,calls.any UnknownVarBits.value)

/-- The last call speaks for the others. -/
def LastSpeaks (calls : List UnknownVarBits) : Prop :=
  ∀ last ∈ calls.getLast?, ∀ bits ∈ calls,
    (bits.membership = true → last.membership = true) ∧ (bits.value = true → last.value = true)

theorem unknownCalls_cons (j : PassedArgument × UnknownVarBits)
    (judged : List (PassedArgument × UnknownVarBits)) (child : Path) (name : String) :
    unknownCalls (j :: judged) child name =
      if (j.2.membership || j.2.value) = true ∧ child = j.1.child ∧ name = j.1.name then
        j.2 :: unknownCalls judged child name
      else unknownCalls judged child name := by
  rw [unknownCalls,List.filter_cons]
  split_ifs with h h' h'
  · rfl
  · exact absurd (by simpa using h) h'
  · exact absurd (by simpa using h') h
  · rfl

theorem foldl_contribute (judged : List (PassedArgument × UnknownVarBits)) (c : Contribution)
    (child : Path) (name : String) : judged.foldl contribute c child name =
      (unknownCalls judged child name).getLast?.or (c child name) := by
  induction judged generalizing c with
  | nil => rfl
  | cons j judged ih =>
    rw [List.foldl_cons,ih,unknownCalls_cons,contribute]
    split
    · rw [List.getLast?_cons]
      cases (unknownCalls judged child name).getLast? <;> rfl
    · rfl

theorem lastSpeaks_iff (calls : List UnknownVarBits) :
    calls.getLast?.map (fun bits => (bits.membership,bits.value)) = joinedBits calls ↔
      LastSpeaks calls := by
  rcases calls.eq_nil_or_concat with rfl | ⟨before,last,rfl⟩
  · simp [joinedBits,LastSpeaks]
  · have hne : before ++ [last] ≠ [] := by simp
    have hany : ∀ f : UnknownVarBits → Bool, f last = (before ++ [last]).any f ↔
        ∀ bits ∈ before ++ [last], f bits = true → f last = true := by
      intro f
      rw [Bool.eq_iff_iff,List.any_eq_true]
      constructor
      · exact fun h bits hbits hf => h.mpr ⟨bits,hbits,hf⟩
      · exact fun h => ⟨fun hlast => ⟨last,by simp,hlast⟩,fun ⟨bits,hbits,hf⟩ => h bits hbits hf⟩
    rw [List.concat_eq_append,joinedBits,if_neg hne,List.getLast?_concat,Option.map_some,
      Option.some.injEq,Prod.mk.injEq,hany,hany,LastSpeaks,List.getLast?_concat]
    simp only [Option.mem_some_iff,forall_eq']
    rw [← forall₂_and]

end votes

section rebuild

variable {env : RebuildEnvironment} {docs : KeyedMap Url DocumentState} {vars : UnknownModuleVars}
  {dir : Path}

/-- What the rebuild of a directory should leave: for each variable of each child the bits
of all calls together, the entries of the other callers as they were, and no child
without a caller. -/
structure JoinsCalls (vars : UnknownModuleVars) (dir : Path)
    (judged : List (PassedArgument × UnknownVarBits)) (next : UnknownModuleVars) : Prop where
  joined : ∀ child name, (passed next dir child name).map
    (fun bits => (bits.membership,bits.value)) = joinedBits (unknownCalls judged child name)
  others : ∀ caller, caller ≠ dir → ∀ child, callerEntry next caller child =
    callerEntry vars caller child
  called : ∀ child callers, next.lookup child = some callers → callers ≠ ∅

theorem replace_nonempty (staged : Staged) {child : Path}
    {callers : KeyedMap Path (KeyedMap String UnknownVarBits)}
    (h : (replaceUnknownModuleVarsFromCaller vars dir staged).lookup child = some callers) :
    callers ≠ ∅ := by
  rintro rfl
  cases hs : staged.lookup child with
  | some names =>
    rw [lookup_replace_staged hs,Option.some.injEq] at h
    have hentry : (((vars.lookup child).getD ∅).insert dir names).lookup dir = some names :=
      AList.lookup_insert _
    rw [h] at hentry
    cases hentry
  | none =>
    rw [lookup_replace_dropped hs,Option.filter_eq_some_iff] at h
    exact absurd h.2 (by decide)

theorem rebuild_of_judged {fuel : ℕ} {judged : List (PassedArgument × UnknownVarBits)}
    (hargs : judged.map Prod.fst = passedArguments env docs dir)
    (hjudged : ∀ j ∈ judged, judge env docs vars fuel dir j.1 = some j.2) :
    rebuildUnknownModuleVarsForDir env docs vars fuel dir =
      some (replaceUnknownModuleVarsFromCaller vars dir
        (judged.foldl (fun staged j => stageArgument staged j.1 j.2) ∅)) := by
  have hstage := (foldlM_judged fuel _ ∅ _).mpr ⟨judged,hargs,hjudged,rfl⟩
  exact congrArg (Option.map _) hstage

theorem joinsCalls_iff (judged : List (PassedArgument × UnknownVarBits)) :
    JoinsCalls vars dir judged (replaceUnknownModuleVarsFromCaller vars dir
      (judged.foldl (fun staged j => stageArgument staged j.1 j.2) ∅)) ↔
        ∀ child name, LastSpeaks (unknownCalls judged child name) := by
  have hpassed : ∀ child name, passed (replaceUnknownModuleVarsFromCaller vars dir
      (judged.foldl (fun staged j => stageArgument staged j.1 j.2) ∅)) dir child name =
        (unknownCalls judged child name).getLast? := by
    intro child name
    have hnone : stagedBits ∅ child name = none := rfl
    rw [passed_replace,Function.update_self,stagedBits_foldl,foldl_contribute,hnone,Option.or_none]
  constructor
  · intro h child name
    rw [← lastSpeaks_iff,← hpassed]
    exact h.joined child name
  · intro h
    refine ⟨fun child name => ?_,fun caller hcaller child => ?_,fun child callers =>
      replace_nonempty _⟩
    · rw [hpassed]
      exact (lastSpeaks_iff _).mpr (h child name)
    · rw [callerEntry_replace,if_neg hcaller]

/-- Once the arguments of a directory are judged, its rebuild returns, and it joins the
calls exactly when for each variable of each child the last call to pass an unknown
value has the bits of those before it. -/
theorem rebuild_joins_iff {fuel : ℕ} {judged : List (PassedArgument × UnknownVarBits)}
    (hargs : judged.map Prod.fst = passedArguments env docs dir)
    (hjudged : ∀ j ∈ judged, judge env docs vars fuel dir j.1 = some j.2) :
    ∃ next, rebuildUnknownModuleVarsForDir env docs vars fuel dir = some next ∧
      (JoinsCalls vars dir judged next ↔
        ∀ child name, LastSpeaks (unknownCalls judged child name)) :=
  ⟨_,rebuild_of_judged hargs hjudged,joinsCalls_iff judged⟩

end rebuild

section calls

def twoSources : KeyedMap String String := (AList.singleton "a" "./m").insert "b" "./m"

/-- A document with two calls of the module in `./m`. -/
def twoCalls (first second : Expression) : KeyedMap Url DocumentState :=
  AList.singleton "/g/main.tf"
    { callingDoc "/g/main.tf" first with
      parsed := ⟨some [
        .block "module" [.string "a"]
          [.attribute "source" none (.string "./m"),.attribute "x" none first],
        .block "module" [.string "b"]
          [.attribute "source" none (.string "./m"),.attribute "x" none second]],[]⟩
      symbols := { moduleSources := twoSources } }

def idOfA : Expression := .traversal (.variable "aws_instance") [.getAttr "a",.getAttr "id"]

/-- `{ k = aws_instance.a.id }`, of which the keys are known. -/
def keyedId : Expression := .object [(.ident "k",idOfA)]

/-- What the two calls pass, with the bits of each. -/
def judgedCalls (first second : Expression) (bits bits' : Bool × Bool) :
    List (PassedArgument × UnknownVarBits) :=
  [(⟨["g","m"],"a","x",first⟩,⟨bits.1,bits.2,passReason chainEnvironment "a" ["g"]⟩),
    (⟨["g","m"],"b","x",second⟩,⟨bits'.1,bits'.2,passReason chainEnvironment "b" ["g"]⟩)]

theorem judgedCalls_arguments (first second : Expression) (bits bits' : Bool × Bool) :
    (judgedCalls first second bits bits').map Prod.fst =
      passedArguments chainEnvironment (twoCalls first second) ["g"] := by
  have hjoin : Path.join ["g"] "./m" = ["g","m"] := by
    rw [Path.join,if_neg (by decide),components_m]
    rfl
  have hresolve : ∀ label, chainEnvironment.fs.resolveModuleSource chainEnvironment.parseManifest
      ["g"] label "./m" = some ["g","m"] := by
    intro label
    rw [FileSystem.resolveModuleSource,hjoin]
    rfl
  have hin : chainEnvironment.fs.inDir "/g/main.tf" ["g"] = true := by decide +kernel
  have ha : twoSources.lookup "a" = some "./m" := by decide
  have hb : twoSources.lookup "b" = some "./m" := by decide
  have hsource : AssignedTypes.isMetaAttr "source" = true := by decide
  have hx : AssignedTypes.isMetaAttr "x" = false := by decide
  simp [judgedCalls,passedArguments,twoCalls,hin,callArguments,BlockLabel.asStr,ha,
    hb,hresolve,ModuleGraph.attrs,hsource,hx]

/-- The second call passes an object with known keys, and the unknown membership of the
first one is lost. -/
theorem second_call_overwrites : ∃ judged next,
    List.map Prod.fst judged = passedArguments chainEnvironment (twoCalls idOfA keyedId) ["g"] ∧
      (∀ j ∈ judged, judge chainEnvironment (twoCalls idOfA keyedId) ∅ 4 ["g"] j.1 = some j.2) ∧
      rebuildUnknownModuleVarsForDir chainEnvironment (twoCalls idOfA keyedId) ∅ 4 ["g"] =
        some next ∧ ¬JoinsCalls ∅ ["g"] judged next := by
  have hjudged : ∀ j ∈ judgedCalls idOfA keyedId (true,true) (false,true),
      judge chainEnvironment (twoCalls idOfA keyedId) ∅ 4 ["g"] j.1 = some j.2 := by
    rw [judgedCalls,List.forall_mem_cons,List.forall_mem_singleton]
    exact ⟨by decide +kernel,by decide +kernel⟩
  have hargs := judgedCalls_arguments idOfA keyedId (true,true) (false,true)
  refine ⟨_,_,hargs,hjudged,rebuild_of_judged hargs hjudged,fun h => ?_⟩
  have hlast := (joinsCalls_iff _).mp h ["g","m"] "x" _ rfl _ List.mem_cons_self
  exact absurd (hlast.1 rfl) (by decide)

/-- Two calls that pass the same kind of value are joined. -/
theorem same_bits_joined : ∃ next,
    rebuildUnknownModuleVarsForDir chainEnvironment (twoCalls idOfA idOfA) ∅ 4 ["g"] = some next ∧
      (JoinsCalls ∅ ["g"] (judgedCalls idOfA idOfA (true,true) (true,true)) next ↔
        ∀ child name, LastSpeaks
          (unknownCalls (judgedCalls idOfA idOfA (true,true) (true,true)) child name)) := by
  refine rebuild_joins_iff (judgedCalls_arguments idOfA idOfA (true,true) (true,true)) ?_
  rw [judgedCalls,List.forall_mem_cons,List.forall_mem_singleton]
  exact ⟨by decide +kernel,by decide +kernel⟩

end calls

end PassedVariables
end TerraformLs
