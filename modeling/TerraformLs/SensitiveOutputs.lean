import TerraformLs.ExpressionWalks
import TerraformLs.JsonConfig
import TerraformLs.PositionConversions

/-! Outputs that expose a sensitive variable. The rule walks over the value by itself, and
does not go into heredocs, the directives of templates and the indices of traversals. -/
namespace TerraformLs
namespace SensitiveOutputs

def traversalVarName : Expression → List TraversalOperator → Option String
  | .variable "var",.getAttr name::_ => some name
  | _,_ => none

def isNonsensitive : Expression → Bool
  | .funcCall ns name _ => ns = [] && name = "nonsensitive"
  | _ => false

section walk

variable (sensitive : List String)

def isSensitiveVar (expr : Expression) (operators : List TraversalOperator) : Bool :=
  match traversalVarName expr operators with
  | some name => name ∈ sensitive
  | none => false

mutual

def containsSensitiveRef : Expression → Bool
  | .traversal expr operators =>
    isSensitiveVar sensitive expr operators || containsSensitiveRef expr
  | .funcCall ns name args => if ns = [] ∧ name = "nonsensitive" then false else anyRef args
  | .array items => anyRef items
  | .object entries => anyEntry entries
  | .parenthesis inner => containsSensitiveRef inner
  | .conditional cond whenTrue whenFalse =>
    containsSensitiveRef cond || containsSensitiveRef whenTrue || containsSensitiveRef whenFalse
  | .unaryOp _ operand => containsSensitiveRef operand
  | .binaryOp lhs _ rhs => containsSensitiveRef lhs || containsSensitiveRef rhs
  | .forExpr _ _ collection keyExpr valueExpr _ cond =>
    containsSensitiveRef collection || optionRef keyExpr || containsSensitiveRef valueExpr ||
      optionRef cond
  | .stringTemplate elements => anyElement elements
  | .null | .bool _ | .number _ | .string _ | .variable _ | .heredocTemplate _ => false

def anyRef : List Expression → Bool
  | [] => false
  | e::es => containsSensitiveRef e || anyRef es

def anyEntry : List (ObjectKey × Expression) → Bool
  | [] => false
  | (.ident _,value)::entries => containsSensitiveRef value || anyEntry entries
  | (.expression key,value)::entries =>
    containsSensitiveRef key || containsSensitiveRef value || anyEntry entries

def optionRef : Option Expression → Bool
  | some e => containsSensitiveRef e
  | none => false

def anyElement : List Element → Bool
  | [] => false
  | .interpolation e::elements => containsSensitiveRef e || anyElement elements
  | .literal _::elements => anyElement elements
  | .directive _::elements => anyElement elements

end

end walk

def hasSensitiveTrue (body : SpannedBody) : Bool :=
  body.any fun
    | .attribute _ key _ (.bool true) => key = "sensitive"
    | _ => false

/-- The variables declared with `sensitive = true`. -/
def sensitiveVariableNames (body : SpannedBody) : List String :=
  body.filterMap fun
    | .block _ ident _ ((label,_)::_) inner =>
      if ident = "variable" ∧ hasSensitiveTrue inner then some label.asStr else none
    | _ => none

def outputValueExpr (body : SpannedBody) : Option Expression :=
  body.findSome? fun
    | .attribute _ key _ value => if key = "value" then some value else none
    | _ => none

def message (name : String) : String :=
  "output `" ++ name ++ "` exposes a sensitive value — add `sensitive = true` " ++
    "(or wrap the value in `nonsensitive(...)` if intentional)"

section diagnostics

variable (rope : Rope)

/-- The diagnostic stands at the first label. -/
def labelDiagnostic : List (BlockLabel × Option Span) → Option Diagnostic
  | (label,some span)::_ =>
    match rope.hclSpanToLspRange span with
    | .ok range => some ⟨range,some .error,some "terraform-ls-rs",message label.asStr⟩
    | .error _ => none
  | _ => none

def outputDiagnostic (sensitive : List String) : SpannedStructure → Option Diagnostic
  | .block _ ident _ labels body =>
    if ident ≠ "output" then none
    else if hasSensitiveTrue body then none
    else match outputValueExpr body with
      | none => none
      | some value =>
        if containsSensitiveRef sensitive value then labelDiagnostic rope labels else none
  | .attribute _ _ _ _ => none

/-- The sensitive variables of the body, and those of the other files of the module. -/
def sensitiveNames (body : SpannedBody) (extraSensitive : List String) : List String :=
  sensitiveVariableNames body ++ extraSensitive

def sensitiveOutputDiagnostics (body : SpannedBody) (extraSensitive : List String) :
    List Diagnostic :=
  let sensitive := sensitiveNames body extraSensitive
  if sensitive = [] then [] else body.filterMap (outputDiagnostic rope sensitive)

end diagnostics

/-! What an expression exposes, for walks that go on to different parts of it. -/

section exposure

/-- The expressions that the rule goes on to from an expression. -/
def seenParts : Expression → List Expression
  | .heredocTemplate _ => []
  | .stringTemplate elements => ExprWalk.interpolations elements
  | .traversal expr _ => [expr]
  | e => UnknownValue.children e

/-- A sensitive variable is referred to, outside of the arguments of `nonsensitive`. -/
inductive Exposes (parts : Expression → List Expression) (sensitive : List String) :
    Expression → Prop
  | ref {expr : Expression} {operators : List TraversalOperator} {name : String}
    (h : traversalVarName expr operators = some name) (hname : name ∈ sensitive) :
    Exposes parts sensitive (.traversal expr operators)
  | inside {e c : Expression} (he : isNonsensitive e = false) (hc : c ∈ parts e)
    (h : Exposes parts sensitive c) : Exposes parts sensitive e

/-- At any depth. -/
abbrev Leaks := Exposes UnknownValue.children

/-- Outside of heredocs, directives and indices. -/
abbrev Shows := Exposes seenParts

variable {sensitive : List String} {e : Expression}

theorem seenParts_subset {c : Expression} (h : c ∈ seenParts e) : c ∈ UnknownValue.children e := by
  cases e with
  | heredocTemplate elements => cases h
  | stringTemplate elements => exact (ExprWalk.interpolations_sublist elements).subset h
  | traversal expr operators =>
    rw [List.mem_singleton.mp h]
    exact List.mem_cons_self
  | _ => exact h

theorem Exposes.leaks (h : Shows sensitive e) : Leaks sensitive e := by
  induction h with
  | ref h hname => exact .ref h hname
  | inside he hc _ ih => exact .inside he (seenParts_subset hc) ih

def refersToSensitive (sensitive : List String) : Expression → Bool
  | .traversal expr operators => isSensitiveVar sensitive expr operators
  | _ => false

theorem containsSensitiveRef_eq (e : Expression) : containsSensitiveRef sensitive e =
    (refersToSensitive sensitive e ||
      (!isNonsensitive e && (seenParts e).any (containsSensitiveRef sensitive))) := by
  have hexprs : ∀ es, anyRef sensitive es = es.any (containsSensitiveRef sensitive) := by
    intro es
    induction es with
    | nil => rfl
    | cons e es ih => rw [anyRef,ih,List.any_cons]
  have hentries : ∀ entries, anyEntry sensitive entries =
      (UnknownValue.entryExprs entries).any (containsSensitiveRef sensitive) := by
    intro entries
    induction entries with
    | nil => rfl
    | cons entry entries ih =>
      obtain ⟨key,value⟩ := entry
      cases key <;> simp [anyEntry,UnknownValue.entryExprs,ih,Bool.or_assoc]
  have helements : ∀ elements, anyElement sensitive elements =
      (ExprWalk.interpolations elements).any (containsSensitiveRef sensitive) := by
    intro elements
    induction elements with
    | nil => rfl
    | cons element elements ih =>
      cases element <;> simp [anyElement,ExprWalk.interpolations,ih]
  have hoption : ∀ o, optionRef sensitive o =
      o.toList.any (containsSensitiveRef sensitive) := by
    intro o
    cases o <;> simp [optionRef]
  cases e with
  | funcCall ns name args =>
    by_cases h : ns = [] ∧ name = "nonsensitive"
    · simp [containsSensitiveRef,refersToSensitive,isNonsensitive,h]
    · have hname : (decide (ns = []) && decide (name = "nonsensitive")) = false := by
        simpa using h
      simp [containsSensitiveRef,refersToSensitive,isNonsensitive,h,hname,hexprs,seenParts,UnknownValue.children]
  | forExpr keyVar valueVar collection keyExpr valueExpr grouping cond =>
    simp [containsSensitiveRef,refersToSensitive,isNonsensitive,seenParts,UnknownValue.children,hoption,
      Bool.or_assoc,Bool.or_left_comm]
  | _ => simp [containsSensitiveRef,refersToSensitive,isNonsensitive,seenParts,UnknownValue.children,hexprs,
      hentries,helements,Bool.or_assoc]

theorem refersToSensitive_iff : refersToSensitive sensitive e = true ↔
    ∃ expr operators name, e = .traversal expr operators ∧
      traversalVarName expr operators = some name ∧ name ∈ sensitive := by
  cases e with
  | traversal expr operators =>
    rw [refersToSensitive,isSensitiveVar]
    cases hname : traversalVarName expr operators with
    | none => simp [hname]
    | some name => simp [hname]
  | _ => simp [refersToSensitive]

/-- The rule finds what is exposed where it looks. -/
theorem containsSensitiveRef_iff (e : Expression) :
    containsSensitiveRef sensitive e = true ↔ Shows sensitive e := by
  induction hn : sizeOf e using Nat.strong_induction_on generalizing e with
  | _ n ih =>
    have hparts : ∀ c ∈ seenParts e, (containsSensitiveRef sensitive c = true ↔
        Shows sensitive c) := fun c hc =>
      ih _ (hn ▸ UnknownValue.sizeOf_children (seenParts_subset hc)) c rfl
    rw [containsSensitiveRef_eq,Bool.or_eq_true,Bool.and_eq_true,Bool.not_eq_true',
      refersToSensitive_iff,List.any_eq_true]
    constructor
    · rintro (⟨expr,operators,name,rfl,hname,hmem⟩ | ⟨he,c,hc,hshows⟩)
      · exact .ref hname hmem
      · exact .inside he hc ((hparts c hc).mp hshows)
    · rintro (⟨hname,hmem⟩ | ⟨he,hc,hshows⟩)
      · exact .inl ⟨_,_,_,rfl,hname,hmem⟩
      · exact .inr ⟨he,_,hc,(hparts _ hc).mpr hshows⟩

end exposure

/-! Which outputs are flagged. -/

section outputs

/-- An output that is not marked, with the value that it has. -/
def Unmarked (labels : List (BlockLabel × Option Span)) (value : Expression)
    (s : SpannedStructure) : Prop :=
  ∃ span identSpan inner, s = .block span "output" identSpan labels inner ∧
    hasSensitiveTrue inner = false ∧ outputValueExpr inner = some value

/-- An output that is not marked, and whose value exposes a sensitive variable. -/
def Leaky (sensitive : List String) (s : SpannedStructure) : Prop :=
  ∃ labels value, Unmarked labels value s ∧ Leaks sensitive value

/-- The parser gives a span in the text to each label. -/
def LabelsSpanned (rope : Rope) (body : SpannedBody) : Prop :=
  ∀ span ident identSpan labels inner, .block span ident identSpan labels inner ∈ body →
    ∀ label labelSpan, (label,labelSpan) ∈ labels →
      ∃ place range, labelSpan = some place ∧ rope.hclSpanToLspRange place = .ok range

theorem Unmarked.unique {labels labels' : List (BlockLabel × Option Span)}
    {value value' : Expression} {s : SpannedStructure} (h : Unmarked labels value s)
    (h' : Unmarked labels' value' s) : labels = labels' ∧ value = value' := by
  obtain ⟨_,_,inner,rfl,-,hvalue⟩ := h
  obtain ⟨_,_,inner',heq,-,hvalue'⟩ := h'
  cases heq
  exact ⟨rfl,Option.some.inj (hvalue.symm.trans hvalue')⟩

theorem not_exposes_nil {parts : Expression → List Expression} {e : Expression} :
    ¬Exposes parts [] e := by
  intro h
  induction h with
  | ref _ hname => cases hname
  | inside _ _ _ ih => exact ih

variable {rope : Rope} {body : SpannedBody} {sensitive extraSensitive : List String}
  {s : SpannedStructure}

theorem labelDiagnostic_isSome {labels : List (BlockLabel × Option Span)}
    (h : ∀ label labelSpan, (label,labelSpan) ∈ labels →
      ∃ place range, labelSpan = some place ∧ rope.hclSpanToLspRange place = .ok range) :
    (labelDiagnostic rope labels).isSome ↔ labels ≠ [] := by
  cases labels with
  | nil => simp [labelDiagnostic]
  | cons entry labels =>
    obtain ⟨label,labelSpan⟩ := entry
    obtain ⟨place,range,rfl,hrange⟩ := h label labelSpan List.mem_cons_self
    simp [labelDiagnostic,hrange]

theorem outputDiagnostic_isSome (hspans : LabelsSpanned rope body) (hs : s ∈ body) :
    (outputDiagnostic rope sensitive s).isSome ↔
      ∃ labels value, Unmarked labels value s ∧ labels ≠ [] ∧ Shows sensitive value := by
  cases s with
  | «attribute» span key keySpan value =>
    refine ⟨fun h => absurd h (by simp [outputDiagnostic]),?_⟩
    rintro ⟨labels,value,⟨_,_,_,heq,-⟩,-⟩
    cases heq
  | block span ident identSpan labels inner =>
    have hlabels := labelDiagnostic_isSome (hspans _ _ _ _ _ hs)
    rw [outputDiagnostic]
    constructor
    · intro h
      split at h
      · cases h
      rename_i hident
      split at h
      · cases h
      rename_i hmarked
      split at h
      · cases h
      rename_i value hvalue
      split at h
      · rename_i hcontains
        exact ⟨labels,value,⟨_,_,_,by rw [not_not.mp hident],Bool.eq_false_iff.mpr hmarked,hvalue⟩,
          hlabels.mp h,(containsSensitiveRef_iff value).mp hcontains⟩
      · cases h
    · rintro ⟨labels',value,⟨_,_,_,heq,hmarked,hvalue⟩,hne,hshows⟩
      cases heq
      rw [if_neg (by simp),if_neg (by simp [hmarked]),hvalue]
      simp only
      rw [if_pos ((containsSensitiveRef_iff value).mpr hshows)]
      exact hlabels.mpr hne

theorem sensitiveOutputDiagnostics_eq (rope : Rope) (body : SpannedBody)
    (extraSensitive : List String) : sensitiveOutputDiagnostics rope body extraSensitive =
      body.filterMap (outputDiagnostic rope (sensitiveNames body extraSensitive)) := by
  rw [sensitiveOutputDiagnostics]
  split
  · rename_i hempty
    have hnone : ∀ e, containsSensitiveRef [] e = false := fun e =>
      Bool.eq_false_iff.mpr fun h => not_exposes_nil ((containsSensitiveRef_iff e).mp h)
    refine (List.filterMap_eq_nil_iff.mpr fun s _ => ?_).symm
    rw [hempty]
    cases s with
    | «attribute» => rfl
    | block span ident identSpan labels inner =>
      rw [outputDiagnostic]
      split_ifs
      · rfl
      · rfl
      · cases outputValueExpr inner with
        | none => rfl
        | some value => simp [hnone]
  · rfl

/-- Every unmarked output is flagged exactly when its value exposes a sensitive variable, if and
only if what is exposed shows outside of heredocs, directives and indices, under a name. -/
theorem sensitiveOutputs_exact_iff (hspans : LabelsSpanned rope body) :
    sensitiveOutputDiagnostics rope body extraSensitive =
        body.filterMap (outputDiagnostic rope (sensitiveNames body extraSensitive)) ∧
      ((∀ s ∈ body, (outputDiagnostic rope (sensitiveNames body extraSensitive) s).isSome ↔
          Leaky (sensitiveNames body extraSensitive) s) ↔
        ∀ s ∈ body, ∀ labels value, Unmarked labels value s →
          Leaks (sensitiveNames body extraSensitive) value →
            labels ≠ [] ∧ Shows (sensitiveNames body extraSensitive) value) := by
  refine ⟨sensitiveOutputDiagnostics_eq rope body extraSensitive,fun h s hs labels value hu hl => ?_,
    fun h s hs => ?_⟩
  · obtain ⟨labels',value',hu',hne,hshows⟩ :=
      (outputDiagnostic_isSome hspans hs).mp ((h s hs).mpr ⟨labels,value,hu,hl⟩)
    obtain ⟨rfl,rfl⟩ := hu.unique hu'
    exact ⟨hne,hshows⟩
  · rw [outputDiagnostic_isSome hspans hs]
    constructor
    · rintro ⟨labels,value,hu,-,hshows⟩
      exact ⟨labels,value,hu,hshows.leaks⟩
    · rintro ⟨labels,value,hu,hl⟩
      exact ⟨labels,value,hu,h s hs labels value hu hl⟩

/-- A sensitive variable and an output with a value. -/
def secretText (value : String) : Rope :=
  ("variable \"pw\" \x7b\n  sensitive = true\n\x7d\noutput \"p\" \x7b\n  value = " ++ value ++
    "\n\x7d\n").toList

def secretBody (value : Expression) : SpannedBody :=
  [.block (some (0,36)) "variable" (some (0,8)) [(.string "pw",some (9,13))]
      [.attribute none "sensitive" none (.bool true)],
    .block none "output" (some (37,43)) [(.string "p",some (44,47))] [.attribute none "value" none value]]

def passwordRef : Expression := .traversal (.variable "var") [.getAttr "pw"]

theorem labelsSpanned_secret : LabelsSpanned (secretText "var.pw") (secretBody passwordRef) := by
  intro span ident identSpan labels inner hblock label labelSpan hlabel
  rcases List.mem_cons.mp hblock with heq | hblock
  · cases heq
    cases List.mem_singleton.mp hlabel
    exact ⟨(9,13),⟨⟨0,9⟩,⟨0,13⟩⟩,rfl,rfl⟩
  · cases List.mem_singleton.mp hblock
    cases List.mem_singleton.mp hlabel
    exact ⟨(44,47),⟨⟨3,7⟩,⟨3,10⟩⟩,rfl,rfl⟩

theorem plain_output_exact :
    sensitiveOutputDiagnostics (secretText "var.pw") (secretBody passwordRef) [] =
        (secretBody passwordRef).filterMap (outputDiagnostic (secretText "var.pw")
          (sensitiveNames (secretBody passwordRef) [])) ∧
      ((∀ s ∈ secretBody passwordRef, (outputDiagnostic (secretText "var.pw")
          (sensitiveNames (secretBody passwordRef) []) s).isSome ↔
            Leaky (sensitiveNames (secretBody passwordRef) []) s) ↔
        ∀ s ∈ secretBody passwordRef, ∀ labels value, Unmarked labels value s →
          Leaks (sensitiveNames (secretBody passwordRef) []) value →
            labels ≠ [] ∧ Shows (sensitiveNames (secretBody passwordRef) []) value) :=
  sensitiveOutputs_exact_iff labelsSpanned_secret

/-- The value `<<E` with an interpolation of the variable is not looked into. -/
theorem heredoc_output_unflagged :
    sensitiveOutputDiagnostics (secretText "<<E\n$\x7bvar.pw\x7d\nE")
        (secretBody (.heredocTemplate [.interpolation passwordRef,.literal "\n"])) [] = [] ∧
      ∃ s ∈ secretBody (.heredocTemplate [.interpolation passwordRef,.literal "\n"]),
        Leaky (sensitiveNames (secretBody (.heredocTemplate [.interpolation passwordRef,
          .literal "\n"])) []) s :=
  ⟨rfl,_,List.mem_cons_of_mem _ List.mem_cons_self,_,_,⟨_,_,_,rfl,rfl,rfl⟩,
    .inside rfl List.mem_cons_self (.ref rfl List.mem_cons_self)⟩

end outputs

end SensitiveOutputs
end TerraformLs
