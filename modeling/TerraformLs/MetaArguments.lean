import TerraformLs.CyclicLocals
import TerraformLs.LeftOut
import TerraformLs.Scopes

/-! The rule about the repetition of blocks: `each` and `count` are in scope only in a block
with the argument that brings them. -/
namespace TerraformLs
namespace Scopes

def rangeOf (rope : Rope) (span : Option Span) : Option Range :=
  span.bind fun s => (rope.hclSpanToLspRange s).toOption

def defaultRange : Range := ⟨⟨0,0⟩,⟨0,0⟩⟩

def attrRange (rope : Rope) (attr : Attribute) : Option Range := rangeOf rope attr.keySpan

def report (range : Range) (severity : DiagnosticSeverity) (message : String) : Diagnostic :=
  ⟨range,some severity,some "terraform-ls-rs",message⟩

def dependsOnText : String :=
  "depends_on entries must be references, not strings — remove the quotes around `"

def dependsOnMessage (value : String) : String := dependsOnText ++ value ++ "`"

/-- Entries are references and not strings. -/
def checkDependsOn (rope : Rope) : Expression → List Diagnostic
  | .array _ items => items.filterMap fun
    | .string span value =>
      some (report ((rangeOf rope span).getD defaultRange) .error (dependsOnMessage value))
    | _ => none
  | _ => []

/-- What a traversal of a repetition begins with. -/
def scopeSymbol : Expression → Option String
  | .traversal _ (.variable _ name) _ => if name = "each" ∨ name = "count" then some name else none
  | _ => none

/-- The argument that brings a name into scope. -/
def needs (sym : String) : String := if sym = "each" then "for_each" else "count"

def scopeMessage (sym : String) : String :=
  "`" ++ sym ++ ".*` is only valid in a block with `" ++ needs sym ++ "` set"

def scopeDiagnostic (rope : Rope) (hasForEach hasCount : Bool) (e : Expression) : Option Diagnostic :=
  (scopeSymbol e).bind fun sym =>
    if (if sym = "each" then hasForEach else hasCount) then none
    else some (report ((rangeOf rope e.span).getD defaultRange) .error (scopeMessage sym))

def attributesOf (body : Body) (key : String) : List Attribute :=
  (body.filterMap Structure.asAttribute).filter fun a => a.key = key

def checkBlock (body : Body) (rope : Rope) : List Diagnostic :=
  let countRange := (attributesOf body "count").getLast?.bind (attrRange rope)
  let forEach := ((attributesOf body "for_each").filterMap fun a =>
    (attrRange rope a).map fun r => (r,a.value)).getLast?
  let dependsOn := (attributesOf body "depends_on").flatMap fun a => checkDependsOn rope a.value
  let both := match countRange, forEach with
    | some _, some (feRange,_) =>
      [report feRange .error "`count` and `for_each` cannot both be set on the same block"]
    | _, _ => []
  let overList := match forEach with
    | some (feRange,.array _ _) => [report feRange .warning ("`for_each` requires a map or a set of " ++
        "strings, not a list — wrap the value in `toset(...)`")]
    | _ => []
  dependsOn ++ both ++ overList ++
    (visitBody body).filterMap (scopeDiagnostic rope forEach.isSome countRange.isSome)

/-- The blocks that can be repeated. -/
def repeatable (body : Body) : List Body :=
  (body.filterMap Structure.asBlock).filterMap fun b =>
    if b.1 = "resource" ∨ b.1 = "data" ∨ b.1 = "module" then some b.2 else none

def metaArgumentDiagnostics (body : Body) (rope : Rope) : List Diagnostic :=
  (repeatable body).flatMap fun b => checkBlock b rope

section spec

def isScopeDiagnostic (d : Diagnostic) : Bool :=
  d.message = scopeMessage "each" || d.message = scopeMessage "count"

/-- The block has an argument of that name. -/
def Has (body : Body) (key : String) : Prop := attributesOf body key ≠ []

instance (body : Body) (key : String) : Decidable (Has body key) :=
  inferInstanceAs (Decidable (_ ≠ _))

/-- An occurrence that no argument and no comprehension brings into scope. -/
def freeUse (rope : Rope) (body : Body) (x : Expression × List String) : Option Diagnostic :=
  (scopeSymbol x.1).bind fun sym =>
    if Has body (needs sym) ∨ sym ∈ x.2 then none
    else some (report ((rangeOf rope x.1.span).getD defaultRange) .error (scopeMessage sym))

/-- Of the uses out of scope, exactly the free ones are reported, each in its place. -/
def ScopingExact (body : Body) (rope : Rope) : Prop :=
  (metaArgumentDiagnostics body rope).filter isScopeDiagnostic =
    (repeatable body).flatMap fun b => (scopedBody b).filterMap (freeUse rope b)

end spec

section lemmas

variable {body : Body} {rope : Rope}

theorem scopeSymbol_eq_some {e : Expression} {sym : String} (h : scopeSymbol e = some sym) :
    sym = "each" ∨ sym = "count" := by
  cases e with
  | traversal span expr operators =>
    cases expr with
    | «variable» headSpan name =>
      rw [scopeSymbol] at h
      split_ifs at h with hname
      obtain rfl := Option.some.inj h
      exact hname
    | _ => cases h
  | _ => cases h

theorem isScopeDiagnostic_report {sym : String} (h : sym = "each" ∨ sym = "count") (range : Range)
    (severity : DiagnosticSeverity) : isScopeDiagnostic (report range severity (scopeMessage sym)) = true := by
  rcases h with rfl | rfl <;> simp [isScopeDiagnostic,report]

theorem scopeMessage_head (sym : String) : (scopeMessage sym).toList.head? = some '`' := by
  simp only [scopeMessage,String.toList_append,List.append_assoc]
  rfl

theorem dependsOnMessage_head (value : String) : (dependsOnMessage value).toList.head? = some 'd' := by
  have hhead : dependsOnText.toList.head? = some 'd' := by decide +kernel
  unfold dependsOnMessage
  rw [String.append_assoc,String.toList_append,List.head?_append,hhead,Option.some_or]

theorem isScopeDiagnostic_head {d : Diagnostic} (h : isScopeDiagnostic d = true) :
    d.message.toList.head? = some '`' := by
  rw [isScopeDiagnostic,Bool.or_eq_true,decide_eq_true_eq,decide_eq_true_eq] at h
  rcases h with h | h <;> rw [h] <;> exact scopeMessage_head _

theorem mem_checkDependsOn {value : Expression} {d : Diagnostic} (h : d ∈ checkDependsOn rope value) :
    ∃ range text, d = report range .error (dependsOnMessage text) := by
  cases value with
  | array span items =>
    obtain ⟨item,-,hitem⟩ := List.mem_filterMap.mp h
    cases item with
    | string itemSpan text => exact ⟨_,text,(Option.some.inj hitem).symm⟩
    | _ => cases hitem
  | _ => cases h

/-- The other reports of a block are told apart by their messages. -/
theorem filter_checkBlock (body : Body) (rope : Rope) :
    (checkBlock body rope).filter isScopeDiagnostic = (visitBody body).filterMap (scopeDiagnostic rope
      ((attributesOf body "for_each").filterMap fun a =>
        (attrRange rope a).map fun r => (r,a.value)).getLast?.isSome
      ((attributesOf body "count").getLast?.bind (attrRange rope)).isSome) := by
  rw [checkBlock]
  generalize (attributesOf body "count").getLast?.bind (attrRange rope) = countRange
  generalize ((attributesOf body "for_each").filterMap fun a =>
    (attrRange rope a).map fun r => (r,a.value)).getLast? = forEach
  rw [List.filter_append,List.filter_append,List.filter_append]
  have hdepends : ((attributesOf body "depends_on").flatMap fun a => checkDependsOn rope a.value).filter
      isScopeDiagnostic = [] := by
    rw [List.filter_eq_nil_iff]
    intro d hd hscope
    obtain ⟨a,-,hd⟩ := List.mem_flatMap.mp hd
    obtain ⟨range,text,rfl⟩ := mem_checkDependsOn hd
    have hhead := (isScopeDiagnostic_head hscope).symm.trans (dependsOnMessage_head text)
    cases hhead
  have hscope : ((visitBody body).filterMap
      (scopeDiagnostic rope forEach.isSome countRange.isSome)).filter isScopeDiagnostic =
      (visitBody body).filterMap (scopeDiagnostic rope forEach.isSome countRange.isSome) := by
    rw [List.filter_eq_self]
    intro d hd
    obtain ⟨e,-,he⟩ := List.mem_filterMap.mp hd
    obtain ⟨sym,hsym,hd⟩ := Option.bind_eq_some_iff.mp he
    split_ifs at hd
    all_goals
      obtain rfl := Option.some.inj hd
      exact isScopeDiagnostic_report (scopeSymbol_eq_some hsym) _ _
  rw [hdepends,hscope,List.nil_append]
  have hboth : (match countRange, forEach with
      | some _, some (feRange,_) =>
        [report feRange .error "`count` and `for_each` cannot both be set on the same block"]
      | _, _ => []).filter isScopeDiagnostic = [] := by
    rcases countRange with _ | _ <;> rcases forEach with _ | ⟨feRange,value⟩ <;> rfl
  have hlist : (match forEach with
      | some (feRange,.array _ _) => [report feRange .warning ("`for_each` requires a map or a set of " ++
          "strings, not a list — wrap the value in `toset(...)`")]
      | _ => []).filter isScopeDiagnostic = [] := by
    rcases forEach with _ | ⟨feRange,value⟩
    · rfl
    · cases value <;> rfl
  rw [hboth,hlist]
  rfl

/-- The spans of the keys of a parsed document lie in its text. -/
def KeysPlaced (rope : Rope) (body : Body) : Prop :=
  ∀ a ∈ body.filterMap Structure.asAttribute, (attrRange rope a).isSome

theorem forEach_isSome (h : KeysPlaced rope body) :
    ((attributesOf body "for_each").filterMap fun a =>
      (attrRange rope a).map fun r => (r,a.value)).getLast?.isSome = decide (Has body "for_each") := by
  rw [Bool.eq_iff_iff,List.getLast?_isSome,decide_eq_true_iff]
  refine not_congr ?_
  rw [List.filterMap_eq_nil_iff]
  constructor
  · intro hnone
    rw [List.eq_nil_iff_forall_not_mem]
    intro a ha
    have hplaced := h a (List.mem_of_mem_filter ha)
    rw [Option.map_eq_none_iff.mp (hnone a ha)] at hplaced
    cases hplaced
  · intro hnil a ha
    rw [hnil] at ha
    exact absurd ha List.not_mem_nil

theorem count_isSome (h : KeysPlaced rope body) :
    ((attributesOf body "count").getLast?.bind (attrRange rope)).isSome = decide (Has body "count") := by
  unfold Has
  cases hlast : (attributesOf body "count").getLast? with
  | none => simp [List.getLast?_eq_none_iff.mp hlast]
  | some a =>
    have ha := List.mem_of_getLast? hlast
    rw [Option.bind_some,h a (List.mem_of_mem_filter ha)]
    exact (decide_eq_true (List.ne_nil_of_mem ha)).symm

/-- A comprehension around it binds the name that it begins with. -/
def BoundUse (x : Expression × List String) : Prop := ∃ sym, scopeSymbol x.1 = some sym ∧ sym ∈ x.2

instance (x : Expression × List String) : Decidable (BoundUse x) :=
  decidable_of_iff ((scopeSymbol x.1).any (fun sym => decide (sym ∈ x.2)) = true) (by
    simp only [Option.any_eq_true,decide_eq_true_eq]
    rfl)

theorem freeUse_eq (rope : Rope) (body : Body) (x : Expression × List String) :
    freeUse rope body x = if BoundUse x then none else
      scopeDiagnostic rope (decide (Has body "for_each")) (decide (Has body "count")) x.1 := by
  rw [freeUse,scopeDiagnostic]
  cases hsym : scopeSymbol x.1 with
  | none => exact (ite_self none).symm
  | some sym =>
    have hbound : BoundUse x ↔ sym ∈ x.2 := by
      constructor
      · rintro ⟨sym',hsym',hmem⟩
        obtain rfl := Option.some.inj (hsym.symm.trans hsym')
        exact hmem
      · exact fun hmem => ⟨sym,hsym,hmem⟩
    rw [Option.bind_some,Option.bind_some]
    by_cases hmem : sym ∈ x.2
    · rw [if_pos (Or.inr hmem),if_pos (hbound.mpr hmem)]
    · rw [if_neg (mt hbound.mp hmem)]
      rcases scopeSymbol_eq_some hsym with rfl | rfl
      · simp [needs,hmem]
      · simp [needs,hmem]

theorem scopeDiagnostic_eq_none {e : Expression} {sym : String} (hsym : scopeSymbol e = some sym) :
    scopeDiagnostic rope (decide (Has body "for_each")) (decide (Has body "count")) e = none ↔
      Has body (needs sym) := by
  rw [scopeDiagnostic,hsym,Option.bind_some]
  rcases scopeSymbol_eq_some hsym with rfl | rfl
  · simp [needs]
  · simp [needs]

end lemmas

section theorems

variable {body : Body} {rope : Rope}

/-- The rule is exact when comprehensions bind neither name where its argument is not set. -/
theorem scoping_exact_iff (h : ∀ b ∈ repeatable body, KeysPlaced rope b) :
    ScopingExact body rope ↔ ∀ b ∈ repeatable body, ∀ x ∈ scopedBody b, ∀ sym,
      scopeSymbol x.1 = some sym → ¬Has b (needs sym) → sym ∉ x.2 := by
  let uses := (repeatable body).flatMap fun b => (scopedBody b).map fun x => (b,x)
  let reported (use : Body × Expression × List String) : Option Diagnostic :=
    scopeDiagnostic rope (decide (Has use.1 "for_each")) (decide (Has use.1 "count")) use.2.1
  have hreported : (metaArgumentDiagnostics body rope).filter isScopeDiagnostic =
      uses.filterMap reported := by
    rw [metaArgumentDiagnostics,List.filter_flatMap,List.filterMap_flatMap]
    refine List.flatMap_congr fun b hb => ?_
    rw [filter_checkBlock,forEach_isSome (h b hb),count_isSome (h b hb),← scopedBody_fst,
      List.filterMap_map,List.filterMap_map]
    rfl
  have hfree : ((repeatable body).flatMap fun b => (scopedBody b).filterMap (freeUse rope b)) =
      uses.filterMap fun use => if BoundUse use.2 then none else reported use := by
    rw [List.filterMap_flatMap]
    refine List.flatMap_congr fun b hb => ?_
    rw [List.filterMap_map]
    exact List.filterMap_congr fun x _ => freeUse_eq rope b x
  rw [ScopingExact,hreported,hfree,LeftOut.filterMap_eq_iff]
  constructor
  · intro hnone b hb x hx sym hsym hneeds hmem
    have huse : (b,x) ∈ uses := List.mem_flatMap.mpr ⟨b,hb,List.mem_map_of_mem hx⟩
    exact hneeds ((scopeDiagnostic_eq_none hsym).mp (hnone (b,x) huse ⟨sym,hsym,hmem⟩))
  · rintro hclear ⟨b,x⟩ huse ⟨sym,hsym,hmem⟩
    obtain ⟨b',hb,huse⟩ := List.mem_flatMap.mp huse
    obtain ⟨x',hx,huse⟩ := List.mem_map.mp huse
    obtain ⟨rfl,rfl⟩ := Prod.mk.inj huse
    refine (scopeDiagnostic_eq_none hsym).mpr ?_
    by_contra hneeds
    exact hclear b' hb x' hx sym hsym hneeds hmem

/-- The text `resource "a" "b" {\n name = each.key\n}\n`. -/
def eachRope : Rope := "resource \"a\" \"b\" \x7b\n name = each.key\n\x7d\n".toList

def eachBody : Body :=
  [.block "resource" [.attribute ⟨"name",some (20,24),
    .traversal (some (27,35)) (.variable (some (27,31)) "each") [.getAttr "key"]⟩]]

theorem scoping_exact_each : (∀ b ∈ repeatable eachBody, KeysPlaced eachRope b) ∧
    ((metaArgumentDiagnostics eachBody eachRope).filter isScopeDiagnostic).length = 1 ∧
    ScopingExact eachBody eachRope := by
  have hplaced : ∀ b ∈ repeatable eachBody, KeysPlaced eachRope b := by
    unfold KeysPlaced
    decide
  refine ⟨hplaced,by decide,(scoping_exact_iff hplaced).mpr ?_⟩
  intro b hb x hx sym hsym hneeds hmem
  have hfree : ∀ b ∈ repeatable eachBody, ∀ x ∈ scopedBody b, x.2 = [] := by decide
  rw [hfree b hb x hx] at hmem
  exact absurd hmem List.not_mem_nil

/-- The text `resource "a" "b" {\n ids = [for each in var.l : each.id]\n}\n`. -/
def boundRope : Rope :=
  "resource \"a\" \"b\" \x7b\n ids = [for each in var.l : each.id]\n\x7d\n".toList

def boundBody : Body :=
  [.block "resource" [.attribute ⟨"ids",some (20,23),
    .forExpr (some (26,55)) none "each"
      (.traversal (some (39,44)) (.variable (some (39,42)) "var") [.getAttr "l"]) none
      (.traversal (some (47,54)) (.variable (some (47,51)) "each") [.getAttr "id"]) none⟩]]

/-- The variable of a comprehension is reported. -/
theorem bound_each_reported : ¬ScopingExact boundBody boundRope := by
  unfold ScopingExact
  decide

end theorems

end Scopes
end TerraformLs
