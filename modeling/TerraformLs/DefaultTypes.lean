import TerraformLs.ConcreteSyntax
import TerraformLs.PlainShapes
import TerraformLs.ValueTypes

/-! The rule on the defaults of variables. A default is reported when its shape does not
satisfy the declared type of the variable. -/
namespace TerraformLs
namespace DefaultTypes

open VariableType ValueShape PlainShapes

section constants

/-! `render` is the text of a template, if it is a constant. -/

def insertValue (values : List (String × ConfigValue)) (e : String × ConfigValue) :
    List (String × ConfigValue) :=
  (values.filter fun g => g.1 ≠ e.1).orderedInsert (fun g h => g.1 ≤ h.1) e

variable (render : List Element → Option String)

mutual

/-- The value of an expression that is written with literals only. -/
def constantValue : Expression → Option ConfigValue
  | .null => some .null
  | .bool value => some (.bool value)
  | .number digits => some (.number digits)
  | .unaryOp .neg (.number digits) => some (.number ("-" ++ digits))
  | .string text => some (.string text)
  | .stringTemplate elements | .heredocTemplate elements => (render elements).map .string
  | .array items => (constantItems items).map .tuple
  | .object entries =>
    (constantEntries entries).map fun values => .object (values.foldl insertValue [])
  | .parenthesis inner => constantValue inner
  | _ => none

def constantItems : List Expression → Option (List ConfigValue)
  | [] => some []
  | item::items =>
    (constantValue item).bind fun v => (constantItems items).map fun values => v :: values

/-- A later field of a name replaces the earlier ones. -/
def constantEntries : List (ObjectKey × Expression) → Option (List (String × ConfigValue))
  | [] => some []
  | (key,value)::entries =>
    (objectKeyAsIdent key).bind fun name => (constantValue value).bind fun v =>
      (constantEntries entries).map fun values => (name,v) :: values

end

/-- A field of a shape and the field of a value. -/
def SameField (f : String × VariableType) (e : String × ConfigValue) : Prop :=
  f.1 = e.1 ∧ HasShape f.2 e.2

variable {render : List Element → Option String} {fields : List (String × VariableType)}
  {values : List (String × ConfigValue)} {f : String × VariableType} {e : String × ConfigValue}

theorem sameFields_orderedInsert (h : List.Forall₂ SameField fields values) (hf : SameField f e) :
    List.Forall₂ SameField (fields.orderedInsert (fun f g => f.1 ≤ g.1) f)
      (values.orderedInsert (fun f g => f.1 ≤ g.1) e) := by
  induction h with
  | nil => exact .cons hf .nil
  | @cons g e' fields values hg hrest ih =>
    rw [List.orderedInsert_cons,List.orderedInsert_cons,← hf.1,← hg.1]
    by_cases hle : f.1 ≤ g.1
    · rw [if_pos hle,if_pos hle]
      exact .cons hf (.cons hg hrest)
    · rw [if_neg hle,if_neg hle]
      exact .cons hg ih

theorem sameFields_insert (h : List.Forall₂ SameField fields values) (hf : SameField f e) :
    List.Forall₂ SameField (insertField fields f) (insertValue values e) := by
  refine sameFields_orderedInsert ?_ hf
  induction h with
  | nil => exact .nil
  | @cons g x fields values hg hrest ih =>
    rw [List.filter_cons,List.filter_cons,← hg.1,← hf.1]
    by_cases hne : g.1 ≠ f.1
    · rw [if_pos (decide_eq_true hne),if_pos (decide_eq_true hne)]
      exact .cons hg (hf.1 ▸ ih)
    · rw [if_neg (by simpa using hne),if_neg (by simpa using hne)]
      exact hf.1 ▸ ih

theorem sameFields_foldl {entries : List (String × VariableType)}
    {given : List (String × ConfigValue)} (h : List.Forall₂ SameField fields values)
    (hentries : List.Forall₂ SameField entries given) :
    List.Forall₂ SameField (entries.foldl insertField fields) (given.foldl insertValue values) := by
  induction hentries generalizing fields values with
  | nil => exact h
  | cons he _ ih => exact ih (sameFields_insert h he)

mutual

/-- The inferred shape tells nothing wrong of a constant. -/
theorem constant_hasShape : ∀ {e v}, constantValue render e = some v →
    HasShape (parseValueShape e) v
  | .null, _, _ => trivial
  | .bool _, _, h | .number _, _, h | .string _, _, h => by
    cases h
    trivial
  | .unaryOp _ _, _, _ => trivial
  | .stringTemplate elements, _, h | .heredocTemplate elements, _, h => by
    obtain ⟨text,-,rfl⟩ := Option.map_eq_some_iff.mp h
    trivial
  | .array items, _, h => by
    obtain ⟨values,hvalues,rfl⟩ := Option.map_eq_some_iff.mp h
    exact itemsHaveShape_iff.mpr (constantItems_haveShape hvalues)
  | .object entries, _, h => by
    obtain ⟨values,hvalues,rfl⟩ := Option.map_eq_some_iff.mp h
    exact fieldsHaveShape_iff.mpr (sameFields_foldl .nil (constantEntries_haveShape hvalues))
  | .parenthesis inner, _, h => constant_hasShape (e:=inner) h

theorem constantItems_haveShape : ∀ {items values}, constantItems render items = some values →
    List.Forall₂ HasShape (shapeItems items) values
  | [], _, h => by
    cases h
    exact .nil
  | item::items, _, h => by
    obtain ⟨v,hv,h⟩ := Option.bind_eq_some_iff.mp h
    obtain ⟨values,hvalues,rfl⟩ := Option.map_eq_some_iff.mp h
    exact .cons (constant_hasShape hv) (constantItems_haveShape hvalues)

theorem constantEntries_haveShape : ∀ {entries values}, constantEntries render entries = some values →
    List.Forall₂ SameField (shapeEntries entries) values
  | [], _, h => by
    cases h
    exact .nil
  | (key,value)::entries, _, h => by
    obtain ⟨name,hname,h⟩ := Option.bind_eq_some_iff.mp h
    obtain ⟨v,hv,h⟩ := Option.bind_eq_some_iff.mp h
    obtain ⟨values,hvalues,rfl⟩ := Option.map_eq_some_iff.mp h
    rw [shapeEntries,hname]
    exact .cons ⟨rfl,constant_hasShape hv⟩ (constantEntries_haveShape hvalues)

end

end constants

section declared

variable (texts : PrimitiveTexts)

mutual

/-- The type, as it is written, admits the value. Only optional fields may be absent. -/
def Admits : Expression → ConfigValue → Prop
  | .variable "string", v => texts.Converts .string v
  | .variable "number", v => texts.Converts .number v
  | .variable "bool", v => texts.Converts .bool v
  | .funcCall [] "list" [inner], v | .funcCall [] "set" [inner], v =>
    match v with
    | .null => True
    | .list items | .set items | .tuple items => ∀ w ∈ items, Admits inner w
    | _ => False
  | .funcCall [] "map" [inner], v =>
    match v with
    | .null => True
    | .map entries | .object entries => ∀ e ∈ entries, Admits inner e.2
    | _ => False
  | .funcCall [] "tuple" [.array types], v =>
    match v with
    | .null => True
    | .tuple items => AdmitsItems types items
    | _ => False
  | .funcCall [] "object" [.object entries], v =>
    match v with
    | .null => True
    | .object values =>
      (∀ e ∈ values, ∃ entry ∈ entries, objectKeyAsIdent entry.1 = some e.1) ∧
        AdmitsEntries entries values
    | _ => False
  | _, _ => True

def AdmitsItems : List Expression → List ConfigValue → Prop
  | [], [] => True
  | t::types, v::values => Admits t v ∧ AdmitsItems types values
  | _, _ => False

def AdmitsEntries : List (ObjectKey × Expression) → List (String × ConfigValue) → Prop
  | [], _ => True
  | (key,.funcCall [] "optional" (inner::_))::entries, values =>
    (∀ name v, objectKeyAsIdent key = some name → values.lookup name = some v → Admits inner v) ∧
      AdmitsEntries entries values
  | (key,t)::entries, values =>
    (∀ name, objectKeyAsIdent key = some name → ∃ v, values.lookup name = some v ∧ Admits t v) ∧
      AdmitsEntries entries values

end

variable {texts} {fields : List (String × VariableType)} {values : List (String × ConfigValue)}

theorem admitsItems_iff {types : List Expression} {items : List ConfigValue} :
    AdmitsItems texts types items ↔ List.Forall₂ (Admits texts) types items := by
  induction types generalizing items with
  | nil => cases items <;> simp [AdmitsItems]
  | cons t types ih => cases items <;> simp [AdmitsItems,ih]

theorem mem_names_foldl {entries : List (String × VariableType)} {k : String} :
    (∃ f ∈ entries.foldl insertField fields, f.1 = k) ↔
      (∃ f ∈ fields, f.1 = k) ∨ ∃ f ∈ entries, f.1 = k := by
  induction entries generalizing fields with
  | nil => simp
  | cons e entries ih =>
    have hinsert : (∃ f ∈ insertField fields e, f.1 = k) ↔ (∃ f ∈ fields, f.1 = k) ∨ e.1 = k := by
      constructor
      · rintro ⟨f,hf,rfl⟩
        rcases (List.mem_orderedInsert _).mp hf with rfl | hf
        · exact .inr rfl
        · exact .inl ⟨f,(List.mem_filter.mp hf).1,rfl⟩
      · rintro (⟨f,hf,rfl⟩ | rfl)
        · by_cases hname : f.1 = e.1
          · exact ⟨e,(List.mem_orderedInsert _).mpr (.inl rfl),hname.symm⟩
          · exact ⟨f,(List.mem_orderedInsert _).mpr
              (.inr (List.mem_filter.mpr ⟨hf,decide_eq_true hname⟩)),rfl⟩
        · exact ⟨e,(List.mem_orderedInsert _).mpr (.inl rfl),rfl⟩
    rw [List.foldl_cons,ih,hinsert,or_assoc,List.exists_mem_cons_iff]

theorem isSome_getField {k : String} : (getField fields k).isSome ↔ ∃ f ∈ fields, f.1 = k := by
  rw [Option.isSome_iff_ne_none,Ne,getField_eq_none]
  push Not
  rfl

theorem parseTypeEntries_of_mem {entries : List (ObjectKey × Expression)}
    {entry : ObjectKey × Expression} {name : String} (h : entry ∈ entries)
    (hname : objectKeyAsIdent entry.1 = some name) :
    ∃ f ∈ parseTypeEntries entries, f.1 = name := by
  induction entries with
  | nil => cases h
  | cons e entries ih =>
    obtain ⟨key,t⟩ := e
    rw [parseTypeEntries]
    rcases List.mem_cons.mp h with rfl | h
    · rw [hname]
      exact ⟨_,List.mem_cons_self,rfl⟩
    · obtain ⟨f,hf,hfname⟩ := ih h
      cases objectKeyAsIdent key with
      | none => exact ⟨f,hf,hfname⟩
      | some _ => exact ⟨f,List.mem_cons_of_mem _ hf,hfname⟩

theorem field_of_admitsEntries {entries : List (ObjectKey × Expression)} {key : ObjectKey}
    {t : Expression} {name : String} (h : AdmitsEntries texts entries values)
    (hentry : (key,t) ∈ entries) (hname : objectKeyAsIdent key = some name) :
    parseTypeExpr t = .any ∨ ∃ v, values.lookup name = some v ∧ Admits texts t v := by
  induction entries with
  | nil => cases hentry
  | cons entry entries ih =>
    rw [AdmitsEntries.eq_def] at h
    split at h
    · rename_i heq
      cases heq
    · rename_i heq
      cases heq
      rcases List.mem_cons.mp hentry with heq | hentry
      · cases heq
        exact .inl (by rw [parseTypeExpr] <;> simp)
      · exact ih h.2 hentry
    · rename_i heq
      cases heq
      rcases List.mem_cons.mp hentry with heq | hentry
      · cases heq
        exact .inr (h.1 name hname)
      · exact ih h.2 hentry

/-- What is read of the type accepts every value that the type admits. -/
theorem accepts_of_admits (e : Expression) {v : ConfigValue} (h : Admits texts e v) :
    Accepts texts (parseTypeExpr e) v := by
  rw [parseTypeExpr.eq_def]
  split
  · rw [Admits] at h
    exact h
  · rw [Admits] at h
    exact h
  · rw [Admits] at h
    exact h
  · rename_i inner
    cases v with
    | null => trivial
    | list items | set items | tuple items =>
      rw [Admits] at h
      exact fun w hw => accepts_of_admits inner (h w hw)
    | _ => simp [Admits] at h
  · rename_i inner
    cases v with
    | null => trivial
    | list items | set items | tuple items =>
      rw [Admits] at h
      exact fun w hw => accepts_of_admits inner (h w hw)
    | _ => simp [Admits] at h
  · rename_i inner
    cases v with
    | null => trivial
    | map entries | object entries =>
      rw [Admits] at h
      exact fun e he => accepts_of_admits inner (h e he)
    | _ => simp [Admits] at h
  · rename_i types
    cases v with
    | null => trivial
    | tuple items =>
      rw [Admits,admitsItems_iff] at h
      refine acceptsItems_iff.mpr ?_
      rw [parseTypeItems_eq,List.forall₂_map_left_iff]
      have hsizes : ∀ t ∈ types, sizeOf t < sizeOf types := fun t ht => List.sizeOf_lt_of_mem ht
      have hboth := (List.forall₂_and_left types items).mpr ⟨hsizes,h⟩
      exact hboth.imp fun t v ⟨hsize,hv⟩ => accepts_of_admits t hv
    | _ => simp [Admits] at h
  · rename_i entries
    cases v with
    | null => trivial
    | object values =>
      rw [Admits] at h
      refine ⟨fun e he => ?_,acceptsFields_iff.mpr fun f hf => ?_⟩
      · obtain ⟨entry,hentry,hname⟩ := h.1 e he
        exact isSome_getField.mpr (mem_names_foldl.mpr (.inr (parseTypeEntries_of_mem hentry hname)))
      · obtain ⟨⟨key,t⟩,hentry,hname,ht⟩ := mem_parseTypeEntries ((fieldsOf_subperm _).subset hf)
        have hsize := List.sizeOf_lt_of_mem hentry
        rw [ht]
        rcases field_of_admitsEntries h.2 hentry hname with hany | ⟨v,hv,hadmits⟩
        · rw [hany]
          cases values.lookup f.1 <;> trivial
        · rw [hv]
          exact accepts_of_admits t hadmits
    | _ => simp [Admits] at h
  · trivial
termination_by sizeOf e
decreasing_by all_goals (subst_vars; simp at *; try omega)

end declared

section rule

/-- What a variable declares, with the place of the default. -/
structure VariableDefault where
  typeExpr : Expression
  defaultExpr : Expression
  span : Option Spanned.Span

/-! `spanOf` is the place of an attribute, as the parser records it. -/

variable (spanOf : Structure → Option Spanned.Span)

/-- The last attribute of a name, and its value. -/
def lastAttribute (name : String) (body : Body) : Option (Structure × Expression) :=
  (body.filterMap fun item => match item with
    | .attribute key _ value => if key = name then some (item,value) else none
    | .block _ _ _ => none).getLast?

/-- A variable without a type or without a default is passed over. -/
def variableDefault : Structure → Option VariableDefault
  | .attribute _ _ _ => none
  | .block ident _ body =>
    if ident = "variable" then
      (lastAttribute "type" body).bind fun t =>
        (lastAttribute "default" body).map fun d => ⟨t.2,d.2,spanOf d.1⟩
    else none

def mismatchDiagnostic (rope : Rope) (d : VariableDefault) : Diagnostic :=
  let declared := parseTypeExpr d.typeExpr
  let actual := parseValueShape d.defaultExpr
  let detail := explainMismatch declared actual
  { range := ConcreteSyntax.rangeOrDefault rope (d.span.getD (0,0))
    severity := some .error
    source := some "terraform-ls-rs"
    message :=
      if detail = "" then String.join ["default value of type ",quoted actual.display,
        " does not match declared type ",quoted declared.display]
      else String.join ["default does not match declared type ",quoted declared.display,": ",detail] }

def variableDefaultTypeDiagnostics (body : Body) (rope : Rope) : List Diagnostic :=
  (body.filterMap (variableDefault spanOf)).filterMap fun d =>
    if satisfies (parseTypeExpr d.typeExpr) (parseValueShape d.defaultExpr) then none
    else some (mismatchDiagnostic rope d)

/-- Whatever value of its shape the default has, the declared type refuses it. -/
def Mismatched (texts : PrimitiveTexts) (d : VariableDefault) : Prop :=
  ∀ v, HasShape (parseValueShape d.defaultExpr) v → ¬Accepts texts (parseTypeExpr d.typeExpr) v

variable {texts : PrimitiveTexts} {d : VariableDefault}

theorem mismatched_iff : Mismatched texts d ↔
    ¬satisfies (parseTypeExpr d.typeExpr) (parseValueShape d.defaultExpr) := by
  refine ⟨fun h hsat => ?_,fun h v hv haccepts => h (satisfies_of_accepts hv haccepts)⟩
  have hexists : ∃ v, HasShape (parseValueShape d.defaultExpr) v ∧
      Accepts texts (parseTypeExpr d.typeExpr) v :=
    exists_accepted (keyed_parseTypeExpr _) (keyed_parseValueShape _) hsat
  obtain ⟨v,hv,haccepts⟩ := hexists
  exact h v hv haccepts

/-- Every report says what does not match. -/
theorem message_explains (rope : Rope) (h : Mismatched texts d) :
    (mismatchDiagnostic rope d).message = String.join ["default does not match declared type ",
      quoted (parseTypeExpr d.typeExpr).display,": ",
      explainMismatch (parseTypeExpr d.typeExpr) (parseValueShape d.defaultExpr)] := by
  refine if_neg fun hempty => mismatched_iff.mp h ?_
  exact (explainMismatch_eq_empty (keyed_parseTypeExpr _) (keyed_parseValueShape _)).mp hempty

/-- Exactly the mismatched defaults are reported, and none of them is a constant that
the declared type admits. -/
theorem variableDefaultTypeDiagnostics_exact (texts : PrimitiveTexts)
    (render : List Element → Option String) (body : Body) (rope : Rope)
    [DecidablePred (Mismatched texts)] :
    variableDefaultTypeDiagnostics spanOf body rope =
      ((body.filterMap (variableDefault spanOf)).filter fun d => Mismatched texts d).map
        (mismatchDiagnostic rope) ∧
    ∀ d ∈ body.filterMap (variableDefault spanOf), Mismatched texts d →
      ∀ v, constantValue render d.defaultExpr = some v → ¬Admits texts d.typeExpr v := by
  constructor
  · rw [variableDefaultTypeDiagnostics]
    induction body.filterMap (variableDefault spanOf) with
    | nil => rfl
    | cons d ds ih =>
      rw [List.filterMap_cons,List.filter_cons]
      by_cases h : satisfies (parseTypeExpr d.typeExpr) (parseValueShape d.defaultExpr)
      · have hnot : ¬Mismatched texts d := fun hm => mismatched_iff.mp hm h
        rw [if_pos h,if_neg (by simpa using hnot),ih]
      · have hm : Mismatched texts d := mismatched_iff.mpr h
        rw [if_neg h,if_pos (decide_eq_true hm),ih,List.map_cons]
  · intro d _ h v hv hadmits
    exact h v (constant_hasShape hv) (accepts_of_admits d.typeExpr hadmits)

end rule

end DefaultTypes
end TerraformLs
