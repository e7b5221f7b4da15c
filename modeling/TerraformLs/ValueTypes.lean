import TerraformLs.TypeChecks

/-! What types say of values. A value has the shape that is inferred for it when the
shape tells nothing wrong of it, and it is accepted by a declared type when it can be
converted to it. A shape satisfies a declared type exactly if some value of the shape is
accepted. -/
namespace TerraformLs

/-- A value of the language. A number is given by its text. -/
inductive ConfigValue
  | null
  | bool (value : Bool)
  | number (digits : String)
  | string (text : String)
  | list (items : List ConfigValue)
  | set (items : List ConfigValue)
  | map (entries : List (String × ConfigValue))
  | tuple (items : List ConfigValue)
  | object (fields : List (String × ConfigValue))
  deriving Inhabited

/-- The strings that are converted to a number or to a boolean. -/
structure PrimitiveTexts where
  number : Set String
  bool : Set String
  someNumber : number.Nonempty
  someBool : bool.Nonempty

namespace PrimitiveTexts

def Converts (texts : PrimitiveTexts) : Primitive → ConfigValue → Prop
  | _, .null => True
  | .string, .string _ | .string, .number _ | .string, .bool _ => True
  | .number, .number _ => True
  | .number, .string text => text ∈ texts.number
  | .bool, .bool _ => True
  | .bool, .string text => text ∈ texts.bool
  | _, _ => False

end PrimitiveTexts

def Primitive.Holds : Primitive → ConfigValue → Prop
  | .string, .string _ | .number, .number _ | .bool, .bool _ => True
  | _, _ => False

namespace VariableType

section definitions

mutual

/-- The value is of the kind that the shape says, as far as it says any. -/
def HasShape : VariableType → ConfigValue → Prop
  | .any, _ => True
  | .primitive p, v => p.Holds v
  | .list t, v =>
    match v with
    | .list items => ∀ w ∈ items, HasShape t w
    | _ => False
  | .set t, v =>
    match v with
    | .set items => ∀ w ∈ items, HasShape t w
    | _ => False
  | .map t, v =>
    match v with
    | .map entries => ∀ e ∈ entries, HasShape t e.2
    | _ => False
  | .tuple types, v =>
    match v with
    | .tuple items => ItemsHaveShape types items
    | _ => False
  | .object fields, v =>
    match v with
    | .object values => FieldsHaveShape fields values
    | _ => False

def ItemsHaveShape : List VariableType → List ConfigValue → Prop
  | [], [] => True
  | t::types, v::values => HasShape t v ∧ ItemsHaveShape types values
  | _, _ => False

def FieldsHaveShape : List (String × VariableType) → List (String × ConfigValue) → Prop
  | [], [] => True
  | (k,t)::fields, (j,v)::values => k = j ∧ HasShape t v ∧ FieldsHaveShape fields values
  | _, _ => False

end

variable (texts : PrimitiveTexts)

mutual

/-- The value can be converted to the type. An object has no fields but the declared
ones, and lacks none unless it is declared of any type. -/
def Accepts : VariableType → ConfigValue → Prop
  | .any, _ => True
  | .primitive p, v => texts.Converts p v
  | .list t, v | .set t, v =>
    match v with
    | .null => True
    | .list items | .set items | .tuple items => ∀ w ∈ items, Accepts t w
    | _ => False
  | .map t, v =>
    match v with
    | .null => True
    | .map entries | .object entries => ∀ e ∈ entries, Accepts t e.2
    | _ => False
  | .tuple types, v =>
    match v with
    | .null => True
    | .tuple items => AcceptsItems types items
    | _ => False
  | .object fields, v =>
    match v with
    | .null => True
    | .object values =>
      (∀ e ∈ values, (getField fields e.1).isSome) ∧ AcceptsFields fields values
    | _ => False

def AcceptsItems : List VariableType → List ConfigValue → Prop
  | [], [] => True
  | t::types, v::values => Accepts t v ∧ AcceptsItems types values
  | _, _ => False

def AcceptsFields : List (String × VariableType) → List (String × ConfigValue) → Prop
  | [], _ => True
  | (k,t)::fields, values =>
    (match values.lookup k with
      | some v => Accepts t v
      | none => t.isAny) ∧ AcceptsFields fields values

end

end definitions

section lemmas

variable {texts : PrimitiveTexts} {d a : VariableType} {v : ConfigValue}
  {fields : List (String × VariableType)} {values : List (String × ConfigValue)}

theorem itemsHaveShape_iff {types : List VariableType} {items : List ConfigValue} :
    ItemsHaveShape types items ↔ List.Forall₂ HasShape types items := by
  induction types generalizing items with
  | nil => cases items <;> simp [ItemsHaveShape]
  | cons t types ih => cases items <;> simp [ItemsHaveShape,ih]

theorem fieldsHaveShape_iff : FieldsHaveShape fields values ↔
    List.Forall₂ (fun f e => f.1 = e.1 ∧ HasShape f.2 e.2) fields values := by
  induction fields generalizing values with
  | nil => cases values <;> simp [FieldsHaveShape]
  | cons f fields ih => cases values <;> simp [FieldsHaveShape,ih,and_assoc]

theorem acceptsItems_iff {types : List VariableType} {items : List ConfigValue} :
    AcceptsItems texts types items ↔ List.Forall₂ (Accepts texts) types items := by
  induction types generalizing items with
  | nil => cases items <;> simp [AcceptsItems]
  | cons t types ih => cases items <;> simp [AcceptsItems,ih]

/-- Whether a declared type accepts the field of a value, if there is one. -/
def FieldAccepted (texts : PrimitiveTexts) (t : VariableType) : Option ConfigValue → Prop
  | some v => Accepts texts t v
  | none => t.isAny

theorem acceptsFields_iff : AcceptsFields texts fields values ↔
    ∀ f ∈ fields, FieldAccepted texts f.2 (values.lookup f.1) := by
  induction fields with
  | nil => simp [AcceptsFields]
  | cons f fields ih =>
    obtain ⟨k,t⟩ := f
    rw [AcceptsFields,ih,List.forall_mem_cons]
    cases values.lookup k <;> rfl

theorem accepts_null : ∀ t, Accepts texts t .null
  | .any | .list _ | .set _ | .map _ | .tuple _ | .object _ => trivial
  | .primitive .string | .primitive .number | .primitive .bool => trivial

/-- The fields of a shape and of a value are found under the same names. -/
theorem lookup_rel {R : String → VariableType → ConfigValue → Prop}
    (h : List.Forall₂ (fun f e => f.1 = e.1 ∧ R f.1 f.2 e.2) fields values) (k : String) :
    Option.Rel (R k) (getField fields k) (values.lookup k) := by
  induction h with
  | nil => exact .none
  | @cons f e fields values hfe _ ih =>
    obtain ⟨hname,hr⟩ := hfe
    rw [getField_cons,List.lookup_cons,← hname]
    by_cases hk : f.1 = k
    · subst hk
      rw [if_pos rfl,beq_self_eq_true]
      exact .some hr
    · rw [if_neg hk,beq_eq_false_iff_ne.mpr (Ne.symm hk)]
      exact ih

end lemmas

section satisfies

variable {texts : PrimitiveTexts} {d a : VariableType} {v : ConfigValue}

theorem primitivesCompatible_of_accepts {p q : Primitive} (hv : q.Holds v)
    (h : texts.Converts p v) : primitivesCompatible p q := by
  cases p <;> cases q <;> cases v <;> first | rfl | exact hv.elim | exact h.elim

theorem exists_primitive {p q : Primitive} (h : primitivesCompatible p q) :
    ∃ v, q.Holds v ∧ texts.Converts p v := by
  obtain ⟨number,hnumber⟩ := texts.someNumber
  obtain ⟨bool,hbool⟩ := texts.someBool
  cases q with
  | string =>
    cases p with
    | string => exact ⟨.string "",trivial,trivial⟩
    | number => exact ⟨.string number,trivial,hnumber⟩
    | bool => exact ⟨.string bool,trivial,hbool⟩
  | number =>
    cases p with
    | string | number => exact ⟨.number "0",trivial,trivial⟩
    | bool => cases h
  | bool =>
    cases p with
    | string | bool => exact ⟨.bool true,trivial,trivial⟩
    | number => cases h

/-- Every shape has a value. -/
theorem exists_hasShape (a : VariableType) : ∃ v, HasShape a v := by
  induction a with
  | any => exact ⟨.null,trivial⟩
  | primitive p =>
    cases p with
    | string => exact ⟨.string "",trivial⟩
    | number => exact ⟨.number "0",trivial⟩
    | bool => exact ⟨.bool true,trivial⟩
  | list t _ => exact ⟨.list [],fun w hw => absurd hw List.not_mem_nil⟩
  | set t _ => exact ⟨.set [],fun w hw => absurd hw List.not_mem_nil⟩
  | map t _ => exact ⟨.map [],fun e he => absurd he List.not_mem_nil⟩
  | tuple types ih =>
    choose! w hw using ih
    refine ⟨.tuple (types.map w),itemsHaveShape_iff.mpr ?_⟩
    rw [List.forall₂_map_right_iff]
    exact List.forall₂_same.mpr hw
  | object fields ih =>
    choose! w hw using ih
    refine ⟨.object (fields.map fun f => (f.1,w f)),fieldsHaveShape_iff.mpr ?_⟩
    rw [List.forall₂_map_right_iff]
    exact List.forall₂_same.mpr fun f hf => ⟨rfl,hw f hf⟩

theorem exists_related {α β : Type} {R : α → β → Prop} {as : List α} {bs : List β}
    (h : List.Forall₂ R as bs) {x : α} (hx : x ∈ as) : ∃ y ∈ bs, R x y := by
  induction h with
  | nil => cases hx
  | cons hr _ ih =>
    rcases List.mem_cons.mp hx with rfl | hx
    · exact ⟨_,List.mem_cons_self,hr⟩
    · obtain ⟨y,hy,hr⟩ := ih hx
      exact ⟨y,List.mem_cons_of_mem _ hy,hr⟩

theorem satisfies_list_of_accepts {inner : VariableType}
    (ih : ∀ {a v}, HasShape a v → Accepts texts inner v → satisfies inner a)
    (hv : HasShape a v) (h : Accepts texts (.list inner) v) : satisfies (.list inner) a := by
  cases a with
  | any | list _ | set _ => rfl
  | tuple types =>
    cases v with
    | tuple items =>
      have hitems : List.Forall₂ HasShape types items := itemsHaveShape_iff.mp hv
      rw [satisfies_list_tuple]
      intro t ht
      obtain ⟨w,hw,htw⟩ := exists_related hitems ht
      exact ih htw (h w hw)
    | _ => exact hv.elim
  | primitive q => cases q <;> cases v <;> first | exact hv.elim | exact h.elim
  | _ => cases v <;> first | exact hv.elim | exact h.elim

theorem satisfies_map_of_accepts {inner : VariableType}
    (ih : ∀ {a v}, HasShape a v → Accepts texts inner v → satisfies inner a)
    (hv : HasShape a v) (h : Accepts texts (.map inner) v) : satisfies (.map inner) a := by
  cases a with
  | any | map _ => rfl
  | object fields =>
    cases v with
    | object values =>
      have hfields := fieldsHaveShape_iff.mp hv
      rw [satisfies_map_object]
      intro f hf
      obtain ⟨e,he,-,hshape⟩ := exists_related hfields hf
      exact ih hshape (h e he)
    | _ => exact hv.elim
  | primitive q => cases q <;> cases v <;> first | exact hv.elim | exact h.elim
  | _ => cases v <;> first | exact hv.elim | exact h.elim

theorem satisfies_tuple_of_accepts {declared : List VariableType}
    (ih : ∀ d ∈ declared, ∀ {a v}, HasShape a v → Accepts texts d v → satisfies d a)
    (hv : HasShape a v) (h : Accepts texts (.tuple declared) v) : satisfies (.tuple declared) a := by
  cases a with
  | any => rfl
  | tuple types =>
    cases v with
    | tuple items =>
      have hshapes := itemsHaveShape_iff.mp hv
      have haccepts := acceptsItems_iff.mp h
      rw [satisfies,satisfiesItems_iff]
      clear h hv
      induction haccepts generalizing types with
      | nil =>
        cases hshapes
        exact .nil
      | cons hd _ hrest =>
        obtain _ | ⟨hs,hshapes⟩ := hshapes
        exact .cons (ih _ List.mem_cons_self hs hd)
          (hrest (fun d hd => ih d (List.mem_cons_of_mem _ hd)) _ hshapes)
    | _ => exact hv.elim
  | primitive q => cases q <;> cases v <;> first | exact hv.elim | exact h.elim
  | _ => cases v <;> first | exact hv.elim | exact h.elim

theorem satisfies_object_of_accepts {declared : List (String × VariableType)}
    (ih : ∀ f ∈ declared, ∀ {a v}, HasShape a v → Accepts texts f.2 v → satisfies f.2 a)
    (hv : HasShape a v) (h : Accepts texts (.object declared) v) : satisfies (.object declared) a := by
  cases a with
  | any => rfl
  | object fields =>
    cases v with
    | object values =>
      have hfields := fieldsHaveShape_iff.mp hv
      obtain ⟨hknown,haccepts⟩ := h
      rw [acceptsFields_iff] at haccepts
      rw [satisfies_object]
      constructor
      · intro f hf
        obtain ⟨e,he,hname,-⟩ := exists_related hfields hf
        exact hname ▸ hknown e he
      · intro f hf
        have hrel := lookup_rel (R:=fun _ t v => HasShape t v) hfields f.1
        have hfield := haccepts f hf
        generalize getField fields f.1 = t at hrel ⊢
        generalize values.lookup f.1 = w at hrel hfield
        cases hrel with
        | none => exact hfield
        | some hshape => exact ih f hf hshape hfield
    | _ => exact hv.elim
  | primitive q => cases q <;> cases v <;> first | exact hv.elim | exact h.elim
  | _ => cases v <;> first | exact hv.elim | exact h.elim

/-- A value of a shape that a declared type accepts shows that the shape satisfies it. -/
theorem satisfies_of_accepts (hv : HasShape a v) (h : Accepts texts d v) : satisfies d a := by
  induction d generalizing a v with
  | any => rfl
  | primitive p =>
    cases a with
    | any => rfl
    | primitive q => exact primitivesCompatible_of_accepts hv h
    | _ => cases v <;> first | exact hv.elim | (cases p <;> exact h.elim)
  | list inner ih => exact satisfies_list_of_accepts ih hv h
  | set inner ih =>
    rw [satisfies_set]
    exact satisfies_list_of_accepts ih hv h
  | map inner ih => exact satisfies_map_of_accepts ih hv h
  | tuple declared ih => exact satisfies_tuple_of_accepts (fun d hd => ih d hd) hv h
  | object declared ih => exact satisfies_object_of_accepts (fun f hf => ih f hf) hv h

theorem exists_list_accepted {inner : VariableType}
    (ih : ∀ {a}, a.Keyed → satisfies inner a → ∃ v, HasShape a v ∧ Accepts texts inner v)
    (ha : a.Keyed) (h : satisfies (.list inner) a) :
    ∃ v, HasShape a v ∧ Accepts texts (.list inner) v := by
  cases a with
  | any => exact ⟨.null,trivial,trivial⟩
  | list t => exact ⟨.list [],nofun,nofun⟩
  | set t => exact ⟨.set [],nofun,nofun⟩
  | tuple types =>
    rw [satisfies_list_tuple] at h
    have hexists : ∀ t ∈ types, ∃ w, HasShape t w ∧ Accepts texts inner w :=
      fun t ht => ih (keyed_tuple.mp ha t ht) (h t ht)
    choose! w hw using hexists
    refine ⟨.tuple (types.map w),itemsHaveShape_iff.mpr ?_,fun v hv => ?_⟩
    · rw [List.forall₂_map_right_iff]
      exact List.forall₂_same.mpr fun t ht => (hw t ht).1
    · obtain ⟨t,ht,rfl⟩ := List.mem_map.mp hv
      exact (hw t ht).2
  | _ => cases h

theorem exists_map_accepted {inner : VariableType}
    (ih : ∀ {a}, a.Keyed → satisfies inner a → ∃ v, HasShape a v ∧ Accepts texts inner v)
    (ha : a.Keyed) (h : satisfies (.map inner) a) :
    ∃ v, HasShape a v ∧ Accepts texts (.map inner) v := by
  cases a with
  | any => exact ⟨.null,trivial,trivial⟩
  | map t => exact ⟨.map [],nofun,nofun⟩
  | object fields =>
    rw [satisfies_map_object] at h
    have hexists : ∀ f ∈ fields, ∃ w, HasShape f.2 w ∧ Accepts texts inner w :=
      fun f hf => ih ((keyed_object.mp ha).2 f hf) (h f hf)
    choose! w hw using hexists
    refine ⟨.object (fields.map fun f => (f.1,w f)),fieldsHaveShape_iff.mpr ?_,fun e he => ?_⟩
    · rw [List.forall₂_map_right_iff]
      exact List.forall₂_same.mpr fun f hf => ⟨rfl,(hw f hf).1⟩
    · obtain ⟨f,hf,rfl⟩ := List.mem_map.mp he
      exact (hw f hf).2
  | _ => cases h

theorem exists_tuple_accepted {declared : List VariableType}
    (ih : ∀ d ∈ declared, ∀ {a}, a.Keyed → satisfies d a → ∃ v, HasShape a v ∧ Accepts texts d v)
    (ha : a.Keyed) (h : satisfies (.tuple declared) a) :
    ∃ v, HasShape a v ∧ Accepts texts (.tuple declared) v := by
  cases a with
  | any => exact ⟨.null,trivial,trivial⟩
  | tuple types =>
    have hkeyed := keyed_tuple.mp ha
    rw [satisfies,satisfiesItems_iff] at h
    suffices hitems : ∃ items, ItemsHaveShape types items ∧ AcceptsItems texts declared items by
      obtain ⟨items,hshapes,haccepts⟩ := hitems
      exact ⟨.tuple items,hshapes,haccepts⟩
    clear ha
    induction h with
    | nil => exact ⟨[],trivial,trivial⟩
    | cons hd _ hrest =>
      obtain ⟨v,hv,haccepts⟩ := ih _ List.mem_cons_self (hkeyed _ List.mem_cons_self) hd
      obtain ⟨items,hshapes,hitems⟩ := hrest (fun d hd => ih d (List.mem_cons_of_mem _ hd))
        fun t ht => hkeyed t (List.mem_cons_of_mem _ ht)
      exact ⟨v :: items,⟨hv,hshapes⟩,haccepts,hitems⟩
  | _ => cases h

theorem exists_object_accepted {declared : List (String × VariableType)}
    (ih : ∀ f ∈ declared, ∀ {a}, a.Keyed → satisfies f.2 a → ∃ v, HasShape a v ∧ Accepts texts f.2 v)
    (hd : (object declared).Keyed) (ha : a.Keyed) (h : satisfies (.object declared) a) :
    ∃ v, HasShape a v ∧ Accepts texts (.object declared) v := by
  cases a with
  | any => exact ⟨.null,trivial,trivial⟩
  | object fields =>
    obtain ⟨hnames,hfields⟩ := keyed_object.mp ha
    obtain ⟨hdeclared,-⟩ := keyed_object.mp hd
    obtain ⟨hknown,hsatisfied⟩ := satisfies_object.mp h
    -- a value for each field, which the declared field of that name accepts
    have hexists : ∀ f ∈ fields, ∃ w, HasShape f.2 w ∧
        ∀ d, getField declared f.1 = some d → Accepts texts d w := by
      intro f hf
      obtain ⟨d,hget⟩ := Option.isSome_iff_exists.mp (hknown f hf)
      have hmem : (f.1,d) ∈ declared := mem_of_getField hget
      have hfield := hsatisfied _ hmem
      rw [getField_of_mem hnames hf] at hfield
      obtain ⟨w,hw,haccepts⟩ := ih _ hmem (hfields f hf) hfield
      refine ⟨w,hw,fun d' hd' => ?_⟩
      rw [hget] at hd'
      exact Option.some.inj hd' ▸ haccepts
    choose! w hw using hexists
    have hvalues : List.Forall₂ (fun f (e : String × ConfigValue) => f.1 = e.1 ∧ HasShape f.2 e.2 ∧
        ∀ d, getField declared f.1 = some d → Accepts texts d e.2) fields
        (fields.map fun f => (f.1,w f)) := by
      rw [List.forall₂_map_right_iff]
      exact List.forall₂_same.mpr fun f hf => ⟨rfl,hw f hf⟩
    refine ⟨.object (fields.map fun f => (f.1,w f)),?_,?_,?_⟩
    · exact fieldsHaveShape_iff.mpr (hvalues.imp fun _ _ h => ⟨h.1,h.2.1⟩)
    · intro e he
      obtain ⟨f,hf,rfl⟩ := List.mem_map.mp he
      exact hknown f hf
    · rw [acceptsFields_iff]
      intro f hf
      have hget : getField declared f.1 = some f.2 := getField_of_mem hdeclared hf
      have hrel := lookup_rel (R:=fun k t v => HasShape t v ∧
        ∀ d, getField declared k = some d → Accepts texts d v) hvalues f.1
      have hfield := hsatisfied f hf
      generalize getField fields f.1 = t at hrel hfield
      generalize List.lookup f.1 _ = v at hrel ⊢
      cases hrel with
      | none => exact hfield
      | some hr => exact hr.2 _ hget
  | _ => cases h

/-- A declared type that a shape satisfies accepts a value of the shape. -/
theorem exists_accepted (hd : d.Keyed) (ha : a.Keyed) (h : satisfies d a) :
    ∃ v, HasShape a v ∧ Accepts texts d v := by
  induction d generalizing a with
  | any =>
    obtain ⟨v,hv⟩ := exists_hasShape a
    exact ⟨v,hv,trivial⟩
  | primitive p =>
    cases a with
    | any => exact ⟨.null,trivial,accepts_null _⟩
    | primitive q => exact exists_primitive h
    | _ => cases h
  | list inner ih => exact exists_list_accepted (ih hd) ha h
  | set inner ih =>
    rw [satisfies_set] at h
    exact exists_list_accepted (ih hd) ha h
  | map inner ih => exact exists_map_accepted (ih hd) ha h
  | tuple declared ih =>
    exact exists_tuple_accepted (fun d hd' => ih d hd' (keyed_tuple.mp hd d hd')) ha h
  | object declared ih =>
    exact exists_object_accepted (fun f hf => ih f hf ((keyed_object.mp hd).2 f hf)) hd ha h

/-- A shape satisfies a declared type exactly if the type accepts a value of the shape. -/
theorem satisfies_iff_exists (texts : PrimitiveTexts) (d a : KeyedType) :
    satisfies d a ↔ ∃ v, HasShape a v ∧ Accepts texts d v :=
  ⟨exists_accepted d.2 a.2,fun ⟨_,hv,h⟩ => satisfies_of_accepts hv h⟩

end satisfies

end VariableType
end TerraformLs
