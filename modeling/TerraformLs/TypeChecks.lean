import Mathlib.Data.List.Basic
import Mathlib.Order.Basic
import TerraformLs.ValueShape

/-! When a value of one type satisfies a declared type, and the explanation given when
it does not. A type that is not known satisfies everything and is satisfied by everything. -/
namespace TerraformLs

def Primitive.display : Primitive → String
  | .string => "string"
  | .number => "number"
  | .bool => "bool"

namespace VariableType

@[induction_eliminator]
theorem ind {motive : VariableType → Prop} (any : motive .any)
    (primitive : ∀ p, motive (.primitive p)) (list : ∀ item, motive item → motive (.list item))
    (set : ∀ item, motive item → motive (.set item))
    (map : ∀ item, motive item → motive (.map item))
    (tuple : ∀ items, (∀ item ∈ items, motive item) → motive (.tuple items))
    (object : ∀ fields, (∀ field ∈ fields, motive field.2) → motive (.object fields)) :
    ∀ t, motive t := fun t =>
  @VariableType.rec motive (fun items => ∀ item ∈ items, motive item)
    (fun fields => ∀ field ∈ fields, motive field.2) (fun f => motive f.2)
    any primitive list set map tuple object (by simp)
    (fun _ _ hhead htail => List.forall_mem_cons.mpr ⟨hhead,htail⟩) (by simp)
    (fun _ _ hhead htail => List.forall_mem_cons.mpr ⟨hhead,htail⟩) (fun _ _ h => h) t

section definitions

mutual

/-- How a type is written. -/
def display : VariableType → String
  | .any => "any"
  | .primitive p => p.display
  | .list inner => String.join ["list(",display inner,")"]
  | .set inner => String.join ["set(",display inner,")"]
  | .map inner => String.join ["map(",display inner,")"]
  | .tuple items => String.join ["tuple([",", ".intercalate (displayItems items),"])"]
  | .object fields =>
    String.join ["object(\x7b ",", ".intercalate (displayFields fields)," \x7d)"]

def displayItems : List VariableType → List String
  | [] => []
  | t::items => display t :: displayItems items

def displayFields : List (String × VariableType) → List String
  | [] => []
  | (k,v)::fields => String.join [k," = ",display v] :: displayFields fields

end

/-- Terraform converts strings to numbers and to booleans, and back. -/
def primitivesCompatible : Primitive → Primitive → Bool
  | .number, .bool | .bool, .number => false
  | _, _ => true

mutual

/-- The element types of two collections are not compared. A field that is declared
of any type may be absent. -/
def satisfies : VariableType → VariableType → Bool
  | .any, _ => true
  | .primitive p, actual =>
    match actual with
    | .any => true
    | .primitive q => primitivesCompatible p q
    | _ => false
  | .list inner, actual | .set inner, actual =>
    match actual with
    | .any | .list _ | .set _ => true
    | .tuple items => items.all (satisfies inner)
    | _ => false
  | .map inner, actual =>
    match actual with
    | .any | .map _ => true
    | .object fields => fields.all fun f => satisfies inner f.2
    | _ => false
  | .tuple declared, actual =>
    match actual with
    | .any => true
    | .tuple items => satisfiesItems declared items
    | _ => false
  | .object declared, actual =>
    match actual with
    | .any => true
    | .object fields =>
      !(fields.any fun f => (getField declared f.1).isNone) && satisfiesFields declared fields
    | _ => false

def satisfiesItems : List VariableType → List VariableType → Bool
  | [], [] => true
  | d::declared, a::actual => satisfies d a && satisfiesItems declared actual
  | _, _ => false

def satisfiesFields : List (String × VariableType) → List (String × VariableType) → Bool
  | [], _ => true
  | (k,d)::declared, actual =>
    (match getField actual k with
      | some a => satisfies d a
      | none => d.isAny) && satisfiesFields declared actual

end

/-- Fields of the value that are not declared. -/
def extraFields (declared actual : List (String × VariableType)) : List String :=
  (actual.map Prod.fst).filter fun k => (getField declared k).isNone

def missingFields (declared actual : List (String × VariableType)) : List String :=
  (declared.filter fun f => (getField actual f.1).isNone && !f.2.isAny).map Prod.fst

/-- Fields whose types do not match, with the declared and the actual type. -/
def wrongFields (declared actual : List (String × VariableType)) :
    List (String × VariableType × VariableType) :=
  declared.filterMap fun f => (getField actual f.1).bind fun a =>
    if satisfies f.2 a then none else some (f.1,f.2,a)

def quoted (text : String) : String := String.join ["`",text,"`"]

/-- `what` and the fields, unless there are none. -/
def fieldsPart (what : String) (names : List String) : List String :=
  if names = [] then []
  else [String.join [what,if names.length = 1 then "" else "s",": ",
    ", ".intercalate (names.map quoted)]]

def mismatchPart (declared actual : VariableType) : String :=
  String.join ["expected ",quoted declared.display,", got ",quoted actual.display]

/-- The explanation of unknown, missing and wrong fields. -/
def fieldsExplanation (unknown missing : List String)
    (wrong : List (String × VariableType × VariableType)) : String :=
  "; ".intercalate (fieldsPart "unknown field" unknown ++ fieldsPart "missing field" missing ++
    wrong.map fun f => String.join [quoted f.1," ",mismatchPart f.2.1 f.2.2])

def explainMismatch (declared actual : VariableType) : String :=
  if satisfies declared actual then ""
  else
    match declared,actual with
    | .object decl, .object act =>
      fieldsExplanation (extraFields decl act) (missingFields decl act) (wrongFields decl act)
    | _, _ => mismatchPart declared actual

end definitions

section keyed

mutual

/-- Every object has its fields in the order of their names, each name once. -/
def Keyed : VariableType → Prop
  | .any | .primitive _ => True
  | .list inner | .set inner | .map inner => Keyed inner
  | .tuple items => KeyedItems items
  | .object fields => fields.Pairwise (fun f g => f.1 < g.1) ∧ KeyedFields fields

def KeyedItems : List VariableType → Prop
  | [] => True
  | t::items => Keyed t ∧ KeyedItems items

def KeyedFields : List (String × VariableType) → Prop
  | [] => True
  | (_,t)::fields => Keyed t ∧ KeyedFields fields

end

/-- The types that the maps of the source hold. -/
abbrev KeyedType := {t : VariableType // t.Keyed}

theorem keyedItems_iff {items : List VariableType} :
    KeyedItems items ↔ ∀ t ∈ items, t.Keyed := by
  induction items with
  | nil => simp [KeyedItems]
  | cons t items ih => simp [KeyedItems,ih]

theorem keyedFields_iff {fields : List (String × VariableType)} :
    KeyedFields fields ↔ ∀ f ∈ fields, f.2.Keyed := by
  induction fields with
  | nil => simp [KeyedFields]
  | cons f fields ih => simp [KeyedFields,ih]

theorem keyed_tuple {items : List VariableType} :
    (tuple items).Keyed ↔ ∀ t ∈ items, t.Keyed := by
  rw [Keyed,keyedItems_iff]

theorem keyed_object {fields : List (String × VariableType)} : (object fields).Keyed ↔
    fields.Pairwise (fun f g => f.1 < g.1) ∧ ∀ f ∈ fields, f.2.Keyed := by
  rw [Keyed,keyedFields_iff]

end keyed

section fields

variable {fields : List (String × VariableType)} {k : String} {t : VariableType}

@[simp] theorem getField_nil : getField [] k = none := rfl

theorem getField_cons (f : String × VariableType) :
    getField (f :: fields) k = if f.1 = k then some f.2 else getField fields k := by
  rw [getField,List.find?_cons]
  by_cases h : f.1 = k
  · simp [h]
  · simp [h,getField]

theorem mem_of_getField (h : getField fields k = some t) : (k,t) ∈ fields := by
  induction fields with
  | nil => cases h
  | cons f fields ih =>
    rw [getField_cons] at h
    split_ifs at h with hk
    · cases h
      exact hk ▸ List.mem_cons_self
    · exact List.mem_cons_of_mem f (ih h)

theorem getField_eq_none : getField fields k = none ↔ ∀ f ∈ fields, f.1 ≠ k := by
  simp [getField]

theorem getField_of_mem (hkeys : fields.Pairwise fun f g => f.1 < g.1) (h : (k,t) ∈ fields) :
    getField fields k = some t := by
  induction fields with
  | nil => cases h
  | cons f fields ih =>
    obtain ⟨hlt,hrest⟩ := List.pairwise_cons.mp hkeys
    rw [getField_cons]
    rcases List.mem_cons.mp h with rfl | h
    · rw [if_pos rfl]
    · rw [if_neg (hlt _ h).ne,ih hrest h]

theorem mem_iff_getField (hkeys : fields.Pairwise fun f g => f.1 < g.1) :
    (k,t) ∈ fields ↔ getField fields k = some t :=
  ⟨getField_of_mem hkeys,mem_of_getField⟩

end fields

section satisfies

variable {declared actual : List (String × VariableType)} {d a : VariableType}

@[simp] theorem satisfies_any_right : ∀ d, satisfies d .any = true
  | .any | .primitive _ | .list _ | .set _ | .map _ | .tuple _ | .object _ => rfl

theorem satisfies_list_tuple {inner : VariableType} {items : List VariableType} :
    satisfies (.list inner) (.tuple items) ↔ ∀ t ∈ items, satisfies inner t := by
  simp [satisfies]

/-- A set is declared for the same values as a list. -/
theorem satisfies_set (inner : VariableType) :
    ∀ a, satisfies (.set inner) a = satisfies (.list inner) a
  | .any | .primitive _ | .list _ | .set _ | .map _ | .tuple _ | .object _ => rfl

theorem satisfies_map_object {inner : VariableType} :
    satisfies (.map inner) (.object actual) ↔ ∀ f ∈ actual, satisfies inner f.2 := by
  simp [satisfies]

theorem satisfiesItems_iff {items items' : List VariableType} :
    satisfiesItems items items' ↔ List.Forall₂ (fun d a => satisfies d a) items items' := by
  induction items generalizing items' with
  | nil => cases items' <;> simp [satisfiesItems]
  | cons d items ih => cases items' <;> simp [satisfiesItems,ih]

/-- Whether a declared field is satisfied by the field of that name, if there is one. -/
def fieldSatisfied (declared : VariableType) : Option VariableType → Bool
  | some actual => satisfies declared actual
  | none => declared.isAny

theorem satisfiesFields_iff : satisfiesFields declared actual ↔
    ∀ f ∈ declared, fieldSatisfied f.2 (getField actual f.1) := by
  induction declared with
  | nil => simp [satisfiesFields]
  | cons f declared ih =>
    obtain ⟨k,d⟩ := f
    rw [satisfiesFields,Bool.and_eq_true,ih,List.forall_mem_cons]
    cases getField actual k <;> simp [fieldSatisfied]

theorem satisfies_object : satisfies (.object declared) (.object actual) ↔
    (∀ f ∈ actual, (getField declared f.1).isSome) ∧
      ∀ f ∈ declared, fieldSatisfied f.2 (getField actual f.1) := by
  rw [satisfies,Bool.and_eq_true,satisfiesFields_iff]
  simp [Option.isSome_iff_ne_none]

end satisfies

section ignorance

/-- A step from a type to one right below it. -/
inductive TypeStep
  | inner
  | item (idx : ℕ)
  | field (name : String)

mutual

/-- Every type below whose place is in the set is replaced by the unknown type. -/
def forget : VariableType → (List TypeStep → Bool) → VariableType
  | .any, _ => .any
  | .primitive p, hidden => if hidden [] then .any else .primitive p
  | .list t, hidden => if hidden [] then .any else .list (forget t fun path => hidden (.inner::path))
  | .set t, hidden => if hidden [] then .any else .set (forget t fun path => hidden (.inner::path))
  | .map t, hidden => if hidden [] then .any else .map (forget t fun path => hidden (.inner::path))
  | .tuple items, hidden => if hidden [] then .any else .tuple (forgetItems items 0 hidden)
  | .object fields, hidden => if hidden [] then .any else .object (forgetFields fields hidden)

def forgetItems : List VariableType → ℕ → (List TypeStep → Bool) → List VariableType
  | [], _, _ => []
  | t::items, idx, hidden =>
    forget t (fun path => hidden (.item idx::path)) :: forgetItems items (idx+1) hidden

def forgetFields : List (String × VariableType) → (List TypeStep → Bool) →
    List (String × VariableType)
  | [], _ => []
  | (k,t)::fields, hidden =>
    (k,forget t fun path => hidden (.field k::path)) :: forgetFields fields hidden

end

theorem mem_forgetItems {items : List VariableType} {idx : ℕ} {hidden : List TypeStep → Bool}
    {t : VariableType} (h : t ∈ forgetItems items idx hidden) :
    ∃ s ∈ items, ∃ below, t = forget s below := by
  induction items generalizing idx with
  | nil => cases h
  | cons s items ih =>
    rw [forgetItems] at h
    rcases List.mem_cons.mp h with rfl | h
    · exact ⟨s,List.mem_cons_self,_,rfl⟩
    · obtain ⟨s',hs',hbelow⟩ := ih h
      exact ⟨s',List.mem_cons_of_mem s hs',hbelow⟩

theorem mem_forgetFields {fields : List (String × VariableType)} {hidden : List TypeStep → Bool}
    {f : String × VariableType} (h : f ∈ forgetFields fields hidden) :
    ∃ g ∈ fields, f.1 = g.1 ∧ f.2 = forget g.2 fun path => hidden (.field g.1::path) := by
  induction fields with
  | nil => cases h
  | cons g fields ih =>
    rw [forgetFields] at h
    rcases List.mem_cons.mp h with rfl | h
    · exact ⟨g,List.mem_cons_self,rfl,rfl⟩
    · obtain ⟨g',hg',hf⟩ := ih h
      exact ⟨g',List.mem_cons_of_mem g hg',hf⟩

theorem getField_forgetFields (fields : List (String × VariableType))
    (hidden : List TypeStep → Bool) (k : String) : getField (forgetFields fields hidden) k =
      (getField fields k).map fun t => forget t fun path => hidden (.field k::path) := by
  induction fields with
  | nil => rfl
  | cons f fields ih =>
    rw [forgetFields,getField_cons,getField_cons]
    by_cases h : f.1 = k
    · subst h
      simp
    · rw [if_neg h,if_neg h,ih]

theorem forget_hidden {hidden : List TypeStep → Bool} (h : hidden [] = true) (t : VariableType) :
    forget t hidden = .any := by
  cases t <;> simp [forget,h]

/-- It is enough to look at types that are known before and after. -/
theorem satisfies_forget_of_shown {d a : VariableType} {hidden hidden' : List TypeStep → Bool}
    (h : hidden [] = false → hidden' [] = false → a ≠ .any →
      satisfies (forget d hidden) (forget a hidden')) :
    satisfies (forget d hidden) (forget a hidden') := by
  by_cases hd : hidden [] = true
  · rw [forget_hidden hd]
    rfl
  by_cases ha : hidden' [] = true
  · rw [forget_hidden ha,satisfies_any_right]
  by_cases hany : a = .any
  · rw [hany,forget,satisfies_any_right]
  · exact h (by simpa using hd) (by simpa using ha) hany

theorem satisfiesItems_forget {declared actual : List VariableType}
    (ih : ∀ d ∈ declared, ∀ a hidden hidden', satisfies d a →
      satisfies (forget d hidden) (forget a hidden'))
    (h : satisfiesItems declared actual) (idx idx' : ℕ) (hidden hidden' : List TypeStep → Bool) :
    satisfiesItems (forgetItems declared idx hidden) (forgetItems actual idx' hidden') := by
  induction declared generalizing actual idx idx' with
  | nil =>
    cases actual with
    | nil => rfl
    | cons a actual => cases h
  | cons d declared ihd =>
    cases actual with
    | nil => cases h
    | cons a actual =>
      obtain ⟨hfirst,hrest⟩ := List.forall_mem_cons.mp ih
      rw [satisfiesItems,Bool.and_eq_true] at h
      rw [forgetItems,forgetItems,satisfiesItems,Bool.and_eq_true]
      exact ⟨hfirst a _ _ h.1,ihd hrest h.2 _ _⟩

theorem isAny_forget {t : VariableType} (h : t.isAny) (hidden : List TypeStep → Bool) :
    (forget t hidden).isAny := by
  cases t with
  | any => rfl
  | _ => cases h

theorem satisfies_list_forget {inner a : VariableType}
    (ih : ∀ a hidden hidden', satisfies inner a → satisfies (forget inner hidden) (forget a hidden'))
    (h : satisfies (.list inner) a) (hany : a ≠ .any) {hidden' : List TypeStep → Bool}
    (ha : hidden' [] = false) (hidden : List TypeStep → Bool) :
    satisfies (.list (forget inner hidden)) (forget a hidden') := by
  cases a with
  | any => exact absurd rfl hany
  | tuple items =>
    simp only [forget,ha,Bool.false_eq_true,if_false]
    refine satisfies_list_tuple.mpr fun t ht => ?_
    obtain ⟨s,hs,below,rfl⟩ := mem_forgetItems ht
    exact ih s _ _ (satisfies_list_tuple.mp h s hs)
  | list _ | set _ => simp [forget,ha,satisfies]
  | _ => simp [satisfies] at h

theorem satisfies_object_forget {declared actual : List (String × VariableType)}
    (ih : ∀ f ∈ declared, ∀ a hidden hidden', satisfies f.2 a →
      satisfies (forget f.2 hidden) (forget a hidden'))
    (h : satisfies (.object declared) (.object actual)) (hidden hidden' : List TypeStep → Bool) :
    satisfies (.object (forgetFields declared hidden)) (.object (forgetFields actual hidden')) := by
  obtain ⟨hknown,hfields⟩ := satisfies_object.mp h
  refine satisfies_object.mpr ⟨fun f hf => ?_,fun f hf => ?_⟩
  · obtain ⟨g,hg,hname,-⟩ := mem_forgetFields hf
    rw [hname,getField_forgetFields,Option.isSome_map]
    exact hknown g hg
  · obtain ⟨g,hg,hname,ht⟩ := mem_forgetFields hf
    have hfield := hfields g hg
    rw [hname,ht,getField_forgetFields]
    cases hact : getField actual g.1 with
    | none =>
      rw [hact] at hfield
      exact isAny_forget hfield _
    | some a =>
      rw [hact] at hfield
      exact ih g hg a _ _ hfield

/-- Knowing less never makes a type unsatisfied. -/
theorem satisfies_forget (d a : VariableType) (hidden hidden' : List TypeStep → Bool)
    (h : satisfies d a) : satisfies (forget d hidden) (forget a hidden') := by
  induction d generalizing a hidden hidden' with
  | any => rfl
  | primitive p =>
    refine satisfies_forget_of_shown fun hd ha hany => ?_
    cases a with
    | any => exact absurd rfl hany
    | primitive q => simpa [forget,hd,ha] using h
    | _ => simp [satisfies] at h
  | list inner ih =>
    refine satisfies_forget_of_shown fun hd ha hany => ?_
    simp only [forget,hd,Bool.false_eq_true,if_false]
    exact satisfies_list_forget ih h hany ha _
  | set inner ih =>
    refine satisfies_forget_of_shown fun hd ha hany => ?_
    simp only [forget,hd,Bool.false_eq_true,if_false]
    rw [satisfies_set] at h ⊢
    exact satisfies_list_forget ih h hany ha _
  | map inner ih =>
    refine satisfies_forget_of_shown fun hd ha hany => ?_
    cases a with
    | any => exact absurd rfl hany
    | object fields =>
      simp only [forget,hd,ha,Bool.false_eq_true,if_false]
      refine satisfies_map_object.mpr fun f hf => ?_
      obtain ⟨g,hg,-,ht⟩ := mem_forgetFields hf
      rw [ht]
      exact ih g.2 _ _ (satisfies_map_object.mp h g hg)
    | map _ => simp [forget,hd,ha,satisfies]
    | _ => simp [satisfies] at h
  | tuple declared ih =>
    refine satisfies_forget_of_shown fun hd ha hany => ?_
    cases a with
    | any => exact absurd rfl hany
    | tuple items =>
      simp only [forget,hd,ha,Bool.false_eq_true,if_false]
      exact satisfiesItems_forget ih h 0 0 hidden hidden'
    | _ => simp [satisfies] at h
  | object declared ih =>
    refine satisfies_forget_of_shown fun hd ha hany => ?_
    cases a with
    | any => exact absurd rfl hany
    | object fields =>
      simp only [forget,hd,ha,Bool.false_eq_true,if_false]
      exact satisfies_object_forget ih h hidden hidden'
    | _ => simp [satisfies] at h

theorem satisfies_refl {t : VariableType} (h : t.Keyed) : satisfies t t := by
  induction t with
  | any | list _ _ | set _ _ | map _ _ => rfl
  | primitive p => cases p <;> rfl
  | tuple items ih =>
    have hitems := keyed_tuple.mp h
    refine satisfiesItems_iff.mpr (List.forall₂_same.mpr fun t ht => ih t ht (hitems t ht))
  | object fields ih =>
    obtain ⟨hkeys,hfields⟩ := keyed_object.mp h
    have hget : ∀ f ∈ fields, getField fields f.1 = some f.2 := fun f hf => getField_of_mem hkeys hf
    refine satisfies_object.mpr ⟨fun f hf => ?_,fun f hf => ?_⟩
    · rw [hget f hf]
      rfl
    · rw [hget f hf]
      exact ih f hf (hfields f hf)

/-- What is satisfied stays satisfied when any part of the declared and of the actual
type is replaced by the unknown type, and every type satisfies itself. -/
theorem satisfies_of_less_known :
    (∀ d a : VariableType, satisfies d a → ∀ hidden hidden' : List TypeStep → Bool,
      satisfies (forget d hidden) (forget a hidden')) ∧
    ∀ t : KeyedType, satisfies t.1 t.1 :=
  ⟨fun d a h hidden hidden' => satisfies_forget d a hidden hidden' h,fun t => satisfies_refl t.2⟩

end ignorance

section explanation

variable {declared actual : List (String × VariableType)}

/-- Nothing speaks against the field of that name: it is declared and satisfied, or it
is neither declared nor there. -/
def FieldSatisfied (declared actual : List (String × VariableType)) (k : String) : Prop :=
  match getField declared k with
  | some d => fieldSatisfied d (getField actual k)
  | none => getField actual k = none

/-- Each field that is not satisfied is named, once and for what is wrong with it. -/
structure Explains (declared actual : List (String × VariableType)) (unknown missing : List String)
    (wrong : List (String × VariableType × VariableType)) : Prop where
  isUnknown : ∀ k, k ∈ unknown ↔ getField declared k = none ∧ (getField actual k).isSome
  isMissing : ∀ k, k ∈ missing ↔
    getField actual k = none ∧ ∃ d, getField declared k = some d ∧ d.isAny = false
  isWrong : ∀ k d a, (k,d,a) ∈ wrong ↔
    getField declared k = some d ∧ getField actual k = some a ∧ satisfies d a = false
  named : ∀ k, k ∈ unknown ++ missing ++ wrong.map Prod.fst ↔ ¬FieldSatisfied declared actual k
  once : (unknown ++ missing ++ wrong.map Prod.fst).Nodup

theorem satisfies_iff_fields (hd : (object declared).Keyed) (ha : (object actual).Keyed) :
    satisfies (.object declared) (.object actual) ↔ ∀ k, FieldSatisfied declared actual k := by
  obtain ⟨hdkeys,-⟩ := keyed_object.mp hd
  obtain ⟨hakeys,-⟩ := keyed_object.mp ha
  rw [satisfies_object]
  constructor
  · rintro ⟨hknown,hfields⟩ k
    rw [FieldSatisfied]
    cases hdk : getField declared k with
    | some d => exact hfields _ (mem_of_getField hdk)
    | none =>
      cases hak : getField actual k with
      | none => rfl
      | some a =>
        have hsome := hknown _ (mem_of_getField hak)
        simp [hdk] at hsome
  · intro h
    refine ⟨fun f hf => ?_,fun f hf => ?_⟩
    · have hfield := h f.1
      rw [FieldSatisfied,getField_of_mem hakeys hf] at hfield
      cases hdk : getField declared f.1 with
      | some d => rfl
      | none =>
        rw [hdk] at hfield
        cases hfield
    · have hfield := h f.1
      rw [FieldSatisfied,getField_of_mem hdkeys hf] at hfield
      exact hfield

theorem getField_isSome {fields : List (String × VariableType)} {k : String} :
    (getField fields k).isSome ↔ k ∈ fields.map Prod.fst := by
  rw [Option.isSome_iff_ne_none,ne_eq,getField_eq_none,List.mem_map]
  push Not
  exact Iff.rfl

theorem mem_extraFields {k : String} : k ∈ extraFields declared actual ↔
    getField declared k = none ∧ (getField actual k).isSome := by
  rw [extraFields,List.mem_filter,getField_isSome,Option.isNone_iff_eq_none,and_comm]

theorem mem_missingFields (hd : (object declared).Keyed) {k : String} :
    k ∈ missingFields declared actual ↔
      getField actual k = none ∧ ∃ d, getField declared k = some d ∧ d.isAny = false := by
  obtain ⟨hdkeys,-⟩ := keyed_object.mp hd
  simp only [missingFields,List.mem_map,List.mem_filter,Bool.and_eq_true,Option.isNone_iff_eq_none,
    Bool.not_eq_true']
  constructor
  · rintro ⟨f,⟨hf,hnone,hany⟩,rfl⟩
    exact ⟨hnone,f.2,getField_of_mem hdkeys hf,hany⟩
  · rintro ⟨hnone,d,hget,hany⟩
    exact ⟨(k,d),⟨mem_of_getField hget,hnone,hany⟩,rfl⟩

theorem mem_wrongFields (hd : (object declared).Keyed) {k : String} {d a : VariableType} :
    (k,d,a) ∈ wrongFields declared actual ↔
      getField declared k = some d ∧ getField actual k = some a ∧ satisfies d a = false := by
  obtain ⟨hdkeys,-⟩ := keyed_object.mp hd
  simp only [wrongFields,List.mem_filterMap,Option.bind_eq_some_iff]
  constructor
  · rintro ⟨f,hf,a',hget,hwrong⟩
    split_ifs at hwrong with hsat
    cases hwrong
    exact ⟨getField_of_mem hdkeys hf,hget,by simpa using hsat⟩
  · rintro ⟨hdeclared,hget,hsat⟩
    exact ⟨(k,d),mem_of_getField hdeclared,a,hget,by simp [hsat]⟩

theorem keys_nodup {fields : List (String × VariableType)}
    (h : fields.Pairwise fun f g => f.1 < g.1) : (fields.map Prod.fst).Nodup :=
  List.pairwise_map.mpr (h.imp fun hlt => hlt.ne)

theorem wrongFields_sublist :
    ((wrongFields declared actual).map Prod.fst).Sublist (declared.map Prod.fst) := by
  rw [wrongFields]
  induction declared with
  | nil => exact List.Sublist.refl _
  | cons f declared ih =>
    rw [List.filterMap_cons]
    split
    · exact ih.cons _
    · rename_i entry hentry
      obtain ⟨a,-,hwrong⟩ := Option.bind_eq_some_iff.mp hentry
      split_ifs at hwrong
      cases hwrong
      exact ih.cons_cons _

theorem explains_fields (hd : (object declared).Keyed) (ha : (object actual).Keyed) :
    Explains declared actual (extraFields declared actual) (missingFields declared actual)
      (wrongFields declared actual) := by
  have hdkeys := keys_nodup (keyed_object.mp hd).1
  have hakeys := keys_nodup (keyed_object.mp ha).1
  have hwrong : ∀ k, k ∈ (wrongFields declared actual).map Prod.fst ↔ ∃ d a,
      getField declared k = some d ∧ getField actual k = some a ∧ satisfies d a = false := by
    intro k
    simp only [List.mem_map,Prod.exists,exists_and_right,exists_eq_right]
    exact exists_congr fun d => exists_congr fun a => mem_wrongFields hd
  refine ⟨fun k => mem_extraFields,fun k => mem_missingFields hd,
    fun k d a => mem_wrongFields hd,fun k => ?_,?_⟩
  · rw [List.mem_append,List.mem_append,mem_extraFields,mem_missingFields hd,hwrong,FieldSatisfied]
    cases getField declared k <;> cases getField actual k <;> simp [fieldSatisfied]
  · refine List.nodup_append.mpr ⟨List.nodup_append.mpr ⟨hakeys.filter _,?_,?_⟩,
      hdkeys.sublist wrongFields_sublist,?_⟩
    · exact hdkeys.sublist (List.filter_sublist.map Prod.fst)
    · rintro k hextra l hmissing rfl
      rw [mem_extraFields] at hextra
      rw [mem_missingFields hd] at hmissing
      simp [hmissing.1] at hextra
    · rintro k hk l hl rfl
      obtain ⟨d,a,hdk,hak,-⟩ := (hwrong k).mp hl
      rcases List.mem_append.mp hk with hk | hk
      · rw [mem_extraFields] at hk
        simp [hdk] at hk
      · rw [mem_missingFields hd] at hk
        simp [hak] at hk

theorem intercalate_eq_empty {sep : String} {parts : List String} (h : ∀ part ∈ parts, part ≠ "") :
    sep.intercalate parts = "" ↔ parts = [] := by
  cases parts with
  | nil => simp
  | cons part parts =>
    have hpart := h part List.mem_cons_self
    cases parts <;> simp [hpart]

theorem fieldsPart_ne_empty {what : String} (hwhat : what ≠ "") (names : List String) :
    ∀ part ∈ fieldsPart what names, part ≠ "" := by
  unfold fieldsPart
  split_ifs <;> simp [hwhat]

theorem fieldsPart_eq_nil {what : String} {names : List String} :
    fieldsPart what names = [] ↔ names = [] := by
  unfold fieldsPart
  split_ifs with h <;> simp [h]

theorem mismatchPart_ne_empty (d a : VariableType) : mismatchPart d a ≠ "" := by
  simp [mismatchPart]

/-- The explanation is empty only when there is nothing to explain. -/
theorem fieldsExplanation_eq_empty {unknown missing : List String}
    {wrong : List (String × VariableType × VariableType)} :
    fieldsExplanation unknown missing wrong = "" ↔ unknown = [] ∧ missing = [] ∧ wrong = [] := by
  rw [fieldsExplanation,intercalate_eq_empty,List.append_eq_nil_iff,List.append_eq_nil_iff,
    fieldsPart_eq_nil,fieldsPart_eq_nil,List.map_eq_nil_iff,and_assoc]
  intro part hpart
  rcases List.mem_append.mp hpart with hpart | hpart
  · rcases List.mem_append.mp hpart with hpart | hpart
    · exact fieldsPart_ne_empty (by simp) _ part hpart
    · exact fieldsPart_ne_empty (by simp) _ part hpart
  · obtain ⟨f,-,rfl⟩ := List.mem_map.mp hpart
    simp [quoted]

theorem explainMismatch_object (hd : (object declared).Keyed) (ha : (object actual).Keyed) :
    explainMismatch (.object declared) (.object actual) =
      fieldsExplanation (extraFields declared actual) (missingFields declared actual)
        (wrongFields declared actual) := by
  unfold explainMismatch
  split_ifs with hsat
  · have hexplains := explains_fields hd ha
    have hnone : ∀ k, k ∉ extraFields declared actual ++ missingFields declared actual ++
        (wrongFields declared actual).map Prod.fst := fun k hk =>
      (hexplains.named k).mp hk ((satisfies_iff_fields hd ha).mp hsat k)
    have hnil := List.eq_nil_iff_forall_not_mem.mpr hnone
    rw [List.append_eq_nil_iff,List.append_eq_nil_iff,List.map_eq_nil_iff,and_assoc] at hnil
    exact (fieldsExplanation_eq_empty.mpr hnil).symm
  · rfl

theorem explainMismatch_eq_empty {d a : VariableType} (hd : d.Keyed) (ha : a.Keyed) :
    explainMismatch d a = "" ↔ satisfies d a := by
  unfold explainMismatch
  split_ifs with hsat
  · exact iff_of_true rfl hsat
  · refine iff_of_false ?_ hsat
    split
    · rename_i declared actual
      rw [fieldsExplanation_eq_empty]
      rintro ⟨hextra,hmissing,hwrong⟩
      have hexplains := explains_fields hd ha
      apply hsat
      refine (satisfies_iff_fields hd ha).mpr fun k => not_not.mp fun hk => ?_
      have hnamed := (hexplains.named k).mpr hk
      simp [hextra,hmissing,hwrong] at hnamed
    · exact mismatchPart_ne_empty d a

/-- There is an explanation exactly when the type is not satisfied, and for objects it
names exactly the fields that are not satisfied. -/
theorem explainMismatch_exact (d a : KeyedType) :
    (explainMismatch d.1 a.1 = "" ↔ satisfies d.1 a.1) ∧
    ∀ declared actual, d.1 = .object declared → a.1 = .object actual →
      (satisfies d.1 a.1 ↔ ∀ k, FieldSatisfied declared actual k) ∧
      ∃ unknown missing wrong, Explains declared actual unknown missing wrong ∧
        explainMismatch d.1 a.1 = fieldsExplanation unknown missing wrong := by
  obtain ⟨d,hd⟩ := d
  obtain ⟨a,ha⟩ := a
  refine ⟨explainMismatch_eq_empty hd ha,?_⟩
  rintro declared actual rfl rfl
  exact ⟨satisfies_iff_fields hd ha,_,_,_,explains_fields hd ha,explainMismatch_object hd ha⟩

end explanation

end VariableType
end TerraformLs
