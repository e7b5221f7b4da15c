import TerraformLs.TypeTexts

/-! The shape of an expression where no schema and no declaration is at hand. It is what
the inference in the scope of a caller answers when there is nothing to look up. -/
namespace TerraformLs
namespace PlainShapes

open VariableType ValueShape Proc
open UnknownValue (getAttrs)

section shape

/-- The fields of all the objects together, unless one of the types is no object. -/
def mergedFields : List (String × VariableType) → List VariableType → VariableType
  | combined, [] => if combined.isEmpty then .any else .object combined
  | combined, .object fields::types => mergedFields (fields.foldl insertField combined) types
  | _, _::_ => .any

/-- What the map says of its value, or else the shape of the default. -/
def lookupCall (args : List Expression) (shapes : List VariableType) : VariableType :=
  match args, shapes with
  | _::keys, mapTy::rest => (lookupOf mapTy keys.head?).getD (rest[1]?.getD .any)
  | _, _ => .any

/-- `object({ … })` in a value position is taken for the literal. -/
def objectCall (args : List Expression) (shapes : List VariableType) : VariableType :=
  match args with
  | .object _::_ => shapes.head?.getD .any
  | _ => .any

/-- The shape of a call, of whose arguments the shapes are known. -/
def callShape (name : String) (args : List Expression) (shapes : List VariableType) : VariableType :=
  if name = "toset" ∨ name = "tolist" then literalKeys args
  else if name = "tomap" then shapes.head?.getD .any
  else if name = "element" then (shapes.head?.map elementOf).getD .any
  else if name = "concat" then concatOf shapes
  else if name ∈ stringFunctions then .primitive .string
  else if name ∈ numberFunctions then .primitive .number
  else if name ∈ boolFunctions then .primitive .bool
  else if name = "split" ∨ name = "keys" then .list (.primitive .string)
  else if name = "values" then ((shapes.head?.bind valueOf).map VariableType.list).getD .any
  else if name = "merge" then mergedFields [] shapes
  else if name = "lookup" then lookupCall args shapes
  else if name = "try" ∨ name = "coalesce" then (shapes.find? fun ty => !ty.isAny).getD .any
  else if name = "object" then objectCall args shapes
  else .any

/-- Where no schema is at hand, only the key of an iteration is known. -/
def traversalShape : Expression → List TraversalOperator → VariableType
  | .variable base, operators =>
    match getAttrs operators with
    | what::_ => if base = "each" ∧ what = "key" then .primitive .string else .any
    | [] => .any
  | _, _ => .any

mutual

/-- `parse_value_shape`. -/
def parseValueShape : Expression → VariableType
  | .object entries => .object (fieldsOf (shapeEntries entries))
  | .array items => .tuple (shapeItems items)
  | .string _ | .stringTemplate _ | .heredocTemplate _ => .primitive .string
  | .number _ => .primitive .number
  | .bool _ => .primitive .bool
  | .funcCall ns name args => if ns = [] then callShape name args (shapeItems args) else .any
  | .conditional _ whenTrue whenFalse =>
    mergeShapes (parseValueShape whenTrue) (parseValueShape whenFalse)
  | .parenthesis inner => parseValueShape inner
  | .traversal expr operators => traversalShape expr operators
  | .forExpr _ _ _ keyExpr valueExpr _ _ =>
    if keyExpr.isSome then .map (parseValueShape valueExpr) else .list (parseValueShape valueExpr)
  | .null | .variable _ | .unaryOp _ _ | .binaryOp _ _ _ => .any

def shapeItems : List Expression → List VariableType
  | [] => []
  | item::items => parseValueShape item :: shapeItems items

/-- The fields in the order of the text; a key that is no name is passed over. -/
def shapeEntries : List (ObjectKey × Expression) → List (String × VariableType)
  | [] => []
  | (key,value)::entries =>
    match objectKeyAsIdent key with
    | some name => (name,parseValueShape value) :: shapeEntries entries
    | none => shapeEntries entries

end

theorem shapeItems_eq (items : List Expression) : shapeItems items = items.map parseValueShape := by
  induction items with
  | nil => rfl
  | cons item items ih => rw [shapeItems,ih,List.map_cons]

theorem shapeEntries_eq (entries : List (ObjectKey × Expression)) :
    shapeEntries entries = (namedEntries entries).map fun e => (e.1,parseValueShape e.2) := by
  induction entries with
  | nil => rfl
  | cons entry entries ih =>
    obtain ⟨key,value⟩ := entry
    rw [namedEntries] at ih ⊢
    rw [shapeEntries,ih,List.filterMap_cons]
    cases objectKeyAsIdent key <;> rfl

end shape

section inference

/-- Nothing is known of any attribute. -/
def noSchemaLookup : SchemaLookup := ⟨fun _ _ => none,fun _ _ => none,fun _ _ => none⟩

/-- What the calls of the inference return where there are no documents. -/
def shapes : Call → Answer
  | .shape expr _ => known (parseValueShape expr)
  | .localShape _ _ | .moduleOutput _ _ _ => .inferred none
  | .rebuild _ => .staged []

variable {args : List Expression} {dir : Path}

theorem ty_shapes (scope : CallerScopedLookup) (es : List Expression) :
    ((es.map fun e => Call.shape e scope).map shapes).map Answer.ty = es.map parseValueShape := by
  simp only [List.map_map]
  rfl

theorem answer_askUntil (es : List Expression) (scope : CallerScopedLookup) :
    (askUntil (fun a => !a.ty.isAny) (known .any) (es.map fun e => Call.shape e scope)).answerWith
      shapes = known (((es.map parseValueShape).find? fun ty => !ty.isAny).getD .any) := by
  induction es with
  | nil => rfl
  | cons e es ih =>
    have hty : (shapes (.shape e scope)).ty = parseValueShape e := rfl
    rw [List.map_cons,List.map_cons,askUntil,answerWith,List.find?_cons,hty]
    cases h : !(parseValueShape e).isAny with
    | true => rfl
    | false => exact ih

theorem answer_mergeArgs (scope : CallerScopedLookup) (combined : List (String × VariableType)) :
    (mergeArgs scope combined args).answerWith shapes =
      known (mergedFields combined (args.map parseValueShape)) := by
  induction args generalizing combined with
  | nil => rfl
  | cons arg args ih =>
    have hty : (shapes (.shape arg scope)).ty = parseValueShape arg := rfl
    rw [mergeArgs,answerWith,List.map_cons,hty]
    cases parseValueShape arg with
    | object fields => exact ih _
    | _ => rfl

theorem answer_objectShape (scope : CallerScopedLookup) (entries : List (ObjectKey × Expression)) :
    (objectShape entries scope).answerWith shapes = known (parseValueShape (.object entries)) := by
  have hzip : ((namedEntries entries).map Prod.fst).zip
      ((namedEntries entries).map fun e => parseValueShape e.2) = shapeEntries entries := by
    rw [List.zip_map',shapeEntries_eq]
  rw [objectShape,answerWith_askAll,answerWith,parseValueShape,← hzip]
  simp only [List.map_map]
  rfl

theorem answer_ofFirst (scope : CallerScopedLookup) (f : VariableType → VariableType) :
    (ofFirst args scope f).answerWith shapes =
      known (((shapeItems args).head?.map f).getD .any) := by
  cases args <;> rfl

theorem answer_lookupShape (scope : CallerScopedLookup) :
    (lookupShape args scope).answerWith shapes = known (lookupCall args (shapeItems args)) := by
  rcases args with _ | ⟨mapArg,rest⟩
  · rfl
  · have hty : (shapes (.shape mapArg scope)).ty = parseValueShape mapArg := rfl
    dsimp only [lookupShape,answerWith,lookupCall,shapeItems]
    rw [hty]
    cases lookupOf (parseValueShape mapArg) rest.head? with
    | some ty => rfl
    | none => rcases rest with _ | ⟨key,_ | ⟨default,rest⟩⟩ <;> rfl

theorem answer_objectArgShape (scope : CallerScopedLookup) :
    (objectArgShape args scope).answerWith shapes = known (objectCall args (shapeItems args)) := by
  rcases args with _ | ⟨arg,args⟩
  · rfl
  · cases arg with
    | object entries => exact answer_objectShape scope entries
    | _ => rfl

theorem answer_funcCallShape (scope : CallerScopedLookup) (name : String) :
    (funcCallShape name args scope).answerWith shapes =
      known (callShape name args (shapeItems args)) := by
  have hid : ∀ ty : Option VariableType, (ty.map id).getD .any = ty.getD .any := by simp
  have hvalues : ∀ ty : Option VariableType,
      (ty.map fun t => ((valueOf t).map VariableType.list).getD .any).getD .any =
        ((ty.bind valueOf).map VariableType.list).getD .any := by
    rintro (_ | t) <;> rfl
  rw [funcCallShape,callShape]
  by_cases h : name = "toset" ∨ name = "tolist"
  · rw [if_pos h,if_pos h,answerWith]
  rw [if_neg h,if_neg h]
  by_cases h : name = "tomap"
  · rw [if_pos h,if_pos h,answer_ofFirst,hid]
  rw [if_neg h,if_neg h]
  by_cases h : name = "element"
  · rw [if_pos h,if_pos h,answer_ofFirst]
  rw [if_neg h,if_neg h]
  by_cases h : name = "concat"
  · rw [if_pos h,if_pos h,answerWith_askAll,answerWith,ty_shapes,shapeItems_eq]
  rw [if_neg h,if_neg h]
  by_cases h : name ∈ stringFunctions
  · rw [if_pos h,if_pos h,answerWith]
  rw [if_neg h,if_neg h]
  by_cases h : name ∈ numberFunctions
  · rw [if_pos h,if_pos h,answerWith]
  rw [if_neg h,if_neg h]
  by_cases h : name ∈ boolFunctions
  · rw [if_pos h,if_pos h,answerWith]
  rw [if_neg h,if_neg h]
  by_cases h : name = "split" ∨ name = "keys"
  · rw [if_pos h,if_pos h,answerWith]
  rw [if_neg h,if_neg h]
  by_cases h : name = "values"
  · rw [if_pos h,if_pos h,answer_ofFirst,hvalues]
  rw [if_neg h,if_neg h]
  by_cases h : name = "merge"
  · rw [if_pos h,if_pos h,answer_mergeArgs,shapeItems_eq]
  rw [if_neg h,if_neg h]
  by_cases h : name = "lookup"
  · rw [if_pos h,if_pos h,answer_lookupShape]
  rw [if_neg h,if_neg h]
  by_cases h : name = "try" ∨ name = "coalesce"
  · rw [if_pos h,if_pos h,firstConcrete,answer_askUntil,shapeItems_eq]
  rw [if_neg h,if_neg h]
  by_cases h : name = "object"
  · rw [if_pos h,if_pos h,answer_objectArgShape]
  rw [if_neg h,if_neg h,answerWith]

theorem traversalShape_of_ne {base : String} {operators : List TraversalOperator}
    (h : base ≠ "each") : traversalShape (.variable base) operators = .any := by
  rw [traversalShape]
  cases getAttrs operators with
  | nil => rfl
  | cons what idents => exact if_neg fun hand => h hand.1

theorem answer_traversalAttrType (env : AssignedTypes.Environment) (base : String)
    (operators : List TraversalOperator) :
    (traversalAttrType env noSchemaLookup ∅ (.variable base) operators ⟨dir,none⟩).answerWith shapes =
      known (traversalShape (.variable base) operators) := by
  by_cases heach : base = "each"
  · subst heach
    dsimp only [traversalAttrType,traversalShape]
    rw [if_neg (by decide),if_neg (by decide),if_neg (by decide),if_pos rfl]
    rcases getAttrs operators with _ | ⟨what,idents⟩
    · rfl
    dsimp only
    by_cases hkey : what = "key"
    · rw [if_pos hkey,if_pos ⟨rfl,hkey⟩,answerWith]
    have hnot : ¬("each" = "each" ∧ what = "key") := fun h => hkey h.2
    rw [if_neg hkey,if_neg hnot]
    by_cases hvalue : what = "value"
    · rw [if_pos hvalue]
      rfl
    · rw [if_neg hvalue,answerWith]
  rw [traversalShape_of_ne heach]
  dsimp only [traversalAttrType]
  generalize getAttrs operators = idents
  by_cases h : base = "var"
  · rw [if_pos h]
    rcases idents with _ | ⟨name,idents⟩ <;> rfl
  rw [if_neg h]
  by_cases h : base = "local"
  · rw [if_pos h]
    rcases idents with _ | ⟨name,idents⟩ <;> rfl
  rw [if_neg h]
  by_cases h : base = "module"
  · rw [if_pos h]
    rcases idents with _ | ⟨m,_ | ⟨o,idents⟩⟩ <;> rfl
  rw [if_neg h,if_neg heach]
  by_cases h : base = "data"
  · rw [if_pos h]
    rcases idents with _ | ⟨t,_ | ⟨n,_ | ⟨attr,idents⟩⟩⟩ <;> rfl
  rw [if_neg h]
  by_cases h : isResourceType base
  · rw [if_pos h]
    rcases idents with _ | ⟨n,_ | ⟨attr,idents⟩⟩ <;> rfl
  rw [if_neg h,answerWith]

/-- Without documents and schemas the inference in the scope of a caller infers
the very shape. -/
theorem shapes_answers (env : AssignedTypes.Environment) (e : Expression) :
    (parseValueShapeWithSchema env noSchemaLookup ∅ e ⟨dir,none⟩).answerWith shapes =
      shapes (.shape e ⟨dir,none⟩) := by
  cases e with
  | object entries => exact answer_objectShape _ entries
  | array items =>
    rw [parseValueShapeWithSchema,answerWith_askAll,answerWith,ty_shapes,← shapeItems_eq]
    rfl
  | funcCall ns name args =>
    rw [parseValueShapeWithSchema,shapes,parseValueShape]
    split_ifs
    · exact answer_funcCallShape _ name
    · rfl
  | forExpr keyVar valueVar collection keyExpr valueExpr grouping cond =>
    have hnone : forExprBodyViaSchema noSchemaLookup collection valueVar valueExpr = none := by
      rw [forExprBodyViaSchema.eq_def]
      split
      · dsimp only [noSchemaLookup]
        split_ifs
        · rfl
        · split <;> rfl
        · split <;> rfl
        · rfl
      · rfl
    rw [parseValueShapeWithSchema,hnone]
    rfl
  | traversal expr operators =>
    cases expr with
    | «variable» base => exact answer_traversalAttrType env base operators
    | _ => rfl
  | _ => rfl

end inference

section keyed

variable {fields : List (String × VariableType)} {f : String × VariableType} {t : VariableType}

theorem pairwise_orderedInsert (h : fields.Pairwise fun f g => f.1 < g.1)
    (hne : ∀ g ∈ fields, g.1 ≠ f.1) :
    (fields.orderedInsert (fun f g => f.1 ≤ g.1) f).Pairwise fun f g => f.1 < g.1 := by
  induction fields with
  | nil => exact List.pairwise_singleton _ _
  | cons g fields ih =>
    obtain ⟨hg,hrest⟩ := List.pairwise_cons.mp h
    rw [List.orderedInsert_cons]
    by_cases hle : f.1 ≤ g.1
    · rw [if_pos hle]
      have hlt : f.1 < g.1 := lt_of_le_of_ne hle (Ne.symm (hne g List.mem_cons_self))
      exact List.pairwise_cons.mpr
        ⟨List.forall_mem_cons.mpr ⟨hlt,fun x hx => hlt.trans (hg x hx)⟩,h⟩
    · rw [if_neg hle]
      refine List.pairwise_cons.mpr
        ⟨fun x hx => ?_,ih hrest fun x hx => hne x (List.mem_cons_of_mem g hx)⟩
      rcases (List.mem_orderedInsert _).mp hx with rfl | hx
      · exact not_le.mp hle
      · exact hg x hx

theorem keyed_insertField (h : (object fields).Keyed) (hf : f.2.Keyed) :
    (object (insertField fields f)).Keyed := by
  obtain ⟨hnames,hfields⟩ := keyed_object.mp h
  refine keyed_object.mpr ⟨?_,fun g hg => ?_⟩
  · exact pairwise_orderedInsert (hnames.filter _) fun g hg =>
      of_decide_eq_true (List.mem_filter.mp hg).2
  · rcases (List.mem_orderedInsert _).mp hg with rfl | hg
    · exact hf
    · exact hfields g (List.mem_filter.mp hg).1

theorem keyed_foldl_insertField {entries : List (String × VariableType)}
    (h : (object fields).Keyed) (hentries : ∀ e ∈ entries, e.2.Keyed) :
    (object (entries.foldl insertField fields)).Keyed := by
  induction entries generalizing fields with
  | nil => exact h
  | cons e entries ih =>
    obtain ⟨he,hrest⟩ := List.forall_mem_cons.mp hentries
    exact ih (keyed_insertField h he) hrest

theorem keyed_fieldsOf {entries : List (String × VariableType)} (h : ∀ e ∈ entries, e.2.Keyed) :
    (object (fieldsOf entries)).Keyed :=
  keyed_foldl_insertField (keyed_object.mpr ⟨List.Pairwise.nil,nofun⟩) h

theorem keyed_mergeInto {others : List (String × VariableType)}
    (ih : ∀ o ∈ others, ∀ a : VariableType, a.Keyed → o.2.Keyed → (mergeShapes a o.2).Keyed)
    (h : (object fields).Keyed) (hothers : ∀ o ∈ others, o.2.Keyed) :
    (object (mergeInto fields others)).Keyed := by
  induction others generalizing fields with
  | nil => exact h
  | cons o others hinto =>
    obtain ⟨name,ty⟩ := o
    obtain ⟨ho,hrest⟩ := List.forall_mem_cons.mp hothers
    obtain ⟨iho,ihrest⟩ := List.forall_mem_cons.mp ih
    rw [mergeInto]
    cases hget : getField fields name with
    | none => exact hinto ihrest (keyed_insertField h ho) hrest
    | some existing =>
      have hexisting := (keyed_object.mp h).2 _ (mem_of_getField hget)
      exact hinto ihrest (keyed_insertField h (iho existing hexisting ho)) hrest

theorem keyed_mergeShapes {a b : VariableType} (ha : a.Keyed) (hb : b.Keyed) :
    (mergeShapes a b).Keyed := by
  induction b generalizing a with
  | object others ih =>
    cases a with
    | any => exact hb
    | object fields =>
      exact keyed_mergeInto (fun o ho _ ha ho' => ih o ho ha ho') ha (keyed_object.mp hb).2
    | _ => exact ha
  | _ => cases a <;> first | exact ha | exact hb

theorem mem_of_commonType {types : List VariableType} (h : commonType types = some t) :
    t ∈ types := by
  cases types with
  | nil => cases h
  | cons first rest =>
    rw [commonType] at h
    split_ifs at h
    exact Option.some.inj h ▸ List.mem_cons_self

theorem keyed_getD {o : Option VariableType} (h : ∀ t, o = some t → t.Keyed) :
    (o.getD .any).Keyed := by
  cases o with
  | none => trivial
  | some t => exact h t rfl

theorem keyed_elementOf (h : t.Keyed) : (elementOf t).Keyed := by
  cases t with
  | tuple items => exact keyed_getD fun t ht => keyed_tuple.mp h t (mem_of_commonType ht)
  | list inner | set inner => exact h
  | _ => trivial

theorem keyed_valueOf {v : VariableType} (h : t.Keyed) (hv : valueOf t = some v) : v.Keyed := by
  cases t with
  | map inner => exact Option.some.inj hv ▸ h
  | object fields =>
    obtain ⟨f,hf,rfl⟩ := List.mem_map.mp (mem_of_commonType hv)
    exact (keyed_object.mp h).2 f hf
  | _ => cases hv

theorem keyed_lookupOf {v : VariableType} {key : Option Expression} (h : t.Keyed)
    (hv : lookupOf t key = some v) : v.Keyed := by
  rw [lookupOf.eq_def] at hv
  split at hv
  · rcases Option.or_eq_some_iff.mp hv with hv | ⟨-,hv⟩
    · exact (keyed_object.mp h).2 _ (mem_of_getField hv)
    · exact keyed_valueOf h hv
  · exact keyed_valueOf h hv

variable {args : List Expression} {types : List VariableType}

theorem keyed_concatOf (h : ∀ t ∈ types, t.Keyed) : (concatOf types).Keyed := by
  refine keyed_getD fun t ht => ?_
  obtain ⟨item,hitem,rfl⟩ := Option.map_eq_some_iff.mp ht
  obtain ⟨s,hs,hmem⟩ := List.mem_flatMap.mp (mem_of_commonType hitem)
  have hkeyed := h s hs
  cases s with
  | tuple items => exact keyed_tuple.mp hkeyed item hmem
  | list inner | set inner => exact List.mem_singleton.mp hmem ▸ hkeyed
  | _ => exact List.mem_singleton.mp hmem ▸ hkeyed

theorem keyed_mergedFields (h : (object fields).Keyed) (htypes : ∀ t ∈ types, t.Keyed) :
    (mergedFields fields types).Keyed := by
  induction types generalizing fields with
  | nil =>
    rw [mergedFields]
    split_ifs
    · trivial
    · exact h
  | cons t types ih =>
    obtain ⟨ht,hrest⟩ := List.forall_mem_cons.mp htypes
    cases t with
    | object others => exact ih (keyed_foldl_insertField h (keyed_object.mp ht).2) hrest
    | _ => trivial

theorem keyed_literalKeys : (literalKeys args).Keyed := by
  rw [literalKeys.eq_def]
  split
  · dsimp only
    split_ifs
    · trivial
    · refine keyed_fieldsOf fun e he => ?_
      obtain ⟨item,-,hitem⟩ := List.mem_filterMap.mp he
      split at hitem
      · cases hitem
        trivial
      · cases hitem
  · trivial

theorem keyed_lookupCall (h : ∀ t ∈ types, t.Keyed) : (lookupCall args types).Keyed := by
  rw [lookupCall.eq_def]
  split
  · rename_i keys mapTy rest
    obtain ⟨hmap,hrest⟩ := List.forall_mem_cons.mp h
    cases hlookup : lookupOf mapTy keys.head? with
    | none => exact keyed_getD fun t ht => hrest t (List.mem_of_getElem? ht)
    | some ty => exact keyed_lookupOf hmap hlookup
  · trivial

theorem keyed_head (h : ∀ t ∈ types, t.Keyed) : (types.head?.getD .any).Keyed :=
  keyed_getD fun t ht => h t (List.mem_of_head? ht)

theorem mem_parseTypeEntries {entries : List (ObjectKey × Expression)}
    (h : f ∈ parseTypeEntries entries) : ∃ entry ∈ entries, objectKeyAsIdent entry.1 = some f.1 ∧
      f.2 = parseTypeExpr entry.2 := by
  induction entries with
  | nil => cases h
  | cons entry entries ih =>
    obtain ⟨key,e⟩ := entry
    rw [parseTypeEntries] at h
    cases hkey : objectKeyAsIdent key with
    | none =>
      rw [hkey] at h
      obtain ⟨entry,hentry,hf⟩ := ih h
      exact ⟨entry,List.mem_cons_of_mem _ hentry,hf⟩
    | some name =>
      rw [hkey] at h
      rcases List.mem_cons.mp h with rfl | h
      · exact ⟨_,List.mem_cons_self,hkey,rfl⟩
      · obtain ⟨entry,hentry,hf⟩ := ih h
        exact ⟨entry,List.mem_cons_of_mem _ hentry,hf⟩

theorem keyed_ite {c : Prop} [Decidable c] {s t : VariableType} (hs : s.Keyed) (ht : t.Keyed) :
    (if c then s else t).Keyed := by
  split
  · exact hs
  · exact ht

theorem keyed_callShape {name : String} (h : ∀ t ∈ types, t.Keyed) :
    (callShape name args types).Keyed := by
  have helement : ((types.head?.map elementOf).getD .any).Keyed := by
    refine keyed_getD fun t ht => ?_
    obtain ⟨s,hs,rfl⟩ := Option.map_eq_some_iff.mp ht
    exact keyed_elementOf (h s (List.mem_of_head? hs))
  have hvalues : (((types.head?.bind valueOf).map VariableType.list).getD .any).Keyed := by
    refine keyed_getD fun t ht => ?_
    obtain ⟨v,hv,rfl⟩ := Option.map_eq_some_iff.mp ht
    obtain ⟨s,hs,hvalue⟩ := Option.bind_eq_some_iff.mp hv
    have hkeyed : v.Keyed := keyed_valueOf (h s (List.mem_of_head? hs)) hvalue
    exact hkeyed
  have hmerge : (mergedFields [] types).Keyed :=
    keyed_mergedFields (keyed_object.mpr ⟨List.Pairwise.nil,nofun⟩) h
  have hfirst : ((types.find? fun ty => !ty.isAny).getD .any).Keyed :=
    keyed_getD fun t ht => h t (List.mem_of_find?_eq_some ht)
  have hobject : (objectCall args types).Keyed := by
    rw [objectCall.eq_def]
    split
    · exact keyed_head h
    · trivial
  rw [callShape]
  refine keyed_ite keyed_literalKeys (keyed_ite (keyed_head h) (keyed_ite helement ?_))
  refine keyed_ite (keyed_concatOf h) (keyed_ite trivial (keyed_ite trivial (keyed_ite trivial ?_)))
  refine keyed_ite trivial (keyed_ite hvalues (keyed_ite hmerge (keyed_ite (keyed_lookupCall h) ?_)))
  exact keyed_ite hfirst (keyed_ite hobject trivial)

theorem keyed_traversalShape (expr : Expression) (operators : List TraversalOperator) :
    (traversalShape expr operators).Keyed := by
  rw [traversalShape.eq_def]
  split
  · split
    · exact keyed_ite trivial trivial
    · trivial
  · trivial

mutual

theorem keyed_parseValueShape : ∀ e, (parseValueShape e).Keyed
  | .object entries => keyed_fieldsOf (keyed_shapeEntries entries)
  | .array items => keyed_tuple.mpr (keyed_shapeItems items)
  | .string _ | .stringTemplate _ | .heredocTemplate _ | .number _ | .bool _ => trivial
  | .funcCall _ _ args => keyed_ite (keyed_callShape (keyed_shapeItems args)) trivial
  | .conditional _ whenTrue whenFalse =>
    keyed_mergeShapes (keyed_parseValueShape whenTrue) (keyed_parseValueShape whenFalse)
  | .parenthesis inner => keyed_parseValueShape inner
  | .traversal expr operators => keyed_traversalShape expr operators
  | .forExpr _ _ _ _ valueExpr _ _ =>
    keyed_ite (s:=.map _) (t:=.list _) (keyed_parseValueShape valueExpr)
      (keyed_parseValueShape valueExpr)
  | .null | .variable _ | .unaryOp _ _ | .binaryOp _ _ _ => trivial

theorem keyed_shapeItems : ∀ items, ∀ t ∈ shapeItems items, t.Keyed
  | [] => nofun
  | item::items =>
    List.forall_mem_cons.mpr ⟨keyed_parseValueShape item,keyed_shapeItems items⟩

theorem keyed_shapeEntries : ∀ entries, ∀ f ∈ shapeEntries entries, f.2.Keyed
  | [] => nofun
  | (key,value)::entries => by
    rw [shapeEntries]
    cases objectKeyAsIdent key with
    | none => exact keyed_shapeEntries entries
    | some name =>
      exact List.forall_mem_cons.mpr ⟨keyed_parseValueShape value,keyed_shapeEntries entries⟩

end

theorem keyed_parseTypeExpr (e : Expression) : (parseTypeExpr e).Keyed := by
  rw [parseTypeExpr.eq_def]
  split
  · trivial
  · trivial
  · trivial
  · exact keyed_parseTypeExpr _
  · exact keyed_parseTypeExpr _
  · exact keyed_parseTypeExpr _
  · rename_i items
    refine keyed_tuple.mpr fun t ht => ?_
    rw [parseTypeItems_eq] at ht
    obtain ⟨item,hitem,rfl⟩ := List.mem_map.mp ht
    have hsize := List.sizeOf_lt_of_mem hitem
    exact keyed_parseTypeExpr item
  · rename_i entries
    refine keyed_fieldsOf fun f hf => ?_
    obtain ⟨⟨key,e⟩,hentry,-,hf⟩ := mem_parseTypeEntries hf
    have hsize := List.sizeOf_lt_of_mem hentry
    rw [hf]
    exact keyed_parseTypeExpr e
  · trivial
termination_by sizeOf e
decreasing_by all_goals (subst_vars; simp at *; try omega)

end keyed

end PlainShapes
end TerraformLs
