import TerraformLs.Merging
import TerraformLs.TypeMerging

/-! What one merge does: types of one kind are merged below, types of different kinds
become unknown, and a tuple gives up its places when it meets a list, a set or a tuple
of another length. -/
namespace TerraformLs
namespace VariableType

/-- The constructor of a type; a tuple's length belongs to it. -/
inductive Kind
  | primitive (p : Primitive)
  | list
  | set
  | map
  | tuple (length : ℕ)
  | object
  deriving DecidableEq

def kind : VariableType → Option Kind
  | .any => none
  | .primitive p => some (.primitive p)
  | .list _ => some .list
  | .set _ => some .set
  | .map _ => some .map
  | .tuple items => some (.tuple items.length)
  | .object _ => some .object

/-- The type one step below. -/
def child : TypeStep → VariableType → Option VariableType
  | .inner, .list x | .inner, .set x | .inner, .map x => some x
  | .item idx, .tuple items => items[idx]?
  | .field name, .object fields => getField fields name
  | _, _ => none

/-- Two kinds whose types are merged into a list of their elements. -/
def Kind.Pools : Kind → Kind → Prop
  | .tuple n, .tuple k => n ≠ k
  | .list, .tuple _ | .tuple _, .list | .set, .tuple _ | .tuple _, .set => True
  | _, _ => False

/-- The elements that are pooled: of a tuple its items, of a list or set what it says of all. -/
def elements : VariableType → List VariableType
  | .list x | .set x => [x]
  | .tuple items => items
  | _ => []

theorem kind_eq_none {t : VariableType} : t.kind = none ↔ t = .any := by
  cases t <;> simp [kind]

theorem Kind.Pools.symm : ∀ {k k' : Kind}, k.Pools k' → k'.Pools k
  | .tuple _, .tuple _, h => Ne.symm h
  | .list, .tuple _, _ | .tuple _, .list, _ | .set, .tuple _, _ | .tuple _, .set, _ => trivial

/-! Fields of merged objects. -/

theorem mem_unionKeys {xs ys : List (String × VariableType)} {k : String} :
    k ∈ unionKeys xs ys ↔ (getField xs k).isSome ∨ (getField ys k).isSome := by
  rw [unionKeys,List.mem_insertionSort,List.mem_dedup,List.map_append,List.mem_append,
    getField_isSome,getField_isSome]

theorem unionKeys_sorted (xs ys : List (String × VariableType)) :
    (unionKeys xs ys).Pairwise (· < ·) := by
  have hsorted := List.pairwise_insertionSort (· ≤ ·) ((xs ++ ys).map Prod.fst).dedup
  have hnodup : (unionKeys xs ys).Nodup :=
    (List.perm_insertionSort (· ≤ ·) _).nodup_iff.mpr (List.nodup_dedup _)
  exact (hsorted.and hnodup).imp fun h => lt_of_le_of_ne h.1 h.2

theorem getField_map (keys : List String) (f : String → VariableType) (k : String) :
    getField (keys.map fun k => (k,f k)) k = if k ∈ keys then some (f k) else none := by
  induction keys with
  | nil => rfl
  | cons l keys ih =>
    rw [List.map_cons,getField_cons]
    by_cases h : l = k
    · subst h
      simp
    · rw [if_neg h,ih]
      simp [Ne.symm h]

/-- What two types, each there or not, are merged into. -/
def mergeOption : Option VariableType → Option VariableType → Option VariableType
  | some x, some y => some (mergeTypes x y)
  | some x, none => some x
  | none, y => y

/-! The kinds of both types decide which rule applies. -/

@[simp] theorem mergeTypes_self (a : VariableType) : mergeTypes a a = a := by
  rw [mergeTypes_eq,mergeStep,if_pos (beq_iff_eq.mpr rfl)]

theorem mergeTypes_of_ne {a b : VariableType} (h : a ≠ b) :
    mergeTypes a b = mergeUnequal mergeTypes a b := by
  rw [mergeTypes_eq,mergeStep,if_neg (beq_iff_eq.not.mpr h)]

@[simp] theorem mergeTypes_any_left (b : VariableType) : mergeTypes .any b = b := by
  by_cases h : .any = b
  · rw [← h,mergeTypes_self]
  · rw [mergeTypes_of_ne h,mergeUnequal]

@[simp] theorem mergeTypes_any_right (a : VariableType) : mergeTypes a .any = a := by
  by_cases h : a = .any
  · rw [h,mergeTypes_self]
  · rw [mergeTypes_of_ne h]
    cases a <;> rfl

theorem mergeTypes_list (x y : VariableType) :
    mergeTypes (.list x) (.list y) = .list (mergeTypes x y) := by
  by_cases h : x = y
  · rw [h,mergeTypes_self,mergeTypes_self]
  · rw [mergeTypes_of_ne (by simpa using h),mergeUnequal]

theorem mergeTypes_set (x y : VariableType) :
    mergeTypes (.set x) (.set y) = .set (mergeTypes x y) := by
  by_cases h : x = y
  · rw [h,mergeTypes_self,mergeTypes_self]
  · rw [mergeTypes_of_ne (by simpa using h),mergeUnequal]

theorem mergeTypes_map (x y : VariableType) :
    mergeTypes (.map x) (.map y) = .map (mergeTypes x y) := by
  by_cases h : x = y
  · rw [h,mergeTypes_self,mergeTypes_self]
  · rw [mergeTypes_of_ne (by simpa using h),mergeUnequal]

theorem zipWith_self (xs : List VariableType) : xs.zipWith mergeTypes xs = xs := by
  rw [List.zipWith_self,List.map_congr_left fun x _ => mergeTypes_self x,List.map_id']

theorem mergeTypes_tuple {xs ys : List VariableType} (hlen : xs.length = ys.length) :
    mergeTypes (.tuple xs) (.tuple ys) = .tuple (xs.zipWith mergeTypes ys) := by
  by_cases h : xs = ys
  · rw [h,mergeTypes_self,zipWith_self]
  · rw [mergeTypes_of_ne (by simpa using h),mergeUnequal,if_pos hlen]

theorem mergeTypes_tuples {xs ys : List VariableType} (hlen : xs.length ≠ ys.length) :
    mergeTypes (.tuple xs) (.tuple ys) = .list (mergedElements mergeTypes (xs ++ ys)) := by
  have h : tuple xs ≠ tuple ys := by
    rintro ⟨⟩
    exact hlen rfl
  rw [mergeTypes_of_ne h,mergeUnequal,if_neg hlen]

theorem getField_mergedFields (xs ys : List (String × VariableType)) (k : String) :
    getField (mergedFields mergeTypes xs ys) k = mergeOption (getField xs k) (getField ys k) := by
  rw [mergedFields,getField_map]
  simp only [mem_unionKeys]
  cases getField xs k <;> cases getField ys k <;> simp [mergeOption,mergedField]

/-- Two lists of fields in order of their names that say the same are the same. -/
theorem fields_ext {xs ys : List (String × VariableType)}
    (hxs : xs.Pairwise fun f g => f.1 < g.1) (hys : ys.Pairwise fun f g => f.1 < g.1)
    (h : ∀ k, getField xs k = getField ys k) : xs = ys := by
  have hmem : ∀ f, f ∈ xs ↔ f ∈ ys := fun f => by
    rw [mem_iff_getField hxs,mem_iff_getField hys,h]
  have hasymm : ∀ f g : String × VariableType, f ∈ xs → g ∈ ys → f.1 < g.1 → g.1 < f.1 → f = g :=
    fun _ _ _ _ hlt hgt => absurd hgt hlt.asymm
  refine List.Perm.eq_of_pairwise hasymm hxs hys ?_
  exact (List.perm_ext_iff_of_nodup (hxs.imp fun hlt heq => by rw [heq] at hlt; exact lt_irrefl _ hlt)
    (hys.imp fun hlt heq => by rw [heq] at hlt; exact lt_irrefl _ hlt)).mpr hmem

theorem mergedFields_sorted (merge : VariableType → VariableType → VariableType)
    (xs ys : List (String × VariableType)) :
    (mergedFields merge xs ys).Pairwise fun f g => f.1 < g.1 :=
  List.pairwise_map.mpr (unionKeys_sorted xs ys)

theorem mergeOption_self (x : Option VariableType) : mergeOption x x = x := by
  cases x <;> simp [mergeOption]

theorem mergeTypes_object {xs ys : List (String × VariableType)}
    (hxs : xs.Pairwise fun f g => f.1 < g.1) :
    mergeTypes (.object xs) (.object ys) = .object (mergedFields mergeTypes xs ys) := by
  by_cases h : xs = ys
  · rw [h,mergeTypes_self]
    refine congrArg object (fields_ext (h ▸ hxs) (mergedFields_sorted _ _ _) fun k => ?_)
    rw [getField_mergedFields,mergeOption_self]
  · rw [mergeTypes_of_ne (by simpa using h),mergeUnequal]

theorem getElem?_zipWith_same {xs ys : List VariableType} (hlen : xs.length = ys.length) (i : ℕ) :
    (xs.zipWith mergeTypes ys)[i]? = mergeOption xs[i]? ys[i]? := by
  rw [List.getElem?_zipWith]
  by_cases hi : i < xs.length
  · rw [List.getElem?_eq_getElem hi,List.getElem?_eq_getElem (hlen ▸ hi)]
    rfl
  · rw [List.getElem?_eq_none (Nat.le_of_not_lt hi),
      List.getElem?_eq_none (hlen ▸ Nat.le_of_not_lt hi)]
    rfl

section sameKind

variable {a b : VariableType} {k k' : Kind}

/-- Types of one kind are merged step by step below. -/
theorem merge_same_kind (hkeyed : a.Keyed) (ha : a.kind = some k) (hb : b.kind = some k) :
    (mergeTypes a b).kind = some k ∧
      ∀ step, child step (mergeTypes a b) = mergeOption (child step a) (child step b) := by
  cases a with
  | any => cases ha
  | primitive p =>
    cases b <;> cases ha <;> cases hb
    rw [mergeTypes_self]
    exact ⟨rfl,fun _ => (mergeOption_self _).symm⟩
  | list x =>
    cases b <;> cases ha <;> cases hb
    rw [mergeTypes_list]
    exact ⟨rfl,fun step => by cases step <;> rfl⟩
  | set x =>
    cases b <;> cases ha <;> cases hb
    rw [mergeTypes_set]
    exact ⟨rfl,fun step => by cases step <;> rfl⟩
  | map x =>
    cases b <;> cases ha <;> cases hb
    rw [mergeTypes_map]
    exact ⟨rfl,fun step => by cases step <;> rfl⟩
  | tuple xs =>
    cases b with
    | tuple ys =>
      have hlen : xs.length = ys.length := by
        rw [← ha] at hb
        simpa [kind,eq_comm] using hb
      rw [mergeTypes_tuple hlen,← ha]
      refine ⟨by simp [kind,hlen],fun step => ?_⟩
      cases step with
      | item i => exact getElem?_zipWith_same hlen i
      | inner | field _ => rfl
    | _ =>
      cases ha
      cases hb
  | object xs =>
    cases b with
    | object ys =>
      rw [mergeTypes_object (keyed_object.mp hkeyed).1]
      refine ⟨ha,fun step => ?_⟩
      cases step with
      | field name => exact getField_mergedFields xs ys name
      | inner | item _ => rfl
    | _ =>
      cases ha
      cases hb

theorem merge_conflict (ha : a.kind = some k) (hb : b.kind = some k') (hne : k ≠ k')
    (hpools : ¬ k.Pools k') : mergeTypes a b = .any := by
  have hab : a ≠ b := by
    rintro rfl
    rw [ha] at hb
    exact hne (Option.some.inj hb)
  rw [mergeTypes_of_ne hab]
  cases a <;> cases ha <;> cases b <;> cases hb <;> first
    | rfl
    | exact absurd rfl hne
    | exact absurd trivial hpools
    | exact absurd (fun h => hne (congrArg Kind.tuple h)) hpools

/-- A type is what its kind and the types below make it. -/
theorem ext_of_kind (ha : a.Keyed) (hb : b.Keyed) (hkind : a.kind = b.kind)
    (hchild : ∀ step, child step a = child step b) : a = b := by
  cases a with
  | any => exact (kind_eq_none.mp hkind.symm).symm
  | primitive p =>
    cases b <;> cases hkind
    rfl
  | list x =>
    cases b <;> cases hkind
    exact congrArg list (Option.some.inj (hchild .inner))
  | set x =>
    cases b <;> cases hkind
    exact congrArg set (Option.some.inj (hchild .inner))
  | map x =>
    cases b <;> cases hkind
    exact congrArg map (Option.some.inj (hchild .inner))
  | tuple xs =>
    cases b with
    | tuple ys => exact congrArg tuple (List.ext_getElem? fun i => hchild (.item i))
    | _ => cases hkind
  | object xs =>
    cases b with
    | object ys =>
      exact congrArg object (fields_ext (keyed_object.mp ha).1 (keyed_object.mp hb).1
        fun name => hchild (.field name))
    | _ => cases hkind

end sameKind

/-! Pooled elements. -/

open Merging in
theorem merged_mergedElements (items : List VariableType) :
    Merged mergeTypes .any items (mergedElements mergeTypes items) := by
  cases items with
  | nil => exact .nil
  | cons first rest => exact (Merged.single first).foldl rest

open Merging in
theorem merge_pools {a b : VariableType} {k k' : Kind} (ha : a.kind = some k)
    (hb : b.kind = some k') (h : k.Pools k') : ∃ t, mergeTypes a b = .list t ∧
      Merged mergeTypes .any (elements a ++ elements b) t := by
  have hab : a ≠ b := by
    rintro rfl
    rw [ha] at hb
    obtain rfl := Option.some.inj hb
    cases k <;> simp [Kind.Pools] at h
  have hswap : ∀ (x : VariableType) (ys : List VariableType),
      Merged mergeTypes .any (ys ++ [x]) (ys.foldl mergeTypes x) := fun x ys =>
    .perm List.perm_append_comm ((Merged.single x).foldl ys)
  cases a with
  | list x =>
    cases b with
    | tuple ys => exact ⟨_,mergeTypes_of_ne hab,(Merged.single x).foldl ys⟩
    | _ =>
      cases ha
      cases hb <;> exact absurd h not_false
  | set x =>
    cases b with
    | tuple ys => exact ⟨_,mergeTypes_of_ne hab,(Merged.single x).foldl ys⟩
    | _ =>
      cases ha
      cases hb <;> exact absurd h not_false
  | tuple xs =>
    cases b with
    | list y => exact ⟨_,mergeTypes_of_ne hab,hswap y xs⟩
    | set y => exact ⟨_,mergeTypes_of_ne hab,hswap y xs⟩
    | tuple ys =>
      cases ha
      cases hb
      exact ⟨_,mergeTypes_tuples h,merged_mergedElements (xs ++ ys)⟩
    | _ =>
      cases ha
      cases hb <;> exact absurd h not_false
  | _ => cases ha <;> exact absurd h not_false

/-! The merge keeps the fields of objects in order. -/

/-- Types that are less nested stay keyed when they are merged. -/
def KeyedBelow (d : ℕ) : Prop := ∀ x y : VariableType, x.depth < d → y.depth < d →
  x.Keyed → y.Keyed → (mergeTypes x y).Keyed

section keyedBelow

variable {d : ℕ} (h : KeyedBelow d)

include h

theorem KeyedBelow.foldl {x : VariableType} (hdepth : x.depth < d) (hx : x.Keyed)
    {ys : List VariableType} (hys : ∀ y ∈ ys, y.depth < d ∧ y.Keyed) :
    (ys.foldl mergeTypes x).Keyed := by
  induction ys generalizing x with
  | nil => exact hx
  | cons y ys ih =>
    obtain ⟨⟨hdy,hy⟩,hrest⟩ := List.forall_mem_cons.mp hys
    exact ih ((depth_mergeTypes_le x y).trans_lt (Nat.max_lt.mpr ⟨hdepth,hdy⟩))
      (h x y hdepth hdy hx hy) hrest

theorem KeyedBelow.tuples {xs ys : List VariableType} (hxs : ∀ x ∈ xs, x.depth < d ∧ x.Keyed)
    (hys : ∀ y ∈ ys, y.depth < d ∧ y.Keyed) :
    (mergeUnequal mergeTypes (.tuple xs) (.tuple ys)).Keyed := by
  rw [mergeUnequal]
  split_ifs
  · rw [keyed_tuple]
    intro t ht
    obtain ⟨i,hi⟩ := List.mem_iff_getElem?.mp ht
    obtain ⟨x,y,hx,hy,rfl⟩ := List.getElem?_zipWith_eq_some.mp hi
    obtain ⟨hdx,hkx⟩ := hxs x (List.mem_of_getElem? hx)
    obtain ⟨hdy,hky⟩ := hys y (List.mem_of_getElem? hy)
    exact h x y hdx hdy hkx hky
  · have hall := List.forall_mem_append.mpr ⟨hxs,hys⟩
    cases hitems : xs ++ ys with
    | nil => trivial
    | cons first rest =>
      rw [hitems] at hall
      obtain ⟨⟨hdf,hf⟩,hrest⟩ := List.forall_mem_cons.mp hall
      exact h.foldl hdf hf hrest

theorem KeyedBelow.objects {xs ys : List (String × VariableType)}
    (hxs : ∀ f ∈ xs, f.2.depth < d ∧ f.2.Keyed) (hys : ∀ f ∈ ys, f.2.depth < d ∧ f.2.Keyed) :
    (object (mergedFields mergeTypes xs ys)).Keyed := by
  rw [keyed_object]
  refine ⟨mergedFields_sorted _ _ _,fun f hf => ?_⟩
  have hget := getField_of_mem (mergedFields_sorted mergeTypes xs ys) hf
  rw [getField_mergedFields] at hget
  cases hx : getField xs f.1 with
  | none =>
    rw [hx] at hget
    exact (hys _ (mem_of_getField hget)).2
  | some x =>
    have hkx := hxs _ (mem_of_getField hx)
    cases hy : getField ys f.1 with
    | none =>
      rw [hx,hy] at hget
      obtain rfl := Option.some.inj hget
      exact hkx.2
    | some y =>
      have hky := hys _ (mem_of_getField hy)
      rw [hx,hy] at hget
      exact Option.some.inj hget ▸ h x y hkx.1 hky.1 hkx.2 hky.2

theorem KeyedBelow.merge {a b : VariableType} (hda : a.depth ≤ d) (hdb : b.depth ≤ d)
    (ha : a.Keyed) (hb : b.Keyed) : (mergeTypes a b).Keyed := by
  by_cases hab : a = b
  · rwa [hab,mergeTypes_self]
  rw [mergeTypes_of_ne hab]
  have hitem : ∀ {items : List VariableType}, (tuple items).depth ≤ d → (tuple items).Keyed →
      ∀ t ∈ items, t.depth < d ∧ t.Keyed := fun hle hk t ht =>
    ⟨(depth_le_of_mem ht).trans_lt hle,keyed_tuple.mp hk t ht⟩
  have hfield : ∀ {fields : List (String × VariableType)}, (object fields).depth ≤ d →
      (object fields).Keyed → ∀ f ∈ fields, f.2.depth < d ∧ f.2.Keyed := fun hle hk f hf =>
    ⟨(depth_le_of_mem_fields hf).trans_lt hle,(keyed_object.mp hk).2 f hf⟩
  cases a with
  | any => exact hb
  | primitive p => cases b <;> trivial
  | list x =>
    cases b with
    | any => exact ha
    | list y => exact h x y hda hdb ha hb
    | tuple ys => exact h.foldl hda ha (hitem hdb hb)
    | _ => trivial
  | set x =>
    cases b with
    | any => exact ha
    | set y => exact h x y hda hdb ha hb
    | tuple ys => exact h.foldl hda ha (hitem hdb hb)
    | _ => trivial
  | map x =>
    cases b with
    | any => exact ha
    | map y => exact h x y hda hdb ha hb
    | _ => trivial
  | tuple xs =>
    cases b with
    | any => exact ha
    | list y => exact h.foldl hdb hb (hitem hda ha)
    | set y => exact h.foldl hdb hb (hitem hda ha)
    | tuple ys => exact h.tuples (hitem hda ha) (hitem hdb hb)
    | _ => trivial
  | object xs =>
    cases b with
    | any => exact ha
    | object ys => exact h.objects (hfield hda ha) (hfield hdb hb)
    | _ => trivial

end keyedBelow

theorem keyedBelow (d : ℕ) : KeyedBelow d := by
  induction d with
  | zero => exact fun _ _ hx => absurd hx (Nat.not_lt_zero _)
  | succ d ih =>
    exact fun x y hx hy hkx hky => ih.merge (Nat.le_of_lt_succ hx) (Nat.le_of_lt_succ hy) hkx hky

theorem keyed_mergeTypes {a b : VariableType} (ha : a.Keyed) (hb : b.Keyed) :
    (mergeTypes a b).Keyed :=
  (keyedBelow (max a.depth b.depth)).merge (Nat.le_max_left _ _) (Nat.le_max_right _ _) ha hb

end VariableType
end TerraformLs
