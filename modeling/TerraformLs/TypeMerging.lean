import Mathlib.Data.List.Dedup
import Mathlib.Data.List.Sort
import Mathlib.Data.String.Basic
import TerraformLs.TypeChecks

/-! The type that several observed types of a variable are merged into. An unknown type
gives way to the other one, and types that do not go together become unknown. -/
namespace TerraformLs
namespace VariableType

section definitions

/-- The names of both objects, in order. -/
def unionKeys (xs ys : List (String × VariableType)) : List String :=
  ((xs ++ ys).map Prod.fst).dedup.insertionSort (· ≤ ·)

variable (merge : VariableType → VariableType → VariableType)

/-- A name of one object only keeps its type. -/
def mergedField : Option VariableType → Option VariableType → VariableType
  | some x, some y => merge x y
  | some x, none | none, some x => merge x .any
  | none, none => .any

def mergedFields (xs ys : List (String × VariableType)) : List (String × VariableType) :=
  (unionKeys xs ys).map fun k => (k,mergedField merge (getField xs k) (getField ys k))

/-- The first of the types with all others merged into it. -/
def mergedElements : List VariableType → VariableType
  | [] => .any
  | first::rest => rest.foldl merge first

/-- What two different types are merged into. -/
def mergeUnequal : VariableType → VariableType → VariableType
  | .any, b => b
  | a, .any => a
  | .list x, .list y => .list (merge x y)
  | .set x, .set y => .set (merge x y)
  | .map x, .map y => .map (merge x y)
  | .tuple xs, .tuple ys =>
    if xs.length = ys.length then .tuple (xs.zipWith merge ys)
    else .list (mergedElements merge (xs ++ ys))
  | .list x, .tuple ys | .tuple ys, .list x | .set x, .tuple ys | .tuple ys, .set x =>
    .list (ys.foldl merge x)
  | .object xs, .object ys => .object (mergedFields merge xs ys)
  | _, _ => .any

/-- One level of the merge; `merge` is what types further down are merged with. -/
def mergeStep (a b : VariableType) : VariableType :=
  if a.beq b then a else mergeUnequal merge a b

mutual

/-- How deep a type is nested. -/
def depth : VariableType → ℕ
  | .any | .primitive _ => 0
  | .list x | .set x | .map x => depth x + 1
  | .tuple items => depthItems items + 1
  | .object fields => depthFields fields + 1

def depthItems : List VariableType → ℕ
  | [] => 0
  | t::items => max (depth t) (depthItems items)

def depthFields : List (String × VariableType) → ℕ
  | [] => 0
  | (_,t)::fields => max (depth t) (depthFields fields)

end

/-- The merge, down to a number of levels. -/
def mergeLevels : ℕ → VariableType → VariableType → VariableType
  | 0 => mergeStep fun _ _ => .any
  | n+1 => mergeStep (mergeLevels n)

/-- A merge goes as far down as its types are nested. -/
def mergeTypes (a b : VariableType) : VariableType :=
  mergeLevels (max a.depth b.depth) a b

def mergeObservations : List VariableType → Option VariableType
  | [] => none
  | first::rest => some (rest.foldl mergeTypes first)

/-- The merged type of the observations of a variable, unless nothing is known of it. -/
def mergedAssignedType (observations : List VariableType) : Option VariableType :=
  match mergeObservations observations with
  | none | some .any => none
  | some merged => some merged

end definitions

/-! The levels. -/

theorem beq_iff_eq {a b : VariableType} : a.beq b ↔ a = b := by
  induction a generalizing b with
  | any => cases b <;> simp [beq]
  | primitive p => cases b <;> simp [beq]
  | list x ih => cases b <;> simp [beq,ih]
  | set x ih => cases b <;> simp [beq,ih]
  | map x ih => cases b <;> simp [beq,ih]
  | tuple items ih =>
    have hitems : ∀ items', beqItems items items' ↔ items = items' := by
      induction items with
      | nil => intro items'; cases items' <;> simp [beqItems]
      | cons t items ihi =>
        obtain ⟨ht,hrest⟩ := List.forall_mem_cons.mp ih
        intro items'
        cases items' <;> simp [beqItems,ht,ihi hrest]
    cases b <;> simp [beq,hitems]
  | object fields ih =>
    have hfields : ∀ fields', beqFields fields fields' ↔ fields = fields' := by
      induction fields with
      | nil => intro fields'; cases fields' <;> simp [beqFields]
      | cons f fields ihf =>
        obtain ⟨hf,hrest⟩ := List.forall_mem_cons.mp ih
        intro fields'
        obtain ⟨k,t⟩ := f
        cases fields' with
        | nil => simp [beqFields]
        | cons g fields' => simp [beqFields,hf,ihf hrest,Prod.ext_iff]
    cases b <;> simp [beq,hfields]

theorem depth_le_of_mem {items : List VariableType} {t : VariableType} (h : t ∈ items) :
    t.depth ≤ depthItems items := by
  induction items with
  | nil => cases h
  | cons s items ih =>
    rw [depthItems]
    rcases List.mem_cons.mp h with rfl | h
    · exact Nat.le_max_left _ _
    · exact (ih h).trans (Nat.le_max_right _ _)

theorem depthItems_le {items : List VariableType} {d : ℕ} (h : ∀ t ∈ items, t.depth ≤ d) :
    depthItems items ≤ d := by
  induction items with
  | nil => exact Nat.zero_le d
  | cons s items ih =>
    obtain ⟨hs,hitems⟩ := List.forall_mem_cons.mp h
    exact Nat.max_le.mpr ⟨hs,ih hitems⟩

theorem depth_le_of_mem_fields {fields : List (String × VariableType)} {f : String × VariableType}
    (h : f ∈ fields) : f.2.depth ≤ depthFields fields := by
  induction fields with
  | nil => cases h
  | cons g fields ih =>
    rw [depthFields]
    rcases List.mem_cons.mp h with rfl | h
    · exact Nat.le_max_left _ _
    · exact (ih h).trans (Nat.le_max_right _ _)

theorem depthFields_le {fields : List (String × VariableType)} {d : ℕ}
    (h : ∀ f ∈ fields, f.2.depth ≤ d) : depthFields fields ≤ d := by
  induction fields with
  | nil => exact Nat.zero_le d
  | cons f fields ih =>
    obtain ⟨hf,hfields⟩ := List.forall_mem_cons.mp h
    exact Nat.max_le.mpr ⟨hf,ih hfields⟩

section agree

variable {r s : VariableType → VariableType → VariableType} {d : ℕ}

/-- On types that are less nested, `r` and `s` say the same and do not nest any deeper. -/
def AgreeBelow (d : ℕ) (r s : VariableType → VariableType → VariableType) : Prop :=
  ∀ x y, x.depth < d → y.depth < d → r x y = s x y ∧ (r x y).depth < d

theorem AgreeBelow.foldl (h : AgreeBelow d r s) {x : VariableType} (hx : x.depth < d)
    {ys : List VariableType} (hys : ∀ y ∈ ys, y.depth < d) :
    ys.foldl r x = ys.foldl s x ∧ (ys.foldl r x).depth < d := by
  induction ys generalizing x with
  | nil => exact ⟨rfl,hx⟩
  | cons y ys ih =>
    obtain ⟨hy,hrest⟩ := List.forall_mem_cons.mp hys
    obtain ⟨heq,hlt⟩ := h x y hx hy
    rw [List.foldl_cons,List.foldl_cons,← heq]
    exact ih hlt hrest

theorem AgreeBelow.elements (h : AgreeBelow d r s) {items : List VariableType}
    (hitems : ∀ t ∈ items, t.depth < d) (hd : 0 < d) :
    mergedElements r items = mergedElements s items ∧ (mergedElements r items).depth < d := by
  cases items with
  | nil => exact ⟨rfl,hd⟩
  | cons t items =>
    obtain ⟨ht,hrest⟩ := List.forall_mem_cons.mp hitems
    exact h.foldl ht hrest

theorem AgreeBelow.zipWith (h : AgreeBelow d r s) {xs ys : List VariableType}
    (hxs : ∀ t ∈ xs, t.depth < d) (hys : ∀ t ∈ ys, t.depth < d) :
    xs.zipWith r ys = xs.zipWith s ys ∧ ∀ t ∈ xs.zipWith r ys, t.depth < d := by
  induction xs generalizing ys with
  | nil => exact ⟨rfl,by simp⟩
  | cons x xs ih =>
    cases ys with
    | nil => exact ⟨rfl,by simp⟩
    | cons y ys =>
      obtain ⟨hx,hxs⟩ := List.forall_mem_cons.mp hxs
      obtain ⟨hy,hys⟩ := List.forall_mem_cons.mp hys
      obtain ⟨heq,hlt⟩ := h x y hx hy
      obtain ⟨hrest,hlts⟩ := ih hxs hys
      rw [List.zipWith_cons_cons,List.zipWith_cons_cons,heq,hrest]
      exact ⟨rfl,List.forall_mem_cons.mpr ⟨heq ▸ hlt,hrest ▸ hlts⟩⟩

theorem AgreeBelow.field (h : AgreeBelow d r s) {x y : Option VariableType}
    (hx : ∀ t, x = some t → t.depth < d) (hy : ∀ t, y = some t → t.depth < d) (hd : 0 < d) :
    mergedField r x y = mergedField s x y ∧ (mergedField r x y).depth < d := by
  cases x with
  | none =>
    cases y with
    | none => exact ⟨rfl,hd⟩
    | some y => exact h y .any (hy y rfl) hd
  | some x =>
    cases y with
    | none => exact h x .any (hx x rfl) hd
    | some y => exact h x y (hx x rfl) (hy y rfl)

theorem AgreeBelow.fields (h : AgreeBelow d r s) {xs ys : List (String × VariableType)}
    (hxs : ∀ f ∈ xs, f.2.depth < d) (hys : ∀ f ∈ ys, f.2.depth < d) (hd : 0 < d) :
    mergedFields r xs ys = mergedFields s xs ys ∧ ∀ f ∈ mergedFields r xs ys, f.2.depth < d := by
  have hfield := fun k => h.field (x:=getField xs k) (y:=getField ys k)
    (fun t ht => hxs (k,t) (mem_of_getField ht)) (fun t ht => hys (k,t) (mem_of_getField ht)) hd
  refine ⟨List.map_congr_left fun k _ => by rw [(hfield k).1],fun f hf => ?_⟩
  obtain ⟨k,-,rfl⟩ := List.mem_map.mp hf
  exact (hfield k).2

theorem AgreeBelow.mergeStep (h : AgreeBelow d r s) {a b : VariableType} (ha : a.depth ≤ d)
    (hb : b.depth ≤ d) :
    mergeStep r a b = mergeStep s a b ∧ (mergeStep r a b).depth ≤ d := by
  have hitem : ∀ {items : List VariableType}, depthItems items + 1 ≤ d →
      ∀ t ∈ items, t.depth < d := fun hle t ht => (depth_le_of_mem ht).trans_lt hle
  have hfield : ∀ {fields : List (String × VariableType)}, depthFields fields + 1 ≤ d →
      ∀ f ∈ fields, f.2.depth < d := fun hle f hf => (depth_le_of_mem_fields hf).trans_lt hle
  unfold VariableType.mergeStep
  split_ifs with heq
  · exact ⟨rfl,ha⟩
  unfold mergeUnequal
  split
  · exact ⟨rfl,hb⟩
  · exact ⟨rfl,ha⟩
  · obtain ⟨heq,hlt⟩ := h _ _ ha hb
    exact ⟨by rw [heq],hlt⟩
  · obtain ⟨heq,hlt⟩ := h _ _ ha hb
    exact ⟨by rw [heq],hlt⟩
  · obtain ⟨heq,hlt⟩ := h _ _ ha hb
    exact ⟨by rw [heq],hlt⟩
  · split_ifs
    · obtain ⟨heq,hlt⟩ := h.zipWith (hitem ha) (hitem hb)
      exact ⟨by rw [heq],Nat.succ_le_of_lt (Nat.lt_of_le_of_lt (depthItems_le fun t ht =>
        Nat.le_sub_one_of_lt (hlt t ht)) (by rw [depth] at ha; omega))⟩
    · obtain ⟨heq,hlt⟩ := h.elements (List.forall_mem_append.mpr ⟨hitem ha,hitem hb⟩)
        (by rw [depth] at ha; omega)
      exact ⟨by rw [heq],hlt⟩
  · obtain ⟨heq,hlt⟩ := h.foldl ha (hitem hb)
    exact ⟨by rw [heq],hlt⟩
  · obtain ⟨heq,hlt⟩ := h.foldl hb (hitem ha)
    exact ⟨by rw [heq],hlt⟩
  · obtain ⟨heq,hlt⟩ := h.foldl ha (hitem hb)
    exact ⟨by rw [heq],hlt⟩
  · obtain ⟨heq,hlt⟩ := h.foldl hb (hitem ha)
    exact ⟨by rw [heq],hlt⟩
  · obtain ⟨heq,hlt⟩ := h.fields (hfield ha) (hfield hb) (by rw [depth] at ha; omega)
    exact ⟨by rw [heq],Nat.succ_le_of_lt (Nat.lt_of_le_of_lt (depthFields_le fun f hf =>
      Nat.le_sub_one_of_lt (hlt f hf)) (by rw [depth] at ha; omega))⟩
  · exact ⟨rfl,Nat.zero_le d⟩

end agree

/-- More levels than the types have change nothing. -/
theorem mergeLevels_agree {d n k : ℕ} (hn : d ≤ n) (hk : d ≤ k) {a b : VariableType}
    (ha : a.depth ≤ d) (hb : b.depth ≤ d) :
    mergeLevels n a b = mergeLevels k a b ∧ (mergeLevels n a b).depth ≤ d := by
  induction d generalizing n k a b with
  | zero =>
    have hagree : ∀ r s, AgreeBelow 0 r s := fun _ _ _ _ hx => absurd hx (Nat.not_lt_zero _)
    cases n <;> cases k <;> exact (hagree _ _).mergeStep ha hb
  | succ d ih =>
    obtain ⟨n,rfl⟩ := Nat.exists_eq_succ_of_ne_zero (Nat.ne_zero_of_lt hn)
    obtain ⟨k,rfl⟩ := Nat.exists_eq_succ_of_ne_zero (Nat.ne_zero_of_lt hk)
    have hagree : AgreeBelow (d+1) (mergeLevels n) (mergeLevels k) := fun x y hx hy => by
      obtain ⟨heq,hle⟩ := ih (Nat.le_of_succ_le_succ hn) (Nat.le_of_succ_le_succ hk)
        (Nat.le_of_lt_succ hx) (Nat.le_of_lt_succ hy)
      exact ⟨heq,Nat.lt_succ_of_le hle⟩
    exact hagree.mergeStep ha hb

theorem agreeBelow_mergeTypes (d : ℕ) : AgreeBelow (d+1) (mergeLevels d) mergeTypes := by
  intro x y hx hy
  have hle : max x.depth y.depth ≤ d := by omega
  obtain ⟨heq,hdepth⟩ := mergeLevels_agree hle (Nat.le_refl (max x.depth y.depth))
    (Nat.le_max_left x.depth y.depth) (Nat.le_max_right x.depth y.depth)
  exact ⟨heq,Nat.lt_succ_of_le (hdepth.trans hle)⟩

/-- The merge is one level, and the merge of what is below. -/
theorem mergeTypes_eq (a b : VariableType) : mergeTypes a b = mergeStep mergeTypes a b := by
  have ha := Nat.le_max_left a.depth b.depth
  have hb := Nat.le_max_right a.depth b.depth
  rw [mergeTypes]
  cases hd : max a.depth b.depth with
  | zero =>
    rw [hd] at ha hb
    have hagree : AgreeBelow 0 (fun _ _ => .any) mergeTypes :=
      fun _ _ hx => absurd hx (Nat.not_lt_zero _)
    exact (hagree.mergeStep ha hb).1
  | succ d =>
    rw [hd] at ha hb
    exact ((agreeBelow_mergeTypes d).mergeStep ha hb).1

theorem depth_mergeTypes_le (a b : VariableType) :
    (mergeTypes a b).depth ≤ max a.depth b.depth :=
  (mergeLevels_agree (Nat.le_refl _) (Nat.le_refl _) (Nat.le_max_left a.depth b.depth)
    (Nat.le_max_right a.depth b.depth)).2

end VariableType
end TerraformLs
