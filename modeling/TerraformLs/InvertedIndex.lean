import TerraformLs.KeyedMap

/-! Inverted indexes. The items of a store carry rows, pairs of a key and a
value, and an index files every row of every item under its key. Each value
knows the item it belongs to, which is how the rows of one item are withdrawn. -/
namespace TerraformLs
namespace InvertedIndex

open Multimap

variable {υ κ ν δ : Type} [DecidableEq υ] [DecidableEq κ]

/-- The values the items of a store carry under `k`. -/
def itemRows (rows : δ → List (κ × ν)) (items : KeyedMap υ δ) (k : κ) : List ν :=
  items.entries.flatMap fun e => rowsAt k (rows e.2)

/-- `m` files exactly the rows of `items`, and no key without a value. -/
structure Indexes (rows : δ → List (κ × ν)) (items : KeyedMap υ δ) (m : Multimap κ ν) : Prop where
  noEmpty : m.NoEmpty
  filed : ∀ k, (m.filed k).Perm (itemRows rows items k)

/-- Every row of an item belongs to the item that carries it. -/
def Owned (owner : ν → υ) (rows : δ → List (κ × ν)) (items : KeyedMap υ δ) : Prop :=
  ∀ u d, items.lookup u = some d → ∀ e ∈ rows d, owner e.2 = u

variable {rows : δ → List (κ × ν)} {items : KeyedMap υ δ} {m : Multimap κ ν}

omit [DecidableEq υ] in
theorem indexes_empty : Indexes rows (∅ : KeyedMap υ δ) (∅ : Multimap κ ν) where
  noEmpty := by simp [NoEmpty]
  filed := by simp [itemRows]

theorem itemRows_congr {items' : KeyedMap υ δ} (h : ∀ u, items.lookup u = items'.lookup u)
    (k : κ) : (itemRows rows items k).Perm (itemRows rows items' k) :=
  (KeyedMap.perm_of_lookup h).flatMap_right _

theorem Indexes.congr {items' : KeyedMap υ δ} (hm : Indexes rows items m)
    (h : ∀ u, items.lookup u = items'.lookup u) : Indexes rows items' m :=
  ⟨hm.noEmpty,fun k => (hm.filed k).trans (itemRows_congr h k)⟩

theorem itemRows_insert (items : KeyedMap υ δ) (u : υ) (d : δ) (k : κ) :
    itemRows rows (items.insert u d) k = rowsAt k (rows d) ++ itemRows rows (items.erase u) k := by
  simp only [itemRows,KeyedMap.entries_insert,KeyedMap.entries_erase,List.flatMap_cons]

/-- The item under `u` contributes its rows, the other items the rest. -/
theorem itemRows_perm {u : υ} {d : δ} (hd : items.lookup u = some d) (k : κ) :
    (itemRows rows items k).Perm (rowsAt k (rows d) ++ itemRows rows (items.erase u) k) := by
  rw [← itemRows_insert]
  refine itemRows_congr (fun j => ?_) k
  rw [KeyedMap.lookup_insert_of]
  split
  · rename_i h; rw [h,hd]
  · rfl

theorem mem_itemRows {k : κ} {v : ν} :
    v ∈ itemRows rows items k ↔ ∃ u d, items.lookup u = some d ∧ (k,v) ∈ rows d := by
  constructor
  · intro h
    obtain ⟨⟨u,d⟩,he,hv⟩ := List.mem_flatMap.mp h
    exact ⟨u,d,KeyedMap.mem_entries.mp he,mem_rowsAt.mp hv⟩
  · rintro ⟨u,d,hd,hv⟩
    exact List.mem_flatMap.mpr ⟨⟨u,d⟩,KeyedMap.mem_entries.mpr hd,mem_rowsAt.mpr hv⟩

theorem Indexes.mem_filed (hm : Indexes rows items m) {k : κ} {v : ν} :
    v ∈ m.filed k ↔ ∃ u d, items.lookup u = some d ∧ (k,v) ∈ rows d :=
  (hm.filed k).mem_iff.trans mem_itemRows

omit [DecidableEq κ] in
theorem Owned.erase {owner : ν → υ} (h : Owned owner rows items) (u : υ) :
    Owned owner rows (items.erase u) := by
  intro j d hd
  rw [KeyedMap.lookup_erase_of] at hd
  split at hd
  · contradiction
  · exact h j d hd

omit [DecidableEq κ] in
theorem Owned.insert {owner : ν → υ} (h : Owned owner rows items) {u : υ} {d : δ}
    (hd : ∀ e ∈ rows d, owner e.2 = u) : Owned owner rows (items.insert u d) := by
  intro j d' hd'
  rw [KeyedMap.lookup_insert_of] at hd'
  split at hd'
  · rename_i hj
    cases hd'
    rw [hj]
    exact hd
  · exact h j d' hd'

section withdraw

variable {owner : ν → υ}

/-- Without the values that belong to `u`, the rows are those of the other items. -/
theorem itemRows_filter (ho : Owned owner rows items) (u : υ) (k : κ) :
    (itemRows rows items k).filter (fun v => owner v ≠ u) = itemRows rows (items.erase u) k := by
  have hes : ∀ e ∈ items.entries, ∀ v ∈ rowsAt k (rows e.2), owner v = e.1 :=
    fun e he v hv => ho e.1 e.2 (KeyedMap.mem_entries.mp he) _ (mem_rowsAt.mp hv)
  unfold itemRows
  rw [KeyedMap.entries_erase]
  generalize items.entries = es at hes
  induction es with
  | nil => rfl
  | cons e es ih =>
    have ih := ih fun e' he' => hes e' (List.mem_cons_of_mem e he')
    have he := hes e List.mem_cons_self
    by_cases hu : e.1 = u
    · have hdrop : (rowsAt k (rows e.2)).filter (fun v => owner v ≠ u) = [] :=
        List.filter_eq_nil_iff.mpr fun v hv => by simp [he v hv,hu]
      rw [List.flatMap_cons,List.filter_append,hdrop,ih,List.filter_cons_of_neg (by simp [hu])]
      rfl
    · have hkeep : (rowsAt k (rows e.2)).filter (fun v => owner v ≠ u) = rowsAt k (rows e.2) :=
        List.filter_eq_self.mpr fun v hv => by simp [he v hv,hu]
      rw [List.flatMap_cons,List.filter_append,hkeep,ih,List.filter_cons_of_pos (by simp [hu]),
        List.flatMap_cons]

/-- Dropping the values of `u` under the keys its item has rows for leaves the
index of the other items. -/
theorem Indexes.withdraw (hm : Indexes rows items m) (ho : Owned owner rows items) {u : υ}
    {ks : List κ} (hks : ∀ d, items.lookup u = some d → ∀ e ∈ rows d, e.1 ∈ ks) :
    Indexes rows (items.erase u) (prune (keepAt m (fun v => owner v ≠ u) ks)) where
  noEmpty := noEmpty_prune _
  filed k := by
    rw [filed_prune,filed_keepAt]
    have hf := (hm.filed k).filter fun v => decide (owner v ≠ u)
    rw [itemRows_filter ho] at hf
    split
    · exact hf
    · rename_i hk
      have hother : ∀ v ∈ m.filed k, owner v ≠ u := by
        intro v hv hu
        obtain ⟨u',d,hd,hr⟩ := hm.mem_filed.mp hv
        have hu' : u' = u := (ho u' d hd _ hr).symm.trans hu
        exact hk (hks d (hu' ▸ hd) _ hr)
      have hself : (m.filed k).filter (fun v => owner v ≠ u) = m.filed k :=
        List.filter_eq_self.mpr fun v hv => by simpa using hother v hv
      rwa [hself] at hf

end withdraw

/-- Filing the rows of an item that has been withdrawn or is new. -/
theorem Indexes.file {u : υ} (hm : Indexes rows (items.erase u) m) (d : δ) :
    Indexes rows (items.insert u d) (pushAll m (rows d)) where
  noEmpty := noEmpty_pushAll hm.noEmpty _
  filed k := by
    rw [filed_pushAll,itemRows_insert]
    exact List.perm_append_comm.trans ((hm.filed k).append_left _)

/-- Without filing them, the index is right only if the item has no rows. -/
theorem Indexes.unfiled_iff {u : υ} {d : δ} (hm : Indexes rows (items.erase u) m) :
    Indexes rows (items.insert u d) m ↔ rows d = [] := by
  constructor
  · intro h
    by_contra hne
    obtain ⟨⟨k,v⟩,es,he⟩ := List.exists_cons_of_ne_nil hne
    have hlen := ((hm.filed k).symm.trans (h.filed k)).length_eq
    rw [itemRows_insert,List.length_append,he,rowsAt_cons] at hlen
    simp only [↓reduceIte,List.length_append,List.length_singleton] at hlen
    omega
  · intro hd
    have h := hm.file d
    rwa [hd] at h

/-- The values in the index that belong to `u` are those of its item. -/
theorem Indexes.filed_owned {owner : ν → υ} {u : υ} {d : δ} (hm : Indexes rows items m)
    (ho : Owned owner rows items) (hd : items.lookup u = some d) (k : κ) :
    ((m.filed k).filter fun v => owner v = u).Perm (rowsAt k (rows d)) := by
  have hp := ((hm.filed k).trans (itemRows_perm hd k)).filter fun v => decide (owner v = u)
  rw [List.filter_append] at hp
  have hkeep : (rowsAt k (rows d)).filter (fun v => owner v = u) = rowsAt k (rows d) :=
    List.filter_eq_self.mpr fun v hv => by simpa using ho u d hd _ (mem_rowsAt.mp hv)
  have hdrop : (itemRows rows (items.erase u) k).filter (fun v => owner v = u) = [] :=
    List.filter_eq_nil_iff.mpr fun v hv => by
      rw [← itemRows_filter ho] at hv
      simpa using (List.mem_filter.mp hv).2
  rwa [hkeep,hdrop,List.append_nil] at hp

end InvertedIndex
end TerraformLs
