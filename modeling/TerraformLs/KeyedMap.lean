import Mathlib.Data.List.AList
import Mathlib.Data.Set.Finite.List

/-! Finite maps with an observable iteration order. A hash map is its list of
entries with distinct keys; every statement quantifies over that list, hence
over every order in which a table may be walked. Multimaps keep one list of
values for each key. -/
namespace TerraformLs

abbrev KeyedMap (κ ν : Type) := AList fun _ : κ => ν

namespace KeyedMap

variable {κ ν ξ : Type} [DecidableEq κ]

/-- Keep the entries that satisfy `p`. -/
def retain (p : κ → ν → Bool) (m : KeyedMap κ ν) : KeyedMap κ ν :=
  ⟨m.entries.filter fun e => p e.1 e.2, m.nodupKeys.sublist List.filter_sublist⟩

/-- Change the value stored under `k` in place, when there is one. -/
def modify (k : κ) (f : ν → ν) (m : KeyedMap κ ν) : KeyedMap κ ν :=
  match m.lookup k with
  | some v => m.insert k (f v)
  | none => m

/-- Store a value unless the key has one. -/
def insertMissing (m : KeyedMap κ ν) (e : (_ : κ) × ν) : KeyedMap κ ν :=
  if (m.lookup e.1).isSome then m else m.insert e.1 e.2

/-- Store the entries of `n` whose keys `m` lacks. -/
def mergeMissing (m n : KeyedMap κ ν) : KeyedMap κ ν := n.entries.foldl insertMissing m

/-- Change every value, knowing its key. -/
def mapValues (f : κ → ν → ξ) (m : KeyedMap κ ν) : KeyedMap κ ξ :=
  ⟨m.entries.map fun e => ⟨e.1,f e.1 e.2⟩,by
    have h : (m.entries.map fun e => (⟨e.1,f e.1 e.2⟩ : (_ : κ) × ξ)).keys = m.entries.keys := by
      simp [List.keys,Function.comp_def]
    rw [List.NodupKeys,h]
    exact m.nodupKeys⟩

theorem mem_entries {m : KeyedMap κ ν} {k : κ} {v : ν} :
    (⟨k,v⟩ : (_ : κ) × ν) ∈ m.entries ↔ m.lookup k = some v :=
  (AList.mem_lookup_iff (s:=m)).symm

theorem lookup_insert_of (m : KeyedMap κ ν) (k j : κ) (v : ν) :
    (m.insert k v).lookup j = if j = k then some v else m.lookup j := by
  by_cases h : j = k
  · subst j; simp
  · simp [h,AList.lookup_insert_ne h]

theorem lookup_erase_of (m : KeyedMap κ ν) (k j : κ) :
    (m.erase k).lookup j = if j = k then none else m.lookup j := by
  by_cases h : j = k
  · subst j; simp
  · simp [h,AList.lookup_erase_ne h]

@[simp] theorem lookup_retain (p : κ → ν → Bool) (m : KeyedMap κ ν) (k : κ) :
    (retain p m).lookup k = (m.lookup k).filter (p k) := by
  apply Option.ext
  intro v
  rw [Option.filter_eq_some_iff,← mem_entries,← mem_entries]
  simp [retain]

@[simp] theorem lookup_mapValues (f : κ → ν → ξ) (m : KeyedMap κ ν) (k : κ) :
    (mapValues f m).lookup k = (m.lookup k).map (f k) := by
  apply Option.ext
  intro x
  rw [Option.map_eq_some_iff,← mem_entries]
  simp only [mapValues,List.mem_map]
  constructor
  · rintro ⟨⟨j,v⟩,he,h⟩
    cases h
    exact ⟨v,mem_entries.mp he,rfl⟩
  · rintro ⟨v,hv,rfl⟩
    exact ⟨⟨k,v⟩,mem_entries.mpr hv,rfl⟩

@[simp] theorem lookup_modify (k j : κ) (f : ν → ν) (m : KeyedMap κ ν) :
    (modify k f m).lookup j = if j = k then (m.lookup k).map f else m.lookup j := by
  unfold modify
  split
  · rename_i v hv
    rw [lookup_insert_of,hv]
    rfl
  · rename_i hv
    split
    · rename_i h; rw [h,hv]; rfl
    · rfl

theorem lookup_insertMissing (m : KeyedMap κ ν) (e : (_ : κ) × ν) (k : κ) :
    (m.insertMissing e).lookup k = (m.lookup k).or (if k = e.1 then some e.2 else none) := by
  rw [insertMissing]
  split
  · rename_i hsome
    split
    · rename_i hk
      obtain ⟨v,hv⟩ := Option.isSome_iff_exists.mp hsome
      rw [hk,hv,Option.some_or]
    · rw [Option.or_none]
  · rename_i hnone
    rw [lookup_insert_of]
    split
    · rename_i hk
      have hlookup : m.lookup k = none := by
        rw [hk]
        exact Option.not_isSome_iff_eq_none.mp hnone
      rw [hlookup,Option.none_or]
    · rw [Option.or_none]

/-- The first map with a value for the key provides it. -/
@[simp] theorem lookup_mergeMissing (m n : KeyedMap κ ν) (k : κ) :
    (m.mergeMissing n).lookup k = (m.lookup k).or (n.lookup k) := by
  have hentries : ∀ es : List ((_ : κ) × ν), ∀ m : KeyedMap κ ν,
      (es.foldl insertMissing m).lookup k = (m.lookup k).or (List.dlookup k es) := by
    intro es
    induction es with
    | nil => simp
    | cons e es ih =>
      intro m
      rw [List.foldl_cons,ih,lookup_insertMissing,Option.or_assoc]
      congr 1
      by_cases hk : k = e.1
      · subst hk
        rw [if_pos rfl,Option.some_or,List.dlookup_cons_eq]
      · rw [if_neg hk,Option.none_or,List.dlookup_cons_ne es e hk]
  exact hentries n.entries m

/-- Maps that agree on every key have the same entries, up to their order. -/
theorem perm_of_lookup {m n : KeyedMap κ ν} (h : ∀ k, m.lookup k = n.lookup k) :
    m.entries.Perm n.entries :=
  List.lookup_ext m.nodupKeys n.nodupKeys fun k v => by
    change v ∈ m.lookup k ↔ v ∈ n.lookup k
    rw [h]

/-- Erasing a key drops exactly the entries filed under it. -/
theorem entries_erase (m : KeyedMap κ ν) (k : κ) :
    (m.erase k).entries = m.entries.filter fun e => e.1 ≠ k := by
  have hm := m.nodupKeys
  change List.kerase k m.entries = _
  generalize m.entries = es at hm
  induction es with
  | nil => rfl
  | cons e es ih =>
    obtain ⟨hk,ht⟩ := List.nodupKeys_cons.mp hm
    by_cases h : k = e.1
    · have hf : es.filter (fun x => x.1 ≠ k) = es :=
        List.filter_eq_self.mpr fun x hx => by
          have hx' : x.1 ≠ e.1 := fun he => hk (he ▸ List.mem_keys_of_mem hx)
          simpa [h] using hx'
      rw [List.kerase_cons_eq h,List.filter_cons_of_neg (by simp [h]),hf]
    · rw [List.kerase_cons_ne h,ih ht,List.filter_cons_of_pos (by simpa using Ne.symm h)]

theorem entries_insert (m : KeyedMap κ ν) (k : κ) (v : ν) :
    (m.insert k v).entries = ⟨k,v⟩ :: m.entries.filter fun e => e.1 ≠ k := by
  rw [AList.entries_insert,← entries_erase]
  rfl

theorem finite_nodup_lists {α : Type} {E : Set α} (hE : E.Finite) :
    {l : List α | l.Nodup ∧ ∀ e ∈ l, e ∈ E}.Finite := by
  have hfinite : Finite E := hE
  refine ((List.finite_length_le E hE.toFinset.card).image (List.map Subtype.val)).subset ?_
  rintro l ⟨hl,hE'⟩
  have hsub : (⟨l,hl⟩ : Finset α) ⊆ hE.toFinset := fun e he => hE.mem_toFinset.mpr (hE' e he)
  refine ⟨l.attachWith (· ∈ E) hE',?_,List.attachWith_map_subtype_val _⟩
  change (l.attachWith (· ∈ E) hE').length ≤ hE.toFinset.card
  rw [List.length_attachWith]
  exact Finset.card_le_card hsub

omit [DecidableEq κ] in
/-- Finitely many maps have their entries in a finite set. -/
theorem finite_of_entries {E : Set ((_ : κ) × ν)} (hE : E.Finite) :
    {m : KeyedMap κ ν | ∀ e ∈ m.entries, e ∈ E}.Finite := by
  have hinj : Function.Injective fun m : KeyedMap κ ν => m.entries := fun _ _ h => AList.ext h
  refine ((finite_nodup_lists hE).preimage hinj.injOn).subset fun m hm => ?_
  exact ⟨m.nodupKeys.nodup,hm⟩

/-- Change the value under a key where it stands. -/
def updateAt (k : κ) (f : ν → ν) (m : KeyedMap κ ν) : KeyedMap κ ν :=
  m.mapValues fun j v => if j = k then f v else v

omit [DecidableEq κ] in
theorem mapValues_mapValues {υ : Type} (f : κ → ξ → υ) (g : κ → ν → ξ) (m : KeyedMap κ ν) :
    mapValues f (mapValues g m) = mapValues (fun k v => f k (g k v)) m :=
  AList.ext (by simp [mapValues,Function.comp_def])

omit [DecidableEq κ] in
theorem mapValues_congr {f g : κ → ν → ξ} (h : ∀ k v, f k v = g k v)
    (m : KeyedMap κ ν) : mapValues f m = mapValues g m := by
  rw [funext fun k => funext (h k)]

theorem updateAt_comm {j k : κ} (h : j ≠ k) (f g : ν → ν) (m : KeyedMap κ ν) :
    updateAt j f (updateAt k g m) = updateAt k g (updateAt j f m) := by
  rw [updateAt,updateAt,mapValues_mapValues,updateAt,updateAt,mapValues_mapValues]
  refine mapValues_congr (fun i v => ?_) m
  by_cases hj : i = j
  · have hk : i ≠ k := fun hk => h (hj.symm.trans hk)
    simp only [if_pos hj,if_neg hk]
  · simp only [if_neg hj]

theorem lookup_updateAt_ne {j k : κ} (h : j ≠ k) (f : ν → ν) (m : KeyedMap κ ν) :
    (updateAt k f m).lookup j = m.lookup j := by
  rw [updateAt,lookup_mapValues]
  simp only [if_neg h,Option.map_id']

section changes

variable [DecidableEq ν] {old new : KeyedMap κ ν}

/-- The keys under which the new map has not what the old one has. -/
def changed (old new : KeyedMap κ ν) : List κ :=
  (new.entries.filter fun e => old.lookup e.1 ≠ some e.2).map Sigma.fst ++
    old.keys.filter fun k => k ∉ new

theorem mem_changed {k : κ} : k ∈ changed old new ↔ old.lookup k ≠ new.lookup k := by
  rw [changed,List.mem_append,List.mem_map,List.mem_filter,decide_eq_true_eq]
  cases hnew : new.lookup k with
  | none =>
    have hno : k ∉ new := AList.lookup_eq_none.mp hnew
    rw [ne_eq,AList.lookup_eq_none,not_not,and_iff_left hno]
    refine (or_iff_right ?_).trans AList.mem_keys.symm
    rintro ⟨e,he,rfl⟩
    have hlookup := mem_entries.mp (List.mem_filter.mp he).1
    exact nomatch hnew.symm.trans hlookup
  | some v =>
    have hyes : k ∈ new := AList.lookup_isSome.mp (by rw [hnew]; rfl)
    rw [or_iff_left fun h => h.2 hyes]
    constructor
    · rintro ⟨e,he,rfl⟩
      obtain ⟨hmem,hne⟩ := List.mem_filter.mp he
      cases hnew.symm.trans (mem_entries.mp hmem)
      simpa using hne
    · exact fun hne => ⟨⟨k,v⟩,List.mem_filter.mpr ⟨mem_entries.mpr hnew,by simpa using hne⟩,rfl⟩

theorem nodup_changed : (changed old new).Nodup := by
  refine List.nodup_append.mpr ⟨?_,old.keys_nodup.filter _,fun k hk j hj => ?_⟩
  · exact new.keys_nodup.sublist (List.filter_sublist.map Sigma.fst)
  · rintro rfl
    obtain ⟨e,he,rfl⟩ := List.mem_map.mp hk
    have hin : e.1 ∈ new := AList.mem_keys.mpr (List.mem_keys_of_mem (List.mem_filter.mp he).1)
    exact of_decide_eq_true (List.mem_filter.mp hj).2 hin

end changes

end KeyedMap

/-- A map from keys to lists of values: an inverted index. -/
abbrev Multimap (κ ν : Type) := KeyedMap κ (List ν)

namespace Multimap

open KeyedMap

variable {κ ν : Type} [DecidableEq κ]

/-- The values filed under `k`; an absent key has none. -/
def filed (m : Multimap κ ν) (k : κ) : List ν := (m.lookup k).getD []

def push (m : Multimap κ ν) (e : κ × ν) : Multimap κ ν := m.insert e.1 (m.filed e.1 ++ [e.2])

def pushAll (m : Multimap κ ν) (es : List (κ × ν)) : Multimap κ ν := es.foldl push m

/-- Keep only the values satisfying `p` under each of `ks`. -/
def keepAt (m : Multimap κ ν) (p : ν → Bool) (ks : List κ) : Multimap κ ν :=
  ks.foldl (fun m k => modify k (List.filter p) m) m

/-- Drop every key whose list of values is empty. -/
def prune (m : Multimap κ ν) : Multimap κ ν := retain (fun _ vs => !vs.isEmpty) m

def NoEmpty (m : Multimap κ ν) : Prop := ∀ k, m.lookup k ≠ some []

/-- The values a list of rows files under `k`. -/
def rowsAt (k : κ) (es : List (κ × ν)) : List ν := (es.filter fun e => e.1 = k).map Prod.snd

@[simp] theorem rowsAt_nil (k : κ) : rowsAt k ([] : List (κ × ν)) = [] := rfl

@[simp] theorem rowsAt_cons (k : κ) (e : κ × ν) (es : List (κ × ν)) :
    rowsAt k (e :: es) = (if e.1 = k then [e.2] else []) ++ rowsAt k es := by
  by_cases h : e.1 = k <;> simp [rowsAt,h]

theorem rowsAt_append (k : κ) (es fs : List (κ × ν)) :
    rowsAt k (es ++ fs) = rowsAt k es ++ rowsAt k fs := by simp [rowsAt]

theorem mem_rowsAt {k : κ} {es : List (κ × ν)} {v : ν} : v ∈ rowsAt k es ↔ (k,v) ∈ es := by
  simp [rowsAt]

@[simp] theorem filed_empty (k : κ) : (∅ : Multimap κ ν).filed k = [] := rfl

@[simp] theorem filed_push (m : Multimap κ ν) (e : κ × ν) (k : κ) :
    (m.push e).filed k = m.filed k ++ if e.1 = k then [e.2] else [] := by
  by_cases h : e.1 = k
  · subst k; simp [filed,push]
  · simp [filed,push,h,AList.lookup_insert_ne (Ne.symm h)]

theorem filed_pushAll (m : Multimap κ ν) (es : List (κ × ν)) (k : κ) :
    (m.pushAll es).filed k = m.filed k ++ rowsAt k es := by
  induction es generalizing m with
  | nil => simp [pushAll]
  | cons e es ih =>
    have h := ih (m.push e)
    simp only [pushAll,List.foldl_cons] at h ⊢
    rw [h,filed_push,rowsAt_cons,List.append_assoc]

theorem noEmpty_push {m : Multimap κ ν} (h : m.NoEmpty) (e : κ × ν) : (m.push e).NoEmpty := by
  intro k
  rw [push,lookup_insert_of]
  split
  · simp
  · exact h k

theorem noEmpty_pushAll {m : Multimap κ ν} (h : m.NoEmpty) (es : List (κ × ν)) :
    (m.pushAll es).NoEmpty := by
  induction es generalizing m with
  | nil => exact h
  | cons e es ih => exact ih (noEmpty_push h e)

theorem filed_keepAt (m : Multimap κ ν) (p : ν → Bool) (ks : List κ) (k : κ) :
    (m.keepAt p ks).filed k = if k ∈ ks then (m.filed k).filter p else m.filed k := by
  induction ks generalizing m with
  | nil => simp [keepAt]
  | cons j ks ih =>
    have hm : filed (modify j (List.filter p) m) k =
        if k = j then (m.filed k).filter p else m.filed k := by
      unfold filed
      rw [lookup_modify]
      split
      · subst k; cases m.lookup j <;> simp
      · rfl
    have h := ih (modify j (List.filter p) m)
    simp only [keepAt,List.foldl_cons] at h ⊢
    rw [h,hm]
    by_cases hj : k = j <;> by_cases hk : k ∈ ks <;> simp [hj,hk,List.filter_filter]

@[simp] theorem filed_prune (m : Multimap κ ν) (k : κ) : m.prune.filed k = m.filed k := by
  unfold filed prune
  rw [lookup_retain]
  cases m.lookup k with
  | none => rfl
  | some vs => cases vs <;> simp [Option.filter]

theorem noEmpty_prune (m : Multimap κ ν) : m.prune.NoEmpty := by
  intro k h
  rw [prune,lookup_retain,Option.filter_eq_some_iff] at h
  simp at h

/-- Values are lost under `ks` unless all of them satisfy `p`. -/
theorem filed_keepAt_perm_iff (m : Multimap κ ν) (p : ν → Bool) (ks : List κ) :
    (∀ k, ((m.keepAt p ks).filed k).Perm (m.filed k)) ↔ ∀ k ∈ ks, ∀ v ∈ m.filed k, p v := by
  constructor
  · intro h k hk
    have hlen := (h k).length_eq
    rw [filed_keepAt,if_pos hk] at hlen
    exact List.length_filter_eq_length_iff.mp hlen
  · intro h k
    rw [filed_keepAt]
    split
    · rename_i hk
      rw [List.filter_eq_self.mpr (h k hk)]
    · exact List.Perm.refl _

end Multimap
end TerraformLs
