import Mathlib.Data.Set.Function
import Mathlib.Logic.Function.Basic

/-! Fetching through a cache of files: a fresh file answers without a fetch, a
fetch is written to the file, and a failed fetch is answered from a stale file.
When no two keys share a file, every answer was fetched for its own key. -/
namespace TerraformLs
namespace CachedFetch

variable {Key File Data : Type}

/-- How a cached fetch may go, besides what the file holds. -/
structure FetchOutcome (α : Type) where
  /-- The file is young enough to be read without a fetch. -/
  fresh : Bool
  fetch : Except String α
  /-- The fetched data could be written to the file. -/
  written : Bool
  /-- The file could be read after a failed fetch. -/
  stale : Bool

/-- The files of the cache, and what has ever been fetched for each key. -/
structure Caches (Key File Data : Type) where
  disk : File → Option Data := fun _ => none
  fetched : List (Key × Data) := []

/-- How data of one type stands in a file. A file with other contents is not read. -/
structure Format (α Data : Type) where
  serialise : α → Data
  parse : Data → Option α
  parse_iff : ∀ a d, parse d = some a ↔ d = serialise a

section cachedFetch

variable [DecidableEq File] {α : Type} (file : Key → File) (format : Format α Data)

def readCache (s : Caches Key File Data) (allowed : Bool) (key : Key) : Option α :=
  if allowed then s.disk (file key) >>= format.parse else none

def writeCache (s : Caches Key File Data) (key : Key) (data : Data) : Caches Key File Data :=
  { s with disk := Function.update s.disk (file key) (some data) }

def cachedFetch (key : Key) (o : FetchOutcome α) (s : Caches Key File Data) :
    Except String α × Caches Key File Data :=
  match readCache file format s o.fresh key with
  | some cached => (.ok cached,s)
  | none =>
    match o.fetch with
    | .ok a =>
      let s := { s with fetched := (key,format.serialise a) :: s.fetched }
      (.ok a,if o.written then writeCache file s key (format.serialise a) else s)
    | .error e =>
      match readCache file format s o.stale key with
      | some stale => (.ok stale,s)
      | none => (.error e,s)

/-- The file of each key of `K` holds what was fetched for that key. -/
def Own (K : Set Key) (s : Caches Key File Data) : Prop :=
  ∀ key ∈ K, ∀ data, s.disk (file key) = some data → (key,data) ∈ s.fetched

variable {file} {format} {K : Set Key} {s : Caches Key File Data} {key : Key} {o : FetchOutcome α}

omit [DecidableEq File] in
theorem own_empty : Own file K ({} : Caches Key File Data) := by
  intro key _ data hdata
  cases hdata

omit [DecidableEq File] in
theorem readCache_own (hs : Own file K s) (hkey : key ∈ K) {allowed : Bool} {a : α}
    (h : readCache file format s allowed key = some a) :
    (key,format.serialise a) ∈ s.fetched := by
  rw [readCache] at h
  split_ifs at h
  obtain ⟨data,hdata,hparse⟩ := Option.bind_eq_some_iff.mp h
  rw [(format.parse_iff a data).mp hparse] at hdata
  exact hs key hkey _ hdata

theorem readCache_writeCache {key' : Key} (h : file key' = file key) (data : Data) :
    readCache file format (writeCache file s key data) true key' = format.parse data := by
  rw [readCache,if_pos rfl,h]
  show Function.update s.disk (file key) (some data) (file key) >>= format.parse = _
  rw [Function.update_self]
  rfl

/-- What is fetched stays fetched. -/
theorem fetched_subset : s.fetched ⊆ (cachedFetch file format key o s).2.fetched := by
  rw [cachedFetch]
  cases hfresh : readCache file format s o.fresh key with
  | some cached => exact List.Subset.refl _
  | none =>
    cases hfetch : o.fetch with
    | ok a =>
      simp only
      by_cases hwritten : o.written <;> simp [hwritten,writeCache]
    | error e =>
      simp only
      cases hstale : readCache file format s o.stale key <;> exact List.Subset.refl _

/-- Fetched data is added to the file of its key alone. -/
theorem own_fetched (hfile : Set.InjOn file K) (hs : Own file K s) (hkey : key ∈ K) (data : Data)
    (written : Bool) :
    Own file K (if written then writeCache file { s with fetched := (key,data) :: s.fetched } key data
      else { s with fetched := (key,data) :: s.fetched }) := by
  intro key' hkey' data' hdata
  cases written with
  | false => exact List.mem_cons_of_mem _ (hs key' hkey' data' hdata)
  | true =>
    show (key',data') ∈ (key,data) :: s.fetched
    have hupdate : Function.update s.disk (file key) (some data) (file key') = some data' := hdata
    by_cases hsame : file key' = file key
    · rw [hsame,Function.update_self] at hupdate
      cases hupdate
      rw [hfile hkey' hkey hsame]
      exact List.mem_cons_self
    · rw [Function.update_of_ne hsame] at hupdate
      exact List.mem_cons_of_mem _ (hs key' hkey' data' hupdate)

theorem own_cachedFetch (hfile : Set.InjOn file K) (hs : Own file K s) (hkey : key ∈ K) :
    Own file K (cachedFetch file format key o s).2 := by
  rw [cachedFetch]
  cases hfresh : readCache file format s o.fresh key with
  | some cached => exact hs
  | none =>
    cases hfetch : o.fetch with
    | ok a => exact own_fetched hfile hs hkey _ _
    | error e =>
      simp only
      cases hstale : readCache file format s o.stale key <;> exact hs

/-- An answer was fetched for the key that was asked. -/
theorem answer_own (hs : Own file K s) (hkey : key ∈ K) {a : α}
    (h : (cachedFetch file format key o s).1 = .ok a) :
    (key,format.serialise a) ∈ (cachedFetch file format key o s).2.fetched := by
  rw [cachedFetch] at h ⊢
  cases hfresh : readCache file format s o.fresh key with
  | some cached =>
    rw [hfresh] at h
    cases h
    exact readCache_own hs hkey hfresh
  | none =>
    rw [hfresh] at h
    cases hfetch : o.fetch with
    | ok a' =>
      rw [hfetch] at h
      cases h
      simp only
      by_cases hwritten : o.written <;> simp [hwritten,writeCache]
    | error e =>
      rw [hfetch] at h
      simp only at h ⊢
      cases hstale : readCache file format s o.stale key with
      | some stale =>
        rw [hstale] at h
        cases h
        exact readCache_own hs hkey hstale
      | none =>
        rw [hstale] at h
        cases h

end cachedFetch
end CachedFetch
end TerraformLs
