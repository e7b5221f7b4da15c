import TerraformLs.PathSpellings
import TerraformLs.Runs
import TerraformLs.Timelines

/-! The cache of parsed lock files, read and dropped by several threads at once
while `terraform init` rewrites the files. Each access to the disk or to one of
the two maps is a step of its own, and anything may happen between two steps of
one call. -/
namespace TerraformLs

open PathSpellings

/-- A lock file on the disk. The text is `none` where it cannot be read. -/
structure LockText where
  mtime : ℕ
  text : Option String

inductive LockPhase
  | stat
  | compareMtime (mtime : ℕ)
  /-- The guard on the entry of `locksMtime` is held. -/
  | fetch (mtime : ℕ)
  | read (mtime : ℕ)
  | insertLock (mtime : ℕ) (lock : LockFile)
  | insertMtime (mtime : ℕ) (lock : LockFile)
  | removeLock
  | removeMtime
  /-- The answer, and the moment it was given at. -/
  | returned (answer : Option LockFile) (time : ℕ)

namespace LockPhase

/-- The lock file has been parsed and is not yet filed whole. -/
def Filling : LockPhase → Prop
  | .insertLock _ _ | .insertMtime _ _ => True
  | _ => False

def isFetch : LockPhase → Bool
  | .fetch _ => true
  | _ => false

end LockPhase

/-- A call of `lockFileFor` or `invalidateLock` for a directory. -/
structure LockCall where
  isLookup : Bool
  key : Path
  /-- The moment the call began at. -/
  since : ℕ
  phase : LockPhase

/-- Both maps of the cache go by canonical directories. -/
structure LockCache where
  disk : Timeline Path (Option LockText)
  locks : KeyedMap Path LockFile := ∅
  locksMtime : KeyedMap Path ℕ := ∅
  calls : List LockCall := []

inductive LockStep
  | lockFileFor (moduleDir : Path)
  | invalidateLock (moduleDir : Path)
  | advance (i : ℕ)
  | write (dir : Path) (file : Option LockText)

namespace LockCache

variable (fs : FileSystem) (parse : String → LockFile)

def mtimeOf (file : Option LockText) : Option ℕ := file.map LockText.mtime

def readForModule (file : Option LockText) : Option LockFile := (file.bind LockText.text).map parse

def begin (c : LockCache) (isLookup : Bool) (moduleDir : Path) (phase : LockPhase) : LockCache :=
  { c with calls := c.calls ++
      [⟨isLookup,canonicalOrOwned fs moduleDir,c.disk.now,phase⟩] }

/-- Some call holds the guard on the entry of the directory, so none may change it. -/
def guarded (c : LockCache) (key : Path) : Bool :=
  c.calls.any fun call => call.key = key && call.phase.isFetch

/-- The next access of a call: what it leaves of the cache, and where the call goes on. -/
def access (c : LockCache) (call : LockCall) : LockCache × LockPhase :=
  match call.phase with
  | .stat =>
    match mtimeOf (c.disk.current call.key) with
    | none => (c,.removeLock)
    | some mtime => (c,.compareMtime mtime)
  | .compareMtime mtime =>
    if c.locksMtime.lookup call.key = some mtime then (c,.fetch mtime) else (c,.read mtime)
  | .fetch mtime =>
    match c.locks.lookup call.key with
    | some lock => (c,.returned (some lock) c.disk.now)
    | none => (c,.read mtime)
  | .read mtime =>
    match readForModule parse (c.disk.current call.key) with
    | none => (c,.returned none c.disk.now)
    | some lock => (c,.insertLock mtime lock)
  | .insertLock mtime lock =>
    ({ c with locks := c.locks.insert call.key lock },.insertMtime mtime lock)
  | .insertMtime mtime lock =>
    if c.guarded call.key then (c,call.phase)
    else ({ c with locksMtime := c.locksMtime.insert call.key mtime },
      .returned (some lock) c.disk.now)
  | .removeLock => ({ c with locks := c.locks.erase call.key },.removeMtime)
  | .removeMtime =>
    if c.guarded call.key then (c,call.phase)
    else ({ c with locksMtime := c.locksMtime.erase call.key },.returned none c.disk.now)
  | .returned _ _ => (c,call.phase)

def moveTo (c : LockCache) (i : ℕ) (call : LockCall) (phase : LockPhase) : LockCache :=
  { c with calls := c.calls.set i { call with phase := phase } }

/-- A step that names no call does nothing. -/
def step (c : LockCache) : LockStep → LockCache
  | .lockFileFor moduleDir => c.begin fs true moduleDir .stat
  | .invalidateLock moduleDir => c.begin fs false moduleDir .removeLock
  | .advance i =>
    match c.calls[i]? with
    | none => c
    | some call => (c.access parse call).1.moveTo i call (c.access parse call).2
  | .write dir file => { c with disk := c.disk.write dir file }

/-- Nothing is cached yet. -/
def start (files : Path → Option LockText) : LockCache := { disk := .start files }

/-- A file that is rewritten gets a time it has not had before, and a call reads
a lock file only when no other has read it and not yet filed it. -/
def Orderly (c : LockCache) : LockStep → Prop
  | .write dir file => c.disk.Unused mtimeOf dir file
  | .advance i => ∀ (call : LockCall) mtime, c.calls[i]? = some call → call.phase = .read mtime →
      ∀ other ∈ c.calls, other.key = call.key → ¬other.phase.Filling
  | _ => True

/-- The disk shows the lock at a moment from `first` on at which it shows the time, or later. -/
abbrev FiledUnder (c : LockCache) (key : Path) (first mtime : ℕ) (lock : LockFile) : Prop :=
  c.disk.ReadSince mtimeOf (readForModule parse) key first mtime (some lock)

/-- What holds of a call that has reached the phase. -/
def PhaseOk (c : LockCache) (call : LockCall) : LockPhase → Prop
  | .stat => True
  | .compareMtime mtime | .read mtime => c.disk.Stamped mtimeOf call.key call.since mtime
  | .fetch mtime => c.disk.Stamped mtimeOf call.key call.since mtime ∧
      c.locksMtime.lookup call.key = some mtime
  | .insertLock mtime lock => c.FiledUnder parse call.key call.since mtime lock ∧
      ∀ old, c.locksMtime.lookup call.key = some old → c.FiledUnder parse call.key 0 old lock
  | .insertMtime mtime lock => c.FiledUnder parse call.key call.since mtime lock ∧
      ∀ old, c.locks.lookup call.key = some old → c.FiledUnder parse call.key 0 mtime old
  | .removeLock | .removeMtime => call.isLookup →
      c.disk.Seen (readForModule parse) call.key call.since c.disk.now none
  | .returned answer time => time ≤ c.disk.now ∧ (call.isLookup →
      c.disk.Seen (readForModule parse) call.key call.since time answer)

/-- A lock that is filed under a time was read when the file had that time, or later. -/
structure Coherent (c : LockCache) : Prop where
  steady : c.disk.Steady mtimeOf
  stamped : ∀ key mtime, c.locksMtime.lookup key = some mtime → c.disk.Stamped mtimeOf key 0 mtime
  filed : ∀ key mtime lock, c.locksMtime.lookup key = some mtime → c.locks.lookup key = some lock →
    c.FiledUnder parse key 0 mtime lock
  began : ∀ call ∈ c.calls, call.since ≤ c.disk.now
  phases : ∀ call ∈ c.calls, c.PhaseOk parse call call.phase
  /-- Two calls for one directory are not filing at once. -/
  apart : ∀ (i j : ℕ) (a b : LockCall), c.calls[i]? = some a → c.calls[j]? = some b → i ≠ j →
    a.key = b.key → a.phase.Filling → ¬b.phase.Filling

variable {parse} {c : LockCache} {call : LockCall}

theorem coherent_start (files : Path → Option LockText) : (start files).Coherent parse where
  steady := Timeline.steady_start files
  stamped key mtime h := by simp [start] at h
  filed key mtime lock h := by simp [start] at h
  began call h := by simp [start] at h
  phases call h := by simp [start] at h
  apart i j a b h := by simp [start] at h

/-- What one access changes of the cache. -/
theorem access_cases (parse : String → LockFile) (c : LockCache) (call : LockCall) :
    (c.access parse call).1 = c ∨
    (∃ mtime lock, call.phase = .insertLock mtime lock ∧
      (c.access parse call).1 = { c with locks := c.locks.insert call.key lock }) ∨
    (∃ mtime lock, call.phase = .insertMtime mtime lock ∧ c.guarded call.key = false ∧
      (c.access parse call).1 = { c with locksMtime := c.locksMtime.insert call.key mtime }) ∨
    (call.phase = .removeLock ∧
      (c.access parse call).1 = { c with locks := c.locks.erase call.key }) ∨
    (call.phase = .removeMtime ∧ c.guarded call.key = false ∧
      (c.access parse call).1 = { c with locksMtime := c.locksMtime.erase call.key }) := by
  cases hphase : call.phase with
  | stat => exact .inl (by simp only [access,hphase]; split <;> rfl)
  | compareMtime mtime => exact .inl (by simp only [access,hphase]; split <;> rfl)
  | fetch mtime => exact .inl (by simp only [access,hphase]; split <;> rfl)
  | read mtime => exact .inl (by simp only [access,hphase]; split <;> rfl)
  | returned answer time => exact .inl (by simp only [access,hphase])
  | insertLock mtime lock => exact .inr (.inl ⟨mtime,lock,rfl,by simp only [access,hphase]⟩)
  | removeLock => exact .inr (.inr (.inr (.inl ⟨rfl,by simp only [access,hphase]⟩)))
  | insertMtime mtime lock =>
    cases hguard : c.guarded call.key with
    | true => exact .inl (by simp [access,hphase,hguard])
    | false =>
      exact .inr (.inr (.inl ⟨mtime,lock,rfl,rfl,by simp [access,hphase,hguard]⟩))
  | removeMtime =>
    cases hguard : c.guarded call.key with
    | true => exact .inl (by simp [access,hphase,hguard])
    | false =>
      exact .inr (.inr (.inr (.inr ⟨rfl,rfl,by simp [access,hphase,hguard]⟩)))

theorem access_disk : (c.access parse call).1.disk = c.disk := by
  rcases access_cases parse c call with h | ⟨_,_,-,h⟩ | ⟨_,_,-,-,h⟩ | ⟨-,h⟩ | ⟨-,-,h⟩ <;> rw [h]

theorem access_calls : (c.access parse call).1.calls = c.calls := by
  rcases access_cases parse c call with h | ⟨_,_,-,h⟩ | ⟨_,_,-,-,h⟩ | ⟨-,h⟩ | ⟨-,-,h⟩ <;> rw [h]

/-- A call keeps its ground as long as the entries it relies on stay: all of a
call that holds the guard, those still there of one that is filing. -/
theorem PhaseOk.frame {c' : LockCache} {phase : LockPhase} (h : c.PhaseOk parse call phase)
    (hdisk : c'.disk = c.disk)
    (hfetch : phase.isFetch = true → c'.locksMtime.lookup call.key = c.locksMtime.lookup call.key)
    (hmtime : phase.Filling → ∀ mtime, c'.locksMtime.lookup call.key = some mtime →
      c.locksMtime.lookup call.key = some mtime)
    (hlock : phase.Filling → ∀ lock, c'.locks.lookup call.key = some lock →
      c.locks.lookup call.key = some lock) : c'.PhaseOk parse call phase := by
  cases phase with
  | stat => trivial
  | compareMtime mtime => simpa only [PhaseOk,hdisk] using h
  | read mtime => simpa only [PhaseOk,hdisk] using h
  | removeLock => simpa only [PhaseOk,hdisk] using h
  | removeMtime => simpa only [PhaseOk,hdisk] using h
  | returned answer time => simpa only [PhaseOk,hdisk] using h
  | fetch mtime =>
    simp only [PhaseOk,hdisk] at h ⊢
    exact ⟨h.1,(hfetch rfl).trans h.2⟩
  | insertLock mtime lock =>
    simp only [PhaseOk,FiledUnder,hdisk] at h ⊢
    exact ⟨h.1,fun old ho => h.2 old (hmtime trivial old ho)⟩
  | insertMtime mtime lock =>
    simp only [PhaseOk,FiledUnder,hdisk] at h ⊢
    exact ⟨h.1,fun old ho => h.2 old (hlock trivial old ho)⟩

theorem not_isFetch_of_guarded (h : c.guarded call.key = false) {other : LockCall}
    (hother : other ∈ c.calls) (hkey : other.key = call.key) : other.phase.isFetch = false := by
  by_contra hfetch
  have htrue : c.guarded call.key = true := List.any_eq_true.mpr ⟨other,hother,by
    simpa [hkey] using hfetch⟩
  rw [h] at htrue
  cases htrue

/-- The access of one call does not take the ground from another. -/
theorem phaseOk_other {other : LockCall} (h : c.Coherent parse) (hother : other ∈ c.calls)
    (happart : other.key = call.key → call.phase.Filling → ¬other.phase.Filling) :
    (c.access parse call).1.PhaseOk parse other other.phase := by
  have hok := h.phases other hother
  refine hok.frame access_disk ?_ ?_ ?_
  · intro hfetch
    rcases access_cases parse c call with he | ⟨_,_,-,he⟩ | ⟨_,_,-,hg,he⟩ | ⟨-,he⟩ | ⟨-,hg,he⟩
    · rw [he]
    · rw [he]
    · have hne : other.key ≠ call.key := by
        intro hkey
        rw [not_isFetch_of_guarded hg hother hkey] at hfetch
        cases hfetch
      rw [he,KeyedMap.lookup_insert_of,if_neg hne]
    · rw [he]
    · have hne : other.key ≠ call.key := by
        intro hkey
        rw [not_isFetch_of_guarded hg hother hkey] at hfetch
        cases hfetch
      rw [he,KeyedMap.lookup_erase_of,if_neg hne]
  · intro hfill mtime hm
    rcases access_cases parse c call with he | ⟨_,_,-,he⟩ | ⟨_,_,hp,-,he⟩ | ⟨-,he⟩ | ⟨-,-,he⟩
    · rwa [he] at hm
    · rwa [he] at hm
    · have hne : other.key ≠ call.key := fun hkey => happart hkey (by rw [hp]; trivial) hfill
      rwa [he,KeyedMap.lookup_insert_of,if_neg hne] at hm
    · rwa [he] at hm
    · rw [he,KeyedMap.lookup_erase_of] at hm
      split_ifs at hm
      exact hm
  · intro hfill lock hl
    rcases access_cases parse c call with he | ⟨_,_,hp,he⟩ | ⟨_,_,-,-,he⟩ | ⟨-,he⟩ | ⟨-,-,he⟩
    · rwa [he] at hl
    · have hne : other.key ≠ call.key := fun hkey => happart hkey (by rw [hp]; trivial) hfill
      rwa [he,KeyedMap.lookup_insert_of,if_neg hne] at hl
    · rwa [he] at hl
    · rw [he,KeyedMap.lookup_erase_of] at hl
      split_ifs at hl
      exact hl
    · rwa [he] at hl

/-- Where an access takes a call, what holds of the phase it reaches. -/
theorem phaseOk_access (h : c.Coherent parse) (hcall : call ∈ c.calls) :
    (c.access parse call).1.PhaseOk parse call (c.access parse call).2 := by
  have hok := h.phases call hcall
  have hsince := h.began call hcall
  cases hphase : call.phase with
  | stat =>
    cases hm : mtimeOf (c.disk.current call.key) with
    | none =>
      simp only [access,hphase,hm,PhaseOk]
      refine fun _ => ⟨c.disk.now,hsince,le_rfl,?_⟩
      rw [mtimeOf,Option.map_eq_none_iff] at hm
      rw [show c.disk.holds c.disk.now call.key = none from hm]
      rfl
    | some mtime =>
      simp only [access,hphase,hm,PhaseOk]
      exact Timeline.stamped_current hm hsince
  | compareMtime mtime =>
    rw [hphase] at hok
    by_cases hm : c.locksMtime.lookup call.key = some mtime
    · simp only [access,hphase,hm,if_true,PhaseOk]
      exact ⟨hok,trivial⟩
    · simpa only [access,hphase,hm,if_false,PhaseOk] using hok
  | fetch mtime =>
    rw [hphase] at hok
    cases hl : c.locks.lookup call.key with
    | none => simpa only [access,hphase,hl,PhaseOk] using hok.1
    | some lock =>
      simp only [access,hphase,hl,PhaseOk]
      have hfiled := h.filed call.key mtime lock hok.2 hl
      exact ⟨le_rfl,fun _ => hfiled.seen_of_stamped h.steady hok.1⟩
  | read mtime =>
    rw [hphase] at hok
    cases hl : readForModule parse (c.disk.current call.key) with
    | none =>
      simp only [access,hphase,hl,PhaseOk]
      exact ⟨le_rfl,fun _ => ⟨c.disk.now,hsince,le_rfl,hl⟩⟩
    | some lock =>
      simp only [access,hphase,hl,PhaseOk]
      refine ⟨?_,fun old ho => ?_⟩
      · have hread := Timeline.Stamped.readSince (readForModule parse) hok
        rwa [hl] at hread
      · have hread := Timeline.Stamped.readSince (readForModule parse) (h.stamped call.key old ho)
        rwa [hl] at hread
  | insertLock mtime lock =>
    rw [hphase] at hok
    simp only [access,hphase,PhaseOk]
    refine ⟨hok.1,fun old ho => ?_⟩
    rw [AList.lookup_insert,Option.some.injEq] at ho
    subst old
    exact hok.1.weaken
  | insertMtime mtime lock =>
    rw [hphase] at hok
    cases hguard : c.guarded call.key with
    | true =>
      simp only [access,hphase,hguard,if_true]
      exact hok
    | false =>
      simp only [access,hphase,hguard,Bool.false_eq_true,if_false,PhaseOk]
      exact ⟨le_rfl,fun _ => hok.1.seen⟩
  | removeLock =>
    rw [hphase] at hok
    simpa only [access,hphase,PhaseOk] using hok
  | removeMtime =>
    rw [hphase] at hok
    cases hguard : c.guarded call.key with
    | true =>
      simp only [access,hphase,hguard,if_true]
      exact hok
    | false =>
      simp only [access,hphase,hguard,Bool.false_eq_true,if_false,PhaseOk]
      exact ⟨le_rfl,hok⟩
  | returned answer time =>
    rw [hphase] at hok
    simp only [access,hphase]
    exact hok

theorem stamped_access (h : c.Coherent parse) (hcall : call ∈ c.calls) {key : Path} {mtime : ℕ}
    (hm : (c.access parse call).1.locksMtime.lookup key = some mtime) :
    c.disk.Stamped mtimeOf key 0 mtime := by
  rcases access_cases parse c call with he | ⟨_,_,-,he⟩ | ⟨_,_,hp,-,he⟩ | ⟨-,he⟩ | ⟨-,-,he⟩
  · exact h.stamped key mtime (by rwa [he] at hm)
  · exact h.stamped key mtime (by rwa [he] at hm)
  · rw [he,KeyedMap.lookup_insert_of] at hm
    split_ifs at hm with hkey
    · have hok := h.phases call hcall
      rw [hp] at hok
      cases hm
      obtain ⟨m,n,-,hmn,hn,hstamp,-⟩ := hok.1
      exact hkey ▸ ⟨m,Nat.zero_le m,hmn.trans hn,hstamp⟩
    · exact h.stamped key mtime hm
  · exact h.stamped key mtime (by rwa [he] at hm)
  · rw [he,KeyedMap.lookup_erase_of] at hm
    split_ifs at hm
    exact h.stamped key mtime hm

theorem filed_access (h : c.Coherent parse) (hcall : call ∈ c.calls) {key : Path} {mtime : ℕ}
    {lock : LockFile} (hm : (c.access parse call).1.locksMtime.lookup key = some mtime)
    (hl : (c.access parse call).1.locks.lookup key = some lock) :
    c.FiledUnder parse key 0 mtime lock := by
  have hok := h.phases call hcall
  rcases access_cases parse c call with he | ⟨_,_,hp,he⟩ | ⟨_,_,hp,-,he⟩ | ⟨-,he⟩ | ⟨-,-,he⟩
  · rw [he] at hm hl
    exact h.filed key mtime lock hm hl
  · rw [he] at hm hl
    rw [KeyedMap.lookup_insert_of] at hl
    split_ifs at hl with hkey
    · -- the lock is put beside the time that an earlier call filed
      rw [hp] at hok
      cases hl
      subst key
      exact hok.2 mtime hm
    · exact h.filed key mtime lock hm hl
  · rw [he] at hm hl
    rw [KeyedMap.lookup_insert_of] at hm
    split_ifs at hm with hkey
    · -- the time is put beside the lock, which is still the one of this call
      rw [hp] at hok
      cases hm
      subst key
      exact hok.2 lock hl
    · exact h.filed key mtime lock hm hl
  · rw [he] at hm hl
    rw [KeyedMap.lookup_erase_of] at hl
    split_ifs at hl
    exact h.filed key mtime lock hm hl
  · rw [he] at hm hl
    rw [KeyedMap.lookup_erase_of] at hm
    split_ifs at hm
    exact h.filed key mtime lock hm hl

/-- A call that starts or goes on filing was filing before or has just read the file. -/
theorem filling_access (h : (c.access parse call).2.Filling) :
    call.phase.Filling ∨ ∃ mtime, call.phase = .read mtime := by
  cases hphase : call.phase with
  | stat =>
    cases hm : mtimeOf (c.disk.current call.key) <;>
      simp [access,hphase,hm,LockPhase.Filling] at h
  | compareMtime mtime =>
    by_cases hm : c.locksMtime.lookup call.key = some mtime <;>
      simp [access,hphase,hm,LockPhase.Filling] at h
  | fetch mtime =>
    cases hl : c.locks.lookup call.key <;> simp [access,hphase,hl,LockPhase.Filling] at h
  | read mtime => exact .inr ⟨mtime,rfl⟩
  | insertLock mtime lock => exact .inl trivial
  | insertMtime mtime lock => exact .inl trivial
  | removeLock => simp [access,hphase,LockPhase.Filling] at h
  | removeMtime =>
    cases hguard : c.guarded call.key <;> simp [access,hphase,hguard,LockPhase.Filling] at h
  | returned answer time => simp [access,hphase,LockPhase.Filling] at h

theorem coherent_begin (h : c.Coherent parse) (isLookup : Bool) (moduleDir : Path)
    {phase : LockPhase} (hphase : phase = .stat ∨ (phase = .removeLock ∧ isLookup = false)) :
    (c.begin fs isLookup moduleDir phase).Coherent parse := by
  set call : LockCall := ⟨isLookup,canonicalOrOwned fs moduleDir,c.disk.now,phase⟩ with hcall
  have hcalls : (c.begin fs isLookup moduleDir phase).calls = c.calls ++ [call] := rfl
  have hidle : ¬call.phase.Filling := by
    rcases hphase with rfl | ⟨rfl,-⟩ <;> exact id
  have hfind : ∀ (i : ℕ) (a : LockCall), (c.calls ++ [call])[i]? = some a → a.phase.Filling →
      c.calls[i]? = some a := by
    intro i a ha hfill
    rcases Nat.lt_or_ge i c.calls.length with hi | hi
    · rwa [List.getElem?_append_left hi] at ha
    · have hmem := List.mem_of_getElem? ha
      rw [List.getElem?_append_right hi] at ha
      obtain rfl := List.mem_singleton.mp (List.mem_of_getElem? ha)
      exact absurd hfill hidle
  refine ⟨h.steady,h.stamped,h.filed,?_,?_,?_⟩
  · intro a ha
    rcases List.mem_append.mp (hcalls ▸ ha) with ha | ha
    · exact h.began a ha
    · rw [List.mem_singleton.mp ha]
      exact le_rfl
  · intro a ha
    rcases List.mem_append.mp (hcalls ▸ ha) with ha | ha
    · exact h.phases a ha
    · rw [List.mem_singleton.mp ha]
      rcases hphase with rfl | ⟨rfl,rfl⟩
      · trivial
      · exact fun hlookup => by cases hlookup
  · intro i j a b ha hb hij hkey hfa hfb
    rw [hcalls] at ha hb
    exact h.apart i j a b (hfind i a ha hfa) (hfind j b hb hfb) hij hkey hfa hfb

theorem coherent_advance (h : c.Coherent parse) {i : ℕ} (hok : c.Orderly (.advance i))
    (hi : c.calls[i]? = some call) :
    ((c.access parse call).1.moveTo i call (c.access parse call).2).Coherent parse := by
  have hcall := List.mem_of_getElem? hi
  set c' := (c.access parse call).1 with hc'
  set phase := (c.access parse call).2 with hphase
  have hdisk : c'.disk = c.disk := access_disk
  have hcalls : c'.calls = c.calls := access_calls
  have hlen : i < c.calls.length := (List.getElem?_eq_some_iff.mp hi).1
  -- a call of the new list is the one that moved, or another of the old list
  have hfind : ∀ (j : ℕ) (a : LockCall), (c.calls.set i { call with phase := phase })[j]? = some a →
      (j = i ∧ a = { call with phase := phase }) ∨ (j ≠ i ∧ c.calls[j]? = some a) := by
    intro j a ha
    by_cases hj : j = i
    · subst j
      rw [List.getElem?_set_self hlen,Option.some.injEq] at ha
      exact .inl ⟨rfl,ha.symm⟩
    · rw [List.getElem?_set_ne (Ne.symm hj)] at ha
      exact .inr ⟨hj,ha⟩
  have happart : ∀ (j : ℕ) (b : LockCall), j ≠ i → c.calls[j]? = some b → b.key = call.key →
      phase.Filling → ¬b.phase.Filling := by
    intro j b hj hb hkey hfill
    rcases filling_access hfill with hfill | ⟨mtime,hread⟩
    · exact h.apart i j call b hi hb (Ne.symm hj) hkey.symm hfill
    · exact hok call mtime hi hread b (List.mem_of_getElem? hb) hkey
  refine ⟨hdisk ▸ h.steady,?_,?_,?_,?_,?_⟩
  · intro key mtime hm
    exact (congrArg (Timeline.Stamped mtimeOf · key 0 mtime) hdisk).mpr (stamped_access h hcall hm)
  · intro key mtime lock hm hl
    exact (congrArg (Timeline.ReadSince mtimeOf (readForModule parse) · key 0 mtime (some lock))
      hdisk).mpr (filed_access h hcall hm hl)
  · intro a ha
    obtain ⟨j,ha⟩ := List.mem_iff_getElem?.mp ha
    have hnow : (c'.moveTo i call phase).disk.now = c.disk.now := congrArg Timeline.now hdisk
    rw [hnow]
    rcases hfind j a (by rwa [moveTo,hcalls] at ha) with ⟨rfl,rfl⟩ | ⟨hj,ha⟩
    · exact h.began call hcall
    · exact h.began a (List.mem_of_getElem? ha)
  · intro a ha
    obtain ⟨j,ha⟩ := List.mem_iff_getElem?.mp ha
    rcases hfind j a (by rwa [moveTo,hcalls] at ha) with ⟨rfl,rfl⟩ | ⟨hj,ha⟩
    · exact phaseOk_access h hcall
    · refine phaseOk_other h (List.mem_of_getElem? ha) fun hkey hfill => ?_
      exact h.apart i j call a hi ha (Ne.symm hj) hkey.symm hfill
  · intro j k a b ha hb hjk hkey hfa hfb
    rw [moveTo,hcalls] at ha hb
    rcases hfind j a ha with ⟨rfl,rfl⟩ | ⟨hj,ha'⟩ <;>
      rcases hfind k b hb with ⟨rfl,rfl⟩ | ⟨hk,hb'⟩
    · exact hjk rfl
    · exact happart k b hk hb' hkey.symm hfa hfb
    · exact happart j a hj ha' hkey hfb hfa
    · exact h.apart j k a b ha' hb' hjk hkey hfa hfb

theorem coherent_write (h : c.Coherent parse) {dir : Path} {file : Option LockText}
    (hfile : c.disk.Unused mtimeOf dir file) :
    ({ c with disk := c.disk.write dir file } : LockCache).Coherent parse where
  steady := Timeline.steady_write h.steady hfile
  stamped key mtime hm := (h.stamped key mtime hm).write dir file
  filed key mtime lock hm hl := (h.filed key mtime lock hm hl).write dir file
  began call hcall := (h.began call hcall).trans (Nat.le_succ _)
  apart := h.apart
  phases call hcall := by
    have hok := h.phases call hcall
    cases hphase : call.phase with
    | stat => trivial
    | compareMtime mtime =>
      rw [hphase] at hok
      exact Timeline.Stamped.write hok dir file
    | read mtime =>
      rw [hphase] at hok
      exact Timeline.Stamped.write hok dir file
    | fetch mtime =>
      rw [hphase] at hok
      exact ⟨hok.1.write dir file,hok.2⟩
    | insertLock mtime lock =>
      rw [hphase] at hok
      exact ⟨hok.1.write dir file,fun old ho => (hok.2 old ho).write dir file⟩
    | insertMtime mtime lock =>
      rw [hphase] at hok
      exact ⟨hok.1.write dir file,fun old ho => (hok.2 old ho).write dir file⟩
    | removeLock =>
      rw [hphase] at hok
      exact fun hlookup => ((hok hlookup).write le_rfl dir file).mono (Nat.le_succ _)
    | removeMtime =>
      rw [hphase] at hok
      exact fun hlookup => ((hok hlookup).write le_rfl dir file).mono (Nat.le_succ _)
    | returned answer time =>
      rw [hphase] at hok
      exact ⟨hok.1.trans (Nat.le_succ _),fun hlookup => (hok.2 hlookup).write hok.1 dir file⟩

theorem coherent_step (st : LockStep) (h : c.Coherent parse) (hok : c.Orderly st) :
    (step fs parse c st).Coherent parse := by
  cases st with
  | lockFileFor moduleDir => exact coherent_begin fs h true moduleDir (.inl rfl)
  | invalidateLock moduleDir => exact coherent_begin fs h false moduleDir (.inr ⟨rfl,rfl⟩)
  | write dir file => exact coherent_write h hok
  | advance i =>
    simp only [step]
    cases hi : c.calls[i]? with
    | none => exact h
    | some call => exact coherent_advance h hok hi

/-- Whatever other calls, invalidations and rewrites of the files come between its
steps, a lookup answers with what the lock file held at some moment of the call. -/
theorem lockFileFor_answers (files : Path → Option LockText) {steps : List LockStep}
    (hsteps : Guarded (step fs parse) Orderly (start files) steps) :
    ∀ call ∈ (run (step fs parse) (start files) steps).calls, call.isLookup →
      ∀ answer time, call.phase = .returned answer time →
        (run (step fs parse) (start files) steps).disk.Seen (readForModule parse) call.key
          call.since time answer := by
  have hcoherent := (throughout_of_guarded (fun c st h hok => coherent_step fs st h hok)
    (coherent_start files) hsteps).final
  intro call hcall hlookup answer time hphase
  have hok := hcoherent.phases call hcall
  rw [hphase] at hok
  exact hok.2 hlookup

section runs

/-- Directories are where their paths say. -/
def linkless : FileSystem where
  canonicalize := some
  readDir _ := none
  readToString _ := none
  metadata _ := none
  isDir _ := false
  isFile _ := false
  toFilePath _ := none
  fromFilePath _ := none

def lockText (version : String) : String :=
  "provider \"hashicorp/aws\" \x7b\n  version = \"" ++ version ++ "\"\n\x7d\n"

/-- Reads the texts above. -/
def parseLock (text : String) : LockFile :=
  match ["5.0.0","5.1.0"].find? fun version => text = lockText version with
  | some version => (∅ : LockFile).insert (.hashicorp "aws") version
  | none => ∅

def lockedAt (mtime : ℕ) (version : String) (dir : Path) : Option LockText :=
  if dir = ["m"] then some ⟨mtime,some (lockText version)⟩ else none

end runs

/-- The file is rewritten between the first two steps of the lookup. -/
theorem lockFileFor_answers_rewritten : (run (step linkless parseLock) (start (lockedAt 1 "5.0.0"))
      [.lockFileFor ["m"],.advance 0,.write ["m"] (some ⟨2,some (lockText "5.1.0")⟩),
        .advance 0,.advance 0,.advance 0,.advance 0]).disk.Seen (readForModule parseLock) ["m"] 0 1
      (some ((∅ : LockFile).insert (.hashicorp "aws") "5.1.0")) := by
  refine lockFileFor_answers linkless (lockedAt 1 "5.0.0") ?_
    ⟨true,["m"],0,.returned (some ((∅ : LockFile).insert (.hashicorp "aws") "5.1.0")) 1⟩
    (List.mem_singleton.mpr rfl) rfl _ _ rfl
  have hstep : ∀ (c : LockCache) (i : ℕ) (call : LockCall), c.calls = [call] →
      ¬call.phase.Filling → c.Orderly (.advance i) := by
    intro c i call hcalls hidle _ _ _ _ other hother _
    rw [hcalls] at hother
    rwa [List.mem_singleton.mp hother]
  have hfiling : ∀ (c : LockCache) (call : LockCall), c.calls = [call] → call.phase.Filling →
      c.Orderly (.advance 0) := by
    intro c call hcalls hfill call' mtime hi hphase
    rw [hcalls] at hi
    cases hi
    rw [hphase] at hfill
    exact hfill.elim
  refine ⟨trivial,hstep _ _ _ rfl id,?_,hstep _ _ _ rfl id,hstep _ _ _ rfl id,
    hfiling _ _ rfl trivial,hfiling _ _ rfl trivial,trivial⟩
  intro mtime hm n hn h
  cases hm
  cases h

/-- No step of the kind touches the lock file of the directory or its entries. -/
def Quiet (key : Path) : LockStep → Prop
  | .write dir _ => dir ≠ key
  | .invalidateLock moduleDir => canonicalOrOwned fs moduleDir ≠ key
  | _ => True

/-- A lock is filed under the time of the file on the disk, and the calls from the
`n`-th on are bound to find it there. -/
structure Stuck (key : Path) (mtime : ℕ) (lock : LockFile) (n : ℕ) (c : LockCache) : Prop where
  disk : mtimeOf (c.disk.current key) = some mtime
  locks : c.locks.lookup key = some lock
  locksMtime : c.locksMtime.lookup key = some mtime
  calls : ∀ (i : ℕ) (call : LockCall), c.calls[i]? = some call → call.key = key →
    call.phase = .stat ∨ call.phase = .compareMtime mtime ∨ call.phase = .fetch mtime ∨
      ∃ answer time, call.phase = .returned answer time ∧ (n ≤ i → answer = some lock)

/-- Two lookups of a lock file that is rewritten between their readings. The
first files the old lock between the two entries of the second. -/
def overtaken (dir key : Path) (file : LockText) : List LockStep :=
  [.lockFileFor dir,.advance 0,.advance 0,.advance 0,.write key (some file),
    .lockFileFor dir,.advance 1,.advance 1,.advance 1,.advance 1,
    .advance 0,.advance 0,.advance 1]

variable {fs} {key : Path} {mtime : ℕ} {lock : LockFile} {n : ℕ}

theorem stuck_access (h : Stuck key mtime lock n c) {i : ℕ} (hi : c.calls[i]? = some call)
    (hkey : call.key = key) : (c.access parse call).1 = c ∧
      ((c.access parse call).2 = .stat ∨ (c.access parse call).2 = .compareMtime mtime ∨
        (c.access parse call).2 = .fetch mtime ∨ ∃ answer time,
          (c.access parse call).2 = .returned answer time ∧ (n ≤ i → answer = some lock)) := by
  have hdisk := h.disk
  have hlock := h.locks
  have hm := h.locksMtime
  subst key
  rcases h.calls i call hi rfl with hp | hp | hp | ⟨answer,time,hp,ha⟩
  · simp [access,hp,hdisk]
  · simp [access,hp,hm]
  · simp [access,hp,hlock]
  · have haccess : c.access parse call = (c,.returned answer time) := by rw [access,hp]
    rw [haccess]
    exact ⟨rfl,.inr (.inr (.inr ⟨answer,time,rfl,ha⟩))⟩

/-- A call for another directory leaves the entries of this one alone. -/
theorem lookup_access_ne (hkey : key ≠ call.key) :
    (c.access parse call).1.locks.lookup key = c.locks.lookup key ∧
      (c.access parse call).1.locksMtime.lookup key = c.locksMtime.lookup key := by
  rcases access_cases parse c call with h | ⟨_,_,-,h⟩ | ⟨_,_,-,-,h⟩ | ⟨-,h⟩ | ⟨-,-,h⟩ <;> rw [h]
  · exact ⟨rfl,rfl⟩
  · exact ⟨AList.lookup_insert_ne hkey,rfl⟩
  · exact ⟨rfl,AList.lookup_insert_ne hkey⟩
  · exact ⟨AList.lookup_erase_ne hkey,rfl⟩
  · exact ⟨rfl,AList.lookup_erase_ne hkey⟩

theorem stuck_begin (h : Stuck key mtime lock n c) {isLookup : Bool} {moduleDir : Path}
    {phase : LockPhase} (hphase : canonicalOrOwned fs moduleDir = key → phase = .stat) :
    Stuck key mtime lock n (c.begin fs isLookup moduleDir phase) := by
  refine ⟨h.disk,h.locks,h.locksMtime,fun i call hi hkey => ?_⟩
  rw [begin] at hi
  rcases Nat.lt_or_ge i c.calls.length with hlt | hge
  · rw [List.getElem?_append_left hlt] at hi
    exact h.calls i call hi hkey
  · rw [List.getElem?_append_right hge] at hi
    obtain rfl := List.mem_singleton.mp (List.mem_of_getElem? hi)
    exact .inl (hphase hkey)

theorem stuck_step {st : LockStep} (hst : Quiet fs key st) (h : Stuck key mtime lock n c) :
    Stuck key mtime lock n (step fs parse c st) := by
  cases st with
  | lockFileFor moduleDir => exact stuck_begin h fun _ => rfl
  | invalidateLock moduleDir => exact stuck_begin h fun hkey => absurd hkey hst
  | write dir file =>
    refine ⟨?_,h.locks,h.locksMtime,h.calls⟩
    rw [step,Timeline.write_current_ne _ (Ne.symm hst)]
    exact h.disk
  | advance i =>
    simp only [step]
    cases hi : c.calls[i]? with
    | none => exact h
    | some call =>
      have hlen : i < c.calls.length := (List.getElem?_eq_some_iff.mp hi).1
      have hdisk : (c.access parse call).1.disk = c.disk := access_disk
      have hentries : (c.access parse call).1.locks.lookup key = c.locks.lookup key ∧
          (c.access parse call).1.locksMtime.lookup key = c.locksMtime.lookup key := by
        by_cases hkey : call.key = key
        · have haccess : (c.access parse call).1 = c := (stuck_access h hi hkey).1
          rw [haccess]
          exact ⟨rfl,rfl⟩
        · exact lookup_access_ne (Ne.symm hkey)
      refine ⟨?_,hentries.1.trans h.locks,hentries.2.trans h.locksMtime,fun j a ha hkey => ?_⟩
      · exact (congrArg (fun d => mtimeOf (Timeline.current d key)) hdisk).trans h.disk
      simp only [moveTo,access_calls] at ha
      by_cases hj : i = j
      · subst j
        rw [List.getElem?_set_self hlen,Option.some.injEq] at ha
        subst a
        exact (stuck_access h hi hkey).2
      · rw [List.getElem?_set_ne hj] at ha
        exact h.calls j a ha hkey

theorem step_advance {i : ℕ} {c' : LockCache} {phase : LockPhase} (hi : c.calls[i]? = some call)
    (haccess : c.access parse call = (c',phase)) :
    step fs parse c (.advance i) = c'.moveTo i call phase := by
  simp only [step,hi,haccess]

/-- The cache with one more call, at the given phase. -/
def withLast (c : LockCache) (calls : List LockCall) (key : Path) (since : ℕ) (phase : LockPhase) :
    LockCache := { c with calls := calls ++ [⟨true,key,since,phase⟩] }

/-- The last of the calls goes on without a change of the cache. -/
theorem step_last {calls : List LockCall} {phase phase' : LockPhase} {since : ℕ}
    (haccess : (c.withLast calls key since phase).access parse ⟨true,key,since,phase⟩ =
      (c.withLast calls key since phase,phase')) :
    step fs parse (c.withLast calls key since phase) (.advance calls.length) =
      c.withLast calls key since phase' := by
  have hlast : (c.withLast calls key since phase).calls[calls.length]? =
      some ⟨true,key,since,phase⟩ := by simp [withLast]
  rw [step_advance hlast haccess]
  simp [moveTo,withLast]

/-- A lookup that finds no time filed reads the file. -/
theorem run_read (calls : List LockCall) (since : ℕ) {text : String}
    (hfile : c.disk.current key = some ⟨mtime,some text⟩)
    (hm : c.locksMtime.lookup key = none) :
    run (step fs parse) (c.withLast calls key since .stat)
        (List.replicate 3 (.advance calls.length)) =
      c.withLast calls key since (.insertLock mtime (parse text)) := by
  have h1 : step fs parse (c.withLast calls key since .stat) (.advance calls.length) =
      c.withLast calls key since (.compareMtime mtime) :=
    step_last (by simp [access,withLast,hfile,mtimeOf])
  have h2 : step fs parse (c.withLast calls key since (.compareMtime mtime))
      (.advance calls.length) = c.withLast calls key since (.read mtime) :=
    step_last (by simp [access,withLast,hm])
  have h3 : step fs parse (c.withLast calls key since (.read mtime)) (.advance calls.length) =
      c.withLast calls key since (.insertLock mtime (parse text)) :=
    step_last (by simp [access,withLast,hfile,readForModule])
  simp only [List.replicate,run_cons,run_nil,h1,h2,h3]

/-- The two lookups have answered, the first with the old lock and the second with
the new one. The old lock is filed under the new time. -/
theorem run_overtaken {files : Path → Option LockText} {dir : Path} {old new : String}
    {t₁ t₂ : ℕ} (hkey : key = canonicalOrOwned fs dir) (hfile : files key = some ⟨t₁,some old⟩) :
    run (step fs parse) (start files) (overtaken dir key ⟨t₂,some new⟩) =
      { disk := (Timeline.start files).write key (some ⟨t₂,some new⟩)
        locks := ((∅ : KeyedMap Path LockFile).insert key (parse new)).insert key (parse old)
        locksMtime := ((∅ : KeyedMap Path ℕ).insert key t₁).insert key t₂
        calls := [⟨true,key,0,.returned (some (parse old)) 1⟩,
          ⟨true,key,1,.returned (some (parse new)) 1⟩] } := by
  subst key
  set key := canonicalOrOwned fs dir
  let c₁ : LockCache := { start files with calls := [⟨true,key,0,.insertLock t₁ (parse old)⟩] }
  let disk := (Timeline.start files).write key (some ⟨t₂,some new⟩)
  let c₂ : LockCache := ⟨disk,∅,∅,[⟨true,key,0,.insertLock t₁ (parse old)⟩,
    ⟨true,key,1,.insertLock t₂ (parse new)⟩]⟩
  have h₁ : run (step fs parse) (start files)
      (.lockFileFor dir :: List.replicate 3 (.advance 0)) = c₁ :=
    run_read (c:=start files) [] 0 hfile rfl
  have h₂ : run (step fs parse) c₁ (.write key (some ⟨t₂,some new⟩) :: .lockFileFor dir ::
      List.replicate 3 (.advance 1)) = c₂ :=
    run_read (c:=⟨disk,∅,∅,[]⟩) [⟨true,key,0,.insertLock t₁ (parse old)⟩] 1
      (Timeline.write_current_self _ _ _) rfl
  have h₃ : run (step fs parse) c₂ [.advance 1,.advance 0,.advance 0,.advance 1] =
      ⟨disk,((∅ : KeyedMap Path LockFile).insert key (parse new)).insert key (parse old),
        ((∅ : KeyedMap Path ℕ).insert key t₁).insert key t₂,
        [⟨true,key,0,.returned (some (parse old)) 1⟩,
          ⟨true,key,1,.returned (some (parse new)) 1⟩]⟩ := by
    simp [c₂,disk,run,step,access,moveTo,guarded,LockPhase.isFetch,Timeline.start]
  rw [← h₃,← h₂,← h₁,← run_append,← run_append]
  rfl

/-- From then on every lookup of the directory answers with the old lock, whatever
else goes on, until the file is written again or its entry is dropped. -/
theorem lockFileFor_stays_old {files : Path → Option LockText} {dir : Path} {old new : String}
    {t₁ t₂ : ℕ} (hkey : key = canonicalOrOwned fs dir) (hfile : files key = some ⟨t₁,some old⟩)
    {later : List LockStep} (hlater : ∀ st ∈ later, Quiet fs key st) :
    ∀ (i : ℕ) (call : LockCall), (run (step fs parse) (start files)
        (overtaken dir key ⟨t₂,some new⟩ ++ later)).calls[i]? = some call → 2 ≤ i → call.key = key →
      ∀ answer time, call.phase = .returned answer time → answer = some (parse old) := by
  have hstuck : Stuck key t₂ (parse old) 2 (run (step fs parse) (start files)
      (overtaken dir key ⟨t₂,some new⟩)) := by
    rw [run_overtaken hkey hfile]
    refine ⟨by simp [mtimeOf],AList.lookup_insert _,AList.lookup_insert _,fun i call hi _ => ?_⟩
    match i with
    | 0 =>
      cases hi
      exact .inr (.inr (.inr ⟨_,_,rfl,fun h => absurd h (by decide)⟩))
    | 1 =>
      cases hi
      exact .inr (.inr (.inr ⟨_,_,rfl,fun h => absurd h (by decide)⟩))
    | i+2 => cases hi
  have hall : Throughout (step fs parse) (Stuck key t₂ (parse old) 2) _ later :=
    throughout_of_step (fun st hst c h => stuck_step (hlater st hst) h) hstuck
  intro i call hi h2 hc answer time hphase
  rw [run_append] at hi
  rcases hall.final.calls i call hi hc with hp | hp | hp | ⟨answer',time',hp,ha⟩ <;> rw [hp] at hphase
  · cases hphase
  · cases hphase
  · cases hphase
  · cases hphase
    exact ha h2

/-- The lookup after the two finds the version from before the rewrite. -/
theorem lockFileFor_stays_old_upgraded : ∃ call time,
    (run (step linkless parseLock) (start (lockedAt 1 "5.0.0"))
      (overtaken ["m"] ["m"] ⟨2,some (lockText "5.1.0")⟩ ++
        [.lockFileFor ["m"],.advance 2,.advance 2,.advance 2])).calls[2]? = some call ∧
      call.phase = .returned (some (parseLock (lockText "5.0.0"))) time := by
  have hquiet : ∀ st ∈ [.lockFileFor ["m"],.advance 2,.advance 2,.advance 2],
      Quiet linkless ["m"] st := by
    intro st hst
    simp only [List.mem_cons,List.not_mem_nil,or_false] at hst
    rcases hst with rfl | rfl | rfl | rfl <;> trivial
  have hlocked : lockedAt 1 "5.0.0" ["m"] = some ⟨1,some (lockText "5.0.0")⟩ := rfl
  have hkey : ["m"] = canonicalOrOwned linkless ["m"] := rfl
  have hcall : ∃ call answer time, (run (step linkless parseLock) (start (lockedAt 1 "5.0.0"))
      (overtaken ["m"] ["m"] ⟨2,some (lockText "5.1.0")⟩ ++
        [.lockFileFor ["m"],.advance 2,.advance 2,.advance 2])).calls[2]? = some call ∧
      call.key = ["m"] ∧ call.phase = .returned answer time := by
    rw [run_append,run_overtaken hkey hlocked]
    exact ⟨_,_,_,rfl,rfl,rfl⟩
  obtain ⟨call,answer,time,hi,hc,hphase⟩ := hcall
  have hanswer := lockFileFor_stays_old hkey hlocked hquiet 2 call hi le_rfl hc answer time hphase
  exact ⟨call,time,hi,hanswer ▸ hphase⟩

end LockCache
end TerraformLs
