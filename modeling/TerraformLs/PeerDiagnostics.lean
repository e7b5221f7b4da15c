import Mathlib.Logic.Function.Basic
import TerraformLs.EditDelivery
import TerraformLs.Fingerprint
import TerraformLs.Indexer
import TerraformLs.Runs

/-! The handlers of `did_change` at work on the documents of one module. Each
publishes the diagnostics of its own document and, when what the document shows
to the others has changed, those of its open peers. Handlers overlap freely
between their steps. -/
namespace TerraformLs
namespace PeerDiagnostics

/-- The parts of the server that the handlers use. -/
structure Pipeline (D : Type) extends IndexerEnvironment, Fingerprinter where
  computeDiagnostics : StateStore → Url → D

/-- A notification of the client. The documents are synchronised in full, so a
change carries the whole text. -/
structure DidChange where
  uri : Url
  version : ℤ
  changes : List ContentChange
  full : ∀ change ∈ changes, change.range = none

/-- Where a handler stands. -/
inductive Phase (D : Type)
  | readOld
  | apply (old : Option ℕ)
  | readNew (old : Option ℕ) (applied : ℤ)
  | checkVersion (changed : Bool) (applied : ℤ)
  | computeOwn (changed : Bool)
  | publishOwn (changed : Bool) (diagnostics : D)
  | selectPeers
  | computePeers (peers : List Url) (results : List (Url × D))
  | publishPeers (results : List (Url × D))
  | finished

/-- The store, what was last published for each document, and the handlers. -/
structure Session (ι D : Type) where
  store : StateStore
  published : Url → Option D
  phase : ι → Phase D

section scope

variable (env : IndexerEnvironment)

def moduleScopeDir (uri : Url) : Option Path :=
  if isTftestUri uri then Server.moduleUnderTestDir env uri else env.fs.parentDir uri

def openPeersInScope (s : StateStore) (changedUri : Url) : List Url :=
  match moduleScopeDir env changedUri with
  | none => []
  | some scope => s.documents.keys.filter fun uri =>
    uri ≠ changedUri && s.isOpen uri && moduleScopeDir env uri = some scope

end scope

section steps

variable {ι D : Type} [DecidableEq ι] (P : Pipeline D) (request : ι → DidChange)

def fingerprintOf (s : StateStore) (uri : Url) : Option ℕ :=
  (s.documents.lookup uri).map (crossFileFingerprint P.toFingerprinter)

def crossFileChanged : Option ℕ → Option ℕ → Bool
  | some a, some b => a ≠ b
  | _, _ => true

/-- A newer edit has landed. -/
def superseded (s : StateStore) (uri : Url) (applied : ℤ) : Bool :=
  match s.documents.lookup uri with
  | some doc => doc.version ≠ applied
  | none => false

/-- After its own diagnostics a handler goes on to the peers or is done. -/
def afterOwn (changed : Bool) : Phase D := if changed then .selectPeers else .finished

/-- The edit of a request, and what the handler does next. -/
def applyEdit (s : StateStore) (r : DidChange) (old : Option ℕ) : StateStore × Phase D :=
  match s.applyAndReparseDocument P.analyzer r.uri r.version r.changes with
  | (s,.ok (some applied)) => (s,.readNew old applied)
  | (s,_) => (s,.finished)

def publish (published : Url → Option D) (uri : Url) (diagnostics : D) : Url → Option D :=
  Function.update published uri (some diagnostics)

/-- A handler takes its next step. -/
def step (s : Session ι D) (i : ι) : Session ι D :=
  let r := request i
  let goTo : Phase D → ι → Phase D := Function.update s.phase i
  match s.phase i with
  | .readOld => { s with phase := goTo (.apply (fingerprintOf P s.store r.uri)) }
  | .apply old =>
    let (store,next) := applyEdit P s.store r old
    { s with store := store, phase := goTo next }
  | .readNew old applied =>
    let changed := crossFileChanged old (fingerprintOf P s.store r.uri)
    { s with phase := goTo (.checkVersion changed applied) }
  | .checkVersion changed applied =>
    if superseded s.store r.uri applied then { s with phase := goTo (afterOwn changed) }
    else { s with phase := goTo (.computeOwn changed) }
  | .computeOwn changed =>
    { s with phase := goTo (.publishOwn changed (P.computeDiagnostics s.store r.uri)) }
  | .publishOwn changed diagnostics =>
    { s with
      published := publish s.published r.uri diagnostics
      phase := goTo (afterOwn changed) }
  | .selectPeers =>
    match openPeersInScope P.toIndexerEnvironment s.store r.uri with
    | [] => { s with phase := goTo .finished }
    | peers => { s with phase := goTo (.computePeers peers []) }
  | .computePeers [] results => { s with phase := goTo (.publishPeers results) }
  | .computePeers (uri::peers) results =>
    let diagnostics := P.computeDiagnostics s.store uri
    { s with phase := goTo (.computePeers peers (results ++ [(uri,diagnostics)])) }
  | .publishPeers [] => { s with phase := goTo .finished }
  | .publishPeers ((uri,diagnostics)::results) =>
    { s with
      published := publish s.published uri diagnostics
      phase := goTo (.publishPeers results) }
  | .finished => s

/-- The diagnostics of a document depend on the others through their fingerprints only. -/
def DependsThroughFingerprint : Prop :=
  ∀ (s s' : StateStore) (u : Url), s.documents.lookup u = s'.documents.lookup u →
    (∀ v ≠ u, fingerprintOf P s v = fingerprintOf P s' v) →
      P.computeDiagnostics s u = P.computeDiagnostics s' u

/-- The open documents of a module. -/
structure IsOpenIn (dir : Path) (s : StateStore) (u : Url) : Prop where
  stored : u ∈ s.documents
  isOpen : s.isOpen u
  scope : moduleScopeDir P.toIndexerEnvironment u = some dir

/-- What was last published for a document is what the store gives. -/
def Fresh (s : Session ι D) (u : Url) : Prop :=
  s.published u = some (P.computeDiagnostics s.store u)

/-- A handler has the diagnostics that the store gives for a document in hand,
or has still to compute them. -/
def Brings (s : StateStore) (r : DidChange) (u : Url) : Phase D → Prop
  | .readNew old applied => (r.uri = u ∧ superseded s u applied = false) ∨
    (r.uri ≠ u ∧ old ≠ fingerprintOf P s r.uri)
  | .checkVersion changed applied => (r.uri = u ∧ superseded s u applied = false) ∨
    (r.uri ≠ u ∧ changed)
  | .computeOwn changed => r.uri = u ∨ (r.uri ≠ u ∧ changed)
  | .publishOwn changed diagnostics => (r.uri = u ∧ diagnostics = P.computeDiagnostics s u) ∨
    (r.uri ≠ u ∧ changed)
  | .selectPeers => r.uri ≠ u
  | .computePeers peers results => u ∈ peers ∨ (u,P.computeDiagnostics s u) ∈ results
  | .publishPeers results => (u,P.computeDiagnostics s u) ∈ results
  | .readOld | .apply _ | .finished => False

def Pending (s : Session ι D) (u : Url) : Prop :=
  ∃ i, Brings P s.store (request i) u (s.phase i)

def Settled (s : Session ι D) (u : Url) : Prop := Fresh P s u ∨ Pending P request s u

/-- An edit that changes what the document shows to the others does not bring
back what its handler saw before, and outdated diagnostics are published only
while newer ones of the same document are still to come. -/
def Orderly (s : Session ι D) (i : ι) : Prop :=
  let r := request i
  let brings : Url → D → Prop := fun u diagnostics =>
    diagnostics = P.computeDiagnostics s.store u ∨ Pending P request (step P request s i) u
  match s.phase i with
  | .apply old =>
    let after := fingerprintOf P (applyEdit P s.store r old).1 r.uri
    after = fingerprintOf P s.store r.uri ∨ old ≠ after
  | .publishOwn _ diagnostics => brings r.uri diagnostics
  | .publishPeers ((u,diagnostics)::_) => brings u diagnostics
  | _ => True

end steps

section settling

variable {ι D : Type} [DecidableEq ι] {P : Pipeline D} {request : ι → DidChange} {dir : Path}
  {s s' : Session ι D} {i : ι}

/-- The two outcomes of an edit: nothing is changed and the handler is done, or
the document is at the version of the request. -/
theorem applyEdit_cases (P : Pipeline D) (s : StateStore) (r : DidChange) (old : Option ℕ) :
    ((applyEdit P s r old).2 = .finished ∧
        ∀ u, (applyEdit P s r old).1.documents.lookup u = s.documents.lookup u) ∨
      ((applyEdit P s r old).2 = .readNew old r.version ∧ r.uri ∈ s.documents ∧
        ∃ doc, (applyEdit P s r old).1.documents.lookup r.uri = some doc ∧
          doc.version = r.version) := by
  have hfits : ∀ rope, BatchFits rope r.changes := batchFits_fullText r.full
  unfold applyEdit
  rcases s.applyAndReparseDocument_cases P.analyzer r.uri r.version r.changes with
    ⟨-,he⟩ | ⟨doc,hd,⟨-,he⟩ | ⟨-,-,cache,he⟩ | ⟨-,c,-,-,hr,-⟩ | ⟨-,hb,-⟩⟩
  · rw [he]
    exact .inl ⟨rfl,fun u => rfl⟩
  · rw [he]
    refine .inl ⟨rfl,fun u => ?_⟩
    rw [StateStore.refiled_documents,KeyedMap.lookup_insert_of]
    split
    · rename_i h
      rw [h,hd]
    · rfl
  · rw [he]
    let applied := StateStore.appliedBatch P.analyzer doc r.version r.changes cache
    have hversion : applied.version = r.version := DocumentState.reparse_version P.analyzer _
    have hstored : r.uri ∈ s.documents := by
      rw [← AList.lookup_isSome,hd]
      rfl
    refine .inr ⟨rfl,hstored,applied,?_,hversion⟩
    rw [StateStore.refiled_documents,KeyedMap.lookup_insert_of,if_pos rfl]
  · exact absurd (hfits _) hr.not_batchFits
  · exact absurd (hfits _) hb

theorem applyEdit_frame (P : Pipeline D) (s : StateStore) (r : DidChange) (old : Option ℕ) :
    (applyEdit P s r old).1.openDocs = s.openDocs ∧
      ∀ u ≠ r.uri, (applyEdit P s r old).1.documents.lookup u = s.documents.lookup u := by
  have hframe := s.applyAndReparseDocument_frame P.analyzer r.uri r.version r.changes
  have hstore : (applyEdit P s r old).1 =
      (s.applyAndReparseDocument P.analyzer r.uri r.version r.changes).1 := by
    unfold applyEdit
    split <;> simp_all
  rw [hstore]
  exact ⟨hframe.1,hframe.2.2⟩

/-- The same documents are open in a module whose documents were only edited. -/
theorem isOpenIn_congr {t t' : StateStore} (hopen : t'.openDocs = t.openDocs)
    (hdocs : ∀ u, (t'.documents.lookup u).isSome = (t.documents.lookup u).isSome) (u : Url) :
    IsOpenIn P dir t' u ↔ IsOpenIn P dir t u := by
  have hmem : u ∈ t'.documents ↔ u ∈ t.documents := by
    rw [← AList.lookup_isSome,← AList.lookup_isSome,hdocs]
  have hisOpen : t'.isOpen u = t.isOpen u := by simp [StateStore.isOpen,hopen]
  constructor
  · exact fun h => ⟨hmem.mp h.stored,hisOpen ▸ h.isOpen,h.scope⟩
  · exact fun h => ⟨hmem.mpr h.stored,hisOpen ▸ h.isOpen,h.scope⟩

/-- A step that leaves the store alone keeps a document settled when it keeps it
fresh, or goes on bringing its diagnostics. -/
theorem settled_of_next (next : Phase D) (hstore : s'.store = s.store)
    (hphase : s'.phase = Function.update s.phase i next) {u : Url} (h : Settled P request s u)
    (hfresh : Fresh P s u → Settled P request s' u)
    (hbrings : Brings P s.store (request i) u (s.phase i) → Brings P s.store (request i) u next) :
    Settled P request s' u := by
  rcases h with h | ⟨j,hj⟩
  · exact hfresh h
  · refine .inr ⟨j,?_⟩
    rw [hstore,hphase]
    by_cases hji : j = i
    · subst hji
      rw [Function.update_self]
      exact hbrings hj
    · rwa [Function.update_of_ne hji]

theorem crossFileChanged_of_ne {old new : Option ℕ} (h : old ≠ new) :
    crossFileChanged old new = true := by
  cases old <;> cases new <;> simp_all [crossFileChanged]

theorem superseded_congr {t t' : StateStore} {u : Url}
    (h : t'.documents.lookup u = t.documents.lookup u) (applied : ℤ) :
    superseded t' u applied = superseded t u applied := by
  rw [superseded,superseded,h]

/-- What another handler brings survives an edit that does not concern it. -/
theorem brings_congr {t t' : StateStore} {u : Url}
    (hu : t'.documents.lookup u = t.documents.lookup u)
    (hf : ∀ v, fingerprintOf P t' v = fingerprintOf P t v)
    (hc : P.computeDiagnostics t' u = P.computeDiagnostics t u) (r : DidChange) (p : Phase D) :
    Brings P t' r u p ↔ Brings P t r u p := by
  cases p with
  | readOld | apply | computeOwn | selectPeers | finished => rfl
  | readNew old applied => simp only [Brings,superseded_congr hu,hf]
  | checkVersion changed applied => simp only [Brings,superseded_congr hu]
  | publishOwn changed diagnostics => simp only [Brings,hc]
  | computePeers peers results => simp only [Brings,hc]
  | publishPeers results => simp only [Brings,hc]

/-- An edit leaves every document settled: its own is brought by the handler, and
so are the others when they can tell the difference. -/
theorem settled_applyEdit (hdep : DependsThroughFingerprint P) {old : Option ℕ}
    (hp : s.phase i = .apply old) (hok : Orderly P request s i) {u : Url}
    (h : Settled P request s u) : Settled P request (step P request s i) u := by
  have hstep : step P request s i =
      { s with
        store := (applyEdit P s.store (request i) old).1
        phase := Function.update s.phase i (applyEdit P s.store (request i) old).2 } := by
    simp only [step,hp]
  have hnotice : fingerprintOf P (applyEdit P s.store (request i) old).1 (request i).uri =
      fingerprintOf P s.store (request i).uri ∨
        old ≠ fingerprintOf P (applyEdit P s.store (request i) old).1 (request i).uri := by
    simpa only [Orderly,hp] using hok
  obtain ⟨-,hothers⟩ := applyEdit_frame P s.store (request i) old
  rw [hstep]
  generalize happlied : applyEdit P s.store (request i) old = applied at hnotice hothers ⊢
  -- nothing that `u` depends on has changed
  have hsame : applied.1.documents.lookup u = s.store.documents.lookup u →
      (∀ v, fingerprintOf P applied.1 v = fingerprintOf P s.store v) →
      Settled P request { s with store := applied.1, phase := Function.update s.phase i applied.2 } u := by
    intro hu hf
    have hc : P.computeDiagnostics applied.1 u = P.computeDiagnostics s.store u :=
      hdep applied.1 s.store u hu fun v _ => hf v
    rcases h with h | ⟨j,hj⟩
    · exact .inl (h.trans (congrArg some hc.symm))
    · have hji : j ≠ i := by
        rintro rfl
        rw [hp] at hj
        exact hj
      refine .inr ⟨j,?_⟩
      show Brings P applied.1 (request j) u (Function.update s.phase i applied.2 j)
      rw [Function.update_of_ne hji]
      exact (brings_congr hu hf hc (request j) (s.phase j)).mpr hj
  rcases applyEdit_cases P s.store (request i) old with ⟨-,hdocs⟩ | ⟨hnext,-,doc,hdoc,hversion⟩
  · rw [happlied] at hdocs
    exact hsame (hdocs u) fun v => by rw [fingerprintOf,fingerprintOf,hdocs v]
  · rw [happlied] at hnext hdoc
    by_cases hu : u = (request i).uri
    · refine .inr ⟨i,?_⟩
      show Brings P applied.1 (request i) u (Function.update s.phase i applied.2 i)
      rw [Function.update_self,hnext]
      have hcurrent : superseded applied.1 u (request i).version = false := by
        rw [superseded,hu,hdoc]
        simp [hversion]
      exact .inl ⟨hu.symm,hcurrent⟩
    · rcases hnotice with hf | hne
      · apply hsame (hothers u hu)
        intro v
        by_cases hv : v = (request i).uri
        · rw [hv,hf]
        · rw [fingerprintOf,fingerprintOf,hothers v hv]
      · refine .inr ⟨i,?_⟩
        show Brings P applied.1 (request i) u (Function.update s.phase i applied.2 i)
        rw [Function.update_self,hnext]
        exact .inr ⟨fun h => hu h.symm,hne⟩

/-- The other handlers and what was published stay as they are. -/
theorem settled_of_phase (next : Phase D) (hstep : step P request s i =
      { s with phase := Function.update s.phase i next }) {u : Url}
    (h : Settled P request s u)
    (hbrings : Brings P s.store (request i) u (s.phase i) → Brings P s.store (request i) u next) :
    Settled P request (step P request s i) u := by
  refine settled_of_next next (by rw [hstep]) (by rw [hstep]) h (fun hfresh => ?_) hbrings
  left
  rw [Fresh,hstep]
  exact hfresh

/-- To publish diagnostics settles their document, when they are those of the
store or others are to come, and leaves the other documents as settled as they were. -/
theorem settled_of_publish (next : Phase D) {v : Url} {diagnostics : D}
    (hstep : step P request s i =
      { s with
        published := publish s.published v diagnostics
        phase := Function.update s.phase i next })
    (hok : diagnostics = P.computeDiagnostics s.store v ∨ Pending P request (step P request s i) v)
    {u : Url} (h : Settled P request s u)
    (hbrings : u ≠ v → Brings P s.store (request i) u (s.phase i) →
      Brings P s.store (request i) u next) : Settled P request (step P request s i) u := by
  have hstore : (step P request s i).store = s.store := by rw [hstep]
  have hpublished : (step P request s i).published = publish s.published v diagnostics := by
    rw [hstep]
  by_cases hu : u = v
  · subst hu
    rcases hok with hd | hpending
    · left
      rw [Fresh,hstore,hpublished,publish,Function.update_self,hd]
    · exact .inr hpending
  · refine settled_of_next next hstore (by rw [hstep]) h (fun hfresh => ?_) (hbrings hu)
    left
    rw [Fresh,hstore,hpublished,publish,Function.update_of_ne hu]
    exact hfresh

theorem mem_openPeersInScope {env : IndexerEnvironment} {t : StateStore} {changed u : Url} :
    u ∈ openPeersInScope env t changed ↔ u ∈ t.documents ∧ u ≠ changed ∧ t.isOpen u = true ∧
      ∃ scope, moduleScopeDir env changed = some scope ∧ moduleScopeDir env u = some scope := by
  unfold openPeersInScope
  cases moduleScopeDir env changed with
  | none => simp
  | some scope => simp [AList.mem_keys,and_assoc]

/-- Every step of a handler keeps an open document of the module settled. -/
theorem settled_step (hdep : DependsThroughFingerprint P)
    (hscope : moduleScopeDir P.toIndexerEnvironment (request i).uri = some dir)
    (hok : Orderly P request s i) {u : Url} (hu : IsOpenIn P dir s.store u)
    (h : Settled P request s u) : Settled P request (step P request s i) u := by
  cases hp : s.phase i with
  | readOld =>
    apply settled_of_phase (.apply (fingerprintOf P s.store (request i).uri))
    · simp only [step,hp]
    · exact h
    · rw [hp]
      exact False.elim
  | apply old => exact settled_applyEdit hdep hp hok h
  | readNew old applied =>
    let changed := crossFileChanged old (fingerprintOf P s.store (request i).uri)
    apply settled_of_phase (.checkVersion changed applied)
    · simp only [step,hp]
      rfl
    · exact h
    · rw [hp]
      rintro (hown | ⟨hne,hold⟩)
      · exact .inl hown
      · exact .inr ⟨hne,crossFileChanged_of_ne hold⟩
  | checkVersion changed applied =>
    by_cases hsup : superseded s.store (request i).uri applied
    · apply settled_of_phase (afterOwn changed)
      · simp only [step,hp,hsup,if_true]
      · exact h
      · rw [hp]
        rintro (⟨hown,hcurrent⟩ | ⟨hne,hchanged⟩)
        · rw [← hown,hsup] at hcurrent
          cases hcurrent
        · rw [afterOwn,if_pos hchanged]
          exact hne
    · apply settled_of_phase (.computeOwn changed)
      · simp only [step,hp,hsup]
        rfl
      · exact h
      · rw [hp]
        rintro (⟨hown,-⟩ | hother)
        · exact .inl hown
        · exact .inr hother
  | computeOwn changed =>
    apply settled_of_phase (.publishOwn changed (P.computeDiagnostics s.store (request i).uri))
    · simp only [step,hp]
    · exact h
    · rw [hp]
      rintro (hown | hother)
      · exact .inl ⟨hown,by rw [hown]⟩
      · exact .inr hother
  | publishOwn changed diagnostics =>
    have hown : diagnostics = P.computeDiagnostics s.store (request i).uri ∨
        Pending P request (step P request s i) (request i).uri := by
      simpa only [Orderly,hp] using hok
    apply settled_of_publish (afterOwn changed) ?_ hown h
    · rw [hp]
      rintro hne (⟨heq,-⟩ | ⟨-,hchanged⟩)
      · exact absurd heq.symm hne
      · rw [afterOwn,if_pos hchanged]
        exact fun heq => hne heq.symm
    · simp only [step,hp]
  | selectPeers =>
    have hpeer : (request i).uri ≠ u →
        u ∈ openPeersInScope P.toIndexerEnvironment s.store (request i).uri :=
      fun hne => mem_openPeersInScope.mpr
        ⟨hu.stored,Ne.symm hne,hu.isOpen,dir,hscope,hu.scope⟩
    cases hpeers : openPeersInScope P.toIndexerEnvironment s.store (request i).uri with
    | nil =>
      apply settled_of_phase .finished
      · simp only [step,hp,hpeers]
      · exact h
      · rw [hp]
        intro hne
        have hmem := hpeer hne
        rw [hpeers] at hmem
        cases hmem
    | cons v peers =>
      apply settled_of_phase (.computePeers (v :: peers) [])
      · simp only [step,hp,hpeers]
      · exact h
      · rw [hp]
        intro hne
        exact .inl (hpeers ▸ hpeer hne)
  | computePeers peers results =>
    cases peers with
    | nil =>
      apply settled_of_phase (.publishPeers results)
      · simp only [step,hp]
      · exact h
      · rw [hp]
        rintro (hmem | hmem)
        · cases hmem
        · exact hmem
    | cons v peers =>
      apply settled_of_phase
        (.computePeers peers (results ++ [(v,P.computeDiagnostics s.store v)]))
      · simp only [step,hp]
      · exact h
      · rw [hp]
        rintro (hmem | hmem)
        · rcases List.mem_cons.mp hmem with rfl | hmem
          · exact .inr (List.mem_append_right _ (List.mem_singleton_self _))
          · exact .inl hmem
        · exact .inr (List.mem_append_left _ hmem)
  | publishPeers results =>
    cases results with
    | nil =>
      apply settled_of_phase .finished
      · simp only [step,hp]
      · exact h
      · rw [hp]
        intro hmem
        cases hmem
    | cons result results =>
      obtain ⟨v,diagnostics⟩ := result
      have hv : diagnostics = P.computeDiagnostics s.store v ∨
          Pending P request (step P request s i) v := by simpa only [Orderly,hp] using hok
      apply settled_of_publish (.publishPeers results) ?_ hv h
      · rw [hp]
        intro hne hmem
        rcases List.mem_cons.mp hmem with heq | hmem
        · exact absurd (congrArg Prod.fst heq) hne
        · exact hmem
      · simp only [step,hp]
  | finished =>
    have hstep : step P request s i = s := by simp only [step,hp]
    rwa [hstep]

theorem step_store (P : Pipeline D) (request : ι → DidChange) (s : Session ι D) (i : ι) :
    (step P request s i).store = s.store ∨
      ∃ old, (step P request s i).store = (applyEdit P s.store (request i) old).1 := by
  unfold step
  split
  case h_2 => exact .inr ⟨_,rfl⟩
  all_goals
    left
    first
      | rfl
      | (dsimp only; split <;> rfl)

/-- The steps of the handlers open and close no document. -/
theorem isOpenIn_step (u : Url) :
    IsOpenIn P dir (step P request s i).store u ↔ IsOpenIn P dir s.store u := by
  rcases step_store P request s i with hstore | ⟨old,hstore⟩
  · rw [hstore]
  · rw [hstore]
    have hframe := applyEdit_frame P s.store (request i) old
    apply isOpenIn_congr hframe.1
    intro v
    by_cases hv : v = (request i).uri
    · rcases applyEdit_cases P s.store (request i) old with ⟨-,hdocs⟩ | ⟨-,hstored,doc,hdoc,-⟩
      · rw [hdocs]
      · rw [hv,hdoc,AList.lookup_isSome.mpr hstored]
        rfl
    · rw [hframe.2 v hv]

/-- All open documents of the module are settled. -/
def AllSettled (P : Pipeline D) (request : ι → DidChange) (dir : Path) (s : Session ι D) : Prop :=
  ∀ u, IsOpenIn P dir s.store u → Settled P request s u

/-- When every handler is done in an orderly run, what was last published for
every open document of the module is what the final store gives. -/
theorem fresh_at_quiescence (hdep : DependsThroughFingerprint P)
    (hscope : ∀ i, moduleScopeDir P.toIndexerEnvironment (request i).uri = some dir)
    (hstart : ∀ u, IsOpenIn P dir s.store u → Fresh P s u) {schedule : List ι}
    (horder : Guarded (step P request) (Orderly P request) s schedule)
    (hdone : ∀ i, (run (step P request) s schedule).phase i = .finished) :
    ∀ u, IsOpenIn P dir (run (step P request) s schedule).store u →
      Fresh P (run (step P request) s schedule) u := by
  have hkeep : ∀ s i, AllSettled P request dir s → Orderly P request s i →
      AllSettled P request dir (step P request s i) := by
    intro s i h hok u hu
    have hu' := (isOpenIn_step u).mp hu
    exact settled_step hdep (hscope i) hok hu' (h u hu')
  have hsettled : AllSettled P request dir (run (step P request) s schedule) :=
    (throughout_of_guarded hkeep (fun u hu => .inl (hstart u hu)) horder).final
  intro u hu
  rcases hsettled u hu with hfresh | ⟨i,hi⟩
  · exact hfresh
  · rw [hdone i] at hi
    exact hi.elim

end settling
section twoEdits

def consumerUri : Url := "file:///m/use.tf"

def oneModuleDisk : FileSystem where
  canonicalize := some
  readDir := fun _ => none
  readToString := fun _ => none
  metadata := fun _ => none
  isDir := fun _ => true
  isFile := fun _ => false
  toFilePath := fun uri => if uri = mainUri then some ["m","main.tf"]
    else if uri = consumerUri then some ["m","use.tf"] else none
  fromFilePath := fun _ => none

def countingFingerprinter : Fingerprinter := ⟨List.length,fun _ => []⟩

/-- What is reported for the consumer is the fingerprint of the main file. -/
def consumerPipeline : Pipeline (Option ℕ) where
  fs := oneModuleDisk
  discoverTfvarsAttributableTo := fun _ => none
  parseBody := fun _ => none
  parseManifest := fun _ => none
  parseValueShape := fun _ => .any
  parseValueShapeWithSchema := fun _ _ _ _ => .any
  analyzer := declarationAnalyzer
  contentHash := fun _ => 0
  setOrder := fun dirs => ⟨dirs,.rfl⟩
  toFingerprinter := countingFingerprinter
  computeDiagnostics := fun s u => if u = consumerUri then
    (s.documents.lookup mainUri).map (crossFileFingerprint countingFingerprinter) else none

theorem consumerPipeline_depends : DependsThroughFingerprint consumerPipeline := by
  intro s s' u _ hothers
  by_cases hu : u = consumerUri
  · have hmain : fingerprintOf consumerPipeline s mainUri =
        fingerprintOf consumerPipeline s' mainUri := hothers mainUri (by rw [hu]; decide)
    show (if u = consumerUri then fingerprintOf consumerPipeline s mainUri else none) =
      (if u = consumerUri then fingerprintOf consumerPipeline s' mainUri else none)
    rw [hmain]
  · simp [consumerPipeline,hu]

/-- One edit declares a variable, the next takes it back. -/
def declareThenRetract : Bool → DidChange
  | false => ⟨mainUri,2,[⟨none,"variable \"x\" {}"⟩],by simp⟩
  | true => ⟨mainUri,3,[⟨none,""⟩],by simp⟩

def bothOpen : StateStore where
  documents :=
    (AList.singleton consumerUri (DocumentState.new declarationAnalyzer consumerUri "" 1)).insert
      mainUri (DocumentState.new declarationAnalyzer mainUri "" 1)
  openDocs := {mainUri,consumerUri}

def beforeEdits {ι : Type} : Session ι (Option ℕ) where
  store := bothOpen
  published := fun u => some (consumerPipeline.computeDiagnostics bothOpen u)
  phase := fun _ => .readOld

theorem declareThenRetract_scope (i : Bool) :
    moduleScopeDir consumerPipeline.toIndexerEnvironment (declareThenRetract i).uri =
      some ["m"] := by
  cases i <;> decide

theorem consumer_isOpenIn {ι : Type} [DecidableEq ι] (request : ι → DidChange)
    (schedule : List ι) : IsOpenIn consumerPipeline ["m"]
      (run (step consumerPipeline request) beforeEdits schedule).store consumerUri := by
  have hstart : IsOpenIn consumerPipeline ["m"] bothOpen consumerUri :=
    ⟨by decide,by decide,by decide⟩
  have hopen : Throughout (step consumerPipeline request)
      (fun s => IsOpenIn consumerPipeline ["m"] s.store consumerUri) beforeEdits schedule := by
    apply throughout_of_step
    · exact fun i _ s h => (isOpenIn_step consumerUri).mpr h
    · exact hstart
  exact hopen.final

/-- A handler alone is orderly. -/
theorem declared_fresh : Fresh consumerPipeline
    (run (step consumerPipeline fun _ : Unit => declareThenRetract false) beforeEdits
      (List.replicate 11 ())) consumerUri := by
  apply fresh_at_quiescence consumerPipeline_depends
  · exact fun _ => declareThenRetract_scope false
  · exact fun u _ => rfl
  · refine And.intro trivial (And.intro (.inr (by decide)) ?_)
    refine And.intro trivial (And.intro trivial (And.intro trivial ?_))
    refine And.intro (.inl rfl) (And.intro trivial (And.intro trivial (And.intro trivial ?_)))
    exact And.intro (.inl rfl) (And.intro trivial trivial)
  · exact fun _ => rfl
  · exact consumer_isOpenIn _ _

/-- The first handler stops before it publishes for the consumer, until the
second one is done. -/
def overtaken : List Bool :=
  List.replicate 9 false ++ List.replicate 11 true ++ [false,false]

/-- The diagnostics that the first handler had in hand replace newer ones. -/
theorem overtaken_not_fresh : DependsThroughFingerprint consumerPipeline ∧
    (∀ u, IsOpenIn consumerPipeline ["m"] bothOpen u →
        Fresh consumerPipeline (beforeEdits (ι:=Bool)) u) ∧
      (∀ i, (run (step consumerPipeline declareThenRetract) beforeEdits overtaken).phase i =
        .finished) ∧
      IsOpenIn consumerPipeline ["m"]
        (run (step consumerPipeline declareThenRetract) beforeEdits overtaken).store consumerUri ∧
      ¬Fresh consumerPipeline
        (run (step consumerPipeline declareThenRetract) beforeEdits overtaken) consumerUri := by
  refine ⟨consumerPipeline_depends,fun u _ => rfl,?_,consumer_isOpenIn _ _,?_⟩
  · intro i
    cases i <;> rfl
  · intro h
    have hpublished : (run (step consumerPipeline declareThenRetract) beforeEdits
        overtaken).published consumerUri = some (some 1) := rfl
    have hstore : consumerPipeline.computeDiagnostics
        (run (step consumerPipeline declareThenRetract) beforeEdits overtaken).store
          consumerUri = some 0 := rfl
    rw [Fresh,hpublished,hstore] at h
    cases h

end twoEdits

end PeerDiagnostics
end TerraformLs
