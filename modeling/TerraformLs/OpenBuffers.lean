import TerraformLs.EditDelivery

/-! Editor handlers and disk reads side by side. A disk read checks that the
file is not open and inserts it in two steps, and anything may happen between
them. The state records what the editor has sent, to say whose text a document
carries. -/
namespace TerraformLs

/-- The store, with the handlers and disk reads that are half done. -/
structure Session where
  store : StateStore := {}
  /-- Buffers marked open whose insert is still to come. -/
  opening : List Opening := []
  /-- Disk reads that have passed their check and whose insert is still to come. -/
  checked : List DocumentState := []
  /-- Buffers whose insert is done and which have not been closed. -/
  live : Finset Url := ∅
  /-- The texts the editor has given each document. -/
  sent : List (Url × String) := []

inductive SessionStep
  | markOpen (o : Opening)
  | openUpsert (i : ℕ)
  | didChange (uri : Url) (version : ℤ) (changes : List ContentChange)
  | check (doc : DocumentState)
  | insert (i : ℕ)
  | markClosed (uri : Url)
  | removeDocument (uri : Url)

namespace Session

variable (A : Analyzer)

/-- An edit that is not dropped as stale makes the text the editor's. -/
def recordChange (s : Session) (uri : Url) (version : ℤ) (after : StateStore) :
    List (Url × String) :=
  match s.store.documents.lookup uri,after.documents.lookup uri with
  | some doc,some doc' => if doc.version < version then (uri,doc'.text) :: s.sent else s.sent
  | _,_ => s.sent

/-- A step that names no pending work does nothing. -/
def step (s : Session) : SessionStep → Session
  | .markOpen o => { s with store := s.store.markOpen o.uri, opening := o :: s.opening }
  | .openUpsert i =>
    match s.opening[i]? with
    | none => s
    | some o =>
      { s with store := s.store.upsertDocument (.new A o.uri o.text o.version)
               opening := s.opening.eraseIdx i
               live := insert o.uri s.live
               sent := (o.uri,o.text) :: s.sent }
  | .didChange uri version changes =>
    let after := (s.store.applyAndReparseDocument A uri version changes).1
    { s with store := after, sent := s.recordChange uri version after }
  | .check doc => if s.store.isOpen doc.uri then s else { s with checked := doc :: s.checked }
  | .insert i =>
    match s.checked[i]? with
    | none => s
    | some doc => { s with store := s.store.upsertDocument doc, checked := s.checked.eraseIdx i }
  | .markClosed uri => { s with store := s.store.markClosed uri, live := s.live.erase uri }
  | .removeDocument uri => { s with store := (s.store.removeDocument uri).1 }

/-- The two steps of a disk read, one right after the other, are the guarded insert. -/
theorem check_insert (s : Session) (doc : DocumentState) :
    (step A (step A s (.check doc)) (.insert 0)).store =
      if s.store.isOpen doc.uri then (step A s (.insert 0)).store
      else (s.store.upsertDocumentUnlessOpen doc).1 := by
  by_cases h : s.store.isOpen doc.uri
  · simp [step,h]
  · simp [step,h,StateStore.upsertDocumentUnlessOpen]

/-- A live buffer carries a text the editor has given it. -/
def EditorText (s : Session) : Prop :=
  ∀ uri ∈ s.live, ∀ doc, s.store.documents.lookup uri = some doc → (uri,doc.text) ∈ s.sent

/-- The insert that opens a buffer runs while the buffer is still marked open,
and no disk read of it stands between its check and its insert. -/
def ClearToOpen (s : Session) : SessionStep → Prop
  | .openUpsert i => ∀ o, s.opening[i]? = some o →
      o.uri ∈ s.store.openDocs ∧ ∀ doc ∈ s.checked, doc.uri ≠ o.uri
  | _ => True

/-- What keeps disk reads away from the live buffers. -/
structure Protected (s : Session) : Prop where
  marked : ∀ uri ∈ s.live, uri ∈ s.store.openDocs
  unchecked : ∀ uri ∈ s.live, ∀ doc ∈ s.checked, doc.uri ≠ uri
  editorText : s.EditorText

variable {A}

/-- Steps that leave the live documents alone and add to what was sent. -/
theorem Protected.of_frame {s s' : Session} (h : s.Protected) (hlive : s'.live ⊆ s.live)
    (hopen : ∀ uri ∈ s'.live, uri ∈ s.store.openDocs → uri ∈ s'.store.openDocs)
    (hchecked : ∀ uri ∈ s'.live, ∀ doc ∈ s'.checked, doc ∈ s.checked ∨ doc.uri ≠ uri)
    (hdocs : ∀ uri ∈ s'.live, ∀ doc, s'.store.documents.lookup uri = some doc →
      s.store.documents.lookup uri = some doc ∨ (uri,doc.text) ∈ s'.sent)
    (hsent : s.sent ⊆ s'.sent) : s'.Protected where
  marked uri hu := hopen uri hu (h.marked uri (hlive hu))
  unchecked uri hu doc hd := by
    rcases hchecked uri hu doc hd with hd' | hd'
    · exact h.unchecked uri (hlive hu) doc hd'
    · exact hd'
  editorText uri hu doc hd := by
    rcases hdocs uri hu doc hd with hd' | hd'
    · exact hsent (h.editorText uri (hlive hu) doc hd')
    · exact hd'

/-- An edit leaves the stored document as it is, or its text is recorded. -/
theorem recordChange_spec (s : Session) (uri : Url) (version : ℤ) (changes : List ContentChange)
    {doc : DocumentState}
    (hd : (s.store.applyAndReparseDocument A uri version changes).1.documents.lookup uri =
      some doc) :
    s.store.documents.lookup uri = some doc ∨ (uri,doc.text) ∈ s.recordChange uri version
      (s.store.applyAndReparseDocument A uri version changes).1 := by
  rcases s.store.applyAndReparseDocument_cases A uri version changes with
    ⟨-,he⟩ | ⟨old,hold,⟨-,he⟩ | ⟨hv,-⟩ | ⟨hv,-⟩ | ⟨hv,-⟩⟩
  · rw [he] at hd
    exact .inl hd
  · rw [he,StateStore.refiled_documents,AList.lookup_insert] at hd
    exact .inl (hold.trans hd)
  all_goals
    right
    simp [recordChange,hold,hd,hv]

theorem recordChange_subset (s : Session) (uri : Url) (version : ℤ) (after : StateStore) :
    s.sent ⊆ s.recordChange uri version after := by
  unfold recordChange
  split
  · split
    · exact List.subset_cons_self _ _
    · exact List.Subset.refl _
  · exact List.Subset.refl _

theorem protected_step {s : Session} {st : SessionStep} (h : s.Protected) (hok : s.ClearToOpen st) :
    (step A s st).Protected := by
  cases st with
  | markOpen o =>
    refine h.of_frame (Finset.Subset.refl _) ?_ (fun _ _ _ hd => .inl hd) (fun _ _ _ hd => .inl hd)
      (List.Subset.refl _)
    exact fun uri _ hu => Finset.mem_insert_of_mem hu
  | openUpsert i =>
    cases ho : s.opening[i]? with
    | none => simpa [step,ho] using h
    | some o =>
      obtain ⟨hopen,hclear⟩ := hok o ho
      simp only [step,ho]
      constructor
      · intro uri hu
        rcases Finset.mem_insert.mp hu with rfl | hu
        · simpa using hopen
        · simpa using h.marked uri hu
      · intro uri hu doc hd
        rcases Finset.mem_insert.mp hu with rfl | hu
        · exact hclear doc hd
        · exact h.unchecked uri hu doc hd
      · intro uri hu doc hd
        simp only [StateStore.upsertDocument_documents,KeyedMap.lookup_insert_of] at hd
        split at hd
        · rename_i huri
          cases hd
          simp [huri,DocumentState.new,DocumentState.text]
        · rename_i huri
          rcases Finset.mem_insert.mp hu with rfl | hu
          · exact absurd rfl huri
          · exact List.mem_cons_of_mem _ (h.editorText uri hu doc hd)
  | didChange uri version changes =>
    obtain ⟨hopen,-,hother⟩ := s.store.applyAndReparseDocument_frame A uri version changes
    refine h.of_frame (Finset.Subset.refl _) ?_ (fun _ _ _ hd => .inl hd) ?_
      (recordChange_subset s uri version _)
    · intro u _ hu
      simpa only [step,hopen] using hu
    · intro u _ doc hd
      simp only [step] at hd ⊢
      by_cases hu : u = uri
      · subst hu
        exact recordChange_spec s u version changes hd
      · exact .inl (by rwa [← hother u hu])
  | check doc =>
    by_cases ho : s.store.isOpen doc.uri
    · simpa [step,ho] using h
    · simp only [step,ho]
      refine h.of_frame (Finset.Subset.refl _) (fun _ _ hu => hu) ?_ (fun _ _ _ hd => .inl hd)
        (List.Subset.refl _)
      intro uri hu d hd
      rcases List.mem_cons.mp hd with rfl | hd
      · right
        rintro rfl
        exact ho (by simpa [StateStore.isOpen] using h.marked _ hu)
      · exact .inl hd
  | insert i =>
    cases hi : s.checked[i]? with
    | none => simpa [step,hi] using h
    | some d =>
      have hd : d ∈ s.checked := List.mem_of_getElem? hi
      simp only [step,hi]
      refine h.of_frame (Finset.Subset.refl _) (fun _ _ hu => by simpa using hu)
        (fun _ _ _ hd => .inl (List.mem_of_mem_eraseIdx hd)) ?_ (List.Subset.refl _)
      -- a live buffer has no checked read, so the insert is of another document
      intro uri hu doc hl
      have huri : uri ≠ d.uri := fun he => h.unchecked uri hu d hd he.symm
      simp only [StateStore.upsertDocument_documents,KeyedMap.lookup_insert_of,if_neg huri] at hl
      exact .inl hl
  | markClosed uri =>
    refine h.of_frame (Finset.erase_subset _ _) ?_ (fun _ _ _ hd => .inl hd)
      (fun _ _ _ hd => .inl hd) (List.Subset.refl _)
    intro u hu ho
    exact Finset.mem_erase.mpr ⟨(Finset.mem_erase.mp hu).1,ho⟩
  | removeDocument uri =>
    refine h.of_frame (Finset.Subset.refl _) (fun _ _ hu => by simpa [step] using hu)
      (fun _ _ _ hd => .inl hd) ?_ (List.Subset.refl _)
    intro u _ doc hd
    simp only [step,StateStore.removeDocument_documents,KeyedMap.lookup_erase_of] at hd
    split at hd
    · cases hd
    · exact .inl hd

/-- In every run whose buffers are opened clear of disk reads, a live buffer
never carries a text read from disk. -/
theorem editorText_throughout (A : Analyzer) (s : StateStore) {steps : List SessionStep}
    (h : Guarded (step A) ClearToOpen { store := s } steps) :
    Throughout (step A) EditorText { store := s } steps := by
  have h0 : Session.Protected { store := s } := ⟨by simp,by simp,by simp [EditorText]⟩
  exact (throughout_of_guarded (fun _ _ => protected_step) h0 h).mono fun _ hs => hs.editorText

/-- The condition is needed: a read that is pending when the buffer is opened
can still be inserted, and replaces the editor's text. -/
theorem pending_read_clobbers (A : Analyzer) {s : Session} {i j : ℕ} {o : Opening}
    {doc : DocumentState} (ho : s.opening[i]? = some o) (hd : s.checked[j]? = some doc)
    (huri : doc.uri = o.uri) (hnew : (o.uri,doc.text) ∉ (o.uri,o.text) :: s.sent) :
    ¬ Throughout (step A) EditorText s [.openUpsert i,.insert j] := by
  intro h
  refine hnew ?_
  have hopened : step A s (.openUpsert i) =
      { s with store := s.store.upsertDocument (.new A o.uri o.text o.version)
               opening := s.opening.eraseIdx i
               live := insert o.uri s.live
               sent := (o.uri,o.text) :: s.sent } := by simp [step,ho]
  have hlive := h.final o.uri
  simp only [run_cons,run_nil,hopened] at hlive
  have hlast := hlive (by simp [step,hd]) doc (by simp [step,hd,huri])
  simpa [step,hd] using hlast

/-- The file as an indexer reads it from disk. -/
def diskRead : DocumentState := .new declarationAnalyzer mainUri "variable \"y\" {}" 0

/-- The read finds the buffer open and is skipped. -/
theorem openedFirst_editorText :
    Throughout (step declarationAnalyzer) EditorText { store := {} }
      [.markOpen BufferStep.opening,.check diskRead,.openUpsert 0,.insert 0] := by
  refine editorText_throughout declarationAnalyzer {} ⟨trivial,trivial,?_,trivial,trivial⟩
  rintro o ⟨⟩
  exact ⟨by decide,by rintro d ⟨⟩⟩

/-- The read passes its check, the buffer is opened, and the insert replaces
the editor's text. -/
theorem racingRead_clobbers :
    ¬ Throughout (step declarationAnalyzer) EditorText { store := {} }
      [.check diskRead,.markOpen BufferStep.opening,.openUpsert 0,.insert 0] := by
  intro h
  have hin := h.final mainUri (by decide) diskRead rfl
  revert hin
  decide

end Session
end TerraformLs
