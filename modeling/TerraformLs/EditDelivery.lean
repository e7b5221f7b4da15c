import Mathlib.Order.Bounds.Basic
import TerraformLs.StoreIndex

/-! Full-text edits delivered in any order. A batch carries the whole text at
its version, so a document converges to the newest version it is given; opening
a buffer, however, takes no version into account. -/
namespace TerraformLs

open InvertedIndex Multimap

/-- A batch of full texts; the last one is the text at `version`. -/
structure FullBatch where
  version : ℤ
  earlier : List String
  text : String
  deriving DecidableEq

namespace FullBatch

def changes (b : FullBatch) : List ContentChange :=
  b.earlier.map (ContentChange.mk none) ++ [⟨none,b.text⟩]

theorem batchFits (b : FullBatch) (rope : Rope) : BatchFits rope b.changes := by
  refine batchFits_fullText (fun c hc => ?_) rope
  rcases List.mem_append.mp hc with hc | hc
  · obtain ⟨t,-,rfl⟩ := List.mem_map.mp hc
    rfl
  · rw [List.mem_singleton.mp hc]

@[simp] theorem editedBy_changes (b : FullBatch) (rope : Rope) :
    editedBy rope b.changes = b.text.toList := by
  simp [editedBy,changes,List.foldl_append,ContentChange.edited]

end FullBatch

namespace DocumentState

/-- The symbols and references are those of a document newly built from the text. -/
def Fresh (A : Analyzer) (doc : DocumentState) : Prop :=
  doc.symbols = (new A doc.uri doc.text doc.version).symbols ∧
    doc.references = (new A doc.uri doc.text doc.version).references

/-- The text parses well enough to have a body. -/
def HasBody (A : Analyzer) (doc : DocumentState) : Prop :=
  (A.parseSourceRecoveringForUri doc.text doc.uri).body.isSome

instance (A : Analyzer) (doc : DocumentState) : Decidable (doc.HasBody A) :=
  inferInstanceAs (Decidable (_ = true))

theorem new_fresh (A : Analyzer) (uri : Url) (source : String) (version : ℤ) :
    (new A uri source version).Fresh A := by
  simp [Fresh,DocumentState.text,new]

@[simp] theorem reparse_rope (A : Analyzer) (doc : DocumentState) :
    (doc.reparse A).rope = doc.rope := by
  unfold reparse
  dsimp only
  split <;> rfl

@[simp] theorem reparse_version (A : Analyzer) (doc : DocumentState) :
    (doc.reparse A).version = doc.version := by
  unfold reparse
  dsimp only
  split <;> rfl

theorem reparse_fresh (A : Analyzer) (doc : DocumentState) (h : (doc.reparse A).HasBody A) :
    (doc.reparse A).Fresh A := by
  unfold HasBody text at h
  rw [reparse_rope,reparse_uri] at h
  obtain ⟨body,hb⟩ := Option.isSome_iff_exists.mp h
  unfold Fresh text
  rw [reparse_rope,reparse_version,reparse_uri]
  simp [reparse,new,hb]

end DocumentState

/-- What a document has become after batches were delivered to it. -/
structure Converged (A : Analyzer) (doc : DocumentState) (bs : List FullBatch)
    (final : DocumentState) : Prop where
  uri : final.uri = doc.uri
  newest : IsGreatest {v | v = doc.version ∨ ∃ b ∈ bs, b.version = v} final.version
  text : ∀ b ∈ bs, doc.version < b.version → b.version = final.version → final.text = b.text
  fresh : (∃ b ∈ bs, doc.version < b.version) → final.HasBody A → final.Fresh A
  kept : (∀ b ∈ bs, b.version ≤ doc.version) → final = doc

/-- Batches of one version carry one text. -/
def Agree (bs : List FullBatch) : Prop :=
  ∀ b ∈ bs, ∀ b' ∈ bs, b.version = b'.version → b.text = b'.text

namespace Converged

variable {A : Analyzer} {doc final : DocumentState} {bs : List FullBatch}

theorem refl (A : Analyzer) (doc : DocumentState) : Converged A doc [] doc where
  uri := rfl
  newest := ⟨.inl rfl,fun v hv => by simp at hv; omega⟩
  text := by simp
  fresh := by simp
  kept _ := rfl

theorem version_le (h : Converged A doc bs final) : doc.version ≤ final.version :=
  h.newest.2 (.inl rfl)

theorem batch_le (h : Converged A doc bs final) {b : FullBatch} (hb : b ∈ bs) :
    b.version ≤ final.version := h.newest.2 (.inr ⟨b,hb,rfl⟩)

/-- A stale batch in front changes nothing. -/
theorem cons_stale (h : Converged A doc bs final) {b : FullBatch}
    (hb : b.version ≤ doc.version) : Converged A doc (b :: bs) final where
  uri := h.uri
  newest := by
    refine ⟨?_,fun v hv => ?_⟩
    · rcases h.newest.1 with hv | ⟨b',hb',hv⟩
      · exact .inl hv
      · exact .inr ⟨b',List.mem_cons_of_mem b hb',hv⟩
    · rcases hv with rfl | ⟨b',hb',rfl⟩
      · exact h.version_le
      · rcases List.mem_cons.mp hb' with rfl | hb'
        · exact hb.trans h.version_le
        · exact h.batch_le hb'
  text b' hb' hlt := by
    rcases List.mem_cons.mp hb' with rfl | hb'
    · omega
    · exact h.text b' hb' hlt
  fresh := by
    rintro ⟨b',hb',hlt⟩
    rcases List.mem_cons.mp hb' with rfl | hb'
    · omega
    · exact h.fresh ⟨b',hb',hlt⟩
  kept hle := h.kept fun b' hb' => hle b' (List.mem_cons_of_mem b hb')

/-- A newer batch in front, applied first, is what the others are measured against. -/
theorem cons_newer {doc' : DocumentState} {b : FullBatch} (h : Converged A doc' bs final)
    (hagree : Agree (b :: bs)) (hlt : doc.version < b.version) (huri : doc'.uri = doc.uri)
    (hv : doc'.version = b.version) (ht : doc'.text = b.text)
    (hf : doc'.HasBody A → doc'.Fresh A) : Converged A doc (b :: bs) final where
  uri := h.uri.trans huri
  newest := by
    refine ⟨?_,fun v hv' => ?_⟩
    · rcases h.newest.1 with hv' | ⟨b',hb',hv'⟩
      · exact .inr ⟨b,List.mem_cons_self,hv.symm.trans hv'.symm⟩
      · exact .inr ⟨b',List.mem_cons_of_mem b hb',hv'⟩
    · have hle := h.version_le
      rcases hv' with rfl | ⟨b',hb',rfl⟩
      · omega
      · rcases List.mem_cons.mp hb' with rfl | hb'
        · omega
        · exact h.batch_le hb'
  text b' hb' _ heq := by
    by_cases hnew : doc'.version < final.version
    · have hb'' : b' ∈ bs := by
        rcases List.mem_cons.mp hb' with rfl | hb'
        · omega
        · exact hb'
      exact h.text b' hb'' (by omega) heq
    · -- nothing newer than `b` arrived, so its text is still there
      have hle : ∀ c ∈ bs, c.version ≤ doc'.version := fun c hc => (h.batch_le hc).trans (by omega)
      have hvle := h.version_le
      rw [h.kept hle,ht]
      exact hagree b List.mem_cons_self b' hb' (by omega)
  fresh _ hbody := by
    by_cases hnew : ∃ c ∈ bs, doc'.version < c.version
    · exact h.fresh hnew hbody
    · have hkept := h.kept fun c hc => not_lt.mp fun hc' => hnew ⟨c,hc,hc'⟩
      rw [hkept] at hbody ⊢
      exact hf hbody
  kept hle := by
    have := hle b List.mem_cons_self
    omega

end Converged

namespace StateStore

/-- The step of one `did_change`. -/
def deliver (uri : Url) (b : FullBatch) : StoreOp :=
  .applyAndReparseDocument uri b.version b.changes

variable (A : Analyzer)

theorem appliedBatch_full (doc : DocumentState) (b : FullBatch) (cache : Option FormatCacheEntry) :
    (appliedBatch A doc b.version b.changes cache).uri = doc.uri ∧
      (appliedBatch A doc b.version b.changes cache).version = b.version ∧
      (appliedBatch A doc b.version b.changes cache).text = b.text := by
  refine ⟨DocumentState.reparse_uri A _,DocumentState.reparse_version A _,?_⟩
  unfold DocumentState.text appliedBatch
  rw [DocumentState.reparse_rope,FullBatch.editedBy_changes,String.ofList_toList]

/-- A delivered batch is dropped, or replaces the text and is analysed. Either
way the entries of the document are filed again. -/
theorem deliver_cases {s : StateStore} {uri : Url} {doc : DocumentState}
    (hd : s.documents.lookup uri = some doc) (b : FullBatch) :
    (b.version ≤ doc.version ∧ (deliver uri b).step A s = s.refiled uri doc) ∨
      (doc.version < b.version ∧ ∃ cache, (deliver uri b).step A s =
        s.refiled uri (appliedBatch A doc b.version b.changes cache)) := by
  simp only [deliver,StoreOp.step]
  rcases s.applyAndReparseDocument_cases A uri b.version b.changes with
    ⟨hn,-⟩ | ⟨doc',hd',⟨hv,he⟩ | ⟨hv,-,cache,he⟩ | ⟨-,r,-,-,hr,-⟩ | ⟨-,hb,-⟩⟩
  · rw [hd] at hn; cases hn
  · cases hd.symm.trans hd'
    exact .inl ⟨hv,by rw [he]⟩
  · cases hd.symm.trans hd'
    exact .inr ⟨hv,cache,by rw [he]⟩
  · exact absurd (b.batchFits _) hr.not_batchFits
  · exact absurd (b.batchFits _) hb

end StateStore

/-- The atomic store steps of the handlers of one buffer. -/
inductive BufferStep
  | markOpen
  | upsert
  | change (b : FullBatch)
  deriving DecidableEq

/-- What `did_open` is given. -/
structure Opening where
  uri : Url
  version : ℤ
  text : String

namespace BufferStep

def toOp (A : Analyzer) (o : Opening) : BufferStep → StoreOp
  | markOpen => .markOpen o.uri
  | upsert => .upsertDocument (.new A o.uri o.text o.version)
  | change b => StateStore.deliver o.uri b

def step (A : Analyzer) (o : Opening) (s : StateStore) (st : BufferStep) : StateStore :=
  (st.toOp A o).step A s

def batch : BufferStep → Option FullBatch
  | change b => some b
  | _ => none

@[simp] theorem mem_batches {steps : List BufferStep} {b : FullBatch} :
    b ∈ steps.filterMap batch ↔ change b ∈ steps := by
  rw [List.mem_filterMap]
  constructor
  · rintro ⟨st,hst,hb⟩
    cases st with
    | change c => cases hb; exact hst
    | markOpen => cases hb
    | upsert => cases hb
  · exact fun h => ⟨_,h,rfl⟩

/-- Once the document is there, the changes make it converge. -/
theorem run_converged (A : Analyzer) (o : Opening) (steps : List BufferStep)
    (hu : upsert ∉ steps) (hagree : Agree (steps.filterMap batch)) {s : StateStore}
    {doc : DocumentState} (hd : s.documents.lookup o.uri = some doc) :
    ∃ final, (run (step A o) s steps).documents.lookup o.uri = some final ∧
      Converged A doc (steps.filterMap batch) final := by
  induction steps generalizing s doc with
  | nil => exact ⟨doc,hd,.refl A doc⟩
  | cons st steps ih =>
    have hu' : upsert ∉ steps := fun h => hu (List.mem_cons_of_mem st h)
    cases st with
    | markOpen => exact ih hu' hagree hd
    | upsert => exact absurd List.mem_cons_self hu
    | change b =>
      have hagree' : Agree (steps.filterMap batch) := fun c hc c' hc' =>
        hagree c (List.mem_cons_of_mem b hc) c' (List.mem_cons_of_mem b hc')
      have hstep : ∀ s', step A o s (change b) = s' →
          ∀ doc', s'.documents.lookup o.uri = some doc' →
          ∃ final, (run (step A o) s (change b :: steps)).documents.lookup o.uri = some final ∧
            Converged A doc' (steps.filterMap batch) final := by
        rintro s' rfl doc' hd'
        exact ih hu' hagree' hd'
      rcases StateStore.deliver_cases A hd b with ⟨hv,he⟩ | ⟨hv,cache,he⟩
      · obtain ⟨final,hf,hc⟩ := hstep _ he doc (by simp)
        exact ⟨final,hf,hc.cons_stale hv⟩
      · obtain ⟨final,hf,hc⟩ := hstep _ he (StateStore.appliedBatch A doc b.version b.changes cache)
          (by simp)
        obtain ⟨huri,hver,htext⟩ := StateStore.appliedBatch_full A doc b cache
        exact ⟨final,hf,hc.cons_newer hagree hv huri hver htext (DocumentState.reparse_fresh A _)⟩

/-- The handlers of one buffer: the one that opens it, and one for each change. -/
def threads (bs : List FullBatch) : List (List BufferStep) :=
  [.markOpen,.upsert] :: bs.map fun b => [.change b]

theorem flatten_threads (bs : List FullBatch) :
    (threads bs).flatten = .markOpen :: .upsert :: bs.map .change := by
  induction bs with
  | nil => rfl
  | cons b bs ih => simpa [threads] using ih

end BufferStep

/-- Each version is newer than all before it, the opening one included. -/
def Increasing (o : Opening) (bs : List FullBatch) : Prop :=
  (o.version :: bs.map FullBatch.version).Pairwise (· < ·)

theorem Increasing.agree {o : Opening} {bs : List FullBatch} (h : Increasing o bs) :
    ∀ b ∈ bs, ∀ b' ∈ bs, b.version = b'.version → b = b' := by
  have hinj : (bs.map FullBatch.version).Nodup :=
    (List.pairwise_cons.mp h).2.imp fun h => ne_of_lt h
  exact fun b hb b' hb' hv => List.inj_on_of_nodup_map hinj hb hb' hv

theorem Increasing.opening_lt {o : Opening} {bs : List FullBatch} (h : Increasing o bs)
    {b : FullBatch} (hb : b ∈ bs) : o.version < b.version :=
  (List.pairwise_cons.mp h).1 _ (List.mem_map_of_mem hb)

theorem Increasing.le_last {o : Opening} {bs : List FullBatch} (h : Increasing o bs)
    {b last : FullBatch} (hb : b ∈ bs) (hlast : bs.getLast? = some last) :
    b.version ≤ last.version := by
  obtain ⟨init,rfl⟩ := List.getLast?_eq_some_iff.mp hlast
  rcases List.mem_append.mp hb with hb | hb
  · have hp := (List.pairwise_cons.mp h).2
    rw [List.map_append,List.pairwise_append] at hp
    exact (hp.2.2 _ (List.mem_map_of_mem hb) _ (by simp)).le
  · rw [List.mem_singleton.mp hb]

/-- The buffer holds the newest text: that of the last change, or the text it
was opened with. -/
def Settled (s : StateStore) (o : Opening) (bs : List FullBatch) : Prop :=
  ∃ doc, s.documents.lookup o.uri = some doc ∧
    match bs.getLast? with
    | none => doc.version = o.version ∧ doc.text = o.text
    | some last => doc.version = last.version ∧ doc.text = last.text

namespace BufferStep

/-- Whatever order the handlers' steps take, the buffer ends up with the newest
text if and only if the last change, if there is one, comes after the insert
that opens the buffer. -/
theorem settled_iff (A : Analyzer) (s : StateStore) (o : Opening) {bs : List FullBatch}
    (hbs : Increasing o bs) {steps : List BufferStep} (hsteps : Interleaves (threads bs) steps) :
    Settled (run (step A o) s steps) o bs ↔
      ∀ last, bs.getLast? = some last → [upsert,change last].Sublist steps := by
  have hperm := hsteps.perm
  rw [flatten_threads] at hperm
  have hmem : upsert ∈ steps := hperm.mem_iff.mpr (by simp)
  obtain ⟨pre,post,rfl⟩ := List.append_of_mem hmem
  have hcount : (pre ++ upsert :: post).count upsert = 1 := by
    rw [hperm.count_eq]
    simp [List.count_eq_zero]
  have hpre : upsert ∉ pre := by
    intro h
    have := List.count_pos_iff.mpr h
    simp only [List.count_append,List.count_cons_self] at hcount
    omega
  have hpost : upsert ∉ post := by
    intro h
    have := List.count_pos_iff.mpr h
    simp only [List.count_append,List.count_cons_self] at hcount
    omega
  have hsub : ∀ b ∈ post.filterMap batch, b ∈ bs := by
    intro b hb
    have hb' : change b ∈ pre ++ upsert :: post := by simp [mem_batches.mp hb]
    simpa using hperm.mem_iff.mp hb'
  have hagree : Agree (post.filterMap batch) := fun b hb b' hb' hv => by
    rw [hbs.agree b (hsub b hb) b' (hsub b' hb') hv]
  -- from the insert on, the document has the opening text and only changes act on it
  have hopen : (step A o (run (step A o) s pre) upsert).documents.lookup o.uri =
      some (.new A o.uri o.text o.version) := by
    simp [step,toOp,StoreOp.step,DocumentState.new]
  obtain ⟨final,hf,hc⟩ := run_converged A o post hpost hagree hopen
  have hrun : run (step A o) s (pre ++ upsert :: post) =
      run (step A o) (step A o (run (step A o) s pre) upsert) post := by
    rw [run_append,run_cons]
  unfold Settled
  rw [hrun,hf]
  cases hlast : bs.getLast? with
  | none =>
    have hnil : bs = [] := List.getLast?_eq_none_iff.mp hlast
    have hkept := hc.kept fun b hb => absurd (hsub b hb) (by simp [hnil])
    simp [hkept,DocumentState.new,DocumentState.text]
  | some last =>
    have hlast' : last ∈ bs := List.mem_of_getLast? hlast
    simp only [Option.some.injEq,exists_eq_left',forall_eq',pair_sublist_iff hpre]
    constructor
    · rintro ⟨hv,-⟩
      rcases hc.newest.1 with hv' | ⟨b,hb,hv'⟩
      · have hlt := hbs.opening_lt hlast'
        rw [← hv,hv'] at hlt
        exact absurd hlt (lt_irrefl _)
      · rw [← hbs.agree b (hsub b hb) last hlast' (hv'.trans hv)]
        exact mem_batches.mp hb
    · intro hin
      have hin' : last ∈ post.filterMap batch := mem_batches.mpr hin
      have hv : last.version = final.version := by
        refine le_antisymm (hc.batch_le hin') ?_
        rcases hc.newest.1 with hv | ⟨b,hb,hv⟩
        · rw [hv]
          exact (hbs.opening_lt hlast').le
        · rw [← hv]
          exact hbs.le_last (hsub b hb) hlast
      exact ⟨hv.symm,hc.text last hin' (hbs.opening_lt hlast') hv⟩

/-- A file is opened at version 1 and changed once. -/
def opening : Opening := ⟨mainUri,1,"variable \"x\" {}"⟩

def laterText : FullBatch := ⟨2,[],"variable \"y\" {}"⟩

theorem opening_increasing : Increasing opening [laterText] := by
  simp [Increasing,opening,laterText]

theorem settled_changeAfterOpen :
    Settled (run (step declarationAnalyzer opening) {} [markOpen,upsert,change laterText]) opening
      [laterText] := by
  have hsteps : Interleaves (threads [laterText]) [markOpen,upsert,change laterText] :=
    .step [] _ <| .step [] _ <| .step [[]] [] <| .done (by simp)
  refine (settled_iff declarationAnalyzer {} opening opening_increasing hsteps).mpr ?_
  rintro _ ⟨⟩
  exact .cons _ (.refl _)

/-- The change is handled first, finds no document, and is lost. -/
theorem not_settled_changeBeforeOpen :
    Increasing opening [laterText] ∧
      Interleaves (threads [laterText]) [change laterText,markOpen,upsert] ∧
      ¬ Settled (run (step declarationAnalyzer opening) {} [change laterText,markOpen,upsert])
        opening [laterText] := by
  refine ⟨opening_increasing,?_,?_⟩
  · exact .step [_] [] <| .step [] _ <| .step [] _ <| .done (by simp)
  · rintro ⟨doc,hd,hv,-⟩
    have h1 : ((run (step declarationAnalyzer opening) {} [change laterText,markOpen,upsert]
        ).documents.lookup opening.uri).map DocumentState.version = some 1 := by decide
    rw [hd,Option.map_some,hv] at h1
    cases h1

end BufferStep

namespace StateStore

theorem deliver_ownUri (uri : Url) (bs : List FullBatch) : ∀ op ∈ bs.map (deliver uri), op.OwnUri := by
  intro op hop
  obtain ⟨b,-,rfl⟩ := List.mem_map.mp hop
  trivial

section fullSync

variable {A : Analyzer} {ops : List StoreOp} {uri : Url} {doc : DocumentState}

/-- From any reachable store, full-text batches delivered in any order make the
document converge, and the indexes hold the entries of what it has become. -/
theorem fullSync_converges (hA : A.Located) (hops : ∀ op ∈ ops, op.OwnUri)
    (hd : (run (StoreOp.step A) {} ops).documents.lookup uri = some doc) {bs : List FullBatch}
    (hagree : Agree bs) :
    ∃ final, (run (StoreOp.step A) {} (ops ++ bs.map (deliver uri))).documents.lookup uri =
        some final ∧ Converged A doc bs final ∧
      ((∃ b ∈ bs, doc.version < b.version) ∨ doc.Fresh A → final.HasBody A → final.Fresh A) ∧
      (bs ≠ [] ∨ (run (StoreOp.step A) {} ops).EntriesOf uri doc →
        (run (StoreOp.step A) {} (ops ++ bs.map (deliver uri))).EntriesOf uri final) := by
  have hops' : ∀ init : List FullBatch, ∀ op ∈ ops ++ init.map (deliver uri), op.OwnUri :=
    fun init op hop => (List.mem_append.mp hop).elim (hops op) (deliver_ownUri uri init op)
  have hrun : ∀ init : List FullBatch, run (StoreOp.step A) {} (ops ++ init.map (deliver uri)) =
      run (BufferStep.step A ⟨uri,0,""⟩) (run (StoreOp.step A) {} ops)
        (init.map .change) := by
    intro init
    rw [run_append]
    simp only [run,List.foldl_map]
    rfl
  have hbatches : ∀ init : List FullBatch, (init.map .change).filterMap BufferStep.batch = init :=
    fun init => by simp [List.filterMap_map,Function.comp_def,BufferStep.batch]
  have hconv : ∀ init, Agree init → ∃ final,
      (run (StoreOp.step A) {} (ops ++ init.map (deliver uri))).documents.lookup uri =
        some final ∧ Converged A doc init final := by
    intro init hinit
    have h := BufferStep.run_converged A ⟨uri,0,""⟩ (init.map .change) (by simp)
      (by rwa [hbatches]) hd
    rwa [← hrun,hbatches] at h
  obtain ⟨final,hf,hc⟩ := hconv bs hagree
  refine ⟨final,hf,hc,?_,?_⟩
  · rintro (hnew | hfresh) hbody
    · exact hc.fresh hnew hbody
    · by_cases hnew : ∃ b ∈ bs, doc.version < b.version
      · exact hc.fresh hnew hbody
      · rwa [hc.kept fun b hb => not_lt.mp fun hlt => hnew ⟨b,hb,hlt⟩]
  · intro h
    cases bs using List.reverseRecOn with
    | nil =>
      simp only [ne_eq,not_true_eq_false,false_or,List.map_nil,List.append_nil] at h hf ⊢
      rw [hd] at hf
      cases hf
      exact h
    | append_singleton init b =>
      have hinit : Agree init := fun c hc' c' hc'' => hagree c (by simp [hc']) c' (by simp [hc''])
      obtain ⟨doc₁,hd₁,-⟩ := hconv init hinit
      obtain ⟨hw,hp⟩ := (partlyIndexed_throughout hA (hops' init)).final
      obtain ⟨hw',-⟩ := (partlyIndexed_throughout hA (hops' (init ++ [b]))).final
      obtain ⟨hu,ho⟩ := hw' uri final hf
      rw [List.map_append,List.map_singleton,← List.append_assoc,run_concat] at hf ⊢
      rcases deliver_cases A hd₁ b with ⟨-,he⟩ | ⟨-,cache,he⟩
      all_goals
        rw [he] at hf ⊢
        rw [refiled_documents,AList.lookup_insert] at hf
        cases hf
        exact refiled_entries hw hp hu ho

end fullSync

def openedDocument : List StoreOp :=
  [.upsertDocument (.new declarationAnalyzer mainUri "variable \"x\" {}" 1)]

/-- Version 3 overtakes version 2 and is delivered twice. -/
def reordered : List FullBatch :=
  [⟨3,[],"variable \"z\" {}"⟩,⟨2,[],"variable \"y\" {}"⟩,⟨3,[],"variable \"z\" {}"⟩]

theorem reordered_converges :
    ∃ final, (run (StoreOp.step declarationAnalyzer) {}
        (openedDocument ++ reordered.map (deliver mainUri))).documents.lookup mainUri = some final ∧
      final.version = 3 ∧ final.text = "variable \"z\" {}" := by
  have hops : ∀ op ∈ openedDocument, op.OwnUri := by
    simp only [openedDocument,List.mem_singleton,forall_eq]
    exact DocumentState.new_ownUri declarationAnalyzer_located _ _ _
  have hagree : Agree reordered := by simp [Agree,reordered]
  have hd : (run (StoreOp.step declarationAnalyzer) {} openedDocument).documents.lookup mainUri =
      some (.new declarationAnalyzer mainUri "variable \"x\" {}" 1) := rfl
  obtain ⟨final,hf,hc,-⟩ := fullSync_converges declarationAnalyzer_located hops hd hagree
  have hv : final.version = 3 := by
    refine le_antisymm ?_ (hc.batch_le (b:=⟨3,[],"variable \"z\" {}"⟩) (by simp [reordered]))
    rcases hc.newest.1 with hv | ⟨b,hb,hv⟩
    · rw [hv]; decide
    · rw [← hv]
      revert b
      simp [reordered]
  exact ⟨final,hf,hv,hc.text ⟨3,[],"variable \"z\" {}"⟩ (by simp [reordered]) (by decide) hv.symm⟩

/-- A document restored from the cache with symbols that are not those of its
text, as the store takes them from the cache unseen. -/
def hydratedDocument : List StoreOp :=
  [.upsertDocumentUnlessOpen (.hydratedFromCache mainUri "variable \"x\" {}" {} [])]

/-- No newer batch arrives, and the cached symbols stay. -/
theorem hydrated_not_fresh : (∀ op ∈ hydratedDocument, op.OwnUri) ∧
    ¬ ∀ final, (run (StoreOp.step declarationAnalyzer) {} (hydratedDocument ++
        [⟨0,[],"variable \"x\" {}"⟩].map (deliver mainUri))).documents.lookup mainUri =
          some final → final.HasBody declarationAnalyzer → final.Fresh declarationAnalyzer := by
  constructor
  · simp only [hydratedDocument,List.mem_singleton,forall_eq]
    exact ⟨by simp [DocumentState.definitionRows,DocumentState.hydratedFromCache],
      by simp [DocumentState.referenceRows,DocumentState.hydratedFromCache,referenceRows]⟩
  · intro h
    have hsym := congrArg (fun t : SymbolTable => t.variables.keys) (h _ rfl (by decide)).1
    revert hsym
    decide

end StateStore
end TerraformLs
