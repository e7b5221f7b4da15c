import Mathlib.Data.List.Sort
import TerraformLs.JobQueue
import TerraformLs.Runs

/-! The job queue with its history: every entry it accepted, popped and completed
since it was created, for any sequence of calls. -/
namespace TerraformLs

instance : IsTrans Entry Entry.Before where
  trans a b c hab hbc := by
    unfold Entry.Before at *
    omega

instance : Std.Total Entry.Before where
  total a b := by
    unfold Entry.Before
    omega

inductive QueueCall
  | enqueue (job : Job) (priority : Priority)
  | tryNext
  | complete
  deriving DecidableEq

/-- The queue and what was done with it, oldest first. -/
structure QueueHistory where
  queue : JobQueue := {}
  accepted : List Entry := []
  popped : List Entry := []
  completed : ℕ := 0

namespace QueueHistory

/-- The entry that a call to `enqueue` adds, unless the job is pending. -/
def accepts (h : QueueHistory) (job : Job) (priority : Priority) : List Entry :=
  if job ∈ h.queue.pending then [] else [⟨priority,h.queue.seq+1,job⟩]

def step (h : QueueHistory) : QueueCall → QueueHistory
  | .enqueue job priority =>
    { h with
      queue := h.queue.enqueue job priority
      accepted := h.accepted ++ h.accepts job priority }
  | .tryNext =>
    { h with
      queue := (h.queue.tryNext.map Prod.snd).getD h.queue
      popped := h.popped ++ h.queue.heap.head?.toList }
  | .complete => { h with queue := h.queue.complete, completed := h.completed+1 }

/-- A job is completed after it was popped. -/
def Allowed (h : QueueHistory) (call : QueueCall) : Prop :=
  call = .complete → h.completed < h.popped.length

/-- What every call keeps. -/
structure Sound (h : QueueHistory) : Prop where
  pending : ∀ job, job ∈ h.queue.pending ↔ h.queue.Queued job
  jobs : (h.queue.heap.map Entry.job).Nodup
  sorted : h.queue.heap.Pairwise Entry.Before
  accounted : (h.popped ++ h.queue.heap).Perm h.accepted
  seqs : h.accepted.map Entry.seq = List.range' 1 h.queue.seq
  inFlight : h.queue.inFlight + h.completed = h.popped.length

theorem sound_empty : Sound {} := by
  refine ⟨?_,?_,?_,?_,?_,?_⟩ <;> simp [JobQueue.Queued]

theorem step_enqueue_pending {h : QueueHistory} {job : Job} (hp : job ∈ h.queue.pending)
    (priority : Priority) : h.step (.enqueue job priority) = h := by
  simp [step,accepts,JobQueue.enqueue,hp]

theorem step_tryNext_nil {h : QueueHistory} (hheap : h.queue.heap = []) :
    h.step .tryNext = h := by
  have hnone : h.queue.tryNext = none := by
    rw [JobQueue.tryNext]
    simp [hheap]
  simp [step,hnone,hheap]

theorem tryNext_cons {q : JobQueue} {e : Entry} {heap : List Entry} (hheap : q.heap = e :: heap) :
    q.tryNext = some (e.job,{ q with
      heap := heap, pending := q.pending.erase e.job, inFlight := q.inFlight+1 }) := by
  rw [JobQueue.tryNext]
  simp [hheap]

theorem queued_iff (q : JobQueue) (job : Job) : q.Queued job ↔ job ∈ q.heap.map Entry.job := by
  simp [JobQueue.Queued]

theorem sound_enqueue {h : QueueHistory} (hs : h.Sound) (job : Job) (priority : Priority) :
    (h.step (.enqueue job priority)).Sound := by
  by_cases hp : job ∈ h.queue.pending
  · rw [step_enqueue_pending hp]
    exact hs
  · have hnew : job ∉ h.queue.heap.map Entry.job := by
      rw [← queued_iff,← hs.pending]
      exact hp
    have hperm := h.queue.heap.perm_orderedInsert Entry.Before ⟨priority,h.queue.seq+1,job⟩
    have hjobs := hperm.map Entry.job
    rw [List.map_cons] at hjobs
    have hqueue : h.queue.enqueue job priority = { h.queue with
        heap := h.queue.heap.orderedInsert Entry.Before ⟨priority,h.queue.seq+1,job⟩
        pending := insert job h.queue.pending
        seq := h.queue.seq+1 } := if_neg hp
    simp only [step,accepts,if_neg hp,hqueue]
    refine ⟨fun job' => ?_,?_,?_,?_,?_,hs.inFlight⟩
    · rw [queued_iff,hjobs.mem_iff,List.mem_cons,Finset.mem_insert,hs.pending,queued_iff]
    · rw [hjobs.nodup_iff]
      exact List.nodup_cons.mpr ⟨hnew,hs.jobs⟩
    · exact hs.sorted.orderedInsert _ _
    · have hsplit := hperm.append_left h.popped
      exact hsplit.trans (List.perm_middle.trans ((hs.accounted.cons _).trans
        (List.perm_append_singleton _ _).symm))
    · rw [List.map_append,hs.seqs,List.range'_concat]
      simp [Nat.add_comm]

theorem sound_tryNext {h : QueueHistory} (hs : h.Sound) : (h.step .tryNext).Sound := by
  cases hheap : h.queue.heap with
  | nil =>
    rw [step_tryNext_nil hheap]
    exact hs
  | cons e heap =>
    have hjobs := hs.jobs
    have hsorted := hs.sorted
    have haccounted := hs.accounted
    rw [hheap] at hjobs hsorted haccounted
    obtain ⟨hfirst,hjobs⟩ := List.nodup_cons.mp hjobs
    simp only [step,tryNext_cons hheap,Option.map_some,Option.getD_some]
    refine ⟨fun job => ?_,hjobs,hsorted.of_cons,?_,hs.seqs,?_⟩
    · rw [queued_iff,Finset.mem_erase,hs.pending,queued_iff,hheap,List.map_cons,List.mem_cons]
      constructor
      · rintro ⟨hne,hmem⟩
        exact hmem.resolve_left hne
      · intro hmem
        refine ⟨?_,.inr hmem⟩
        rintro rfl
        exact hfirst hmem
    · simpa [hheap] using haccounted
    · have hcount := hs.inFlight
      simp [hheap]
      omega

theorem sound_complete {h : QueueHistory} (hs : h.Sound) (hallowed : h.Allowed .complete) :
    (h.step .complete).Sound := by
  have hlt := hallowed rfl
  have hcount := hs.inFlight
  refine ⟨hs.pending,hs.jobs,hs.sorted,hs.accounted,hs.seqs,?_⟩
  show h.queue.inFlight - 1 + (h.completed + 1) = h.popped.length
  omega

theorem sound_step (h : QueueHistory) (call : QueueCall) (hs : h.Sound)
    (hallowed : h.Allowed call) : (h.step call).Sound := by
  cases call with
  | enqueue job priority => exact sound_enqueue hs job priority
  | tryNext => exact sound_tryNext hs
  | complete => exact sound_complete hs hallowed

theorem sound_run {h : QueueHistory} (hs : h.Sound) {calls : List QueueCall}
    (hcalls : Guarded step Allowed h calls) : (run step h calls).Sound :=
  (throughout_of_guarded sound_step hs hcalls).final

section order

variable {h : QueueHistory}

/-- An entry's sequence number is its place among the entries accepted. -/
theorem seq_eq_place (hs : h.Sound) {e : Entry} (he : e ∈ h.accepted) :
    e.seq = h.accepted.idxOf e + 1 := by
  have hlt : h.accepted.idxOf e < h.accepted.length := List.idxOf_lt_length_iff.mpr he
  have hseq : (h.accepted.map Entry.seq)[h.accepted.idxOf e]? =
      (List.range' 1 h.queue.seq)[h.accepted.idxOf e]? := by rw [hs.seqs]
  have hlength : h.accepted.length = h.queue.seq := by
    have hmap := congrArg List.length hs.seqs
    simpa using hmap
  rw [hlength] at hlt
  rw [List.getElem?_map,List.getElem?_idxOf he,Option.map_some,
    List.getElem?_range' hlt] at hseq
  have hplace := Option.some.inj hseq
  omega

theorem nodup_accepted (hs : h.Sound) : h.accepted.Nodup := by
  have hseqs : (h.accepted.map Entry.seq).Nodup := by
    rw [hs.seqs]
    exact List.nodup_range'
  exact hseqs.of_map _

theorem accepted_of_heap (hs : h.Sound) {e : Entry} (he : e ∈ h.queue.heap) : e ∈ h.accepted :=
  hs.accounted.subset (List.mem_append_right _ he)

/-- An accepted entry was popped or is in the heap, and only one of the two. -/
theorem count_accounted (hs : h.Sound) {e : Entry} (he : e ∈ h.accepted) :
    h.popped.count e + h.queue.heap.count e = 1 := by
  rw [← List.count_append,hs.accounted.count_eq]
  exact List.count_eq_one_of_mem (nodup_accepted hs) he

/-- The entry popped has the highest priority, and is the oldest with it. -/
theorem first_of_heap (hs : h.Sound) {e : Entry} {heap : List Entry}
    (hheap : h.queue.heap = e :: heap) {e' : Entry} (he : e' ∈ h.queue.heap) :
    e'.priority.rank < e.priority.rank ∨
      (e'.priority.rank = e.priority.rank ∧ h.accepted.idxOf e ≤ h.accepted.idxOf e') := by
  have hsorted := hs.sorted
  have hplace := seq_eq_place hs (accepted_of_heap hs he)
  have hmem := he
  rw [hheap] at hsorted he
  rcases List.mem_cons.mp he with rfl | he
  · exact .inr ⟨rfl,Nat.le_refl _⟩
  · have hfirst := seq_eq_place hs
      (accepted_of_heap hs (e:=e) (by rw [hheap]; exact List.mem_cons_self))
    have hbefore : e.Before e' := List.rel_of_pairwise_cons hsorted he
    unfold Entry.Before at hbefore
    omega

end order

section continuations

variable {h : QueueHistory}

theorem popped_step (h : QueueHistory) (call : QueueCall) : h.popped ⊆ (h.step call).popped := by
  cases call with
  | tryNext => exact List.subset_append_left _ _
  | _ => exact List.Subset.refl _

theorem popped_run (h : QueueHistory) (calls : List QueueCall) :
    h.popped ⊆ (run step h calls).popped := by
  induction calls generalizing h with
  | nil => exact List.Subset.refl _
  | cons call calls ih => exact List.Subset.trans (popped_step h call) (ih _)

theorem accepted_step (h : QueueHistory) (call : QueueCall) :
    h.accepted <+: (h.step call).accepted := by
  cases call with
  | enqueue job priority => exact List.prefix_append _ _
  | _ => exact List.prefix_rfl

theorem accepted_run (h : QueueHistory) (calls : List QueueCall) :
    h.accepted <+: (run step h calls).accepted := by
  induction calls generalizing h with
  | nil => exact List.prefix_rfl
  | cons call calls ih => exact (accepted_step h call).trans (ih _)

/-- Only an entry that comes before it delays another. -/
theorem place_orderedInsert {heap : List Entry} (hsorted : heap.Pairwise Entry.Before)
    {e : Entry} (he : e ∈ heap) (new : Entry) :
    (heap.orderedInsert Entry.Before new).idxOf e ≤
      heap.idxOf e + if new.Before e then 1 else 0 := by
  induction heap with
  | nil => cases he
  | cons first heap ih =>
    rw [List.orderedInsert_cons]
    by_cases hnew : new.Before first
    · have hbefore : new.Before e := by
        rcases List.mem_cons.mp he with rfl | he
        · exact hnew
        · exact IsTrans.trans _ _ _ hnew (List.rel_of_pairwise_cons hsorted he)
      rw [if_pos hnew,if_pos hbefore]
      by_cases hne : new = e
      · simp [hne]
      · rw [List.idxOf_cons_ne _ hne]
    · rw [if_neg hnew]
      by_cases hfirst : first = e
      · simp [hfirst]
      · have hmem : e ∈ heap := (List.mem_cons.mp he).resolve_left (Ne.symm hfirst)
        have hplace := ih hsorted.of_cons hmem
        rw [List.idxOf_cons_ne _ hfirst,List.idxOf_cons_ne _ hfirst]
        omega

theorem seq_le (hs : h.Sound) {e : Entry} (he : e ∈ h.accepted) : e.seq ≤ h.queue.seq := by
  have hmem : e.seq ∈ List.range' 1 h.queue.seq := by
    rw [← hs.seqs]
    exact List.mem_map_of_mem he
  have hrange := List.mem_range'_1.mp hmem
  omega

theorem place_enqueue (hs : h.Sound) {e : Entry} (he : e ∈ h.queue.heap) (job : Job)
    (priority : Priority) :
    (h.step (.enqueue job priority)).queue.heap.idxOf e ≤ h.queue.heap.idxOf e +
      (h.accepts job priority).countP fun new => decide (e.priority.rank < new.priority.rank) := by
  by_cases hp : job ∈ h.queue.pending
  · rw [step_enqueue_pending hp]
    omega
  · have hplace := place_orderedInsert hs.sorted he ⟨priority,h.queue.seq+1,job⟩
    have hold := seq_le hs (accepted_of_heap hs he)
    have hbefore : Entry.Before ⟨priority,h.queue.seq+1,job⟩ e ↔
        e.priority.rank < priority.rank := by
      show (e.priority.rank < priority.rank ∨
        (priority.rank = e.priority.rank ∧ h.queue.seq+1 ≤ e.seq)) ↔ _
      omega
    have hheap : (h.step (.enqueue job priority)).queue.heap =
        h.queue.heap.orderedInsert Entry.Before ⟨priority,h.queue.seq+1,job⟩ := by
      simp only [step,JobQueue.enqueue,if_neg hp]
    rw [hheap,accepts,if_neg hp,List.countP_singleton]
    simpa only [hbefore,decide_eq_true_eq] using hplace

theorem place_tryNext {e : Entry} (he : e ∈ h.queue.heap) : e ∈ (h.step .tryNext).popped ∨
    (h.step .tryNext).queue.heap.idxOf e + 1 = h.queue.heap.idxOf e := by
  cases hheap : h.queue.heap with
  | nil => simp [hheap] at he
  | cons first heap =>
    by_cases hfirst : first = e
    · left
      simp [step,hheap,hfirst]
    · right
      rw [List.idxOf_cons_ne _ hfirst]
      simp only [step,tryNext_cons hheap,Option.map_some,Option.getD_some]

/-- An entry in the heap is popped after the entries ahead of it and those of a
higher priority that are accepted meanwhile. -/
theorem popped_of_pops {e : Entry} {calls : List QueueCall} {later : List Entry} (hs : h.Sound)
    (hcalls : Guarded step Allowed h calls) (he : e ∈ h.accepted)
    (hlater : (run step h calls).accepted = h.accepted ++ later)
    (hpops : h.queue.heap.idxOf e +
      later.countP (fun new => decide (e.priority.rank < new.priority.rank)) <
        calls.count .tryNext) :
    e ∈ (run step h calls).popped := by
  induction calls generalizing h later with
  | nil => simp at hpops
  | cons call calls ih =>
    by_cases hnext : e ∈ (h.step call).popped
    · exact popped_run (h.step call) calls hnext
    have hheap : e ∈ h.queue.heap := by
      have hsplit := hs.accounted.symm.subset he
      exact (List.mem_append.mp hsplit).resolve_left fun hp => hnext (popped_step h call hp)
    have hs' := sound_step h call hs hcalls.1
    have he' := (accepted_step h call).subset he
    rw [run_cons] at hlater ⊢
    obtain ⟨rest,hrest⟩ := accepted_run (h.step call) calls
    refine ih hs' hcalls.2 he' hrest.symm ?_
    cases call with
    | enqueue job priority =>
      have hsplit : later = h.accepts job priority ++ rest := by
        have hboth := hlater.symm.trans hrest.symm
        simp only [step,List.append_assoc] at hboth
        exact List.append_cancel_left hboth
      have hcount : (QueueCall.enqueue job priority :: calls).count .tryNext =
          calls.count .tryNext := List.count_cons_of_ne (by simp)
      have hplace := place_enqueue hs hheap job priority
      rw [hsplit,List.countP_append,hcount] at hpops
      omega
    | tryNext =>
      have hcount : (QueueCall.tryNext :: calls).count .tryNext = calls.count .tryNext + 1 :=
        List.count_cons_self
      have hsplit : later = rest := List.append_cancel_left (hlater.symm.trans hrest.symm)
      have hplace := (place_tryNext hheap).resolve_left hnext
      rw [hsplit,hcount] at hpops
      omega
    | complete =>
      have hcount : (QueueCall.complete :: calls).count .tryNext = calls.count .tryNext :=
        List.count_cons_of_ne (by simp)
      have hsplit : later = rest := List.append_cancel_left (hlater.symm.trans hrest.symm)
      rw [hsplit,hcount] at hpops
      exact hpops

end continuations

/-- The books of a queue: what holds of it and of its history. -/
structure Books (h : QueueHistory) : Prop where
  pending : ∀ job, job ∈ h.queue.pending ↔ ∃ e ∈ h.queue.heap, e.job = job
  jobs : (h.queue.heap.map Entry.job).Nodup
  popped : h.popped ⊆ h.accepted
  once : ∀ e ∈ h.accepted, h.popped.count e + h.queue.heap.count e = 1
  /-- An entry is overtaken only by those of a higher priority that come later. -/
  drained : ∀ e ∈ h.accepted, ∀ calls later, Guarded step Allowed h calls →
    (run step h calls).accepted = h.accepted ++ later →
    h.queue.heap.idxOf e +
      later.countP (fun new => decide (e.priority.rank < new.priority.rank)) <
        calls.count .tryNext →
    (run step h calls).popped.count e = 1
  refused : h.queue.tryNext = none ↔ h.queue.heap = []
  first : ∀ job q, h.queue.tryNext = some (job,q) → ∃ e ∈ h.queue.heap, e.job = job ∧
    (h.step .tryNext).popped = h.popped ++ [e] ∧ ∀ e' ∈ h.queue.heap,
      e'.priority.rank < e.priority.rank ∨
        (e'.priority.rank = e.priority.rank ∧ h.accepted.idxOf e ≤ h.accepted.idxOf e')
  inFlight : h.queue.inFlight = h.popped.length - h.completed
  balanced : h.completed ≤ h.popped.length
  idle : h.queue.isIdle = true ↔ h.queue.heap = [] ∧ h.completed = h.popped.length

theorem popped_once {h : QueueHistory} (hs : h.Sound) {e : Entry} (he : e ∈ h.popped) :
    h.popped.count e = 1 := by
  have hcount := count_accounted hs (hs.accounted.subset (List.mem_append_left _ he))
  have hpos := List.count_pos_iff.mpr he
  omega

theorem tryNext_first {h : QueueHistory} (hs : h.Sound) {job : Job} {q : JobQueue}
    (hnext : h.queue.tryNext = some (job,q)) : ∃ e ∈ h.queue.heap, e.job = job ∧
      (h.step .tryNext).popped = h.popped ++ [e] ∧ ∀ e' ∈ h.queue.heap,
        e'.priority.rank < e.priority.rank ∨
          (e'.priority.rank = e.priority.rank ∧ h.accepted.idxOf e ≤ h.accepted.idxOf e') := by
  cases hheap : h.queue.heap with
  | nil =>
    rw [JobQueue.tryNext] at hnext
    simp [hheap] at hnext
  | cons e heap =>
    rw [tryNext_cons hheap] at hnext
    cases hnext
    refine ⟨e,List.mem_cons_self,rfl,?_,fun e' he' => ?_⟩
    · simp [step,hheap]
    · exact first_of_heap hs hheap (hheap ▸ he')

theorem books_of_sound {h : QueueHistory} (hs : h.Sound) : h.Books := by
  have hcount := hs.inFlight
  refine ⟨hs.pending,hs.jobs,?_,fun e he => count_accounted hs he,?_,?_,
    fun job q => tryNext_first hs,by omega,by omega,?_⟩
  · exact fun e he => hs.accounted.subset (List.mem_append_left _ he)
  · intro e he calls later hcalls hlater hpops
    exact popped_once (sound_run hs hcalls) (popped_of_pops hs hcalls he hlater hpops)
  · cases hheap : h.queue.heap with
    | nil =>
      rw [JobQueue.tryNext]
      simp [hheap]
    | cons e heap => simp [tryNext_cons hheap]
  · simp only [JobQueue.isIdle,Bool.and_eq_true,List.isEmpty_iff,decide_eq_true_eq]
    have hzero : h.queue.inFlight = 0 ↔ h.completed = h.popped.length := by omega
    rw [hzero]

/-- The books are in order after any sequence of calls. -/
theorem books_run {calls : List QueueCall} (hcalls : Guarded step Allowed {} calls) :
    (run step {} calls).Books := books_of_sound (sound_run sound_empty hcalls)

/-- A job enqueued again while it is handled is popped a second time. -/
theorem books_reenqueued : (run step {} [.enqueue (.parseFile ["a.tf"]) .low,.tryNext,
    .enqueue (.parseFile ["a.tf"]) .high,.complete,.tryNext]).Books :=
  books_run (by simp [Guarded,Allowed,step,JobQueue.enqueue])

end QueueHistory
end TerraformLs
