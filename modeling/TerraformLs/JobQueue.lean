import Mathlib.Data.Finset.Basic
import Mathlib.Data.List.Sort
import TerraformLs.Symbols

/-! The priority queue of background jobs. The heap is kept as the list of its
entries in the order they are popped. -/
namespace TerraformLs

inductive Job
  | parseFile (path : Path)
  | reparseDocument (uri : Url)
  | fetchSchemas (workingDir : Path)
  | fetchFunctions (binary : Path)
  | scanDirectory (dir : Path)
  | bulkWorkspaceScan (root : Path)
  deriving DecidableEq

inductive Priority
  | low | normal | high | immediate
  deriving DecidableEq

def Priority.rank : Priority → ℕ
  | .low => 0
  | .normal => 1
  | .high => 2
  | .immediate => 3

/-- The sequence number breaks ties, first come first served. -/
structure Entry where
  priority : Priority
  seq : ℕ
  job : Job
  deriving DecidableEq

/-- The entry is popped before the other. -/
def Entry.Before (a b : Entry) : Prop :=
  b.priority.rank < a.priority.rank ∨ (a.priority.rank = b.priority.rank ∧ a.seq ≤ b.seq)

instance : DecidableRel Entry.Before := fun _ _ => inferInstanceAs (Decidable (_ ∨ _))

structure JobQueue where
  heap : List Entry := []
  /-- The jobs of the heap, for deduplication. -/
  pending : Finset Job := ∅
  /-- Jobs popped and not completed yet. -/
  inFlight : ℕ := 0
  seq : ℕ := 0

namespace JobQueue

/-- A job that is already queued is not added again. -/
def enqueue (q : JobQueue) (job : Job) (priority : Priority) : JobQueue :=
  if job ∈ q.pending then q else
    { q with
      heap := q.heap.orderedInsert Entry.Before ⟨priority,q.seq+1,job⟩
      pending := insert job q.pending
      seq := q.seq+1 }

def tryNext (q : JobQueue) : Option (Job × JobQueue) :=
  match q.heap with
  | [] => none
  | e::heap =>
    some (e.job,{ q with heap := heap, pending := q.pending.erase e.job, inFlight := q.inFlight+1 })

def complete (q : JobQueue) : JobQueue := { q with inFlight := q.inFlight - 1 }

def isIdle (q : JobQueue) : Bool := q.heap.isEmpty && q.inFlight = 0

def Queued (q : JobQueue) (job : Job) : Prop := ∃ e ∈ q.heap, e.job = job

instance (q : JobQueue) (job : Job) : Decidable (q.Queued job) :=
  inferInstanceAs (Decidable (∃ e ∈ q.heap, e.job = job))

/-- Every pending job has its entry in the heap. -/
def PendingQueued (q : JobQueue) : Prop := ∀ job ∈ q.pending, q.Queued job

theorem pendingQueued_empty : PendingQueued {} := by simp [PendingQueued]

theorem queued_enqueue {q : JobQueue} (h : q.PendingQueued) (job job' : Job) (priority : Priority) :
    (q.enqueue job priority).Queued job' ↔ job' = job ∨ q.Queued job' := by
  unfold enqueue
  split
  · rename_i hp
    constructor
    · exact .inr
    · rintro (rfl | hq)
      · exact h _ hp
      · exact hq
  · simp [Queued,eq_comm]

theorem pendingQueued_enqueue {q : JobQueue} (h : q.PendingQueued) (job : Job)
    (priority : Priority) : (q.enqueue job priority).PendingQueued := by
  intro job' hp
  rw [queued_enqueue h]
  unfold enqueue at hp
  split at hp
  · exact .inr (h job' hp)
  · rcases Finset.mem_insert.mp hp with rfl | hp
    · exact .inl rfl
    · exact .inr (h job' hp)

/-- What is queued is the job popped and what is left. -/
theorem queued_of_tryNext {q q' : JobQueue} {job : Job} (h : q.tryNext = some (job,q'))
    (job' : Job) : q.Queued job' ↔ job' = job ∨ q'.Queued job' := by
  unfold tryNext at h
  split at h
  · cases h
  · rename_i e heap hheap
    cases h
    simp [Queued,hheap,eq_comm]

theorem pendingQueued_tryNext {q q' : JobQueue} {job : Job} (hq : q.PendingQueued)
    (h : q.tryNext = some (job,q')) : q'.PendingQueued := by
  have hqueued := queued_of_tryNext h
  unfold tryNext at h
  split at h
  · cases h
  · cases h
    intro job' hp
    obtain ⟨hne,hp⟩ := Finset.mem_erase.mp hp
    exact ((hqueued job').mp (hq job' hp)).resolve_left hne

theorem inFlight_tryNext {q q' : JobQueue} {job : Job} (h : q.tryNext = some (job,q')) :
    q'.inFlight = q.inFlight + 1 := by
  unfold tryNext at h
  split at h
  · cases h
  · cases h
    rfl

@[simp] theorem enqueue_inFlight (q : JobQueue) (job : Job) (priority : Priority) :
    (q.enqueue job priority).inFlight = q.inFlight := by
  unfold enqueue
  split <;> rfl

@[simp] theorem complete_queued (q : JobQueue) (job : Job) : q.complete.Queued job ↔ q.Queued job :=
  Iff.rfl

@[simp] theorem complete_pendingQueued (q : JobQueue) :
    q.complete.PendingQueued ↔ q.PendingQueued := Iff.rfl

theorem not_queued_of_idle {q : JobQueue} (h : q.isIdle) (job : Job) : ¬q.Queued job := by
  simp only [isIdle,Bool.and_eq_true,List.isEmpty_iff] at h
  simp [Queued,h.1]

end JobQueue
end TerraformLs
