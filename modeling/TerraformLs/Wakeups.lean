import Mathlib.Logic.Function.Basic
import TerraformLs.JobQueue
import TerraformLs.Runs

/-! One consumer that loops on `next` and any number of producers that call
`enqueue`, in any order of their single steps. -/
namespace TerraformLs

/-- Where the consumer is. It checks the heap, is about to wait after a failed
check, is registered as a waiter, or handles the job it was given. -/
inductive ConsumerPhase
  | checking | waiting | parked | handling
  deriving DecidableEq

structure Wakeups (P : Type) where
  queue : JobQueue := {}
  /-- The permit that `notify_one` stores when nobody waits. -/
  permit : Bool := false
  consumer : ConsumerPhase := .checking
  /-- The producers that have pushed a job and not notified yet. -/
  notifying : P → Bool := fun _ => false

inductive WakeupAction (P : Type)
  | push (p : P) (job : Job) (priority : Priority)
  | notifyOne (p : P)
  | tryNext
  | notified
  | complete

namespace Wakeups

variable {P : Type} [DecidableEq P]

/-- A waiter is woken to check again, and a permit is stored when there is none. -/
def notifyOne (s : Wakeups P) : Wakeups P :=
  match s.consumer with
  | .parked => { s with consumer := .checking }
  | _ => { s with permit := true }

/-- A stored permit is taken, and else the consumer parks. -/
def notified (s : Wakeups P) : Wakeups P :=
  if s.permit then { s with permit := false, consumer := .checking }
  else { s with consumer := .parked }

def tryNext (s : Wakeups P) : Wakeups P :=
  match s.queue.tryNext with
  | some (_,queue) => { s with queue := queue, consumer := .handling }
  | none => { s with consumer := .waiting }

/-- A job that is pending already is neither pushed nor notified. -/
def push (s : Wakeups P) (p : P) (job : Job) (priority : Priority) : Wakeups P :=
  if job ∈ s.queue.pending then s else
    { s with
      queue := s.queue.enqueue job priority
      notifying := Function.update s.notifying p true }

def step (s : Wakeups P) : WakeupAction P → Wakeups P
  | .push p job priority => s.push p job priority
  | .notifyOne p => { s.notifyOne with notifying := Function.update s.notifying p false }
  | .tryNext => s.tryNext
  | .notified => s.notified
  | .complete => { s with queue := s.queue.complete, consumer := .checking }

/-- What a producer or the consumer can do next. -/
def Enabled (s : Wakeups P) : WakeupAction P → Prop
  | .push p _ _ => s.notifying p = false
  | .notifyOne p => s.notifying p = true
  | .tryNext => s.consumer = .checking
  | .notified => s.consumer = .waiting
  | .complete => s.consumer = .handling

/-- A consumer past its check has missed no job, unless a wakeup is on its way. -/
structure Awake (s : Wakeups P) : Prop where
  parked : s.consumer = .parked → s.permit = false
  missed : s.consumer = .waiting ∨ s.consumer = .parked →
    s.queue.heap = [] ∨ s.permit = true ∨ ∃ p, s.notifying p = true

omit [DecidableEq P] in
theorem awake_start : Awake ({} : Wakeups P) := by
  refine ⟨fun h => ?_,fun h => ?_⟩
  · cases h
  · rcases h with h | h <;> cases h

theorem awake_push {s : Wakeups P} (hs : s.Awake) (p : P) (job : Job) (priority : Priority) :
    (s.push p job priority).Awake := by
  by_cases hp : job ∈ s.queue.pending
  · rw [push,if_pos hp]
    exact hs
  · rw [push,if_neg hp]
    refine ⟨hs.parked,fun _ => .inr (.inr ⟨p,?_⟩)⟩
    simp

theorem awake_notifyOne (s : Wakeups P) (p : P) :
    (s.step (.notifyOne p)).Awake := by
  cases hphase : s.consumer with
  | parked =>
    simp only [step,notifyOne,hphase]
    refine ⟨fun h => ?_,fun h => ?_⟩
    · cases h
    · rcases h with h | h <;> cases h
  | _ =>
    simp only [step,notifyOne,hphase]
    refine ⟨fun h => ?_,fun _ => .inr (.inl rfl)⟩
    cases h

omit [DecidableEq P] in
theorem awake_tryNext {s : Wakeups P} : s.tryNext.Awake := by
  cases hnext : s.queue.tryNext with
  | none =>
    have hheap : s.queue.heap = [] := by
      cases hheap : s.queue.heap with
      | nil => rfl
      | cons e heap =>
        rw [JobQueue.tryNext] at hnext
        simp [hheap] at hnext
    simp only [tryNext,hnext]
    refine ⟨fun h => ?_,fun _ => .inl hheap⟩
    cases h
  | some popped =>
    simp only [tryNext,hnext]
    refine ⟨fun h => ?_,fun h => ?_⟩
    · cases h
    · rcases h with h | h <;> cases h

omit [DecidableEq P] in
theorem awake_notified {s : Wakeups P} (hs : s.Awake) (hphase : s.consumer = .waiting) :
    s.notified.Awake := by
  by_cases hpermit : s.permit
  · rw [notified,if_pos hpermit]
    refine ⟨fun h => ?_,fun h => ?_⟩
    · cases h
    · rcases h with h | h <;> cases h
  · rw [notified,if_neg hpermit]
    have hmissed := hs.missed (.inl hphase)
    exact ⟨fun _ => by simpa using hpermit,fun _ => hmissed⟩

theorem awake_step (s : Wakeups P) (action : WakeupAction P) (hs : s.Awake)
    (henabled : s.Enabled action) : (s.step action).Awake := by
  cases action with
  | push p job priority => exact awake_push hs p job priority
  | notifyOne p => exact awake_notifyOne s p
  | tryNext => exact awake_tryNext
  | notified => exact awake_notified hs henabled
  | complete =>
    refine ⟨fun h => ?_,fun h => ?_⟩
    · cases h
    · rcases h with h | h <;> cases h

theorem awake_run {s : Wakeups P} (hs : s.Awake) {actions : List (WakeupAction P)}
    (hactions : Guarded step Enabled s actions) : (run step s actions).Awake :=
  (throughout_of_guarded awake_step hs hactions).final

/-- No wakeup is lost. -/
theorem no_lost_wakeup {actions : List (WakeupAction P)}
    (hactions : Guarded step Enabled {} actions)
    (hparked : (run step {} actions).consumer = .parked)
    (hnotified : ∀ p, (run step {} actions).notifying p = false) :
    (run step {} actions).queue.heap = [] := by
  have hawake := awake_run awake_start hactions
  have hpermit := hawake.parked hparked
  rcases hawake.missed (.inr hparked) with hheap | hstored | ⟨p,hp⟩
  · exact hheap
  · rw [hpermit] at hstored
    cases hstored
  · rw [hnotified p] at hp
    cases hp

/-- A job is pushed after the check failed and notified before the wait. -/
theorem permit_between : (run step ({} : Wakeups Bool) [.tryNext,
    .push true (.parseFile ["a.tf"]) .low,.notifyOne true,.notified,.tryNext,.complete,
    .tryNext,.notified]).queue.heap = [] :=
  no_lost_wakeup ⟨rfl,rfl,rfl,rfl,rfl,rfl,rfl,rfl,trivial⟩ rfl (by decide)

end Wakeups
end TerraformLs
