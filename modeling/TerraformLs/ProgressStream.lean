import Mathlib.Data.List.Infix
import TerraformLs.Runs

/-! The notifications of one progress token. The owner of the reporter sends `Begin`
itself; reports and `End` pass through a queue that a drain task writes out. -/
namespace TerraformLs

inductive DrainMsg
  | report (message : Option String) (percentage : Option ℕ)
  | finish (message : Option String)
  deriving DecidableEq

inductive WorkDoneProgress
  | started (title : String)
  | report (message : Option String) (percentage : Option ℕ)
  | finished (message : Option String)
  deriving DecidableEq

def DrainMsg.notification : DrainMsg → WorkDoneProgress
  | .report message percentage => .report message percentage
  | .finish message => .finished message

/-- Where the task is that calls `begin` and owns the reporter. A send is awaited
until there is room for the notification, and after it is handed over until it is
flushed. The future of `end` may be built and never polled. -/
inductive OwnerPhase
  | starting | creating | sending | flushing | reporting
  | ending (message : Option String)
  | joining | gone
  deriving DecidableEq

inductive DrainPhase
  | absent | receiving
  | sending (msg : DrainMsg)
  | flushing (msg : DrainMsg)
  | done
  deriving DecidableEq

structure ProgressStream where
  title : String
  owner : OwnerPhase := .starting
  /-- The `ReportSender`s that are alive. -/
  senders : ℕ := 0
  queue : List DrainMsg := []
  drain : DrainPhase := .absent
  /-- What the client was given for the token. -/
  wire : List WorkDoneProgress := []
  /-- Every message that was ever enqueued. -/
  log : List DrainMsg := []
  deriving DecidableEq

inductive ProgressAction
  | checkSupport (supported : Bool)
  | answerCreate (accepted : Bool)
  | handBegin
  | begun
  | report (message : Option String) (percentage : Option ℕ)
  | sender
  | callEnd (message : Option String)
  | pollEnd
  | joined
  /-- A return, a panic, or a cancellation at an await. -/
  | vanish
  | cloneSender
  | sendReport (message : Option String) (percentage : Option ℕ)
  | dropSender
  | receive
  | hand
  | flushed
  deriving DecidableEq

namespace ProgressStream

/-- A message is lost when there is no receiver. -/
def enqueue (s : ProgressStream) (msg : DrainMsg) : ProgressStream :=
  if s.drain = .absent ∨ s.drain = .done then s
  else { s with queue := s.queue ++ [msg], log := s.log ++ [msg] }

/-- The reporter keeps a sender of the channel for as long as it is owned. -/
def hasSender (s : ProgressStream) : Bool :=
  match s.owner with
  | .reporting | .ending _ | .joining => true
  | _ => 0 < s.senders

/-- The reporter is dropped with its owner, and then enqueues an `End` unless `end`
did. Before `begin` returns there is no reporter. -/
def vanish (s : ProgressStream) : ProgressStream :=
  match s.owner with
  | .reporting | .ending _ => { s.enqueue (.finish (some "cancelled")) with owner := .gone }
  | _ => { s with owner := .gone }

/-- `recv` returns `None` when the queue is empty and no sender is left. -/
def receive (s : ProgressStream) : ProgressStream :=
  match s.queue with
  | msg::queue => { s with queue := queue, drain := .sending msg }
  | [] => if s.hasSender then s else { s with drain := .done }

/-- After an `End` the drain task stops, and the receiver is dropped. -/
def flushed (s : ProgressStream) : ProgressStream :=
  match s.drain with
  | .flushing (.report _ _) => { s with drain := .receiving }
  | .flushing (.finish _) => { s with drain := .done, queue := [] }
  | _ => s

/-- An action that cannot be taken changes nothing. -/
def step (s : ProgressStream) : ProgressAction → ProgressStream
  | .checkSupport supported =>
    if s.owner = .starting then { s with owner := if supported then .creating else .gone } else s
  | .answerCreate accepted =>
    if s.owner = .creating then { s with owner := if accepted then .sending else .gone } else s
  | .handBegin =>
    if s.owner = .sending then
      { s with owner := .flushing, wire := s.wire ++ [.started s.title] } else s
  | .begun =>
    if s.owner = .flushing then { s with owner := .reporting, drain := .receiving } else s
  | .report message percentage =>
    if s.owner = .reporting then s.enqueue (.report message percentage) else s
  | .sender => if s.owner = .reporting then { s with senders := s.senders + 1 } else s
  | .callEnd message => if s.owner = .reporting then { s with owner := .ending message } else s
  | .pollEnd =>
    match s.owner with
    | .ending message => { s.enqueue (.finish message) with owner := .joining }
    | _ => s
  | .joined => if s.owner = .joining ∧ s.drain = .done then { s with owner := .gone } else s
  | .vanish => s.vanish
  | .cloneSender => if 0 < s.senders then { s with senders := s.senders + 1 } else s
  | .sendReport message percentage =>
    if 0 < s.senders then s.enqueue (.report message percentage) else s
  | .dropSender => { s with senders := s.senders - 1 }
  | .receive => if s.drain = .receiving then s.receive else s
  | .hand =>
    match s.drain with
    | .sending msg => { s with drain := .flushing msg, wire := s.wire ++ [msg.notification] }
    | _ => s
  | .flushed => s.flushed

/-! What a well-formed stream is. -/

/-- All tasks are gone. -/
def Final (s : ProgressStream) : Prop :=
  s.owner = .gone ∧ (s.drain = .absent ∨ s.drain = .done)

/-- Reports only. -/
def NoFinish (l : List DrainMsg) : Prop := ∀ msg ∈ l, ∃ m p, msg = .report m p

/-- `Begin`, then reports, then `End`. What was enqueued before `End` is written before
it, and a token that was begun is ended. -/
structure WellFormed (s : ProgressStream) : Prop where
  form : ∃ reports message, NoFinish reports ∧
    s.wire <+: .started s.title :: reports.map DrainMsg.notification ++ [.finished message]
  last : ∀ front message back, s.wire = front ++ .finished message :: back → back = []
  ordered : ∀ before message after, s.log = before ++ .finish message :: after →
    ∀ front ending, s.wire = front ++ [.finished ending] →
      front = .started s.title :: before.map DrainMsg.notification ∧ ending = message
  enqueued : s.owner = .gone → .started s.title ∈ s.wire →
    ∃ message, DrainMsg.finish message ∈ s.log
  ended : s.Final → .started s.title ∈ s.wire → ∃ message, .finished message ∈ s.wire

/-! The invariant of all runs. -/

/-- One `End` among reports. -/
def OneFinish (l : List DrainMsg) : Prop :=
  ∃ before message after, l = before ++ DrainMsg.finish message :: after ∧
    NoFinish before ∧ NoFinish after

/-- There is no channel before `begin` returns. -/
structure Unopened (s : ProgressStream) : Prop where
  drain : s.drain = .absent
  queue : s.queue = []
  log : s.log = []
  senders : s.senders = 0
  owner : (s.owner = .starting ∨ s.owner = .creating ∨ s.owner = .sending ∨ s.owner = .gone) ∧
    s.wire = [] ∨ (s.owner = .flushing ∨ s.owner = .gone) ∧ s.wire = [.started s.title]

/-- The drain task has written `handed`, all of it reports, and handles the message
after it. -/
def Drained (s : ProgressStream) (handed : List DrainMsg) : Prop :=
  NoFinish handed ∧
  match s.drain with
  | .absent => False
  | .receiving => s.wire = .started s.title :: handed.map DrainMsg.notification ∧
      s.log = handed ++ s.queue
  | .sending msg => s.wire = .started s.title :: handed.map DrainMsg.notification ∧
      s.log = handed ++ msg :: s.queue
  | .flushing msg => s.wire = .started s.title :: (handed ++ [msg]).map DrainMsg.notification ∧
      s.log = handed ++ msg :: s.queue
  | .done => ∃ message rest, s.wire =
      .started s.title :: (handed ++ [DrainMsg.finish message]).map DrainMsg.notification ∧
      s.log = handed ++ .finish message :: rest

/-- Once there is a channel, `End` is enqueued when the reporter is given up. -/
structure Opened (s : ProgressStream) : Prop where
  drained : ∃ handed, s.Drained handed
  owner : ((s.owner = .reporting ∨ ∃ message, s.owner = .ending message) ∧ NoFinish s.log) ∨
    ((s.owner = .joining ∨ s.owner = .gone) ∧ OneFinish s.log)

def Inv (s : ProgressStream) : Prop := s.Unopened ∨ s.Opened

section enqueue

variable (s : ProgressStream) (msg : DrainMsg)

@[simp] theorem enqueue_title : (s.enqueue msg).title = s.title := by
  rw [enqueue]; split_ifs <;> rfl

@[simp] theorem enqueue_owner : (s.enqueue msg).owner = s.owner := by
  rw [enqueue]; split_ifs <;> rfl

@[simp] theorem enqueue_senders : (s.enqueue msg).senders = s.senders := by
  rw [enqueue]; split_ifs <;> rfl

@[simp] theorem enqueue_drain : (s.enqueue msg).drain = s.drain := by
  rw [enqueue]; split_ifs <;> rfl

@[simp] theorem enqueue_wire : (s.enqueue msg).wire = s.wire := by
  rw [enqueue]; split_ifs <;> rfl

end enqueue

theorem NoFinish.append {l l' : List DrainMsg} (h : NoFinish l) (h' : NoFinish l') :
    NoFinish (l ++ l') := List.forall_mem_append.mpr ⟨h,h'⟩

theorem noFinish_report (m : Option String) (p : Option ℕ) : NoFinish [.report m p] :=
  List.forall_mem_singleton.mpr ⟨m,p,rfl⟩

theorem NoFinish.not_mem {l : List DrainMsg} (h : NoFinish l) (message : Option String) :
    DrainMsg.finish message ∉ l := fun hmem => by
  obtain ⟨m,p,hreport⟩ := h _ hmem
  cases hreport

/-- The place of the one `End` is unique. -/
theorem finish_place {before after l l' : List DrainMsg} {m m' : Option String}
    (h : before ++ .finish m :: after = l ++ .finish m' :: l') (hl : NoFinish l)
    (hl' : NoFinish l') : before = l ∧ m = m' := by
  rcases List.append_eq_append_iff.mp h with ⟨mid,rfl,hmid⟩ | ⟨mid,rfl,hmid⟩
  · cases mid with
    | nil => exact ⟨by simp,DrainMsg.finish.inj (List.cons.inj hmid).1⟩
    | cons msg mid =>
      obtain ⟨rfl,-⟩ := List.cons.inj hmid
      exact absurd (by simp) (hl.not_mem m)
  · cases mid with
    | nil => exact ⟨by simp,(DrainMsg.finish.inj (List.cons.inj hmid).1).symm⟩
    | cons msg mid =>
      obtain ⟨-,rfl⟩ := List.cons.inj hmid
      exact absurd (by simp) (hl'.not_mem m)

/-! Every step keeps the invariant. -/

theorem Drained.enqueue {s : ProgressStream} {handed : List DrainMsg} (h : s.Drained handed)
    (msg : DrainMsg) : (s.enqueue msg).Drained handed := by
  obtain ⟨hreports,h⟩ := h
  refine ⟨hreports,?_⟩
  rw [ProgressStream.enqueue]
  cases hdrain : s.drain with
  | absent => simp [hdrain] at h
  | receiving => simpa [hdrain,← List.append_assoc] using h
  | sending m =>
    simp only [hdrain] at h
    simp [h.1,h.2]
  | flushing m =>
    simp only [hdrain] at h
    simp [h.1,h.2]
  | done => simpa [hdrain] using h

theorem Drained.log_enqueue {s : ProgressStream} {handed : List DrainMsg} (h : s.Drained handed)
    (msg : DrainMsg) : (s.enqueue msg).log = s.log ++ [msg] ∨
      s.drain = .done ∧ (s.enqueue msg).log = s.log := by
  have hpresent : s.drain ≠ .absent := fun habsent => by
    have hfalse := h.2
    rw [habsent] at hfalse
    exact hfalse
  rw [ProgressStream.enqueue]
  by_cases hdone : s.drain = .done
  · exact .inr ⟨hdone,by simp [hdone]⟩
  · exact .inl (by simp [hdone,hpresent])

/-- A drain task that stopped has seen an `End`. -/
theorem Drained.not_done {s : ProgressStream} {handed : List DrainMsg} (h : s.Drained handed)
    (hlog : NoFinish s.log) : s.drain ≠ .done := fun hdone => by
  have hdrained := h.2
  rw [hdone] at hdrained
  obtain ⟨message,rest,-,heq⟩ := hdrained
  obtain ⟨m,p,hm⟩ := hlog (.finish message) (by simp [heq])
  cases hm

theorem OneFinish.append {l : List DrainMsg} (h : OneFinish l) {l' : List DrainMsg}
    (h' : NoFinish l') : OneFinish (l ++ l') := by
  obtain ⟨before,message,after,rfl,hbefore,hafter⟩ := h
  exact ⟨before,message,after ++ l',by simp,hbefore,hafter.append h'⟩

/-- A report is enqueued, whoever sends it. -/
theorem Opened.report {s : ProgressStream} (h : s.Opened) (m : Option String) (p : Option ℕ) :
    (s.enqueue (.report m p)).Opened := by
  obtain ⟨handed,hdrained⟩ := h.drained
  refine ⟨⟨handed,hdrained.enqueue _⟩,?_⟩
  rw [enqueue_owner]
  rcases hdrained.log_enqueue (.report m p) with hlog | ⟨-,hlog⟩
  · rw [hlog]
    rcases h.owner with ⟨howner,hreports⟩ | ⟨howner,hfinish⟩
    · exact .inl ⟨howner,hreports.append (noFinish_report m p)⟩
    · exact .inr ⟨howner,hfinish.append (noFinish_report m p)⟩
  · rw [hlog]
    exact h.owner

/-- The reporter is given up with an `End`. -/
theorem Opened.finish {s : ProgressStream} (h : s.Opened) (hreports : NoFinish s.log)
    (message : Option String) {owner : OwnerPhase} (howner : owner = .joining ∨ owner = .gone) :
    Opened { s.enqueue (.finish message) with owner := owner } := by
  obtain ⟨handed,hdrained⟩ := h.drained
  refine ⟨⟨handed,hdrained.enqueue _⟩,.inr ⟨howner,?_⟩⟩
  rcases hdrained.log_enqueue (.finish message) with hlog | ⟨hdone,-⟩
  · exact ⟨s.log,message,[],hlog,hreports,by simp [NoFinish]⟩
  · exact absurd hdone (hdrained.not_done hreports)

theorem Opened.reports {s : ProgressStream} (h : s.Opened)
    (howner : s.owner = .reporting ∨ ∃ message, s.owner = .ending message) : NoFinish s.log := by
  rcases h.owner with ⟨-,hreports⟩ | ⟨hleft,-⟩
  · exact hreports
  · rcases howner with howner | ⟨message,howner⟩ <;> simp [howner] at hleft

theorem Opened.not_before {s : ProgressStream} (h : s.Opened) {owner : OwnerPhase}
    (howner : s.owner = owner) : owner ≠ .starting ∧ owner ≠ .creating ∧ owner ≠ .sending ∧
      owner ≠ .flushing := by
  subst howner
  rcases h.owner with ⟨hheld | ⟨message,hheld⟩,-⟩ | ⟨hleft | hleft,-⟩ <;> simp [*]

theorem Opened.vanish {s : ProgressStream} (h : s.Opened) : s.vanish.Opened := by
  cases howner : s.owner with
  | reporting =>
    simp only [ProgressStream.vanish,howner]
    exact h.finish (h.reports (.inl howner)) _ (.inr rfl)
  | ending message =>
    simp only [ProgressStream.vanish,howner]
    exact h.finish (h.reports (.inr ⟨message,howner⟩)) _ (.inr rfl)
  | joining =>
    simp only [ProgressStream.vanish,howner]
    refine ⟨h.drained,.inr ⟨.inr rfl,?_⟩⟩
    rcases h.owner with ⟨hheld,-⟩ | ⟨-,hfinish⟩
    · simp [howner] at hheld
    · exact hfinish
  | gone =>
    simp only [ProgressStream.vanish,howner]
    have hsame : { s with owner := .gone } = s := by rw [← howner]
    rw [hsame]
    exact h
  | _ => exact absurd howner (by simpa using h.not_before howner)

/-- While the owner holds the reporter or an `End` waits, the drain task goes on. -/
theorem Opened.receive {s : ProgressStream} (h : s.Opened) (hdrain : s.drain = .receiving) :
    s.receive.Opened := by
  obtain ⟨handed,hreports,hdrained⟩ := h.drained
  rw [hdrain] at hdrained
  cases hqueue : s.queue with
  | cons msg queue =>
    simp only [ProgressStream.receive,hqueue]
    rw [hqueue] at hdrained
    exact ⟨⟨handed,hreports,hdrained⟩,h.owner⟩
  | nil =>
    simp only [ProgressStream.receive,hqueue]
    have hlog : NoFinish s.log := by
      rw [hdrained.2,hqueue,List.append_nil]
      exact hreports
    have hsender : s.hasSender := by
      rcases h.owner with ⟨hheld | ⟨message,hheld⟩,-⟩ | ⟨-,before,message,after,heq,-⟩
      · simp [hasSender,hheld]
      · simp [hasSender,hheld]
      · obtain ⟨m,p,hm⟩ := hlog (.finish message) (by simp [heq])
        cases hm
    rw [if_pos hsender]
    exact h

theorem Opened.hand {s : ProgressStream} (h : s.Opened) : (s.step .hand).Opened := by
  obtain ⟨handed,hreports,hdrained⟩ := h.drained
  cases hdrain : s.drain with
  | sending msg =>
    rw [hdrain] at hdrained
    simp only [step,hdrain]
    refine ⟨⟨handed,hreports,?_,hdrained.2⟩,h.owner⟩
    simp [hdrained.1]
  | _ => simpa only [step,hdrain] using h

theorem Opened.flushed {s : ProgressStream} (h : s.Opened) : s.flushed.Opened := by
  obtain ⟨handed,hreports,hdrained⟩ := h.drained
  cases hdrain : s.drain with
  | flushing msg =>
    rw [hdrain] at hdrained
    cases msg with
    | report m p =>
      simp only [ProgressStream.flushed,hdrain]
      refine ⟨⟨handed ++ [.report m p],hreports.append (noFinish_report m p),?_⟩,h.owner⟩
      simpa using hdrained
    | finish message =>
      simp only [ProgressStream.flushed,hdrain]
      exact ⟨⟨handed,hreports,message,s.queue,hdrained⟩,h.owner⟩
  | _ => simpa only [ProgressStream.flushed,hdrain] using h

theorem Opened.step {s : ProgressStream} (h : s.Opened) (a : ProgressAction) :
    (s.step a).Opened := by
  cases a with
  | checkSupport supported =>
    have howner := h.not_before rfl
    simpa [ProgressStream.step,howner.1] using h
  | answerCreate accepted =>
    have howner := h.not_before rfl
    simpa [ProgressStream.step,howner.2.1] using h
  | handBegin =>
    have howner := h.not_before rfl
    simpa [ProgressStream.step,howner.2.2.1] using h
  | begun =>
    have howner := h.not_before rfl
    simpa [ProgressStream.step,howner.2.2.2] using h
  | report m p =>
    rw [ProgressStream.step]
    split_ifs
    · exact h.report m p
    · exact h
  | sender =>
    rw [ProgressStream.step]
    split_ifs
    · exact ⟨h.drained,h.owner⟩
    · exact h
  | callEnd message =>
    rw [ProgressStream.step]
    split_ifs with howner
    · exact ⟨h.drained,.inl ⟨.inr ⟨message,rfl⟩,h.reports (.inl howner)⟩⟩
    · exact h
  | pollEnd =>
    cases howner : s.owner with
    | ending message =>
      simp only [ProgressStream.step,howner]
      exact h.finish (h.reports (.inr ⟨message,howner⟩)) _ (.inl rfl)
    | _ => simpa only [ProgressStream.step,howner] using h
  | joined =>
    rw [ProgressStream.step]
    split_ifs with hjoined
    · refine ⟨h.drained,.inr ⟨.inr rfl,?_⟩⟩
      rcases h.owner with ⟨hheld,-⟩ | ⟨-,hfinish⟩
      · simp [hjoined.1] at hheld
      · exact hfinish
    · exact h
  | vanish => exact h.vanish
  | cloneSender =>
    rw [ProgressStream.step]
    split_ifs
    · exact ⟨h.drained,h.owner⟩
    · exact h
  | sendReport m p =>
    rw [ProgressStream.step]
    split_ifs
    · exact h.report m p
    · exact h
  | dropSender => exact ⟨h.drained,h.owner⟩
  | receive =>
    rw [ProgressStream.step]
    split_ifs with hdrain
    · exact h.receive hdrain
    · exact h
  | hand => exact h.hand
  | flushed => exact h.flushed

/-- Before `begin` returns there is no reporter. -/
theorem Unopened.owner_ne {s : ProgressStream} (h : s.Unopened) : s.owner ≠ .reporting ∧
    s.owner ≠ .joining ∧ ∀ message, s.owner ≠ .ending message := by
  rcases h.owner with ⟨ho | ho | ho | ho,-⟩ | ⟨ho | ho,-⟩ <;> simp [ho]

theorem Unopened.vanish {s : ProgressStream} (h : s.Unopened) :
    s.vanish = { s with owner := .gone } := by
  cases ho : s.owner with
  | reporting => exact absurd ho h.owner_ne.1
  | ending message => exact absurd ho (h.owner_ne.2.2 message)
  | _ => simp only [ProgressStream.vanish,ho]

theorem Unopened.pollEnd {s : ProgressStream} (h : s.Unopened) : s.step .pollEnd = s := by
  cases ho : s.owner with
  | ending message => exact absurd ho (h.owner_ne.2.2 message)
  | _ => simp only [ProgressStream.step,ho]

theorem Unopened.step {s : ProgressStream} (h : s.Unopened) (a : ProgressAction) :
    (s.step a).Inv := by
  obtain ⟨hreporting,hjoining,-⟩ := h.owner_ne
  cases a with
  | checkSupport supported =>
    rw [ProgressStream.step]
    split_ifs with hstart
    · refine .inl ⟨h.drain,h.queue,h.log,h.senders,.inl ⟨by simp,?_⟩⟩
      simpa [hstart] using h.owner
    · refine .inl ⟨h.drain,h.queue,h.log,h.senders,.inl ⟨by simp,?_⟩⟩
      simpa [hstart] using h.owner
    · exact .inl h
  | answerCreate accepted =>
    rw [ProgressStream.step]
    split_ifs with hcreate
    · refine .inl ⟨h.drain,h.queue,h.log,h.senders,.inl ⟨by simp,?_⟩⟩
      simpa [hcreate] using h.owner
    · refine .inl ⟨h.drain,h.queue,h.log,h.senders,.inl ⟨by simp,?_⟩⟩
      simpa [hcreate] using h.owner
    · exact .inl h
  | handBegin =>
    rw [ProgressStream.step]
    split_ifs with hsend
    · have hwire : s.wire = [] := by simpa [hsend] using h.owner
      exact .inl ⟨h.drain,h.queue,h.log,h.senders,.inr ⟨.inl rfl,by simp [hwire]⟩⟩
    · exact .inl h
  | begun =>
    rw [ProgressStream.step]
    split_ifs with hflush
    · have hwire : s.wire = [.started s.title] := by simpa [hflush] using h.owner
      have hnone : NoFinish [] := by simp [NoFinish]
      refine .inr ⟨⟨[],hnone,?_⟩,.inl ⟨.inl rfl,?_⟩⟩
      · simp [hwire,h.log,h.queue]
      · simpa only [h.log] using hnone
    · exact .inl h
  | vanish =>
    rw [ProgressStream.step,h.vanish]
    refine .inl ⟨h.drain,h.queue,h.log,h.senders,?_⟩
    rcases h.owner with ⟨-,hwire⟩ | ⟨-,hwire⟩
    · exact .inl ⟨by simp,hwire⟩
    · exact .inr ⟨by simp,hwire⟩
  | pollEnd => exact .inl (h.pollEnd.symm ▸ h)
  | dropSender =>
    exact .inl ⟨h.drain,h.queue,h.log,by simp [ProgressStream.step,h.senders],h.owner⟩
  | report m p => simpa [ProgressStream.step,hreporting] using .inl h
  | sender => simpa [ProgressStream.step,hreporting] using .inl h
  | callEnd message => simpa [ProgressStream.step,hreporting] using .inl h
  | joined => simpa [ProgressStream.step,hjoining] using .inl h
  | cloneSender => simpa [ProgressStream.step,h.senders] using .inl h
  | sendReport m p => simpa [ProgressStream.step,h.senders] using .inl h
  | receive => simpa [ProgressStream.step,h.drain] using .inl h
  | hand => simpa [ProgressStream.step,h.drain] using .inl h
  | flushed => simpa [ProgressStream.step,ProgressStream.flushed,h.drain] using .inl h

theorem inv_step {s : ProgressStream} (h : s.Inv) (a : ProgressAction) : (s.step a).Inv := by
  rcases h with h | h
  · exact h.step a
  · exact .inr (h.step a)

/-! A stream is well formed unless it was orphaned before there was a reporter. -/

/-- `Begin` was handed over and the owner is gone without a reporter. -/
def Orphaned (s : ProgressStream) : Prop := s.owner = .gone ∧ s.drain = .absent ∧ s.wire ≠ []

theorem finished_not_mem {title : String} {handed : List DrainMsg} (h : NoFinish handed)
    (message : Option String) : WorkDoneProgress.finished message ∉
      WorkDoneProgress.started title :: handed.map DrainMsg.notification := by
  intro hmem
  rcases List.mem_cons.mp hmem with heq | hmem
  · cases heq
  · obtain ⟨msg,hmsg,heq⟩ := List.mem_map.mp hmem
    obtain ⟨m,p,rfl⟩ := h msg hmsg
    cases heq

/-- Either only reports are written, or an `End` after those before it. -/
theorem Opened.wire_cases {s : ProgressStream} (h : s.Opened) : ∃ handed, NoFinish handed ∧
    (s.drain ≠ .done ∧ s.wire = .started s.title :: handed.map DrainMsg.notification ∨
      ∃ message rest, s.log = handed ++ .finish message :: rest ∧ s.wire =
        .started s.title :: handed.map DrainMsg.notification ++ [.finished message]) := by
  obtain ⟨handed,hreports,hdrained⟩ := h.drained
  cases hdrain : s.drain with
  | absent => simp [hdrain] at hdrained
  | receiving =>
    rw [hdrain] at hdrained
    exact ⟨handed,hreports,.inl ⟨by simp,hdrained.1⟩⟩
  | sending msg =>
    rw [hdrain] at hdrained
    exact ⟨handed,hreports,.inl ⟨by simp,hdrained.1⟩⟩
  | flushing msg =>
    rw [hdrain] at hdrained
    cases msg with
    | report m p =>
      exact ⟨handed ++ [.report m p],hreports.append (noFinish_report m p),
        .inl ⟨by simp,hdrained.1⟩⟩
    | finish message =>
      refine ⟨handed,hreports,.inr ⟨message,s.queue,hdrained.2,?_⟩⟩
      simpa [DrainMsg.notification] using hdrained.1
  | done =>
    rw [hdrain] at hdrained
    obtain ⟨message,rest,hwire,hlog⟩ := hdrained
    refine ⟨handed,hreports,.inr ⟨message,rest,hlog,?_⟩⟩
    simpa [DrainMsg.notification] using hwire

theorem Opened.drain_ne {s : ProgressStream} (h : s.Opened) : s.drain ≠ .absent := fun habsent => by
  obtain ⟨handed,-,hdrained⟩ := h.drained
  rw [habsent] at hdrained
  exact hdrained

theorem Opened.oneFinish {s : ProgressStream} (h : s.Opened) {message : Option String}
    (hmem : .finish message ∈ s.log) : OneFinish s.log := by
  rcases h.owner with ⟨-,hreports⟩ | ⟨-,hfinish⟩
  · exact absurd hmem (hreports.not_mem message)
  · exact hfinish

theorem Opened.wellFormed {s : ProgressStream} (h : s.Opened) : s.WellFormed := by
  obtain ⟨handed,hreports,hcases⟩ := h.wire_cases
  have hfinal : s.Final → s.drain = .done := fun hfinal => hfinal.2.resolve_left h.drain_ne
  have hgone : s.owner = .gone → ∃ message, DrainMsg.finish message ∈ s.log := fun hgone => by
    rcases h.owner with ⟨hheld,-⟩ | ⟨-,before,message,after,hlog,-⟩
    · simp [hgone] at hheld
    · exact ⟨message,by simp [hlog]⟩
  rcases hcases with ⟨hdrain,hwire⟩ | ⟨message,rest,hlog,hwire⟩
  · have hnot : ∀ message, WorkDoneProgress.finished message ∉ s.wire := fun message => by
      rw [hwire]
      exact finished_not_mem hreports message
    constructor
    · exact ⟨handed,none,hreports,hwire ▸ List.prefix_append _ _⟩
    · intro front message back hsplit
      exact absurd (by simp [hsplit]) (hnot message)
    · intro before message after _ front ending hsplit
      exact absurd (by simp [hsplit]) (hnot ending)
    · exact fun howner _ => hgone howner
    · exact fun hf => absurd (hfinal hf) hdrain
  · constructor
    · exact ⟨handed,message,hreports,hwire ▸ List.prefix_rfl⟩
    · intro front m back hsplit
      rcases List.eq_nil_or_concat back with hnil | ⟨back,last,rfl⟩
      · exact hnil
      · rw [hwire,List.concat_eq_append,← List.cons_append,← List.append_assoc] at hsplit
        have hfront := (List.append_inj' hsplit rfl).1
        have hmem : .finished m ∈ .started s.title :: handed.map DrainMsg.notification := by
          simp [hfront]
        exact absurd hmem (finished_not_mem hreports m)
    · intro before m after hbefore front ending hsplit
      have hmem : DrainMsg.finish m ∈ s.log := by simp [hbefore]
      obtain ⟨first,m',after',hone,hfirst,hafter⟩ := h.oneFinish hmem
      obtain ⟨rfl,rfl⟩ := finish_place (hlog.symm.trans hone) hfirst hafter
      obtain ⟨rfl,rfl⟩ := finish_place (hbefore.symm.trans hone) hfirst hafter
      rw [hwire] at hsplit
      obtain ⟨hfront,hlast⟩ := List.append_inj' hsplit rfl
      simp only [List.cons.injEq,WorkDoneProgress.finished.injEq,and_true] at hlast
      exact ⟨hfront.symm,hlast.symm⟩
    · exact fun howner _ => hgone howner
    · exact fun _ _ => ⟨message,by simp [hwire]⟩

theorem Unopened.wellFormed_iff {s : ProgressStream} (h : s.Unopened) :
    s.WellFormed ↔ ¬s.Orphaned := by
  have hwire : s.wire = [] ∨ s.wire = [.started s.title] := h.owner.imp And.right And.right
  constructor
  · rintro hwell ⟨howner,-,hne⟩
    have hstarted : .started s.title ∈ s.wire := by simp [hwire.resolve_left hne]
    obtain ⟨message,hmem⟩ := hwell.enqueued howner hstarted
    simp [h.log] at hmem
  · intro hnot
    have hne : s.owner = .gone → .started s.title ∉ s.wire := fun howner hmem =>
      hnot ⟨howner,h.drain,List.ne_nil_of_mem hmem⟩
    constructor
    · refine ⟨[],none,by simp [NoFinish],?_⟩
      rcases hwire with hwire | hwire <;> simp [hwire]
    · intro front message back hsplit
      have hmem : .finished message ∈ s.wire := by simp [hsplit]
      rcases hwire with hwire | hwire <;> simp [hwire] at hmem
    · intro before message after hlog
      simp [h.log] at hlog
    · exact fun howner hmem => absurd hmem (hne howner)
    · exact fun hfinal hmem => absurd hmem (hne hfinal.1)

theorem wellFormed_iff {s : ProgressStream} (h : s.Inv) : s.WellFormed ↔ ¬s.Orphaned := by
  rcases h with h | h
  · exact h.wellFormed_iff
  · exact iff_of_true h.wellFormed fun horphaned => h.drain_ne horphaned.2.1

/-- The owner is cancelled while the send of `Begin` is awaited that was handed over. -/
def CancelledAfterBegin (s : ProgressStream) (a : ProgressAction) : Prop :=
  a = .vanish ∧ s.owner = .flushing

/-- Before `begin` returns, only `Begin` is written. -/
theorem Unopened.step_wire {s : ProgressStream} (h : s.Unopened) {a : ProgressAction}
    (ha : a ≠ .handBegin) : (s.step a).wire = s.wire := by
  cases a with
  | handBegin => exact absurd rfl ha
  | vanish => rw [ProgressStream.step,h.vanish]
  | pollEnd => rw [h.pollEnd]
  | receive => simp [ProgressStream.step,h.drain]
  | hand => simp [ProgressStream.step,h.drain]
  | flushed => simp [ProgressStream.step,ProgressStream.flushed,h.drain]
  | dropSender => rfl
  | _ =>
    rw [ProgressStream.step]
    split_ifs <;> simp

theorem orphaned_step {s : ProgressStream} (h : s.Inv) (hnot : ¬s.Orphaned) (a : ProgressAction) :
    (s.step a).Orphaned ↔ s.CancelledAfterBegin a := by
  rcases h with h | h
  · have hwire : s.owner ≠ .flushing → s.wire = [] := fun hne => by
      rcases h.owner with ⟨-,hwire⟩ | ⟨hflush | hgone,-⟩
      · exact hwire
      · exact absurd hflush hne
      · by_contra hwire
        exact hnot ⟨hgone,h.drain,hwire⟩
    by_cases hflush : s.owner = .flushing
    · have hstarted : s.wire = [.started s.title] := by simpa [hflush] using h.owner
      cases a <;> simp [CancelledAfterBegin,Orphaned,step,ProgressStream.vanish,hflush,hstarted,
        h.drain,h.senders,ProgressStream.flushed]
    · refine iff_of_false ?_ fun hcancelled => hflush hcancelled.2
      rintro ⟨howner,-,hne⟩
      by_cases ha : a = .handBegin
      · subst ha
        by_cases hsend : s.owner = .sending
        · simp [step,hsend] at howner
        · simp [step,hsend,hwire hflush] at hne
      · rw [h.step_wire ha,hwire hflush] at hne
        exact hne rfl
  · refine iff_of_false (fun horphaned => (h.step a).drain_ne horphaned.2.1) fun hcancelled => ?_
    exact (h.not_before rfl).2.2.2 hcancelled.2

/-- The notifications of a token are well formed in every state of a run exactly if
the owner is never cancelled between handing `Begin` over and having a reporter. -/
theorem stream_wellFormed_iff (title : String) (as : List ProgressAction) :
    Throughout step WellFormed { title := title } as ↔
      Guarded step (fun s a => ¬s.CancelledAfterBegin a) { title := title } as := by
  have hstart : Inv { title := title } := .inl ⟨rfl,rfl,rfl,rfl,by simp⟩
  refine throughout_iff_guarded (I:=Inv) (fun a _ s hs => inv_step hs a) ?_ hstart ?_
  · intro s a hs hwell
    rw [wellFormed_iff (inv_step hs a),orphaned_step hs ((wellFormed_iff hs).mp hwell)]
  · rw [wellFormed_iff hstart]
    simp [Orphaned]

/-- `Begin` is handed over, and the owner is cancelled before the send returns. -/
def cancelledBegin : ProgressStream := run step { title := "Indexing workspace" }
  [.checkSupport true,.answerCreate true,.handBegin,.vanish]

/-- All tasks are gone, and the token is never ended. -/
theorem cancelledBegin_not_ended : cancelledBegin.Final ∧
    cancelledBegin.wire = [.started "Indexing workspace"] ∧ ¬cancelledBegin.WellFormed := by
  refine ⟨⟨rfl,.inl rfl⟩,rfl,fun hwell => ?_⟩
  obtain ⟨message,hmem⟩ := hwell.ended ⟨rfl,.inl rfl⟩ List.mem_cons_self
  rcases List.mem_cons.mp hmem with heq | hmem
  · cases heq
  · cases hmem

end ProgressStream
end TerraformLs
