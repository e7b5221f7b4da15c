import TerraformLs.LexicalStates
import Mathlib.Logic.Relation

/-! The passes over a text take each place of it to be in the same state, once the
comments are blanked out of what the others read. -/
namespace TerraformLs
namespace Completion

open Outcome Loops Recovery Rope

/-- A round of a pass. -/
def Round (marks : Marks) (bs : List UInt8) (s s' : FrameScan) : Prop :=
  ∃ b, bs[s.pos]? = some b ∧ frameRound marks bs b s = .ok s'

abbrev Reaches (marks : Marks) (bs : List UInt8) : FrameScan → FrameScan → Prop :=
  Relation.ReflTransGen (Round marks bs)

/-- From a state on, the pass comes to the offset in these frames. -/
def Visits (marks : Marks) (bs : List UInt8) (s : FrameScan) (i : ℕ) (stack : List Frame) : Prop :=
  ∃ t, Reaches marks bs s t ∧ t.pos = i ∧ t.stack = stack

def firstScan (bs : List UInt8) : FrameScan := ⟨0,[],List.replicate bs.length false⟩

/-- The state a pass takes the offset to be in. -/
def StateAt (marks : Marks) (bs : List UInt8) (i : ℕ) (stack : List Frame) : Prop :=
  Visits marks bs (firstScan bs) i stack

/-- A text with bytes of another one blanked, as a mask has it. -/
structure Blanked (mask : List Bool) (raw buf : List UInt8) : Prop where
  length : raw.length = buf.length
  covers : mask.length = raw.length
  kept : ∀ q : ℕ, mask[q]? = some false → raw[q]? = buf[q]?
  blank : ∀ q : ℕ, mask[q]? = some true → buf[q]? = some space

/-- What a pass relies on: nothing is masked from here on, nor right before a text, and the
tags of heredocs are words. -/
structure Ready (bs : List UInt8) (s : FrameScan) : Prop where
  framed : Framed bs s
  fresh : ∀ q : ℕ, s.pos ≤ q → q < bs.length → s.mask[q]? = some false
  last : s.stack ≠ [] → ∀ q : ℕ, q + 1 = s.pos → s.mask[q]? ≠ some true
  words : ∀ tag indented, .heredoc tag indented ∈ s.stack → ∀ b ∈ tag, tagByte b = true

section runs

variable {marks : Marks} {bs : List UInt8} {s s' t : FrameScan} {i : ℕ} {stack : List Frame}

theorem Round.unique {s₁ s₂ : FrameScan} (h₁ : Round marks bs s s₁) (h₂ : Round marks bs s s₂) :
    s₁ = s₂ := by
  obtain ⟨b,hb,h₁⟩ := h₁
  obtain ⟨c,hc,h₂⟩ := h₂
  obtain rfl := Option.some.inj (hb.symm.trans hc)
  exact ok.inj (h₁.symm.trans h₂)

theorem Round.lt (h : Round marks bs s s') : s.pos < bs.length := by
  obtain ⟨b,hb,-⟩ := h
  exact lt_of_getElem? hb

theorem Round.moved (h : Round marks bs s s') (hs : Framed bs s) : Moved bs s s' := by
  obtain ⟨b,hb,h⟩ := h
  obtain ⟨r,hr,hmoved⟩ := frameRound_safe marks hs (lt_of_getElem? hb) hb
  rwa [← ok.inj (hr.symm.trans h)]

theorem visits_end (h : bs.length ≤ s.pos) :
    Visits marks bs s i stack ↔ s.pos = i ∧ s.stack = stack := by
  constructor
  · rintro ⟨t,ht,hpos,hstack⟩
    rcases ht.cases_head with rfl | ⟨s',hround,-⟩
    · exact ⟨hpos,hstack⟩
    · exact absurd hround.lt (Nat.not_lt.mpr h)
  · exact fun hs => ⟨s,.refl,hs⟩

theorem visits_round (h : Round marks bs s s') :
    Visits marks bs s i stack ↔ (s.pos = i ∧ s.stack = stack) ∨ Visits marks bs s' i stack := by
  constructor
  · rintro ⟨t,ht,hpos,hstack⟩
    rcases ht.cases_head with rfl | ⟨s₁,hround,hrest⟩
    · exact .inl ⟨hpos,hstack⟩
    · rw [hround.unique h] at hrest
      exact .inr ⟨t,hrest,hpos,hstack⟩
  · rintro (hs | ⟨t,ht,hat⟩)
    · exact ⟨s,.refl,hs⟩
    · exact ⟨t,ht.head h,hat⟩

theorem reaches_of_loop {fuel : ℕ} (h : loop (frameStep marks bs) fuel s = .ok t) :
    Reaches marks bs s t ∧ bs.length ≤ t.pos := by
  induction fuel generalizing s with
  | zero => cases h
  | succ fuel ih =>
    rw [loop,frameStep] at h
    split_ifs at h with hlt
    · have hget : bs[s.pos]? = some bs[s.pos] := List.getElem?_eq_getElem hlt
      rw [index_eq_ok.mpr hget,bind_ok] at h
      obtain ⟨r,hr,h⟩ := Outcome.bind_eq_ok.mp h
      obtain ⟨next,hnext,hr⟩ := Outcome.bind_eq_ok.mp hr
      cases hr
      obtain ⟨hreach,hend⟩ := ih h
      exact ⟨hreach.head ⟨_,hget,hnext⟩,hend⟩
    · cases h
      exact ⟨.refl,Nat.le_of_not_lt hlt⟩

/-- A pass comes to the end of the text. -/
theorem scanFrames_reaches (marks : Marks) (bs : List UInt8) : ∃ t, scanFrames marks bs = .ok t ∧
    Reaches marks bs (firstScan bs) t ∧ bs.length ≤ t.pos := by
  obtain ⟨t,ht,-⟩ := scanFrames_safe marks bs
  exact ⟨t,ht,reaches_of_loop ht⟩

theorem firstScan_ready (bs : List UInt8) : Ready bs (firstScan bs) where
  framed := ⟨List.length_replicate,by simp [firstScan]⟩
  fresh q _ hq := by simp [firstScan,hq]
  last h := absurd rfl h
  words _ _ h := by simp [firstScan] at h

end runs

/-! ## Comments -/

section comments

variable {bs : List UInt8} {s t : FrameScan}

/-- All bytes from one place to the other are masked, and no others. -/
structure MaskedTo (bs : List UInt8) (s t : FrameScan) : Prop where
  stack : t.stack = s.stack
  le : s.pos ≤ t.pos
  length : t.mask.length = bs.length
  masked : ∀ q, s.pos ≤ q → q < t.pos → t.mask[q]? = some true
  others : ∀ q, q < s.pos ∨ t.pos ≤ q → t.mask[q]? = s.mask[q]?

theorem MaskedTo.refl (h : s.mask.length = bs.length) : MaskedTo bs s s :=
  ⟨rfl,le_rfl,h,fun q hq hq' => by omega,fun _ _ => rfl⟩

/-- One byte more is masked. -/
theorem MaskedTo.store (h : MaskedTo bs s t) (hlt : t.pos < bs.length) :
    ∃ mask, Loops.store t.mask t.pos true = .ok mask ∧
      MaskedTo bs s { t with pos := t.pos + 1, mask } := by
  have hlt' : t.pos < t.mask.length := h.length.symm ▸ hlt
  refine ⟨t.mask.set t.pos true,if_pos hlt',h.stack,by have := h.le; simp only; omega,
    by rw [List.length_set,h.length],fun q hq hq' => ?_,fun q hq => ?_⟩
  · rcases Nat.lt_succ_iff_lt_or_eq.mp hq' with hq' | rfl
    · rw [List.getElem?_set_ne hq'.ne',h.masked q hq hq']
    · rw [List.getElem?_set_self hlt']
  · have hle := h.le
    simp only at hq
    rw [List.getElem?_set_ne (by omega),h.others q (by omega)]

theorem lineComment_masks (h : s.mask.length = bs.length) :
    (loop (lineCommentStep bs) (bs.length + 1) s).Safe (MaskedTo bs s) := by
  refine loop_safe (P:=MaskedTo bs s) (m:=fun t => bs.length - t.pos) (fun t ht => ?_)
    (.refl h) (by omega)
  rw [lineCommentStep]
  split_ifs with hlt
  · refine (index_safe hlt).bind fun b _ => ?_
    split_ifs
    · exact safe_last ht
    · obtain ⟨mask,hm,hnext⟩ := ht.store hlt
      rw [hm,bind_ok]
      exact safe_next ⟨hnext,by simp only; omega⟩
  · exact safe_last ht

theorem blockComment_masks (h : MaskedTo bs s t) :
    (loop (blockCommentStep bs) (bs.length + 1) t).Safe (MaskedTo bs s) := by
  refine loop_safe (P:=MaskedTo bs s) (m:=fun t => bs.length - t.pos) (fun t ht => ?_)
    h (by omega)
  rw [blockCommentStep]
  split_ifs with hlt
  · refine (index_safe hlt).bind fun b _ => ?_
    rw [followedBy_eq,bind_ok]
    obtain ⟨mask,hm,hnext⟩ := ht.store hlt
    simp only [decide_eq_true_eq]
    split_ifs with hclose
    · have hlt' := (List.getElem?_eq_some_iff.mp hclose.2).1
      obtain ⟨mask',hm',hlast⟩ := hnext.store hlt'
      rw [hm,bind_ok]
      simp only at hm'
      rw [hm',bind_ok]
      exact safe_last hlast
    · rw [hm,bind_ok]
      exact safe_next ⟨hnext,by simp only; omega⟩
  · exact safe_last ht

/-- A round that is a comment masks it. -/
theorem commentRound_masks (marks : Marks) {b : UInt8} (hon : marks.comments = true)
    (hs : Framed bs s) (h : bs[s.pos]? = some b) (hstack : s.stack = [])
    (hcomment : CommentAt bs s.pos) : (frameRound marks bs b s).Safe (MaskedTo bs s) := by
  have hlt := lt_of_getElem? h
  rw [frameRound,hstack,liveStep,followedBy_eq,bind_ok,followedBy_eq,bind_ok]
  simp only [hon,true_and,decide_eq_true_eq]
  split_ifs with hline hblock
  · exact lineComment_masks hs.mask
  · have hlt' := (List.getElem?_eq_some_iff.mp hblock.2).1
    obtain ⟨mask,hm,hnext⟩ := (MaskedTo.refl hs.mask).store hlt
    obtain ⟨mask',hm',hlast⟩ := hnext.store hlt'
    rw [hm,bind_ok]
    simp only at hm'
    rw [hm',bind_ok]
    exact blockComment_masks hlast
  all_goals
    rw [CommentAt,h,Option.some_inj,Option.some_inj] at hcomment
    tauto

end comments

/-! ## The pass for comments -/

section commentPass

variable {raw : List UInt8} {s s' t : FrameScan}

/-- The marks of the pass for comments. -/
def forComments : Marks := ⟨true,false⟩

def AtComment (bs : List UInt8) (s : FrameScan) : Prop := s.stack = [] ∧ CommentAt bs s.pos

theorem commentRound (h : Round forComments raw s s') (hs : Framed raw s)
    (hcomment : AtComment raw s) : MaskedTo raw s s' := by
  obtain ⟨b,hb,h⟩ := h
  obtain ⟨r,hr,hmasked⟩ := commentRound_masks forComments rfl hs hb hcomment.1 hcomment.2
  rwa [← ok.inj (hr.symm.trans h)]

theorem codeRound (h : Round forComments raw s s') (hs : Framed raw s)
    (hcomment : ¬AtComment raw s) :
    Advances raw s.pos s.stack s'.pos s'.stack ∧ s'.mask = s.mask := by
  obtain ⟨b,hb,h⟩ := h
  obtain ⟨r,hr,hadvances,hmask⟩ := frameRound_advances forComments hb hs
    fun _ hstack hat => hcomment ⟨hstack,hat⟩
  rw [← ok.inj (hr.symm.trans h)]
  exact ⟨hadvances,hmask rfl⟩

theorem Advances.words {i j : ℕ} {stack next : List Frame} (h : Advances raw i stack j next)
    {tag : List UInt8} {indented : Bool} (hmem : .heredoc tag indented ∈ next) :
    .heredoc tag indented ∈ stack ∨ ∀ b ∈ tag, tagByte b = true := by
  cases h with
  | opener hopen =>
    obtain ⟨rfl,rfl⟩ : _ = tag ∧ _ = indented := by simpa [eq_comm] using hmem
    exact .inr hopen.tag.2
  | leave h =>
    refine .inl (List.mem_cons_of_mem _ ?_)
    split at hmem
    · exact hmem
    · simpa using hmem
  | closer h => exact .inl (List.mem_cons_of_mem _ hmem)
  | close h => exact .inl (List.mem_cons_of_mem _ hmem)
  | quote | live => simp at hmem
  | _ => exact .inl (by simpa using hmem)

theorem Ready.round (hs : Ready raw s) (h : Round forComments raw s s') : Ready raw s' := by
  have hmoved := h.moved hs.framed
  have hlt := hmoved.2
  by_cases hcomment : AtComment raw s
  · have hmasked := commentRound h hs.framed hcomment
    have hlive : s'.stack = [] := hmasked.stack.trans hcomment.1
    refine ⟨hmoved.1,fun q hq hlen => ?_,fun hne => absurd hlive hne,fun tag indented hmem => ?_⟩
    · rw [hmasked.others q (.inr hq)]
      exact hs.fresh q (by omega) hlen
    · rw [hlive] at hmem
      cases hmem
  · obtain ⟨hadvances,hmask⟩ := codeRound h hs.framed hcomment
    refine ⟨hmoved.1,fun q hq hlen => ?_,fun _ q hq => ?_,fun tag indented hmem => ?_⟩
    · rw [hmask]
      exact hs.fresh q (by omega) hlen
    · rw [hmask]
      by_cases hlen : q < raw.length
      · rw [hs.fresh q (by omega) hlen]
        decide
      · rw [List.getElem?_eq_none (hs.framed.mask ▸ Nat.le_of_not_lt hlen)]
        decide
    · exact (hadvances.words hmem).elim (hs.words tag indented) id

/-- The mask is settled before the place where the pass is. -/
theorem Reaches.settled (h : Reaches forComments raw s t) (hs : Framed raw s) {q : ℕ}
    (hq : q < s.pos) : t.mask[q]? = s.mask[q]? := by
  induction h using Relation.ReflTransGen.head_induction_on with
  | refl => rfl
  | @head s s' hround hrest ih =>
    have hmoved := hround.moved hs
    rw [ih hmoved.1 (hq.trans hmoved.2)]
    by_cases hcomment : AtComment raw s
    · exact (commentRound hround hs hcomment).others q (.inl hq)
    · rw [(codeRound hround hs hcomment).2]

theorem Reaches.framed (h : Reaches forComments raw s t) (hs : Framed raw s) : Framed raw t := by
  induction h with
  | refl => exact hs
  | tail _ hround ih => exact (hround.moved ih).1

/-- A place that the pass comes to is masked only where a comment begins. -/
theorem Reaches.masked (h : Reaches forComments raw s t) (hend : raw.length ≤ t.pos)
    (hs : Ready raw s) (hmasked : t.mask[s.pos]? = some true) : AtComment raw s := by
  by_contra hcomment
  rcases h.cases_head with rfl | ⟨s',hround,hrest⟩
  · rw [List.getElem?_eq_none (hs.framed.mask ▸ hend)] at hmasked
    cases hmasked
  · have hmoved := hround.moved hs.framed
    rw [Reaches.settled hrest hmoved.1 hmoved.2,(codeRound hround hs.framed hcomment).2,
      hs.fresh s.pos le_rfl hround.lt] at hmasked
    cases hmasked

end commentPass

/-! ## The text without its comments -/

section blanked

variable {marks : Marks} {mask : List Bool} {raw buf : List UInt8} {s s' t u u' : FrameScan}

theorem Blanked.unmasked (h : Blanked mask raw buf) {q : ℕ} (hq : mask[q]? ≠ some true) :
    raw[q]? = buf[q]? := by
  cases hmask : mask[q]? with
  | none =>
    have hlen : raw.length ≤ q := h.covers ▸ List.getElem?_eq_none_iff.mp hmask
    rw [List.getElem?_eq_none hlen,List.getElem?_eq_none (h.length ▸ hlen)]
  | some masked =>
    cases masked with
    | true => exact absurd hmask hq
    | false => exact h.kept q hmask

/-- What is no blank has been there before. -/
theorem Blanked.visible (h : Blanked mask raw buf) {q : ℕ} {b : UInt8} (hb : buf[q]? = some b)
    (hne : b ≠ space) : raw[q]? = some b := by
  rw [h.unmasked fun hmask => hne (Option.some.inj (hb.symm.trans (h.blank q hmask))),hb]

theorem Blanked.comment (h : Blanked mask raw buf) {i : ℕ} (hat : CommentAt buf i) :
    CommentAt raw i := by
  rcases hat with hhash | ⟨hslash,hslash' | hstar⟩
  · exact .inl (h.visible hhash (by decide))
  · exact .inr ⟨h.visible hslash (by decide),.inl (h.visible hslash' (by decide))⟩
  · exact .inr ⟨h.visible hslash (by decide),.inr (h.visible hstar (by decide))⟩

/-- A round of any pass in code that is no comment. -/
theorem round_of_advances (marks : Marks) {i : ℕ} {stack : List Frame} (hu : Framed buf u)
    (hlt : u.pos < buf.length) (hcomment : ¬AtComment buf u) (h : Advances buf u.pos u.stack i stack) :
    ∃ u', Round marks buf u u' ∧ Framed buf u' ∧ u'.pos = i ∧ u'.stack = stack ∧
      (marks.braces = false → u'.mask = u.mask) := by
  obtain ⟨b,hb⟩ : ∃ b, buf[u.pos]? = some b := ⟨_,List.getElem?_eq_getElem hlt⟩
  obtain ⟨u',hu',hadvances,hmask⟩ := frameRound_advances marks hb hu
    fun _ hstack hat => hcomment ⟨hstack,hat⟩
  have hround : Round marks buf u u' := ⟨b,hb,hu'⟩
  obtain ⟨hpos,hstack⟩ := hadvances.unique h
  exact ⟨u',hround,(hround.moved hu).1,hpos,hstack,hmask⟩

/-- A pass for comments over a text, and the text without what it masks. -/
structure Cleared (raw buf : List UInt8) (t : FrameScan) : Prop where
  ended : raw.length ≤ t.pos
  blanked : Blanked t.mask raw buf
  openers : ∀ i tag indented after, Opens buf i tag indented after → Opens raw i tag indented after

/-- A state of that pass on its way to the end. -/
structure Underway (raw : List UInt8) (t s : FrameScan) : Prop where
  ready : Ready raw s
  reaches : Reaches forComments raw s t

theorem Underway.along (hs : Underway raw t s) (h : Reaches forComments raw s s')
    (hend : raw.length ≤ t.pos) : Underway raw t s' := by
  induction h with
  | refl => exact hs
  | tail _ hround ih =>
    rcases ih.reaches.cases_head with rfl | ⟨s',hround',hrest⟩
    · exact absurd hround.lt (Nat.not_lt.mpr hend)
    · obtain rfl := hround.unique hround'
      exact ⟨ih.ready.round hround,hrest⟩

/-- A round that is no comment leaves its bytes as they are. -/
theorem Cleared.alike (h : Cleared raw buf t) (hs : Ready raw s)
    (hs' : Underway raw t s') (hmask : s'.mask = s.mask) :
    Alike raw buf s.pos s'.pos := by
  refine ⟨h.blanked.length,fun q hq hq' => h.blanked.unmasked ?_⟩
  rw [hs'.reaches.settled hs'.ready.framed hq',hmask]
  by_cases hlen : q < raw.length
  · rw [hs.fresh q hq hlen]
    decide
  · rw [List.getElem?_eq_none (hs.framed.mask ▸ Nat.le_of_not_lt hlen)]
    decide

theorem Cleared.text (h : Cleared raw buf t) (hs : Underway raw t s) (hstack : s.stack ≠ []) :
    raw[s.pos]? = buf[s.pos]? :=
  h.blanked.unmasked fun hmask => hstack (hs.reaches.masked h.ended hs.ready hmask).1

/-- A comment neither begins with a line feed nor leaves one behind. -/
theorem Cleared.newline (h : Cleared raw buf t) (hs : Underway raw t s) :
    raw[s.pos]? = some (byte '\n') ↔ buf[s.pos]? = some (byte '\n') := by
  refine ⟨fun hraw => ?_,fun hbuf => h.blanked.visible hbuf (by decide)⟩
  rw [← hraw]
  refine (h.blanked.unmasked fun hmask => ?_).symm
  have hcomment := (hs.reaches.masked h.ended hs.ready hmask).2
  rw [CommentAt,hraw] at hcomment
  revert hcomment
  simp [show byte '\n' ≠ byte '#' from by decide,show byte '\n' ≠ byte '/' from by decide]

theorem Cleared.lineStart (h : Cleared raw buf t) (hs : Underway raw t s)
    (hstack : s.stack ≠ []) : LineStart raw s.pos ↔ LineStart buf s.pos := by
  rw [LineStart,LineStart]
  by_cases hpos : s.pos = 0
  · simp [hpos]
  have hlast : s.pos - 1 + 1 = s.pos := Nat.sub_add_cancel (Nat.pos_of_ne_zero hpos)
  rw [h.blanked.unmasked]
  rw [hs.reaches.settled hs.ready.framed (by omega)]
  exact hs.ready.last hstack _ hlast

/-- In a heredoc the pass goes on byte by byte over a text like that of a closing line. -/
theorem Cleared.walk (h : Cleared raw buf t) {tag : List UInt8} {indented : Bool}
    {rest : List Frame} {after : ℕ} (hs : Underway raw t s)
    (hstack : s.stack = .heredoc tag indented :: rest) (hle : s.pos ≤ after)
    (hopen : s.pos < after → ∀ a, ¬Closes raw s.pos tag indented a)
    (hplain : ∀ q, s.pos ≤ q → q < after → ∃ b, buf[q]? = some b ∧ b ≠ byte '$' ∧ b ≠ byte '%' ∧
      (b = byte '\n' → q + 1 = after)) :
    Alike buf raw s.pos after ∧ ∃ v, Underway raw t v ∧ v.pos = after := by
  obtain ⟨n,hn⟩ := Nat.exists_eq_add_of_le hle
  induction n generalizing s with
  | zero => exact ⟨⟨h.blanked.length.symm,fun q hq hq' => by omega⟩,s,hs,hn.symm⟩
  | succ n ih =>
    have hne : s.stack ≠ [] := by simp [hstack]
    obtain ⟨b,hb,hdollar,hpercent,hnewline⟩ := hplain s.pos le_rfl (by omega)
    have hraw : raw[s.pos]? = some b := (h.text hs hne).trans hb
    rcases hs.reaches.cases_head with rfl | ⟨s',hround,hrest⟩
    · exact absurd (lt_of_getElem? hraw) (Nat.not_lt.mpr h.ended)
    have hadvances := (codeRound hround hs.ready.framed fun hat => hne hat.1).1
    have hs' : Underway raw t s' := ⟨hs.ready.round hround,hrest⟩
    obtain ⟨hpos,hsame⟩ : s'.pos = s.pos + 1 ∧ s'.stack = s.stack := by
      rw [hstack] at hadvances
      generalize hnext : s'.stack = next at hadvances
      generalize hafter : s'.pos = j at hadvances
      cases hadvances with
      | closer hclose => exact absurd hclose (hopen (by omega) _)
      | enter hget _ hb' =>
        obtain rfl := Option.some.inj (hraw.symm.trans hget)
        exact (hb'.elim hdollar hpercent).elim
      | text => exact ⟨rfl,hstack.symm⟩
    have hopen' : s'.pos < after → ∀ a, ¬Closes raw s'.pos tag indented a := by
      intro hlt a hclose
      -- no line starts before the end of the closing line
      rcases hclose.1 with hzero | hline
      · omega
      · rw [hpos,Nat.add_sub_cancel,hraw] at hline
        have := hnewline (Option.some.inj hline)
        omega
    obtain ⟨halike,hv⟩ := ih hs' (hsame.trans hstack) (by omega) hopen'
      (fun q hq => hplain q (by omega)) (by omega)
    refine ⟨⟨halike.length,fun q hq hq' => ?_⟩,hv⟩
    rcases hq.eq_or_lt with rfl | hq
    · exact hb.trans hraw.symm
    · exact halike.same q (by omega) hq'

theorem Cleared.closes (h : Cleared raw buf t) {tag : List UInt8} {indented : Bool}
    {rest : List Frame} {after : ℕ} (hs : Underway raw t s)
    (hstack : s.stack = .heredoc tag indented :: rest)
    (hclose : Closes buf s.pos tag indented after) : ∃ a, Closes raw s.pos tag indented a := by
  by_contra hnone
  have hmem : .heredoc tag indented ∈ s.stack := by simp [hstack]
  have hplain := hclose.plain (hs.ready.words tag indented hmem)
  obtain ⟨halike,v,hv,rfl⟩ := h.walk hs hstack hclose.le (fun _ a ha => hnone ⟨a,ha⟩) hplain
  exact hnone ⟨_,hclose.congr (h.lineStart hs (by simp [hstack])).mpr halike (h.newline hv).symm⟩

/-- A round in code that is no comment is the same without the comments. -/
theorem Cleared.advances (h : Cleared raw buf t) (hs : Underway raw t s)
    (hround : Round forComments raw s s') (hs' : Underway raw t s') (hcode : ¬AtComment raw s) :
    Advances buf s.pos s.stack s'.pos s'.stack := by
  obtain ⟨hadvances,hmask⟩ := codeRound hround hs.ready.framed hcode
  have hlt := (hround.moved hs.ready.framed).2
  have halike := h.alike hs.ready hs' hmask
  have hget : ∀ {b}, raw[s.pos]? = some b → buf[s.pos]? = some b := fun hb =>
    (halike.same s.pos le_rfl hlt).symm.trans hb
  have hline := h.newline hs'
  have hopen : ∀ {b f rest}, raw[s.pos]? = some b → s.stack = f :: rest →
      TextAt raw s.pos b f → TextAt buf s.pos b f := by
    intro b f rest hb hstack ht
    cases f with
    | string => exact ⟨h.blanked.length ▸ ht.1,ht.2⟩
    | heredoc tag indented =>
      intro after hclose
      obtain ⟨a,ha⟩ := h.closes hs hstack hclose
      exact ht a ha
    | interp => exact ht
  have hlineStart := h.lineStart hs
  have hbehind := h.text hs'
  generalize hstack : s.stack = stack at *
  generalize hnext : s'.stack = next at *
  generalize hpos : s'.pos = j at *
  cases hadvances with
  | quote hb => exact .quote (hget hb)
  | opener hb => exact .opener (hb.congr halike hline)
  | live hb hquote hnone =>
    exact .live (hget hb) hquote fun tag indented after hbuf => hnone _ _ _ (h.openers _ _ _ _ hbuf)
  | escape hb hlen => exact .escape (hget hb) (h.blanked.length ▸ hlen)
  | close hb => exact .close (hget hb)
  | closer hclose =>
    exact .closer (hclose.congr (hlineStart (List.cons_ne_nil _ _)).mp halike hline)
  | enter hb ht hmark hbrace =>
    exact .enter (hget hb) (hopen hb rfl ht) hmark
      ((halike.same _ (by omega) (by omega)).symm.trans hbrace)
  | text hb ht hnone =>
    refine .text (hget hb) (hopen hb rfl ht) fun hmark => hnone ⟨hmark.1,?_⟩
    rw [hbehind (List.cons_ne_nil _ _)]
    exact hmark.2
  | inner hb => exact .inner (hget hb)
  | deeper hb => exact .deeper (hget hb)
  | leave hb => exact .leave (hget hb)
  | stay hb hne => exact .stay (hget hb) hne

/-- Over blanks in code a pass goes on byte by byte. -/
theorem visits_blanks (marks : Marks) {p : ℕ} (hu : Framed buf u) (hstack : u.stack = []) (hle : u.pos ≤ p)
    (hblank : ∀ q, u.pos ≤ q → q < p → buf[q]? = some space) :
    ∃ v, Framed buf v ∧ v.pos = p ∧ v.stack = [] ∧ (marks.braces = false → v.mask = u.mask) ∧
      ∀ i stack, Visits marks buf u i stack ↔
        (stack = [] ∧ u.pos ≤ i ∧ i < p) ∨ Visits marks buf v i stack := by
  obtain ⟨n,hn⟩ := Nat.exists_eq_add_of_le hle
  induction n generalizing u with
  | zero =>
    refine ⟨u,hu,hn.symm,hstack,fun _ => rfl,fun i stack => ⟨.inr,?_⟩⟩
    rintro (⟨-,hi,hip⟩ | hv)
    · omega
    · exact hv
  | succ n ih =>
    have hb := hblank u.pos le_rfl (by omega)
    have hcode : ¬AtComment buf u := by
      rw [AtComment,CommentAt,hb]
      rintro ⟨-,hhash | ⟨hslash,-⟩⟩
      · exact absurd hhash (by decide)
      · exact absurd hslash (by decide)
    have hadvances : Advances buf u.pos u.stack (u.pos + 1) [] := by
      rw [hstack]
      refine .live hb (by decide) fun tag indented after hopen => ?_
      rw [Opens,hb] at hopen
      exact absurd hopen.1.1 (by decide)
    obtain ⟨u',hround,hu',hpos,hstack',hmask'⟩ :=
      round_of_advances marks hu (lt_of_getElem? hb) hcode hadvances
    obtain ⟨v,hv,hvpos,hvstack,hvmask,hvisits⟩ :=
      ih hu' hstack' (by omega) (fun q hq => hblank q (by omega)) (by omega)
    refine ⟨v,hv,hvpos,hvstack,fun hoff => (hvmask hoff).trans (hmask' hoff),fun i stack => ?_⟩
    rw [visits_round hround,hvisits,hstack,← or_assoc]
    refine or_congr ⟨?_,?_⟩ Iff.rfl
    · rintro (⟨rfl,rfl⟩ | ⟨rfl,hi,hip⟩)
      · exact ⟨rfl,le_rfl,by omega⟩
      · exact ⟨rfl,by omega,hip⟩
    · rintro ⟨rfl,hi,hip⟩
      rcases hi.eq_or_lt with heq | hlt
      · exact .inl ⟨heq,rfl⟩
      · exact .inr ⟨rfl,by omega,hip⟩

/-- Any pass over the text without its comments is in the states of the pass for comments, and
in code where a comment was. -/
theorem Cleared.visits (h : Cleared raw buf t) (marks : Marks) (hs : Underway raw t s) (hu : Framed buf u)
    (hpos : u.pos = s.pos) (hstack : u.stack = s.stack) (i : ℕ) (stack : List Frame) :
    Visits marks buf u i stack ↔ Visits forComments raw s i stack ∨
      (stack = [] ∧ s.pos ≤ i ∧ t.mask[i]? = some true) := by
  have hreaches := hs.reaches
  induction hreaches using Relation.ReflTransGen.head_induction_on generalizing u with
  | refl =>
    have hend := h.ended
    rw [visits_end hend,visits_end (by rw [hpos,← h.blanked.length]; exact hend),hpos,hstack]
    refine ⟨.inl,?_⟩
    rintro (hat | ⟨-,hle,hmask⟩)
    · exact hat
    · have hlt := (List.getElem?_eq_some_iff.mp hmask).1
      have hcovers := h.blanked.covers
      omega
  | @head s s' hround hrest ih =>
    have hmoved := hround.moved hs.ready.framed
    have hmove := hmoved.2
    have hs' : Underway raw t s' := ⟨hs.ready.round hround,hrest⟩
    rw [visits_round hround]
    by_cases hcomment : AtComment raw s
    · have hmasked := commentRound hround hs.ready.framed hcomment
      have hmask : ∀ q, s.pos ≤ q → q < s'.pos → t.mask[q]? = some true := fun q hq hq' =>
        (Reaches.settled hrest hmoved.1 hq').trans (hmasked.masked q hq hq')
      obtain ⟨v,hv,hvpos,hvstack,-,hvisits⟩ := visits_blanks marks (p:=s'.pos) hu
        (hstack.trans hcomment.1) (hpos ▸ hmoved.2.le) fun q hq hq' =>
          h.blanked.blank q (hmask q (by omega) hq')
      have hnext : Visits marks buf v i stack ↔ Visits forComments raw s' i stack ∨
          (stack = [] ∧ s'.pos ≤ i ∧ t.mask[i]? = some true) :=
        ih hs' hv hvpos (hvstack.trans (hmasked.stack.trans hcomment.1).symm)
      rw [hvisits,hnext,hpos,hcomment.1]
      constructor
      · rintro (⟨rfl,hi,hip⟩ | hat | ⟨rfl,hi,hat⟩)
        · exact .inr ⟨rfl,hi,hmask i hi hip⟩
        · exact .inl (.inr hat)
        · exact .inr ⟨rfl,by omega,hat⟩
      · rintro ((⟨rfl,rfl⟩ | hat) | ⟨rfl,hi,hat⟩)
        · exact .inl ⟨rfl,le_rfl,hmoved.2⟩
        · exact .inr (.inl hat)
        · by_cases hip : i < s'.pos
          · exact .inl ⟨rfl,hi,hip⟩
          · exact .inr (.inr ⟨rfl,by omega,hat⟩)
    · have hadvances := h.advances hs hround hs' hcomment
      rw [← hpos,← hstack] at hadvances
      have hlt : u.pos < buf.length := by rw [hpos,← h.blanked.length]; exact hround.lt
      have hcode : ¬AtComment buf u := by
        rintro ⟨hnil,hat⟩
        exact hcomment ⟨hstack ▸ hnil,hpos ▸ h.blanked.comment hat⟩
      obtain ⟨u',hround',hu',hpos',hstack',-⟩ :=
        round_of_advances marks hu hlt hcode hadvances
      have hnext : Visits marks buf u' i stack ↔ Visits forComments raw s' i stack ∨
          (stack = [] ∧ s'.pos ≤ i ∧ t.mask[i]? = some true) := ih hs' hu' hpos' hstack'
      rw [visits_round hround',hnext,hpos,hstack,or_assoc]
      refine or_congr Iff.rfl (or_congr Iff.rfl (and_congr_right fun _ => ?_))
      refine ⟨fun hat => ⟨by omega,hat.2⟩,fun hat => ⟨?_,hat.2⟩⟩
      by_contra hbefore
      have hlen : i < raw.length := h.blanked.covers ▸ (List.getElem?_eq_some_iff.mp hat.2).1
      have hfresh := hs.ready.fresh i hat.1 hlen
      have hsettled := Reaches.settled hrest hmoved.1 (Nat.lt_of_not_le hbefore)
      rw [hat.2,(codeRound hround hs.ready.framed hcomment).2,hfresh] at hsettled
      cases hsettled

/-- No comment begins in the text without the comments. -/
theorem Cleared.uncommented (h : Cleared raw buf t) (hs : Underway raw t (firstScan raw))
    (v : FrameScan) (hv : Reaches marks buf (firstScan buf) v) : ¬AtComment buf v := by
  rintro ⟨hstack,hat⟩
  have hcomment := h.blanked.comment hat
  have hvisible : t.mask[v.pos]? ≠ some true := by
    intro hmask
    have hblank := h.blanked.blank v.pos hmask
    rw [CommentAt,hblank] at hat
    rcases hat with hhash | ⟨hslash,-⟩
    · exact absurd hhash (by decide)
    · exact absurd hslash (by decide)
  have hvisits := (h.visits marks hs (firstScan_ready buf).framed rfl rfl v.pos []).mp ⟨v,hv,rfl,hstack⟩
  obtain ⟨s,hreach,hpos,hnil⟩ := hvisits.resolve_right fun hmask => hvisible hmask.2.2
  have hs' := hs.along hreach h.ended
  rw [← hpos] at hcomment hvisible
  rcases hs'.reaches.cases_head with rfl | ⟨s',hround,hrest⟩
  · have hlen := h.ended
    rw [CommentAt,List.getElem?_eq_none hlen] at hcomment
    simp at hcomment
  · have hmoved := hround.moved hs'.ready.framed
    have hmasked := commentRound hround hs'.ready.framed ⟨hnil,hcomment⟩
    exact hvisible ((Reaches.settled hrest hmoved.1 hmoved.2).trans
      (hmasked.masked _ le_rfl hmoved.2))

theorem Reaches.mask_same (h : ∀ v, Reaches forComments buf u v → ¬AtComment buf v)
    (hu : Framed buf u) {v : FrameScan} (hv : Reaches forComments buf u v) : v.mask = u.mask := by
  induction hv using Relation.ReflTransGen.head_induction_on with
  | refl => rfl
  | @head u u' hround hrest ih =>
    rw [ih (fun w hw => h w (hw.head hround)) (hround.moved hu).1,
      (codeRound hround hu (h u .refl)).2]

end blanked

/-! ## Blanking -/

section blanking

variable {mask : List Bool} {buf blanked : List UInt8} {i : ℕ}

theorem blankMasked_eq_ok (h : blankMasked i mask buf = .ok blanked)
    (hlen : i + mask.length ≤ buf.length) : blanked.length = buf.length ∧
      ∀ q : ℕ, blanked[q]? = if i ≤ q ∧ mask[q-i]? = some true then some space else buf[q]? := by
  induction mask generalizing i buf with
  | nil =>
    cases h
    simp
  | cons masked mask ih =>
    rw [List.length_cons] at hlen
    obtain ⟨buf',hbuf',h⟩ := Outcome.bind_eq_ok.mp h
    obtain ⟨hlen',hget⟩ : buf'.length = buf.length ∧
        ∀ q : ℕ, buf'[q]? = if q = i ∧ masked = true then some space else buf[q]? := by
      rw [blankAt] at hbuf'
      cases masked with
      | false =>
        cases hbuf'
        simp
      | true =>
        rw [if_pos rfl,store,if_pos (by omega)] at hbuf'
        cases hbuf'
        refine ⟨List.length_set,fun q => ?_⟩
        rw [List.getElem?_set]
        split_ifs <;> grind
    obtain ⟨hlast,hblanked⟩ := ih h (by omega)
    refine ⟨hlast.trans hlen',fun q => ?_⟩
    rw [hblanked,hget]
    rcases Nat.lt_trichotomy q i with hlt | rfl | hlt
    · grind
    · simp
    · obtain ⟨k,rfl⟩ := Nat.exists_eq_add_of_lt hlt
      have hk : i + k + 1 - i = k + 1 := by omega
      have hk' : i + k + 1 - (i + 1) = k := by omega
      rw [hk,hk',List.getElem?_cons_succ]
      grind

theorem blanked_of_blankMasked {raw : List UInt8} (h : blankMasked 0 mask raw = .ok blanked)
    (hlen : mask.length = raw.length) : Blanked mask raw blanked := by
  obtain ⟨hlength,hget⟩ := blankMasked_eq_ok h (by omega)
  refine ⟨hlength.symm,hlen,fun q hq => ?_,fun q hq => ?_⟩
  · rw [hget,if_neg (by simp [hq])]
  · rw [hget,if_pos (by simpa using hq)]

end blanking

/-! ## The scanners -/

section scanners

variable {raw buf : List UInt8} {mask : List Bool} {before : Rope} {s t : FrameScan}

/-- The text of a string or heredoc is the innermost. -/
def inText : List Frame → Bool
  | .string::_ | .heredoc _ _::_ => true
  | _ => false

/-- Nothing but code and strings without interpolations. -/
def Flat (stack : List Frame) : Prop := stack = [] ∨ stack = [.string]

theorem quoteStep_eq {pos : ℕ} {b : UInt8} (hb : buf[pos]? = some b) (inString : Bool)
    (start : Option ℕ) : quoteStep buf ⟨pos,inString,start⟩ = .ok (.inl
      (if b = byte '\\' ∧ inString ∧ pos + 1 < buf.length then ⟨pos+2,inString,start⟩
      else if b = byte '"' then (if inString then ⟨pos+1,false,none⟩ else ⟨pos+1,true,some pos⟩)
      else ⟨pos+1,inString,start⟩)) := by
  rw [quoteStep,if_pos (lt_of_getElem? hb),index_eq_ok.mpr hb,bind_ok]
  split_ifs <;> rfl

/-- The pass without frames is in a string where the others are, while these are in no other
frame. -/
theorem quoteLoop_flat (hreach : Reaches forComments buf s t) (hend : buf.length ≤ t.pos)
    (hs : Framed buf s) (hcode : ∀ v, Reaches forComments buf s v → ¬AtComment buf v)
    (hflat : ∀ v, Reaches forComments buf s v → Flat v.stack) (start : Option ℕ)
    (inString : Bool) (hstring : inString = true ↔ s.stack = [.string])
    (hstart : start.isSome = inString) (fuel : ℕ) (hfuel : buf.length - s.pos < fuel) :
    (loop (quoteStep buf) fuel ⟨s.pos,inString,start⟩).Safe fun q =>
      (q.inString = true ↔ t.stack = [.string]) ∧ q.start.isSome = q.inString := by
  induction hreach using Relation.ReflTransGen.head_induction_on generalizing start inString fuel with
  | refl =>
    obtain ⟨fuel,rfl⟩ := Nat.exists_eq_succ_of_ne_zero (Nat.ne_zero_of_lt hfuel)
    have hlast : quoteStep buf ⟨t.pos,inString,start⟩ = .ok (.inr ⟨t.pos,inString,start⟩) :=
      if_neg (Nat.not_lt.mpr hend)
    rw [loop_last hlast]
    exact safe_ok ⟨hstring,hstart⟩
  | @head s s' hround hrest ih =>
    obtain ⟨fuel,rfl⟩ := Nat.exists_eq_succ_of_ne_zero (Nat.ne_zero_of_lt hfuel)
    have hmoved := hround.moved hs
    have hmove := hmoved.2
    have hlt := hround.lt
    have hadvances := (codeRound hround hs (hcode s .refl)).1
    have hnext := hflat s' (.single hround)
    have hgo : ∀ (start' : Option ℕ) (inString' : Bool),
        quoteStep buf ⟨s.pos,inString,start⟩ = .ok (.inl ⟨s'.pos,inString',start'⟩) →
        (inString' = true ↔ s'.stack = [.string]) → start'.isSome = inString' →
        (loop (quoteStep buf) (fuel + 1) ⟨s.pos,inString,start⟩).Safe fun q =>
          (q.inString = true ↔ t.stack = [.string]) ∧ q.start.isSome = q.inString := by
      intro start' inString' hstep hstring' hstart'
      rw [loop_next hstep]
      exact ih hmoved.1 (fun v hv => hcode v (hv.head hround))
        (fun v hv => hflat v (hv.head hround)) start' inString' hstring' hstart' fuel (by omega)
    have hnow := hflat s .refl
    have hquotes : byte '"' ≠ byte '\\' := by decide
    generalize hstack : s.stack = stack at *
    generalize hstack' : s'.stack = next at *
    generalize hpos : s'.pos = j at *
    cases hadvances with
    | quote hb =>
      have hout : inString = false := by simpa using hstring
      refine hgo (some s.pos) true ?_ (by simp) rfl
      simp [quoteStep_eq hb,hout]
    | live hb hquote =>
      have hout : inString = false := by simpa using hstring
      refine hgo start inString ?_ (by simp [hout]) hstart
      simp [quoteStep_eq hb,hout,hquote]
    | escape hb hlen =>
      have hin : inString = true := hstring.mpr (by simpa [Flat] using hnow)
      refine hgo start inString ?_ hstring hstart
      simp [quoteStep_eq hb,hin,hlen]
    | close hb =>
      have hin : inString = true := hstring.mpr (by simpa [Flat] using hnow)
      refine hgo none false ?_ ?_ rfl
      · simp [quoteStep_eq hb,hin,hquotes]
      · simp [Flat] at hnow
        simp [hnow]
    | text hb ht =>
      obtain ⟨rfl,rfl⟩ : _ = Frame.string ∧ _ = [] := by simpa [Flat] using hnow
      have hin : inString = true := hstring.mpr rfl
      refine hgo start inString ?_ hstring hstart
      rw [quoteStep_eq hb,hin,if_neg (by simpa using ht.1),if_neg ht.2]
    | opener | enter | inner | deeper => simp [Flat] at hnext
    | closer | leave | stay => simp [Flat] at hnow

theorem commentMask_eq_ok (h : commentMask raw = .ok mask) : ∃ t, scanFrames forComments raw = .ok t ∧
    t.mask = mask ∧ raw.length ≤ t.pos ∧ Underway raw t (firstScan raw) := by
  obtain ⟨t,ht,hreach,hend⟩ := scanFrames_reaches forComments raw
  obtain ⟨t',ht',hmask⟩ := Outcome.bind_eq_ok.mp h
  obtain rfl := ok.inj (ht.symm.trans ht')
  exact ⟨t,ht,ok.inj hmask,hend,firstScan_ready raw,hreach⟩

/-- All passes end in the same frames. -/
theorem Cleared.ends (h : Cleared raw buf t) (hs : Underway raw t (firstScan raw))
    (marks : Marks) : ∃ u, scanFrames marks buf = .ok u ∧ u.stack = t.stack ∧
      Reaches marks buf (firstScan buf) u ∧ buf.length ≤ u.pos := by
  obtain ⟨u,hu,hreach,hend⟩ := scanFrames_reaches marks buf
  refine ⟨u,hu,?_,hreach,hend⟩
  have hlen := h.blanked.length
  rcases (h.visits marks hs (firstScan_ready buf).framed rfl rfl u.pos u.stack).mp ⟨u,hreach,rfl,rfl⟩ with
    ⟨v,hv,hpos,hstack⟩ | ⟨-,-,hmask⟩
  · rcases (hs.along hv h.ended).reaches.cases_head with rfl | ⟨v',hround,-⟩
    · exact hstack.symm
    · have hlt := hround.lt
      omega
  · have hlt := (List.getElem?_eq_some_iff.mp hmask).1
    have hcovers := h.blanked.covers
    omega

def quoteInComment : Rope := "a # \"\n\"x".toList

def quoteInCommentCleaned : Rope := "a    \n\"x".toList

end scanners

end Completion
end TerraformLs
