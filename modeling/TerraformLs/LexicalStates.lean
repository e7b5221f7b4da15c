import TerraformLs.CacheLookups
import TerraformLs.CursorClassification

/-! The lexical state of a text: what the passes over its strings, heredocs and
interpolations take a place to be in. The pass for comments is the only one that knows
these; the others read the text without them. -/
namespace TerraformLs
namespace Completion

open Outcome Loops

/-! ## What a step reads -/

section reading

variable {ε α β : Type}

theorem index_eq_ok {bs : List β} {i : ℕ} {b : β} : index bs i = .ok b ↔ bs[i]? = some b := by
  rw [index]
  cases bs[i]? <;> simp

variable {bs bs' : List UInt8} {i j : ℕ}

/-- Two texts of one length are the same between two offsets. -/
structure Alike (bs bs' : List UInt8) (i j : ℕ) : Prop where
  length : bs.length = bs'.length
  same : ∀ q, i ≤ q → q < j → bs[q]? = bs'[q]?

theorem Alike.at (h : Alike bs bs' i j) {q : ℕ} (hi : i ≤ q) (hq : q < j ∨ bs.length ≤ q) :
    bs[q]? = bs'[q]? := by
  rcases hq with hq | hq
  · exact h.same q hi hq
  · rw [List.getElem?_eq_none hq,List.getElem?_eq_none (h.length ▸ hq)]

theorem Alike.narrow {k l : ℕ} (h : Alike bs bs' i j) (hk : i ≤ k) (hl : l ≤ j) :
    Alike bs bs' k l :=
  ⟨h.length,fun q hq hq' => h.same q (hk.trans hq) (hq'.trans_le hl)⟩

theorem followedBy_eq (bs : List UInt8) (i : ℕ) (b : UInt8) :
    followedBy bs i b = .ok (decide (bs[i+1]? = some b)) := by
  rw [followedBy]
  split_ifs with hlt
  · rw [List.getElem?_eq_getElem hlt,index_eq_ok.mpr (List.getElem?_eq_getElem hlt)]
    simp [beq_eq_decide]
  · rw [List.getElem?_eq_none (by omega)]
    rfl

/-- From `i` on the bytes up to `j` are skipped, and the one there is not. -/
structure Skips (p : UInt8 → Bool) (bs : List UInt8) (i j : ℕ) : Prop where
  le : i ≤ j
  skipped : ∀ q, i ≤ q → q < j → ∃ b, bs[q]? = some b ∧ p b = true
  stops : ∀ b, bs[j]? = some b → p b = false

theorem Skips.unique {p : UInt8 → Bool} {k : ℕ} (h : Skips p bs i j) (h' : Skips p bs i k) :
    j = k := by
  rcases Nat.lt_trichotomy j k with hlt | heq | hlt
  · obtain ⟨b,hb,hp⟩ := h'.skipped j h.le hlt
    exact absurd hp (by rw [h.stops b hb]; decide)
  · exact heq
  · obtain ⟨b,hb,hp⟩ := h.skipped k h'.le hlt
    exact absurd hp (by rw [h'.stops b hb]; decide)

theorem skipWhile_skips (p : UInt8 → Bool) (bs : List UInt8) (i : ℕ) :
    (skipWhile p bs i).Safe (Skips p bs i) := by
  refine loop_safe (P:=fun j => i ≤ j ∧ ∀ q, i ≤ q → q < j → ∃ b, bs[q]? = some b ∧ p b = true)
    (m:=fun j => bs.length - j) (fun j hj => ?_) ⟨le_rfl,fun q _ _ => by omega⟩ (by omega)
  rw [skipStep]
  split
  · rename_i hlt
    refine (index_safe hlt).bind fun b hb => ?_
    cases hp : p b with
    | true =>
      refine safe_next ⟨⟨by omega,fun q hi hq => ?_⟩,by omega⟩
      rcases Nat.lt_succ_iff_lt_or_eq.mp hq with hq | rfl
      · exact hj.2 q hi hq
      · exact ⟨b,hb,hp⟩
    | false =>
      refine safe_last ⟨hj.1,hj.2,fun c hc => ?_⟩
      rw [← Option.some.inj (hb.symm.trans hc)]
      exact hp
  · rename_i hend
    refine safe_last ⟨hj.1,hj.2,fun c hc => ?_⟩
    rw [List.getElem?_eq_none (by omega)] at hc
    cases hc

theorem skipWhile_eq_ok {p : UInt8 → Bool} : skipWhile p bs i = .ok j ↔ Skips p bs i j := by
  obtain ⟨k,hk,hs⟩ := skipWhile_skips p bs i
  rw [hk,ok.injEq]
  exact ⟨fun h => h ▸ hs,fun h => hs.unique h⟩

theorem Skips.congr {p : UInt8 → Bool} (h : Skips p bs i j)
    (hsame : ∀ q, i ≤ q → q ≤ j → bs[q]? = bs'[q]?) : Skips p bs' i j where
  le := h.le
  skipped q hi hq := by
    rw [← hsame q hi hq.le]
    exact h.skipped q hi hq
  stops b hb := h.stops b ((hsame j h.le le_rfl).trans hb)

/-- A line ends at `j`, and the text goes on at `after`. -/
def EndsLine (bs : List UInt8) (j after : ℕ) : Prop :=
  (bs.length ≤ j ∧ after = j) ∨ (bs[j]? = some (byte '\n') ∧ after = j + 1) ∨
    (bs[j]? = some (byte '\r') ∧
      after = if bs[j+1]? = some (byte '\n') then j + 2 else j + 1)

theorem lineEnd_eq_ok {after : ℕ} : lineEnd bs j = .ok (some after) ↔ EndsLine bs j after := by
  rw [lineEnd,EndsLine]
  by_cases hend : bs.length ≤ j
  · have hnone : bs[j]? = none := List.getElem?_eq_none hend
    rw [if_pos hend,hnone]
    simp [hend,eq_comm]
  · obtain ⟨b,hb⟩ : ∃ b, bs[j]? = some b := ⟨_,List.getElem?_eq_getElem (Nat.lt_of_not_le hend)⟩
    have hne : byte '\n' ≠ byte '\r' := by decide
    rw [if_neg hend,index_eq_ok.mpr hb,hb]
    simp only [bind_ok,hend,false_and,false_or,Option.some_inj]
    by_cases hn : b = byte '\n'
    · subst hn
      simp [hne,eq_comm]
    by_cases hr : b = byte '\r'
    · subst hr
      rw [if_neg hn,if_pos rfl,followedBy_eq]
      simp [hn,eq_comm]
    · simp [hn,hr]

theorem EndsLine.le {after : ℕ} (h : EndsLine bs j after) : j ≤ after := by
  rcases h with ⟨-,rfl⟩ | ⟨-,rfl⟩ | ⟨-,rfl⟩
  · exact le_rfl
  · exact Nat.le_succ j
  · split <;> omega

/-- What is read of a line end lies before the place where the text goes on, but for the
line feed that might follow. -/
theorem EndsLine.congr {after : ℕ} (h : EndsLine bs j after) (hsame : Alike bs bs' j after)
    (hnewline : bs[after]? = some (byte '\n') ↔ bs'[after]? = some (byte '\n')) :
    EndsLine bs' j after := by
  rcases h with ⟨hend,rfl⟩ | ⟨hn,rfl⟩ | ⟨hr,rfl⟩
  · exact .inl ⟨hsame.length ▸ hend,rfl⟩
  · exact .inr (.inl ⟨(hsame.same j le_rfl (Nat.lt_succ_self j)).symm.trans hn,rfl⟩)
  · refine .inr (.inr ⟨?_,?_⟩)
    · rw [← hsame.same j le_rfl (by split <;> omega)]
      exact hr
    · split at hnewline <;> rename_i hnext
      · rw [if_pos hnext,← hsame.same (j+1) (by omega) (by rw [if_pos hnext]; omega),if_pos hnext]
      · rw [if_neg hnext,if_neg (fun h => hnext (hnewline.mpr h))]

def tagByte (b : UInt8) : Bool := isAsciiAlphanumeric b || b = byte '_'

/-- A heredoc with the tag begins at `i`, and its text at `after`. -/
def Opens (bs : List UInt8) (i : ℕ) (tag : List UInt8) (indented : Bool) (after : ℕ) : Prop :=
  (bs[i]? = some (byte '<') ∧ bs[i+1]? = some (byte '<')) ∧
    indented = decide (bs[i+2]? = some (byte '-')) ∧
    ∃ tagStop j, Skips tagByte bs (tagStart bs i) tagStop ∧ tagStart bs i < tagStop ∧
      tag = (bs.take tagStop).drop (tagStart bs i) ∧ Skips isBlank bs tagStop j ∧
      EndsLine bs j after

theorem sliceBytes_eq_ok {part : List UInt8} : sliceBytes bs i j = .ok part ↔
    (i ≤ j ∧ j ≤ bs.length) ∧ part = (bs.take j).drop i := by
  rw [sliceBytes]
  split_ifs with h
  · simp [h,eq_comm]
  · simp [h]

theorem parseHeredocOpener_eq_ok {tag : List UInt8} {indented : Bool} {after : ℕ} :
    parseHeredocOpener bs i = .ok (some (tag,indented,after)) ↔ Opens bs i tag indented after := by
  rw [parseHeredocOpener,Opens]
  by_cases hshort : bs.length ≤ i + 1
  · rw [if_pos hshort,List.getElem?_eq_none hshort]
    simp
  obtain ⟨first,hfirst⟩ : ∃ b, bs[i]? = some b := ⟨_,List.getElem?_eq_getElem (by omega)⟩
  obtain ⟨second,hsecond⟩ : ∃ b, bs[i+1]? = some b := ⟨_,List.getElem?_eq_getElem (by omega)⟩
  rw [if_neg hshort,index_eq_ok.mpr hfirst,bind_ok,index_eq_ok.mpr hsecond,bind_ok,hfirst,hsecond,
    Option.some_inj,Option.some_inj]
  by_cases hlt : first = byte '<' ∧ second = byte '<'
  swap
  · rw [if_pos (by tauto)]
    simp [hlt]
  rw [if_neg (by tauto)]
  have hbounds := tagStart_bounds (Nat.lt_of_not_le hshort)
  simp only [hlt,and_self,true_and]
  constructor
  · intro h
    obtain ⟨tagStop,hstop,h⟩ := Outcome.bind_eq_ok.mp h
    have hskip := skipWhile_eq_ok.mp hstop
    split_ifs at h with hempty
    · cases h
    obtain ⟨part,hpart,h⟩ := Outcome.bind_eq_ok.mp h
    obtain ⟨j,hj,h⟩ := Outcome.bind_eq_ok.mp h
    obtain ⟨stop,hend,h⟩ := Outcome.bind_eq_ok.mp h
    obtain ⟨rfl,rfl,rfl⟩ : part = tag ∧ decide (bs[i+2]? = some (byte '-')) = indented ∧
        stop = some after := by
      cases stop with
      | none => cases h
      | some k =>
        cases h
        exact ⟨rfl,rfl,rfl⟩
    exact ⟨rfl,tagStop,j,hskip,lt_of_le_of_ne hskip.le (Ne.symm hempty),
      (sliceBytes_eq_ok.mp hpart).2,skipWhile_eq_ok.mp hj,lineEnd_eq_ok.mp hend⟩
  · rintro ⟨rfl,tagStop,j,hskip,hne,rfl,hblank,hend⟩
    have hstop : tagStop ≤ bs.length := by
      obtain ⟨b,hb,-⟩ := hskip.skipped (tagStop - 1) (by omega) (by omega)
      have := (List.getElem?_eq_some_iff.mp hb).1
      omega
    have htag : skipWhile (fun c => isAsciiAlphanumeric c || c = byte '_') bs (tagStart bs i) =
        .ok tagStop := skipWhile_eq_ok.mpr hskip
    rw [htag,bind_ok,if_neg hne.ne',sliceBytes_eq_ok.mpr ⟨⟨hskip.le,hstop⟩,rfl⟩,bind_ok,
      skipWhile_eq_ok.mpr hblank,bind_ok,lineEnd_eq_ok.mpr hend]
    rfl

theorem take_drop_congr {k l : ℕ} (h : ∀ q, k ≤ q → q < l → bs[q]? = bs'[q]?) :
    (bs.take l).drop k = (bs'.take l).drop k := by
  refine List.ext_getElem? fun n => ?_
  rw [List.getElem?_drop,List.getElem?_drop,List.getElem?_take,List.getElem?_take]
  split_ifs with hn
  · exact h (k+n) (by omega) hn
  · rfl

/-- An opener is read up to the place where the text of the heredoc begins. -/
theorem Opens.congr {tag : List UInt8} {indented : Bool} {after : ℕ}
    (h : Opens bs i tag indented after) (hsame : Alike bs bs' i after)
    (hnewline : bs[after]? = some (byte '\n') ↔ bs'[after]? = some (byte '\n')) :
    Opens bs' i tag indented after := by
  obtain ⟨⟨hfirst,hsecond⟩,rfl,tagStop,j,hskip,hne,rfl,hblank,hend⟩ := h
  have hj := hend.le
  have hstop := hblank.le
  have hstart : i + 2 ≤ tagStart bs i := by
    rw [tagStart]
    split <;> omega
  have hread : ∀ q, i ≤ q → q ≤ j → bs[q]? = bs'[q]? := by
    intro q hi hq
    refine hsame.at hi ?_
    rcases hend with ⟨hlen,-⟩ | ⟨-,rfl⟩ | ⟨-,rfl⟩
    · by_cases hql : q < j
      · exact .inl (hql.trans_le hj)
      · exact .inr (by omega)
    · exact .inl (by omega)
    · exact .inl (by split <;> omega)
  have hdash : bs[i+2]? = bs'[i+2]? := hread _ (by omega) (by omega)
  have htagStart : tagStart bs i = tagStart bs' i := by rw [tagStart,tagStart,hdash]
  refine ⟨⟨hread i le_rfl (by omega) ▸ hfirst,hread (i+1) (by omega) (by omega) ▸ hsecond⟩,
    by rw [hdash],tagStop,j,?_,htagStart ▸ hne,?_,?_,?_⟩
  · rw [← htagStart]
    exact hskip.congr fun q hq hq' => hread q (by omega) (by omega)
  · rw [← htagStart]
    exact take_drop_congr fun q hq hq' => hread q (by omega) (by omega)
  · exact hblank.congr fun q hq hq' => hread q (by omega) hq'
  · exact hend.congr (hsame.narrow (by omega) le_rfl) hnewline

theorem Opens.lt {tag : List UInt8} {indented : Bool} {after : ℕ}
    (h : Opens bs i tag indented after) : i < after := by
  obtain ⟨-,-,tagStop,j,hskip,hne,-,hblank,hend⟩ := h
  have hstart : i + 2 ≤ tagStart bs i := by
    rw [tagStart]
    split <;> omega
  have := hend.le
  have := hblank.le
  omega

/-- The tag of a heredoc is a word. -/
theorem Opens.tag {tag : List UInt8} {indented : Bool} {after : ℕ}
    (h : Opens bs i tag indented after) : tag ≠ [] ∧ ∀ b ∈ tag, tagByte b = true := by
  obtain ⟨-,-,tagStop,j,hskip,hne,rfl,-,-⟩ := h
  have hget : ∀ n b, ((bs.take tagStop).drop (tagStart bs i))[n]? = some b →
      tagStart bs i + n < tagStop ∧ bs[tagStart bs i + n]? = some b := by
    intro n b hb
    rw [List.getElem?_drop,List.getElem?_take] at hb
    split_ifs at hb with hn
    exact ⟨hn,hb⟩
  constructor
  · intro hnil
    obtain ⟨b,hb,-⟩ := hskip.skipped _ le_rfl hne
    have hsome : ((bs.take tagStop).drop (tagStart bs i))[0]? = some b := by
      rw [List.getElem?_drop,List.getElem?_take,Nat.add_zero,if_pos hne,hb]
    rw [hnil] at hsome
    cases hsome
  · intro b hb
    obtain ⟨n,hn⟩ := List.getElem?_of_mem hb
    obtain ⟨hlt,hbs⟩ := hget n b hn
    obtain ⟨c,hc,hp⟩ := hskip.skipped _ (Nat.le_add_right _ n) hlt
    rwa [← Option.some.inj (hc.symm.trans hbs)]

def LineStart (bs : List UInt8) (i : ℕ) : Prop := i = 0 ∨ bs[i-1]? = some (byte '\n')

/-- A heredoc with the tag is closed by the line at `i`. -/
def Closes (bs : List UInt8) (i : ℕ) (tag : List UInt8) (indented : Bool) (after : ℕ) : Prop :=
  LineStart bs i ∧ ∃ j k, Skips (fun b => indented && isBlank b) bs i j ∧
    j + tag.length ≤ bs.length ∧ (bs.take (j + tag.length)).drop j = tag ∧
    Skips isBlank bs (j + tag.length) k ∧ EndsLine bs k after

theorem atLineStart_eq (hi : i ≤ bs.length) :
    atLineStart bs i = .ok (decide (i = 0 ∨ bs[i-1]? = some (byte '\n'))) := by
  rw [atLineStart]
  split_ifs with hpos
  · have hget : bs[i-1]? = some bs[i-1] := List.getElem?_eq_getElem (by omega)
    rw [hget,index_eq_ok.mpr hget]
    simp [beq_eq_decide,hpos.ne']
  · simp [Nat.eq_zero_of_not_pos hpos]

theorem matchHeredocCloser_eq_ok {tag : List UInt8} {indented : Bool} {after : ℕ}
    (hi : i ≤ bs.length) :
    matchHeredocCloser bs i tag indented = .ok (some after) ↔ Closes bs i tag indented after := by
  rw [matchHeredocCloser,atLineStart_eq hi,bind_ok,Closes,LineStart]
  by_cases hline : i = 0 ∨ bs[i-1]? = some (byte '\n')
  swap
  · simp [hline]
  simp only [hline,decide_true,Bool.not_true,Bool.false_eq_true,if_false,true_and]
  constructor
  · intro h
    obtain ⟨j,hj,h⟩ := Outcome.bind_eq_ok.mp h
    split_ifs at h with hlen
    · cases h
    obtain ⟨word,hword,h⟩ := Outcome.bind_eq_ok.mp h
    split_ifs at h with htag
    · cases h
    obtain ⟨k,hk,h⟩ := Outcome.bind_eq_ok.mp h
    rw [not_not] at htag
    exact ⟨j,k,skipWhile_eq_ok.mp hj,Nat.le_of_not_lt hlen,
      htag ▸ (sliceBytes_eq_ok.mp hword).2.symm,skipWhile_eq_ok.mp hk,lineEnd_eq_ok.mp h⟩
  · rintro ⟨j,k,hj,hlen,htag,hk,hend⟩
    have hword := sliceBytes_eq_ok.mpr ⟨⟨Nat.le_add_right j tag.length,hlen⟩,rfl⟩
    rw [skipWhile_eq_ok.mpr hj,bind_ok,if_neg (Nat.not_lt.mpr hlen),hword,bind_ok,htag,
      if_neg (not_not.mpr rfl),skipWhile_eq_ok.mpr hk,bind_ok,lineEnd_eq_ok.mpr hend]

theorem Closes.congr {tag : List UInt8} {indented : Bool} {after : ℕ}
    (h : Closes bs i tag indented after) (hline : LineStart bs i → LineStart bs' i)
    (hsame : Alike bs bs' i after)
    (hnewline : bs[after]? = some (byte '\n') ↔ bs'[after]? = some (byte '\n')) :
    Closes bs' i tag indented after := by
  obtain ⟨hstart,j,k,hj,hlen,htag,hk,hend⟩ := h
  have hlej := hj.le
  have hlek := hk.le
  have hend' := hend.le
  have hread : ∀ q, i ≤ q → q ≤ k → bs[q]? = bs'[q]? := by
    intro q hi hq
    refine hsame.at hi ?_
    rcases hend with ⟨hlen,-⟩ | ⟨-,rfl⟩ | ⟨-,rfl⟩
    · by_cases hql : q < k
      · exact .inl (hql.trans_le hend')
      · exact .inr (by omega)
    · exact .inl (by omega)
    · exact .inl (by split <;> omega)
  refine ⟨hline hstart,j,k,hj.congr fun q hq hq' => hread q hq (by omega),hsame.length ▸ hlen,?_,
    hk.congr fun q hq hq' => hread q (by omega) hq',
    hend.congr (hsame.narrow (by omega) le_rfl) hnewline⟩
  have hword : (bs.take (j + tag.length)).drop j = (bs'.take (j + tag.length)).drop j :=
    take_drop_congr fun q hq hq' => hread q (by omega) (by omega)
  rw [← hword,htag]

theorem Closes.le {tag : List UInt8} {indented : Bool} {after : ℕ}
    (h : Closes bs i tag indented after) : i ≤ after := by
  obtain ⟨-,j,k,hj,-,-,hk,hend⟩ := h
  have := hj.le
  have := hk.le
  have := hend.le
  omega

/-- The line that closes a heredoc holds its tag, blanks and the line end, which is its only
line feed. -/
theorem Closes.plain {tag : List UInt8} {indented : Bool} {after : ℕ}
    (h : Closes bs i tag indented after) (htag : ∀ b ∈ tag, tagByte b = true) :
    ∀ q, i ≤ q → q < after → ∃ b, bs[q]? = some b ∧ b ≠ byte '$' ∧ b ≠ byte '%' ∧
      (b = byte '\n' → q + 1 = after) := by
  obtain ⟨-,j,k,hj,hlen,hword,hk,hend⟩ := h
  have hblank : ∀ b, isBlank b = true → b ≠ byte '$' ∧ b ≠ byte '%' ∧ b ≠ byte '\n' := by
    intro b hb
    have hor : b = byte ' ' ∨ b = byte '\t' := by simpa [isBlank] using hb
    rcases hor with rfl | rfl <;> decide
  have htagByte : ∀ b, tagByte b = true → b ≠ byte '$' ∧ b ≠ byte '%' ∧ b ≠ byte '\n' := by
    intro b hb
    refine ⟨?_,?_,?_⟩ <;> rintro rfl <;> exact absurd hb (by decide)
  intro q hi hq
  by_cases hqj : q < j
  · obtain ⟨b,hb,hp⟩ := hj.skipped q hi hqj
    obtain ⟨h1,h2,h3⟩ := hblank b (by simpa using And.right (by simpa using hp))
    exact ⟨b,hb,h1,h2,fun hn => absurd hn h3⟩
  by_cases hqt : q < j + tag.length
  · obtain ⟨b,hb⟩ : ∃ b, bs[q]? = some b := ⟨_,List.getElem?_eq_getElem (by omega)⟩
    have hmem : tag[q-j]? = some b := by
      have hsplit : j + (q - j) = q := by omega
      rw [← hword,List.getElem?_drop,List.getElem?_take,hsplit,if_pos hqt,hb]
    obtain ⟨h1,h2,h3⟩ := htagByte b (htag b (List.mem_of_getElem? hmem))
    exact ⟨b,hb,h1,h2,fun hn => absurd hn h3⟩
  by_cases hqk : q < k
  · obtain ⟨b,hb,hp⟩ := hk.skipped q (by omega) hqk
    obtain ⟨h1,h2,h3⟩ := hblank b hp
    exact ⟨b,hb,h1,h2,fun hn => absurd hn h3⟩
  rcases hend with ⟨-,rfl⟩ | ⟨hn,rfl⟩ | ⟨hr,hafter⟩
  · omega
  · obtain rfl : q = k := by omega
    exact ⟨_,hn,by decide,by decide,fun _ => rfl⟩
  · split_ifs at hafter with hn
    · obtain rfl | rfl : q = k ∨ q = k + 1 := by omega
      · exact ⟨_,hr,by decide,by decide,fun h => absurd h (by decide)⟩
      · exact ⟨_,hn,by decide,by decide,fun _ => hafter.symm⟩
    · obtain rfl : q = k := by omega
      exact ⟨_,hr,by decide,by decide,fun h => absurd h (by decide)⟩

end reading

/-! ## The rounds of a pass -/

/-- The text of a string or heredoc goes on at `i`: nothing is escaped or closed there. -/
def TextAt (bs : List UInt8) (i : ℕ) (b : UInt8) : Frame → Prop
  | .string => ¬(b = byte '\\' ∧ i + 1 < bs.length) ∧ b ≠ byte '"'
  | .heredoc tag indented => ∀ after, ¬Closes bs i tag indented after
  | .interp _ => False

/-- A round of a pass outside of comments: where it goes on, and in which frames. -/
inductive Advances (bs : List UInt8) : ℕ → List Frame → ℕ → List Frame → Prop
  | quote {i : ℕ} (h : bs[i]? = some (byte '"')) : Advances bs i [] (i+1) [.string]
  | opener {i after : ℕ} {tag : List UInt8} {indented : Bool}
      (h : Opens bs i tag indented after) : Advances bs i [] after [.heredoc tag indented]
  | live {i : ℕ} {b : UInt8} (h : bs[i]? = some b) (hquote : b ≠ byte '"')
      (hopen : ∀ tag indented after, ¬Opens bs i tag indented after) : Advances bs i [] (i+1) []
  | escape {i : ℕ} {rest : List Frame} (h : bs[i]? = some (byte '\\')) (hlt : i + 1 < bs.length) :
      Advances bs i (.string :: rest) (i+2) (.string :: rest)
  | close {i : ℕ} {rest : List Frame} (h : bs[i]? = some (byte '"')) :
      Advances bs i (.string :: rest) (i+1) rest
  | closer {i after : ℕ} {tag : List UInt8} {indented : Bool} {rest : List Frame}
      (h : Closes bs i tag indented after) :
      Advances bs i (.heredoc tag indented :: rest) after rest
  | enter {i : ℕ} {b : UInt8} {f : Frame} {rest : List Frame} (h : bs[i]? = some b)
      (ht : TextAt bs i b f) (hb : b = byte '$' ∨ b = byte '%')
      (hbrace : bs[i+1]? = some (byte '{')) :
      Advances bs i (f :: rest) (i+2) (.interp 1 :: f :: rest)
  | text {i : ℕ} {b : UInt8} {f : Frame} {rest : List Frame} (h : bs[i]? = some b)
      (ht : TextAt bs i b f)
      (hb : ¬((b = byte '$' ∨ b = byte '%') ∧ bs[i+1]? = some (byte '{'))) :
      Advances bs i (f :: rest) (i+1) (f :: rest)
  | inner {i depth : ℕ} {rest : List Frame} (h : bs[i]? = some (byte '"')) :
      Advances bs i (.interp depth :: rest) (i+1) (.string :: .interp depth :: rest)
  | deeper {i depth : ℕ} {rest : List Frame} (h : bs[i]? = some (byte '{')) :
      Advances bs i (.interp depth :: rest) (i+1) (.interp (depth+1) :: rest)
  | leave {i depth : ℕ} {rest : List Frame} (h : bs[i]? = some (byte '}')) :
      Advances bs i (.interp depth :: rest) (i+1)
        (if depth - 1 = 0 then rest else .interp (depth-1) :: rest)
  | stay {i depth : ℕ} {b : UInt8} {rest : List Frame} (h : bs[i]? = some b)
      (hb : b ≠ byte '"' ∧ b ≠ byte '{' ∧ b ≠ byte '}') :
      Advances bs i (.interp depth :: rest) (i+1) (.interp depth :: rest)

/-- A comment begins at `i`. -/
def CommentAt (bs : List UInt8) (i : ℕ) : Prop :=
  bs[i]? = some (byte '#') ∨ bs[i]? = some (byte '/') ∧
    (bs[i+1]? = some (byte '/') ∨ bs[i+1]? = some (byte '*'))

section rounds

variable {bs : List UInt8} {marks : Marks} {s : FrameScan} {b : UInt8}

/-- What a round that is no comment does. -/
def RoundDone (marks : Marks) (bs : List UInt8) (s s' : FrameScan) : Prop :=
  Advances bs s.pos s.stack s'.pos s'.stack ∧ (marks.braces = false → s'.mask = s.mask)

theorem liveStep_advances (h : bs[s.pos]? = some b) (hstack : s.stack = [])
    (hcomment : marks.comments = true → ¬CommentAt bs s.pos) :
    (liveStep marks bs b s).Safe (RoundDone marks bs s) := by
  rw [liveStep,followedBy_eq,bind_ok,followedBy_eq,bind_ok]
  have hnone : ¬(marks.comments = true ∧ (b = byte '#' ∨ b = byte '/' ∧
      decide (bs[s.pos+1]? = some (byte '/')) = true)) := by
    rintro ⟨hon,hb⟩
    refine hcomment hon ?_
    rcases hb with rfl | ⟨rfl,hslash⟩
    · exact .inl h
    · exact .inr ⟨h,.inl (of_decide_eq_true hslash)⟩
  have hnone' : ¬(marks.comments = true ∧ b = byte '/' ∧
      decide (bs[s.pos+1]? = some (byte '*')) = true) := by
    rintro ⟨hon,rfl,hstar⟩
    exact hcomment hon (.inr ⟨h,.inr (of_decide_eq_true hstar)⟩)
  rw [if_neg hnone,if_neg hnone']
  have hlive : (∀ tag indented after, ¬Opens bs s.pos tag indented after) → b ≠ byte '"' →
      RoundDone marks bs s { s with pos := s.pos + 1 } := fun hopen hquote => by
    refine ⟨?_,fun _ => rfl⟩
    simp only [hstack]
    exact .live h hquote hopen
  split_ifs with hquote hlt
  · subst hquote
    refine safe_ok ⟨?_,fun _ => rfl⟩
    simp only [hstack]
    exact .quote h
  · obtain ⟨r,hr,-⟩ := parseHeredocOpener_safe bs s.pos
    rw [hr,bind_ok]
    rcases r with _ | ⟨tag,indented,after⟩
    · refine safe_ok (hlive (fun tag indented after hopen => ?_) hquote)
      have hsome := parseHeredocOpener_eq_ok.mpr hopen
      rw [hr] at hsome
      cases hsome
    · refine safe_ok ⟨?_,fun _ => rfl⟩
      simp only [hstack]
      exact .opener (parseHeredocOpener_eq_ok.mp hr)
  · refine safe_ok (hlive (fun tag indented after hopen => ?_) hquote)
    exact hlt (Option.some.inj (h.symm.trans hopen.1.1))

theorem mark_ok (on : Bool) {mask : List Bool} {i : ℕ} (hi : i < mask.length) :
    ∃ mask', mark on mask i = .ok mask' ∧ (on = false → mask' = mask) := by
  rw [mark]
  cases on with
  | true => exact ⟨_,if_pos hi,fun h => by cases h⟩
  | false => exact ⟨mask,rfl,fun _ => rfl⟩

theorem textStep_advances {f : Frame} {rest : List Frame} (h : bs[s.pos]? = some b)
    (hmask : s.mask.length = bs.length) (hstack : s.stack = f :: rest)
    (ht : TextAt bs s.pos b f) : (textStep marks bs b s).Safe (RoundDone marks bs s) := by
  have hlt := (List.getElem?_eq_some_iff.mp h).1
  rw [textStep,followedBy_eq,bind_ok]
  simp only [decide_eq_true_eq]
  split_ifs with hopen
  · have hlt' := (List.getElem?_eq_some_iff.mp hopen.2).1
    obtain ⟨mask,hm,hsame⟩ := mark_ok marks.braces (hmask ▸ hlt')
    rw [hm,bind_ok]
    refine safe_ok ⟨?_,hsame⟩
    simp only [hstack]
    exact .enter h ht hopen.1 hopen.2
  · obtain ⟨mask,hm,hsame⟩ := mark_ok (marks.braces && (b = byte '{' || b = byte '}'))
      (hmask ▸ hlt)
    rw [hm,bind_ok]
    refine safe_ok ⟨?_,fun hoff => hsame (by rw [hoff,Bool.false_and])⟩
    simp only [hstack]
    exact .text h ht hopen

theorem interpStep_advances {depth : ℕ} {rest : List Frame} (h : bs[s.pos]? = some b)
    (hmask : s.mask.length = bs.length) (hdepth : 0 < depth)
    (hstack : s.stack = .interp depth :: rest) :
    (interpStep marks b depth rest s).Safe (RoundDone marks bs s) := by
  have hlt := (List.getElem?_eq_some_iff.mp h).1
  obtain ⟨mask,hm,hsame⟩ := mark_ok marks.braces (hmask ▸ hlt)
  rw [interpStep]
  split_ifs with hquote hleft hright
  · subst hquote
    refine safe_ok ⟨?_,fun _ => rfl⟩
    simp only [hstack]
    exact .inner h
  · subst hleft
    rw [hm,bind_ok]
    refine safe_ok ⟨?_,hsame⟩
    simp only [hstack]
    exact .deeper h
  · subst hright
    rw [minus,if_pos (Nat.succ_le_of_lt hdepth),bind_ok,hm,bind_ok]
    refine safe_ok ⟨?_,hsame⟩
    simp only [hstack]
    exact .leave h
  · refine safe_ok ⟨?_,fun _ => rfl⟩
    simp only [hstack]
    exact .stay h ⟨hquote,hleft,hright⟩

/-- Outside of comments a round advances, and masks braces only. -/
theorem frameRound_advances (marks : Marks) (h : bs[s.pos]? = some b) (hs : Framed bs s)
    (hcomment : marks.comments = true → s.stack = [] → ¬CommentAt bs s.pos) :
    (frameRound marks bs b s).Safe (RoundDone marks bs s) := by
  have hlt := (List.getElem?_eq_some_iff.mp h).1
  rw [frameRound]
  split
  · rename_i hstack
    exact liveStep_advances h hstack fun hon => hcomment hon hstack
  · rename_i rest hstack
    split_ifs with hescape hquote
    · obtain ⟨rfl,hlt'⟩ := hescape
      refine safe_ok ⟨?_,fun _ => rfl⟩
      simp only [hstack]
      exact .escape h hlt'
    · subst hquote
      refine safe_ok ⟨?_,fun _ => rfl⟩
      simp only [hstack]
      exact .close h
    · exact textStep_advances h hs.mask hstack ⟨hescape,hquote⟩
  · rename_i tag indented rest hstack
    have htag : tag ≠ [] := hs.stack (.heredoc tag indented) (hstack ▸ List.mem_cons_self)
    obtain ⟨r,hr,-⟩ := matchHeredocCloser_safe htag hlt indented
    rw [hr,bind_ok]
    cases r with
    | none =>
      refine textStep_advances h hs.mask hstack fun after hclose => ?_
      have hsome := (matchHeredocCloser_eq_ok hlt.le).mpr hclose
      rw [hr] at hsome
      cases hsome
    | some after =>
      refine safe_ok ⟨?_,fun _ => rfl⟩
      simp only [hstack]
      exact .closer ((matchHeredocCloser_eq_ok hlt.le).mp hr)
  · rename_i depth rest hstack
    exact interpStep_advances h hs.mask
      (hs.stack (.interp depth) (hstack ▸ List.mem_cons_self)) hstack

theorem Opens.unique {i after after' : ℕ} {tag tag' : List UInt8} {indented indented' : Bool}
    (h : Opens bs i tag indented after) (h' : Opens bs i tag' indented' after') :
    tag = tag' ∧ indented = indented' ∧ after = after' := by
  have heq := (parseHeredocOpener_eq_ok.mpr h).symm.trans (parseHeredocOpener_eq_ok.mpr h')
  cases heq
  exact ⟨rfl,rfl,rfl⟩

theorem Closes.unique {i after after' : ℕ} {tag : List UInt8} {indented : Bool}
    (h : Closes bs i tag indented after) (h' : Closes bs i tag indented after') :
    after = after' := by
  have hi : i ≤ bs.length := by
    obtain ⟨-,j,k,hj,hlen,-⟩ := h
    have := hj.le
    omega
  have heq := ((matchHeredocCloser_eq_ok hi).mpr h).symm.trans
    ((matchHeredocCloser_eq_ok hi).mpr h')
  cases heq
  rfl

/-- A round goes on in one way only. -/
theorem Advances.unique {i j j' : ℕ} {stack next next' : List Frame}
    (h : Advances bs i stack j next) (h' : Advances bs i stack j' next') :
    j = j' ∧ next = next' := by
  have hbytes : byte '"' ≠ byte '{' ∧ byte '"' ≠ byte '}' ∧ byte '{' ≠ byte '}' ∧
      byte '"' ≠ byte '\\' ∧ byte '<' ≠ byte '"' := by decide
  cases h <;> cases h'
  all_goals first
    | exact ⟨rfl,rfl⟩
    | grind [TextAt,Opens,Opens.unique,Closes.unique]

end rounds

end Completion
end TerraformLs
