import TerraformLs.BoundedLoops

/-! Strings, heredocs and interpolations of a text, which a pass over its bytes keeps on
a stack. -/
namespace TerraformLs
namespace Completion

open Outcome Loops

/-- An ASCII character as a byte. -/
def byte (c : Char) : UInt8 := c.val.toUInt8

inductive Frame
  | string
  | interp (depth : ℕ)
  | heredoc (tag : List UInt8) (indented : Bool)
  deriving DecidableEq

structure FrameScan where
  pos : ℕ
  stack : List Frame
  mask : List Bool

/-- What the pass masks: comments, and the braces that open or close no block. -/
structure Marks where
  comments : Bool
  braces : Bool

def isAsciiAlphanumeric (b : UInt8) : Bool :=
  (48 ≤ b && b ≤ 57) || (65 ≤ b && b ≤ 90) || (97 ≤ b && b ≤ 122)

def isBlank (b : UInt8) : Bool := b = byte ' ' || b = byte '\t'

/-- The byte at `i`, past the end none. -/
def followedBy (bs : List UInt8) (i : ℕ) (b : UInt8) : Scan Bool :=
  if i + 1 < bs.length then do
    let next ← index bs (i+1)
    return next == b
  else return false

/-- `&bs[start..stop]`. -/
def sliceBytes (bs : List UInt8) (start stop : ℕ) : Scan (List UInt8) :=
  if start ≤ stop ∧ stop ≤ bs.length then .ok ((bs.take stop).drop start) else .panicked

/-- The offset after the line end at `j`; `none` when something else stands there. -/
def lineEnd (bs : List UInt8) (j : ℕ) : Scan (Option ℕ) :=
  if bs.length ≤ j then return some j
  else do
    let b ← index bs j
    if b = byte '\n' then return some (j+1)
    else if b = byte '\r' then do
      let newline ← followedBy bs j (byte '\n')
      return some (if newline then j + 2 else j + 1)
    else return none

/-- Where the tag of a heredoc begins, after a dash when it is indented. -/
def tagStart (bs : List UInt8) (i : ℕ) : ℕ := if bs[i+2]? = some (byte '-') then i + 3 else i + 2

def parseHeredocOpener (bs : List UInt8) (i : ℕ) : Scan (Option (List UInt8 × Bool × ℕ)) :=
  if bs.length ≤ i + 1 then return none
  else do
    let first ← index bs i
    let second ← index bs (i+1)
    if first ≠ byte '<' ∨ second ≠ byte '<' then return none
    else do
      let tagStop ← skipWhile (fun c => isAsciiAlphanumeric c || c = byte '_') bs (tagStart bs i)
      if tagStop = tagStart bs i then return none
      else do
        let tag ← sliceBytes bs (tagStart bs i) tagStop
        let j ← skipWhile isBlank bs tagStop
        let after ← lineEnd bs j
        return after.map fun k => (tag,decide (bs[i+2]? = some (byte '-')),k)

def atLineStart (bs : List UInt8) (i : ℕ) : Scan Bool :=
  if 0 < i then do
    let b ← index bs (i-1)
    return b == byte '\n'
  else return true

def matchHeredocCloser (bs : List UInt8) (i : ℕ) (tag : List UInt8) (indented : Bool) :
    Scan (Option ℕ) := do
  let lineStart ← atLineStart bs i
  if !lineStart then return none
  else do
    let j ← skipWhile (fun b => indented && isBlank b) bs i
    if bs.length < j + tag.length then return none
    else do
      let word ← sliceBytes bs j (j + tag.length)
      if word ≠ tag then return none
      else do
        let k ← skipWhile isBlank bs (j + tag.length)
        lineEnd bs k

def mark (on : Bool) (mask : List Bool) (i : ℕ) : Scan (List Bool) :=
  if on then store mask i true else return mask

section frames

variable (marks : Marks) (bs : List UInt8)

def lineCommentStep (s : FrameScan) : Scan (FrameScan ⊕ FrameScan) :=
  if s.pos < bs.length then do
    let b ← index bs s.pos
    if b = byte '\n' then return .inr s
    else do
      let mask ← store s.mask s.pos true
      return .inl { s with pos := s.pos + 1, mask }
  else return .inr s

def blockCommentStep (s : FrameScan) : Scan (FrameScan ⊕ FrameScan) :=
  if s.pos < bs.length then do
    let b ← index bs s.pos
    let slash ← followedBy bs s.pos (byte '/')
    if b = byte '*' ∧ slash then do
      let mask ← store s.mask s.pos true
      let mask ← store mask (s.pos + 1) true
      return .inr { s with pos := s.pos + 2, mask }
    else do
      let mask ← store s.mask s.pos true
      return .inl { s with pos := s.pos + 1, mask }
  else return .inr s

/-- A round in live code; comments begin only there. -/
def liveStep (b : UInt8) (s : FrameScan) : Scan FrameScan := do
  let slash ← followedBy bs s.pos (byte '/')
  let star ← followedBy bs s.pos (byte '*')
  if marks.comments ∧ (b = byte '#' ∨ b = byte '/' ∧ slash) then
    loop (lineCommentStep bs) (bs.length + 1) s
  else if marks.comments ∧ b = byte '/' ∧ star then do
    let mask ← store s.mask s.pos true
    let mask ← store mask (s.pos + 1) true
    loop (blockCommentStep bs) (bs.length + 1) { s with pos := s.pos + 2, mask }
  else if b = byte '"' then return { s with pos := s.pos + 1, stack := .string :: s.stack }
  else if b = byte '<' then do
    match ← parseHeredocOpener bs s.pos with
    | some (tag,indented,after) =>
      return { s with pos := after, stack := .heredoc tag indented :: s.stack }
    | none => return { s with pos := s.pos + 1 }
  else return { s with pos := s.pos + 1 }

/-- A round in the text of a string or heredoc. -/
def textStep (b : UInt8) (s : FrameScan) : Scan FrameScan := do
  let opener ← followedBy bs s.pos (byte '{')
  if (b = byte '$' ∨ b = byte '%') ∧ opener then do
    let mask ← mark marks.braces s.mask (s.pos + 1)
    return { pos := s.pos + 2, stack := .interp 1 :: s.stack, mask }
  else do
    let mask ← mark (marks.braces && (b = byte '{' || b = byte '}')) s.mask s.pos
    return { s with pos := s.pos + 1, mask }

def interpStep (b : UInt8) (depth : ℕ) (rest : List Frame) (s : FrameScan) : Scan FrameScan :=
  if b = byte '"' then return { s with pos := s.pos + 1, stack := .string :: s.stack }
  else if b = byte '{' then do
    let mask ← mark marks.braces s.mask s.pos
    return { pos := s.pos + 1, stack := .interp (depth+1) :: rest, mask }
  else if b = byte '}' then do
    let depth ← minus depth 1
    let mask ← mark marks.braces s.mask s.pos
    return { pos := s.pos + 1, stack := if depth = 0 then rest else .interp depth :: rest, mask }
  else return { s with pos := s.pos + 1 }

def frameRound (b : UInt8) (s : FrameScan) : Scan FrameScan :=
  match s.stack with
  | [] => liveStep marks bs b s
  | .string::rest =>
    if b = byte '\\' ∧ s.pos + 1 < bs.length then return { s with pos := s.pos + 2 }
    else if b = byte '"' then return { s with pos := s.pos + 1, stack := rest }
    else textStep marks bs b s
  | .heredoc tag indented::rest => do
    match ← matchHeredocCloser bs s.pos tag indented with
    | some after => return { s with pos := after, stack := rest }
    | none => textStep marks bs b s
  | .interp depth::rest => interpStep marks b depth rest s

def frameStep (s : FrameScan) : Scan (FrameScan ⊕ FrameScan) :=
  if s.pos < bs.length then do
    let b ← index bs s.pos
    let next ← frameRound marks bs b s
    return .inl next
  else return .inr s

def scanFrames : Scan FrameScan :=
  loop (frameStep marks bs) (bs.length + 1) ⟨0,[],List.replicate bs.length false⟩

end frames

def cursorInStringLiteral (before : List UInt8) : Scan Bool := do
  let s ← scanFrames ⟨false,false⟩ before
  return match s.stack with
  | .string::_ | .heredoc _ _::_ => true
  | _ => false

def ignoredBracePositions (src : List UInt8) : Scan (List Bool) := do
  let s ← scanFrames ⟨false,true⟩ src
  return s.mask

def commentMask (src : List UInt8) : Scan (List Bool) := do
  let s ← scanFrames ⟨true,false⟩ src
  return s.mask

/-! A round of the pass moves on and keeps what the next rounds rely on. -/

section safety

variable {bs : List UInt8} {i j : ℕ}

theorem followedBy_safe (bs : List UInt8) (i : ℕ) (b : UInt8) :
    (followedBy bs i b).Safe fun r => r = true → i + 1 < bs.length := by
  rw [followedBy]
  split
  · rename_i hlt
    exact (index_safe hlt).bind fun _ _ => safe_ok fun _ => hlt
  · exact safe_ok nofun

theorem sliceBytes_safe (hij : i ≤ j) (hj : j ≤ bs.length) :
    (sliceBytes bs i j).Safe fun part => part.length = j - i := by
  refine ⟨_,if_pos ⟨hij,hj⟩,?_⟩
  simp only [List.length_drop,List.length_take]
  omega

theorem lineEnd_safe (bs : List UInt8) (j : ℕ) :
    (lineEnd bs j).Safe fun r => ∀ k, r = some k → j ≤ k := by
  rw [lineEnd]
  split
  · exact safe_ok fun k hk => (Option.some.inj hk).le
  · rename_i hlt
    refine (index_safe (not_le.mp hlt)).bind fun b _ => ?_
    split
    · exact safe_ok fun k hk => by
        rw [← Option.some.inj hk]
        exact Nat.le_succ j
    · split
      · refine (followedBy_safe bs j _).bind fun newline _ => safe_ok fun k hk => ?_
        rw [← Option.some.inj hk]
        split <;> omega
      · exact safe_ok nofun

theorem tagStart_bounds (h : i + 1 < bs.length) : i < tagStart bs i ∧ tagStart bs i ≤ bs.length := by
  rw [tagStart]
  split
  · rename_i hdash
    obtain ⟨hlt,-⟩ := List.getElem?_eq_some_iff.mp hdash
    omega
  · omega

/-- A heredoc has a tag, and the pass goes on after it. -/
theorem parseHeredocOpener_safe (bs : List UInt8) (i : ℕ) : (parseHeredocOpener bs i).Safe
    fun r => ∀ tag indented after, r = some (tag,indented,after) → tag ≠ [] ∧ i < after := by
  rw [parseHeredocOpener]
  split
  · exact safe_ok nofun
  rename_i hlong
  refine (index_safe (by omega)).bind fun first _ => (index_safe (by omega)).bind fun second _ => ?_
  split
  · exact safe_ok nofun
  have hstart : i < tagStart bs i ∧ tagStart bs i ≤ bs.length := tagStart_bounds (by omega)
  refine (skipWhile_safe _ bs _).bind fun tagStop hstop => ?_
  split
  · exact safe_ok nofun
  rename_i hne
  refine (sliceBytes_safe hstop.1 (by omega)).bind fun tag htag => ?_
  refine (skipWhile_safe isBlank bs tagStop).bind fun k hk => ?_
  refine (lineEnd_safe bs k).bind fun after hafter => safe_ok fun tag' indented n hn => ?_
  obtain ⟨m,rfl,hm⟩ := Option.map_eq_some_iff.mp hn
  cases hm
  have hlast := hafter n rfl
  refine ⟨fun hnil => ?_,by omega⟩
  rw [hnil,List.length_nil] at htag
  omega

theorem atLineStart_ends (hi : i ≤ bs.length) : (atLineStart bs i).Ends := by
  rw [atLineStart]
  split
  · exact (index_safe (by omega)).bind_ends fun _ _ => ends_ok _
  · exact ends_ok _

theorem matchHeredocCloser_safe {tag : List UInt8} (htag : tag ≠ []) (hi : i < bs.length)
    (indented : Bool) :
    (matchHeredocCloser bs i tag indented).Safe fun r => ∀ after, r = some after → i < after := by
  have hpos := List.length_pos_iff.mpr htag
  rw [matchHeredocCloser]
  refine (atLineStart_ends hi.le).safe.bind fun lineStart _ => ?_
  split
  · exact safe_ok nofun
  refine (skipWhile_safe _ bs i).bind fun j hj => ?_
  split
  · exact safe_ok nofun
  refine (sliceBytes_safe (Nat.le_add_right j _) (by omega)).bind fun word _ => ?_
  split
  · exact safe_ok nofun
  refine (skipWhile_safe isBlank bs _).bind fun k hk => (lineEnd_safe bs k).imp fun r hr after h => ?_
  have hlast := hr after h
  omega

theorem mark_safe {mask : List Bool} (on : Bool) (hi : on = true → i < mask.length) :
    (mark on mask i).Safe fun mask' => mask'.length = mask.length := by
  rw [mark]
  split
  · exact store_safe (hi ‹_›)
  · exact safe_ok rfl

namespace Frame

/-- An interpolation is open at least once, and a heredoc has a tag. -/
def Open : Frame → Prop
  | string => True
  | interp depth => 0 < depth
  | heredoc tag _ => tag ≠ []

end Frame

/-- The mask covers the text, and all frames on the stack are open. -/
structure Framed (bs : List UInt8) (s : FrameScan) : Prop where
  mask : s.mask.length = bs.length
  stack : ∀ f ∈ s.stack, f.Open

/-- The round keeps that and moves on. -/
def Moved (bs : List UInt8) (s s' : FrameScan) : Prop := Framed bs s' ∧ s.pos < s'.pos

variable {marks : Marks} {s : FrameScan} {b : UInt8}

theorem Framed.push {f : Frame} {pos : ℕ} {mask : List Bool} {rest : List Frame}
    (hmask : mask.length = bs.length) (hrest : ∀ f ∈ rest, f.Open) (hf : f.Open) :
    Framed bs ⟨pos,f :: rest,mask⟩ := by
  refine ⟨hmask,fun g hg => ?_⟩
  rcases List.mem_cons.mp hg with rfl | hg
  · exact hf
  · exact hrest g hg

theorem lineComment_safe (h : Framed bs s) (hlt : s.pos < bs.length)
    (hfirst : bs[s.pos]? ≠ some (byte '\n')) :
    (loop (lineCommentStep bs) (bs.length + 1) s).Safe (Moved bs s) := by
  have hround : ∀ t, (Framed bs t ∧ s.pos ≤ t.pos ∧ (t.pos = s.pos → t = s)) →
      (lineCommentStep bs t).Safe fun r => (∀ t', r = .inl t' →
        (Framed bs t' ∧ s.pos ≤ t'.pos ∧ (t'.pos = s.pos → t' = s)) ∧
          bs.length - t'.pos < bs.length - t.pos) ∧ ∀ a, r = .inr a → Moved bs s a := by
    rintro t ⟨ht,hle,hsame⟩
    have hlast : (t.pos < bs.length → bs[t.pos]? = some (byte '\n')) → Moved bs s t := by
      intro hnewline
      refine ⟨ht,lt_of_le_of_ne hle fun heq => ?_⟩
      rw [← heq] at hnewline
      exact hfirst (hnewline hlt)
    rw [lineCommentStep]
    split
    · rename_i htlt
      refine (index_safe htlt).bind fun c hc => ?_
      split
      · rename_i hnewline
        rw [hnewline] at hc
        exact safe_last (hlast fun _ => hc)
      · refine (store_safe (by rw [ht.mask]; exact htlt)).bind fun mask hmask => ?_
        exact safe_next ⟨⟨⟨hmask.trans ht.mask,ht.stack⟩,by simp only; omega,fun heq => by
          simp only at heq
          omega⟩,by simp only; omega⟩
    · rename_i hend
      exact safe_last (hlast fun h => absurd h hend)
  exact loop_safe hround ⟨h,le_rfl,fun _ => rfl⟩ (by omega)

theorem blockComment_safe (h : Framed bs s) :
    (loop (blockCommentStep bs) (bs.length + 1) s).Safe fun t => Framed bs t ∧ s.pos ≤ t.pos := by
  refine loop_safe (P:=fun t => Framed bs t ∧ s.pos ≤ t.pos) (m:=fun t => bs.length - t.pos)
    (fun t ⟨ht,hle⟩ => ?_) ⟨h,le_rfl⟩ (by omega)
  rw [blockCommentStep]
  split
  · rename_i hlt
    have hmask := ht.mask
    refine (index_safe hlt).bind fun c _ => (followedBy_safe bs t.pos _).bind fun slash hslash => ?_
    split
    · rename_i hclose
      have hnext := hslash hclose.2
      refine (store_safe (by omega)).bind fun mask hm => (store_safe (by omega)).bind fun mask' hm' => ?_
      exact safe_last ⟨⟨by simp only; omega,ht.stack⟩,by simp only; omega⟩
    · refine (store_safe (by omega)).bind fun mask hm => ?_
      exact safe_next ⟨⟨⟨by simp only; omega,ht.stack⟩,by simp only; omega⟩,by simp only; omega⟩
  · exact safe_last ⟨ht,hle⟩

theorem liveStep_safe (h : Framed bs s) (hlt : s.pos < bs.length) (hb : bs[s.pos]? = some b) :
    (liveStep marks bs b s).Safe (Moved bs s) := by
  have hmask := h.mask
  rw [liveStep]
  refine (followedBy_safe bs s.pos _).bind fun slash _ => ?_
  refine (followedBy_safe bs s.pos _).bind fun star hstar => ?_
  split
  · rename_i hcomment
    refine lineComment_safe h hlt fun hnewline => ?_
    have heq : b = byte '\n' := Option.some.inj (hb.symm.trans hnewline)
    rcases hcomment.2 with hhash | ⟨hslash,-⟩
    · exact absurd (heq.symm.trans hhash) (by decide)
    · exact absurd (heq.symm.trans hslash) (by decide)
  · split
    · rename_i hcomment
      have hnext := hstar hcomment.2.2
      refine (store_safe (by omega)).bind fun mask hm => (store_safe (by omega)).bind fun mask' hm' => ?_
      have hopened : Framed bs { s with pos := s.pos + 2, mask := mask' } :=
        ⟨by simp only; omega,h.stack⟩
      exact (blockComment_safe hopened).imp fun t ht => ⟨ht.1,by have := ht.2; simp only at this; omega⟩
    · split
      · exact safe_ok ⟨.push hmask h.stack trivial,Nat.lt_succ_self _⟩
      · split
        · refine (parseHeredocOpener_safe bs s.pos).bind fun r hr => ?_
          split
          · rename_i tag indented after
            obtain ⟨htag,hafter⟩ := hr tag indented after rfl
            exact safe_ok ⟨.push hmask h.stack htag,hafter⟩
          · exact safe_ok ⟨⟨hmask,h.stack⟩,Nat.lt_succ_self _⟩
        · exact safe_ok ⟨⟨hmask,h.stack⟩,Nat.lt_succ_self _⟩

theorem textStep_safe (h : Framed bs s) (hlt : s.pos < bs.length) :
    (textStep marks bs b s).Safe (Moved bs s) := by
  have hmask := h.mask
  rw [textStep]
  refine (followedBy_safe bs s.pos _).bind fun opener hopener => ?_
  split
  · rename_i hopen
    have hnext := hopener hopen.2
    refine (mark_safe _ fun _ => by omega).bind fun mask hm => safe_ok ⟨?_,?_⟩
    · exact .push (hm.trans hmask) h.stack Nat.one_pos
    · simp only
      omega
  · refine (mark_safe _ fun _ => by omega).bind fun mask hm => ?_
    exact safe_ok ⟨⟨hm.trans hmask,h.stack⟩,Nat.lt_succ_self _⟩

theorem interpStep_safe {depth : ℕ} {rest : List Frame} (h : Framed bs s) (hlt : s.pos < bs.length)
    (hstack : s.stack = .interp depth :: rest) :
    (interpStep marks b depth rest s).Safe (Moved bs s) := by
  have hmask := h.mask
  have hdepth : 0 < depth := h.stack (.interp depth) (by rw [hstack]; exact List.mem_cons_self)
  have hrest : ∀ f ∈ rest, f.Open := fun f hf => h.stack f (by
    rw [hstack]
    exact List.mem_cons_of_mem _ hf)
  rw [interpStep]
  split
  · exact safe_ok ⟨.push hmask h.stack trivial,Nat.lt_succ_self _⟩
  · split
    · refine (mark_safe _ fun _ => by omega).bind fun mask hm => ?_
      exact safe_ok ⟨.push (hm.trans hmask) hrest (Nat.succ_pos depth),Nat.lt_succ_self _⟩
    · split
      · refine (minus_safe hdepth).bind fun d _ => ?_
        refine (mark_safe _ fun _ => by omega).bind fun mask hm => ?_
        refine safe_ok ⟨?_,Nat.lt_succ_self _⟩
        split
        · exact ⟨hm.trans hmask,hrest⟩
        · exact .push (hm.trans hmask) hrest (Nat.pos_of_ne_zero ‹_›)
      · exact safe_ok ⟨⟨hmask,h.stack⟩,Nat.lt_succ_self _⟩

theorem frameRound_safe (marks : Marks) (h : Framed bs s) (hlt : s.pos < bs.length) (hb : bs[s.pos]? = some b) :
    (frameRound marks bs b s).Safe (Moved bs s) := by
  have hrest : ∀ f rest, s.stack = f :: rest → f.Open ∧ ∀ g ∈ rest, g.Open := fun f rest hs =>
    List.forall_mem_cons.mp (hs ▸ h.stack)
  rw [frameRound]
  split
  · exact liveStep_safe h hlt hb
  · rename_i rest hs
    split
    · exact safe_ok ⟨⟨h.mask,h.stack⟩,by simp only; omega⟩
    · split
      · exact safe_ok ⟨⟨h.mask,(hrest _ _ hs).2⟩,Nat.lt_succ_self _⟩
      · exact textStep_safe h hlt
  · rename_i tag indented rest hs
    refine (matchHeredocCloser_safe (hrest _ _ hs).1 hlt indented).bind fun r hr => ?_
    split
    · rename_i after
      exact safe_ok ⟨⟨h.mask,(hrest _ _ hs).2⟩,hr after rfl⟩
    · exact textStep_safe h hlt
  · rename_i depth rest hs
    exact interpStep_safe h hlt hs

/-- The pass reads the whole text, and its mask covers it. -/
theorem scanFrames_safe (marks : Marks) (bs : List UInt8) :
    (scanFrames marks bs).Safe fun s => s.mask.length = bs.length := by
  have hfirst : Framed bs ⟨0,[],List.replicate bs.length false⟩ := ⟨List.length_replicate,nofun⟩
  refine loop_safe (P:=Framed bs) (m:=fun s => bs.length - s.pos) (fun s hs => ?_) hfirst (by omega)
  rw [frameStep]
  split
  · rename_i hlt
    refine (index_safe hlt).bind fun b hb => (frameRound_safe marks hs hlt hb).bind fun s' hs' => ?_
    have hmoved := hs'.2
    exact safe_next ⟨hs'.1,by omega⟩
  · exact safe_last hs.mask

theorem cursorInStringLiteral_ends (bs : List UInt8) : (cursorInStringLiteral bs).Ends :=
  (scanFrames_safe ⟨false,false⟩ bs).bind_ends fun _ _ => ends_ok _

theorem ignoredBracePositions_safe (bs : List UInt8) :
    (ignoredBracePositions bs).Safe fun mask => mask.length = bs.length :=
  (scanFrames_safe ⟨false,true⟩ bs).bind fun _ hs => safe_ok hs

theorem commentMask_safe (bs : List UInt8) :
    (commentMask bs).Safe fun mask => mask.length = bs.length :=
  (scanFrames_safe ⟨true,false⟩ bs).bind fun _ hs => safe_ok hs

end safety

end Completion
end TerraformLs
