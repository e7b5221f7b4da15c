import TerraformLs.CacheLookups
import TerraformLs.CursorPanics
import TerraformLs.SourceLiterals

/-! The comment behind a value on its line: where it is written, and how it is read. -/
namespace TerraformLs
namespace TrailingComments

open CacheLookups GitRefs LineBreaks Rope

/-- The line of the rope that a place lies on. -/
def lineBounds (rope : Rope) (offset : ℕ) : Spanned.Span :=
  lineByteRange rope.ropeStarts (lineOf rope.ropeStarts offset) rope.lenBytes

/-- Where a comment is taken to begin. -/
def markerIn (tail : Rope) : Option ℕ := (find "//".toList tail).or (find ['#'] tail)

/-- The comment takes the place of what is behind the first marker, or stands at the end
of the line. -/
def commentEdit (rope : Rope) (afterQuoteByte : ℕ) (tag : Rope) : Outcome Empty (Option TextEdit) :=
  if rope.lenBytes < afterQuoteByte then .ok none else do
    let bounds := lineBounds rope afterQuoteByte
    let line := rope.byteSlice bounds.1 bounds.2
    let contentLen := lenBytes (line.rdropWhile fun c => c = '\n' || c = '\r')
    let eolByte := bounds.1 + contentLen
    let tailStart := min (afterQuoteByte - bounds.1) contentLen
    let tail ← line.slice tailStart contentLen
    let (startByte,newText) := match markerIn tail with
      | some m => (bounds.1 + tailStart + lenBytes (tail.take m),"# ".toList ++ tag)
      | none => (eolByte," # ".toList ++ tag)
    return match rope.byteOffsetToLspPosition startByte, rope.byteOffsetToLspPosition eolByte with
      | .ok start, .ok stop => some ⟨⟨start,stop⟩,String.ofList newText⟩
      | _, _ => none

def hasTrailingComment (rope : Rope) (afterQuoteByte : ℕ) : Outcome Empty Bool :=
  if rope.lenBytes < afterQuoteByte then .ok false else do
    let bounds := lineBounds rope afterQuoteByte
    let line := rope.byteSlice bounds.1 bounds.2
    let tail ← line.slice (min (afterQuoteByte - bounds.1) line.lenBytes) line.lenBytes
    return tail.contains '#' || contains tail "//"

/-! ### Lines -/

section lines

variable {x y z tail rest : Rope}

/-- A line end, or the end of the text. -/
inductive LineEnd : Rope → Rope → Prop
  | feed (rest : Rope) : LineEnd ['\n'] ('\n' :: rest)
  | crlf (rest : Rope) : LineEnd ['\r','\n'] ('\r' :: '\n' :: rest)
  | eof : LineEnd [] []

/-- Nothing in a text ends a line of the rope. -/
def NoBreak (tail : Rope) : Prop :=
  ∀ c ∈ tail, c ≠ '\n' ∧ c ≠ '\r' ∧ unicodeBreaks.contains c = false

theorem noBreak_of_all
    (h : tail.all fun c => c ≠ '\n' && c ≠ '\r' && !unicodeBreaks.contains c) : NoBreak tail := by
  intro c hc
  have hc := List.all_eq_true.mp h c hc
  simp only [Bool.and_eq_true,decide_eq_true_eq,Bool.not_eq_true'] at hc
  exact ⟨hc.1.1,hc.1.2,hc.2⟩

theorem NoBreak.inLine (h : NoBreak tail) : ∀ c ∈ tail, c ≠ '\n' ∧ c ≠ '\r' :=
  fun c hc => ⟨(h c hc).1,(h c hc).2.1⟩

theorem NoBreak.ends {c : Char} (h : NoBreak tail) (hc : c ∈ tail) (rest : Rope) :
    endsRopeLine c rest = false := by
  obtain ⟨hfeed,hreturn,hbreaks⟩ := h c hc
  rw [endsRopeLine,endsExtra,hbreaks]
  simp [endsFeed,endsReturn,hfeed,hreturn]

theorem LineEnd.unbroken {e : Rope} (h : LineEnd e rest) (htail : NoBreak tail) :
    ∃ y z, tail ++ rest = y ++ z ∧ Unbroken endsRopeLine y z ∧ y ++ z.take 1 = tail ++ e := by
  cases h with
  | feed rest =>
    refine ⟨tail,'\n' :: rest,rfl,⟨fun a c b hsplit => ?_,.inr ⟨_,_,rfl,rfl⟩⟩,rfl⟩
    exact htail.ends (hsplit ▸ by simp) _
  | crlf rest =>
    refine ⟨tail ++ ['\r'],'\n' :: rest,by simp,⟨fun a c b hsplit => ?_,.inr ⟨_,_,rfl,rfl⟩⟩,by simp⟩
    rcases List.append_eq_append_iff.mp hsplit with ⟨a',rfl,hb⟩ | ⟨c',hc',hb⟩
    · -- the carriage return is half of the line end
      cases a' with
      | nil =>
        obtain ⟨rfl,rfl⟩ := List.cons.inj hb
        rfl
      | cons d a' => simp at hb
    · cases c' with
      | nil =>
        obtain ⟨rfl,rfl⟩ := List.cons.inj hb
        rfl
      | cons d c' =>
        obtain ⟨rfl,-⟩ := List.cons.inj hb
        exact htail.ends (hc' ▸ by simp) _
  | eof =>
    refine ⟨tail,[],rfl,⟨fun a c b hsplit => ?_,.inl rfl⟩,rfl⟩
    exact htail.ends (hsplit ▸ by simp) _

/-- The line that a text without breaks lies on: some of what is before it, and the line
end behind it. -/
theorem lineBounds_eq {e : Rope} (htail : NoBreak tail) (he : LineEnd e rest) :
    ∃ before u, x = before ++ u ∧ lineBounds (x ++ (tail ++ rest)) (lenBytes x) =
      (lenBytes before,lenBytes (x ++ (tail ++ e))) := by
  obtain ⟨y,z,hsplit,hunbroken,hline⟩ := he.unbroken htail
  have hpos : ∀ c : Char, 0 < c.utf8Size := fun c => c.utf8Size_pos
  obtain ⟨hlt,hstart,hstop⟩ := line_around (x := x) hpos hunbroken rfl
  rw [← hsplit,hline] at hstop
  rw [← hsplit] at hlt hstart
  have hn : lineOf (ropeStarts (x ++ (tail ++ rest))) (lenBytes x) =
      (starts Char.utf8Size endsRopeLine (x ++ (tail ++ rest))).countP (· ≤ weight Char.utf8Size x) - 1 := by
    rw [lineOf,List.countP_eq_length_filter]
    rfl
  have hfirst : (ropeStarts (x ++ (tail ++ rest))).getD
      (lineOf (ropeStarts (x ++ (tail ++ rest))) (lenBytes x)) 0 =
      (starts Char.utf8Size endsRopeLine (x ++ (tail ++ rest))).getD
        (lineOf (ropeStarts (x ++ (tail ++ rest))) (lenBytes x)) (lenBytes (x ++ (tail ++ rest))) := by
    rw [hn]
    simp only [ropeStarts,List.getD_eq_getElem?_getD,List.getElem?_eq_getElem hlt,Option.getD_some]
  have hseam : Seam (x ++ (tail ++ rest)) ((starts Char.utf8Size endsRopeLine (x ++ (tail ++ rest))).getD
      (lineOf (ropeStarts (x ++ (tail ++ rest))) (lenBytes x)) (lenBytes (x ++ (tail ++ rest)))) :=
    seam_getD_starts _
  obtain ⟨before,b,hbefore,hlen⟩ := hseam
  rw [← hn] at hstart hstop
  obtain ⟨u,rfl⟩ : ∃ u, x = before ++ u := by
    rcases List.append_eq_append_iff.mp hbefore with ⟨u,hu,-⟩ | ⟨u,hu,-⟩
    · -- no longer than what is before the place
      have hle : lenBytes before ≤ lenBytes x := hlen ▸ hstart
      rw [hu,lenBytes_append] at hle
      have hnil : u = [] := lenBytes_eq_zero.mp (by omega)
      exact ⟨[],by rw [hu,hnil]; simp⟩
    · exact ⟨u,hu⟩
  refine ⟨before,u,rfl,?_⟩
  rw [lineBounds,lineByteRange,hfirst,hlen]
  exact Prod.ext rfl hstop

/-- The line as it is read, and the part of it that is behind the place. -/
theorem line_read {e : Rope} (htail : NoBreak tail) (he : LineEnd e rest) :
    ∃ before u, x = before ++ u ∧
      lineBounds (x ++ (tail ++ rest)) (lenBytes x) = (lenBytes before,lenBytes (x ++ (tail ++ e))) ∧
      (x ++ (tail ++ rest)).byteSlice (lenBytes before) (lenBytes (x ++ (tail ++ e))) =
        u ++ (tail ++ e) := by
  obtain ⟨before,u,rfl,hbounds⟩ := lineBounds_eq (x:=x) htail he
  refine ⟨before,u,rfl,hbounds,?_⟩
  obtain ⟨after,hafter⟩ : ∃ after, rest = e ++ after := by
    cases he with
    | feed rest => exact ⟨rest,rfl⟩
    | crlf rest => exact ⟨rest,rfl⟩
    | eof => exact ⟨[],rfl⟩
  have hslice := byteSlice_middle before (u ++ (tail ++ e)) after
  rw [hafter]
  simpa only [List.append_assoc] using hslice

end lines

/-! ### Markers -/

section markers

variable {a s t : Rope}

/-- A pattern that begins nowhere before a place is found there. -/
theorem find_at {p : Rope} (hp : p ≠ []) (h : ∀ b c, b ≠ [] → a = c ++ b → ¬p <+: b ++ s)
    (hs : p <+: s) : find p (a ++ s) = some a.length := by
  induction a with
  | nil =>
    obtain ⟨c,s,rfl⟩ := List.exists_cons_of_ne_nil (fun hnil => hp (List.prefix_nil.mp (hnil ▸ hs)))
    rw [List.nil_append,find,if_pos (List.isPrefixOf_iff_prefix.mpr hs)]
    rfl
  | cons d a ih =>
    have hnot := h (d :: a) [] (List.cons_ne_nil d a) rfl
    rw [List.cons_append] at hnot
    rw [List.cons_append,find,if_neg (fun hpre => hnot (List.isPrefixOf_iff_prefix.mp hpre)),
      ih fun b c hb hsplit => h b (d :: c) hb (by rw [hsplit]; rfl)]
    rfl

theorem find_char {c : Char} (ha : c ∉ a) (s : Rope) : find [c] (a ++ c :: s) = some a.length := by
  refine find_at (List.cons_ne_nil c []) (fun b d hb hsplit hpre => ?_) ⟨s,rfl⟩
  obtain ⟨x,b,rfl⟩ := List.exists_cons_of_ne_nil hb
  obtain ⟨rfl,-⟩ := List.cons_prefix_cons.mp hpre
  exact ha (hsplit ▸ List.mem_append_right d List.mem_cons_self)

theorem find_slashes (ha : ¬"//".toList <:+: a) (hlast : a.getLast? ≠ some '/') (s : Rope) :
    find "//".toList (a ++ '/' :: '/' :: s) = some a.length := by
  have hslashes : "//".toList = ['/','/'] := rfl
  rw [hslashes] at ha ⊢
  refine find_at (List.cons_ne_nil _ _) (fun b d hb hsplit hpre => ?_) ⟨s,rfl⟩
  obtain ⟨x,b,rfl⟩ := List.exists_cons_of_ne_nil hb
  obtain ⟨hx,hpre⟩ := List.cons_prefix_cons.mp hpre
  cases b with
  | nil => exact hlast (by rw [hsplit,← hx]; simp)
  | cons y b =>
    obtain ⟨hy,-⟩ := List.cons_prefix_cons.mp hpre
    exact ha ⟨d,b,by rw [hsplit,← hx,← hy]; simp⟩

/-- A text in front of a comment: no marker begins in it. -/
structure Unmarked (keep drop : Rope) : Prop where
  hash : '#' ∉ keep
  slashes : ¬"//".toList <:+: keep
  comment : drop = [] ∨ (drop.head? = some '#' ∧ ¬"//".toList <:+: drop) ∨
    ("//".toList <+: drop ∧ keep.getLast? ≠ some '/')

theorem Unmarked.markerIn {keep drop : Rope} (h : Unmarked keep drop) :
    markerIn (keep ++ drop) = if drop = [] then none else some keep.length := by
  have hnone : find "//".toList keep = none := find_eq_none_iff.mpr h.slashes
  rcases h.comment with rfl | ⟨hhead,hdrop⟩ | ⟨⟨s,rfl⟩,hlast⟩
  · have hhash : find ['#'] keep = none := by
      rw [find_eq_none_iff,List.singleton_infix_iff]
      exact h.hash
    rw [List.append_nil,TrailingComments.markerIn,hnone,hhash,if_pos rfl]
    rfl
  · obtain ⟨s,rfl⟩ := List.head?_eq_some_iff.mp hhead
    rw [TrailingComments.markerIn,find_none_append (by decide) hnone (find_eq_none_iff.mpr hdrop),
      find_char h.hash,if_neg (List.cons_ne_nil _ _)]
    rfl
  · have hfind : find "//".toList (keep ++ ("//".toList ++ s)) = some keep.length :=
      find_slashes h.slashes hlast s
    rw [TrailingComments.markerIn,hfind,if_neg (by simp)]
    rfl

end markers

/-! ### The comment as it is written -/

section writing

variable {x keep drop rest e t : Rope}

/-- What is written in the place of a comment, or where there is none. -/
def mark (drop t : Rope) : Rope := (if drop = [] then " # ".toList else "# ".toList) ++ t

theorem not_insideCrlf (hx : x.getLast? ≠ some '\r') (hkeep : NoBreak keep) (s : Rope) :
    ¬InsideCrlf (x ++ keep ++ s) (lenBytes (x ++ keep)) := by
  rw [insideCrlf_iff]
  rintro ⟨hlast,-⟩
  by_cases hne : keep = []
  · rw [hne,List.append_nil] at hlast
    exact hx hlast
  · rw [List.getLast?_append_of_ne_nil _ hne] at hlast
    exact (hkeep '\r' (List.mem_of_getLast? hlast)).2.1 rfl

theorem NoBreak.left {a b : Rope} (h : NoBreak (a ++ b)) : NoBreak a :=
  fun c hc => h c (List.mem_append_left b hc)

/-- What is left of a line without its end. -/
theorem content_eq {before u : Rope} (hsplit : x = before ++ u) (hx : x.getLast? = some '"')
    (htail : NoBreak keep) (he : LineEnd e rest) :
    (u ++ (keep ++ e)).rdropWhile (fun c => c = '\n' || c = '\r') = u ++ keep := by
  rw [← List.append_assoc]
  refine Completion.rdropWhile_run ?_ ?_
  · cases he <;> simp
  · intro c hc
    by_cases hne : keep = []
    · rw [hne,List.append_nil] at hc
      have hu : u ≠ [] := by
        rintro rfl
        cases hc
      rw [hsplit,List.getLast?_append_of_ne_nil _ hu] at hx
      obtain rfl := Option.some.inj (hx.symm.trans hc)
      rfl
    · rw [List.getLast?_append_of_ne_nil _ hne] at hc
      obtain ⟨hfeed,hreturn,-⟩ := htail c (List.mem_of_getLast? hc)
      simp [hfeed,hreturn]

/-- The edit of a comment puts it behind what is kept of the line. -/
theorem commentEdit_eq (hx : x.getLast? = some '"') (htail : NoBreak (keep ++ drop)) (he : LineEnd e rest)
    (hmark : Unmarked keep drop) (t : Rope) :
    ∃ edit, commentEdit (x ++ (keep ++ drop ++ rest)) (lenBytes x) t = .ok (some edit) ∧
      edit.newText.toList = mark drop t ∧ Formatting.Denotes (x ++ (keep ++ drop ++ rest)) edit
        (lenBytes (x ++ keep),lenBytes (x ++ (keep ++ drop))) := by
  obtain ⟨before,u,hbefore,hbounds,hline⟩ := line_read (x:=x) htail he
  have hcontent := content_eq hbefore hx htail he
  have hlen : ¬lenBytes (x ++ (keep ++ drop ++ rest)) < lenBytes x := by simp
  have hu : lenBytes x - lenBytes before = lenBytes u := by rw [hbefore,lenBytes_append]; omega
  have hstart : min (lenBytes u) (lenBytes (u ++ (keep ++ drop))) = lenBytes u := by simp
  have hslice : ((u ++ (keep ++ drop ++ e)).slice (lenBytes u) (lenBytes (u ++ (keep ++ drop))) :
      Outcome Empty Rope) = .ok (keep ++ drop) := by
    rw [lenBytes_append]
    exact slice_middle u (keep ++ drop) e
  have hxr : x.getLast? ≠ some '\r' := by rw [hx]; decide
  obtain ⟨start,hstartPos,hstartBack⟩ :=
    ConcreteSyntax.position_back (not_insideCrlf hxr htail.left (drop ++ rest))
  obtain ⟨stop,hstopPos,hstopBack⟩ := ConcreteSyntax.position_back (not_insideCrlf hxr htail rest)
  have hrope : x ++ keep ++ (drop ++ rest) = x ++ (keep ++ drop ++ rest) := by simp
  have hrope' : x ++ (keep ++ drop) ++ rest = x ++ (keep ++ drop ++ rest) := by simp
  rw [hrope] at hstartPos hstartBack
  rw [hrope'] at hstopPos hstopBack
  refine ⟨⟨⟨start,stop⟩,String.ofList (mark drop t)⟩,?_,String.toList_ofList,hstartBack,hstopBack⟩
  rw [commentEdit,if_neg hlen,hbounds]
  dsimp only
  rw [hline,hcontent,hu,hstart,hslice]
  have heol : lenBytes before + lenBytes (u ++ (keep ++ drop)) = lenBytes (x ++ (keep ++ drop)) := by
    rw [hbefore,← lenBytes_append,List.append_assoc]
  have hbegin : lenBytes before + lenBytes u + lenBytes ((keep ++ drop).take keep.length) =
      lenBytes (x ++ keep) := by
    rw [List.take_left,hbefore,lenBytes_append,lenBytes_append]
  show Outcome.ok _ = _
  rw [hmark.markerIn]
  by_cases hdrop : drop = []
  · rw [if_pos hdrop]
    dsimp only
    rw [heol,hstopPos]
    have hwhole : lenBytes (x ++ keep) = lenBytes (x ++ (keep ++ drop)) := by rw [hdrop,List.append_nil]
    rw [hwhole,hstopPos] at hstartPos
    rw [mark,if_pos hdrop,Except.ok.inj hstartPos]
  · rw [if_neg hdrop]
    dsimp only
    rw [heol,hbegin,hstartPos,hstopPos,mark,if_neg hdrop]

/-- A word of a text. -/
structure Word (t : Rope) : Prop where
  nonempty : t ≠ []
  plain : ∀ c ∈ t, isWhitespace c = false

theorem word_of_all (hne : t ≠ []) (h : t.all fun c => !isWhitespace c) : Word t :=
  ⟨hne,fun c hc => by simpa using List.all_eq_true.mp h c hc⟩

theorem Word.noBreak (h : Word t) : NoBreak t := by
  intro c hc
  have hplain := h.plain c hc
  refine ⟨?_,?_,?_⟩
  · rintro rfl
    revert hplain
    decide
  · rintro rfl
    revert hplain
    decide
  · by_contra hbreak
    rw [Bool.not_eq_false,List.contains_iff_mem] at hbreak
    have hall : unicodeBreaks.all isWhitespace := by decide
    rw [List.all_eq_true.mp hall c hbreak] at hplain
    cases hplain

theorem NoBreak.append {a b : Rope} (ha : NoBreak a) (hb : NoBreak b) : NoBreak (a ++ b) :=
  fun c hc => (List.mem_append.mp hc).elim (ha c) (hb c)

theorem NoBreak.mark (ht : NoBreak t) : NoBreak (mark drop t) := by
  rw [TrailingComments.mark]
  split_ifs
  · exact NoBreak.append (noBreak_of_all (by decide)) ht
  · exact NoBreak.append (noBreak_of_all (by decide)) ht

theorem LineEnd.head {s : Rope} (h : LineEnd e s) : e = [] ∨ ∃ c e', e = c :: e' ∧ isWhitespace c ∧ c ∉ "//".toList ∧
    ¬"//".toList <:+: e := by
  cases h with
  | feed rest => exact .inr ⟨_,_,rfl,by decide,by decide,by decide⟩
  | crlf rest => exact .inr ⟨_,_,rfl,by decide,by decide,by decide⟩
  | eof => exact .inl rfl

/-- The first word behind a blank. -/
theorem splitWhitespace_word (ht : Word t) (he : LineEnd e rest) :
    (splitWhitespace (' ' :: (t ++ e))).head? = some t := by
  have hblank : ([] : Rope) ++ ' ' :: (t ++ e) = ' ' :: (t ++ e) := rfl
  have hne : decide (t ≠ []) = true := decide_eq_true ht.nonempty
  rw [splitWhitespace,← hblank,List.splitOnP_append_cons _ _ (by decide),List.splitOnP_nil]
  rcases he.head with rfl | ⟨c,e',rfl,hc,-,-⟩
  · rw [List.append_nil,List.splitOnP_eq_singleton ht.plain]
    simp [ht.nonempty]
  · rw [List.splitOnP_append_cons_of_forall_mem ht.plain c hc]
    simp [ht.nonempty]

end writing

/-! ### The comment as it is read -/

section reading

variable {x keep drop rest e t : Rope}

/-- What is written where the kept part of the line has no marker is found. -/
theorem markerIn_mark (drop : Rope) (hhash : '#' ∉ keep) (hslashes : ¬"//".toList <:+: keep) (ht : ¬"//".toList <:+: t)
    (he : LineEnd e rest) : ∃ m, markerIn (keep ++ mark drop t ++ e) = some m ∧
      (keep ++ mark drop t ++ e).drop m = '#' :: ' ' :: (t ++ e) := by
  obtain ⟨gap,hmark,hgap⟩ : ∃ gap, mark drop t = gap ++ '#' :: ' ' :: t ∧ (gap = [] ∨ gap = [' ']) := by
    rw [mark]
    split_ifs
    · exact ⟨[' '],rfl,.inr rfl⟩
    · exact ⟨[],rfl,.inl rfl⟩
  have htail : ¬"//".toList <:+: t ++ e := by
    rcases he.head with rfl | ⟨c,e',rfl,-,hc,he'⟩
    · rwa [List.append_nil]
    · exact find_eq_none_iff.mp (find_none_append hc (find_eq_none_iff.mpr ht) (find_eq_none_iff.mpr he'))
  have hsplit : keep ++ mark drop t ++ e = (keep ++ gap) ++ '#' :: ' ' :: (t ++ e) := by
    rw [hmark]
    simp
  have hunmarked : Unmarked (keep ++ gap) ('#' :: ' ' :: (t ++ e)) := by
    refine ⟨?_,?_,.inr (.inl ⟨rfl,?_⟩)⟩
    · rcases hgap with rfl | rfl <;> simpa using hhash
    · rcases hgap with rfl | rfl
      · rwa [List.append_nil]
      · exact find_eq_none_iff.mp (find_none_append (by decide) (find_eq_none_iff.mpr hslashes) (by decide))
    · rw [List.infix_cons_iff,List.infix_cons_iff]
      rintro (h | h | h)
      · exact absurd (List.cons_prefix_cons.mp h).1 (by decide)
      · exact absurd (List.cons_prefix_cons.mp h).1 (by decide)
      · exact htail h
  refine ⟨(keep ++ gap).length,?_,?_⟩
  · rw [hsplit,hunmarked.markerIn,if_neg (List.cons_ne_nil _ _)]
  · rw [hsplit,List.drop_left]

/-- The part of the line behind a place, as the readers take it. -/
theorem tail_read (htail : NoBreak keep) (he : LineEnd e rest) : ∃ start stop,
    lineBounds (x ++ (keep ++ rest)) (lenBytes x) = (start,stop) ∧
    (((x ++ (keep ++ rest)).byteSlice start stop).slice
      (min (lenBytes x - start) ((x ++ (keep ++ rest)).byteSlice start stop).lenBytes)
      ((x ++ (keep ++ rest)).byteSlice start stop).lenBytes : Outcome Empty Rope) = .ok (keep ++ e) := by
  obtain ⟨before,u,hbefore,hbounds,hline⟩ := line_read (x:=x) htail he
  refine ⟨_,_,hbounds,?_⟩
  have hu : lenBytes x - lenBytes before = lenBytes u := by rw [hbefore,lenBytes_append]; omega
  have hmin : min (lenBytes u) (lenBytes (u ++ (keep ++ e))) = lenBytes u := by simp
  have hslice := slice_middle (ε:=Empty) u (keep ++ e) []
  rw [List.append_nil,← lenBytes_append] at hslice
  rw [hline,hu,hmin]
  exact hslice

theorem comment_read (drop : Rope) (hkeep : NoBreak keep) (hhash : '#' ∉ keep) (hslashes : ¬"//".toList <:+: keep)
    (ht : Word t) (htag : ¬"//".toList <:+: t) (he : LineEnd e rest) :
    trailingCommentTag (x ++ (keep ++ mark drop t ++ rest)) (lenBytes x) = .ok (some t) ∧
      hasTrailingComment (x ++ (keep ++ mark drop t ++ rest)) (lenBytes x) = .ok true := by
  have hmarked : NoBreak (keep ++ mark drop t) := hkeep.append ht.noBreak.mark
  obtain ⟨start,stop,hbounds,hslice⟩ := tail_read (x:=x) hmarked he
  obtain ⟨m,hm,hdrop⟩ := markerIn_mark drop hhash hslashes htag he
  have hlen : ¬lenBytes (x ++ (keep ++ mark drop t ++ rest)) < lenBytes x := by simp
  have hword : (splitWhitespace ((('#' :: ' ' :: (t ++ e)).dropWhile (· = '#')).dropWhile (· = '/'))).head? =
      some t := splitWhitespace_word ht he
  constructor
  · rw [lineBounds] at hbounds
    rw [trailingCommentTag,if_neg hlen]
    dsimp only
    rw [hbounds,hslice]
    dsimp only [Outcome.bind_ok]
    rw [markerIn] at hm
    rw [hm]
    dsimp only
    rw [hdrop,hword]
    rfl
  · rw [hasTrailingComment,if_neg hlen]
    dsimp only
    rw [hbounds,hslice]
    change Outcome.ok _ = _
    have hmem : '#' ∈ keep ++ mark drop t ++ e := List.mem_of_mem_drop (hdrop ▸ List.mem_cons_self)
    rw [List.contains_iff_mem.mpr hmem,Bool.true_or]

end reading

end TrailingComments
end TerraformLs
