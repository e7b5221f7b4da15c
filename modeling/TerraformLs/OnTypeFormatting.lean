import TerraformLs.BodyTrees
import TerraformLs.ConcreteSyntax

/-! Formatting while typing: the block around the cursor is cut out, formatted as a text of
its own, and put back. -/
namespace TerraformLs
namespace Formatting

open Rope BodyTrees

abbrev Blocks (V : Type) := Items V (Option Span)

section handler

variable {V : Type}

def sliceText (rope : Rope) (range : Range) : Option Rope := do
  let start ← (lspPositionToByteOffset rope range.start).toOption
  let stop ← (lspPositionToByteOffset rope range.end).toOption
  if stop < start then none else some (byteSlice rope start stop)

/-- The formatter always ends with a line feed, a slice does not. -/
def matchTrailingNewline (formatted slice : Rope) : Rope :=
  if slice.getLast? = some '\n' then formatted else formatted.rdropWhile (· = '\n')

def notAfter (p q : Position) : Bool :=
  p.line < q.line || (p.line = q.line && p.character ≤ q.character)

def containsOrTouches (range : Range) (pos : Position) : Bool :=
  notAfter range.start pos && notAfter pos range.end

def area (r : Range) : ℕ :=
  (r.end.line - r.start.line) * 10000 + (r.end.character - r.start.character)

def rangeOf (rope : Rope) (span : Option Span) : Option Range :=
  span.bind fun s => (hclSpanToLspRange rope s).toOption

/-- The smaller of two ranges, and the first of equal ones. -/
def smaller (best : Option Range) (range : Range) : Range :=
  match best with
  | some b => if area b ≤ area range then b else range
  | none => range

def enclosingBlockRange (rope : Rope) (pos : Position) : Option Range → Blocks V → Option Range
  | best, .nil => best
  | best, .attr _ _ _ rest => enclosingBlockRange rope pos best rest
  | best, .block place _ _ body rest =>
    match rangeOf rope place with
    | none => enclosingBlockRange rope pos best rest
    | some range =>
      if containsOrTouches range pos then
        enclosingBlockRange rope pos
          ((enclosingBlockRange rope pos none body).or (some (smaller best range))) rest
      else enclosingBlockRange rope pos best rest

/-- After a brace or an equals sign. -/
def onTypeFormatting (format : Rope → Option Rope) (body : Option (Blocks V)) (rope : Rope)
    (ch : String) (pos : Position) : Option (List TextEdit) :=
  if ch = "\x7d" ∨ ch = "=" then do
    let range ← enclosingBlockRange rope pos none (← body)
    let slice ← sliceText rope range
    let formatted ← format slice
    let formatted := matchTrailingNewline formatted slice
    if formatted = slice then some [] else some [⟨range,String.ofList formatted⟩]
  else none

end handler

/-! ## The block that is picked -/

section picked

variable {V : Type}

/-- The smaller of a block found before and the one of a number in this body. -/
def smallerBlock (n : ℕ) (best : Option (List ℕ × Range)) (range : Range) : List ℕ × Range :=
  match best with
  | some b => if area b.2 ≤ area range then b else ([n],range)
  | none => ([n],range)

theorem smallerBlock_snd (n : ℕ) (best : Option (List ℕ × Range)) (range : Range) :
    (smallerBlock n best range).2 = smaller (best.map Prod.snd) range := by
  cases best with
  | none => rfl
  | some b =>
    simp only [smallerBlock,smaller,Option.map_some]
    split_ifs <;> rfl

theorem smallerBlock_eq {n : ℕ} {best : Option (List ℕ × Range)} {range : Range}
    {found : List ℕ × Range} (h : smallerBlock n best range = found) :
    best = some found ∨ ([n],range) = found := by
  cases best with
  | none => exact Or.inr h
  | some b =>
    rw [smallerBlock] at h
    split_ifs at h
    · exact Or.inl (congrArg some h)
    · exact Or.inr h

/-- The same search, for the block: its number in each body on the way, and its range. -/
def enclosingBlock (rope : Rope) (pos : Position) :
    ℕ → Option (List ℕ × Range) → Blocks V → Option (List ℕ × Range)
  | _, best, .nil => best
  | n, best, .attr _ _ _ rest => enclosingBlock rope pos (n+1) best rest
  | n, best, .block place _ _ body rest =>
    match rangeOf rope place with
    | none => enclosingBlock rope pos (n+1) best rest
    | some range =>
      if containsOrTouches range pos then
        enclosingBlock rope pos (n+1)
          (((enclosingBlock rope pos 0 none body).map fun inner => (n :: inner.1,inner.2)).or
            (some (smallerBlock n best range))) rest
      else enclosingBlock rope pos (n+1) best rest

theorem enclosingBlockRange_eq (rope : Rope) (pos : Position) (body : Blocks V) (n : ℕ)
    (best : Option (List ℕ × Range)) : enclosingBlockRange rope pos (best.map Prod.snd) body =
      (enclosingBlock rope pos n best body).map Prod.snd := by
  induction body generalizing n best with
  | nil => rfl
  | attr _ _ _ rest ih => exact ih (n+1) best
  | block place _ _ inner rest ihinner ih =>
    rw [enclosingBlockRange,enclosingBlock]
    cases rangeOf rope place with
    | none => exact ih (n+1) best
    | some range =>
      dsimp only
      split_ifs
      · have hinner := ihinner 0 none
        rw [Option.map_none] at hinner
        rw [← ih (n+1),hinner,Option.map_or,Option.map_map,Option.map_some,smallerBlock_snd]
        rfl
      · exact ih (n+1) best

/-- What is found is a block of the body, or was found before. -/
theorem blockAt_of_enclosingBlock {rope : Rope} {pos : Position} {body : Blocks V} {n : ℕ}
    {best : Option (List ℕ × Range)} {path : List ℕ} {range : Range}
    (h : enclosingBlock rope pos n best body = some (path,range)) :
    best = some (path,range) ∨ ∃ m q place inner, path = (n+m)::q ∧
      body.blockAt (m::q) = some (place,inner) ∧ rangeOf rope place = some range := by
  induction body generalizing n best path with
  | nil => exact Or.inl h
  | attr _ _ _ rest ih =>
    rcases ih h with hbest | ⟨m,q,place,inner,hpath,hat,hrange⟩
    · exact Or.inl hbest
    · exact Or.inr ⟨m+1,q,place,inner,by rw [hpath]; congr 1; omega,hat,hrange⟩
  | block place ident labels inside rest ihinner ih =>
    have hlater {best : Option (List ℕ × Range)}
        (hrest : enclosingBlock rope pos (n+1) best rest = some (path,range)) :
        best = some (path,range) ∨ ∃ m q p inner, path = (n+m)::q ∧
          (Items.block place ident labels inside rest).blockAt (m::q) = some (p,inner) ∧
            rangeOf rope p = some range := by
      rcases ih hrest with hbest | ⟨m,q,p,inner,hpath,hat,hrange⟩
      · exact Or.inl hbest
      · exact Or.inr ⟨m+1,q,p,inner,by rw [hpath]; congr 1; omega,hat,hrange⟩
    rw [enclosingBlock] at h
    cases hplace : rangeOf rope place with
    | none =>
      rw [hplace] at h
      exact hlater h
    | some r =>
      rw [hplace] at h
      dsimp only at h
      split_ifs at h
      · refine (hlater h).elim (fun hbest => ?_) Or.inr
        cases hinner : enclosingBlock rope pos 0 none inside with
        | some found =>
          rw [hinner,Option.map_some,Option.some_or] at hbest
          obtain ⟨rfl,rfl⟩ := Prod.mk.inj (Option.some.inj hbest)
          rcases ihinner hinner with hnone | ⟨m,q,p,inner,hpath,hat,hrange⟩
          · cases hnone
          · refine Or.inr ⟨0,found.1,p,inner,rfl,?_,hrange⟩
            rw [hpath,Nat.zero_add]
            exact hat
        | none =>
          rw [hinner,Option.map_none,Option.none_or] at hbest
          refine (smallerBlock_eq (Option.some.inj hbest)).imp id fun heq => ?_
          obtain ⟨rfl,rfl⟩ := Prod.mk.inj heq
          exact ⟨0,[],place,inside,rfl,rfl,hplace⟩
      · exact hlater h

end picked

/-! ## The formatter and the parser -/

/-- The first text with `n` blanks more at the beginning of some of its lines, but not of the
first one. -/
def Indented (n : ℕ) : Rope → Rope → Prop
  | [], s => s = []
  | c::u, s => s.head? = some c ∧ (Indented n u s.tail ∨
      c = '\n' ∧ List.replicate n ' ' <+: s.tail ∧ Indented n u (s.tail.drop n))

/-- The blanks at the beginning of the last line. -/
def lastIndent (s : Rope) : ℕ := ((s.rtakeWhile (· ≠ '\n')).takeWhile (· = ' ')).length

/-- A part of a text, with its span. -/
structure PartAt (d pre part post : Rope) (place : Option Span) : Prop where
  text : d = pre ++ part ++ post
  place : place = some (lenBytes pre,lenBytes (pre ++ part))

/-- The nesting depth of the block at a path: one of the document is at depth zero. -/
def depth (path : List ℕ) : ℕ := path.length - 1

/-- The parser crate and the formatter crate, with the configured style. -/
structure BlockFormatter where
  Value : Type
  parse : Rope → Option (Blocks Value)
  format : Rope → Option Rope
  /-- The text of a block begins with its keyword and ends with its brace. -/
  blockText : ∀ {d body path place inner}, parse d = some body →
    body.blockAt path = some (place,inner) → ∃ pre part post, PartAt d pre part post place ∧
      part.head? ≠ some '\n' ∧ part.getLast? = some '\x7d'
  /-- It is a document of this block alone, also with a line feed behind it. -/
  alone : ∀ {d body path place inner pre part post}, parse d = some body →
    body.blockAt path = some (place,inner) → PartAt d pre part post place →
      ∃ x inner', (∀ tail ∈ [[],['\n']], parse (part ++ tail) = some x) ∧ x.length = 1 ∧
        x.blockAt [0] = some (some (0,lenBytes part),inner')
  /-- A text that reads as the block does may stand for it. -/
  exchange : ∀ {d body path place inner pre part post part' x y}, parse d = some body →
    body.blockAt path = some (place,inner) → PartAt d pre part post place →
      parse part = some x → parse (part' ++ ['\n']) = some y → y.erase = x.erase →
        part'.getLast? ≠ some '\n' →
          ∃ body', parse (pre ++ part' ++ post) = some body' ∧ body'.erase = body.erase
  /-- What can be read can be formatted, and reads the same. -/
  keeps : ∀ {s x}, parse s = some x → ∃ t y, format s = some t ∧ parse t = some y ∧ y.erase = x.erase
  idempotent : ∀ {s t}, format s = some t → format t = some t
  oneNewline : ∀ {s t}, format s = some t → ∃ t', t = t' ++ ['\n'] ∧ t'.getLast? ≠ some '\n'
  /-- The last line of a block is indented by the depth of the block. -/
  indents : ∀ {d body path place inner pre part post}, format d = some d → parse d = some body →
    body.blockAt path = some (place,inner) → PartAt d pre part post place → '\n' ∈ part →
      lastIndent part = 2 * depth path
  /-- Nothing but the indentation depends on the depth. -/
  shifts : ∀ {d body path place inner pre part post}, format d = some d → parse d = some body →
    body.blockAt path = some (place,inner) → PartAt d pre part post place →
      ∃ u, format u = some (u ++ ['\n']) ∧ Indented (2 * depth path) u part

section spec

/-- What a text becomes by the edits. -/
def Becomes (d : Rope) (edits : List TextEdit) (new : Rope) : Prop :=
  ∃ placed : List (TextEdit × Span), placed.map Prod.fst = edits ∧
    (∀ e ∈ placed, Denotes d e.1 e.2) ∧ applyEdits d placed = .ok new

def placeText (d : Rope) (place : Option Span) : Rope := place.elim [] fun s => byteSlice d s.1 s.2

/-- A formatted document stays as it is, and an edited one reads the same. -/
structure Settled (F : BlockFormatter) (d : Rope) (body : Blocks F.Value) (ch : String)
    (pos : Position) : Prop where
  quiet : F.format d = some d → ∀ edits, onTypeFormatting F.format (some body) d ch pos = some edits →
    Becomes d edits d
  reads : ∀ edits, onTypeFormatting F.format (some body) d ch pos = some edits → edits ≠ [] →
    ∃ new body', Becomes d edits new ∧ F.parse new = some body' ∧ body'.erase = body.erase

/-- The block that is picked stands in no other block, or in one line. -/
def OutermostOrOneLine {V : Type} (d : Rope) (body : Blocks V) (pos : Position) : Prop :=
  ∀ path range place inner, enclosingBlock d pos 0 none body = some (path,range) →
    body.blockAt path = some (place,inner) → depth path = 0 ∨ '\n' ∉ placeText d place

end spec

section lemmas

theorem Indented.eq_of_zero {u s : Rope} (h : Indented 0 u s) : u = s := by
  induction u generalizing s with
  | nil => exact h.symm
  | cons c u ih =>
    obtain ⟨hhead,hrest⟩ := h
    obtain ⟨s,rfl⟩ := List.head?_eq_some_iff.mp hhead
    rcases hrest with hrest | ⟨-,-,hrest⟩
    · rw [ih hrest,List.tail_cons]
    · rw [ih hrest,List.drop_zero,List.tail_cons]

theorem Indented.eq_of_oneLine {n : ℕ} {u s : Rope} (h : Indented n u s) (hs : '\n' ∉ s) : u = s := by
  induction u generalizing s with
  | nil => exact h.symm
  | cons c u ih =>
    obtain ⟨hhead,hrest⟩ := h
    obtain ⟨s,rfl⟩ := List.head?_eq_some_iff.mp hhead
    rcases hrest with hrest | ⟨rfl,-⟩
    · rw [ih hrest fun hmem => hs (List.mem_cons_of_mem c hmem),List.tail_cons]
    · exact absurd List.mem_cons_self hs

theorem matchTrailingNewline_eq {t s : Rope} (hs : s.getLast? = some '\x7d')
    (ht : t.getLast? ≠ some '\n') : matchTrailingNewline (t ++ ['\n']) s = t := by
  rw [matchTrailingNewline,hs,if_neg (by decide),List.rdropWhile_concat_pos _ _ _ (by decide),
    List.rdropWhile_eq_self_iff]
  intro hne hlast
  rw [List.getLast?_eq_getLast_of_ne_nil hne] at ht
  exact ht (congrArg some (of_decide_eq_true hlast))

variable {V : Type} {d pre part post : Rope} {place : Option Span} {range : Range}

theorem PartAt.placeText_eq (h : PartAt d pre part post place) : placeText d place = part := by
  rw [h.place,h.text]
  exact byteSlice_middle pre part post

/-- The range of a block leads back to its text. -/
theorem PartAt.denotes (h : PartAt d pre part post place) (hhead : part.head? ≠ some '\n')
    (hlast : part.getLast? = some '\x7d') (hrange : rangeOf d place = some range) :
    lspPositionToByteOffset d range.start = .ok (lenBytes pre) ∧
      lspPositionToByteOffset d range.end = .ok (lenBytes (pre ++ part)) := by
  obtain ⟨rfl,rfl⟩ := h
  have hstart : ¬InsideCrlf (pre ++ part ++ post) (lenBytes pre) := by
    rw [List.append_assoc,insideCrlf_iff,List.head?_append]
    rintro ⟨-,hcontra⟩
    cases hfirst : part.head? with
    | none =>
      rw [List.head?_eq_none_iff.mp hfirst] at hlast
      cases hlast
    | some c =>
      rw [hfirst] at hhead hcontra
      exact hhead hcontra
  have hstop : ¬InsideCrlf (pre ++ part ++ post) (lenBytes (pre ++ part)) := by
    rw [insideCrlf_iff,List.getLast?_append,hlast]
    rintro ⟨hcontra,-⟩
    cases hcontra
  obtain ⟨r,hr,hback,hback'⟩ := ConcreteSyntax.range_back pre part post hstart hstop
  rw [rangeOf,Option.bind_some,hr] at hrange
  obtain rfl := Option.some.inj hrange
  exact ⟨hback,hback'⟩

theorem PartAt.sliceText_eq (h : PartAt d pre part post place)
    (hstart : lspPositionToByteOffset d range.start = .ok (lenBytes pre))
    (hstop : lspPositionToByteOffset d range.end = .ok (lenBytes (pre ++ part))) :
    sliceText d range = some part := by
  have hle : ¬lenBytes (pre ++ part) < lenBytes pre := by
    rw [lenBytes_append]
    omega
  rw [sliceText,hstart,hstop]
  change (if _ < _ then none else some _) = _
  rw [if_neg hle,h.text,byteSlice_middle]

/-- An edit of a part of a text. -/
theorem PartAt.becomes_iff (h : PartAt d pre part post place) {new text : Rope}
    (hstart : lspPositionToByteOffset d range.start = .ok (lenBytes pre))
    (hstop : lspPositionToByteOffset d range.end = .ok (lenBytes (pre ++ part))) :
    Becomes d [⟨range,String.ofList text⟩] new ↔ new = pre ++ text ++ post := by
  have hdone : applyEdits d [(⟨range,String.ofList text⟩,lenBytes pre,lenBytes (pre ++ part))] =
      .ok (pre ++ text ++ post) := by
    rw [applyEdits,applyEdits]
    change replaceRange d _ _ _ = _
    rw [h.text,String.toList_ofList]
    exact replaceRange_middle pre part post text
  have hdenotes : ∀ e ∈ [((⟨range,String.ofList text⟩ : TextEdit),lenBytes pre,lenBytes (pre ++ part))],
      Denotes d e.1 e.2 := List.forall_mem_singleton.mpr ⟨hstart,hstop⟩
  constructor
  · rintro ⟨placed,hmap,hplaced,happlied⟩
    have hunique : placed =
        [((⟨range,String.ofList text⟩ : TextEdit),lenBytes pre,lenBytes (pre ++ part))] :=
      ConcreteSyntax.placed_unique hmap hplaced hdenotes
    rw [hunique,hdone] at happlied
    exact (Outcome.ok.inj happlied).symm
  · rintro rfl
    exact ⟨_,rfl,hdenotes,hdone⟩

end lemmas

section theorems

variable (F : BlockFormatter) {d : Rope} {body : Blocks F.Value} {ch : String} {pos : Position}

/-- What the handler does: nothing, or an edit of the block that it picks. -/
theorem onTypeFormatting_cases (ch : String) (pos : Position) (hparse : F.parse d = some body) :
    (onTypeFormatting F.format (some body) d ch pos = none ∧
        ((ch = "\x7d" ∨ ch = "=") → enclosingBlock d pos 0 none body = none)) ∨
      ∃ path range place inner pre part post x t y,
        (ch = "\x7d" ∨ ch = "=") ∧ enclosingBlock d pos 0 none body = some (path,range) ∧
        body.blockAt path = some (place,inner) ∧ PartAt d pre part post place ∧
        lspPositionToByteOffset d range.start = .ok (lenBytes pre) ∧
        lspPositionToByteOffset d range.end = .ok (lenBytes (pre ++ part)) ∧
        part.getLast? = some '\x7d' ∧ F.parse part = some x ∧
        F.format part = some (t ++ ['\n']) ∧ t.getLast? ≠ some '\n' ∧
        F.parse (t ++ ['\n']) = some y ∧ y.erase = x.erase ∧
        onTypeFormatting F.format (some body) d ch pos =
          if t = part then some [] else some [⟨range,String.ofList t⟩] := by
  by_cases hch : ch = "\x7d" ∨ ch = "="
  · have hrange := enclosingBlockRange_eq d pos body 0 none
    rw [Option.map_none] at hrange
    cases hpicked : enclosingBlock d pos 0 none body with
    | none =>
      refine Or.inl ⟨?_,fun _ => rfl⟩
      rw [onTypeFormatting,if_pos hch]
      change (enclosingBlockRange d pos none body >>= _) = _
      rw [hrange,hpicked]
      rfl
    | some found =>
      obtain ⟨path,range⟩ := found
      obtain hnone | ⟨m,q,place,inner,rfl,hat,hplace⟩ := blockAt_of_enclosingBlock hpicked
      · cases hnone
      rw [Nat.zero_add] at hpicked ⊢
      obtain ⟨pre,part,post,hpart,hhead,hlast⟩ := F.blockText hparse hat
      obtain ⟨hstart,hstop⟩ := hpart.denotes hhead hlast hplace
      obtain ⟨x,inner',halone,-,-⟩ := F.alone hparse hat hpart
      have hx := halone [] List.mem_cons_self
      rw [List.append_nil] at hx
      obtain ⟨formatted,y,hformat,hy,herase⟩ := F.keeps hx
      obtain ⟨t,rfl,ht⟩ := F.oneNewline hformat
      refine Or.inr ⟨m::q,range,place,inner,pre,part,post,x,t,y,hch,rfl,hat,hpart,hstart,hstop,hlast,hx,
        hformat,ht,hy,herase,?_⟩
      rw [onTypeFormatting,if_pos hch]
      change (enclosingBlockRange d pos none body >>= _) = _
      rw [hrange,hpicked]
      change (sliceText d range >>= _) = _
      rw [hpart.sliceText_eq hstart hstop]
      change (F.format part >>= _) = _
      rw [hformat]
      change (if matchTrailingNewline (t ++ ['\n']) part = part then _ else _) = _
      rw [matchTrailingNewline_eq hlast ht]
  · exact Or.inl ⟨if_neg hch,fun htrigger => absurd htrigger hch⟩

/-- A block that stands alone as it stands in its document is outermost or in one line. -/
theorem outermost_or_oneLine {path : List ℕ} {place : Option Span} {inner : Blocks F.Value}
    {pre part post : Rope} (hformat : F.format d = some d) (hparse : F.parse d = some body)
    (hat : body.blockAt path = some (place,inner)) (hpart : PartAt d pre part post place) :
    F.format part = some (part ++ ['\n']) ↔ depth path = 0 ∨ '\n' ∉ part := by
  constructor
  · intro halone
    by_contra hnot
    obtain ⟨hdepth,hlines⟩ := not_or.mp hnot
    rw [not_not] at hlines
    obtain ⟨x,inner',hread,-,hfirst⟩ := F.alone hparse hat hpart
    have hwhole : PartAt (part ++ ['\n']) [] part ['\n'] (some (0,lenBytes part)) := ⟨rfl,rfl⟩
    have hzero := F.indents (F.idempotent halone) (hread ['\n'] (by simp)) hfirst hwhole hlines
    have hindent := F.indents hformat hparse hat hpart hlines
    rw [hzero] at hindent
    have hpath : depth [0] = 0 := rfl
    omega
  · intro hcase
    obtain ⟨u,hu,hindented⟩ := F.shifts hformat hparse hat hpart
    have heq : u = part := by
      rcases hcase with hdepth | hline
      · rw [hdepth] at hindented
        exact hindented.eq_of_zero
      · exact hindented.eq_of_oneLine hline
    rw [← heq]
    exact hu

end theorems

/-! ## Documents that are listed -/

section samples

instance decidableIndented (n : ℕ) : ∀ u s : Rope, Decidable (Indented n u s)
  | [], s => inferInstanceAs (Decidable (s = []))
  | _::u, s =>
    have := decidableIndented n u s.tail
    have := decidableIndented n u (s.tail.drop n)
    inferInstanceAs (Decidable (_ ∧ (_ ∨ _ ∧ _ ∧ _)))

/-- A text with its tree and with what the formatter makes of it. -/
structure Sample where
  text : Rope
  tree : Blocks Unit
  formatted : Rope
  deriving DecidableEq

variable {docs : List Sample}

def sampleAt (docs : List Sample) (s : Rope) : Option Sample := docs.find? fun doc => doc.text = s

def treeAt (docs : List Sample) (s : Rope) : Option (Blocks Unit) := (sampleAt docs s).map Sample.tree

def formattedAt (docs : List Sample) (s : Rope) : Option Rope := (sampleAt docs s).map Sample.formatted

theorem mem_of_sampleAt {s : Rope} {doc : Sample} (h : sampleAt docs s = some doc) :
    doc ∈ docs ∧ doc.text = s :=
  ⟨List.mem_of_find?_eq_some h,by simpa using List.find?_some h⟩

theorem exists_of_treeAt {s : Rope} {x : Blocks Unit} (h : treeAt docs s = some x) :
    ∃ doc ∈ docs, doc.text = s ∧ doc.tree = x ∧ formattedAt docs s = some doc.formatted := by
  obtain ⟨doc,hdoc,rfl⟩ := Option.map_eq_some_iff.mp h
  obtain ⟨hmem,htext⟩ := mem_of_sampleAt hdoc
  exact ⟨doc,hmem,htext,rfl,by rw [formattedAt,hdoc]; rfl⟩

theorem exists_of_formattedAt {s t : Rope} (h : formattedAt docs s = some t) :
    ∃ doc ∈ docs, doc.formatted = t := by
  obtain ⟨doc,hdoc,rfl⟩ := Option.map_eq_some_iff.mp h
  exact ⟨doc,(mem_of_sampleAt hdoc).1,rfl⟩

/-- A text before, at and behind a span. -/
def partsOf (d : Rope) (place : Option Span) : Rope × Rope × Rope :=
  place.elim ([],[],[]) fun s =>
    (d.take (byteToChar d s.1),byteSlice d s.1 s.2,d.drop (byteToChar d s.2))

theorem PartAt.partsOf_eq {d pre part post : Rope} {place : Option Span}
    (h : PartAt d pre part post place) : partsOf d place = (pre,part,post) := by
  obtain ⟨rfl,rfl⟩ := h
  rw [partsOf,Option.elim_some,byteSlice_middle,byteToChar_append,List.drop_left,List.append_assoc,
    byteToChar_append,List.take_left]

/-- The listed texts behave as those of the crates do. -/
structure Coherent (docs : List Sample) : Prop where
  blockText : ∀ doc ∈ docs, ∀ x ∈ doc.tree.blocks,
    doc.text = (partsOf doc.text x.2.1).1 ++ (partsOf doc.text x.2.1).2.1 ++ (partsOf doc.text x.2.1).2.2 ∧
      x.2.1 = some (lenBytes (partsOf doc.text x.2.1).1,
        lenBytes ((partsOf doc.text x.2.1).1 ++ (partsOf doc.text x.2.1).2.1)) ∧
      (partsOf doc.text x.2.1).2.1.head? ≠ some '\n' ∧
      (partsOf doc.text x.2.1).2.1.getLast? = some '\x7d'
  alone : ∀ doc ∈ docs, ∀ x ∈ doc.tree.blocks, ∃ doc' ∈ docs,
    (∀ tail ∈ [[],['\n']], treeAt docs ((partsOf doc.text x.2.1).2.1 ++ tail) = some doc'.tree) ∧
      doc'.tree.length = 1 ∧ (doc'.tree.blockAt [0]).map Prod.fst =
        some (some (0,lenBytes (partsOf doc.text x.2.1).2.1))
  exchange : ∀ doc ∈ docs, ∀ x ∈ doc.tree.blocks, ∀ doc' ∈ docs, doc'.text = doc'.text.dropLast ++ ['\n'] →
    (treeAt docs (partsOf doc.text x.2.1).2.1).map Items.erase = some doc'.tree.erase →
      (treeAt docs ((partsOf doc.text x.2.1).1 ++ doc'.text.dropLast ++
        (partsOf doc.text x.2.1).2.2)).map Items.erase = some doc.tree.erase
  keeps : ∀ doc ∈ docs, (treeAt docs doc.formatted).map Items.erase = some doc.tree.erase
  idempotent : ∀ doc ∈ docs, formattedAt docs doc.formatted = some doc.formatted
  oneNewline : ∀ doc ∈ docs, doc.formatted = doc.formatted.dropLast ++ ['\n'] ∧
    doc.formatted.dropLast.getLast? ≠ some '\n'
  indents : ∀ doc ∈ docs, doc.formatted = doc.text → ∀ x ∈ doc.tree.blocks,
    '\n' ∈ (partsOf doc.text x.2.1).2.1 →
      lastIndent (partsOf doc.text x.2.1).2.1 = 2 * depth x.1
  shifts : ∀ doc ∈ docs, doc.formatted = doc.text → ∀ x ∈ doc.tree.blocks, ∃ doc' ∈ docs,
    formattedAt docs doc'.text = some (doc'.text ++ ['\n']) ∧
      Indented (2 * depth x.1) doc'.text (partsOf doc.text x.2.1).2.1

def ofSamples (docs : List Sample) (h : Coherent docs) : BlockFormatter where
  Value := Unit
  parse := treeAt docs
  format := formattedAt docs
  blockText := fun hparse hat => by
    obtain ⟨doc,hdoc,rfl,rfl,-⟩ := exists_of_treeAt hparse
    obtain ⟨htext,hplace,hhead,hlast⟩ := h.blockText doc hdoc _ (Items.mem_blocks hat)
    exact ⟨_,_,_,⟨htext,hplace⟩,hhead,hlast⟩
  alone := fun hparse hat hpart => by
    obtain ⟨doc,hdoc,rfl,rfl,-⟩ := exists_of_treeAt hparse
    obtain ⟨doc',-,hread,hlength,hfirst⟩ := h.alone doc hdoc _ (Items.mem_blocks hat)
    rw [hpart.partsOf_eq] at hread hfirst
    obtain ⟨⟨place,inner'⟩,hblock,hplace⟩ := Option.map_eq_some_iff.mp hfirst
    refine ⟨doc'.tree,inner',hread,hlength,?_⟩
    rw [hblock]
    exact congrArg (fun p => some (p,inner')) hplace
  exchange := fun hparse hat hpart hx hy herase _ => by
    obtain ⟨doc,hdoc,rfl,rfl,-⟩ := exists_of_treeAt hparse
    obtain ⟨doc',hdoc',htext,rfl,-⟩ := exists_of_treeAt hy
    have hexchange := h.exchange doc hdoc _ (Items.mem_blocks hat) doc' hdoc'
    rw [hpart.partsOf_eq,htext,List.dropLast_concat,hx] at hexchange
    exact Option.map_eq_some_iff.mp (hexchange rfl (congrArg some herase.symm))
  keeps := fun hparse => by
    obtain ⟨doc,hdoc,rfl,rfl,hformat⟩ := exists_of_treeAt hparse
    obtain ⟨y,hy,herase⟩ := Option.map_eq_some_iff.mp (h.keeps doc hdoc)
    exact ⟨doc.formatted,y,hformat,hy,herase⟩
  idempotent := fun hformat => by
    obtain ⟨doc,hdoc,rfl⟩ := exists_of_formattedAt hformat
    exact h.idempotent doc hdoc
  oneNewline := fun hformat => by
    obtain ⟨doc,hdoc,rfl⟩ := exists_of_formattedAt hformat
    exact ⟨_,h.oneNewline doc hdoc⟩
  indents := fun hformat hparse hat hpart hlines => by
    obtain ⟨doc,hdoc,rfl,rfl,hdone⟩ := exists_of_treeAt hparse
    have hindents := h.indents doc hdoc (Option.some.inj (hdone.symm.trans hformat)) _ (Items.mem_blocks hat)
    rw [hpart.partsOf_eq] at hindents
    exact hindents hlines
  shifts := fun hformat hparse hat hpart => by
    obtain ⟨doc,hdoc,rfl,rfl,hdone⟩ := exists_of_treeAt hparse
    obtain ⟨doc',-,hfixed,hindented⟩ := h.shifts doc hdoc (Option.some.inj (hdone.symm.trans hformat)) _
      (Items.mem_blocks hat)
    rw [hpart.partsOf_eq] at hindented
    exact ⟨doc'.text,hfixed,hindented⟩

/-- A block `b`, and a block `a` with `b` in it. -/
def innerTree (start stop : ℕ) : Blocks Unit := .block (some (start,stop)) "b" [] .nil .nil

def outerTree (stop innerStop : ℕ) : Blocks Unit :=
  .block (some (0,stop)) "a" [] (innerTree 6 innerStop) .nil

def nestedText : Rope := "a \x7b\n  b \x7b\n  \x7d\n\x7d\n".toList

/-- The same with the inner block as it is formatted by itself. -/
def outdentedText : Rope := "a \x7b\n  b \x7b\n\x7d\n\x7d\n".toList

def samples : List Sample :=
  [⟨nestedText,outerTree 15 13,nestedText⟩,⟨nestedText.dropLast,outerTree 15 13,nestedText⟩,
    ⟨outdentedText,outerTree 13 11,nestedText⟩,⟨outdentedText.dropLast,outerTree 13 11,nestedText⟩,
    ⟨"b \x7b\n  \x7d".toList,innerTree 0 7,"b \x7b\n\x7d\n".toList⟩,
    ⟨"b \x7b\n  \x7d\n".toList,innerTree 0 7,"b \x7b\n\x7d\n".toList⟩,
    ⟨"b \x7b\n\x7d".toList,innerTree 0 5,"b \x7b\n\x7d\n".toList⟩,
    ⟨"b \x7b\n\x7d\n".toList,innerTree 0 5,"b \x7b\n\x7d\n".toList⟩]

theorem samples_coherent : Coherent samples where
  blockText := by decide +kernel
  alone := by decide +kernel
  exchange := by decide +kernel
  keeps := by decide +kernel
  idempotent := by decide +kernel
  oneNewline := by decide +kernel
  indents := by decide +kernel
  shifts := by decide +kernel

def sampleFormatter : BlockFormatter := ofSamples samples samples_coherent

theorem sampleFormatter_parse : sampleFormatter.parse nestedText = some (outerTree 15 13) :=
  show treeAt samples nestedText = some (outerTree 15 13) by decide +kernel

end samples

end Formatting
end TerraformLs
