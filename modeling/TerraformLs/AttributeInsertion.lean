import TerraformLs.BodyTrees
import TerraformLs.ByteText
import TerraformLs.ConcreteSyntax
import TerraformLs.PartialRuns

/-! Where the fixes that add an attribute put it: behind the first line feed in or after the
body of the block, or behind the first brace of its text. -/
namespace TerraformLs
namespace AttributeInsertion

open Rope BodyTrees PartialRuns ConcreteSyntax

/-- The spans of an item, and of its body. -/
structure Place where
  span : Option Spanned.Span
  bodySpan : Option Spanned.Span
  deriving DecidableEq

/-- `str::find` of a character, in bytes. -/
def findChar (c : Char) (s : Rope) : Option ℕ :=
  if c ∈ s then some (lenBytes (s.takeWhile (· ≠ c))) else none

/-- Insert new attributes at the top of the block body. -/
def insertionPosition (block : Place) (rope : Rope) : Option (Position × String) :=
  match block.bodySpan with
  | some bodySpan => do
    let text := rope.drop (rope.byteToChar bodySpan.1)
    let offset := (findChar '\n' text).elim 0 (· + 1)
    let pos ← (byteOffsetToLspPosition rope (bodySpan.1 + offset)).toOption
    return (pos,"")
  | none => do
    let blockSpan ← block.span
    let braceOff ← findChar '\x7b' (byteSlice rope blockSpan.1 blockSpan.2)
    let pos ← (byteOffsetToLspPosition rope (blockSpan.1 + braceOff + 1)).toOption
    return (pos,"\n")

/-- An attribute as the fixes write it. -/
structure NewAttribute where
  key : Rope
  value : Rope
  visible : ∃ c s, key = c :: s ∧ c ∉ [' ','\t','\r','\n','/','#']
  starless : '*' ∉ key ++ value

def NewAttribute.line (attr : NewAttribute) : Rope :=
  ' ' :: ' ' :: (attr.key ++ (' ' :: '=' :: ' ' :: (attr.value ++ ['\n'])))

def insertEdit (block : Place) (rope : Rope) (attr : NewAttribute) : Option TextEdit :=
  (insertionPosition block rope).map fun at' =>
    ⟨⟨at'.1,at'.1⟩,String.ofList (at'.2.toList ++ attr.line)⟩

/-! ## The text of a block -/

inductive HeadState
  | plain | slash | quoted | escaped | comment | star
  deriving DecidableEq

/-- The text before the brace of a block: words, quoted labels and comments. -/
def headStep : HeadState → Char → Option HeadState
  | .plain, c =>
    if c = '\x7b' ∨ c = '\n' then none
    else if c = '"' then some .quoted
    else if c = '/' then some .slash
    else some .plain
  | .slash, c => if c = '*' then some .comment else none
  | .quoted, c =>
    if c = '\n' then none
    else if c = '"' then some .plain
    else if c = '\\' then some .escaped
    else some .quoted
  | .escaped, c => if c = '\n' then none else some .quoted
  | .comment, c => some (if c = '*' then .star else .comment)
  | .star, c => some (if c = '/' then .plain else if c = '*' then .star else .comment)

inductive LayoutState
  | blank | slash | line | comment | star
  deriving DecidableEq

/-- Blanks and comments, those of one line or of several. -/
def layoutStep (across : Bool) : LayoutState → Char → Option LayoutState
  | .blank, c =>
    if c = ' ' ∨ c = '\t' ∨ c = '\r' then some .blank
    else if c = '/' then some .slash
    else if c = '#' then some .line
    else if c = '\n' ∧ across = true then some .blank
    else none
  | .slash, c => if c = '*' then some .comment else if c = '/' then some .line else none
  | .line, c => if c = '\n' then if across then some .blank else none else some .line
  | .comment, c => some (if c = '*' then .star else .comment)
  | .star, c => some (if c = '/' then .blank else if c = '*' then .star else .comment)

/-- The text before a block, its header, and the text behind its brace. -/
def opening (s : Rope) (block : Place) : Option (Rope × Rope × Rope) :=
  match block.span with
  | none => none
  | some span =>
    if onBoundary s span.1 then
      match consume headStep .plain (s.drop (byteToChar s span.1)) with
      | (h,.plain,'\x7b'::rest) => some (s.take (byteToChar s span.1),h,rest)
      | _ => none
    else none

/-- The layout up to the end of a line, and the text behind it. -/
def lineEnd (rest : Rope) : Option (Rope × Rope) :=
  match consume (layoutStep false) .blank rest with
  | (l,.blank,'\n'::v) => some (l,v)
  | (l,.line,'\n'::v) => some (l,v)
  | _ => none

/-- The first of a text that is no layout. -/
def firstBehind (rest : Rope) : Option Char := (consume (layoutStep true) .blank rest).2.2.head?

/-- The text before a block, its header, and the text behind the line of its brace. -/
def headLine (s : Rope) (block : Place) : Option (Rope × Rope × Rope) :=
  (opening s block).bind fun o => (lineEnd o.2.2).map fun l => (o.1,o.2.1,l.2)

section forms

variable {V : Type}

/-- What is known of the text of a block: its span goes beyond the brace, an empty body in one
line has no span and another one begins behind the brace, the first thing there is the other
brace just where the body is empty, and two items stand on lines of their own. -/
structure Formed (s : Rope) (block : Place) (body : Items V Place) (o : Rope × Rope × Rope) :
    Prop where
  text : ∃ span ∈ block.span, o.2.1 ++ ['\x7b'] <+: byteSlice s span.1 span.2
  unset : block.bodySpan = none → body.length = 0
  bodySpan : ∀ span ∈ block.bodySpan, span.1 = lenBytes (o.1 ++ o.2.1 ++ ['\x7b']) ∧
    (body.length = 0 → (lineEnd o.2.2).isSome = true)
  closed : firstBehind o.2.2 = some '\x7d' ↔ body.length = 0
  lines : 2 ≤ body.length → (lineEnd o.2.2).isSome = true

/-- A text is read as a document with an attribute more in one of its bodies. -/
def Grown (parse : Rope → Option (Items V Place)) (d : Items V Place) (path : List ℕ) (key : String)
    (value : V) (new : Rope) : Prop :=
  ∃ d', parse new = some d' ∧ Items.Added key value path d.erase d'.erase

end forms

/-- The parser crate, as far as bodies go. -/
structure BodyParser where
  Value : Type
  parse : Rope → Option (Items Value Place)
  value : NewAttribute → Value
  formed : ∀ {s d path block body}, parse s = some d → d.blockAt path = some (block,body) →
    ∃ o, opening s block = some o ∧ Formed s block body o
  /-- A text is read from left to right. -/
  leftToRight : ∀ {s s' d d' path block block' body body'}, parse s = some d → parse s' = some d' →
    d.blockAt path = some (block,body) → d'.blockAt path = some (block',body') →
      ∀ {x c y y'}, s = x ++ c :: y → s' = x ++ c :: y' →
        block.span.map Prod.fst = some (lenBytes x) → block'.span.map Prod.fst = some (lenBytes x)
  /-- The layout behind a brace says nothing. -/
  layout : ∀ {s s' d d' path block block' body body'}, parse s = some d → parse s' = some d' →
    d.blockAt path = some (block,body) → d'.blockAt path = some (block',body') →
      (headLine s block).isSome = true → headLine s block = headLine s' block' →
        d.erase = d'.erase
  /-- The body of a block takes an attribute: it has none of that name. -/
  Takes : Rope → List ℕ → NewAttribute → Prop
  takes : ∀ {s d path block body a h rest attr}, parse s = some d →
    d.blockAt path = some (block,body) → Takes s path attr → opening s block = some (a,h,rest) →
      (∀ l v, lineEnd rest = some (l,v) → Grown parse d path (String.ofList attr.key) (value attr)
        (a ++ (h ++ '\x7b' :: (l ++ '\n' :: (attr.line ++ v))))) ∧
      (body.length = 0 → Grown parse d path (String.ofList attr.key) (value attr)
        (a ++ (h ++ '\x7b' :: '\n' :: (attr.line ++ rest))))

section language

variable (P : BodyParser)

/-- The edit leads to the document with the attribute in the body of this block. -/
def Preserved (s : Rope) (path : List ℕ) (attr : NewAttribute) : Prop :=
  ∃ d block body edit span, P.parse s = some d ∧ d.blockAt path = some (block,body) ∧
    insertEdit block s attr = some edit ∧ Formatting.Denotes s edit span ∧
    ∃ new, Formatting.applyEdits s [(edit,span)] = .ok new ∧
      Grown P.parse d path (String.ofList attr.key) (P.value attr) new

end language

/-- The first line feed behind the brace ends its line, or, where the body is empty, the brace
is the first one of the block. -/
def AtTop (block : Place) (o : Rope × Rope × Rope) : Prop :=
  if block.bodySpan = none then '\x7b' ∉ o.2.1
  else ∃ l v, lineEnd o.2.2 = some (l,v) ∧ '\n' ∉ l

section texts

variable {s a h rest u v x y l : Rope} {c : Char} {block : Place} {attr : NewAttribute}

theorem takeWhile_split (hu : c ∉ u) : (u ++ c :: v).takeWhile (· ≠ c) = u := by
  have hall : ∀ b ∈ u, decide (b ≠ c) = true := fun b hb =>
    decide_eq_true fun heq => hu (heq ▸ hb)
  rw [List.takeWhile_append_of_pos hall,List.takeWhile_cons_of_neg (by simp),List.append_nil]

theorem findChar_split (hu : c ∉ u) : findChar c (u ++ c :: v) = some (lenBytes u) := by
  rw [findChar,if_pos (List.mem_append_right _ List.mem_cons_self),takeWhile_split hu]

theorem opening_eq (ho : opening s block = some (a,h,rest)) :
    block.span.map Prod.fst = some (lenBytes a) ∧ s = a ++ (h ++ '\x7b' :: rest) ∧
      PartialRuns.run headStep .plain h = some .plain := by
  rw [opening] at ho
  split at ho
  · cases ho
  rename_i span hspan
  split_ifs at ho with hboundary
  split at ho
  · rename_i hconsume
    obtain ⟨rfl,rfl,rfl⟩ : s.take (byteToChar s span.1) = a ∧ _ = h ∧ _ = rest := by
      simpa using ho
    obtain ⟨hsplit,hrun,-⟩ := consume_eq hconsume
    refine ⟨?_,by rw [← hsplit,List.take_append_drop],hrun⟩
    rw [onBoundary,charToByte,decide_eq_true_eq] at hboundary
    rw [hspan,Option.map_some,hboundary]
  · cases ho

theorem opening_of (hspan : block.span.map Prod.fst = some (lenBytes a))
    (hrun : PartialRuns.run headStep .plain h = some .plain) :
    opening (a ++ (h ++ '\x7b' :: rest)) block = some (a,h,rest) := by
  obtain ⟨span,hblock,hstart⟩ := Option.map_eq_some_iff.mp hspan
  have hstuck := consume_stuck (t:=rest) hrun (show headStep .plain '\x7b' = none from rfl)
  simp only [opening,hblock,hstart]
  rw [if_pos (onBoundary_append _ _),byteToChar_append,List.drop_left,List.take_left,hstuck]
  rfl

theorem lineEnd_eq (hl : lineEnd rest = some (l,v)) : ∃ q, rest = l ++ '\n' :: v ∧
    PartialRuns.run (layoutStep false) .blank l = some q ∧ (q = .blank ∨ q = .line) := by
  rw [lineEnd] at hl
  split at hl <;> cases hl
  · rename_i hconsume
    obtain ⟨hsplit,hrun,-⟩ := consume_eq hconsume
    exact ⟨_,hsplit,hrun,.inl rfl⟩
  · rename_i hconsume
    obtain ⟨hsplit,hrun,-⟩ := consume_eq hconsume
    exact ⟨_,hsplit,hrun,.inr rfl⟩

theorem lineEnd_of {q : LayoutState} (hrun : PartialRuns.run (layoutStep false) .blank l = some q)
    (hq : q = .blank ∨ q = .line) : lineEnd (l ++ '\n' :: v) = some (l,v) := by
  rcases hq with rfl | rfl <;>
  · rw [lineEnd,consume_stuck hrun rfl]
    rfl

theorem comment_head (hs : '*' ∉ s) : PartialRuns.run headStep .comment s = some .comment := by
  induction s with
  | nil => rfl
  | cons c s ih =>
    rw [List.mem_cons,not_or] at hs
    rw [PartialRuns.run,headStep,if_neg (Ne.symm hs.1),Option.bind_some,ih hs.2]

theorem comment_layout {across : Bool} (hs : '*' ∉ s) :
    PartialRuns.run (layoutStep across) .comment s = some .comment := by
  induction s with
  | nil => rfl
  | cons c s ih =>
    rw [List.mem_cons,not_or] at hs
    rw [PartialRuns.run,layoutStep,if_neg (Ne.symm hs.1),Option.bind_some,ih hs.2]

theorem NewAttribute.starless_line (attr : NewAttribute) : '*' ∉ attr.line := by
  have hstar := attr.starless
  simpa [NewAttribute.line] using hstar

/-- A line of an attribute is no layout. -/
theorem lineEnd_line (attr : NewAttribute) (rest : Rope) : lineEnd (attr.line ++ rest) = none := by
  obtain ⟨c,s,hkey,hc⟩ := attr.visible
  simp only [List.mem_cons,List.not_mem_nil,or_false,not_or] at hc
  have hstep : layoutStep false .blank c = none := by
    rw [layoutStep,if_neg (by simp [hc]),if_neg hc.2.2.2.2.1,if_neg hc.2.2.2.2.2,if_neg (by simp)]
  have hstuck : ∀ t, consume (layoutStep false) .blank ([' ',' '] ++ c :: t) =
      ([' ',' '],.blank,c :: t) := fun t => consume_stuck rfl hstep
  have hline : attr.line ++ rest =
      [' ',' '] ++ c :: (s ++ (' ' :: '=' :: ' ' :: (attr.value ++ ['\n'])) ++ rest) := by
    simp [NewAttribute.line,hkey]
  rw [lineEnd,hline,hstuck]
  split
  · rename_i heq
    obtain ⟨-,rfl,-⟩ : _ ∧ c = '\n' ∧ _ := by simpa using heq
    exact absurd rfl hc.2.2.2.1
  · rename_i heq
    simp at heq
  · rfl

end texts

section insertions

variable {P : BodyParser} {s a h rest u v x y pre new : Rope} {path : List ℕ} {block : Place}
  {attr : NewAttribute} {d : Items P.Value Place} {body : Items P.Value Place}

/-- The edit puts a text that ends in the line between the two parts. -/
def Inserts (s : Rope) (block : Place) (attr : NewAttribute) (x y pre : Rope) : Prop :=
  s = x ++ y ∧ ∃ edit, insertEdit block s attr = some edit ∧
    Formatting.Denotes s edit (lenBytes x,lenBytes x) ∧ edit.newText.toList = pre ++ attr.line

theorem inserts_of_position (text : String) (hlast : x.getLast? ≠ some '\r')
    (h : ∀ position, byteOffsetToLspPosition (x ++ y) (lenBytes x) = .ok position →
      insertionPosition block (x ++ y) = some (position,text)) :
    Inserts (x ++ y) block attr x y text.toList := by
  have hinside : ¬InsideCrlf (x ++ y) (lenBytes x) := fun hinside =>
    hlast (insideCrlf_iff.mp hinside).1
  obtain ⟨position,hposition,hback⟩ := position_back hinside
  refine ⟨rfl,_,by rw [insertEdit,h position hposition,Option.map_some],⟨hback,hback⟩,?_⟩
  rw [String.toList_ofList]

theorem inserts_line {span : Spanned.Span} (hblock : block.bodySpan = some span)
    (hstart : span.1 = lenBytes (a ++ h ++ ['\x7b'])) (hu : '\n' ∉ u) : Inserts (a ++ (h ++ '\x7b' :: (u ++ '\n' :: v))) block attr
      (a ++ (h ++ '\x7b' :: (u ++ ['\n']))) v [] := by
  have hsplit : a ++ (h ++ '\x7b' :: (u ++ '\n' :: v)) =
      a ++ (h ++ '\x7b' :: (u ++ ['\n'])) ++ v := by simp
  have hbrace : a ++ (h ++ '\x7b' :: (u ++ ['\n'])) ++ v =
      a ++ h ++ ['\x7b'] ++ (u ++ '\n' :: v) := by simp
  have hoffset : lenBytes (a ++ h ++ ['\x7b']) + (lenBytes u + 1) =
      lenBytes (a ++ (h ++ '\x7b' :: (u ++ ['\n']))) := by
    have hnewline : '\n'.utf8Size = 1 := rfl
    simp only [lenBytes_append,lenBytes_cons,lenBytes_nil,hnewline]
    omega
  have hlast : (a ++ (h ++ '\x7b' :: (u ++ ['\n']))).getLast? ≠ some '\r' := by
    have hjoin : a ++ (h ++ '\x7b' :: (u ++ ['\n'])) = a ++ (h ++ '\x7b' :: u) ++ ['\n'] := by simp
    rw [hjoin,List.getLast?_append]
    simp
  rw [hsplit]
  refine inserts_of_position "" hlast fun position hposition => ?_
  rw [insertionPosition,hblock]
  simp only [hstart]
  rw [hbrace,byteToChar_append,List.drop_left,findChar_split hu,Option.elim_some,hoffset,← hbrace,
    hposition]
  rfl

theorem inserts_none {span : Spanned.Span} (hblock : block.bodySpan = some span)
    (hstart : span.1 = lenBytes (a ++ h ++ ['\x7b'])) (hrest : '\n' ∉ rest) :
    Inserts (a ++ (h ++ '\x7b' :: rest)) block attr (a ++ (h ++ ['\x7b'])) rest [] := by
  have hsplit : a ++ (h ++ '\x7b' :: rest) = a ++ (h ++ ['\x7b']) ++ rest := by simp
  rw [hsplit]
  refine inserts_of_position "" (by simp) fun position hposition => ?_
  rw [insertionPosition,hblock]
  simp only [hstart]
  rw [← List.append_assoc,byteToChar_append,List.drop_left,findChar,if_neg hrest,Option.elim_none,
    Nat.add_zero,List.append_assoc a,hposition]
  rfl

theorem inserts_empty (attr : NewAttribute) {inner : Rope} {span : Spanned.Span}
    (hbody : block.bodySpan = none)
    (hspan : block.span = some span) (hstart : span.1 = lenBytes a)
    (htext : byteSlice (a ++ (u ++ '\x7b' :: y)) span.1 span.2 = u ++ '\x7b' :: inner)
    (hu : '\x7b' ∉ u) : Inserts (a ++ (u ++ '\x7b' :: y)) block attr (a ++ (u ++ ['\x7b'])) y
      ['\n'] := by
  have hsplit : a ++ (u ++ '\x7b' :: y) = a ++ (u ++ ['\x7b']) ++ y := by simp
  have hoffset : lenBytes a + lenBytes u + 1 = lenBytes (a ++ (u ++ ['\x7b'])) := by
    have hbrace : '\x7b'.utf8Size = 1 := rfl
    simp only [lenBytes_append,lenBytes_cons,lenBytes_nil,hbrace]
    omega
  rw [hsplit] at htext ⊢
  refine inserts_of_position "\n" (by simp) fun position hposition => ?_
  rw [insertionPosition,hbody]
  simp only [hspan,Option.bind_eq_bind,Option.bind_some]
  rw [htext,findChar_split hu,Option.bind_some,hstart,hoffset,hposition]
  rfl

theorem preserved_iff_grown (hd : P.parse s = some d) (hblock : d.blockAt path = some (block,body))
    (hins : Inserts s block attr x y pre) : Preserved P s path attr ↔
      Grown P.parse d path (String.ofList attr.key) (P.value attr)
        (x ++ (pre ++ attr.line) ++ y) := by
  obtain ⟨rfl,edit,hedit,hdenotes,htext⟩ := hins
  have happly : Formatting.applyEdits (x ++ y) [(edit,lenBytes x,lenBytes x)] =
      .ok (x ++ (pre ++ attr.line) ++ y) := by
    have hdone := Formatting.replaceRange_middle x [] y edit.newText.toList
    rw [List.append_nil] at hdone
    rw [← htext]
    exact hdone
  constructor
  · rintro ⟨d₁,block₁,body₁,edit₁,span,hd₁,hblock₁,hedit₁,hdenotes₁,new,hnew,hgrown⟩
    obtain rfl := Option.some.inj (hd.symm.trans hd₁)
    obtain ⟨rfl,rfl⟩ := Prod.mk.inj (Option.some.inj (hblock.symm.trans hblock₁))
    obtain rfl := Option.some.inj (hedit.symm.trans hedit₁)
    obtain rfl : (lenBytes x,lenBytes x) = span := Prod.ext
      (Except.ok.inj (hdenotes.1.symm.trans hdenotes₁.1))
      (Except.ok.inj (hdenotes.2.symm.trans hdenotes₁.2))
    obtain rfl := Outcome.ok.inj (happly.symm.trans hnew)
    exact hgrown
  · exact fun hgrown => ⟨d,block,body,edit,_,hd,hblock,hedit,hdenotes,_,happly,hgrown⟩

/-- The block that has got an attribute more begins at the same place. -/
theorem Grown.opened {key : String} {value : P.Value} (hgrown : Grown P.parse d path key value new)
    (hd : P.parse s = some d) (hblock : d.blockAt path = some (block,body))
    (ho : opening s block = some (a,h,rest)) {y' : Rope}
    (hs : s = a ++ (u ++ '\x7b' :: y)) (hnew : new = a ++ (u ++ '\x7b' :: y')) :
    ∃ d' block' body' h' rest', P.parse new = some d' ∧
      Items.Added key value path d.erase d'.erase ∧ d'.blockAt path = some (block',body') ∧
      body'.length = body.length + 1 ∧ block'.span.map Prod.fst = some (lenBytes a) ∧
      opening new block' = some (a,h',rest') ∧ Formed new block' body' (a,h',rest') := by
  obtain ⟨d',hd',hadded⟩ := hgrown
  obtain ⟨block',body',hblock',hlen⟩ := hadded.blockAt hblock
  obtain ⟨⟨a',h',rest'⟩,ho',hformed⟩ := P.formed hd' hblock'
  have hstart : block'.span.map Prod.fst = some (lenBytes a) := by
    have hspan := (opening_eq ho).1
    cases u with
    | nil => exact P.leftToRight hd hd' hblock hblock' hs hnew hspan
    | cons c u => exact P.leftToRight hd hd' hblock hblock' hs hnew hspan
  obtain ⟨hstart',hsplit,-⟩ := opening_eq ho'
  obtain ⟨rfl,-⟩ := append_inj_lenBytes (hsplit.symm.trans hnew)
    (Option.some.inj (hstart'.symm.trans hstart))
  exact ⟨d',block',body',h',rest',hd',hadded,hblock',hlen,hstart,ho',hformed⟩

end insertions

section preservation

variable {P : BodyParser} {s a h rest u v l : Rope} {c : Char} {path : List ℕ} {block : Place}
  {attr : NewAttribute} {d : Items P.Value Place} {body : Items P.Value Place}

theorem lineEnd_stuck {q : LayoutState} (hrun : PartialRuns.run (layoutStep false) .blank u = some q)
    (hstep : layoutStep false q c = none) (hc : c ≠ '\n' ∨ q = .slash) :
    lineEnd (u ++ c :: v) = none := by
  rw [lineEnd,consume_stuck hrun hstep]
  split
  · rename_i heq
    obtain ⟨-,rfl,rfl,-⟩ : _ ∧ q = .blank ∧ c = '\n' ∧ _ := by simpa using heq
    simp at hc
  · rename_i heq
    obtain ⟨-,rfl,rfl,-⟩ : _ ∧ q = .line ∧ c = '\n' ∧ _ := by simpa using heq
    simp at hc
  · rfl

/-- Behind two texts that end in a comment the line ends at the same place. -/
theorem lineEnd_comment {x x' : Rope} (hrun : PartialRuns.run (layoutStep false) .blank x = some .comment)
    (hrun' : PartialRuns.run (layoutStep false) .blank x' = some .comment) :
    (lineEnd (x ++ v)).map Prod.snd = (lineEnd (x' ++ v)).map Prod.snd := by
  rw [lineEnd,lineEnd,consume_append hrun,consume_append hrun']
  generalize (consume (layoutStep false) .comment v).2 = r
  rcases r with ⟨q,_ | ⟨c,w⟩⟩
  · cases q <;> rfl
  · by_cases hc : c = '\n'
    · subst hc
      cases q <;> rfl
    · cases q <;> simp [hc]

/-- A line that is added behind a line feed after the brace is added to the body just where the
line feed ends the line of the brace. -/
theorem grown_iff_line (hd : P.parse s = some d) (hblock : d.blockAt path = some (block,body))
    (ho : opening s block = some (a,h,u ++ '\n' :: v)) (hu : '\n' ∉ u)
    (hbody : body.length = 0 → (lineEnd (u ++ '\n' :: v)).isSome = true) (htakes : P.Takes s path attr) :
    Grown P.parse d path (String.ofList attr.key) (P.value attr)
      (a ++ (h ++ '\x7b' :: (u ++ '\n' :: (attr.line ++ v)))) ↔
        lineEnd (u ++ '\n' :: v) = some (u,v) := by
  refine ⟨fun hgrown => ?_,(P.takes hd hblock htakes ho).1 u v⟩
  obtain ⟨hspan,hs,hhead⟩ := opening_eq ho
  obtain ⟨d',block',body',h',rest',hd',hadded,hblock',hlen,hspan',ho',hformed⟩ :=
    hgrown.opened hd hblock ho hs rfl
  obtain ⟨rfl,rfl⟩ : h = h' ∧ _ = rest' := by
    simpa using (opening_of hspan' hhead).symm.trans ho'
  have hends : (lineEnd (u ++ '\n' :: v)).isSome = true ∨
      (lineEnd (u ++ '\n' :: (attr.line ++ v))).isSome = true := by
    by_cases hempty : body.length = 0
    · exact .inl (hbody hempty)
    · exact .inr (hformed.lines (by omega))
  cases hrun : PartialRuns.run (layoutStep false) .blank u with
  | none =>
    obtain ⟨x,c,t,q,rfl,hx,hstep⟩ := run_eq_none hrun
    have hc : c ≠ '\n' := by
      rintro rfl
      exact hu (List.mem_append_right _ List.mem_cons_self)
    rw [List.append_assoc,List.append_assoc,List.cons_append,List.cons_append,
      lineEnd_stuck hx hstep (.inl hc),lineEnd_stuck hx hstep (.inl hc)] at hends
    simp at hends
  | some q =>
    have hcomment : PartialRuns.run (layoutStep false) .blank (u ++ ['\n']) = some .comment → False := by
      intro hfeed
      have hline : PartialRuns.run (layoutStep false) .blank (u ++ ['\n'] ++ attr.line) = some .comment := by
        rw [PartialRuns.run_append_of hfeed,comment_layout attr.starless_line]
      have hsame := lineEnd_comment (v:=v) hfeed hline
      have hheads : headLine s block = headLine
          (a ++ (h ++ '\x7b' :: (u ++ '\n' :: (attr.line ++ v)))) block' := by
        rw [headLine,headLine,ho,ho']
        simp only [Option.bind_some]
        have hmap := congrArg (Option.map fun w => (a,h,w)) hsame
        rw [Option.map_map,Option.map_map] at hmap
        simpa [Function.comp_def] using hmap
      refine hadded.ne (P.layout hd hd' hblock hblock' ?_ hheads)
      rcases hends with hends | hends
      · rw [headLine,ho]
        simpa using hends
      · rw [hheads,headLine,ho']
        simpa using hends
    cases q with
    | blank => exact lineEnd_of hrun (.inl rfl)
    | line => exact lineEnd_of hrun (.inr rfl)
    | slash =>
      rw [lineEnd_stuck hrun rfl (.inr rfl),lineEnd_stuck hrun rfl (.inr rfl)] at hends
      simp at hends
    | comment | star => exact (hcomment (by rw [PartialRuns.run_append_of hrun]; rfl)).elim

theorem preserved_iff_line (hd : P.parse s = some d) (hblock : d.blockAt path = some (block,body))
    (ho : opening s block = some (a,h,rest)) (hformed : Formed s block body (a,h,rest))
    {span : Spanned.Span} (hspan : block.bodySpan = some span) (htakes : P.Takes s path attr) :
    Preserved P s path attr ↔ ∃ l v, lineEnd rest = some (l,v) ∧ '\n' ∉ l := by
  obtain ⟨-,rfl,-⟩ := opening_eq ho
  obtain ⟨hstart,hempty⟩ := hformed.bodySpan span hspan
  by_cases hrest : '\n' ∈ rest
  · obtain ⟨u,v,rfl,hu⟩ := List.eq_append_cons_of_mem hrest
    rw [preserved_iff_grown hd hblock (inserts_line hspan hstart hu)]
    have hnew : a ++ (h ++ '\x7b' :: (u ++ ['\n'])) ++ ([] ++ attr.line) ++ v =
        a ++ (h ++ '\x7b' :: (u ++ '\n' :: (attr.line ++ v))) := by simp
    rw [hnew,grown_iff_line hd hblock ho hu hempty htakes]
    constructor
    · exact fun hline => ⟨u,v,hline,hu⟩
    · rintro ⟨l,w,hline,hl⟩
      -- both are what stands before the first line feed
      obtain ⟨q,hsplit,-⟩ := lineEnd_eq hline
      have hfirst := congrArg (List.takeWhile (· ≠ '\n')) hsplit
      rw [takeWhile_split hu,takeWhile_split hl] at hfirst
      subst hfirst
      obtain ⟨-,rfl⟩ := List.cons.inj (List.append_cancel_left hsplit)
      exact hline
  · have hnone : lineEnd rest = none := by
      by_contra hsome
      obtain ⟨⟨l,v⟩,hline⟩ := Option.ne_none_iff_exists'.mp hsome
      obtain ⟨q,rfl,-⟩ := lineEnd_eq hline
      exact hrest (List.mem_append_right _ List.mem_cons_self)
    have hbody : body.length ≠ 0 := fun hzero => by
      have hends := hempty hzero
      rw [hnone] at hends
      cases hends
    rw [preserved_iff_grown hd hblock (inserts_none hspan hstart hrest)]
    refine iff_of_false (fun hgrown => ?_) (by simp [hnone])
    · have hnew : a ++ (h ++ ['\x7b']) ++ ([] ++ attr.line) ++ rest =
          a ++ (h ++ '\x7b' :: (attr.line ++ rest)) := by simp
      rw [hnew] at hgrown
      obtain ⟨d',block',body',h',rest',-,-,-,hlen,hspan',ho',hformed'⟩ :=
        hgrown.opened hd hblock ho rfl rfl
      obtain ⟨rfl,rfl⟩ : h = h' ∧ _ = rest' := by
        simpa using (opening_of hspan' (opening_eq ho).2.2).symm.trans ho'
      have hends := hformed'.lines (by omega)
      rw [lineEnd_line] at hends
      cases hends

theorem preserved_iff_brace (hd : P.parse s = some d) (hblock : d.blockAt path = some (block,body))
    (ho : opening s block = some (a,h,rest)) (hformed : Formed s block body (a,h,rest))
    (hspan : block.bodySpan = none) (htakes : P.Takes s path attr) :
    Preserved P s path attr ↔ '\x7b' ∉ h := by
  obtain ⟨hstart,rfl,hhead⟩ := opening_eq ho
  have hbody := hformed.unset hspan
  obtain ⟨span,hmem,inner,htext⟩ := hformed.text
  have hat : span.1 = lenBytes a := by
    rw [hmem] at hstart
    exact Option.some.inj hstart
  by_cases hbrace : '\x7b' ∈ h
  · refine iff_of_false (fun hpreserved => ?_) (not_not.mpr hbrace)
    obtain ⟨u,w,rfl,hu⟩ := List.eq_append_cons_of_mem hbrace
    have hsplit : a ++ (u ++ '\x7b' :: w ++ '\x7b' :: rest) =
        a ++ (u ++ '\x7b' :: (w ++ '\x7b' :: rest)) := by simp
    have hinner : byteSlice (a ++ (u ++ '\x7b' :: (w ++ '\x7b' :: rest))) span.1 span.2 =
        u ++ '\x7b' :: (w ++ '\x7b' :: inner) := by
      rw [← hsplit,← htext]
      simp
    have hins := inserts_empty attr hspan hmem hat hinner hu
    rw [← hsplit] at hins
    have hgrown := (preserved_iff_grown hd hblock hins).mp hpreserved
    have hnew : a ++ (u ++ ['\x7b']) ++ (['\n'] ++ attr.line) ++ (w ++ '\x7b' :: rest) =
        a ++ (u ++ '\x7b' :: ('\n' :: attr.line ++ (w ++ '\x7b' :: rest))) := by simp
    rw [hnew] at hgrown
    obtain ⟨d',block',body',h',rest',-,-,-,hlen,-,ho',hformed'⟩ :=
      hgrown.opened hd hblock ho hsplit rfl
    obtain ⟨-,hsplit',hhead'⟩ := opening_eq ho'
    have hread := consume_stuck (t:=rest') hhead' (show headStep .plain '\x7b' = none from rfl)
    rw [← List.append_cancel_left hsplit'] at hread
    -- the brace stands in a label or in a comment
    rw [PartialRuns.run_append] at hhead
    obtain ⟨q,hq,hrun⟩ := Option.bind_eq_some_iff.mp hhead
    have hcomment : PartialRuns.run headStep .plain (u ++ ['\x7b']) = some .comment →
        PartialRuns.run headStep .comment w = some .plain → False := by
      intro hfeed hw
      have hline : PartialRuns.run headStep .plain (u ++ '\x7b' :: ('\n' :: attr.line ++ w)) = some .plain := by
        have hjoin : u ++ '\x7b' :: ('\n' :: attr.line ++ w) =
            u ++ ['\x7b'] ++ '\n' :: (attr.line ++ w) := by simp
        rw [hjoin,PartialRuns.run_append_of hfeed,PartialRuns.run]
        change PartialRuns.run headStep .comment (attr.line ++ w) = some .plain
        rw [PartialRuns.run_append_of (comment_head attr.starless_line),hw]
      have hread' := consume_stuck (t:=rest) hline (show headStep .plain '\x7b' = none from rfl)
      have hjoin : u ++ '\x7b' :: ('\n' :: attr.line ++ (w ++ '\x7b' :: rest)) =
          u ++ '\x7b' :: ('\n' :: attr.line ++ w) ++ '\x7b' :: rest := by simp
      rw [hjoin,hread'] at hread
      obtain rfl : rest = rest' := by simpa using (Prod.mk.inj (Prod.mk.inj hread).2).2
      have hclosed := hformed'.closed.mp (hformed.closed.mpr hbody)
      omega
    have hlabel : PartialRuns.run headStep .plain (u ++ ['\x7b']) = some .quoted → False := by
      intro hfeed
      have hjoin : u ++ '\x7b' :: ('\n' :: attr.line ++ (w ++ '\x7b' :: rest)) =
          u ++ ['\x7b'] ++ '\n' :: (attr.line ++ (w ++ '\x7b' :: rest)) := by simp
      rw [hjoin,consume_stuck hfeed rfl] at hread
      cases (Prod.mk.inj (Prod.mk.inj hread).2).1
    have hfeed : ∀ {q'}, headStep q '\x7b' = some q' →
        PartialRuns.run headStep .plain (u ++ ['\x7b']) = some q' := fun hstep => by
      rw [PartialRuns.run_append_of hq,PartialRuns.run,hstep]
      rfl
    cases q with
    | plain => cases hrun
    | slash => cases hrun
    | quoted => exact hlabel (hfeed rfl)
    | escaped => exact hlabel (hfeed rfl)
    | comment => exact hcomment (hfeed rfl) hrun
    | star => exact hcomment (hfeed rfl) hrun
  · refine iff_of_true ?_ hbrace
    have hinner : byteSlice (a ++ (h ++ '\x7b' :: rest)) span.1 span.2 = h ++ '\x7b' :: inner := by
      rw [← htext]
      simp
    have hins := inserts_empty attr hspan hmem hat hinner hbrace
    rw [preserved_iff_grown hd hblock hins]
    have hgrown := (P.takes hd hblock htakes ho).2 hbody
    have hnew : a ++ (h ++ ['\x7b']) ++ (['\n'] ++ attr.line) ++ rest =
        a ++ (h ++ '\x7b' :: '\n' :: (attr.line ++ rest)) := by simp
    rw [hnew]
    exact hgrown

end preservation

/-! ## Documents with one block -/

section samples

instance {V : Type} (s : Rope) (block : Place) (body : Items V Place) (o : Rope × Rope × Rope) :
    Decidable (Formed s block body o) :=
  decidable_of_iff ((∃ span ∈ block.span, o.2.1 ++ ['\x7b'] <+: byteSlice s span.1 span.2) ∧
      (block.bodySpan = none → body.length = 0) ∧
      (∀ span ∈ block.bodySpan, span.1 = lenBytes (o.1 ++ o.2.1 ++ ['\x7b']) ∧
        (body.length = 0 → (lineEnd o.2.2).isSome = true)) ∧
      (firstBehind o.2.2 = some '\x7d' ↔ body.length = 0) ∧
      (2 ≤ body.length → (lineEnd o.2.2).isSome = true))
    ⟨fun ⟨text,unset,bodySpan,closed,lines⟩ => ⟨text,unset,bodySpan,closed,lines⟩,
      fun ⟨text,unset,bodySpan,closed,lines⟩ => ⟨text,unset,bodySpan,closed,lines⟩⟩

/-- Texts of one block at their beginning, with what the crate makes of each. -/
structure Readable (docs : List (Rope × Items String Place)) : Prop where
  formed : ∀ doc ∈ docs, ∀ x ∈ doc.2.blocks,
    ∃ o ∈ opening doc.1 x.2.1, Formed doc.1 x.2.1 x.2.2 o
  first : ∀ doc ∈ docs, ∀ x ∈ doc.2.blocks, x.2.1.span.map Prod.fst = some 0
  layout : ∀ doc ∈ docs, ∀ doc' ∈ docs, ∀ x ∈ doc.2.blocks, ∀ x' ∈ doc'.2.blocks,
    (headLine doc.1 x.2.1).isSome = true → headLine doc.1 x.2.1 = headLine doc'.1 x'.2.1 →
      doc.2.erase = doc'.2.erase

def readFrom (docs : List (Rope × Items String Place)) (s : Rope) : Option (Items String Place) :=
  (docs.find? fun doc => doc.1 = s).map Prod.snd

theorem mem_of_readFrom {docs : List (Rope × Items String Place)} {s : Rope}
    {d : Items String Place} (h : readFrom docs s = some d) : (s,d) ∈ docs := by
  obtain ⟨⟨s',d'⟩,hfind,rfl⟩ := Option.map_eq_some_iff.mp h
  have hs : s' = s := by simpa using List.find?_some hfind
  exact hs ▸ List.mem_of_find?_eq_some hfind

def ofDocuments (docs : List (Rope × Items String Place)) (h : Readable docs) : BodyParser where
  Value := String
  parse := readFrom docs
  value attr := String.ofList attr.value
  formed := fun hd hblock => by
    obtain ⟨o,ho,hformed⟩ := h.formed _ (mem_of_readFrom hd) _ (Items.mem_blocks hblock)
    exact ⟨o,ho,hformed⟩
  leftToRight := fun hd hd' hblock hblock' x c y y' _ _ hspan => by
    rw [h.first _ (mem_of_readFrom hd) _ (Items.mem_blocks hblock)] at hspan
    rw [← hspan]
    exact h.first _ (mem_of_readFrom hd') _ (Items.mem_blocks hblock')
  layout := fun hd hd' hblock hblock' => h.layout _ (mem_of_readFrom hd) _ (mem_of_readFrom hd') _
    (Items.mem_blocks hblock) _ (Items.mem_blocks hblock')
  Takes s path attr := ∀ {d block body a h rest}, readFrom docs s = some d →
    d.blockAt path = some (block,body) → opening s block = some (a,h,rest) →
      (∀ l v, lineEnd rest = some (l,v) →
        Grown (readFrom docs) d path (String.ofList attr.key) (String.ofList attr.value)
          (a ++ (h ++ '\x7b' :: (l ++ '\n' :: (attr.line ++ v))))) ∧
      (body.length = 0 →
        Grown (readFrom docs) d path (String.ofList attr.key) (String.ofList attr.value)
          (a ++ (h ++ '\x7b' :: '\n' :: (attr.line ++ rest))))
  takes := fun hd hblock htakes ho => htakes hd hblock ho

def zero : NewAttribute := ⟨['x'],['0'],⟨'x',[],rfl,by decide⟩,by decide⟩

def ownLines : Rope := "b \x7b\n  a = 1\n\x7d\n".toList

def oneLine : Rope := "b \x7b a = 1 \x7d\n".toList

def labelled : Rope := "b \"\x7b\" \x7b\x7d\n".toList

/-- The block that the sample begins with, at its place. -/
def blockOf (stop : ℕ) (bodySpan : Option Spanned.Span) (labels : List String)
    (body rest : Items String Place) : Items String Place :=
  .block ⟨some (0,stop),bodySpan⟩ "b" labels body rest

def attrAt (start : ℕ) (key value : String) (rest : Items String Place) : Items String Place :=
  .attr ⟨some (start,start + 5),none⟩ key value rest

/-- The documents and those with the attribute, as the crate reads them. -/
def samples : List (Rope × Items String Place) :=
  [(ownLines,blockOf 13 (some (3,12)) [] (attrAt 6 "a" "1" .nil) .nil),
    ("b \x7b\n  x = 0\n  a = 1\n\x7d\n".toList,
      blockOf 21 (some (3,20)) [] (attrAt 6 "x" "0" (attrAt 14 "a" "1" .nil)) .nil),
    (oneLine,blockOf 11 (some (3,10)) [] (attrAt 4 "a" "1" .nil) .nil),
    ("b \x7b a = 1 \x7d\n  x = 0\n".toList,
      blockOf 11 (some (3,10)) [] (attrAt 4 "a" "1" .nil) (attrAt 14 "x" "0" .nil)),
    (labelled,blockOf 8 none ["\x7b"] .nil .nil),
    ("b \"\x7b\" \x7b\n  x = 0\n\x7d\n".toList,
      blockOf 17 (some (7,16)) ["\x7b"] (attrAt 10 "x" "0" .nil) .nil)]

theorem samples_readable : Readable samples where
  formed := by decide
  first := by decide
  layout := by decide

def sampleParser : BodyParser := ofDocuments samples samples_readable

theorem takes_of {s a h rest : Rope} {path : List ℕ} {attr : NewAttribute} {block : Place}
    {d body : Items String Place} (hd : sampleParser.parse s = some d)
    (hblock : d.blockAt path = some (block,body)) (ho : opening s block = some (a,h,rest))
    (hline : ∀ l v, lineEnd rest = some (l,v) →
      Grown sampleParser.parse d path (String.ofList attr.key) (sampleParser.value attr)
        (a ++ (h ++ '\x7b' :: (l ++ '\n' :: (attr.line ++ v)))))
    (hempty : body.length = 0 →
      Grown sampleParser.parse d path (String.ofList attr.key) (sampleParser.value attr)
        (a ++ (h ++ '\x7b' :: '\n' :: (attr.line ++ rest)))) :
    sampleParser.Takes s path attr := by
  intro d₁ block₁ body₁ a₁ h₁ rest₁ hd₁ hblock₁ ho₁
  obtain rfl := Option.some.inj (hd.symm.trans hd₁)
  obtain ⟨rfl,rfl⟩ := Prod.mk.inj (Option.some.inj (hblock.symm.trans hblock₁))
  obtain ⟨rfl,rfl,rfl⟩ : a = a₁ ∧ h = h₁ ∧ rest = rest₁ := by
    simpa using ho.symm.trans ho₁
  exact ⟨hline,hempty⟩

theorem ownLines_taken : sampleParser.Takes ownLines [0] zero := by
  refine takes_of (a:=[]) (h:="b ".toList) rfl rfl rfl (fun l v hline => ?_) fun hzero => by cases hzero
  obtain ⟨rfl,rfl⟩ := Prod.mk.inj (Option.some.inj hline)
  exact ⟨_,rfl,.here .here⟩

theorem oneLine_taken : sampleParser.Takes oneLine [0] zero :=
  takes_of (a:=[]) (h:="b ".toList) rfl rfl rfl (fun l v hline => by cases hline)
    fun hzero => by cases hzero

theorem labelled_taken : sampleParser.Takes labelled [0] zero := by
  refine takes_of (a:=[]) (h:="b \"\x7b\" ".toList) rfl rfl rfl (fun l v hline => ?_) fun _ => ?_
  · cases hline
  · exact ⟨_,rfl,.here .here⟩

end samples

end AttributeInsertion
end TerraformLs
