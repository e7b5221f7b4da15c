import TerraformLs.ConcreteSyntax

/-! The quoted sources of the modules of a document: the text of a document cut at them,
what a parser reads there, and edits that lie inside the quotes. -/
namespace TerraformLs

namespace GitRefs

variable {p s t : Rope} {i : ℕ}

theorem find_isSome_iff : (find p s).isSome ↔ p <:+: s := by
  induction s with
  | nil =>
    rw [find,List.infix_nil]
    split_ifs with h <;> simp [h]
  | cons c s ih =>
    rw [find,List.infix_cons_iff]
    split_ifs with h
    · exact ⟨fun _ => .inl (List.isPrefixOf_iff_prefix.mp h),fun _ => rfl⟩
    · rw [Option.isSome_map,ih]
      exact ⟨.inr,fun hor => hor.resolve_left fun hp => h (List.isPrefixOf_iff_prefix.mpr hp)⟩

theorem find_eq_none_iff : find p s = none ↔ ¬p <:+: s := by
  rw [← find_isSome_iff,Option.not_isSome_iff_eq_none]

/-- What is found first stays the first when something is appended. -/
theorem find_append (hp : p ≠ []) (h : find p s = some i) (t : Rope) : find p (s ++ t) = some i := by
  induction s generalizing i with
  | nil =>
    rw [find,if_neg hp] at h
    cases h
  | cons c s ih =>
    rw [find] at h
    rw [List.cons_append,find]
    split_ifs at h with hprefix
    · have hprefix := (List.isPrefixOf_iff_prefix.mp hprefix).trans (List.prefix_append (c :: s) t)
      rw [List.cons_append] at hprefix
      rw [if_pos (List.isPrefixOf_iff_prefix.mpr hprefix),h]
    · obtain ⟨j,hj,rfl⟩ := Option.map_eq_some_iff.mp h
      have hnot : ¬p.isPrefixOf (c :: (s ++ t)) = true := by
        intro hpre
        rw [List.isPrefixOf_iff_prefix,← List.cons_append] at hpre
        -- the first place lies further on, with the whole of it in front of what is appended
        have hin := find_spec hj
        have hlen : p.length ≤ s.length := hin.length_le.trans (by simp)
        exact hprefix (List.isPrefixOf_iff_prefix.mpr (List.prefix_of_prefix_length_le hpre
          (List.prefix_append (c :: s) t) (by simp only [List.length_cons]; omega)))
      rw [if_neg hnot,ih hj,Option.map_some]

/-- A pattern without the first character of what is appended does not run into it. -/
theorem find_none_append {c : Char} (hc : c ∉ p) (hs : find p s = none) (ht : find p (c :: t) = none) :
    find p (s ++ c :: t) = none := by
  rw [find_eq_none_iff] at hs ht ⊢
  rintro ⟨a,b,hsplit⟩
  rcases List.append_eq_append_iff.mp hsplit with ⟨x,hx,-⟩ | ⟨x,hx,hct⟩
  · exact hs ⟨a,x,hx.symm⟩
  · cases x with
    | nil => exact hs ⟨a,[],by rw [List.append_nil,hx,List.append_nil]⟩
    | cons y x =>
      obtain ⟨rfl,-⟩ := List.cons.inj hct
      rcases List.append_eq_append_iff.mp hx with ⟨z,-,rfl⟩ | ⟨z,-,hz⟩
      · exact hc (List.mem_append_right z List.mem_cons_self)
      · exact ht ⟨z,b,by rw [← hz,hct]⟩

end GitRefs

namespace SourceLiterals

open Rope TextTrees

/-- A literal without its quotes, and the text behind it up to the next. -/
structure Piece where
  raw : Rope
  behind : Rope

/-- A text, cut at literals. -/
structure Quoted where
  front : Rope
  pieces : List Piece

def Piece.render (p : Piece) : Rope := '"' :: (p.raw ++ '"' :: p.behind)

def renderPieces (ps : List Piece) : Rope := ps.flatMap Piece.render

def Quoted.render (q : Quoted) : Rope := q.front ++ renderPieces q.pieces

/-- Where the literals lie, with their quotes. -/
def placesFrom : ℕ → List Piece → List (Spanned.Span × Rope)
  | _, [] => []
  | pos, p::ps =>
    ((pos,pos + lenBytes p.raw + 2),p.raw) :: placesFrom (pos + lenBytes p.render) ps

def Quoted.places (q : Quoted) : List (Spanned.Span × Rope) :=
  placesFrom (lenBytes q.front) q.pieces

/-- The same literals with other texts. -/
def Quoted.fill (q : Quoted) (f : Rope → Rope) : Quoted :=
  ⟨q.front,q.pieces.map fun p => ⟨f p.raw,p.behind⟩⟩

/-! ## Documents -/

/-- A value, told apart as far as it is a string without templates in it. -/
inductive Expression
  | string (span : Option Spanned.Span) (text : Rope)
  | other

structure Attribute where
  key : String
  span : Option Spanned.Span
  value : Expression

structure Block where
  ident : String
  attributes : List Attribute

/-- The blocks at the top of a document. -/
abbrev Body := List Block

/-- A source with the span of its attribute, its own span and what it says. -/
structure Source where
  attrSpan : Option Spanned.Span
  span : Option Spanned.Span
  text : Rope

def sourceOf (a : Attribute) : Option Source :=
  match a.value with
  | .string span text => some ⟨a.span,span,text⟩
  | .other => none

/-- The sources of the module blocks that are plain strings. -/
def sources (body : Body) : List Source :=
  (body.filter (·.ident = "module")).flatMap fun block =>
    (block.attributes.filter (·.key = "source")).filterMap sourceOf

/-- A character that stands for itself in a literal, whatever is around it. -/
def isPlain (c : Char) : Bool :=
  !(['"','\\','$','%','\x7b','\x7d','~','\n','\r'].contains c)

/-- The parser crate, as far as the literals of module sources go. -/
structure HclEdit where
  Document : Type
  /-- All of a document but where its module sources are and what they say. -/
  Rest : Type
  parse : Rope → Option Document
  body : Document → Body
  rest : Document → Rest
  /-- What the text between the quotes of a literal says. -/
  unescape : Rope → Option Rope
  /-- The sources of a document are the literals that its text is cut at. -/
  located : ∀ {text d}, parse text = some d → ∃ q : Quoted, q.render = text ∧
    (sources (body d)).map (fun a => (a.span,some a.text)) =
      q.places.map fun p => (some p.1,unescape p.2)
  /-- Other literals in their places change nothing else. -/
  refill : ∀ {q : Quoted} {d} (f : Rope → Rope), parse q.render = some d →
    (sources (body d)).map (fun a => (a.span,some a.text)) =
      q.places.map (fun p => (some p.1,unescape p.2)) →
    (∀ p ∈ q.pieces, (unescape (f p.raw)).isSome) → ∃ d', parse (q.fill f).render = some d' ∧
      rest d' = rest d ∧ (sources (body d')).map (fun a => (a.span,some a.text)) =
        (q.fill f).places.map fun p => (some p.1,unescape p.2)
  unescape_append : ∀ {raw text plain : Rope}, unescape raw = some text → plain.all isPlain →
    unescape (raw ++ plain) = some (text ++ plain)

variable {H : HclEdit} {q : Quoted} {d : H.Document}

/-- The sources of the document are these literals. -/
def Located (H : HclEdit) (d : H.Document) (q : Quoted) : Prop :=
  (sources (H.body d)).map (fun a => (a.span,some a.text)) =
    q.places.map fun p => (some p.1,H.unescape p.2)

/-- A client puts the edits into a text. -/
def Applies (text : Rope) (edits : List TextEdit) (new : Rope) : Prop :=
  ∃ placed, placed.map Prod.fst = edits ∧ (∀ e ∈ placed, Formatting.Denotes text e.1 e.2) ∧
    (placed.map ConcreteSyntax.atPlace).Pairwise Apart ∧
    Formatting.applyEdits text placed = .ok new

theorem Applies.unique {text new new' : Rope} {edits : List TextEdit} (h : Applies text edits new)
    (h' : Applies text edits new') : new = new' := by
  obtain ⟨placed,hmap,hdenotes,-,hnew⟩ := h
  obtain ⟨placed',hmap',hdenotes',-,hnew'⟩ := h'
  rw [ConcreteSyntax.placed_unique (hmap.trans hmap'.symm) hdenotes hdenotes',hnew'] at hnew
  exact (Outcome.ok.inj hnew).symm

theorem spliced_bounds {pos : ℕ} {es : List (TextTrees.Edit Char)} {a b : Rope}
    (h : Spliced lenBytes pos es a b) :
    (∀ e ∈ es, pos ≤ e.start) ∧ es.Pairwise fun e e' => e.stop ≤ e'.start := by
  induction h with
  | nil => exact ⟨fun _ he => absurd he List.not_mem_nil,.nil⟩
  | @cons pos a b c new new' es h ih =>
    refine ⟨fun e he => ?_,List.pairwise_cons.mpr ⟨fun e he => ih.1 e he,ih.2⟩⟩
    rcases List.mem_cons.mp he with rfl | he
    · exact Nat.le_add_right pos _
    · have := ih.1 e he
      omega

/-- Edits that lie in order are put into a text. -/
theorem applies_of_spliced {text new : Rope} {placed : List (TextEdit × Spanned.Span)}
    (hdenotes : ∀ e ∈ placed, Formatting.Denotes text e.1 e.2)
    (h : Spliced lenBytes 0 (placed.map ConcreteSyntax.atPlace) text new) :
    Applies text (placed.map Prod.fst) new := by
  refine ⟨placed,rfl,hdenotes,(spliced_bounds h).2.imp .inl,?_⟩
  have happlied : Formatting.applyEdits ([] ++ text) placed = .ok ([] ++ new) :=
    ConcreteSyntax.applyEdits_of_spliced lenBytes_nil.symm h
  exact happlied

theorem placesFrom_snd (pos : ℕ) (ps : List Piece) : (placesFrom pos ps).map Prod.snd = ps.map Piece.raw := by
  induction ps generalizing pos with
  | nil => rfl
  | cons p ps ih => rw [placesFrom,List.map_cons,List.map_cons,ih]

/-- What the sources say is what the literals say. -/
theorem Located.texts (h : Located H d q) :
    (sources (H.body d)).map (fun a => some a.text) = q.pieces.map fun p => H.unescape p.raw := by
  have hsnd := congrArg (List.map Prod.snd) h
  rw [List.map_map,List.map_map] at hsnd
  have hraw := congrArg (List.map H.unescape) (placesFrom_snd (lenBytes q.front) q.pieces)
  rw [List.map_map,List.map_map] at hraw
  exact hsnd.trans hraw

theorem Located.unescape_isSome (h : Located H d q) {p : Piece} (hp : p ∈ q.pieces) :
    (H.unescape p.raw).isSome := by
  have hmem : H.unescape p.raw ∈ q.pieces.map fun p => H.unescape p.raw := List.mem_map_of_mem hp
  rw [← h.texts] at hmem
  obtain ⟨a,-,ha⟩ := List.mem_map.mp hmem
  rw [← ha]
  rfl

/-! ## Texts appended inside the quotes -/

section appending

/-- Where a literal stands in the text. -/
theorem placesFrom_split {ps : List Piece} {front : Rope} {p : Spanned.Span × Rope}
    (h : p ∈ placesFrom (lenBytes front) ps) : ∃ a b,
      front ++ renderPieces ps = a ++ '"' :: (p.2 ++ '"' :: b) ∧
        p.1 = (lenBytes a,lenBytes a + lenBytes p.2 + 2) := by
  induction ps generalizing front with
  | nil => cases h
  | cons piece ps ih =>
    rw [placesFrom] at h
    have hrender : renderPieces (piece :: ps) = piece.render ++ renderPieces ps := rfl
    rcases List.mem_cons.mp h with rfl | h
    · refine ⟨front,piece.behind ++ renderPieces ps,?_,rfl⟩
      rw [hrender,Piece.render]
      simp
    · rw [← lenBytes_append] at h
      obtain ⟨a,b,hsplit,hspan⟩ := ih h
      exact ⟨a,b,by rw [hrender,← List.append_assoc,hsplit],hspan⟩

/-- Before the closing quote. -/
def appendEdit (text : Rope) (plain : String) (span : Spanned.Span) : Option TextEdit :=
  (byteOffsetToLspPosition text (span.2 - 1)).toOption.map fun pos => ⟨⟨pos,pos⟩,plain⟩

theorem appendEdit_denotes (plain : String) {p : Spanned.Span × Rope} (h : p ∈ q.places) :
    ∃ edit, appendEdit q.render plain p.1 = some edit ∧ edit.newText = plain ∧
      Formatting.Denotes q.render edit (p.1.2 - 1,p.1.2 - 1) := by
  obtain ⟨a,b,hsplit,hspan⟩ := placesFrom_split h
  have hquote : Char.utf8Size '"' = 1 := rfl
  have hsplit' : q.render = (a ++ '"' :: p.2) ++ '"' :: b := by
    rw [Quoted.render,hsplit]
    simp
  have hplace : p.1.2 - 1 = lenBytes (a ++ '"' :: p.2) := by
    rw [hspan,lenBytes_append,lenBytes_cons,hquote]
    simp only
    omega
  have hcrlf : ¬InsideCrlf ((a ++ '"' :: p.2) ++ '"' :: b) (lenBytes (a ++ '"' :: p.2)) := by
    rw [insideCrlf_iff]
    rintro ⟨-,hhead⟩
    cases hhead
  obtain ⟨position,hposition,hback⟩ := ConcreteSyntax.position_back hcrlf
  refine ⟨⟨⟨position,position⟩,plain⟩,?_,rfl,?_,?_⟩
  · rw [appendEdit,hplace,hsplit',hposition]
    rfl
  · rw [hsplit',hplace]
    exact hback
  · rw [hsplit',hplace]
    exact hback

/-- The appended texts in their places. -/
def appendedAt (plain : String) (sel : Rope → Bool) (places : List (Spanned.Span × Rope)) :
    List (TextTrees.Edit Char) :=
  (places.filter fun p => sel p.2).map fun p => ⟨p.1.2 - 1,p.1.2 - 1,plain.toList⟩

theorem spliced_appended (plain : String) (sel : Rope → Bool) (pos : ℕ) (ps : List Piece) :
    Spliced lenBytes pos (appendedAt plain sel (placesFrom pos ps)) (renderPieces ps)
      (renderPieces (ps.map fun p => ⟨if sel p.raw then p.raw ++ plain.toList else p.raw,p.behind⟩)) := by
  have hquote : Char.utf8Size '"' = 1 := rfl
  induction ps generalizing pos with
  | nil => exact .nil
  | cons p ps ih =>
    -- up to the closing quote, and from it on
    have hsplit (raw : Rope) (qs : List Piece) : renderPieces (⟨raw,p.behind⟩ :: qs) =
        ('"' :: raw) ++ ('"' :: p.behind ++ renderPieces qs) := by
      simp [renderPieces,Piece.render]
    have htext : lenBytes p.render = lenBytes ('"' :: p.raw) + lenBytes ('"' :: p.behind) := by
      rw [Piece.render,← List.cons_append,lenBytes_append]
    have hplace : pos + lenBytes p.raw + 2 - 1 = pos + lenBytes ('"' :: p.raw) := by
      rw [lenBytes_cons,hquote]
      omega
    have hrest := ih (pos + lenBytes p.render)
    rw [htext,← Nat.add_assoc] at hrest
    have htail := Spliced.append lenBytes_append (Spliced.nil (s := '"' :: p.behind)) hrest
    rw [List.nil_append] at htail
    rw [List.map_cons,hsplit p.raw ps,hsplit]
    by_cases hsel : sel p.raw
    · have hplaces : appendedAt plain sel (placesFrom pos (p :: ps)) =
          ⟨pos + lenBytes ('"' :: p.raw),pos + lenBytes ('"' :: p.raw) + lenBytes [],plain.toList⟩ ::
            appendedAt plain sel (placesFrom (pos + lenBytes p.render) ps) := by
        rw [placesFrom,appendedAt,List.filter_cons_of_pos (by simpa using hsel),List.map_cons,hplace]
        rfl
      rw [hplaces,if_pos hsel,htext,← Nat.add_assoc]
      simpa using Spliced.cons (a := '"' :: p.raw) (b:=[]) htail
    · have hplaces : appendedAt plain sel (placesFrom pos (p :: ps)) =
          appendedAt plain sel (placesFrom (pos + lenBytes p.render) ps) := by
        rw [placesFrom,appendedAt,List.filter_cons_of_neg (by simpa using hsel)]
        rfl
      rw [hplaces,if_neg hsel,htext,← Nat.add_assoc]
      exact Spliced.append lenBytes_append .nil htail

/-- The texts of some literals are appended to. -/
theorem applies_append (q : Quoted) (plain : String) (sel : Rope → Bool) :
    Applies q.render ((q.places.filter fun p => sel p.2).filterMap fun p =>
        appendEdit q.render plain p.1)
      (q.fill fun raw => if sel raw then raw ++ plain.toList else raw).render := by
  let place (p : Spanned.Span × Rope) : TextEdit × Spanned.Span :=
    ((appendEdit q.render plain p.1).getD ⟨⟨⟨0,0⟩,⟨0,0⟩⟩,plain⟩,(p.1.2 - 1,p.1.2 - 1))
  have hmem {p : Spanned.Span × Rope} (h : p ∈ q.places.filter fun p => sel p.2) :
      ∃ edit, appendEdit q.render plain p.1 = some edit ∧ place p = (edit,(p.1.2 - 1,p.1.2 - 1)) ∧
        edit.newText = plain ∧ Formatting.Denotes q.render edit (p.1.2 - 1,p.1.2 - 1) := by
    obtain ⟨edit,hedit,htext,hdenotes⟩ := appendEdit_denotes plain (List.mem_filter.mp h).1
    exact ⟨edit,hedit,by rw [Prod.mk.injEq,hedit]; exact ⟨rfl,rfl⟩,htext,hdenotes⟩
  have hedits : ((q.places.filter fun p => sel p.2).map place).map Prod.fst =
      (q.places.filter fun p => sel p.2).filterMap fun p => appendEdit q.render plain p.1 := by
    rw [List.map_map,← List.filterMap_eq_map]
    refine List.filterMap_congr fun p hp => ?_
    obtain ⟨edit,hedit,hplace,-⟩ := hmem hp
    rw [hedit,Function.comp_apply,Function.comp_apply,hplace]
  have hplaces : ((q.places.filter fun p => sel p.2).map place).map ConcreteSyntax.atPlace =
      appendedAt plain sel q.places := by
    rw [List.map_map,appendedAt]
    refine List.map_congr_left fun p hp => ?_
    obtain ⟨edit,-,hplace,htext,-⟩ := hmem hp
    rw [Function.comp_apply,hplace,ConcreteSyntax.atPlace,htext]
  rw [← hedits]
  refine applies_of_spliced (fun e he => ?_) ?_
  · obtain ⟨p,hp,rfl⟩ := List.mem_map.mp he
    obtain ⟨edit,-,hplace,-,hdenotes⟩ := hmem hp
    rw [hplace]
    exact hdenotes
  · rw [hplaces]
    have hpieces := spliced_appended plain sel (0 + lenBytes q.front) q.pieces
    have hstart : q.places = placesFrom (0 + lenBytes q.front) q.pieces := by
      rw [Nat.zero_add,Quoted.places]
    rw [hstart]
    exact Spliced.append lenBytes_append .nil hpieces

end appending

/-! ## A crate that reads one module with a plain source -/

section oneModule

def moduleFront : Rope := "module \"x\" \x7b\n  source = ".toList

def moduleBehind : Rope := "\n\x7d\n".toList

/-- The document with a source. -/
def moduleCut (raw : Rope) : Quoted := ⟨moduleFront,[⟨raw,moduleBehind⟩]⟩

def readModule (text : Rope) : Option Rope :=
  let raw := (text.drop (moduleFront.length + 1)).take
    (text.length - (moduleFront.length + moduleBehind.length + 2))
  if raw.all isPlain ∧ (moduleCut raw).render = text then some raw else none

theorem moduleCut_render (raw : Rope) :
    (moduleCut raw).render = moduleFront ++ '"' :: (raw ++ '"' :: moduleBehind) := by
  simp [moduleCut,Quoted.render,renderPieces,Piece.render]

theorem readModule_eq {text raw : Rope} :
    readModule text = some raw ↔ raw.all isPlain ∧ (moduleCut raw).render = text := by
  have hread (raw : Rope) : (((moduleCut raw).render.drop (moduleFront.length + 1)).take
      ((moduleCut raw).render.length - (moduleFront.length + moduleBehind.length + 2))) = raw := by
    have hsplit : moduleFront ++ '"' :: (raw ++ '"' :: moduleBehind) =
        (moduleFront ++ ['"']) ++ (raw ++ '"' :: moduleBehind) := by simp
    have hlength : (moduleFront ++ '"' :: (raw ++ '"' :: moduleBehind)).length -
        (moduleFront.length + moduleBehind.length + 2) = raw.length := by
      simp only [List.length_append,List.length_cons]
      omega
    rw [moduleCut_render,hlength,hsplit,List.drop_left' (by simp),List.take_left]
  rw [readModule]
  constructor
  · intro h
    split_ifs at h with hplain
    obtain rfl := Option.some.inj h
    exact hplain
  · rintro ⟨hplain,rfl⟩
    simp only [hread]
    exact if_pos ⟨hplain,trivial⟩

def moduleBody (raw : Rope) : Body :=
  [⟨"module",[⟨"source",none,.string (some (lenBytes moduleFront,
    lenBytes moduleFront + lenBytes raw + 2)) raw⟩]⟩]

def unescapePlain (raw : Rope) : Option Rope := if raw.all isPlain then some raw else none

/-- The text that the source is read from is cut there. -/
theorem eq_cut {q : Quoted} {raw behind : Rope} {unescape : Rope → Option Rope}
    (hsame : ∀ {r s}, unescape r = some s → s = r)
    (htext : (⟨moduleFront,[⟨raw,behind⟩]⟩ : Quoted).render = q.render)
    (h : (sources (moduleBody raw)).map (fun a => (a.span,some a.text)) =
      q.places.map fun p => (some p.1,unescape p.2)) : q = ⟨moduleFront,[⟨raw,behind⟩]⟩ := by
  obtain ⟨front,pieces⟩ := q
  cases pieces with
  | nil => cases h
  | cons p ps =>
    cases ps with
    | cons p' ps =>
      have hlength := congrArg List.length h
      simp [Quoted.places,placesFrom,sources,moduleBody,sourceOf] at hlength
    | nil =>
      obtain ⟨raw',behind'⟩ := p
      obtain ⟨hspan,htexts⟩ := Prod.mk.inj (List.cons.inj h).1
      obtain ⟨hstart,-⟩ := Prod.mk.inj (Option.some.inj hspan)
      obtain rfl : raw = raw' := hsame htexts.symm
      have hrender : moduleFront ++ '"' :: (raw ++ '"' :: behind) =
          front ++ '"' :: (raw ++ '"' :: behind') := by
        simpa [Quoted.render,renderPieces,Piece.render] using htext
      obtain ⟨rfl,hrest⟩ := append_inj_lenBytes hrender hstart
      rw [(List.cons.inj ((List.append_cancel_left (List.cons.inj hrest).2))).2]

theorem unescapePlain_same {r s : Rope} (h : unescapePlain r = some s) : s = r := by
  rw [unescapePlain] at h
  split_ifs at h
  exact (Option.some.inj h).symm

theorem eq_moduleCut {q : Quoted} {raw : Rope} (htext : (moduleCut raw).render = q.render)
    (h : (sources (moduleBody raw)).map (fun a => (a.span,some a.text)) =
      q.places.map fun p => (some p.1,unescapePlain p.2)) : q = moduleCut raw :=
  eq_cut unescapePlain_same htext h

def oneModule : HclEdit where
  Document := Rope
  Rest := Unit
  parse := readModule
  body := moduleBody
  rest _ := ()
  unescape := unescapePlain
  located := by
    intro text raw h
    obtain ⟨hplain,htext⟩ := readModule_eq.mp h
    have hunescape : unescapePlain raw = some raw := if_pos hplain
    refine ⟨moduleCut raw,htext,?_⟩
    show [_] = [_]
    rw [List.cons.injEq,Prod.mk.injEq]
    exact ⟨⟨rfl,hunescape.symm⟩,rfl⟩
  refill := by
    intro q raw f h hlocated hvalid
    obtain ⟨-,htext⟩ := readModule_eq.mp h
    obtain rfl := eq_moduleCut htext hlocated
    have hplain : (f raw).all isPlain := by
      by_contra hnot
      have hnone : unescapePlain (f raw) = none := if_neg hnot
      have := hvalid ⟨raw,moduleBehind⟩ (List.mem_singleton_self _)
      rw [hnone] at this
      cases this
    have hunescape : unescapePlain (f raw) = some (f raw) := if_pos hplain
    refine ⟨f raw,readModule_eq.mpr ⟨hplain,rfl⟩,rfl,?_⟩
    show [_] = [_]
    rw [List.cons.injEq,Prod.mk.injEq]
    exact ⟨⟨rfl,hunescape.symm⟩,rfl⟩
  unescape_append := by
    intro raw text plain h hplain
    rw [unescapePlain] at h ⊢
    split_ifs at h with hraw
    obtain rfl := Option.some.inj h
    rw [if_pos (by rw [List.all_append,hraw,hplain]; rfl)]

theorem oneModule_located (raw : Rope) (hplain : raw.all isPlain) :
    oneModule.parse (moduleCut raw).render = some raw ∧
      Located oneModule raw (moduleCut raw) := by
  have hparse : oneModule.parse (moduleCut raw).render = some raw := readModule_eq.mpr ⟨hplain,rfl⟩
  obtain ⟨q,hq,hlocated⟩ := oneModule.located hparse
  obtain rfl := eq_moduleCut hq.symm hlocated
  exact ⟨hparse,hlocated⟩

end oneModule

end SourceLiterals
end TerraformLs
