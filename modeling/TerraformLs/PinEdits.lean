import TerraformLs.TrailingComments

/-! The fixes that write the ref of a module source and the comment behind it, and what
the readers make of the text that they leave. -/
namespace TerraformLs
namespace PinEdits

open CacheLookups GitRefs Rope SourceLiterals TextTrees TrailingComments

/-- The characters of the ref: behind its marker, up to an ampersand. -/
def refPlace (src : Rope) : Option (ℕ × ℕ) :=
  let place (start : ℕ) := (start,start + ((src.drop start).takeWhile (· ≠ '&')).length)
  match find "?ref=".toList src with
  | some start => some (place (start + 5))
  | none =>
    match find "&ref=".toList src with
    | some start => some (place (start + 5))
    | none => (find ['#'] src).map fun hash => (hash + 1,src.length)

def refValueSpan (src : Rope) : Option (ℕ × ℕ) :=
  (refPlace src).map fun p => (lenBytes (src.take p.1),lenBytes (src.take p.2))

def refReplacementEdit (rope : Rope) (valueSpan : Spanned.Span) (raw newRef : Rope) : Option TextEdit := do
  let span ← refValueSpan raw
  let contentStart := valueSpan.1 + 1
  let start ← (byteOffsetToLspPosition rope (contentStart + span.1)).toOption
  let stop ← (byteOffsetToLspPosition rope (contentStart + span.2)).toOption
  return ⟨⟨start,stop⟩,String.ofList newRef⟩

/-- The edits of the action that pins a source. -/
def pinEdits (rope : Rope) (valueSpan : Spanned.Span) (raw newRef tag : Rope) :
    Outcome Empty (Option (List TextEdit)) :=
  match refReplacementEdit rope valueSpan raw newRef with
  | none => .ok none
  | some edit => do
    let comment ← commentEdit rope valueSpan.2 tag
    return comment.map fun comment => [edit,comment]

/-! ### The ref of a source -/

section refs

variable {p s src r : Rope} {c : Char}

/-- What is found first stays the first whatever comes behind it. -/
theorem find_split {i : ℕ} (hp : p ≠ []) (h : find p s = some i) : ∃ l post, s = l ++ (p ++ post) ∧
    l.length = i ∧ ∀ post', find p (l ++ (p ++ post')) = some i := by
  induction s generalizing i with
  | nil =>
    rw [find,if_neg hp] at h
    cases h
  | cons c s ih =>
    rw [find] at h
    split_ifs at h with hbegins
    · obtain rfl := Option.some.inj h
      obtain ⟨post,hpost⟩ := List.isPrefixOf_iff_prefix.mp hbegins
      obtain ⟨x,p,rfl⟩ := List.exists_cons_of_ne_nil hp
      refine ⟨[],post,hpost.symm,rfl,fun post' => ?_⟩
      rw [List.nil_append,List.cons_append,find,if_pos]
      exact List.isPrefixOf_iff_prefix.mpr ⟨post',rfl⟩
    · obtain ⟨j,hj,rfl⟩ := Option.map_eq_some_iff.mp h
      obtain ⟨l,post,rfl,hl,hpost⟩ := ih hj
      refine ⟨c :: l,post,rfl,by rw [List.length_cons,hl],fun post' => ?_⟩
      have hnot : ¬p.isPrefixOf (c :: (l ++ (p ++ post'))) = true := by
        intro hpre
        have hshort : p <+: c :: (l ++ p) := by
          refine List.prefix_of_prefix_length_le (List.isPrefixOf_iff_prefix.mp hpre)
            ⟨post',by simp⟩ ?_
          simp only [List.length_cons,List.length_append]
          omega
        exact hbegins (List.isPrefixOf_iff_prefix.mpr (hshort.trans ⟨post,by simp⟩))
      rw [List.cons_append,find,if_neg hnot,hpost,Option.map_some]

/-- A pattern does not begin among characters that are not its first. -/
theorem not_infix_behind {a : Rope} (ha : c ∉ a) (h : ¬c :: p <:+: s) : ¬c :: p <:+: a ++ s := by
  induction a with
  | nil => exact h
  | cons d a ih =>
    rw [List.cons_append,List.infix_cons_iff]
    rintro (hbegins | hwithin)
    · exact ha ((List.cons_prefix_cons.mp hbegins).1 ▸ List.mem_cons_self)
    · exact ih (fun hmem => ha (List.mem_cons_of_mem d hmem)) hwithin

/-- Nor does it run into a character that it does not have. -/
theorem not_infix_append {a : Rope} (hc : c ∉ p) (ha : ¬p <:+: a) (hs : s = [] ∨ s.head? = some c)
    (h : ¬p <:+: s) : ¬p <:+: a ++ s := by
  rcases hs with rfl | hs
  · rwa [List.append_nil]
  · obtain ⟨s,rfl⟩ := List.head?_eq_some_iff.mp hs
    exact find_eq_none_iff.mp (find_none_append hc (find_eq_none_iff.mpr ha) (find_eq_none_iff.mpr h))

/-- Up to the first place of a character. -/
theorem takeWhile_stop (hr : c ∉ r) (hs : s = [] ∨ s.head? = some c) : (r ++ s).takeWhile (· ≠ c) = r := by
  have hall : r.takeWhile (· ≠ c) = r :=
    List.takeWhile_eq_self_iff.mpr fun d hd => decide_eq_true fun heq => hr (heq ▸ hd)
  rcases hs with rfl | hs
  · rw [List.append_nil,hall]
  · obtain ⟨s,rfl⟩ := List.head?_eq_some_iff.mp hs
    rw [List.takeWhile_append,hall,if_pos rfl,List.takeWhile_cons_of_neg (by simp),List.append_nil]

/-- A ref that stays the ref when it is put into a source. -/
structure Fits (src r : Rope) : Prop where
  query : "?ref=".toList <:+: src ∨ "&ref=".toList <:+: src → '&' ∉ r
  first : ¬"?ref=".toList <:+: src → ¬"?ref=".toList <:+: r
  second : ¬"?ref=".toList <:+: src → ¬"&ref=".toList <:+: src → ¬"&ref=".toList <:+: r

/-- A source cut at its ref. -/
structure CutAtRef (src lead ref behind : Rope) : Prop where
  text : src = lead ++ ref ++ behind
  marker : ∃ l c, lead = l ++ [c] ∧ (c = '=' ∨ c = '#')
  place : refPlace src = some (lead.length,(lead ++ ref).length)
  found : extractRef src = some ref
  follows : behind = [] ∨ behind.head? = some '&'
  put : ∀ r, Fits src r → extractRef (lead ++ r ++ behind) = some r

/-- The value behind a marker of the query. -/
theorem value_split (post : Rope) : ∃ ref behind, post = ref ++ behind ∧
    post.takeWhile (· ≠ '&') = ref ∧ (behind = [] ∨ behind.head? = some '&') := by
  refine ⟨_,post.dropWhile (· ≠ '&'),(List.takeWhile_append_dropWhile).symm,rfl,?_⟩
  have hhead := List.head?_dropWhile_not (fun c => decide (c ≠ '&')) post
  cases hbehind : post.dropWhile (· ≠ '&') with
  | nil => exact .inl rfl
  | cons c rest =>
    rw [hbehind] at hhead
    exact .inr (congrArg some (by simpa using hhead))

/-- A marker of the query that is found first. -/
theorem cutAtRef_of_query {m l post : Rope} (hm : m.length = 5) (hlast : m = m.dropLast ++ ['=']) (hsrc : src = l ++ (m ++ post))
    (hplace : refPlace src = some (l.length + 5,l.length + 5 + ((src.drop (l.length + 5)).takeWhile (· ≠ '&')).length))
    (hfound : extractRef src = some ((src.drop (l.length + 5)).takeWhile (· ≠ '&')))
    (hput : ∀ r behind, Fits src r → (behind = [] ∨ behind.head? = some '&') → behind <:+: src →
      '&' ∉ r ∧ extractRef (l ++ (m ++ (r ++ behind))) =
        some (((l ++ (m ++ (r ++ behind))).drop (l.length + 5)).takeWhile (· ≠ '&'))) :
    ∃ lead ref behind, CutAtRef src lead ref behind := by
  obtain ⟨ref,behind,rfl,hvalue,hfollows⟩ := value_split post
  have hdrop (s : Rope) : (l ++ (m ++ s)).drop (l.length + 5) = s := by
    rw [← List.append_assoc,List.drop_left' (by rw [List.length_append,hm])]
  have hsplit : src = (l ++ m) ++ ref ++ behind := by rw [hsrc]; simp
  have hlength : (l ++ m).length = l.length + 5 := by rw [List.length_append,hm]
  rw [hsrc,hdrop,hvalue,← hsrc] at hplace hfound
  refine ⟨l ++ m,ref,behind,hsplit,⟨l ++ m.dropLast,'=',?_,.inl rfl⟩,?_,hfound,hfollows,fun r hr => ?_⟩
  · rw [List.append_assoc,← hlast]
  · rw [hplace,← hlength,← List.length_append]
  · obtain ⟨hamp,hextract⟩ := hput r behind hr hfollows ⟨(l ++ m) ++ ref,[],by rw [hsplit]; simp⟩
    rw [hdrop,takeWhile_stop hamp hfollows] at hextract
    rw [← hextract]
    simp

theorem exists_cutAtRef (h : (extractRef src).isSome) : ∃ lead ref behind, CutAtRef src lead ref behind := by
  cases hquery : find "?ref=".toList src with
  | some i =>
    obtain ⟨l,post,hsrc,rfl,hfirst⟩ := find_split (by decide) hquery
    have hmark : "?ref=".toList <:+: src := ⟨l,post,by rw [hsrc]; simp⟩
    refine cutAtRef_of_query rfl rfl hsrc ?_ ?_ fun r behind hr _ _ => ⟨hr.query (.inl hmark),?_⟩
    · rw [refPlace,hquery]
    · rw [extractRef,hquery]
    · rw [extractRef,hfirst]
  | none =>
    have hquery' := find_eq_none_iff.mp hquery
    cases hparam : find "&ref=".toList src with
    | some i =>
      obtain ⟨l,post,hsrc,rfl,hfirst⟩ := find_split (by decide) hparam
      have hmark : "&ref=".toList <:+: src := ⟨l,post,by rw [hsrc]; simp⟩
      refine cutAtRef_of_query rfl rfl hsrc ?_ ?_ fun r behind hr hfollows hbehind =>
        ⟨hr.query (.inr hmark),?_⟩
      · rw [refPlace,hquery,hparam]
      · rw [extractRef,hquery,hparam]
      · have hl : ¬"?ref=".toList <:+: l := fun hwithin => hquery' (hwithin.trans ⟨[],_,hsrc.symm⟩)
        have hvalue : ¬"?ref=".toList <:+: r ++ behind :=
          not_infix_append (by decide) (hr.first hquery') hfollows fun hwithin => hquery' (hwithin.trans hbehind)
        have hnone : find "?ref=".toList (l ++ ("&ref=".toList ++ (r ++ behind))) = none :=
          find_eq_none_iff.mpr (not_infix_append (by decide) hl (.inr rfl) (not_infix_behind (by decide) hvalue))
        rw [extractRef,hnone,hfirst]
    | none =>
      have hparam' := find_eq_none_iff.mp hparam
      cases hhash : find ['#'] src with
      | none =>
        rw [extractRef,hquery,hparam,hhash] at h
        cases h
      | some i =>
        obtain ⟨l,post,hsrc,rfl,hfirst⟩ := find_split (by decide) hhash
        have hbefore {p : Rope} (hp : ¬p <:+: src) : ¬p <:+: l := fun hwithin => hp (hwithin.trans ⟨[],_,hsrc.symm⟩)
        have hdrop (s : Rope) : (l ++ (['#'] ++ s)).drop (l.length + 1) = s := by
          rw [← List.append_assoc,List.drop_left' (by simp)]
        refine ⟨l ++ ['#'],post,[],?_,⟨l,'#',rfl,.inr rfl⟩,?_,?_,.inl rfl,fun r hr => ?_⟩
        · rw [hsrc]
          simp
        · rw [refPlace,hquery,hparam,hhash,hsrc]
          simp
        · rw [extractRef,hquery,hparam,hhash,Option.map_some]
          conv_lhs => rw [hsrc,hdrop]
        · have hnone {p : Rope} (hp : '#' ∉ p) (hl : ¬p <:+: l) (hbehind : ¬p <:+: ['#'] ++ r) :
              find p (l ++ (['#'] ++ r)) = none :=
            find_eq_none_iff.mpr (not_infix_append hp hl (.inr rfl) hbehind)
          have hnew : l ++ ['#'] ++ r ++ [] = l ++ (['#'] ++ r) := by simp
          rw [hnew,extractRef,
            hnone (by decide) (hbefore hquery') (not_infix_behind (by decide) (hr.first hquery')),
            hnone (by decide) (hbefore hparam') (not_infix_behind (by decide) (hr.second hquery' hparam')),
            hfirst,Option.map_some,hdrop]

end refs

/-! ### The parser -/

/-- No character of it ends a literal or begins an escape or a template in one. -/
structure NoEscape (u : Rope) : Prop where
  chars : ∀ c ∈ u, c ∉ ['"','\\','\n','\r']
  interpolation : ¬"$\x7b".toList <:+: u
  directive : ¬"%\x7b".toList <:+: u

/-- Whether a block comment is open behind a text, which has no strings in it. -/
def inBlockComment : Bool → Rope → Bool
  | false, '/' :: '*' :: s => inBlockComment true s
  | true, '*' :: '/' :: s => inBlockComment false s
  | b, _::s => inBlockComment b s
  | b, [] => b

/-- A text is read as a document, with its sources where it is cut. -/
def ReadAs (H : HclEdit) (q : Quoted) (d : H.Document) : Prop :=
  H.parse q.render = some d ∧ Located H d q

/-- The same document, but for its sources. -/
def ReadsAlike (H : HclEdit) (q : Quoted) (d : H.Document) : Prop :=
  ∃ d', ReadAs H q d' ∧ H.rest d' = H.rest d

/-- The parser crate, as far as one literal and the comment behind it go. -/
structure HclComments extends HclEdit where
  /-- The next source stands on a later line. -/
  nextLine : ∀ {q d before p after}, ReadAs toHclEdit q d → q.pieces = before ++ p :: after →
    after ≠ [] → '\n' ∈ p.behind
  /-- Another literal in one place changes nothing else. -/
  refillOne : ∀ {front before raw raw' behind after d},
    ReadAs toHclEdit ⟨front,before ++ ⟨raw,behind⟩ :: after⟩ d → (unescape raw').isSome →
      ReadsAlike toHclEdit ⟨front,before ++ ⟨raw',behind⟩ :: after⟩ d
  /-- Letters stand for themselves, where an ampersand follows or nothing does. -/
  letters : ∀ {u u' s w}, NoEscape u → NoEscape u' → (w = [] ∨ w.head? = some '&') →
    unescape (u ++ s) = some (u ++ w) → unescape (u' ++ s) = some (u' ++ w)
  /-- Outside of block comments any comment may stand at the end of a line. -/
  lineComment : ∀ {front before raw keep drop rest after d e} (t : Rope),
    ReadAs toHclEdit ⟨front,before ++ ⟨raw,keep ++ drop ++ rest⟩ :: after⟩ d → LineEnd e rest →
      (rest = [] → after = []) → NoBreak (keep ++ drop) → Unmarked keep drop →
        inBlockComment false keep = false → NoBreak t →
          ReadsAlike toHclEdit ⟨front,before ++ ⟨raw,keep ++ mark drop t ++ rest⟩ :: after⟩ d
  /-- In a block comment any text may stand that does not end it. -/
  blockComment : ∀ {front before raw keep rest after d e} (t : Rope),
    ReadAs toHclEdit ⟨front,before ++ ⟨raw,keep ++ rest⟩ :: after⟩ d → LineEnd e rest →
      (rest = [] → after = []) → NoBreak keep → inBlockComment false keep = true → NoBreak t →
        ¬"*/".toList <:+: t →
          ReadsAlike toHclEdit ⟨front,before ++ ⟨raw,keep ++ mark [] t ++ rest⟩ :: after⟩ d

/-! ### One source of a document -/

section sources

variable {H : HclEdit} {front : Rope} {before after : List Piece} {p : Piece} {d : H.Document}

theorem placesFrom_append (pos : ℕ) (ps qs : List Piece) :
    placesFrom pos (ps ++ qs) = placesFrom pos ps ++ placesFrom (pos + lenBytes (renderPieces ps)) qs := by
  induction ps generalizing pos with
  | nil => rfl
  | cons p ps ih =>
    have hrender : renderPieces (p :: ps) = p.render ++ renderPieces ps := rfl
    rw [List.cons_append,placesFrom,placesFrom,ih,hrender,lenBytes_append,Nat.add_assoc pos (lenBytes p.render),
      List.cons_append]

theorem renderPieces_append (ps qs : List Piece) :
    renderPieces (ps ++ qs) = renderPieces ps ++ renderPieces qs := List.flatMap_append

/-- What the sources say where the text is cut. -/
def texts (H : HclEdit) (ps : List Piece) : List (Option Rope) := ps.map fun p => H.unescape p.raw

theorem texts_places {s : List Source} {pos : ℕ} {ps : List Piece}
    (h : s.map (fun a => (a.span,some a.text)) =
      (placesFrom pos ps).map fun p => (some p.1,H.unescape p.2)) :
    s.map (fun a => some a.text) = texts H ps := by
  have hsnd := congrArg (List.map Prod.snd) h
  have hraw := congrArg (List.map H.unescape) (placesFrom_snd pos ps)
  rw [List.map_map,List.map_map] at hsnd hraw
  exact hsnd.trans hraw

/-- The source of a piece. -/
theorem located_split (h : Located H d ⟨front,before ++ p :: after⟩) : ∃ s₁ a s₂,
    sources (H.body d) = s₁ ++ a :: s₂ ∧ s₁.map (fun a => some a.text) = texts H before ∧
      s₂.map (fun a => some a.text) = texts H after ∧ H.unescape p.raw = some a.text ∧
      a.span = some (lenBytes (front ++ renderPieces before),
        lenBytes (front ++ renderPieces before) + lenBytes p.raw + 2) := by
  rw [Located,Quoted.places,placesFrom_append,← lenBytes_append,placesFrom,List.map_append,List.map_cons,
    List.map_eq_append_iff] at h
  obtain ⟨s₁,s',hsources,hfirst,hrest⟩ := h
  obtain ⟨a,s₂,rfl,ha,hlast⟩ := List.map_eq_cons_iff.mp hrest
  obtain ⟨hspan,htext⟩ := Prod.mk.inj ha
  exact ⟨s₁,a,s₂,hsources,texts_places hfirst,texts_places hlast,htext.symm,hspan⟩

/-- The piece of a source. -/
theorem exists_piece {q : Quoted} {s₁ s₂ : List Source} {a : Source} (h : Located H d q)
    (ha : sources (H.body d) = s₁ ++ a :: s₂) : ∃ before p after, q.pieces = before ++ p :: after ∧
      s₁.map (fun a => some a.text) = texts H before ∧
      s₂.map (fun a => some a.text) = texts H after ∧ H.unescape p.raw = some a.text ∧
      a.span = some (lenBytes (q.front ++ renderPieces before),
        lenBytes (q.front ++ renderPieces before) + lenBytes p.raw + 2) := by
  obtain ⟨front,pieces⟩ := q
  have hlength : pieces.length = s₁.length + (s₂.length + 1) := by
    have htexts := congrArg List.length h.texts
    rw [ha] at htexts
    simpa using htexts.symm
  have hcut : pieces = pieces.take s₁.length ++ pieces.drop s₁.length := (List.take_append_drop _ _).symm
  cases hdrop : pieces.drop s₁.length with
  | nil =>
    have := congrArg List.length hdrop
    rw [List.length_drop,List.length_nil] at this
    omega
  | cons p after =>
    rw [hdrop] at hcut
    refine ⟨pieces.take s₁.length,p,after,hcut,?_⟩
    rw [hcut] at h
    obtain ⟨s₁',a',s₂',hsources,hfirst,hlast,htext,hspan⟩ := located_split h
    have hsame : s₁.length = s₁'.length := by
      have := congrArg List.length hfirst
      rw [List.length_map,texts,List.length_map,List.length_take] at this
      omega
    obtain ⟨rfl,hcons⟩ := List.append_inj (ha.symm.trans hsources) hsame
    obtain ⟨rfl,rfl⟩ := List.cons.inj hcons
    exact ⟨hfirst,hlast,htext,hspan⟩

end sources

/-! ### Put and get -/

section putGet

variable {H : HclComments} {text : Rope} {d : H.Document} {s₁ s₂ : List Source} {a : Source}
  {span : Spanned.Span} {x raw keep drop rest e r t : Rope}

/-- What the readers find where the edits have been. -/
structure ReadsBack (H : HclEdit) (s₁ : List Source) (a : Source) (s₂ : List Source) (d d' : H.Document)
    (new r t : Rope) (s₁' : List Source) (a' : Source) (s₂' : List Source) : Prop where
  rest : H.rest d' = H.rest d
  sources : sources (H.body d') = s₁' ++ a' :: s₂'
  others : s₁'.map Source.text = s₁.map Source.text ∧ s₂'.map Source.text = s₂.map Source.text
  source : ∃ lead ref behind, a.text = lead ++ ref ++ behind ∧
    refValueSpan a.text = some (lenBytes lead,lenBytes (lead ++ ref)) ∧ a'.text = lead ++ r ++ behind
  ref : extractRef a'.text = some r
  comment : ∃ span, a'.span = some span ∧ trailingCommentTag new span.2 = .ok (some t) ∧
    hasTrailingComment new span.2 = .ok true

/-- The edits lead to a text that reads as the same document, with the ref and the comment
that were written. -/
def PutGet (H : HclEdit) (text : Rope) (d : H.Document) (s₁ : List Source) (a : Source)
    (s₂ : List Source) (span : Spanned.Span) (r t : Rope) : Prop :=
  ∃ edits new d' s₁' a' s₂', pinEdits text span a.text r t = .ok (some edits) ∧
    Applies text edits new ∧ H.parse new = some d' ∧ ReadsBack H s₁ a s₂ d d' new r t s₁' a' s₂'

/-- A source, its literal and the rest of its line, as the writer and the readers take
them. -/
structure Writable (src raw keep drop r t : Rope) : Prop where
  letters : ∀ place ∈ refPlace src, raw.take place.2 = src.take place.2 ∧ NoEscape (raw.take place.2)
  ref : NoEscape r
  fits : Fits src r
  named : t ≠ []
  tag : ¬"//".toList <:+: t
  unmarked : Unmarked keep drop
  outside : drop ≠ [] → inBlockComment false keep = false
  inside : drop = [] → inBlockComment false keep = true → ¬"*/".toList <:+: t

/-- The same of a source in a text. -/
def Settable (text : Rope) (span : Spanned.Span) (src r t : Rope) : Prop :=
  ∃ x raw keep drop rest e, text = x ++ '"' :: (raw ++ '"' :: (keep ++ drop ++ rest)) ∧
    span = (lenBytes x,lenBytes x + lenBytes raw + 2) ∧ LineEnd e rest ∧ NoBreak (keep ++ drop) ∧
      Writable src raw keep drop r t

theorem NoEscape.left {u s : Rope} (h : NoEscape (u ++ s)) : NoEscape u :=
  ⟨fun c hc => h.chars c (List.mem_append_left s hc),
    fun hwithin => h.interpolation (hwithin.trans (List.prefix_append u s).isInfix),
    fun hwithin => h.directive (hwithin.trans (List.prefix_append u s).isInfix)⟩

theorem NoEscape.append {l : Rope} {c : Char} (hc : c = '=' ∨ c = '#') (hl : NoEscape (l ++ [c]))
    (hr : NoEscape r) : NoEscape (l ++ [c] ++ r) := by
  have hwithin {p : Rope} (hp : c ∉ p) (hhead : ∃ b p', p = b :: p') (hl : ¬p <:+: l ++ [c]) (hr : ¬p <:+: r) :
      ¬p <:+: l ++ [c] ++ r := by
    obtain ⟨b,p',rfl⟩ := hhead
    rw [List.append_assoc]
    refine not_infix_append hp (fun h => hl (h.trans (List.prefix_append _ _).isInfix)) (.inr rfl)
      (not_infix_behind (a:=[c]) ?_ hr)
    rw [List.mem_singleton]
    rintro rfl
    exact hp List.mem_cons_self
  refine ⟨fun b hb => (List.mem_append.mp hb).elim (hl.chars b) (hr.chars b),?_,?_⟩
  · exact hwithin (by rcases hc with rfl | rfl <;> decide) ⟨_,_,rfl⟩ hl.interpolation hr.interpolation
  · exact hwithin (by rcases hc with rfl | rfl <;> decide) ⟨_,_,rfl⟩ hl.directive hr.directive

theorem lineEnd_left {a b : Rope} (h : LineEnd e (a ++ b)) (ha : '\n' ∈ a) : LineEnd e a := by
  generalize hs : a ++ b = s at h
  cases h with
  | feed rest =>
    obtain ⟨c,a,rfl⟩ := List.exists_cons_of_ne_nil (List.ne_nil_of_mem ha)
    obtain rfl := (List.cons.inj hs).1
    exact .feed a
  | crlf rest =>
    obtain ⟨c,a,rfl⟩ := List.exists_cons_of_ne_nil (List.ne_nil_of_mem ha)
    obtain ⟨rfl,hrest⟩ := List.cons.inj hs
    have hfeed : '\n' ∈ a := (List.mem_cons.mp ha).resolve_left (by decide)
    obtain ⟨c,a,rfl⟩ := List.exists_cons_of_ne_nil (List.ne_nil_of_mem hfeed)
    obtain rfl := (List.cons.inj hrest).1
    exact .crlf a
  | eof =>
    rw [(List.append_eq_nil_iff.mp hs).1] at ha
    cases ha

theorem lineEnd_append {after : List Piece} (h : LineEnd e rest) (hlast : rest = [] → after = []) :
    LineEnd e (rest ++ renderPieces after) := by
  cases h with
  | feed rest => exact .feed _
  | crlf rest => exact .crlf _
  | eof =>
    rw [hlast rfl]
    exact .eof

/-- The rest of the line of a source lies in its piece. -/
theorem behind_split {H : HclComments} {d : H.Document} {front : Rope} {before after : List Piece} {p : Piece}
    (hd : ReadAs H.toHclEdit ⟨front,before ++ p :: after⟩ d)
    (htail : NoBreak (keep ++ drop)) (he : LineEnd e rest)
    (hsplit : p.behind ++ renderPieces after = keep ++ drop ++ rest) : ∃ rest',
      p.behind = keep ++ drop ++ rest' ∧ rest = rest' ++ renderPieces after ∧ LineEnd e rest' ∧
        (rest' = [] → after = []) := by
  by_cases hafter : after = []
  · have hnil : renderPieces [] = [] := rfl
    rw [hafter,hnil,List.append_nil] at hsplit
    exact ⟨rest,hsplit,by rw [hafter,hnil,List.append_nil],he,fun _ => hafter⟩
  · have hline := H.nextLine hd rfl hafter
    rcases List.append_eq_append_iff.mp hsplit with ⟨c,hc,-⟩ | ⟨c,hc,hrest⟩
    · exact absurd rfl (htail '\n' (hc ▸ List.mem_append_left c hline)).1
    · rw [hc] at hline
      have hmem : '\n' ∈ c := (List.mem_append.mp hline).resolve_left fun hmem => (htail _ hmem).1 rfl
      refine ⟨c,hc,hrest,?_,fun hnil => ?_⟩
      · rw [hrest] at he
        exact lineEnd_left he hmem
      · rw [hnil] at hmem
        cases hmem

theorem refValueSpan_eq {src lead ref behind : Rope} (h : CutAtRef src lead ref behind) :
    refValueSpan src = some (lenBytes lead,lenBytes (lead ++ ref)) := by
  have htake : src.take lead.length = lead := by
    rw [h.text,List.append_assoc,List.take_left]
  have htake' : src.take (lead ++ ref).length = lead ++ ref := by
    rw [h.text,List.take_left]
  rw [refValueSpan,h.place,Option.map_some,htake,htake']

/-- A place behind letters in a literal is one of the editor's. -/
theorem literal_position {u : Rope} (hu : NoEscape u) (s : Rope) : ∃ position,
    byteOffsetToLspPosition (x ++ '"' :: u ++ s) (lenBytes (x ++ '"' :: u)) = .ok position ∧
      lspPositionToByteOffset (x ++ '"' :: u ++ s) position = .ok (lenBytes (x ++ '"' :: u)) := by
  refine ConcreteSyntax.position_back ?_
  rw [insideCrlf_iff]
  rintro ⟨hlast,-⟩
  rw [List.getLast?_append_of_ne_nil _ (List.cons_ne_nil _ _)] at hlast
  rcases List.mem_cons.mp (List.mem_of_getLast? hlast) with hquote | hmem
  · cases hquote
  · exact hu.chars _ hmem (by decide)

/-- The edit of the ref. -/
theorem refReplacementEdit_eq {src lead ref behind rawRest : Rope} (h : CutAtRef src lead ref behind)
    (hletters : NoEscape (lead ++ ref)) (s : Rope) (stop : ℕ)
    (htext : text = x ++ '"' :: (lead ++ ref ++ rawRest ++ s)) :
    ∃ edit, refReplacementEdit text (lenBytes x,stop) src r = some edit ∧ edit.newText.toList = r ∧
      Formatting.Denotes text edit (lenBytes (x ++ '"' :: lead),lenBytes (x ++ '"' :: (lead ++ ref))) := by
  have hquote : Char.utf8Size '"' = 1 := rfl
  have hplace (u : Rope) : lenBytes x + 1 + lenBytes u = lenBytes (x ++ '"' :: u) := by
    rw [lenBytes_append,lenBytes_cons,hquote,Nat.add_assoc]
  obtain ⟨start,hstart,hstartBack⟩ := literal_position (x:=x) hletters.left (ref ++ rawRest ++ s)
  obtain ⟨stop',hstop,hstopBack⟩ := literal_position (x:=x) hletters (rawRest ++ s)
  have hsplit : x ++ '"' :: lead ++ (ref ++ rawRest ++ s) = text := by rw [htext]; simp
  have hsplit' : x ++ '"' :: (lead ++ ref) ++ (rawRest ++ s) = text := by rw [htext]; simp
  rw [hsplit] at hstart hstartBack
  rw [hsplit'] at hstop hstopBack
  refine ⟨⟨⟨start,stop'⟩,String.ofList r⟩,?_,String.toList_ofList,hstartBack,hstopBack⟩
  rw [refReplacementEdit,refValueSpan_eq h]
  change ((byteOffsetToLspPosition text (lenBytes x + 1 + lenBytes lead)).toOption.bind fun start =>
    (byteOffsetToLspPosition text (lenBytes x + 1 + lenBytes (lead ++ ref))).toOption.bind fun stop =>
      some _) = _
  rw [hplace,hplace,hstart,hstop]
  rfl

theorem spliced_two (a b b' c m m' rest : Rope) : Spliced lenBytes 0
    [⟨lenBytes a,lenBytes (a ++ b),b'⟩,⟨lenBytes (a ++ b ++ c),lenBytes (a ++ b ++ c ++ m),m'⟩]
    (a ++ b ++ (c ++ m ++ rest)) (a ++ b' ++ (c ++ m' ++ rest)) := by
  have hinner : Spliced lenBytes (lenBytes (a ++ b))
      [⟨lenBytes (a ++ b ++ c),lenBytes (a ++ b ++ c ++ m),m'⟩] (c ++ m ++ rest) (c ++ m' ++ rest) := by
    rw [lenBytes_append (a ++ b ++ c),lenBytes_append (a ++ b)]
    exact .cons .nil
  rw [lenBytes_append a] at hinner ⊢
  rw [← Nat.zero_add (lenBytes a)] at hinner ⊢
  exact .cons hinner

/-- Both edits in their places. -/
theorem applies_both {lead ref rawRest : Rope} {edit comment : TextEdit}
    (htext : text = x ++ '"' :: (lead ++ ref ++ rawRest ++ '"' :: (keep ++ drop ++ rest)))
    (hedit : edit.newText.toList = r) (hcomment : comment.newText.toList = mark drop t)
    (hplace : Formatting.Denotes text edit (lenBytes (x ++ '"' :: lead),lenBytes (x ++ '"' :: (lead ++ ref))))
    (hplace' : Formatting.Denotes text comment
      (lenBytes (x ++ '"' :: (lead ++ ref ++ rawRest ++ ['"']) ++ keep),
        lenBytes (x ++ '"' :: (lead ++ ref ++ rawRest ++ ['"']) ++ (keep ++ drop)))) :
    Applies text [edit,comment]
      (x ++ '"' :: (lead ++ r ++ rawRest ++ '"' :: (keep ++ mark drop t ++ rest))) := by
  have hspliced := spliced_two (x ++ '"' :: lead) ref r (rawRest ++ '"' :: keep) drop (mark drop t) rest
  have hold : x ++ '"' :: lead ++ ref ++ (rawRest ++ '"' :: keep ++ drop ++ rest) = text := by
    rw [htext]
    simp
  have hnew : x ++ '"' :: lead ++ r ++ (rawRest ++ '"' :: keep ++ mark drop t ++ rest) =
      x ++ '"' :: (lead ++ r ++ rawRest ++ '"' :: (keep ++ mark drop t ++ rest)) := by simp
  have hstop : x ++ '"' :: lead ++ ref = x ++ '"' :: (lead ++ ref) := by simp
  have hstart' : x ++ '"' :: (lead ++ ref) ++ (rawRest ++ '"' :: keep) =
      x ++ '"' :: (lead ++ ref ++ rawRest ++ ['"']) ++ keep := by simp
  have hstop' : x ++ '"' :: (lead ++ ref ++ rawRest ++ ['"']) ++ keep ++ drop =
      x ++ '"' :: (lead ++ ref ++ rawRest ++ ['"']) ++ (keep ++ drop) := by simp
  rw [hold,hnew,hstop,hstart',hstop',← hedit,← hcomment] at hspliced
  have hdenotes : ∀ e ∈ [(edit,(lenBytes (x ++ '"' :: lead),lenBytes (x ++ '"' :: (lead ++ ref)))),
      (comment,(lenBytes (x ++ '"' :: (lead ++ ref ++ rawRest ++ ['"']) ++ keep),
        lenBytes (x ++ '"' :: (lead ++ ref ++ rawRest ++ ['"']) ++ (keep ++ drop))))],
      Formatting.Denotes text e.1 e.2 := List.forall_mem_cons.mpr ⟨hplace,List.forall_mem_singleton.mpr hplace'⟩
  rw [← hedit,← hcomment]
  exact applies_of_spliced hdenotes hspliced

/-- A document cut at the ref in a literal and at the comment behind it. -/
structure SourceCut where
  front : Rope
  before : List Piece
  lead : Rope
  ref : Rope
  rawRest : Rope
  keep : Rope
  drop : Rope
  rest : Rope
  after : List Piece

namespace SourceCut

/-- The text before the literal. -/
def start (c : SourceCut) : Rope := c.front ++ renderPieces c.before

def literal (c : SourceCut) (ref : Rope) : Rope := c.lead ++ ref ++ c.rawRest

/-- The document with a ref and a comment. -/
def quoted (c : SourceCut) (ref comment : Rope) : Quoted :=
  ⟨c.front,c.before ++ ⟨c.literal ref,c.keep ++ comment ++ c.rest⟩ :: c.after⟩

theorem quoted_render (c : SourceCut) (ref comment : Rope) : (c.quoted ref comment).render =
    c.start ++ '"' :: (c.literal ref ++ '"' :: (c.keep ++ comment ++ (c.rest ++ renderPieces c.after))) := by
  rw [quoted,Quoted.render,renderPieces_append,start]
  simp [renderPieces,Piece.render]

theorem quote_stop (c : SourceCut) (u : Rope) :
    lenBytes c.start + lenBytes u + 2 = lenBytes (c.start ++ '"' :: (u ++ ['"'])) := by
  have hquote : Char.utf8Size '"' = 1 := rfl
  rw [lenBytes_append c.start,lenBytes_cons,lenBytes_append u,lenBytes_cons,lenBytes_nil,hquote]
  omega

/-- A source is read there, and its line may be written. -/
structure Cuts (c : SourceCut) (H : HclComments) (text : Rope) (d : H.Document) (span : Spanned.Span)
    (src r t : Rope) (behind e : Rope) : Prop where
  text : (c.quoted c.ref c.drop).render = text
  document : ReadAs H.toHclEdit (c.quoted c.ref c.drop) d
  span : span = (lenBytes c.start,lenBytes c.start + lenBytes (c.literal c.ref) + 2)
  source : H.unescape (c.literal c.ref) = some src
  cut : CutAtRef src c.lead c.ref behind
  letters : NoEscape (c.lead ++ c.ref)
  tail : NoBreak (c.keep ++ c.drop)
  line : LineEnd e c.rest
  last : c.rest = [] → c.after = []
  writable : Writable src (c.literal c.ref) c.keep c.drop r t

variable {c : SourceCut} {src behind : Rope}

/-- The edits lead to the document with the new ref and the new comment. -/
theorem Cuts.pinEdits (h : c.Cuts H text d span src r t behind e) : ∃ edits,
    pinEdits text span src r t = .ok (some edits) ∧
      Applies text edits (c.quoted r (mark c.drop t)).render := by
  have htext := h.text
  rw [quoted_render] at htext
  have hquote : (c.start ++ '"' :: (c.literal c.ref ++ ['"'])).getLast? = some '"' := by
    rw [← List.cons_append,← List.append_assoc,List.getLast?_append,List.getLast?_singleton]
    rfl
  have he := lineEnd_append h.line h.last
  obtain ⟨edit,hedit,heditText,heditPlace⟩ := refReplacementEdit_eq (r:=r) h.cut h.letters
    ('"' :: (c.keep ++ c.drop ++ (c.rest ++ renderPieces c.after))) span.2 htext.symm
  obtain ⟨comment,hcomment,hcommentText,hcommentPlace⟩ := commentEdit_eq hquote h.tail he
    h.writable.unmarked t
  have hwhole : c.start ++ '"' :: (c.literal c.ref ++ ['"']) ++ (c.keep ++ c.drop ++ (c.rest ++ renderPieces c.after)) =
      text := by
    rw [← htext]
    simp
  rw [hwhole] at hcomment hcommentPlace
  refine ⟨[edit,comment],?_,?_⟩
  · rw [PinEdits.pinEdits,h.span]
    rw [h.span] at hedit
    rw [hedit]
    dsimp only
    rw [quote_stop,hcomment]
    rfl
  · rw [quoted_render]
    exact applies_both htext.symm heditText hcommentText heditPlace hcommentPlace

/-- It is read as the same document. -/
theorem Cuts.reads (h : c.Cuts H text d span src r t behind e) (ht : NoBreak t) :
    H.unescape (c.literal r) = some (c.lead ++ r ++ behind) ∧
      ReadsAlike H.toHclEdit (c.quoted r (mark c.drop t)) d := by
  have hunescape : H.unescape (c.lead ++ r ++ c.rawRest) = some (c.lead ++ r ++ behind) := by
    obtain ⟨l,b,hlead,hb⟩ := h.cut.marker
    have hletters := h.letters.left
    rw [hlead] at hletters
    refine H.letters h.letters ?_ h.cut.follows (h.source.trans (congrArg some h.cut.text))
    rw [hlead]
    exact NoEscape.append hb hletters h.writable.ref
  refine ⟨hunescape,?_⟩
  obtain ⟨d₁,hd₁,hsame⟩ := H.refillOne h.document (by rw [hunescape]; rfl)
  suffices hcomment : ReadsAlike H.toHclEdit (c.quoted r (mark c.drop t)) d₁ by
    obtain ⟨d₂,hd₂,hsame₂⟩ := hcomment
    exact ⟨d₂,hd₂,hsame₂.trans hsame⟩
  cases hopen : inBlockComment false c.keep with
  | false => exact H.lineComment t hd₁ h.line h.last h.tail h.writable.unmarked hopen ht
  | true =>
    have hdrop : c.drop = [] := by
      by_contra hne
      rw [h.writable.outside hne] at hopen
      cases hopen
    have htail := h.tail
    rw [hdrop,List.append_nil] at htail hd₁
    rw [quoted,hdrop]
    exact H.blockComment t hd₁ h.line h.last htail hopen ht (h.writable.inside hdrop hopen)

end SourceCut

/-- Where a source of a document may be written, the document is cut there. -/
theorem exists_cuts (hd : H.parse text = some d) (ha : sources (H.body d) = s₁ ++ a :: s₂)
    (hspan : a.span = some span) (href : (extractRef a.text).isSome)
    (h : Settable text span a.text r t) : ∃ (c : SourceCut) (behind e : Rope),
      c.Cuts H text d span a.text r t behind e ∧
        s₁.map (fun a => some a.text) = texts H.toHclEdit c.before ∧
        s₂.map (fun a => some a.text) = texts H.toHclEdit c.after := by
  obtain ⟨⟨front,pieces⟩,hrender,hlocated⟩ := H.located hd
  obtain ⟨before,⟨raw',behind'⟩,after,hpieces,hfirst,hlast,hsrc,hplace⟩ := exists_piece hlocated ha
  dsimp only at hpieces hsrc hplace
  subst hpieces
  obtain ⟨x,raw,keep,drop,rest,e,htext,hspan',he,htail,hw⟩ := h
  -- the literal of the source is that of its piece
  have hcutText : x ++ '"' :: (raw ++ '"' :: (keep ++ drop ++ rest)) = (front ++ renderPieces before) ++
      '"' :: (raw' ++ '"' :: (behind' ++ renderPieces after)) := by
    rw [← htext,← hrender,Quoted.render,renderPieces_append,List.append_assoc]
    simp [renderPieces,Piece.render]
  obtain ⟨hstart,hstop⟩ := Prod.mk.inj (hspan'.symm.trans (Option.some.inj (hspan.symm.trans hplace)))
  obtain ⟨rfl,hliteral⟩ := append_inj_lenBytes hcutText hstart
  obtain ⟨rfl,hbehind⟩ := append_inj_lenBytes (List.cons.inj hliteral).2 (by omega)
  have hread : ReadAs H.toHclEdit ⟨front,before ++ ⟨raw,behind'⟩ :: after⟩ d :=
    ⟨by rw [hrender]; exact hd,hlocated⟩
  obtain ⟨rest',hbehind',rfl,he',hrest'⟩ := behind_split hread htail he (List.cons.inj hbehind).2.symm
  dsimp only at hbehind'
  subst hbehind'
  obtain ⟨lead,ref,behind,hcut⟩ := exists_cutAtRef href
  obtain ⟨hsame,hletters⟩ := hw.letters _ hcut.place
  have htake : raw.take (lead ++ ref).length = lead ++ ref := by
    rw [hsame,hcut.text,List.take_left]
  rw [htake] at hletters
  obtain ⟨rawRest,rfl⟩ : ∃ rawRest, raw = lead ++ ref ++ rawRest := ⟨_,by
    conv_lhs => rw [← List.take_append_drop (lead ++ ref).length raw,htake]⟩
  exact ⟨⟨front,before,lead,ref,rawRest,keep,drop,rest',after⟩,behind,e,
    ⟨hrender,hread,hspan',hsrc,hcut,hletters,htail,he',hrest',hw⟩,hfirst,hlast⟩

/-- What is written is read back, where the literal is spelled as it says up to its ref, no
character of the ref has a meaning of its own, and the text behind the literal has its
first marker at a comment to the end of the line. -/
theorem pin_put_get (hd : H.parse text = some d) (ha : sources (H.body d) = s₁ ++ a :: s₂)
    (hspan : a.span = some span) (href : (extractRef a.text).isSome)
    (ht : ∀ c ∈ t, isWhitespace c = false) (h : Settable text span a.text r t) :
    PutGet H.toHclEdit text d s₁ a s₂ span r t := by
  obtain ⟨c,behind,e,hcuts,hfirst,hlast⟩ := exists_cuts hd ha hspan href h
  have hw := hcuts.writable
  have hword : Word t := ⟨hw.named,ht⟩
  obtain ⟨edits,hedits,happlies⟩ := hcuts.pinEdits
  obtain ⟨hunescape,d',hd',hsame⟩ := hcuts.reads hword.noBreak
  obtain ⟨s₁',a',s₂',hsources,hfirst',hlast',hsrc,hplace⟩ := located_split hd'.2
  have htext : a'.text = c.lead ++ r ++ behind := (Option.some.inj (hunescape.symm.trans hsrc)).symm
  have hsome : Function.Injective (List.map (some : Rope → Option Rope)) :=
    List.map_injective_iff.mpr (Option.some_injective _)
  refine ⟨edits,_,d',s₁',a',s₂',hedits,happlies,hd'.1,hsame,hsources,⟨hsome ?_,hsome ?_⟩,
    ⟨c.lead,c.ref,behind,hcuts.cut.text,refValueSpan_eq hcuts.cut,htext⟩,?_,_,hplace,?_⟩
  · rw [List.map_map,List.map_map]
    exact hfirst'.trans hfirst.symm
  · rw [List.map_map,List.map_map]
    exact hlast'.trans hlast.symm
  · rw [htext]
    exact hcuts.cut.put r hw.fits
  · have hread := comment_read (x:=c.start ++ '"' :: (c.literal r ++ ['"'])) c.drop hcuts.tail.left
      hw.unmarked.hash hw.unmarked.slashes hword hw.tag (lineEnd_append hcuts.line hcuts.last)
    have hwhole : c.start ++ '"' :: (c.literal r ++ ['"']) ++ (c.keep ++ mark c.drop t ++ (c.rest ++ renderPieces c.after)) =
        (c.quoted r (mark c.drop t)).render := by
      rw [SourceCut.quoted_render]
      simp
    rw [hwhole,← SourceCut.quote_stop] at hread
    exact hread

end putGet

/-! ### A crate that reads one module with any text behind its source -/

section oneLine

instance decidableNoEscape (u : Rope) : Decidable (NoEscape u) :=
  decidable_of_iff ((u.all fun c => c ∉ ['"','\\','\n','\r']) ∧ ¬"$\x7b".toList <:+: u ∧
      ¬"%\x7b".toList <:+: u)
    ⟨fun h => ⟨fun c hc => of_decide_eq_true (List.all_eq_true.mp h.1 c hc),h.2.1,h.2.2⟩,
      fun h => ⟨List.all_eq_true.mpr fun c hc => decide_eq_true (h.chars c hc),h.interpolation,h.directive⟩⟩

def lineCut (raw tail : Rope) : Quoted := ⟨moduleFront,[⟨raw,tail ++ moduleBehind⟩]⟩

def readLine (text : Rope) : Option (Rope × Rope) :=
  let inside := text.drop (moduleFront.length + 1)
  let raw := inside.takeWhile (· ≠ '"')
  let tail := (inside.drop (raw.length + 1)).takeWhile (· ≠ '\n')
  if NoEscape raw ∧ '\r' ∉ tail ∧ (lineCut raw tail).render = text then some (raw,tail) else none

def unescapeLetters (raw : Rope) : Option Rope := if NoEscape raw then some raw else none

theorem lineCut_render (raw tail : Rope) : (lineCut raw tail).render =
    (moduleFront ++ ['"']) ++ (raw ++ '"' :: (tail ++ moduleBehind)) := by
  simp [lineCut,Quoted.render,renderPieces,Piece.render]

theorem readLine_eq {text raw tail : Rope} : readLine text = some (raw,tail) ↔
    NoEscape raw ∧ '\n' ∉ tail ∧ '\r' ∉ tail ∧ (lineCut raw tail).render = text := by
  constructor
  · intro h
    rw [readLine] at h
    split_ifs at h with hread
    obtain ⟨rfl,rfl⟩ := Prod.mk.inj (Option.some.inj h)
    refine ⟨hread.1,fun hmem => ?_,hread.2⟩
    have := List.mem_takeWhile_imp hmem
    simp at this
  · rintro ⟨hraw,hfeed,hreturn,rfl⟩
    have hquote : '"' ∉ raw := fun hmem => hraw.chars _ hmem (by decide)
    have hinside : (lineCut raw tail).render.drop (moduleFront.length + 1) =
        raw ++ '"' :: (tail ++ moduleBehind) := by
      rw [lineCut_render,List.drop_left' (by simp)]
    have hbehind : (raw ++ '"' :: (tail ++ moduleBehind)).drop (raw.length + 1) = tail ++ moduleBehind := by
      have hsplit : raw ++ '"' :: (tail ++ moduleBehind) = (raw ++ ['"']) ++ (tail ++ moduleBehind) := by simp
      rw [hsplit,List.drop_left' (by simp)]
    rw [readLine,hinside,takeWhile_stop hquote (.inr rfl),hbehind,takeWhile_stop hfeed (.inr rfl)]
    exact if_pos ⟨hraw,hreturn,rfl⟩

theorem unescapeLetters_same {r s : Rope} (h : unescapeLetters r = some s) : s = r := by
  rw [unescapeLetters] at h
  split_ifs at h
  exact (Option.some.inj h).symm

theorem noEscape_of_isSome {r : Rope} (h : (unescapeLetters r).isSome) : NoEscape r := by
  by_contra hnot
  rw [unescapeLetters,if_neg hnot] at h
  cases h

theorem noEscape_append_plain {u s : Rope} (hu : NoEscape u) (hs : s.all isPlain) : NoEscape (u ++ s) := by
  have hplain : ∀ c ∈ s, isPlain c = true := List.all_eq_true.mp hs
  have hbrace : '\x7b' ∉ s := fun hmem => by
    have := hplain _ hmem
    revert this
    decide
  have hwithin {b : Char} (hu : ¬[b,'\x7b'] <:+: u) : ¬[b,'\x7b'] <:+: u ++ s := by
    rintro ⟨l,t,hsplit⟩
    rcases List.append_eq_append_iff.mp hsplit with ⟨c,hc,-⟩ | ⟨c,hc,hrest⟩
    · exact hu ⟨l,c,hc.symm⟩
    · by_cases hnil : c = []
      · rw [hnil,List.append_nil] at hc
        exact hu ⟨l,[],by rw [List.append_nil,hc]⟩
      · -- the brace would be one of the plain text
        have hlast : (u ++ c).getLast? = some '\x7b' := by rw [← hc]; simp
        rw [List.getLast?_append_of_ne_nil _ hnil] at hlast
        exact hbrace (hrest ▸ List.mem_append_left t (List.mem_of_getLast? hlast))
  refine ⟨fun c hc => (List.mem_append.mp hc).elim (hu.chars c) fun hmem hbad => ?_,
    hwithin hu.interpolation,hwithin hu.directive⟩
  have hc := hplain c hmem
  simp only [List.mem_cons,List.not_mem_nil,or_false] at hbad
  rcases hbad with rfl | rfl | rfl | rfl <;> revert hc <;> decide

def lineParser : HclEdit where
  Document := Rope × Rope
  Rest := Unit
  parse := readLine
  body d := moduleBody d.1
  rest _ := ()
  unescape := unescapeLetters
  located := by
    rintro text ⟨raw,tail⟩ h
    obtain ⟨hraw,-,-,htext⟩ := readLine_eq.mp h
    have hunescape : unescapeLetters raw = some raw := if_pos hraw
    refine ⟨lineCut raw tail,htext,?_⟩
    show [_] = [_]
    rw [List.cons.injEq,Prod.mk.injEq]
    exact ⟨⟨rfl,hunescape.symm⟩,rfl⟩
  refill := by
    rintro q ⟨raw,tail⟩ f h hlocated hvalid
    obtain ⟨-,hfeed,hreturn,htext⟩ := readLine_eq.mp h
    obtain rfl := eq_cut unescapeLetters_same htext hlocated
    have hraw : NoEscape (f raw) := noEscape_of_isSome (hvalid ⟨raw,_⟩ (List.mem_singleton_self _))
    have hunescape : unescapeLetters (f raw) = some (f raw) := if_pos hraw
    refine ⟨(f raw,tail),readLine_eq.mpr ⟨hraw,hfeed,hreturn,rfl⟩,rfl,?_⟩
    show [_] = [_]
    rw [List.cons.injEq,Prod.mk.injEq]
    exact ⟨⟨rfl,hunescape.symm⟩,rfl⟩
  unescape_append := by
    intro raw text plain h hplain
    obtain rfl := unescapeLetters_same h
    exact if_pos (noEscape_append_plain (noEscape_of_isSome (by rw [h]; rfl)) hplain)

theorem lineParser_cut {raw tail : Rope} (hraw : NoEscape raw) (htail : ∀ c ∈ tail, c ≠ '\n' ∧ c ≠ '\r') :
    ReadAs lineParser (lineCut raw tail) (raw,tail) := by
  have hparse : lineParser.parse (lineCut raw tail).render = some (raw,tail) :=
    readLine_eq.mpr ⟨hraw,fun hmem => (htail _ hmem).1 rfl,fun hmem => (htail _ hmem).2 rfl,rfl⟩
  obtain ⟨q,hq,hlocated⟩ := lineParser.located hparse
  obtain rfl := eq_cut unescapeLetters_same hq.symm hlocated
  exact ⟨hparse,hlocated⟩

/-- Where a text is cut that is read so. -/
theorem cut_of_readAs {q : Quoted} {d : Rope × Rope} (h : ReadAs lineParser q d) :
    NoEscape d.1 ∧ (∀ c ∈ d.2, c ≠ '\n' ∧ c ≠ '\r') ∧ q = lineCut d.1 d.2 := by
  obtain ⟨hraw,hfeed,hreturn,htext⟩ := readLine_eq.mp (show readLine q.render = some (d.1,d.2) from h.1)
  refine ⟨hraw,fun c hc => ⟨fun heq => hfeed (heq ▸ hc),fun heq => hreturn (heq ▸ hc)⟩,?_⟩
  exact eq_cut unescapeLetters_same htext h.2

theorem pieces_eq {front raw behind raw' tail : Rope} {before after : List Piece}
    (h : (⟨front,before ++ ⟨raw,behind⟩ :: after⟩ : Quoted) = lineCut raw' tail) :
    front = moduleFront ∧ before = [] ∧ after = [] ∧ raw = raw' ∧ behind = tail ++ moduleBehind := by
  obtain ⟨rfl,hpieces⟩ := Quoted.mk.inj h
  cases before with
  | nil =>
    obtain ⟨hpiece,rfl⟩ := List.cons.inj hpieces
    obtain ⟨rfl,rfl⟩ := Piece.mk.inj hpiece
    exact ⟨rfl,rfl,rfl,rfl,rfl⟩
  | cons p before =>
    have := congrArg List.length hpieces
    simp at this

/-- Another text behind the source. -/
theorem lineParser_tail {front raw tail tail' rest e : Rope} {before after : List Piece} {d : Rope × Rope}
    (h : ReadAs lineParser ⟨front,before ++ ⟨raw,tail ++ rest⟩ :: after⟩ d) (he : LineEnd e rest)
    (htail : NoBreak tail) (htail' : NoBreak tail') :
    ReadsAlike lineParser ⟨front,before ++ ⟨raw,tail' ++ rest⟩ :: after⟩ d := by
  obtain ⟨hraw,hline,hcut⟩ := cut_of_readAs h
  obtain ⟨rfl,rfl,rfl,rfl,hbehind⟩ := pieces_eq hcut
  have hfront : moduleBehind = '\n' :: moduleBehind.tail := rfl
  obtain rfl : rest = moduleBehind := by
    rcases List.append_eq_append_iff.mp hbehind with ⟨c,hc,hrest⟩ | ⟨c,hc,hrest⟩
    · cases c with
      | nil => exact hrest
      | cons b c =>
        -- the line ends behind the text that the crate takes for one line
        have hb := hline b (hc ▸ List.mem_append_right tail List.mem_cons_self)
        rw [hrest] at he
        generalize hs : b :: c ++ moduleBehind = s at he
        cases he with
        | feed => exact absurd (List.cons.inj hs).1 hb.1
        | crlf => exact absurd (List.cons.inj hs).1 hb.2
        | eof => cases hs
    · cases c with
      | nil => exact hrest.symm
      | cons b c =>
        rw [hfront] at hrest
        obtain rfl := (List.cons.inj hrest).1
        exact absurd rfl (htail '\n' (hc ▸ List.mem_append_right _ List.mem_cons_self)).1
  exact ⟨(d.1,tail'),lineParser_cut hraw htail'.inLine,rfl⟩

theorem noEscape_append_amp {u s : Rope} (hu : NoEscape u) (hs : NoEscape s)
    (hhead : s = [] ∨ s.head? = some '&') : NoEscape (u ++ s) :=
  ⟨fun c hc => (List.mem_append.mp hc).elim (hu.chars c) (hs.chars c),
    not_infix_append (by decide) hu.interpolation hhead hs.interpolation,
    not_infix_append (by decide) hu.directive hhead hs.directive⟩

theorem NoEscape.right {u s : Rope} (h : NoEscape (u ++ s)) : NoEscape s :=
  ⟨fun c hc => h.chars c (List.mem_append_right u hc),
    fun hwithin => h.interpolation (hwithin.trans (List.suffix_append u s).isInfix),
    fun hwithin => h.directive (hwithin.trans (List.suffix_append u s).isInfix)⟩

def oneLine : HclComments where
  toHclEdit := lineParser
  nextLine := by
    rintro ⟨front,pieces⟩ d before p after hd rfl hafter
    obtain ⟨-,-,hcut⟩ := cut_of_readAs hd
    exact absurd (pieces_eq hcut).2.2.1 hafter
  refillOne := fun hd hraw => by
    obtain ⟨-,hline,hcut⟩ := cut_of_readAs hd
    obtain ⟨rfl,rfl,rfl,rfl,rfl⟩ := pieces_eq hcut
    exact ⟨(_,_),lineParser_cut (noEscape_of_isSome hraw) hline,rfl⟩
  letters := by
    intro u u' s w hu hu' hw h
    obtain rfl := List.append_cancel_left (unescapeLetters_same h)
    have hs : NoEscape w := (noEscape_of_isSome (r:=u ++ w) (Option.isSome_of_eq_some h)).right
    exact if_pos (noEscape_append_amp hu' hs hw)
  lineComment := fun t hd he _ htail _ _ ht => lineParser_tail hd he htail (htail.left.append ht.mark)
  blockComment := fun t hd he _ htail _ ht _ => lineParser_tail hd he htail (htail.append ht.mark)

def pinnedSource : Rope := "git::https://h/r.git?ref=v1".toList

def pinnedSpan : Spanned.Span := (lenBytes moduleFront,lenBytes moduleFront + lenBytes pinnedSource + 2)

def pinnedAt : Source := ⟨none,some pinnedSpan,pinnedSource⟩

def pinnedText (tail : Rope) : Rope := (lineCut pinnedSource tail).render

theorem pinned_settable : Settable (pinnedText " # v1".toList) pinnedSpan pinnedSource "abc1234".toList
    "v1.2.0".toList := by
  refine ⟨moduleFront,pinnedSource,[' '],"# v1".toList,moduleBehind,['\n'],by decide +kernel,rfl,.feed _,?_,?_⟩
  · exact noBreak_of_all (by decide)
  · refine ⟨?_,by decide +kernel,⟨fun _ => by decide,fun _ => by decide,fun _ _ => by decide⟩,by decide,by decide,
      ⟨by decide,by decide,.inr (.inl ⟨rfl,by decide⟩)⟩,fun _ => by decide,fun h => by cases h⟩
    have hplace : refPlace pinnedSource = some (25,27) := by decide +kernel
    rw [hplace]
    rintro place hmem
    obtain rfl := Option.some.inj hmem
    exact ⟨rfl,by decide +kernel⟩

theorem pinned_put_get : PutGet oneLine.toHclEdit (pinnedText " # v1".toList) (pinnedSource," # v1".toList) []
    pinnedAt [] pinnedSpan "abc1234".toList "v1.2.0".toList := by
  refine pin_put_get (H:=oneLine) ?_ rfl rfl (by decide +kernel) (word_of_all (by decide) (by decide)).plain
    pinned_settable
  exact (lineParser_cut (by decide +kernel) (noBreak_of_all (by decide)).inLine).1

/-- The marker that is taken stands in the comment, and what is before it is read as the tag. -/
theorem comment_not_read_back : pinEdits (pinnedText " # a // b".toList) pinnedSpan pinnedSource
      "abc1234".toList "v1.2.0".toList =
        .ok (some [⟨⟨⟨1,37⟩,⟨1,39⟩⟩,"abc1234"⟩,⟨⟨⟨1,45⟩,⟨1,49⟩⟩,"# v1.2.0"⟩]) ∧
    ¬PutGet oneLine.toHclEdit (pinnedText " # a // b".toList) (pinnedSource," # a // b".toList) []
      pinnedAt [] pinnedSpan "abc1234".toList "v1.2.0".toList := by
  have hpin : pinEdits (pinnedText " # a // b".toList) pinnedSpan pinnedSource "abc1234".toList
      "v1.2.0".toList = .ok (some [⟨⟨⟨1,37⟩,⟨1,39⟩⟩,"abc1234"⟩,⟨⟨⟨1,45⟩,⟨1,49⟩⟩,"# v1.2.0"⟩]) := by
    decide +kernel
  refine ⟨hpin,?_⟩
  rintro ⟨edits,new,d',s₁',a',s₂',hedits,happlies,hparse,hback⟩
  obtain rfl := Option.some.inj (Outcome.ok.inj (hpin.symm.trans hedits))
  have hnew : Applies (pinnedText " # a // b".toList)
      [⟨⟨⟨1,37⟩,⟨1,39⟩⟩,"abc1234"⟩,⟨⟨⟨1,45⟩,⟨1,49⟩⟩,"# v1.2.0"⟩]
      (lineCut "git::https://h/r.git?ref=abc1234".toList " # a # v1.2.0".toList).render :=
    ⟨[(_,(50,52)),(_,(58,62))],rfl,by unfold Formatting.Denotes; decide +kernel,
      List.pairwise_pair.mpr (.inl (by decide)),by decide +kernel⟩
  obtain rfl := happlies.unique hnew
  have hread : lineParser.parse (lineCut "git::https://h/r.git?ref=abc1234".toList " # a # v1.2.0".toList).render =
      some ("git::https://h/r.git?ref=abc1234".toList," # a # v1.2.0".toList) :=
    (lineParser_cut (by decide +kernel) (noBreak_of_all (by decide)).inLine).1
  obtain rfl := Option.some.inj (hread.symm.trans hparse)
  have hsource : [(⟨none,some (24,58),"git::https://h/r.git?ref=abc1234".toList⟩ : Source)] =
      s₁' ++ a' :: s₂' := hback.sources
  obtain ⟨span,hspan,htag,-⟩ := hback.comment
  have ha : a' ∈ s₁' ++ a' :: s₂' := List.mem_append_right s₁' List.mem_cons_self
  rw [← hsource,List.mem_singleton] at ha
  rw [ha] at hspan
  obtain rfl := Option.some.inj hspan
  have hfound : trailingCommentTag (lineCut "git::https://h/r.git?ref=abc1234".toList
      " # a # v1.2.0".toList).render 58 = .ok (some ['a']) := by decide +kernel
  have := Option.some.inj (Outcome.ok.inj (hfound.symm.trans htag))
  revert this
  decide

end oneLine

end PinEdits
end TerraformLs
