import TerraformLs.CacheLookups
import TerraformLs.SourceLiterals

/-! Module sources that are pinned to a tag without a shallow clone, and the action that
asks for one. -/
namespace TerraformLs
namespace ShallowClones

open CacheLookups GitRefs Rope SourceLiterals

/-- A tag begins with a `v` and a digit or is made of digits and dots; a commit is as good. -/
def isPinnedToTag (src : Rope) : Bool :=
  match extractRef src with
  | none => false
  | some ref =>
    (ref.head?.any (fun c => c = 'v' || c = 'V') && ref.tail.head?.any Char.isDigit) ||
      (ref.all (fun c => c.isDigit || c = '.') && ref ≠ []) ||
      (7 ≤ lenBytes ref && ref.all isAsciiHexdigit)

def hasDepthOne (src : Rope) : Bool := contains src "depth=1" || contains src "depth%3D1"

/-- What the diagnostic and the action ask of a source. -/
def flagged (src : Rope) : Bool :=
  isGitSource (String.ofList src) && isPinnedToTag src && !hasDepthOne src

def moduleShallowCloneDiagnostics (body : SourceLiterals.Body) (rope : Rope) : List Diagnostic :=
  ((sources body).filter fun a => flagged a.text).map fun a =>
    ⟨ConcreteSyntax.rangeOrDefault rope (a.attrSpan.getD (0,0)),some .warning,
      some "terraform-ls-rs","pinned git module source should add `depth=1` for a shallow clone"⟩

theorem length_diagnostics (body : SourceLiterals.Body) (rope : Rope) :
    (moduleShallowCloneDiagnostics body rope).length =
      (sources body).countP fun a => flagged a.text := by
  rw [moduleShallowCloneDiagnostics,List.length_map,List.countP_eq_length_filter]

/-- Only a source with a query is changed. -/
def edited (src : Rope) : Bool := flagged src && contains src "?"

def shallowCloneEdits (body : SourceLiterals.Body) (rope : Rope) : List TextEdit :=
  (sources body).filterMap fun a =>
    if edited a.text then a.span.bind (appendEdit rope "&depth=1") else none

/-- The query, which a fragment ends. -/
def query (src : Rope) : Rope := ((src.takeWhile (· ≠ '#')).dropWhile (· ≠ '?')).drop 1

/-- A parameter of the query asks for a depth of one. -/
def hasDepthParameter (src : Rope) : Bool := ((query src).splitOn '&').contains "depth=1".toList

/-- A source before and after the edits. -/
structure Fixed (src new : Rope) : Prop where
  pin : edited src → extractRef new = extractRef src
  depth : edited src → hasDepthParameter new
  cleared : edited src → flagged new = false
  kept : edited src = false → new = src

/-- The edits lead to a document with the sources mended and nothing else changed, and a
pinned source is left unflagged exactly if it asks for a depth of one. -/
structure ClonesShallow (H : HclEdit) (text : Rope) (d : H.Document) : Prop where
  mended : ∃ new d', Applies text (shallowCloneEdits (H.body d) text) new ∧ H.parse new = some d' ∧
    H.rest d' = H.rest d ∧ List.Forall₂ Fixed ((sources (H.body d)).map SourceLiterals.Source.text)
      ((sources (H.body d')).map SourceLiterals.Source.text) ∧
    ∃ q f, text = q.render ∧ new = (Quoted.fill q f).render ∧ Located H d q
  unflagged : ∀ a ∈ sources (H.body d), isGitSource (String.ofList a.text) → isPinnedToTag a.text →
    (flagged a.text = false ↔ hasDepthParameter a.text)

/-- The text that is taken for the parameter is one, and a source that is changed has no
fragment. -/
def Plain (src : Rope) : Prop :=
  (hasDepthOne src → hasDepthParameter src) ∧ (edited src → '#' ∉ src)

/-! ### Parameters -/

section parameters

variable {src : Rope}

theorem contains_iff {s : Rope} {pattern : String} :
    contains s pattern ↔ pattern.toList <:+: s := find_isSome_iff

theorem infix_of_mem_splitOn {x : Char} {t piece : Rope} (h : piece ∈ t.splitOn x) : piece <:+: t := by
  suffices hs : (∀ piece ∈ t.splitOn x, piece <:+: t) ∧ ∀ first ∈ (t.splitOn x).head?, first <+: t from
    hs.1 piece h
  clear h
  induction t with
  | nil =>
    rw [List.splitOn_eq_singleton List.not_mem_nil]
    simp
  | cons c t ih =>
    rw [List.splitOn_cons_eq_if_modifyHead]
    split_ifs with hc
    · refine ⟨fun piece hpiece => ?_,fun first hfirst => ?_⟩
      · rcases List.mem_cons.mp hpiece with rfl | hpiece
        · exact List.nil_infix
        · exact (ih.1 piece hpiece).trans (List.suffix_cons c t).isInfix
      · obtain rfl := Option.some.inj hfirst
        exact List.nil_prefix
    · obtain ⟨first,rest,hsplit⟩ := List.exists_cons_of_ne_nil (List.splitOn_ne_nil x t)
      rw [hsplit] at ih ⊢
      rw [List.modifyHead_cons]
      have hfirst : c :: first <+: c :: t := List.cons_prefix_cons.mpr ⟨rfl,ih.2 first rfl⟩
      refine ⟨fun piece hpiece => ?_,fun first' hfirst' => ?_⟩
      · rcases List.mem_cons.mp hpiece with rfl | hpiece
        · exact hfirst.isInfix
        · exact (ih.1 piece (List.mem_cons_of_mem first hpiece)).trans (List.suffix_cons c t).isInfix
      · obtain rfl := Option.some.inj hfirst'
        exact hfirst

theorem query_inside (src : Rope) : query src <:+: src := by
  have hdrop := (List.drop_suffix 1 ((src.takeWhile (· ≠ '#')).dropWhile (· ≠ '?'))).trans
    (List.dropWhile_suffix _)
  exact hdrop.isInfix.trans (List.takeWhile_prefix _).isInfix

/-- The parameter is found by its text. -/
theorem hasDepthOne_of_parameter (h : hasDepthParameter src) : hasDepthOne src := by
  rw [hasDepthParameter,List.contains_iff_mem] at h
  rw [hasDepthOne,Bool.or_eq_true]
  exact .inl (contains_iff.mpr ((infix_of_mem_splitOn h).trans (query_inside src)))

theorem query_append (hq : '?' ∈ src) (hf : '#' ∉ src) {t : Rope} (ht : '#' ∉ t) :
    query (src ++ t) = query src ++ t := by
  have hwhole {s : Rope} (hs : '#' ∉ s) : s.takeWhile (· ≠ '#') = s :=
    List.takeWhile_eq_self_iff.mpr fun c hc => decide_eq_true fun heq => hs (heq ▸ hc)
  have hboth : '#' ∉ src ++ t := fun hmem => (List.mem_append.mp hmem).elim hf ht
  rw [query,query,hwhole hboth,hwhole hf]
  have hne : src.dropWhile (· ≠ '?') ≠ [] := by
    rw [Ne,List.dropWhile_eq_nil_iff]
    intro hall
    have := hall '?' hq
    simp at this
  obtain ⟨c,rest,hrest⟩ := List.exists_cons_of_ne_nil hne
  rw [List.dropWhile_append,hrest]
  rfl

/-- What is appended behind a fragment changes no parameter. -/
theorem query_append_fragment (hf : '#' ∈ src) (t : Rope) : query (src ++ t) = query src := by
  have hstop : (src ++ t).takeWhile (· ≠ '#') = src.takeWhile (· ≠ '#') := by
    rw [List.takeWhile_append,if_neg]
    intro hlen
    have hall := List.takeWhile_eq_self_iff.mp
      ((List.takeWhile_prefix (p:=fun c => decide (c ≠ '#')) (l:=src)).eq_of_length hlen) '#' hf
    simp at hall
  rw [query,query,hstop]

def depthText : Rope := '&' :: "depth=1".toList

theorem hasDepthOne_append (src : Rope) : hasDepthOne (src ++ depthText) := by
  have hinfix : "depth=1".toList <:+: src ++ depthText :=
    ((List.suffix_cons '&' _).trans (List.suffix_append src depthText)).isInfix
  rw [hasDepthOne,Bool.or_eq_true]
  exact .inl (contains_iff.mpr hinfix)

/-- The appended parameter is one just before a fragment. -/
theorem hasDepthParameter_append (hq : '?' ∈ src) (hnone : ¬hasDepthOne src) :
    hasDepthParameter (src ++ depthText) ↔ '#' ∉ src := by
  constructor
  · intro h hf
    rw [hasDepthParameter,query_append_fragment hf] at h
    exact hnone (hasDepthOne_of_parameter h)
  · intro hf
    have hlast : "depth=1".toList.splitOn '&' = ["depth=1".toList] :=
      List.splitOn_eq_singleton (by decide)
    rw [hasDepthParameter,List.contains_iff_mem,query_append hq hf (by decide),depthText,
      List.splitOn_append_cons_self,hlast]
    exact List.mem_append_right _ (List.mem_singleton_self _)

theorem takeWhile_append_depth (s : Rope) :
    (s ++ depthText).takeWhile (· ≠ '&') = s.takeWhile (· ≠ '&') := by
  rw [List.takeWhile_append]
  split_ifs with hlen
  · have hstop : depthText.takeWhile (· ≠ '&') = [] := List.takeWhile_cons_of_neg (by decide)
    rw [(List.takeWhile_prefix _).eq_of_length hlen,hstop,List.append_nil]
  · rfl

/-- The pin of a query ends before what is appended. -/
theorem extractRef_append (hf : '#' ∉ src) (hpin : (extractRef src).isSome) :
    extractRef (src ++ depthText) = extractRef src := by
  have hmarked {p : Rope} {i : ℕ} (hlen : p.length = 5) (h : find p src = some i) :
      ((src ++ depthText).drop (i + 5)).takeWhile (· ≠ '&') = (src.drop (i + 5)).takeWhile (· ≠ '&') := by
    have hle := (find_spec h).length_le
    rw [List.length_drop] at hle
    have hpos : 0 < p.length := by omega
    rw [List.drop_append_of_le_length (by omega),takeWhile_append_depth]
  rw [extractRef,extractRef]
  cases hquery : find "?ref=".toList src with
  | some i =>
    rw [find_append (by decide) hquery]
    exact congrArg some (hmarked rfl hquery)
  | none =>
    have hquery' : find "?ref=".toList (src ++ depthText) = none :=
      find_none_append (by decide) hquery (by decide)
    rw [hquery']
    cases hparam : find "&ref=".toList src with
    | some i =>
      rw [find_append (by decide) hparam]
      exact congrArg some (hmarked rfl hparam)
    | none =>
      have hnone : find ['#'] src = none := by
        rw [find_eq_none_iff,List.singleton_infix_iff]
        exact hf
      rw [extractRef,hquery,hparam,hnone] at hpin
      cases hpin

theorem edited_iff : edited src ↔ flagged src ∧ '?' ∈ src := by
  have hmark : "?".toList = ['?'] := rfl
  rw [edited,Bool.and_eq_true,contains_iff,hmark,List.singleton_infix_iff]

theorem flagged_parts (h : flagged src) : (extractRef src).isSome ∧ ¬hasDepthOne src := by
  rw [flagged,Bool.and_eq_true,Bool.and_eq_true] at h
  obtain ⟨⟨-,hpinned⟩,hdepth⟩ := h
  refine ⟨?_,by simpa using hdepth⟩
  cases href : extractRef src with
  | none =>
    rw [isPinnedToTag,href] at hpinned
    cases hpinned
  | some ref => rfl

/-- What the action makes of a source. -/
def mend (src : Rope) : Rope := if edited src then src ++ depthText else src

theorem fixed_iff : Fixed src (mend src) ↔ (edited src → '#' ∉ src) := by
  rw [mend]
  constructor
  · intro h hedited hf
    obtain ⟨hflagged,hquery⟩ := edited_iff.mp hedited
    have hdepth := h.depth hedited
    rw [if_pos hedited] at hdepth
    exact (hasDepthParameter_append hquery (flagged_parts hflagged).2).mp hdepth hf
  · intro hplain
    split_ifs with hedited
    · obtain ⟨hflagged,hquery⟩ := edited_iff.mp hedited
      obtain ⟨hpin,hdepth⟩ := flagged_parts hflagged
      have hf := hplain hedited
      refine ⟨fun _ => extractRef_append hf hpin,
        fun _ => (hasDepthParameter_append hquery hdepth).mpr hf,fun _ => ?_,fun hnot => ?_⟩
      · rw [flagged,hasDepthOne_append,Bool.not_true,Bool.and_false]
      · rw [hedited] at hnot
        cases hnot
    · exact ⟨fun h => absurd h hedited,fun h => absurd h hedited,fun h => absurd h hedited,fun _ => rfl⟩

theorem unflagged_iff (hgit : isGitSource (String.ofList src)) (hpinned : isPinnedToTag src) :
    (flagged src = false ↔ hasDepthParameter src) ↔ (hasDepthOne src → hasDepthParameter src) := by
  rw [flagged,hgit,hpinned,Bool.and_self,Bool.true_and,Bool.not_eq_false']
  exact ⟨fun h => h.mp,fun h => ⟨h,hasDepthOne_of_parameter⟩⟩

end parameters

/-! ### Documents -/

section documents

variable {H : HclEdit} {text : Rope} {d : H.Document} {q : Quoted}

/-- The literals that the edits are for. -/
def chosen (H : HclEdit) (raw : Rope) : Bool := (H.unescape raw).any edited

def mendLiteral (H : HclEdit) (raw : Rope) : Rope :=
  if chosen H raw then raw ++ "&depth=1".toList else raw

theorem shallowCloneEdits_eq (h : Located H d q) :
    shallowCloneEdits (H.body d) text = (q.places.filter fun p => chosen H p.2).filterMap fun p =>
      appendEdit text "&depth=1" p.1 := by
  let edit (x : Option Spanned.Span × Option Rope) : Option TextEdit :=
    if x.2.any edited then x.1.bind (appendEdit text "&depth=1") else none
  have hsources : shallowCloneEdits (H.body d) text =
      ((sources (H.body d)).map fun a => (a.span,some a.text)).filterMap edit := by
    rw [List.filterMap_map]
    rfl
  have hplaces : (q.places.map fun p => (some p.1,H.unescape p.2)).filterMap edit =
      (q.places.filter fun p => chosen H p.2).filterMap fun p => appendEdit text "&depth=1" p.1 := by
    rw [List.filterMap_map,List.filterMap_filter]
    rfl
  rw [hsources,h,hplaces]

theorem unescape_mendLiteral {raw s : Rope} (h : H.unescape raw = some s) :
    H.unescape (mendLiteral H raw) = some (mend s) := by
  have hchosen : chosen H raw = edited s := by rw [chosen,h,Option.any_some]
  rw [mendLiteral,mend,hchosen]
  split_ifs
  · exact H.unescape_append h (by decide)
  · exact h

/-- The edits lead to the document with the mended sources. -/
theorem mended_document (hd : H.parse q.render = some d) (h : Located H d q) : ∃ d',
    Applies q.render (shallowCloneEdits (H.body d) q.render) (q.fill (mendLiteral H)).render ∧
      H.parse (q.fill (mendLiteral H)).render = some d' ∧ H.rest d' = H.rest d ∧
      (sources (H.body d')).map SourceLiterals.Source.text =
        ((sources (H.body d)).map SourceLiterals.Source.text).map mend := by
  have hsaid {p : Piece} (hp : p ∈ q.pieces) :
      H.unescape (mendLiteral H p.raw) = (H.unescape p.raw).map mend := by
    obtain ⟨s,hs⟩ := Option.isSome_iff_exists.mp (h.unescape_isSome hp)
    rw [hs,unescape_mendLiteral hs,Option.map_some]
  obtain ⟨d',hd',hrest,hlocated⟩ := H.refill (mendLiteral H) hd h fun p hp => by
    rw [hsaid hp,Option.isSome_map]
    exact h.unescape_isSome hp
  refine ⟨d',?_,hd',hrest,?_⟩
  · rw [shallowCloneEdits_eq h]
    exact applies_append q "&depth=1" (chosen H)
  · have hnew : (sources (H.body d')).map (fun a => some a.text) =
        ((sources (H.body d)).map fun a => some a.text).map (Option.map mend) := by
      rw [Located.texts hlocated,h.texts,Quoted.fill,List.map_map,List.map_map]
      exact List.map_congr_left fun p hp => hsaid hp
    have hsome : List.map some ((sources (H.body d')).map SourceLiterals.Source.text) =
        List.map some (((sources (H.body d)).map SourceLiterals.Source.text).map mend) := by
      simpa [List.map_map,Function.comp_def] using hnew
    exact List.map_injective_iff.mpr (Option.some_injective _) hsome

/-- The action is right for a document exactly if what is taken for the parameter in a
pinned source is one, and no source that it changes has a fragment. -/
theorem clones_shallow_iff (hd : H.parse text = some d) : ClonesShallow H text d ↔
    ∀ a ∈ sources (H.body d), isGitSource (String.ofList a.text) → isPinnedToTag a.text →
      Plain a.text := by
  obtain ⟨q,rfl,hlocated⟩ := H.located hd
  obtain ⟨d',happlies,hd',hrest,htexts⟩ := mended_document hd hlocated
  have hfixed : List.Forall₂ Fixed ((sources (H.body d)).map SourceLiterals.Source.text)
      (((sources (H.body d)).map SourceLiterals.Source.text).map mend) ↔
        ∀ a ∈ sources (H.body d), edited a.text → '#' ∉ a.text := by
    rw [List.forall₂_map_right_iff,List.forall₂_same,List.forall_mem_map]
    exact forall₂_congr fun a _ => fixed_iff
  constructor
  · rintro ⟨⟨new,d'',hnew,hparse,-,hforall,-⟩,hunflagged⟩ a ha hgit hpinned
    obtain rfl := hnew.unique happlies
    obtain rfl : d' = d'' := Option.some.inj (hd'.symm.trans hparse)
    rw [htexts] at hforall
    exact ⟨(unflagged_iff hgit hpinned).mp (hunflagged a ha hgit hpinned),hfixed.mp hforall a ha⟩
  · intro hplain
    refine ⟨⟨_,d',happlies,hd',hrest,?_,q,_,rfl,rfl,hlocated⟩,fun a ha hgit hpinned => ?_⟩
    · rw [htexts,hfixed]
      intro a ha hedited
      have hflagged := (edited_iff.mp hedited).1
      rw [flagged,Bool.and_eq_true,Bool.and_eq_true] at hflagged
      exact (hplain a ha hflagged.1.1 hflagged.1.2).2 hedited
    · exact (unflagged_iff hgit hpinned).mpr (hplain a ha hgit hpinned).1

theorem sources_oneModule (raw : Rope) : (sources (oneModule.body raw)).map
    SourceLiterals.Source.text = [raw] := rfl

def taggedSource : Rope := "git::https://h/r.git?ref=v1".toList

theorem tagged_clones_shallow :
    ClonesShallow oneModule (moduleCut taggedSource).render taggedSource := by
  refine (clones_shallow_iff (oneModule_located taggedSource (by decide)).1).mpr fun a ha _ _ => ?_
  have htext : a.text = taggedSource := List.mem_singleton.mp (List.mem_map_of_mem ha)
  rw [htext]
  refine ⟨?_,fun _ => by decide⟩
  have hnone : hasDepthOne taggedSource = false := by decide
  rw [hnone]
  intro h
  cases h

/-- The pin stands in the fragment, which the parameter is put into. -/
def fragmentSource : Rope := "git::https://h/r.git?a=b#v1".toList

def deepSource : Rope := "git::https://h/r.git?ref=v1&depth=10".toList

theorem fragment_clones_deep :
    ¬ClonesShallow oneModule (moduleCut fragmentSource).render fragmentSource ∧
      ¬ClonesShallow oneModule (moduleCut deepSource).render deepSource := by
  constructor
  · intro h
    obtain ⟨hparse,hlocated⟩ := oneModule_located fragmentSource (by decide)
    obtain ⟨d',happlies,hd',-,htexts⟩ := mended_document hparse hlocated
    obtain ⟨new,d'',hnew,hparse',-,hforall,-⟩ := h.mended
    obtain rfl := hnew.unique happlies
    obtain rfl : d' = d'' := Option.some.inj (hd'.symm.trans hparse')
    rw [htexts,sources_oneModule,List.map_singleton] at hforall
    cases hforall with
    | cons hfixed _ =>
      have hedited : edited fragmentSource := by decide
      exact fixed_iff.mp hfixed hedited (by decide)
  · intro h
    have hflagged : flagged deepSource = false := by decide
    have := (h.unflagged ⟨none,_,deepSource⟩ List.mem_cons_self (by decide) (by decide)).mp hflagged
    revert this
    decide

end documents

end ShallowClones
end TerraformLs
