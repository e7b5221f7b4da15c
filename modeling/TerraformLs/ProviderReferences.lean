import TerraformLs.CacheLookups
import TerraformLs.CursorPanics
import TerraformLs.NestedReferences
import TerraformLs.Occurrences

/-! The references to a function of a provider: a search for its written name in every
document, under the alias that the provider has there. -/
namespace TerraformLs
namespace ProviderReferences

open CacheLookups Occurrences Rope
open Completion (rdropWhile_run)

section aliases

/-- The last segment of a source. -/
def parseSourceProviderName (src : String) : Option String :=
  let last := src.toList.rtakeWhile (· ≠ '/')
  if last = [] then none else some (String.ofList last)

/-- The long form names a source, the short form only a version. -/
def providerOfEntry (localName : String) : Value → String
  | .object _ entries =>
    match (entriesOf "source" entries).findSome? literalString with
    | some s => (parseSourceProviderName s).getD localName
    | none => localName
  | _ => localName

def requiredProviders (body : CacheLookups.Body) : List (String × Value) :=
  ((blocksOf "terraform" body).flatMap (blocksOf "required_providers")).flatMap fun b =>
    b.filterMap CacheLookups.Structure.asAttribute

def requiredProvidersLocalToName (body : CacheLookups.Body) (localName : String) : Option String :=
  ((requiredProviders body).find? fun a => a.1 = localName).map fun a =>
    providerOfEntry localName a.2

/-- The search ends at the first attribute beside the blocks. -/
def probe (providerName : String) (body : CacheLookups.Body) : Option String :=
  ((requiredProviders (body.takeWhile fun s : CacheLookups.Structure => s.asBlock.isSome)).map Prod.fst).find? fun l =>
    requiredProvidersLocalToName body l = some providerName

end aliases

section names

def keyword : Rope := "provider".toList

def separator : Rope := "::".toList

def isWord (c : Char) : Bool := c.isAlphanum || c = '_'

/-- A function without a namespace, or one of a provider. -/
inductive FunctionName
  | bare (fn : String)
  | provider (localName fn : String)
  deriving DecidableEq

def identifierEndingAt (text : Rope) : Option Rope :=
  let name := text.rtakeWhile isWord
  if name = [] then none else some name

/-- The name that a text ends in. -/
def qualifiedNameEndingAt (text : Rope) : Option FunctionName := do
  let fn ← identifierEndingAt text
  let front := text.rdropWhile isWord
  if !separator.isSuffixOf front then return .bare (String.ofList fn)
  let localName ← identifierEndingAt (front.rdrop 2)
  let front := (front.rdrop 2).rdropWhile isWord
  if !(keyword ++ separator).isSuffixOf front then return .bare (String.ofList fn)
  if (front.rdrop 10).getLast?.any isWord then return .bare (String.ofList fn)
  return .provider (String.ofList localName) (String.ofList fn)

/-- What the search looks for. -/
def needle (localName fn : String) : Rope :=
  keyword ++ (separator ++ (localName.toList ++ (separator ++ fn.toList)))

end names

section calls

/-- Letters beyond ASCII count, with all characters that may follow one. -/
def isIdentChar (c : Char) : Bool := isWord c || c = '-' || 128 ≤ c.toNat

structure IsIdent (s : String) : Prop where
  chars : ∀ c ∈ s.toList, isIdentChar c
  head : ∃ c ∈ s.toList.head?, c.isDigit = false ∧ c ≠ '-'

/-- Blanks and comments begin and end with no character of a name. -/
def IsLayout (g : Rope) : Prop :=
  (∀ c ∈ g.head?, isIdentChar c = false ∧ c ≠ ':') ∧
    ∀ c ∈ g.getLast?, isIdentChar c = false ∧ c ≠ ':'

/-- A call `provider::LOCAL::fn(…)` in a text, as a parser finds it: its name may have
layout around the colons, and no identifier runs into it. -/
structure Call (text : Rope) where
  front : Rope
  localName : String
  fn : String
  afterKeyword : Rope
  beforeLocal : Rope
  afterLocal : Rope
  beforeFn : Rope
  back : Rope
  localName_ident : IsIdent localName
  fn_ident : IsIdent fn
  layout : ∀ g ∈ [afterKeyword,beforeLocal,afterLocal,beforeFn], IsLayout g
  text_eq : text = front ++ (keyword ++ (afterKeyword ++ (separator ++ (beforeLocal ++
    (localName.toList ++ (afterLocal ++ (separator ++ (beforeFn ++ (fn.toList ++ back)))))))))
  front_last : ∀ c ∈ front.getLast?, isWord c = false
  front_run : ∀ c ∈ (front.rtakeWhile isIdentChar).head?, c.isDigit ∨ c = '-'
  back_head : ∀ c ∈ back.head?, isIdentChar c = false ∧ c ≠ ':'

variable {text : Rope}

/-- The name up to the alias. -/
def Call.upToLocal (c : Call text) : Rope :=
  keyword ++ c.afterKeyword ++ separator ++ c.beforeLocal ++ c.localName.toList ++ c.afterLocal

def Call.written (c : Call text) : Rope :=
  c.upToLocal ++ separator ++ c.beforeFn ++ c.fn.toList

/-- The name is written without layout. -/
def Call.Compact (c : Call text) : Prop :=
  ∀ g ∈ [c.afterKeyword,c.beforeLocal,c.afterLocal,c.beforeFn], g = []

theorem Call.text_written (c : Call text) : text = c.front ++ (c.written ++ c.back) := by
  rw [written,upToLocal]
  simp only [List.append_assoc]
  exact c.text_eq

theorem Call.Compact.written {c : Call text} (h : c.Compact) :
    c.written = needle c.localName c.fn := by
  have h₁ := h c.afterKeyword (by simp)
  have h₂ := h c.beforeLocal (by simp)
  have h₃ := h c.afterLocal (by simp)
  have h₄ := h c.beforeFn (by simp)
  simp only [Call.written,upToLocal,needle,h₁,h₂,h₃,h₄,List.append_nil,List.append_assoc]

end calls

structure Document where
  uri : Url
  rope : Rope
  body : Option CacheLookups.Body
  calls : List (Call rope)
  keys : ∀ b ∈ body, ∀ a ∈ requiredProviders b, IsIdent a.1

structure Location where
  uri : Url
  range : Range
  deriving DecidableEq

/-- Where a piece of a document stands that has a text before it. -/
def Document.locationAt (d : Document) (before name : Rope) : Option Location :=
  match d.rope.hclSpanToLspRange (lenBytes before,lenBytes (before ++ name)) with
  | .ok range => some ⟨d.uri,range⟩
  | .error _ => none

section search

variable (parentDir : Url → Option Path) (docs : List Document)

def bodyOf (uri : Url) : Option CacheLookups.Body := (docs.find? fun d => d.uri = uri).bind Document.body

/-- The entry of the document itself, else one of its module. -/
def lookupLocalInWorkspace (uri : Url) (localName : String) : Option String :=
  ((bodyOf docs uri).bind fun b => requiredProvidersLocalToName b localName).or <|
    (parentDir uri).bind fun targetDir => docs.findSome? fun other =>
      if other.uri ≠ uri ∧ parentDir other.uri = some targetDir then
        other.body.bind fun b => requiredProvidersLocalToName b localName
      else none

/-- An alias of the provider, of the document itself or else of its module. -/
def lookupProviderLocal (uri : Url) (providerName : String) : Option String :=
  ((bodyOf docs uri).bind (probe providerName)).or <|
    (parentDir uri).bind fun targetDir => docs.findSome? fun other =>
      if parentDir other.uri = some targetDir then other.body.bind (probe providerName) else none

def boundaryOk (c : Option Char) : Bool := c.all fun c => !(isWord c || c = ':')

/-- The places of a name in a document with nothing of a name beside them. -/
def search (other : Document) (name : Rope) : List Location :=
  (places name other.rope).filterMap fun x =>
    if boundaryOk x.1.getLast? && boundaryOk x.2.head? then other.locationAt x.1 name else none

/-- An alias that is not found is taken to be that of the cursor. -/
def localInOther (other : Document) (providerName cursorLocal : String) : String :=
  (lookupProviderLocal parentDir docs other.uri providerName).getD cursorLocal

/-- An alias without an entry names the provider itself. -/
def providerOf (doc : Document) (localName : String) : String :=
  (lookupLocalInWorkspace parentDir docs doc.uri localName).getD localName

def searchAll (doc : Document) (cursorLocal fn : String) : List Location :=
  docs.flatMap fun other =>
    search other (needle
      (localInOther parentDir docs other (providerOf parentDir docs doc cursorLocal) cursorLocal) fn)

def providerFunctionReferencesAt (doc : Document) (pos : Position) : Option (List Location) :=
  match doc.rope.lspPositionToByteOffset pos with
  | .error _ => none
  | .ok offset =>
    let n := doc.rope.byteToChar offset
    match qualifiedNameEndingAt (doc.rope.take n ++ (doc.rope.drop n).takeWhile isWord) with
    | some (.provider cursorLocal fn) => some (searchAll parentDir docs doc cursorLocal fn)
    | _ => none

end search
section exact

variable (parentDir : Url → Option Path) (docs : List Document)

def Document.nameAt (d : Document) (c : Call d.rope) : Option Location :=
  d.locationAt c.front c.written

/-- The cursor is on the name of the function, or right behind it. -/
def OnFunctionName (doc : Document) (c : Call doc.rope) (pos : Position) : Prop :=
  ∃ k, doc.rope.lspPositionToByteOffset pos = .ok (lenBytes
    (c.front ++ c.upToLocal ++ separator ++ c.beforeFn ++ c.fn.toList.take k))

/-- Another call of the same function of the same provider. -/
def SameFunction (doc : Document) (c : Call doc.rope) (other : Document) (c' : Call other.rope) : Prop :=
  c'.fn = c.fn ∧
    providerOf parentDir docs other c'.localName = providerOf parentDir docs doc c.localName

/-- The calls of the function, each once. -/
structure ReferencesExact (doc : Document) (c : Call doc.rope) (out : List Location) : Prop where
  nodup : out.Nodup
  mem_iff : ∀ l, l ∈ out ↔ ∃ other ∈ docs, ∃ c' ∈ other.calls,
    SameFunction parentDir docs doc c other c' ∧ other.nameAt c' = some l

/-- The words that the search knows are of ASCII letters, digits and underscores. -/
structure IsWord (s : String) : Prop where
  chars : ∀ c ∈ s.toList, isWord c
  ne_nil : s.toList ≠ []

/-- Under the alias that is searched for, the text of a document tells the calls. -/
structure ReadsAsText (doc : Document) (c : Call doc.rope) (other : Document) (localHere : String) :
    Prop where
  only_calls : ∀ x ∈ places (needle localHere c.fn) other.rope,
    boundaryOk x.1.getLast? → boundaryOk x.2.head? →
      (∃ c' ∈ other.calls, c'.front = x.1 ∧ c'.written = needle localHere c.fn) ∧
        providerOf parentDir docs other localHere = providerOf parentDir docs doc c.localName
  one_spelling : ∀ c' ∈ other.calls, SameFunction parentDir docs doc c other c' →
    c'.localName = localHere ∧ c'.Compact ∧ c'.front.getLast? ≠ some ':'

/-- The name at the cursor is one of words, and every document reads as text. -/
structure Plain (doc : Document) (c : Call doc.rope) : Prop where
  localName : IsWord c.localName
  fn : IsWord c.fn
  reads : ∀ other ∈ docs, ReadsAsText parentDir docs doc c other
    (localInOther parentDir docs other (providerOf parentDir docs doc c.localName) c.localName)

end exact

/-! ### Segments of names -/

section segments

variable {q : Char → Bool} {l m l' m' : Rope}

theorem rtakeWhile_run (hm : ∀ c ∈ m, q c) (hl : ∀ c ∈ l.getLast?, q c = false) :
    (l ++ m).rtakeWhile q = m := by
  have hsplit := List.rdropWhile_append_rtakeWhile (p := q) (l := l ++ m)
  rw [rdropWhile_run hm hl] at hsplit
  exact List.append_cancel_left hsplit

/-- A text ends in one run of characters of a kind. -/
theorem run_unique (hm : ∀ c ∈ m, q c) (hl : ∀ c ∈ l.getLast?, q c = false) (hm' : ∀ c ∈ m', q c)
    (hl' : ∀ c ∈ l'.getLast?, q c = false) (h : l ++ m = l' ++ m') : l = l' ∧ m = m' := by
  have hrun : m = m' := by rw [← rtakeWhile_run hm hl,h,rtakeWhile_run hm' hl']
  subst hrun
  exact ⟨List.append_cancel_right h,rfl⟩

theorem isIdentChar_of_isWord {c : Char} (h : isWord c = true) : isIdentChar c = true := by
  simp [isIdentChar,h]

theorem getLast?_separator : ∀ c ∈ (l ++ separator).getLast?, isIdentChar c = false := by
  intro c hc
  obtain rfl : ':' = c := by simpa [separator] using hc
  decide

theorem IsLayout.nil_of_separator {g : Rope} (hg : IsLayout g) (h : l ++ separator ++ g = l' ++ separator) :
    g = [] := by
  by_contra hne
  have hlast : (l ++ separator ++ g).getLast? = some ':' := by rw [h]; simp [separator]
  rw [List.getLast?_append_of_ne_nil _ hne] at hlast
  exact (hg.2 ':' hlast).2 rfl

/-- The last segment of a name, from the colons to the layout behind it. -/
theorem segment_unique {g s g' s' : Rope} (hg : IsLayout g) (hg' : IsLayout g')
    (hs : ∀ c ∈ s, isIdentChar c) (hs' : ∀ c ∈ s', isIdentChar c) (hne : s' ≠ [])
    (h : l ++ separator ++ g ++ s ++ g' = l' ++ separator ++ s') :
    g = [] ∧ g' = [] ∧ s = s' ∧ l = l' := by
  obtain rfl : g' = [] := by
    by_contra hg'ne
    have hlast := congrArg List.getLast? h
    rw [List.getLast?_append_of_ne_nil _ hg'ne,List.getLast?_append_of_ne_nil _ hne,
      List.getLast?_eq_some_getLast hne] at hlast
    have := (hg'.2 _ hlast).1
    rw [hs' _ (List.getLast_mem hne)] at this
    cases this
  rw [List.append_nil] at h
  have hlast : ∀ c ∈ (l ++ separator ++ g).getLast?, isIdentChar c = false := by
    intro c hc
    by_cases hgne : g = []
    · rw [hgne,List.append_nil] at hc
      exact getLast?_separator c hc
    · rw [List.getLast?_append_of_ne_nil _ hgne] at hc
      exact (hg.2 c hc).1
  obtain ⟨hfront,rfl⟩ := run_unique hs hlast hs' getLast?_separator h
  obtain rfl := hg.nil_of_separator hfront
  rw [List.append_nil] at hfront
  exact ⟨rfl,rfl,rfl,List.append_cancel_right hfront⟩

end segments

theorem needle_eq (localName fn : String) : needle localName fn =
    keyword ++ separator ++ localName.toList ++ separator ++ fn.toList := by
  simp only [needle,List.append_assoc]

theorem needle_ne_nil (localName fn : String) : needle localName fn ≠ [] :=
  List.append_ne_nil_of_left_ne_nil (by decide) _

theorem rdrop_append (l m : Rope) : (l ++ m).rdrop m.length = l := by
  rw [List.rdrop_eq_reverse_drop_reverse,List.reverse_append,← List.length_reverse,List.drop_left,
    List.reverse_reverse]

theorem rdrop_separator (l : Rope) : (l ++ separator).rdrop 2 = l := rdrop_append l separator

theorem rdrop_keyword (l : Rope) : (l ++ (keyword ++ separator)).rdrop 10 = l :=
  rdrop_append l (keyword ++ separator)

theorem identifierEndingAt_eq_some {text name : Rope} (h : identifierEndingAt text = some name) :
    name = text.rtakeWhile isWord ∧ name ≠ [] ∧ (∀ c ∈ name, isWord c) ∧
      text = text.rdropWhile isWord ++ name := by
  rw [identifierEndingAt] at h
  split_ifs at h with hempty
  obtain rfl := Option.some.inj h
  exact ⟨rfl,hempty,fun c hc => List.mem_rtakeWhile_imp hc,List.rdropWhile_append_rtakeWhile.symm⟩

theorem identifierEndingAt_run {l name : Rope} (hname : ∀ c ∈ name, isWord c) (hne : name ≠ [])
    (hl : ∀ c ∈ l.getLast?, isWord c = false) : identifierEndingAt (l ++ name) = some name := by
  rw [identifierEndingAt,rtakeWhile_run hname hl]
  exact if_neg hne

theorem qualifiedNameEndingAt_eq_some {text : Rope} {localName fn : String}
    (h : qualifiedNameEndingAt text = some (.provider localName fn)) :
    IsWord localName ∧ IsWord fn ∧ ∃ front, text = front ++ needle localName fn := by
  unfold qualifiedNameEndingAt at h
  obtain ⟨name,hname,h⟩ := Option.bind_eq_some_iff.mp h
  obtain ⟨-,hnameNe,hnameWord,htext⟩ := identifierEndingAt_eq_some hname
  dsimp only at h
  split at h
  · cases h
  rename_i hsep
  obtain ⟨seg,hseg,h⟩ := Option.bind_eq_some_iff.mp h
  obtain ⟨-,hsegNe,hsegWord,hfront⟩ := identifierEndingAt_eq_some hseg
  split at h
  · cases h
  rename_i hkeyword
  split at h
  · cases h
  obtain ⟨rfl,rfl⟩ := FunctionName.provider.inj (Option.some.inj h)
  simp only [Bool.not_eq_true,Bool.not_eq_false',List.isSuffixOf_iff_suffix] at hsep hkeyword
  obtain ⟨before,hbefore⟩ := hsep
  obtain ⟨front,hfront'⟩ := hkeyword
  refine ⟨⟨by simpa using hsegWord,by simpa using hsegNe⟩,⟨by simpa using hnameWord,by simpa using hnameNe⟩,
    front,?_⟩
  rw [← hbefore,rdrop_separator] at hfront hfront'
  rw [htext,← hbefore,hfront,← hfront',needle_eq]
  simp only [String.toList_ofList,List.append_assoc]

theorem qualifiedNameEndingAt_needle {front : Rope} {localName fn : String} (hlocal : IsWord localName)
    (hfn : IsWord fn) (hfront : ∀ c ∈ front.getLast?, isWord c = false) :
    qualifiedNameEndingAt (front ++ needle localName fn) = some (.provider localName fn) := by
  have hsep : ∀ l : Rope, ∀ c ∈ (l ++ separator).getLast?, isWord c = false := by
    intro l c hc
    obtain rfl : ':' = c := by simpa [separator] using hc
    decide
  have hsplit : front ++ needle localName fn =
      (front ++ (keyword ++ separator) ++ localName.toList ++ separator) ++ fn.toList := by
    simp only [needle,List.append_assoc]
  have hlast : (front.getLast?.any isWord) = false := by
    cases h : front.getLast? with
    | none => rfl
    | some c => exact hfront c h
  rw [hsplit,qualifiedNameEndingAt,identifierEndingAt_run hfn.chars hfn.ne_nil (hsep _),
    rdropWhile_run hfn.chars (hsep _)]
  have hlocalLast : ∀ c ∈ (front ++ (keyword ++ separator)).getLast?, isWord c = false := by
    rw [← List.append_assoc]
    exact hsep _
  simp only [rdrop_separator,List.isSuffixOf_iff_suffix.mpr (List.suffix_append _ separator),
    identifierEndingAt_run hlocal.chars hlocal.ne_nil hlocalLast,rdropWhile_run hlocal.chars hlocalLast,
    List.isSuffixOf_iff_suffix.mpr (List.suffix_append front (keyword ++ separator)),rdrop_keyword,hlast,
    bind,Option.bind,Bool.not_true,Bool.false_eq_true,if_false,pure,String.ofList_toList]

theorem IsIdent.ne_nil {s : String} (h : IsIdent s) : s.toList ≠ [] := by
  obtain ⟨c,hc,-⟩ := h.head
  rintro hnil
  rw [hnil] at hc
  cases hc

section calls

variable {text : Rope} {c : Call text} {l : Rope} {localName fn : String}

/-- A call whose name a text ends in as the search has it. -/
theorem Call.written_inj (hlocal : ∀ x ∈ localName.toList, isIdentChar x) (hlocalNe : localName.toList ≠ [])
    (hfn : ∀ x ∈ fn.toList, isIdentChar x) (hfnNe : fn.toList ≠ []) {front : Rope}
    (h : front ++ c.written = l ++ needle localName fn) :
    c.localName = localName ∧ c.fn = fn ∧ c.Compact := by
  rw [needle_eq,written] at h
  have h' : front ++ c.upToLocal ++ separator ++ c.beforeFn ++ c.fn.toList ++ [] =
      l ++ (keyword ++ separator ++ localName.toList) ++ separator ++ fn.toList := by
    simpa only [List.append_assoc,List.append_nil] using h
  obtain ⟨hbeforeFn,-,hfnEq,hfront⟩ := segment_unique (c.layout _ (by simp))
    ⟨by simp,by simp⟩ c.fn_ident.chars hfn hfnNe h'
  rw [upToLocal] at hfront
  have hfront' : front ++ (keyword ++ c.afterKeyword) ++ separator ++ c.beforeLocal ++
      c.localName.toList ++ c.afterLocal = l ++ keyword ++ separator ++ localName.toList := by
    simpa only [List.append_assoc] using hfront
  obtain ⟨hbeforeLocal,hafterLocal,hlocalEq,hkeyword⟩ := segment_unique (c.layout _ (by simp))
    (c.layout _ (by simp)) c.localName_ident.chars hlocal hlocalNe hfront'
  have hafterKeyword : c.afterKeyword = [] := by
    by_contra hne
    have hlast := congrArg List.getLast? hkeyword
    rw [← List.append_assoc,List.getLast?_append_of_ne_nil _ hne,
      List.getLast?_append_of_ne_nil l (by decide)] at hlast
    have := ((c.layout c.afterKeyword (by simp)).2 'r' (hlast.trans (by decide))).1
    exact absurd this (by decide)
  refine ⟨String.toList_inj.mp hlocalEq,String.toList_inj.mp hfnEq,?_⟩
  simp [Compact,hbeforeFn,hbeforeLocal,hafterLocal,hafterKeyword]

end calls
/-! ### Places in a document -/

section locations

variable {d e : Document} {l : Location} {a n b a' n' b' : Rope}

theorem Document.locationAt_of_split (h : d.rope = a ++ (n ++ b)) :
    ∃ range, d.locationAt a n = some ⟨d.uri,range⟩ := by
  have hstart : ¬ lenBytes d.rope < lenBytes a := by simp [h]
  have hstop : ¬ lenBytes d.rope < lenBytes (a ++ n) := by simp [h]
  simp only [locationAt,hclSpanToLspRange,byteOffsetToLspPosition,if_neg hstart,if_neg hstop,bind,
    Except.bind,pure,Except.pure]
  exact ⟨_,rfl⟩

theorem Document.locationAt_uri (h : d.locationAt a n = some l) : l.uri = d.uri := by
  rw [locationAt] at h
  split at h
  · obtain rfl := Option.some.inj h
    rfl
  · cases h

/-- The positions of two boundaries differ. -/
theorem position_inj {rope : Rope} {i j : ℕ} {p : Position} (hi : onBoundary rope i)
    (hj : onBoundary rope j) (hp : byteOffsetToLspPosition rope i = .ok p)
    (hq : byteOffsetToLspPosition rope j = .ok p) : i = j := by
  by_contra hne
  rcases Nat.lt_or_gt_of_ne hne with hlt | hlt
  · have := SemanticTokens.position_lt hlt hi hj hp hq
    omega
  · have := SemanticTokens.position_lt hlt hj hi hq hp
    omega

/-- What stands at one location is one piece of the text. -/
theorem Document.locationAt_inj (h : d.rope = a ++ (n ++ b)) (h' : d.rope = a' ++ (n' ++ b'))
    (hl : d.locationAt a n = some l) (hl' : d.locationAt a' n' = some l) : a = a' ∧ n = n' := by
  rw [locationAt] at hl hl'
  split at hl
  · rename_i range hrange
    split at hl'
    · rename_i range' hrange'
      obtain rfl := Option.some.inj hl
      obtain ⟨-,rfl⟩ := Location.mk.inj (Option.some.inj hl')
      have hbound : ∀ u v : Rope, d.rope = u ++ v → onBoundary d.rope (lenBytes u) := by
        intro u v huv
        rw [huv]
        exact onBoundary_append u v
      have hstart := position_inj (hbound _ _ h) (hbound _ _ h')
        (CodeActions.hclSpanToLspRange_start hrange) (CodeActions.hclSpanToLspRange_start hrange')
      have hstop := position_inj (hbound (a ++ n) b (by rw [h,List.append_assoc]))
        (hbound (a' ++ n') b' (by rw [h',List.append_assoc]))
        (SemanticTokens.hclSpanToLspRange_end hrange) (SemanticTokens.hclSpanToLspRange_end hrange')
      obtain ⟨rfl,hrest⟩ := append_inj_lenBytes (h.symm.trans h') hstart
      rw [lenBytes_append,lenBytes_append,Nat.add_left_cancel_iff] at hstop
      exact ⟨rfl,(append_inj_lenBytes hrest hstop).1⟩
    · cases hl'
  · cases hl

end locations

section found

variable {other : Document} {name : Rope} {l : Location}

theorem mem_search : l ∈ search other name ↔ ∃ x ∈ places name other.rope,
    boundaryOk x.1.getLast? ∧ boundaryOk x.2.head? ∧ other.locationAt x.1 name = some l := by
  simp only [search,List.mem_filterMap,Bool.and_eq_true]
  refine exists_congr fun x => and_congr_right fun _ => ?_
  split_ifs with h
  · exact ⟨fun hl => ⟨h.1,h.2,hl⟩,fun hl => hl.2.2⟩
  · exact ⟨fun hl => (by cases hl),fun hl => absurd ⟨hl.1,hl.2.1⟩ h⟩

theorem uri_of_mem_search (h : l ∈ search other name) : l.uri = other.uri := by
  obtain ⟨x,-,-,-,hl⟩ := mem_search.mp h
  exact Document.locationAt_uri hl

/-- Two places are not reported alike. -/
theorem nodup_search (other : Document) (name : Rope) : (search other name).Nodup := by
  rw [search,List.Nodup,List.pairwise_filterMap]
  refine (List.Pairwise.and_mem.mp (pairwise_places name other.rope)).imp ?_
  rintro x y ⟨hx,hy,hlt⟩ l hl l' hl' rfl
  split_ifs at hl hl'
  obtain ⟨heq,-⟩ := Document.locationAt_inj (places_spec hx) (places_spec hy) hl hl'
  rw [heq] at hlt
  exact Nat.lt_irrefl _ hlt

end found
section keys

variable {parentDir : Url → Option Path} {docs : List Document}

theorem requiredProviders_takeWhile {body : CacheLookups.Body} {q : CacheLookups.Structure → Bool}
    {a : String × Value} (h : a ∈ requiredProviders (body.takeWhile q)) : a ∈ requiredProviders body := by
  simp only [requiredProviders,blocksOf,List.mem_flatMap,List.mem_filterMap] at h ⊢
  obtain ⟨b,⟨t,⟨blk,⟨s,hs,hblk⟩,ht⟩,hb⟩,hrest⟩ := h
  exact ⟨b,⟨t,⟨blk,⟨s,(List.takeWhile_subset _) hs,hblk⟩,ht⟩,hb⟩,hrest⟩

/-- An alias that is found is a key of an entry. -/
theorem isIdent_of_probe {d : Document} {localName providerName : String}
    (h : (d.body.bind (probe providerName)) = some localName) : IsIdent localName := by
  obtain ⟨body,hbody,hprobe⟩ := Option.bind_eq_some_iff.mp h
  obtain ⟨a,ha,rfl⟩ := List.mem_map.mp (List.mem_of_find?_eq_some hprobe)
  exact d.keys body hbody a (requiredProviders_takeWhile ha)

theorem isIdent_lookupProviderLocal {uri : Url} {localName providerName : String}
    (h : lookupProviderLocal parentDir docs uri providerName = some localName) : IsIdent localName := by
  rw [lookupProviderLocal,Option.or_eq_some_iff] at h
  rcases h with h | ⟨-,h⟩
  · rw [bodyOf,Option.bind_assoc] at h
    obtain ⟨d,-,hd⟩ := Option.bind_eq_some_iff.mp h
    exact isIdent_of_probe hd
  · obtain ⟨dir,-,h⟩ := Option.bind_eq_some_iff.mp h
    obtain ⟨d,-,hd⟩ := List.exists_of_findSome?_eq_some h
    split_ifs at hd
    exact isIdent_of_probe hd

/-- The documents whose entries count for a document: its own, and those beside it. -/
def InModule (parentDir : Url → Option Path) (d : Document) (uri : Url) : Prop :=
  d.uri = uri ∨ ∃ dir, parentDir uri = some dir ∧ parentDir d.uri = some dir

def Document.entryOf (d : Document) (localName : String) : Option String :=
  d.body.bind fun b => requiredProvidersLocalToName b localName

theorem bodyOf_bind {uri : Url} {localName name : String}
    (h : ((bodyOf docs uri).bind fun b => requiredProvidersLocalToName b localName) = some name) :
    ∃ d ∈ docs, d.uri = uri ∧ d.entryOf localName = some name := by
  rw [bodyOf,Option.bind_assoc] at h
  obtain ⟨d,hd,hentry⟩ := Option.bind_eq_some_iff.mp h
  exact ⟨d,List.mem_of_find?_eq_some hd,by simpa using List.find?_some hd,hentry⟩

theorem lookupLocalInWorkspace_some {uri : Url} {localName name : String}
    (h : lookupLocalInWorkspace parentDir docs uri localName = some name) :
    ∃ d ∈ docs, InModule parentDir d uri ∧ d.entryOf localName = some name := by
  rw [lookupLocalInWorkspace,Option.or_eq_some_iff] at h
  rcases h with h | ⟨-,h⟩
  · obtain ⟨d,hd,huri,hentry⟩ := bodyOf_bind h
    exact ⟨d,hd,.inl huri,hentry⟩
  · obtain ⟨dir,hdir,h⟩ := Option.bind_eq_some_iff.mp h
    obtain ⟨d,hd,hentry⟩ := List.exists_of_findSome?_eq_some h
    split_ifs at hentry with hpeer
    exact ⟨d,hd,.inr ⟨dir,hdir,hpeer.2⟩,hentry⟩

theorem lookupLocalInWorkspace_none (hdocs : (docs.map Document.uri).Nodup) {uri : Url}
    {localName : String} (h : lookupLocalInWorkspace parentDir docs uri localName = none) :
    ∀ d ∈ docs, InModule parentDir d uri → d.entryOf localName = none := by
  intro d hd hmodule
  rw [lookupLocalInWorkspace,Option.or_eq_none_iff] at h
  by_cases huri : d.uri = uri
  · have hown := h.1
    rw [bodyOf] at hown
    cases hfind : docs.find? fun e => e.uri = uri with
    | none => exact absurd huri (by simpa using List.find?_eq_none.mp hfind d hd)
    | some e =>
      have he : e.uri = d.uri := (by simpa using List.find?_some hfind : e.uri = uri).trans huri.symm
      obtain rfl := List.inj_on_of_nodup_map hdocs (List.mem_of_find?_eq_some hfind) hd he
      rw [hfind] at hown
      exact hown
  · obtain ⟨dir,hdir,hpeer⟩ := hmodule.resolve_left huri
    have hall := h.2
    rw [hdir,Option.bind_some,List.findSome?_eq_none_iff] at hall
    have := hall d hd
    rwa [if_pos ⟨huri,hpeer⟩] at this

/-- Where the entries of a module agree, an alias names what they say. -/
theorem providerOf_eq (hdocs : (docs.map Document.uri).Nodup) {doc d : Document} {localName name : String}
    (hd : d ∈ docs) (hmodule : InModule parentDir d doc.uri) (hentry : d.entryOf localName = some name)
    (hagree : ∀ e ∈ docs, InModule parentDir e doc.uri → ∀ n ∈ e.entryOf localName, n = name) :
    providerOf parentDir docs doc localName = name := by
  rw [providerOf]
  cases hlookup : lookupLocalInWorkspace parentDir docs doc.uri localName with
  | none =>
    have := lookupLocalInWorkspace_none hdocs hlookup d hd hmodule
    rw [hentry] at this
    cases this
  | some n =>
    obtain ⟨e,he,heModule,heEntry⟩ := lookupLocalInWorkspace_some hlookup
    exact hagree e he heModule n heEntry

/-- Without an entry an alias names itself. -/
theorem providerOf_eq_self {doc : Document} {localName : String}
    (h : ∀ e ∈ docs, InModule parentDir e doc.uri → e.entryOf localName = none) :
    providerOf parentDir docs doc localName = localName := by
  rw [providerOf]
  cases hlookup : lookupLocalInWorkspace parentDir docs doc.uri localName with
  | none => rfl
  | some n =>
    obtain ⟨e,he,heModule,heEntry⟩ := lookupLocalInWorkspace_some hlookup
    rw [h e he heModule] at heEntry
    cases heEntry

end keys

section references

variable {parentDir : Url → Option Path} {docs : List Document}

theorem IsWord.ident {s : String} (h : IsWord s) : ∀ c ∈ s.toList, isIdentChar c :=
  fun c hc => isIdentChar_of_isWord (h.chars c hc)

theorem localInOther_ident {cursorLocal : String} (h : IsWord cursorLocal)
    (parentDir : Url → Option Path) (docs : List Document) (other : Document) (providerName : String) :
    (∀ x ∈ (localInOther parentDir docs other providerName cursorLocal).toList, isIdentChar x) ∧
      (localInOther parentDir docs other providerName cursorLocal).toList ≠ [] := by
  rw [localInOther]
  cases hlookup : lookupProviderLocal parentDir docs other.uri providerName with
  | none => exact ⟨h.ident,h.ne_nil⟩
  | some l =>
    have hl := isIdent_lookupProviderLocal hlookup
    exact ⟨hl.chars,hl.ne_nil⟩

/-- A call that is written as what is searched for, under the alias of its document. -/
theorem eq_of_written {doc : Document} {cursorLocal fn : String} (hlocal : IsWord cursorLocal) (hfn : IsWord fn)
    {other : Document} {c : Call other.rope} (h : c.written = needle (localInOther parentDir docs other
      (providerOf parentDir docs doc cursorLocal) cursorLocal) fn) :
    c.localName = localInOther parentDir docs other (providerOf parentDir docs doc cursorLocal) cursorLocal ∧
      c.fn = fn ∧ c.Compact := by
  obtain ⟨hident,hne⟩ := localInOther_ident hlocal parentDir docs other
    (providerOf parentDir docs doc cursorLocal)
  exact Call.written_inj (l := []) hident hne hfn.ident hfn.ne_nil ((List.nil_append _).trans h)

theorem mem_searchAll {doc : Document} {cursorLocal fn : String} {l : Location} :
    l ∈ searchAll parentDir docs doc cursorLocal fn ↔ ∃ other ∈ docs, l ∈ search other
      (needle (localInOther parentDir docs other (providerOf parentDir docs doc cursorLocal) cursorLocal)
        fn) := by
  rw [searchAll,List.mem_flatMap]

theorem nodup_searchAll (hdocs : (docs.map Document.uri).Nodup) (doc : Document) (cursorLocal fn : String) :
    (searchAll parentDir docs doc cursorLocal fn).Nodup := by
  refine List.nodup_flatMap.mpr ⟨fun other _ => nodup_search other _,?_⟩
  refine (List.pairwise_map.mp hdocs).imp ?_
  intro d e hne l hd he
  exact hne ((uri_of_mem_search hd).symm.trans (uri_of_mem_search he))

theorem take_takeWhile {rope a b : Rope} (q : Char → Bool) (h : rope = a ++ b) :
    rope.take (rope.byteToChar (lenBytes a)) ++ (rope.drop (rope.byteToChar (lenBytes a))).takeWhile q =
      a ++ b.takeWhile q := by
  rw [h,byteToChar_append,List.take_left,List.drop_left]

theorem Call.takeWhile_back {text : Rope} (c : Call text) : c.back.takeWhile isWord = [] := by
  cases hback : c.back with
  | nil => rfl
  | cons x back =>
    have hx := (c.back_head x (by rw [hback]; rfl)).1
    have hword : isWord x = false := by
      rw [← Bool.not_eq_true]
      intro hword
      rw [isIdentChar_of_isWord hword] at hx
      cases hx
    rw [List.takeWhile_cons_of_neg (by rw [hword]; exact Bool.false_ne_true)]

/-- At the cursor the name is read to its end. -/
theorem text_at_cursor {text : Rope} {c : Call text} (hfn : IsWord c.fn) (k : ℕ) :
    let n := text.byteToChar (lenBytes
      (c.front ++ c.upToLocal ++ separator ++ c.beforeFn ++ c.fn.toList.take k))
    text.take n ++ (text.drop n).takeWhile isWord = c.front ++ c.written := by
  have hsplit : text = (c.front ++ c.upToLocal ++ separator ++ c.beforeFn ++ c.fn.toList.take k) ++
      (c.fn.toList.drop k ++ c.back) := by
    conv_lhs => rw [c.text_written,Call.written,← List.take_append_drop k c.fn.toList]
    simp only [List.append_assoc]
  dsimp only
  rw [take_takeWhile isWord hsplit,
    List.takeWhile_append_of_pos fun x hx => hfn.chars x (List.mem_of_mem_drop hx),c.takeWhile_back,
    List.append_nil,Call.written]
  simp only [List.append_assoc,List.take_append_drop]

/-- The search reads a name as far as it has words. -/
theorem references_some {doc : Document} {c : Call doc.rope} {pos : Position} {out : List Location}
    (hpos : OnFunctionName doc c pos) (h : providerFunctionReferencesAt parentDir docs doc pos = some out) :
    ∃ cursorLocal fn, IsWord cursorLocal ∧ IsWord fn ∧
      out = searchAll parentDir docs doc cursorLocal fn ∧
      (IsWord c.fn → ∃ front, c.front ++ c.written = front ++ needle cursorLocal fn) := by
  obtain ⟨k,hk⟩ := hpos
  rw [providerFunctionReferencesAt,hk] at h
  dsimp only at h
  split at h
  · rename_i cursorLocal fn hname
    obtain ⟨hlocal,hfn,front,hfront⟩ := qualifiedNameEndingAt_eq_some hname
    refine ⟨cursorLocal,fn,hlocal,hfn,(Option.some.inj h).symm,fun hword => ⟨front,?_⟩⟩
    rw [← hfront]
    exact (text_at_cursor hword k).symm
  · cases h

theorem references_of_compact {doc : Document} {c : Call doc.rope} {pos : Position}
    (hpos : OnFunctionName doc c pos) (hlocal : IsWord c.localName) (hfn : IsWord c.fn)
    (hcompact : c.Compact) : providerFunctionReferencesAt parentDir docs doc pos =
      some (searchAll parentDir docs doc c.localName c.fn) := by
  obtain ⟨k,hk⟩ := hpos
  rw [providerFunctionReferencesAt,hk]
  dsimp only
  rw [text_at_cursor hfn k,hcompact.written,qualifiedNameEndingAt_needle hlocal hfn c.front_last]

/-- What stands before a call is not the beginning of an identifier. -/
theorem not_run_before {text : Rope} {c : Call text} {l x : Rope} (hx : x ≠ [])
    (hstart : x <+: c.localName.toList) : c.front ≠ l ++ separator ++ x := by
  intro hfront
  obtain ⟨rest,hrest⟩ := hstart
  have hrun : c.front.rtakeWhile isIdentChar = x := by
    rw [hfront]
    exact rtakeWhile_run
      (fun z hz => c.localName_ident.chars z (hrest ▸ List.mem_append_left rest hz)) getLast?_separator
  obtain ⟨z,hz,hdigit,hdash⟩ := c.localName_ident.head
  rw [← hrest,List.head?_append_of_ne_nil _ hx] at hz
  have hhead := c.front_run z (by rw [hrun]; exact hz)
  rw [hdigit] at hhead
  exact hhead.elim Bool.false_ne_true hdash

/-- No beginning of the name stands right before a call that is written without layout. -/
theorem clear_of_call {text : Rope} {c : Call text} (hfn : IsWord c.fn)
    (hcolon : c.front.getLast? ≠ some ':') : Clear (needle c.localName c.fn) c.front := by
  rintro v hv ⟨rest,hrest⟩ - ⟨before,hbefore⟩
  -- its last character is neither of a word nor a colon, and the alias alone has others
  have hlast : ∀ x ≠ [], ∀ w, v = w ++ x → ∃ y ∈ x, isWord y = false ∧ y ≠ ':' := by
    intro x hx w hsplit
    have hmem : c.front.getLast? = some (x.getLast hx) := by
      rw [← hbefore,hsplit,← List.append_assoc,List.getLast?_append_of_ne_nil _ hx,
        List.getLast?_eq_some_getLast hx]
    refine ⟨_,List.getLast_mem hx,c.front_last _ hmem,?_⟩
    intro heq
    exact hcolon (by rw [hmem,heq])
  have hkeyword : ∀ y ∈ keyword ++ separator, isWord y = true ∨ y = ':' := by
    have hall : (keyword ++ separator).all (fun y => isWord y || y = ':') = true := by decide
    intro y hy
    simpa using List.all_eq_true.mp hall y hy
  have htail : ∀ y ∈ separator ++ c.fn.toList, isWord y = true ∨ y = ':' := by
    intro y hy
    rcases List.mem_append.mp hy with hy | hy
    · exact .inr (by simpa [separator] using hy)
    · exact .inl (hfn.chars y hy)
  have habsurd : ∀ x ≠ [], ∀ w, v = w ++ x → ¬∀ y ∈ x, isWord y = true ∨ y = ':' := by
    intro x hx w hsplit hall
    obtain ⟨y,hy,hword,hne⟩ := hlast x hx w hsplit
    rcases hall y hy with h | h
    · rw [hword] at h
      cases h
    · exact hne h
  have hsplit : v ++ rest = (keyword ++ separator) ++ (c.localName.toList ++ (separator ++ c.fn.toList)) := by
    rw [hrest,needle]
    simp only [List.append_assoc]
  rcases List.append_eq_append_iff.mp hsplit with ⟨x,hx,-⟩ | ⟨x,hx,hx'⟩
  · exact habsurd v hv [] rfl fun y hy => hkeyword y (hx ▸ List.mem_append_left x hy)
  rcases List.append_eq_append_iff.mp hx' with ⟨y,hy,hy'⟩ | ⟨y,hy,-⟩
  · by_cases hne : y = []
    · rw [hne,List.append_nil] at hy
      refine not_run_before (c := c) c.localName_ident.ne_nil List.prefix_rfl (l := before ++ keyword) ?_
      rw [← hbefore,hx,hy]
      simp only [List.append_assoc]
    · refine habsurd y hne (keyword ++ separator ++ c.localName.toList) ?_ fun z hz =>
        htail z (hy' ▸ List.mem_append_left rest hz)
      rw [hx,hy]
      simp only [List.append_assoc]
  · by_cases hne : x = []
    · rw [hne,List.append_nil] at hx
      exact habsurd v hv [] rfl fun z hz => hkeyword z (hx ▸ hz)
    · refine not_run_before (c := c) hne ⟨y,hy.symm⟩ (l := before ++ keyword) ?_
      rw [← hbefore,hx]
      simp only [List.append_assoc]

theorem boundaryOk_iff {c : Option Char} :
    boundaryOk c ↔ ∀ x ∈ c, isWord x = false ∧ x ≠ ':' := by
  cases c <;> simp [boundaryOk]

theorem Call.boundaryOk_back {text : Rope} (c : Call text) : boundaryOk c.back.head? := by
  rw [boundaryOk_iff]
  intro x hx
  obtain ⟨hident,hcolon⟩ := c.back_head x hx
  refine ⟨?_,hcolon⟩
  rw [← Bool.not_eq_true]
  intro hword
  rw [isIdentChar_of_isWord hword] at hident
  cases hident

theorem nameAt_some {d : Document} (c : Call d.rope) : ∃ range, d.nameAt c = some ⟨d.uri,range⟩ :=
  Document.locationAt_of_split c.text_written

variable {doc : Document} {c : Call doc.rope}

/-- A reported place that is a call's has its name as written. -/
theorem written_of_mem_searchAll (hdocs : (docs.map Document.uri).Nodup) {other : Document}
    (hother : other ∈ docs) {c' : Call other.rope} {cursorLocal fn : String} {l : Location}
    (hname : other.nameAt c' = some l) (h : l ∈ searchAll parentDir docs doc cursorLocal fn) :
    (∃ x ∈ places (needle (localInOther parentDir docs other
        (providerOf parentDir docs doc cursorLocal) cursorLocal) fn) other.rope,
      boundaryOk x.1.getLast? ∧ boundaryOk x.2.head? ∧ c'.front = x.1) ∧
    c'.written = needle (localInOther parentDir docs other
      (providerOf parentDir docs doc cursorLocal) cursorLocal) fn := by
  obtain ⟨d,hd,hl⟩ := mem_searchAll.mp h
  have huri : d.uri = other.uri := (uri_of_mem_search hl).symm.trans (Document.locationAt_uri hname)
  obtain rfl := List.inj_on_of_nodup_map hdocs hd hother huri
  obtain ⟨x,hx,hleft,hright,hplace⟩ := mem_search.mp hl
  obtain ⟨hfront,hwritten⟩ :=
    Document.locationAt_inj c'.text_written (places_spec hx) hname hplace
  exact ⟨⟨x,hx,hleft,hright,hfront⟩,hwritten⟩

/-- What is reported for words is exact where the documents read as text, and only there. -/
theorem searchAll_exact_iff (hdocs : (docs.map Document.uri).Nodup) (hlocal : IsWord c.localName)
    (hfn : IsWord c.fn) :
    ReferencesExact parentDir docs doc c (searchAll parentDir docs doc c.localName c.fn) ↔
      ∀ other ∈ docs, ReadsAsText parentDir docs doc c other
        (localInOther parentDir docs other (providerOf parentDir docs doc c.localName) c.localName) := by
  constructor
  · intro hexact other hother
    refine ⟨fun x hx hleft hright => ?_,fun c' hc' hsame => ?_⟩
    · obtain ⟨range,hrange⟩ := Document.locationAt_of_split (places_spec hx)
      have hmem := mem_searchAll.mpr ⟨other,hother,mem_search.mpr ⟨x,hx,hleft,hright,hrange⟩⟩
      obtain ⟨d,hd,c',hc',hsame,hname⟩ := (hexact.mem_iff _).mp hmem
      have huri : d.uri = other.uri := (Document.locationAt_uri hname).symm
      obtain rfl := List.inj_on_of_nodup_map hdocs hd hother huri
      obtain ⟨hfront,hwritten⟩ := Document.locationAt_inj c'.text_written (places_spec hx) hname hrange
      obtain ⟨hlocal',-,-⟩ := eq_of_written hlocal hfn hwritten
      exact ⟨⟨c',hc',hfront,hwritten⟩,hlocal' ▸ hsame.2⟩
    · obtain ⟨range,hname⟩ := nameAt_some c'
      have hmem := (hexact.mem_iff _).mpr ⟨other,hother,c',hc',hsame,hname⟩
      obtain ⟨⟨x,-,hleft,-,hfront⟩,hwritten⟩ := written_of_mem_searchAll hdocs hother hname hmem
      obtain ⟨hlocal',-,hcompact⟩ := eq_of_written hlocal hfn hwritten
      refine ⟨hlocal',hcompact,fun hcolon => ?_⟩
      rw [← hfront] at hleft
      exact (boundaryOk_iff.mp hleft ':' hcolon).2 rfl
  · intro hreads
    refine ⟨nodup_searchAll hdocs doc _ _,fun l => ⟨fun hl => ?_,?_⟩⟩
    · obtain ⟨other,hother,hl⟩ := mem_searchAll.mp hl
      obtain ⟨x,hx,hleft,hright,hplace⟩ := mem_search.mp hl
      obtain ⟨⟨c',hc',hfront,hwritten⟩,hprovider⟩ := (hreads other hother).only_calls x hx hleft hright
      obtain ⟨hlocal',hfn',-⟩ := eq_of_written hlocal hfn hwritten
      refine ⟨other,hother,c',hc',⟨hfn',hlocal' ▸ hprovider⟩,?_⟩
      rw [Document.nameAt,hfront,hwritten]
      exact hplace
    · rintro ⟨other,hother,c',hc',hsame,hname⟩
      obtain ⟨hlocal',hcompact,hcolon⟩ := (hreads other hother).one_spelling c' hc' hsame
      have hwritten := hcompact.written
      refine mem_searchAll.mpr ⟨other,hother,mem_search.mpr ⟨(c'.front,c'.back),?_,?_,c'.boundaryOk_back,?_⟩⟩
      · have hclear := clear_of_call (c := c') (hsame.1 ▸ hfn) hcolon
        have hplace := mem_places (t := c'.back) (needle_ne_nil _ _) hclear
        rw [← hwritten,← c'.text_written,hwritten,hsame.1,hlocal'] at hplace
        exact hplace
      · rw [boundaryOk_iff]
        intro x hx
        refine ⟨c'.front_last x hx,?_⟩
        rintro rfl
        exact hcolon hx
      · rw [Document.nameAt,hwritten,hsame.1,hlocal'] at hname
        exact hname

/-- The references of a function are exact exactly if its name is one of words and every
document, under one alias, reads as text. -/
theorem references_exact_iff (parentDir : Url → Option Path) (docs : List Document)
    (hdocs : (docs.map Document.uri).Nodup) (doc : Document) (hdoc : doc ∈ docs) (c : Call doc.rope)
    (hc : c ∈ doc.calls) (pos : Position) (hpos : OnFunctionName doc c pos) :
    (∃ out, providerFunctionReferencesAt parentDir docs doc pos = some out ∧
      ReferencesExact parentDir docs doc c out) ↔ Plain parentDir docs doc c := by
  constructor
  · rintro ⟨out,hout,hexact⟩
    obtain ⟨cursorLocal,fn,hlocal,hfn,rfl,htext⟩ := references_some hpos hout
    -- the call at the cursor is among the calls, so that its name is read to the end
    obtain ⟨range,hname⟩ := nameAt_some c
    have hmem := (hexact.mem_iff _).mpr ⟨doc,hdoc,c,hc,⟨rfl,rfl⟩,hname⟩
    obtain ⟨-,hwritten⟩ := written_of_mem_searchAll hdocs hdoc hname hmem
    obtain ⟨-,rfl,-⟩ := eq_of_written hlocal hfn hwritten
    obtain ⟨front,hfront⟩ := htext hfn
    obtain ⟨rfl,-,-⟩ := Call.written_inj hlocal.ident hlocal.ne_nil hfn.ident hfn.ne_nil hfront
    exact ⟨hlocal,hfn,(searchAll_exact_iff hdocs hlocal hfn).mp hexact⟩
  · rintro ⟨hlocal,hfn,hreads⟩
    obtain ⟨-,hcompact,-⟩ := (hreads doc hdoc).one_spelling c hc ⟨rfl,rfl⟩
    exact ⟨_,references_of_compact hpos hlocal hfn hcompact,
      (searchAll_exact_iff hdocs hlocal hfn).mpr hreads⟩

end references

section samples

theorem isIdent_of_all {s : String} (hchars : s.toList.all isIdentChar = true)
    (hhead : s.toList.head?.any (fun c => !c.isDigit && c != '-') = true) : IsIdent s := by
  refine ⟨List.all_eq_true.mp hchars,?_⟩
  obtain ⟨c,hc,h⟩ := Option.any_eq_true _ _ |>.mp hhead
  exact ⟨c,hc,by simpa using h⟩

/-- A call right behind a blank. -/
def sampleCall (l : String) (hl : IsIdent l) (front : Rope) (hfront : front.getLast? = some ' ') :
    Call (front ++ (needle l "f" ++ "(1)\n".toList)) where
  front := front
  localName := l
  fn := "f"
  afterKeyword := []
  beforeLocal := []
  afterLocal := []
  beforeFn := []
  back := "(1)\n".toList
  localName_ident := hl
  fn_ident := isIdent_of_all (by decide) (by decide)
  layout := by simp [IsLayout]
  text_eq := by simp only [needle,List.append_assoc,List.nil_append]
  front_last := by simp [hfront,isWord]
  front_run := by
    have hrun : front.rtakeWhile isIdentChar = [] := by
      rw [List.rtakeWhile_eq_nil_iff]
      intro hne
      rw [List.getLast_of_getLast?_eq_some hfront]
      decide
    simp [hrun]
  back_head := by simp [isIdentChar,isWord]

/-- The alias names a provider `p`. -/
def sampleDocument (uri : Url) (l : String) (hl : IsIdent l) (front : Rope)
    (hfront : front.getLast? = some ' ') : Document where
  uri := uri
  rope := front ++ (needle l "f" ++ "(1)\n".toList)
  body := some [.block "terraform" [.block "required_providers"
    [.attribute l (.object none [(.ident "source",.string none "h/p")])]]]
  calls := [sampleCall l hl front hfront]
  keys := by
    rintro b hb a ha
    obtain rfl := Option.some.inj hb
    simp [requiredProviders,blocksOf,CacheLookups.Structure.asBlock,CacheLookups.Structure.asAttribute] at ha
    rw [ha]
    exact hl

def mainDocument : Document :=
  sampleDocument "/m/main.tf" "a" (isIdent_of_all (by decide) (by decide)) "x = ".toList (by decide)

def peerDocument : Document :=
  sampleDocument "/n/main.tf" "b" (isIdent_of_all (by decide) (by decide)) "y = ".toList (by decide)

theorem ReadsAsText.of_sample {parentDir : Url → Option Path} {docs : List Document} {doc : Document}
    {c : Call doc.rope} {uri : Url} {l localHere : String} {hl : IsIdent l} {front : Rope}
    {hfront : front.getLast? = some ' '} (hlocal : localHere = l) (hfn : c.fn = "f")
    (hplaces : places (needle l "f") (sampleDocument uri l hl front hfront).rope =
      [(front,"(1)\n".toList)])
    (hprovider : providerOf parentDir docs (sampleDocument uri l hl front hfront) l =
      providerOf parentDir docs doc c.localName) :
    ReadsAsText parentDir docs doc c (sampleDocument uri l hl front hfront) localHere := by
  subst hlocal
  refine ⟨fun x hx _ _ => ⟨⟨_,List.mem_singleton_self _,?_,?_⟩,hprovider⟩,fun c' hc' _ => ?_⟩
  · rw [hfn,hplaces,List.mem_singleton] at hx
    rw [hx]
    rfl
  · rw [hfn]
    simp [Call.written,Call.upToLocal,sampleCall,needle]
  · obtain rfl := List.mem_singleton.mp hc'
    refine ⟨rfl,by simp [Call.Compact,sampleCall],?_⟩
    rw [show (sampleCall localHere hl front hfront).front = front from rfl,hfront]
    decide

theorem exact_across_aliases : ∃ out,
    providerFunctionReferencesAt (fun uri => some [uri]) [mainDocument,peerDocument] mainDocument ⟨0,17⟩ =
      some out ∧ ReferencesExact (fun uri => some [uri]) [mainDocument,peerDocument] mainDocument
        (sampleCall "a" (isIdent_of_all (by decide) (by decide)) "x = ".toList (by decide)) out := by
  refine (references_exact_iff _ _ (by decide) mainDocument List.mem_cons_self _
    (List.mem_singleton_self _) ⟨0,17⟩ ⟨0,by decide⟩).mpr ⟨?_,?_,?_⟩
  · exact ⟨List.all_eq_true.mp (by decide),by decide⟩
  · exact ⟨List.all_eq_true.mp (by decide),by decide⟩
  · intro other hother
    rcases List.mem_pair.mp hother with rfl | rfl
    · exact ReadsAsText.of_sample (by decide) rfl (by decide) rfl
    · exact ReadsAsText.of_sample (by decide) rfl (by decide) (by decide)

def commentedDocument : Document :=
  sampleDocument "/m/main.tf" "a" (isIdent_of_all (by decide) (by decide))
    "# provider::a::f\nx = ".toList (by decide)

/-- The text of a comment is reported beside the call. -/
theorem comment_reported : OnFunctionName commentedDocument
    (sampleCall "a" (isIdent_of_all (by decide) (by decide)) "# provider::a::f\nx = ".toList (by decide))
      ⟨1,17⟩ ∧
    ¬∃ out, providerFunctionReferencesAt (fun uri => some [uri]) [commentedDocument] commentedDocument
      ⟨1,17⟩ = some out ∧ ReferencesExact (fun uri => some [uri]) [commentedDocument] commentedDocument
        (sampleCall "a" (isIdent_of_all (by decide) (by decide)) "# provider::a::f\nx = ".toList
          (by decide)) out := by
  refine ⟨⟨0,by decide⟩,?_⟩
  rintro ⟨out,hout,hexact⟩
  have hreported : providerFunctionReferencesAt (fun uri => some [uri]) [commentedDocument]
      commentedDocument ⟨1,17⟩ = some [⟨"/m/main.tf",⟨⟨0,2⟩,⟨0,16⟩⟩⟩,⟨"/m/main.tf",⟨⟨1,4⟩,⟨1,18⟩⟩⟩] := by
    decide
  obtain rfl := Option.some.inj (hout.symm.trans hreported)
  obtain ⟨other,hother,c,hc,-,hname⟩ := (hexact.mem_iff ⟨"/m/main.tf",⟨⟨0,2⟩,⟨0,16⟩⟩⟩).mp (by simp)
  obtain rfl := List.mem_singleton.mp hother
  obtain rfl := List.mem_singleton.mp hc
  have hplace : commentedDocument.nameAt (sampleCall "a" (isIdent_of_all (by decide) (by decide))
      "# provider::a::f\nx = ".toList (by decide)) = some ⟨"/m/main.tf",⟨⟨1,4⟩,⟨1,18⟩⟩⟩ := by
    decide
  rw [hplace] at hname
  cases hname

end samples


end ProviderReferences
end TerraformLs
