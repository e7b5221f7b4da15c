import TerraformLs.ConcreteSyntax

/-! Strings that are one interpolation, and the action that puts the expression in their
place. Where the interpolation ends is found by counting braces. -/
namespace TerraformLs
namespace Interpolations

open Rope TextTrees ConcreteSyntax GitRefs

/-- The span of a string that is one interpolation. -/
def wholeInterpolation : Spanned.Expression → Option Spanned.Span
  | .stringTemplate span elements => if wrapsInterpolation elements then some span else none
  | _ => none

/-- The text behind the first `$` and brace. -/
def afterMarker : Rope → Option Rope
  | [] => none
  | c::s => if ['$','\x7b'].isPrefixOf (c :: s) then some (s.drop 1) else afterMarker s

/-- The text up to the brace that closes the outermost of the open ones. -/
def takeBalanced : ℕ → Rope → Option Rope
  | _, [] => none
  | depth, c::s =>
    if c = '\x7b' then (takeBalanced (depth+1) s).map (c :: ·)
    else if c = '\x7d' then
      if depth = 1 then some [] else (takeBalanced (depth-1) s).map (c :: ·)
    else (takeBalanced depth s).map (c :: ·)

section actions

variable (body : Spanned.Body) (rope : Rope)

def deprecatedInterpolationDiagnostics : List TaggedDiagnostic :=
  (Spanned.expressions body).filterMap fun expr => (wholeInterpolation expr).map fun span =>
    { range := rangeOrDefault rope span
      severity := some .warning
      source := some "terraform-ls-rs"
      message := "interpolation-only expressions are deprecated; use the expression directly"
      tags := some [.deprecated] }

/-- The expression in the text of a string. -/
def unwrapText (slice : Rope) : Option Rope := do
  let inner ← takeBalanced 1 (← afterMarker (trim slice))
  if trim inner = [] then none else some (trim inner)

def computeUnwrapInterpolationEdit (range : Range) : Option TextEdit := do
  let start ← (lspPositionToByteOffset rope range.start).toOption
  let stop ← (lspPositionToByteOffset rope range.end).toOption
  if stop ≤ start then none
  else do
    let inner ← unwrapText (byteSlice rope start stop)
    return ⟨range,String.ofList inner⟩

def scanUnwrapInterpolations : List TextEdit :=
  (deprecatedInterpolationDiagnostics body rope).filterMap fun diag =>
    computeUnwrapInterpolationEdit rope diag.range

end actions

/-! ## The text of the expression -/

section texts

def Blank (s : Rope) : Prop := ∀ c ∈ s, isWhitespace c = true

/-- The depth of braces behind a text, unless it closes more than are open. -/
def depthAfter : ℕ → Rope → Option ℕ
  | depth, [] => some depth
  | depth, c::s =>
    if c = '\x7b' then depthAfter (depth+1) s
    else if c = '\x7d' then if depth = 0 then none else depthAfter (depth-1) s
    else depthAfter depth s

/-- The braces of a text are in pairs, whatever they stand for. -/
def Balanced (s : Rope) : Prop := depthAfter 0 s = some 0

variable {s x y l r e : Rope} {depth depth' : ℕ}

theorem depthAfter_append : depthAfter depth (x ++ y) = (depthAfter depth x).bind (depthAfter · y) := by
  induction x generalizing depth with
  | nil => rfl
  | cons c x ih =>
    rw [List.cons_append,depthAfter,depthAfter]
    split_ifs
    · exact ih
    · rfl
    · exact ih
    · exact ih

theorem depthAfter_plain (h : ∀ c ∈ s, c ≠ '\x7b' ∧ c ≠ '\x7d') : depthAfter depth s = some depth := by
  induction s with
  | nil => rfl
  | cons c s ih =>
    obtain ⟨hc,hs⟩ := List.forall_mem_cons.mp h
    rw [depthAfter,if_neg hc.1,if_neg hc.2,ih hs]

theorem Blank.plain (h : Blank s) : ∀ c ∈ s, c ≠ '\x7b' ∧ c ≠ '\x7d' := by
  intro c hc
  have hblank := h c hc
  constructor <;> rintro rfl <;> exact absurd hblank (by decide)

/-- What is taken ends before the first brace too many. -/
theorem takeBalanced_eq_some : takeBalanced (depth+1) s = some x ↔
    ∃ rest, s = x ++ '\x7d' :: rest ∧ depthAfter depth x = some 0 := by
  induction s generalizing depth x with
  | nil => simp [takeBalanced]
  | cons c s ih =>
    have hclose : ('\x7d' : Char) ≠ '\x7b' := by decide
    rw [takeBalanced]
    cases x with
    | nil =>
      by_cases hc : c = '\x7d'
      · subst hc
        rw [if_neg hclose,if_pos rfl]
        simp [depthAfter]
      · rw [if_neg hc]
        split_ifs <;> simp [hc]
    | cons d x =>
      by_cases hopen : c = '\x7b'
      · subst hopen
        rw [if_pos rfl]
        by_cases hd : d = '\x7b'
        · subst hd
          simp [depthAfter,ih]
        · simp [Ne.symm hd]
      rw [if_neg hopen]
      by_cases hc : c = '\x7d'
      · subst hc
        rw [if_pos rfl]
        cases depth with
        | zero => 
          rw [if_pos rfl]
          by_cases hd : d = '\x7d'
          · subst hd
            simp [depthAfter]
          · simp [Ne.symm hd]
        | succ depth =>
          by_cases hd : d = '\x7d'
          · subst hd
            simp [depthAfter,ih]
          · simp [Ne.symm hd]
      · rw [if_neg hc]
        by_cases hd : d = c
        · subst hd
          simp [depthAfter,ih,hopen,hc]
        · simp [Ne.symm hd]

theorem dropWhile_blank (h : Blank x) : (x ++ y).dropWhile isWhitespace = y.dropWhile isWhitespace := by
  induction x with
  | nil => rfl
  | cons c x ih =>
    obtain ⟨hc,hx⟩ := List.forall_mem_cons.mp h
    rw [List.cons_append,List.dropWhile_cons_of_pos hc,ih hx]

theorem rdropWhile_blank (h : Blank y) :
    (x ++ y).rdropWhile isWhitespace = x.rdropWhile isWhitespace := by
  have hrev : Blank y.reverse := fun c hc => h c (List.mem_reverse.mp hc)
  rw [List.rdropWhile,List.reverse_append,dropWhile_blank hrev,List.rdropWhile]

theorem trim_split (s : Rope) : ∃ w w', s = w ++ trim s ++ w' ∧ Blank w ∧ Blank w' := by
  refine ⟨s.takeWhile isWhitespace,(s.dropWhile isWhitespace).rtakeWhile isWhitespace,?_,
    fun c hc => List.mem_takeWhile_imp hc,fun c hc => List.mem_rtakeWhile_imp hc⟩
  rw [trim,List.append_assoc,List.rdropWhile_append_rtakeWhile,List.takeWhile_append_dropWhile]

/-- A text that is bare begins with no blank, and loses nothing at its end. -/
theorem bare_ends {c : Char} (h : Bare (c :: s)) : isWhitespace c = false ∧
    (c :: s).rdropWhile isWhitespace = c :: s := by
  have hc : isWhitespace c = false := by
    by_contra hblank
    rw [Bool.not_eq_false] at hblank
    rw [Bare,trim,List.dropWhile_cons_of_pos hblank] at h
    have hlen := congrArg List.length h
    have hdrop := (List.dropWhile_sublist isWhitespace (l:=s)).length_le
    have hrdrop := (List.rdropWhile_prefix isWhitespace (l:=s.dropWhile isWhitespace)).length_le
    rw [List.length_cons] at hlen
    omega
  refine ⟨hc,?_⟩
  rwa [Bare,trim,List.dropWhile_cons_of_neg (by simp [hc])] at h

theorem trim_of_blank (hl : Blank l) (hr : Blank r) (hbare : Bare e) (he : e ≠ []) :
    trim (l ++ e ++ r) = e := by
  obtain ⟨c,s,rfl⟩ := List.exists_cons_of_ne_nil he
  obtain ⟨hc,hend⟩ := bare_ends hbare
  rw [trim,List.append_assoc,dropWhile_blank hl,List.cons_append,
    List.dropWhile_cons_of_neg (by simp [hc]),← List.cons_append,rdropWhile_blank hr,hend]

theorem mark_not_blank {c : Char} (h : isMark c = true) : isWhitespace c = false := by
  have hor : (c = '~' ∨ c = '/') ∨ c = '#' := by simpa [isMark] using h
  rcases hor with (rfl | rfl) | rfl <;> decide

/-- A layout that is not blank begins with a mark behind its blanks. -/
theorem layout_cases (h : isLayout s = true) :
    Blank s ∨ ∃ w c rest, s = w ++ c :: rest ∧ Blank w ∧ isMark c = true := by
  have hsplit := (List.takeWhile_append_dropWhile (p:=isWhitespace) (l:=s)).symm
  have hblank : Blank (s.takeWhile isWhitespace) := fun c hc => List.mem_takeWhile_imp hc
  rw [isLayout] at h
  cases hdrop : s.dropWhile isWhitespace with
  | nil =>
    rw [hdrop,List.append_nil] at hsplit
    rw [hsplit]
    exact .inl hblank
  | cons c rest =>
    rw [hdrop] at hsplit h
    exact .inr ⟨_,c,rest,hsplit,hblank,by simpa using h⟩

theorem unwrapText_wrap (s : Rope) : unwrapText (wrapOpen ++ s ++ wrapClose) =
    (takeBalanced 1 (s ++ wrapClose)).bind fun inner =>
      if trim inner = [] then none else some (trim inner) := by
  have hquote : isWhitespace '"' = false := by decide
  have hbare : trim (wrapOpen ++ s ++ wrapClose) = wrapOpen ++ s ++ wrapClose := by
    have hlast : wrapOpen ++ s ++ wrapClose = (wrapOpen ++ s ++ ['\x7d']) ++ ['"'] := by
      simp [wrapClose]
    rw [trim,wrapOpen,List.append_assoc,List.cons_append,
      List.dropWhile_cons_of_neg (by simp [hquote]),← List.cons_append,← List.append_assoc]
    change (wrapOpen ++ s ++ wrapClose).rdropWhile isWhitespace = wrapOpen ++ s ++ wrapClose
    rw [hlast,List.rdropWhile_concat_neg _ _ _ (by simp [hquote])]
  have hmarker : afterMarker (wrapOpen ++ s ++ wrapClose) = some (s ++ wrapClose) := by
    simp [wrapOpen,afterMarker]
  rw [unwrapText,hbare,hmarker]
  rfl

/-- The text that is taken is the expression just where nothing but blanks stands around it and
its braces are in pairs. -/
theorem unwrapText_eq_iff (hl : isLayout l = true) (hr : isLayout r = true) (hbare : Bare e)
    (he : ∃ c s, e = c :: s ∧ isMark c = false) :
    unwrapText (wrapOpen ++ (l ++ e ++ r) ++ wrapClose) = some e ↔
      Blank l ∧ Blank r ∧ Balanced e := by
  obtain ⟨c,s,rfl,hmark⟩ := he
  obtain ⟨hc,-⟩ := bare_ends hbare
  rw [unwrapText_wrap,Option.bind_eq_some_iff]
  constructor
  · rintro ⟨x,hx,htrim⟩
    obtain ⟨rest,hsplit,hdepth⟩ := takeBalanced_eq_some.mp hx
    split_ifs at htrim with hnil
    obtain ⟨w,w',hparts,hw,hw'⟩ := trim_split x
    rw [Option.some.inj htrim] at hparts
    subst hparts
    have hkept : ∀ z, (c :: s ++ z).dropWhile isWhitespace = c :: s ++ z := fun z =>
      List.dropWhile_cons_of_neg (by simp [hc])
    -- what stands before the expression is dropped on both sides
    have hdrop := congrArg (List.dropWhile isWhitespace) hsplit
    simp only [List.append_assoc] at hdrop
    rw [dropWhile_blank hw,hkept] at hdrop
    have hlblank : Blank l := by
      refine (layout_cases hl).resolve_right ?_
      rintro ⟨v,m,l',rfl,hv,hm⟩
      have hmarked : isWhitespace m = false := mark_not_blank hm
      rw [List.append_assoc,dropWhile_blank hv,List.cons_append,
        List.dropWhile_cons_of_neg (by simp [hmarked]),List.cons_append] at hdrop
      rw [(List.cons.inj hdrop).1,hmark] at hm
      cases hm
    rw [dropWhile_blank hlblank,hkept] at hdrop
    -- and so is what stands behind it
    have htail : r ++ wrapClose = w' ++ '\x7d' :: rest := List.append_cancel_left hdrop
    have hclose : ∀ z, ('\x7d' :: z).dropWhile isWhitespace = '\x7d' :: z := fun z =>
      List.dropWhile_cons_of_neg (by decide)
    have hrdrop := congrArg (List.dropWhile isWhitespace) htail
    rw [dropWhile_blank hw',hclose] at hrdrop
    have hrblank : Blank r := by
      refine (layout_cases hr).resolve_right ?_
      rintro ⟨v,m,r',rfl,hv,hm⟩
      have hmarked : isWhitespace m = false := mark_not_blank hm
      rw [List.append_assoc,dropWhile_blank hv,List.cons_append,
        List.dropWhile_cons_of_neg (by simp [hmarked])] at hrdrop
      rw [(List.cons.inj hrdrop).1] at hm
      exact absurd hm (by decide)
    refine ⟨hlblank,hrblank,?_⟩
    rw [depthAfter_append,depthAfter_append,depthAfter_plain hw.plain,Option.bind_some] at hdepth
    obtain ⟨n,hn,hzero⟩ := Option.bind_eq_some_iff.mp hdepth
    rw [depthAfter_plain hw'.plain] at hzero
    rw [Balanced,hn,hzero]
  · rintro ⟨hl,hr,hbalanced⟩
    refine ⟨l ++ (c :: s) ++ r,takeBalanced_eq_some.mpr ⟨['"'],by simp [wrapClose],?_⟩,?_⟩
    · rw [depthAfter_append,depthAfter_append,depthAfter_plain hl.plain,Option.bind_some,
        hbalanced,Option.bind_some,depthAfter_plain hr.plain]
    · rw [trim_of_blank hl hr hbare (List.cons_ne_nil c s)]
      simp

end texts

/-! ## What the action is for -/

def isWrapped (t : Source) : Bool := t.kind = .stringTemplate true

/-- The expression that a string wraps. -/
def unwrap (t : Source) : Source :=
  match t.parts.children with
  | [e] => e
  | _ => t

/-- Only blanks stand around the expression, and its braces are in pairs, those in strings and
comments too. -/
def PlainWrap (t : Source) : Prop :=
  ∃ l e r, t.parts = .text (wrapOpen ++ l) (.child e (.text (r ++ wrapClose) .nil)) ∧
    Blank l ∧ Blank r ∧ Balanced e.render

section parentheses

variable {τ : Type}

mutual

/-- A tree up to parentheses. -/
def dropParentheses : Tree Kind τ → Tree Kind τ
  | .node kind parts =>
    match kind,(dropParenthesesIn parts).children with
    | .parenthesis, [e] => e
    | kind, _ => .node kind (dropParenthesesIn parts)

def dropParenthesesIn : Parts Kind τ → Parts Kind τ
  | .nil => .nil
  | .text s rest => .text s (dropParenthesesIn rest)
  | .child t rest => .child (dropParentheses t) (dropParenthesesIn rest)

end

end parentheses

section language

variable (H : HclEdit)

/-- The edits are apart, each puts the source of the expression in the place of its string, and
they lead to the document in which each such string is its expression. -/
def Preserved (t : Source) : Prop :=
  ∃ d placed, H.parse t.render = some d ∧
    placed.map Prod.fst = scanUnwrapInterpolations (H.body d) t.render ∧
    (∀ e ∈ placed, Formatting.Denotes t.render e.1 e.2) ∧
    (placed.map atPlace).Pairwise Apart ∧
    (∀ p ∈ t.found isWrapped lenBytes 0, ∃ edit,
      computeUnwrapInterpolationEdit t.render (rangeOrDefault t.render (spanAt p)) = some edit ∧
        edit.newText.toList = (unwrap p.2).render) ∧
    ∃ new d', Formatting.applyEdits t.render placed = .ok new ∧ H.parse new = some d' ∧
      dropParentheses (H.syntaxTree d') =
        dropParentheses ((t.rewrite isWrapped unwrap).map H.tokens)

/-- The text of a tree is read as the tree, up to parentheses. -/
def ReadsAlike (t : Source) : Prop :=
  ∃ d, H.parse t.render = some d ∧
    dropParentheses (H.syntaxTree d) = dropParentheses (t.map H.tokens)

end language

section edits

variable {H : HclEdit} {t : Source} {d : H.Document}

def wrapSpan : Spanned.Span × Shape → Option Spanned.Span
  | (span,.stringTemplate true) => some span
  | _ => none

theorem wholeInterpolation_eq (e : Spanned.Expression) :
    wholeInterpolation e = (shapeOf e).bind wrapSpan := by
  cases e with
  | stringTemplate span elements =>
    rw [wholeInterpolation,shapeOf]
    cases wrapsInterpolation elements <;> rfl
  | _ => rfl

theorem wrapSpan_at (p : ℕ × Source) :
    (shapeAt p).bind wrapSpan = if isWrapped p.2 then some (spanAt p) else none := by
  rw [shapeAt,isWrapped]
  cases p.2.kind with
  | stringTemplate wraps => cases wraps <;> simp [wrapSpan]
  | _ => simp [wrapSpan]

/-- The strings of the body are those of the tree. -/
theorem wholeInterpolations_eq (hg : H.Grammatical t) (hd : H.parse t.render = some d) :
    (Spanned.expressions (H.body d)).filterMap wholeInterpolation =
      (t.found isWrapped lenBytes 0).map spanAt := by
  obtain ⟨d',hd',-,hshapes⟩ := H.parse_render hg
  obtain rfl := Option.some.inj (hd.symm.trans hd')
  have hspans := congrArg (List.filterMap wrapSpan) hshapes
  rw [List.filterMap_filterMap,List.filterMap_filterMap] at hspans
  rw [Tree.found_eq_filter,← List.filterMap_eq_map,List.filterMap_filter]
  simp only [wholeInterpolation_eq]
  rw [hspans]
  exact List.filterMap_congr fun p _ => wrapSpan_at p

/-- The text of a string that wraps an expression, and what is read of it. -/
theorem wrap_parts (hg : H.Grammatical t) {node : Source} (hmem : node ∈ nodes t)
    (hwrapped : isWrapped node = true) : ∃ l e r,
      node.parts = .text (wrapOpen ++ l) (.child e (.text (r ++ wrapClose) .nil)) ∧
      node.render = wrapOpen ++ (l ++ e.render ++ r) ++ wrapClose ∧ unwrap node = e ∧
      (unwrapText node.render = some e.render ↔ PlainWrap node) := by
  obtain ⟨l,e,r,hparts,hl,hr,hhead⟩ :=
    wrapForm_parts (H.wrapForm hg node hmem (of_decide_eq_true hwrapped))
  have hbare := H.bare hg node hmem e (by simp [hparts,Parts.children])
  have hrender : node.render = wrapOpen ++ (l ++ e.render ++ r) ++ wrapClose := by
    cases node with
    | node kind parts =>
      rw [Tree.parts] at hparts
      simp [Tree.render,hparts,Parts.render]
  refine ⟨l,e,r,hparts,hrender,by simp [unwrap,hparts,Parts.children],?_⟩
  rw [hrender,unwrapText_eq_iff hl hr hbare hhead,PlainWrap,hparts]
  constructor
  · exact fun h => ⟨l,e,r,rfl,h⟩
  · rintro ⟨l',e',r',heq,h⟩
    simp only [Parts.text.injEq,Parts.child.injEq,List.append_cancel_left_eq,
      List.append_cancel_right_eq] at heq
    obtain ⟨rfl,rfl,rfl,-⟩ := heq
    exact h

/-- The span of a string comes back from its range, and the edit is that of its text. -/
theorem computeUnwrap_eq (hg : H.Grammatical t) {p : ℕ × Source}
    (hp : p ∈ t.found isWrapped lenBytes 0) :
    computeUnwrapInterpolationEdit t.render (rangeOrDefault t.render (spanAt p)) =
        (unwrapText p.2.render).map
          (fun inner => ⟨rangeOrDefault t.render (spanAt p),String.ofList inner⟩) ∧
      lspPositionToByteOffset t.render (rangeOrDefault t.render (spanAt p)).start =
        .ok (spanAt p).1 ∧
      lspPositionToByteOffset t.render (rangeOrDefault t.render (spanAt p)).end =
        .ok (spanAt p).2 := by
  obtain ⟨a,b,hsplit,hspan⟩ := found_span hp
  obtain ⟨l,e,r,-,hrender,-,-⟩ := wrap_parts hg (mem_nodes hp) (Tree.pick_of_found hp)
  have hhead : ∃ s, p.2.render = '"' :: s := ⟨_,by rw [hrender]; rfl⟩
  have hlast : p.2.render.getLast? = some '"' := by rw [hrender]; simp [wrapClose]
  obtain ⟨s,hs⟩ := hhead
  obtain ⟨range,hrange,hstart,hstop⟩ := range_back a p.2.render b
    (by
      rw [List.append_assoc,insideCrlf_iff,hs]
      rintro ⟨-,hline⟩
      cases hline)
    (by
      rw [insideCrlf_iff,List.getLast?_append,hlast]
      rintro ⟨hline,-⟩
      cases hline)
  rw [← hsplit,← hspan] at hrange
  rw [← hsplit] at hstart hstop
  rw [rangeOrDefault_eq hrange,hspan]
  refine ⟨?_,hstart,hstop⟩
  have hlt : ¬lenBytes (a ++ p.2.render) ≤ lenBytes a := by
    have hpos := Char.utf8Size_pos '"'
    rw [lenBytes_append,hs,lenBytes_cons]
    omega
  rw [computeUnwrapInterpolationEdit,hstart,hstop]
  simp only [Except.toOption,Option.bind_eq_bind,Option.bind_some]
  rw [if_neg hlt,hsplit,byteSlice_middle]
  cases unwrapText p.2.render <;> rfl

def wrapEdit (rope : Rope) (p : ℕ × Source) : TextEdit × Spanned.Span :=
  (⟨rangeOrDefault rope (spanAt p),String.ofList (unwrap p.2).render⟩,spanAt p)

/-- The edit puts the source of the expression there just where it is plainly wrapped. -/
theorem exact_iff_plain (hg : H.Grammatical t) {p : ℕ × Source}
    (hp : p ∈ t.found isWrapped lenBytes 0) :
    (∃ edit, computeUnwrapInterpolationEdit t.render (rangeOrDefault t.render (spanAt p)) =
      some edit ∧ edit.newText.toList = (unwrap p.2).render) ↔ PlainWrap p.2 := by
  obtain ⟨l,e,r,-,-,hunwrap,hplain⟩ := wrap_parts hg (mem_nodes hp) (Tree.pick_of_found hp)
  rw [(computeUnwrap_eq hg hp).1,hunwrap,← hplain]
  simp only [Option.map_eq_some_iff]
  constructor
  · rintro ⟨edit,⟨inner,hinner,rfl⟩,htext⟩
    rw [String.toList_ofList] at htext
    rw [hinner,htext]
  · intro h
    exact ⟨_,⟨_,h,rfl⟩,String.toList_ofList⟩

theorem computeUnwrap_of_plain (hg : H.Grammatical t) {p : ℕ × Source}
    (hp : p ∈ t.found isWrapped lenBytes 0) (h : PlainWrap p.2) :
    computeUnwrapInterpolationEdit t.render (rangeOrDefault t.render (spanAt p)) =
      some (wrapEdit t.render p).1 := by
  obtain ⟨l,e,r,-,-,hunwrap,hplain⟩ := wrap_parts hg (mem_nodes hp) (Tree.pick_of_found hp)
  rw [(computeUnwrap_eq hg hp).1,hplain.mpr h,wrapEdit,hunwrap]
  rfl

theorem denotes_wrapEdit (hg : H.Grammatical t) {p : ℕ × Source}
    (hp : p ∈ t.found isWrapped lenBytes 0) :
    Formatting.Denotes t.render (wrapEdit t.render p).1 (wrapEdit t.render p).2 :=
  (computeUnwrap_eq hg hp).2

/-- The edits are those of the strings in their order. -/
theorem scanUnwrapInterpolations_eq (hg : H.Grammatical t) (hd : H.parse t.render = some d)
    (hplain : ∀ p ∈ t.found isWrapped lenBytes 0, PlainWrap p.2) :
    scanUnwrapInterpolations (H.body d) t.render =
      ((t.found isWrapped lenBytes 0).map (wrapEdit t.render)).map Prod.fst := by
  have hspans : scanUnwrapInterpolations (H.body d) t.render =
      ((Spanned.expressions (H.body d)).filterMap wholeInterpolation).filterMap fun span =>
        computeUnwrapInterpolationEdit t.render (rangeOrDefault t.render span) := by
    rw [scanUnwrapInterpolations,deprecatedInterpolationDiagnostics,List.filterMap_filterMap,
      List.filterMap_filterMap]
    refine List.filterMap_congr fun e _ => ?_
    cases wholeInterpolation e <;> rfl
  rw [hspans,wholeInterpolations_eq hg hd,List.filterMap_map,List.map_map,← List.filterMap_eq_map]
  exact List.filterMap_congr fun p hp => computeUnwrap_of_plain hg hp (hplain p hp)

theorem map_atPlace (rope : Rope) (l : List (ℕ × Source)) :
    (l.map (wrapEdit rope)).map atPlace = l.map (editOf unwrap lenBytes) := by
  rw [List.map_map]
  refine List.map_congr_left fun p _ => ?_
  rw [Function.comp_apply,atPlace,wrapEdit,editOf,String.toList_ofList]
  rfl

theorem own_of_wrapped (hg : H.Grammatical t) {node : Source} (h : node ∈ t.picked isWrapped) :
    Own lenBytes node := by
  obtain ⟨p,hp,rfl⟩ := Tree.found_of_picked lenBytes 0 h
  obtain ⟨l,e,r,hparts,-⟩ := wrap_parts hg (mem_nodes hp) (Tree.pick_of_found hp)
  exact ⟨_,_,hparts,by rw [lenBytes_append]; have : lenBytes wrapOpen = 3 := rfl; omega⟩

theorem apart_iff_flat (hg : H.Grammatical t) :
    (((t.found isWrapped lenBytes 0).map (wrapEdit t.render)).map atPlace).Pairwise Apart ↔
      t.Flat isWrapped := by
  rw [map_atPlace]
  exact Tree.apart_iff lenBytes_append 0 t fun node hnode => own_of_wrapped hg hnode

theorem applyEdits_wrapped (hflat : t.Flat isWrapped) :
    Formatting.applyEdits t.render ((t.found isWrapped lenBytes 0).map (wrapEdit t.render)) =
      .ok (t.rewrite isWrapped unwrap).render := by
  have hspliced := Tree.spliced (f:=unwrap) lenBytes_append 0 hflat
  rw [← map_atPlace t.render] at hspliced
  exact applyEdits_of_spliced (show 0 = lenBytes [] from rfl) hspliced

theorem plain_of_picked (h : ∀ node ∈ t.picked isWrapped, PlainWrap node) :
    ∀ p ∈ t.found isWrapped lenBytes 0, PlainWrap p.2 :=
  fun p hp => h p.2 (Tree.picked_of_found hp)

theorem picked_plain (h : ∀ p ∈ t.found isWrapped lenBytes 0, PlainWrap p.2) :
    ∀ node ∈ t.picked isWrapped, PlainWrap node := by
  intro node hnode
  obtain ⟨p,hp,rfl⟩ := Tree.found_of_picked lenBytes 0 hnode
  exact h p hp

theorem preserved_iff_alike (hg : H.Grammatical t) : Preserved H t ↔ t.Flat isWrapped ∧
    (∀ node ∈ t.picked isWrapped, PlainWrap node) ∧
      ReadsAlike H (t.rewrite isWrapped unwrap) := by
  have hdenotes : ∀ e ∈ (t.found isWrapped lenBytes 0).map (wrapEdit t.render),
      Formatting.Denotes t.render e.1 e.2 := fun e he => by
    obtain ⟨p,hp,rfl⟩ := List.mem_map.mp he
    exact denotes_wrapEdit hg hp
  constructor
  · rintro ⟨d,placed,hd,hscan,hplaces,hapart,hexact,new,d',happlied,hd',htree⟩
    have hplain : ∀ p ∈ t.found isWrapped lenBytes 0, PlainWrap p.2 := fun p hp =>
      (exact_iff_plain hg hp).mp (hexact p hp)
    rw [scanUnwrapInterpolations_eq hg hd hplain] at hscan
    obtain rfl := placed_unique hscan hplaces hdenotes
    have hflat := (apart_iff_flat hg).mp hapart
    rw [applyEdits_wrapped hflat,Outcome.ok.injEq] at happlied
    subst happlied
    exact ⟨hflat,picked_plain hplain,d',hd',htree⟩
  · rintro ⟨hflat,hpicked,d',hd',htree⟩
    obtain ⟨d,hd,-⟩ := H.parse_render hg
    have hplain := plain_of_picked hpicked
    exact ⟨d,_,hd,(scanUnwrapInterpolations_eq hg hd hplain).symm,hdenotes,
      (apart_iff_flat hg).mpr hflat,fun p hp => (exact_iff_plain hg hp).mpr (hplain p hp),
      _,d',applyEdits_wrapped hflat,hd',htree⟩

/-- A text is read alike as another tree just where the two trees are alike. -/
theorem alike_iff {u : Source} (hu : H.Grammatical u) (hrender : u.render = t.render) :
    ReadsAlike H t ↔ dropParentheses (u.map H.tokens) = dropParentheses (t.map H.tokens) := by
  obtain ⟨d,hd,htree,-⟩ := H.parse_render hu
  rw [hrender] at hd
  constructor
  · rintro ⟨d',hd',halike⟩
    obtain rfl := Option.some.inj (hd.symm.trans hd')
    rwa [htree] at halike
  · exact fun halike => ⟨d,hd,htree ▸ halike⟩

end edits

/-! ## Documents with one attribute -/

section samples

def literal (text : String) : Source := .node .literal (.text text.toList .nil)

def binary (lhs : Source) (operator : String) (rhs : Source) : Source :=
  .node .binaryOp (.child lhs (.text operator.toList (.child rhs .nil)))

def wrapped (e : Source) : Source :=
  .node (.stringTemplate true) (.text wrapOpen (.child e (.text wrapClose .nil)))

def plainWrap : Source := assigned (wrapped (word "b"))

/-- The brace of a string closes the interpolation for the action. -/
def bracedWrap : Source := assigned (wrapped (literal "\"\x7d\""))

def nestedWrap : Source := assigned (wrapped (.node (.funcCall [] "f")
  (.text "f(".toList (.child (wrapped (word "b")) (.text ")".toList .nil)))))

/-- A sum as an operand of a product. -/
def tightWrap : Source :=
  assigned (binary (literal "2") " * " (wrapped (binary (word "b") " + " (word "c"))))

/-- The sum that the text of the product with its string unwrapped says. -/
def looseSum : Source :=
  assigned (binary (binary (literal "2") " * " (word "b")) " + " (word "c"))

/-- The documents and those that their edits lead to, as the parser reads them. -/
def samples : List (Source × Spanned.Body) :=
  [(plainWrap,[.attribute (0,1) "a"
      (.stringTemplate (4,10) [.interpolation (.variable (7,8) "b")])]),
    (plainWrap.rewrite isWrapped unwrap,[.attribute (0,1) "a" (.variable (4,5) "b")]),
    (bracedWrap,[.attribute (0,1) "a"
      (.stringTemplate (4,12) [.interpolation (.literal (7,10))])]),
    (nestedWrap,[.attribute (0,1) "a" (.stringTemplate (4,18) [.interpolation
      (.funcCall (7,16) [] "f"
        [.stringTemplate (9,15) [.interpolation (.variable (12,13) "b")]])])]),
    (tightWrap,[.attribute (0,1) "a" (.binaryOp (4,18) (.literal (4,5))
      (.stringTemplate (8,18) [.interpolation
        (.binaryOp (11,16) (.variable (11,12) "b") (.variable (15,16) "c"))]))]),
    (looseSum,[.attribute (0,1) "a" (.binaryOp (4,13)
      (.binaryOp (4,9) (.literal (4,5)) (.variable (8,9) "b")) (.variable (12,13) "c"))])]

theorem samples_readable : Readable samples where
  distinct := by decide
  shapes := by decide
  callForm := by decide
  wrapForm := by decide
  bare := by decide

def sampleCrate : HclEdit := ofDocuments samples samples_readable

end samples

end Interpolations
end TerraformLs
