import TerraformLs.ConcreteSyntax

/-! Calls of `lookup` without a default, and their rewrite to an index. Each call is
rewritten by the text of its arguments. -/
namespace TerraformLs
namespace LookupRewrites

open Rope TextTrees ConcreteSyntax

/-- A call of `lookup` with two arguments. -/
def lookupCall : Spanned.Expression →
    Option (Spanned.Span × Spanned.Expression × Spanned.Expression)
  | .funcCall span ns name args =>
    if ns ≠ [] then none
    else if name ≠ "lookup" then none
    else match args with
      | [arg1,arg2] => some (span,arg1,arg2)
      | _ => none
  | _ => none

section actions

variable (body : Spanned.Body) (rope : Rope)

def deprecatedLookupDiagnostics : List TaggedDiagnostic :=
  (Spanned.expressions body).filterMap fun expr => (lookupCall expr).map fun call =>
    { range := rangeOrDefault rope call.1
      severity := some .warning
      source := some "terraform-ls-rs"
      message := "two-argument `lookup()` is deprecated; pass a default as the third argument"
      tags := some [.deprecated] }

/-- The texts of the arguments of the call with a span. -/
def lookupArgsAt (start stop : ℕ) : Option (Rope × Rope) :=
  (Spanned.expressions body).findSome? fun expr => do
    let (span,arg1,arg2) ← lookupCall expr
    if span = (start,stop) then
      some (byteSlice rope arg1.span.1 arg1.span.2,byteSlice rope arg2.span.1 arg2.span.2)
    else none

def computeLookupToIndexEdit (range : Range) : Option TextEdit := do
  let start ← (lspPositionToByteOffset rope range.start).toOption
  let stop ← (lspPositionToByteOffset rope range.end).toOption
  let (arg1,arg2) ← lookupArgsAt body rope start stop
  return ⟨range,String.ofList (GitRefs.trim arg1 ++ '[' :: GitRefs.trim arg2 ++ [']'])⟩

def scanLookupToIndex : List TextEdit :=
  (deprecatedLookupDiagnostics body rope).filterMap fun diag =>
    computeLookupToIndexEdit body rope diag.range

end actions

/-! ## What the rewrite is for -/

def isLookup (t : Source) : Bool :=
  t.kind = .funcCall [] "lookup" && t.parts.children.length = 2

/-- The operator of an index. -/
def indexParts (k : Source) : Parts Kind Rope := .text ['['] (.child k (.text [']'] .nil))

/-- The index of the whole of an expression. -/
def indexOf (m k : Source) : Source := .node .index (.child m (indexParts k))

/-- The index that a call of `lookup` stands for. -/
def indexCall (t : Source) : Source :=
  match t.parts.children with
  | [m,k] => indexOf m k
  | _ => t

/-- Operators that bind looser than an index. -/
def isLoose : Kind → Bool
  | .conditional | .unaryOp | .binaryOp => true
  | _ => false

mutual

/-- An index behind the text of an expression binds to its last operand, and a splat takes it
to each element. -/
def appendIndex (k : Source) : Source → Source
  | .node kind parts =>
    if isLoose kind then .node kind (appendLast k parts)
    else if kind = .fullSplat then .node kind (parts.append (indexParts k))
    else indexOf (.node kind parts) k

def appendLast (k : Source) : Parts Kind Rope → Parts Kind Rope
  | .nil => indexParts k
  | .text s rest => .text s (appendLast k rest)
  | .child t .nil => .child (appendIndex k t) .nil
  | .child t rest => .child t (appendLast k rest)

end

/-- What the text of the rewritten call says. -/
def appendCall (t : Source) : Source :=
  match t.parts.children with
  | [m,k] => appendIndex k m
  | _ => t

/-- An index behind the first argument is one of the whole argument. -/
def Indexable (t : Source) : Prop :=
  ∀ m ∈ t.parts.children.head?, isLoose m.kind = false ∧ m.kind ≠ .fullSplat

section language

variable (H : HclEdit)

/-- The edits are apart, and lead to the document in which each call is an index of its first
argument. -/
def Preserved (t : Source) : Prop :=
  ∃ d placed, H.parse t.render = some d ∧
    placed.map Prod.fst = scanLookupToIndex (H.body d) t.render ∧
    (∀ e ∈ placed, Formatting.Denotes t.render e.1 e.2) ∧
    (placed.map atPlace).Pairwise Apart ∧
    ∃ new d', Formatting.applyEdits t.render placed = .ok new ∧ H.parse new = some d' ∧
      H.syntaxTree d' = (t.rewrite isLookup indexCall).map H.tokens

end language

/-! ## The text of a rewritten call -/

section texts

variable {k m t : Source}

theorem render_append : ∀ ps qs : Parts Kind Rope, (ps.append qs).render = ps.render ++ qs.render
  | .nil, _ => rfl
  | .text s rest, qs => by
    rw [Parts.append,Parts.render,Parts.render,render_append,List.append_assoc]
  | .child t rest, qs => by
    rw [Parts.append,Parts.render,Parts.render,render_append,List.append_assoc]

theorem render_indexParts (k : Source) :
    (indexParts k).render = '[' :: (k.render ++ [']']) := by
  simp [indexParts,Parts.render]

mutual

theorem render_appendIndex (k : Source) : ∀ m : Source,
    (appendIndex k m).render = m.render ++ '[' :: (k.render ++ [']'])
  | .node kind parts => by
    rw [appendIndex]
    split_ifs
    · rw [Tree.render,Tree.render,render_appendLast]
    · rw [Tree.render,Tree.render,render_append,render_indexParts]
    · rw [indexOf,Tree.render,Parts.render,render_indexParts]

theorem render_appendLast (k : Source) : ∀ ps : Parts Kind Rope,
    (appendLast k ps).render = ps.render ++ '[' :: (k.render ++ [']'])
  | .nil => by rw [appendLast,render_indexParts]; rfl
  | .text s rest => by
    rw [appendLast,Parts.render,Parts.render,render_appendLast,List.append_assoc]
  | .child t .nil => by
    rw [appendLast,Parts.render,Parts.render,Parts.render,Parts.render,render_appendIndex,
      List.append_nil,List.append_nil]
  | .child t (.text s rest) => by
    rw [appendLast,Parts.render,Parts.render,render_appendLast,List.append_assoc]
    exact nofun
  | .child t (.child u rest) => by
    rw [appendLast,Parts.render,Parts.render,render_appendLast,List.append_assoc]
    exact nofun

end

theorem appendIndex_eq (h : isLoose m.kind = false ∧ m.kind ≠ .fullSplat) :
    appendIndex k m = indexOf m k := by
  cases m with
  | node kind parts =>
    simp only [Tree.kind] at h
    rw [appendIndex,if_neg (by simp [h.1]),if_neg h.2]

/-- Behind a looser operator or a splat the index is not one of the whole. -/
theorem appendIndex_ne {τ : Type} (u : Rope → τ) (h : ¬(isLoose m.kind = false ∧ m.kind ≠ .fullSplat)) :
    (appendIndex k m).map u ≠ (indexOf m k).map u := by
  cases m with
  | node kind parts =>
    intro heq
    apply h
    rw [appendIndex] at heq
    simp only [Tree.kind]
    split_ifs at heq with hloose hsplat
    · rw [indexOf,TextTrees.Tree.map,TextTrees.Tree.map,Tree.node.injEq] at heq
      rw [heq.1] at hloose
      cases hloose
    · rw [indexOf,TextTrees.Tree.map,TextTrees.Tree.map,Tree.node.injEq,hsplat] at heq
      cases heq.1
    · exact ⟨by simpa using hloose,hsplat⟩

theorem isLookup_children (h : isLookup t = true) : t.kind = .funcCall [] "lookup" ∧
    ∃ m k, t.parts.children = [m,k] := by
  rw [isLookup,Bool.and_eq_true,decide_eq_true_eq,decide_eq_true_eq] at h
  exact ⟨h.1,List.length_eq_two.mp h.2⟩

theorem call_eq_iff {τ : Type} (u : Rope → τ) (h : isLookup t = true) :
    (appendCall t).map u = (indexCall t).map u ↔ Indexable t := by
  obtain ⟨-,m,k,hchildren⟩ := isLookup_children h
  rw [appendCall,indexCall,Indexable,hchildren]
  simp only [List.head?_cons,Option.mem_some_iff,forall_eq']
  constructor
  · intro heq
    by_contra hnot
    exact appendIndex_ne u hnot heq
  · intro hindexable
    rw [appendIndex_eq hindexable]

end texts

/-! ## The edits -/

section edits

variable {H : HclEdit} {t : Source} {d : H.Document}

/-- A two-argument call of `lookup`, as the parts of a document that matter say it. -/
def lookupShape : Spanned.Span × Shape → Option (Spanned.Span × Spanned.Span × Spanned.Span)
  | (span,.funcCall [] name [arg1,arg2]) => if name = "lookup" then some (span,arg1,arg2) else none
  | _ => none

theorem lookupCall_eq (e : Spanned.Expression) :
    (lookupCall e).map (fun call => (call.1,call.2.1.span,call.2.2.span)) =
      (shapeOf e).bind lookupShape := by
  cases e with
  | funcCall span ns name args =>
    rcases args with _ | ⟨a,_ | ⟨b,_ | ⟨c,args⟩⟩⟩ <;> cases ns <;>
      by_cases hname : name = "lookup" <;> simp [lookupCall,shapeOf,lookupShape,hname]
  | stringTemplate span elements => simp [lookupCall,shapeOf,lookupShape]
  | _ => rfl

/-- The span of a call and those of its arguments. -/
def callSpans (p : ℕ × Source) : Option (Spanned.Span × Spanned.Span × Spanned.Span) :=
  (shapeAt p).bind lookupShape

theorem callSpans_eq (p : ℕ × Source) : callSpans p =
    if isLookup p.2 then
      match p.2.parts.placed lenBytes p.1 with
      | [m,k] => some (spanAt p,spanAt m,spanAt k)
      | _ => none
    else none := by
  obtain ⟨pos,kind,parts⟩ := p
  rw [callSpans,shapeAt,isLookup]
  have hlen : (parts.placed lenBytes pos).length = parts.children.length := by
    rw [← Parts.placed_map_snd lenBytes pos,List.length_map]
  simp only [Tree.kind,Tree.parts,← hlen]
  cases kind with
  | funcCall ns name =>
    rcases parts.placed lenBytes pos with _ | ⟨a,_ | ⟨b,_ | ⟨c,args⟩⟩⟩ <;> cases ns <;>
      by_cases hname : name = "lookup" <;> simp [lookupShape,hname]
  | _ => simp [lookupShape]

/-- The calls of the body are those of the tree. -/
theorem lookupCalls_eq (hg : H.Grammatical t) (hd : H.parse t.render = some d) :
    (Spanned.expressions (H.body d)).filterMap
        (fun e => (lookupCall e).map fun call => (call.1,call.2.1.span,call.2.2.span)) =
      (t.found isLookup lenBytes 0).filterMap callSpans := by
  obtain ⟨d',hd',-,hshapes⟩ := H.parse_render hg
  obtain rfl := Option.some.inj (hd.symm.trans hd')
  have hcalls := congrArg (List.filterMap lookupShape) hshapes
  rw [List.filterMap_filterMap,List.filterMap_filterMap] at hcalls
  rw [Tree.found_eq_filter,List.filterMap_filter]
  simp only [lookupCall_eq]
  rw [hcalls]
  refine List.filterMap_congr fun p _ => ?_
  by_cases hp : isLookup p.2 = true
  · rw [if_pos hp,callSpans]
  · rw [if_neg hp]
    exact (callSpans_eq p).trans (if_neg hp)

theorem lookup_parts {p : ℕ × Source} (hp : isLookup p.2 = true) :
    ∃ m k, p.2.parts.placed lenBytes p.1 = [m,k] ∧ p.2.parts.children = [m.2,k.2] ∧
      callSpans p = some (spanAt p,spanAt m,spanAt k) := by
  obtain ⟨-,m,k,hchildren⟩ := isLookup_children hp
  have hmap := Parts.placed_map_snd lenBytes p.1 p.2.parts
  rw [hchildren] at hmap
  obtain ⟨m,_,hplaced,rfl,hrest⟩ := List.map_eq_cons_iff.mp hmap
  obtain ⟨k,_,rfl,rfl,hnil⟩ := List.map_eq_cons_iff.mp hrest
  rw [List.map_eq_nil_iff] at hnil
  subst hnil
  refine ⟨m,k,hplaced,hchildren,?_⟩
  rw [callSpans_eq,if_pos hp,hplaced]

theorem own_of_callForm {p : Source} (h : CallForm p) : Own lenBytes p := by
  obtain ⟨c,s,rest,hparts,-⟩ := h.head
  exact ⟨c :: s,rest,hparts,by rw [lenBytes_cons]; have := c.utf8Size_pos; omega⟩

theorem callForm_of_picked (hg : H.Grammatical t) {p : Source} (h : p ∈ t.picked isLookup) :
    CallForm p := by
  obtain ⟨q,hq,rfl⟩ := Tree.found_of_picked lenBytes 0 h
  refine H.callForm hg q.2 (mem_nodes hq) ?_
  rw [(isLookup_children (Tree.pick_of_found hq)).1]
  rfl

/-- The span of a call comes back from its range. -/
theorem callRange_back {p : ℕ × Source} (hp : p ∈ t.found isLookup lenBytes 0)
    (hform : CallForm p.2) : ∃ range, hclSpanToLspRange t.render (spanAt p) = .ok range ∧
      lspPositionToByteOffset t.render range.start = .ok (spanAt p).1 ∧
      lspPositionToByteOffset t.render range.end = .ok (spanAt p).2 := by
  obtain ⟨a,b,hsplit,hspan⟩ := found_span hp
  obtain ⟨c,s,rest,hparts,hc⟩ := hform.head
  have hlast := hform.2
  have hhead : ∃ tail, p.2.render = c :: tail := by
    cases hnode : p.2 with
    | node kind parts =>
      rw [hnode] at hparts
      rw [Tree.parts] at hparts
      exact ⟨s ++ rest.render,by rw [hparts]; rfl⟩
  obtain ⟨tail,htail⟩ := hhead
  rw [hsplit,hspan]
  refine range_back a p.2.render b (fun hinside => ?_) fun hinside => ?_
  · rw [List.append_assoc,insideCrlf_iff,htail] at hinside
    exact hc (Option.some.inj hinside.2)
  · rw [insideCrlf_iff,List.getLast?_append,hlast] at hinside
    cases hinside.1

theorem findSome?_filterMap {α β γ : Type} (f : α → Option β) (g : β → Option γ) :
    ∀ l : List α, (l.filterMap f).findSome? g = l.findSome? fun x => (f x).bind g
  | [] => rfl
  | x::l => by
    rw [List.filterMap_cons,List.findSome?_cons]
    cases f x with
    | none => exact findSome?_filterMap f g l
    | some y => rw [List.findSome?_cons,findSome?_filterMap,Option.bind_some]

theorem findSome?_of_unique {α β : Type} {g : α → Option β} {r : β} : ∀ {l : List α},
    (∃ x ∈ l, g x = some r) → (∀ x ∈ l, g x = some r ∨ g x = none) → l.findSome? g = some r
  | [], h, _ => by simp at h
  | y::l, h, hall => by
    rw [List.findSome?_cons]
    rcases hall y List.mem_cons_self with hy | hy
    · rw [hy]
    · rw [hy]
      refine findSome?_of_unique ?_ fun x hx => hall x (List.mem_cons_of_mem _ hx)
      obtain ⟨x,hx,hgx⟩ := h
      rcases List.mem_cons.mp hx with rfl | hx
      · rw [hy] at hgx
        cases hgx
      · exact ⟨x,hx,hgx⟩

/-- The arguments are sought by the spans of the calls. -/
theorem lookupArgsAt_spans (body : Spanned.Body) (rope : Rope) (start stop : ℕ) :
    lookupArgsAt body rope start stop = ((Spanned.expressions body).filterMap
        (fun e => (lookupCall e).map fun call => (call.1,call.2.1.span,call.2.2.span))).findSome?
      fun s => if s.1 = (start,stop) then
        some (byteSlice rope s.2.1.1 s.2.1.2,byteSlice rope s.2.2.1 s.2.2.2) else none := by
  rw [lookupArgsAt,findSome?_filterMap]
  refine congrArg (fun g => List.findSome? g _) (funext fun e => ?_)
  cases lookupCall e <;> rfl

theorem lookupArgsAt_eq (hg : H.Grammatical t) (hd : H.parse t.render = some d)
    {p m k : ℕ × Source} (hp : p ∈ t.found isLookup lenBytes 0)
    (hplaced : p.2.parts.placed lenBytes p.1 = [m,k]) :
    lookupArgsAt (H.body d) t.render (spanAt p).1 (spanAt p).2 = some (m.2.render,k.2.render) := by
  rw [lookupArgsAt_spans,lookupCalls_eq hg hd]
  have hslice : ∀ q ∈ p.2.parts.placed lenBytes p.1,
      byteSlice t.render (spanAt q).1 (spanAt q).2 = q.2.render := fun q hq => placed_slice hp hq
  rw [hplaced,List.forall_mem_cons,List.forall_mem_singleton] at hslice
  have hspans : ∀ {q : ℕ × Source}, isLookup q.2 = true → ∃ m k,
      q.2.parts.placed lenBytes q.1 = [m,k] ∧ callSpans q = some (spanAt q,spanAt m,spanAt k) := by
    intro q hq
    obtain ⟨m,k,hq',-,hcall⟩ := lookup_parts hq
    exact ⟨m,k,hq',hcall⟩
  refine findSome?_of_unique ?_ fun s hs => ?_
  · obtain ⟨m',k',hplaced',hcall⟩ := hspans (Tree.pick_of_found hp)
    rw [hplaced] at hplaced'
    cases hplaced'
    refine ⟨_,List.mem_filterMap.mpr ⟨p,hp,hcall⟩,?_⟩
    simp only [Prod.mk.eta,if_true,hslice.1,hslice.2]
  · -- a call with the same span begins at the same place
    obtain ⟨q,hq,hcall⟩ := List.mem_filterMap.mp hs
    obtain ⟨m',k',hplaced',hcall'⟩ := hspans (Tree.pick_of_found hq)
    obtain rfl := Option.some.inj (hcall.symm.trans hcall')
    by_cases hsame : spanAt q = ((spanAt p).1,(spanAt p).2)
    · have hstarts := Tree.found_starts lenBytes_append 0 t fun p hp =>
        own_of_callForm (callForm_of_picked hg hp)
      have hnodup : ((t.found isLookup lenBytes 0).map Prod.fst).Nodup :=
        List.pairwise_map.mpr (hstarts.imp ne_of_lt)
      have hstart : q.1 = p.1 := by
        rw [spanAt,spanAt,Prod.mk.injEq] at hsame
        exact hsame.1
      obtain rfl := List.inj_on_of_nodup_map hnodup hq hp hstart
      rw [hplaced] at hplaced'
      cases hplaced'
      exact .inl (by simp only [Prod.mk.eta,if_true,hslice.1,hslice.2])
    · exact .inr (if_neg hsame)

/-- The edit of a call, with the text of its index. -/
def callEdit (rope : Rope) (p : ℕ × Source) : TextEdit × Spanned.Span :=
  (⟨rangeOrDefault rope (spanAt p),String.ofList (appendCall p.2).render⟩,spanAt p)

theorem computeLookupToIndexEdit_eq (hg : H.Grammatical t) (hd : H.parse t.render = some d)
    {p : ℕ × Source} (hp : p ∈ t.found isLookup lenBytes 0) :
    computeLookupToIndexEdit (H.body d) t.render (rangeOrDefault t.render (spanAt p)) =
        some (callEdit t.render p).1 ∧
      Formatting.Denotes t.render (callEdit t.render p).1 (callEdit t.render p).2 := by
  have hform := callForm_of_picked hg (Tree.picked_of_found hp)
  obtain ⟨range,hrange,hstart,hstop⟩ := callRange_back hp hform
  obtain ⟨m,k,hplaced,hchildren,-⟩ := lookup_parts (Tree.pick_of_found hp)
  have hbare := H.bare hg p.2 (mem_nodes hp)
  rw [hchildren,List.forall_mem_cons,List.forall_mem_singleton] at hbare
  have hargs := lookupArgsAt_eq hg hd hp hplaced
  have htext : (appendCall p.2).render = m.2.render ++ '[' :: (k.2.render ++ [']']) := by
    rw [appendCall,hchildren]
    exact render_appendIndex k.2 m.2
  rw [callEdit,rangeOrDefault_eq hrange]
  refine ⟨?_,hstart,hstop⟩
  rw [computeLookupToIndexEdit,hstart,hstop]
  simp only [Except.toOption,Option.bind_eq_bind,Option.bind_some,hargs]
  rw [hbare.1,hbare.2,htext]
  simp

theorem scanLookupToIndex_spans (body : Spanned.Body) (rope : Rope) :
    scanLookupToIndex body rope = ((Spanned.expressions body).filterMap
      (fun e => (lookupCall e).map fun call => (call.1,call.2.1.span,call.2.2.span))).filterMap
        fun s => computeLookupToIndexEdit body rope (rangeOrDefault rope s.1) := by
  rw [scanLookupToIndex,deprecatedLookupDiagnostics,List.filterMap_filterMap,
    List.filterMap_filterMap]
  refine List.filterMap_congr fun e _ => ?_
  cases lookupCall e <;> rfl

/-- The edits are those of the calls in their order. -/
theorem scanLookupToIndex_eq (hg : H.Grammatical t) (hd : H.parse t.render = some d) :
    scanLookupToIndex (H.body d) t.render =
      ((t.found isLookup lenBytes 0).map (callEdit t.render)).map Prod.fst := by
  rw [scanLookupToIndex_spans,lookupCalls_eq hg hd,List.filterMap_filterMap,List.map_map,
    ← List.filterMap_eq_map]
  refine List.filterMap_congr fun p hp => ?_
  obtain ⟨m,k,-,-,hcall⟩ := lookup_parts (Tree.pick_of_found hp)
  rw [hcall,Option.bind_some,(computeLookupToIndexEdit_eq hg hd hp).1]
  rfl

theorem atPlace_callEdit (rope : Rope) (p : ℕ × Source) :
    atPlace (callEdit rope p) = editOf appendCall lenBytes p := by
  rw [atPlace,callEdit,editOf,String.toList_ofList]
  rfl

end edits

section preservation

variable {H : HclEdit} {t : Source}

/-- Whatever places the edits are given, they are those of the calls. -/
theorem placed_eq {d : H.Document} (hg : H.Grammatical t) (hd : H.parse t.render = some d)
    {placed : List (TextEdit × Spanned.Span)}
    (hscan : placed.map Prod.fst = scanLookupToIndex (H.body d) t.render)
    (hplaces : ∀ e ∈ placed, Formatting.Denotes t.render e.1 e.2) :
    placed = (t.found isLookup lenBytes 0).map (callEdit t.render) := by
  rw [scanLookupToIndex_eq hg hd] at hscan
  refine placed_unique hscan hplaces fun e he => ?_
  obtain ⟨p,hp,rfl⟩ := List.mem_map.mp he
  exact (computeLookupToIndexEdit_eq hg hd hp).2

theorem map_atPlace (rope : Rope) (l : List (ℕ × Source)) :
    (l.map (callEdit rope)).map atPlace = l.map (editOf appendCall lenBytes) := by
  rw [List.map_map]
  exact List.map_congr_left fun p _ => atPlace_callEdit rope p

/-- The edits of calls that are not nested lead to the text in which an index follows each first
argument. -/
theorem applyEdits_calls (hflat : t.Flat isLookup) :
    Formatting.applyEdits t.render ((t.found isLookup lenBytes 0).map (callEdit t.render)) =
      .ok (t.rewrite isLookup appendCall).render := by
  have hspliced := Tree.spliced (f:=appendCall) lenBytes_append 0 hflat
  rw [← map_atPlace t.render] at hspliced
  exact applyEdits_of_spliced (show 0 = lenBytes [] from rfl) hspliced

theorem apart_calls_iff (hg : H.Grammatical t) :
    (((t.found isLookup lenBytes 0).map (callEdit t.render)).map atPlace).Pairwise Apart ↔
      t.Flat isLookup := by
  rw [map_atPlace]
  exact Tree.apart_iff lenBytes_append 0 t fun p hp => own_of_callForm (callForm_of_picked hg hp)

theorem rewrite_eq_iff_indexable {τ : Type} (u : Rope → τ) (hflat : t.Flat isLookup) :
    (t.rewrite isLookup appendCall).map u = (t.rewrite isLookup indexCall).map u ↔
      ∀ call ∈ t.picked isLookup, Indexable call := by
  rw [Tree.rewrite_eq_iff u hflat]
  refine forall₂_congr fun call hcall => call_eq_iff u ?_
  obtain ⟨p,hp,rfl⟩ := Tree.found_of_picked lenBytes 0 hcall
  exact Tree.pick_of_found hp

theorem render_calls (hflat : t.Flat isLookup) :
    (t.rewrite isLookup appendCall).render = (t.rewrite isLookup indexCall).render := by
  refine Tree.render_rewrite hflat fun call hcall => ?_
  obtain ⟨p,hp,rfl⟩ := Tree.found_of_picked lenBytes 0 hcall
  obtain ⟨-,m,k,hchildren⟩ := isLookup_children (Tree.pick_of_found hp)
  rw [appendCall,indexCall,hchildren]
  simp only
  rw [render_appendIndex,indexOf,Tree.render,Parts.render,render_indexParts]

theorem preserved_iff_reads (hg : H.Grammatical t) :
    Preserved H t ↔ t.Flat isLookup ∧ H.Reads (t.rewrite isLookup indexCall) := by
  constructor
  · rintro ⟨d,placed,hd,hscan,hplaces,hapart,new,d',happlied,hd',htree⟩
    obtain rfl := placed_eq hg hd hscan hplaces
    have hflat := (apart_calls_iff hg).mp hapart
    rw [applyEdits_calls hflat,Outcome.ok.injEq] at happlied
    subst happlied
    rw [render_calls hflat] at hd'
    exact ⟨hflat,d',hd',htree⟩
  · rintro ⟨hflat,d',hd',htree⟩
    obtain ⟨d,hd,-⟩ := H.parse_render hg
    refine ⟨d,_,hd,(scanLookupToIndex_eq hg hd).symm,fun e he => ?_,(apart_calls_iff hg).mpr hflat,
      _,d',applyEdits_calls hflat,by rw [render_calls hflat]; exact hd',htree⟩
    obtain ⟨p,hp,rfl⟩ := List.mem_map.mp he
    exact (computeLookupToIndexEdit_eq hg hd hp).2

/-- Where the edits lead to a document, it is the wanted one just where each index is one of the
whole first argument. -/
theorem reads_iff_indexable (hflat : t.Flat isLookup)
    (hfits : H.Grammatical (t.rewrite isLookup appendCall)) :
    H.Reads (t.rewrite isLookup indexCall) ↔ ∀ call ∈ t.picked isLookup, Indexable call := by
  rw [← rewrite_eq_iff_indexable H.tokens hflat,HclEdit.Reads,← render_calls hflat]
  obtain ⟨d,hd,htree,-⟩ := H.parse_render hfits
  rw [← htree]
  constructor
  · rintro ⟨d',hd',htree'⟩
    obtain rfl := Option.some.inj (hd.symm.trans hd')
    exact htree'
  · exact fun heq => ⟨d,hd,heq⟩

/-- The rewrite does what it is for just where no call stands in an argument of another, and the
text in which the indices stand for the calls is read so; where the edits lead to a document,
that is where each index is one of the whole first argument. -/
theorem indices_preserved_iff (hg : H.Grammatical t) :
    (Preserved H t ↔ t.Flat isLookup ∧ H.Reads (t.rewrite isLookup indexCall)) ∧
      (H.Grammatical (t.rewrite isLookup appendCall) → (Preserved H t ↔
        t.Flat isLookup ∧ ∀ call ∈ t.picked isLookup, Indexable call)) := by
  refine ⟨preserved_iff_reads hg,fun hfits => ?_⟩
  rw [preserved_iff_reads hg]
  exact and_congr_right fun hflat => reads_iff_indexable hflat hfits

end preservation

/-! ## Documents with one attribute -/

section samples

def lookupOf (m k : Source) : Source :=
  .node (.funcCall [] "lookup") (.text "lookup(".toList (.child m (.text ", ".toList
    (.child k (.text ")".toList .nil)))))

def chosenOf (c x y : Source) : Source :=
  .node .conditional (.child c (.text " ? ".toList (.child x (.text " : ".toList (.child y .nil)))))

def plainLookup : Source := assigned (lookupOf (word "m") (word "k"))

def nestedLookup : Source := assigned (lookupOf (lookupOf (word "m") (word "j")) (word "k"))

def chosenLookup : Source :=
  assigned (lookupOf (chosenOf (word "c") (word "x") (word "y")) (word "k"))

/-- The documents and those that their edits lead to, as the parser reads them. -/
def samples : List (Source × Spanned.Body) :=
  [(plainLookup,[.attribute (0,1) "a"
      (.funcCall (4,16) [] "lookup" [.variable (11,12) "m",.variable (14,15) "k"])]),
    (plainLookup.rewrite isLookup appendCall,[.attribute (0,1) "a"
      (.traversal (4,8) (.variable (4,5) "m") [.index (.variable (6,7) "k")])]),
    (nestedLookup,[.attribute (0,1) "a" (.funcCall (4,27) [] "lookup"
      [.funcCall (11,23) [] "lookup" [.variable (18,19) "m",.variable (21,22) "j"],
        .variable (25,26) "k"])]),
    (chosenLookup,[.attribute (0,1) "a" (.funcCall (4,24) [] "lookup"
      [.conditional (11,20) (.variable (11,12) "c") (.variable (15,16) "x") (.variable (19,20) "y"),
        .variable (22,23) "k"])]),
    (chosenLookup.rewrite isLookup appendCall,[.attribute (0,1) "a"
      (.conditional (4,16) (.variable (4,5) "c") (.variable (8,9) "x")
        (.traversal (12,16) (.variable (12,13) "y") [.index (.variable (14,15) "k")]))])]

theorem samples_readable : Readable samples where
  distinct := by decide
  shapes := by decide
  callForm := by decide
  wrapForm := by decide
  bare := by decide

def sampleCrate : HclEdit := ofDocuments samples samples_readable

theorem plainLookup_preserved : sampleCrate.Grammatical plainLookup ∧
    Preserved sampleCrate plainLookup := by
  have hg : sampleCrate.Grammatical plainLookup := ⟨_,List.mem_cons_self⟩
  have hfits : sampleCrate.Grammatical (plainLookup.rewrite isLookup appendCall) :=
    ⟨_,List.mem_cons_of_mem _ List.mem_cons_self⟩
  have hpicked : plainLookup.picked isLookup = [lookupOf (word "m") (word "k")] := rfl
  refine ⟨hg,((indices_preserved_iff hg).2 hfits).mpr ⟨⟨rfl,trivial⟩,?_⟩⟩
  rw [hpicked,List.forall_mem_singleton]
  intro m hm
  obtain rfl : word "m" = m := Option.some.inj hm
  exact ⟨rfl,by decide⟩

/-- A call in an argument of another is edited inside of its edit, and an index behind a choice
is one of its last branch. -/
theorem nested_lookup_spoiled :
    (sampleCrate.Grammatical nestedLookup ∧ ¬Preserved sampleCrate nestedLookup) ∧
      sampleCrate.Grammatical chosenLookup ∧ ¬Preserved sampleCrate chosenLookup := by
  have hnested : sampleCrate.Grammatical nestedLookup :=
    ⟨_,List.mem_of_getElem? (i:=2) rfl⟩
  have hchosen : sampleCrate.Grammatical chosenLookup :=
    ⟨_,List.mem_of_getElem? (i:=3) rfl⟩
  have hfits : sampleCrate.Grammatical (chosenLookup.rewrite isLookup appendCall) :=
    ⟨_,List.mem_of_getElem? (i:=4) rfl⟩
  refine ⟨⟨hnested,fun h => ?_⟩,hchosen,fun h => ?_⟩
  · have hflat : [lookupOf (word "m") (word "j")] = [] := ((preserved_iff_reads hnested).mp h).1.1
    cases hflat
  · obtain ⟨hflat,hreads⟩ := (preserved_iff_reads hchosen).mp h
    have hindexable := (reads_iff_indexable hflat hfits).mp hreads
      (lookupOf (chosenOf (word "c") (word "x") (word "y")) (word "k")) List.mem_cons_self
    cases (hindexable _ rfl).1

end samples

end LookupRewrites
end TerraformLs
