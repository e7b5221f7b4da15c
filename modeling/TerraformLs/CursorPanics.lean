import TerraformLs.CursorReferences

/-! When the classification of a cursor panics. A character whose last byte reads as part
of a word, but not all of its bytes, is cut where the walk over a word ends; and the name
of a provider is taken to begin one byte after the character before it. -/
namespace TerraformLs
namespace Completion

open Outcome Loops Rope Recovery GitRefs

section lists

variable {α : Type} {p : α → Bool} {l m : List α}

theorem rdropWhile_append_of_all (h : ∀ x ∈ m, p x) :
    (l ++ m).rdropWhile p = l.rdropWhile p := by
  induction m using List.reverseRecOn with
  | nil => rw [List.append_nil]
  | append_singleton m x ih =>
    rw [← List.append_assoc,List.rdropWhile_concat_pos _ _ _ (h x (by simp))]
    exact ih fun y hy => h y (by simp [hy])

/-- A list that ends in one run of elements of a kind. -/
theorem rdropWhile_run (hm : ∀ x ∈ m, p x) (hl : ∀ x ∈ l.getLast?, p x = false) :
    (l ++ m).rdropWhile p = l := by
  rw [rdropWhile_append_of_all hm,List.rdropWhile_eq_self_iff]
  intro hne hlast
  rw [hl _ (List.getLast?_eq_some_getLast hne)] at hlast
  cases hlast

theorem rdropWhile_of_last (hm : m ≠ []) (h : m.getLast?.any p = false) :
    (l ++ m).rdropWhile p = l ++ m := by
  rw [List.rdropWhile_eq_self_iff]
  intro hne
  rw [List.getLast?_eq_some_getLast hm,Option.any_some] at h
  rw [List.getLast_append_of_ne_nil hne hm]
  exact Bool.eq_false_iff.mp h

theorem length_lt_rdropWhile (h : m.all p = false) : l.length < ((l ++ m).rdropWhile p).length := by
  induction m using List.reverseRecOn with
  | nil => cases h
  | append_singleton m x ih =>
    rw [← List.append_assoc,List.rdropWhile_concat]
    split
    · rename_i hx
      exact ih (by simpa [hx] using h)
    · simp

theorem rdropWhile_lt_length (h : m.getLast?.any p = true) :
    ((l ++ m).rdropWhile p).length < l.length + m.length := by
  obtain ⟨x,hx,hp⟩ := (Option.any_eq_true _ _).mp h
  obtain ⟨front,rfl⟩ := List.getLast?_eq_some_iff.mp hx
  rw [← List.append_assoc,List.rdropWhile_concat_pos _ _ _ hp]
  have hle := (List.rdropWhile_prefix p (l ++ front)).length_le
  simp only [List.length_append,List.length_singleton] at hle ⊢
  omega

end lists

section tears

variable (C : CharClass)

/-- Every byte of the character reads as part of a word. -/
def wholeWord (c : Char) : Bool := (String.utf8EncodeChar c).all (isWordByte C)

/-- The last byte of the character reads as part of a word. -/
def endsInWord (c : Char) : Bool := (String.utf8EncodeChar c).getLast?.any (isWordByte C)

/-- Whether the walk from the end of a text, which is given in reverse, cuts a character. -/
def tearsFrom : Bool → Rope → Bool
  | _, [] => false
  | inWord, c::s =>
    if wholeWord C c then tearsFrom true s
    else if endsInWord C c then true
    else if c = '.' && inWord then tearsFrom false s
    else false

def tears (text : Rope) : Bool := tearsFrom C false text.reverse

variable {C} {a b : Rope}

theorem tearsFrom_append {w : Rope} (h : ∀ c ∈ w, wholeWord C c) (inWord : Bool) (s : Rope) :
    tearsFrom C inWord (w ++ s) = tearsFrom C (inWord || !w.isEmpty) s := by
  induction w generalizing inWord with
  | nil => simp
  | cons c w ih =>
    rw [List.cons_append,tearsFrom,if_pos (h c List.mem_cons_self),
      ih fun d hd => h d (List.mem_cons_of_mem c hd)]
    simp

theorem wordByte_of_wholeWord {w : Rope} (h : ∀ c ∈ w, wholeWord C c) :
    ∀ x ∈ bytes w, isWordByte C x := by
  intro x hx
  obtain ⟨c,hc,hmem⟩ := List.mem_flatMap.mp hx
  exact List.all_eq_true.mp (h c hc) x hmem

/-- Before an offset stand a word and the character that ends the walk, if there is one. -/
theorem wordStart_text (C : CharClass) (a b : Rope) : ∃ kept w, a = kept ++ w ∧
    (∀ c ∈ w, wholeWord C c) ∧
    wordStart C (bytes (a ++ b)) (lenBytes a) =
      .ok ((bytes kept).rdropWhile (isWordByte C)).length ∧
    ∀ hkept : kept ≠ [], wholeWord C (kept.getLast hkept) = false := by
  have hsplit : a = a.rdropWhile (wholeWord C) ++ a.rtakeWhile (wholeWord C) :=
    (List.rdropWhile_append_rtakeWhile (p:=wholeWord C) (l:=a)).symm
  have hword : ∀ c ∈ a.rtakeWhile (wholeWord C), wholeWord C c := fun c hc =>
    List.mem_rtakeWhile_imp hc
  refine ⟨_,_,hsplit,hword,?_,fun hkept => ?_⟩
  · have htake : (bytes (a ++ b)).take (lenBytes a) = bytes a := by
      rw [bytes_append,← length_bytes,List.take_left]
    have hle : lenBytes a ≤ (bytes (a ++ b)).length := by simp
    rw [wordStart_eq hle,htake]
    conv_lhs => rw [hsplit,bytes_append,rdropWhile_append_of_all (wordByte_of_wholeWord hword)]
  · exact Bool.eq_false_iff.mpr (List.rdropWhile_last_not _ _ hkept)

theorem dot_of_last {c : Char} {x : UInt8} (h : (String.utf8EncodeChar c).getLast? = some x) :
    latin x = '.' ↔ c = '.' := by
  constructor
  · intro hdot
    have hone := ascii_of_size (List.mem_of_getLast? h) (ascii_of_latin hdot (by decide))
    have hbyte : String.utf8EncodeChar c = [c.val.toUInt8] :=
      String.utf8EncodeChar_eq_singleton hone
    rw [hbyte,List.getLast?_singleton] at h
    refine eq_of_toUInt8 hone rfl (UInt8.toNat_inj.mp ?_)
    rw [Option.some.inj h,← latin_toNat,hdot]
    rfl
  · rintro rfl
    have hbyte : String.utf8EncodeChar '.' = [byte '.'] := rfl
    rw [hbyte] at h
    cases h
    rfl

/-- A word between two characters is sliced, and the walk goes on behind a dot. -/
theorem segmentStep_word {text : Rope} {start stop : ℕ} (segs : List String)
    (hword : wordStart C (bytes text) stop = .ok start) (hstart : Seam text start)
    (hstop : Seam text stop) (hlt : start < stop) : ∃ segs' : List String,
    (start = 0 → segmentStep C text ⟨stop,segs⟩ = .ok (.inr segs'.reverse)) ∧
      ∀ x, start ≠ 0 → (bytes text)[start-1]? = some x → segmentStep C text ⟨stop,segs⟩ =
        .ok (if latin x = '.' then .inl ⟨start - 1,segs'⟩ else .inr segs'.reverse) := by
  obtain ⟨segment,hsegment,-⟩ := slice_safe (ε:=Unfinished) hstart hstop hlt.le
  refine ⟨segs ++ [String.ofList segment],fun hzero => ?_,fun x hpos hx => ?_⟩
  · rw [segmentStep,hword,bind_ok,if_neg hlt.ne,hsegment,bind_ok,if_pos hzero]
    rfl
  · rw [segmentStep,hword,bind_ok,if_neg hlt.ne,hsegment,bind_ok,if_neg hpos,index_of_getElem? hx,
      bind_ok]
    split <;> rfl

theorem byte_before {text front back : Rope} {c : Char} (h : text = front ++ [c] ++ back) :
    ∃ x, (String.utf8EncodeChar c).getLast? = some x ∧
      (bytes text)[lenBytes (front ++ [c]) - 1]? = some x := by
  obtain ⟨most,x,hmost⟩ := (List.eq_nil_or_concat' (String.utf8EncodeChar c)).resolve_left
    String.utf8EncodeChar_ne_nil
  have hsize : most.length + 1 = c.utf8Size := by
    rw [← String.length_utf8EncodeChar,hmost,List.length_append]
    rfl
  refine ⟨x,by rw [hmost,List.getLast?_concat],?_⟩
  have hoffset : lenBytes (front ++ [c]) - 1 = (bytes front ++ most).length := by
    simp only [lenBytes_append,lenBytes_cons,lenBytes_nil,List.length_append,length_bytes]
    omega
  have hsplit : bytes text = (bytes front ++ most) ++ x :: bytes back := by
    rw [h,bytes_append,bytes_append,bytes_cons,bytes_nil,hmost]
    simp
  rw [hoffset,hsplit,List.getElem?_append_right le_rfl,Nat.sub_self]
  rfl

/-- The walk over the segments panics exactly when it cuts a character. -/
theorem segments_panicsWhen {text : Rope} (htext : text = a ++ b) {fuel : ℕ}
    (hfuel : lenBytes a < fuel) (segs : List String) :
    (loop (segmentStep C text) fuel ⟨lenBytes a,segs⟩).PanicsWhen
      (tearsFrom C false a.reverse = true) := by
  induction fuel generalizing a b segs with
  | zero => omega
  | succ fuel ih =>
    obtain ⟨kept,w,rfl,hw,hstart,hlast⟩ := wordStart_text C a b
    rw [← htext] at hstart
    have hreverse : ∀ c ∈ w.reverse, wholeWord C c := fun c hc => hw c (List.mem_reverse.mp hc)
    have hsplit : text = kept ++ (w ++ b) := by rw [htext,List.append_assoc]
    have hstop : Seam text (lenBytes (kept ++ w)) := ⟨kept ++ w,b,htext,rfl⟩
    have hlen : lenBytes (kept ++ w) = lenBytes kept + lenBytes w := lenBytes_append _ _
    rw [List.reverse_append,tearsFrom_append hreverse]
    -- nothing of the text is left before the word, or a character that is not part of it
    rcases List.eq_nil_or_concat' kept with rfl | ⟨front,c,rfl⟩
    · have hzero : wordStart C (bytes text) (lenBytes ([] ++ w)) = .ok 0 := hstart
      refine Ends.panicsWhen ?_ nofun
      by_cases hempty : lenBytes ([] ++ w) = 0
      · rw [hempty] at hzero ⊢
        have hround : segmentStep C text ⟨0,segs⟩ = .ok (.inr segs.reverse) := by
          rw [segmentStep,hzero]
          rfl
        exact ⟨_,loop_last hround fuel⟩
      · obtain ⟨segs',hround,-⟩ := segmentStep_word segs hzero (seam_zero text) hstop
          (Nat.pos_of_ne_zero hempty)
        exact ⟨_,loop_last (hround rfl) fuel⟩
    · have hwhole : wholeWord C c = false := by simpa using hlast (by simp)
      have hbytes : bytes (front ++ [c]) = bytes front ++ String.utf8EncodeChar c := by
        rw [bytes_append,bytes_cons,bytes_nil,List.append_nil]
      have hlenc : lenBytes (front ++ [c]) = lenBytes front + c.utf8Size := by simp
      have htextc : text = front ++ c :: (w ++ b) := by rw [hsplit,List.append_assoc]; rfl
      rw [hbytes] at hstart
      rw [List.reverse_append,List.reverse_singleton,List.singleton_append,tearsFrom,
        if_neg (by simp [hwhole])]
      by_cases hends : endsInWord C c = true
      · -- the walk stops inside of the character
        have hlow := length_lt_rdropWhile (l:=bytes front) hwhole
        have hhigh := rdropWhile_lt_length (l:=bytes front) hends
        rw [length_bytes,String.length_utf8EncodeChar] at *
        have hround : segmentStep C text ⟨lenBytes (front ++ [c] ++ w),segs⟩ = .panicked := by
          rw [segmentStep,hstart,bind_ok,if_neg (by simp only; omega),
            slice_panics (.inl (htextc ▸ not_seam_inside hlow hhigh))]
          rfl
        rw [loop_panicked hround,if_pos hends]
        exact panicsWhen_panicked rfl
      · have hlastByte : (String.utf8EncodeChar c).getLast?.any (isWordByte C) = false :=
          Bool.eq_false_iff.mpr hends
        rw [rdropWhile_of_last (String.utf8EncodeChar_ne_nil) hlastByte,← hbytes,length_bytes] at hstart
        have hseam : Seam text (lenBytes (front ++ [c])) := ⟨front ++ [c],w ++ b,hsplit,rfl⟩
        have hpos : lenBytes (front ++ [c]) ≠ 0 := by
          have hsize := c.utf8Size_pos
          omega
        rw [if_neg hends]
        by_cases hempty : w = []
        · subst hempty
          have hround : segmentStep C text ⟨lenBytes (front ++ [c] ++ []),segs⟩ =
              .ok (.inr segs.reverse) := by
            rw [List.append_nil] at hstart ⊢
            rw [segmentStep,hstart,bind_ok,if_pos rfl]
            rfl
          rw [loop_last hround]
          exact (ends_ok _).panicsWhen (by simp)
        · have hwpos : lenBytes w ≠ 0 := fun hzero => hempty (lenBytes_eq_zero.mp hzero)
          obtain ⟨segs',-,hround⟩ := segmentStep_word segs hstart hseam hstop (by omega)
          obtain ⟨x,hx,hbefore⟩ := byte_before hsplit
          have hstep := hround x hpos hbefore
          by_cases hdot : c = '.'
          · rw [if_pos ((dot_of_last hx).mpr hdot)] at hstep
            subst hdot
            have hback : lenBytes (front ++ ['.']) - 1 = lenBytes front := by
              rw [lenBytes_append]
              rfl
            rw [hback] at hstep
            rw [loop_next hstep,if_pos (by simp [hempty])]
            exact ih htextc (by omega) segs'
          · rw [if_neg fun h => hdot ((dot_of_last hx).mp h)] at hstep
            rw [loop_last hstep]
            exact (ends_ok _).panicsWhen (by simp [hdot])

theorem traversal_panicsWhen (C : CharClass) (text : Rope) :
    (traversalSegmentsReverse C text).PanicsWhen (tears C text = true) :=
  segments_panicsWhen (List.append_nil text).symm (Nat.lt_succ_self _) []

end tears

section conditions

variable (C : CharClass)

/-- The path before the key that is being typed is cut inside of a character. -/
def BracketTears (before : Rope) : Prop :=
  ∃ cursor rest path, stripSuffix "[" (beforeKey C before) = some cursor ∧
    peelSteps C cursor = .ok (rest,path) ∧ tears C rest = true

/-- What stands before the name of a provider ends in a character of several bytes. -/
def localTears (head : Rope) : Bool :=
  (head.rdropWhile (isIdent C)).getLast?.any fun c => c.utf8Size ≠ 1

def ProviderTears (trimmed : Rope) : Prop :=
  ∃ head, stripSuffix "::" trimmed = some head ∧ endsInProvider C head = false ∧
    localTears C head = true

/-- The collection that a loop variable goes over is cut inside of a character. -/
def BindingTears (before : Rope) (head : String) : Prop :=
  ∃ binders collection text, enclosingForBinder C before = .ok (some (binders,collection)) ∧
    head ∈ binders ∧ isValueBinder binders head = true ∧
    stripTrailingBracketGroups (trim collection) = .ok text ∧ tears C text = true

/-- A name that may be that of a loop variable, with at most one attribute. -/
def SegmentsTear (before : Rope) (segs : List String) : Prop :=
  ∃ head rest, segs = head :: rest ∧ rest.length ≤ 1 ∧ isBuiltinPrefix head = false ∧
    BindingTears C before head

def ReferenceTears (before : Rope) : Prop :=
  ProviderTears C (before.rdropWhile (isIdent C)) ∨
    ∃ front text, stripSuffix "." (before.rdropWhile (isIdent C)) = some front ∧
      stripTrailingBracketGroups front = .ok text ∧ (tears C text = true ∨
        ∃ segs, traversalSegmentsReverse C text = .ok segs ∧ SegmentsTear C before segs)

variable {C} {before : Rope}

theorem bracketIndexContext_panicsWhen (C : CharClass) (before : Rope) :
    (bracketIndexContext C before).PanicsWhen (BracketTears C before) := by
  rw [bracketIndexContext]
  cases hcursor : stripSuffix "[" (beforeKey C before) with
  | none =>
    refine (ends_ok _).panicsWhen ?_
    rintro ⟨cursor,rest,path,hsome,-⟩
    rw [hcursor] at hsome
    cases hsome
  | some cursor =>
    refine ((peelSteps_ends C cursor).bind_panicsWhen fun t _ =>
      ((traversal_panicsWhen C t.1).bind (U:=fun _ => False) fun segs _ =>
        (ends_ok _).panicsWhen not_false)).congr ?_
    constructor
    · rintro ⟨⟨rest,path⟩,hpeel,htears | ⟨_,-,hfalse⟩⟩
      · exact ⟨cursor,rest,path,hcursor,hpeel,htears⟩
      · exact hfalse.elim
    · rintro ⟨cursor',rest,path,hsome,hpeel,htears⟩
      rw [hcursor] at hsome
      cases hsome
      exact ⟨(rest,path),hpeel,.inl htears⟩

theorem localStart_split (C : CharClass) (head : Rope) :
    (localStart C head = 0 ∧ localTears C head = false) ∨ ∃ front c back,
      head = front ++ c :: back ∧ localStart C head = lenBytes front + 1 ∧
        localTears C head = decide (c.utf8Size ≠ 1) := by
  have hsplit : head.rdropWhile (isIdent C) ++ head.rtakeWhile (isIdent C) = head :=
    List.rdropWhile_append_rtakeWhile
  rcases List.eq_nil_or_concat' (head.rdropWhile (isIdent C)) with hkept | ⟨front,c,hkept⟩
  · exact .inl ⟨by rw [localStart,hkept],by rw [localTears,hkept]; rfl⟩
  · refine .inr ⟨front,c,head.rtakeWhile (isIdent C),?_,?_,?_⟩
    · rw [hkept,List.append_assoc] at hsplit
      exact hsplit.symm
    · have hdrop : (front ++ [c]).dropLast = front := List.dropLast_concat
      rw [localStart,hkept]
      split
      · rename_i hnil
        exact absurd hnil (List.concat_ne_nil c front)
      · rw [hdrop]
    · rw [localTears,hkept,List.getLast?_concat]
      rfl

theorem localStart_seam {head : Rope} (h : localTears C head = false) :
    Seam head (localStart C head) := by
  rcases localStart_split C head with ⟨hzero,-⟩ | ⟨front,c,back,hsplit,hstart,htears⟩
  · rw [hzero]
    exact seam_zero head
  · rw [htears,decide_eq_false_iff_not,not_not] at h
    rw [hstart]
    exact ⟨front ++ [c],back,by rw [hsplit]; simp,by simp [h]⟩

theorem localStart_inside {head : Rope} (h : localTears C head = true) :
    ¬Seam head (localStart C head) ∧ localStart C head ≠ lenBytes head := by
  rcases localStart_split C head with ⟨-,hfalse⟩ | ⟨front,c,back,hsplit,hstart,htears⟩
  · rw [hfalse] at h
    cases h
  · rw [htears,decide_eq_true_eq] at h
    have hsize := c.utf8Size_pos
    have hlen : lenBytes head = lenBytes front + (c.utf8Size + lenBytes back) := by
      rw [hsplit,lenBytes_append,lenBytes_cons]
    rw [hstart]
    refine ⟨?_,by omega⟩
    rw [hsplit]
    exact not_seam_inside (Nat.lt_succ_self _) (by omega)

theorem providerFunctionPrefixContext_panicsWhen (C : CharClass) (trimmed : Rope) :
    (providerFunctionPrefixContext C trimmed).PanicsWhen (ProviderTears C trimmed) := by
  rw [providerFunctionPrefixContext]
  cases hhead : stripSuffix "::" trimmed with
  | none =>
    refine (ends_ok _).panicsWhen ?_
    rintro ⟨head,hsome,-⟩
    rw [hhead] at hsome
    cases hsome
  | some head =>
    have hiff : ProviderTears C trimmed ↔ endsInProvider C head = false ∧
        localTears C head = true := by
      constructor
      · rintro ⟨head',hsome,h⟩
        rw [hhead] at hsome
        cases hsome
        exact h
      · exact fun h => ⟨head,hhead,h⟩
    refine PanicsWhen.congr (T:=endsInProvider C head = false ∧ localTears C head = true) ?_ hiff.symm
    simp only
    split
    · rename_i hprovider
      exact (ends_ok _).panicsWhen (by simp [hprovider])
    rename_i hprovider
    rw [Bool.not_eq_true] at hprovider
    by_cases htears : localTears C head = true
    · obtain ⟨hinside,hne⟩ := localStart_inside htears
      rw [if_neg hne,slice_panics (.inl hinside)]
      exact panicsWhen_panicked ⟨hprovider,htears⟩
    · refine Ends.panicsWhen ?_ fun h => htears h.2
      have hseam := localStart_seam (Bool.eq_false_iff.mpr htears)
      split
      · exact ends_ok _
      refine (slice_safe hseam (seam_length head) hseam.le).bind_ends fun name _ => ?_
      refine (sliceTo_safe hseam).bind_ends fun beforeLocal _ => ?_
      split
      · exact ends_ok _
      · split <;> exact ends_ok _

theorem collectionRootFromExpr_panicsWhen (C : CharClass) (expr : Rope) :
    (collectionRootFromExpr C expr).PanicsWhen
      (∃ text, stripTrailingBracketGroups (trim expr) = .ok text ∧ tears C text = true) := by
  refine ((stripTrailingBracketGroups_ends _).bind_panicsWhen fun text _ =>
    ((traversal_panicsWhen C text).bind (U:=fun _ => False) fun _ _ =>
      (ends_ok _).panicsWhen not_false)).congr ?_
  simp

theorem forBindingRef_panicsWhen (C : CharClass) (before : Rope) (head : String)
    (rest : List String) :
    (forBindingRef C before head rest).PanicsWhen (BindingTears C before head) := by
  rw [forBindingRef]
  obtain ⟨binder,hbinder⟩ := enclosingForBinder_ends C before
  rw [hbinder,bind_ok]
  cases binder with
  | none =>
    refine (ends_ok _).panicsWhen ?_
    rintro ⟨binders,collection,text,hfound,-⟩
    rw [hbinder] at hfound
    cases hfound
  | some binder =>
    obtain ⟨binders,collection⟩ := binder
    have hiff : BindingTears C before head ↔ head ∈ binders ∧ isValueBinder binders head = true ∧
        ∃ text, stripTrailingBracketGroups (trim collection) = .ok text ∧ tears C text = true := by
      constructor
      · rintro ⟨binders',collection',text,hfound,hmem,hvalue,h⟩
        rw [hbinder] at hfound
        cases hfound
        exact ⟨hmem,hvalue,text,h⟩
      · rintro ⟨hmem,hvalue,text,h⟩
        exact ⟨binders,collection,text,hbinder,hmem,hvalue,h⟩
    refine PanicsWhen.congr ?_ hiff.symm
    simp only
    split
    · rename_i hmem
      exact (ends_ok _).panicsWhen fun h => hmem h.1
    rename_i hmem
    split
    · rename_i hvalue
      refine ((collectionRootFromExpr_panicsWhen C collection).bind (U:=fun _ => False)
        fun root _ => ?_).congr ?_
      · cases root <;> exact (ends_ok _).panicsWhen not_false
      · simp [not_not.mp hmem,hvalue]
    · rename_i hvalue
      exact (ends_ok _).panicsWhen fun h => hvalue h.2.1

theorem resourceOrBinding_panicsWhen (C : CharClass) (before : Rope) (head : String)
    (rest : List String) (resource : CompletionContext) :
    (resourceOrBinding C before head rest resource).PanicsWhen
      (isBuiltinPrefix head = false ∧ BindingTears C before head) := by
  rw [resourceOrBinding]
  split
  · rename_i hbuiltin
    exact (ends_ok _).panicsWhen (by simp [hbuiltin])
  · rename_i hbuiltin
    refine ((forBindingRef_panicsWhen C before head rest).bind (U:=fun _ => False) fun _ _ =>
      (ends_ok _).panicsWhen not_false).congr ?_
    simp [hbuiltin]

theorem segmentsContext_panicsWhen (C : CharClass) (before : Rope) (segs : List String) :
    (segmentsContext C before segs).PanicsWhen (SegmentsTear C before segs) := by
  have hbuiltin : ∀ {head rest}, isBuiltinPrefix head = true →
      ¬SegmentsTear C before (head :: rest) := by
    rintro head rest htrue ⟨head',rest',hsegs,-,hfalse,-⟩
    cases hsegs
    rw [htrue] at hfalse
    cases hfalse
  have hbinding : ∀ head rest, rest.length ≤ 1 → (SegmentsTear C before (head :: rest) ↔
      isBuiltinPrefix head = false ∧ BindingTears C before head) := by
    intro head rest hrest
    constructor
    · rintro ⟨head',rest',hsegs,-,h⟩
      cases hsegs
      exact h
    · exact fun h => ⟨head,rest,rfl,hrest,h⟩
  unfold segmentsContext
  split
  case h_9 =>
    exact ((enclosingResourceType_ends C before).bind fun _ _ => ends_ok _).panicsWhen
      (hbuiltin (by decide))
  case h_14 =>
    exact (resourceOrBinding_panicsWhen C before _ [] _).congr (hbinding _ [] (Nat.zero_le 1)).symm
  case h_15 n _ _ _ _ =>
    exact (resourceOrBinding_panicsWhen C before _ [_] _).congr (hbinding _ [_] (le_refl 1)).symm
  case h_16 =>
    rename_i hone htwo
    refine (ends_ok _).panicsWhen ?_
    rintro ⟨head,rest,hsegs,hlen,-⟩
    cases rest with
    | nil => exact hone head hsegs
    | cons n rest =>
      have hnil : rest = [] := List.length_eq_zero_iff.mp (by simpa using hlen)
      exact htwo head n (by rw [hsegs,hnil])
  all_goals exact (ends_ok _).panicsWhen (hbuiltin (by decide))

theorem stripSuffix_colons_of_dot {trimmed front : Rope} (h : stripSuffix "." trimmed = some front) :
    stripSuffix "::" trimmed = none := by
  refine Option.eq_none_iff_forall_ne_some.mpr fun head hhead => ?_
  have hlast := (stripSuffix_eq_some.mp h).symm.trans (stripSuffix_eq_some.mp hhead)
  have hchar := congrArg List.getLast? hlast
  simp at hchar

theorem referencePrefixContext_panicsWhen (C : CharClass) (before : Rope) :
    (referencePrefixContext C before).PanicsWhen (ReferenceTears C before) := by
  rw [referencePrefixContext]
  generalize htrimmed : before.rdropWhile (isIdent C) = trimmed
  have hprovider := providerFunctionPrefixContext_panicsWhen C trimmed
  cases hdot : stripSuffix "." trimmed with
  | none =>
    refine (hprovider.bind (U:=fun _ => False) fun r _ => ?_).congr ?_
    · cases r <;> exact (ends_ok _).panicsWhen not_false
    · simp [ReferenceTears,htrimmed,hdot]
  | some front =>
    have hcolons : stripSuffix "::" trimmed = none := stripSuffix_colons_of_dot hdot
    have hnone : providerFunctionPrefixContext C trimmed = .ok none := by
      rw [providerFunctionPrefixContext,hcolons]
      rfl
    simp only [hnone,bind_ok]
    refine ((stripTrailingBracketGroups_ends front).bind_panicsWhen fun text _ =>
      (traversal_panicsWhen C text).bind fun segs _ =>
        segmentsContext_panicsWhen C before segs).congr ?_
    simp [ReferenceTears,ProviderTears,htrimmed,hdot,hcolons]

end conditions

end Completion
end TerraformLs
