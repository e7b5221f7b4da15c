import TerraformLs.CursorPanics

/-! The classification of a cursor from the text before it. Comments are blanked first,
and the first context that applies is the answer. -/
namespace TerraformLs
namespace Completion

open Outcome Loops Rope Recovery

/-- The answer of the first classifier that has one. -/
def orElse (x : Scan (Option CompletionContext)) (rest : Scan CompletionContext) :
    Scan CompletionContext := do
  match ← x with
  | some ctx => return ctx
  | none => rest

def outsideString (inStringLiteral : Bool) (x : Scan (Option CompletionContext)) :
    Scan (Option CompletionContext) := if inStringLiteral then return none else x

def blankAt (masked : Bool) (buf : List UInt8) (i : ℕ) : Scan (List UInt8) :=
  if masked then store buf i space else return buf

/-- The masked bytes give way to spaces. -/
def blankMasked : ℕ → List Bool → List UInt8 → Scan (List UInt8)
  | _, [], buf => return buf
  | i, masked::mask, buf => do
    let buf ← blankAt masked buf i
    blankMasked (i+1) mask buf

/-- The text without its comments. -/
def cleaned (rawBefore : Rope) (cmask : List Bool) : Scan Rope :=
  if cmask.any id then do
    let buf ← blankMasked 0 cmask (bytes rawBefore)
    return (fromUtf8 buf).getD rawBefore
  else return rawBefore

def cursorInComment (cmask : List Bool) (byteOffset : ℕ) : Bool :=
  0 < byteOffset && cmask.getD (byteOffset - 1) false

section classification

variable (C : CharClass)

/-- The classifiers after those of string values and references. -/
def classifyPosition (before : Rope) : Scan CompletionContext := do
  let inStringLiteral ← cursorInStringLiteral (bytes before)
  orElse (outsideString inStringLiteral (metaListContext C before)) <|
    orElse (typeExpressionContext C before) <|
      orElse (outsideString inStringLiteral (expressionContext C before)) <|
        orElse (blockOpenerContext before) <|
          if inStringLiteral then return .unknown
          else orElse (enclosingBlockContext C before) <|
            return if isTopLevel before then .topLevel else .unknown

def classifyBefore (before : Rope) : Scan CompletionContext :=
  orElse (stringValueContext C before) <|
    orElse (bracketIndexContext C before) <|
      orElse (referencePrefixContext C before) (classifyPosition C before)

def classifyContext (source : Rope) (byteOffset : ℕ) : Scan CompletionContext :=
  if lenBytes source < byteOffset then return .unknown
  else do
    let rawBefore ← sliceTo source byteOffset
    let cmask ← commentMask (bytes rawBefore)
    if cursorInComment cmask byteOffset then return .unknown
    else do
      let before ← cleaned rawBefore cmask
      classifyBefore C before

/-- The cursor is in code or in a string that is no known value, and a reference before it is
cut inside of a character. -/
def Tears (source : Rope) (byteOffset : ℕ) : Prop :=
  ∃ rawBefore cmask before, sliceTo source byteOffset = .ok rawBefore ∧
    commentMask (bytes rawBefore) = .ok cmask ∧ cursorInComment cmask byteOffset = false ∧
    cleaned rawBefore cmask = .ok before ∧ stringValueContext C before = .ok none ∧
    (BracketTears C before ∨ ReferenceTears C before)

end classification

section panics

variable {C : CharClass} {before : Rope}

theorem blankMasked_ends {mask : List Bool} {i : ℕ} {buf : List UInt8}
    (h : i + mask.length ≤ buf.length) : (blankMasked i mask buf).Ends := by
  induction mask generalizing i buf with
  | nil => exact ends_ok buf
  | cons masked mask ih =>
    rw [List.length_cons] at h
    have hblank : (blankAt masked buf i).Safe fun buf' => buf'.length = buf.length := by
      rw [blankAt]
      split
      · exact store_safe (by omega)
      · exact safe_ok rfl
    exact hblank.bind_ends fun buf' hbuf => ih (by omega)

theorem cleaned_ends {raw : Rope} {mask : List Bool} (h : mask.length = (bytes raw).length) :
    (cleaned raw mask).Ends := by
  rw [cleaned]
  split
  · exact (blankMasked_ends (by omega)).bind fun _ _ => ends_ok _
  · exact ends_ok raw

theorem orElse_ends {x : Scan (Option CompletionContext)} {rest : Scan CompletionContext}
    (hx : x.Ends) (hrest : rest.Ends) : (orElse x rest).Ends := by
  refine hx.bind fun r _ => ?_
  cases r with
  | some ctx => exact ends_ok ctx
  | none => exact hrest

theorem orElse_panicsWhen {x : Scan (Option CompletionContext)} {rest : Scan CompletionContext}
    {T U : Prop} (hx : x.PanicsWhen T) (hrest : rest.PanicsWhen U) :
    (orElse x rest).PanicsWhen (T ∨ x = .ok none ∧ U) := by
  refine (hx.bind (U:=fun r => r = none ∧ U) fun r _ => ?_).congr ?_
  · cases r with
    | some ctx => exact (ends_ok ctx).panicsWhen (by simp)
    | none => exact hrest.congr (by simp)
  · simp

theorem outsideString_ends {x : Scan (Option CompletionContext)} (b : Bool) (h : x.Ends) :
    (outsideString b x).Ends := by
  rw [outsideString]
  split
  · exact ends_ok _
  · exact h

theorem classifyPosition_ends (C : CharClass) (before : Rope) :
    (classifyPosition C before).Ends := by
  refine (cursorInStringLiteral_ends (bytes before)).bind fun inString _ => ?_
  refine orElse_ends (outsideString_ends _ (metaListContext_ends C before)) ?_
  refine orElse_ends (typeExpressionContext_ends C before) ?_
  refine orElse_ends (outsideString_ends _ (expressionContext_ends C before)) ?_
  refine orElse_ends (blockOpenerContext_ends before) ?_
  split
  · exact ends_ok _
  · exact orElse_ends (enclosingBlockContext_ends C before) (ends_ok _)

/-- A text that ends in a dot or a colon has no key that is being typed. -/
theorem beforeKey_of_mark {front : Rope} {c : Char}
    (h : before.rdropWhile (isIdent C) = front ++ [c]) (hc : isWord C c = false) (hquote : c ≠ '"') :
    beforeKey C before = front ++ [c] := by
  have hsplit : before = (front ++ [c]) ++ before.rtakeWhile (isIdent C) := by
    rw [← h]
    exact List.rdropWhile_append_rtakeWhile.symm
  have hall : ∀ d ∈ before.rtakeWhile (isIdent C), (isWord C d || decide (d = '"')) = true := by
    intro d hd
    have hident : isIdent C d = true := List.mem_rtakeWhile_imp hd
    rw [isIdent] at hident
    rw [isWord,hident]
    rfl
  rw [beforeKey,hsplit,rdropWhile_append_of_all hall]
  exact List.rdropWhile_concat_neg _ _ _ (by simp [hc,hquote])

/-- Where a reference is cut, no key of a bracket is being typed. -/
theorem bracketIndexContext_of_referenceTears (h : ReferenceTears C before) :
    bracketIndexContext C before = .ok none := by
  have hmark : ∃ front c, before.rdropWhile (isIdent C) = front ++ [c] ∧ (c = ':' ∨ c = '.') := by
    rcases h with ⟨head,hhead,-⟩ | ⟨front,_,hfront,-⟩
    · exact ⟨head ++ [':'],':',by simpa using stripSuffix_eq_some.mp hhead,.inl rfl⟩
    · exact ⟨front,'.',stripSuffix_eq_some.mp hfront,.inr rfl⟩
  obtain ⟨front,c,hsplit,hc⟩ := hmark
  have hword : isWord C c = false := by
    rcases hc with rfl | rfl
    · simp [isWord,C.ascii ':' (by decide)]
    · simp [isWord,C.ascii '.' (by decide)]
  have hnone : stripSuffix "[" (beforeKey C before) = none := by
    rw [beforeKey_of_mark hsplit hword (by rcases hc with rfl | rfl <;> decide)]
    refine Option.eq_none_iff_forall_ne_some.mpr fun cursor hcursor => ?_
    have hlast := congrArg List.getLast? (stripSuffix_eq_some.mp hcursor)
    rcases hc with rfl | rfl <;> simp at hlast
  rw [bracketIndexContext,hnone]
  rfl

theorem classifyBefore_panicsWhen (C : CharClass) (before : Rope) :
    (classifyBefore C before).PanicsWhen (stringValueContext C before = .ok none ∧
      (BracketTears C before ∨ ReferenceTears C before)) := by
  have hposition := (classifyPosition_ends C before).panicsWhen not_false
  have hreference := orElse_panicsWhen (referencePrefixContext_panicsWhen C before) hposition
  have hbracket := orElse_panicsWhen (bracketIndexContext_panicsWhen C before) hreference
  have hvalue := (stringValueContext_ends C before).panicsWhen not_false
  refine (orElse_panicsWhen hvalue hbracket).congr ?_
  constructor
  · rintro (hfalse | ⟨hnone,hbrackets | ⟨-,href | ⟨-,hfalse⟩⟩⟩)
    · exact hfalse.elim
    · exact ⟨hnone,.inl hbrackets⟩
    · exact ⟨hnone,.inr href⟩
    · exact hfalse.elim
  · rintro ⟨hnone,hbrackets | href⟩
    · exact .inr ⟨hnone,.inl hbrackets⟩
    · exact .inr ⟨hnone,.inr ⟨bracketIndexContext_of_referenceTears href,.inl href⟩⟩

theorem classifyContext_panicsWhen {source : Rope} {byteOffset : ℕ}
    (h : source.onBoundary byteOffset = true) :
    (classifyContext C source byteOffset).PanicsWhen (Tears C source byteOffset) := by
  have hseam := seam_iff.mpr h
  rw [classifyContext,if_neg (not_lt.mpr hseam.le)]
  obtain ⟨raw,hraw⟩ := (sliceTo_safe hseam).ends
  obtain ⟨mask,hmask,hlen⟩ := commentMask_safe (bytes raw)
  have hiff : Tears C source byteOffset ↔ cursorInComment mask byteOffset = false ∧
      ∃ before, cleaned raw mask = .ok before ∧ stringValueContext C before = .ok none ∧
        (BracketTears C before ∨ ReferenceTears C before) := by
    constructor
    · rintro ⟨raw',mask',before,hraw',hmask',hcomment,hrest⟩
      rw [hraw] at hraw'
      cases hraw'
      rw [hmask] at hmask'
      cases hmask'
      exact ⟨hcomment,before,hrest⟩
    · rintro ⟨hcomment,before,hrest⟩
      exact ⟨raw,mask,before,hraw,hmask,hcomment,hrest⟩
  rw [hraw,bind_ok,hmask,bind_ok]
  refine PanicsWhen.congr ?_ hiff.symm
  split
  · rename_i hcomment
    exact (ends_ok _).panicsWhen (by simp [hcomment])
  · rename_i hcomment
    refine ((cleaned_ends hlen).bind_panicsWhen fun before _ =>
      classifyBefore_panicsWhen C before).congr ?_
    simp [hcomment]

/-- The classification always comes to an end, without a panic exactly when no character is cut. -/
theorem classifyContext_ends_iff (C : CharClass) (source : Rope) (byteOffset : ℕ)
    (h : source.onBoundary byteOffset = true) :
    classifyContext C source byteOffset ≠ .err .unfinished ∧
      ((classifyContext C source byteOffset).Ends ↔ ¬Tears C source byteOffset) :=
  ⟨(classifyContext_panicsWhen h).ne_err _,(classifyContext_panicsWhen h).ends_iff⟩

/-- Letters, and the feminine ordinal, whose code is the last byte of a sheqel sign. -/
def ordinalClass : CharClass where
  isAlphanumeric c := c.isAlphanum || c = 'ª'
  ascii c hc := by
    have hne : c ≠ 'ª' := fun heq => by
      rw [heq] at hc
      exact absurd hc (by decide)
    simp [hne]

theorem attribute_reference_ends : onBoundary "x = var.é".toList 8 = true ∧
    (classifyContext ordinalClass "x = var.é".toList 8 ≠ .err .unfinished ∧
      ((classifyContext ordinalClass "x = var.é".toList 8).Ends ↔
        ¬Tears ordinalClass "x = var.é".toList 8)) :=
  ⟨by decide,classifyContext_ends_iff ordinalClass _ 8 (by decide)⟩

theorem arrow_before_colons_panics :
    (onBoundary "→::".toList 5 = true ∧
      classifyContext ordinalClass "→::".toList 5 = .panicked) ∧
    onBoundary "₪.".toList 4 = true ∧
      classifyContext ordinalClass "₪.".toList 4 = .panicked :=
  ⟨⟨by decide,by rfl⟩,by decide,by rfl⟩

end panics

end Completion
end TerraformLs
