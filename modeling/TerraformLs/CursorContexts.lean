import TerraformLs.CursorScanners

/-! The contexts a cursor has by the block and the attribute it stands in. -/
namespace TerraformLs
namespace Completion

open Outcome Loops Rope Recovery GitRefs

/-- Whether the cursor is inside of a string, and where the open string begins. -/
structure QuoteScan where
  pos : ℕ
  inString : Bool
  start : Option ℕ

def quoteStep (bs : List UInt8) (s : QuoteScan) : Scan (QuoteScan ⊕ QuoteScan) :=
  if s.pos < bs.length then do
    let b ← index bs s.pos
    if b = byte '\\' ∧ s.inString ∧ s.pos + 1 < bs.length then
      return .inl { s with pos := s.pos + 2 }
    else if b = byte '"' then
      if s.inString then return .inl ⟨s.pos + 1,false,none⟩
      else return .inl ⟨s.pos + 1,true,some s.pos⟩
    else return .inl { s with pos := s.pos + 1 }
  else return .inr s

def unterminatedStringOpen (before : Rope) : Scan (Option (ℕ × Bool)) := do
  let s ← loop (quoteStep (bytes before)) (lenBytes before + 1) ⟨0,false,none⟩
  return s.start.map fun start => (start,s.inString)

/-- The search goes on behind the first letter of what was found. -/
def skipSource (rest : Rope) (idx : ℕ) : Scan (Rope ⊕ Option String) := do
  let rest ← sliceFrom rest (idx+1)
  return .inl rest

def precededByIdent (bs : List UInt8) (idx : ℕ) : Scan Bool :=
  if 1 ≤ idx then do
    let c ← index bs (idx-1)
    return isAsciiAlphanumeric c || c = byte '_'
  else return false

def sourceAttrStep (rest : Rope) : Scan (Rope ⊕ Option String) :=
  match findBytes "source" rest with
  | none => return .inr none
  | some idx => do
    let preceded ← precededByIdent (bytes rest) idx
    if preceded then skipSource rest idx
    else do
      let tail ← sliceFrom rest (idx + 6)
      let trimmed := trimStart tail
      if trimmed.head? ≠ some '=' then skipSource rest idx
      else do
        let afterEq ← sliceFrom trimmed 1
        let afterEq := trimStart afterEq
        if (bytes afterEq).head? ≠ some (byte '"') then skipSource rest idx
        else do
          let inner ← sliceFrom afterEq 1
          match findBytes "\"" inner with
          | some stop => do
            let source ← sliceTo inner stop
            return .inr (some (String.ofList source))
          | none => return .inr none

def scanBodyForSourceAttr (body : Rope) : Scan (Option String) :=
  loop sourceAttrStep (lenBytes body + 1) body

def siblingSource (before : Rope) (stringOpen i : ℕ) (_ : Unit) : Scan (Unit ⊕ Option String) := do
  let body ← slice before (i+1) stringOpen
  let source ← scanBodyForSourceAttr body
  return .inr source

def extractSiblingSource (before : Rope) (stringOpen : ℕ) : Scan (Option String) :=
  walkBack (bytes before) skipNone (siblingSource before stringOpen) stringOpen 0 ()

/-- The brackets that are open in the body of a block, and the last `=` outside of them. -/
structure TypeScan where
  pos : ℕ
  paren : ℤ
  brace : ℤ
  bracket : ℤ
  inString : Bool
  lastEq : Option ℕ

namespace TypeScan

def outside (s : TypeScan) : Bool := s.paren = 0 && s.brace = 0 && s.bracket = 0

/-- A byte outside of the strings. -/
def read (s : TypeScan) (b : UInt8) : TypeScan :=
  if b = byte '"' then { s with inString := true }
  else if b = byte '(' then { s with paren := s.paren + 1 }
  else if b = byte ')' then { s with paren := s.paren - 1 }
  else if b = byte '{' then { s with brace := s.brace + 1 }
  else if b = byte '}' then { s with brace := s.brace - 1 }
  else if b = byte '[' then { s with bracket := s.bracket + 1 }
  else if b = byte ']' then { s with bracket := s.bracket - 1 }
  else if b = byte '=' ∧ s.outside then { s with lastEq := some s.pos }
  else if b = byte '\n' ∧ s.outside then { s with lastEq := none }
  else s

end TypeScan

def typeStep (bs : List UInt8) (s : TypeScan) : Scan (TypeScan ⊕ TypeScan) :=
  if s.pos < bs.length then do
    let b ← index bs s.pos
    if s.inString then
      if b = byte '\\' ∧ s.pos + 1 < bs.length then return .inl { s with pos := s.pos + 2 }
      else return .inl { s with pos := s.pos + 1, inString := b ≠ byte '"' }
    else return .inl { s.read b with pos := s.pos + 1 }
  else return .inr s

/-- The open braces of a text; a brace that closes none is passed over. -/
def openBraces (s : Rope) : ℕ :=
  s.foldl (fun depth c => if c = '{' then depth + 1 else if c = '}' then depth - 1 else depth) 0

/-- The outermost `[` that is open at the end of a text. -/
def unmatchedBracketFrom (pos depth : ℕ) (found : Option ℕ) : Rope → Option ℕ
  | [] => if 0 < depth then found else none
  | c::s =>
    if c = '[' then unmatchedBracketFrom (pos + c.utf8Size) (depth+1)
      (if depth = 0 then some pos else found) s
    else if c = ']' then unmatchedBracketFrom (pos + c.utf8Size) (depth-1)
      (if depth ≤ 1 then none else found) s
    else unmatchedBracketFrom (pos + c.utf8Size) depth found s

def lastUnmatchedBracket (s : Rope) : Option ℕ := unmatchedBracketFrom 0 0 none s

def isTopLevel (before : Rope) : Bool := openBraces before = 0

/-- The endings after which an expression begins. -/
def exprStarts : List String :=
  ["=","(",",","?",":","[","!","+","-","*","/","%","&&","||","$\x7b"]

section contexts

variable (C : CharClass)

/-- The identifier at the end of a text. -/
def trailingIdent (header : Rope) : String := String.ofList (header.rtakeWhile (isIdent C))

/-- The value an open string has in its block. -/
def stringValueAt (before : Rope) (stringOpen : ℕ) (attrName : String) :
    Scan (Option CompletionContext) := do
  let head ← sliceTo before stringOpen
  match ← enclosingBlockContext C head with
  | none => return none
  | some enclosing => do
    let cursorPartial ← sliceFrom before (stringOpen+1)
    let cursorPartial := String.ofList cursorPartial
    match attrName,enclosing with
    | "source",.requiredProvidersEntryBody => return some .requiredProviderSourceValue
    | "version",.requiredProvidersEntryBody => do
      let source ← extractSiblingSource before stringOpen
      return some (.requiredProviderVersionValue source cursorPartial)
    | "required_version",.terraformBlockBody => return some (.requiredVersionValue cursorPartial)
    | "version",.moduleBody _ => do
      let source ← extractSiblingSource before stringOpen
      return some (.moduleVersionValue source cursorPartial)
    | _,_ => return none

def stringValueContext (before : Rope) : Scan (Option CompletionContext) := do
  match ← unterminatedStringOpen before with
  | none => return none
  | some (stringOpen,inString) =>
    if !inString then return none
    else do
      let header ← sliceTo before stringOpen
      match stripSuffix "=" (trimEnd header) with
      | none => return none
      | some header =>
        let attrName := trailingIdent C (trimEnd header)
        if attrName = "" then return none else stringValueAt C before stringOpen attrName

def typeExpressionContext (before : Rope) : Scan (Option CompletionContext) := do
  match ← findVariableBlockOpen before with
  | none => return none
  | some blockOpen => do
    let body ← sliceFrom before (blockOpen+1)
    let s ← loop (typeStep (bytes body)) (lenBytes body + 1) ⟨0,0,0,0,false,none⟩
    match s.lastEq with
    | none => return none
    | some eqPos => do
      let head ← sliceTo body eqPos
      return if trailingIdent C (trimEnd head) = "type" then some .variableTypeValue else none

def attributeValueContext (beforeEq : Rope) : Scan (Option CompletionContext) :=
  match stripSuffix "=" beforeEq with
  | none => return none
  | some before => do
    let before := trimEnd before
    let attrName := trailingIdent C before
    if attrName = "" then return none
    else do
      let header ← classifyBlockHeaderFrom before
      return header.map fun h => .attributeValue h.2 attrName

def expressionContext (before : Rope) : Scan (Option CompletionContext) :=
  let trimmed := trimEnd (before.rdropWhile fun c =>
    C.isAlphanumeric c || c = '_' || c = ':' || c = '.')
  if trimmed = [] then return none
  else if openBraces trimmed = 0 then return none
  else if !exprStarts.any fun start => (stripSuffix start trimmed).isSome then return none
  else if (stripSuffix "=" trimmed).isSome then do
    match ← attributeValueContext C trimmed with
    | some ctx => return some ctx
    | none => return some .expressionRoot
  else return some .functionCall

def metaListContext (before : Rope) : Scan (Option CompletionContext) :=
  match lastUnmatchedBracket before with
  | none => return none
  | some bracket => do
    let head ← sliceTo before bracket
    match stripSuffix "=" (trimEnd head) with
    | none => return none
    | some header =>
      let attr := trailingIdent C (trimEnd header)
      if attr = "ignore_changes" then do
        let owner ← classifyBlockHeaderFrom head
        return owner.map fun h => .ignoreChangesList h.2
      else if attr = "depends_on" ∨ attr = "replace_triggered_by" then return some .dependsOnList
      else return none

end contexts

/-- The label the cursor is in, when it is in one. -/
def labelAt (inLabel : Bool) (labelIdx : ℕ) : Rope → Option ℕ
  | [] => if inLabel then some labelIdx else none
  | c::s =>
    if c = '"' then labelAt (!inLabel) (if inLabel then labelIdx + 1 else labelIdx) s
    else labelAt inLabel labelIdx s

def labelIndexAtCursor (line : Rope) : Scan (Option ℕ) :=
  match findBytes " " line with
  | none => return none
  | some i => do
    let afterKeyword ← sliceFrom line i
    return labelAt false 0 afterKeyword

def blockOpenerContext (before : Rope) : Scan (Option CompletionContext) := do
  let line ← lastLine before
  let trimmed := trimStart line
  let isResource := "resource ".toList.isPrefixOf trimmed
  let isData := "data ".toList.isPrefixOf trimmed
  if !isResource && !isData then return none
  else do
    match ← labelIndexAtCursor line with
    | some 0 => return some (if isResource then .resourceType else .dataSourceType)
    | some _ => return some .unknown
    | none => return none

/-! None of them panics. -/

section safety

variable {before : Rope}

theorem quoteStep_safe {bs : List UInt8} {s : QuoteScan}
    (h : ∀ k, s.start = some k → bs[k]? = some (byte '"')) :
    (quoteStep bs s).Safe fun r => (∀ t, r = .inl t →
      (∀ k, t.start = some k → bs[k]? = some (byte '"')) ∧ bs.length - t.pos < bs.length - s.pos) ∧
        ∀ t, r = .inr t → ∀ k, t.start = some k → bs[k]? = some (byte '"') := by
  rw [quoteStep]
  split
  · rename_i hlt
    refine (index_safe hlt).bind fun b hb => ?_
    split
    · exact safe_next ⟨h,by simp only; omega⟩
    split
    · rename_i hquote
      rw [hquote] at hb
      split
      · exact safe_next ⟨by simp,by simp only; omega⟩
      · exact safe_next ⟨fun k hk => by rwa [← Option.some.inj hk],by simp only; omega⟩
    · exact safe_next ⟨h,by simp only; omega⟩
  · exact safe_last h

theorem unterminatedStringOpen_safe (before : Rope) : (unterminatedStringOpen before).Safe
    fun r => ∀ k inString, r = some (k,inString) → (bytes before)[k]? = some (byte '"') := by
  have hlen := length_bytes before
  refine (loop_safe (m:=fun s : QuoteScan => (bytes before).length - s.pos)
    (fun s hs => quoteStep_safe hs) (by simp) (by simp only; omega)).bind fun s hs => safe_ok ?_
  intro k inString hk
  obtain ⟨start,hstart,heq⟩ := Option.map_eq_some_iff.mp hk
  cases heq
  exact hs k hstart

theorem precededByIdent_ends {bs : List UInt8} {idx : ℕ} (h : idx ≤ bs.length) :
    (precededByIdent bs idx).Ends := by
  rw [precededByIdent]
  split
  · exact (index_safe (by omega)).bind_ends fun _ _ => ends_ok _
  · exact ends_ok _

/-- A round leaves less of the body to search. -/
theorem sourceAttrStep_safe (rest : Rope) : (sourceAttrStep rest).Safe fun r =>
    (∀ rest', r = .inl rest' → True ∧ lenBytes rest' < lenBytes rest) ∧ ∀ a, r = .inr a → True := by
  rw [sourceAttrStep]
  split
  · exact safe_last trivial
  rename_i idx hidx
  have hoccurs := findBytes_occurs hidx
  have hle : idx + 6 ≤ lenBytes rest := hoccurs.le
  have hlen := length_bytes rest
  have hskip : (skipSource rest idx).Safe fun r =>
      (∀ rest', r = .inl rest' → True ∧ lenBytes rest' < lenBytes rest) ∧
        ∀ a, r = .inr a → True := by
    refine (sliceFrom_safe (hoccurs.seam_succ (size_of_ascii (by decide)))).bind fun rest' h => ?_
    exact safe_next ⟨trivial,by omega⟩
  refine (precededByIdent_ends (by omega)).safe.bind fun preceded _ => ?_
  split
  · exact hskip
  refine (sliceFrom_safe hoccurs.seam_after).bind fun tail _ => ?_
  simp only
  split
  · exact hskip
  rename_i heq
  obtain ⟨value,hvalue⟩ := List.head?_eq_some_iff.mp (not_not.mp heq)
  have hseam : Seam (trimStart tail) 1 := ⟨['='],value,hvalue,rfl⟩
  refine (sliceFrom_safe hseam).bind fun afterEq _ => ?_
  split
  · exact hskip
  rename_i hquote
  rw [not_not,List.head?_eq_getElem?] at hquote
  refine (sliceFrom_safe (seam_ascii hquote (by decide)).2).bind fun inner _ => ?_
  split
  · rename_i stop hstop
    exact (sliceTo_safe (findBytes_occurs hstop).seam).bind fun _ _ => safe_last trivial
  · exact safe_last trivial

theorem scanBodyForSourceAttr_ends (body : Rope) : (scanBodyForSourceAttr body).Ends :=
  (loop_safe (P:=fun _ => True) (fun rest _ => sourceAttrStep_safe rest) trivial
    (Nat.lt_succ_self _)).ends

theorem extractSiblingSource_ends {k : ℕ} (h : (bytes before)[k]? = some (byte '"')) :
    (extractSiblingSource before k).Ends := by
  refine walkBack_ends (lt_of_getElem? h).le (fun i _ => skipNone_ends i) (fun i _ hlt hi => ?_) 0 ()
  refine (slice_safe (seam_ascii hi (by decide)).2 (seam_ascii h (by decide)).1 hlt).bind_ends
    fun body _ => ?_
  exact (scanBodyForSourceAttr_ends body).bind fun _ _ => ends_ok _

theorem stringValueAt_ends (C : CharClass) {k : ℕ} (h : (bytes before)[k]? = some (byte '"'))
    (attrName : String) : (stringValueAt C before k attrName).Ends := by
  have hseam := seam_ascii h (by decide)
  rw [stringValueAt]
  refine (sliceTo_safe hseam.1).bind_ends fun head _ => ?_
  refine (enclosingBlockContext_ends C head).bind fun enclosing _ => ?_
  split
  · exact ends_ok _
  refine (sliceFrom_safe hseam.2).bind_ends fun cursorPartial _ => ?_
  simp only
  split
  · exact ends_ok _
  · exact (extractSiblingSource_ends h).bind fun _ _ => ends_ok _
  · exact ends_ok _
  · exact (extractSiblingSource_ends h).bind fun _ _ => ends_ok _
  · exact ends_ok _

theorem stringValueContext_ends (C : CharClass) (before : Rope) :
    (stringValueContext C before).Ends := by
  rw [stringValueContext]
  refine (unterminatedStringOpen_safe before).bind_ends fun r hr => ?_
  split
  · exact ends_ok _
  rename_i k inString
  have hquote := hr k inString rfl
  split
  · exact ends_ok _
  refine (sliceTo_safe (seam_ascii hquote (by decide)).1).bind_ends fun header _ => ?_
  split
  · exact ends_ok _
  simp only
  split
  · exact ends_ok _
  · exact stringValueAt_ends C hquote _

theorem read_lastEq {bs : List UInt8} {s : TypeScan} {b : UInt8} (hb : bs[s.pos]? = some b)
    (h : ∀ k, s.lastEq = some k → bs[k]? = some (byte '=')) :
    ∀ k, (s.read b).lastEq = some k → bs[k]? = some (byte '=') := by
  rw [TypeScan.read]
  split_ifs <;> try exact h
  · rename_i heq
    rw [heq.1] at hb
    exact fun k hk => by rwa [← Option.some.inj hk]
  · simp

theorem typeStep_safe {bs : List UInt8} {s : TypeScan}
    (h : ∀ k, s.lastEq = some k → bs[k]? = some (byte '=')) :
    (typeStep bs s).Safe fun r => (∀ t, r = .inl t →
      (∀ k, t.lastEq = some k → bs[k]? = some (byte '=')) ∧ bs.length - t.pos < bs.length - s.pos) ∧
        ∀ t, r = .inr t → ∀ k, t.lastEq = some k → bs[k]? = some (byte '=') := by
  rw [typeStep]
  split
  · rename_i hlt
    refine (index_safe hlt).bind fun b hb => ?_
    split
    · split
      · exact safe_next ⟨h,by simp only; omega⟩
      · exact safe_next ⟨h,by simp only; omega⟩
    · exact safe_next ⟨read_lastEq hb h,by simp only; omega⟩
  · exact safe_last h

theorem typeExpressionContext_ends (C : CharClass) (before : Rope) :
    (typeExpressionContext C before).Ends := by
  rw [typeExpressionContext]
  refine (findVariableBlockOpen_safe before).bind_ends fun r hr => ?_
  split
  · exact ends_ok _
  rename_i blockOpen
  refine (sliceFrom_safe (seam_ascii (hr blockOpen rfl) (by decide)).2).bind_ends fun body _ => ?_
  have hlen := length_bytes body
  refine (loop_safe (m:=fun s : TypeScan => (bytes body).length - s.pos)
    (fun s hs => typeStep_safe hs) (by simp) (by simp only; omega)).bind_ends fun s hs => ?_
  split
  · exact ends_ok _
  · rename_i eqPos heq
    exact (sliceTo_safe (seam_ascii (hs eqPos heq) (by decide)).1).bind_ends fun _ _ => ends_ok _

theorem attributeValueContext_ends (C : CharClass) (beforeEq : Rope) :
    (attributeValueContext C beforeEq).Ends := by
  rw [attributeValueContext]
  split
  · exact ends_ok _
  · simp only
    split
    · exact ends_ok _
    · exact (classifyBlockHeaderFrom_ends _).bind fun _ _ => ends_ok _

theorem expressionContext_ends (C : CharClass) (before : Rope) :
    (expressionContext C before).Ends := by
  rw [expressionContext]
  split
  · exact ends_ok _
  split
  · exact ends_ok _
  split
  · exact ends_ok _
  split
  · refine (attributeValueContext_ends C _).bind fun ctx _ => ?_
    split <;> exact ends_ok _
  · exact ends_ok _

theorem unmatchedBracketFrom_seam {whole front s : Rope} (hwhole : whole = front ++ s) {depth : ℕ}
    {found : Option ℕ} (hfound : ∀ k, found = some k → Seam whole k) :
    ∀ k, unmatchedBracketFrom (lenBytes front) depth found s = some k → Seam whole k := by
  induction s generalizing front depth found with
  | nil =>
    intro k hk
    rw [unmatchedBracketFrom] at hk
    split at hk
    · exact hfound k hk
    · cases hk
  | cons c s ih =>
    have hnext : lenBytes front + c.utf8Size = lenBytes (front ++ [c]) := by simp
    have hsplit : whole = (front ++ [c]) ++ s := by simp [hwhole]
    rw [unmatchedBracketFrom,hnext]
    split_ifs
    · exact ih hsplit fun k hk => by
        rw [← Option.some.inj hk]
        exact ⟨front,c :: s,hwhole,rfl⟩
    · exact ih hsplit hfound
    · exact ih hsplit (by simp)
    · exact ih hsplit hfound
    · exact ih hsplit hfound

theorem metaListContext_ends (C : CharClass) (before : Rope) : (metaListContext C before).Ends := by
  rw [metaListContext]
  split
  · exact ends_ok _
  rename_i bracket hbracket
  have hseam : Seam before bracket :=
    unmatchedBracketFrom_seam (List.nil_append before).symm (by simp) bracket hbracket
  refine (sliceTo_safe hseam).bind_ends fun head _ => ?_
  split
  · exact ends_ok _
  simp only
  split
  · exact (classifyBlockHeaderFrom_ends head).bind fun _ _ => ends_ok _
  · split <;> exact ends_ok _

theorem labelIndexAtCursor_ends (line : Rope) : (labelIndexAtCursor line).Ends := by
  rw [labelIndexAtCursor]
  split
  · exact ends_ok _
  · rename_i i hi
    exact (sliceFrom_safe (findBytes_occurs hi).seam).bind_ends fun _ _ => ends_ok _

theorem blockOpenerContext_ends (before : Rope) : (blockOpenerContext before).Ends := by
  rw [blockOpenerContext]
  refine (lastLine_ends before).bind fun line _ => ?_
  simp only
  split
  · exact ends_ok _
  · refine (labelIndexAtCursor_ends line).bind fun label _ => ?_
    split <;> exact ends_ok _

end safety

end Completion
end TerraformLs
