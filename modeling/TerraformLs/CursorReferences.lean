import TerraformLs.CursorContexts

/-! The references that stand before the cursor. Identifiers are walked over byte by byte,
each byte read as a character of its own. -/
namespace TerraformLs
namespace Completion

open Outcome Loops Rope Recovery GitRefs

/-- `b as char`. -/
def latin (b : UInt8) : Char := Char.ofNat b.toNat

def isBuiltinPrefix (s : String) : Bool :=
  s ∈ ["var","local","module","data","self","count","each","terraform","path"]

/-- The root of a bracket index or of the collection of a loop. -/
def indexRoot : List String → Option IndexRootRef
  | ["var",name] => some (.«variable» name)
  | ["local",name] => some (.«local» name)
  | ["module",name] => some (.«module» name)
  | ["data",t,n] => if isBuiltinPrefix t then none else some (.dataSource t n)
  | [t,n] => if isBuiltinPrefix t then none else some (.resource t n)
  | _ => none

/-- The bracket that the closing brackets from an offset on match. -/
def openingBracket (bs : List UInt8) : ℕ → ℕ → Scan (Option ℕ)
  | 0, _ => return none
  | i+1, depth => do
    let b ← index bs i
    if b = byte ']' then openingBracket bs i (depth+1)
    else if b = byte '[' then
      if depth - 1 = 0 then return some i else openingBracket bs i (depth-1)
    else openingBracket bs i depth

def groupStep (s : Rope) : Scan (Rope ⊕ Rope) :=
  match stripSuffix "]" s with
  | none => return .inr s
  | some trimmed => do
    match ← openingBracket (bytes trimmed) (lenBytes trimmed) 1 with
    | some cutAt => do
      let rest ← sliceTo trimmed cutAt
      return .inl rest
    | none => return .inr s

def stripTrailingBracketGroups (s : Rope) : Scan Rope := loop groupStep (lenBytes s + 1) s

def peelBracketStep (s : Rope) : Scan (Option (Rope × String)) :=
  match stripSuffix "]" s with
  | none => return none
  | some s =>
    match stripSuffix "\"" s with
    | none => return none
    | some s =>
      match rfindBytes "[\"" s with
      | none => return none
      | some start => do
        let key ← sliceFrom s (start+2)
        let rest ← sliceTo s start
        return some (rest,String.ofList key)

/-- The first `:` outside of the brackets. -/
def colonFrom (pos depth : ℕ) : Rope → Option ℕ
  | [] => none
  | c::s =>
    if c = '[' ∨ c = '{' ∨ c = '(' then colonFrom (pos + c.utf8Size) (depth+1) s
    else if c = ']' ∨ c = '}' ∨ c = ')' then colonFrom (pos + c.utf8Size) (depth-1) s
    else if c = ':' ∧ depth = 0 then some pos
    else colonFrom (pos + c.utf8Size) depth s

def topLevelColon (s : Rope) : Option ℕ := colonFrom 0 0 s

/-- The binder of a `for` expression that stands for the elements. -/
def isValueBinder (binders : List String) (head : String) : Bool :=
  match binders with
  | [b] => b = head
  | _ => binders[1]? = some head

structure SegmentScan where
  stop : ℕ
  segments : List String

section references

variable (C : CharClass)

def isIdentByte (b : UInt8) : Bool := isIdent C (latin b)

def isWordByte (b : UInt8) : Bool := isWord C (latin b)

/-- Walk back over the word that ends at an offset. -/
def wordStart (bs : List UInt8) : ℕ → Scan ℕ
  | 0 => return 0
  | i+1 => do
    let b ← index bs i
    if isWordByte C b then wordStart bs i else return i + 1

def segmentStep (text : Rope) (s : SegmentScan) : Scan (SegmentScan ⊕ List String) := do
  let start ← wordStart C (bytes text) s.stop
  if start = s.stop then return .inr s.segments.reverse
  else do
    let segment ← slice text start s.stop
    let segments := s.segments ++ [String.ofList segment]
    if start = 0 then return .inr segments.reverse
    else do
      let prev ← index (bytes text) (start-1)
      if latin prev = '.' then return .inl ⟨start - 1,segments⟩ else return .inr segments.reverse

def traversalSegmentsReverse (text : Rope) : Scan (List String) :=
  loop (segmentStep C text) (lenBytes text + 1) ⟨lenBytes text,[]⟩

def peelAttrStep (s : Rope) : Scan (Option (Rope × String)) :=
  if lenBytes s = 0 then return none
  else do
    let stop ← wordStart C (bytes s) (lenBytes s)
    if stop = lenBytes s ∨ stop = 0 then return none
    else do
      let dot ← index (bytes s) (stop-1)
      if latin dot ≠ '.' ∨ stop < 2 then return none
      else do
        let bracket ← index (bytes s) (stop-2)
        if latin bracket ≠ ']' then return none
        else do
          let ident ← sliceFrom s stop
          let rest ← sliceTo s (stop-1)
          return some (rest,String.ofList ident)

def peelStep (s : Rope × List PathStep) :
    Scan (Rope × List PathStep ⊕ Rope × List PathStep) := do
  match ← peelAttrStep C s.1 with
  | some (rest,ident) => return .inl (rest,s.2 ++ [.attr ident])
  | none => do
    match ← peelBracketStep s.1 with
    | some (rest,key) => return .inl (rest,s.2 ++ [.bracket key])
    | none => return .inr s

def peelSteps (cursor : Rope) : Scan (Rope × List PathStep) :=
  loop (peelStep C) (lenBytes cursor + 1) (cursor,[])

/-- What stands before the key that is being typed. -/
def beforeKey (before : Rope) : Rope := before.rdropWhile fun c => isWord C c || c = '"'

def bracketIndexContext (before : Rope) : Scan (Option CompletionContext) :=
  match stripSuffix "[" (beforeKey C before) with
  | none => return none
  | some cursor => do
    let (rest,path) ← peelSteps C cursor
    let segments ← traversalSegmentsReverse C rest
    return (indexRoot segments).map fun root => .indexKeyRef root path.reverse

def endsInIdent (s : Rope) : Bool := s.getLast?.any (isIdent C)

/-- The text ends in `provider` as a word of its own. -/
def endsInProvider (head : Rope) : Bool :=
  match stripSuffix "provider" head with
  | some beforeKw => !endsInIdent C beforeKw
  | none => false

/-- The offset behind the first byte of the last character that is in no identifier. -/
def localStart (head : Rope) : ℕ :=
  match head.rdropWhile (isIdent C) with
  | [] => 0
  | kept => lenBytes kept.dropLast + 1

def providerFunctionPrefixContext (trimmed : Rope) : Scan (Option CompletionContext) :=
  match stripSuffix "::" trimmed with
  | none => return none
  | some head =>
    if endsInProvider C head then return some .providerFunctionNamespace
    else if localStart C head = lenBytes head then return none
    else do
      let name ← slice head (localStart C head) (lenBytes head)
      let beforeLocal ← sliceTo head (localStart C head)
      match stripSuffix "provider::" beforeLocal with
      | none => return none
      | some beforeKw =>
        if endsInIdent C beforeKw then return none
        else return some (.providerFunctionName (String.ofList name))

def boundaryBefore (bs : List UInt8) (idx : ℕ) : Scan Bool :=
  if idx = 0 then return true
  else do
    let b ← index bs (idx-1)
    return !isIdentByte C b

def boundaryAfter (bs : List UInt8) (after : ℕ) : Scan Bool :=
  if bs.length ≤ after then return true
  else do
    let b ← index bs after
    return !isIdentByte C b

def tokenStep (s : Rope) (token : String) (start : ℕ) : Scan (ℕ ⊕ Option ℕ) := do
  let rest ← sliceFrom s start
  match findBytes token rest with
  | none => return .inr none
  | some rel => do
    let beforeOk ← boundaryBefore C (bytes s) (start + rel)
    let afterOk ← boundaryAfter C (bytes s) (start + rel + lenBytes token.toList)
    if beforeOk && afterOk then return .inr (some (start + rel))
    else return .inl (start + rel + lenBytes token.toList)

def findToken (s : Rope) (token : String) : Scan (Option ℕ) :=
  loop (tokenStep C s token) (lenBytes s + 1) 0

/-- The binders and the collection of `<binders> in <collection> :`. -/
def parseForHeader (afterFor : Rope) : Scan (Option (List String × Rope)) := do
  match ← findToken C afterFor "in" with
  | none => return none
  | some inPos => do
    let binderStr ← sliceTo afterFor inPos
    let rest ← sliceFrom afterFor (inPos+2)
    match topLevelColon rest with
    | none => return none
    | some colon => do
      let collection ← sliceTo rest colon
      let collection := trim collection
      let binders := ((binderStr.splitOn ',').map fun b => String.ofList (trim b)).filter (· ≠ "")
      return if binders = [] ∨ collection = [] then none else some (binders,collection)

def forHeaderAt (before : Rope) (idx : ℕ) : Scan (Option (List String × Rope)) := do
  let beforeOk ← boundaryBefore C (bytes before) idx
  let afterOk ← boundaryAfter C (bytes before) (idx+3)
  if beforeOk && afterOk then do
    let rest ← sliceFrom before (idx+3)
    parseForHeader C rest
  else return none

def forStep (before : Rope) (searchEnd : ℕ) : Scan (ℕ ⊕ Option (List String × Rope)) := do
  let head ← sliceTo before searchEnd
  match rfindBytes "for" head with
  | none => return .inr none
  | some idx => do
    match ← forHeaderAt C before idx with
    | some binder => return .inr (some binder)
    | none => return if idx = 0 then .inr none else .inl idx

def enclosingForBinder (before : Rope) : Scan (Option (List String × Rope)) :=
  loop (forStep C before) (lenBytes before + 1) (lenBytes before)

def collectionRootFromExpr (expr : Rope) : Scan (Option IndexRootRef) := do
  let expr ← stripTrailingBracketGroups (trim expr)
  let segments ← traversalSegmentsReverse C expr
  return indexRoot segments

def forBindingRef (before : Rope) (head : String) (rest : List String) :
    Scan (Option CompletionContext) := do
  match ← enclosingForBinder C before with
  | none => return none
  | some (binders,collection) =>
    if head ∉ binders then return none
    else if isValueBinder binders head then do
      match ← collectionRootFromExpr C collection with
      | some root => return some (.forBindingRef root rest)
      | none => return some .unknown
    else return some .unknown

/-- A loop variable, or a resource when no loop binds the name. -/
def resourceOrBinding (before : Rope) (head : String) (rest : List String)
    (resource : CompletionContext) : Scan (Option CompletionContext) :=
  if isBuiltinPrefix head then return none
  else do
    let binding ← forBindingRef C before head rest
    return some (binding.getD resource)

def segmentsContext (before : Rope) : List String → Scan (Option CompletionContext)
  | ["var"] => return some .variableRef
  | ["local"] => return some .localRef
  | ["module"] => return some .moduleRef
  | ["each"] => return some .eachRef
  | "each"::"value"::rest => return some (.eachAttr rest)
  | ["count"] => return some .countRef
  | ["path"] => return some .pathRef
  | ["terraform"] => return some .terraformNamespaceRef
  | ["self"] => do
    let resourceType ← enclosingResourceType C before
    return resourceType.map .selfRef
  | "var"::rest => return some (.variableAttrRef rest)
  | ["module",name] => return some (.moduleAttr name)
  | ["data",t] => return if isBuiltinPrefix t then none else some (.dataSourceRef t)
  | ["data",t,n] => return if isBuiltinPrefix t then none else some (.dataSourceAttr t n)
  | [t] => resourceOrBinding C before t [] (.resourceRef t)
  | [t,n] => resourceOrBinding C before t [n] (.resourceAttr t n)
  | _ => return none

def referencePrefixContext (before : Rope) : Scan (Option CompletionContext) := do
  let trimmed := before.rdropWhile (isIdent C)
  match ← providerFunctionPrefixContext C trimmed with
  | some ctx => return some ctx
  | none =>
    match stripSuffix "." trimmed with
    | none => return none
    | some text => do
      let text ← stripTrailingBracketGroups text
      let segs ← traversalSegmentsReverse C text
      segmentsContext C before segs

end references

/-! The steps over brackets, attributes and loops slice at delimiters of one byte. -/

section safety

variable {bs : List UInt8} {i : ℕ} {s : Rope}

theorem latin_toNat (b : UInt8) : (latin b).toNat = b.toNat := by
  have hvalid : b.toNat.isValidChar := .inl (by have := b.toNat_lt; omega)
  rw [latin,Char.ofNat,dif_pos hvalid]
  rfl

theorem ascii_of_latin {b : UInt8} {c : Char} (h : latin b = c) (hc : c.toNat < 128) :
    b.toNat < 128 := by
  rwa [← latin_toNat,h]

theorem stripSuffix_length {suffix : String} {r : Rope} (h : stripSuffix suffix s = some r) :
    lenBytes r + lenBytes suffix.toList = lenBytes s := by
  rw [stripSuffix_eq_some.mp h,lenBytes_append]

theorem openingBracket_safe (h : i ≤ bs.length) (depth : ℕ) : (openingBracket bs i depth).Safe
    fun r => ∀ k, r = some k → bs[k]? = some (byte '[') := by
  induction i generalizing depth with
  | zero => exact safe_ok nofun
  | succ i ih =>
    have hrest := fun depth => ih (by omega) depth
    rw [openingBracket]
    refine (index_safe h).bind fun b hb => ?_
    split
    · exact hrest _
    split
    · rename_i hopen
      split
      · exact safe_ok fun k hk => by rw [← Option.some.inj hk,hb,hopen]
      · exact hrest _
    · exact hrest _

theorem groupStep_safe (s : Rope) : (groupStep s).Safe fun r =>
    (∀ t, r = .inl t → True ∧ lenBytes t < lenBytes s) ∧ ∀ t, r = .inr t → True := by
  rw [groupStep]
  split
  · exact safe_last trivial
  rename_i trimmed htrimmed
  have hlen := stripSuffix_length htrimmed
  refine (openingBracket_safe (length_bytes trimmed).ge 1).bind fun r hr => ?_
  split
  · rename_i cutAt
    have hcut := hr cutAt rfl
    have hlt := lt_of_getElem? hcut
    rw [length_bytes] at hlt
    refine (sliceTo_safe (seam_ascii hcut (by decide)).1).bind fun rest hrest => ?_
    exact safe_next ⟨trivial,by omega⟩
  · exact safe_last trivial

theorem stripTrailingBracketGroups_ends (s : Rope) : (stripTrailingBracketGroups s).Ends :=
  (loop_safe (P:=fun _ => True) (fun s _ => groupStep_safe s) trivial (Nat.lt_succ_self _)).ends

theorem peelBracketStep_safe (s : Rope) : (peelBracketStep s).Safe
    fun r => ∀ rest key, r = some (rest,key) → lenBytes rest < lenBytes s := by
  rw [peelBracketStep]
  split
  · exact safe_ok nofun
  rename_i bracketed hbracketed
  split
  · exact safe_ok nofun
  rename_i quoted hquoted
  split
  · exact safe_ok nofun
  rename_i start hstart
  have hoccurs := rfindBytes_occurs hstart
  have hlong : lenBytes "]".toList = 1 := rfl
  have hlen := stripSuffix_length hbracketed
  have hlen' := stripSuffix_length hquoted
  have hle := hoccurs.seam.le
  refine (sliceFrom_safe hoccurs.seam_after).bind fun key _ => ?_
  refine (sliceTo_safe hoccurs.seam).bind fun rest hrest => safe_ok fun rest' key' h => ?_
  obtain ⟨rfl,-⟩ := Prod.mk.inj (Option.some.inj h)
  omega

theorem colonFrom_seam {whole front s : Rope} (hwhole : whole = front ++ s) (depth : ℕ) :
    ∀ k, colonFrom (lenBytes front) depth s = some k → Seam whole k := by
  induction s generalizing front depth with
  | nil => exact nofun
  | cons c s ih =>
    have hnext : lenBytes front + c.utf8Size = lenBytes (front ++ [c]) := by simp
    have hsplit : whole = (front ++ [c]) ++ s := by simp [hwhole]
    rw [colonFrom,hnext]
    split_ifs
    · exact ih hsplit _
    · exact ih hsplit _
    · exact fun k hk => ⟨front,c :: s,hwhole,Option.some.inj hk⟩
    · exact ih hsplit _

variable {C : CharClass}

/-- The walk ends behind the last byte that is in no word. -/
theorem wordStart_eq (h : i ≤ bs.length) :
    wordStart C bs i = .ok ((bs.take i).rdropWhile (isWordByte C)).length := by
  induction i with
  | zero => simp [wordStart]
  | succ i ih =>
    have hlt : i < bs.length := h
    rw [wordStart,index_of_getElem? (List.getElem?_eq_getElem hlt),List.take_succ_eq_append_getElem hlt,
      bind_ok,List.rdropWhile_concat]
    split
    · exact ih hlt.le
    · rw [List.length_append,List.length_take,Nat.min_eq_left hlt.le]
      rfl

theorem wordStart_safe (h : i ≤ bs.length) : (wordStart C bs i).Safe fun j => j ≤ i := by
  refine ⟨_,wordStart_eq h,?_⟩
  refine ((List.rdropWhile_prefix _ _).length_le).trans ?_
  rw [List.length_take]
  exact Nat.min_le_left _ _

theorem peelAttrStep_safe (C : CharClass) (s : Rope) : (peelAttrStep C s).Safe
    fun r => ∀ rest ident, r = some (rest,ident) → lenBytes rest < lenBytes s := by
  have hlen := length_bytes s
  rw [peelAttrStep]
  split
  · exact safe_ok nofun
  refine (wordStart_safe hlen.ge).bind fun stop hstop => ?_
  split
  · exact safe_ok nofun
  rename_i hinner
  rw [not_or] at hinner
  refine (index_safe (by omega)).bind fun dot hdot => ?_
  split
  · exact safe_ok nofun
  rename_i hsep
  rw [not_or,not_not] at hsep
  refine (index_safe (by omega)).bind fun bracket _ => ?_
  split
  · exact safe_ok nofun
  have hseam := seam_ascii hdot (ascii_of_latin hsep.1 (by decide))
  rw [Nat.sub_add_cancel (by omega)] at hseam
  refine (sliceFrom_safe hseam.2).bind fun ident _ => (sliceTo_safe hseam.1).bind fun rest hrest => ?_
  refine safe_ok fun rest' ident' h => ?_
  obtain ⟨rfl,-⟩ := Prod.mk.inj (Option.some.inj h)
  omega

theorem peelSteps_ends (C : CharClass) (cursor : Rope) : (peelSteps C cursor).Ends := by
  refine (loop_safe (P:=fun _ => True) (Q:=fun _ => True)
    (m:=fun t : Rope × List PathStep => lenBytes t.1) (fun t _ => ?_) trivial
    (Nat.lt_succ_self _)).ends
  rw [peelStep]
  refine (peelAttrStep_safe C t.1).bind fun attr hattr => ?_
  split
  · rename_i rest ident
    exact safe_next ⟨trivial,hattr rest ident rfl⟩
  · refine (peelBracketStep_safe t.1).bind fun bracket hbracket => ?_
    split
    · rename_i rest key
      exact safe_next ⟨trivial,hbracket rest key rfl⟩
    · exact safe_last trivial

theorem boundaryBefore_ends (C : CharClass) {idx : ℕ} (h : idx ≤ bs.length) :
    (boundaryBefore C bs idx).Ends := by
  rw [boundaryBefore]
  split
  · exact ends_ok _
  · exact (index_safe (by omega)).bind_ends fun _ _ => ends_ok _

theorem boundaryAfter_ends (C : CharClass) (bs : List UInt8) (after : ℕ) :
    (boundaryAfter C bs after).Ends := by
  rw [boundaryAfter]
  split
  · exact ends_ok _
  · exact (index_safe (by omega)).bind_ends fun _ _ => ends_ok _

/-- The search goes on behind what was found, and ends where the token occurs. -/
theorem findToken_safe (C : CharClass) (s : Rope) {token : String}
    (htoken : 0 < lenBytes token.toList) : (findToken C s token).Safe
      fun r => ∀ k, r = some k → Occurs token.toList s k := by
  refine loop_safe (P:=Seam s) (m:=fun start => lenBytes s - start) (fun start hstart => ?_)
    (seam_zero s) (by omega)
  have hlen := length_bytes s
  rw [tokenStep]
  refine (sliceFrom_split hstart).bind fun rest hrest => ?_
  split
  · exact safe_last nofun
  rename_i rel hrel
  have hoccurs : Occurs token.toList s (start + rel) := by
    obtain ⟨front,rfl,rfl⟩ := hrest
    exact (findBytes_occurs hrel).append_left front
  have hle := hoccurs.le
  refine (boundaryBefore_ends C (by omega)).safe.bind fun beforeOk _ => ?_
  refine (boundaryAfter_ends C _ _).safe.bind fun afterOk _ => ?_
  split
  · exact safe_last fun k hk => by rwa [← Option.some.inj hk]
  · exact safe_next ⟨hoccurs.seam_after,by omega⟩

theorem lenBytes_in_pos : 0 < lenBytes "in".toList := by decide

theorem parseForHeader_ends (C : CharClass) (afterFor : Rope) : (parseForHeader C afterFor).Ends := by
  rw [parseForHeader]
  refine (findToken_safe C afterFor lenBytes_in_pos).bind_ends fun r hr => ?_
  split
  · exact ends_ok _
  rename_i inPos
  have hoccurs := hr inPos rfl
  refine (sliceTo_safe hoccurs.seam).bind_ends fun binderStr _ => ?_
  refine (sliceFrom_safe hoccurs.seam_after).bind_ends fun rest _ => ?_
  split
  · exact ends_ok _
  · rename_i colon hcolon
    have hseam : Seam rest colon := colonFrom_seam (List.nil_append rest).symm 0 colon hcolon
    exact (sliceTo_safe hseam).bind_ends fun _ _ => ends_ok _

theorem enclosingForBinder_ends (C : CharClass) (before : Rope) :
    (enclosingForBinder C before).Ends := by
  refine (loop_safe (P:=Seam before) (Q:=fun _ => True) (m:=fun searchEnd => searchEnd)
    (fun searchEnd hend => ?_) (seam_length before) (Nat.lt_succ_self _)).ends
  have hlen := length_bytes before
  rw [forStep]
  refine (sliceTo_split hend).bind fun head hhead => ?_
  split
  · exact safe_last trivial
  rename_i idx hidx
  have hfound := rfindBytes_occurs hidx
  have hlong : lenBytes "for".toList = 3 := rfl
  have hle := hfound.le
  obtain ⟨back,hback,hheadLen⟩ := hhead
  have hoccurs : Occurs "for".toList before idx := by
    rw [hback]
    exact hfound.append_right back
  have hle' := hoccurs.le
  have hheader : (forHeaderAt C before idx).Ends := by
    rw [forHeaderAt]
    refine (boundaryBefore_ends C (by omega)).bind fun beforeOk _ => ?_
    refine (boundaryAfter_ends C _ _).bind fun afterOk _ => ?_
    split
    · exact (sliceFrom_safe hoccurs.seam_after).bind_ends fun rest _ => parseForHeader_ends C rest
    · exact ends_ok _
  refine hheader.safe.bind fun binder _ => ?_
  split
  · exact safe_last trivial
  · split
    · exact safe_last trivial
    · exact safe_next ⟨hoccurs.seam,by omega⟩

end safety

end Completion
end TerraformLs
