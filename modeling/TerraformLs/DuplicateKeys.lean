import TerraformLs.LexicalTrees
import TerraformLs.MetaArguments
import TerraformLs.TextSlices

/-! The rule about keys that an object declares twice. The parser keeps one of the items, so
the keys are read again from the text of the object, by a scan that counts brackets and tells
where a key may begin. -/
namespace TerraformLs
namespace DuplicateKeys

open GitRefs LexicalTrees Rope TextTrees

/-! ### The scan -/

section scan

def isIdentStart (c : Char) : Bool := c.isAlpha || c = '_'

def isIdentContinue (c : Char) : Bool := c.isAlphanum || c = '_' || c = '-'

/-- The bytes of a character, each of them taken for a character. -/
def asRead (c : Char) : Rope := (String.utf8EncodeChar c).map fun b => Char.ofNat b.toNat

def unescape (c : Char) : Rope :=
  if c = 'n' then ['\n'] else if c = 't' then ['\t'] else asRead c

/-- What an escape of the first template adds to what was read; templates in the sequences of
another one are read as they stand. -/
def escaped (outer : List ℕ) (c : Char) : Rope :=
  if outer = [] then unescape c else '\\' :: asRead c

def doubled (outer : List ℕ) (sign : Char) : Rope :=
  if outer = [] then [sign,'\x7b'] else [sign,sign,'\x7b']

/-- A template from its first quote on, up to what is behind it. The depths are those of the
braces in the sequences of the template and of the ones around it. -/
def readString : ℕ → List ℕ → Rope → Rope → Option (Rope × Rope)
  | _, _, _, [] => none
  | depth, outer, read, c :: s =>
    match c, s with
    | '\\', d :: s => readString depth outer (read ++ escaped outer d) s
    | '$', '$' :: '\x7b' :: s => readString depth outer (read ++ doubled outer '$') s
    | '%', '%' :: '\x7b' :: s => readString depth outer (read ++ doubled outer '%') s
    | '$', '\x7b' :: s => readString (depth + 1) outer (read ++ ['$','\x7b']) s
    | '%', '\x7b' :: s => readString (depth + 1) outer (read ++ ['%','\x7b']) s
    | '\x7b', s => readString (if depth = 0 then 0 else depth + 1) outer (read ++ ['\x7b']) s
    | '\x7d', s => readString (depth - 1) outer (read ++ ['\x7d']) s
    | '"', s =>
      if depth = 0 then
        match outer with
        | [] => some (read,s)
        | d :: outer => readString d outer (read ++ ['"']) s
      else readString 0 (depth :: outer) (read ++ ['"']) s
    | c, s => readString depth outer (read ++ asRead c) s

/-- The text behind the line that closes a heredoc. -/
def skipLines (tag : Rope) : Rope → Rope → Option Rope
  | line, [] => if closes tag line then some [] else none
  | line, c :: s =>
    if c = '\n' then if closes tag line then some s else skipLines tag [] s
    else skipLines tag (line ++ [c]) s

/-- The text behind a heredoc, from behind its first two signs on. -/
def skipHeredoc (s : Rope) : Option Rope :=
  let tag := (afterDash s).takeWhile isIdentContinue
  let behind := (afterDash s).dropWhile isIdentContinue
  if tag = [] then none
  else if (behind.takeWhile (· ≠ '\n')).all fun c => isBlank c || c = '\r' then
    match behind.dropWhile (· ≠ '\n') with
    | [] => none
    | _ :: body => skipLines tag [] body
  else none

/-- The text behind a comment that is open. -/
def skipBlock : Rope → Rope
  | [] => []
  | '*' :: '/' :: s => s
  | _ :: s => skipBlock s

def skipLine (s : Rope) : Rope := s.dropWhile (· ≠ '\n')

structure Key where
  name : Rope
  span : ℕ × ℕ
  deriving DecidableEq

/-- A text that goes on with the sign behind a key. -/
def isSigned (s : Rope) : Bool := s.head?.any fun c => c = '=' || c = ':'

theorem readString_length {depth : ℕ} {outer : List ℕ} {read s content behind : Rope}
    (h : readString depth outer read s = some (content,behind)) : behind.length < s.length := by
  fun_induction readString depth outer read s <;> grind

theorem skipLines_length {tag line s behind : Rope} (h : skipLines tag line s = some behind) :
    behind.length ≤ s.length := by
  fun_induction skipLines tag line s <;> grind

theorem dropWhile_length (p : Char → Bool) (s : Rope) : (s.dropWhile p).length ≤ s.length :=
  (List.dropWhile_sublist p).length_le

theorem afterDash_length (s : Rope) : (afterDash s).length ≤ s.length := by
  fun_cases afterDash s <;> simp

theorem skipHeredoc_length {s behind : Rope} (h : skipHeredoc s = some behind) :
    behind.length ≤ s.length := by
  rw [skipHeredoc] at h
  split_ifs at h
  split at h
  · cases h
  · rename_i body hbody
    have hline := dropWhile_length (· ≠ '\n') ((afterDash s).dropWhile isIdentContinue)
    rw [hbody,List.length_cons] at hline
    have htag := dropWhile_length isIdentContinue (afterDash s)
    have hdash := afterDash_length s
    have hlines := skipLines_length h
    omega

theorem skipBlock_length (s : Rope) : (skipBlock s).length ≤ s.length := by
  fun_induction skipBlock s <;> grind

/-- The keys of an object, from a place on: the depth of brackets there, and whether a key may
begin. The text ends at the place `stop`. -/
def scanKeys (stop : ℕ) (depth : ℤ) (atKey : Bool) : Rope → List Key
  | [] => []
  | c :: s =>
    if c = '\x7b' then scanKeys stop (depth + 1) (atKey || depth + 1 = 1) s
    else if c = '\x7d' then if depth - 1 = 0 then [] else scanKeys stop (depth - 1) atKey s
    else if c = '(' ∨ c = '[' then scanKeys stop (depth + 1) atKey s
    else if c = ')' ∨ c = ']' then scanKeys stop (depth - 1) atKey s
    else if (c = ',' ∨ c = '\n') ∧ depth = 1 then scanKeys stop depth true s
    else if c = '#' ∨ c = '/' ∧ s.head? = some '/' then scanKeys stop depth atKey (skipLine s)
    else if c = '/' ∧ s.head? = some '*' then scanKeys stop depth atKey (skipBlock s.tail)
    else if c = '"' then
      match _hread : readString 0 [] [] s with
      | none => []
      | some (content,behind) =>
        let after := behind.dropWhile isBlank
        if depth = 1 ∧ atKey then
          if isSigned after then
            ⟨content,stop - lenBytes (c :: s),stop - lenBytes behind⟩ :: scanKeys stop depth false after
          else scanKeys stop depth atKey after
        else scanKeys stop depth atKey behind
    else if c = '<' ∧ s.head? = some '<' then
      match _hskip : skipHeredoc s.tail with
      | some behind => scanKeys stop depth true behind
      | none => scanKeys stop depth false s
    else if isIdentStart c ∧ depth = 1 ∧ atKey then
      let behind := s.dropWhile isIdentContinue
      let after := behind.dropWhile isBlank
      if isSigned after then
        ⟨c :: s.takeWhile isIdentContinue,stop - lenBytes (c :: s),stop - lenBytes behind⟩ ::
          scanKeys stop depth false after
      else scanKeys stop depth atKey after
    else if isBlank c ∨ c = '\r' then scanKeys stop depth atKey s
    else scanKeys stop depth false s
termination_by s => s.length
decreasing_by
  all_goals simp only [List.length_cons]
  all_goals try omega
  · exact Nat.lt_succ_of_le (dropWhile_length _ s)
  · have hblock := skipBlock_length s.tail
    rw [List.length_tail] at hblock
    omega
  · exact Nat.lt_succ_of_lt ((dropWhile_length _ behind).trans_lt (readString_length _hread))
  · exact Nat.lt_succ_of_lt ((dropWhile_length _ behind).trans_lt (readString_length _hread))
  · exact Nat.lt_succ_of_lt (readString_length _hread)
  · have hskip := skipHeredoc_length _hskip
    rw [List.length_tail] at hskip
    omega
  · exact Nat.lt_succ_of_le ((dropWhile_length _ _).trans (dropWhile_length _ s))
  · exact Nat.lt_succ_of_le ((dropWhile_length _ _).trans (dropWhile_length _ s))

def extractTopLevelKeys (slice : Rope) (base : ℕ) : List Key :=
  if slice.head? = some '\x7b' then scanKeys (base + lenBytes slice) 0 false slice else []

/-- The keys whose names were met before. -/
def repeated : List Rope → List Key → List Key
  | _, [] => []
  | seen, k :: ks => if k.name ∈ seen then k :: repeated seen ks else repeated (k.name :: seen) ks

def message (name : Rope) : String :=
  "duplicate key `" ++ String.ofList name ++
    "` in object literal — later values override earlier ones"

def keyDiagnostic (rope : Rope) (k : Key) : Diagnostic :=
  Scopes.report ((Scopes.rangeOf rope (some k.span)).getD Scopes.defaultRange) .error (message k.name)

def objectDiagnostics (rope : Rope) (span : Span) : List Diagnostic :=
  if rope.lenBytes < span.2 then []
  else match (rope.slice span.1 span.2 : Outcome Empty Rope) with
  | .ok slice => (repeated [] (extractTopLevelKeys slice span.1)).map (keyDiagnostic rope)
  -- A span that cuts a character; the slice panics there.
  | _ => []

def mapDuplicateKeysDiagnostics (body : Scopes.Body) (rope : Rope) : List Diagnostic :=
  (Scopes.visitBody body).flatMap fun
    | .object (some span) _ => objectDiagnostics rope span
    | _ => []

end scan

/-! ### Templates -/

/-- No sequence begins in a text, which another one follows, and no doubled sign. -/
def isSequenceFree (next : Rope) : Rope → Bool
  | [] => true
  | c :: s => !opensSequence (c :: s ++ next) && !escapesSequence (c :: s ++ next) && isSequenceFree next s

mutual

/-- The scan knows nothing of comments and heredocs in the sequences of a template. -/
def TreeReadable : Source → Rope → Prop
  | .node .quoted (.text _ inner), next => PartsReadable true inner next
  | .node .sequence (.text _ inner), next => PartsReadable false inner next
  | _, _ => False

def PartsReadable (literal : Bool) : Parts Kind Rope → Rope → Prop
  | .nil, _ => True
  | .text s rest, next =>
    (literal = false → isSequenceFree (rest.render ++ next) s) ∧ PartsReadable literal rest next
  | .child t rest, next => TreeReadable t (rest.render ++ next) ∧ PartsReadable literal rest next

end

/-- The text of a template as it is read. Of the first template escapes and doubled signs are
resolved. -/
def literalRead (outer : List ℕ) (next : Rope) : Escape → Rope → Rope
  | _, [] => []
  | .any, c :: s => escaped outer c ++ literalRead outer next .done s
  | .sign, c :: s => asRead c ++ literalRead outer next .brace s
  | .brace, c :: s => asRead c ++ literalRead outer next .done s
  | .done, c :: s =>
    if c = '\\' then literalRead outer next .any s
    else if escapesSequence (c :: s ++ next) then
      (if outer = [] then [] else asRead c) ++ literalRead outer next .sign s
    else asRead c ++ literalRead outer next .done s

/-- A text as it stands. -/
def raw (s : Rope) : Rope := s.flatMap asRead

/-- What is read of a template up to its last quote. Its sequences are read as they stand. -/
def quotesRead (next : Rope) : Parts Kind Rope → Rope
  | .nil => []
  | .text _ .nil => []
  | .text s rest => literalRead [] (rest.render ++ next) .done s ++ quotesRead next rest
  | .child t rest => raw t.render ++ quotesRead next rest

section templates

variable {depth : ℕ} {outer : List ℕ} {read s next : Rope} {c d : Char}

@[simp] theorem raw_append (s t : Rope) : raw (s ++ t) = raw s ++ raw t := List.flatMap_append

@[simp] theorem raw_cons (c : Char) (s : Rope) : raw (c :: s) = asRead c ++ raw s := List.flatMap_cons

def depthAfter (depth : ℕ) (c : Char) : ℕ :=
  if c = '\x7b' then if depth = 0 then 0 else depth + 1
  else if c = '\x7d' then depth - 1
  else depth

theorem readString_plain (hslash : c ≠ '\\') (hquote : c ≠ '"') (hopens : opensSequence (c :: s) = false)
    (hdoubled : escapesSequence (c :: s) = false) :
    readString depth outer read (c :: s) = readString (depthAfter depth c) outer (read ++ asRead c) s := by
  rw [readString.eq_def]
  dsimp only
  split
  case h_1 => exact absurd rfl hslash
  case h_2 => simp [escapesSequence] at hdoubled
  case h_3 => simp [escapesSequence] at hdoubled
  case h_4 => simp [opensSequence] at hopens
  case h_5 => simp [opensSequence] at hopens
  case h_6 => rfl
  case h_7 => rfl
  case h_8 => exact absurd rfl hquote
  case h_9 => rw [depthAfter,if_neg (by assumption),if_neg (by assumption)]

theorem readString_escape : readString depth outer read ('\\' :: d :: s) =
    readString depth outer (read ++ escaped outer d) s := by
  rw [readString]

theorem readString_doubled (hc : c = '$' ∨ c = '%') :
    readString depth outer read (c :: c :: '\x7b' :: s) =
      readString depth outer (read ++ doubled outer c) s := by
  rcases hc with rfl | rfl <;> rw [readString]

theorem readString_opener (hs : s = "$\x7b".toList ∨ s = "%\x7b".toList) :
    readString depth outer read (s ++ next) = readString (depth + 1) outer (read ++ raw s) next := by
  rcases hs with rfl | rfl
  · change readString depth outer read ('$' :: '\x7b' :: next) = _
    rw [readString]
    rfl
  · change readString depth outer read ('%' :: '\x7b' :: next) = _
    rw [readString]
    rfl

theorem doubled_split (h : escapesSequence (c :: s) = true) :
    (c = '$' ∨ c = '%') ∧ ∃ u, s = c :: '\x7b' :: u := by
  simp only [escapesSequence,Bool.or_eq_true,List.isPrefixOf_iff_prefix] at h
  rcases h with ⟨u,hu⟩ | ⟨u,hu⟩
  · change '$' :: '$' :: '\x7b' :: u = c :: s at hu
    cases hu
    exact ⟨.inl rfl,u,rfl⟩
  · change '%' :: '%' :: '\x7b' :: u = c :: s at hu
    cases hu
    exact ⟨.inr rfl,u,rfl⟩

theorem doubled_eq (hc : c = '$' ∨ c = '%') :
    doubled outer c = (if outer = [] then [] else asRead c) ++ (asRead c ++ asRead '\x7b') := by
  rcases hc with rfl | rfl <;> rw [doubled] <;> split_ifs <;> rfl

/-- The text of a template outside of its sequences. -/
theorem readString_literal : ∀ {s read : Rope}, isLiteral true next .done s = true →
    readString 0 outer read (s ++ next) =
      readString 0 outer (read ++ literalRead outer next .done s) next
  | [], read, _ => by rw [literalRead,List.append_nil,List.nil_append]
  | c :: s, read, h => by
    rw [isLiteral,Bool.true_and,Bool.true_and] at h
    simp only [decide_eq_true_eq] at h
    split_ifs at h with hslash hdoubled
    · obtain rfl := hslash
      cases s with
      | nil => cases h
      | cons d s =>
        rw [isLiteral,Bool.and_eq_true] at h
        rw [List.cons_append,List.cons_append,readString_escape,readString_literal h.2,literalRead,
          if_pos rfl,literalRead,List.append_assoc]
    · obtain ⟨hc,u,hu⟩ := doubled_split hdoubled
      match s with
      | [] => cases h
      | [d] => simp [isLiteral] at h
      | d :: e :: s =>
        simp only [isLiteral,Bool.and_eq_true,decide_eq_true_eq] at h
        obtain ⟨-,rfl,hrest⟩ := h
        obtain rfl : d = c := (List.cons.inj hu).1
        change readString 0 outer read (d :: d :: '\x7b' :: (s ++ next)) = _
        rw [readString_doubled hc,readString_literal hrest,doubled_eq hc,literalRead,if_neg hslash,
          if_pos hdoubled,literalRead,literalRead]
        simp only [List.append_assoc]
    · simp only [Bool.and_eq_true,Bool.not_eq_true',Bool.or_eq_false_iff,decide_eq_false_iff_not] at h
      have hdepth : depthAfter 0 c = 0 := by
        rw [depthAfter,if_pos rfl,Nat.zero_sub,ite_self,ite_self]
      have hopens : opensSequence (c :: (s ++ next)) = false := h.1.2
      have hplain : escapesSequence (c :: (s ++ next)) = false := by simpa using hdoubled
      rw [List.cons_append,readString_plain hslash h.1.1.1 hopens hplain,hdepth,readString_literal h.2,
        literalRead,if_neg hslash,if_neg hdoubled,List.append_assoc]

/-- What was read of an escape and not put down yet. -/
def begun : Escape → Rope
  | .any => ['\\']
  | _ => []

theorem literalRead_raw (houter : outer ≠ []) {e : Escape} (h : isLiteral true next e s = true) :
    literalRead outer next e s = begun e ++ raw s := by
  induction s generalizing e with
  | nil =>
    obtain rfl : e = .done := by simpa [isLiteral] using h
    rfl
  | cons c s ih =>
    cases e with
    | any =>
      rw [isLiteral,Bool.and_eq_true] at h
      rw [literalRead,ih h.2,escaped,if_neg houter]
      rfl
    | sign =>
      rw [isLiteral,Bool.and_eq_true] at h
      rw [literalRead,ih h.2]
      rfl
    | brace =>
      rw [isLiteral,Bool.and_eq_true] at h
      rw [literalRead,ih h.2]
      rfl
    | done =>
      rw [isLiteral,Bool.true_and,Bool.true_and] at h
      simp only [decide_eq_true_eq] at h
      rw [literalRead]
      split_ifs at h ⊢ with hslash hdoubled
      · rw [ih h,hslash]
        rfl
      · rw [ih h]
        rfl
      · rw [Bool.and_eq_true] at h
        rw [ih h.2]
        rfl

/-- The code in a sequence. -/
theorem readString_code {d : ℕ} (hcode : isCode next s = true) (hfree : isSequenceFree next s = true)
    (hbraces : bracesAfter depth s = some d) :
    readString (depth + 1) outer read (s ++ next) = readString (d + 1) outer (read ++ raw s) next := by
  induction s generalizing depth read with
  | nil =>
    obtain rfl : depth = d := by simpa [bracesAfter] using hbraces
    rw [raw,List.flatMap_nil,List.append_nil,List.nil_append]
  | cons c s ih =>
    simp only [isCode,isQuiet,Bool.and_eq_true,Bool.not_eq_true',List.contains_cons,
      Bool.or_eq_false_iff] at hcode
    simp only [isSequenceFree,Bool.and_eq_true,Bool.not_eq_true'] at hfree
    have hslash : c ≠ '\\' := fun hc => by simp [hc] at hcode
    have hquote : c ≠ '"' := fun hc => by simp [hc,opensSign] at hcode
    have hrest : isCode next s = true := by
      rw [isCode,hcode.1.2,hcode.2.2]
      rfl
    have hdepth : ∃ m, depthAfter (depth + 1) c = m + 1 ∧ bracesAfter m s = some d := by
      rw [bracesAfter] at hbraces
      rw [depthAfter]
      by_cases hopen : c = '\x7b'
      · rw [if_pos hopen] at hbraces
        exact ⟨depth + 1,by rw [if_pos hopen,if_neg (Nat.succ_ne_zero depth)],hbraces⟩
      · rw [if_neg hopen] at hbraces
        by_cases hclose : c = '\x7d'
        · rw [if_pos hclose] at hbraces
          split_ifs at hbraces with hzero
          exact ⟨depth - 1,by rw [if_neg hopen,if_pos hclose]; omega,hbraces⟩
        · rw [if_neg hclose] at hbraces
          exact ⟨depth,by rw [if_neg hopen,if_neg hclose],hbraces⟩
    obtain ⟨m,hm,hbraces⟩ := hdepth
    have hopens : opensSequence (c :: (s ++ next)) = false := hfree.1.1
    have hplain : escapesSequence (c :: (s ++ next)) = false := hfree.1.2
    rw [List.cons_append,readString_plain hslash hquote hopens hplain,hm,
      ih hrest hfree.2 hbraces,raw_cons,List.append_assoc]

theorem readString_quote : readString depth outer read ('"' :: s) =
    if depth = 0 then
      match outer with
      | [] => some (read,s)
      | d :: outer => readString d outer (read ++ ['"']) s
    else readString 0 (depth :: outer) (read ++ ['"']) s := by
  rw [readString.eq_def]
  rfl

theorem readString_close : readString 1 outer read ('\x7d' :: s) =
    readString 0 outer (read ++ raw ['\x7d']) s := by
  rw [readString]
  rfl

end templates

mutual

/-- A sequence in a template is read as it stands. -/
theorem read_sequence : ∀ {t : Source} {outer : List ℕ} {next : Rope} (read : Rope), t.kind = .sequence →
    TreeLexed t next → TreeReadable t next →
    readString 0 outer read (t.render ++ next) = readString 0 outer (read ++ raw t.render) next
  | .node .sequence (.text s inner), outer, next, read, _, h, hr => by
    rw [TreeLexed] at h
    rw [TreeReadable] at hr
    rw [Tree.render,Parts.render,List.append_assoc,readString_opener h.1,
      read_code_parts (read ++ raw s) h.2 hr,raw_append,List.append_assoc]

theorem read_quoted : ∀ {t : Source} {depth : ℕ} {outer : List ℕ} {next : Rope} (read : Rope),
    t.kind ≠ .sequence → TreeLexed t next → TreeReadable t next →
    readString (depth + 1) outer read (t.render ++ next) =
      readString (depth + 1) outer (read ++ raw t.render) next
  | .node .quoted (.text s inner), depth, outer, next, read, _, h, hr => by
    rw [TreeLexed] at h
    rw [TreeReadable] at hr
    obtain ⟨rfl,hinner⟩ := h
    rw [Tree.render,Parts.render,List.append_assoc,List.singleton_append,readString_quote,
      if_neg (Nat.succ_ne_zero depth),read_quotes _ hinner hr,raw_append,List.append_assoc]
    rfl

theorem read_code_parts : ∀ {parts : Parts Kind Rope} {depth : ℕ} {outer : List ℕ} {next : Rope}
    (read : Rope), PartsLexed (.sequence depth) parts next → PartsReadable false parts next →
    readString (depth + 1) outer read (parts.render ++ next) =
      readString 0 outer (read ++ raw parts.render) next
  | .nil, depth, outer, next, read, h, _ => by
    rw [PartsLexed] at h
    exact h.elim
  | .text s rest, depth, outer, next, read, h, hr => by
    rw [PartsLexed] at h
    rw [PartsReadable] at hr
    rcases h with ⟨rfl,rfl,rfl⟩ | ⟨hs,d,hd,hrest⟩
    · rw [Parts.render,Parts.render,List.append_nil,List.singleton_append,readString_close]
    · rw [Parts.render,List.append_assoc,readString_code hs (hr.1 rfl) hd,
        read_code_parts _ hrest hr.2,raw_append,List.append_assoc]
  | .child t rest, depth, outer, next, read, h, hr => by
    rw [PartsLexed] at h
    rw [PartsReadable] at hr
    rw [Parts.render,List.append_assoc,read_quoted read h.1 h.2.1 hr.1,
      read_code_parts _ h.2.2 hr.2,raw_append,List.append_assoc]

/-- So is a template in the sequence of another one. -/
theorem read_quotes : ∀ {parts : Parts Kind Rope} {depth : ℕ} {outer : List ℕ} {next : Rope}
    (read : Rope), PartsLexed .quotes parts next → PartsReadable true parts next →
    readString 0 (depth :: outer) read (parts.render ++ next) =
      readString depth outer (read ++ raw parts.render) next
  | .nil, depth, outer, next, read, h, _ => by
    rw [PartsLexed] at h
    exact h.elim
  | .text s rest, depth, outer, next, read, h, hr => by
    rw [PartsLexed] at h
    rw [PartsReadable] at hr
    rcases h with ⟨rfl,rfl⟩ | ⟨hs,hrest⟩
    · rw [Parts.render,Parts.render,List.append_nil,List.singleton_append,readString_quote,if_pos rfl]
      rfl
    · rw [Parts.render,List.append_assoc,readString_literal hs,
        literalRead_raw (List.cons_ne_nil depth outer) hs,read_quotes _ hrest hr.2,raw_append,
        List.append_assoc]
      rfl
  | .child t rest, depth, outer, next, read, h, hr => by
    rw [PartsLexed] at h
    rw [PartsReadable] at hr
    rw [Parts.render,List.append_assoc,read_sequence read h.1 h.2.1 hr.1,read_quotes _ h.2.2 hr.2,
      raw_append,List.append_assoc]

end

/-- A template that stands for itself is read up to its last quote. -/
theorem read_template : ∀ {parts : Parts Kind Rope} {next : Rope} (read : Rope),
    PartsLexed .quotes parts next → PartsReadable true parts next →
    readString 0 [] read (parts.render ++ next) = some (read ++ quotesRead next parts,next)
  | .nil, next, read, h, _ => by
    rw [PartsLexed] at h
    exact h.elim
  | .text s rest, next, read, h, hr => by
    rw [PartsLexed] at h
    rw [PartsReadable] at hr
    rcases h with ⟨rfl,rfl⟩ | ⟨hs,hrest⟩
    · rw [Parts.render,Parts.render,List.append_nil,List.singleton_append,readString_quote,if_pos rfl,
        quotesRead,List.append_nil]
    · have hne : rest ≠ .nil := by
        rintro rfl
        rw [PartsLexed] at hrest
        exact hrest
      rw [Parts.render,List.append_assoc,readString_literal hs,read_template _ hrest hr.2,
        quotesRead,List.append_assoc]
      exact hne
  | .child t rest, next, read, h, hr => by
    rw [PartsLexed] at h
    rw [PartsReadable] at hr
    rw [Parts.render,List.append_assoc,read_sequence read h.1 h.2.1 hr.1,read_template _ h.2.2 hr.2,
      quotesRead,List.append_assoc]

/-! ### Values -/

/-- A comment or a heredoc begins, or at least two of these signs. -/
def opensPair (s : Rope) : Bool :=
  "//".toList.isPrefixOf s || "/*".toList.isPrefixOf s || "<<".toList.isPrefixOf s

/-- A text of neither templates nor comments nor heredocs, which another one follows. -/
def isPlain (next : Rope) : Rope → Bool
  | [] => true
  | c :: s => c ≠ '"' && c ≠ '#' && !opensPair (c :: s ++ next) && isPlain next s

/-- The depth of brackets behind a text of a value, and whether the scan takes a key to begin
there. The value ends before a separator that no bracket is around. -/
def valueAfter : ℕ → Bool → Rope → Option (ℕ × Bool)
  | depth, atKey, [] => some (depth,atKey)
  | depth, atKey, c :: s =>
    if c = '\x7b' ∨ c = '(' ∨ c = '[' then valueAfter (depth + 1) atKey s
    else if c = '\x7d' ∨ c = ')' ∨ c = ']' then
      if depth = 0 then none else valueAfter (depth - 1) atKey s
    else if c = ',' ∨ c = '\n' then if depth = 0 then none else valueAfter depth false s
    else if isBlank c ∨ c = '\r' then valueAfter depth atKey s
    else if depth = 0 ∧ atKey ∧ isIdentStart c then none
    else valueAfter depth false s

section values

variable {stop depth : ℕ} {atKey : Bool} {s next : Rope} {c : Char}

theorem not_pairs (h : opensPair (c :: s) = false) : ¬(c = '/' ∧ s.head? = some '/') ∧
    ¬(c = '/' ∧ s.head? = some '*') ∧ ¬(c = '<' ∧ s.head? = some '<') := by
  simp only [opensPair,Bool.or_eq_false_iff] at h
  refine ⟨?_,?_,?_⟩ <;> rintro ⟨rfl,hs⟩ <;> obtain ⟨u,rfl⟩ := List.head?_eq_some_iff.mp hs <;> simp at h

/-- A character that only tells that no key begins behind it. -/
theorem scan_other {level : ℤ} {t : Rope} (hquote : c ≠ '"') (hhash : c ≠ '#')
    (hpair : opensPair (c :: t) = false)
    (hopen : ¬(c = '\x7b' ∨ c = '(' ∨ c = '[')) (hclose : ¬(c = '\x7d' ∨ c = ')' ∨ c = ']'))
    (hsep : (c = ',' ∨ c = '\n') → level ≠ 1) (hblank : ¬(isBlank c = true ∨ c = '\r'))
    (hident : level = 1 → atKey = true → isIdentStart c = false) :
    scanKeys stop level atKey (c :: t) = scanKeys stop level false t := by
  obtain ⟨hslashes,hblock,hheredoc⟩ := not_pairs hpair
  simp only [not_or] at hopen hclose
  have hcomment : ¬(c = '#' ∨ c = '/' ∧ t.head? = some '/') := not_or.mpr ⟨hhash,hslashes⟩
  have hkey : ¬(isIdentStart c = true ∧ level = 1 ∧ atKey = true) := by
    rintro ⟨hc,hlevel,hkey⟩
    exact absurd (hc.symm.trans (hident hlevel hkey)) (by decide)
  rw [scanKeys,if_neg hopen.1,if_neg hclose.1,if_neg (by simp [hopen]),if_neg (by simp [hclose]),
    if_neg fun h => hsep h.1 h.2,if_neg hcomment,if_neg hblock,if_neg hquote,if_neg hheredoc,
    if_neg hkey,if_neg hblank]

theorem scan_open {level : ℤ} {t : Rope} (hc : c = '\x7b' ∨ c = '(' ∨ c = '[') (hlevel : level ≠ 0) :
    scanKeys stop level atKey (c :: t) = scanKeys stop (level + 1) atKey t := by
  rcases hc with rfl | rfl | rfl <;> rw [scanKeys] <;> simp [hlevel]

theorem scan_close {level : ℤ} {t : Rope} (hc : c = '\x7d' ∨ c = ')' ∨ c = ']') (hlevel : level ≠ 1) :
    scanKeys stop level atKey (c :: t) = scanKeys stop (level - 1) atKey t := by
  have hne : level - 1 ≠ 0 := by omega
  rcases hc with rfl | rfl | rfl <;> rw [scanKeys] <;> simp [hne]

theorem eq_of_isBlank (h : isBlank c = true) : c = ' ' ∨ c = '\t' := by
  simpa [isBlank] using h

theorem scan_blank {level : ℤ} {t : Rope} (hc : isBlank c = true ∨ c = '\r') :
    scanKeys stop level atKey (c :: t) = scanKeys stop level atKey t := by
  have hor := hc.imp_left eq_of_isBlank
  have hident : isIdentStart c = false := by rcases hor with (rfl | rfl) | rfl <;> decide
  rcases hor with (rfl | rfl) | rfl <;> rw [scanKeys] <;> simp [isBlank,hident]

/-- One character of a value. -/
theorem scan_value_cons (stop : ℕ) {d : ℕ} {b : Bool} (hplain : isPlain next (c :: s) = true)
    (h : valueAfter depth atKey (c :: s) = some (d,b)) :
    ∃ depth' atKey', valueAfter depth' atKey' s = some (d,b) ∧
      scanKeys stop (depth + 1) atKey (c :: (s ++ next)) =
        scanKeys stop (depth' + 1) atKey' (s ++ next) := by
  simp only [isPlain,Bool.and_eq_true,decide_eq_true_eq,Bool.not_eq_true'] at hplain
  obtain ⟨⟨⟨hquote,hhash⟩,hpair⟩,-⟩ := hplain
  rw [valueAfter] at h
  split_ifs at h with hopen hclose hzero hsep hzero hblank hident
  · refine ⟨depth + 1,atKey,h,?_⟩
    rw [scan_open hopen (by omega)]
    push_cast
    rfl
  · refine ⟨depth - 1,atKey,h,?_⟩
    rw [scan_close hclose (by omega)]
    congr 1
    omega
  · exact ⟨depth,false,h,scan_other hquote hhash hpair hopen hclose (fun _ => by omega) (by
      rcases hsep with rfl | rfl <;> decide) (fun hone _ => by omega)⟩
  · exact ⟨depth,atKey,h,scan_blank hblank⟩
  · refine ⟨depth,false,h,scan_other hquote hhash hpair hopen hclose (fun hc => absurd hc hsep) hblank
      fun hone hkey => ?_⟩
    by_contra hc
    exact hident ⟨by omega,hkey,by simpa using hc⟩

/-- The text of a value. -/
theorem scan_value {d : ℕ} {b : Bool} (hplain : isPlain next s = true)
    (h : valueAfter depth atKey s = some (d,b)) :
    scanKeys stop (depth + 1) atKey (s ++ next) = scanKeys stop (d + 1) b next := by
  induction s generalizing depth atKey with
  | nil =>
    cases h
    rfl
  | cons c s ih =>
    obtain ⟨depth',atKey',hrest,hstep⟩ := scan_value_cons stop hplain h
    rw [isPlain,Bool.and_eq_true] at hplain
    rw [List.cons_append,hstep,ih hplain.2 hrest]

end values

/-! ### Objects -/

/-- What a value is made of, outside of the sequences of its templates. -/
inductive Piece
  | code (s : Rope)
  | template (inner : Parts Kind Rope)
  | comment (t : Source)
  /-- The end of its last line is part of it. -/
  | heredoc (tag opener body lineEnd : Rope)

def Piece.render : Piece → Rope
  | .code s => s
  | .template inner => '"' :: inner.render
  | .comment t => t.render
  | .heredoc _ opener body lineEnd => opener ++ (body ++ lineEnd)

def renderAll (pieces : List Piece) : Rope := pieces.flatMap Piece.render

def isComment : Kind → Bool
  | .hash | .slashes | .block => true
  | _ => false

/-- A heredoc whose body has no line before the last one that could be its end. -/
structure HeredocReadable (tag opener body lineEnd : Rope) : Prop where
  opener : Opener tag opener
  name : tag.all isIdentContinue
  body : ∃ last, lastLineOf (closes tag) [] body = some last ∧ closes tag last = true
  lineEnd : lineEnd = ['\n'] ∨ lineEnd = ['\r','\n']

/-- A piece of a value before a text, from a depth of brackets to another. -/
def Piece.Passes (depth : ℕ) (atKey : Bool) : Piece → Rope → ℕ → Bool → Prop
  | .code s, next, d, b => isPlain next s ∧ valueAfter depth atKey s = some (d,b)
  | .template inner, next, d, b => ¬(depth = 0 ∧ atKey = true) ∧
    PartsLexed .quotes inner next ∧ PartsReadable true inner next ∧ d = depth ∧ b = atKey
  | .comment t, next, d, b => isComment t.kind ∧ TreeLexed t next ∧ d = depth ∧ b = atKey
  | .heredoc tag opener body lineEnd, _, d, b =>
    HeredocReadable tag opener body lineEnd ∧ d = depth ∧ b = true

inductive Passes : ℕ → Bool → List Piece → Rope → ℕ → Bool → Prop
  | nil {depth : ℕ} {atKey : Bool} {next : Rope} : Passes depth atKey [] next depth atKey
  | cons {depth depth' d : ℕ} {atKey atKey' b : Bool} {p : Piece} {ps : List Piece} {next : Rope} :
    p.Passes depth atKey (renderAll ps ++ next) depth' atKey' → Passes depth' atKey' ps next d b →
    Passes depth atKey (p :: ps) next d b

def isSeparator (c : Char) : Bool := c = ',' || c = '\n'

def isSpace (c : Char) : Bool := isBlank c || c = '\r'

/-- The pieces before a key: separators, comments and the space between them. -/
inductive Leads : Bool → List Piece → Rope → Bool → Prop
  | nil {atKey : Bool} {next : Rope} : Leads atKey [] next atKey
  | space {atKey b : Bool} {s : Rope} {ps : List Piece} {next : Rope} :
    s.all (fun c => isSeparator c || isSpace c) → Leads (atKey || s.any isSeparator) ps next b →
    Leads atKey (.code s :: ps) next b
  | comment {atKey b : Bool} {t : Source} {ps : List Piece} {next : Rope} :
    isComment t.kind → TreeLexed t (renderAll ps ++ next) → Leads atKey ps next b →
    Leads atKey (.comment t :: ps) next b

section pieces

variable {stop depth : ℕ} {level : ℤ} {atKey : Bool} {s next : Rope}

/-- A template where a key may begin, and one anywhere else. -/
theorem scan_string {content behind : Rope} (hread : readString 0 [] [] s = some (content,behind)) :
    scanKeys stop level atKey ('"' :: s) =
      if level = 1 ∧ atKey = true then
        if isSigned (behind.dropWhile isBlank) then
          ⟨content,stop - lenBytes ('"' :: s),stop - lenBytes behind⟩ ::
            scanKeys stop level false (behind.dropWhile isBlank)
        else scanKeys stop level atKey (behind.dropWhile isBlank)
      else scanKeys stop level atKey behind := by
  rw [scanKeys]
  simp only [Char.reduceEq,or_self,false_and,if_false,if_true]
  split
  · rename_i hnone
    rw [hread] at hnone
    cases hnone
  · rename_i hsome
    rw [hread] at hsome
    cases hsome
    rfl

theorem scan_line {c : Char} (hc : c = '#' ∨ c = '/' ∧ s.head? = some '/') :
    scanKeys stop level atKey (c :: s) = scanKeys stop level atKey (skipLine s) := by
  rcases hc with rfl | ⟨rfl,hs⟩
  · rw [scanKeys]
    simp
  · rw [scanKeys]
    simp [hs]

theorem scan_block : scanKeys stop level atKey ('/' :: '*' :: s) =
    scanKeys stop level atKey (skipBlock s) := by
  rw [scanKeys]
  simp

theorem skipLine_append {s : Rope} (hs : '\n' ∉ s) (hnext : AtLineEnd next) : skipLine (s ++ next) = next := by
  rw [skipLine,List.dropWhile_append_of_pos fun c hc => by
    have hne : c ≠ '\n' := fun h => hs (h ▸ hc)
    simpa using hne]
  rcases hnext with rfl | hhead
  · rfl
  · obtain ⟨u,rfl⟩ := List.head?_eq_some_iff.mp hhead
    rfl

theorem skipBlock_append : ∀ {inside : Rope}, ¬['*','/'] <:+: inside ++ ['*'] →
    skipBlock (inside ++ ('*' :: '/' :: next)) = next
  | [], _ => by rw [List.nil_append,skipBlock]
  | c :: inside, h => by
    have hrest : ¬['*','/'] <:+: inside ++ ['*'] := fun hin => h (hin.trans (List.suffix_cons c _).isInfix)
    rw [List.cons_append,skipBlock.eq_def]
    split
    case h_1 hnil => cases hnil
    case h_2 heq =>
      obtain ⟨rfl,htail⟩ := List.cons.inj heq
      cases inside with
      | nil => cases htail
      | cons d inside =>
        obtain ⟨rfl,-⟩ := List.cons.inj htail
        exact absurd (List.prefix_append ['*','/'] (inside ++ ['*'])).isInfix h
    case h_3 heq =>
      obtain ⟨rfl,rfl⟩ := List.cons.inj heq
      exact skipBlock_append hrest

theorem scan_comment : ∀ {t : Source}, isComment t.kind = true → TreeLexed t next →
    scanKeys stop level atKey (t.render ++ next) = scanKeys stop level atKey next
  | .node .hash (.text s inner), _, h => by
    rw [TreeLexed] at h
    obtain ⟨rfl,hhead,hline,hnext⟩ := h
    obtain ⟨u,rfl⟩ := List.head?_eq_some_iff.mp hhead
    rw [Tree.render,Parts.render,Parts.render,List.append_nil,List.cons_append,scan_line (.inl rfl),
      skipLine_append (fun hu => hline (List.mem_cons_of_mem _ hu)) hnext]
  | .node .slashes (.text s inner), _, h => by
    rw [TreeLexed] at h
    obtain ⟨rfl,⟨u,rfl⟩,hline,hnext⟩ := h
    rw [Tree.render,Parts.render,Parts.render,List.append_nil]
    change scanKeys stop level atKey ('/' :: ('/' :: u ++ next)) = _
    rw [scan_line (.inr ⟨rfl,rfl⟩),
      skipLine_append (s := '/' :: u) (fun hu => hline (List.mem_cons_of_mem _ hu)) hnext]
  | .node .block (.text s inner), _, h => by
    rw [TreeLexed] at h
    obtain ⟨rfl,inside,rfl,hinside⟩ := h
    rw [Tree.render,Parts.render,Parts.render,List.append_nil]
    change scanKeys stop level atKey ('/' :: '*' :: ((inside ++ ['*','/']) ++ next)) = _
    rw [scan_block,List.append_assoc]
    change scanKeys stop level atKey (skipBlock (inside ++ ('*' :: '/' :: next))) = _
    rw [skipBlock_append hinside]
  | .node .quoted _, h, _ => by cases h
  | .node .sequence _, h, _ => by cases h
  | .node (.heredoc _) _, h, _ => by cases h
  | .node .hash .nil, _, h => by simp [TreeLexed] at h
  | .node .hash (.child _ _), _, h => by simp [TreeLexed] at h
  | .node .slashes .nil, _, h => by simp [TreeLexed] at h
  | .node .slashes (.child _ _), _, h => by simp [TreeLexed] at h
  | .node .block .nil, _, h => by simp [TreeLexed] at h
  | .node .block (.child _ _), _, h => by simp [TreeLexed] at h

theorem skipLines_append {tag line body last : Rope}
    (h : lastLineOf (closes tag) line body = some last) :
    skipLines tag line (body ++ next) = skipLines tag last next := by
  fun_induction lastLineOf (closes tag) line body with
  | case1 line =>
    cases h
    rfl
  | case2 line s hcloses => cases h
  | case3 line s hcloses ih => rw [List.cons_append,skipLines,if_pos rfl,if_neg hcloses,ih h]
  | case4 line c s hc ih => rw [List.cons_append,skipLines,if_neg hc,ih h]

theorem closes_return {tag last : Rope} (h : closes tag last = true) : closes tag (last ++ ['\r']) = true := by
  have hdrop : (last ++ ['\r']).dropWhile isBlank = last.dropWhile isBlank ++ ['\r'] := by
    rw [List.dropWhile_append]
    split_ifs with hempty
    · rw [List.isEmpty_iff.mp hempty]
      rfl
    · rfl
  rw [closes,hdrop,List.rdropWhile_concat_pos _ _ _ (by decide)]
  exact h

theorem afterDash_of_head {s : Rope} (h : s.head?.any isIdentChar = true) : afterDash (s ++ next) = s ++ next := by
  cases s with
  | nil => cases h
  | cons c s =>
    have hc : c ≠ '-' := by
      rintro rfl
      have hdash : isIdentChar '-' = true := h
      exact absurd hdash (by decide)
    rw [List.cons_append,afterDash.eq_def]
    split
    · rename_i heq
      exact absurd (List.cons.inj heq).1 hc
    · rfl

/-- What a text begins with, before the first character of another kind. -/
theorem run_append {p : Char → Bool} {s : Rope} (next : Rope) (hs : s.all p = true)
    (hnext : next.head?.any p = false) :
    (s ++ next).takeWhile p = s ∧ (s ++ next).dropWhile p = next := by
  have hall := List.all_eq_true.mp hs
  rw [List.takeWhile_append_of_pos hall,List.dropWhile_append_of_pos hall]
  cases next with
  | nil => simp
  | cons c u =>
    have hc : ¬p c = true := by simpa using hnext
    rw [List.takeWhile_cons_of_neg hc,List.dropWhile_cons_of_neg hc,List.append_nil]
    exact ⟨rfl,rfl⟩

/-- Behind the first line of a heredoc come the lines of its body. -/
theorem skipHeredoc_opener {tag opener : Rope} (next : Rope) (h : Opener tag opener)
    (hname : tag.all isIdentContinue) :
    ∃ s, opener = '<' :: '<' :: s ∧ skipHeredoc (s ++ next) = skipLines tag [] next := by
  obtain ⟨⟨dash,rest,rfl,hdash,hrest⟩,-,hhead⟩ := h
  refine ⟨dash ++ (tag ++ (rest ++ ['\n'])),rfl,?_⟩
  have hafter : afterDash (dash ++ (tag ++ (rest ++ ['\n'])) ++ next) = tag ++ (rest ++ '\n' :: next) := by
    rcases hdash with rfl | rfl
    · rw [List.nil_append,List.append_assoc,afterDash_of_head hhead]
      simp
    · simp [afterDash]
  have hspace : ∀ c ∈ rest, isBlank c = true ∨ c = '\r' := by simpa using hrest
  have hstop : (rest ++ '\n' :: next).head?.any isIdentContinue = false := by
    cases rest with
    | nil => rfl
    | cons c rest =>
      rcases hspace c List.mem_cons_self with hc | rfl
      · rcases eq_of_isBlank hc with rfl | rfl <;> rfl
      · rfl
  obtain ⟨htag,hbehind⟩ := run_append _ hname hstop
  have hline : rest.all (fun c => decide (c ≠ '\n')) = true := List.all_eq_true.mpr fun c hc => by
    rcases hspace c hc with hblank | rfl
    · rcases eq_of_isBlank hblank with rfl | rfl <;> rfl
    · rfl
  obtain ⟨hopening,hbody⟩ := run_append ('\n' :: next) hline rfl
  have hnonempty : tag ≠ [] := by
    rintro rfl
    cases hhead
  rw [skipHeredoc,hafter,htag,hbehind,if_neg hnonempty,hopening,hbody,if_pos hrest]

theorem scan_heredoc {tag opener body lineEnd : Rope} (h : HeredocReadable tag opener body lineEnd) :
    scanKeys stop level atKey (opener ++ (body ++ lineEnd) ++ next) = scanKeys stop level true next := by
  obtain ⟨s,rfl,hskip⟩ := skipHeredoc_opener (body ++ lineEnd ++ next) h.opener h.name
  obtain ⟨last,hlast,hcloses⟩ := h.body
  have hlines : skipLines tag last (lineEnd ++ next) = some next := by
    rcases h.lineEnd with hend | hend
    · rw [hend,List.singleton_append,skipLines,if_pos rfl,if_pos hcloses]
    · rw [hend]
      change skipLines tag last ('\r' :: '\n' :: next) = _
      rw [skipLines,if_neg (by decide),skipLines,if_pos rfl,if_pos (closes_return hcloses)]
  have hsome : skipHeredoc (s ++ (body ++ lineEnd ++ next)) = some next := by
    rw [hskip,List.append_assoc,skipLines_append hlast,hlines]
  change scanKeys stop level atKey ('<' :: '<' :: (s ++ (body ++ lineEnd) ++ next)) = _
  rw [List.append_assoc s (body ++ lineEnd) next,scanKeys]
  simp only [Char.reduceEq,or_self,false_and,true_and,if_false,List.head?_cons,List.tail_cons,if_true]
  split
  · rename_i behind hbehind
    rw [hsome] at hbehind
    cases hbehind
    rfl
  · rename_i hnone
    rw [hsome] at hnone
    cases hnone

theorem scan_piece {d : ℕ} {b : Bool} {p : Piece} (h : p.Passes depth atKey next d b) :
    scanKeys stop (depth + 1) atKey (p.render ++ next) = scanKeys stop (d + 1) b next := by
  cases p with
  | code s => exact scan_value h.1 h.2
  | template inner =>
    obtain ⟨hkey,hlexed,hreadable,rfl,rfl⟩ := h
    rw [Piece.render,List.cons_append,scan_string (read_template [] hlexed hreadable),
      if_neg fun hone => hkey ⟨by omega,hone.2⟩]
  | comment t =>
    obtain ⟨hkind,hlexed,rfl,rfl⟩ := h
    exact scan_comment hkind hlexed
  | heredoc tag opener body lineEnd =>
    obtain ⟨hreadable,rfl,rfl⟩ := h
    exact scan_heredoc hreadable

/-- No key is found in a value. -/
theorem scan_passes {d : ℕ} {b : Bool} {ps : List Piece} (h : Passes depth atKey ps next d b) :
    scanKeys stop (depth + 1) atKey (renderAll ps ++ next) = scanKeys stop (d + 1) b next := by
  induction h with
  | nil => rfl
  | @cons depth depth' d atKey atKey' b p ps next hp _ ih =>
    rw [renderAll,List.flatMap_cons,List.append_assoc]
    exact (scan_piece hp).trans ih

theorem scan_separator {c : Char} (hc : isSeparator c = true) :
    scanKeys stop 1 atKey (c :: s) = scanKeys stop 1 true s := by
  have hor : c = ',' ∨ c = '\n' := by simpa [isSeparator] using hc
  rcases hor with rfl | rfl <;> rw [scanKeys] <;> simp

theorem scan_space (hs : s.all fun c => isSeparator c || isSpace c) :
    scanKeys stop 1 atKey (s ++ next) = scanKeys stop 1 (atKey || s.any isSeparator) next := by
  induction s generalizing atKey with
  | nil => rw [List.any_nil,Bool.or_false,List.nil_append]
  | cons c s ih =>
    rw [List.all_cons,Bool.and_eq_true] at hs
    rw [List.cons_append,List.any_cons]
    by_cases hc : isSeparator c = true
    · rw [scan_separator hc,ih hs.2,hc,Bool.true_or (s.any isSeparator),Bool.or_true]
    · have hspace : isSpace c = true := (Bool.or_eq_true _ _ ▸ hs.1).resolve_left hc
      rw [scan_blank (by simpa [isSpace] using hspace),ih hs.2,Bool.eq_false_iff.mpr hc,Bool.false_or]

theorem scan_leads {b : Bool} {ps : List Piece} (h : Leads atKey ps next b) :
    scanKeys stop 1 atKey (renderAll ps ++ next) = scanKeys stop 1 b next := by
  induction h with
  | nil => rfl
  | space hs _ ih =>
    rw [renderAll,List.flatMap_cons,List.append_assoc]
    exact (scan_space hs).trans ih
  | comment hkind hlexed _ ih =>
    rw [renderAll,List.flatMap_cons,List.append_assoc]
    exact (scan_comment hkind hlexed).trans ih

end pieces

/-- A word or a template that stands for itself is a key with the space behind it; any other key is
taken for a part of the value. -/
inductive ItemKey
  | word (s space : Rope)
  | template (inner : Parts Kind Rope) (space : Rope)
  | computed

namespace ItemKey

def render : ItemKey → Rope
  | word s space => s ++ space
  | template inner space => '"' :: (inner.render ++ space)
  | computed => []

def isComputed : ItemKey → Bool
  | computed => true
  | _ => false

def isWord : Rope → Bool
  | [] => false
  | c :: s => isIdentStart c && s.all isIdentContinue

def Lexed : ItemKey → Rope → Prop
  | word s space, next => isWord s ∧ space.all isBlank ∧ isSigned next
  | template inner space, next => PartsLexed .quotes inner (space ++ next) ∧
    PartsReadable true inner (space ++ next) ∧ space.all isBlank ∧ isSigned next
  | computed, _ => True

/-- The key as it is read, at the place it stands at. -/
def keys (start : ℕ) : ItemKey → Rope → List Key
  | word s _, _ => [⟨s,start,start + lenBytes s⟩]
  | template inner space, next =>
    [⟨quotesRead (space ++ next) inner,start,start + lenBytes ('"' :: inner.render)⟩]
  | computed, _ => []

end ItemKey

structure Item where
  gap : List Piece
  key : ItemKey
  value : List Piece

def Item.render (item : Item) : Rope := renderAll item.gap ++ (item.key.render ++ renderAll item.value)

def renderItems (items : List Item) : Rope := items.flatMap Item.render

/-- Items before a text, with whether a key may begin before and behind them. -/
inductive ItemsLexed : Bool → List Item → Rope → Bool → Prop
  | nil {atKey : Bool} {next : Rope} : ItemsLexed atKey [] next atKey
  | cons {atKey ends b : Bool} {item : Item} {items : List Item} {next : Rope} :
    Leads atKey item.gap (item.key.render ++ (renderAll item.value ++ (renderItems items ++ next))) true →
    item.key.Lexed (renderAll item.value ++ (renderItems items ++ next)) →
    Passes 0 item.key.isComputed item.value (renderItems items ++ next) 0 ends →
    ItemsLexed ends items next b → ItemsLexed atKey (item :: items) next b

def keysFrom : ℕ → List Item → Rope → List Key
  | _, [], _ => []
  | pos, item :: items, next =>
    item.key.keys (pos + lenBytes (renderAll item.gap)) (renderAll item.value ++ (renderItems items ++ next))
      ++ keysFrom (pos + lenBytes item.render) items next

/-- An object literal, with the pieces behind its last item. -/
structure ObjectLiteral where
  items : List Item
  tail : List Piece
  lexed : ∃ ends b, ItemsLexed true items (renderAll tail ++ ['\x7d']) ends ∧ Leads ends tail ['\x7d'] b

namespace ObjectLiteral

def render (object : ObjectLiteral) : Rope :=
  '\x7b' :: (renderItems object.items ++ (renderAll object.tail ++ ['\x7d']))

def keys (object : ObjectLiteral) (start : ℕ) : List Key :=
  keysFrom (start + 1) object.items (renderAll object.tail ++ ['\x7d'])

end ObjectLiteral

section objects

variable {stop pos : ℕ} {atKey : Bool} {s space next : Rope}

theorem sign_of_isSigned (h : isSigned next = true) : ∃ c u, next = c :: u ∧ (c = '=' ∨ c = ':') := by
  cases next with
  | nil => cases h
  | cons c u => exact ⟨c,u,rfl,by simpa [isSigned] using h⟩

theorem dropWhile_space (hspace : space.all isBlank = true) (hsigned : isSigned next = true) :
    (space ++ next).dropWhile isBlank = next := by
  obtain ⟨c,u,rfl,rfl | rfl⟩ := sign_of_isSigned hsigned
  · exact (run_append _ hspace rfl).2
  · exact (run_append _ hspace rfl).2

theorem scan_word (hword : ItemKey.isWord s = true) (hspace : space.all isBlank = true)
    (hsigned : isSigned next = true) (hstop : stop = pos + lenBytes (s ++ (space ++ next))) :
    scanKeys stop 1 true (s ++ (space ++ next)) =
      ⟨s,pos,pos + lenBytes s⟩ :: scanKeys stop 1 false next := by
  cases s with
  | nil => cases hword
  | cons c s =>
    rw [ItemKey.isWord,Bool.and_eq_true] at hword
    obtain ⟨hstart,hrest⟩ := hword
    have hne : ∀ d, isIdentStart d = false → c ≠ d := by
      rintro d hd rfl
      rw [hstart] at hd
      cases hd
    have hstops : (space ++ next).head?.any isIdentContinue = false := by
      cases space with
      | nil => obtain ⟨d,u,rfl,rfl | rfl⟩ := sign_of_isSigned hsigned <;> rfl
      | cons d space =>
        rw [List.all_cons,Bool.and_eq_true] at hspace
        rcases eq_of_isBlank hspace.1 with rfl | rfl <;> rfl
    obtain ⟨htake,hdrop⟩ := run_append _ hrest hstops
    rw [List.cons_append,scanKeys]
    simp only [hne '\x7b' rfl,hne '\x7d' rfl,hne '(' rfl,hne '[' rfl,hne ')' rfl,hne ']' rfl,
      hne ',' rfl,hne '\n' rfl,hne '#' rfl,hne '/' rfl,hne '"' rfl,hne '<' rfl,or_self,false_and,
      if_false,hstart,and_self,if_true,htake,hdrop,dropWhile_space hspace hsigned,hsigned]
    congr 3
    · rw [hstop]
      simp
    · rw [hstop]
      simp [lenBytes]
      omega

theorem scan_template {inner : Parts Kind Rope} (hlexed : PartsLexed .quotes inner (space ++ next))
    (hreadable : PartsReadable true inner (space ++ next)) (hspace : space.all isBlank = true)
    (hsigned : isSigned next = true)
    (hstop : stop = pos + lenBytes ('"' :: (inner.render ++ (space ++ next)))) :
    scanKeys stop 1 true ('"' :: (inner.render ++ (space ++ next))) =
      ⟨quotesRead (space ++ next) inner,pos,pos + lenBytes ('"' :: inner.render)⟩ ::
        scanKeys stop 1 false next := by
  rw [scan_string (read_template [] hlexed hreadable),if_pos ⟨rfl,rfl⟩,dropWhile_space hspace hsigned,
    if_pos hsigned,List.nil_append]
  congr 3
  · rw [hstop]
    simp
  · rw [hstop]
    simp [lenBytes]
    omega

theorem scan_key {key : ItemKey} (pos : ℕ) (h : key.Lexed next)
    (hstop : stop = pos + lenBytes (key.render ++ next)) :
    scanKeys stop 1 true (key.render ++ next) =
      key.keys pos next ++ scanKeys stop 1 key.isComputed next := by
  cases key with
  | word s space =>
    rw [ItemKey.render,List.append_assoc] at hstop ⊢
    exact scan_word h.1 h.2.1 h.2.2 hstop
  | template inner space =>
    rw [ItemKey.render,List.cons_append,List.append_assoc] at hstop ⊢
    exact scan_template h.1 h.2.1 h.2.2.1 h.2.2.2 hstop
  | computed => rfl

/-- The scan finds the keys of the items. -/
theorem scan_items {b : Bool} {items : List Item} (pos : ℕ) (h : ItemsLexed atKey items next b)
    (hstop : stop = pos + lenBytes (renderItems items ++ next)) :
    scanKeys stop 1 atKey (renderItems items ++ next) =
      keysFrom pos items next ++ scanKeys stop 1 b next := by
  induction h generalizing pos with
  | nil => rfl
  | @cons atKey ends b item items next hgap hkey hvalue _ ih =>
    rw [renderItems,List.flatMap_cons,← renderItems,Item.render] at hstop ⊢
    simp only [List.append_assoc] at hstop ⊢
    have hscan : scanKeys stop 1 item.key.isComputed
        (renderAll item.value ++ (renderItems items ++ next)) =
        scanKeys stop 1 ends (renderItems items ++ next) := scan_passes hvalue
    rw [scan_leads hgap,scan_key (pos + lenBytes (renderAll item.gap)) hkey (by simp [hstop]; omega),
      hscan,ih (pos + lenBytes item.render) (by simp [hstop,Item.render]; omega),keysFrom,
      List.append_assoc]

/-- The keys read from the text of an object are those of its items. -/
theorem extractTopLevelKeys_render (object : ObjectLiteral) (base : ℕ) :
    extractTopLevelKeys object.render base = object.keys base := by
  obtain ⟨ends,b,hitems,htail⟩ := object.lexed
  rw [extractTopLevelKeys,ObjectLiteral.render,if_pos List.head?_cons,scanKeys]
  simp only [if_true,zero_add,decide_true,Bool.or_true]
  have hbrace : '\x7b'.utf8Size = 1 := rfl
  rw [scan_items (base + 1) hitems (by rw [lenBytes_cons,hbrace]; omega),scan_leads htail,scanKeys]
  simp [ObjectLiteral.keys]

end objects

/-! ### The rule -/

section rule

variable {body : Scopes.Body} {rope : Rope} {literalAt : Span → ObjectLiteral}

theorem mem_repeated {seen : List Rope} {ks : List Key} {k : Key} : k ∈ repeated seen ks ↔
    ∃ before after, ks = before ++ k :: after ∧ (k.name ∈ seen ∨ k.name ∈ before.map Key.name) := by
  induction ks generalizing seen with
  | nil => simp [repeated]
  | cons first ks ih =>
    rw [repeated]
    constructor
    · intro h
      split_ifs at h with hfirst
      · rcases List.mem_cons.mp h with rfl | h
        · exact ⟨[],ks,rfl,.inl hfirst⟩
        · obtain ⟨before,after,rfl,hk⟩ := ih.mp h
          exact ⟨first :: before,after,rfl,hk.imp_right (List.mem_cons_of_mem _)⟩
      · obtain ⟨before,after,rfl,hk⟩ := ih.mp h
        refine ⟨first :: before,after,rfl,?_⟩
        rw [List.map_cons,List.mem_cons]
        rw [List.mem_cons] at hk
        tauto
    · rintro ⟨before,after,hks,hk⟩
      cases before with
      | nil =>
        obtain ⟨rfl,rfl⟩ := List.cons.inj hks
        rw [if_pos (hk.resolve_right List.not_mem_nil)]
        exact List.mem_cons_self
      | cons _ before =>
        obtain ⟨rfl,rfl⟩ := List.cons.inj hks
        rw [List.map_cons,List.mem_cons] at hk
        split_ifs with hfirst
        · refine List.mem_cons_of_mem _ (ih.mpr ⟨before,after,rfl,?_⟩)
          rcases hk with hk | hk | hk
          · exact .inl hk
          · exact .inl (hk ▸ hfirst)
          · exact .inr hk
        · refine ih.mpr ⟨before,after,rfl,?_⟩
          rw [List.mem_cons]
          tauto

/-- The spans of a body's objects hold literals. -/
def Written (body : Scopes.Body) (rope : Rope) (literalAt : Span → ObjectLiteral) : Prop :=
  ∀ span entries, .object (some span) entries ∈ Scopes.visitBody body →
    rope.At span (literalAt span).render

theorem objectDiagnostics_of_at {span : Span} {object : ObjectLiteral} (h : rope.At span object.render) :
    objectDiagnostics rope span = (repeated [] (object.keys span.1)).map (keyDiagnostic rope) := by
  have hslice := h.slice (ε:=Empty)
  obtain ⟨before,after,rfl,rfl⟩ := h
  rw [objectDiagnostics,if_neg (by simp),hslice]
  dsimp only
  rw [extractTopLevelKeys_render]

/-- A word and a template of the same name. -/
def twiceObject : ObjectLiteral where
  items := [⟨[.code "\n  ".toList],.word ['a'] [' '],[.code "= \x7b c = 1 \x7d".toList]⟩,
    ⟨[.code "\n  ".toList,.comment (.node .hash <| .text "# b".toList .nil),.code "\n  ".toList],
      .template (.text ['a'] <| .text ['"'] .nil) [' '],[.code "= f(".toList,
        .template (.text [')'] <| .text ['"'] .nil),.code ")".toList]⟩]
  tail := [.code ['\n']]
  lexed := by
    refine ⟨false,true,.cons (.space rfl .nil) ⟨rfl,rfl,rfl⟩ (.cons ⟨rfl,rfl⟩ .nil) <|
      .cons (.space rfl <| .comment rfl ?_ <| .space rfl .nil) ⟨?_,?_,rfl,rfl⟩
        (.cons ⟨rfl,rfl⟩ <| .cons ⟨by decide,?_,?_,rfl,rfl⟩ <| .cons ⟨rfl,rfl⟩ .nil) .nil,
      .space rfl .nil⟩
    · exact ⟨rfl,rfl,by decide,.inr rfl⟩
    · exact .inr ⟨rfl,.inl ⟨rfl,rfl⟩⟩
    · exact ⟨nofun,nofun,trivial⟩
    · exact .inr ⟨rfl,.inl ⟨rfl,rfl⟩⟩
    · exact ⟨nofun,nofun,trivial⟩

def twiceBody : Scopes.Body :=
  [.attribute ⟨"m",none,.object (some (4,4 + lenBytes twiceObject.render)) []⟩]

end rule

end DuplicateKeys
end TerraformLs
