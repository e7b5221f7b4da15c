import TerraformLs.Recovery
import TerraformLs.BracketNesting
import TerraformLs.SaturatingCount

/-! The guard in front of the external parser: a scan of the bytes that counts opening
and closing brackets wherever they stand, and refuses a text whose count passes the
limit. -/
namespace TerraformLs
namespace Safe
open BracketNesting Recovery

def maxNestingDepth : ℕ := 500

def opensByte (b : UInt8) : Bool := b == 40 || b == 91 || b == 123

def closesByte (b : UInt8) : Bool := b == 41 || b == 93 || b == 125

/-- The scan from a running depth. -/
def scanFrom : ℕ → List UInt8 → Option ℕ
  | _, [] => none
  | depth, b :: rest =>
    if opensByte b then
      if maxNestingDepth < depth + 1 then some (depth + 1) else scanFrom (depth + 1) rest
    else if closesByte b then scanFrom (depth - 1) rest
    else scanFrom depth rest

def excessiveNestingDepth (source : Rope) : Option ℕ := scanFrom 0 (bytes source)

structure ParsePanic where
  message : String
  sourceExcerpt : Rope
  sourceBytes : ℕ

inductive BodyParseError (ε : Type)
  | syntaxError (error : ε)
  | panicked (panic : ParsePanic)

/-- What a panic carries: a text, or a value of another type. -/
inductive Payload
  | text (message : String)
  | other

def panicPayloadMessage : Payload → String
  | .text message => message
  | .other => "<non-string panic payload>"

/-- The first 256 characters, with line ends escaped. -/
def sourceExcerpt (source : Rope) : Rope :=
  let out : Rope := (source.take 256).flatMap fun c =>
    if c = '\n' then ['\\','n'] else if c = '\r' then ['\\','r'] else [c]
  if out.lenBytes < source.lenBytes then out ++ ['…'] else out

/-- `catch`: the answer of the external parser, or its panic. -/
def catchPanic {α : Type} (source : Rope) : Except Payload α → Except ParsePanic α
  | .ok value => .ok value
  | .error payload =>
    .error ⟨panicPayloadMessage payload,sourceExcerpt source,source.lenBytes⟩

def depthMessage (depth : ℕ) : String :=
  "input nesting depth " ++ toString depth ++ " exceeds the safe limit of " ++
    toString maxNestingDepth ++
    "; refused before parsing to avoid a recursive-descent stack overflow"

/-- `parse_body`; the external parser answers with a body or a syntax error, or
panics. -/
def parseBody {ε β : Type} (parse : Rope → Except Payload (Except ε β)) (source : Rope) :
    Except (BodyParseError ε) β :=
  match excessiveNestingDepth source with
  | some depth =>
    .error (.panicked ⟨depthMessage depth,sourceExcerpt source,source.lenBytes⟩)
  | none =>
    match catchPanic source (parse source) with
    | .error panic => .error (.panicked panic)
    | .ok (.error error) => .error (.syntaxError error)
    | .ok (.ok body) => .ok body

/-! The scan counts characters: the bytes of a character outside ASCII are no
brackets. -/

/-- The count of the scan after a text, from a depth, with no limit. -/
def runningDepth (depth : ℕ) (text : Rope) : ℕ :=
  SaturatingCount.count isOpener isCloser depth text

theorem notBracket_of_high {c : Char} (h : c.utf8Size ≠ 1) :
    ∀ b ∈ String.utf8EncodeChar c, opensByte b = false ∧ closesByte b = false := by
  intro b hb
  have hbit := high_bit h b hb
  have hne : ∀ a : UInt8, a.toBitVec.getLsbD 7 = false → (b == a) = false := by
    intro a ha
    rw [beq_eq_false_iff_ne]
    rintro rfl
    rw [hbit] at ha
    cases ha
  constructor
  · simp only [opensByte,hne 40 rfl,hne 91 rfl,hne 123 rfl,Bool.or_false]
  · simp only [closesByte,hne 41 rfl,hne 93 rfl,hne 125 rfl,Bool.or_false]

theorem toUInt8_beq {c d : Char} (hc : c.utf8Size = 1) (hd : d.utf8Size = 1) :
    (c.val.toUInt8 == d.val.toUInt8) = (c == d) := by
  rw [Bool.eq_iff_iff,beq_iff_eq,beq_iff_eq]
  exact ⟨eq_of_toUInt8 hc hd,fun h => by rw [h]⟩

theorem utf8Size_bracket {c : Char} (h : c.utf8Size ≠ 1) :
    isOpener c = false ∧ isCloser c = false := by
  constructor
  · cases hopener : isOpener c
    · rfl
    · obtain rfl | rfl | rfl := eq_of_isOpener hopener <;> exact absurd rfl h
  · cases hcloser : isCloser c
    · rfl
    · simp only [isCloser,Bool.or_eq_true,beq_iff_eq,or_assoc] at hcloser
      obtain rfl | rfl | rfl := hcloser <;> exact absurd rfl h

theorem opensByte_ascii {c : Char} (h : c.utf8Size = 1) :
    opensByte c.val.toUInt8 = isOpener c := by
  have hparen := toUInt8_beq (d := '(') h rfl
  have hsquare := toUInt8_beq (d := '[') h rfl
  have hbrace := toUInt8_beq (d := '{') h rfl
  rw [isOpener_eq,← hparen,← hsquare,← hbrace]
  rfl

theorem closesByte_ascii {c : Char} (h : c.utf8Size = 1) :
    closesByte c.val.toUInt8 = isCloser c := by
  have hparen := toUInt8_beq (d := ')') h rfl
  have hsquare := toUInt8_beq (d := ']') h rfl
  have hbrace := toUInt8_beq (d := '}') h rfl
  simp only [isCloser,← hparen,← hsquare,← hbrace]
  rfl

theorem scanFrom_other {buf : List UInt8}
    (h : ∀ b ∈ buf, opensByte b = false ∧ closesByte b = false) (depth : ℕ)
    (rest : List UInt8) : scanFrom depth (buf ++ rest) = scanFrom depth rest := by
  induction buf with
  | nil => rfl
  | cons b buf ih =>
    obtain ⟨hopen,hclose⟩ := h b List.mem_cons_self
    rw [List.cons_append,scanFrom,hopen,hclose]
    exact ih fun b hb => h b (List.mem_cons_of_mem _ hb)

/-- One character of the text in the scan. -/
theorem scanFrom_cons (depth : ℕ) (c : Char) (text : Rope) :
    scanFrom depth (bytes (c :: text)) =
      if isOpener c then
        if maxNestingDepth < depth + 1 then some (depth + 1)
        else scanFrom (depth + 1) (bytes text)
      else if isCloser c then scanFrom (depth - 1) (bytes text)
      else scanFrom depth (bytes text) := by
  rw [bytes_cons]
  by_cases hsize : c.utf8Size = 1
  · rw [String.utf8EncodeChar_eq_singleton hsize,List.singleton_append,scanFrom,
      opensByte_ascii hsize,closesByte_ascii hsize]
  · obtain ⟨hopen,hclose⟩ := utf8Size_bracket hsize
    rw [scanFrom_other (notBracket_of_high hsize),hopen,hclose]
    rfl

/-- The scan passes a text when its count stays within the limit throughout. -/
theorem scanFrom_eq_none_iff {depth : ℕ} (hdepth : depth ≤ maxNestingDepth) (text : Rope) :
    scanFrom depth (bytes text) = none ↔
      ∀ p, p <+: text → runningDepth depth p ≤ maxNestingDepth := by
  induction text generalizing depth with
  | nil => simpa [scanFrom,runningDepth] using hdepth
  | cons c text ih =>
    have hcons : (∀ p, p <+: c :: text → runningDepth depth p ≤ maxNestingDepth) ↔
        ∀ p, p <+: text → runningDepth (SaturatingCount.tick isOpener isCloser depth c) p ≤
          maxNestingDepth := by
      rw [forall_prefix_cons]
      exact and_iff_right hdepth
    rw [hcons,scanFrom_cons,SaturatingCount.tick]
    split_ifs with hopen hover hclose
    · simp only [false_iff,not_forall]
      exact ⟨[],List.nil_prefix,by simpa [runningDepth] using hover⟩
    · exact ih (by omega)
    · exact ih (by omega)
    · exact ih hdepth

theorem excessiveNestingDepth_eq_none_iff (source : Rope) :
    excessiveNestingDepth source = none ↔
      ∀ p, p <+: source → runningDepth 0 p ≤ maxNestingDepth :=
  scanFrom_eq_none_iff (Nat.zero_le _) source

/-- A refused text reports the first depth past the limit. -/
theorem scanFrom_eq_some {depth d : ℕ} (hdepth : depth ≤ maxNestingDepth)
    {text : Rope} (h : scanFrom depth (bytes text) = some d) : d = maxNestingDepth + 1 := by
  induction text generalizing depth with
  | nil => cases h
  | cons c text ih =>
    rw [scanFrom_cons] at h
    split_ifs at h with hopen hover hclose
    · cases h
      omega
    · exact ih (by omega) h
    · exact ih (by omega) h
    · exact ih hdepth h

/-- A refused text never reaches the external parser. -/
theorem parseBody_refused {ε β : Type} (parse : Rope → Except Payload (Except ε β))
    {source : Rope} (h : excessiveNestingDepth source ≠ none) :
    parseBody parse source = .error (.panicked
      ⟨depthMessage (maxNestingDepth + 1),sourceExcerpt source,source.lenBytes⟩) := by
  obtain ⟨d,hd⟩ := Option.ne_none_iff_exists'.mp h
  rw [parseBody,hd,scanFrom_eq_some (Nat.zero_le _) hd]

/-! When the count bounds the real nesting. -/

/-- Every closing bracket of a comment, string or heredoc that is met while brackets are
open has an unused opening bracket of such text before it; `spare` counts these. -/
def CoveredFrom : Lexer → ℕ → Rope → Prop
  | _, _, [] => True
  | σ, spare, c :: text =>
    if σ.reads c then CoveredFrom (σ.step c) spare text
    else if isOpener c then CoveredFrom (σ.step c) (spare + 1) text
    else if isCloser c then
      (0 < σ.depth → 0 < spare) ∧ CoveredFrom (σ.step c) (spare - 1) text
    else CoveredFrom (σ.step c) spare text

def Covered (source : Rope) : Prop := CoveredFrom .start 0 source

/-- A stretch of the text with more opening brackets beyond the closing ones than the
limit allows, wherever they stand. -/
def Stretched (source : Rope) : Prop :=
  ∃ t, t <:+: source ∧ t.countP isCloser + maxNestingDepth < t.countP isOpener

theorem surplus_eq (t : Rope) :
    SaturatingCount.surplus isOpener isCloser t = t.countP isOpener - t.countP isCloser := by
  have hcloser : (fun c => !isOpener c && isCloser c) = isCloser := by
    funext c
    cases hopener : isOpener c
    · rfl
    · rw [isCloser_of_isOpener hopener]; rfl
  rw [SaturatingCount.surplus,hcloser]

theorem excessiveNestingDepth_eq_none_iff_not_stretched (source : Rope) :
    excessiveNestingDepth source = none ↔ ¬Stretched source := by
  rw [excessiveNestingDepth_eq_none_iff]
  simp only [runningDepth]
  rw [SaturatingCount.count_le_iff]
  simp only [surplus_eq,Stretched,not_exists,not_and]
  refine forall_congr' fun t => forall_congr' fun _ => ?_
  omega

theorem coveredFrom_stopped (spare : ℕ) (text : Rope) :
    CoveredFrom ⟨.stopped,[]⟩ spare text := by
  induction text generalizing spare with
  | nil => trivial
  | cons c text ih =>
    simp only [CoveredFrom,Lexer.reads,Bool.false_eq_true,if_false]
    split_ifs
    · exact ih _
    · exact ⟨fun h => absurd h (by simp),ih _⟩
    · exact ih _

/-- The count stays above the open brackets exactly when the text is covered. -/
theorem coveredFrom_iff (σ : Lexer) (spare : ℕ) (text : Rope) :
    CoveredFrom σ spare text ↔
      ∀ p, p <+: text → (σ.run p).depth ≤ runningDepth (σ.depth + spare) p := by
  induction text generalizing σ spare with
  | nil => simp [CoveredFrom,runningDepth]
  | cons c text ih =>
    have hsplit : (∀ p, p <+: c :: text →
        (σ.run p).depth ≤ runningDepth (σ.depth + spare) p) ↔ ∀ p, p <+: text →
          ((σ.step c).run p).depth ≤
            runningDepth (SaturatingCount.tick isOpener isCloser (σ.depth + spare) c) p := by
      rw [forall_prefix_cons]
      exact and_iff_right (Nat.le_add_right _ _)
    rw [hsplit,CoveredFrom]
    cases effect σ c with
    | opened hopener hreads hdepth =>
      have hcount : SaturatingCount.tick isOpener isCloser (σ.depth + spare) c =
          (σ.step c).depth + spare := by
        simp only [SaturatingCount.tick,hopener,if_true,hdepth]
        omega
      rw [if_pos hreads,ih,hcount]
    | closed hcloser hreads hdepth =>
      have hcount : SaturatingCount.tick isOpener isCloser (σ.depth + spare) c =
          (σ.step c).depth + spare := by
        simp only [SaturatingCount.tick,isOpener_of_isCloser hcloser,hcloser,hdepth,if_true]
        simp only [Bool.false_eq_true,if_false]
        omega
      rw [if_pos hreads,ih,hcount]
    | ended hcloser hreads hstep =>
      rw [if_pos hreads,hstep]
      refine iff_of_true (coveredFrom_stopped spare text) fun p _ => ?_
      rw [Lexer.run_stopped]
      exact Nat.zero_le _
    | kept hreads hdepth =>
      rw [if_neg (by rw [hreads]; exact Bool.false_ne_true)]
      cases hopener : isOpener c
      · cases hcloser : isCloser c
        · simp only [SaturatingCount.tick,hopener,hcloser,Bool.false_eq_true,if_false]
          rw [ih,hdepth]
        · simp only [SaturatingCount.tick,hopener,hcloser,Bool.false_eq_true,if_false,if_true]
          by_cases hspare : 0 < σ.depth → 0 < spare
          · have hcount : σ.depth + spare - 1 = (σ.step c).depth + (spare - 1) := by omega
            rw [and_iff_right hspare,ih,hcount]
          · -- the count falls below the brackets that are open here
            refine iff_of_false (fun h => hspare h.1) fun h => ?_
            have hhere : (σ.step c).depth ≤ σ.depth + spare - 1 := h [] List.nil_prefix
            omega
      · have hcount : σ.depth + spare + 1 = (σ.step c).depth + (spare + 1) := by omega
        simp only [SaturatingCount.tick,hopener,if_true]
        rw [ih,hcount]

theorem covered_iff (source : Rope) :
    Covered source ↔ ∀ p, p <+: source → openAfter p ≤ runningDepth 0 p :=
  coveredFrom_iff .start 0 source

/-- The guard bounds the nesting of every text whose stray closing brackets are covered,
and of no other text does its count stay above the nesting. In the end it fails to bound
exactly the texts that nest too deep without any stretch that shows it. -/
theorem guard_bounds_iff (source : Rope) :
    ((excessiveNestingDepth source = none → nestingDepth source ≤ maxNestingDepth) ↔
        (maxNestingDepth < nestingDepth source → Stretched source)) ∧
      (Covered source ↔ ∀ p, p <+: source → openAfter p ≤ runningDepth 0 p) ∧
      (Covered source → excessiveNestingDepth source = none →
        nestingDepth source ≤ maxNestingDepth) := by
  refine ⟨?_,covered_iff source,?_⟩
  · rw [excessiveNestingDepth_eq_none_iff_not_stretched]
    constructor
    · intro h hdeep
      by_contra hstretched
      exact absurd (h hstretched) (by omega)
    · intro h hstretched
      by_contra hdeep
      exact hstretched (h (by omega))
  · intro hcovered hpasses
    rw [excessiveNestingDepth_eq_none_iff] at hpasses
    rw [nestingDepth_le_iff]
    intro p hp
    exact ((covered_iff source).mp hcovered p hp).trans (hpasses p hp)

/-! A list nested in itself whose every line ends in a commented bracket. -/

def commentedLine : Rope := "[ # ]\n".toList

def commentedList (k : ℕ) : Rope :=
  "a = ".toList ++ ((List.replicate k commentedLine).flatten ++ List.replicate k ']')

theorem run_commentedLines (k : ℕ) (stack : List Frame) :
    Lexer.run ⟨.code,stack⟩ (List.replicate k commentedLine).flatten =
      ⟨.code,List.replicate k (.bracket ']') ++ stack⟩ := by
  induction k generalizing stack with
  | zero => rfl
  | succ k ih =>
    have hline : Lexer.run ⟨.code,stack⟩ commentedLine = ⟨.code,.bracket ']' :: stack⟩ := rfl
    rw [List.replicate_succ,List.flatten_cons,Lexer.run_append,hline,ih,List.replicate_succ',
      List.append_assoc]
    rfl

theorem le_nestingDepth_commentedList (k : ℕ) : k ≤ nestingDepth (commentedList k) := by
  have hdeep := (nestingDepth_le_iff (commentedList k) _).mp le_rfl
    ("a = ".toList ++ (List.replicate k commentedLine).flatten)
    ⟨List.replicate k ']',List.append_assoc _ _ _⟩
  have hlead : Lexer.start.run "a = ".toList = ⟨.code,[]⟩ := rfl
  have hopen : openAfter ("a = ".toList ++ (List.replicate k commentedLine).flatten) = k := by
    rw [openAfter,Lexer.run_append,hlead,run_commentedLines,List.append_nil,depth_mk,
      List.countP_replicate]
    rfl
  rwa [hopen] at hdeep

theorem scanFrom_commentedLines (k : ℕ) (text : Rope) :
    scanFrom 0 (bytes ((List.replicate k commentedLine).flatten ++ text)) =
      scanFrom 0 (bytes text) := by
  induction k with
  | zero => rfl
  | succ k ih =>
    rw [List.replicate_succ,List.flatten_cons,List.append_assoc,bytes_append,← ih]
    rfl

theorem scanFrom_closers (k : ℕ) : scanFrom 0 (bytes (List.replicate k ']')) = none := by
  induction k with
  | zero => rfl
  | succ k ih =>
    rw [List.replicate_succ,scanFrom_cons]
    exact ih

theorem commentedList_passes (k : ℕ) : excessiveNestingDepth (commentedList k) = none := by
  have hlead : ∀ text, scanFrom 0 (bytes ("a = ".toList ++ text)) = scanFrom 0 (bytes text) :=
    fun text => by rw [bytes_append]; rfl
  rw [excessiveNestingDepth,commentedList,hlead,scanFrom_commentedLines,scanFrom_closers]

/-- Five hundred and one open lists pass the guard when each is followed by a comment
that holds a closing bracket. -/
theorem commented_brackets_hide_nesting :
    ¬∀ source, excessiveNestingDepth source = none →
      nestingDepth source ≤ maxNestingDepth := by
  intro h
  have hdeep := le_nestingDepth_commentedList (maxNestingDepth + 1)
  have hle := h _ (commentedList_passes (maxNestingDepth + 1))
  omega

end Safe
end TerraformLs
