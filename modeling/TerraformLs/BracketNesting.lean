import TerraformLs.Rope
import Mathlib.Data.List.Infix

/-! The brackets of an HCL text that open expressions and blocks, told apart from the
bracket characters of comments, of quoted strings and of heredocs. Interpolations and
directives (`${`, `%{`) lead back into code. Past a closing bracket that does not match
the innermost open one no parser goes on, and nothing is open any more. -/
namespace TerraformLs
namespace BracketNesting

/-- What is open around the place that is read, innermost first. -/
inductive Frame
  | bracket (closer : Char)
  | quoted
  | heredoc (tag : Rope)

def Frame.isBracket : Frame → Bool
  | .bracket _ => true
  | _ => false

/-- How the next character is read. The readings `slash`, `less`, `lessLess` and `tag`
are code whose last characters may begin a comment or a heredoc; `introducer` and
`doubled` are template text after one `$` (or `%`) and after several. -/
inductive Reading
  | code
  | slash
  | less
  | lessLess
  | tag (read : Rope)
  | lineComment
  | blockComment
  | star
  | template (line : Rope)
  | escape
  | introducer (sign : Char) (line : Rope)
  | doubled (sign : Char) (line : Rope)
  | stopped

structure Lexer where
  reading : Reading
  stack : List Frame

def Lexer.start : Lexer := ⟨.code,[]⟩

/-- The brackets that are open. -/
def Lexer.depth (σ : Lexer) : ℕ := σ.stack.countP Frame.isBracket

def closerOf : Char → Option Char
  | '(' => some ')'
  | '[' => some ']'
  | '{' => some '}'
  | _ => none

def isOpener (c : Char) : Bool := (closerOf c).isSome

def isCloser (c : Char) : Bool := c == ')' || c == ']' || c == '}'

/-- How text is read once the innermost construct is closed. A heredoc line that holds
an interpolation is not the line of its closing tag. -/
def home : List Frame → Reading
  | .quoted :: _ => .template []
  | .heredoc _ :: _ => .template ['}']
  | _ => .code

def isTagChar (c : Char) : Bool := c.isAlphanum || c == '_' || c == '-' || 128 ≤ c.val

/-- The collected line (last character first) is the closing tag of a heredoc, which
may be indented. -/
def closesHeredoc (tag line : Rope) : Bool :=
  let line := line.reverse.dropWhile fun c => c == ' ' || c == '\t'
  line == tag || line == tag ++ ['\r']

/-- A closing bracket in code. -/
def closeBracket (stack : List Frame) (c : Char) : Lexer :=
  match stack with
  | .bracket closer :: rest => if c = closer then ⟨home rest,rest⟩ else ⟨.stopped,[]⟩
  | _ => ⟨.stopped,[]⟩

def stepCode (stack : List Frame) (c : Char) : Lexer :=
  match closerOf c with
  | some closer => ⟨.code,.bracket closer :: stack⟩
  | none =>
    if isCloser c then closeBracket stack c
    else if c = '"' then ⟨.template [],.quoted :: stack⟩
    else if c = '#' then ⟨.lineComment,stack⟩
    else if c = '/' then ⟨.slash,stack⟩
    else if c = '<' then ⟨.less,stack⟩
    else ⟨.code,stack⟩

/-- A character of template text; quotes and escapes are special in a quoted string
only, line ends in a heredoc only. -/
def stepTemplate (stack : List Frame) (line : Rope) (c : Char) : Lexer :=
  if c = '$' ∨ c = '%' then ⟨.introducer c line,stack⟩
  else match stack with
  | .quoted :: rest =>
    if c = '"' then ⟨home rest,rest⟩
    else if c = '\\' then ⟨.escape,stack⟩
    else ⟨.template (c :: line),stack⟩
  | .heredoc tag :: rest =>
    if c = '\n' then
      if closesHeredoc tag line then ⟨home rest,rest⟩ else ⟨.template [],stack⟩
    else ⟨.template (c :: line),stack⟩
  | _ => ⟨.template (c :: line),stack⟩

def Lexer.step (σ : Lexer) (c : Char) : Lexer :=
  match σ.reading with
  | .code => stepCode σ.stack c
  | .slash =>
    if c = '/' then ⟨.lineComment,σ.stack⟩
    else if c = '*' then ⟨.blockComment,σ.stack⟩
    else stepCode σ.stack c
  | .less => if c = '<' then ⟨.lessLess,σ.stack⟩ else stepCode σ.stack c
  | .lessLess =>
    if c = '-' then ⟨.tag [],σ.stack⟩
    else if isTagChar c then ⟨.tag [c],σ.stack⟩
    else stepCode σ.stack c
  | .tag read =>
    if isTagChar c then ⟨.tag (c :: read),σ.stack⟩
    else if c = '\r' then ⟨.tag read,σ.stack⟩
    else if c = '\n' ∧ read ≠ [] then
      ⟨.template [],.heredoc read.reverse :: σ.stack⟩
    else stepCode σ.stack c
  | .lineComment => if c = '\n' then ⟨.code,σ.stack⟩ else σ
  | .blockComment => if c = '*' then ⟨.star,σ.stack⟩ else σ
  | .star =>
    if c = '/' then ⟨.code,σ.stack⟩
    else if c = '*' then σ
    else ⟨.blockComment,σ.stack⟩
  | .template line => stepTemplate σ.stack line c
  | .escape => ⟨.template ['\\'],σ.stack⟩
  | .introducer sign line =>
    if c = '{' then ⟨.code,.bracket '}' :: σ.stack⟩
    else if c = sign then ⟨.doubled sign (sign :: line),σ.stack⟩
    else stepTemplate σ.stack (sign :: line) c
  | .doubled sign line =>
    -- after `$${` the brace is literal
    if c = '{' then ⟨.template ('{' :: sign :: line),σ.stack⟩
    else if c = sign then σ
    else stepTemplate σ.stack (sign :: line) c
  | .stopped => σ

def Lexer.run (σ : Lexer) (text : Rope) : Lexer := text.foldl Lexer.step σ

/-- The brackets open after a text. -/
def openAfter (text : Rope) : ℕ := (Lexer.start.run text).depth

/-- The most brackets open at once, from a state on. -/
def deepestFrom : Lexer → Rope → ℕ
  | σ, [] => σ.depth
  | σ, c :: text => max σ.depth (deepestFrom (σ.step c) text)

/-- The bracket nesting depth of a text. -/
def nestingDepth (text : Rope) : ℕ := deepestFrom .start text

/-- A bracket character that is read as a bracket of an expression or of a block. -/
def Lexer.reads (σ : Lexer) (c : Char) : Bool :=
  match σ.reading with
  | .code | .slash | .less | .lessLess | .tag _ => isOpener c || isCloser c
  | .introducer _ _ => c == '{'
  | _ => false

@[simp] theorem Lexer.run_nil (σ : Lexer) : σ.run [] = σ := rfl

@[simp] theorem Lexer.run_cons (σ : Lexer) (c : Char) (text : Rope) :
    σ.run (c :: text) = (σ.step c).run text := rfl

theorem Lexer.run_append (σ : Lexer) (a b : Rope) : σ.run (a ++ b) = (σ.run a).run b :=
  List.foldl_append

theorem forall_prefix_cons {P : Rope → Prop} (c : Char) (text : Rope) :
    (∀ p, p <+: c :: text → P p) ↔ P [] ∧ ∀ p, p <+: text → P (c :: p) := by
  constructor
  · intro h
    exact ⟨h [] List.nil_prefix,fun p hp => h (c :: p) (List.cons_prefix_cons.mpr ⟨rfl,hp⟩)⟩
  · rintro ⟨hnil,hcons⟩ p hp
    cases p with
    | nil => exact hnil
    | cons d p =>
      obtain ⟨rfl,htail⟩ := List.cons_prefix_cons.mp hp
      exact hcons p htail

theorem deepestFrom_le_iff (σ : Lexer) (text : Rope) (bound : ℕ) :
    deepestFrom σ text ≤ bound ↔ ∀ p, p <+: text → (σ.run p).depth ≤ bound := by
  induction text generalizing σ with
  | nil => simp [deepestFrom]
  | cons c text ih =>
    simp only [deepestFrom,Nat.max_le,ih]
    rw [forall_prefix_cons]
    rfl

theorem nestingDepth_le_iff (text : Rope) (bound : ℕ) :
    nestingDepth text ≤ bound ↔ ∀ p, p <+: text → openAfter p ≤ bound :=
  deepestFrom_le_iff .start text bound

/-! What one character does to the depth. -/

theorem eq_of_isOpener {c : Char} (h : isOpener c = true) : c = '(' ∨ c = '[' ∨ c = '{' := by
  unfold isOpener closerOf at h
  split at h <;> simp_all

theorem isOpener_eq (c : Char) : isOpener c = (c == '(' || c == '[' || c == '{') := by
  rw [Bool.eq_iff_iff]
  simp only [Bool.or_eq_true,beq_iff_eq,or_assoc]
  refine ⟨eq_of_isOpener,?_⟩
  rintro (rfl | rfl | rfl) <;> rfl

theorem isCloser_of_isOpener {c : Char} (h : isOpener c = true) : isCloser c = false := by
  obtain rfl | rfl | rfl := eq_of_isOpener h <;> rfl

theorem isOpener_of_isCloser {c : Char} (h : isCloser c = true) : isOpener c = false := by
  cases hopener : isOpener c
  · rfl
  · rw [isCloser_of_isOpener hopener] at h
    cases h

theorem not_bracket_of_tagChar {c : Char} (h : isTagChar c = true) :
    (isOpener c || isCloser c) = false := by
  cases hopener : isOpener c
  · cases hcloser : isCloser c
    · rfl
    · simp only [isCloser,Bool.or_eq_true,beq_iff_eq,or_assoc] at hcloser
      obtain rfl | rfl | rfl := hcloser <;> simp [isTagChar] at h
  · obtain rfl | rfl | rfl := eq_of_isOpener hopener <;> simp [isTagChar] at h

/-- A character opens a bracket, closes the innermost one, ends the reading at a
closing bracket that matches none, or leaves the depth as it is. -/
inductive Effect (σ : Lexer) (c : Char) : Prop
  | opened (hopener : isOpener c = true) (hreads : σ.reads c = true)
      (hdepth : (σ.step c).depth = σ.depth + 1)
  | closed (hcloser : isCloser c = true) (hreads : σ.reads c = true)
      (hdepth : σ.depth = (σ.step c).depth + 1)
  | ended (hcloser : isCloser c = true) (hreads : σ.reads c = true)
      (hstep : σ.step c = ⟨.stopped,[]⟩)
  | kept (hreads : σ.reads c = false) (hdepth : (σ.step c).depth = σ.depth)

@[simp] theorem depth_mk (reading : Reading) (stack : List Frame) :
    Lexer.depth ⟨reading,stack⟩ = stack.countP Frame.isBracket := rfl

@[simp] theorem countP_bracket (closer : Char) (stack : List Frame) :
    (Frame.bracket closer :: stack).countP Frame.isBracket =
      stack.countP Frame.isBracket + 1 := List.countP_cons_of_pos rfl

@[simp] theorem countP_quoted (stack : List Frame) :
    (Frame.quoted :: stack).countP Frame.isBracket = stack.countP Frame.isBracket :=
  List.countP_cons_of_neg (by decide)

@[simp] theorem countP_heredoc (tag : Rope) (stack : List Frame) :
    (Frame.heredoc tag :: stack).countP Frame.isBracket =
      stack.countP Frame.isBracket :=
  List.countP_cons_of_neg Bool.false_ne_true

theorem depth_stepTemplate (stack : List Frame) (line : Rope) (c : Char) :
    (stepTemplate stack line c).depth = stack.countP Frame.isBracket := by
  unfold stepTemplate
  split
  · rfl
  · split
    · split_ifs <;> simp
    · split_ifs <;> simp
    · rfl

theorem effect_code {σ : Lexer} {c : Char} (hstep : σ.step c = stepCode σ.stack c)
    (hreads : σ.reads c = (isOpener c || isCloser c)) : Effect σ c := by
  obtain ⟨reading,stack⟩ := σ
  unfold stepCode at hstep
  split at hstep
  next closer hcloser =>
    have hopener : isOpener c = true := by simp [isOpener,hcloser]
    exact .opened hopener (by rw [hreads,hopener]; rfl) (by rw [hstep]; simp)
  next hnone =>
    have hopener : isOpener c = false := by simp [isOpener,hnone]
    rw [hopener,Bool.false_or] at hreads
    cases hcloser : isCloser c
    · refine .kept (hreads.trans hcloser) ?_
      rw [hstep,hcloser]
      simp only [Bool.false_eq_true,if_false]
      split_ifs <;> simp
    · rw [hcloser] at hreads hstep
      simp only [if_true] at hstep
      unfold closeBracket at hstep
      split at hstep
      · split_ifs at hstep
        · exact .closed hcloser hreads (by rw [hstep]; simp)
        · exact .ended hcloser hreads hstep
      · exact .ended hcloser hreads hstep

theorem effect (σ : Lexer) (c : Char) : Effect σ c := by
  obtain ⟨reading,stack⟩ := σ
  cases reading with
  | code => exact effect_code rfl rfl
  | slash =>
    by_cases hline : c = '/'
    · subst hline; exact .kept rfl rfl
    by_cases hblock : c = '*'
    · subst hblock; exact .kept rfl rfl
    exact effect_code (by simp [Lexer.step,hline,hblock]) rfl
  | less =>
    by_cases hless : c = '<'
    · subst hless; exact .kept rfl rfl
    exact effect_code (by simp [Lexer.step,hless]) rfl
  | lessLess =>
    by_cases hdash : c = '-'
    · subst hdash; exact .kept rfl rfl
    by_cases htag : isTagChar c = true
    · exact .kept (not_bracket_of_tagChar htag) (by simp [Lexer.step,hdash,htag])
    exact effect_code (by simp [Lexer.step,hdash,htag]) rfl
  | tag read =>
    by_cases htag : isTagChar c = true
    · exact .kept (not_bracket_of_tagChar htag) (by simp [Lexer.step,htag])
    by_cases hcr : c = '\r'
    · subst hcr; exact .kept rfl rfl
    by_cases hlf : c = '\n' ∧ read ≠ []
    · obtain ⟨rfl,hread⟩ := hlf
      exact .kept rfl (by simp [Lexer.step,htag,hread])
    exact effect_code (by simp [Lexer.step,htag,hcr,hlf]) rfl
  | lineComment =>
    refine .kept rfl ?_
    simp only [Lexer.step]
    split_ifs <;> rfl
  | blockComment =>
    refine .kept rfl ?_
    simp only [Lexer.step]
    split_ifs <;> rfl
  | star =>
    refine .kept rfl ?_
    simp only [Lexer.step]
    split_ifs <;> rfl
  | template line => exact .kept rfl (depth_stepTemplate stack line c)
  | escape => exact .kept rfl rfl
  | introducer sign line =>
    by_cases hbrace : c = '{'
    · subst hbrace; exact .opened rfl rfl (by simp [Lexer.step])
    refine .kept (by simp [Lexer.reads,hbrace]) ?_
    simp only [Lexer.step,if_neg hbrace]
    split_ifs
    · rfl
    · exact depth_stepTemplate stack _ c
  | doubled sign line =>
    refine .kept rfl ?_
    simp only [Lexer.step]
    split_ifs
    · rfl
    · rfl
    · exact depth_stepTemplate stack _ c
  | stopped => exact .kept rfl rfl

theorem Lexer.run_stopped (stack : List Frame) (text : Rope) :
    Lexer.run ⟨.stopped,stack⟩ text = ⟨.stopped,stack⟩ := by
  induction text with
  | nil => rfl
  | cons c text ih => exact ih

end BracketNesting
end TerraformLs
