import TerraformLs.GitUrls
import TerraformLs.TextTrees

/-! The lexical structure of a document: its comments, templates and heredocs with the code
between them, as a tree whose text is the document. -/
namespace TerraformLs
namespace LexicalTrees

open GitRefs TextTrees

inductive Kind
  | hash | slashes | block | quoted | sequence
  | heredoc (tag : Rope)
  deriving DecidableEq

abbrev Source := Tree Kind Rope

/-! ### Code -/

/-- What an identifier may go on with; letters beyond ASCII are taken together. -/
def isIdentChar (c : Char) : Bool := c.isAlphanum || c = '_' || 128 ≤ c.toNat

def afterDash : Rope → Rope
  | '-' :: s => s
  | s => s

def opensHeredoc : Rope → Bool
  | '<' :: '<' :: s => (afterDash s).head?.any isIdentChar
  | _ => false

/-- A quoted template, a comment or a heredoc begins. -/
def opensSign (s : Rope) : Bool :=
  s.head? = some '"' || s.head? = some '#' || "//".toList.isPrefixOf s || "/*".toList.isPrefixOf s ||
    opensHeredoc s

/-- No sign begins in a text, which another one follows. -/
def isQuiet (next : Rope) : Rope → Bool
  | [] => true
  | c :: s => !opensSign (c :: s ++ next) && isQuiet next s

/-- No token outside of templates and comments has a backslash. -/
def isCode (next s : Rope) : Bool := isQuiet next s && !s.contains '\\'

/-- The depth of braces behind a text, which closes none but its own. -/
def bracesAfter : ℕ → Rope → Option ℕ
  | depth, [] => some depth
  | depth, c :: s =>
    if c = '\x7b' then bracesAfter (depth + 1) s
    else if c = '\x7d' then if depth = 0 then none else bracesAfter (depth - 1) s
    else bracesAfter depth s

/-! ### Templates -/

def opensSequence (s : Rope) : Bool := "$\x7b".toList.isPrefixOf s || "%\x7b".toList.isPrefixOf s

/-- A doubled sign stands for the sign. -/
def escapesSequence (s : Rope) : Bool := "$$\x7b".toList.isPrefixOf s || "%%\x7b".toList.isPrefixOf s

/-- What an escape has still to come. -/
inductive Escape
  | done | any | sign | brace
  deriving DecidableEq

/-- The text of a template, up to a sequence or its end. -/
def isLiteral (quoted : Bool) (next : Rope) : Escape → Rope → Bool
  | e, [] => e = .done
  | .any, c :: s => c ≠ '\n' && isLiteral quoted next .done s
  | .sign, c :: s => (c = '$' || c = '%') && isLiteral quoted next .brace s
  | .brace, c :: s => c = '\x7b' && isLiteral quoted next .done s
  | .done, c :: s =>
    if quoted && c = '\\' then isLiteral quoted next .any s
    else if escapesSequence (c :: s ++ next) then isLiteral quoted next .sign s
    else !(quoted && (c = '"' || c = '\n')) && !opensSequence (c :: s ++ next) &&
      isLiteral quoted next .done s

def isBlank (c : Char) : Bool := c = ' ' || c = '\t'

/-- The line a text ends in, if none of its lines before is an end. -/
def lastLineOf (ends : Rope → Bool) : Rope → Rope → Option Rope
  | line, [] => some line
  | line, c :: s =>
    if c = '\n' then if ends line then none else lastLineOf ends [] s
    else lastLineOf ends (line ++ [c]) s

/-- A line that closes a heredoc. -/
def closes (tag line : Rope) : Bool :=
  (line.dropWhile isBlank).rdropWhile (fun c => isBlank c || c = '\r') = tag

/-! ### Trees -/

/-- Where the parts of a tree stand. -/
inductive Context
  | document | quotes
  | sequence (depth : ℕ)
  /-- In a line of the body, with what is before in that line. -/
  | heredoc (tag line : Rope)

def AtLineEnd (next : Rope) : Prop := next = [] ∨ next.head? = some '\n'

/-- The first line of a heredoc. -/
structure Opener (tag s : Rope) : Prop where
  split : ∃ dash rest, s = "<<".toList ++ (dash ++ (tag ++ (rest ++ ['\n']))) ∧
    (dash = [] ∨ dash = ['-']) ∧ rest.all fun c => isBlank c || c = '\r'
  name : tag.all fun c => isIdentChar c || c = '-'
  head : tag.head?.any isIdentChar

mutual

/-- A tree of the lexical grammar, before a text. -/
def TreeLexed : Source → Rope → Prop
  | .node .hash (.text s inner), next =>
    inner = .nil ∧ s.head? = some '#' ∧ '\n' ∉ s ∧ AtLineEnd next
  | .node .slashes (.text s inner), next =>
    inner = .nil ∧ ['/','/'] <+: s ∧ '\n' ∉ s ∧ AtLineEnd next
  | .node .block (.text s inner), _ => inner = .nil ∧
    ∃ inside, s = ['/','*'] ++ (inside ++ ['*','/']) ∧ ¬['*','/'] <:+: inside ++ ['*']
  | .node .quoted (.text s inner), next => s = ['"'] ∧ PartsLexed .quotes inner next
  | .node .sequence (.text s inner), next =>
    (s = "$\x7b".toList ∨ s = "%\x7b".toList) ∧ PartsLexed (.sequence 0) inner next
  | .node (.heredoc tag) (.text s inner), next =>
    Opener tag s ∧ PartsLexed (.heredoc tag []) inner next ∧
      (AtLineEnd next ∨ ['\r','\n'] <+: next)
  | .node _ .nil, _ => False
  | .node _ (.child _ _), _ => False

/-- Parts of a tree, before a text. The last of them closes what they are in. -/
def PartsLexed : Context → Parts Kind Rope → Rope → Prop
  | .document, .nil, _ => True
  | .document, .text s rest, next => isCode (rest.render ++ next) s ∧ PartsLexed .document rest next
  | .document, .child t rest, next =>
    t.kind ≠ .sequence ∧ TreeLexed t (rest.render ++ next) ∧ PartsLexed .document rest next
  | .quotes, .nil, _ => False
  | .quotes, .text s rest, next => (rest = .nil ∧ s = ['"']) ∨
    (isLiteral true (rest.render ++ next) .done s ∧ PartsLexed .quotes rest next)
  | .quotes, .child t rest, next =>
    t.kind = .sequence ∧ TreeLexed t (rest.render ++ next) ∧ PartsLexed .quotes rest next
  | .sequence _, .nil, _ => False
  | .sequence depth, .text s rest, next => (rest = .nil ∧ s = ['\x7d'] ∧ depth = 0) ∨
    (isCode (rest.render ++ next) s ∧
      ∃ d, bracesAfter depth s = some d ∧ PartsLexed (.sequence d) rest next)
  | .sequence depth, .child t rest, next =>
    t.kind ≠ .sequence ∧ TreeLexed t (rest.render ++ next) ∧ PartsLexed (.sequence depth) rest next
  | .heredoc _ _, .nil, _ => False
  | .heredoc tag line, .text s rest, next =>
    (rest = .nil ∧ line = [] ∧ ∃ indent, s = indent ++ tag ∧ indent.all isBlank) ∨
      (isLiteral false (rest.render ++ next) .done s ∧
        ∃ line', lastLineOf (closes tag) line s = some line' ∧ PartsLexed (.heredoc tag line') rest next)
  | .heredoc tag line, .child t rest, next => t.kind = .sequence ∧ TreeLexed t (rest.render ++ next) ∧
    PartsLexed (.heredoc tag (line ++ ['$'])) rest next

end

variable {ctx : Context} {t : Source} {rest : Parts Kind Rope} {s next : Rope}

theorem PartsLexed.text (h : PartsLexed ctx (.text s rest) next) :
    rest = .nil ∨ ∃ ctx', PartsLexed ctx' rest next := by
  cases ctx with
  | document =>
    rw [PartsLexed] at h
    exact .inr ⟨_,h.2⟩
  | quotes =>
    rw [PartsLexed] at h
    exact h.imp And.left fun h => ⟨_,h.2⟩
  | sequence depth =>
    rw [PartsLexed] at h
    exact h.imp And.left fun ⟨_,d,_,h⟩ => ⟨_,h⟩
  | heredoc tag line =>
    rw [PartsLexed] at h
    exact h.imp And.left fun ⟨_,line',_,h⟩ => ⟨_,h⟩

theorem PartsLexed.child (h : PartsLexed ctx (.child t rest) next) :
    TreeLexed t (rest.render ++ next) ∧ ∃ ctx', PartsLexed ctx' rest next := by
  cases ctx with
  | document =>
    rw [PartsLexed] at h
    exact ⟨h.2.1,_,h.2.2⟩
  | quotes =>
    rw [PartsLexed] at h
    exact ⟨h.2.1,_,h.2.2⟩
  | sequence depth =>
    rw [PartsLexed] at h
    exact ⟨h.2.1,_,h.2.2⟩
  | heredoc tag line =>
    rw [PartsLexed] at h
    exact ⟨h.2.1,_,h.2.2⟩

theorem TreeLexed.inner {kind : Kind} {inner : Parts Kind Rope}
    (h : TreeLexed (.node kind (.text s inner)) next) : inner = .nil ∨ ∃ ctx', PartsLexed ctx' inner next := by
  cases kind <;> rw [TreeLexed] at h
  case hash => exact .inl h.1
  case slashes => exact .inl h.1
  case block => exact .inl h.1
  case quoted => exact .inr ⟨_,h.2⟩
  case sequence => exact .inr ⟨_,h.2⟩
  case heredoc => exact .inr ⟨_,h.2.1⟩

/-- A text as the lexical structure of a document. -/
def Lexed (parts : Parts Kind Rope) : Prop := PartsLexed .document parts []

end LexicalTrees
end TerraformLs
