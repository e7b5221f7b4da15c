import Mathlib.Algebra.BigOperators.Group.List.Basic
import Mathlib.Algebra.GroupWithZero.Nat

/-! Text buffers and editor positions. A rope is its sequence of characters;
byte offsets are UTF-8 offsets and columns are UTF-16 code units, and a line
ends at a line feed only. -/
namespace TerraformLs

structure Position where
  line : ℕ
  character : ℕ
  deriving DecidableEq

structure Range where
  start : Position
  «end» : Position
  deriving DecidableEq

/-- Errors of the parser crate, the position conversions included. -/
inductive ParseError
  | syntaxError (message : String)
  | panicked (message sourceExcerpt : String) (sourceBytes : ℕ)
  | fileRead (path : String)
  | lineOutOfBounds (line totalLines : ℕ)
  | characterOutOfBounds (line character : ℕ)
  | byteOffsetOutOfBounds (offset length : ℕ)
  | json (message : String)
  deriving DecidableEq

abbrev Rope := List Char

namespace Rope

def lenBytes (rope : Rope) : ℕ := (rope.map Char.utf8Size).sum

/-- The index of the character that holds byte `b`. -/
def byteToChar : Rope → ℕ → ℕ
  | [], _ => 0
  | c::cs, b => if b < c.utf8Size then 0 else byteToChar cs (b - c.utf8Size) + 1

def charToByte (rope : Rope) (n : ℕ) : ℕ := lenBytes (rope.take n)

def byteSlice (rope : Rope) (start stop : ℕ) : Rope :=
  (rope.take (byteToChar rope stop)).drop (byteToChar rope start)

def utf16Len (c : Char) : ℕ := if c.toNat ≤ 0xFFFF then 1 else 2

def lenUtf16Cu (rope : Rope) : ℕ := (rope.map utf16Len).sum

/-- The index of the character that code unit `cu` belongs to. -/
def utf16CuToChar : Rope → ℕ → ℕ
  | [], _ => 0
  | c::cs, cu => if cu < utf16Len c then 0 else utf16CuToChar cs (cu - utf16Len c) + 1

def lineStartBytesFrom : ℕ → Rope → List ℕ
  | _, [] => []
  | bytePos, c::cs =>
    let next := bytePos + c.utf8Size
    if c = '\n' then next :: lineStartBytesFrom next cs else lineStartBytesFrom next cs

/-- The byte at which each line starts; the first entry is always `0`. -/
def lineStartBytes (rope : Rope) : List ℕ := 0 :: lineStartBytesFrom 0 rope

def lineByteRange (lineStarts : List ℕ) (lineIdx totalBytes : ℕ) : ℕ × ℕ :=
  (lineStarts.getD lineIdx 0,lineStarts.getD (lineIdx+1) totalBytes)

/-- Characters of a line before its line feed and a carriage return in front of it. -/
def visibleChars (line : Rope) : ℕ :=
  if line.getLast? = some '\n' then
    if line.dropLast.getLast? = some '\r' then line.length - 2 else line.length - 1
  else line.length

/-- A column past the end of the line is clamped to it; only a line past the
end of the document is refused. -/
def lspPositionToByteOffset (rope : Rope) (pos : Position) : Except ParseError ℕ :=
  let lineStarts := lineStartBytes rope
  if lineStarts.length ≤ pos.line then
    .error (.lineOutOfBounds pos.line lineStarts.length)
  else
    let bounds := lineByteRange lineStarts pos.line (lenBytes rope)
    let line := byteSlice rope bounds.1 bounds.2
    let visible := line.take (visibleChars line)
    let cu := min pos.character (lenUtf16Cu visible)
    .ok (bounds.1 + charToByte line (utf16CuToChar line cu))

/-- The last line that starts at or before `offset`. -/
def lineOf (lineStarts : List ℕ) (offset : ℕ) : ℕ :=
  (lineStarts.filter fun start => start ≤ offset).length - 1

def byteOffsetToLspPosition (rope : Rope) (offset : ℕ) : Except ParseError Position :=
  let totalBytes := lenBytes rope
  if totalBytes < offset then .error (.byteOffsetOutOfBounds offset totalBytes) else
    let lineStarts := lineStartBytes rope
    let lineIdx := lineOf lineStarts offset
    .ok ⟨lineIdx,lenUtf16Cu (byteSlice rope (lineStarts.getD lineIdx 0) offset)⟩

def hclSpanToLspRange (rope : Rope) (span : ℕ × ℕ) : Except ParseError Range := do
  let start ← byteOffsetToLspPosition rope span.1
  let stop ← byteOffsetToLspPosition rope span.2
  return ⟨start,stop⟩

/-- The only refusal names the line asked for and the number of lines there are. -/
theorem lspPositionToByteOffset_error {rope : Rope} {pos : Position} {e : ParseError} :
    lspPositionToByteOffset rope pos = .error e ↔
      (lineStartBytes rope).length ≤ pos.line ∧
        e = .lineOutOfBounds pos.line (lineStartBytes rope).length := by
  unfold lspPositionToByteOffset
  dsimp only
  split
  · rename_i h
    simp [h,eq_comm]
  · rename_i h
    simp [h]

example : lspPositionToByteOffset "ab\ncd".toList ⟨1,9⟩ = .ok 5 := by rfl

end Rope
end TerraformLs
