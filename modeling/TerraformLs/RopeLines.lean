import TerraformLs.ByteText
import TerraformLs.LineBreaks

/-! The lines of a rope as the rope itself counts them: at line feeds, at carriage
returns that no line feed follows, and at the separators of Unicode. There are more of
them than lines in the sense of positions, and each starts no later. -/
namespace TerraformLs
namespace Rope

open Outcome Loops Recovery LineBreaks

/-- Vertical tab, form feed, next line, line separator and paragraph separator. -/
def unicodeBreaks : List Char := ['\x0b','\x0c','\u0085','\u2028','\u2029']

def endsFeed (c : Char) (_rest : Rope) : Bool := c = '\n'

/-- A carriage return that is not half of a line end. -/
def endsReturn (c : Char) (rest : Rope) : Bool := c = '\r' && rest.head? ≠ some '\n'

/-- A break of the rope that is none of positions. -/
def endsExtra (c : Char) (rest : Rope) : Bool := endsReturn c rest || unicodeBreaks.contains c

def endsRopeLine (c : Char) (rest : Rope) : Bool := endsFeed c rest || endsExtra c rest

section lookups

variable (rope : Rope)

def ropeStarts : List ℕ := starts Char.utf8Size endsRopeLine rope

def lenLines : ℕ := (ropeStarts rope).length

/-- The number of lines itself stands for the end of the rope; a larger one panics. -/
def lineToByte (lineIdx : ℕ) : Scan ℕ :=
  if lineIdx ≤ lenLines rope then .ok ((ropeStarts rope).getD lineIdx (lenBytes rope))
  else .panicked

def line (lineIdx : ℕ) : Scan Rope :=
  if lineIdx < lenLines rope then
    slice rope ((ropeStarts rope).getD lineIdx (lenBytes rope))
      ((ropeStarts rope).getD (lineIdx+1) (lenBytes rope))
  else .panicked

end lookups

variable {rope : Rope} {ends : Char → Rope → Bool}

theorem weight_utf8Size (rope : Rope) : weight Char.utf8Size rope = lenBytes rope := rfl

theorem lineStartBytesFrom_eq (pos : ℕ) (rope : Rope) :
    lineStartBytesFrom pos rope = breaksFrom Char.utf8Size endsFeed pos rope := by
  induction rope generalizing pos with
  | nil => rfl
  | cons c rope ih => simp only [lineStartBytesFrom,breaksFrom,endsFeed,ih,decide_eq_true_eq]

theorem lineStartBytes_eq (rope : Rope) :
    lineStartBytes rope = starts Char.utf8Size endsFeed rope := by
  rw [lineStartBytes,lineStartBytesFrom_eq,starts]

/-- The breaks of a rope end between characters. -/
theorem seam_of_mem_starts {i : ℕ} (h : i ∈ starts Char.utf8Size ends rope) : Seam rope i := by
  rcases List.mem_cons.mp h with rfl | h
  · exact seam_zero rope
  · obtain ⟨a,c,b,rfl,-,rfl⟩ := mem_breaksFrom.mp h
    exact ⟨a ++ [c],b,by simp,by simp [weight_utf8Size]⟩

theorem seam_getD_starts (n : ℕ) :
    Seam rope ((starts Char.utf8Size ends rope).getD n (lenBytes rope)) := by
  rw [List.getD_eq_getElem?_getD]
  cases h : (starts Char.utf8Size ends rope)[n]? with
  | none => exact seam_length rope
  | some i => exact seam_of_mem_starts (List.mem_of_getElem? h)

theorem endsRopeLine_eq (c : Char) (rest : Rope) :
    endsRopeLine c rest = (endsFeed c rest || endsExtra c rest) := rfl

theorem endsExtra_of_endsFeed (c : Char) (rest : Rope) (h : endsFeed c rest = true) :
    endsExtra c rest = false := by
  obtain rfl : c = '\n' := by simpa [endsFeed] using h
  rfl

/-- The rope counts every line feed as a break. -/
theorem length_lineStartBytes_le (rope : Rope) :
    (lineStartBytes rope).length ≤ lenLines rope := by
  have hcount : (breaksFrom Char.utf8Size endsRopeLine 0 rope).countP (fun _ => true) =
      (breaksFrom Char.utf8Size endsFeed 0 rope).countP (fun _ => true) +
        (breaksFrom Char.utf8Size endsExtra 0 rope).countP (fun _ => true) :=
    countP_breaksFrom _ endsRopeLine_eq endsExtra_of_endsFeed
  simp only [List.countP_true] at hcount
  rw [lenLines,ropeStarts,lineStartBytes_eq,starts,starts,List.length_cons,List.length_cons,hcount]
  omega

end Rope
end TerraformLs
