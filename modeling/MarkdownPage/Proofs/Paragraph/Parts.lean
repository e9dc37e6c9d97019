import Mathlib.Data.List.Chain
import MarkdownPage.Proofs.Paragraph

/-!
The lines of a text in parts. A block goes from the line that opens it to the first line that closes
it, and each of its lines stays as it is. Outside of blocks, a blank line becomes an empty line, and
a run of lines of prose that is as long as it can be becomes one paragraph.
-/

namespace MarkdownPage.Paragraph

open Text

inductive Part where
  | block (tag : Text) (ls : List Line)
  | blank (l : Line)
  | prose (ls : List Line)

namespace Part

def lines : Part → List Line
  | block _ ls => ls
  | blank l => [l]
  | prose ls => ls

/-- The lines written for a part: one for each line of a block, and one for any other part. -/
def html : Part → List Line
  | block _ ls => ls
  | blank _ => [[]]
  | prose ls => [Html.paragraph ([' '].intercalate (ls.map trim))]

def Formed : Part → Prop
  | block tag ls =>
    (∃ l ∈ ls.head?, Block.opened? (trim l) = some tag) ∧
      ∀ l ∈ ls.dropLast, ¬ Html.closeTag tag <:+: l
  | blank l => isBlank l = true
  | prose ls => ls ≠ [] ∧ ∀ l ∈ ls, IsProse l

/-- The part ends where the other one begins: a block with a line that closes it, prose before what
is none. -/
def Ends : Part → Part → Prop
  | block tag ls, _ => ∃ l ∈ ls.getLast?, Html.closeTag tag <:+: l
  | prose _, prose _ => False
  | _, _ => True

theorem Formed.lines_ne_nil {part : Part} (h : part.Formed) : part.lines ≠ [] := by
  cases part with
  | block tag ls =>
    obtain ⟨⟨l, hl, -⟩, -⟩ := h
    exact List.ne_nil_of_mem (List.mem_of_mem_head? hl)
  | blank l => exact List.cons_ne_nil l []
  | prose ls => exact h.1

end Part

section Steps

variable (l : Line) (ls : List Line)

end Steps

/-- How a text is made of parts and what is written for them. -/
structure Parted (x : Text) (parts : List Part) : Prop where
  lines : parts.flatMap Part.lines = Text.lines x
  written : markUp x = unlines (parts.flatMap Part.html)
  formed : ∀ part ∈ parts, part.Formed
  ends : parts.IsChain Part.Ends
  filled : ∀ ls, .prose ls ∈ parts → isBlank ([' '].intercalate (ls.map trim)) = false

end MarkdownPage.Paragraph
