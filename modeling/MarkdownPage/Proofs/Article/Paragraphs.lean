import Mathlib.Data.List.SplitBy
import MarkdownPage.Proofs.Article.Elements

/-!
Sources of prose only. Neighbouring lines with something on them are one run, and every run becomes
one paragraph on one line of the page, whatever spans it holds and however they lie across its
lines; every blank line becomes an empty one.
-/

namespace MarkdownPage.Article

open Text Html

/-- A source with nothing in it but prose: there is no tag in it, and no line opens a fence or is a
row, a heading or an item. -/
structure Prosaic (source : Text) : Prop where
  plain : Plain source
  bracket : '<' ∉ source
  fences : ∀ l ∈ lines source, Fence.langTag? l = none
  rows : ∀ l ∈ lines source, Table.isRow (trim l) = false
  headings : ∀ l ∈ lines source, Heading.ofLine? l = none
  items : ∀ l ∈ lines source, Item.ofLine? l = none

/-- Neighbouring lines stand in one run if there is something on both. -/
def sameRun (l m : Line) : Bool := !isBlank l && !isBlank m

namespace Part

/-- The lines that the part was made of, in a text of prose. -/
def source : Part → List Line
  | .blank l => [l]
  | .prose first others => first :: others
  | _ => []

def Prosaic : Part → Prop
  | .blank l => isBlank l = true
  | .prose first others => ∀ l ∈ first :: others, isBlank l = false
  | _ => False

theorem Prosaic.cases {p : Part} (h : p.Prosaic) :
    (∃ l, p = .blank l ∧ isBlank l = true) ∨
      ∃ first others, p = .prose first others ∧ ∀ l ∈ first :: others, isBlank l = false := by
  cases p with
  | blank l => exact Or.inl ⟨l, rfl, h⟩
  | prose first others => exact Or.inr ⟨first, others, rfl, h⟩
  | heading heading => cases h
  | list style first others => cases h

theorem Prosaic.source_ne_nil {p : Part} (h : p.Prosaic) : p.source ≠ [] := by
  obtain ⟨l, rfl, -⟩ | ⟨first, others, rfl, -⟩ := h.cases
  · exact List.cons_ne_nil l []
  · exact List.cons_ne_nil first others

theorem Prosaic.apart {a b : Part} (ha : a.Prosaic) (hb : b.Prosaic)
    (h : a.isProse = false ∨ b.isProse = false) :
    sameRun (a.source.getLast ha.source_ne_nil) (b.source.head hb.source_ne_nil) = false := by
  obtain ⟨l, rfl, hl⟩ | ⟨l, ls, rfl, -⟩ := ha.cases
  · simp [sameRun, source, hl]
  · obtain ⟨m, rfl, hm⟩ | ⟨m, ms, rfl, -⟩ := hb.cases
    · simp [sameRun, source, hm]
    · rcases h with h | h <;> cases h

end Part

section Runs

variable {ls : List Line} (hheadings : ∀ l ∈ ls, Heading.ofLine? l = none)
  (hitems : ∀ l ∈ ls, Item.ofLine? l = none)

include hheadings hitems

end Runs

end MarkdownPage.Article
