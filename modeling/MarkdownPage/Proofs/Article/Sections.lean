import MarkdownPage.Proofs.Article.MarkUp

/-!
Sections parted by a blank line. Where the first section leaves no fence, no table and no block
open, every pass is cut at the blank line, so the two sections are rendered each by itself.
-/

namespace MarkdownPage.Article

open Text Html

theorem table_outline_sections {o : Outline} (h : Table.EndsOutside (o.tokenLines 0 0))
    (o' : Outline) :
    Table.outline (o ++ .text [] :: o') = Table.outline o ++ .text [] :: Table.outline o' := by
  have hstretch : Table.EndsOutside (Outline.lastStretchFrom [] o) :=
    h.suffix (Outline.last_stretch_suffix 0 0 [] o)
  exact Outline.stretches_append_cut (Table.lines_outline_cut_blank hstretch rfl) o'

section Sections

variable {a : Text}

theorem outline_sections (hreturn : a.getLast? ≠ some '\r')
    (hfences : Fence.AllClosed (clean a)) (hrows : Table.EndsOutside (Fence.linesLeft (clean a)))
    (b : Text) :
    outline (a ++ "\n\n".toList ++ b) = outline a ++ .text [] :: outline b := by
  rw [Fence.lines_left] at hrows
  rw [outline, clean_append_empty_line hreturn, lines_append_empty_line, linesOutline,
    hfences.outline_append_text rfl, table_outline_sections hrows]
  rfl

theorem marked_sections {b : Text} (e : Escaping)
    (h : outline (a ++ "\n\n".toList ++ b) = outline a ++ .text [] :: outline b) :
    markedOutline e (a ++ "\n\n".toList ++ b) =
      markedOutline e a ++ .text [] :: markedOutline e b := by
  have hcut : CutsAt (markUpStretch e) [] (.text []) := (cuts_at_empty e).map Slot.text
  rw [markedOutline, h, Outline.stretches_append_cut_at hcut]
  rfl

theorem restored_sections {b : Text} (e : Escaping)
    (hlen : (a ++ "\n\n".toList ++ b).length < Token.indexLimit)
    (h : outline (a ++ "\n\n".toList ++ b) = outline a ++ .text [] :: outline b) :
    lines (restored e (a ++ "\n\n".toList ++ b)) =
      lines (restored e a) ++ [] :: lines (restored e b) := by
  have hn := numbered_outline hlen
  simp only [List.length_append] at hlen
  have ha : (outline a).Numbered := numbered_outline (by omega)
  have hb : (outline b).Numbered := numbered_outline (by omega)
  rw [lines_restored hn, lines_restored ha, lines_restored hb, marked_sections e h]
  simp [Outline.lines, Slot.lines]

/-- Nothing of the first section reaches over the blank line: its last line feed is no half of a
line end, its fences are closed, its last line with text on it is no row, and no block is open
behind it. -/
structure Ended (e : Escaping) (a : Text) : Prop where
  lineEnd : a.getLast? ≠ some '\r'
  fences : Fence.AllClosed (clean a)
  rows : Table.EndsOutside (Fence.linesLeft (clean a))
  blocks : Paragraph.openBehind none (lines (restored e a)) = none

/-- Sections are rendered each by itself. -/
theorem body_sections {e : Escaping} {b : Text} (h : Ended e a)
    (hlen : (a ++ "\n\n".toList ++ b).length < Token.indexLimit) :
    (ofMarkdown e (a ++ "\n\n".toList ++ b)).body =
      (ofMarkdown e a).body ++ "\n\n".toList ++ (ofMarkdown e b).body := by
  have houtline := outline_sections h.lineEnd h.fences h.rows b
  have hlines : lines (ofMarkdown e (a ++ "\n\n".toList ++ b)).body =
      lines ((ofMarkdown e a).body ++ "\n\n".toList ++ (ofMarkdown e b).body) := by
    have hblank : Paragraph.blockAt? none [] = none := by decide
    rw [lines_append_empty_line, lines_body, lines_body, lines_body,
      restored_sections e hlen houtline, Paragraph.form_append_blank h.blocks hblank rfl]
  rw [← unlines_lines (ofMarkdown e (a ++ "\n\n".toList ++ b)).body, hlines, unlines_lines]

end Sections

/-- A code block on each side, so that the second is lifted under another number. -/
theorem body_sections_code_blocks :
    let a : Text := "# A\n\n```\n\n```\n- x".toList
    let b : Text := "```sh\ny\n```".toList
    Ended .verbatim a ∧ (ofMarkdown .verbatim (a ++ "\n\n".toList ++ b)).body =
      (ofMarkdown .verbatim a).body ++ "\n\n".toList ++ (ofMarkdown .verbatim b).body := by
  have h : Ended .verbatim "# A\n\n```\n\n```\n- x".toList :=
    ⟨by decide +kernel, by decide +kernel, by decide +kernel, by decide +kernel⟩
  exact ⟨h, body_sections h (by decide)⟩

end MarkdownPage.Article
