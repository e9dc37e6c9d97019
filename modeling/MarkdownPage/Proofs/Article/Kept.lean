import MarkdownPage.Proofs.Article.MarkUp
import MarkdownPage.Proofs.Block

/-!
Which fragments the paragraphs leave as they are. The first line of a fragment opens a block, so
what stands before it is formed by itself; the rest of its lines come through exactly when each is
still sheltered by a block, and a closing tag in the fragment can end that shelter too early.
-/

namespace MarkdownPage.Article

open Text Html Paragraph

def fragmentTag : Fragment → Text
  | .code _ => "pre".toList
  | .table _ => "table".toList

theorem fragment_opens (e : Escaping) (x : Fragment) :
    ∃ first others, x.lines e = first :: others ∧
      Block.opened? (trim first) = some (fragmentTag x) := by
  cases x with
  | code block =>
    have hfree : '\n' ∉ codeOpen := by decide
    obtain ⟨first, others, hlines⟩ := List.exists_cons_of_ne_nil
      (lines_ne_nil (codeInner e block.lang block.body ++ codeClose))
    refine ⟨codeOpen ++ first, others, ?_, ?_⟩
    · rw [Fragment.lines, Fragment.toHtml, code_block_eq, lines_append_of_newline_free hfree hlines]
    · rw [code_open_pre, List.append_assoc]
      exact Block.opened_pre _
  | table raw =>
    obtain ⟨others, hlines⟩ := Table.lines_to_html raw
    exact ⟨tableOpen, others, hlines, Block.opened_table⟩

theorem form_around_fragment (e : Escaping) (xs ys : List Line) (x : Fragment) :
    formFrom none (xs ++ (x.lines e ++ ys)) =
      formFrom none xs ++ formFrom (openBehind none xs) (x.lines e ++ ys) := by
  obtain ⟨first, others, hlines, hopened⟩ := fragment_opens e x
  rw [hlines, List.cons_append]
  exact form_append_block (block_at_opened hopened _) _

/-- A fragment stands in the body as it was put back, behind what becomes of the lines before it,
exactly when its lines are sheltered there. -/
def KeptWhereSheltered (e : Escaping) (source : Text) : Prop :=
  ∃ o : Outline, o.codeBlocks = (stored source).codeBlocks.toList ∧
    o.tables = (stored source).tables.toList ∧
      lines (restored e source) = o.lines e ∧
        ∀ (before : Outline) (x : Fragment) (after : Outline), o = before ++ .fragment x :: after →
          (formFrom none (before.lines e) ++ x.lines e <+: lines (ofMarkdown e source).body ↔
            Sheltered (openBehind none (before.lines e)) (x.lines e))

theorem kept_where_sheltered (e : Escaping) {source : Text}
    (h : source.length < Token.indexLimit) : KeptWhereSheltered e source := by
  have hn := numbered_outline h
  obtain ⟨hcodes, htables⟩ := fragments_of_marked e source
  refine ⟨markedOutline e source, hcodes, htables, lines_restored hn, ?_⟩
  intro before x after ho
  have hlines : lines (restored e source) = before.lines e ++ (x.lines e ++ after.lines e) := by
    rw [lines_restored hn, ho, Outline.lines_around_fragment]
  rw [lines_body, hlines, form_around_fragment, List.prefix_append_right_inj]
  exact prefix_form_iff

theorem kept_where_sheltered_closing_tag :
    KeptWhereSheltered .verbatim "```\n</pre>\nx\n```".toList :=
  kept_where_sheltered .verbatim (by decide)

/-- The closing tag on the first line of this code block leaves its last line without shelter. -/
theorem not_every_code_block_kept :
    ¬ ∀ source : Text, ∀ block ∈ (ofMarkdown .verbatim source).fragments.codeBlocks,
      (Fragment.code block).lines .verbatim <:+: lines (ofMarkdown .verbatim source).body := by
  intro h
  have hblock := h "```\n</pre>\nx\n```".toList ⟨"text".toList, "</pre>\nx".toList⟩
    (by decide +kernel)
  revert hblock
  decide +kernel

end MarkdownPage.Article
