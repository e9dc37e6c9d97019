import MarkdownPage.Article
import MarkdownPage.Proofs.Fence
import MarkdownPage.Proofs.Table.Run

/-!
The outline of a text in which first the code blocks and then the tables have been found. Lifting
leaves the token lines of the outline behind, and the store holds its fragments in their order.
-/

namespace MarkdownPage.Article

open Text

def linesOutline (ls : List Line) : Outline := Table.outline (Fence.outline ls)

theorem lines_outline_ne_nil {ls : List Line} (h : ls ≠ []) : linesOutline ls ≠ [] :=
  Table.outline_ne_nil (Fence.outline_ne_nil h)

theorem lines_outline_whole (t : Text) : ∀ s ∈ linesOutline (lines t), s.Whole :=
  Table.outline_whole (Fence.outline_whole t)

theorem length_lines_outline_le (ls : List Line) : (linesOutline ls).length ≤ ls.length := by
  have hfence : (Fence.outline ls).length ≤ ls.length := by
    rw [Fence.outline, List.length_map]
    exact Fence.length_pieces_le ls
  exact Nat.le_trans (Table.length_outline_le (Fence.outline ls)) hfence

theorem lines_outline_spelled {p : Char → Prop} (hp : ∀ c ∈ Fence.defaultLang, p c) (hn : p '\n')
    {ls : List Line} (h : ∀ l ∈ ls, ∀ c ∈ l, p c) : ∀ s ∈ linesOutline ls, s.Spelled p :=
  Table.outline_spelled hn (Fence.outline_spelled hp hn h)

theorem run_lift_fragments (t : Text) :
    (liftFragments t).run {} =
      (unlines ((linesOutline (lines t)).tokenLines 0 0),
        Store.withFragments {} (linesOutline (lines t))) := by
  have hwhole := Fence.outline_whole t
  have hne := Fence.outline_ne_nil (lines_ne_nil t)
  have hnone := Fence.tables_outline (lines t)
  simp only [liftFragments, StateT.run_bind, Fence.run_lift]
  exact Table.run_lift_token_lines hwhole hne hnone

end MarkdownPage.Article
