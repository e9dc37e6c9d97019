import MarkdownPage.Table.Markup
import MarkdownPage.Proofs.Html.Alphabet
import MarkdownPage.Proofs.Html.Tags
import MarkdownPage.Proofs.Text.Blank
import MarkdownPage.Proofs.Text.Lines

/-!
The markup of a table: its first line opens it, and its characters are those of the raw table and
of the markup.
-/

namespace MarkdownPage.Table

open Text Html

theorem mem_of_mem_cell {c : Char} {row cell : Text} (hcell : cell ∈ cells row) (hc : c ∈ cell) :
    c ∈ row := by
  obtain ⟨segment, hsegment, rfl⟩ := List.mem_map.mp (List.dropLast_subset _ hcell)
  exact (mem_split_on (List.mem_of_mem_drop hsegment)).2 c (mem_of_mem_trim hc)

theorem mem_of_mem_raw_line {c : Char} {l : Line} {raw : Text} (hl : l ∈ rawLines raw)
    (hc : c ∈ l) : c ∈ raw := by
  obtain ⟨m, hm, rfl⟩ := List.mem_map.mp hl
  exact mem_of_mem_trim (mem_of_mem_lines hm (mem_of_mem_trim hc))

theorem cell_of_rows {raw : Text} {row : Row} (h : row ∈ rows raw) :
    ∃ l ∈ rawLines raw, row.cells = cells l := by
  have key : ∀ role l, row ∈ rowOf role l → row.cells = cells l := by
    intro role l hrow
    rw [rowOf] at hrow
    split at hrow
    · rw [List.mem_singleton.mp hrow]
    · cases hrow
  rw [rows] at h
  split at h
  · cases h
  · next first others hraw =>
    rw [hraw]
    rcases List.mem_append.mp h with h | h
    · exact ⟨first, List.mem_cons_self, key _ _ h⟩
    · obtain ⟨l, hl, h⟩ := List.mem_flatMap.mp h
      exact ⟨l, List.mem_cons_of_mem first hl, key _ _ h⟩

theorem to_html_spelled {p : Char → Prop} (hp : ∀ c ∈ alphabet, p c) (hn : p '\n') {raw : Text}
    (h : ∀ c ∈ raw, p c) : ∀ c ∈ toHtml raw, p c := by
  have hline : ∀ {t : Text}, (∀ c ∈ t, p c) → ∀ c ∈ t ++ ['\n'], p c := by
    intro t ht
    rw [List.forall_mem_append]
    exact ⟨ht, by simpa using hn⟩
  have hcell : ∀ role cell, (∀ c ∈ cell, p c) → ∀ c ∈ Html.cell role cell, p c := by
    intro role cell hc
    unfold Html.cell
    rw [List.forall_mem_append]
    exact ⟨literal_spelled hp (by decide), enclose_spelled hp (cell_tag_alphabet role) hc⟩
  have hrow : ∀ row ∈ rows raw, ∀ piece ∈ row.pieces, ∀ c ∈ piece.render, p c := by
    intro row hrow
    obtain ⟨l, hl, hcells⟩ := cell_of_rows hrow
    simp only [Row.pieces, List.forall_mem_append, List.forall_mem_cons, List.forall_mem_map]
    refine ⟨⟨hline (literal_spelled hp (by decide)), ?_⟩,
      hline (literal_spelled hp (by decide)), by simp⟩
    intro cell hmem
    rw [hcells] at hmem
    exact hline (hcell row.role cell fun c hc =>
      h c (mem_of_mem_raw_line hl (mem_of_mem_cell hmem hc)))
  have hpieces : ∀ piece ∈ Html.Piece.tableOpen :: (rows raw).flatMap Row.pieces ++ [.tableClose],
      ∀ c ∈ piece.render, p c := by
    simp only [List.cons_append, List.forall_mem_cons, List.forall_mem_append,
      List.forall_mem_flatMap]
    exact ⟨hline (literal_spelled hp (by decide)), hrow,
      literal_spelled hp (by decide), by simp⟩
  intro c hc
  obtain ⟨piece, hpiece, hc⟩ := List.mem_flatMap.mp hc
  exact hpieces piece hpiece c hc

theorem lines_to_html (raw : Text) : ∃ others, lines (toHtml raw) = tableOpen :: others := by
  have hopen : lines tableOpen = [tableOpen] := lines_of_newline_free (by decide)
  refine ⟨lines (Html.render ((rows raw).flatMap Row.pieces ++ [.tableClose])), ?_⟩
  rw [← List.singleton_append, ← hopen, ← lines_append_newline]
  simp [toHtml, Html.render, Html.Piece.render]

def innerTags : List Text :=
  ["<table>", "<tr>", "</tr>", "<th>", "</th>", "<td>", "</td>"].map String.toList

theorem to_html_closed {raw : Text} (h : '<' ∉ raw) :
    ∃ front, toHtml raw = front ++ closeTag "table".toList ∧ TagsAmong innerTags front := by
  refine ⟨Html.render (.tableOpen :: (rows raw).flatMap Row.pieces), ?_, ?_⟩
  · rw [toHtml, Html.render, List.flatMap_append, List.flatMap_singleton]
    rfl
  have hline : ∀ {t : Text}, TagsAmong innerTags t → TagsAmong innerTags (t ++ ['\n']) :=
    fun ht => ht.append (by decide)
  have hcell : ∀ role cell, '<' ∉ cell → TagsAmong innerTags (Html.cell role cell) := by
    intro role cell hc
    have hopen : TagsAmong innerTags (openTag role.tag) := by cases role <;> decide
    have hclose : TagsAmong innerTags (closeTag role.tag) := by cases role <;> decide
    exact TagsAmong.append (by decide)
      ((hopen.append (tags_among_plain hc)).append hclose)
  apply TagsAmong.flat_map
  simp only [List.forall_mem_cons, List.forall_mem_flatMap, Row.pieces, List.forall_mem_append,
    List.forall_mem_map]
  refine ⟨hline (by decide), fun row hrow => ?_⟩
  obtain ⟨l, hl, hcells⟩ := cell_of_rows hrow
  refine ⟨⟨hline (by decide), fun cell hmem => ?_⟩, hline (by decide), by simp⟩
  rw [hcells] at hmem
  exact hline (hcell row.role cell fun hc => h (mem_of_mem_raw_line hl (mem_of_mem_cell hmem hc)))

end MarkdownPage.Table
