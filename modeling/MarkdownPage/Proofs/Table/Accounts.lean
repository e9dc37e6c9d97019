import MarkdownPage.Proofs.Table.Decomposition
import MarkdownPage.Proofs.Table.Markup

/-!
What becomes of each line of a table. A line with something on it is a separator, a row whose cells
are written, or malformed and reported, and only one of these. The cells of a row are what stands
between its pipes. A table that was lifted from a text has no malformed line.
-/

namespace MarkdownPage.Table

open Text Html

section Pipes

theorem row_iff {l : Line} :
    isRow l = true ↔ l = ['|'] ∨ ∃ inner, l = '|' :: (inner ++ ['|']) := by
  rw [isRow, Bool.and_eq_true, decide_eq_true_eq, decide_eq_true_eq]
  constructor
  · rintro ⟨hfirst, hend⟩
    obtain ⟨rest, rfl⟩ := List.head?_eq_some_iff.mp hfirst
    by_cases hrest : rest = []
    · exact Or.inl (by rw [hrest])
    · have hlast : rest.getLast hrest = '|' := by
        simpa [List.getLast?_cons, List.getLast?_eq_some_getLast hrest] using hend
      have hinner : rest.dropLast ++ ['|'] = rest := hlast ▸ List.dropLast_concat_getLast hrest
      exact Or.inr ⟨rest.dropLast, by rw [hinner]⟩
  · rintro (rfl | ⟨inner, rfl⟩)
    · exact ⟨rfl, rfl⟩
    · exact ⟨rfl, by rw [← List.cons_append, List.getLast?_concat]⟩

theorem separator_iff {l : Line} : isSeparator l = true ↔
    ∃ inner, l = '|' :: (inner ++ ['|']) ∧ inner ≠ [] ∧
      ∀ c ∈ inner, c ∈ "-:|".toList ∨ isSpace c = true := by
  have hinner {inner : Text} :
      (dropPrefix? ['|'] l).bind (dropSuffix? ['|']) = some inner ↔ l = '|' :: (inner ++ ['|']) := by
    simp [Option.bind_eq_some_iff, dropPrefix?_eq_some_iff, dropSuffix?_eq_some_iff]
  rw [isSeparator]
  cases hbetween : (dropPrefix? ['|'] l).bind (dropSuffix? ['|']) with
  | none =>
    refine iff_of_false (by simp) ?_
    rintro ⟨inner, hl, -⟩
    rw [hinner.mpr hl] at hbetween
    cases hbetween
  | some inner =>
    have hl := hinner.mp hbetween
    simp only [isSeparatorChar, Bool.and_eq_true, Bool.not_eq_true', List.isEmpty_eq_false_iff,
      List.all_eq_true, Bool.or_eq_true, List.contains_iff_mem]
    constructor
    · exact fun h => ⟨inner, hl, h⟩
    · rintro ⟨inner', hl', h⟩
      have heq : inner = inner' := by simpa [hl] using hl'
      exact heq ▸ h

/-- The texts are those between the pipes of the row, in their order. -/
structure Between (l : Line) (segments : List Text) : Prop where
  pipes : l = '|' :: segments.flatMap (· ++ ['|'])
  free : ∀ segment ∈ segments, '|' ∉ segment

theorem cells_between {l : Line} (h : isRow l = true) :
    ∃ segments, Between l segments ∧ cells l = segments.map trim := by
  obtain rfl | ⟨inner, rfl⟩ := row_iff.mp h
  · exact ⟨[], ⟨rfl, by simp⟩, rfl⟩
  · have hlast : (inner ++ ['|']).splitOn '|' = inner.splitOn '|' ++ [[]] :=
      List.splitOn_append_cons_self inner []
    have hsplit : ('|' :: (inner ++ ['|'])).splitOn '|' = [] :: (inner.splitOn '|' ++ [[]]) :=
      hlast ▸ List.splitOn_append_cons_self [] (inner ++ ['|'])
    have hinner : inner ++ ['|'] = (inner.splitOn '|').flatMap (· ++ ['|']) := by
      have hjoin : ['|'].intercalate ((inner ++ ['|']).splitOn '|') = inner ++ ['|'] :=
        List.intercalate_splitOn '|'
      rw [hlast, intercalate_concat, List.append_nil] at hjoin
      exact hjoin.symm
    refine ⟨inner.splitOn '|', ⟨by rw [hinner], fun s hs => (mem_split_on hs).1⟩, ?_⟩
    rw [cells, hsplit, List.drop_one, List.tail_cons, List.map_append, List.map_singleton,
      List.dropLast_concat]

theorem Between.count_pipes {l : Line} {segments : List Text} (h : Between l segments) :
    l.count '|' = segments.length + 1 := by
  obtain ⟨rfl, hfree⟩ := h
  rw [List.count_cons_self]
  induction segments with
  | nil => rfl
  | cons s segments ih =>
    rw [List.forall_mem_cons] at hfree
    rw [List.flatMap_cons, List.count_append, List.count_append,
      List.count_eq_zero_of_not_mem hfree.1, List.count_singleton_self, List.length_cons]
    have hrest := ih hfree.2
    omega

end Pipes

/-- A row that is no separator, so that its cells are written. -/
def isContent (l : Line) : Bool := isRow l && !isSeparator l

/-- The rows of the table that are written, each with its place among the lines of the table. -/
def contents (raw : Text) : List (Line × Nat) :=
  ((lines (trim raw)).map trim).zipIdx.filter fun line => isContent line.1

def roleAt (place : Nat) : CellRole := if place = 0 then .header else .data

def cellLine : CellRole → Text → Line
  | .header, content => "    <th>".toList ++ content ++ "</th>".toList
  | .data, content => "    <td>".toList ++ content ++ "</td>".toList

def rowLines (role : CellRole) (cells : List Text) : List Line :=
  "  <tr>".toList :: cells.map (cellLine role) ++ ["  </tr>".toList]

section Kinds

variable {l : Line}

theorem line_kind_row_iff : lineKind l = .row ↔ isContent l = true := by
  have hempty : isContent [] = false := rfl
  cases l with
  | nil => simp [lineKind, hempty]
  | cons c l =>
    rw [lineKind, isContent]
    cases isSeparator (c :: l) <;> cases isRow (c :: l) <;> simp

theorem line_kind_malformed_iff : lineKind l = .malformed ↔ l ≠ [] ∧ isRow l = false := by
  cases l with
  | nil => simp [lineKind]
  | cons c l =>
    rw [lineKind]
    cases hseparator : isSeparator (c :: l) with
    | true => simp [row_of_separator hseparator]
    | false => cases isRow (c :: l) <;> simp

theorem one_kind (l : Line) : [isSeparator l, isContent l, !isRow l].count true = 1 := by
  rw [isContent]
  cases hseparator : isSeparator l with
  | true => rw [row_of_separator hseparator]; rfl
  | false => cases isRow l <;> rfl

theorem row_of_eq (role : CellRole) (l : Line) :
    rowOf role l = if isContent l then [⟨role, cells l⟩] else [] := by
  rw [rowOf]
  exact if_congr line_kind_row_iff rfl rfl

end Kinds

section Rows

theorem data_rows {n : Nat} (hn : n ≠ 0) (ls : List Line) :
    ls.flatMap (rowOf .data) =
      ((ls.zipIdx n).filter fun line => isContent line.1).map
        fun line => ⟨roleAt line.2, cells line.1⟩ := by
  induction ls generalizing n with
  | nil => rfl
  | cons l ls ih =>
    rw [List.flatMap_cons, List.zipIdx_cons, List.filter_cons, row_of_eq,
      ih (Nat.succ_ne_zero n)]
    split
    · rw [List.map_cons, roleAt, if_neg hn, List.singleton_append]
    · rfl

theorem rows_eq_contents (raw : Text) :
    rows raw = (contents raw).map fun line => ⟨roleAt line.2, cells line.1⟩ := by
  rw [rows, contents, rawLines]
  cases (lines (trim raw)).map trim with
  | nil => rfl
  | cons first others =>
    rw [List.zipIdx_cons, List.filter_cons]
    simp only [row_of_eq, data_rows (Nat.succ_ne_zero 0) others]
    split <;> rfl

theorem row_lines_eq (role : CellRole) (cells : List Text) :
    rowLines role cells = rowOpen :: cells.map (cell role) ++ [rowClose] := by
  have hcell : cellLine role = cell role := by
    funext content
    cases role <;> rfl
  rw [rowLines, hcell]
  rfl

theorem row_lines_render (row : Row) :
    row.pieces.flatMap Html.Piece.render = (rowLines row.role row.cells).flatMap (· ++ ['\n']) := by
  rw [row_lines_eq]
  simp [Row.pieces, Html.Piece.render, List.flatMap_map]

theorem to_html_lines (raw : Text) : toHtml raw =
    unlines ("<table>".toList :: (contents raw).flatMap
      (fun line => rowLines (roleAt line.2) (cells line.1)) ++ ["</table>".toList]) := by
  have hrows : ((rows raw).flatMap Row.pieces).flatMap Html.Piece.render =
      ((contents raw).flatMap fun line => rowLines (roleAt line.2) (cells line.1)).flatMap
        (· ++ ['\n']) := by
    rw [rows_eq_contents, List.flatMap_map, List.flatMap_assoc, List.flatMap_assoc]
    exact List.flatMap_congr fun line _ => row_lines_render ⟨roleAt line.2, cells line.1⟩
  have hends : "<table>".toList = tableOpen ∧ "</table>".toList = tableClose := ⟨rfl, rfl⟩
  rw [hends.1, hends.2, unlines_concat, toHtml, Html.render, List.flatMap_append,
    List.flatMap_cons, hrows, List.flatMap_cons]
  simp [Html.Piece.render]

theorem role_at_header_iff {place : Nat} : roleAt place = .header ↔ place = 0 := by
  by_cases h : place = 0 <;> simp [roleAt, h]

theorem header_contents (raw : Text) :
    ((contents raw).filter fun line => roleAt line.2 = .header) =
      (((lines (trim raw)).map trim).head?.filter isContent).toList.map fun l => (l, 0) := by
  have hdata : ∀ ls : List Line,
      ((ls.zipIdx 1).filter fun line => isContent line.1).filter
        (fun line => roleAt line.2 = .header) = [] := by
    intro ls
    rw [List.filter_eq_nil_iff]
    intro line hline hheader
    have hplace := List.le_snd_of_mem_zipIdx (List.mem_filter.mp hline).1
    have hzero := role_at_header_iff.mp (of_decide_eq_true hheader)
    omega
  rw [contents]
  cases (lines (trim raw)).map trim with
  | nil => rfl
  | cons first others =>
    rw [List.zipIdx_cons, List.filter_cons, List.head?_cons, Option.filter_some]
    by_cases hfirst : isContent first = true
    · rw [if_pos hfirst, if_pos hfirst, List.filter_cons_of_pos (by rfl), hdata others]
      rfl
    · rw [if_neg hfirst, if_neg hfirst, hdata others]
      rfl

end Rows

/-- What becomes of the lines of a table: each with something on it is of one kind; the malformed
ones are reported; the others are rows in the markup, but for the separators. The cells of a row are
the texts between its pipes, and of the rows only the first line of the table is a header. -/
structure Accounted (raw : Text) : Prop where
  sorted : ∀ l ∈ (lines (trim raw)).map trim, l ≠ [] →
    [isSeparator l, isContent l, !isRow l].count true = 1
  reported : skipped raw = ((lines (trim raw)).map trim).filter fun l => l ≠ [] ∧ isRow l = false
  written : toHtml raw = unlines ("<table>".toList :: (contents raw).flatMap
    (fun line => rowLines (roleAt line.2) (cells line.1)) ++ ["</table>".toList])
  cut : ∀ line ∈ contents raw, (cells line.1).length + 1 = line.1.count '|' ∧
    ∃ segments, Between line.1 segments ∧ cells line.1 = segments.map trim
  headed : ((contents raw).filter fun line => roleAt line.2 = .header) =
    (((lines (trim raw)).map trim).head?.filter isContent).toList.map fun l => (l, 0)

theorem skipped_eq (raw : Text) :
    skipped raw = ((lines (trim raw)).map trim).filter fun l => l ≠ [] ∧ isRow l = false := by
  rw [skipped]
  exact List.filter_congr fun l _ => decide_eq_decide.mpr line_kind_malformed_iff

/-- Trimming the table leaves its rows and loses only blank lines. -/
theorem skipped_run {raw : Text} (h : IsRun raw) : skipped raw = [] := by
  obtain ⟨first, others, hlines, hfirst, hothers⟩ := h
  have hrow : ∀ l ∈ lines raw, isRow (trim l) = true ∨ isBlank l = true := by
    rw [hlines]
    exact List.forall_mem_cons.mpr ⟨Or.inl hfirst, hothers⟩
  rw [skipped_eq, List.filter_eq_nil_iff]
  intro l hl
  obtain ⟨m, hm, rfl⟩ := List.mem_map.mp (trimmed_lines_trim raw hl)
  rcases hrow m hm with hrow | hblank
  · simp [hrow]
  · simp [(trim_eq_nil_iff m).mpr hblank]

theorem table_accounted (raw : Text) : Accounted raw := by
  constructor
  case sorted => exact fun l _ _ => one_kind l
  case reported => exact skipped_eq raw
  case written => exact to_html_lines raw
  case cut =>
    intro line hline
    have hcontent : isContent line.1 = true := (List.mem_filter.mp hline).2
    have hrow : isRow line.1 = true := (Bool.and_eq_true_iff.mp hcontent).1
    obtain ⟨segments, hbetween, hcells⟩ := cells_between hrow
    refine ⟨?_, segments, hbetween, hcells⟩
    rw [hcells, List.length_map, hbetween.count_pipes]
  case headed => exact header_contents raw

/-- Every line of a table is accounted for, and a table that was lifted has none to report. -/
theorem lines_accounted : (∀ raw, Accounted raw) ∧
    (∀ l, isRow l = true ↔ l = ['|'] ∨ ∃ inner, l = '|' :: (inner ++ ['|'])) ∧
    (∀ l, isSeparator l = true ↔ ∃ inner, l = '|' :: (inner ++ ['|']) ∧ inner ≠ [] ∧
      ∀ c ∈ inner, c ∈ "-:|".toList ∨ isSpace c = true) ∧
    ∀ t store, ∀ raw ∈ ((lift t).run store).2.tables.toList.drop store.tables.size,
      skipped raw = [] := by
  refine ⟨table_accounted, fun l => row_iff, fun l => separator_iff, fun t store raw hraw => ?_⟩
  rw [tables_lift] at hraw
  exact skipped_run (lifted_run (by simpa using hraw))

end MarkdownPage.Table
