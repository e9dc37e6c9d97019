import Mathlib.Tactic.ByContra
import MarkdownPage.Table.Run
import MarkdownPage.Proofs.Fragment.Stretch

/-!
Cutting lines at table runs. A run ends before a token, and also before a blank line when the last
line with text on it is no row. Tables are lifted from the stretches between the code blocks.
-/

namespace MarkdownPage.Table

open Text

theorem pieces_run {l : Line} (h : startsRun l = true) (ls : List Line) :
    pieces (l :: ls) = .run (l :: ls.takeWhile continuesRun) ::
      pieces (ls.dropWhile continuesRun) := by
  rw [pieces, if_pos h]

theorem pieces_text {l : Line} (h : startsRun l = false) (ls : List Line) :
    pieces (l :: ls) = .text l :: pieces ls := by
  rw [pieces, if_neg (by simp [h])]

/-- A run that ends among `xs` and the line behind them does not reach further. -/
theorem run_ends {xs : List Line} {b : Line} (h : ∃ y ∈ xs ++ [b], continuesRun y = false)
    (ys : List Line) :
    (xs ++ b :: ys).takeWhile continuesRun = xs.takeWhile continuesRun ∧
      (xs ++ b :: ys).dropWhile continuesRun = xs.dropWhile continuesRun ++ b :: ys := by
  induction xs with
  | nil =>
    obtain ⟨y, hy, hend⟩ := h
    have hyb : y = b := by simpa using hy
    simp [← hyb, hend]
  | cons x xs ih =>
    by_cases hx : continuesRun x = true
    · obtain ⟨y, hy, hend⟩ := h
      rcases List.mem_cons.mp hy with rfl | hy
      · rw [hx] at hend
        cases hend
      · simpa [hx] using ih ⟨y, hy, hend⟩
    · simp [hx]

theorem pieces_append_text {xs : List Line} {b : Line} (hb : startsRun b = false)
    (h : ∀ x rest, x :: rest <:+ xs → startsRun x = true →
      ∃ y ∈ rest ++ [b], continuesRun y = false) (ys : List Line) :
    pieces (xs ++ b :: ys) = pieces xs ++ .text b :: pieces ys := by
  fun_induction pieces xs with
  | case1 => exact pieces_text hb ys
  | case2 x xs hx ih =>
    obtain ⟨htake, hdrop⟩ := run_ends (h x xs List.suffix_rfl hx) ys
    rw [List.cons_append, pieces_run hx, htake, hdrop, List.cons_append]
    have hsuffix : xs.dropWhile continuesRun <:+ x :: xs :=
      (List.dropWhile_suffix continuesRun).trans (List.suffix_cons x xs)
    rw [ih fun y rest hy => h y rest (hy.trans hsuffix)]
  | case3 x xs hx ih =>
    rw [List.cons_append, pieces_text (by simpa using hx), List.cons_append,
      ih fun y rest hy => h y rest (hy.trans (List.suffix_cons x xs))]

theorem pieces_cut_token (k : Token) : CutsAt pieces k.toLine (.text k.toLine) := by
  intro before behind
  have hend : continuesRun k.toLine = false := k.to_line_no_run
  apply pieces_append_text
  · simpa [continuesRun] using (Bool.or_eq_false_iff.mp hend).1
  · intro x rest _ _
    exact ⟨k.toLine, by simp, hend⟩

theorem row_of_separator {l : Line} (h : isSeparator l = true) : isRow l = true := by
  rw [isSeparator] at h
  split at h
  · next inner hinner =>
    obtain ⟨rest, hrest, hl⟩ := Option.bind_eq_some_iff.mp hinner
    rw [dropPrefix?_eq_some_iff.mp hrest, dropSuffix?_eq_some_iff.mp hl, isRow,
      ← List.append_assoc, List.getLast?_concat]
    rfl
  · cases h

theorem starts_run_eq (l : Line) : startsRun l = isRow (trim l) := by
  rw [startsRun]
  cases hsep : isSeparator (trim l) with
  | false => simp
  | true => simp [row_of_separator hsep]

theorem starts_run_blank {l : Line} (h : isBlank l = true) : startsRun l = false := by
  rw [starts_run_eq, (trim_eq_nil_iff l).mpr h]
  rfl

/-- The last line with text on it, if there is one, is no row. -/
def EndsOutside (ls : List Line) : Prop :=
  ∀ l, (ls.filter (!isBlank ·)).getLast? = some l → isRow (trim l) = false

instance (ls : List Line) : Decidable (EndsOutside ls) :=
  inferInstanceAs (Decidable (∀ l ∈ (ls.filter (!isBlank ·)).getLast?, isRow (trim l) = false))

theorem EndsOutside.suffix {xs ys : List Line} (h : EndsOutside ys) (hs : xs <:+ ys) :
    EndsOutside xs := by
  intro l hl
  obtain ⟨before, rfl⟩ := hs
  apply h l
  rw [List.filter_append, List.getLast?_append, hl, Option.some_or]

theorem not_ends_outside {x : Line} {rest : List Line} (hx : startsRun x = true)
    (hrest : ∀ y ∈ rest, continuesRun y = true) : ¬ EndsOutside (x :: rest) := by
  intro h
  have hrun : ∀ y ∈ (x :: rest).filter (!isBlank ·), startsRun y = true := by
    intro y hy
    obtain ⟨hmem, hblank⟩ := List.mem_filter.mp hy
    rcases List.mem_cons.mp hmem with rfl | hmem
    · exact hx
    · have hcont := hrest y hmem
      rw [continuesRun, Bool.or_eq_true] at hcont
      rcases hcont with hcont | hcont
      · exact hcont
      · simp [hcont] at hblank
  have hne : (x :: rest).filter (!isBlank ·) ≠ [] := by
    by_cases hxb : isBlank x = true
    · rw [starts_run_blank hxb] at hx
      cases hx
    · simp [hxb]
  have hlast := h _ (List.getLast?_eq_some_getLast hne)
  rw [← starts_run_eq, hrun _ (List.getLast_mem hne)] at hlast
  cases hlast

theorem pieces_cut_blank {xs : List Line} (h : EndsOutside xs) {b : Line} (hb : isBlank b = true)
    (ys : List Line) : pieces (xs ++ b :: ys) = pieces xs ++ .text b :: pieces ys := by
  apply pieces_append_text (starts_run_blank hb)
  intro x rest hsuffix hx
  by_contra hall
  have hrest : ∀ y ∈ rest, continuesRun y = true := by
    intro y hy
    by_contra hend
    exact hall ⟨y, List.mem_append_left _ hy, by simpa using hend⟩
  exact not_ends_outside hx hrest (h.suffix hsuffix)

theorem length_pieces_le (ls : List Line) : (pieces ls).length ≤ ls.length := by
  fun_induction pieces ls with
  | case1 => exact Nat.le_refl 0
  | case2 l ls _ ih =>
    have hdrop := (List.dropWhile_suffix continuesRun (l := ls)).length_le
    simp only [List.length_cons]
    omega
  | case3 l ls _ ih => exact Nat.succ_le_succ ih

def Piece.slot : Piece → Slot
  | .text l => .text l
  | .run rows => .fragment (.table (unlines rows))

def linesOutline (ls : List Line) : Outline := (pieces ls).map Piece.slot

theorem run_lift (t : Text) (store : Store) :
    (lift t).run store =
      (unlines ((linesOutline (lines t)).tokenLines store.codeBlocks.size store.tables.size),
        store.withFragments (linesOutline (lines t))) := by
  have hpiece : ∀ piece : Piece, piece.lift = piece.slot.lift := by
    intro piece
    cases piece <;> rfl
  have hrun := Outline.run_lift hpiece (pieces (lines t)) store
  simp only [lift, StateT.run_bind, hrun]
  rfl

theorem length_lines_outline_le (ls : List Line) : (linesOutline ls).length ≤ ls.length := by
  rw [linesOutline, List.length_map]
  exact length_pieces_le ls

theorem code_blocks_lines_outline (ls : List Line) : (linesOutline ls).codeBlocks = [] := by
  apply List.filterMap_eq_nil_iff.mpr
  intro s hs
  obtain ⟨piece, -, rfl⟩ := List.mem_map.mp hs
  cases piece <;> rfl

theorem lines_outline_cut_token (k : Token) : CutsAt linesOutline k.toLine (.text k.toLine) :=
  (pieces_cut_token k).map Piece.slot

theorem lines_outline_cut_blank {xs : List Line} (h : EndsOutside xs) {b : Line}
    (hb : isBlank b = true) (ys : List Line) :
    linesOutline (xs ++ b :: ys) = linesOutline xs ++ .text b :: linesOutline ys := by
  simp only [linesOutline, pieces_cut_blank h hb, List.map_append, List.map_cons, Piece.slot]

/-- What holds of every line and of every run made of lines holds of the slots. -/
theorem forall_mem_slots {P : Slot → Prop} {all ls : List Line} (hsub : ls ⊆ all)
    (htext : ∀ l ∈ all, P (.text l))
    (hrun : ∀ rows, rows ⊆ all → P (.fragment (.table (unlines rows)))) :
    ∀ s ∈ linesOutline ls, P s := by
  rw [linesOutline]
  fun_induction pieces ls with
  | case1 => simp
  | case2 l ls _ ih =>
    rw [List.cons_subset] at hsub
    have hrows : l :: ls.takeWhile continuesRun ⊆ all := List.cons_subset.mpr
      ⟨hsub.1, List.Subset.trans (List.takeWhile_subset continuesRun) hsub.2⟩
    have hrest : ls.dropWhile continuesRun ⊆ all :=
      List.Subset.trans (List.dropWhile_subset continuesRun) hsub.2
    rw [List.map_cons, List.forall_mem_cons]
    exact ⟨hrun _ hrows, ih hrest⟩
  | case3 l ls _ ih =>
    rw [List.cons_subset] at hsub
    rw [List.map_cons, List.forall_mem_cons]
    exact ⟨htext l hsub.1, ih hsub.2⟩

theorem lines_outline_spelled {p : Char → Prop} (hn : p '\n') {ls : List Line}
    (h : ∀ l ∈ ls, ∀ c ∈ l, p c) : ∀ s ∈ linesOutline ls, s.Spelled p := by
  refine forall_mem_slots (List.Subset.refl ls) h ?_
  intro rows hrows
  apply unlines_spelled hn
  intro l hl
  exact h l (hrows hl)

theorem lines_outline_whole {ls : List Line} (h : ∀ l ∈ ls, '\n' ∉ l) :
    ∀ s ∈ linesOutline ls, s.Whole := by
  refine forall_mem_slots (List.Subset.refl ls) h ?_
  intros
  trivial

def outline (o : Outline) : Outline := o.overStretches linesOutline

theorem lines_outline_of_no_row {ls : List Line} (h : ∀ l ∈ ls, isRow (trim l) = false) :
    linesOutline ls = ls.map .text := by
  rw [linesOutline]
  induction ls with
  | nil => simp [pieces]
  | cons l ls ih =>
    rw [List.forall_mem_cons] at h
    have hrun : startsRun l = false := (starts_run_eq l).trans h.1
    rw [pieces_text hrun, List.map_cons, ih h.2, List.map_cons]
    rfl

theorem code_blocks_outline (o : Outline) : (outline o).codeBlocks = o.codeBlocks :=
  Outline.filter_map_stretches (fun _ => rfl) code_blocks_lines_outline [] o

theorem outline_spelled {p : Char → Prop} (hn : p '\n') {o : Outline}
    (h : ∀ s ∈ o, s.Spelled p) : ∀ s ∈ outline o, s.Spelled p :=
  Outline.forall_mem_stretches (fun _ => lines_outline_spelled hn) (by simp) h

theorem outline_whole {o : Outline} (h : ∀ s ∈ o, s.Whole) : ∀ s ∈ outline o, s.Whole :=
  Outline.forall_mem_stretches (fun _ => lines_outline_whole) (by simp) h

theorem lines_outline_ne_nil {ls : List Line} (h : ls ≠ []) : linesOutline ls ≠ [] := by
  obtain ⟨l, ls, rfl⟩ := List.exists_cons_of_ne_nil h
  by_cases hl : startsRun l = true
  · simp [linesOutline, pieces_run hl]
  · have hl : startsRun l = false := by simpa using hl
    simp [linesOutline, pieces_text hl]

theorem outline_ne_nil {o : Outline} (h : o ≠ []) : outline o ≠ [] :=
  Outline.stretches_ne_nil (fun _ => lines_outline_ne_nil) (Or.inr h)

theorem length_outline_le (o : Outline) : (outline o).length ≤ o.length := by
  have h := Outline.length_stretches_le length_lines_outline_le [] o
  rwa [List.length_nil, Nat.zero_add] at h

/-- Tables are lifted as from the outline when only code blocks have left their tokens so far. -/
theorem lines_outline_token_lines (codes codes' tables tables' : Nat) (before : List Line)
    {o : Outline} (h : o.tables = []) :
    (linesOutline (before ++ o.tokenLines codes' tables')).tokenLines codes tables =
        (o.overStretchesFrom linesOutline before).tokenLines codes' tables ∧
      (linesOutline (before ++ o.tokenLines codes' tables')).tables =
        (o.overStretchesFrom linesOutline before).tables := by
  induction o generalizing before codes codes' tables with
  | nil =>
    rw [Outline.tokenLines, List.append_nil, Outline.overStretchesFrom]
    exact ⟨Outline.token_lines_codes (code_blocks_lines_outline before) codes codes' tables, rfl⟩
  | cons s o ih =>
    cases s with
    | text l =>
      have hl := ih codes codes' tables (before ++ [l]) h
      rwa [List.append_assoc, List.singleton_append] at hl
    | fragment x =>
      cases x with
      | code block =>
        have hcut := lines_outline_cut_token (.code codes') before
          (Outline.tokenLines (codes' + 1) tables' o)
        have hnone := code_blocks_lines_outline before
        obtain ⟨hlines, htables⟩ :=
          ih codes (codes' + 1) (tables + (linesOutline before).tables.length) [] h
        rw [List.nil_append] at hlines htables
        rw [Outline.tokenLines, hcut, Outline.overStretchesFrom]
        constructor
        · simp only [Outline.token_lines_append, Outline.tokenLines, hnone, List.length_nil,
            Nat.add_zero, hlines, Outline.token_lines_codes hnone codes codes' tables]
        · rw [Outline.tables_append, Outline.tables_append, Outline.tables_text,
            Outline.tables_code, htables]
      | table raw => cases h

theorem run_lift_token_lines {o : Outline} (hwhole : ∀ s ∈ o, s.Whole) (hne : o ≠ [])
    (h : o.tables = []) :
    (lift (unlines (o.tokenLines 0 0))).run (Store.withFragments {} o) =
      (unlines ((outline o).tokenLines 0 0), Store.withFragments {} (outline o)) := by
  have hlines := Outline.lines_unlines_token_lines 0 0 hwhole hne
  have hstore : Store.withFragments {} o = ⟨o.codeBlocks.toArray, #[]⟩ := by
    rw [Store.withFragments, h]
    simp
  obtain ⟨htokens, htables⟩ := lines_outline_token_lines o.codeBlocks.length 0 0 0 [] h
  rw [List.nil_append] at htokens htables
  have hcodes := code_blocks_lines_outline (o.tokenLines 0 0)
  rw [hstore, run_lift, hlines]
  apply Prod.ext
  · exact congrArg unlines htokens
  · simp only [Store.withFragments, hcodes, htables, code_blocks_outline]
    simp [outline, Outline.overStretches]

end MarkdownPage.Table
