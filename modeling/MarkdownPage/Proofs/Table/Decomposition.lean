import Mathlib.Data.List.Chain
import MarkdownPage.Proofs.Table.Run

/-!
Lifting tables as a decomposition of the text. Each run goes on as long as it can, what is taken
away can be put back character for character, and what is left holds no row. The tokens of other
fragments may stand in the text; only those of the tables that are lifted must be new to it.
-/

namespace MarkdownPage.Table

open Text

def Piece.lines : Piece → List Line
  | .text l => [l]
  | .run rows => rows

def Piece.source : Piece → Text
  | .text l => l
  | .run rows => unlines rows

def raws (ps : List Piece) : List Text := Outline.tables (ps.map Piece.slot)

def tokensFrom (n count : Nat) : List Line :=
  (List.range' n count).map fun i => (Token.table i).toLine

/-- The raw table that stands for the line in this list of tokens, or the line where none does. -/
def putBack (tokens : List Line) (raws : List Text) (l : Line) : Text :=
  ((tokens.zip raws).lookup l).getD l

section Pieces

theorem raws_text (l : Line) (ps : List Piece) : raws (.text l :: ps) = raws ps := rfl

theorem raws_run (rows : List Line) (ps : List Piece) :
    raws (.run rows :: ps) = unlines rows :: raws ps := rfl

theorem lines_of_pieces (ls : List Line) : (pieces ls).flatMap Piece.lines = ls := by
  fun_induction pieces ls with
  | case1 => rfl
  | case2 l ls _ ih =>
    rw [List.flatMap_cons, ih, Piece.lines, List.cons_append, List.takeWhile_append_dropWhile]
  | case3 l ls _ ih => rw [List.flatMap_cons, ih, Piece.lines, List.singleton_append]

theorem mem_of_piece {ls : List Line} {piece : Piece} (hpiece : piece ∈ pieces ls) {l : Line}
    (hl : l ∈ piece.lines) : l ∈ ls := by
  rw [← lines_of_pieces ls]
  exact List.mem_flatMap.mpr ⟨piece, hpiece, hl⟩

/-- Text begins no run; a run begins with a line that does and goes on with lines that may. -/
def Piece.Formed : Piece → Prop
  | .text l => startsRun l = false
  | .run rows => ∃ first others, rows = first :: others ∧ startsRun first = true ∧
      ∀ l ∈ others, continuesRun l = true

theorem pieces_formed (ls : List Line) : ∀ piece ∈ pieces ls, piece.Formed := by
  fun_induction pieces ls with
  | case1 => simp
  | case2 l ls hl ih =>
    refine List.forall_mem_cons.mpr ⟨⟨l, _, rfl, hl, ?_⟩, ih⟩
    exact fun m hm => List.all_eq_true.mp List.all_takeWhile m hm
  | case3 l ls hl ih => exact List.forall_mem_cons.mpr ⟨by simpa [Piece.Formed] using hl, ih⟩

/-- Behind a run stands a line of text that could not have gone on with it. -/
def Piece.Ends : Piece → Piece → Prop
  | .run _, next => ∃ m, next = .text m ∧ continuesRun m = false
  | .text _, _ => True

theorem pieces_end (ls : List Line) : (pieces ls).IsChain Piece.Ends := by
  fun_induction pieces ls with
  | case1 => exact List.isChain_nil
  | case2 l ls hl ih =>
    refine List.isChain_cons.mpr ⟨fun next hnext => ?_, ih⟩
    have hhead := List.head?_dropWhile_not continuesRun ls
    cases hrest : ls.dropWhile continuesRun with
    | nil => simp [hrest, pieces] at hnext
    | cons m rest =>
      have hm : continuesRun m = false := by simpa [hrest] using hhead
      have hstarts : startsRun m = false := (Bool.or_eq_false_iff.mp hm).1
      rw [hrest, pieces_text hstarts] at hnext
      exact ⟨m, (Option.some.inj hnext).symm, hm⟩
  | case3 l ls _ ih => exact List.isChain_cons.mpr ⟨fun _ _ => trivial, ih⟩

end Pieces

section Tokens

theorem mem_tokens_from {n count : Nat} {l : Line} :
    l ∈ tokensFrom n count ↔ ∃ i, n ≤ i ∧ i < n + count ∧ l = (Token.table i).toLine := by
  simp only [tokensFrom, List.mem_map, List.mem_range'_1]
  constructor
  · rintro ⟨i, ⟨hle, hlt⟩, rfl⟩
    exact ⟨i, hle, hlt, rfl⟩
  · rintro ⟨i, hle, hlt, rfl⟩
    exact ⟨i, ⟨hle, hlt⟩, rfl⟩

theorem tokens_from_succ (n count : Nat) :
    tokensFrom n (count + 1) = (Token.table n).toLine :: tokensFrom (n + 1) count := by
  rw [tokensFrom, List.range'_succ, List.map_cons]
  rfl

theorem put_back_other {tokens : List Line} {l : Line} (h : l ∉ tokens) (raws : List Text) :
    putBack tokens raws l = l := by
  have hnone : (tokens.zip raws).lookup l = none := by
    rw [List.lookup_eq_none_iff]
    intro entry hentry
    have hne : l ≠ entry.1 := fun he => h (he ▸ (List.of_mem_zip hentry).1)
    simpa using hne
  rw [putBack, hnone, Option.getD_none]

theorem put_back_token {raws : List Text} {i : Nat} {raw : Text} (h : raws[i]? = some raw)
    (n : Nat) : putBack (tokensFrom n raws.length) raws (Token.table (n + i)).toLine = raw := by
  induction raws generalizing n i with
  | nil => simp at h
  | cons first others ih =>
    rw [List.length_cons, tokens_from_succ, putBack, List.zip_cons_cons]
    cases i with
    | zero =>
      rw [Nat.add_zero, List.lookup_cons_self, Option.getD_some]
      simpa using h
    | succ i =>
      have hne : (Token.table (n + (i + 1))).toLine ≠ (Token.table n).toLine := by
        intro he
        have hindex := Token.table.inj (Token.to_line_inj he)
        omega
      have hstep : n + (i + 1) = n + 1 + i := by omega
      rw [List.lookup_cons, beq_false_of_ne hne, hstep]
      exact ih (by simpa using h) (n + 1)

end Tokens

section TokenLines

variable {codes n : Nat} {ps : List Piece}

/-- A rewriting that keeps the text and gives each table for its token gives back what the pieces
were made of. -/
theorem map_token_lines {f : Line → Text} (htext : ∀ l, .text l ∈ ps → f l = l)
    (htoken : ∀ i raw, (raws ps)[i]? = some raw → f (Token.table (n + i)).toLine = raw) :
    (Outline.tokenLines codes n (ps.map Piece.slot)).map f = ps.map Piece.source := by
  induction ps generalizing n with
  | nil => rfl
  | cons piece ps ih =>
    have hrest : ∀ l, .text l ∈ ps → f l = l := fun l hl => htext l (List.mem_cons_of_mem piece hl)
    cases piece with
    | text l =>
      rw [List.map_cons, Piece.slot, Outline.tokenLines, List.map_cons, ih hrest htoken,
        htext l List.mem_cons_self, List.map_cons, Piece.source]
    | run rows =>
      have hfirst : f (Token.table n).toLine = unlines rows := htoken 0 (unlines rows) rfl
      have hothers := ih (n := n + 1) hrest fun i raw hraw => by
        have hstep : n + 1 + i = n + (i + 1) := by omega
        rw [hstep]
        exact htoken (i + 1) raw (by simpa [raws_run] using hraw)
      rw [List.map_cons, Piece.slot, Outline.tokenLines, List.map_cons, hothers, hfirst,
        List.map_cons, Piece.source]

theorem filter_token_lines {p : Line → Bool} (htext : ∀ l, .text l ∈ ps → p l = false)
    (htoken : ∀ l ∈ tokensFrom n (raws ps).length, p l = true) :
    (Outline.tokenLines codes n (ps.map Piece.slot)).filter p = tokensFrom n (raws ps).length := by
  induction ps generalizing n with
  | nil => rfl
  | cons piece ps ih =>
    have hrest : ∀ l, .text l ∈ ps → p l = false :=
      fun l hl => htext l (List.mem_cons_of_mem piece hl)
    cases piece with
    | text l =>
      have hl : ¬ p l = true := by simp [htext l List.mem_cons_self]
      rw [List.map_cons, Piece.slot, Outline.tokenLines, List.filter_cons_of_neg hl, raws_text,
        ih hrest htoken]
    | run rows =>
      rw [raws_run, List.length_cons, tokens_from_succ, List.forall_mem_cons] at htoken
      rw [List.map_cons, Piece.slot, Outline.tokenLines, List.filter_cons_of_pos htoken.1,
        ih hrest htoken.2, raws_run, List.length_cons, tokens_from_succ]

theorem chain_token_lines {R : Line → Line → Prop} (hps : ps.IsChain Piece.Ends)
    (htext : ∀ l, .text l ∈ ps → ∀ m, R l m)
    (htoken : ∀ i m, .text m ∈ ps → continuesRun m = false → R (Token.table i).toLine m) :
    (Outline.tokenLines codes n (ps.map Piece.slot)).IsChain R := by
  induction ps generalizing n with
  | nil => exact List.isChain_nil
  | cons piece ps ih =>
    obtain ⟨hends, hps⟩ := List.isChain_cons.mp hps
    have hrest (n : Nat) := ih (n := n) hps
      (fun l hl => htext l (List.mem_cons_of_mem piece hl))
      (fun i m hm => htoken i m (List.mem_cons_of_mem piece hm))
    cases piece with
    | text l =>
      exact List.isChain_cons.mpr ⟨fun m _ => htext l List.mem_cons_self m, hrest n⟩
    | run rows =>
      refine List.isChain_cons.mpr ⟨fun m hm => ?_, hrest (n + 1)⟩
      cases ps with
      | nil => cases hm
      | cons next ps =>
        obtain ⟨m', rfl, hm'⟩ := hends next rfl
        cases hm
        exact htoken n m (by simp) hm'

end TokenLines

/-- A table as it is stored: it begins with a row, and every line behind is a row or blank. -/
def IsRun (raw : Text) : Prop :=
  ∃ first others, lines raw = first :: others ∧ isRow (trim first) = true ∧
    ∀ l ∈ others, isRow (trim l) = true ∨ isBlank l = true

def newTokens (store : Store) (raws : List Text) : List Line :=
  tokensFrom store.tables.size raws.length

/-- What lifting the tables of `t` makes of it and of the store. A line behind a token ends its run,
and no two tokens are neighbours. -/
structure Decomposed (t : Text) (store : Store) (out : Text) (after : Store)
    (raws : List Text) : Prop where
  codes : after.codeBlocks = store.codeBlocks
  tables : after.tables = store.tables ++ raws.toArray
  runs : ∀ raw ∈ raws, IsRun raw
  numbered : (lines out).filter (· ∈ newTokens store raws) = newTokens store raws
  restored : unlines ((lines out).map (putBack (newTokens store raws) raws)) = t
  maximal : (lines out).IsChain fun l m => l ∈ newTokens store raws →
    m ∉ newTokens store raws ∧ isRow (trim m) = false ∧ isBlank m = false
  bare : ∀ l ∈ lines out, isRow (trim l) = false
  settled : ∀ other, (lift out).run other = (out, other)

section Lifted

theorem lines_lift (t : Text) (store : Store) : lines ((lift t).run store).1 =
    (linesOutline (lines t)).tokenLines store.codeBlocks.size store.tables.size := by
  rw [run_lift]
  refine Outline.lines_unlines_token_lines _ _ (lines_outline_whole ?_)
    (lines_outline_ne_nil (lines_ne_nil t))
  exact fun l hl => newline_not_mem hl

theorem tables_lift (t : Text) (store : Store) : ((lift t).run store).2.tables =
    store.tables ++ (raws (pieces (lines t))).toArray := by
  rw [run_lift]
  rfl

theorem is_run_of_formed {rows : List Line} (h : (Piece.run rows).Formed)
    (hfree : ∀ l ∈ rows, '\n' ∉ l) : IsRun (unlines rows) := by
  obtain ⟨first, others, rfl, hfirst, hothers⟩ := h
  refine ⟨first, others, lines_unlines hfree (List.cons_ne_nil _ _), ?_, fun l hl => ?_⟩
  · rwa [starts_run_eq] at hfirst
  · have hcont := hothers l hl
    rwa [continuesRun, starts_run_eq, Bool.or_eq_true] at hcont

theorem lifted_run {t raw : Text} (h : raw ∈ raws (pieces (lines t))) : IsRun raw := by
  obtain ⟨piece, hpiece, hslot⟩ := List.mem_map.mp (Outline.table_of_mem h)
  cases piece with
  | text l => cases hslot
  | run rows =>
    cases hslot
    exact is_run_of_formed (pieces_formed _ _ hpiece) fun l hl =>
      newline_not_mem (mem_of_piece hpiece hl)

theorem bare_lift (t : Text) (store : Store) :
    ∀ l ∈ lines ((lift t).run store).1, isRow (trim l) = false := by
  intro l hl
  rw [lines_lift] at hl
  rw [← starts_run_eq]
  rcases Outline.mem_token_lines hl with hl | ⟨k, -, rfl⟩
  · obtain ⟨piece, hpiece, hslot⟩ := List.mem_map.mp (Outline.mem_texts.mp hl)
    cases piece with
    | text m =>
      cases hslot
      exact pieces_formed _ _ hpiece
    | run rows => cases hslot
  · exact (Bool.or_eq_false_iff.mp k.to_line_no_run).1

theorem lift_of_no_row {t : Text} (h : ∀ l ∈ lines t, isRow (trim l) = false) (store : Store) :
    (lift t).run store = (t, store) := by
  rw [run_lift, lines_outline_of_no_row h, Outline.with_fragments_texts,
    Outline.token_lines_texts, unlines_lines]

theorem unlines_sources (ls : List Line) (hfree : ∀ l ∈ ls, '\n' ∉ l) (hne : ls ≠ []) :
    unlines ((pieces ls).map Piece.source) = unlines ls := by
  have hlines : ((pieces ls).map Piece.source).flatMap lines = ls := by
    rw [List.flatMap_map]
    refine Eq.trans (List.flatMap_congr fun piece hpiece => ?_) (lines_of_pieces ls)
    have hpieceFree : ∀ l ∈ piece.lines, '\n' ∉ l := fun l hl => hfree l (mem_of_piece hpiece hl)
    cases piece with
    | text l => exact lines_of_newline_free (hpieceFree l (List.mem_singleton_self l))
    | run rows =>
      obtain ⟨first, others, rfl, -, -⟩ := pieces_formed ls _ hpiece
      exact lines_unlines hpieceFree (List.cons_ne_nil _ _)
  have hmap : (pieces ls).map Piece.source ≠ [] := by
    intro hnil
    rw [hnil] at hlines
    exact hne hlines.symm
  rw [← unlines_lines (unlines ((pieces ls).map Piece.source)), lines_unlines_flatMap hmap, hlines]

end Lifted

/-- Lifting tables loses nothing, takes each run as far as it goes, and leaves no row. The tokens of
the tables in the store must not be lines of the text. -/
theorem lift_lossless {t : Text} {store : Store}
    (h : ∀ i < ((lift t).run store).2.tables.size, (Token.table i).toLine ∉ lines t) :
    ∃ raws, Decomposed t store ((lift t).run store).1 ((lift t).run store).2 raws := by
  let found := raws (pieces (lines t))
  have hnew : ∀ l, .text l ∈ pieces (lines t) → l ∉ newTokens store found := by
    intro l hl hmem
    obtain ⟨i, -, hi, rfl⟩ := mem_tokens_from.mp hmem
    refine h i ?_ (mem_of_piece hl (List.mem_singleton_self _))
    simpa [tables_lift] using hi
  refine ⟨found, ?_⟩
  constructor
  case codes =>
    rw [run_lift]
    simp [Store.withFragments, code_blocks_lines_outline]
  case tables => exact tables_lift t store
  case runs => exact fun raw hraw => lifted_run hraw
  case numbered =>
    rw [lines_lift]
    exact filter_token_lines (fun l hl => decide_eq_false (hnew l hl)) fun l hl =>
      decide_eq_true hl
  case restored =>
    rw [lines_lift]
    refine Eq.trans (congrArg unlines (map_token_lines (fun l hl => ?_) fun i raw hraw => ?_)) ?_
    · exact put_back_other (hnew l hl) found
    · exact put_back_token hraw store.tables.size
    · rw [unlines_sources _ (fun l hl => newline_not_mem hl) (lines_ne_nil t), unlines_lines]
  case maximal =>
    rw [lines_lift]
    refine chain_token_lines (pieces_end (lines t)) (fun l hl m hmem => ?_) fun i m hm hend _ => ?_
    · exact absurd hmem (hnew l hl)
    · rw [continuesRun, starts_run_eq, Bool.or_eq_false_iff] at hend
      exact ⟨hnew m hm, hend⟩
  case bare => exact bare_lift t store
  case settled => exact lift_of_no_row (bare_lift t store)

/-- Spacer lines, indentation and a line end behind the last row, beside a code block. -/
theorem lift_lossless_spacers :
    let t := "\n  |a|\n \n|-|\nb\n|c|\n".toList ++ (Token.code 0).toLine ++ "\n|d|\n\n".toList
    let store : Store := ⟨#[], #["|e|".toList]⟩
    (∀ i < ((lift t).run store).2.tables.size, (Token.table i).toLine ∉ lines t) ∧
      ((lift t).run store).2.tables.size = 4 ∧
      ∃ raws, Decomposed t store ((lift t).run store).1 ((lift t).run store).2 raws :=
  ⟨by decide +kernel, by decide +kernel, lift_lossless (by decide +kernel)⟩

end MarkdownPage.Table
