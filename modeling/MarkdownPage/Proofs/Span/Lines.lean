import Mathlib.Data.List.Forall2
import MarkdownPage.Proofs.Span.Marked
import MarkdownPage.Proofs.Span.Words

/-!
Marking spans, line by line. A line that stands alone parts the text before it from the text behind
it, and prose without such a line is marked as one. Marking moves words and writes tags, yet each
line stays what it is to the passes that come behind.
-/

namespace MarkdownPage.Span

open Text Html

section Seams

end Seams

section Structure

/-- The two lines are the same to the passes that come behind: both blank or neither, a block opened
by both or neither, and either the same token or no token. -/
structure ReadAlike (l' l : Line) : Prop where
  blank : isBlank l' = isBlank l
  opened : Block.opened? (trim l') = Block.opened? (trim l)
  token : isToken l' = isToken l
  same : isToken l = true → l' = l

theorem read_alike_refl (l : Line) : ReadAlike l l := ⟨rfl, rfl, rfl, fun _ => rfl⟩

structure Plain (l : Line) : Prop where
  filled : isBlank l = false
  unopened : Block.opened? (trim l) = none
  untoken : isToken l = false

theorem plain_of_prose {l : Line} (h : standsAlone l = false) : Plain l := by
  simp only [standsAlone, Bool.or_eq_false_iff] at h
  obtain ⟨⟨⟨⟨hblank, htoken⟩, hopened⟩, -⟩, -⟩ := h
  exact ⟨hblank, by simpa using hopened, htoken⟩

theorem Plain.read_alike {l' l : Line} (h' : Plain l') (h : Plain l) : ReadAlike l' l where
  blank := h'.filled.trans h.filled.symm
  opened := h'.unopened.trans h.unopened.symm
  token := h'.untoken.trans h.untoken.symm
  same htoken := by
    rw [h.untoken] at htoken
    cases htoken

theorem mark_all_plain (e : Escaping) {t : Text} (h : ∀ l ∈ lines t, Plain l) :
    ∀ l ∈ lines (markAll e t), Plain l := by
  have hfilled := mark_all_filled e fun l hl => (h l hl).filled
  have hunopened := (mark_all_stands_for unopened_tolerates e t).each_line fun l hl =>
    (h l hl).unopened
  have huntoken := (mark_all_stands_for no_token_tolerates e t).each_line fun l hl =>
    (h l hl).untoken
  exact fun l hl => ⟨hfilled l hl, hunopened l hl, huntoken l hl⟩

theorem mark_all_count (e : Escaping) (t : Text) : (markAll e t).count '\n' = t.count '\n' := by
  have hcompatible := count_compatible '\n'
  have hentity : ∀ {c w}, attributeEntity? c = some w → w.count '\n' = [c].count '\n' := by
    intro c w h
    unfold attributeEntity? textEntity? at h
    split at h
    · cases h
      rfl
    · split at h
      all_goals cases h
      all_goals rfl
  refine mark_all_related hcompatible (attribute_value_related hcompatible hentity e) ?_ ?_ ?_ ?_ t
  · intro content
    simp [strong, enclose, openTag, closeTag]
  · intro content
    simp [emphasis, enclose, openTag, closeTag]
  · intro r
    unfold image Escaping.attributeValue
    simp
    omega
  · intro r
    unfold link Escaping.attributeValue
    simp
    omega

theorem mark_all_lines (e : Escaping) {t : Text} (h : ∀ l ∈ lines t, Plain l) :
    List.Forall₂ ReadAlike (lines (markAll e t)) (lines t) := by
  have hplain := mark_all_plain e h
  have hlength : (lines (markAll e t)).length = (lines t).length := by
    rw [length_lines, length_lines, mark_all_count]
  refine List.forall₂_iff_zip.mpr ⟨hlength, fun hpair => ?_⟩
  obtain ⟨hl', hl⟩ := List.of_mem_zip hpair
  exact (hplain _ hl').read_alike (h _ hl)

theorem blank_mark_all (e : Escaping) {l : Line} (hfree : '\n' ∉ l) :
    isBlank (markAll e l) = isBlank l := by
  cases hblank : isBlank l with
  | true => rw [mark_all_inert e (inert_blank hblank), hblank]
  | false =>
    apply mark_all_filled e (t := l)
    · rw [lines_of_newline_free hfree]
      simpa using hblank
    · rw [lines_of_newline_free (mark_all_newline_free e hfree)]
      exact List.mem_cons_self

theorem mark_all_line (e : Escaping) {l : Line} (hfree : '\n' ∉ l) (h : isToken l = false) :
    ReadAlike (markAll e l) l where
  blank := blank_mark_all e hfree
  opened := opened_mark_all e l
  token := by
    have hline : EachLine (isToken · = false) l := (each_line_of_newline_free hfree).mpr h
    have hmarked := (mark_all_stands_for no_token_tolerates e l).each_line hline
    rw [each_line_of_newline_free (mark_all_newline_free e hfree)] at hmarked
    exact hmarked.trans h.symm
  same htoken := by
    rw [h] at htoken
    cases htoken

def Piece.lines : Piece → List Line
  | .token l => [l]
  | .alone l => [l]
  | .prose ls => ls

def Piece.Sorted : Piece → Prop
  | .token l => '\n' ∉ l ∧ isToken l = true
  | .alone l => '\n' ∉ l ∧ isToken l = false
  | .prose ls => ls ≠ [] ∧ ∀ l ∈ ls, '\n' ∉ l ∧ standsAlone l = false

theorem of_line_sorted {l : Line} (h : '\n' ∉ l) : (Piece.ofLine l).Sorted := by
  cases htoken : isToken l with
  | true => rw [Piece.ofLine, if_pos htoken]; exact ⟨h, htoken⟩
  | false =>
    cases halone : standsAlone l with
    | true => rw [of_line_alone htoken halone]; exact ⟨h, htoken⟩
    | false =>
      rw [of_line_prose halone]
      exact ⟨by simp, by simpa using ⟨h, halone⟩⟩

theorem pieces_sorted {ls : List Line} (h : ∀ l ∈ ls, '\n' ∉ l) : ∀ p ∈ pieces ls, p.Sorted := by
  refine forall_mem_join_runs (fun a b c hjoin ha hb => ?_) (List.forall_mem_map.mpr fun l hl =>
    of_line_sorted (h l hl))
  unfold Piece.join? at hjoin
  split at hjoin
  · cases hjoin
    exact ⟨by simp [ha.1], List.forall_mem_append.mpr ⟨ha.2, hb.2⟩⟩
  · cases hjoin

theorem lines_of_pieces (ls : List Line) : (pieces ls).flatMap Piece.lines = ls := by
  rw [pieces, flat_map_join_runs, List.flatMap_map]
  · have hline : ∀ l, (Piece.ofLine l).lines = [l] := by
      intro l
      unfold Piece.ofLine
      split
      · rfl
      · split <;> rfl
    simp [hline]
  · intro a b c hjoin
    unfold Piece.join? at hjoin
    split at hjoin
    · cases hjoin
      rfl
    · cases hjoin

theorem piece_lines_alike (e : Escaping) {p : Piece} (h : p.Sorted) :
    List.Forall₂ ReadAlike (Text.lines (p.toHtml e)) p.lines := by
  cases p with
  | token l =>
    rw [Piece.toHtml, lines_of_newline_free h.1]
    exact .cons (read_alike_refl l) .nil
  | alone l =>
    rw [Piece.toHtml, lines_of_newline_free (mark_all_newline_free e h.1)]
    exact .cons (mark_all_line e h.1 h.2) .nil
  | prose ls =>
    have hlines : Text.lines (unlines ls) = ls := lines_unlines (fun l hl => (h.2 l hl).1) h.1
    have halike := mark_all_lines e (t := unlines ls) (by
      rw [hlines]
      exact fun l hl => plain_of_prose (h.2 l hl).2)
    rwa [hlines] at halike

/-- Marking keeps what the later passes read off the lines. -/
theorem lines_read_alike (e : Escaping) (t : Text) :
    List.Forall₂ ReadAlike (Text.lines (markUp e t)) (Text.lines t) := by
  have hsorted := pieces_sorted fun l (hl : l ∈ Text.lines t) => newline_not_mem hl
  have hflat : List.Forall₂ ReadAlike
      ((pieces (Text.lines t)).flatMap fun p => Text.lines (p.toHtml e))
      ((pieces (Text.lines t)).flatMap Piece.lines) := by
    refine List.rel_flatMap (R := fun p q => p = q ∧ p.Sorted) (List.forall₂_same.mpr fun p hp =>
      ⟨rfl, hsorted p hp⟩) ?_
    rintro p q ⟨rfl, hp⟩
    exact piece_lines_alike e hp
  rw [lines_of_pieces] at hflat
  have hmarked : Text.lines (markUp e t) =
      (pieces (Text.lines t)).flatMap fun p => Text.lines (p.toHtml e) := by
    rw [mark_up_eq_unlines, lines_unlines_flatMap (mark_up_pieces_ne_nil (lines_ne_nil t)), markUpPieces,
      List.flatMap_map]
  rwa [hmarked]

end Structure

end MarkdownPage.Span
