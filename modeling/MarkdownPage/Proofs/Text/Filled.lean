import MarkdownPage.Proofs.Text.Blank
import MarkdownPage.Proofs.Text.Lines
import MarkdownPage.Proofs.Text.Substitute

/-!
Texts whose lines all have something on them, by one reading from left to right. The state of the
reading is whether the line so far has something on it; a line that ends with nothing on it stops
the reading. The reading of a text after another goes on from the state that the other leaves.
-/

namespace MarkdownPage.Text

/-- What the last line is after the text, if no line ends blank. -/
def fill (filled : Bool) : Text → Option Bool
  | [] => some filled
  | c :: t => if c = '\n' then (if filled then fill false t else none) else
      fill (filled || !isSpace c) t

theorem fill_append (filled : Bool) (s t : Text) :
    fill filled (s ++ t) = (fill filled s).bind (fill · t) := by
  induction s generalizing filled with
  | nil => rfl
  | cons c s ih =>
    rw [List.cons_append, fill, fill]
    split
    · split
      · exact ih false
      · rfl
    · exact ih _

theorem fill_newline (filled : Bool) (t : Text) :
    fill filled ('\n' :: t) = if filled then fill false t else none := by
  rw [fill, if_pos rfl]

theorem fill_line {l : Line} (h : '\n' ∉ l) (filled : Bool) :
    fill filled l = some (filled || !isBlank l) := by
  induction l generalizing filled with
  | nil => simp [fill, isBlank]
  | cons c l ih =>
    rw [List.mem_cons, not_or] at h
    rw [fill, if_neg (Ne.symm h.1), ih h.2]
    cases filled <;> cases hc : isSpace c <;> simp [isBlank, hc]

def Solid (t : Text) : Prop := '\n' ∉ t ∧ isBlank t = false

instance (t : Text) : Decidable (Solid t) :=
  inferInstanceAs (Decidable ('\n' ∉ t ∧ isBlank t = false))

theorem fill_solid {s : Text} (h : Solid s) (filled : Bool) : fill filled s = some true := by
  rw [fill_line h.1, h.2]
  simp

theorem fill_solid_append {s : Text} (h : Solid s) (filled : Bool) (t : Text) :
    fill filled (s ++ t) = fill true t := by
  rw [fill_append, fill_solid h, Option.bind_some]

theorem fill_compatible : Compatible fun y x => ∀ filled, fill filled y = fill filled x where
  refl _ _ := rfl
  trans hzy hyx filled := (hzy filled).trans (hyx filled)
  append h h' filled := by
    rw [fill_append, fill_append, h]
    exact congrArg _ (funext h')

theorem fill_unlines_iff {ls : List Line} (h : ∀ l ∈ ls, '\n' ∉ l) (hne : ls ≠ []) :
    fill false (unlines ls) = some true ↔ ∀ l ∈ ls, isBlank l = false := by
  induction ls with
  | nil => exact absurd rfl hne
  | cons l ls ih =>
    rw [List.forall_mem_cons] at h
    have hl := fill_line h.1 false
    by_cases hls : ls = []
    · subst hls
      simp [unlines, hl]
    · rw [unlines_cons hls, fill_append, hl, Option.bind_some, fill_newline, List.forall_mem_cons,
        ← ih h.2 hls]
      cases isBlank l <;> simp

theorem fill_iff (t : Text) : fill false t = some true ↔ ∀ l ∈ lines t, isBlank l = false := by
  have hlines := fill_unlines_iff (fun _ hl => newline_not_mem hl) (lines_ne_nil t)
  rwa [unlines_lines] at hlines

end MarkdownPage.Text
