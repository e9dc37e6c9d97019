import Mathlib.Data.List.Induction
import MarkdownPage.Proofs.Text.Lines
import MarkdownPage.Proofs.Text.Substitute

/-!
What is true of each line of a text, and rewritings that keep it so. A text may stand for another
if, whatever stands around the two, the lines with the one are in order where those with the other
are. A rewriting writes words over marks: if a line of the class that is cut at a mark stays in the
class with a word and anything else behind the cut, then so do all lines, also where texts between
marks are put in another order.
-/

namespace MarkdownPage.Text

def EachLine (Q : Line → Prop) (t : Text) : Prop := ∀ l ∈ lines t, Q l

/-- The text `y` may stand where `x` stands. -/
def StandsFor (Q : Line → Prop) (y x : Text) : Prop :=
  ∀ s t, EachLine Q (s ++ x ++ t) → EachLine Q (s ++ y ++ t)

/-- A line of the class may be cut at one of the characters and go on with one of the words. -/
def Tolerates (Q : Line → Prop) (cuts : Text) (words : List Text) : Prop :=
  ∀ lead c rest, c ∈ cuts → Q (lead ++ c :: rest) → ∀ w ∈ words, ∀ more, Q (lead ++ w ++ more)

variable {Q : Line → Prop}

theorem each_line_newline (s t : Text) :
    EachLine Q (s ++ '\n' :: t) ↔ EachLine Q s ∧ EachLine Q t := by
  rw [EachLine, lines_append_newline, List.forall_mem_append]
  rfl

theorem each_line_of_newline_free {l : Line} (h : '\n' ∉ l) : EachLine Q l ↔ Q l := by
  rw [EachLine, lines_of_newline_free h, List.forall_mem_singleton]

/-- Only the last line of a text goes on in what follows. -/
theorem each_line_append (s : Text) : ∃ (P : Prop) (last : Line), '\n' ∉ last ∧
    ∀ t, EachLine Q (s ++ t) ↔ P ∧ EachLine Q (last ++ t) := by
  induction s using List.reverseRecOn with
  | nil => exact ⟨True, [], by simp, by simp⟩
  | append_singleton s c ih =>
    by_cases hc : c = '\n'
    · subst hc
      refine ⟨EachLine Q s, [], by simp, fun t => ?_⟩
      rw [List.append_assoc, List.singleton_append, each_line_newline, List.nil_append]
    · obtain ⟨P, last, hlast, h⟩ := ih
      refine ⟨P, last ++ [c], by simp [hlast, Ne.symm hc], fun t => ?_⟩
      rw [List.append_assoc, h, List.append_assoc]

theorem each_line_behind {s s' t : Text} (h : EachLine Q (s' ++ t))
    (hs : ∀ l : Line, '\n' ∉ l → EachLine Q (s ++ l)) : EachLine Q (s ++ t) := by
  by_cases ht : '\n' ∈ t
  · obtain ⟨first, others, rfl, hfirst⟩ := List.eq_append_cons_of_mem ht
    rw [← List.append_assoc, each_line_newline] at h ⊢
    exact ⟨hs first hfirst, h.2⟩
  · exact hs t ht

section Words

variable {cuts : Text} {words : List Text} (hQ : Tolerates Q cuts words) {c : Char} {w : Text}

include hQ

theorem each_line_word (hc : c ∈ cuts) (hw : w ∈ words) (hcut : c ≠ '\n') (hword : '\n' ∉ w)
    {s s' t u : Text} (h : EachLine Q (s ++ c :: t)) (hu : EachLine Q (s' ++ u)) :
    EachLine Q (s ++ w ++ u) := by
  refine each_line_behind hu fun l hl => ?_
  obtain ⟨P, last, hlast, hgoes⟩ := each_line_append (Q := Q) s
  rw [hgoes] at h
  rw [List.append_assoc, hgoes]
  refine ⟨h.1, ?_⟩
  have hline : '\n' ∉ last ++ (w ++ l) := by simp [hlast, hword, hl]
  rw [each_line_of_newline_free hline, ← List.append_assoc]
  -- The line that the character cuts is the first one behind `s`.
  obtain ⟨first, others, hfirst⟩ := List.exists_cons_of_ne_nil (lines_ne_nil t)
  have hlead : '\n' ∉ last ++ [c] := by simp [hlast, Ne.symm hcut]
  have hlines := lines_append_of_newline_free hlead hfirst
  rw [List.append_assoc, List.singleton_append, List.append_assoc, List.singleton_append] at hlines
  have hq : Q (last ++ c :: first) := h.2 _ (hlines ▸ List.mem_cons_self)
  exact hQ last c first hc hq w hw l

end Words

theorem stands_for_compatible : Compatible (StandsFor Q) where
  refl _ _ _ h := h
  trans hzy hyx s t h := hzy s t (hyx s t h)
  append := by
    intro x y x' y' h h' s t hx
    have hy : EachLine Q (s ++ y ++ (x' ++ t)) := h s (x' ++ t) (by simpa using hx)
    have hy' : EachLine Q (s ++ y ++ y' ++ t) := h' (s ++ y) t (by simpa using hy)
    simpa using hy'

theorem StandsFor.each_line {x y : Text} (h : StandsFor Q y x) (hx : EachLine Q x) :
    EachLine Q y := by
  have hy := h [] []
  rw [List.nil_append, List.nil_append, List.append_nil, List.append_nil] at hy
  exact hy hx

end MarkdownPage.Text
