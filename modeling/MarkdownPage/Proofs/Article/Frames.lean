import Mathlib.Data.List.Infix
import MarkdownPage.Proofs.Article.Clean

/-!
Frames written in a source. Line ends are folded before frames are erased, so a carriage return that
frames part from its line feed is kept, although it is folded in the same source without them. A
source with no such seam reads as if its frames had never been written, and only such a source is
cleaned alike.
-/

namespace MarkdownPage.Article

open Text Token Html

/-- No frames stand between a carriage return and a line feed with nothing else between them. -/
def Seamless (source : Text) : Prop :=
  ∀ t, '\r' :: t <:+ source → (eraseFrames t).head? = some '\n' → t.head? = some '\n'

instance (source : Text) : Decidable (Seamless source) :=
  decidable_of_iff (∀ s ∈ source.tails, s.head? = some '\r' →
      (eraseFrames s.tail).head? = some '\n' → s.tail.head? = some '\n') <| by
    constructor
    · intro h t ht
      exact h ('\r' :: t) ((List.mem_tails _ _).mpr ht) rfl
    · intro h s hs hr
      obtain ⟨t, rfl⟩ := List.head?_eq_some_iff.mp hr
      exact h t ((List.mem_tails _ _).mp hs)

theorem seamless_cons {c : Char} {t : Text} : Seamless (c :: t) ↔
    (c = '\r' → (eraseFrames t).head? = some '\n' → t.head? = some '\n') ∧ Seamless t := by
  constructor
  · intro h
    refine ⟨?_, fun s hs => h s (hs.trans (List.suffix_cons c t))⟩
    rintro rfl
    exact h t List.suffix_rfl
  · rintro ⟨hfirst, hothers⟩ s hs
    rcases List.suffix_cons_iff.mp hs with heq | hs
    · obtain ⟨rfl, rfl⟩ := List.cons.inj heq
      exact hfirst rfl
    · exact hothers s hs

/-- Cleaning a source alike with and without its frames takes that it has no seam. -/
theorem clean_erase_frames_iff (source : Text) :
    clean (eraseFrames source) = clean source ↔ Seamless source := by
  induction source using scan_induction (literalRule '\r' ['\n'] ['\n']) with
  | nil => simp [Seamless, eraseFrames]
  | hit c t m hm ih =>
    obtain ⟨-, hrest⟩ := literal_rule_some hm
    have hsource : c :: t = '\r' :: '\n' :: m.rest := hrest
    have hseam : Seamless ('\r' :: '\n' :: m.rest) ↔ Seamless m.rest := by
      simp [seamless_cons]
    rw [hsource, erase_frames_cons (by decide), erase_frames_cons (by decide), clean_line_end,
      clean_line_end, List.cons_inj_right, hseam]
    exact ih
  | miss c t hm ih =>
    have hend : ¬ ['\r', '\n'] <+: c :: t := literal_rule_none_iff.mp hm
    by_cases hc : isFrame c
    · have hne : c ≠ '\r' := by
        rintro rfl
        revert hc
        decide
      rw [erase_frames_frame hc, clean_frame hend hc, ih, seamless_cons]
      simp [hne]
    · have hc : isFrame c = false := by simpa using hc
      rw [erase_frames_cons hc, clean_other hend hc, seamless_cons, ← ih]
      by_cases hseam : ['\r', '\n'] <+: c :: eraseFrames t
      · -- Folding takes the carriage return once the frames behind it are gone.
        obtain ⟨rfl, hfeed⟩ := line_end_prefix_cons.mp hseam
        obtain ⟨r, hr⟩ := List.head?_eq_some_iff.mp hfeed
        have hparted : t.head? ≠ some '\n' := fun h => hend (line_end_prefix_cons.mpr ⟨rfl, h⟩)
        rw [hr, clean_line_end]
        simp [hparted]
      · rw [clean_other hseam hc, List.cons_inj_right]
        rw [line_end_prefix_cons] at hseam
        constructor
        · intro h
          exact ⟨fun hreturn hfeed => absurd ⟨hreturn, hfeed⟩ hseam, h⟩
        · exact fun h => h.2

/-- Where no frames part a line end, the article is that of the source with its frames erased, and
where some do the two sources are not even cleaned alike. -/
theorem frames_leave_no_trace (source : Text) :
    (clean (eraseFrames source) = clean source ↔ Seamless source) ∧
      (Seamless source → ∀ e, ofMarkdown e (eraseFrames source) = ofMarkdown e source) := by
  refine ⟨clean_erase_frames_iff source, ?_⟩
  intro h e
  have hclean : clean (eraseFrames source) = clean source := (clean_erase_frames_iff source).mpr h
  rw [ofMarkdown, ofMarkdown, hclean]

/-- Frames in a marker, in a fence and on either side of a line end, but in none. -/
theorem frames_leave_no_trace_beside_line_ends :
    let source :=
      "#\uE000 a\uE001\r\n\uE000``\uE001`x\uE000\r\n\uE001\uE000\r\n```\r\n*\uE000*b**".toList
    Seamless source ∧ ofMarkdown .escaped (eraseFrames source) = ofMarkdown .escaped source :=
  have hseamless : Seamless _ := by decide +kernel
  ⟨hseamless, (frames_leave_no_trace _).2 hseamless .escaped⟩

/-- The frame keeps the carriage return of this heading, which would be folded without it. -/
theorem frames_in_line_end_leave_trace :
    ¬ ∀ e source, (ofMarkdown e (eraseFrames source)).body = (ofMarkdown e source).body := by
  intro h
  have hbody := h .verbatim "# a\r\uE000\n".toList
  revert hbody
  decide +kernel

end MarkdownPage.Article
