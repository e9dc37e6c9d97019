import Mathlib.Data.List.Infix
import MarkdownPage.Page.Template
import MarkdownPage.Proofs.Article.Clean

/-!
Line ends with a carriage return. A text without carriage returns can be given one before any of its
line feeds; folding takes back just these, so the page does not show which line ends were written so.
-/

namespace MarkdownPage.Page

open Text Html Article

/-- The text with a carriage return before each line feed at one of the given places. -/
def withReturns (returned : Nat → Bool) (t : Text) : Text :=
  t.zipIdx.flatMap fun (c, i) => if c = '\n' && returned i then ['\r', '\n'] else [c]

theorem with_returns_nil (returned : Nat → Bool) : withReturns returned [] = [] := rfl

theorem with_returns_cons (returned : Nat → Bool) (c : Char) (t : Text) :
    withReturns returned (c :: t) = (if c = '\n' && returned 0 then ['\r', '\n'] else [c]) ++
      withReturns (fun i => returned (i + 1)) t := by
  rw [withReturns, List.zipIdx_cons', List.flatMap_cons, List.flatMap_map]
  rfl

theorem fold_with_returns {t : Text} (h : '\r' ∉ t) (returned : Nat → Bool) :
    foldLineEnds (withReturns returned t) = t := by
  induction t generalizing returned with
  | nil => rw [with_returns_nil, foldLineEnds, substitute_nil]
  | cons c t ih =>
    rw [List.mem_cons, not_or] at h
    have ht := ih h.2 fun i => returned (i + 1)
    rw [with_returns_cons]
    by_cases hfeed : (c = '\n' && returned 0) = true
    · have hc : c = '\n' := of_decide_eq_true (Bool.and_eq_true_iff.mp hfeed).1
      rw [if_pos hfeed, List.cons_append, List.singleton_append, fold_line_end, ht, hc]
    · rw [if_neg hfeed, List.singleton_append, fold_other, ht]
      intro hend
      exact h.1 (List.cons_prefix_cons.mp hend).1

theorem exists_returns (source : Text) :
    ∃ returned, source = withReturns returned (foldLineEnds source) := by
  induction source using scan_induction (literalRule '\r' ['\n'] ['\n']) with
  | nil =>
    refine ⟨fun _ => false, ?_⟩
    rw [foldLineEnds, substitute_nil, with_returns_nil]
  | hit c t m hm ih =>
    obtain ⟨-, hrest⟩ := literal_rule_some hm
    have hsource : c :: t = '\r' :: '\n' :: m.rest := hrest
    obtain ⟨returned, ht⟩ := ih
    refine ⟨fun i => i.casesOn true returned, ?_⟩
    rw [hsource, fold_line_end, with_returns_cons]
    exact congrArg (['\r', '\n'] ++ ·) ht
  | miss c t hm ih =>
    have hend : ¬ ['\r', '\n'] <+: c :: t := literal_rule_none_iff.mp hm
    obtain ⟨returned, ht⟩ := ih
    refine ⟨fun i => i.casesOn false returned, ?_⟩
    rw [fold_other hend, with_returns_cons, if_neg (by simp)]
    exact congrArg ([c] ++ ·) ht

theorem clean_with_returns {t : Text} (h : '\r' ∉ t) (returned : Nat → Bool) :
    clean (withReturns returned t) = clean t := by
  rw [clean, clean, fold_with_returns h, fold_line_ends_plain h]

/-- Whichever line ends of a text are written with a carriage return, article and page are those of
the text, fragments and title included. No other sources fold to it. -/
theorem line_ends_alike {t : Text} (h : '\r' ∉ t) :
    (∀ returned e, Article.ofMarkdown e (withReturns returned t) = Article.ofMarkdown e t) ∧
    (∀ returned e s, ofMarkdown e s (withReturns returned t) = ofMarkdown e s t) ∧
    ∀ source, foldLineEnds source = t ↔ ∃ returned, source = withReturns returned t := by
  have harticle : ∀ returned e,
      Article.ofMarkdown e (withReturns returned t) = Article.ofMarkdown e t := by
    intro returned e
    rw [Article.ofMarkdown, Article.ofMarkdown, clean_with_returns h]
  refine ⟨harticle, fun returned e s => ?_, fun source => ⟨?_, ?_⟩⟩
  · rw [ofMarkdown, ofMarkdown, harticle]
  · rintro rfl
    exact exists_returns source
  · rintro ⟨returned, rfl⟩
    exact fold_with_returns h returned

/-- Mixed line ends in a heading, a code block and a table, with frames beside them. -/
theorem line_ends_alike_mixed :
    let t := "# a \n```x\nb\n\uE000\n```\uE001\n| c |\n".toList
    '\r' ∉ t ∧
      Article.ofMarkdown .escaped "# a \r\n```x\nb\n\uE000\r\n```\uE001\r\n| c |\n".toList =
        Article.ofMarkdown .escaped t ∧
      ofMarkdown .verbatim {} "# a \r\n```x\nb\n\uE000\r\n```\uE001\r\n| c |\n".toList =
        ofMarkdown .verbatim {} t := by
  intro t
  have hreturns : withReturns [4, 13, 18].contains t =
      "# a \r\n```x\nb\n\uE000\r\n```\uE001\r\n| c |\n".toList := by decide +kernel
  have hplain : '\r' ∉ t := by decide +kernel
  have halike := line_ends_alike hplain
  rw [← hreturns]
  exact ⟨hplain, halike.1 _ .escaped, halike.2.1 _ .verbatim {}⟩

end MarkdownPage.Page
