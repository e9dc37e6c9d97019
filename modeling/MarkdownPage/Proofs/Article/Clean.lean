import MarkdownPage.Article
import MarkdownPage.Proofs.Fragment.Token
import MarkdownPage.Proofs.Text.Substitute

/-!
Cleaning a source: line ends are folded and frames erased. A source without frames and carriage
returns is clean already, and cleaning can be cut at a line feed that has no carriage return before
it.
-/

namespace MarkdownPage.Article

open Text

theorem fold_line_end (t : Text) : foldLineEnds ('\r' :: '\n' :: t) = '\n' :: foldLineEnds t := by
  rw [foldLineEnds]
  cases hr : literalRule '\r' ['\n'] ['\n'] ('\r' :: '\n' :: t) with
  | none => cases hr
  | some m =>
    obtain ⟨hreplacement, hrest⟩ := literal_rule_some hr
    have ht : t = m.rest := @List.append_cancel_left _ ['\r', '\n'] _ _ hrest
    rw [substitute_some hr, hreplacement, ← ht]
    rfl

theorem fold_other {c : Char} {t : Text} (h : ¬ ['\r', '\n'] <+: c :: t) :
    foldLineEnds (c :: t) = c :: foldLineEnds t :=
  substitute_none (literal_rule_none_iff.mpr h)

theorem fold_append_newline {a : Text} (h : a.getLast? ≠ some '\r') (t : Text) :
    foldLineEnds (a ++ '\n' :: t) = foldLineEnds a ++ '\n' :: foldLineEnds t := by
  induction a using scan_induction (literalRule '\r' ['\n'] ['\n']) with
  | nil =>
    have hnewline : ¬ ['\r', '\n'] <+: '\n' :: t := by simp
    rw [List.nil_append, fold_other hnewline]
    simp [foldLineEnds]
  | hit c a m hm ih =>
    obtain ⟨-, hrest⟩ := literal_rule_some hm
    have ha : c :: a = '\r' :: '\n' :: m.rest := hrest
    rw [ha] at h ⊢
    have hlast : m.rest.getLast? ≠ some '\r' := by
      intro hr
      exact h (by simp [List.getLast?_cons, hr])
    rw [List.cons_append, List.cons_append, fold_line_end, fold_line_end, ih hlast,
      List.cons_append]
  | miss c a hm ih =>
    have ha : ¬ ['\r', '\n'] <+: c :: a := literal_rule_none_iff.mp hm
    have hat : ¬ ['\r', '\n'] <+: c :: (a ++ '\n' :: t) := by
      cases a with
      | nil => simpa [eq_comm] using h
      | cons d a => simpa [List.cons_prefix_cons] using ha
    have hlast : a.getLast? ≠ some '\r' := by
      intro hr
      exact h (by simp [List.getLast?_cons, hr])
    rw [List.cons_append, fold_other hat, fold_other ha, ih hlast, List.cons_append]

theorem fold_line_ends_plain {t : Text} (h : '\r' ∉ t) : foldLineEnds t = t := by
  apply substitute_eq_self
  intro s hs
  apply literal_rule_none_iff.mpr
  intro hreturn
  exact h ((hreturn.isInfix.trans hs.isInfix).subset List.mem_cons_self)

theorem line_end_prefix_cons {c : Char} {t : Text} :
    ['\r', '\n'] <+: c :: t ↔ c = '\r' ∧ t.head? = some '\n' := by
  cases t with
  | nil => simp
  | cons d t => simp [List.cons_prefix_cons, eq_comm]

theorem clean_line_end (t : Text) : clean ('\r' :: '\n' :: t) = '\n' :: clean t := by
  rw [clean, fold_line_end, Token.erase_frames_cons (by decide)]
  rfl

theorem clean_other {c : Char} {t : Text} (hend : ¬ ['\r', '\n'] <+: c :: t)
    (hc : Token.isFrame c = false) : clean (c :: t) = c :: clean t := by
  rw [clean, fold_other hend, Token.erase_frames_cons hc]
  rfl

theorem clean_frame {c : Char} {t : Text} (hend : ¬ ['\r', '\n'] <+: c :: t)
    (hc : Token.isFrame c = true) : clean (c :: t) = clean t := by
  rw [clean, fold_other hend, Token.erase_frames_frame hc]
  rfl

theorem clean_append_newline {a : Text} (h : a.getLast? ≠ some '\r') (t : Text) :
    clean (a ++ '\n' :: t) = clean a ++ '\n' :: clean t := by
  rw [clean, fold_append_newline h, Token.eraseFrames, List.filter_append,
    List.filter_cons_of_pos (by decide)]
  rfl

/-- Text with nothing in it to clean. -/
def Plain (t : Text) : Prop := '\r' ∉ t ∧ Token.Unframed t

instance (t : Text) : Decidable (Plain t) :=
  inferInstanceAs (Decidable ('\r' ∉ t ∧ Token.Unframed t))

theorem clean_plain {t : Text} (h : Plain t) : clean t = t := by
  rw [clean, fold_line_ends_plain h.1, Token.erase_frames_unframed h.2]

theorem Plain.append {s t : Text} (hs : Plain s) (ht : Plain t) : Plain (s ++ t) :=
  ⟨by simp [hs.1, ht.1], List.forall_mem_append.mpr ⟨hs.2, ht.2⟩⟩

theorem clean_append_empty_line {a : Text} (h : a.getLast? ≠ some '\r') (b : Text) :
    clean (a ++ "\n\n".toList ++ b) = clean a ++ "\n\n".toList ++ clean b := by
  have happ : a ++ "\n\n".toList ++ b = a ++ '\n' :: ([] ++ '\n' :: b) := by simp
  have hnil : clean [] = [] := clean_plain (by simp [Plain, Token.Unframed])
  rw [happ, clean_append_newline h, clean_append_newline (by simp), hnil]
  simp

theorem unframed_clean (source : Text) : Token.Unframed (clean source) :=
  Token.unframed_erase_frames (foldLineEnds source)

theorem clean_spelled {p : Char → Prop} (hn : p '\n') {source : Text} (h : ∀ c ∈ source, p c) :
    ∀ c ∈ clean source, p c := by
  have hfold : ∀ c ∈ foldLineEnds source, p c := by
    apply substitute_spelled _ h
    intro s m hm hs
    obtain ⟨hreplacement, hrest⟩ := literal_rule_some hm
    rw [hrest, List.forall_mem_append] at hs
    exact ⟨by simpa [hreplacement] using hn, hs.2⟩
  exact fun c hc => hfold c (List.mem_filter.mp hc).1

theorem length_clean_le (source : Text) : (clean source).length ≤ source.length := by
  have hfold : (foldLineEnds source).length ≤ source.length := by
    apply substitute_length_le
    intro s m hm
    obtain ⟨hreplacement, hrest⟩ := literal_rule_some hm
    have hlen := congrArg List.length hrest
    rw [hreplacement]
    simp only [List.length_append, List.length_cons, List.length_nil] at hlen ⊢
    omega
  exact Nat.le_trans (List.length_filter_le _ (foldLineEnds source)) hfold

end MarkdownPage.Article
