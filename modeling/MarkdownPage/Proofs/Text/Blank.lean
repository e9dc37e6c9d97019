import Mathlib.Data.List.DropRight
import MarkdownPage.Text.Blank
import MarkdownPage.Proofs.Text.Lines

/-!
Trimming takes characters only from the two ends of a text, and nothing is left of a text exactly
when it is blank. The trimmed lines of a text that has been trimmed are trimmed lines of that text.
-/

namespace MarkdownPage.Text

theorem mem_of_mem_trim_start {c : Char} {t : Text} (h : c ∈ trimStart t) : c ∈ t :=
  (List.dropWhile_sublist isSpace).subset h

theorem mem_of_mem_trim_end {c : Char} {t : Text} (h : c ∈ trimEnd t) : c ∈ t := by
  have hr : c ∈ t.reverse := (List.dropWhile_sublist isSpace).subset (List.mem_reverse.mp h)
  exact List.mem_reverse.mp hr

theorem mem_of_mem_trim {c : Char} {t : Text} (h : c ∈ trim t) : c ∈ t :=
  mem_of_mem_trim_start (mem_of_mem_trim_end h)

theorem trim_start_suffix (t : Text) : trimStart t <:+ t := List.dropWhile_suffix isSpace

theorem trim_end_append_spaces (t : Text) :
    ∃ spaces, t = trimEnd t ++ spaces ∧ ∀ c ∈ spaces, isSpace c = true := by
  refine ⟨(t.reverse.takeWhile isSpace).reverse, ?_, ?_⟩
  · rw [trimEnd, ← List.reverse_append, List.takeWhile_append_dropWhile, List.reverse_reverse]
  · intro c hc
    exact List.all_eq_true.mp List.all_takeWhile c (List.mem_reverse.mp hc)

theorem length_trim_le (t : Text) : (trim t).length ≤ t.length := by
  have hstart := (List.dropWhile_sublist isSpace (l := t)).length_le
  have hend := (List.dropWhile_sublist isSpace (l := (trimStart t).reverse)).length_le
  rw [List.length_reverse] at hend
  rw [trim, trimEnd, List.length_reverse]
  exact Nat.le_trans hend hstart

theorem mem_of_after_space {c : Char} {t rest : Text} (h : afterSpace? t = some rest)
    (hc : c ∈ rest) : c ∈ t := by
  cases t with
  | nil => simp [afterSpace?] at h
  | cons d t =>
    simp only [afterSpace?, Option.ite_none_right_eq_some, Option.some.injEq] at h
    obtain ⟨-, rfl⟩ := h
    exact List.mem_cons_of_mem d (mem_of_mem_trim_start hc)

theorem trim_end_append {c : Char} (hc : isSpace c = false) (s t : Text) :
    trimEnd (s ++ c :: t) = s ++ c :: trimEnd t := by
  unfold trimEnd
  rw [List.reverse_append, List.reverse_cons, List.append_assoc, List.dropWhile_append]
  split
  · next h => simp [List.isEmpty_iff.mp h, hc]
  · simp

theorem trim_start_cons {c : Char} (hc : isSpace c = false) (t : Text) :
    trimStart (c :: t) = c :: t := by
  simp [trimStart, hc]

theorem trim_cons {c : Char} (hc : isSpace c = false) (t : Text) :
    trim (c :: t) = c :: trimEnd t := by
  rw [trim, trim_start_cons hc]
  exact trim_end_append hc [] t

theorem trim_framed {c d : Char} (hc : isSpace c = false) (hd : isSpace d = false) (s : Text) :
    trim (c :: (s ++ [d])) = c :: (s ++ [d]) := by
  rw [trim_cons hc, trim_end_append hd]
  rfl

theorem trim_start_nil_iff (t : Text) : trimStart t = [] ↔ isBlank t = true := by
  rw [trimStart, isBlank]
  induction t with
  | nil => simp
  | cons c t ih => by_cases hc : isSpace c = true <;> simp [hc, ih]

theorem not_space_of_trim_start {c : Char} {t rest : Text} (h : trimStart t = c :: rest) :
    isSpace c = false := by
  have hn := List.head?_dropWhile_not isSpace t
  rw [show t.dropWhile isSpace = c :: rest from h] at hn
  simpa using hn

theorem not_space_of_trim_last {t : Text} (h : trim t ≠ []) :
    isSpace ((trim t).getLast h) = false := by
  rw [← Bool.not_eq_true]
  exact List.rdropWhile_last_not isSpace (trimStart t) h

theorem trim_eq_nil_iff (t : Text) : trim t = [] ↔ isBlank t = true := by
  rw [← trim_start_nil_iff]
  cases h : trimStart t with
  | nil => simp [trim, h, trimEnd]
  | cons c rest =>
    have ht : trim t = c :: trimEnd rest := by
      rw [trim, h]
      exact trim_end_append (not_space_of_trim_start h) [] rest
    simp [ht]

theorem blank_append (s t : Text) : isBlank (s ++ t) = (isBlank s && isBlank t) := List.all_append

theorem trim_start_append {s : Text} (h : isBlank s = false) (t : Text) :
    trimStart (s ++ t) = trimStart s ++ t := by
  have hne : trimStart s ≠ [] := by simp [trim_start_nil_iff, h]
  unfold trimStart at hne ⊢
  rw [List.dropWhile_append, if_neg (by simpa using hne)]

theorem trim_start_blank_append {s : Text} (h : isBlank s = true) (t : Text) :
    trimStart (s ++ t) = trimStart t := by
  have hnil := (trim_start_nil_iff s).mpr h
  unfold trimStart at hnil ⊢
  rw [List.dropWhile_append, hnil]
  rfl

theorem after_space_append {spaces : Text} (hne : spaces ≠ [])
    (hspaces : ∀ c ∈ spaces, isSpace c = true) (rest : Text) :
    afterSpace? (spaces ++ rest) = some (trimStart rest) := by
  obtain ⟨c, spaces, rfl⟩ := List.exists_cons_of_ne_nil hne
  rw [List.forall_mem_cons] at hspaces
  have hblank : isBlank spaces = true := List.all_eq_true.mpr hspaces.2
  rw [List.cons_append, afterSpace?, if_pos hspaces.1, trim_start_blank_append hblank]

/-- What is read behind a marker is what follows all the whitespace that stands there. -/
theorem after_space_eq_some_iff {t rest : Text} :
    afterSpace? t = some rest ↔ ∃ spaces, spaces ≠ [] ∧ (∀ c ∈ spaces, isSpace c = true) ∧
      trimStart rest = rest ∧ t = spaces ++ rest := by
  constructor
  · intro h
    cases t with
    | nil => cases h
    | cons c t =>
      simp only [afterSpace?, Option.ite_none_right_eq_some, Option.some.injEq] at h
      obtain ⟨hc, rfl⟩ := h
      refine ⟨c :: t.takeWhile isSpace, List.cons_ne_nil _ _, ?_, ?_, ?_⟩
      · exact List.forall_mem_cons.mpr ⟨hc, List.all_eq_true.mp List.all_takeWhile⟩
      · exact List.dropWhile_idempotent isSpace t
      · exact congrArg (c :: ·) List.takeWhile_append_dropWhile.symm
  · rintro ⟨spaces, hne, hspaces, hrest, rfl⟩
    rw [after_space_append hne hspaces, hrest]

/-- A text that goes on behind its first words with a character that is no space. -/
theorem trim_append {s : Text} {c : Char} (hs : isBlank s = false) (hc : isSpace c = false)
    (t : Text) : trim (s ++ c :: t) = trimStart s ++ c :: trimEnd t := by
  rw [trim, trim_start_append hs, trim_end_append hc]

theorem trim_prefix (t : Text) : trim t <+: trimStart t := by
  obtain ⟨spaces, hspaces, -⟩ := trim_end_append_spaces (trimStart t)
  exact ⟨spaces, hspaces.symm⟩

theorem trim_not_blank {t : Text} (h : isBlank t = false) : isBlank (trim t) = false := by
  cases hstart : trimStart t with
  | nil =>
    rw [(trim_start_nil_iff t).mp hstart] at h
    cases h
  | cons c rest =>
    have hc := not_space_of_trim_start hstart
    have ht : trim t = c :: trimEnd rest := by
      rw [trim, hstart]
      exact trim_end_append hc [] rest
    rw [ht, isBlank, List.all_cons, hc, Bool.false_and]

section Lines

variable {c : Char} (hc : isSpace c = true)

include hc

theorem trim_cons_space (t : Text) : trim (c :: t) = trim t := by
  rw [trim, trimStart, List.dropWhile_cons_of_pos hc]
  rfl

theorem trim_concat_space (t : Text) : trim (t ++ [c]) = trim t := by
  have hend (s : Text) : trimEnd (s ++ [c]) = trimEnd s := by
    rw [trimEnd, List.reverse_append, List.reverse_singleton, List.singleton_append,
      List.dropWhile_cons_of_pos hc]
    rfl
  cases hblank : isBlank t with
  | true =>
    have hlonger : isBlank (t ++ [c]) = true := by
      rw [blank_append, hblank]
      simp [isBlank, hc]
    rw [(trim_eq_nil_iff t).mpr hblank, (trim_eq_nil_iff (t ++ [c])).mpr hlonger]
  | false => rw [trim, trim_start_append hblank, hend, trim]

theorem trimmed_lines_cons (t : Text) :
    (lines t).map trim ⊆ (lines (c :: t)).map trim := by
  by_cases hn : c = '\n'
  · subst hn
    have hlines : lines ('\n' :: t) = [] :: lines t := lines_append_newline [] t
    rw [hlines, List.map_cons]
    exact List.subset_cons_self _ _
  · obtain ⟨first, others, ht⟩ := List.exists_cons_of_ne_nil (lines_ne_nil t)
    have hlead : '\n' ∉ [c] := by simpa using Ne.symm hn
    have hlines : lines (c :: t) = (c :: first) :: others :=
      lines_append_of_newline_free hlead ht
    rw [hlines, ht, List.map_cons, List.map_cons, trim_cons_space hc]
    exact List.Subset.refl _

theorem trimmed_lines_concat (t : Text) :
    (lines t).map trim ⊆ (lines (t ++ [c])).map trim := by
  by_cases hn : c = '\n'
  · subst hn
    rw [lines_append_newline, List.map_append]
    exact List.subset_append_left _ _
  · have ht := (List.dropLast_concat_getLast (lines_ne_nil t)).symm
    have htail : '\n' ∉ [c] := by simpa using Ne.symm hn
    rw [lines_append_tail htail ht, List.map_append, List.map_singleton, trim_concat_space hc,
      ← List.map_singleton, ← List.map_append, ← ht]
    exact List.Subset.refl _

end Lines

/-- Trimming the whole text loses only blank lines. -/
theorem trimmed_lines_trim (t : Text) : (lines (trim t)).map trim ⊆ (lines t).map trim := by
  have hend : ∀ s : Text, (∀ c ∈ s, isSpace c = true) → ∀ t,
      (lines t).map trim ⊆ (lines (t ++ s)).map trim := by
    intro s hs
    induction s using List.reverseRecOn with
    | nil => simp
    | append_singleton s c ih =>
      intro t
      rw [List.forall_mem_append, List.forall_mem_singleton] at hs
      rw [← List.append_assoc]
      exact List.Subset.trans (ih hs.1 t) (trimmed_lines_concat hs.2 (t ++ s))
  have hstart : ∀ s : Text, (∀ c ∈ s, isSpace c = true) → ∀ t,
      (lines t).map trim ⊆ (lines (s ++ t)).map trim := by
    intro s hs t
    induction s with
    | nil => simp
    | cons c s ih =>
      rw [List.forall_mem_cons] at hs
      exact List.Subset.trans (ih hs.2) (trimmed_lines_cons hs.1 (s ++ t))
  obtain ⟨spaces, hspaces, hall⟩ := trim_end_append_spaces (trimStart t)
  have hbehind := hend spaces hall (trim t)
  have hbefore :=
    hstart (t.takeWhile isSpace) (List.all_eq_true.mp List.all_takeWhile) (trimStart t)
  have htrim : trim t ++ spaces = trimStart t := hspaces.symm
  have hwhole : t.takeWhile isSpace ++ trimStart t = t := List.takeWhile_append_dropWhile
  rw [htrim] at hbehind
  rw [hwhole] at hbefore
  exact List.Subset.trans hbehind hbefore

end MarkdownPage.Text
