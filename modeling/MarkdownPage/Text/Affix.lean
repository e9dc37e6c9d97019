import MarkdownPage.Text.Lines

/-!
What a text begins and ends with. Main statements: `dropPrefix?_eq_some_iff` and
`dropSuffix?_eq_some_iff`, by which each result determines the text that it came from.
-/

namespace MarkdownPage.Text

def dropPrefix? (lead t : Text) : Option Text := lead.isPrefixOf? t

def dropSuffix? (tail t : Text) : Option Text := tail.isSuffixOf? t

def startsWith (lead t : Text) : Bool := lead.isPrefixOf t

theorem dropPrefix?_nil (t : Text) : dropPrefix? [] t = some t := rfl

theorem dropPrefix?_cons (c d : Char) (lead t : Text) :
    dropPrefix? (c :: lead) (d :: t) = if c == d then dropPrefix? lead t else none := rfl

theorem dropPrefix?_cons_self (c : Char) (lead t : Text) :
    dropPrefix? (c :: lead) (c :: t) = dropPrefix? lead t := by
  rw [dropPrefix?_cons, if_pos (beq_self_eq_true c)]

theorem dropPrefix?_cons_ne {c d : Char} (h : c ≠ d) (lead t : Text) :
    dropPrefix? (c :: lead) (d :: t) = none := by
  rw [dropPrefix?_cons, if_neg (by simpa using h)]

theorem dropPrefix?_eq_some_iff {lead t rest : Text} :
    dropPrefix? lead t = some rest ↔ t = lead ++ rest := by
  induction lead generalizing t with
  | nil => exact Option.some_inj
  | cons c lead ih =>
    cases t with
    | nil =>
      have hnone : dropPrefix? (c :: lead) [] = none := rfl
      simp [hnone]
    | cons d t =>
      by_cases h : c = d
      · subst h
        simp [dropPrefix?_cons_self, ih]
      · simp [dropPrefix?_cons_ne h, Ne.symm h]

theorem dropSuffix?_eq_some_iff {tail t rest : Text} :
    dropSuffix? tail t = some rest ↔ t = rest ++ tail := by
  have := @dropPrefix?_eq_some_iff tail.reverse t.reverse rest.reverse
  have hback : dropSuffix? tail t =
      (dropPrefix? tail.reverse t.reverse).map List.reverse := rfl
  rw [hback, Option.map_eq_some_iff]
  constructor
  · rintro ⟨r, hr, rfl⟩
    rw [List.reverse_reverse] at this
    simpa using congrArg List.reverse (this.1 hr)
  · rintro rfl
    exact ⟨rest.reverse, this.2 (by simp), by simp⟩

/-- A character that stands nowhere in a text can only begin a suffix of what follows it. -/
theorem suffix_behind {c : Char} {s t rest : Text} (h : c ∉ s) (hs : c :: rest <:+ s ++ t) :
    c :: rest <:+ t := by
  induction s with
  | nil => exact hs
  | cons d s ih =>
    rw [List.mem_cons, not_or] at h
    rcases List.suffix_cons_iff.mp hs with heq | hs
    · exact absurd (List.cons.inj heq).1 h.1
    · exact ih h.2 hs

/-- A text without the character stands whole before any place of it in a longer text. -/
theorem append_before {c : Char} {s t lead rest : Text} (h : c ∉ s)
    (heq : s ++ t = lead ++ c :: rest) : ∃ more, lead = s ++ more ∧ t = more ++ c :: rest := by
  induction s generalizing lead with
  | nil => exact ⟨lead, rfl, heq⟩
  | cons d s ih =>
    rw [List.mem_cons, not_or] at h
    cases lead with
    | nil => exact absurd (List.cons.inj heq).1.symm h.1
    | cons e lead =>
      obtain ⟨rfl, hbehind⟩ := List.cons.inj heq
      obtain ⟨more, rfl, rfl⟩ := ih h.2 hbehind
      exact ⟨more, rfl, rfl⟩

theorem startsWith_iff {lead t : Text} : startsWith lead t = true ↔ lead <+: t :=
  List.isPrefixOf_iff_prefix

end MarkdownPage.Text
