import MarkdownPage.Proofs.Span.Address
import MarkdownPage.Proofs.Span.Nesting

/-!
Spans that are left over. Strong spans are read once, from the left, and in the result a text without
asterisks may again stand between two and two of them. It then begins with a strong element, for which
the line has four asterisks in a row. A second pass would read such a span, and the pass for emphasised
spans cuts it.
-/

namespace MarkdownPage.Span

open Text Html

/-- Behind `before`, `x` stands in the text between two copies of the mark, and holds no asterisk. -/
structure SpanAt (mark t before x : Text) : Prop where
  stands : before ++ mark ++ x ++ mark <+: t
  filled : x ≠ []
  star_free : '*' ∉ x

def NoSpan (mark t : Text) : Prop := ∀ before x, ¬ SpanAt mark t before x

theorem unread_iff_no_span {more t : Text} :
    Unread (delimited? ('*' :: more)) t ↔ NoSpan ('*' :: more) t := by
  rw [unread_iff]
  constructor
  · rintro h before x ⟨⟨after, hstands⟩, hne, hfree⟩
    have hread : delimited? ('*' :: more) ('*' :: more ++ x ++ '*' :: more ++ after) =
        some (x, after) := delimited_eq_some_iff.mpr ⟨rfl, hne, hfree⟩
    have hsuffix : '*' :: more ++ x ++ '*' :: more ++ after <:+ t :=
      ⟨before, by rw [← hstands]; simp only [List.append_assoc]⟩
    rw [h _ hsuffix] at hread
    cases hread
  · rintro h s ⟨before, rfl⟩
    rw [Option.eq_none_iff_forall_ne_some]
    rintro ⟨x, after⟩ hread
    obtain ⟨rfl, hne, hfree⟩ := delimited_eq_some_iff.mp hread
    exact h before x ⟨⟨after, by simp only [List.append_assoc]⟩, hne, hfree⟩

section Strong

theorem mark_strong_eq_iff {t : Text} : markStrong t = t ↔ NoSpan "**".toList t := by
  refine Iff.trans ?_ (@unread_iff_no_span ['*'] t)
  constructor
  · intro hsame
    rcases strong_unread_or_grows t with ⟨hunread, -⟩ | hgrown
    · exact hunread
    · rw [hsame] at hgrown
      omega
  · exact fun hunread => (delimited_rule_replaces "**".toList strong).substitute_unread hunread

theorem strong_star {t out : Text} (h : markStrong t = '*' :: out) :
    ∃ s, t = '*' :: s ∧ markStrong s = out := by
  let rule := delimitedRule "**".toList strong
  cases t with
  | nil => cases (substitute_nil rule).symm.trans h
  | cons c t =>
    cases hrule : rule (c :: t) with
    | none =>
      obtain ⟨rfl, hout⟩ := List.cons.inj ((substitute_none hrule).symm.trans h)
      exact ⟨t, rfl, hout⟩
    | some m =>
      obtain ⟨content, -, -, -, hmarked⟩ := delimited_hit hrule
      cases (List.cons.inj (hmarked.symm.trans h)).1

theorem stars_before_stars {t x after : Text} (hx : '*' ∉ x)
    (h : markStrong t = x ++ '*' :: '*' :: after) :
    ∃ w u, t = w ++ '*' :: '*' :: u ∧ '*' ∉ w := by
  let rule := delimitedRule "**".toList strong
  induction t using scan_induction rule generalizing x with
  | nil => simp [markStrong] at h
  | hit c t m hm ih =>
    obtain ⟨content, hspan, -⟩ := delimited_hit hm
    exact ⟨[], _, hspan, List.not_mem_nil⟩
  | miss c t hm ih =>
    have hmarked := (substitute_none hm).symm.trans h
    cases x with
    | nil =>
      obtain ⟨rfl, hbehind⟩ := List.cons.inj hmarked
      obtain ⟨s, rfl, -⟩ := strong_star hbehind
      exact ⟨[], s, rfl, List.not_mem_nil⟩
    | cons d x =>
      obtain ⟨rfl, hbehind⟩ := List.cons.inj hmarked
      rw [List.mem_cons, not_or] at hx
      obtain ⟨w, u, rfl, hw⟩ := ih hx.2 hbehind
      exact ⟨c :: w, u, rfl, by rw [List.mem_cons, not_or]; exact ⟨hx.1, hw⟩⟩

/-- Of four asterisks in a row two are left, in front of the element that the other two begin. -/
structure BehindStars (line before x lead content rest : Text) : Prop where
  source : line = lead ++ "****".toList ++ content ++ "**".toList ++ rest
  filled : content ≠ []
  star_free : '*' ∉ content
  marked : markStrong line = before ++ "**".toList ++ strong content ++ markStrong rest
  begins : strong content <+: x

theorem BehindStars.behind {line t before x lead content rest s w : Text}
    (h : BehindStars t before x lead content rest) (hline : line = s ++ t)
    (hmarked : markStrong line = w ++ markStrong t) :
    BehindStars line (w ++ before) x (s ++ lead) content rest where
  source := by
    rw [hline, h.source]
    simp only [List.append_assoc]
  filled := h.filled
  star_free := h.star_free
  marked := by
    rw [hmarked, h.marked]
    simp only [List.append_assoc]
  begins := h.begins

theorem behind_stars_here {t x after : Text} (hne : x ≠ []) (hx : '*' ∉ x)
    (hnone : delimited? "**".toList ('*' :: '*' :: t) = none)
    (h : markStrong t = x ++ '*' :: '*' :: after) :
    ∃ content rest, t = "**".toList ++ content ++ "**".toList ++ rest ∧ content ≠ [] ∧
      '*' ∉ content ∧ markStrong t = strong content ++ markStrong rest ∧ strong content <+: x := by
  let rule := delimitedRule "**".toList strong
  cases t with
  | nil => simp [markStrong] at h
  | cons c t =>
    cases hrule : rule (c :: t) with
    | some m =>
      obtain ⟨content, hspan, hfilled, hfree, hmarked⟩ := delimited_hit hrule
      obtain ⟨more, rfl, -⟩ := append_before (strong_star_free hfree) (hmarked.symm.trans h)
      exact ⟨content, m.rest, hspan, hfilled, hfree, hmarked, List.prefix_append _ more⟩
    | none =>
      -- The first character is copied, so the two asterisks before it would begin a span.
      have hmarked := (substitute_none hrule).symm.trans h
      obtain ⟨d, x, rfl⟩ := List.exists_cons_of_ne_nil hne
      obtain ⟨rfl, hbehind⟩ := List.cons.inj hmarked
      rw [List.mem_cons, not_or] at hx
      obtain ⟨w, u, rfl, hw⟩ := stars_before_stars hx.2 hbehind
      have hread : delimited? "**".toList ('*' :: '*' :: c :: (w ++ '*' :: '*' :: u)) =
          some (c :: w, u) := by
        refine (@delimited_eq_some_iff ['*'] _ _ _).mpr ⟨by simp, List.cons_ne_nil c w, ?_⟩
        rw [List.mem_cons, not_or]
        exact ⟨hx.1, hw⟩
      rw [hread] at hnone
      cases hnone

theorem behind_stars {line before x : Text} (h : SpanAt "**".toList (markStrong line) before x) :
    ∃ lead content rest, BehindStars line before x lead content rest := by
  let rule := delimitedRule "**".toList strong
  obtain ⟨⟨after, hstands⟩, hne, hx⟩ := h
  have heq : markStrong line = before ++ '*' :: '*' :: (x ++ '*' :: '*' :: after) := by
    rw [← hstands]
    simp
  clear hstands
  induction line using scan_induction rule generalizing before with
  | nil => simp [markStrong] at heq
  | hit c t m hm ih =>
    obtain ⟨content, hspan, -, hfree, hmarked⟩ := delimited_hit hm
    obtain ⟨more, rfl, hrest⟩ := append_before (strong_star_free hfree) (hmarked.symm.trans heq)
    obtain ⟨lead, inner, rest, hbehind⟩ := ih hrest
    exact ⟨_, inner, rest, hbehind.behind hspan hmarked⟩
  | miss c t hm ih =>
    have hline : c :: t = [c] ++ t := rfl
    have hmarked : markStrong (c :: t) = [c] ++ markStrong t := substitute_none hm
    cases before with
    | nil =>
      obtain ⟨rfl, hbehind⟩ := List.cons.inj (hmarked.symm.trans heq)
      obtain ⟨s, rfl, hs⟩ := strong_star hbehind
      have hsecond : markStrong ('*' :: s) = '*' :: markStrong s :=
        hbehind.trans (congrArg _ hs.symm)
      obtain ⟨content, rest, rfl, hfilled, hfree, hcontent, hbegins⟩ :=
        behind_stars_here hne hx ((delimited_rule_replaces _ strong).miss _ hm) hs
      refine ⟨[], content, rest, rfl, hfilled, hfree, ?_, hbegins⟩
      rw [hmarked, hsecond, hcontent]
      rfl
    | cons d before =>
      obtain ⟨rfl, hbehind⟩ := List.cons.inj (hmarked.symm.trans heq)
      obtain ⟨lead, content, rest, hrest⟩ := ih hbehind
      exact ⟨_, content, rest, hrest.behind hline hmarked⟩

end Strong

section Emphasis

/-- The pass for emphasised spans reads one with the content `x` behind `before`. -/
def EmphasisedAt (t before x : Text) : Prop :=
  ∃ s rest, t = before ++ s ∧ Visits (delimitedRule "*".toList emphasis) t s ∧
    delimited? "*".toList s = some (x, rest)

theorem visits_second_star {t before u : Text} (h : t = before ++ '*' :: '*' :: u) :
    Visits (delimitedRule "*".toList emphasis) t ('*' :: u) := by
  let rule := delimitedRule "*".toList emphasis
  induction t using scan_induction rule generalizing before with
  | nil => simp at h
  | hit c t m hm ih =>
    obtain ⟨content, hspan, hne, hfree, -⟩ := delimited_hit hm
    have hbehind : content ++ '*' :: m.rest = t := by
      have hcons := (List.cons.inj hspan).2
      simpa using hcons.symm
    refine visits_behind hm ?_
    cases before with
    | nil =>
      obtain ⟨d, content, rfl⟩ := List.exists_cons_of_ne_nil hne
      have hd : d = '*' := (List.cons.inj (hbehind.trans (List.cons.inj h).2)).1
      exact absurd (hd ▸ List.mem_cons_self) hfree
    | cons d before =>
      -- The span ends at the first of the two asterisks or before it.
      obtain ⟨more, rfl, hmore⟩ := append_before hfree (hbehind.trans (List.cons.inj h).2)
      cases more with
      | nil =>
        rw [(List.cons.inj hmore).2]
        exact visits_self rule _
      | cons e more => exact ih (List.cons.inj hmore).2
  | miss c t hm ih =>
    refine visits_next hm ?_
    cases before with
    | nil =>
      rw [(List.cons.inj h).2]
      exact visits_self rule _
    | cons d before => exact ih (List.cons.inj h).2

theorem emphasised_in_span {t before x : Text} (h : SpanAt "**".toList t before x) :
    EmphasisedAt t (before ++ ['*']) x := by
  obtain ⟨⟨after, hstands⟩, hne, hfree⟩ := h
  have heq : t = before ++ '*' :: '*' :: (x ++ '*' :: '*' :: after) := by
    rw [← hstands]
    simp
  exact ⟨'*' :: (x ++ '*' :: '*' :: after), '*' :: after, by simp [heq], visits_second_star heq,
    emphasis_read hne hfree _⟩

/-- The places of the asterisks in front of `x` and behind it. -/
def starPlaces (n : Nat) (before x : Text) : List Nat :=
  List.range' before.length n ++ List.range' (before.length + n + x.length) n

/-- No emphasised span has an asterisk in common with a strong one. -/
def NoneCut (t : Text) : Prop := ∀ before x before' x', SpanAt "**".toList t before x →
  EmphasisedAt t before' x' → (starPlaces 2 before x).Disjoint (starPlaces 1 before' x')

theorem none_cut_iff {t : Text} : NoneCut t ↔ NoSpan "**".toList t := by
  constructor
  · intro h before x hspan
    have hdisjoint := h before x (before ++ ['*']) x hspan (emphasised_in_span hspan)
    refine @hdisjoint (before.length + 1) ?_ ?_
    · simp [starPlaces]
    · simp [starPlaces]
  · intro h before x before' x' hspan
    exact absurd hspan (h before x)

end Emphasis

/-- A strong span in a line whose strong spans have been marked begins with an element that was read
behind four asterisks. Where there is none, and only there, marking again changes nothing, and the pass
for emphasised spans cuts none. -/
theorem strong_spans_left_over (line : Text) :
    (∀ before x, SpanAt "**".toList (markStrong line) before x →
      ∃ lead content rest, BehindStars line before x lead content rest) ∧
    (markStrong (markStrong line) = markStrong line ↔ NoSpan "**".toList (markStrong line)) ∧
    (NoneCut (markStrong line) ↔ NoSpan "**".toList (markStrong line)) ∧
    ((∀ content, content ≠ [] → '*' ∉ content →
        ¬ "****".toList ++ content ++ "**".toList <:+: line) →
      NoSpan "**".toList (markStrong line) ∧ markStrong (markStrong line) = markStrong line ∧
        NoneCut (markStrong line)) := by
  refine ⟨fun _ _ => behind_stars, mark_strong_eq_iff, none_cut_iff, fun h => ?_⟩
  have hnone : NoSpan "**".toList (markStrong line) := by
    intro before x hspan
    obtain ⟨lead, content, rest, hbehind⟩ := behind_stars hspan
    apply h content hbehind.filled hbehind.star_free
    exact ⟨lead, rest, by rw [hbehind.source]; simp only [List.append_assoc]⟩
  exact ⟨hnone, mark_strong_eq_iff.mpr hnone, none_cut_iff.mpr hnone⟩

/-- Runs of three asterisks, and of two that stand alone. -/
theorem strong_spans_left_over_none :
    NoSpan "**".toList (markStrong "***a*** ** b*c **d** *".toList) ∧
      markStrong (markStrong "***a*** ** b*c **d** *".toList) =
        markStrong "***a*** ** b*c **d** *".toList ∧
      NoneCut (markStrong "***a*** ** b*c **d** *".toList) := by
  have hfour : ¬ "****".toList <:+: "***a*** ** b*c **d** *".toList := by decide
  refine (strong_spans_left_over _).2.2.2 fun content _ _ hinfix => hfour ?_
  rw [List.append_assoc] at hinfix
  exact (List.prefix_append _ _).isInfix.trans hinfix

/-- Four asterisks on either side of a letter: two and two of them are left around the element. -/
theorem strong_span_left_over_four :
    SpanAt "**".toList (markStrong "****x****".toList) [] (strong "x".toList) ∧
      markStrong (markStrong "****x****".toList) ≠ markStrong "****x****".toList ∧
      ¬ NoneCut (markStrong "****x****".toList) := by
  have hspan : SpanAt "**".toList (markStrong "****x****".toList) [] (strong "x".toList) :=
    ⟨by decide +kernel, by decide, by decide⟩
  refine ⟨hspan, ?_, ?_⟩
  · exact fun hsame => mark_strong_eq_iff.mp hsame _ _ hspan
  · exact fun hnone => none_cut_iff.mp hnone _ _ hspan

end MarkdownPage.Span
