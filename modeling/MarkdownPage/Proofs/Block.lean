import Mathlib.Data.List.Find
import MarkdownPage.Block
import MarkdownPage.Proofs.Html.Alphabet
import MarkdownPage.Proofs.Html.Tags

/-!
The blocks that the markup of a fragment opens and closes. A closing tag is searched for anywhere in
a line, but it is not found across text without an angle bracket.
-/

namespace MarkdownPage.Block

open Text

theorem opened_tag {tag : Text} (h : tag ∈ tags) (u : Text) :
    opened? ('<' :: (tag ++ '>' :: u)) = some tag := by
  have htags : ∀ tag ∈ tags, opened? ('<' :: (tag ++ '>' :: u)) = some tag := by
    simp only [tags, List.forall_mem_map, List.forall_mem_cons]
    exact ⟨rfl, rfl, rfl, rfl, rfl, rfl, rfl, rfl, rfl, rfl, rfl, by simp⟩
  exact htags tag h

theorem opened_heading (level : Html.Level) (content : Text) :
    opened? (trim (Html.heading level content)) = some level.tag := by
  have hlevels : ["h1", "h2", "h3", "h4", "h5", "h6"].map String.toList ⊆ tags := by decide
  rw [Html.heading, Html.trim_enclose, Html.enclose_framed, List.append_assoc, List.cons_append]
  exact opened_tag (hlevels (Html.level_tag_mem level)) _

/-- No block is opened by a line among whose tags there are only others. -/
theorem opened_none {among : List Text} {t : Text} (h : Html.TagsAmong among t)
    (hapart : ∀ tag ∈ tags, Html.Apart among ('<' :: tag)) : opened? t = none := by
  refine List.find?_eq_none.mpr fun tag htag hopened => ?_
  rw [isOpenedBy, Option.any_eq_true] at hopened
  obtain ⟨rest, hrest, -⟩ := hopened
  exact h.not_prefix (hapart tag htag) ⟨rest, (dropPrefix?_eq_some_iff.mp hrest).symm⟩

theorem not_closed {among : List Text} {l : Line} (h : Html.TagsAmong among l) {tag : Text}
    (hapart : Html.Apart among (Html.closeTag tag)) : isClosedBy tag l = false := by
  rw [isClosedBy, ← Bool.not_eq_true, occurs_iff]
  exact h.not_infix hapart

theorem opened_span {t : Text} (h : Html.TagsAmong Html.spanTags t) : opened? t = none :=
  opened_none h (by decide)

theorem opened_by_iff {tag l : Text} :
    isOpenedBy tag l = true ↔ ∃ c, endsName [c] = true ∧ '<' :: tag ++ [c] <+: l := by
  rw [isOpenedBy, Option.any_eq_true]
  constructor
  · rintro ⟨rest, hrest, hends⟩
    rw [dropPrefix?_eq_some_iff] at hrest
    cases rest with
    | nil => cases hends
    | cons c rest => exact ⟨c, hends, rest, by simp [hrest]⟩
  · rintro ⟨c, hends, rest, rfl⟩
    refine ⟨c :: rest, dropPrefix?_eq_some_iff.mpr (by simp), hends⟩

theorem opened_by_append {tag s : Text} (h : isOpenedBy tag s = true) (t : Text) :
    isOpenedBy tag (s ++ t) = true := by
  obtain ⟨c, hends, hprefix⟩ := opened_by_iff.mp h
  exact opened_by_iff.mpr ⟨c, hends, hprefix.trans (List.prefix_append s t)⟩

def Foreign (c : Char) : Prop :=
  isSpace c = false ∧ endsName [c] = false ∧ ∀ tag ∈ tags, c ∉ tag

instance (c : Char) : Decidable (Foreign c) :=
  inferInstanceAs (Decidable (isSpace c = false ∧ endsName [c] = false ∧ ∀ tag ∈ tags, c ∉ tag))

/-- Only what stands before a foreign character can be an opening tag. -/
theorem opened_by_foreign {tag : Text} (htag : tag ∈ tags) {s : Text} (hs : s ≠ []) {c : Char}
    (hc : Foreign c) (t : Text) : isOpenedBy tag (s ++ c :: t) = isOpenedBy tag s := by
  rw [Bool.eq_iff_iff]
  refine ⟨fun h => ?_, fun h => opened_by_append h (c :: t)⟩
  obtain ⟨d, hends, hprefix⟩ := opened_by_iff.mp h
  have hlonger : s ++ [c] <+: s ++ c :: t := ⟨t, by simp⟩
  have hequal : '<' :: tag ++ [d] ≠ s ++ [c] := by
    intro he
    obtain ⟨-, hlast⟩ := List.append_inj' he rfl
    cases hlast
    rw [hc.2.1] at hends
    cases hends
  rcases List.prefix_or_prefix_of_prefix hprefix hlonger with hp | hp
  · exact opened_by_iff.mpr ⟨d, hends, (List.prefix_concat_iff.mp hp).resolve_left hequal⟩
  · -- The tag would go on over the character.
    have htag' := (List.prefix_concat_iff.mp hp).resolve_left hequal.symm
    obtain ⟨first, s, rfl⟩ := List.exists_cons_of_ne_nil hs
    obtain ⟨-, hrest⟩ := List.cons_prefix_cons.mp htag'
    exact absurd (hrest.subset (by simp)) (hc.2.2 tag htag)

/-- Behind something on the line, what a foreign character begins opens no block and keeps none from
being opened. -/
theorem opened_foreign {s : Text} (hs : isBlank s = false) {c : Char} (hc : Foreign c) (t : Text) :
    opened? (trim (s ++ c :: t)) = opened? (trimStart s) := by
  have hne : trimStart s ≠ [] := by simp [trim_start_nil_iff, hs]
  rw [trim_append hs hc.1]
  exact List.find?_congr fun tag htag => opened_by_foreign htag hne hc (trimEnd t)

theorem opened_none_of_append {s t : Text} (h : opened? (s ++ t) = none) : opened? s = none := by
  simp only [opened?, List.find?_eq_none] at h ⊢
  intro tag htag hs
  exact h tag htag (opened_by_append hs t)

theorem opened_word {w : Text} (hfirst : w.head?.all (!isSpace ·)) (hne : w ≠ [])
    (hapart : ∀ tag ∈ tags, ¬ '<' :: tag <+: w ∧ ¬ w <+: '<' :: tag) (t : Text) :
    opened? (trim (w ++ t)) = none := by
  obtain ⟨c, w, rfl⟩ := List.exists_cons_of_ne_nil hne
  have hstart : trimStart (c :: w ++ t) = c :: w ++ t := trim_start_cons (by simpa using hfirst) _
  refine List.find?_eq_none.mpr fun tag htag hopened => ?_
  obtain ⟨d, -, hprefix⟩ := opened_by_iff.mp hopened
  have htrim := trim_prefix (c :: w ++ t)
  rw [hstart] at htrim
  have hwhole := ((List.prefix_append ('<' :: tag) [d]).trans hprefix).trans htrim
  rcases List.prefix_or_prefix_of_prefix hwhole (List.prefix_append (c :: w) t) with hp | hp
  · exact (hapart tag htag).1 hp
  · exact (hapart tag htag).2 hp

theorem closed_at_end (l : Line) (tag : Text) : isClosedBy tag (l ++ Html.closeTag tag) = true := by
  rw [isClosedBy, occurs_iff]
  exact (List.suffix_append l _).isInfix

theorem opened_pre (u : Text) : opened? (trim ("<pre>".toList ++ u)) = some "pre".toList := by
  have htrim : trim ("<pre>".toList ++ u) = "<pre".toList ++ '>' :: trimEnd u := by
    refine Eq.trans (trim_cons (by decide) ("pre>".toList ++ u)) ?_
    exact congrArg _ (trim_end_append (by decide) "pre".toList u)
  rw [htrim]
  exact opened_tag (by decide) (trimEnd u)

theorem opened_table : opened? (trim Html.tableOpen) = some "table".toList := by decide

theorem closed_skip_plain (tag : Text) {t : Text} (h : '<' ∉ t) (u : Text) :
    isClosedBy tag (t ++ u) = isClosedBy tag u := by
  rw [isClosedBy]
  induction t with
  | nil => rfl
  | cons c t ih =>
    rw [List.mem_cons, not_or] at h
    have hmiss : (Html.closeTag tag).isPrefixOf (c :: (t ++ u)) = false := by
      simp [Html.closeTag, List.isPrefixOf, h.1]
    rw [List.cons_append, occurs, hmiss, Bool.false_or, ih h.2]

theorem closed_skip_code_open (tag u : Text) :
    isClosedBy tag (Html.codeOpen ++ u) = isClosedBy tag u := rfl

theorem closed_nil (tag : Text) : isClosedBy tag [] = false := rfl

end MarkdownPage.Block
