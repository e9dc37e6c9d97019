import Mathlib.Data.List.TakeWhile
import MarkdownPage.Proofs.Block
import MarkdownPage.Proofs.Span.Prose
import MarkdownPage.Proofs.Span.Rule

/-!
Text without marks of spans. No span begins in it and none ends in it, so what stands between two
such texts is marked as if it stood by itself.
-/

namespace MarkdownPage.Span

open Text

def marks : Text := "*![]()".toList

def Inert (t : Text) : Prop := ∀ c ∈ t, c ∉ marks

instance (t : Text) : Decidable (Inert t) := List.decidableBAll (· ∉ marks) t

theorem Inert.not_mem {t : Text} (h : Inert t) {c : Char} (hc : c ∈ marks) : c ∉ t :=
  fun ht => h c ht hc

theorem Inert.apart {t lead : Text} (h : Inert t) (hlead : lead ⊆ marks) :
    ∀ c ∈ t.head?, c ∉ lead :=
  fun c hc hl => h c (List.mem_of_mem_head? hc) (hlead hl)

theorem Inert.append {s t : Text} (hs : Inert s) (ht : Inert t) : Inert (s ++ t) :=
  List.forall_mem_append.mpr ⟨hs, ht⟩

theorem inert_blank {l : Line} (h : isBlank l = true) : Inert l := by
  have hmarks : marks.all (!isSpace ·) = true := by decide
  rw [List.all_eq_true] at hmarks
  intro c hc hmark
  have hspace := List.all_eq_true.mp h c hc
  have hother := hmarks c hmark
  rw [hspace] at hother
  cases hother

theorem drop_prefix_append_apart {lead tail : Text} (h : ∀ c ∈ tail.head?, c ∉ lead) (s : Text) :
    dropPrefix? lead (s ++ tail) = (dropPrefix? lead s).map (· ++ tail) := by
  induction lead generalizing s with
  | nil => rfl
  | cons c lead ih =>
    have hlead : ∀ d ∈ tail.head?, d ∉ lead := fun d hd hl => h d hd (List.mem_cons_of_mem c hl)
    cases s with
    | nil =>
      cases tail with
      | nil => rfl
      | cons d tail =>
        have hne : c ≠ d := by
          rintro rfl
          exact h c rfl List.mem_cons_self
        exact dropPrefix?_cons_ne hne lead tail
    | cons d s =>
      by_cases hd : c = d
      · subst hd
        simpa [dropPrefix?_cons_self] using ih hlead s
      · simp [dropPrefix?_cons_ne hd]

/-- A search that stops nowhere in the tail stops in the text before it or not at all. -/
theorem search_append {p : Char → Bool} {tail : Text} (h : ∀ c ∈ tail, p c = true) (s : Text) :
    (s.dropWhile p = [] ∧ (s ++ tail).dropWhile p = []) ∨
      ((s ++ tail).takeWhile p = s.takeWhile p ∧
        (s ++ tail).dropWhile p = s.dropWhile p ++ tail) := by
  induction s with
  | nil => exact Or.inl ⟨rfl, List.dropWhile_eq_nil_iff.mpr h⟩
  | cons c s ih =>
    by_cases hc : p c = true
    · rcases ih with ⟨hs, hst⟩ | ⟨htake, hdrop⟩
      · exact Or.inl ⟨by simpa [hc] using hs, by simpa [hc] using hst⟩
      · exact Or.inr ⟨by simpa [hc] using htake, by simpa [hc] using hdrop⟩
    · exact Or.inr ⟨by simp [hc], by simp [hc]⟩

theorem field_append {stop : Char} {close tail : Text} (hne : close ≠ [])
    (hclose : ∀ c ∈ tail.head?, c ∉ close) (hstop : stop ∉ tail) (s : Text) :
    field? stop close (s ++ tail) =
      (field? stop close s).map fun (content, rest) => (content, rest ++ tail) := by
  have htail : ∀ c ∈ tail, decide (c ≠ stop) = true := by
    intro c hc
    refine decide_eq_true ?_
    rintro rfl
    exact hstop hc
  have hnil : dropPrefix? close [] = none := by
    obtain ⟨c, close, rfl⟩ := List.exists_cons_of_ne_nil hne
    rfl
  rw [field?, field?]
  rcases search_append htail s with ⟨hs, hst⟩ | ⟨htake, hdrop⟩
  · rw [hs, hst, hnil]
    rfl
  · rw [htake, hdrop, drop_prefix_append_apart hclose]
    cases dropPrefix? close (s.dropWhile fun c => decide (c ≠ stop)) with
    | none => rfl
    | some rest => cases s.takeWhile fun c => decide (c ≠ stop) <;> rfl

theorem delimited_append {mark tail : Text} (hne : mark ≠ []) (hmark : mark ⊆ ['*'])
    (h : '*' ∉ tail) (s : Text) :
    delimited? mark (s ++ tail) =
      (delimited? mark s).map fun (content, rest) => (content, rest ++ tail) := by
  have hapart : ∀ c ∈ tail.head?, c ∉ mark := by
    intro c hc hcm
    rw [List.mem_singleton.mp (hmark hcm)] at hc
    exact h (List.mem_of_mem_head? hc)
  rw [delimited_eq_field, delimited_eq_field, drop_prefix_append_apart hapart]
  cases dropPrefix? mark s with
  | none => rfl
  | some inner => exact field_append hne hapart h inner

theorem reference_append {lead tail : Text} (h : Inert tail) (hlead : lead ⊆ marks) (s : Text) :
    reference? lead (s ++ tail) =
      (reference? lead s).map fun (r, rest) => (r, rest ++ tail) := by
  have hlabel := @field_append ']' "](".toList tail (by decide) (h.apart (by decide))
    (h.not_mem (by decide))
  have haddress := @field_append ')' ")".toList tail (by decide) (h.apart (by decide))
    (h.not_mem (by decide))
  rw [reference_eq_fields, reference_eq_fields, drop_prefix_append_apart (h.apart hlead)]
  cases dropPrefix? lead s with
  | none => rfl
  | some s =>
    simp only [Option.map_some, Option.bind_some, hlabel]
    cases field? ']' "](".toList s with
    | none => rfl
    | some found =>
      simp only [Option.map_some, Option.bind_some, haddress, Option.map_map]
      rfl

section Pass

variable {first c : Char} (hc : first ≠ c) (more : Text)

include hc

theorem delimited_pass (wrap : Text → Text) (t : Text) :
    delimitedRule (first :: more) wrap (c :: t) = none := by
  apply (delimited_rule_replaces (first :: more) wrap).rule_none
  rw [delimited_eq_field, dropPrefix?_cons_ne hc]
  rfl

theorem reference_elsewhere (t : Text) : reference? (first :: more) (c :: t) = none := by
  rw [reference_eq_fields, dropPrefix?_cons_ne hc]
  rfl

theorem reference_pass (write : Reference → Text) (t : Text) :
    referenceRule (first :: more) write (c :: t) = none :=
  (reference_rule_replaces (first :: more) write).rule_none (reference_elsewhere hc more t)

end Pass

theorem delimited_between {before behind : Text} (hbefore : '*' ∉ before) (hbehind : '*' ∉ behind)
    {mark : Text} (hne : mark ≠ []) (hmark : mark ⊆ ['*']) (wrap : Text → Text) (s : Text) :
    substitute (delimitedRule mark wrap) (before ++ s ++ behind) =
      before ++ substitute (delimitedRule mark wrap) s ++ behind := by
  have happend := delimited_append hne hmark hbehind
  obtain ⟨first, more, rfl⟩ := List.exists_cons_of_ne_nil hne
  have hpass {t : Text} (ht : '*' ∉ t) :
      ∀ c ∈ t, ∀ s, delimitedRule (first :: more) wrap (c :: s) = none := by
    intro c hc
    refine delimited_pass ?_ more wrap
    rintro rfl
    exact ht (List.mem_singleton.mp (hmark List.mem_cons_self) ▸ hc)
  rw [List.append_assoc, substitute_skip (hpass hbefore),
    (delimited_rule_replaces _ wrap).substitute_append (hpass hbehind) happend, List.append_assoc]

section Between

variable {before behind : Text} (hbefore : Inert before) (hbehind : Inert behind)

include hbefore hbehind

theorem reference_between {lead : Text} (hne : lead ≠ []) (hlead : lead ⊆ marks)
    (write : Reference → Text) (s : Text) :
    substitute (referenceRule lead write) (before ++ s ++ behind) =
      before ++ substitute (referenceRule lead write) s ++ behind := by
  have happend := reference_append hbehind hlead
  obtain ⟨first, more, rfl⟩ := List.exists_cons_of_ne_nil hne
  have hpass {t : Text} (ht : Inert t) :
      ∀ c ∈ t, ∀ s, referenceRule (first :: more) write (c :: s) = none := by
    intro c hc
    refine reference_pass ?_ more write
    rintro rfl
    exact ht first hc (hlead List.mem_cons_self)
  rw [List.append_assoc, substitute_skip (hpass hbefore),
    (reference_rule_replaces _ write).substitute_append (hpass hbehind) happend, List.append_assoc]

theorem mark_all_between (e : Html.Escaping) (s : Text) :
    markAll e (before ++ s ++ behind) = before ++ markAll e s ++ behind := by
  have hstar {t : Text} (ht : Inert t) : '*' ∉ t := ht.not_mem (by decide)
  have hstrong := delimited_between (hstar hbefore) (hstar hbehind) (by decide : "**".toList ≠ [])
    (by decide) Html.strong
  have hemphasis := delimited_between (hstar hbefore) (hstar hbehind) (by decide : "*".toList ≠ [])
    (by decide) Html.emphasis
  have himages := reference_between hbefore hbehind (by decide : "![".toList ≠ []) (by decide)
    fun r => Html.image e r.address r.label
  have hlinks := reference_between hbefore hbehind (by decide : "[".toList ≠ []) (by decide)
    fun r => Html.link e r.address r.label
  simp only [markAll, markStrong, markEmphasis, markImages, markLinks, hstrong, hemphasis, himages,
    hlinks]

end Between

theorem mark_all_inert (e : Html.Escaping) {t : Text} (h : Inert t) : markAll e t = t := by
  have hnil : Inert [] := by decide
  have hbetween := mark_all_between h hnil e []
  simpa using hbetween

theorem mark_all_enclose (e : Html.Escaping) {tag : Text} (h : Inert tag) (content : Text) :
    markAll e (Html.enclose tag content) = Html.enclose tag (markAll e content) := by
  have hfirst : Inert ['<'] := by decide
  have hslash : Inert "</".toList := by decide
  have hlast : Inert ['>'] := by decide
  have hopen : Inert (Html.openTag tag) := (hfirst.append h).append hlast
  have hclose : Inert (Html.closeTag tag) := (hslash.append h).append hlast
  exact mark_all_between hopen hclose e content

theorem inert_level_tag (level : Html.Level) : Inert level.tag := by
  have htags : ∀ tag ∈ ["h1", "h2", "h3", "h4", "h5", "h6"].map String.toList, Inert tag := by
    decide
  exact htags level.tag (Html.level_tag_mem level)

theorem of_line_heading (level : Html.Level) (content : Text) :
    Piece.ofLine (Html.heading level content) = .alone (Html.heading level content) := by
  refine of_line_alone ?_ ?_
  · rw [isToken, Html.heading, Token.enclose_no_token]
    rfl
  · simp [standsAlone, Block.opened_heading]

theorem mark_all_heading (e : Html.Escaping) (level : Html.Level) (content : Text) :
    markAll e (Html.heading level content) = Html.heading level (markAll e content) :=
  mark_all_enclose e (inert_level_tag level) content

end MarkdownPage.Span
