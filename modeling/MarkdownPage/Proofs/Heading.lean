import MarkdownPage.Heading
import MarkdownPage.Proofs.Html.Alphabet
import MarkdownPage.Proofs.Text.Blank
import MarkdownPage.Proofs.Text.Lines

/-!
Headings line by line: a line that is no heading stays, and the content of a heading holds only
characters of its line.
-/

namespace MarkdownPage.Heading

open Text

theorem mem_of_mem_content {c : Char} {l : Line} {h : Heading} (hl : ofLine? l = some h)
    (hc : c ∈ h.content) : c ∈ l := by
  simp only [ofLine?, Option.bind_eq_bind, Option.bind_eq_some_iff, Option.pure_def,
    Option.some.injEq] at hl
  obtain ⟨level, -, content, hcontent, rfl⟩ := hl
  exact List.dropWhile_subset _ (mem_of_after_space hcontent hc)

theorem mark_up_line_none {l : Line} (h : ofLine? l = none) : markUpLine l = l := by
  rw [markUpLine, h]

theorem mark_up_line_spelled {p : Char → Prop} (hp : ∀ c ∈ Html.alphabet, p c) {l : Line}
    (h : ∀ c ∈ l, p c) : ∀ c ∈ markUpLine l, p c := by
  rw [markUpLine]
  split
  · next heading hl =>
    exact Html.enclose_spelled hp (Html.level_tag_alphabet heading.level)
      fun c hc => h c (mem_of_mem_content hl hc)
  · exact h

def headings (t : Text) : List Heading := (lines t).filterMap ofLine?

theorem page_title_eq (t : Text) :
    pageTitle? t = ((headings t).find? (·.level.rank = 1)).map (trimEnd ·.content) := by
  rw [pageTitle?, headings]
  induction lines t with
  | nil => rfl
  | cons l ls ih =>
    rw [List.findSome?_cons, List.filterMap_cons]
    cases ofLine? l with
    | none => exact ih
    | some h =>
      rw [Option.bind_some, title?]
      by_cases hrank : h.level.rank = 1
      · simp [hrank]
      · simpa [hrank] using ih

theorem heading_of_title {ls : List Line} {title : Text}
    (h : ls.findSome? (fun l => (ofLine? l).bind title?) = some title) :
    ∃ l ∈ ls, ∃ heading, ofLine? l = some heading ∧ title = trimEnd heading.content := by
  obtain ⟨l, hl, hsome⟩ := List.exists_of_findSome?_eq_some h
  obtain ⟨heading, hheading, htitle⟩ := Option.bind_eq_some_iff.mp hsome
  rw [title?] at htitle
  split at htitle
  · exact ⟨l, hl, heading, hheading, (Option.some.inj htitle).symm⟩
  · cases htitle

end MarkdownPage.Heading
