import MarkdownPage.ItemList
import MarkdownPage.Proofs.Html.Alphabet
import MarkdownPage.Proofs.Html.Tags
import MarkdownPage.Proofs.Text.Runs

/-!
Lists line by line: a line that is no item parts the lists on its two sides, and an item holds only
characters of its line.
-/

namespace MarkdownPage

open Text Html

namespace Item

/-- What an item of the style may begin with. -/
def IsMarker : ListStyle → Text → Prop
  | .bulleted, marker => ∃ c, c ∈ "*+-".toList ∧ marker = [c]
  | .numbered, marker =>
    ∃ digits, digits ≠ [] ∧ (∀ c ∈ digits, c.isDigit = true) ∧ marker = digits ++ ['.']

theorem after_number_eq_some_iff {t rest : Text} :
    afterNumber? t = some rest ↔ ∃ marker, IsMarker .numbered marker ∧ t = marker ++ rest := by
  constructor
  · intro h
    rw [afterNumber?, Option.ite_none_right_eq_some, dropPrefix?_eq_some_iff] at h
    obtain ⟨hfirst, hrest⟩ := h
    refine ⟨t.takeWhile Char.isDigit ++ ['.'],
      ⟨_, ?_, List.all_eq_true.mp List.all_takeWhile, rfl⟩, ?_⟩
    · cases t with
      | nil => cases hfirst
      | cons c t => simpa using hfirst
    · rw [List.append_assoc, ← hrest, List.takeWhile_append_dropWhile]
  · rintro ⟨_, ⟨digits, hne, hdigits, rfl⟩, rfl⟩
    have hdrop : (digits ++ '.' :: rest).dropWhile Char.isDigit = '.' :: rest := by
      rw [List.dropWhile_append_of_pos hdigits, List.dropWhile_cons_of_neg (by decide)]
    obtain ⟨c, digits, rfl⟩ := List.exists_cons_of_ne_nil hne
    rw [List.append_assoc, List.singleton_append, afterNumber?, hdrop,
      if_pos (by simpa using hdigits c List.mem_cons_self)]
    exact dropPrefix?_eq_some_iff.mpr rfl

theorem marker_eq_some_iff {t rest : Text} {style : ListStyle} :
    marker? t = some (style, rest) ↔ ∃ marker, IsMarker style marker ∧ t = marker ++ rest := by
  have hbullets : ∀ c ∈ "*+-".toList, c.isDigit = false := by simp
  have hnumber : ∀ {c : Char} {t marker rest : Text}, IsMarker .numbered marker →
      c :: t = marker ++ rest → c.isDigit = true := by
    rintro c t _ rest ⟨digits, hne, hdigits, rfl⟩ ht
    obtain ⟨d, digits, rfl⟩ := List.exists_cons_of_ne_nil hne
    obtain ⟨rfl, -⟩ := List.cons.inj ht
    exact hdigits c List.mem_cons_self
  cases t with
  | nil => cases style <;> simp [marker?, IsMarker]
  | cons c t =>
    rw [marker?]
    by_cases hc : c ∈ "*+-".toList
    · rw [if_pos (by simpa using hc)]
      constructor
      · intro h
        cases h
        exact ⟨[c], ⟨c, hc, rfl⟩, rfl⟩
      · rintro ⟨marker, hmarker, ht⟩
        cases style with
        | bulleted =>
          obtain ⟨d, -, rfl⟩ := hmarker
          cases ht
          rfl
        | numbered =>
          have hdigit := hnumber hmarker ht
          rw [hbullets c hc] at hdigit
          cases hdigit
    · rw [if_neg (by simpa using hc)]
      constructor
      · intro h
        obtain ⟨after, hafter, heq⟩ := Option.map_eq_some_iff.mp h
        cases heq
        exact after_number_eq_some_iff.mp hafter
      · rintro ⟨marker, hmarker, ht⟩
        cases style with
        | bulleted =>
          obtain ⟨d, hd, rfl⟩ := hmarker
          cases ht
          exact absurd hd hc
        | numbered =>
          rw [after_number_eq_some_iff.mpr ⟨marker, hmarker, ht⟩]
          rfl

theorem mem_of_mem_after_marker {c : Char} {t rest : Text} {style : ListStyle}
    (h : marker? t = some (style, rest)) (hc : c ∈ rest) : c ∈ t := by
  obtain ⟨marker, -, rfl⟩ := marker_eq_some_iff.mp h
  exact List.mem_append_right marker hc

theorem of_line_eq_some {l : Line} {item : Item} : ofLine? l = some item ↔
    ∃ rest, marker? (trim l) = some (item.style, rest) ∧ afterSpace? rest = some item.content := by
  simp only [ofLine?, Option.bind_eq_bind, Option.bind_eq_some_iff, Option.pure_def,
    Option.some.injEq]
  constructor
  · rintro ⟨⟨style, rest⟩, hmarker, content, hcontent, rfl⟩
    exact ⟨rest, hmarker, hcontent⟩
  · rintro ⟨rest, hmarker, hcontent⟩
    exact ⟨(item.style, rest), hmarker, item.content, hcontent, rfl⟩

theorem mem_of_mem_content {c : Char} {l : Line} {item : Item} (hl : ofLine? l = some item)
    (hc : c ∈ item.content) : c ∈ l := by
  obtain ⟨rest, hmarker, hcontent⟩ := of_line_eq_some.mp hl
  exact mem_of_mem_trim (mem_of_mem_after_marker hmarker (mem_of_after_space hcontent hc))

theorem enclose_no_item (tag content : Text) : ofLine? (enclose tag content) = none := by
  have hdigit : '<'.isDigit = false := by decide
  have hmarker : marker? (enclose tag content) = none := by
    rw [enclose_framed, marker?, if_neg (by decide), afterNumber?, if_neg (by simp [hdigit])]
    rfl
  rw [ofLine?, trim_enclose, hmarker]
  rfl

end Item

namespace ItemList

def listLines (style : ListStyle) (items : List Text) : List Line :=
  let tag := match style with
    | .bulleted => "ul".toList
    | .numbered => "ol".toList
  ("<".toList ++ tag ++ ">".toList) ::
    items.map (fun item => "<li>".toList ++ item ++ "</li>".toList) ++
      ["</".toList ++ tag ++ ">".toList]

theorem list_lines_eq (style : ListStyle) (items : List Text) :
    listLines style items = listOpen style :: items.map listItem ++ [listClose style] := by
  cases style <;> rfl

def markUpLines (ls : List Line) : List Line := (pieces ls).flatMap Piece.toHtml

theorem lone_text (l : Line) : Lone Piece.join? (.text l) where
  before a := by cases a <;> rfl
  behind a := by cases a <;> rfl

theorem cuts_at {l : Line} (h : Item.ofLine? l = none) : CutsAt markUpLines l l := by
  have hl : Piece.ofLine l = .text l := by rw [Piece.ofLine, h]
  have hcut : CutsAt pieces l (.text l) := hl ▸ cuts_at_lone (hl.symm ▸ lone_text l)
  exact hcut.flatMap rfl

theorem mark_up_lines_ne_nil {ls : List Line} (h : ls ≠ []) : markUpLines ls ≠ [] := by
  have hpieces : pieces ls ≠ [] := join_runs_ne_nil (by simpa using h)
  obtain ⟨piece, others, hs⟩ := List.exists_cons_of_ne_nil hpieces
  rw [markUpLines, hs, List.flatMap_cons]
  cases piece <;> simp [Piece.toHtml]

def Piece.Spelled (p : Char → Prop) : Piece → Prop
  | .text l => ∀ c ∈ l, p c
  | .list _ items => ∀ item ∈ items, ∀ c ∈ item, p c

theorem piece_of_line_spelled {p : Char → Prop} {l : Line} (h : ∀ c ∈ l, p c) :
    (Piece.ofLine l).Spelled p := by
  rw [Piece.ofLine]
  split
  · next item hitem =>
    simp only [Piece.Spelled, List.forall_mem_singleton]
    intro c hc
    exact h c (Item.mem_of_mem_content hitem hc)
  · exact h

theorem join_spelled {p : Char → Prop} {a b c : Piece} (h : a.join? b = some c)
    (ha : a.Spelled p) (hb : b.Spelled p) : c.Spelled p := by
  unfold Piece.join? at h
  split at h
  · rw [Option.ite_none_right_eq_some] at h
    obtain ⟨-, hc⟩ := h
    cases hc
    exact List.forall_mem_append.mpr ⟨ha, hb⟩
  · cases h

theorem piece_html_spelled {p : Char → Prop} (hp : ∀ c ∈ alphabet, p c) {piece : Piece}
    (h : piece.Spelled p) : ∀ l ∈ piece.toHtml, ∀ c ∈ l, p c := by
  cases piece with
  | text l => exact List.forall_mem_singleton.mpr h
  | list style items =>
    have htag := list_tag_alphabet style
    simp only [Piece.toHtml, List.forall_mem_append, List.forall_mem_cons, List.forall_mem_map]
    refine ⟨⟨open_tag_spelled hp htag, fun item hitem => ?_⟩, close_tag_spelled hp htag, by simp⟩
    exact enclose_spelled hp (by decide) (h item hitem)

theorem mark_up_lines_spelled {p : Char → Prop} (hp : ∀ c ∈ alphabet, p c) {ls : List Line}
    (h : ∀ l ∈ ls, ∀ c ∈ l, p c) : ∀ l ∈ markUpLines ls, ∀ c ∈ l, p c := by
  have hpieces : ∀ piece ∈ pieces ls, piece.Spelled p := by
    refine forall_mem_join_runs (fun a b c hj => join_spelled hj) fun piece hpiece => ?_
    obtain ⟨l, hl, rfl⟩ := List.mem_map.mp hpiece
    exact piece_of_line_spelled (h l hl)
  intro l hl
  obtain ⟨piece, hpiece, hl⟩ := List.mem_flatMap.mp hl
  exact piece_html_spelled hp (hpieces piece hpiece) l hl

end ItemList

end MarkdownPage
