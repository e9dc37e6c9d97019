import MarkdownPage.Proofs.Article.Kept
import MarkdownPage.Proofs.Article.Parts

/-!
The elements of a page. Each part of a text without tags becomes one element, and its lines come
through the forming of paragraphs whatever parts stand beside it: an element that opens a block
also closes it, and the lines of a run of prose are all prose still when its spans are marked.
-/

namespace MarkdownPage.Article

open Text Html Paragraph

inductive Element where
  | empty
  | heading (level : Level) (content : Text)
  | paragraph (content : Text)
  | list (style : ListStyle) (first : Text) (others : List Text)
  | fragment (x : Fragment)

namespace Element

def toHtml (e : Escaping) : Element → Text
  | .empty => []
  | .heading level content =>
    "<h".toList ++ [level.rank.digitChar, '>'] ++ content ++
      ("</h".toList ++ [level.rank.digitChar, '>'])
  | .paragraph content => "<p>".toList ++ content ++ "</p>".toList
  | .list style first others => unlines (ItemList.listLines style (first :: others))
  | .fragment (.code block) =>
    "<pre><code class=\"language-".toList ++ e.attributeValue block.lang ++ "\">".toList ++
      e.text block.body ++ "</code></pre>".toList
  | .fragment (.table raw) => Table.toHtml raw

theorem fragment_html (e : Escaping) (x : Fragment) : toHtml e (.fragment x) = x.toHtml e := by
  cases x <;> rfl

structure Inline (content : Text) : Prop where
  newline : '\n' ∉ content
  tags : TagsAmong spanTags content

def WellFormed : Element → Prop
  | .empty => True
  | .heading _ content => Inline content
  | .paragraph content => Inline content ∧ isBlank content = false
  | .list _ first others => ∀ item ∈ first :: others, Inline item
  | .fragment _ => True

end Element

def proseHtml (e : Escaping) (ls : List Line) : Text :=
  [' '].intercalate ((lines (Span.markAll e (unlines ls))).map trim)

def Part.element (e : Escaping) : Part → Element
  | .blank _ => .empty
  | .heading h => .heading h.level (Span.markAll e h.content)
  | .list style first others =>
    .list style (Span.markAll e first) (others.map (Span.markAll e))
  | .prose first others => .paragraph (proseHtml e (first :: others))

section Inline

variable {e : Escaping}

theorem inline_mark_all {t : Text} (h : Tagless t) : Element.Inline (Span.markAll e t) where
  newline := Span.mark_all_newline_free e h.newline
  tags := Span.mark_all_tags_among e (tags_among_plain h.bracket)

variable {first : Line} {others : List Line} (h : (Part.prose first others).Tagless)

include h

theorem prose_marked_lines : ∀ l ∈ lines (Span.markAll e (unlines (first :: others))),
    TagsAmong spanTags l ∧ isBlank l = false := by
  have hfree : ∀ l ∈ first :: others, '\n' ∉ l := fun l hl => (h l hl).1.newline
  have hbracket : ∀ c ∈ unlines (first :: others), c ≠ '<' :=
    unlines_spelled (by decide) fun l hl => List.forall_mem_ne'.mpr (h l hl).1.bracket
  have htags := Span.mark_all_tags_among e (tags_among_plain (List.forall_mem_ne'.mp hbracket))
  have hfilled : ∀ l ∈ lines (unlines (first :: others)), isBlank l = false := by
    rw [lines_unlines hfree (List.cons_ne_nil first others)]
    exact fun l hl => (h l hl).2
  intro l hl
  exact ⟨htags.line (by decide) hl, Span.mark_all_filled e hfilled l hl⟩

theorem prose_html_inline :
    Element.Inline (proseHtml e (first :: others)) ∧
      isBlank (proseHtml e (first :: others)) = false := by
  have hlines := prose_marked_lines (e := e) h
  have hfree : ∀ l ∈ (lines (Span.markAll e (unlines (first :: others)))).map trim,
      ∀ c ∈ l, c ≠ '\n' := by
    rw [List.forall_mem_map]
    rintro l hl c hc rfl
    exact newline_not_mem hl (mem_of_mem_trim hc)
  have htags : ∀ l ∈ (lines (Span.markAll e (unlines (first :: others)))).map trim,
      TagsAmong spanTags l := by
    rw [List.forall_mem_map]
    exact fun l hl => (hlines l hl).1.trim (by decide)
  refine ⟨⟨?_, TagsAmong.intercalate (by decide) htags⟩, ?_⟩
  · exact List.forall_mem_ne'.mp (intercalate_spelled (by decide) hfree)
  · obtain ⟨l, ls, hl⟩ := List.exists_cons_of_ne_nil
      (lines_ne_nil (Span.markAll e (unlines (first :: others))))
    rw [hl, List.forall_mem_cons] at hlines
    rw [proseHtml, hl, List.map_cons, intercalate_cons_flatMap, blank_append,
      trim_not_blank hlines.1.2, Bool.false_and]

end Inline

theorem element_well_formed {e : Escaping} {p : Part} (h : p.Tagless) :
    (p.element e).WellFormed := by
  cases p with
  | blank l => trivial
  | heading heading => exact inline_mark_all h
  | list style first others =>
    exact List.forall_mem_map (l := first :: others).mpr fun item hitem =>
      inline_mark_all (h item hitem)
  | prose first others => exact prose_html_inline h

/-- The lines form the element, and leave no block open behind it. -/
structure Forms (e : Escaping) (ls : List Line) (x : Element) : Prop where
  html : formFrom none ls = lines (x.toHtml e)
  closed : openBehind none ls = none

section Forms

variable {e : Escaping}

theorem heading_block (level : Level) (content : Text) :
    Sheltered none [Html.heading level content] ∧
      openBehind none [Html.heading level content] = none := by
  have hopened : ∀ l, ([] ++ [Html.heading level content]).head? = some l →
      Block.opened? (trim l) = some level.tag := by
    intro l hl
    obtain rfl : Html.heading level content = l := by simpa using hl
    exact Block.opened_heading level content
  exact closed_block_run hopened (by simp) (Block.closed_at_end _ level.tag)

theorem list_block (style : ListStyle) {items : List Text}
    (h : ∀ item ∈ items, TagsAmong spanTags item) :
    Sheltered none (listOpen style :: items.map listItem ++ [listClose style]) ∧
      openBehind none (listOpen style :: items.map listItem ++ [listClose style]) = none := by
  have hopened : ∀ l, (listOpen style :: items.map listItem ++ [listClose style]).head? = some l →
      Block.opened? (trim l) = some style.tag := by
    intro l hl
    obtain rfl : listOpen style = l := by simpa using hl
    cases style <;> decide
  have hopen : ∀ l ∈ listOpen style :: items.map listItem,
      Block.isClosedBy style.tag l = false := by
    rw [List.forall_mem_cons, List.forall_mem_map]
    refine ⟨by cases style <;> decide, fun item hitem => ?_⟩
    refine Block.not_closed (list_item_tags_among (h item hitem)) ?_
    cases style <;> decide
  exact closed_block_run hopened hopen (Block.closed_at_end [] style.tag)

theorem forms_blank {l : Line} (h : (Part.blank l).Tagless) :
    Forms e ((Part.blank l).marked e) .empty ∧
      ∀ x ∈ linePieces none ((Part.blank l).marked e), Lone Paragraph.Piece.join? x := by
  have hblock : blockAt? none l = none := by
    rw [blockAt?, (trim_eq_nil_iff l).mpr h.2]
    rfl
  rw [marked_blank h]
  refine ⟨⟨form_cons_blank hblock h.2 [], open_after_none hblock⟩, ?_⟩
  rw [linePieces, of_line_blank hblock h.2, linePieces, List.forall_mem_singleton]
  exact Paragraph.lone_blank

theorem forms_heading {heading : Heading} (h : (Part.heading heading).Tagless) :
    Forms e ((Part.heading heading).marked e) ((Part.heading heading).element e) ∧
      ∀ x ∈ linePieces none ((Part.heading heading).marked e), Lone Paragraph.Piece.join? x := by
  have hfree := enclose_newline_free (level_tag_alphabet heading.level)
    (Span.mark_all_newline_free e h.newline)
  obtain ⟨hsheltered, hopen⟩ := heading_block heading.level (Span.markAll e heading.content)
  rw [marked_heading h]
  refine ⟨⟨?_, hopen⟩, sheltered_lone hsheltered⟩
  rw [form_sheltered hsheltered]
  exact (lines_of_newline_free hfree).symm

theorem forms_list {style : ListStyle} {first : Text} {others : List Text}
    (h : (Part.list style first others).Tagless) :
    Forms e ((Part.list style first others).marked e) ((Part.list style first others).element e) ∧
      ∀ x ∈ linePieces none ((Part.list style first others).marked e),
        Lone Paragraph.Piece.join? x := by
  have hitems : ∀ item ∈ (first :: others).map (Span.markAll e), Element.Inline item :=
    List.forall_mem_map.mpr fun item hitem => inline_mark_all (h item hitem)
  obtain ⟨hsheltered, hopen⟩ := list_block style fun item hitem => (hitems item hitem).tags
  have hmarked := marked_list (e := e) h
  rw [← Function.comp_def, ← List.map_map] at hmarked
  rw [hmarked]
  refine ⟨⟨?_, hopen⟩, sheltered_lone hsheltered⟩
  rw [form_sheltered hsheltered]
  refine (lines_unlines ?_ (by simp)).symm
  rw [List.forall_mem_append, List.forall_mem_cons, List.forall_mem_singleton, List.forall_mem_map]
  refine ⟨⟨by cases style <;> decide, fun item hitem => ?_⟩, by cases style <;> decide⟩
  exact enclose_newline_free (by decide) (hitems item hitem).newline

theorem forms_prose {first : Line} {others : List Line}
    (h : (Part.prose first others).Tagless) :
    Forms e ((Part.prose first others).marked e) ((Part.prose first others).element e) := by
  have hlines := prose_marked_lines (e := e) h
  have hprose := form_prose (lines_ne_nil (Span.markAll e (unlines (first :: others))))
    fun l hl => ⟨Block.opened_span ((hlines l hl).1.trim (by decide)), (hlines l hl).2⟩
  have hfree : '\n' ∉ Html.paragraph (proseHtml e (first :: others)) :=
    enclose_newline_free (by decide) (prose_html_inline h).1.newline
  rw [marked_prose h]
  refine ⟨?_, hprose.2⟩
  rw [hprose.1]
  exact (lines_of_newline_free hfree).symm

theorem forms_part {p : Part} (h : p.Tagless) : Forms e (p.marked e) (p.element e) := by
  cases p with
  | blank l => exact (forms_blank h).1
  | heading heading => exact (forms_heading h).1
  | list style first others => exact (forms_list h).1
  | prose first others => exact forms_prose h

theorem part_lone {p : Part} (h : p.Tagless) (hprose : p.isProse = false) :
    ∀ x ∈ linePieces none (p.marked e), Lone Paragraph.Piece.join? x := by
  cases p with
  | blank l => exact (forms_blank h).2
  | heading heading => exact (forms_heading h).2
  | list style first others => exact (forms_list h).2
  | prose first others => cases hprose

theorem marked_ne_nil {p : Part} (h : p.Tagless) : p.marked e ≠ [] := by
  intro hnil
  have hhtml := (forms_part (e := e) h).html
  rw [hnil] at hhtml
  exact lines_ne_nil _ hhtml.symm

end Forms

def elements (e : Escaping) (ls : List Line) : List Element := (parts ls).map (Part.element e)

theorem form_elements (e : Escaping) {ls : List Line} (h : ∀ l ∈ ls, Tagless l) :
    formFrom none (markUpLines e ls) = (elements e ls).flatMap (fun x => lines (x.toHtml e)) ∧
      openBehind none (markUpLines e ls) = none := by
  have hparts := parts_tagless h
  have hopen : ∀ p ∈ parts ls, openBehind none (p.marked e) = none :=
    fun p hp => (forms_part (hparts p hp)).closed
  have hchain := (chain_parts ls).imp_of_mem_imp fun a b ha hb hab =>
    hab.imp (part_lone (e := e) (hparts a ha)) (part_lone (e := e) (hparts b hb))
  rw [mark_up_lines_parts e h]
  refine ⟨?_, open_behind_flat_map hopen⟩
  rw [form_flat_map (fun p hp => marked_ne_nil (hparts p hp)) hopen hchain, elements,
    List.flatMap_map]
  exact List.flatMap_congr fun p hp => (forms_part (hparts p hp)).html

theorem elements_well_formed (e : Escaping) {ls : List Line} (h : ∀ l ∈ ls, Tagless l) :
    ∀ x ∈ elements e ls, x.WellFormed :=
  List.forall_mem_map.mpr fun p hp => element_well_formed (parts_tagless h p hp)

theorem body_of_elements {e : Escaping} {source : Text} {xs : List Element} (hne : xs ≠ [])
    (h : formFrom none (lines (restored e source)) = xs.flatMap fun x => lines (x.toHtml e)) :
    (ofMarkdown e source).body = unlines (xs.map (Element.toHtml e)) := by
  have hlines : lines (ofMarkdown e source).body = lines (unlines (xs.map (Element.toHtml e))) := by
    rw [lines_body, h, lines_unlines_flatMap (by simpa using hne), List.flatMap_map]
  rw [← unlines_lines (ofMarkdown e source).body, hlines, unlines_lines]

end MarkdownPage.Article
