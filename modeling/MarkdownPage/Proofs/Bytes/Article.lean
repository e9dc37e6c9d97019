import MarkdownPage.Article
import MarkdownPage.Proofs.Bytes.Fence
import MarkdownPage.Proofs.Bytes.Line
import MarkdownPage.Proofs.Bytes.Prose

/-!
The whole conversion by places. Every pass of it reads and cuts its text by places, and fails where
one of them is out of range or inside of a character. Main statement: for every source in UTF-8 none
of this happens, and the article is the one that the conversion gives.
-/

namespace MarkdownPage.Bytes

open Text

section Passes

theorem map_lines_eq {β : Type} {f : Line → Checked β} {g : Line → β} (h : ∀ l, f l = .ok (g l))
    (ls : List Line) : ls.mapM f = .ok (ls.map g) := by
  have hf : f = fun l => .ok (g l) := funext h
  rw [hf]
  exact List.mapM_pure

def headingLine (l : Line) : Checked Line := do
  match ← heading? l with
  | some h => .ok h.toHtml
  | none => .ok l

def markUpHeadings (t : Text) : Checked Text := do
  let ls ← (lines t).mapM headingLine
  .ok (unlines ls)

def lineTitle? (l : Line) : Checked (Option Text) := do
  let h ← heading? l
  .ok (h.bind Heading.title?)

def pageTitle? (t : Text) : Checked (Option Text) := (lines t).findSomeM? lineTitle?

def itemPiece (l : Line) : Checked ItemList.Piece := do
  match ← item? l with
  | some item => .ok (.list item.style [item.content])
  | none => .ok (.text l)

def markUpLists (t : Text) : Checked Text := do
  let pieces ← (lines t).mapM itemPiece
  .ok (unlines ((joinRuns ItemList.Piece.join? pieces).flatMap ItemList.Piece.toHtml))

def openAfter (stillOpen : Option Text) (l : Line) : Checked (Option Text) :=
  match Paragraph.blockAt? stillOpen l with
  | none => .ok none
  | some tag => do
    let closed ← closes tag l
    .ok (if closed then none else some tag)

def linePieces (stillOpen : Option Text) : List Line → Checked (List Paragraph.Piece)
  | [] => .ok []
  | l :: ls => do
    let next ← openAfter stillOpen l
    let others ← linePieces next ls
    .ok (Paragraph.Piece.ofLine stillOpen l :: others)

def markUpParagraphs (t : Text) : Checked Text := do
  let pieces ← linePieces none (lines t)
  .ok (unlines ((joinRuns Paragraph.Piece.join? pieces).map Paragraph.Piece.toHtml))

theorem mark_up_headings_eq (t : Text) : markUpHeadings t = .ok (Heading.markUp t) := by
  have hline (l : Line) : headingLine l = .ok (Heading.markUpLine l) := by
    rw [headingLine, heading_eq, ok_bind, Heading.markUpLine]
    cases Heading.ofLine? l <;> rfl
  rw [markUpHeadings, map_lines_eq hline]
  rfl

theorem page_title_eq (t : Text) : pageTitle? t = .ok (Heading.pageTitle? t) := by
  have hline : lineTitle? = fun l => .ok ((Heading.ofLine? l).bind Heading.title?) := by
    funext l
    rw [lineTitle?, heading_eq]
    rfl
  rw [pageTitle?, hline]
  exact List.findSomeM?_pure

theorem mark_up_lists_eq (t : Text) : markUpLists t = .ok (ItemList.markUp t) := by
  have hline (l : Line) : itemPiece l = .ok (ItemList.Piece.ofLine l) := by
    rw [itemPiece, item_eq, ok_bind, ItemList.Piece.ofLine]
    cases Item.ofLine? l <;> rfl
  rw [markUpLists, map_lines_eq hline]
  rfl

theorem open_after_eq (stillOpen : Option Text) (l : Line) :
    openAfter stillOpen l = .ok (Paragraph.openAfter stillOpen l) := by
  rw [openAfter, Paragraph.openAfter]
  cases Paragraph.blockAt? stillOpen l with
  | none => rfl
  | some tag =>
    simp only [closes_eq, ok_bind, Option.filter_some]
    cases Block.isClosedBy tag l <;> rfl

theorem line_pieces_eq (stillOpen : Option Text) (ls : List Line) :
    linePieces stillOpen ls = .ok (Paragraph.linePieces stillOpen ls) := by
  induction ls generalizing stillOpen with
  | nil => rfl
  | cons l ls ih => rw [linePieces, open_after_eq, ok_bind, ih, ok_bind, Paragraph.linePieces]

theorem mark_up_paragraphs_eq (t : Text) : markUpParagraphs t = .ok (Paragraph.markUp t) := by
  rw [markUpParagraphs, line_pieces_eq]
  rfl

end Passes

/-- The article for a Markdown text, with all its passes by places. -/
def ofMarkdown (e : Html.Escaping) (source : Text) : Checked Article := do
  let (t, store) ← lift (Article.clean source) {}
  let (t, store) ← liftTables t store
  let title ← pageTitle? t
  let marked ← markUpHeadings t
  let marked ← markUpLists marked
  let marked ← markUp e marked
  let body ← markUpParagraphs (store.expand e marked)
  .ok ⟨body, title, store⟩

theorem of_markdown_eq (e : Html.Escaping) (source : Text) :
    ofMarkdown e source = .ok (Article.ofMarkdown e source) := by
  simp only [ofMarkdown, lift_eq, lift_tables_eq, page_title_eq, mark_up_headings_eq,
    mark_up_lists_eq, mark_up_eq, mark_up_paragraphs_eq, ok_bind]
  rfl

/-- Nothing fails that the conversion does with a text: the scans for spans, the readers of lines, the
cuts of blocks and of runs of prose, and the conversion of the text itself. -/
structure Faultless (e : Html.Escaping) (t : Text) : Prop where
  strong : strongScanner.Safe (Span.delimitedRule "**".toList Html.strong) t
  emphasis : emphasisScanner.Safe (Span.delimitedRule "*".toList Html.emphasis) t
  images : (imageScanner e).Safe
    (Span.referenceRule "![".toList fun r => Html.image e r.address r.label) t
  links : (linkScanner e).Safe
    (Span.referenceRule "[".toList fun r => Html.link e r.address r.label) t
  heading : heading? t = .ok (Heading.ofLine? t)
  item : item? t = .ok (Item.ofLine? t)
  closing : ∀ tag, closes tag t = .ok (Block.isClosedBy tag t)
  blocks : ∀ store, lift t store = .ok ((Fence.lift t).run store)
  prose : markUp e t = .ok (Span.markUp e t)
  runs : ∀ before behind, lines t = before ++ behind →
    ∃ p, before.foldlM (passLine e t) {} = .ok p ∧ ∀ start ∈ p.runStart, p.RunPlaced t start
  article : ofMarkdown e t = .ok (Article.ofMarkdown e t)

theorem faultless (e : Html.Escaping) (t : Text) : Faultless e t where
  strong := strong_follows.safe t
  emphasis := emphasis_follows.safe t
  images := (images_follow e).safe t
  links := (links_follow e).safe t
  heading := heading_eq t
  item := item_eq t
  closing tag := closes_eq tag t
  blocks := lift_eq t
  prose := mark_up_eq e t
  runs _ _ h := pass_placed e t h
  article := of_markdown_eq e t

/-- No source in UTF-8 makes the conversion fail. -/
theorem valid_source_faultless (e : Html.Escaping) {source : ByteArray} (h : source.IsValidUTF8) :
    ∃ t, ofBytes? source = some t ∧ bytes t = source.data.toList ∧ Faultless e t := by
  obtain ⟨t, rfl⟩ := h
  have hbytes : t.utf8Encode = toBytes t := by
    rw [toBytes, String.toUTF8, String.toByteArray_ofList]
  refine ⟨t, ?_, ?_, faultless e t⟩
  · rw [hbytes]
    exact ofBytes?_toBytes t
  · rw [hbytes]
    rfl

/-- A character of two bytes before a strong span, and one of three bytes in it. -/
theorem multibyte_source_faultless :
    let source : ByteArray := ⟨#[0xC3, 0xA9, 0x2A, 0x2A, 0xE6, 0x97, 0xA5, 0x2A, 0x2A]⟩
    source.IsValidUTF8 ∧
      ∃ t, ofBytes? source = some t ∧ bytes t = source.data.toList ∧ Faultless .verbatim t := by
  intro source
  have hvalid : source.IsValidUTF8 := ⟨"é**日**".toList, by decide⟩
  exact ⟨hvalid, valid_source_faultless .verbatim hvalid⟩

end MarkdownPage.Bytes
