import MarkdownPage.Proofs.Article.Clean
import MarkdownPage.Proofs.Article.Outline
import MarkdownPage.Proofs.Fragment.Expand
import MarkdownPage.Proofs.Heading
import MarkdownPage.Proofs.ItemList
import MarkdownPage.Proofs.Paragraph
import MarkdownPage.Proofs.Span.Prose
import MarkdownPage.Proofs.Table.Markup

/-!
An article from the outline of its source. Markup is read on each stretch of text by itself and
leaves the fragments in their places, so the text whose paragraphs are formed is the marked outline
with the markup of each fragment in its place.
-/

namespace MarkdownPage.Article

open Text Html

def outline (source : Text) : Outline := linesOutline (lines (clean source))

/-- The text as it is marked up, with a token in the place of each fragment. -/
def lifted (source : Text) : Text := ((liftFragments (clean source)).run {}).1

def stored (source : Text) : Store := ((liftFragments (clean source)).run {}).2

def marked (e : Escaping) (source : Text) : Text := markUp e (lifted source)

/-- The text whose paragraphs are formed, with the fragments put back. -/
def restored (e : Escaping) (source : Text) : Text := (stored source).expand e (marked e source)

theorem of_markdown_eq (e : Escaping) (source : Text) :
    ofMarkdown e source =
      ⟨Paragraph.markUp (restored e source), Heading.pageTitle? (lifted source), stored source⟩ :=
  rfl

def markUpLines (e : Escaping) : List Line → List Line :=
  relined (Span.markUpPieces e) ∘ relined ItemList.markUpLines ∘
    relined (List.map Heading.markUpLine)

theorem lines_mark_up (e : Escaping) (t : Text) : lines (markUp e t) = markUpLines e (lines t) := by
  have hheading : lines (Heading.markUp t) = relined (List.map Heading.markUpLine) (lines t) :=
    lines_overLines (by simp [lines_ne_nil])
  have hlist (t : Text) : lines (ItemList.markUp t) = relined ItemList.markUpLines (lines t) :=
    lines_overLines (ItemList.mark_up_lines_ne_nil (lines_ne_nil t))
  have hspan (t : Text) : lines (Span.markUp e t) = relined (Span.markUpPieces e) (lines t) :=
    lines_overLines (Span.mark_up_pieces_ne_nil (lines_ne_nil t))
  rw [markUp, hspan, hlist, hheading]
  rfl

theorem cuts_at_token (e : Escaping) {k : Token} (h : k.index < Token.indexLimit) :
    CutsAt (markUpLines e) k.toLine k.toLine := by
  have hfree := k.to_line_newline_free
  have hheading : CutsAt (List.map Heading.markUpLine) k.toLine k.toLine := by
    have hmap := cuts_at_map Heading.markUpLine k.toLine
    rwa [Heading.mark_up_line_none k.to_line_no_heading] at hmap
  have hlist := ItemList.cuts_at k.to_line_no_item
  have hspan := Span.cuts_at_token e h
  exact (hspan.relined hfree).comp ((hlist.relined hfree).comp (hheading.relined hfree))

theorem cuts_at_empty (e : Escaping) : CutsAt (markUpLines e) [] [] := by
  have hfree : '\n' ∉ ([] : Line) := List.not_mem_nil
  have hheading : CutsAt (List.map Heading.markUpLine) [] [] := cuts_at_map Heading.markUpLine []
  have hlist : CutsAt ItemList.markUpLines [] [] := ItemList.cuts_at rfl
  have hspan := Span.cuts_at_empty e
  exact (hspan.relined hfree).comp ((hlist.relined hfree).comp (hheading.relined hfree))

theorem newline_not_mem_mark_up_lines {e : Escaping} {ls : List Line} {l : Line}
    (h : l ∈ markUpLines e ls) : '\n' ∉ l :=
  newline_not_mem_relined h

theorem mark_up_lines_spelled {p : Char → Prop} (hp : ∀ c ∈ alphabet, p c) (hn : p '\n')
    (e : Escaping) {ls : List Line} (h : ∀ l ∈ ls, ∀ c ∈ l, p c) :
    ∀ l ∈ markUpLines e ls, ∀ c ∈ l, p c := by
  have hheading : ∀ l ∈ relined (List.map Heading.markUpLine) ls, ∀ c ∈ l, p c :=
    relined_spelled (List.forall_mem_map.mpr fun l hl => Heading.mark_up_line_spelled hp (h l hl))
  have hlist := relined_spelled (ItemList.mark_up_lines_spelled hp hheading)
  exact relined_spelled (Span.mark_up_pieces_spelled hp hn e hlist)

def markUpStretch (e : Escaping) (ls : List Line) : Outline := (markUpLines e ls).map .text

/-- The outline after headings, lists and spans of each stretch have been marked up. -/
def markedOutline (e : Escaping) (source : Text) : Outline :=
  (outline source).overStretches (markUpStretch e)

theorem code_blocks_marked (e : Escaping) (source : Text) :
    (markedOutline e source).codeBlocks = (outline source).codeBlocks := by
  apply Outline.filter_map_stretches
  · intro l
    rfl
  · intro ls
    exact Outline.code_blocks_texts (markUpLines e ls)

theorem tables_marked (e : Escaping) (source : Text) :
    (markedOutline e source).tables = (outline source).tables := by
  apply Outline.filter_map_stretches
  · intro l
    rfl
  · intro ls
    exact Outline.tables_texts (markUpLines e ls)

theorem outline_whole (source : Text) : ∀ s ∈ outline source, s.Whole :=
  lines_outline_whole (clean source)

theorem lines_lifted (source : Text) :
    lines (lifted source) = (outline source).tokenLines 0 0 := by
  have hne := lines_outline_ne_nil (lines_ne_nil (clean source))
  rw [lifted, run_lift_fragments]
  exact Outline.lines_unlines_token_lines 0 0 (outline_whole source) hne

/-- Each line gives at most one slot, and a text has at most one line more than characters. -/
theorem length_outline_le (source : Text) : (outline source).length ≤ source.length + 1 := by
  have houtline := length_lines_outline_le (lines (clean source))
  have hlines := length_lines_le (clean source)
  have hclean := length_clean_le source
  rw [outline]
  omega

theorem numbered_outline {source : Text} (h : source.length < Token.indexLimit) :
    (outline source).Numbered :=
  Outline.numbered_of_length (Nat.le_trans (length_outline_le source) h)

theorem stored_eq (source : Text) : stored source = Store.withFragments {} (outline source) := by
  rw [stored, run_lift_fragments]
  rfl

theorem stored_eq_marked (e : Escaping) (source : Text) :
    stored source = Store.withFragments {} (markedOutline e source) := by
  rw [stored_eq, Store.withFragments, Store.withFragments, code_blocks_marked, tables_marked]

theorem marked_whole (e : Escaping) (source : Text) : ∀ s ∈ markedOutline e source, s.Whole := by
  refine Outline.forall_mem_stretches ?_ (by simp) (outline_whole source)
  intro ls _
  rw [markUpStretch, List.forall_mem_map]
  intro l hl
  exact newline_not_mem_mark_up_lines hl

section Spelled

variable {p : Char → Prop} {source : Text}

theorem outline_spelled (hp : ∀ c ∈ Fence.defaultLang, p c) (hn : p '\n')
    (h : ∀ c ∈ clean source, p c) : ∀ s ∈ outline source, s.Spelled p := by
  apply lines_outline_spelled hp hn
  intro l hl c hc
  exact h c (mem_of_mem_lines hl hc)

theorem marked_spelled (hp : ∀ c ∈ alphabet, p c) (hn : p '\n') (h : ∀ c ∈ clean source, p c)
    (e : Escaping) : ∀ s ∈ markedOutline e source, s.Spelled p := by
  have hlang : Fence.defaultLang ⊆ alphabet := by decide
  have hslots := outline_spelled (literal_spelled hp hlang) hn h
  refine Outline.forall_mem_stretches ?_ (by simp) hslots
  intro ls hls
  rw [markUpStretch, List.forall_mem_map]
  exact mark_up_lines_spelled hp hn e hls

theorem slot_lines_spelled (hp : ∀ c ∈ alphabet, p c) (hn : p '\n') (e : Escaping) {s : Slot}
    (h : s.Spelled p) : ∀ l ∈ s.lines e, ∀ c ∈ l, p c := by
  cases s with
  | text l => exact List.forall_mem_singleton.mpr h
  | fragment x =>
    have hx : ∀ c ∈ x.toHtml e, p c := by
      cases x with
      | code block => exact code_block_spelled hp e h.1 h.2
      | table raw => exact Table.to_html_spelled hp hn h
    intro l hl c hc
    exact hx c (mem_of_mem_lines hl hc)

theorem outline_lines_spelled (hp : ∀ c ∈ alphabet, p c) (hn : p '\n') (e : Escaping)
    {o : Outline} (h : ∀ s ∈ o, s.Spelled p) : ∀ l ∈ o.lines e, ∀ c ∈ l, p c := by
  intro l hl
  obtain ⟨s, hs, hl⟩ := List.mem_flatMap.mp hl
  exact slot_lines_spelled hp hn e (h s hs) l hl

end Spelled

theorem alphabet_unframed : Token.Unframed alphabet := by decide

theorem default_lang_unframed : Token.Unframed Fence.defaultLang := by decide

theorem marked_unframed (e : Escaping) (source : Text) :
    ∀ s ∈ markedOutline e source, s.Spelled fun c => Token.isFrame c = false :=
  marked_spelled alphabet_unframed (by decide) (unframed_clean source) e

theorem fragments_of_outline (source : Text) :
    (outline source).codeBlocks = (stored source).codeBlocks.toList ∧
      (outline source).tables = (stored source).tables.toList := by
  rw [stored_eq]
  simp [Store.withFragments]

theorem fragments_of_marked (e : Escaping) (source : Text) :
    (markedOutline e source).codeBlocks = (stored source).codeBlocks.toList ∧
      (markedOutline e source).tables = (stored source).tables.toList := by
  rw [code_blocks_marked, tables_marked]
  exact fragments_of_outline source

section Numbered

variable {e : Escaping} {source : Text}

theorem numbered_marked (h : (outline source).Numbered) : (markedOutline e source).Numbered := by
  rwa [Outline.Numbered, code_blocks_marked, tables_marked]

theorem lines_marked (h : (outline source).Numbered) :
    lines (marked e source) = (markedOutline e source).tokenLines 0 0 := by
  rw [marked, lines_mark_up, lines_lifted]
  refine Outline.pass_token_lines ?_ []
  intro k hk
  exact cuts_at_token e (Outline.index_lt h hk)

theorem lines_restored (h : (outline source).Numbered) :
    lines (restored e source) = (markedOutline e source).lines e := by
  have hcodes : (stored source).codeBlocks.toList.drop 0 = (markedOutline e source).codeBlocks := by
    rw [stored_eq_marked e]
    simp [Store.withFragments]
  have htables : (stored source).tables.toList.drop 0 = (markedOutline e source).tables := by
    rw [stored_eq_marked e]
    simp [Store.withFragments]
  have htexts : ∀ l ∈ (markedOutline e source).texts, Token.Unframed l ∧ '\n' ∉ l := by
    intro l hl
    have hmem := Outline.mem_texts.mp hl
    exact ⟨marked_unframed e source (.text l) hmem, marked_whole e source (.text l) hmem⟩
  have hindex : ∀ k ∈ (markedOutline e source).tokens 0 0, k.index < Token.indexLimit := by
    intro k hk
    exact Outline.index_lt (numbered_marked h) hk
  rw [restored, Store.expand, lines_overLines (by simp [lines_ne_nil]), lines_marked h]
  exact Outline.expand_token_lines e hcodes htables hindex htexts

end Numbered

theorem lines_body (e : Escaping) (source : Text) :
    lines (ofMarkdown e source).body = Paragraph.formFrom none (lines (restored e source)) := by
  have hfree : ∀ l ∈ lines (restored e source), ∀ c ∈ l, c ≠ '\n' :=
    fun l hl => List.forall_mem_ne'.mpr (newline_not_mem hl)
  have hform := Paragraph.form_spelled alphabet_newline_free none hfree
  have hne := Paragraph.form_ne_nil none (lines_ne_nil (restored e source))
  simp only [of_markdown_eq, Paragraph.mark_up_eq]
  exact lines_unlines (fun l hl => List.forall_mem_ne'.mp (hform l hl)) hne

end MarkdownPage.Article
