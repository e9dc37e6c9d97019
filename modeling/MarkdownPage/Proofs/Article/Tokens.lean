import MarkdownPage.Proofs.Article.MarkUp

/-!
The tokens of an article. Between lifting and putting back, the token lines of the text are those
of the stored fragments, each once and each kind in its order, whatever the source holds; no other
line, no stored fragment and nothing of the article has a frame in it.
-/

namespace MarkdownPage.Article

open Text Html

/-- The tokens in the text are those of the store, and there are no frames elsewhere. -/
structure Intact (store : Store) (t : Text) : Prop where
  codes : ((lines t).filterMap Token.ofLine?).filterMap Token.codeIndex? =
    List.range store.codeBlocks.size
  tables : ((lines t).filterMap Token.ofLine?).filterMap Token.tableIndex? =
    List.range store.tables.size
  known : ∀ l ∈ lines t, ∀ k, Token.ofLine? l = some k → l = k.toLine ∧ store.Holds k
  others : ∀ l ∈ lines t, Token.ofLine? l = none → Token.Unframed l
  blocks : ∀ block ∈ store.codeBlocks, Token.Unframed block.lang ∧ Token.Unframed block.body
  raws : ∀ raw ∈ store.tables, Token.Unframed raw

/-- The one text is the other with every fragment of the store put back, once and in its place. -/
def Restores (e : Escaping) (store : Store) (t restored : Text) : Prop :=
  ∃ o : Outline, o.codeBlocks = store.codeBlocks.toList ∧ o.tables = store.tables.toList ∧
    lines t = o.tokenLines 0 0 ∧ lines restored = o.lines e

theorem intact_outline {o : Outline} (hn : o.Numbered)
    (h : ∀ s ∈ o, s.Spelled fun c => Token.isFrame c = false) (t : Text)
    (ht : lines t = o.tokenLines 0 0) : Intact (Store.withFragments {} o) t := by
  have htexts : ∀ l ∈ o.texts, Token.Unframed l := by
    intro l hl
    exact h (.text l) (Outline.mem_texts.mp hl)
  have hindex : ∀ k ∈ o.tokens 0 0, k.index < Token.indexLimit := by
    intro k hk
    exact Outline.index_lt hn hk
  have htokens := Outline.tokens_of_token_lines htexts hindex
  constructor
  case codes =>
    rw [ht, htokens, Outline.code_indexes, ← List.range_eq_range']
    simp [Store.withFragments]
  case tables =>
    rw [ht, htokens, Outline.table_indexes, ← List.range_eq_range']
    simp [Store.withFragments]
  case known =>
    intro l hl k hk
    rw [ht] at hl
    rcases Outline.mem_token_lines hl with hl | ⟨k', hk', rfl⟩
    · rw [Token.of_line_unframed (htexts l hl)] at hk
      cases hk
    · rw [Token.of_line_to_line (hindex k' hk')] at hk
      cases hk
      exact ⟨rfl, Outline.holds_of_mem hk'⟩
  case others =>
    intro l hl hnone
    rw [ht] at hl
    rcases Outline.mem_token_lines hl with hl | ⟨k, hk, rfl⟩
    · exact htexts l hl
    · rw [Token.of_line_to_line (hindex k hk)] at hnone
      cases hnone
  case blocks =>
    intro block hblock
    have hmem : block ∈ o.codeBlocks := by simpa [Store.withFragments] using hblock
    exact h _ (Outline.code_of_mem hmem)
  case raws =>
    intro raw hraw
    have hmem : raw ∈ o.tables := by simpa [Store.withFragments] using hraw
    exact h _ (Outline.table_of_mem hmem)

theorem title_unframed {source title : Text} (h : Heading.pageTitle? (lifted source) = some title) :
    Token.Unframed title := by
  obtain ⟨l, hl, heading, hheading, rfl⟩ := Heading.heading_of_title h
  rw [lines_lifted] at hl
  rcases Outline.mem_token_lines hl with hl | ⟨k, -, rfl⟩
  · have hslots := outline_spelled default_lang_unframed (by decide) (unframed_clean source)
    have hline : Token.Unframed l := hslots (.text l) (Outline.mem_texts.mp hl)
    intro c hc
    exact hline c (Heading.mem_of_mem_content hheading (mem_of_mem_trim_end hc))
  · rw [k.to_line_no_heading] at hheading
    cases hheading

theorem body_unframed (e : Escaping) {source : Text} (h : (outline source).Numbered) :
    Token.Unframed (ofMarkdown e source).body := by
  have hlines : ∀ l ∈ lines (restored e source), Token.Unframed l := by
    rw [lines_restored h]
    exact outline_lines_spelled alphabet_unframed (by decide) e (marked_unframed e source)
  have hform := Paragraph.form_spelled alphabet_unframed none hlines
  simp only [of_markdown_eq, Paragraph.mark_up_eq]
  exact unlines_spelled (by decide) hform

/-- Lengths are words of the size that indexes have, so every source in memory meets the bound. -/
theorem tokens_intact (e : Escaping) {source : Text} (h : source.length < Token.indexLimit) :
    Intact (ofMarkdown e source).fragments (marked e source) ∧
      Restores e (ofMarkdown e source).fragments (marked e source) (restored e source) ∧
        Token.Unframed (ofMarkdown e source).body ∧
          ∀ title, (ofMarkdown e source).title = some title → Token.Unframed title := by
  have hn := numbered_outline h
  have hstore : (ofMarkdown e source).fragments =
      Store.withFragments {} (markedOutline e source) := stored_eq_marked e source
  refine ⟨?_, ?_, body_unframed e hn, ?_⟩
  · rw [hstore]
    exact intact_outline (numbered_marked hn) (marked_unframed e source) _ (lines_marked hn)
  · obtain ⟨hcodes, htables⟩ := fragments_of_marked e source
    exact ⟨markedOutline e source, hcodes, htables, lines_marked hn, lines_restored hn⟩
  · intro title htitle
    exact title_unframed htitle

/-- A forged token in a text with a code block. -/
theorem tokens_intact_forged :
    let source : Text := "\uE000CODE_BLOCK_0\uE001\n```\n\uE001\n```".toList
    source.length < Token.indexLimit ∧
      Intact (ofMarkdown .escaped source).fragments (marked .escaped source) ∧
        Token.Unframed (ofMarkdown .escaped source).body := by
  have h : "\uE000CODE_BLOCK_0\uE001\n```\n\uE001\n```".toList.length < Token.indexLimit := by
    decide
  have hintact := tokens_intact .escaped h
  exact ⟨h, hintact.1, hintact.2.2.1⟩

end MarkdownPage.Article
