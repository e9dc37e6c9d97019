import MarkdownPage.Proofs.Article.Kept

/-!
Code blocks whose text is escaped. Such a block holds no angle bracket between its first and its
last tag, so whatever its body is, all of its lines are sheltered and the same block is open behind
it. The rest of the page is then the same for every body.
-/

namespace MarkdownPage.Article

open Text Html Paragraph

theorem code_line_skip {inner : Text} (h : '<' ∉ inner) {l : Line}
    (hl : l ∈ lines (codeOpen ++ inner)) (tag u : Text) :
    Block.isClosedBy tag (l ++ u) = Block.isClosedBy tag u := by
  have hopen : '\n' ∉ codeOpen := by decide
  obtain ⟨first, others, hinner⟩ := List.exists_cons_of_ne_nil (lines_ne_nil inner)
  have hplain : ∀ m ∈ first :: others, '<' ∉ m := by
    intro m hm hmem
    exact h (mem_of_mem_lines (hinner ▸ hm) hmem)
  rw [List.forall_mem_cons] at hplain
  rw [lines_append_of_newline_free hopen hinner] at hl
  rcases List.mem_cons.mp hl with rfl | hl
  · rw [List.append_assoc, Block.closed_skip_code_open]
    exact Block.closed_skip_plain tag hplain.1 u
  · exact Block.closed_skip_plain tag (hplain.2 l hl) u

section CodeLines

variable (stillOpen : Option Text)

theorem block_at_code (u : Text) :
    blockAt? stillOpen (codeOpen ++ u) = some (stillOpen.getD "pre".toList) := by
  cases stillOpen with
  | none =>
    rw [code_open_pre, List.append_assoc]
    exact Block.opened_pre ("<code class=\"language-".toList ++ u)
  | some tag => rfl

theorem block_at_first_line {t : Text} {l : Line}
    (h : (lines (codeOpen ++ t)).head? = some l) :
    blockAt? stillOpen l = some (stillOpen.getD "pre".toList) := by
  have hopen : '\n' ∉ codeOpen := by decide
  obtain ⟨first, others, ht⟩ := List.exists_cons_of_ne_nil (lines_ne_nil t)
  rw [lines_append_of_newline_free hopen ht, List.head?_cons] at h
  cases h
  exact block_at_code stillOpen first

/-- What is open behind a code block that no line but its last can close. -/
def openBehindCode : Option Text :=
  (some (stillOpen.getD "pre".toList)).filter fun tag => !Block.isClosedBy tag codeClose

/-- The lines of an escaped code block are all sheltered, and the block open behind them does not
depend on what it holds. -/
theorem escaped_code_run (block : CodeBlock) :
    Sheltered stillOpen ((Fragment.code block).lines .escaped) ∧
      openBehind stillOpen ((Fragment.code block).lines .escaped) = openBehindCode stillOpen := by
  obtain ⟨inner, h, hmarkup⟩ : ∃ inner, '<' ∉ inner ∧
      codeBlock .escaped block.lang block.body = codeOpen ++ (inner ++ codeClose) :=
    ⟨_, not_mem_escaped_inner block.lang block.body, code_block_eq _ _ _⟩
  obtain ⟨ls, last, hinner⟩ : ∃ ls last, lines (codeOpen ++ inner) = ls ++ [last] :=
    ⟨_, _, (List.dropLast_concat_getLast (lines_ne_nil (codeOpen ++ inner))).symm⟩
  have hclose : '\n' ∉ codeClose := by decide
  have hlines : (Fragment.code block).lines .escaped = ls ++ [last ++ codeClose] := by
    rw [Fragment.lines, Fragment.toHtml, hmarkup, ← List.append_assoc]
    exact lines_append_tail hclose hinner
  have hskip : ∀ l ∈ ls ++ [last], ∀ tag u,
      Block.isClosedBy tag (l ++ u) = Block.isClosedBy tag u := by
    intro l hl
    exact code_line_skip h (hinner ▸ hl)
  rw [List.forall_mem_append, List.forall_mem_singleton] at hskip
  have hfirst : ∀ l, (ls ++ [last ++ codeClose]).head? = some l →
      blockAt? stillOpen l = some (stillOpen.getD "pre".toList) := by
    intro l hl
    rw [← hlines, Fragment.lines, Fragment.toHtml, hmarkup] at hl
    exact block_at_first_line stillOpen hl
  have hopen : ∀ l ∈ ls, Block.isClosedBy (stillOpen.getD "pre".toList) l = false := by
    intro l hl
    have hl := hskip.1 l hl (stillOpen.getD "pre".toList) []
    rwa [List.append_nil, Block.closed_nil] at hl
  have hrun := block_run hfirst hopen
  simp only [hskip.2] at hrun
  rwa [hlines]

theorem form_around_escaped (block : CodeBlock) (xs ys : List Line) :
    formFrom none (xs ++ ((Fragment.code block).lines .escaped ++ ys)) =
      formFrom none xs ++ (Fragment.code block).lines .escaped ++
        formFrom (openBehindCode (openBehind none xs)) ys := by
  obtain ⟨hsheltered, hopen⟩ := escaped_code_run (openBehind none xs) block
  rw [form_around_fragment, form_append_sheltered hsheltered, hopen, List.append_assoc]

end CodeLines

def bodyBefore (before : Text) : Text :=
  (formFrom none ((markedOutline .escaped before).lines .escaped)).flatMap (· ++ ['\n'])

def bodyBehind (before behind : Text) : Text :=
  (formFrom (openBehindCode (openBehind none ((markedOutline .escaped before).lines .escaped)))
    ((markedOutline .escaped behind).lines .escaped)).flatMap ('\n' :: ·)

/-- The title of a text with a code block, told with an empty one. -/
def titleAround (before behind : Text) : Option Text :=
  (Outline.tokenLines 0 0 (outline before ++ .fragment (.code ⟨[], []⟩) ::
    outline behind)).findSome? fun l => (Heading.ofLine? l).bind Heading.title?

section Around

variable {source before behind : Text} {block : CodeBlock}

theorem marked_around_code (e : Escaping)
    (h : outline source = outline before ++ .fragment (.code block) :: outline behind) :
    markedOutline e source =
      markedOutline e before ++ .fragment (.code block) :: markedOutline e behind := by
  rw [markedOutline, h]
  exact Outline.stretches_append_fragment [] _ _ _

theorem body_around_code (hn : (outline source).Numbered)
    (h : outline source = outline before ++ .fragment (.code block) :: outline behind) :
    (ofMarkdown .escaped source).body =
      bodyBefore before ++ codeBlock .escaped block.lang block.body ++
        bodyBehind before behind := by
  have hlines : lines (restored .escaped source) =
      (markedOutline .escaped before).lines .escaped ++ ((Fragment.code block).lines .escaped ++
        (markedOutline .escaped behind).lines .escaped) := by
    rw [lines_restored hn, marked_around_code .escaped h, Outline.lines_around_fragment]
  have hne : (Fragment.code block).lines .escaped ≠ [] := lines_ne_nil _
  rw [← unlines_lines (ofMarkdown .escaped source).body, lines_body, hlines, form_around_escaped,
    unlines_between _ _ hne, Fragment.lines, unlines_lines, Fragment.toHtml]
  rfl

theorem title_around_code (e : Escaping)
    (h : outline source = outline before ++ .fragment (.code block) :: outline behind) :
    (ofMarkdown e source).title = titleAround before behind := by
  rw [of_markdown_eq, Heading.pageTitle?, lines_lifted, h, titleAround, Outline.token_lines_append,
    Outline.token_lines_append]
  rfl

end Around

/-- A text, a line with an opening fence, the body of the block, its closing fence and a text. -/
def withCodeBlock (before opening body behind : Text) : Text :=
  before ++ "\n".toList ++ opening ++ "\n".toList ++ body ++ "\n```\n".toList ++ behind

section Isolated

variable {before opening behind tag : Text}

theorem lines_with_code_block (h : '\n' ∉ opening) (body : Text) :
    lines (withCodeBlock before opening body behind) =
      lines before ++ opening :: (lines body ++ Fence.marker :: lines behind) := by
  have hsource : withCodeBlock before opening body behind = before ++ '\n' ::
      (opening ++ '\n' :: (body ++ '\n' :: (Fence.marker ++ '\n' :: behind))) := by
    simp [withCodeBlock, Fence.marker]
  have hmarker : '\n' ∉ Fence.marker := by decide
  rw [hsource, lines_append_newline, lines_append_newline, lines_append_newline,
    lines_append_newline, lines_of_newline_free h, lines_of_newline_free hmarker]
  rfl

theorem plain_with_code_block (hbefore : Plain before) (hopening : Plain opening)
    (hbehind : Plain behind) {body : Text} (hbody : Plain body) :
    Plain (withCodeBlock before opening body behind) := by
  have hnewline : Plain "\n".toList := by decide
  have hfence : Plain "\n```\n".toList := by decide
  exact (((((hbefore.append hnewline).append hopening).append hnewline).append hbody).append
    hfence).append hbehind

theorem outline_with_code_block (hbefore : Plain before) (hopening : Plain opening)
    (hbehind : Plain behind) (hline : '\n' ∉ opening) (htag : Fence.langTag? opening = some tag)
    (hclosed : Fence.AllClosed before) {body : Text} (hbody : Plain body)
    (hfence : ∀ l ∈ lines body, Fence.isClosing l = false) :
    outline (withCodeBlock before opening body behind) =
      outline before ++
        .fragment (.code ⟨Fence.language tag, body⟩) :: outline behind := by
  have hmarker : Fence.isClosing Fence.marker = true := by decide
  rw [outline, clean_plain (plain_with_code_block hbefore hopening hbehind hbody),
    lines_with_code_block hline, linesOutline,
    hclosed.outline_append_block htag hfence hmarker, unlines_lines, outline, outline,
    clean_plain hbefore, clean_plain hbehind]
  exact Outline.stretches_append_fragment [] _ _ _

theorem escaped_code_block (htag : Fence.langTag? opening = some tag) (body : Text) :
    codeBlock .escaped (Fence.language tag) body =
      "<pre><code class=\"language-".toList ++ (if tag.isEmpty then "text".toList else tag) ++
        "\">".toList ++ escapeText body ++ "</code></pre>".toList := by
  unfold codeBlock
  rw [Escaping.attributeValue, Fence.escape_language htag]
  rfl

/-- The text of an escaped code block changes nothing else on the page and not its title. -/
theorem code_block_isolated (hbefore : Plain before) (hopening : Plain opening)
    (hbehind : Plain behind) (hline : '\n' ∉ opening) (htag : Fence.langTag? opening = some tag)
    (hclosed : Fence.AllClosed before)
    (hlen : (before ++ opening ++ behind).length < Token.indexLimit) :
    ∃ (head foot : Text) (title : Option Text),
      ∀ body, Plain body → (∀ l ∈ lines body, Fence.isClosing l = false) →
        (ofMarkdown .escaped (withCodeBlock before opening body behind)).body =
            head ++ "<pre><code class=\"language-".toList ++
              (if tag.isEmpty then "text".toList else tag) ++ "\">".toList ++ escapeText body ++
                "</code></pre>".toList ++ foot ∧
          (ofMarkdown .escaped (withCodeBlock before opening body behind)).title = title := by
  refine ⟨bodyBefore before, bodyBehind before behind, titleAround before behind, ?_⟩
  intro body hbody hfence
  have houtline := outline_with_code_block hbefore hopening hbehind hline htag hclosed hbody hfence
  have hn : (outline (withCodeBlock before opening body behind)).Numbered := by
    apply Outline.numbered_of_length
    have hb := length_outline_le before
    have hf := length_outline_le behind
    have ho := Fence.length_of_tag htag
    rw [houtline, List.length_append, List.length_cons]
    simp only [List.length_append] at hlen
    omega
  refine ⟨?_, title_around_code .escaped houtline⟩
  rw [body_around_code hn houtline, escaped_code_block htag]
  simp only [List.append_assoc]

end Isolated

/-- A block inside an element that the text before it leaves open. -/
theorem code_block_isolated_blockquote :
    let before : Text := "<blockquote>\n```\n```".toList
    let opening : Text := " ```rust".toList
    let behind : Text := "x\n</blockquote>\n# Title".toList
    Fence.langTag? opening = some "rust".toList ∧ Fence.AllClosed before ∧
      ∃ (head foot : Text) (title : Option Text),
        ∀ body, Plain body → (∀ l ∈ lines body, Fence.isClosing l = false) →
          (ofMarkdown .escaped (withCodeBlock before opening body behind)).body =
              head ++ "<pre><code class=\"language-".toList ++
                (if "rust".toList.isEmpty then "text".toList else "rust".toList) ++
                  "\">".toList ++ escapeText body ++ "</code></pre>".toList ++ foot ∧
            (ofMarkdown .escaped (withCodeBlock before opening body behind)).title = title := by
  have htag : Fence.langTag? " ```rust".toList = some "rust".toList := by decide
  have hclosed : Fence.AllClosed "<blockquote>\n```\n```".toList := by decide +kernel
  exact ⟨htag, hclosed, code_block_isolated (by decide) (by decide) (by decide) (by decide) htag
    hclosed (by decide)⟩

end MarkdownPage.Article
