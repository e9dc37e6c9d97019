import MarkdownPage.Proofs.Article.Elements

/-!
The grammar of a page made from a source without tags. A fragment of such a source closes its block
with its last tag, so no block is open where the text behind it goes on, and the page is the
sequence of the elements of each stretch of text with the fragments between them.
-/

namespace MarkdownPage.Article

open Text Html Paragraph

/-- A block element comes through as it is, if its closing tag is the last of its tags. -/
theorem closed_element {tags : List Text} {front tag : Text} (hfront : TagsAmong tags front)
    (hn : ∀ t ∈ tags, '\n' ∉ t) (hapart : Apart tags (closeTag tag)) (htag : '\n' ∉ closeTag tag)
    (hfirst : ∀ l, (lines (front ++ closeTag tag)).head? = some l →
      Block.opened? (trim l) = some tag) :
    Sheltered none (lines (front ++ closeTag tag)) ∧
      openBehind none (lines (front ++ closeTag tag)) = none := by
  obtain ⟨ls, last, hlines⟩ : ∃ ls last, lines front = ls ++ [last] :=
    ⟨_, _, (List.dropLast_concat_getLast (lines_ne_nil front)).symm⟩
  have hopen : ∀ l ∈ ls, Block.isClosedBy tag l = false := by
    intro l hl
    have hmem : l ∈ lines front := hlines ▸ List.mem_append_left [last] hl
    exact Block.not_closed (hfront.line hn hmem) hapart
  rw [lines_append_tail htag hlines] at hfirst ⊢
  exact closed_block_run hfirst hopen (Block.closed_at_end last tag)

def Untagged : Slot → Prop
  | .text l => Tagless l
  | .fragment (.code block) => '<' ∉ block.lang ∧ '<' ∉ block.body
  | .fragment (.table raw) => '<' ∉ raw

def codeTags : List Text :=
  ["<pre>", "<code class=\"language-", "</code>"].map String.toList

theorem code_block_closed (e : Escaping) {block : CodeBlock} (hlang : '<' ∉ block.lang)
    (hbody : '<' ∉ block.body) :
    ∃ front, codeBlock e block.lang block.body = front ++ closeTag "pre".toList ∧
      TagsAmong codeTags front := by
  have hinner : '<' ∉ codeInner e block.lang block.body := by
    cases e with
    | verbatim => simp [codeInner, Escaping.attributeValue, Escaping.text, hlang, hbody]
    | escaped => exact not_mem_escaped_inner block.lang block.body
  refine ⟨codeOpen ++ (codeInner e block.lang block.body ++ "</code>".toList), ?_, ?_⟩
  · rw [code_block_eq, List.append_assoc, List.append_assoc]
    rfl
  · exact TagsAmong.append (by decide)
      ((tags_among_plain hinner).append (by decide))

theorem fragment_block (e : Escaping) {x : Fragment} (h : Untagged (.fragment x)) :
    Sheltered none (x.lines e) ∧ openBehind none (x.lines e) = none := by
  obtain ⟨first, others, hlines, hopened⟩ := fragment_opens e x
  have hfirst : ∀ l, (x.lines e).head? = some l → Block.opened? (trim l) = some (fragmentTag x) := by
    intro l hl
    rw [hlines, List.head?_cons] at hl
    cases hl
    exact hopened
  rw [Fragment.lines] at hfirst ⊢
  cases x with
  | code block =>
    obtain ⟨front, hhtml, hfront⟩ := code_block_closed e h.1 h.2
    rw [Fragment.toHtml, hhtml] at hfirst ⊢
    exact closed_element hfront (by decide) (by decide) (by decide) hfirst
  | table raw =>
    obtain ⟨front, hhtml, hfront⟩ := Table.to_html_closed h
    rw [Fragment.toHtml, hhtml] at hfirst ⊢
    exact closed_element hfront (by decide) (by decide) (by decide) hfirst

namespace Element

def codeBlock? : Element → Option CodeBlock
  | .fragment (.code block) => some block
  | _ => none

def table? : Element → Option Text
  | .fragment (.table raw) => some raw
  | _ => none

end Element

/-- The elements of an outline; `before` is the stretch of text so far. -/
def elementsFrom (e : Escaping) (before : List Line) : Outline → List Element
  | [] => elements e before
  | .text l :: o => elementsFrom e (before ++ [l]) o
  | .fragment x :: o => elements e before ++ .fragment x :: elementsFrom e [] o

section Outline

variable {e : Escaping} {before : List Line} {o : Outline}

theorem form_elements_from (hb : ∀ l ∈ before, Tagless l) (ho : ∀ s ∈ o, Untagged s) :
    formFrom none (Outline.lines e (o.overStretchesFrom (markUpStretch e) before)) =
      (elementsFrom e before o).flatMap fun x => lines (x.toHtml e) := by
  induction o generalizing before with
  | nil =>
    rw [Outline.overStretchesFrom, markUpStretch, Outline.lines_texts]
    exact (form_elements e hb).1
  | cons s o ih =>
    rw [List.forall_mem_cons] at ho
    cases s with
    | text l =>
      refine ih ?_ ho.2
      rw [List.forall_mem_append, List.forall_mem_singleton]
      exact ⟨hb, ho.1⟩
    | fragment x =>
      obtain ⟨hform, hopen⟩ := form_elements e hb
      obtain ⟨hsheltered, hclosed⟩ := fragment_block e ho.1
      have hrest := @ih [] (by simp) ho.2
      rw [Outline.overStretchesFrom, Outline.lines_around_fragment, markUpStretch,
        Outline.lines_texts, form_around_fragment, hopen, form_append_sheltered hsheltered, hclosed,
        hrest, hform, elementsFrom, List.flatMap_append, List.flatMap_cons, Element.fragment_html]
      rfl

theorem elements_from_well_formed (hb : ∀ l ∈ before, Tagless l) (ho : ∀ s ∈ o, Untagged s) :
    ∀ x ∈ elementsFrom e before o, x.WellFormed := by
  induction o generalizing before with
  | nil => exact elements_well_formed e hb
  | cons s o ih =>
    rw [List.forall_mem_cons] at ho
    cases s with
    | text l =>
      refine ih ?_ ho.2
      rw [List.forall_mem_append, List.forall_mem_singleton]
      exact ⟨hb, ho.1⟩
    | fragment x =>
      rw [elementsFrom, List.forall_mem_append, List.forall_mem_cons]
      exact ⟨elements_well_formed e hb, trivial, ih (by simp) ho.2⟩

theorem filter_map_elements_from {β : Type} {f : Element → Option β} {g : Slot → Option β}
    (hpart : ∀ p : Part, f (p.element e) = none) (htext : ∀ l, g (.text l) = none)
    (hfragment : ∀ x, f (.fragment x) = g (.fragment x)) (before : List Line) (o : Outline) :
    (elementsFrom e before o).filterMap f = o.filterMap g := by
  have hnone : ∀ ls, (elements e ls).filterMap f = [] := fun ls =>
    List.filterMap_eq_nil_iff.mpr (List.forall_mem_map.mpr fun p _ => hpart p)
  induction o generalizing before with
  | nil => exact hnone before
  | cons s o ih =>
    cases s with
    | text l => rw [elementsFrom, ih, List.filterMap_cons_none (htext l)]
    | fragment x =>
      rw [elementsFrom, List.filterMap_append, hnone, List.nil_append, List.filterMap_cons,
        List.filterMap_cons, hfragment, ih]

theorem elements_from_ne_nil (h : before ≠ [] ∨ o ≠ []) : elementsFrom e before o ≠ [] := by
  induction o generalizing before with
  | nil =>
    have hbefore : before ≠ [] := by simpa using h
    simpa [elementsFrom, elements, parts] using join_runs_ne_nil (by simpa using hbefore)
  | cons s o ih =>
    cases s with
    | text l => exact ih (Or.inl (by simp))
    | fragment x => simp [elementsFrom]

end Outline

theorem untagged_outline {source : Text} (h : '<' ∉ source) : ∀ s ∈ outline source, Untagged s := by
  have hclean := clean_spelled (p := (· ≠ '<')) (by decide) (List.forall_mem_ne'.mpr h)
  have hlang : '<' ∉ Fence.defaultLang := by decide
  have hbracket := outline_spelled (List.forall_mem_ne'.mpr hlang) (by decide) hclean
  have hframes := outline_spelled default_lang_unframed (by decide) (unframed_clean source)
  have hwhole := outline_whole source
  intro s hs
  have hplain := hbracket s hs
  cases s with
  | text l => exact ⟨hwhole _ hs, List.forall_mem_ne'.mp hplain, hframes _ hs⟩
  | fragment x =>
    cases x with
    | code block => exact ⟨List.forall_mem_ne'.mp hplain.1, List.forall_mem_ne'.mp hplain.2⟩
    | table raw => exact List.forall_mem_ne'.mp hplain

/-- The page is a sequence of well-formed elements, and the fragments among them are those that were
lifted from the source, once each and in their order. -/
def Composed (e : Escaping) (source : Text) : Prop :=
  ∃ xs : List Element, (ofMarkdown e source).body = unlines (xs.map (Element.toHtml e)) ∧
    (∀ x ∈ xs, x.WellFormed) ∧
      xs.filterMap Element.codeBlock? = (stored source).codeBlocks.toList ∧
        xs.filterMap Element.table? = (stored source).tables.toList

/-- The bound holds of every source in memory: its length is a word, as an index is. -/
theorem composed_of_tagless (e : Escaping) {source : Text} (h : '<' ∉ source)
    (hlen : source.length < Token.indexLimit) : Composed e source := by
  have huntagged := untagged_outline h
  have hne := lines_outline_ne_nil (lines_ne_nil (clean source))
  have hform := @form_elements_from e [] (outline source) (by simp) huntagged
  have hlines := lines_restored (e := e) (numbered_outline hlen)
  obtain ⟨hcodes, htables⟩ := fragments_of_outline source
  refine ⟨elementsFrom e [] (outline source), ?_, ?_, ?_, ?_⟩
  · refine body_of_elements (elements_from_ne_nil (Or.inr hne)) ?_
    rw [hlines]
    exact hform
  · exact elements_from_well_formed (by simp) huntagged
  · rw [← hcodes]
    exact filter_map_elements_from (by rintro (_ | _ | _ | _) <;> rfl) (fun _ => rfl)
      (by rintro (_ | _) <;> rfl) [] (outline source)
  · rw [← htables]
    exact filter_map_elements_from (by rintro (_ | _ | _ | _) <;> rfl) (fun _ => rfl)
      (by rintro (_ | _) <;> rfl) [] (outline source)

/-- Every kind of element, each next to another. -/
theorem composed_of_tagless_page :
    let source : Text := "# A *b*\n- x\n1. y\n|c|\n```\nz\n```\np **q\nr**\n".toList
    '<' ∉ source ∧ source.length < Token.indexLimit ∧ Composed .escaped source := by
  have h : '<' ∉ "# A *b*\n- x\n1. y\n|c|\n```\nz\n```\np **q\nr**\n".toList := by decide
  have hlen : "# A *b*\n- x\n1. y\n|c|\n```\nz\n```\np **q\nr**\n".toList.length <
      Token.indexLimit := by decide
  exact ⟨h, hlen, composed_of_tagless .escaped h hlen⟩

end MarkdownPage.Article
