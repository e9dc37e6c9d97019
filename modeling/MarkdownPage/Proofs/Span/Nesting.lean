import MarkdownPage.Proofs.Html.Tags
import MarkdownPage.Proofs.Span.Inert

/-!
Strong and emphasised spans as a tree. Strong spans are read first, and a strong element is left with
no asterisk in it; so a span that is emphasised holds such elements whole or not at all. Of a line
without tags of its own, nothing but asterisks gets lost.
-/

namespace MarkdownPage.Span

open Text Html

section Tree

/-- A part of a text in which strong spans have been read. -/
inductive Leaf where
  | char (c : Char)
  | strong (content : Text)
  deriving DecidableEq

/-- A part of a text in which emphasised spans have been read, too. -/
inductive Node where
  | leaf (l : Leaf)
  | emphasis (content : List Leaf)
  deriving DecidableEq

namespace Leaf

def source : Leaf → Text
  | char c => [c]
  | strong content => "**".toList ++ content ++ "**".toList

def toHtml : Leaf → Text
  | char c => [c]
  | strong content => Html.strong content

def tags : Leaf → List Text
  | char _ => []
  | strong _ => ["strong".toList, "/strong".toList]

def WellFormed : Leaf → Prop
  | char _ => True
  | strong content => content ≠ [] ∧ '*' ∉ content

end Leaf

namespace Node

def source : Node → Text
  | leaf l => l.source
  | emphasis ls => "*".toList ++ ls.flatMap Leaf.source ++ "*".toList

def toHtml : Node → Text
  | leaf l => l.toHtml
  | emphasis ls => Html.emphasis (ls.flatMap Leaf.toHtml)

def tags : Node → List Text
  | leaf l => l.tags
  | emphasis ls => ["em".toList] ++ ls.flatMap Leaf.tags ++ ["/em".toList]

def WellFormed : Node → Prop
  | leaf l => l.WellFormed
  | emphasis ls => ls ≠ [] ∧ .char '*' ∉ ls ∧ ∀ l ∈ ls, l.WellFormed

end Node

end Tree

section Reading

theorem strong_leaves (t : Text) : ∃ ls : List Leaf, (∀ l ∈ ls, l.WellFormed) ∧
    ls.flatMap Leaf.source = t ∧ ls.flatMap Leaf.toHtml = markStrong t := by
  let rule := delimitedRule "**".toList strong
  induction t using scan_induction rule with
  | nil => exact ⟨[], by simp, rfl, (substitute_nil rule).symm⟩
  | hit c t m hm ih =>
    obtain ⟨content, hspan, hne, hfree, hmarked⟩ := delimited_hit hm
    obtain ⟨ls, hformed, hsource, hhtml⟩ := ih
    refine ⟨.strong content :: ls, ?_, ?_, ?_⟩
    · exact List.forall_mem_cons.mpr ⟨⟨hne, hfree⟩, hformed⟩
    · rw [List.flatMap_cons, hsource]
      exact hspan.symm
    · rw [List.flatMap_cons, hhtml]
      exact hmarked.symm
  | miss c t hm ih =>
    obtain ⟨ls, hformed, hsource, hhtml⟩ := ih
    refine ⟨.char c :: ls, ?_, ?_, ?_⟩
    · exact List.forall_mem_cons.mpr ⟨trivial, hformed⟩
    · rw [List.flatMap_cons, hsource]
      rfl
    · rw [List.flatMap_cons, hhtml, markStrong, substitute_none hm]
      rfl

theorem strong_star_free {content : Text} (h : '*' ∉ content) : '*' ∉ Html.strong content := by
  simp only [Html.strong, enclose, List.mem_append, not_or]
  exact ⟨⟨by decide, h⟩, by decide⟩

theorem Leaf.star_free {l : Leaf} (h : l.WellFormed) (hl : l ≠ .char '*') : '*' ∉ l.toHtml := by
  cases l with
  | char c =>
    intro hmem
    exact hl (congrArg _ (List.mem_singleton.mp hmem).symm)
  | strong content => exact strong_star_free h.2

theorem cut_at_star {ls : List Leaf} (h : ∀ l ∈ ls, l.WellFormed) {content rest : Text}
    (hcontent : '*' ∉ content) (heq : ls.flatMap Leaf.toHtml = content ++ '*' :: rest) :
    ∃ inner behind, ls = inner ++ .char '*' :: behind ∧
      inner.flatMap Leaf.toHtml = content ∧ behind.flatMap Leaf.toHtml = rest := by
  induction ls generalizing content with
  | nil => simp at heq
  | cons l ls ih =>
    rw [List.forall_mem_cons] at h
    rw [List.flatMap_cons] at heq
    by_cases hl : l = .char '*'
    · subst hl
      cases content with
      | nil => exact ⟨[], ls, rfl, rfl, (List.cons.inj heq).2⟩
      | cons c content =>
        have hc : '*' = c := (List.cons.inj heq).1
        exact absurd (hc ▸ List.mem_cons_self) hcontent
    · obtain ⟨more, rfl, hrest⟩ := append_before (Leaf.star_free h.1 hl) heq
      rw [List.mem_append, not_or] at hcontent
      obtain ⟨inner, behind, rfl, rfl, rfl⟩ := ih h.2 hcontent.2 hrest
      exact ⟨l :: inner, behind, rfl, rfl, rfl⟩

/-- The nodes are what reading emphasised spans makes of the leaves. -/
structure Emphasised (nodes : List Node) (ls : List Leaf) : Prop where
  well_formed : ∀ n ∈ nodes, n.WellFormed
  source : nodes.flatMap Node.source = ls.flatMap Leaf.source
  markup : nodes.flatMap Node.toHtml = markEmphasis (ls.flatMap Leaf.toHtml)

theorem Emphasised.leaf {nodes : List Node} {l : Leaf} {ls : List Leaf} (h : Emphasised nodes ls)
    (hl : l.WellFormed) (hkept : markEmphasis (l.toHtml ++ ls.flatMap Leaf.toHtml) =
      l.toHtml ++ markEmphasis (ls.flatMap Leaf.toHtml)) :
    Emphasised (.leaf l :: nodes) (l :: ls) where
  well_formed := List.forall_mem_cons.mpr ⟨hl, h.well_formed⟩
  source := by
    rw [List.flatMap_cons, h.source]
    rfl
  markup := by
    rw [List.flatMap_cons, h.markup, List.flatMap_cons, hkept]
    rfl

theorem Emphasised.span {nodes : List Node} {inner behind : List Leaf} (h : Emphasised nodes behind)
    (hinner : (Node.emphasis inner).WellFormed)
    (hread : markEmphasis ((.char '*' :: inner ++ .char '*' :: behind).flatMap Leaf.toHtml) =
      Html.emphasis (inner.flatMap Leaf.toHtml) ++ markEmphasis (behind.flatMap Leaf.toHtml)) :
    Emphasised (.emphasis inner :: nodes) (.char '*' :: inner ++ .char '*' :: behind) where
  well_formed := List.forall_mem_cons.mpr ⟨hinner, h.well_formed⟩
  source := by
    rw [List.flatMap_cons, h.source]
    simp [Node.source, Leaf.source]
  markup := by
    rw [List.flatMap_cons, h.markup, hread]
    rfl

theorem emphasised_nodes {ls : List Leaf} (h : ∀ l ∈ ls, l.WellFormed) :
    ∃ nodes, Emphasised nodes ls := by
  let rule := delimitedRule "*".toList emphasis
  -- On the number of leaves, as reading goes on behind a span and not at the next leaf.
  induction hn : ls.length using Nat.strongRecOn generalizing ls with
  | _ n ih =>
    subst hn
    cases ls with
    | nil => exact ⟨[], by simp, rfl, (substitute_nil rule).symm⟩
    | cons l ls =>
      rw [List.forall_mem_cons] at h
      obtain ⟨nodes, hnodes⟩ := ih ls.length (by simp) h.2 rfl
      by_cases hl : l = .char '*'
      · subst hl
        cases hrule : rule ('*' :: ls.flatMap Leaf.toHtml) with
        | none => exact ⟨_, hnodes.leaf h.1 (substitute_none hrule)⟩
        | some m =>
          obtain ⟨content, hspan, hne, hfree, hmarked⟩ := delimited_hit hrule
          have hcut : ls.flatMap Leaf.toHtml = content ++ '*' :: m.rest := by
            simpa using hspan
          obtain ⟨inner, behind, rfl, rfl, hbehind⟩ := cut_at_star h.2 hfree hcut
          rw [List.forall_mem_append, List.forall_mem_cons] at h
          obtain ⟨nodes, hnodes⟩ := ih behind.length (by simp; omega) h.2.2.2 rfl
          have hinner : inner ≠ [] := by
            rintro rfl
            exact hne rfl
          have hstar : .char '*' ∉ inner := by
            intro hmem
            exact hfree (List.mem_flatMap.mpr ⟨_, hmem, List.mem_singleton_self '*'⟩)
          rw [← hbehind] at hmarked
          exact ⟨_, hnodes.span ⟨hinner, hstar, h.2.1⟩ hmarked⟩
      · have hpass : ∀ c ∈ l.toHtml, ∀ t, rule (c :: t) = none := by
          intro c hc
          refine delimited_pass ?_ [] emphasis
          rintro rfl
          exact Leaf.star_free h.1 hl hc
        exact ⟨_, hnodes.leaf h.1 (substitute_skip hpass _)⟩

end Reading

section Erasing

/-- The text without the tags of strong and emphasised elements. -/
def eraseTags : Text → Text
  | [] => []
  | '<' :: 's' :: 't' :: 'r' :: 'o' :: 'n' :: 'g' :: '>' :: t => eraseTags t
  | '<' :: '/' :: 's' :: 't' :: 'r' :: 'o' :: 'n' :: 'g' :: '>' :: t => eraseTags t
  | '<' :: 'e' :: 'm' :: '>' :: t => eraseTags t
  | '<' :: '/' :: 'e' :: 'm' :: '>' :: t => eraseTags t
  | c :: t => c :: eraseTags t

def eraseStars (t : Text) : Text := t.filter (· ≠ '*')

theorem erase_tags_other {c : Char} (h : c ≠ '<') (t : Text) :
    eraseTags (c :: t) = c :: eraseTags t := by
  rw [eraseTags]
  all_goals
    intros
    exact absurd ‹_› h

/-- A piece in front of any text yields `out`, and reading goes on with the text. -/
def Yields {α : Type} (read : Text → List α) (piece : Text) (out : List α) : Prop :=
  ∀ t, read (piece ++ t) = out ++ read t

section Yields

variable {α : Type} {read : Text → List α}

theorem Yields.append {s t : Text} {out out' : List α} (h : Yields read s out)
    (h' : Yields read t out') : Yields read (s ++ t) (out ++ out') := by
  intro u
  rw [List.append_assoc, h, h', List.append_assoc]

theorem Yields.flat_map {β : Type} {piece : β → Text} {out : β → List α} {xs : List β}
    (h : ∀ x ∈ xs, Yields read (piece x) (out x)) :
    Yields read (xs.flatMap piece) (xs.flatMap out) := by
  induction xs with
  | nil => exact fun _ => rfl
  | cons x xs ih =>
    rw [List.forall_mem_cons] at h
    exact h.1.append (ih h.2)

theorem Yields.whole {t : Text} {out : List α} (h : Yields read t out) (hnil : read [] = []) :
    read t = out := by
  have hread := h []
  rwa [List.append_nil, hnil, List.append_nil] at hread

end Yields

theorem tags_yield_plain {s : Text} (h : '<' ∉ s) : Yields tagsIn s [] :=
  fun t => tags_in_plain_append h t

theorem tags_yield_tag {tag : Text} (hopen : '<' ∉ tag) (hclose : '>' ∉ tag) :
    Yields tagsIn ('<' :: tag ++ ['>']) [tag] := by
  intro t
  have htag := tags_in_tag hopen hclose t
  simpa using htag

theorem letters_yield_plain {s : Text} (h : '<' ∉ s) :
    Yields (eraseStars ∘ eraseTags) s (eraseStars s) := by
  intro t
  have htags : eraseTags (s ++ t) = s ++ eraseTags t := by
    induction s with
    | nil => rfl
    | cons c s ih =>
      rw [List.mem_cons, not_or] at h
      rw [List.cons_append, erase_tags_other (Ne.symm h.1), ih h.2, List.cons_append]
  rw [Function.comp_apply, htags, eraseStars, List.filter_append]
  rfl

theorem letters_yield_strong {content : Text} (h : '<' ∉ content) :
    Yields (eraseStars ∘ eraseTags) (strong content) (eraseStars content) := by
  have hopen : Yields (eraseStars ∘ eraseTags) (openTag "strong".toList) [] := fun _ => rfl
  have hclose : Yields (eraseStars ∘ eraseTags) (closeTag "strong".toList) [] := fun _ => rfl
  have helement := (hopen.append (letters_yield_plain h)).append hclose
  rwa [List.nil_append, List.append_nil] at helement

theorem between_free {mark t mark' : Text} (h : '<' ∉ mark ++ t ++ mark') : '<' ∉ t :=
  fun hmem => h (List.mem_append_left _ (List.mem_append_right _ hmem))

theorem tags_yield_leaf {l : Leaf} (h : '<' ∉ l.source) : Yields tagsIn l.toHtml l.tags := by
  cases l with
  | char c => exact tags_yield_plain h
  | strong content =>
    have hcontent : '<' ∉ content := between_free h
    have hopen := @tags_yield_tag "strong".toList (by decide) (by decide)
    have hclose := @tags_yield_tag "/strong".toList (by decide) (by decide)
    exact (hopen.append (tags_yield_plain hcontent)).append hclose

theorem letters_yield_leaf {l : Leaf} (h : '<' ∉ l.source) :
    Yields (eraseStars ∘ eraseTags) l.toHtml (eraseStars l.source) := by
  cases l with
  | char c => exact letters_yield_plain h
  | strong content =>
    have hcontent : '<' ∉ content := between_free h
    have hstars : eraseStars (Leaf.strong content).source = eraseStars content := by
      simp [eraseStars, Leaf.source]
    rw [hstars]
    exact letters_yield_strong hcontent

theorem source_free_of_mem {α : Type} {source : α → Text} {xs : List α}
    (h : '<' ∉ xs.flatMap source) : ∀ x ∈ xs, '<' ∉ source x :=
  fun x hx hmem => h (List.mem_flatMap.mpr ⟨x, hx, hmem⟩)

theorem tags_yield_node {n : Node} (h : '<' ∉ n.source) : Yields tagsIn n.toHtml n.tags := by
  cases n with
  | leaf l => exact tags_yield_leaf h
  | emphasis ls =>
    have hcontent : '<' ∉ ls.flatMap Leaf.source := between_free h
    have hopen := @tags_yield_tag "em".toList (by decide) (by decide)
    have hclose := @tags_yield_tag "/em".toList (by decide) (by decide)
    have hleaves := Yields.flat_map fun l hl => tags_yield_leaf (source_free_of_mem hcontent l hl)
    exact (hopen.append hleaves).append hclose

theorem erase_stars_flat_map {α : Type} (source : α → Text) (xs : List α) :
    eraseStars (xs.flatMap source) = xs.flatMap fun x => eraseStars (source x) :=
  List.filter_flatMap

theorem letters_yield_node {n : Node} (h : '<' ∉ n.source) :
    Yields (eraseStars ∘ eraseTags) n.toHtml (eraseStars n.source) := by
  cases n with
  | leaf l => exact letters_yield_leaf h
  | emphasis ls =>
    have hcontent : '<' ∉ ls.flatMap Leaf.source := between_free h
    have hopen : Yields (eraseStars ∘ eraseTags) (openTag "em".toList) [] := fun _ => rfl
    have hclose : Yields (eraseStars ∘ eraseTags) (closeTag "em".toList) [] := fun _ => rfl
    have hleaves := Yields.flat_map fun l hl =>
      letters_yield_leaf (source_free_of_mem hcontent l hl)
    have hstars : eraseStars (Node.emphasis ls).source =
        ls.flatMap fun l => eraseStars l.source := by
      rw [← erase_stars_flat_map]
      simp [eraseStars, Node.source]
    have helement := (hopen.append hleaves).append hclose
    rw [List.nil_append, List.append_nil, ← hstars] at helement
    exact helement

end Erasing

/-- The line and the text that comes of it are source and markup of one tree: strong elements hold
text, and emphasised ones hold text and strong elements. The tags of the text are those of the tree,
and its other characters those of the line, asterisks apart. -/
structure Nested (line marked : Text) (nodes : List Node) : Prop where
  well_formed : ∀ n ∈ nodes, n.WellFormed
  source : nodes.flatMap Node.source = line
  markup : nodes.flatMap Node.toHtml = marked
  tags : tagsIn marked = nodes.flatMap Node.tags
  letters : eraseStars (eraseTags marked) = eraseStars line

theorem spans_nested {line : Text} (h : '<' ∉ line) :
    ∃ nodes, Nested line (markEmphasis (markStrong line)) nodes := by
  obtain ⟨ls, hleaves, hline, hstrong⟩ := strong_leaves line
  obtain ⟨nodes, hformed, hsource, hmarkup⟩ := emphasised_nodes hleaves
  rw [hline] at hsource
  rw [hstrong] at hmarkup
  rw [← hsource] at h
  have htags := Yields.flat_map fun n hn => tags_yield_node (source_free_of_mem h n hn)
  have hletters := Yields.flat_map fun n hn => letters_yield_node (source_free_of_mem h n hn)
  rw [hmarkup] at htags hletters
  rw [← erase_stars_flat_map, hsource] at hletters
  exact ⟨nodes, hformed, hsource, hmarkup, htags.whole rfl, hletters.whole rfl⟩

/-- An emphasised span around a strong one, asterisks left over, and angle brackets that close
nothing. -/
theorem spans_nested_runs :
    '<' ∉ "*a **b** c* ***d*** ****strong>** **e*f** em>".toList ∧
      ∃ nodes, Nested "*a **b** c* ***d*** ****strong>** **e*f** em>".toList
        (markEmphasis (markStrong "*a **b** c* ***d*** ****strong>** **e*f** em>".toList)) nodes :=
  have hplain : '<' ∉ "*a **b** c* ***d*** ****strong>** **e*f** em>".toList := by decide
  ⟨hplain, spans_nested hplain⟩

end MarkdownPage.Span
