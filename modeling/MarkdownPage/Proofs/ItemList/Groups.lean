import Mathlib.Data.List.SplitBy
import MarkdownPage.Proofs.ItemList

/-!
Lists as groups of lines. Neighbouring items of one style are one group and become one list; every
other line is a group of its own and stays as it is. What is marked up holds no items any more, so
that marking up again changes nothing.
-/

namespace MarkdownPage

open Text Html

namespace Item

/-- The text is a marker of the style, then whitespace, then this content. -/
def Spells (style : ListStyle) (content t : Text) : Prop :=
  ∃ marker spaces, IsMarker style marker ∧ spaces ≠ [] ∧ (∀ c ∈ spaces, isSpace c = true) ∧
    content ≠ [] ∧ t = marker ++ spaces ++ content

/-- An item is read from a line exactly if the line, trimmed, spells it and its content begins
behind all the whitespace. -/
theorem of_line_iff {l : Line} {item : Item} : ofLine? l = some item ↔
    Spells item.style item.content (trim l) ∧ trimStart item.content = item.content := by
  rw [of_line_eq_some]
  constructor
  · rintro ⟨rest, hread, hcontent⟩
    obtain ⟨marker, hmarker, ht⟩ := marker_eq_some_iff.mp hread
    obtain ⟨spaces, hne, hspaces, hstart, rfl⟩ := after_space_eq_some_iff.mp hcontent
    rw [← List.append_assoc] at ht
    refine ⟨⟨marker, spaces, hmarker, hne, hspaces, ?_, ht⟩, hstart⟩
    -- A trimmed line does not end with the whitespace behind the marker.
    intro hnil
    rw [hnil, List.append_nil] at ht
    have hlast := not_space_of_trim_last (t := l) (by simp [ht, hne])
    simp only [ht, List.getLast_append_of_ne_nil _ hne] at hlast
    rw [hspaces _ (List.getLast_mem hne)] at hlast
    cases hlast
  · rintro ⟨⟨marker, spaces, hmarker, hne, hspaces, -, ht⟩, hstart⟩
    refine ⟨spaces ++ item.content, marker_eq_some_iff.mpr ⟨marker, hmarker, ?_⟩, ?_⟩
    · rw [ht, List.append_assoc]
    · exact after_space_eq_some_iff.mpr ⟨spaces, hne, hspaces, hstart, rfl⟩

theorem accepted_iff {l : Line} :
    (ofLine? l).isSome = true ↔ ∃ style content, Spells style content (trim l) := by
  rw [Option.isSome_iff_exists]
  constructor
  · rintro ⟨item, hitem⟩
    exact ⟨item.style, item.content, (of_line_iff.mp hitem).1⟩
  · rintro ⟨style, content, marker, spaces, hmarker, hne, hspaces, hcontent, ht⟩
    have hread : marker? (trim l) = some (style, spaces ++ content) :=
      marker_eq_some_iff.mpr ⟨marker, hmarker, by rw [ht, List.append_assoc]⟩
    have hrest : afterSpace? (spaces ++ content) = some (trimStart content) :=
      after_space_append hne hspaces content
    exact ⟨⟨style, trimStart content⟩, of_line_eq_some.mpr ⟨spaces ++ content, hread, hrest⟩⟩

end Item

namespace ItemList

def style? (l : Line) : Option ListStyle := (Item.ofLine? l).map Item.style

/-- Neighbouring lines stand in one list if both are items of one style. -/
def sameList (l m : Line) : Bool := (style? l).isSome && style? l = style? m

def groups (ls : List Line) : List (List Line) := ls.splitBy sameList

/-- The lines of markup for a group: a list if its lines are items. -/
def groupHtml (group : List Line) : List Line :=
  match group.filterMap Item.ofLine? with
  | [] => group
  | first :: others => listLines first.style ((first :: others).map Item.content)

/-- A line by itself that is no item, or items of one style. -/
def IsGroup (group : List Line) : Prop :=
  (∃ l, group = [l] ∧ style? l = none) ∨
    group ≠ [] ∧ ∃ style, ∀ l ∈ group, style? l = some style

/-- Two lists that are neighbours have different styles. -/
def Differ (g h : List Line) : Prop :=
  ∀ l ∈ g, ∀ m ∈ h, style? l = style? m → style? l = none

section Groups

theorem same_list_iff {l m : Line} :
    sameList l m = true ↔ ∃ style, style? l = some style ∧ style? m = some style := by
  rw [sameList, Bool.and_eq_true, decide_eq_true_eq, Option.isSome_iff_exists]
  constructor
  · rintro ⟨⟨style, hl⟩, heq⟩
    exact ⟨style, hl, heq ▸ hl⟩
  · rintro ⟨style, hl, hm⟩
    exact ⟨⟨style, hl⟩, hl.trans hm.symm⟩

theorem style_of_chain {l : Line} {ls : List Line}
    (h : (l :: ls).IsChain fun l m => sameList l m = true) : ∀ m ∈ ls, style? m = style? l := by
  induction ls generalizing l with
  | nil => simp
  | cons m ls ih =>
    rw [List.isChain_cons_cons] at h
    obtain ⟨style, hl, hm⟩ := same_list_iff.mp h.1
    rw [List.forall_mem_cons, hm, hl]
    exact ⟨rfl, fun k hk => (ih h.2 k hk).trans hm⟩

theorem groups_formed (ls : List Line) : ∀ g ∈ groups ls, IsGroup g := by
  intro g hg
  have hne := List.ne_nil_of_mem_splitBy hg
  have hchain := List.isChain_of_mem_splitBy hg
  obtain ⟨l, others, rfl⟩ := List.exists_cons_of_ne_nil hne
  cases hl : style? l with
  | some style =>
    refine Or.inr ⟨hne, style, List.forall_mem_cons.mpr ⟨hl, fun m hm => ?_⟩⟩
    exact (style_of_chain hchain m hm).trans hl
  | none =>
    cases others with
    | nil => exact Or.inl ⟨l, rfl, hl⟩
    | cons m others =>
      obtain ⟨style, hstyle, -⟩ := same_list_iff.mp (List.isChain_cons_cons.mp hchain).1
      rw [hl] at hstyle
      cases hstyle

theorem IsGroup.style_eq {g : List Line} (h : IsGroup g) {l m : Line} (hl : l ∈ g) (hm : m ∈ g) :
    style? l = style? m := by
  obtain ⟨k, rfl, -⟩ | ⟨-, style, hstyle⟩ := h
  · rw [List.mem_singleton.mp hl, List.mem_singleton.mp hm]
  · rw [hstyle l hl, hstyle m hm]

theorem groups_differ (ls : List Line) : (groups ls).IsChain Differ := by
  have hformed := groups_formed ls
  refine (List.isChain_getLast_head_splitBy sameList ls).imp_of_mem_imp fun g h hg hh hend => ?_
  obtain ⟨hgne, hhne, hend⟩ := hend
  intro l hl m hm heq
  have hlast := (hformed g hg).style_eq hl (List.getLast_mem hgne)
  have hfirst := (hformed h hh).style_eq hm (List.head_mem hhne)
  cases hstyle : style? l with
  | none => rfl
  | some style =>
    have hsame : sameList (g.getLast hgne) (h.head hhne) = true :=
      same_list_iff.mpr ⟨style, hlast ▸ hstyle, hfirst ▸ heq ▸ hstyle⟩
    rw [hend] at hsame
    cases hsame

end Groups

section Pieces

def Piece.ofGroup (group : List Line) : Piece :=
  match group.filterMap Item.ofLine? with
  | [] => .text (group.headD [])
  | first :: others => .list first.style ((first :: others).map Item.content)

theorem style_none_iff {l : Line} : style? l = none ↔ Item.ofLine? l = none :=
  Option.map_eq_none_iff

theorem of_group_text {l : Line} (h : style? l = none) :
    Piece.ofLine l = .text l ∧ Piece.ofGroup [l] = .text l := by
  have hl := style_none_iff.mp h
  constructor
  · rw [Piece.ofLine, hl]
  · rw [Piece.ofGroup, List.filterMap_cons_none hl]
    rfl

theorem items_of_style {style : ListStyle} {g : List Line} (h : ∀ l ∈ g, style? l = some style) :
    ∃ contents : List Text,
      g.map Piece.ofLine = contents.map (fun content => .list style [content]) ∧
        g.filterMap Item.ofLine? = contents.map (Item.mk style) := by
  induction g with
  | nil => exact ⟨[], rfl, rfl⟩
  | cons l g ih =>
    rw [List.forall_mem_cons] at h
    obtain ⟨contents, hpieces, hitems⟩ := ih h.2
    obtain ⟨⟨style', content⟩, hitem, rfl⟩ := Option.map_eq_some_iff.mp h.1
    have hpiece : Piece.ofLine l = .list style' [content] := by rw [Piece.ofLine, hitem]
    refine ⟨content :: contents, ?_, ?_⟩
    · rw [List.map_cons, hpieces, hpiece, List.map_cons]
    · rw [List.filterMap_cons_some hitem, hitems, List.map_cons]

theorem of_group_list {style : ListStyle} {g : List Line} (hne : g ≠ [])
    (h : ∀ l ∈ g, style? l = some style) : ∃ contents : List Text, contents ≠ [] ∧
      g.map Piece.ofLine = contents.map (fun content => .list style [content]) ∧
      Piece.ofGroup g = .list style contents ∧
      groupHtml g = listLines style contents := by
  obtain ⟨contents, hpieces, hitems⟩ := items_of_style h
  cases contents with
  | nil => exact absurd (List.map_eq_nil_iff.mp hpieces) hne
  | cons content contents =>
    refine ⟨content :: contents, List.cons_ne_nil _ _, hpieces, ?_, ?_⟩
    · rw [Piece.ofGroup, hitems]
      simp [Function.comp_def]
    · rw [groupHtml, hitems]
      simp [Function.comp_def]

theorem to_html_of_group {g : List Line} (h : IsGroup g) :
    (Piece.ofGroup g).toHtml = groupHtml g := by
  obtain ⟨l, rfl, hl⟩ | ⟨hne, style, hstyle⟩ := h
  · have hitems : [l].filterMap Item.ofLine? = [] :=
      List.filterMap_cons_none (style_none_iff.mp hl)
    rw [(of_group_text hl).2, groupHtml, hitems]
    rfl
  · obtain ⟨contents, -, -, hpiece, hhtml⟩ := of_group_list hne hstyle
    rw [hpiece, hhtml, list_lines_eq]
    rfl

theorem list_ends {style : ListStyle} {g h : List Line} (hg : ∀ l ∈ g, style? l = some style)
    (hne : g ≠ []) (hh : IsGroup h) (hdiffer : Differ g h) (items : List Text) :
    (Piece.list style items).join? (Piece.ofGroup h) = none := by
  obtain ⟨l, rfl, hl⟩ | ⟨hhne, style', hstyle'⟩ := hh
  · rw [(of_group_text hl).2]
    rfl
  · obtain ⟨contents, -, -, hpiece, -⟩ := of_group_list hhne hstyle'
    have hstyles : style ≠ style' := by
      rintro rfl
      obtain ⟨l, hl⟩ := List.exists_mem_of_ne_nil g hne
      obtain ⟨m, hm⟩ := List.exists_mem_of_ne_nil h hhne
      have hnone := hdiffer l hl m hm ((hg l hl).trans (hstyle' m hm).symm)
      rw [hg l hl] at hnone
      cases hnone
    rw [hpiece, Piece.join?, if_neg hstyles]

theorem pieces_flatten {gs : List (List Line)} (h : ∀ g ∈ gs, IsGroup g)
    (hdiffer : gs.IsChain Differ) : pieces gs.flatten = gs.map Piece.ofGroup := by
  induction gs with
  | nil => rfl
  | cons g gs ih =>
    rw [List.forall_mem_cons] at h
    obtain ⟨hends, hchain⟩ := List.isChain_cons.mp hdiffer
    have hrest : joinRuns Piece.join? (gs.flatten.map Piece.ofLine) = gs.map Piece.ofGroup :=
      ih h.2 hchain
    rw [List.flatten_cons, pieces, List.map_append, List.map_cons, ← hrest]
    obtain ⟨l, rfl, hl⟩ | ⟨hne, style, hstyle⟩ := h.1
    · obtain ⟨hline, hgroup⟩ := of_group_text hl
      rw [List.map_singleton, List.singleton_append, hline, hgroup,
        join_runs_cons_lone (lone_text l)]
    · obtain ⟨contents, hcontents, hpieces, hgroup, -⟩ := of_group_list hne hstyle
      have hjoin : ∀ xs ys, (Piece.list style xs).join? (.list style ys) =
          some (.list style (xs ++ ys)) := fun _ _ => if_pos rfl
      rw [hpieces, hgroup]
      refine join_runs_map_append hjoin hcontents fun piece hpiece items => ?_
      rw [hrest, List.head?_map] at hpiece
      obtain ⟨next, hnext, rfl⟩ := Option.map_eq_some_iff.mp hpiece
      exact list_ends hstyle hne (h.2 next (List.mem_of_mem_head? hnext)) (hends next hnext) items

theorem mark_up_groups (x : Text) : markUp x = unlines ((groups (lines x)).flatMap groupHtml) := by
  have hformed := groups_formed (lines x)
  have hpieces : pieces (lines x) = (groups (lines x)).map Piece.ofGroup := by
    rw [← pieces_flatten hformed (groups_differ (lines x)), groups, List.flatten_splitBy]
  rw [markUp, overLines, hpieces, List.flatMap_map]
  exact congrArg unlines (List.flatMap_congr fun g hg => to_html_of_group (hformed g hg))

end Pieces

section Settled

theorem tag_no_item (style : ListStyle) :
    Item.ofLine? (listOpen style) = none ∧ Item.ofLine? (listClose style) = none := by
  cases style <;> decide

theorem text_no_item {ls : List Line} {l : Line} (h : .text l ∈ pieces ls) :
    Item.ofLine? l = none := by
  have hpieces : ∀ piece ∈ pieces ls, ∀ m, piece = .text m → Item.ofLine? m = none := by
    refine forall_mem_join_runs (fun a b c hjoin _ _ m hm => ?_) fun piece hpiece m hm => ?_
    · subst hm
      unfold Piece.join? at hjoin
      split at hjoin
      · rw [Option.ite_none_right_eq_some] at hjoin
        cases hjoin.2
      · cases hjoin
    · obtain ⟨k, -, rfl⟩ := List.mem_map.mp hpiece
      rw [Piece.ofLine] at hm
      split at hm
      · cases hm
      · next hk =>
        cases hm
        exact hk
  exact hpieces _ h l rfl

theorem marked_no_item (ls : List Line) : ∀ l ∈ markUpLines ls, Item.ofLine? l = none := by
  intro l hl
  obtain ⟨piece, hpiece, hl⟩ := List.mem_flatMap.mp hl
  cases piece with
  | text m =>
    rw [List.mem_singleton.mp hl]
    exact text_no_item hpiece
  | list style items =>
    simp only [Piece.toHtml, List.mem_append, List.mem_cons, List.mem_map, List.not_mem_nil,
      or_false] at hl
    rcases hl with (rfl | ⟨item, -, rfl⟩) | rfl
    · exact (tag_no_item style).1
    · exact Item.enclose_no_item _ item
    · exact (tag_no_item style).2

theorem lines_mark_up (x : Text) : lines (markUp x) = markUpLines (lines x) := by
  have hlines : ∀ l ∈ lines x, ∀ c ∈ l, c ≠ '\n' :=
    fun l hl => List.forall_mem_ne'.mpr (newline_not_mem hl)
  have hmarked := mark_up_lines_spelled alphabet_newline_free hlines
  exact lines_unlines (fun l hl => List.forall_mem_ne'.mp (hmarked l hl))
    (mark_up_lines_ne_nil (lines_ne_nil x))

theorem mark_up_of_no_item {x : Text} (h : ∀ l ∈ lines x, Item.ofLine? l = none) :
    markUp x = x := by
  have hline : (lines x).map Piece.ofLine = (lines x).map .text := by
    refine List.map_congr_left fun l hl => ?_
    rw [Piece.ofLine, h l hl]
  have hpieces : pieces (lines x) = (lines x).map .text := by
    rw [pieces, hline]
    exact join_runs_of_lone (List.forall_mem_map.mpr fun l _ => lone_text l)
  have hmarked : (pieces (lines x)).flatMap Piece.toHtml = lines x := by
    rw [hpieces, List.flatMap_map]
    exact List.flatMap_singleton' (lines x)
  rw [markUp, overLines, hmarked, unlines_lines]

end Settled

/-- What becomes of the lines of a text in which lists are marked up. -/
structure Grouped (x : Text) : Prop where
  written : markUp x = unlines ((groups (lines x)).flatMap groupHtml)
  formed : ∀ g ∈ groups (lines x), IsGroup g
  apart : (groups (lines x)).IsChain Differ
  settled : markUp (markUp x) = markUp x

theorem grouped (x : Text) : Grouped x := by
  constructor
  case written => exact mark_up_groups x
  case formed => exact groups_formed (lines x)
  case apart => exact groups_differ (lines x)
  case settled =>
    have hnone := marked_no_item (lines x)
    rw [← lines_mark_up] at hnone
    exact mark_up_of_no_item hnone

/-- Lists are the groups of items of one style, where items are what spells a marker, whitespace and
content. -/
theorem lists_grouped : (∀ x, Grouped x) ∧ ∀ l : Line,
    ((Item.ofLine? l).isSome = true ↔ ∃ style content, Item.Spells style content (trim l)) ∧
      ∀ item, Item.ofLine? l = some item ↔
        Item.Spells item.style item.content (trim l) ∧ trimStart item.content = item.content :=
  ⟨grouped, fun _ => ⟨Item.accepted_iff, fun _ => Item.of_line_iff⟩⟩

end ItemList

end MarkdownPage
