import MarkdownPage.Proofs.Html.CodeBlock
import MarkdownPage.Proofs.Text.Blank
import MarkdownPage.Proofs.Text.Lines
import MarkdownPage.Proofs.Text.Substitute

/-!
Tags in a text. An element is framed by angle brackets, so trimming leaves it alone. Of a text it is
said among which tags those are that its opening angle brackets begin; this is kept when texts are
joined, cut into lines or trimmed, since no tag is cut by that.
-/

namespace MarkdownPage.Html

open Text

theorem enclose_framed (tag content : Text) :
    enclose tag content = '<' :: ((tag ++ '>' :: (content ++ ("</".toList ++ tag))) ++ ['>']) := by
  simp [enclose, openTag, closeTag]

theorem trim_enclose (tag content : Text) : trim (enclose tag content) = enclose tag content := by
  rw [enclose_framed]
  exact trim_framed (by decide) (by decide) _

/-- Every opening angle bracket of the text begins one of the tags. -/
def TagsAmong (tags : List Text) : Text → Prop
  | [] => True
  | c :: t => (c = '<' → ∃ tag ∈ tags, tag <+: c :: t) ∧ TagsAmong tags t

instance decideTagsAmong (tags : List Text) : (t : Text) → Decidable (TagsAmong tags t)
  | [] => inferInstanceAs (Decidable True)
  | c :: t =>
    have := decideTagsAmong tags t
    inferInstanceAs (Decidable ((c = '<' → ∃ tag ∈ tags, tag <+: c :: t) ∧ TagsAmong tags t))

section Among

variable {tags : List Text}

theorem tags_among_plain {t : Text} (h : '<' ∉ t) : TagsAmong tags t := by
  induction t with
  | nil => trivial
  | cons c t ih =>
    rw [List.mem_cons, not_or] at h
    exact ⟨fun hc => absurd hc.symm h.1, ih h.2⟩

theorem TagsAmong.append {s t : Text} (hs : TagsAmong tags s) (ht : TagsAmong tags t) :
    TagsAmong tags (s ++ t) := by
  induction s with
  | nil => exact ht
  | cons c s ih =>
    refine ⟨fun hc => ?_, ih hs.2⟩
    obtain ⟨tag, htag, hprefix⟩ := hs.1 hc
    exact ⟨tag, htag, hprefix.trans (List.prefix_append (c :: s) t)⟩

theorem TagsAmong.flat_map {α : Type} {f : α → Text} {xs : List α}
    (h : ∀ x ∈ xs, TagsAmong tags (f x)) : TagsAmong tags (xs.flatMap f) := by
  induction xs with
  | nil => trivial
  | cons x xs ih =>
    rw [List.forall_mem_cons] at h
    exact h.1.append (ih h.2)

theorem TagsAmong.mono {tags' : List Text} (hsub : tags ⊆ tags') {t : Text}
    (h : TagsAmong tags t) : TagsAmong tags' t := by
  induction t with
  | nil => trivial
  | cons c t ih =>
    refine ⟨fun hc => ?_, ih h.2⟩
    obtain ⟨tag, htag, hprefix⟩ := h.1 hc
    exact ⟨tag, hsub htag, hprefix⟩

theorem TagsAmong.behind {s t : Text} (h : TagsAmong tags (s ++ t)) : TagsAmong tags t := by
  induction s with
  | nil => exact h
  | cons c s ih => exact ih h.2

/-- Where no tag goes on into the text behind, the tags of the text before stand in it whole. -/
theorem TagsAmong.before {s t : Text} (h : TagsAmong tags (s ++ t))
    (hcut : ∀ u v, u ++ v ∈ tags → v <+: t → v = []) : TagsAmong tags s := by
  induction s with
  | nil => trivial
  | cons c s ih =>
    refine ⟨fun hc => ?_, ih h.2⟩
    obtain ⟨tag, htag, hprefix⟩ := h.1 hc
    have hprefix : tag <+: (c :: s) ++ t := hprefix
    rcases List.prefix_or_prefix_of_prefix hprefix (List.prefix_append (c :: s) t) with hp | hp
    · exact ⟨tag, htag, hp⟩
    · obtain ⟨v, rfl⟩ := hp
      have hv := hcut (c :: s) v htag ((List.prefix_append_right_inj _).mp hprefix)
      subst hv
      exact ⟨_, htag, (List.append_nil (c :: s)).symm ▸ List.prefix_rfl⟩

theorem TagsAmong.before_char {s t : Text} {c : Char} (h : TagsAmong tags (s ++ c :: t))
    (hc : ∀ tag ∈ tags, c ∉ tag) : TagsAmong tags s := by
  refine h.before fun u v htag hv => ?_
  cases v with
  | nil => rfl
  | cons d v =>
    obtain rfl := (List.cons_prefix_cons.mp hv).1
    exact absurd (List.mem_append_right u List.mem_cons_self) (hc _ htag)

theorem TagsAmong.line {t : Text} (h : TagsAmong tags t) (hn : ∀ tag ∈ tags, '\n' ∉ tag)
    {l : Line} (hl : l ∈ lines t) : TagsAmong tags l := by
  obtain ⟨before, behind, hlines⟩ := List.append_of_mem hl
  have hbetween := unlines_between before behind (List.cons_ne_nil l [])
  rw [List.append_assoc, List.singleton_append, ← hlines, unlines_lines] at hbetween
  rw [hbetween, List.append_assoc] at h
  have hline : TagsAmong tags (l ++ behind.flatMap ('\n' :: ·)) := by
    have hfree := h.behind
    simpa [unlines] using hfree
  cases behind with
  | nil => simpa using hline
  | cons m behind => exact hline.before_char hn

theorem TagsAmong.trim {t : Text} (h : TagsAmong tags t)
    (hends : ∀ tag ∈ tags, tag.getLast?.all (!isSpace ·)) : TagsAmong tags (trim t) := by
  obtain ⟨lead, hlead⟩ := trim_start_suffix t
  obtain ⟨spaces, hspaces, hall⟩ := trim_end_append_spaces (trimStart t)
  have hstart : TagsAmong tags (trimEnd (trimStart t) ++ spaces) := by
    rw [← hspaces]
    rw [← hlead] at h
    exact h.behind
  refine hstart.before fun u v htag hv => ?_
  cases hlast : v.getLast? with
  | none => exact List.getLast?_eq_none_iff.mp hlast
  | some c =>
    have hspace := hall c (hv.subset (List.mem_of_getLast? hlast))
    have hend := hends _ htag
    simp [List.getLast?_append, hlast, hspace] at hend

theorem TagsAmong.intercalate {d : Char} (hd : d ≠ '<') {ts : List Text}
    (h : ∀ t ∈ ts, TagsAmong tags t) : TagsAmong tags ([d].intercalate ts) := by
  induction ts with
  | nil => trivial
  | cons t ts ih =>
    rw [List.forall_mem_cons] at h
    by_cases hts : ts = []
    · simpa [hts] using h.1
    · rw [List.intercalate_cons_of_ne_nil hts, List.append_assoc]
      exact h.1.append ⟨fun hc => absurd hc hd, ih h.2⟩

/-- The text and the tags differ already before one of them ends. -/
def Apart (tags : List Text) (u : Text) : Prop := ∀ tag ∈ tags, ¬ tag <+: u ∧ ¬ u <+: tag

instance (u : Text) : Decidable (Apart tags u) :=
  inferInstanceAs (Decidable (∀ tag ∈ tags, ¬ tag <+: u ∧ ¬ u <+: tag))

theorem TagsAmong.not_prefix {u t : Text} (h : TagsAmong tags t) (hu : Apart tags ('<' :: u)) :
    ¬ '<' :: u <+: t := by
  intro hprefix
  obtain ⟨rest, rfl⟩ := hprefix
  obtain ⟨tag, htag, hp⟩ := h.1 rfl
  have hu := hu tag htag
  rcases List.prefix_or_prefix_of_prefix hp (List.prefix_append ('<' :: u) rest) with hp | hp
  · exact hu.1 hp
  · exact hu.2 hp

theorem TagsAmong.not_infix {u t : Text} (h : TagsAmong tags t) (hu : Apart tags ('<' :: u)) :
    ¬ '<' :: u <:+: t := by
  rintro ⟨before, behind, rfl⟩
  rw [List.append_assoc] at h
  exact h.behind.not_prefix hu (List.prefix_append _ behind)

theorem TagsAmong.prefix_of_append {s t u v w : Text} (h : TagsAmong tags s)
    (hu : Apart tags ('<' :: u)) (heq : s ++ t = v ++ '<' :: u ++ w) : s <+: v := by
  rw [List.append_assoc] at heq
  rcases List.append_eq_append_iff.mp heq with ⟨x, rfl, -⟩ | ⟨x, rfl, hx⟩
  · exact List.prefix_append s x
  · cases x with
    | nil => simp
    | cons c x =>
      obtain ⟨rfl, -⟩ := List.cons.inj hx
      obtain ⟨tag, htag, hprefix⟩ := h.behind.1 rfl
      have hlonger : tag <+: '<' :: u ++ w := by
        rw [hx]
        exact hprefix.trans (List.prefix_append _ t)
      rcases List.prefix_or_prefix_of_prefix hlonger (List.prefix_append ('<' :: u) w) with hp | hp
      · exact absurd hp (hu tag htag).1
      · exact absurd hp (hu tag htag).2

theorem TagsAmong.attribute_value (e : Escaping) {t : Text} (h : TagsAmong tags t) :
    TagsAmong tags (e.attributeValue t) := by
  cases e with
  | verbatim => exact h
  | escaped => exact tags_among_plain (not_mem_escape not_mem_attribute_entity t)

/-- A rewriting that sees nothing in the tags, and writes only such tags, keeps them. -/
theorem TagsAmong.substitute {rule : Rule}
    (hskip : ∀ tag ∈ tags, ∀ c ∈ tag, ∀ t, rule (c :: t) = none)
    (hhit : ∀ s m, rule s = some m → TagsAmong tags s →
      TagsAmong tags m.replacement ∧ TagsAmong tags m.rest)
    {t : Text} (h : TagsAmong tags t) : TagsAmong tags (Text.substitute rule t) := by
  induction t using scan_induction rule with
  | nil => simpa using h
  | hit c t m hm ih =>
    obtain ⟨hreplacement, hrest⟩ := hhit (c :: t) m hm h
    rw [substitute_some hm]
    exact hreplacement.append (ih hrest)
  | miss c t hm ih =>
    rw [substitute_none hm]
    refine ⟨fun hc => ?_, ih h.2⟩
    obtain ⟨tag, htag, hprefix⟩ := h.1 hc
    cases tag with
    | nil => exact ⟨[], htag, List.nil_prefix⟩
    | cons d tag =>
      obtain ⟨rfl, rest, rfl⟩ := List.cons_prefix_cons.mp hprefix
      have htail := substitute_skip (fun a ha => hskip _ htag a (List.mem_cons_of_mem d ha)) rest
      rw [htail]
      exact ⟨_, htag, List.cons_prefix_cons.mpr ⟨rfl, List.prefix_append tag _⟩⟩

end Among

/-- The tags of a text: what stands between each opening angle bracket and the next closing one. -/
def tagsIn : Text → List Text
  | [] => []
  | c :: t => if c = '<' then t.takeWhile (· ≠ '>') :: tagsIn t else tagsIn t

def TagsClosed : Text → Prop
  | [] => True
  | c :: t => (c = '<' → '>' ∈ t) ∧ TagsClosed t

instance decideTagsClosed : (t : Text) → Decidable (TagsClosed t)
  | [] => inferInstanceAs (Decidable True)
  | c :: t =>
    have := decideTagsClosed t
    inferInstanceAs (Decidable ((c = '<' → '>' ∈ t) ∧ TagsClosed t))

theorem tags_in_plain {t : Text} (h : '<' ∉ t) : tagsIn t = [] := by
  induction t with
  | nil => rfl
  | cons c t ih =>
    rw [List.mem_cons, not_or] at h
    rw [tagsIn, if_neg (Ne.symm h.1), ih h.2]

theorem take_tag_append {t : Text} (h : '>' ∈ t) (u : Text) :
    (t ++ u).takeWhile (· ≠ '>') = t.takeWhile (· ≠ '>') := by
  induction t with
  | nil => cases h
  | cons c t ih =>
    by_cases hc : c = '>'
    · simp [hc]
    · have ht : '>' ∈ t := (List.mem_cons.mp h).resolve_left (Ne.symm hc)
      simp only [List.cons_append, List.takeWhile_cons, ih ht]

theorem tags_in_append {s : Text} (h : TagsClosed s) (t : Text) :
    tagsIn (s ++ t) = tagsIn s ++ tagsIn t := by
  induction s with
  | nil => rfl
  | cons c s ih =>
    rw [List.cons_append, tagsIn, tagsIn, ih h.2]
    by_cases hc : c = '<'
    · rw [if_pos hc, if_pos hc, take_tag_append (h.1 hc), List.cons_append]
    · rw [if_neg hc, if_neg hc]

theorem tags_closed_plain {t : Text} (h : '<' ∉ t) : TagsClosed t := by
  induction t with
  | nil => trivial
  | cons c t ih =>
    rw [List.mem_cons, not_or] at h
    exact ⟨fun hc => absurd hc.symm h.1, ih h.2⟩

theorem tags_in_plain_append {s : Text} (h : '<' ∉ s) (t : Text) : tagsIn (s ++ t) = tagsIn t := by
  rw [tags_in_append (tags_closed_plain h), tags_in_plain h, List.nil_append]

theorem tags_in_tag {tag : Text} (hopen : '<' ∉ tag) (hclose : '>' ∉ tag) (t : Text) :
    tagsIn ('<' :: (tag ++ '>' :: t)) = tag :: tagsIn t := by
  have htag : ∀ c ∈ tag, decide (c ≠ '>') = true := by
    intro c hc
    refine decide_eq_true ?_
    rintro rfl
    exact hclose hc
  have hrest : tagsIn ('>' :: t) = tagsIn t := if_neg (by decide)
  rw [tagsIn, if_pos rfl, List.takeWhile_append_of_pos htag, tags_in_plain_append hopen, hrest]
  simp

def spanTags : List Text :=
  ["<strong>", "</strong>", "<em>", "</em>", "<img src=\"", "<a href=\"", "</a>"].map String.toList

def itemTags : List Text := ["<li>", "</li>"].map String.toList ++ spanTags

theorem list_item_tags_among {content : Text} (h : TagsAmong spanTags content) :
    TagsAmong itemTags (listItem content) := by
  have hopen : TagsAmong itemTags (openTag "li".toList) := by decide
  have hclose : TagsAmong itemTags (closeTag "li".toList) := by decide
  exact (hopen.append (h.mono (List.subset_append_right _ _))).append hclose

end MarkdownPage.Html
