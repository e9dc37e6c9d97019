import MarkdownPage.Proofs.Html.Tags
import MarkdownPage.Proofs.Span.Inert
import MarkdownPage.Proofs.Text.Filled

/-!
What marking keeps of a text. The tags of spans are the only ones that it writes, and it cuts none.
Its marks and the tags for them all have something on them, so it neither makes nor takes away a
blank line, although an image puts the two parts of a reference in the other order.
-/

namespace MarkdownPage.Span

open Text Html

section Tags

theorem span_tags_inert : ∀ tag ∈ spanTags, Inert tag := by decide

theorem tags_among_part {s t : Text} {c : Char} (hc : c ∈ marks)
    (h : TagsAmong spanTags (s ++ c :: t)) : TagsAmong spanTags s :=
  h.before_char fun tag htag hmem => span_tags_inert tag htag c hmem hc

theorem delimited_tags_among {first : Char} {more : Text} (hmark : first :: more ⊆ marks)
    {wrap : Text → Text}
    (hwrap : ∀ t, TagsAmong spanTags t → TagsAmong spanTags (wrap t))
    {t : Text} (h : TagsAmong spanTags t) :
    TagsAmong spanTags (substitute (delimitedRule (first :: more) wrap) t) := by
  refine h.substitute ?_ ?_
  · intro tag htag c hc
    refine delimited_pass ?_ more wrap
    rintro rfl
    exact span_tags_inert tag htag first hc (hmark List.mem_cons_self)
  · intro s m hm hs
    obtain ⟨content, hspan, hwrite⟩ := (delimited_rule_replaces (first :: more) wrap).hit s m hm
    rw [(delimited?_eq hspan).1] at hs
    have hrest := hs.behind
    rw [List.append_assoc, List.append_assoc] at hs
    rw [hwrite]
    exact ⟨hwrap content (tags_among_part (hmark List.mem_cons_self) hs.behind), hrest⟩

theorem reference_tags_among {first : Char} {more : Text} (hlead : first :: more ⊆ marks)
    {write : Reference → Text}
    (hwrite : ∀ r : Reference, TagsAmong spanTags r.label → TagsAmong spanTags r.address →
      TagsAmong spanTags (write r))
    {t : Text} (h : TagsAmong spanTags t) :
    TagsAmong spanTags (substitute (referenceRule (first :: more) write) t) := by
  refine h.substitute ?_ ?_
  · intro tag htag c hc
    refine reference_pass ?_ more write
    rintro rfl
    exact span_tags_inert tag htag first hc (hlead List.mem_cons_self)
  · intro s m hm hs
    obtain ⟨r, hreference, hreplacement⟩ := (reference_rule_replaces (first :: more) write).hit s m hm
    rw [(reference?_eq hreference).1] at hs
    have hrest := hs.behind
    rw [List.append_assoc, List.append_assoc] at hs
    have haddress := hs.behind
    rw [List.append_assoc, List.append_assoc] at hs
    have hlabel := hs.behind
    rw [hreplacement]
    exact ⟨hwrite r (tags_among_part (by decide) hlabel) (tags_among_part (by decide) haddress),
      hrest⟩

theorem enclose_tags_among {tag : Text} (hopen : TagsAmong spanTags (openTag tag))
    (hclose : TagsAmong spanTags (closeTag tag)) {content : Text}
    (h : TagsAmong spanTags content) : TagsAmong spanTags (enclose tag content) :=
  (hopen.append h).append hclose

theorem image_tags_among (e : Escaping) {src alt : Text} (hsrc : TagsAmong spanTags src)
    (halt : TagsAmong spanTags alt) : TagsAmong spanTags (image e src alt) := by
  have hopen : TagsAmong spanTags "<img src=\"".toList := by decide
  have hbetween : TagsAmong spanTags "\" alt=\"".toList := by decide
  have hclose : TagsAmong spanTags "\">".toList := by decide
  exact (((hopen.append (hsrc.attribute_value e)).append hbetween).append
    (halt.attribute_value e)).append hclose

theorem link_tags_among (e : Escaping) {href content : Text} (hhref : TagsAmong spanTags href)
    (hcontent : TagsAmong spanTags content) : TagsAmong spanTags (link e href content) := by
  have hopen : TagsAmong spanTags "<a href=\"".toList := by decide
  have hbetween : TagsAmong spanTags "\">".toList := by decide
  have hclose : TagsAmong spanTags "</a>".toList := by decide
  exact (((hopen.append (hhref.attribute_value e)).append hbetween).append hcontent).append hclose

theorem mark_all_tags_among (e : Escaping) {t : Text} (h : TagsAmong spanTags t) :
    TagsAmong spanTags (markAll e t) := by
  have hstrong : TagsAmong spanTags (markStrong t) :=
    delimited_tags_among (by decide)
      (fun _ hc => enclose_tags_among (by decide) (by decide) hc) h
  have hemphasis : TagsAmong spanTags (markEmphasis (markStrong t)) :=
    delimited_tags_among (by decide)
      (fun _ hc => enclose_tags_among (by decide) (by decide) hc) hstrong
  have himages : TagsAmong spanTags (markImages e (markEmphasis (markStrong t))) :=
    reference_tags_among (by decide)
      (fun _ hlabel haddress => image_tags_among e haddress hlabel) hemphasis
  exact reference_tags_among (by decide)
    (fun _ hlabel haddress => link_tags_among e haddress hlabel) himages

end Tags

section Filled

theorem fill_entity {c : Char} {t : Text} (h : attributeEntity? c = some t) :
    ∀ filled, fill filled t = fill filled [c] := by
  have hsolid : Solid t ∧ Solid [c] := by
    unfold attributeEntity? textEntity? at h
    split at h
    · cases h
      decide
    · split at h
      all_goals cases h
      all_goals decide
  intro filled
  rw [fill_solid hsolid.1, fill_solid hsolid.2]

theorem fill_field {first last : Text} (hfirst : Solid first) (hlast : Solid last) (filled : Bool)
    (content : Text) :
    fill filled (first ++ content ++ last) = (fill true content).bind fun _ => some true := by
  simp only [List.append_assoc, fill_solid_append hfirst, fill_append, fill_solid hlast]

theorem fill_fields {first between last : Text} (hfirst : Solid first) (hbetween : Solid between)
    (hlast : Solid last) (filled : Bool) (s t : Text) :
    fill filled (first ++ s ++ between ++ t ++ last) =
      (fill true s).bind fun _ => (fill true t).bind fun _ => some true := by
  rw [List.append_assoc, fill_append, fill_field hfirst hbetween, Option.bind_assoc]
  simp only [Option.bind_some, fill_append, fill_solid hlast]

theorem fill_mark_all (e : Escaping) (filled : Bool) (t : Text) :
    fill filled (markAll e t) = fill filled t := by
  have hvalue := attribute_value_related fill_compatible fill_entity e
  refine mark_all_related fill_compatible hvalue ?_ ?_ ?_ ?_ t filled
  · intro content filled
    rw [strong, enclose, fill_field (by decide) (by decide), fill_field (by decide) (by decide)]
  · intro content filled
    rw [emphasis, enclose, fill_field (by decide) (by decide), fill_field (by decide) (by decide)]
  · intro r filled
    unfold image Escaping.attributeValue
    rw [fill_fields (by decide) (by decide) (by decide), fill_fields (by decide) (by decide)
      (by decide)]
    cases fill true r.label <;> cases fill true r.address <;> rfl
  · intro r filled
    unfold link Escaping.attributeValue
    rw [fill_fields (by decide) (by decide) (by decide), fill_fields (by decide) (by decide)
      (by decide)]
    cases fill true r.label <;> cases fill true r.address <;> rfl

theorem mark_all_filled (e : Escaping) {t : Text} (h : ∀ l ∈ lines t, isBlank l = false) :
    ∀ l ∈ lines (markAll e t), isBlank l = false := by
  rw [← fill_iff] at h ⊢
  rwa [fill_mark_all]

end Filled

section Lines

theorem not_starts_with {lead t : Text} (hlead : '<' ∈ lead) (h : '<' ∉ t) :
    startsWith lead t = false := by
  rw [← Bool.not_eq_true, startsWith_iff]
  intro hprefix
  exact h (List.IsPrefix.subset hprefix hlead)

theorem of_line_plain {l : Line} (hbracket : '<' ∉ l) (hframes : Token.Unframed l)
    (hblank : isBlank l = false) : Piece.ofLine l = .prose [l] := by
  have htrim : '<' ∉ trim l := fun hc => hbracket (mem_of_mem_trim hc)
  have htoken : isToken l = false := by
    rw [isToken, Token.of_line_unframed hframes]
    rfl
  have hopened := Block.opened_span (tags_among_plain htrim)
  have hitem : startsWith "<li>".toList (trim l) = false := not_starts_with (by decide) htrim
  have hclose : startsWith "</".toList (trim l) = false := not_starts_with (by decide) htrim
  apply of_line_prose
  simp only [standsAlone, hblank, htoken, hopened, hitem, hclose]
  rfl

theorem of_line_blank {l : Line} (hframes : Token.Unframed l) (hblank : isBlank l = true) :
    Piece.ofLine l = .alone l := by
  refine of_line_alone ?_ ?_
  · rw [isToken, Token.of_line_unframed hframes]
    rfl
  · simp [standsAlone, hblank]

theorem of_line_list_open (style : ListStyle) :
    Piece.ofLine (listOpen style) = .alone (listOpen style) := by
  cases style <;> decide

theorem of_line_list_close (style : ListStyle) :
    Piece.ofLine (listClose style) = .alone (listClose style) := by
  cases style <;> decide

theorem of_line_list_item (content : Text) :
    Piece.ofLine (listItem content) = .alone (listItem content) := by
  refine of_line_alone ?_ ?_
  · rw [isToken, listItem, Token.enclose_no_token]
    rfl
  · have hitem : startsWith "<li>".toList (trim (listItem content)) = true := by
      rw [listItem, trim_enclose, enclose_framed]
      rfl
    rw [standsAlone, hitem, Bool.or_true, Bool.true_or]

theorem mark_all_list_item (e : Escaping) (content : Text) :
    markAll e (listItem content) = listItem (markAll e content) :=
  mark_all_enclose e (by decide) content

theorem mark_all_list_tags (e : Escaping) (style : ListStyle) :
    markAll e (listOpen style) = listOpen style ∧ markAll e (listClose style) = listClose style := by
  have hopen : Inert (listOpen style) := by cases style <;> decide
  have hclose : Inert (listClose style) := by cases style <;> decide
  exact ⟨mark_all_inert e hopen, mark_all_inert e hclose⟩

end Lines

end MarkdownPage.Span
