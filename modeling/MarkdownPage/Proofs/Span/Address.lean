import Mathlib.Data.Bool.AllAny
import MarkdownPage.Proofs.Span.Inert

/-!
Addresses among the passes. The address of a link or an image goes through all four passes before it
is copied into its tag, and each of them makes the text longer where it reads a span. So an address
comes through exactly where none of them reads anything in it.
-/

namespace MarkdownPage.Span

open Text Html

def Reference.source (lead : Text) (r : Reference) : Text :=
  lead ++ r.label ++ "](".toList ++ r.address ++ ")".toList

theorem length_source (lead : Text) (r : Reference) :
    (r.source lead).length = lead.length + r.label.length + r.address.length + 3 := by
  simp [Reference.source]
  omega

section Growth

theorem delimited_unread_or_grows {mark : Text} {wrap : Text → Text} {k : Nat}
    (hwrap : ∀ content,
      mark.length + content.length + mark.length + k ≤ (wrap content).length) (t : Text) :
    (Unread (delimited? mark) t ∧ substitute (delimitedRule mark wrap) t = t) ∨
      t.length + k ≤ (substitute (delimitedRule mark wrap) t).length := by
  refine (delimited_rule_replaces mark wrap).unread_or_grows (fun s content rest hread => ?_) t
  have hgrow := hwrap content
  rw [(delimited?_eq hread).1]
  simp only [List.length_append]
  omega

theorem reference_unread_or_grows {lead : Text} {write : Reference → Text} {k : Nat}
    (hwrite : ∀ r : Reference, (r.source lead).length + k ≤ (write r).length) (t : Text) :
    (Unread (reference? lead) t ∧ substitute (referenceRule lead write) t = t) ∨
      t.length + k ≤ (substitute (referenceRule lead write) t).length := by
  refine (reference_rule_replaces lead write).unread_or_grows (fun s r rest hread => ?_) t
  have hgrow := hwrite r
  have hs : s = r.source lead ++ rest := (reference?_eq hread).1
  rw [hs, List.length_append]
  omega

theorem length_image (src alt : Text) :
    (image .verbatim src alt).length = src.length + alt.length + 19 := by
  unfold image Escaping.attributeValue
  simp
  omega

theorem length_link (href content : Text) :
    (link .verbatim href content).length = href.length + content.length + 15 := by
  unfold link Escaping.attributeValue
  simp
  omega

theorem images_unread_or_grow (t : Text) :
    (Unread (reference? "![".toList) t ∧ markImages .verbatim t = t) ∨
      t.length + 14 ≤ (markImages .verbatim t).length :=
  reference_unread_or_grows (fun r => by rw [length_source, length_image]; simp; omega) t

theorem links_unread_or_grow (t : Text) :
    (Unread (reference? "[".toList) t ∧ markLinks .verbatim t = t) ∨
      t.length + 11 ≤ (markLinks .verbatim t).length :=
  reference_unread_or_grows (fun r => by rw [length_source, length_link]; simp; omega) t

theorem length_mark_links_ge (t : Text) : t.length ≤ (markLinks .verbatim t).length := by
  rcases links_unread_or_grow t with ⟨-, hsame⟩ | hgrown
  · rw [hsame]
  · omega

end Growth

section Emphasis

/-- What the two passes before images and links make of a text. -/
def markStars (t : Text) : Text := markEmphasis (markStrong t)

theorem mark_stars_between {before behind : Text} (hbefore : '*' ∉ before) (hbehind : '*' ∉ behind)
    (t : Text) : markStars (before ++ t ++ behind) = before ++ markStars t ++ behind := by
  have hstrong := delimited_between hbefore hbehind (by decide : "**".toList ≠ []) (by decide)
    strong
  have hemphasis := delimited_between hbefore hbehind (by decide : "*".toList ≠ []) (by decide)
    emphasis
  rw [markStars, markStrong, hstrong, markEmphasis, hemphasis]
  rfl

theorem unread_strong {t : Text} (h : Unread (delimited? "*".toList) t) :
    Unread (delimited? "**".toList) t := by
  rw [unread_iff] at h ⊢
  intro s hs
  rw [Option.eq_none_iff_forall_ne_some]
  rintro ⟨content, rest⟩ hread
  obtain ⟨hspan, hne, hfree⟩ := (@delimited_eq_some_iff ['*'] _ _ _).mp hread
  have hbehind : s = ['*'] ++ '*' :: (content ++ '*' :: '*' :: rest) := by simpa using hspan
  have hnone := h _ (List.IsSuffix.trans ⟨['*'], hbehind.symm⟩ hs)
  rw [emphasis_read hne hfree] at hnone
  cases hnone

theorem mark_stars_unread {t : Text} (h : Unread (delimited? "*".toList) t) : markStars t = t := by
  have hstrong : markStrong t = t :=
    (delimited_rule_replaces "**".toList strong).substitute_unread (unread_strong h)
  rw [markStars, hstrong]
  exact (delimited_rule_replaces "*".toList emphasis).substitute_unread h

theorem length_strong (content : Text) : (strong content).length = content.length + 17 := by
  simp [strong, enclose, openTag, closeTag]

theorem length_emphasis (content : Text) : (emphasis content).length = content.length + 9 := by
  simp [emphasis, enclose, openTag, closeTag]

theorem strong_unread_or_grows (t : Text) :
    (Unread (delimited? "**".toList) t ∧ markStrong t = t) ∨
      t.length + 13 ≤ (markStrong t).length :=
  delimited_unread_or_grows (fun content => by rw [length_strong]; simp; omega) t

theorem stars_unread_or_grow (t : Text) :
    (Unread (delimited? "*".toList) t ∧ markStars t = t) ∨ t.length < (markStars t).length := by
  have hstrong := strong_unread_or_grows t
  have hemphasis (s : Text) : (Unread (delimited? "*".toList) s ∧ markEmphasis s = s) ∨
      s.length + 7 ≤ (markEmphasis s).length :=
    delimited_unread_or_grows (fun content => by rw [length_emphasis]; simp; omega) s
  rw [markStars]
  rcases hstrong with ⟨-, hsame⟩ | hgrown
  · rw [hsame]
    exact (hemphasis t).imp_right fun hgrown => by omega
  · right
    rcases hemphasis (markStrong t) with ⟨-, hsame⟩ | hmore
    · rw [hsame]
      omega
    · omega

theorem mark_stars_spelled {p : Char → Prop} (hp : ∀ c ∈ alphabet, p c) {t : Text}
    (h : ∀ c ∈ t, p c) : ∀ c ∈ markStars t, p c :=
  delimited_spelled (fun _ ht => enclose_spelled hp (by decide) ht)
    (delimited_spelled (fun _ ht => enclose_spelled hp (by decide) ht) h)

end Emphasis

section Reading

theorem unread_skip {first : Char} {x : Text} (h : first ∉ x) (more y : Text) :
    Unread (reference? (first :: more)) (x ++ y) ↔ Unread (reference? (first :: more)) y := by
  induction x with
  | nil => rfl
  | cons c x ih =>
    rw [List.mem_cons, not_or] at h
    rw [List.cons_append, unread_cons, ih h.2]
    exact and_iff_right (reference_elsewhere h.1 more (x ++ y))

theorem substitute_source {first : Char} {more : Text} {write : Reference → Text} {r : Reference}
    (hlabel : ']' ∉ r.label) (hne : r.label ≠ []) (haddress : ')' ∉ r.address)
    (hne' : r.address ≠ []) :
    substitute (referenceRule (first :: more) write) (r.source (first :: more)) = write r := by
  have hfield : field? ')' ")".toList (r.address ++ ")".toList) = some (r.address, []) := by
    have hread := field_read haddress hne' [] []
    rwa [List.append_nil] at hread
  have hread := reference_read hlabel hne (first :: more) (r.address ++ ")".toList)
  rw [hfield, Option.map_some, ← List.append_assoc] at hread
  obtain ⟨m, hm, hrest, hwrite⟩ := (reference_rule_replaces (first :: more) write).rule_some hread
  have hsub := substitute_some hm
  rw [hwrite, hrest, substitute_nil, List.append_nil] at hsub
  exact hsub

/-- The text of a link that begins here, and what follows as its address. -/
def linkText? (s : Text) : Option (Text × Text) :=
  (dropPrefix? "[".toList s).bind (field? ']' "](".toList)

theorem reference_eq_link_text (s : Text) : reference? "[".toList s =
    (linkText? s).bind fun (label, s) =>
      (field? ')' ")".toList s).map fun (address, rest) => (⟨label, address⟩, rest) := by
  rw [reference_eq_fields, linkText?, Option.bind_assoc]

theorem link_text_append {tail : Text} (hhead : ∀ c ∈ tail.head?, c ∉ "[](".toList)
    (hfree : ']' ∉ tail) (s : Text) :
    linkText? (s ++ tail) = (linkText? s).map fun (label, rest) => (label, rest ++ tail) := by
  have hlead : ∀ c ∈ tail.head?, c ∉ "[".toList := fun c hc hmem =>
    hhead c hc ((by decide : "[".toList ⊆ "[](".toList) hmem)
  have hclose : ∀ c ∈ tail.head?, c ∉ "](".toList := fun c hc hmem =>
    hhead c hc ((by decide : "](".toList ⊆ "[](".toList) hmem)
  rw [linkText?, linkText?, drop_prefix_append_apart hlead]
  cases dropPrefix? "[".toList s with
  | none => rfl
  | some s => exact field_append (by decide) hclose hfree s

theorem link_text_eq {s label rest : Text} (h : linkText? s = some (label, rest)) : rest <:+ s := by
  obtain ⟨inner, hinner, hfield⟩ := Option.bind_eq_some_iff.mp h
  rw [dropPrefix?_eq_some_iff.mp hinner, (field?_eq hfield).1]
  exact ⟨"[".toList ++ (label ++ "](".toList), by simp⟩

/-- In front of a text that closes an address a link begins where the text of one does. -/
theorem reference_before {s tail : Text} (hs : ')' ∉ s) (hfree : ']' ∉ tail)
    (hhead : ∀ c ∈ tail.head?, c ∉ "[]()".toList) :
    reference? "[".toList (s ++ tail) = none ↔ (')' ∈ tail → linkText? s = none) := by
  have happend := link_text_append (fun c hc hmem =>
    hhead c hc ((by decide : "[](".toList ⊆ "[]()".toList) hmem)) hfree s
  rw [reference_eq_link_text, happend]
  cases hread : linkText? s with
  | none => simp
  | some found =>
    obtain ⟨label, rest⟩ := found
    have hrest : ')' ∉ rest := fun hmem => hs ((link_text_eq hread).subset hmem)
    have hfirst : (rest ++ tail).head? ≠ some ')' := by
      intro hfirst
      rw [List.head?_append, Option.or_eq_some_iff] at hfirst
      rcases hfirst with hfirst | ⟨-, hfirst⟩
      · exact hrest (List.mem_of_head? hfirst)
      · exact hhead ')' hfirst (by decide)
    have hfield := field_none_iff hfirst
    simp [hfield, hrest]

/-- What the tag of an image has behind the address. -/
def imageTail (label : Text) : Text := "\" alt=\"".toList ++ label ++ "\">".toList

theorem image_eq (address label : Text) :
    image .verbatim address label = "<img src=\"".toList ++ (address ++ imageTail label) := by
  unfold image Escaping.attributeValue imageTail
  simp only [List.append_assoc]

theorem mem_image_tail {c : Char} (hfirst : c ∉ "\" alt=\"".toList) (hlast : c ∉ "\">".toList)
    (label : Text) : c ∈ imageTail label ↔ c ∈ label := by
  constructor
  · intro hc
    rcases List.mem_append.mp hc with hc | hc
    · exact (List.mem_append.mp hc).resolve_left hfirst
    · exact absurd hc hlast
  · intro hc
    exact List.mem_append_left _ (List.mem_append_right _ hc)

/-- In the tag of an image a link is read only across its two attributes. -/
theorem unread_image {label address : Text} (hlabel : ∀ c ∈ label, c ∉ "[]".toList)
    (haddress : ')' ∉ address) :
    Unread (reference? "[".toList) (image .verbatim address label) ↔
      (')' ∈ label → Unread linkText? address) := by
  let tail := imageTail label
  have hopen : '[' ∉ tail := fun hmem =>
    hlabel '[' ((mem_image_tail (by decide) (by decide) label).mp hmem) (by decide)
  have hclose : ']' ∉ tail := fun hmem =>
    hlabel ']' ((mem_image_tail (by decide) (by decide) label).mp hmem) (by decide)
  have hunread : Unread (reference? "[".toList) tail := by
    have hskip := (unread_skip hopen [] []).mpr (by decide)
    rwa [List.append_nil] at hskip
  have hquote : ∀ c ∈ tail.head?, c ∉ "[]()".toList := by
    rintro c ⟨⟩
    decide
  have hbefore {s : Text} (hs : s <:+ address) :
      reference? "[".toList (s ++ tail) = none ↔ (')' ∈ label → linkText? s = none) := by
    rw [← mem_image_tail (by decide) (by decide) label]
    exact reference_before (fun hmem => haddress (hs.subset hmem)) hclose hquote
  have hempty : linkText? [] = none := rfl
  rw [image_eq, show "[".toList = ['['] from rfl, unread_skip (by decide), unread_append]
  constructor
  · rintro ⟨hread, -⟩ hmem
    refine unread_iff.mpr fun s hs => ?_
    by_cases hne : s = []
    · rw [hne, hempty]
    · exact (hbefore hs).mp (hread s hs hne) hmem
  · intro hread
    exact ⟨fun s hs _ => (hbefore hs).mpr fun hmem => unread_iff.mp (hread hmem) s hs, hunread⟩

end Reading

section Kept

/-- A reference in one line, in whose text no pass reads anything. -/
structure Reference.Simple (r : Reference) : Prop where
  label_ne : r.label ≠ []
  label_plain : ∀ c ∈ r.label, c ∉ "[]*!\n".toList
  address_ne : r.address ≠ []
  address_open : ')' ∉ r.address
  address_line : '\n' ∉ r.address

def Reference.starred (r : Reference) : Reference := ⟨r.label, markStars r.address⟩

theorem starred_kept_or_longer (r : Reference) :
    (Unread (delimited? "*".toList) r.address ∧ r.starred.address = r.address) ∨
      r.address.length < r.starred.address.length :=
  stars_unread_or_grow r.address

theorem length_starred_ge (r : Reference) : r.address.length ≤ r.starred.address.length := by
  rcases starred_kept_or_longer r with ⟨-, hsame⟩ | hlonger
  · rw [hsame]
  · exact Nat.le_of_lt hlonger

variable {r : Reference} (h : r.Simple)

include h

theorem Reference.Simple.label_free {c : Char} (hc : c ∈ "[]*!\n".toList) : c ∉ r.label :=
  fun hmem => h.label_plain c hmem hc

theorem Reference.Simple.starred_address : ')' ∉ r.starred.address ∧ r.starred.address ≠ [] := by
  constructor
  · have halphabet : ∀ c ∈ alphabet, c ≠ ')' := List.forall_mem_ne'.mpr (by decide)
    have haddress : ∀ c ∈ r.address, c ≠ ')' := List.forall_mem_ne'.mpr h.address_open
    exact List.forall_mem_ne'.mp (mark_stars_spelled halphabet haddress)
  · have hpos := List.length_pos_iff.mpr h.address_ne
    exact List.length_pos_iff.mp (Nat.lt_of_lt_of_le hpos (length_starred_ge r))

theorem Reference.Simple.mark_up {c : Char} {more : Text} (hlead : Token.frameStart ≠ c)
    (hline : '\n' ∉ c :: more) (hstar : '*' ∉ c :: more) (e : Escaping) :
    markUp e (r.source (c :: more)) =
      markLinks e (markImages e (r.starred.source (c :: more))) := by
  have hnewline : '\n' ∉ r.source (c :: more) := by
    simp only [Reference.source, List.mem_append, not_or]
    exact ⟨⟨⟨⟨hline, h.label_free (by decide)⟩, by decide⟩, h.address_line⟩, by decide⟩
  have htoken : isToken (r.source (c :: more)) = false := by
    have hnone : Token.ofLine? (r.source (c :: more)) = none := by
      rw [Reference.source, List.cons_append, List.cons_append, List.cons_append, List.cons_append,
        Token.ofLine?, dropPrefix?_cons_ne hlead]
      rfl
    rw [isToken, hnone]
    rfl
  have hbefore : '*' ∉ c :: more ++ r.label ++ "](".toList := by
    simp only [List.mem_append, not_or]
    exact ⟨⟨hstar, h.label_free (by decide)⟩, by decide⟩
  have hstars := mark_stars_between hbefore (by decide : '*' ∉ ")".toList) r.address
  have hsource : markStars (r.source (c :: more)) = r.starred.source (c :: more) := hstars
  rw [mark_up_line e hnewline htoken, ← hsource]
  rfl

theorem link_kept_iff :
    markUp .verbatim (r.source "[".toList) = link .verbatim r.address r.label ↔
      Unread (delimited? "*".toList) r.address ∧
        Unread (reference? "![".toList) (r.address ++ ")".toList) := by
  let marked := r.starred.source "[".toList
  have hpasses : markUp .verbatim (r.source "[".toList) =
      markLinks .verbatim (markImages .verbatim marked) :=
    h.mark_up (by decide) (by decide) (by decide) .verbatim
  have hlink : markLinks .verbatim marked = link .verbatim r.starred.address r.label :=
    substitute_source (h.label_free (by decide)) h.label_ne h.starred_address.1 h.starred_address.2
  have himages : Unread (reference? "![".toList) marked ↔
      Unread (reference? "![".toList) (r.starred.address ++ ")".toList) := by
    have hskip : '!' ∉ "[".toList ++ r.label ++ "](".toList := by
      simp only [List.mem_append, not_or]
      exact ⟨⟨by decide, h.label_free (by decide)⟩, by decide⟩
    have hmarked : marked =
        "[".toList ++ r.label ++ "](".toList ++ (r.starred.address ++ ")".toList) :=
      List.append_assoc _ _ _
    rw [hmarked]
    exact unread_skip hskip ['['] _
  rw [hpasses]
  constructor
  · intro hout
    have hlength := congrArg List.length hout
    rw [length_link] at hlength
    have hsource : marked.length = 1 + r.label.length + r.starred.address.length + 3 :=
      length_source "[".toList r.starred
    -- A span read on the way would leave more characters than the link has.
    rcases images_unread_or_grow marked with ⟨hunread, hkept⟩ | hgrown
    · rw [hkept, hlink, length_link] at hlength
      rcases starred_kept_or_longer r with ⟨hstars, hsame⟩ | hlonger
      · rw [himages, hsame] at hunread
        exact ⟨hstars, hunread⟩
      · omega
    · have hstarred := length_starred_ge r
      have hlinks := length_mark_links_ge (markImages .verbatim marked)
      omega
  · rintro ⟨hstars, hunread⟩
    have hsame : r.starred.address = r.address := mark_stars_unread hstars
    rw [← hsame, ← himages] at hunread
    have hkept : markImages .verbatim marked = marked :=
      (reference_rule_replaces _ _).substitute_unread hunread
    rw [hkept, hlink, hsame]

theorem image_kept_iff :
    markUp .verbatim (r.source "![".toList) = image .verbatim r.address r.label ↔
      Unread (delimited? "*".toList) r.address ∧ (')' ∈ r.label → Unread linkText? r.address) := by
  have himage : markImages .verbatim (r.starred.source "![".toList) =
      image .verbatim r.starred.address r.label :=
    substitute_source (h.label_free (by decide)) h.label_ne h.starred_address.1 h.starred_address.2
  have hpasses : markUp .verbatim (r.source "![".toList) =
      markLinks .verbatim (image .verbatim r.starred.address r.label) :=
    (h.mark_up (by decide) (by decide) (by decide) .verbatim).trans
      (congrArg (markLinks .verbatim) himage)
  have hbrackets : ∀ c ∈ r.label, c ∉ "[]".toList := fun c hc hmem =>
    h.label_plain c hc ((by decide : "[]".toList ⊆ "[]*!\n".toList) hmem)
  rw [hpasses, ← unread_image hbrackets h.address_open]
  constructor
  · intro hout
    have hlength := congrArg List.length hout
    rw [length_image] at hlength
    have htag := length_image r.starred.address r.label
    rcases links_unread_or_grow (image .verbatim r.starred.address r.label) with
      ⟨hunread, hkept⟩ | hgrown
    · rw [hkept] at hlength
      rcases starred_kept_or_longer r with ⟨hstars, hsame⟩ | hlonger
      · rw [hsame] at hunread
        exact ⟨hstars, hunread⟩
      · omega
    · have hstarred := length_starred_ge r
      omega
  · rintro ⟨hstars, hunread⟩
    have hsame : r.starred.address = r.address := mark_stars_unread hstars
    rw [hsame]
    exact (reference_rule_replaces _ _).substitute_unread hunread

end Kept

/-- A link and an image have their address as it was written exactly where no emphasised span is
read in it, for a link no image that its parenthesis closes, and for an image no text of a link if
the text of the image closes the address. -/
theorem addresses_kept_iff {r : Reference} (h : r.Simple) :
    (markUp .verbatim (r.source "[".toList) = link .verbatim r.address r.label ↔
      Unread (delimited? "*".toList) r.address ∧
        Unread (reference? "![".toList) (r.address ++ ")".toList)) ∧
    (markUp .verbatim (r.source "![".toList) = image .verbatim r.address r.label ↔
      Unread (delimited? "*".toList) r.address ∧ (')' ∈ r.label → Unread linkText? r.address)) :=
  ⟨link_kept_iff h, image_kept_iff h⟩

/-- Asterisks with nothing between them, and brackets that begin neither image nor link. -/
theorem addresses_kept_with_marks :
    let r : Reference := ⟨"a (b)".toList, "/s?q=**&r[]=[1]!(c".toList⟩
    markUp .verbatim "[a (b)](/s?q=**&r[]=[1]!(c)".toList = link .verbatim r.address r.label ∧
      markUp .verbatim "![a (b)](/s?q=**&r[]=[1]!(c)".toList = image .verbatim r.address r.label :=
  have hsimple : Reference.Simple ⟨"a (b)".toList, "/s?q=**&r[]=[1]!(c".toList⟩ :=
    ⟨by decide, List.all_iff_forall_prop.mp (by decide), by decide, by decide, by decide⟩
  ⟨(addresses_kept_iff hsimple).1.mpr (by decide +kernel),
    (addresses_kept_iff hsimple).2.mpr (by decide +kernel)⟩

/-- The asterisks of this address are taken for a span. -/
theorem not_every_address_kept :
    ¬ ∀ r : Reference, r.Simple →
      markUp .verbatim (r.source "[".toList) = link .verbatim r.address r.label ∧
        markUp .verbatim (r.source "![".toList) = image .verbatim r.address r.label := by
  intro hkept
  have hlink := (hkept ⟨"t".toList, "a*b*c".toList⟩
    ⟨by decide, List.all_iff_forall_prop.mp (by decide), by decide, by decide, by decide⟩).1
  revert hlink
  decide +kernel

end MarkdownPage.Span
