import MarkdownPage.Proofs.Span.Brackets

/-!
Images among links. Links are read in a text in which images are tags already. Where no link crosses
an image, each tag comes through as it was, in order; and no link crosses one if the brackets of
every image stay in its tag and every address of a link ends before the next image. An image with a
bracket left open can be torn.
-/

namespace MarkdownPage.Span

open Text Html

/-- The texts stand in the last one, in this order and without overlap. -/
def InOrder : List Text → Text → Prop
  | [], _ => True
  | s :: others, t => ∃ before after, t = before ++ s ++ after ∧ InOrder others after

theorem InOrder.behind {ss : List Text} {t : Text} (h : InOrder ss t) (lead : Text) :
    InOrder ss (lead ++ t) := by
  cases ss with
  | nil => trivial
  | cons s ss =>
    obtain ⟨before, after, rfl, hothers⟩ := h
    exact ⟨lead ++ before, after, by simp, hothers⟩

theorem InOrder.append {ss ss' : List Text} {t t' : Text} (h : InOrder ss t) (h' : InOrder ss' t') :
    InOrder (ss ++ ss') (t ++ t') := by
  induction ss generalizing t with
  | nil => exact h'.behind t
  | cons s ss ih =>
    obtain ⟨before, after, rfl, hothers⟩ := h
    exact ⟨before, after ++ t', by simp, ih hothers⟩

/-- What the scan for images meets: characters that it copies, and images. -/
inductive Item where
  | char (c : Char)
  | image (r : Reference)
  deriving DecidableEq

def readImages (t : Text) : List Item :=
  match t with
  | [] => []
  | c :: t =>
    match _h : reference? "![".toList (c :: t) with
    | some (r, rest) => .image r :: readImages rest
    | none => .char c :: readImages t
termination_by t.length
decreasing_by
  · exact reference?_length _h
  · simp

def images : List Item → List Reference
  | [] => []
  | .char _ :: items => images items
  | .image r :: items => r :: images items

def imageTags (e : Escaping) (items : List Item) : List Text :=
  (images items).map (Reference.toImage e)

def Item.toHtml (e : Escaping) : Item → Text
  | char c => [c]
  | image r => r.toImage e

def render (e : Escaping) (items : List Item) : Text := items.flatMap (Item.toHtml e)

theorem read_images_nil : readImages [] = [] := by
  rw [readImages]

theorem read_images_image {c : Char} {t rest : Text} {r : Reference}
    (h : reference? "![".toList (c :: t) = some (r, rest)) :
    readImages (c :: t) = .image r :: readImages rest := by
  rw [readImages]
  split
  · next r' rest' h' =>
    rw [h] at h'
    cases h'
    rfl
  · next h' =>
    rw [h] at h'
    cases h'

theorem read_images_char {c : Char} {t : Text} (h : reference? "![".toList (c :: t) = none) :
    readImages (c :: t) = .char c :: readImages t := by
  rw [readImages]
  split
  · next h' =>
    rw [h] at h'
    cases h'
  · rfl

theorem mark_images_eq (e : Escaping) (t : Text) : markImages e t = render e (readImages t) := by
  let write := fun r : Reference => Html.image e r.address r.label
  have hreplaces := reference_rule_replaces "![".toList write
  rw [markImages]
  induction t using scan_induction (referenceRule "![".toList write) with
  | nil => rw [substitute_nil, read_images_nil, render, List.flatMap_nil]
  | hit c t m hm ih =>
    obtain ⟨r, hread, hwrite⟩ := hreplaces.hit (c :: t) m hm
    rw [substitute_some hm, read_images_image hread, ih, hwrite]
    rfl
  | miss c t hm ih =>
    rw [substitute_none hm, read_images_char (hreplaces.miss (c :: t) hm), ih]
    rfl

theorem label_of_read_image {t : Text} : ∀ r ∈ images (readImages t), ']' ∉ r.label := by
  induction t using readImages.induct with
  | case1 => simp [read_images_nil, images]
  | case2 c t r rest hread ih =>
    rw [read_images_image hread, images, List.forall_mem_cons]
    exact ⟨(reference_stops hread).1, ih⟩
  | case3 c t hread ih =>
    rw [read_images_char hread, images]
    exact ih

theorem images_append (items items' : List Item) :
    images (items ++ items') = images items ++ images items' := by
  induction items with
  | nil => rfl
  | cons item items ih =>
    cases item with
    | char c => exact ih
    | image r => exact congrArg (r :: ·) ih

theorem tags_in_render (e : Escaping) (items : List Item) :
    InOrder (imageTags e items) (render e items) := by
  induction items with
  | nil => trivial
  | cons item items ih =>
    cases item with
    | char c => exact ih.behind [c]
    | image r => exact ⟨[], render e items, rfl, ih⟩

theorem tags_in_link (e : Escaping) (href : Text) (items : List Item) :
    InOrder (imageTags e items) (Html.link e href (render e items)) := by
  have hcontent := (tags_in_render e items).behind ("<a href=\"".toList ++ e.attributeValue href ++
    "\">".toList)
  have hclose : InOrder [] "</a>".toList := trivial
  have hlink := hcontent.append hclose
  rw [List.append_nil] at hlink
  exact hlink

theorem render_cons {e : Escaping} {items : List Item} {c : Char} {rest : Text} (hc : c ≠ '<')
    (h : render e items = c :: rest) : ∃ after, items = .char c :: after ∧ render e after = rest := by
  cases items with
  | nil => cases h
  | cons item items =>
    cases item with
    | char d =>
      obtain ⟨rfl, rfl⟩ := List.cons.inj h
      exact ⟨items, rfl, rfl⟩
    | image r =>
      obtain ⟨hd, -⟩ := List.cons.inj h
      exact absurd hd.symm hc

def endsBeforeImage : List Item → Bool
  | [] => true
  | .image _ :: _ => false
  | .char c :: items => c = ')' || endsBeforeImage items

/-- Behind the beginning of a link: if its address begins at the next closing bracket, it ends
before the next image. -/
def addressApart : List Item → Bool
  | [] => true
  | .char ']' :: .char '(' :: items => endsBeforeImage items
  | .char ']' :: _ => true
  | _ :: items => addressApart items

def linksApart : List Item → Bool
  | [] => true
  | .char '[' :: items => addressApart items && linksApart items
  | _ :: items => linksApart items

theorem links_apart_of_cons {item : Item} {items : List Item}
    (h : linksApart (item :: items)) : linksApart items := by
  unfold linksApart at h
  split at h
  · trivial
  · rw [Bool.and_eq_true] at h
    simp_all
  · simp_all

theorem links_apart_of_append {items items' : List Item} (h : linksApart (items ++ items')) :
    linksApart items' := by
  induction items with
  | nil => exact h
  | cons item items ih => exact ih (links_apart_of_cons h)

theorem address_apart_append {label items : List Item} (hlabel : .char ']' ∉ label) :
    addressApart (label ++ .char ']' :: .char '(' :: items) = endsBeforeImage items := by
  induction label with
  | nil => rfl
  | cons item label ih =>
    rw [List.cons_append, addressApart]
    · exact ih (fun hmem => hlabel (List.mem_cons_of_mem item hmem))
    · rintro _ rfl
      simp at hlabel
    · rintro rfl
      simp at hlabel

theorem render_split_label {e : Escaping} {items : List Item} {label rest : Text}
    (hitems : ∀ r ∈ images items, Contained (r.toImage e))
    (hlabel : ']' ∉ label) (h : render e items = label ++ ']' :: '(' :: rest) :
    ∃ before after, items = before ++ .char ']' :: .char '(' :: after ∧
      render e before = label ∧ render e after = rest := by
  induction items generalizing label with
  | nil => simp [render] at h
  | cons item items ih =>
    have hrender : item.toHtml e ++ render e items = label ++ ']' :: '(' :: rest := h
    cases item with
    | char c =>
      cases label with
      | nil =>
        obtain ⟨rfl, hrest⟩ := List.cons.inj hrender
        obtain ⟨after, rfl, hafter⟩ := render_cons (by decide) hrest
        exact ⟨[], after, rfl, rfl, hafter⟩
      | cons d label =>
        obtain ⟨rfl, hrest⟩ := List.cons.inj hrender
        obtain ⟨before, after, rfl, rfl, hafter⟩ :=
          ih hitems (fun hmem => hlabel (List.mem_cons_of_mem c hmem)) hrest
        exact ⟨.char c :: before, after, rfl, rfl, hafter⟩
    | image r =>
      rw [images, List.forall_mem_cons] at hitems
      obtain ⟨label', rfl, hrest⟩ := parted_passed hitems.1.parted hitems.1.last hrender
      obtain ⟨before, after, rfl, rfl, hafter⟩ :=
        ih hitems.2 (fun hmem => hlabel (List.mem_append_right _ hmem)) hrest
      exact ⟨.image r :: before, after, rfl, rfl, hafter⟩

theorem render_split_address {e : Escaping} {items : List Item} {address rest : Text}
    (hends : endsBeforeImage items) (haddress : ')' ∉ address)
    (h : render e items = address ++ ')' :: rest) :
    ∃ before after, items = before ++ .char ')' :: after ∧ images before = [] ∧
      render e after = rest := by
  induction items generalizing address with
  | nil => simp [render] at h
  | cons item items ih =>
    cases item with
    | image r => cases hends
    | char c =>
      cases address with
      | nil =>
        obtain ⟨rfl, hrest⟩ := List.cons.inj h
        exact ⟨[], items, rfl, rfl, hrest⟩
      | cons d address =>
        obtain ⟨rfl, hrest⟩ := List.cons.inj h
        rw [List.mem_cons, not_or] at haddress
        have hitems : endsBeforeImage items := by
          simpa [endsBeforeImage, Ne.symm haddress.1] using hends
        obtain ⟨before, after, rfl, htags, hafter⟩ := ih hitems haddress.2 hrest
        exact ⟨.char c :: before, after, rfl, htags, hafter⟩

/-- Where a link is read, images stand in its text and behind it, but not in its address. -/
theorem link_around_images {e : Escaping} {items : List Item} {r : Reference} {rest : Text}
    (hitems : ∀ r ∈ images items, Contained (r.toImage e)) (hapart : addressApart items)
    (hread : reference? "[".toList ('[' :: render e items) = some (r, rest)) :
    ∃ label inside behind, items = label ++ inside ++ behind ∧ render e label = r.label ∧
      images inside = [] ∧ render e behind = rest := by
  obtain ⟨hlabel, haddress⟩ := reference_stops hread
  obtain ⟨heq, -, -⟩ := reference?_eq hread
  have hlink : render e items = r.label ++ ']' :: '(' :: (r.address ++ ')' :: rest) := by
    simpa using heq
  obtain ⟨label, after, rfl, hrender, hafter⟩ := render_split_label hitems hlabel hlink
  have hbracket : .char ']' ∉ label := by
    intro hmem
    rw [← hrender] at hlabel
    exact hlabel (List.mem_flatMap.mpr ⟨.char ']', hmem, List.mem_singleton_self ']'⟩)
  rw [address_apart_append hbracket] at hapart
  obtain ⟨address, behind, rfl, himages, hbehind⟩ := render_split_address hapart haddress hafter
  refine ⟨label, .char ']' :: .char '(' :: (address ++ [.char ')']), behind, by simp, hrender, ?_,
    hbehind⟩
  simp [images, images_append, himages]

/-- No link can be read that crosses an image: none begins in one, and one that begins outside has
images in its text only, and whole. -/
structure NoneCrossed (e : Escaping) (items : List Item) : Prop where
  outside : ∀ r after, .image r :: after <:+ items → ∀ s, s <:+ r.toImage e → s ≠ [] →
    reference? "[".toList (s ++ render e after) = none
  around : ∀ after, .char '[' :: after <:+ items → ∀ r rest,
    reference? "[".toList ('[' :: render e after) = some (r, rest) →
      ∃ label inside behind, after = label ++ inside ++ behind ∧ render e label = r.label ∧
        images inside = [] ∧ render e behind = rest

theorem NoneCrossed.suffix {e : Escaping} {items after : List Item} (h : NoneCrossed e items)
    (hafter : after <:+ items) : NoneCrossed e after where
  outside r behind hbehind := h.outside r behind (hbehind.trans hafter)
  around behind hbehind := h.around behind (hbehind.trans hafter)

/-- The brackets of the images stay in their tags, and no address of a link reaches an image. -/
structure ImagesApart (items : List Item) : Prop where
  contained : ∀ r ∈ images items, r.Contained
  links : linksApart items

instance (items : List Item) : Decidable (ImagesApart items) :=
  decidable_of_iff ((∀ r ∈ images items, r.Contained) ∧ linksApart items)
    ⟨fun h => ⟨h.1, h.2⟩, fun h => ⟨h.contained, h.links⟩⟩

theorem none_crossed_of_apart (e : Escaping) {line : Text} (h : ImagesApart (readImages line)) :
    NoneCrossed e (readImages line) := by
  have htags : ∀ r ∈ images (readImages line), Contained (r.toImage e) :=
    fun r hr => (h.contained r hr).to_image (label_of_read_image r hr) e
  constructor
  case outside =>
    rintro r after ⟨before, hitems⟩ s hs hne
    have hr : r ∈ images (readImages line) := by
      simp [← hitems, images_append, images]
    exact (htags r hr).no_reference hs hne (render e after)
  case around =>
    rintro after ⟨before, hitems⟩ r rest hread
    rw [← hitems, images_append, List.forall_mem_append] at htags
    have hlinks := h.links
    rw [← hitems] at hlinks
    have hbracket := links_apart_of_append hlinks
    rw [linksApart, Bool.and_eq_true] at hbracket
    exact link_around_images htags.2 hbracket.1 hread

/-- What the scan for links does at a character: it copies it, or it reads a link that has images
in its text only. -/
theorem mark_links_char {e : Escaping} {c : Char} {items : List Item}
    (h : NoneCrossed e (.char c :: items)) :
    markLinks e (render e (.char c :: items)) = [c] ++ markLinks e (render e items) ∨
      ∃ href label inside behind, items = label ++ inside ++ behind ∧ images inside = [] ∧
        markLinks e (render e (.char c :: items)) =
          Html.link e href (render e label) ++ markLinks e (render e behind) := by
  let write := fun r : Reference => Html.link e r.address r.label
  have hreplaces := reference_rule_replaces "[".toList write
  cases hrule : referenceRule "[".toList write (c :: render e items) with
  | none => exact Or.inl (substitute_none hrule)
  | some m =>
    right
    obtain ⟨r, hread, hwrite⟩ := hreplaces.hit _ m hrule
    have hc : c = '[' := by
      by_contra hc
      have hnone := reference_elsewhere (Ne.symm hc) [] (render e items)
      rw [show ['['] = "[".toList from rfl, hread] at hnone
      cases hnone
    subst hc
    obtain ⟨label, inside, behind, rfl, hlabel, hinside, hbehind⟩ :=
      h.around items List.suffix_rfl r m.rest hread
    refine ⟨r.address, label, inside, behind, rfl, hinside, ?_⟩
    rw [hlabel, hbehind]
    exact (substitute_some hrule).trans (congrArg (· ++ _) hwrite)

theorem mark_links_image {e : Escaping} {r : Reference} {items : List Item}
    (h : NoneCrossed e (.image r :: items)) :
    markLinks e (render e (.image r :: items)) = r.toImage e ++ markLinks e (render e items) := by
  apply substitute_copy
  intro s hs hne
  exact (reference_rule_replaces _ _).rule_none (h.outside r items List.suffix_rfl s hs hne)

theorem tags_in_mark_links {e : Escaping} {items : List Item} (h : NoneCrossed e items) :
    InOrder (imageTags e items) (markLinks e (render e items)) := by
  -- On the length, as the scan goes on behind a link and not at the next item.
  induction hn : items.length using Nat.strongRecOn generalizing items with
  | _ n ih =>
    subst hn
    cases items with
    | nil => trivial
    | cons item items =>
      have hitems := h.suffix (List.suffix_cons item items)
      have htags := ih items.length (by simp) hitems rfl
      cases item with
      | image r => exact ⟨[], _, mark_links_image h, htags⟩
      | char c =>
        rcases mark_links_char h with hmiss | ⟨href, label, inside, behind, rfl, hinside, hhit⟩
        · rw [hmiss]
          exact htags.behind [c]
        · have hbehind := ih behind.length (by simp; omega) (hitems.suffix ⟨label ++ inside, rfl⟩) rfl
          have htags := (tags_in_link e href label).append hbehind
          rw [hhit, imageTags, images, images_append, images_append, hinside, List.append_nil,
            List.map_append]
          exact htags

/-- The images of a line are written as their tags. Where no link crosses an image, the tags stand
unchanged and in order behind the pass for links, and none does where the images are apart. -/
theorem image_tags_kept (e : Escaping) (line : Text) :
    markImages e line = render e (readImages line) ∧
      (ImagesApart (readImages line) → NoneCrossed e (readImages line)) ∧
      (NoneCrossed e (readImages line) →
        InOrder (imageTags e (readImages line)) (markLinks e (markImages e line))) := by
  have hrender := mark_images_eq e line
  refine ⟨hrender, none_crossed_of_apart e, ?_⟩
  intro h
  rw [hrender]
  exact tags_in_mark_links h

/-- Images in the text of a link and between links, one with brackets in its address. -/
theorem image_tags_kept_in_link_text :
    let line := "[![a](b[1].png) c](d) [e](f \"g\") ![h](i) [".toList
    ImagesApart (readImages line) ∧
      InOrder (imageTags .escaped (readImages line)) (markLinks .escaped (markImages .escaped line)) :=
  have hapart : ImagesApart _ := by decide +kernel
  have hkept := (image_tags_kept .escaped _).2
  ⟨hapart, hkept.2 (hkept.1 hapart)⟩

/-- A link begins at the bracket that the text of this image leaves open. -/
theorem not_every_image_tag_kept :
    ¬ ∀ e line, InOrder (imageTags e (readImages line)) (markLinks e (markImages e line)) := by
  intro h
  have htags : imageTags .verbatim (readImages "![a[b](u)](v)".toList) =
      ["<img src=\"u\" alt=\"a[b\">".toList] := by decide +kernel
  have hkept := h .verbatim "![a[b](u)](v)".toList
  rw [htags] at hkept
  obtain ⟨before, after, hout, -⟩ := hkept
  have hinfix : "<img src=\"u\" alt=\"a[b\">".toList <:+:
      markLinks .verbatim (markImages .verbatim "![a[b](u)](v)".toList) := ⟨before, after, hout.symm⟩
  revert hinfix
  decide +kernel

end MarkdownPage.Span
