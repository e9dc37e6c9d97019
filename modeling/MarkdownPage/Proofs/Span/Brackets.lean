import Mathlib.Data.List.Chain
import MarkdownPage.Proofs.Html.Entities
import MarkdownPage.Proofs.Span.Inert

/-!
Brackets of images. Escaping leaves the brackets of an attribute as they were written, so links are
looked for in the tags of images as well. None begins there, and the text of none ends there, if the
last bracket of the image is not an opening one and no bracket in its address has a parenthesis
behind it.
-/

namespace MarkdownPage.Span

open Text Html

/-- No parenthesis opens right behind a closing bracket. -/
def Parted (t : Text) : Prop := t.IsChain fun c d => c = ']' → d ≠ '('

instance (t : Text) : Decidable (Parted t) :=
  inferInstanceAs (Decidable (t.IsChain fun c d => c = ']' → d ≠ '('))

def brackets (t : Text) : Text := t.filter fun c => c = '[' || c = ']'

theorem brackets_append (s t : Text) : brackets (s ++ t) = brackets s ++ brackets t :=
  List.filter_append s t

theorem brackets_inert {t : Text} (h : Inert t) : brackets t = [] := by
  apply List.filter_eq_nil_iff.mpr
  intro c hc hbracket
  have hmark : c ∈ marks := by
    rw [Bool.or_eq_true, decide_eq_true_iff, decide_eq_true_iff] at hbracket
    rcases hbracket with rfl | rfl
    · decide
    · decide
  exact h c hc hmark

theorem Parted.behind {t : Text} (h : Parted t) {lead : Text} (hlead : ']' ∉ lead) :
    Parted (lead ++ t) := by
  induction lead with
  | nil => exact h
  | cons c lead ih =>
    rw [List.mem_cons, not_or] at hlead
    rw [List.cons_append, Parted, List.isChain_cons]
    exact ⟨fun d _ hc => absurd hc.symm hlead.1, ih hlead.2⟩

theorem attribute_word (c : Char) : (attributeEntity? c).getD [c] = [c] ∨
    c ∉ marks ∧ ∃ name, (attributeEntity? c).getD [c] = '&' :: name ∧ Inert ('&' :: name) := by
  have hmarks : marks.all (attributeEntity? · |>.isNone) = true := by decide
  rw [List.all_eq_true] at hmarks
  have hletters : Inert ('&' :: ";agmlopqtu".toList) := by decide
  cases h : attributeEntity? c with
  | none => exact Or.inl rfl
  | some word =>
    obtain ⟨name, rfl, hname⟩ := attribute_entity_letters h
    refine Or.inr ⟨?_, name, rfl, ?_⟩
    · intro hc
      have hnone := hmarks c hc
      rw [h] at hnone
      cases hnone
    · intro d hd
      exact hletters d (List.cons_subset_cons '&' hname hd)

theorem encode_cons (c : Char) (t : Text) : encode attributeEntity? (c :: t) =
    (attributeEntity? c).getD [c] ++ encode attributeEntity? t := rfl

theorem brackets_encode (t : Text) : brackets (encode attributeEntity? t) = brackets t := by
  induction t with
  | nil => rfl
  | cons c t ih =>
    have hcons : brackets (c :: t) = brackets [c] ++ brackets t := brackets_append [c] t
    rw [encode_cons, brackets_append, ih, hcons]
    rcases attribute_word c with hword | ⟨hc, name, hword, hname⟩
    · rw [hword]
    · have hinert : Inert [c] := by simpa [Inert] using hc
      rw [hword, brackets_inert hname, brackets_inert hinert]

theorem head_encode {t : Text} (h : (encode attributeEntity? t).head? = some '(') :
    t.head? = some '(' := by
  cases t with
  | nil => cases h
  | cons c t =>
    rw [encode_cons] at h
    rcases attribute_word c with hword | ⟨-, name, hword, -⟩
    · rw [hword] at h
      exact h
    · rw [hword] at h
      cases h

theorem Parted.encode {t : Text} (h : Parted t) : Parted (encode attributeEntity? t) := by
  induction t with
  | nil => exact h
  | cons c t ih =>
    rw [Parted, List.isChain_cons] at h
    rw [encode_cons]
    rcases attribute_word c with hword | ⟨-, name, hword, hname⟩
    · rw [hword, List.singleton_append, Parted, List.isChain_cons]
      refine ⟨?_, ih h.2⟩
      rintro d hd hc rfl
      exact h.1 '(' (head_encode hd) hc rfl
    · rw [hword]
      exact (ih h.2).behind (hname.not_mem (by decide))

theorem brackets_attribute_value (e : Escaping) (t : Text) :
    brackets (e.attributeValue t) = brackets t := by
  cases e with
  | verbatim => rfl
  | escaped =>
    rw [Escaping.attributeValue, escapeAttribute, escape_eq_encode]
    exact brackets_encode t

theorem Parted.attribute_value {t : Text} (h : Parted t) (e : Escaping) :
    Parted (e.attributeValue t) := by
  cases e with
  | verbatim => exact h
  | escaped =>
    rw [Escaping.attributeValue, escapeAttribute, escape_eq_encode]
    exact h.encode

theorem mem_brackets {t : Text} : ']' ∈ brackets t ↔ ']' ∈ t := by
  simp [brackets]

/-- Whatever stands around the text, no link begins in it, and no text of a link ends in it. -/
structure Contained (t : Text) : Prop where
  parted : Parted t
  closed : (brackets t).getLast? ≠ some '['
  last : t.getLast? ≠ some ']'

theorem parted_passed {t rest label more : Text} (ht : Parted t) (hlast : t.getLast? ≠ some ']')
    (h : t ++ rest = label ++ ']' :: '(' :: more) :
    ∃ label', label = t ++ label' ∧ rest = label' ++ ']' :: '(' :: more := by
  rcases List.append_eq_append_iff.mp h with ⟨label', hl, hrest⟩ | ⟨inside, ht', hrest⟩
  · exact ⟨label', hl, hrest⟩
  · -- The label ends in `t`, which is parted, so it ends where `t` does.
    cases inside with
    | nil => exact ⟨[], by simpa using ht'.symm, by simpa using hrest.symm⟩
    | cons c inside =>
      cases inside with
      | nil =>
        obtain ⟨rfl, -⟩ := List.cons.inj hrest
        exact absurd (by simp [ht']) hlast
      | cons d inside =>
        obtain ⟨hc, hrest⟩ := List.cons.inj hrest
        obtain ⟨hd, -⟩ := List.cons.inj hrest
        subst hc hd
        rw [ht', Parted, List.isChain_append_cons_cons] at ht
        exact absurd rfl (ht.2.1 rfl)

theorem last_bracket_open {t : Text} (h : ']' ∉ t) : (brackets ('[' :: t)).getLast? = some '[' := by
  have hne : brackets ('[' :: t) ≠ [] := by simp [brackets]
  have hall : ∀ c ∈ brackets ('[' :: t), c = '[' := by
    intro c hc
    obtain ⟨hmem, hbracket⟩ := List.mem_filter.mp hc
    rcases List.mem_cons.mp hmem with rfl | hmem
    · rfl
    · have hclosing : c ≠ ']' := by
        rintro rfl
        exact h hmem
      simpa [hclosing] using hbracket
  rw [List.getLast?_eq_some_getLast hne, hall _ (List.getLast_mem hne)]

theorem Contained.no_reference {s t : Text} (h : Contained t) (hs : s <:+ t) (hne : s ≠ [])
    (rest : Text) : reference? "[".toList (s ++ rest) = none := by
  obtain ⟨c, s, rfl⟩ := List.exists_cons_of_ne_nil hne
  by_cases hc : c = '['
  · subst hc
    obtain ⟨before, rfl⟩ := hs
    rw [Option.eq_none_iff_forall_ne_some]
    rintro ⟨r, more⟩ hread
    obtain ⟨heq, -, -⟩ := reference?_eq hread
    have hparted : Parted s := (List.IsChain.right_of_append h.parted).tail
    have hlast : s.getLast? ≠ some ']' := by
      intro hlast
      exact h.last (by simp [List.getLast?_cons, hlast])
    have hlabel : s ++ rest = r.label ++ ']' :: '(' :: (r.address ++ ')' :: more) := by
      simpa using heq
    obtain ⟨label', hlabel', -⟩ := parted_passed hparted hlast hlabel
    -- The label goes on behind the text, so the bracket it began with was left open there.
    have hs : ']' ∉ s := by
      intro hs
      exact (reference_stops hread).1 (by simp [hlabel', hs])
    apply h.closed
    rw [brackets_append, List.getLast?_append, last_bracket_open hs]
    rfl
  · exact reference_elsewhere (Ne.symm hc) [] (s ++ rest)

/-- The brackets of an image do not reach out of its tag: the last one, in the order of the tag, is
not an opening one, and behind none in the address does the address of a link begin. -/
structure Reference.Contained (r : Reference) : Prop where
  parted : Parted r.address
  closed : (brackets (r.address ++ r.label)).getLast? ≠ some '['

instance (r : Reference) : Decidable r.Contained :=
  decidable_of_iff (Parted r.address ∧ (brackets (r.address ++ r.label)).getLast? ≠ some '[')
    ⟨fun h => ⟨h.1, h.2⟩, fun h => ⟨h.parted, h.closed⟩⟩

def Reference.toImage (e : Escaping) (r : Reference) : Text := Html.image e r.address r.label

theorem contained_fields {first src between alt last : Text} (hfirst : Inert first)
    (hbetween : Inert between) (hlast : Inert last) (hne : between ≠ []) (hne' : last ≠ [])
    (hsrc : Parted src) (halt : ']' ∉ alt) (hclosed : (brackets (src ++ alt)).getLast? ≠ some '[') :
    Contained (first ++ src ++ between ++ alt ++ last) where
  parted := by
    have hfree {t : Text} (h : Inert t) : ']' ∉ t := h.not_mem (by decide)
    have hend : Parted last := by
      have hnil : Parted [] := List.isChain_nil
      simpa using hnil.behind (hfree hlast)
    have htail : Parted (between ++ (alt ++ last)) := (hend.behind halt).behind (hfree hbetween)
    have hseam : ∀ c ∈ src.getLast?, ∀ d ∈ (between ++ (alt ++ last)).head?, c = ']' → d ≠ '(' := by
      rintro c - d hd - rfl
      rw [List.head?_append_of_ne_nil between hne] at hd
      exact hbetween '(' (List.mem_of_mem_head? hd) (by decide)
    have hfields : Parted (src ++ (between ++ (alt ++ last))) := List.IsChain.append hsrc htail hseam
    simpa using hfields.behind (hfree hfirst)
  closed := by
    simpa [brackets_append, brackets_inert, hfirst, hbetween, hlast] using hclosed
  last := by
    rw [List.getLast?_append_of_ne_nil _ hne']
    intro hmem
    exact hlast ']' (List.mem_of_getLast? hmem) (by decide)

theorem Reference.Contained.to_image {r : Reference} (h : r.Contained) (hlabel : ']' ∉ r.label)
    (e : Escaping) : Span.Contained (r.toImage e) := by
  have hvalue : ']' ∉ e.attributeValue r.label := by
    rw [← mem_brackets, brackets_attribute_value, mem_brackets]
    exact hlabel
  apply contained_fields (by decide) (by decide) (by decide) (by decide) (by decide)
    (h.parted.attribute_value e) hvalue
  rw [brackets_append, brackets_attribute_value, brackets_attribute_value, ← brackets_append]
  exact h.closed

end MarkdownPage.Span
