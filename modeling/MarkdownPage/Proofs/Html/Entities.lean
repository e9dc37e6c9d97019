import MarkdownPage.Html.Piece
import MarkdownPage.Proofs.Html.CodeBlock
import MarkdownPage.Text.Affix

/-!
Entities. Escaped text holds no character that has an entity, except for the ampersands that begin
one. Reading the entities gives back the text that was escaped, so no two texts are escaped alike.
None of this depends on who encodes the texts that need an entity, or on what was written before.
-/

namespace MarkdownPage.Html

/-- Entities are read from the left, and each once; all else stands for itself. -/
def unescape : Text → Text
  | [] => []
  | '&' :: 'a' :: 'm' :: 'p' :: ';' :: t => '&' :: unescape t
  | '&' :: 'l' :: 't' :: ';' :: t => '<' :: unescape t
  | '&' :: 'g' :: 't' :: ';' :: t => '>' :: unescape t
  | '&' :: 'q' :: 'u' :: 'o' :: 't' :: ';' :: t => '"' :: unescape t
  | c :: t => c :: unescape t

theorem unescape_other {c : Char} (h : c ≠ '&') (t : Text) :
    unescape (c :: t) = c :: unescape t := by
  rw [unescape]
  all_goals
    intros
    exact absurd ‹_› h

theorem unescape_entity {c : Char} {s : Text} (h : attributeEntity? c = some s) (t : Text) :
    unescape (s ++ t) = c :: unescape t := by
  unfold attributeEntity? textEntity? at h
  split at h
  · cases h
    rfl
  · split at h
    all_goals cases h
    all_goals rfl

/-- Some of the entities of attribute values, that of the ampersand among them. -/
structure Entities (entity? : Char → Option Text) : Prop where
  some_of : ∀ c s, entity? c = some s → attributeEntity? c = some s
  ampersand : (entity? '&').isSome

theorem text_entities : Entities textEntity? where
  some_of c s h := by
    by_cases hc : c = '"'
    · subst hc
      cases h
    · rw [← h, attributeEntity?]
      exact hc
  ampersand := rfl

theorem attribute_entities : Entities attributeEntity? where
  some_of _ _ h := h
  ampersand := rfl

theorem text_reserved : ∀ c ∈ "<>".toList, (textEntity? c).isSome ∧ c ≠ '&' := by
  simp [textEntity?]

theorem attribute_reserved : ∀ c ∈ "\"<>".toList, (attributeEntity? c).isSome ∧ c ≠ '&' := by
  simp [attributeEntity?, textEntity?]

theorem attribute_entity_letters {c : Char} {s : Text} (h : attributeEntity? c = some s) :
    ∃ name, s = '&' :: name ∧ name ⊆ ";agmlopqtu".toList := by
  unfold attributeEntity? textEntity? at h
  split at h
  · cases h
    exact ⟨"quot;".toList, rfl, by decide⟩
  · split at h
    · cases h
      exact ⟨"amp;".toList, rfl, by decide⟩
    · cases h
      exact ⟨"lt;".toList, rfl, by decide⟩
    · cases h
      exact ⟨"gt;".toList, rfl, by decide⟩
    · cases h

section Escaped

variable {entity? : Char → Option Text} (he : Entities entity?)

include he

theorem unescape_escape (t : Text) : unescape (escape entity? t) = t := by
  rw [escape_eq_encode]
  induction t with
  | nil => rfl
  | cons c t ih =>
    have hcons : encode entity? (c :: t) = (entity? c).getD [c] ++ encode entity? t := rfl
    rw [hcons]
    cases hc : entity? c with
    | some s => rw [Option.getD_some, unescape_entity (he.some_of c s hc), ih]
    | none =>
      have hother : c ≠ '&' := by
        rintro rfl
        have hsome := he.ampersand
        rw [hc] at hsome
        cases hsome
      rw [Option.getD_none, List.singleton_append, unescape_other hother, ih]

theorem escape_injective : Function.Injective (escape entity?) := by
  intro s t h
  rw [← unescape_escape he s, h, unescape_escape he t]

theorem escape_free {d : Char} (hd : (entity? d).isSome) (hne : d ≠ '&') (t : Text) :
    d ∉ escape entity? t := by
  have hletters : ";agmlopqtu".toList.all (attributeEntity? · |>.isNone) = true := by decide
  rw [List.all_eq_true] at hletters
  apply not_mem_escape
  intro c hmem
  cases hc : entity? c with
  | some s =>
    obtain ⟨name, rfl, hname⟩ := attribute_entity_letters (he.some_of c s hc)
    rw [hc, Option.getD_some, List.mem_cons] at hmem
    have hnone := hletters d (hname (hmem.resolve_left hne))
    obtain ⟨s', hs'⟩ := Option.isSome_iff_exists.mp hd
    rw [he.some_of d s' hs'] at hnone
    cases hnone
  | none =>
    rw [hc, Option.getD_none, List.mem_singleton] at hmem
    subst hmem
    rw [hc] at hd
    cases hd

theorem ampersand_begins_entity {t rest : Text} (h : '&' :: rest <:+ escape entity? t) :
    ∃ c w, entity? c = some w ∧ w <+: '&' :: rest := by
  rw [escape_eq_encode] at h
  induction t with
  | nil => cases List.suffix_nil.mp h
  | cons c t ih =>
    have hcons : encode entity? (c :: t) = (entity? c).getD [c] ++ encode entity? t := rfl
    rw [hcons] at h
    cases hc : entity? c with
    | none =>
      have hother : '&' ∉ [c] := by
        intro hmem
        have hsome := he.ampersand
        rw [List.mem_singleton.mp hmem, hc] at hsome
        cases hsome
      rw [hc, Option.getD_none] at h
      exact ih (Text.suffix_behind hother h)
    | some w =>
      obtain ⟨name, rfl, hname⟩ := attribute_entity_letters (he.some_of c w hc)
      have hfree : '&' ∉ name := fun hmem => absurd (hname hmem) (by decide)
      rw [hc, Option.getD_some, List.cons_append] at h
      rcases List.suffix_cons_iff.mp h with heq | h
      · -- Only the first character of an entity is an ampersand.
        refine ⟨c, '&' :: name, hc, ?_⟩
        rw [heq]
        exact List.prefix_append ('&' :: name) _
      · exact ih (Text.suffix_behind hfree h)

end Escaped

section Appended

/-- An encoder, of whatever make, that writes its entity for a character that has one, and leaves
every other character. -/
structure Encodes (entity? : Char → Option Text) (encoder : Text → Text) : Prop where
  nil : encoder [] = []
  cons : ∀ c t, encoder (c :: t) = (entity? c).getD [c] ++ encoder t

variable {entity? : Char → Option Text} {encoder : Text → Text}

theorem encode_encodes (entity? : Char → Option Text) : Encodes entity? (encode entity?) where
  nil := rfl
  cons _ _ := rfl

theorem Encodes.eq_encode (h : Encodes entity? encoder) (t : Text) :
    encoder t = encode entity? t := by
  induction t with
  | nil => exact h.nil
  | cons c t ih =>
    rw [h.cons, ih]
    rfl

/-- Escaping behind what a buffer holds. Only a text that needs an entity goes through the
encoder. -/
def appendEscaped (entity? : Char → Option Text) (encoder : Text → Text) (buffer t : Text) : Text :=
  if needsEntity entity? t then buffer ++ encoder t else buffer ++ t

theorem append_escaped_eq (h : Encodes entity? encoder) (buffer t : Text) :
    appendEscaped entity? encoder buffer t = buffer ++ escape entity? t := by
  rw [appendEscaped, escape, h.eq_encode]
  split
  · rfl
  · rfl

theorem render_escaped_text (ps : List Piece) (t : Text) :
    render (ps ++ [.text .escaped t]) = render ps ++ escapeText t := by
  rw [render_append]
  exact congrArg (render ps ++ ·) (List.append_nil _)

theorem render_escaped_attribute (ps : List Piece) (t : Text) :
    render (ps ++ [.attributeValue .escaped t]) = render ps ++ escapeAttribute t := by
  rw [render_append]
  exact congrArg (render ps ++ ·) (List.append_nil _)

/-- What can be said of an escaping by entities that keeps the reserved characters out. -/
structure Reversible (entity? : Char → Option Text) (reserved : Text) (escaped : Text → Text) :
    Prop where
  encoded : ∀ t, escaped t = encode entity? t
  free : ∀ t, ∀ c ∈ reserved, c ∉ escaped t
  ampersands : ∀ t rest, '&' :: rest <:+ escaped t → ∃ c w, entity? c = some w ∧ w <+: '&' :: rest
  decoded : ∀ t, unescape (escaped t) = t
  injective : Function.Injective escaped

theorem reversible_escape (he : Entities entity?) {reserved : Text}
    (hreserved : ∀ c ∈ reserved, (entity? c).isSome ∧ c ≠ '&') :
    Reversible entity? reserved (escape entity?) where
  encoded := escape_eq_encode entity?
  free t c hc := escape_free he (hreserved c hc).1 (hreserved c hc).2 t
  ampersands _ _ h := ampersand_begins_entity he h
  decoded := unescape_escape he
  injective := escape_injective he

/-- Text and attribute values are escaped by entities that can be read back, behind whatever has been
written and with whatever encoder, and whether or not it is asked. -/
theorem escaping_reversible {encodeText encodeAttribute : Text → Text}
    (htext : Encodes textEntity? encodeText)
    (hattribute : Encodes attributeEntity? encodeAttribute) :
    Reversible textEntity? "<>".toList escapeText ∧
    Reversible attributeEntity? "\"<>".toList escapeAttribute ∧
    (∀ buffer t, appendEscaped textEntity? encodeText buffer t = buffer ++ escapeText t ∧
      appendEscaped attributeEntity? encodeAttribute buffer t = buffer ++ escapeAttribute t) ∧
    ∀ ps t, render (ps ++ [.text .escaped t]) = render ps ++ escapeText t ∧
      render (ps ++ [.attributeValue .escaped t]) = render ps ++ escapeAttribute t := by
  refine ⟨reversible_escape text_entities text_reserved,
    reversible_escape attribute_entities attribute_reserved, fun buffer t => ?_, fun ps t => ?_⟩
  · exact ⟨append_escaped_eq htext buffer t, append_escaped_eq hattribute buffer t⟩
  · exact ⟨render_escaped_text ps t, render_escaped_attribute ps t⟩

/-- A value that spells entities, one of them in part. -/
theorem escaping_reversible_entities :
    appendEscaped textEntity? (encode textEntity?) "<p>".toList "&lt;b>".toList =
        "<p>&amp;lt;b&gt;".toList ∧
      appendEscaped attributeEntity? (encode attributeEntity?) "<a href=\"".toList
          "?a&quot\"&amp;".toList = "<a href=\"?a&amp;quot&quot;&amp;amp;".toList ∧
      unescape "?a&amp;quot&quot;&amp;amp;".toList = "?a&quot\"&amp;".toList := by
  have hreversible := escaping_reversible (encode_encodes textEntity?)
    (encode_encodes attributeEntity?)
  obtain ⟨-, hattribute, happend, -⟩ := hreversible
  have hdecoded := hattribute.decoded "?a&quot\"&amp;".toList
  rw [(happend _ _).1, (happend _ _).2]
  exact ⟨by decide, by decide, hdecoded⟩

end Appended

end MarkdownPage.Html
