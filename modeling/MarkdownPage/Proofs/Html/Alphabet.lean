import MarkdownPage.Html.Element
import MarkdownPage.Html.Piece

/-!
The characters that markup is spelled in. A class of characters that holds all of them and all of
some content holds every element with that content. Two such classes are used: the characters that
do not end a line, and those that frame no token.
-/

namespace MarkdownPage.Html

def alphabet : Text := " \"&-/;<=>123456abcdefghijklmnopqrstuvwxyz".toList

theorem level_tag_mem (level : Level) :
    level.tag ∈ ["h1", "h2", "h3", "h4", "h5", "h6"].map String.toList := by
  obtain ⟨rank, hpos, hle⟩ := level
  have hrank : rank = 1 ∨ rank = 2 ∨ rank = 3 ∨ rank = 4 ∨ rank = 5 ∨ rank = 6 := by omega
  rcases hrank with rfl | rfl | rfl | rfl | rfl | rfl <;> decide +revert

theorem level_tag_alphabet (level : Level) : level.tag ⊆ alphabet := by
  have htags : ∀ tag ∈ ["h1", "h2", "h3", "h4", "h5", "h6"].map String.toList,
      tag ⊆ alphabet := by decide +kernel
  exact htags level.tag (level_tag_mem level)

theorem list_tag_alphabet (style : ListStyle) : style.tag ⊆ alphabet := by
  cases style <;> decide

theorem cell_tag_alphabet (role : CellRole) : role.tag ⊆ alphabet := by
  cases role <;> decide

section Spelled

variable {p : Char → Prop} (hp : ∀ c ∈ alphabet, p c)

include hp

theorem literal_spelled {t : Text} (h : t ⊆ alphabet) : ∀ c ∈ t, p c :=
  fun c hc => hp c (h hc)

theorem open_tag_spelled {tag : Text} (htag : tag ⊆ alphabet) : ∀ c ∈ openTag tag, p c := by
  apply literal_spelled hp
  intro c hc
  simp only [openTag, List.cons_append, List.mem_cons, List.mem_append, List.not_mem_nil,
    or_false] at hc
  rcases hc with rfl | hc | rfl
  · decide
  · exact htag hc
  · decide

theorem close_tag_spelled {tag : Text} (htag : tag ⊆ alphabet) : ∀ c ∈ closeTag tag, p c := by
  apply literal_spelled hp
  intro c hc
  simp only [closeTag, List.mem_append] at hc
  rcases hc with (hc | hc) | hc
  · exact (by decide : "</".toList ⊆ alphabet) hc
  · exact htag hc
  · exact (by decide : ['>'] ⊆ alphabet) hc

theorem enclose_spelled {tag content : Text} (htag : tag ⊆ alphabet) (h : ∀ c ∈ content, p c) :
    ∀ c ∈ enclose tag content, p c := by
  simp only [enclose, List.forall_mem_append]
  exact ⟨⟨open_tag_spelled hp htag, h⟩, close_tag_spelled hp htag⟩

theorem text_entity_spelled {c : Char} {t : Text} (h : textEntity? c = some t) :
    ∀ d ∈ t, p d := by
  apply literal_spelled hp
  unfold textEntity? at h
  split at h
  all_goals cases h
  all_goals decide

theorem attribute_entity_spelled {c : Char} {t : Text} (h : attributeEntity? c = some t) :
    ∀ d ∈ t, p d := by
  unfold attributeEntity? at h
  split at h
  · cases h
    exact literal_spelled hp (by decide +kernel)
  · exact text_entity_spelled hp h

omit hp in
theorem escape_spelled {entity? : Char → Option Text} {t : Text}
    (hentity : ∀ c s, entity? c = some s → ∀ d ∈ s, p d) (h : ∀ c ∈ t, p c) :
    ∀ c ∈ escape entity? t, p c := by
  rw [escape_eq_encode]
  intro d hd
  obtain ⟨c, hc, hd⟩ := List.mem_flatMap.mp hd
  cases he : entity? c with
  | none =>
    have hdc : d = c := by simpa [he] using hd
    exact hdc ▸ h c hc
  | some s => exact hentity c s he d (by simpa [he] using hd)

theorem text_spelled (e : Escaping) {t : Text} (h : ∀ c ∈ t, p c) : ∀ c ∈ e.text t, p c := by
  cases e with
  | verbatim => exact h
  | escaped => exact escape_spelled (fun _ _ he => text_entity_spelled hp he) h

theorem attribute_value_spelled (e : Escaping) {t : Text} (h : ∀ c ∈ t, p c) :
    ∀ c ∈ e.attributeValue t, p c := by
  cases e with
  | verbatim => exact h
  | escaped => exact escape_spelled (fun _ _ he => attribute_entity_spelled hp he) h

theorem code_block_spelled (e : Escaping) {lang body : Text} (hlang : ∀ c ∈ lang, p c)
    (hbody : ∀ c ∈ body, p c) : ∀ c ∈ codeBlock e lang body, p c := by
  unfold codeBlock
  simp only [List.forall_mem_append]
  exact ⟨⟨⟨⟨literal_spelled hp (by decide +kernel), attribute_value_spelled hp e hlang⟩,
    literal_spelled hp (by decide +kernel)⟩, text_spelled hp e hbody⟩,
    literal_spelled hp (by decide +kernel)⟩

theorem image_spelled (e : Escaping) {src alt : Text} (hsrc : ∀ c ∈ src, p c)
    (halt : ∀ c ∈ alt, p c) : ∀ c ∈ image e src alt, p c := by
  unfold image
  simp only [List.forall_mem_append]
  exact ⟨⟨⟨⟨literal_spelled hp (by decide +kernel), attribute_value_spelled hp e hsrc⟩,
    literal_spelled hp (by decide +kernel)⟩, attribute_value_spelled hp e halt⟩,
    literal_spelled hp (by decide +kernel)⟩

theorem link_spelled (e : Escaping) {href content : Text} (hhref : ∀ c ∈ href, p c)
    (hcontent : ∀ c ∈ content, p c) : ∀ c ∈ link e href content, p c := by
  unfold link
  simp only [List.forall_mem_append]
  exact ⟨⟨⟨⟨literal_spelled hp (by decide +kernel), attribute_value_spelled hp e hhref⟩,
    literal_spelled hp (by decide +kernel)⟩, hcontent⟩,
    literal_spelled hp (by decide +kernel)⟩

end Spelled

theorem alphabet_newline_free : ∀ c ∈ alphabet, c ≠ '\n' :=
  List.forall_mem_ne'.mpr (by decide)

theorem enclose_newline_free {tag content : Text} (htag : tag ⊆ alphabet) (h : '\n' ∉ content) :
    '\n' ∉ enclose tag content :=
  List.forall_mem_ne'.mp (enclose_spelled alphabet_newline_free htag (List.forall_mem_ne'.mpr h))

end MarkdownPage.Html
