import MarkdownPage.Html.Element

/-!
The markup of a code block as two tags with text between them. Escaped text holds no angle bracket,
so neither does what stands between the tags.
-/

namespace MarkdownPage.Html

def codeOpen : Text := "<pre><code class=\"language-".toList

def codeClose : Text := "</code></pre>".toList

/-- What stands between the two: the language, the end of the opening tag and the body. -/
def codeInner (e : Escaping) (lang body : Text) : Text :=
  e.attributeValue lang ++ "\">".toList ++ e.text body

theorem code_block_eq (e : Escaping) (lang body : Text) :
    codeBlock e lang body = codeOpen ++ (codeInner e lang body ++ codeClose) := by
  unfold codeBlock codeInner
  simp only [List.append_assoc]
  rfl

theorem code_open_pre : codeOpen = "<pre>".toList ++ "<code class=\"language-".toList := rfl

theorem escape_plain {entity? : Char → Option Text} {t : Text} (h : ∀ c ∈ t, entity? c = none) :
    escape entity? t = t := by
  have hneeds : needsEntity entity? t = false := by
    simp only [needsEntity, List.any_eq_false]
    intro c hc
    simp [h c hc]
  rw [escape, if_neg (by simp [hneeds])]

theorem not_mem_text_entity (c : Char) : '<' ∉ (textEntity? c).getD [c] := by
  unfold textEntity?
  split
  · decide
  · decide
  · decide
  · next hlt _ => simpa [eq_comm] using hlt

theorem not_mem_attribute_entity (c : Char) : '<' ∉ (attributeEntity? c).getD [c] := by
  unfold attributeEntity?
  split
  · decide
  · exact not_mem_text_entity c

theorem not_mem_escape {entity? : Char → Option Text} {d : Char}
    (h : ∀ c, d ∉ (entity? c).getD [c]) (t : Text) : d ∉ escape entity? t := by
  rw [escape_eq_encode]
  intro hmem
  obtain ⟨c, -, hc⟩ := List.mem_flatMap.mp hmem
  exact h c hc

theorem not_mem_escaped_inner (lang body : Text) : '<' ∉ codeInner .escaped lang body := by
  have hlang : '<' ∉ Escaping.escaped.attributeValue lang :=
    not_mem_escape not_mem_attribute_entity lang
  have hbody : '<' ∉ Escaping.escaped.text body := not_mem_escape not_mem_text_entity body
  simp [codeInner, hlang, hbody]

end MarkdownPage.Html
