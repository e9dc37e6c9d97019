import MarkdownPage.Html.Element
import MarkdownPage.Text.Substitute

/-!
Images and links. Both are a text between brackets and an address between parentheses, neither of
them empty; the text ends at the first closing bracket, the address at the first closing
parenthesis. An exclamation mark in front makes it an image.
-/

namespace MarkdownPage.Span

open Text

structure Reference where
  label : Text
  address : Text
  deriving DecidableEq, Repr

/-- A non-empty text up to the first `stop`, and what follows once `close` has been read there. -/
def field? (stop : Char) (close s : Text) : Option (Text × Text) := do
  let rest ← dropPrefix? close (s.dropWhile (· ≠ stop))
  let content := s.takeWhile (· ≠ stop)
  if content.isEmpty then none else some (content, rest)

def reference? (lead s : Text) : Option (Reference × Text) := do
  let s ← dropPrefix? lead s
  let (label, s) ← field? ']' "](".toList s
  let (address, rest) ← field? ')' ")".toList s
  pure (⟨label, address⟩, rest)

theorem field?_eq {stop : Char} {close s content rest : Text}
    (h : field? stop close s = some (content, rest)) :
    s = content ++ close ++ rest ∧ content ≠ [] := by
  simp only [field?, Option.bind_eq_bind, Option.bind_eq_some_iff, dropPrefix?_eq_some_iff] at h
  obtain ⟨rest', hrest, h⟩ := h
  split at h
  · simp at h
  · next hne =>
    simp only [Option.some.injEq, Prod.mk.injEq] at h
    obtain ⟨rfl, rfl⟩ := h
    refine ⟨?_, by simpa using hne⟩
    rw [List.append_assoc, ← hrest, List.takeWhile_append_dropWhile]

theorem reference?_eq {lead s rest : Text} {r : Reference}
    (h : reference? lead s = some (r, rest)) :
    s = lead ++ r.label ++ "](".toList ++ r.address ++ ")".toList ++ rest ∧
      r.label ≠ [] ∧ r.address ≠ [] := by
  simp only [reference?, Option.bind_eq_bind, Option.bind_eq_some_iff, dropPrefix?_eq_some_iff] at h
  obtain ⟨s₁, rfl, ⟨label, s₂⟩, h₁, ⟨address, s₃⟩, h₂, h⟩ := h
  obtain ⟨rfl, hlabel⟩ := field?_eq h₁
  obtain ⟨rfl, haddress⟩ := field?_eq h₂
  simp only [Option.pure_def, Option.some.injEq, Prod.mk.injEq] at h
  obtain ⟨rfl, rfl⟩ := h
  exact ⟨by simp, hlabel, haddress⟩

theorem reference?_length {lead s rest : Text} {r : Reference}
    (h : reference? lead s = some (r, rest)) : rest.length < s.length := by
  obtain ⟨rfl, hlabel, -⟩ := reference?_eq h
  have := List.length_pos_iff.2 hlabel
  simp only [List.length_append]
  omega

def referenceRule (lead : Text) (write : Reference → Text) : Rule := fun s =>
  match h : reference? lead s with
  | some (r, rest) => some ⟨write r, rest, reference?_length h⟩
  | none => none

def markImages (e : Html.Escaping) : Text → Text :=
  substitute (referenceRule "![".toList fun r => Html.image e r.address r.label)

/-- Comes after `markImages`, so that the brackets that an image is written with are gone; those in its
attributes can still be taken for a link. -/
def markLinks (e : Html.Escaping) : Text → Text :=
  substitute (referenceRule "[".toList fun r => Html.link e r.address r.label)

end MarkdownPage.Span
