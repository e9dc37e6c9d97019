import MarkdownPage.Html.Element
import MarkdownPage.Text.Substitute

/-!
Strong and emphasised spans. Content stands between two equal runs of asterisks, is not empty and
holds no asterisk.
-/

namespace MarkdownPage.Span

open Text

/-- Content of a span that begins here between two copies of `mark`, and what follows the span. -/
def delimited? (mark s : Text) : Option (Text × Text) := do
  let inner ← dropPrefix? mark s
  let rest ← dropPrefix? mark (inner.dropWhile (· ≠ '*'))
  let content := inner.takeWhile (· ≠ '*')
  if content.isEmpty then none else some (content, rest)

theorem delimited?_eq {mark s content rest : Text} (h : delimited? mark s = some (content, rest)) :
    s = mark ++ content ++ mark ++ rest ∧ content ≠ [] := by
  simp only [delimited?, Option.bind_eq_bind, Option.bind_eq_some_iff, dropPrefix?_eq_some_iff] at h
  obtain ⟨inner, rfl, rest', hrest, h⟩ := h
  split at h
  · simp at h
  · next hne =>
    simp only [Option.some.injEq, Prod.mk.injEq] at h
    obtain ⟨rfl, rfl⟩ := h
    refine ⟨?_, by simpa using hne⟩
    rw [List.append_assoc, List.append_assoc, ← hrest, List.takeWhile_append_dropWhile]

theorem delimited?_length {mark s content rest : Text}
    (h : delimited? mark s = some (content, rest)) : rest.length < s.length := by
  obtain ⟨rfl, hne⟩ := delimited?_eq h
  have := List.length_pos_iff.2 hne
  simp only [List.length_append]
  omega

def delimitedRule (mark : Text) (wrap : Text → Text) : Rule := fun s =>
  match h : delimited? mark s with
  | some (content, rest) => some ⟨wrap content, rest, delimited?_length h⟩
  | none => none

def markStrong : Text → Text := substitute (delimitedRule "**".toList Html.strong)

/-- Comes after `markStrong`. It still cuts a text between double asterisks that has only come to
stand there with the marking of a strong span. -/
def markEmphasis : Text → Text := substitute (delimitedRule "*".toList Html.emphasis)

end MarkdownPage.Span
