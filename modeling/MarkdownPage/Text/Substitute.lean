import MarkdownPage.Text.Affix

/-!
Substitution. A rule looks at the head of a text; where it matches, the matched part is replaced
and the scan goes on behind it, elsewhere one character is copied. Matches are therefore taken
from the left and never overlap.
-/

namespace MarkdownPage.Text

/-- A match at the head of `s`: what is written for it, and what follows it. -/
structure Match (s : Text) where
  replacement : Text
  rest : Text
  rest_lt : rest.length < s.length

abbrev Rule := (s : Text) → Option (Match s)

/-- The scan, with the output so far in reverse. -/
def substituteFrom (rule : Rule) (s written : Text) : Text :=
  match s with
  | [] => written.reverse
  | c :: t =>
    match rule (c :: t) with
    | some m => substituteFrom rule m.rest (m.replacement.reverse ++ written)
    | none => substituteFrom rule t (c :: written)
termination_by s.length
decreasing_by
  · exact m.rest_lt
  · exact Nat.lt_succ_self t.length

def substitute (rule : Rule) (s : Text) : Text := substituteFrom rule s []

theorem substituteFrom_eq (rule : Rule) (s written : Text) :
    substituteFrom rule s written = written.reverse ++ substitute rule s := by
  unfold substitute
  induction h : s.length using Nat.strongRecOn generalizing s written with
  | _ n ih =>
    subst h
    cases s with
    | nil => simp [substituteFrom]
    | cons c t =>
      rw [substituteFrom, substituteFrom]
      cases rule (c :: t) with
      | none =>
        simp only
        rw [ih _ (by simp) t (c :: written) rfl, ih _ (by simp) t [c] rfl]
        simp
      | some m =>
        simp only
        rw [ih _ m.rest_lt m.rest (_ ++ written) rfl, ih _ m.rest_lt m.rest (_ ++ []) rfl]
        simp

@[simp] theorem substitute_nil (rule : Rule) : substitute rule [] = [] := by
  simp [substitute, substituteFrom]

theorem substitute_some {rule : Rule} {c : Char} {t : Text} {m : Match (c :: t)}
    (h : rule (c :: t) = some m) :
    substitute rule (c :: t) = m.replacement ++ substitute rule m.rest := by
  rw [substitute, substituteFrom, h]
  simp [substituteFrom_eq]

theorem substitute_none {rule : Rule} {c : Char} {t : Text} (h : rule (c :: t) = none) :
    substitute rule (c :: t) = c :: substitute rule t := by
  rw [substitute, substituteFrom, h]
  simp [substituteFrom_eq]

/-- Replaces a fixed text. The needle is given by its first character and the others. -/
def literalRule (first : Char) (others replacement : Text) : Rule := fun s =>
  match h : dropPrefix? (first :: others) s with
  | some rest => some ⟨replacement, rest, by
      rw [dropPrefix?_eq_some_iff.1 h]
      simp only [List.length_append, List.length_cons]
      omega⟩
  | none => none

end MarkdownPage.Text
