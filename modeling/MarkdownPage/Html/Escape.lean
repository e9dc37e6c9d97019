import MarkdownPage.Text.Lines

/-!
Characters that have a meaning in markup are written as entities: `&`, `<` and `>` in text, and
also the double quote in attribute values, which always stand between double quotes. A text
without such characters is passed on as it is.
-/

namespace MarkdownPage.Html

def textEntity? : Char → Option Text
  | '&' => some "&amp;".toList
  | '<' => some "&lt;".toList
  | '>' => some "&gt;".toList
  | _ => none

def attributeEntity? : Char → Option Text
  | '"' => some "&quot;".toList
  | c => textEntity? c

def encode (entity? : Char → Option Text) (t : Text) : Text :=
  t.flatMap fun c => (entity? c).getD [c]

def needsEntity (entity? : Char → Option Text) (t : Text) : Bool := t.any fun c => (entity? c).isSome

def escape (entity? : Char → Option Text) (t : Text) : Text :=
  if needsEntity entity? t then encode entity? t else t

def escapeText : Text → Text := escape textEntity?

def escapeAttribute : Text → Text := escape attributeEntity?

/-- Whether a value goes into the markup as it is or with entities. -/
inductive Escaping where
  | verbatim
  | escaped
  deriving DecidableEq, Repr

namespace Escaping

def text : Escaping → Text → Text
  | verbatim, t => t
  | escaped, t => escapeText t

def attributeValue : Escaping → Text → Text
  | verbatim, t => t
  | escaped, t => escapeAttribute t

end Escaping

/-- The quick path for texts that need no entity gives what encoding them would give. -/
theorem escape_eq_encode (entity? : Char → Option Text) (t : Text) :
    escape entity? t = encode entity? t := by
  unfold escape
  split
  · rfl
  · next h =>
    simp only [needsEntity, List.any_eq_true, not_exists, not_and, Bool.not_eq_true,
      Option.isSome_eq_false_iff, Option.isNone_iff_eq_none] at h
    induction t with
    | nil => rfl
    | cons c t ih =>
      have hc := h c (by simp)
      have ht := ih fun d hd => h d (by simp [hd])
      simp only [encode, List.flatMap_cons, hc] at ht ⊢
      rw [← ht]
      rfl

end MarkdownPage.Html
