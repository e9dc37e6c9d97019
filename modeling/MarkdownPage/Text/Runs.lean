import MarkdownPage.Text.Lines

/-!
Joining neighbours. Pieces of a text are joined with the piece behind them wherever the two belong
together, so that each maximal run of such pieces becomes one.
-/

namespace MarkdownPage.Text

variable {α : Type}

def joinFirst (join? : α → α → Option α) (a : α) : List α → List α
  | [] => [a]
  | b :: rest =>
    match join? a b with
    | some c => c :: rest
    | none => a :: b :: rest

/-- Join every piece, from the last to the first, with what has been joined behind it. -/
def joinRuns (join? : α → α → Option α) (pieces : List α) : List α :=
  pieces.foldr (joinFirst join?) []

@[simp] theorem joinRuns_nil (join? : α → α → Option α) : joinRuns join? [] = [] := rfl

theorem joinRuns_cons (join? : α → α → Option α) (a : α) (pieces : List α) :
    joinRuns join? (a :: pieces) = joinFirst join? a (joinRuns join? pieces) := rfl

theorem joinFirst_ne_nil (join? : α → α → Option α) (a : α) (rest : List α) :
    joinFirst join? a rest ≠ [] := by
  cases rest with
  | nil => simp [joinFirst]
  | cons b rest => simp only [joinFirst]; split <;> simp

end MarkdownPage.Text
