import MarkdownPage.Fragment.Store
import MarkdownPage.Text.Blank

/-!
Fenced code blocks. An opening fence is three backticks and a language tag; it is closed by the
first line after it that holds three backticks and nothing else. An opening fence that nothing
closes is ordinary text.
-/

namespace MarkdownPage.Fence

open Text

def marker : Text := "```".toList

def defaultLang : Text := "text".toList

def isLangChar (c : Char) : Bool := c.isAlphanum || "-_+.#".toList.contains c

/-- The language tag of an opening fence, which may be empty. -/
def langTag? (l : Line) : Option Text := (dropPrefix? marker (trim l)).filter (·.all isLangChar)

def isClosing (l : Line) : Bool := trim l = marker

inductive Piece where
  | text (l : Line)
  | block (opening : Line) (tag : Text) (body : List Line) (closing : Line)
  deriving DecidableEq, Repr

/-- The body, closing fence and rest of a block whose opening fence stands before these lines. -/
def closeBlock? (ls : List Line) : Option (List Line × Line × List Line) :=
  match ls.dropWhile (!isClosing ·) with
  | [] => none
  | closing :: rest => some (ls.takeWhile (!isClosing ·), closing, rest)

theorem closeBlock?_length {ls body rest : List Line} {closing : Line}
    (h : closeBlock? ls = some (body, closing, rest)) : rest.length < ls.length := by
  unfold closeBlock? at h
  split at h
  · simp at h
  · next c r hd =>
    have := (List.dropWhile_sublist (!isClosing ·) (l := ls)).length_le
    rw [hd] at this
    simp only [Option.some.injEq, Prod.mk.injEq] at h
    obtain ⟨-, -, rfl⟩ := h
    exact this

/-- Cut lines into blocks and text. Where no closing fence is ahead there is none for any later
opening fence either; `exhausted` records that, and saves looking again. -/
def piecesFrom (exhausted : Bool) : List Line → List Piece
  | [] => []
  | l :: ls =>
    match langTag? l, exhausted with
    | some tag, false =>
      match h : closeBlock? ls with
      | some (body, closing, rest) =>
        have := closeBlock?_length h
        .block l tag body closing :: piecesFrom false rest
      | none => .text l :: piecesFrom true ls
    | _, _ => .text l :: piecesFrom exhausted ls
termination_by ls => ls.length
decreasing_by
  · exact Nat.lt_succ_of_lt this
  · exact Nat.lt_succ_self ls.length
  · exact Nat.lt_succ_self ls.length

def pieces : List Line → List Piece := piecesFrom false

def Piece.lift : Piece → StateM Store Line
  | .text l => pure l
  | .block _ tag body _ => do
    let lang := if tag.isEmpty then defaultLang else tag
    let token ← Store.addCode ⟨lang, unlines body⟩
    pure token.toLine

def lift (t : Text) : StateM Store Text := do
  let ls ← (pieces (lines t)).mapM Piece.lift
  pure (unlines ls)

end MarkdownPage.Fence
