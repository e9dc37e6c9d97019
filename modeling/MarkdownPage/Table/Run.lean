import MarkdownPage.Fragment.Store
import MarkdownPage.Table.Row

/-!
Table runs. A run begins with a row and goes on as long as rows or blank lines follow, so that a
blank line between two rows does not split a table.
-/

namespace MarkdownPage.Table

open Text

def startsRun (l : Line) : Bool := isRow (trim l) || isSeparator (trim l)

def continuesRun (l : Line) : Bool := startsRun l || isBlank l

inductive Piece where
  | text (l : Line)
  | run (rows : List Line)
  deriving DecidableEq, Repr

def pieces : List Line → List Piece
  | [] => []
  | l :: ls =>
    if startsRun l then
      .run (l :: ls.takeWhile continuesRun) :: pieces (ls.dropWhile continuesRun)
    else
      .text l :: pieces ls
termination_by ls => ls.length
decreasing_by
  · have := (List.dropWhile_sublist continuesRun (l := ls)).length_le
    simp only [List.length_cons]
    omega
  · simp

def Piece.lift : Piece → StateM Store Line
  | .text l => pure l
  | .run rows => do
    let token ← Store.addTable (unlines rows)
    pure token.toLine

def lift (t : Text) : StateM Store Text := do
  let ls ← (pieces (lines t)).mapM Piece.lift
  pure (unlines ls)

end MarkdownPage.Table
