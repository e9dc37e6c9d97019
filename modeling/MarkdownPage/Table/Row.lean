import MarkdownPage.Text.Affix
import MarkdownPage.Text.Blank

/-!
Rows of a pipe table, as trimmed lines. A row is bounded by pipes; a single pipe bounds itself.
A separator stands between the heading of a table and its body.
-/

namespace MarkdownPage.Table

open Text

def isRow (l : Line) : Bool := l.head? = some '|' && l.getLast? = some '|'

def isSeparatorChar (c : Char) : Bool := "-:|".toList.contains c || isSpace c

/-- Dashes, colons, pipes and whitespace between two bounding pipes, and at least one of them. -/
def isSeparator (l : Line) : Bool :=
  match (dropPrefix? ['|'] l).bind (dropSuffix? ['|']) with
  | some inner => !inner.isEmpty && inner.all isSeparatorChar
  | none => false

/-- The texts between consecutive pipes, trimmed. What stands before the first pipe or behind the
last one is no cell. -/
def cells (row : Line) : List Text := (((row.splitOn '|').drop 1).map trim).dropLast

end MarkdownPage.Table
