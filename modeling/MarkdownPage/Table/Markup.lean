import MarkdownPage.Html.Piece
import MarkdownPage.Table.Row

/-!
A raw table as markup. The first line of the table, if it is a row, holds the header cells; every
other row holds data. A line that is not bounded by pipes is reported and left out.
-/

namespace MarkdownPage.Table

open Text Html

inductive LineKind where
  | blank
  | separator
  | row
  | malformed
  deriving DecidableEq, Repr

def lineKind (l : Line) : LineKind :=
  if l.isEmpty then .blank
  else if isSeparator l then .separator
  else if isRow l then .row
  else .malformed

/-- The trimmed lines of a table, of which the first is blank only if the table is. -/
def rawLines (raw : Text) : List Line := (lines (trim raw)).map trim

structure Row where
  role : CellRole
  cells : List Text
  deriving DecidableEq, Repr

def rowOf (role : CellRole) (l : Line) : List Row :=
  if lineKind l = .row then [⟨role, cells l⟩] else []

def rows (raw : Text) : List Row :=
  match rawLines raw with
  | [] => []
  | first :: others => rowOf .header first ++ others.flatMap (rowOf .data)

def skipped (raw : Text) : List Line := (rawLines raw).filter (lineKind · = .malformed)

def Row.pieces (row : Row) : List Html.Piece :=
  .rowOpen :: row.cells.map (.cell row.role) ++ [.rowClose]

def toHtml (raw : Text) : Text :=
  Html.render (.tableOpen :: (rows raw).flatMap Row.pieces ++ [.tableClose])

end MarkdownPage.Table
