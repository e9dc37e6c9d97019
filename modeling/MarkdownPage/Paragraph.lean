import MarkdownPage.Block
import MarkdownPage.Text.Runs

/-!
Paragraphs. Lines from one that opens a block to the one that closes it stay as they are. Among
the others, blank lines become empty lines, and neighbouring lines of prose become one paragraph
on one line.
-/

namespace MarkdownPage.Paragraph

open Text

inductive Piece where
  | block (l : Line)
  | blank
  | prose (ls : List Line)
  deriving DecidableEq, Repr

/-- The tag of the block that holds a line: one still open before it, or one that it opens. -/
def blockAt? (stillOpen : Option Text) (l : Line) : Option Text :=
  stillOpen <|> Block.opened? (trim l)

def openAfter (stillOpen : Option Text) (l : Line) : Option Text :=
  (blockAt? stillOpen l).filter fun tag => !Block.isClosedBy tag l

def Piece.ofLine (stillOpen : Option Text) (l : Line) : Piece :=
  if (blockAt? stillOpen l).isSome then .block l
  else if isBlank l then .blank
  else .prose [l]

def linePieces (stillOpen : Option Text) : List Line → List Piece
  | [] => []
  | l :: ls => Piece.ofLine stillOpen l :: linePieces (openAfter stillOpen l) ls

def Piece.join? : Piece → Piece → Option Piece
  | .prose ls, .prose ls' => some (.prose (ls ++ ls'))
  | _, _ => none

def pieces (ls : List Line) : List Piece := joinRuns Piece.join? (linePieces none ls)

def Piece.toHtml : Piece → Line
  | .block l => l
  | .blank => []
  | .prose ls => Html.paragraph ([' '].intercalate (ls.map trim))

def markUp : Text → Text := overLines fun ls => (pieces ls).map Piece.toHtml

end MarkdownPage.Paragraph
