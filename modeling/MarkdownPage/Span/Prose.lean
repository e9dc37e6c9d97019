import MarkdownPage.Block
import MarkdownPage.Fragment.Token
import MarkdownPage.Span.Emphasis
import MarkdownPage.Span.Link
import MarkdownPage.Text.Runs

/-!
Spans in prose. Neighbouring lines of prose are one text, so a span may go on over a line end;
blank lines, tokens and lines that carry block markup each stand alone, and no span leaves them.
-/

namespace MarkdownPage.Span

open Text

/-- All spans of a text: strong before emphasised ones, images before links. -/
def markAll (e : Html.Escaping) (t : Text) : Text :=
  markLinks e (markImages e (markEmphasis (markStrong t)))

def isToken (l : Line) : Bool := (Token.ofLine? l).isSome

def standsAlone (l : Line) : Bool :=
  isBlank l || isToken l || (Block.opened? (trim l)).isSome ||
    startsWith "<li>".toList (trim l) || startsWith "</".toList (trim l)

inductive Piece where
  | token (l : Line)
  | alone (l : Line)
  | prose (ls : List Line)
  deriving DecidableEq, Repr

def Piece.ofLine (l : Line) : Piece :=
  if isToken l then .token l
  else if standsAlone l then .alone l
  else .prose [l]

def Piece.join? : Piece → Piece → Option Piece
  | .prose ls, .prose ls' => some (.prose (ls ++ ls'))
  | _, _ => none

def pieces (ls : List Line) : List Piece := joinRuns Piece.join? (ls.map Piece.ofLine)

def Piece.toHtml (e : Html.Escaping) : Piece → Text
  | .token l => l
  | .alone l => markAll e l
  | .prose ls => markAll e (unlines ls)

def markUp (e : Html.Escaping) : Text → Text :=
  overLines fun ls => (pieces ls).map (Piece.toHtml e)

end MarkdownPage.Span
