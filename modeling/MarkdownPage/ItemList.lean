import MarkdownPage.Html.Element
import MarkdownPage.Text.Affix
import MarkdownPage.Text.Blank
import MarkdownPage.Text.Runs

/-!
Flat lists. Neighbouring items of one style form a list. Indentation means nothing and lists never
nest; an item of the other style begins another list.
-/

namespace MarkdownPage

open Text Html

structure Item where
  style : ListStyle
  content : Text
  deriving DecidableEq, Repr

namespace Item

/-- What follows the number of a numbered item: digits and a full stop. -/
def afterNumber? (t : Text) : Option Text :=
  if t.head?.any Char.isDigit then dropPrefix? ['.'] (t.dropWhile Char.isDigit) else none

def marker? : Text → Option (ListStyle × Text)
  | [] => none
  | c :: rest =>
    if "*+-".toList.contains c then some (.bulleted, rest)
    else (afterNumber? (c :: rest)).map (.numbered, ·)

def ofLine? (l : Line) : Option Item := do
  let (style, rest) ← marker? (trim l)
  let content ← afterSpace? rest
  pure ⟨style, content⟩

end Item

namespace ItemList

inductive Piece where
  | text (l : Line)
  | list (style : ListStyle) (items : List Text)
  deriving DecidableEq, Repr

def Piece.ofLine (l : Line) : Piece :=
  match Item.ofLine? l with
  | some item => .list item.style [item.content]
  | none => .text l

def Piece.join? : Piece → Piece → Option Piece
  | .list style items, .list style' items' =>
    if style = style' then some (.list style (items ++ items')) else none
  | _, _ => none

def pieces (ls : List Line) : List Piece := joinRuns Piece.join? (ls.map Piece.ofLine)

def Piece.toHtml : Piece → List Line
  | .text l => [l]
  | .list style items => listOpen style :: items.map listItem ++ [listClose style]

def markUp : Text → Text := overLines fun ls => (pieces ls).flatMap Piece.toHtml

end ItemList

end MarkdownPage
