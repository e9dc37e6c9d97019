import MarkdownPage.Html.Element
import MarkdownPage.Text.Affix
import MarkdownPage.Text.Blank

/-!
Block elements as they show in a line. A block is opened by a line that begins with its opening
tag and closed by a line that holds its closing tag anywhere.
-/

namespace MarkdownPage.Block

open Text

def tags : List Text :=
  ["h1", "h2", "h3", "h4", "h5", "h6", "ul", "ol", "table", "pre", "blockquote"].map String.toList

/-- The name of a tag ends here: a closing angle bracket or whitespace follows. -/
def endsName (t : Text) : Bool := t.head?.any fun c => c = '>' || isSpace c

def isOpenedBy (tag : Text) (l : Line) : Bool := (dropPrefix? ('<' :: tag) l).any endsName

def opened? (l : Line) : Option Text := tags.find? (isOpenedBy · l)

def isClosedBy (tag : Text) (l : Line) : Bool := occurs (Html.closeTag tag) l

end MarkdownPage.Block
