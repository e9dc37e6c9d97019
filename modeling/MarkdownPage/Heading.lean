import MarkdownPage.Html.Element
import MarkdownPage.Text.Blank

/-!
Headings. A heading line begins with one to six hash signs and at least one whitespace character;
its content runs to the end of the line, and is not trimmed there.
-/

namespace MarkdownPage

open Text

structure Heading where
  level : Html.Level
  content : Text
  deriving DecidableEq, Repr

namespace Heading

def ofLine? (l : Line) : Option Heading := do
  let level ← Html.Level.ofNat? (l.takeWhile (· = '#')).length
  let content ← afterSpace? (l.dropWhile (· = '#'))
  pure ⟨level, content⟩

def toHtml (h : Heading) : Line := Html.heading h.level h.content

/-- Only a heading of the first level can be the title of the page. -/
def title? (h : Heading) : Option Text :=
  if h.level.rank = 1 then some (trimEnd h.content) else none

def markUpLine (l : Line) : Line :=
  match ofLine? l with
  | some h => h.toHtml
  | none => l

def markUp : Text → Text := overLines (List.map markUpLine)

def pageTitle? (t : Text) : Option Text := (lines t).findSome? fun l => (ofLine? l).bind title?

end Heading

end MarkdownPage
