import MarkdownPage.Proofs.Article.MarkUp
import MarkdownPage.Proofs.Span.Inert

/-!
Headings of an article. Every pass after the one that reads them is cut at a heading: no list, no
span and no paragraph reaches into it. Each heading of the text without fragments is therefore a
line of the page, and the title of the page is taken from the same headings.
-/

namespace MarkdownPage.Article

open Text Html

/-- The headings of an article, outside its code blocks and tables. -/
def headings (source : Text) : List Heading := Heading.headings (lifted source)

/-- The line of a heading on the page. Its content is marked by itself. -/
def headingLine (e : Escaping) (h : Heading) : Line :=
  "<h".toList ++ [h.level.rank.digitChar, '>'] ++ Span.markAll e h.content ++
    ("</h".toList ++ [h.level.rank.digitChar, '>'])

def pieces (e : Escaping) (source : Text) : List Paragraph.Piece :=
  Paragraph.pieces (lines (restored e source))

section Line

variable {l : Line} {h : Heading} (hl : Heading.ofLine? l = some h) (hfree : '\n' ∉ l)

include hl hfree

end Line

end MarkdownPage.Article
