import MarkdownPage.Fence
import MarkdownPage.Fragment.Expand
import MarkdownPage.Heading
import MarkdownPage.ItemList
import MarkdownPage.Paragraph
import MarkdownPage.Span.Prose
import MarkdownPage.Table.Run

/-!
A Markdown text as an article: the body of a page and the title found in it. Code blocks and
tables are lifted out of the text before any markup is read and put back as markup before
paragraphs are formed. Headings, lists and spans are therefore read in the text around them only;
the forming of paragraphs reads their markup, too, and can change it.
-/

namespace MarkdownPage

open Text Html

structure Article where
  body : Text
  /-- The first heading of the first level outside code blocks and tables. -/
  title : Option Text
  fragments : Store
  deriving DecidableEq, Repr

namespace Article

/-- A carriage return before a line feed belongs to the line end and is dropped. -/
def foldLineEnds : Text → Text := substitute (literalRule '\r' ['\n'] ['\n'])

/-- The source as it is read: with plain line ends, and with nothing that could be taken for a
token. -/
def clean (source : Text) : Text := Token.eraseFrames (foldLineEnds source)

def liftFragments (t : Text) : StateM Store Text := do
  Table.lift (← Fence.lift t)

def markUp (e : Escaping) (t : Text) : Text :=
  Span.markUp e (ItemList.markUp (Heading.markUp t))

def ofMarkdown (e : Escaping) (source : Text) : Article :=
  let (t, store) := (liftFragments (clean source)).run {}
  { body := Paragraph.markUp (store.expand e (markUp e t))
    title := Heading.pageTitle? t
    fragments := store }

end Article

end MarkdownPage
