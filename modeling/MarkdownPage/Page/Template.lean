import MarkdownPage.Article
import MarkdownPage.Html.Piece
import MarkdownPage.Page.Style

/-!
The page around a body. Title and language are escaped, the body goes in as it is.
-/

namespace MarkdownPage.Page

open Html

def defaultTitle : Text := "Document".toList

def defaultLang : Text := "zh-CN".toList

structure Settings where
  /-- The title to print in place of one found in the source. -/
  title : Option Text := none
  /-- The language that the page declares. -/
  lang : Text := defaultLang
  deriving DecidableEq, Repr

namespace Settings

/-- The title set, else the one found, and the default title where that is empty or missing. -/
def titleFor (s : Settings) (found : Option Text) : Text :=
  ((s.title <|> found).filter fun t => !t.isEmpty).getD defaultTitle

def head (s : Settings) (found : Option Text) : List Piece :=
  [.line "<!DOCTYPE html>".toList,
    .verbatim "<html lang=\"".toList, .attributeValue .escaped s.lang, .line "\">".toList,
    .line "<head>".toList,
    .line "    <meta charset=\"UTF-8\">".toList,
    .line "    <meta name=\"viewport\" content=\"width=device-width, initial-scale=1.0\">".toList,
    .verbatim "    <title>".toList, .text .escaped (s.titleFor found), .line "</title>".toList,
    .line "    <style>".toList] ++
  (styleSheet.flatMap StyleRule.lines).map .line ++
  [.line "    </style>".toList,
    .line "</head>".toList]

def body (content : Text) : List Piece :=
  [.line "<body>".toList,
    .verbatim "    ".toList, .line content,
    .line "</body>".toList,
    .verbatim "</html>".toList]

def page (s : Settings) (content : Text) (found : Option Text) : Text :=
  Html.render (s.head found ++ body content)

end Settings

def ofMarkdown (e : Escaping) (s : Settings) (source : Text) : Text :=
  let article := Article.ofMarkdown e source
  s.page article.body article.title

end MarkdownPage.Page
