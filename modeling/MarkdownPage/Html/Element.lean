import MarkdownPage.Html.Escape

/-!
The text of each element that a page can hold. Content is written as it is given; only code
blocks, images and links take values that may have to be escaped.
-/

namespace MarkdownPage.Html

def openTag (tag : Text) : Text := '<' :: tag ++ ['>']

def closeTag (tag : Text) : Text := "</".toList ++ tag ++ ['>']

def enclose (tag content : Text) : Text := openTag tag ++ content ++ closeTag tag

/-- Rank of a heading, from one to six. -/
structure Level where
  rank : Nat
  pos : 1 ≤ rank
  le_six : rank ≤ 6
  deriving DecidableEq, Repr

namespace Level

def ofNat? (n : Nat) : Option Level :=
  if h : 1 ≤ n ∧ n ≤ 6 then some ⟨n, h.1, h.2⟩ else none

def tag (level : Level) : Text := ['h', level.rank.digitChar]

end Level

inductive ListStyle where
  | bulleted
  | numbered
  deriving DecidableEq, Repr

def ListStyle.tag : ListStyle → Text
  | bulleted => "ul".toList
  | numbered => "ol".toList

inductive CellRole where
  | header
  | data
  deriving DecidableEq, Repr

def CellRole.tag : CellRole → Text
  | header => "th".toList
  | data => "td".toList

def heading (level : Level) (content : Text) : Text := enclose level.tag content

def paragraph (content : Text) : Text := enclose "p".toList content

def codeBlock (e : Escaping) (lang body : Text) : Text :=
  "<pre><code class=\"language-".toList ++ e.attributeValue lang ++ "\">".toList ++ e.text body ++
    "</code></pre>".toList

def listOpen (style : ListStyle) : Line := openTag style.tag

def listClose (style : ListStyle) : Line := closeTag style.tag

def listItem (content : Text) : Line := enclose "li".toList content

def tableOpen : Line := "<table>".toList

def tableClose : Line := "</table>".toList

def rowOpen : Line := "  <tr>".toList

def rowClose : Line := "  </tr>".toList

def cell (role : CellRole) (content : Text) : Line := "    ".toList ++ enclose role.tag content

def strong (content : Text) : Text := enclose "strong".toList content

def emphasis (content : Text) : Text := enclose "em".toList content

def image (e : Escaping) (src alt : Text) : Text :=
  "<img src=\"".toList ++ e.attributeValue src ++ "\" alt=\"".toList ++ e.attributeValue alt ++ "\">".toList

def link (e : Escaping) (href content : Text) : Text :=
  "<a href=\"".toList ++ e.attributeValue href ++ "\">".toList ++ content ++ "</a>".toList

end MarkdownPage.Html
