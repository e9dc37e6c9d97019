import MarkdownPage.Html.Element

/-!
Output as a list of pieces. Lists, table lines and whole lines own their line end; all other
pieces leave it to a line end of its own.
-/

namespace MarkdownPage.Html

inductive Piece where
  | verbatim (t : Text)
  | text (e : Escaping) (t : Text)
  | attributeValue (e : Escaping) (t : Text)
  | newline
  | line (l : Line)
  | heading (level : Level) (content : Text)
  | paragraph (content : Text)
  | codeBlock (e : Escaping) (lang body : Text)
  | listOpen (style : ListStyle)
  | listClose (style : ListStyle)
  | listItem (content : Text)
  | tableOpen
  | tableClose
  | rowOpen
  | rowClose
  | cell (role : CellRole) (content : Text)
  | strong (content : Text)
  | emphasis (content : Text)
  | image (e : Escaping) (src alt : Text)
  | link (e : Escaping) (href content : Text)
  deriving DecidableEq, Repr

def Piece.render : Piece → Text
  | verbatim t => t
  | text e t => e.text t
  | attributeValue e t => e.attributeValue t
  | newline => ['\n']
  | line l => l ++ ['\n']
  | heading level content => Html.heading level content
  | paragraph content => Html.paragraph content
  | codeBlock e lang body => Html.codeBlock e lang body
  | listOpen style => Html.listOpen style ++ ['\n']
  | listClose style => Html.listClose style ++ ['\n']
  | listItem content => Html.listItem content ++ ['\n']
  | tableOpen => Html.tableOpen ++ ['\n']
  | tableClose => Html.tableClose
  | rowOpen => Html.rowOpen ++ ['\n']
  | rowClose => Html.rowClose ++ ['\n']
  | cell role content => Html.cell role content ++ ['\n']
  | strong content => Html.strong content
  | emphasis content => Html.emphasis content
  | image e src alt => Html.image e src alt
  | link e href content => Html.link e href content

def render (ps : List Piece) : Text := ps.flatMap Piece.render

theorem render_append (ps qs : List Piece) : render (ps ++ qs) = render ps ++ render qs := by
  simp [render]

end MarkdownPage.Html
