import MarkdownPage.Text.Lines

/-!
The style sheet of a page: a list of rules, each with a selector and its declarations. It is
written inside the style element, so its lines are indented.
-/

namespace MarkdownPage.Page

structure StyleRule where
  selector : String
  /-- Properties with their values. -/
  declarations : List (String × String)
  deriving DecidableEq, Repr

def indent (n : Nat) : Text := List.replicate n ' '

def StyleRule.lines (r : StyleRule) : List Line :=
  (indent 8 ++ r.selector.toList ++ [' ', '\x7b']) ::
    r.declarations.map (fun d => indent 12 ++ d.1.toList ++ ": ".toList ++ d.2.toList ++ [';']) ++
    [indent 8 ++ ['\x7d']]

def styleSheet : List StyleRule := [
  ⟨"body", [
    ("font-family", "'Microsoft YaHei', 'Segoe UI', Roboto, Arial, sans-serif"),
    ("line-height", "1.6"),
    ("color", "#333"),
    ("max-width", "1000px"),
    ("margin", "0 auto"),
    ("padding", "20px"),
    ("background-color", "#fff")]⟩,
  ⟨"h1", [
    ("color", "#2c3e50"),
    ("text-align", "center"),
    ("margin-bottom", "30px"),
    ("padding-bottom", "15px"),
    ("border-bottom", "2px solid #3498db")]⟩,
  ⟨"h2", [
    ("color", "#2980b9"),
    ("margin-top", "40px"),
    ("padding-bottom", "10px"),
    ("border-bottom", "1px solid #eaeaea")]⟩,
  ⟨"h3", [
    ("color", "#16a085"),
    ("margin-top", "30px")]⟩,
  ⟨"h4", [
    ("color", "#27ae60"),
    ("margin-top", "25px")]⟩,
  ⟨"h5, h6", [
    ("color", "#f39c12")]⟩,
  ⟨"p", [
    ("margin", "15px 0"),
    ("text-align", "justify")]⟩,
  ⟨"ul, ol", [
    ("margin", "15px 0"),
    ("padding-left", "30px")]⟩,
  ⟨"li", [
    ("margin-bottom", "8px")]⟩,
  ⟨"pre", [
    ("background-color", "#f8f9fa"),
    ("border", "1px solid #e9ecef"),
    ("border-radius", "4px"),
    ("padding", "15px"),
    ("overflow-x", "auto"),
    ("font-family", "Monaco, Consolas, 'Courier New', monospace"),
    ("margin", "20px 0")]⟩,
  ⟨"code", [
    ("font-family", "Monaco, Consolas, 'Courier New', monospace"),
    ("background-color", "#f8f9fa"),
    ("padding", "2px 4px"),
    ("border-radius", "3px")]⟩,
  ⟨"table", [
    ("width", "100%"),
    ("border-collapse", "collapse"),
    ("margin", "20px 0")]⟩,
  ⟨"th, td", [
    ("border", "1px solid #ddd"),
    ("padding", "12px"),
    ("text-align", "left")]⟩,
  ⟨"th", [
    ("background-color", "#f2f2f2"),
    ("font-weight", "bold")]⟩,
  ⟨"tr:nth-child(even)", [
    ("background-color", "#f9f9f9")]⟩,
  ⟨"img", [
    ("max-width", "100%"),
    ("height", "auto"),
    ("margin", "20px auto"),
    ("display", "block")]⟩,
  ⟨"a", [
    ("color", "#3498db"),
    ("text-decoration", "none")]⟩,
  ⟨"a:hover", [
    ("text-decoration", "underline")]⟩]

end MarkdownPage.Page
