import MarkdownPage.Fragment.Store
import MarkdownPage.Table.Markup

/-!
Putting fragments back. A line that is the token of a stored fragment is replaced by the markup of
that fragment; every other line stays.
-/

namespace MarkdownPage.Store

open Text

def expandLine (store : Store) (e : Html.Escaping) (l : Line) : Text :=
  match Token.ofLine? l with
  | some (.code i) =>
    match store.codeBlocks[i]? with
    | some block => Html.codeBlock e block.lang block.body
    | none => l
  | some (.table i) =>
    match store.tables[i]? with
    | some raw => Table.toHtml raw
    | none => l
  | none => l

def expand (store : Store) (e : Html.Escaping) : Text → Text :=
  overLines (List.map (store.expandLine e))

end MarkdownPage.Store
