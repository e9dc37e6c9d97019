/-!
Text and its lines. A text is cut at every line feed, so it always has at least one line, and
joining the lines with line feeds gives the text back.
-/

namespace MarkdownPage

/-- Text is handled as its list of characters. Strings appear only where it enters or leaves. -/
abbrev Text := List Char

/-- A text that is one line of another, without its line feed. -/
abbrev Line := Text

namespace Text

def lines (t : Text) : List Line := t.splitOn '\n'

def unlines (ls : List Line) : Text := ['\n'].intercalate ls

def overLines (f : List Line → List Text) (t : Text) : Text := unlines (f (lines t))

def dropFinalNewline (t : Text) : Text :=
  if t.getLast? = some '\n' then t.dropLast else t

/-- The line without the carriage return that came before its line feed. -/
def dropReturn (l : Line) : Line := if l.getLast? = some '\r' then l.dropLast else l

def occurs (needle : Text) : Text → Bool
  | [] => needle.isEmpty
  | c :: t => needle.isPrefixOf (c :: t) || occurs needle t

theorem unlines_lines (t : Text) : unlines (lines t) = t := by
  simp [unlines, lines]

theorem lines_ne_nil (t : Text) : lines t ≠ [] := by
  simp [lines]

theorem lines_unlines {ls : List Line} (h : ∀ l ∈ ls, '\n' ∉ l) (hne : ls ≠ []) :
    lines (unlines ls) = ls :=
  List.splitOn_intercalate '\n' h hne

theorem lines_append_newline (s t : Text) : lines (s ++ '\n' :: t) = lines s ++ lines t :=
  List.splitOn_append_cons_self s t

theorem occurs_iff (needle t : Text) : occurs needle t = true ↔ needle <:+: t := by
  induction t with
  | nil => simp [occurs]
  | cons c t ih =>
    simp only [occurs, Bool.or_eq_true, List.isPrefixOf_iff_prefix, ih, List.infix_cons_iff]

end Text

end MarkdownPage
