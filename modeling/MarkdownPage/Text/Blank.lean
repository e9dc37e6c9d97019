import MarkdownPage.Text.Lines

/-!
Whitespace, blank lines and trimming. The characters are those with the property `White_Space`:
the zero-width space, the byte order mark and the separators U+001C to U+001F are not among them.
-/

namespace MarkdownPage.Text

/-- The ranges of code points with the property `White_Space`, in order. -/
def spaceRanges : List (Nat × Nat) :=
  [(0x09, 0x0D), (0x20, 0x20), (0x85, 0x85), (0xA0, 0xA0), (0x1680, 0x1680), (0x2000, 0x200A),
    (0x2028, 0x2029), (0x202F, 0x202F), (0x205F, 0x205F), (0x3000, 0x3000)]

def isSpace (c : Char) : Bool :=
  spaceRanges.any fun r => r.1 ≤ c.toNat && c.toNat ≤ r.2

def isBlank (l : Line) : Bool := l.all isSpace

def trimStart (t : Text) : Text := t.dropWhile isSpace

def trimEnd (t : Text) : Text := (t.reverse.dropWhile isSpace).reverse

def trim (t : Text) : Text := trimEnd (trimStart t)

/-- What follows a marker when at least one whitespace character stands between them. -/
def afterSpace? : Text → Option Text
  | [] => none
  | c :: t => if isSpace c then some (trimStart t) else none

end MarkdownPage.Text
