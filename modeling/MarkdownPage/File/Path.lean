import MarkdownPage.Text.Lines

/-!
Paths. Two paths are the same text for text, or differ only in what does not count: repeated and
final slashes, and single dots except one that begins the path.
-/

namespace MarkdownPage

abbrev Path := Text

namespace Path

def pieces (p : Path) : List Text := p.splitOn '/'

def dot : Text := ['.']

def dots : Text := ['.', '.']

inductive Component where
  | root
  | here
  | up
  | name (n : Text)
  deriving DecidableEq, Repr

def Component.ofPiece? (piece : Text) : Option Component :=
  if piece = [] ∨ piece = dot then none
  else if piece = dots then some .up
  else some (.name piece)

def anchor (p : Path) : List Component :=
  if p.head? = some '/' then [.root]
  else if p.pieces.head? = some dot then [.here]
  else []

def components (p : Path) : List Component :=
  p.anchor ++ p.pieces.filterMap Component.ofPiece?

/-- Both paths consist of the same components, whether or not they lead anywhere. -/
def same (p q : Path) : Bool := p.components = q.components

def fileName? (p : Path) : Option Text :=
  match p.components.getLast? with
  | some (.name n) => some n
  | _ => none

/-- A file name up to its last dot, if anything stands before that dot. -/
def stem (name : Text) : Text :=
  match name.reverse.dropWhile (· ≠ '.') with
  | _ :: before => if before.isEmpty then name else before.reverse
  | [] => name

/-- What follows the last dot of a file name, if anything stands before that dot. -/
def extension (name : Text) : Text :=
  name.drop ((stem name).length + 1)

/-- What stands before the last piece that is the given name. -/
def leading (p : Path) (name : Text) : List Text :=
  ((p.pieces.reverse.dropWhile (· ≠ name)).drop 1).reverse

/-- The path up to the stem of its file name, and then a dot and the extension. A path that ends in
no name stays as it is. -/
def setExtension (p : Path) (extension : Text) : Path :=
  match p.fileName? with
  | some name => ['/'].intercalate (p.leading name ++ [stem name ++ '.' :: extension])
  | none => p

/-- The path with as much cut from its end as the extension of its file name is long. Without a
final slash that is the extension itself, and its dot stays. -/
def cutExtension (p : Path) : Path :=
  match p.fileName? with
  | some name => p.take (p.length - (extension name).length)
  | none => p

/-- The path with the extension of its file name replaced, or added if it has none. The old one is
cut first: of `..md` this leaves the parent directory, which takes no extension. -/
def withExtension (p : Path) (extension : Text) : Path :=
  p.cutExtension.setExtension extension

/-- How messages name the file: by its name, or by the whole path if that ends in none. -/
def displayName (p : Path) : Text := p.fileName?.getD p

end Path

end MarkdownPage
