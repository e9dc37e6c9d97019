import MarkdownPage.File.Access
import MarkdownPage.Page.Template
import MarkdownPage.Text.Encoded

/-!
Publishing one file as a page in another. The page is written only after the source has been read
in full. Paths that name one file are refused first, as far as both ways can be spelled out.
-/

namespace MarkdownPage

open File

inductive PublishError where
  | unreadable (path : Path) (cause : Failure)
  | unwritable (path : Path) (cause : Failure)
  | overwritesSource (path : Path)
  deriving DecidableEq, Repr

def PublishError.message : PublishError → Text
  | unreadable path cause => "failed to read ".toList ++ path ++ ": ".toList ++ cause.message
  | unwritable path cause => "failed to write ".toList ++ path ++ ": ".toList ++ cause.message
  | overwritesSource path => "output ".toList ++ path ++ " would overwrite the input file".toList

structure Published where
  path : Path
  /-- In bytes. -/
  size : Nat
  deriving DecidableEq, Repr

variable {m : Type → Type} [Monad m] [Access m]

/-- The paths are the same, or their ways are once they are spelled out. -/
def leadToOneFile (input output : Path) : m Bool :=
  if Path.same input output then pure true else Access.leadAlike input output

def readText (p : Path) : m (Except Failure Text) := do
  match ← Access.read p with
  | .ok bytes =>
    match Text.ofBytes? bytes with
    | some t => return .ok t
    | none => return .error .notText
  | .error cause => return .error cause

def publish (e : Html.Escaping) (settings : Page.Settings) (input output : Path) :
    m (Except PublishError Published) := do
  if ← leadToOneFile input output then
    return .error (.overwritesSource output)
  match ← readText input with
  | .error cause => return .error (.unreadable input cause)
  | .ok source =>
    let bytes := Text.toBytes (Page.ofMarkdown e settings source)
    match ← Access.write output bytes with
    | .error cause => return .error (.unwritable output cause)
    | .ok () => return .ok ⟨output, bytes.size⟩

end MarkdownPage
