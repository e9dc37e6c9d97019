import MarkdownPage.Command.Arguments
import MarkdownPage.Publish

/-!
Running the command: reading its arguments, publishing the page and reporting the result.
-/

namespace MarkdownPage.Command

open File

class Console (m : Type → Type) where
  print : Text → m (Except Failure Unit)
  /-- Write a line beside the output. -/
  note : Text → m Unit

inductive Outcome where
  | success
  | failure (message : Text)
  | misuse (message : Text)
  deriving DecidableEq, Repr

namespace Outcome

def exitCode : Outcome → UInt32
  | success => 0
  | failure _ => 1
  | misuse _ => 2

/-- What is reported when something went wrong. A path in it may hold line ends. -/
def report? : Outcome → Option Text
  | success => none
  | failure message | misuse message => some ("error: ".toList ++ message)

def firstLine? (o : Outcome) : Option Line :=
  o.report?.bind fun report => report.lines.head?.map Text.dropReturn

end Outcome

def versionLine : Line := "mdpage 0.1.0".toList

def helpLines : List Line := List.map String.toList [
  "Render a markdown document into a styled standalone HTML page.",
  "",
  "Usage: mdpage [OPTIONS] [INPUT]",
  "",
  "Arguments:",
  "  [INPUT]  Markdown source file [default: DATA_PERMISSION_MANAGEMENT_SYSTEM.md]",
  "",
  "Options:",
  "  -o, --output <OUTPUT>  Output HTML file (default: INPUT with an .html extension)",
  "      --title <TITLE>    Page title (default: first level-1 heading)",
  "      --lang <LANG>      Value of the <html lang> attribute [default: zh-CN]",
  "      --escape-html      HTML-escape code blocks and link/image attributes",
  "  -v, --verbose          Log what has been written to stderr",
  "  -h, --help             Print help",
  "  -V, --version          Print version"]

def successLines (output : Path) : List Line :=
  ["HTML file generated: ".toList ++ output.displayName,
    "Open it in a browser and use the browser's print function to export it as PDF.".toList]

variable {m : Type → Type} [Monad m] [Access m] [Console m]

def printLines : List Line → m (Except Failure Unit)
  | [] => pure (.ok ())
  | l :: ls => do
    match ← Console.print (l ++ ['\n']) with
    | .ok () => printLines ls
    | .error cause => return .error cause

def convert (a : Arguments) : m Outcome := do
  match ← publish a.escaping a.settings a.input a.output with
  | .error e => return .failure e.message
  | .ok page =>
    if a.verbose then
      Console.note ("wrote ".toList ++ Nat.toDigits 10 page.size ++ " bytes to ".toList ++
        page.path)
    match ← printLines (successLines page.path) with
    | .ok () => return .success
    | .error cause => return .failure ("failed to write to stdout: ".toList ++ cause.message)

/-- Help and version are printed as far as they can be; that never fails. -/
def run (args : List Text) : m Outcome := do
  match Arguments.parse args with
  | .ok a => convert a
  | .error (.misuse e) => return .misuse e.message
  | .error .help =>
    let _ ← printLines helpLines
    return .success
  | .error .version =>
    let _ ← printLines [versionLine]
    return .success

end MarkdownPage.Command
