import MarkdownPage.File.Path
import MarkdownPage.Page.Template

/-!
The arguments of the command line. Options come in any order, short ones may be joined, and each
may be given once. An argument that begins with a dash is never the value of the option before it.
The first fault from the left counts, and a request for help or version is answered as soon as it
is reached.
-/

namespace MarkdownPage.Command

inductive Setting where
  | output
  | title
  | lang
  deriving DecidableEq, Repr

inductive Flag where
  | escapeHtml
  | verbose
  | help
  | version
  deriving DecidableEq, Repr

inductive Switch where
  | setting (s : Setting)
  | flag (f : Flag)
  deriving DecidableEq, Repr

namespace Switch

def longName : Switch → Text
  | setting .output => "output".toList
  | setting .title => "title".toList
  | setting .lang => "lang".toList
  | flag .escapeHtml => "escape-html".toList
  | flag .verbose => "verbose".toList
  | flag .help => "help".toList
  | flag .version => "version".toList

def shortName? : Switch → Option Char
  | setting .output => some 'o'
  | flag .verbose => some 'v'
  | flag .help => some 'h'
  | flag .version => some 'V'
  | _ => none

def all : List Switch :=
  [setting .output, setting .title, setting .lang, flag .escapeHtml, flag .verbose, flag .help,
    flag .version]

def ofLong? (name : Text) : Option Switch := all.find? (·.longName = name)

def ofShort? (c : Char) : Option Switch := all.find? (·.shortName? = some c)

end Switch

inductive UsageError where
  | unknown (option : Text)
  | missingValue (s : Setting)
  | needlessValue (f : Flag)
  | repeated (s : Switch)
  | emptyPath
  | extraInput (argument : Text)
  deriving DecidableEq, Repr

namespace UsageError

def quoted (s : Switch) : Text := "'--".toList ++ s.longName ++ "'".toList

def message : UsageError → Text
  | unknown option => "unexpected argument '".toList ++ option ++ "' found".toList
  | missingValue s => "a value is required for ".toList ++ quoted (.setting s)
  | needlessValue f => "no value is allowed for ".toList ++ quoted (.flag f)
  | repeated s => quoted s ++ " cannot be used multiple times".toList
  | emptyPath => "a path must not be empty".toList
  | extraInput argument => "unexpected argument '".toList ++ argument ++ "' found".toList

end UsageError

/-- The command line by the form of its arguments, with joined options taken apart. -/
inductive Word where
  | setting (s : Setting) (attached : Option Text)
  | flag (f : Flag)
  | operand (t : Text)
  /-- Two dashes, behind which everything is an operand. -/
  | divider
  | fault (e : UsageError)
  deriving DecidableEq, Repr

namespace Word

/-- A value may follow a short option directly or behind an equals sign. -/
def attached? : Text → Option Text
  | [] => none
  | '=' :: value => some value
  | value => some value

def ofShort : Text → List Word
  | [] => []
  | c :: rest =>
    match Switch.ofShort? c with
    | some (.setting s) => [.setting s (attached? rest)]
    | some (.flag f) => .flag f :: ofShort rest
    | none => [.fault (.unknown ['-', c])]

def ofLong (body : Text) : Word :=
  let name := body.takeWhile (· ≠ '=')
  let value := (body.dropWhile (· ≠ '=')).tail?
  match Switch.ofLong? name, value with
  | some (.setting s), _ => .setting s value
  | some (.flag f), none => .flag f
  | some (.flag f), some _ => .fault (.needlessValue f)
  | none, _ => .fault (.unknown ("--".toList ++ name))

def ofArgument : Text → List Word
  | '-' :: '-' :: body => [ofLong body]
  | '-' :: c :: rest => ofShort (c :: rest)
  | t => [.operand t]

def ofArguments : List Text → List Word
  | [] => []
  | arg :: rest =>
    if arg = "--".toList then .divider :: rest.map .operand
    else ofArgument arg ++ ofArguments rest

end Word

/-- What has been read so far, and the option that still awaits its value. -/
structure Draft where
  input : Option Path := none
  output : Option Path := none
  title : Option Text := none
  lang : Option Text := none
  escapeHtml : Bool := false
  verbose : Bool := false
  awaiting : Option Setting := none
  deriving DecidableEq, Repr

/-- How reading the arguments can end without a conversion to run. -/
inductive Ending where
  | misuse (e : UsageError)
  | help
  | version
  deriving DecidableEq, Repr

namespace Draft

def setInput (d : Draft) (p : Path) : Except Ending Draft :=
  if d.input.isSome then .error (.misuse (.extraInput p))
  else if p.isEmpty then .error (.misuse .emptyPath)
  else .ok { d with input := some p }

def set (d : Draft) (s : Setting) (value : Text) : Except Ending Draft :=
  let repeated := .error (.misuse (.repeated (.setting s)))
  match s with
  | .output =>
    if d.output.isSome then repeated
    else if value.isEmpty then .error (.misuse .emptyPath)
    else .ok { d with output := some value }
  | .title => if d.title.isSome then repeated else .ok { d with title := some value }
  | .lang => if d.lang.isSome then repeated else .ok { d with lang := some value }

def turnOn (d : Draft) (f : Flag) : Except Ending Draft :=
  let repeated := .error (.misuse (.repeated (.flag f)))
  match f with
  | .escapeHtml => if d.escapeHtml then repeated else .ok { d with escapeHtml := true }
  | .verbose => if d.verbose then repeated else .ok { d with verbose := true }
  | .help => .error .help
  | .version => .error .version

def read (d : Draft) (w : Word) : Except Ending Draft :=
  match d.awaiting, w with
  | some s, .operand value => { d with awaiting := none }.set s value
  | some s, _ => .error (.misuse (.missingValue s))
  | none, .operand p => d.setInput p
  | none, .setting s (some value) => d.set s value
  | none, .setting s none => .ok { d with awaiting := some s }
  | none, .flag f => d.turnOn f
  | none, .divider => .ok d
  | none, .fault e => .error (.misuse e)

end Draft

structure Arguments where
  input : Path
  output : Path
  escaping : Html.Escaping
  settings : Page.Settings
  verbose : Bool
  deriving DecidableEq, Repr

def defaultInput : Path := "DATA_PERMISSION_MANAGEMENT_SYSTEM.md".toList

def Draft.finish (d : Draft) : Except Ending Arguments :=
  match d.awaiting with
  | some s => .error (.misuse (.missingValue s))
  | none =>
    let input := d.input.getD defaultInput
    .ok {
      input := input
      output := d.output.getD (input.withExtension "html".toList)
      escaping := if d.escapeHtml then .escaped else .verbatim
      settings := { title := d.title, lang := d.lang.getD Page.defaultLang }
      verbose := d.verbose }

def Arguments.parse (args : List Text) : Except Ending Arguments := do
  let d ← (Word.ofArguments args).foldlM Draft.read {}
  d.finish

end MarkdownPage.Command
