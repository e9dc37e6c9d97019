import MarkdownPage.Command.Run

/-!
The command on the files and the console of the system.
-/

namespace MarkdownPage

open File Command

/-- Some calls give the number of an error with its sign changed. -/
def errorNumber (code : UInt32) : Nat :=
  if code.toNat < 0x80000000 then code.toNat else (-code).toNat

def systemError : IO.Error → Nat × String
  | .alreadyExists _ code details | .noFileOrDirectory _ code details
  | .invalidArgument _ code details | .permissionDenied _ code details
  | .resourceExhausted _ code details | .inappropriateType _ code details
  | .noSuchThing _ code details | .interrupted _ code details
  | .otherError code details | .resourceBusy code details | .resourceVanished code details
  | .unsupportedOperation code details | .hardwareFault code details
  | .unsatisfiedConstraints code details | .illegalOperation code details
  | .protocolError code details | .timeExpired code details => (errorNumber code, details)
  | .unexpectedEof => (0, "unexpected end of file")
  | .userError message => (0, message)

def attempt {α : Type} (action : IO α) : IO (Except Failure α) := do
  match ← action.toBaseIO with
  | .ok a => return .ok a
  | .error e =>
    let (code, description) := systemError e
    return .error (.ofSystem code description.toList)

/-- A path with a character that the system cannot take leads nowhere. -/
def withPath {α : Type} (p : Path) (action : String → IO α) : IO (Except Failure α) :=
  if p.contains '\x00' then return .error .nulInPath
  else attempt (action (String.ofList p))

instance : Access IO where
  read p := withPath p fun name => IO.FS.readBinFile name
  write p content := withPath p fun name => IO.FS.writeBinFile name content
  leadAlike p q := do
    let first ← withPath p fun name => IO.FS.realPath name
    let second ← withPath q fun name => IO.FS.realPath name
    match first, second with
    | .ok a, .ok b => return a == b
    | _, _ => return false

instance : Console IO where
  print t := attempt do
    let out ← IO.getStdout
    out.putStr (String.ofList t)
    out.flush
  note l := IO.eprintln (String.ofList l)

end MarkdownPage

def main (args : List String) : IO UInt32 := do
  let outcome ← (MarkdownPage.Command.run (args.map String.toList) :
    IO MarkdownPage.Command.Outcome)
  if let some report := outcome.report? then
    IO.eprintln (String.ofList report)
  return outcome.exitCode
