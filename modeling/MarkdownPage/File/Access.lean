import MarkdownPage.File.Path

/-!
What a program can do with files, and how that can fail.
-/

namespace MarkdownPage.File

inductive Failure where
  | missing
  | notDirectory
  | isDirectory
  | nameTooLong
  | tooManyLinks
  | noSpace
  | notText
  | nulInPath
  /-- Any other cause, by the number and description that the system gives. -/
  | system (code : Nat) (description : Text)
  deriving DecidableEq, Repr

namespace Failure

def ofSystem (code : Nat) (description : Text) : Failure :=
  match code with
  | 2 => missing
  | 20 => notDirectory
  | 21 => isDirectory
  | 28 => noSpace
  | 36 => nameTooLong
  | 40 => tooManyLinks
  | _ => system code description

def systemMessage (code : Nat) (description : Text) : Text :=
  description ++ " (os error ".toList ++ Nat.toDigits 10 code ++ ")".toList

def message : Failure → Text
  | missing => systemMessage 2 "No such file or directory".toList
  | notDirectory => systemMessage 20 "Not a directory".toList
  | isDirectory => systemMessage 21 "Is a directory".toList
  | noSpace => systemMessage 28 "No space left on device".toList
  | nameTooLong => systemMessage 36 "File name too long".toList
  | tooManyLinks => systemMessage 40 "Too many levels of symbolic links".toList
  | notText => "stream did not contain valid UTF-8".toList
  | nulInPath => "file name contained an unexpected NUL byte".toList
  | system code description => systemMessage code description

end Failure

class Access (m : Type → Type) where
  read : Path → m (Except Failure ByteArray)
  /-- Replaces the content of a file, or creates it. -/
  write : Path → ByteArray → m (Except Failure Unit)
  /-- The ways of both paths can be spelled out from the root, and are the same. -/
  leadAlike : Path → Path → m Bool

end MarkdownPage.File
