import MarkdownPage.Text.Affix

/-!
Tokens, the lines that stand in for lifted fragments. A token is framed by two private-use
characters which are erased from every source beforehand, so no source can spell one.
-/

namespace MarkdownPage

/-- Names a lifted fragment by its kind and by its place among those of that kind. -/
inductive Token where
  | code (index : Nat)
  | table (index : Nat)
  deriving DecidableEq, Repr

namespace Token

def frameStart : Char := '\uE000'

def frameEnd : Char := '\uE001'

def codeName : Text := "CODE_BLOCK_".toList

def tableName : Text := "TABLE_".toList

def toLine : Token → Line
  | code i => frameStart :: codeName ++ Nat.toDigits 10 i ++ [frameEnd]
  | table i => frameStart :: tableName ++ Nat.toDigits 10 i ++ [frameEnd]

/-- Indexes are 64-bit words; larger numbers are not indexes. -/
def indexLimit : Nat := UInt64.size

/-- One or more decimal digits, whose value is an index. -/
def readDigits? (digits : Text) : Option Nat :=
  let value := Nat.ofDigitChars 10 digits 0
  if !digits.isEmpty && digits.all Char.isDigit && value < indexLimit then some value else none

/-- An index may have one plus sign in front. -/
def readIndex? : Text → Option Nat
  | '+' :: digits => readDigits? digits
  | digits => readDigits? digits

/-- The token that occupies the whole line. -/
def ofLine? (l : Line) : Option Token := do
  let inner ← Text.dropSuffix? [frameEnd] (← Text.dropPrefix? [frameStart] l)
  match Text.dropPrefix? codeName inner with
  | some index => (readIndex? index).map code
  | none =>
    match Text.dropPrefix? tableName inner with
    | some index => (readIndex? index).map table
    | none => none

def isFrame (c : Char) : Bool := c = frameStart || c = frameEnd

def eraseFrames (t : Text) : Text := t.filter fun c => !isFrame c

theorem not_isFrame_of_mem_eraseFrames {t : Text} {c : Char} (h : c ∈ eraseFrames t) :
    isFrame c = false := by
  simpa using (List.mem_filter.1 h).2

end Token

end MarkdownPage
