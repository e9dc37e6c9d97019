import MarkdownPage.File.Access
import MarkdownPage.Text.Encoded

/-!
A volume of directories, files and symbolic links, and how a path leads through it. Every name but
the last must lead to a directory, links are followed wherever they stand, and only so many of
them on one way. The system may refuse to search a directory, and to read or write what a path
leads to.
-/

namespace MarkdownPage.File

/-- The one way to compare contents here, whichever other instances are in scope. -/
instance contentDecidableEq : DecidableEq ByteArray := ByteArray.decEq

inductive Node where
  | directory
  | file (content : ByteArray)
  | link (target : Path)
  deriving DecidableEq

/-- The names that lead to a place from the root, the last one first. -/
abbrev Location := List Text

inductive Right where
  | search
  | read
  | write
  deriving DecidableEq, Repr

/-- The root is always a directory. Relative paths begin at the working directory. -/
structure Volume where
  nodes : List (Location × Node)
  workingDirectory : Location
  /-- What the system refuses, and why. Where nothing stands, this is for what is created there. -/
  refusals : List ((Location × Right) × Failure) := []
  deriving DecidableEq

inductive Step where
  | stay
  | up
  | enter (name : Text)
  /-- The slash at the end of a path. -/
  | finalSlash
  deriving DecidableEq, Repr

def Step.ofPiece? (piece : Text) : Option Step :=
  if piece = [] then none
  else if piece = Path.dot then some .stay
  else if piece = Path.dots then some .up
  else some (.enter piece)

def steps (p : Path) : List Step :=
  p.pieces.filterMap Step.ofPiece? ++ if p.getLast? = some '/' then [.finalSlash] else []

/-- What a path is followed for. -/
inductive Mode where
  /-- To find what is there. -/
  | existing
  /-- To open a file, which may be created under the last name. -/
  | creating
  /-- To spell out the way from the root: each place on it is looked up by its full path. -/
  | spelling
  deriving DecidableEq, Repr

inductive Target where
  | directory (l : Location)
  | file (l : Location) (content : ByteArray)
  | absent (l : Location)
  deriving DecidableEq

def Target.location : Target → Location
  | directory l => l
  | file l _ => l
  | absent l => l

def Target.content : Target → Except Failure ByteArray
  | directory _ => .error .isDirectory
  | file _ content => .ok content
  | absent _ => .error .missing

/-- Where writing changes something: in the file, or in the directory that a new file is put in. -/
def Target.written : Target → Location
  | directory l => l
  | file l _ => l
  | absent l => l.tail

/-- The longest name, in bytes. -/
def nameLimit : Nat := 255

/-- The first length of a path, in bytes, that is too long to open. -/
def pathLimit : Nat := 4096

/-- How many links one path may follow. -/
def linkLimit : Nat := 40

/-- In bytes, with a slash before each name. -/
def spelledLength : Location → Nat
  | [] => 0
  | name :: rest => Text.byteLength name + 1 + spelledLength rest

/-- The steps behind a name ask whether it is a directory: they end there, or go up from it. -/
def asksDirectory : List Step → Bool
  | [] => false
  | .enter _ :: _ => false
  | .up :: _ => true
  | .stay :: rest | .finalSlash :: rest => rest.isEmpty || asksDirectory rest

def withParents : Location → List Location
  | [] => [[]]
  | name :: rest => (name :: rest) :: withParents rest

/-- The directories that are searched at a step from directory `here`. -/
def Mode.searched : Mode → Location → Step → List Location
  | _, _, .finalSlash => []
  | .spelling, here, .enter _ => withParents here
  | .spelling, _, _ => []
  | _, here, _ => [here]

/-- The place cannot be looked up by its full path, which may have a slash behind it. -/
def Mode.unspellable (mode : Mode) (l : Location) (slash : Bool) : Bool :=
  mode = .spelling && pathLimit ≤ spelledLength l + slash.toNat

namespace Volume

def node? (v : Volume) : Location → Option Node
  | [] => some .directory
  | l => v.nodes.lookup l

def refusal? (v : Volume) (l : Location) (right : Right) : Option Failure :=
  v.refusals.lookup (l, right)

def put (v : Volume) (l : Location) (node : Node) : Volume :=
  { v with nodes := (l, node) :: v.nodes.filter fun entry => entry.1 ≠ l }

/-- The directory where a path begins that is met in directory `here`. -/
def origin (here : Location) (p : Path) : Location := if p.head? = some '/' then [] else here

def stepRefusal? (v : Volume) (mode : Mode) (here : Location) (step : Step) : Option Failure :=
  (mode.searched here step).findSome? fun l => v.refusal? l .search

/-- Follow steps from a directory. A link is replaced by the steps of its target. -/
def walk (v : Volume) (mode : Mode) (links : Nat) (here : Location) :
    List Step → Except Failure Target
  | [] => .ok (.directory here)
  | step :: rest =>
    match v.stepRefusal? mode here step with
    | some cause => .error cause
    | none =>
      match step with
      | .stay => walk v mode links here rest
      | .finalSlash => walk v mode links here rest
      | .up => walk v mode links here.tail rest
      | .enter name =>
        if mode = .creating ∧ rest = [.finalSlash] then .error .isDirectory
        else if nameLimit < Text.byteLength name then .error .nameTooLong
        else if mode.unspellable (name :: here) false then .error .nameTooLong
        else
          match v.node? (name :: here) with
          | some .directory =>
            if mode.unspellable (name :: here) (asksDirectory rest) then .error .nameTooLong
            else walk v mode links (name :: here) rest
          | some (.file content) =>
            if rest = [] then .ok (.file (name :: here) content) else .error .notDirectory
          | some (.link target) =>
            match links with
            | 0 => .error .tooManyLinks
            | links + 1 => walk v mode links (origin here target) (steps target ++ rest)
          | none =>
            if mode = .creating ∧ rest = [] then .ok (.absent (name :: here)) else .error .missing
termination_by ss => (links, ss.length)

def resolve (v : Volume) (mode : Mode) (p : Path) : Except Failure Target :=
  if p.contains '\x00' then .error .nulInPath
  else if p.isEmpty then .error .missing
  else v.walk mode linkLimit (origin v.workingDirectory p) (steps p)

/-- Resolve a path in order to open what it leads to. -/
def openPath (v : Volume) (mode : Mode) (p : Path) : Except Failure Target :=
  if p.contains '\x00' then .error .nulInPath
  else if pathLimit ≤ Text.byteLength p then .error .nameTooLong
  else v.resolve mode p

def read (v : Volume) (p : Path) : Except Failure ByteArray :=
  match v.openPath .existing p with
  | .ok target =>
    match v.refusal? target.location .read with
    | some cause => .error cause
    | none => target.content
  | .error failure => .error failure

def write (v : Volume) (p : Path) (content : ByteArray) : Except Failure Volume :=
  match v.openPath .creating p with
  | .ok (.directory _) => .error .isDirectory
  | .ok target =>
    match v.refusal? target.written .write with
    | some cause => .error cause
    | none => .ok (v.put target.location (.file content))
  | .error failure => .error failure

def leadAlike (v : Volume) (p q : Path) : Bool :=
  match v.resolve .spelling p, v.resolve .spelling q with
  | .ok target, .ok target' => target.location = target'.location
  | _, _ => false

instance : Access (StateM Volume) where
  read p := return (← get).read p
  write p content := do
    match (← get).write p content with
    | .ok v =>
      set v
      return .ok ()
    | .error failure => return .error failure
  leadAlike p q := return (← get).leadAlike p q

end Volume

end MarkdownPage.File
