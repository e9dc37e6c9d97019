import MarkdownPage.File.Volume

/-!
The working directory as a list of named entries: laying it out from such a list, and listing it
again. The name of a directory ends with a slash.
-/

namespace MarkdownPage.File

/-- An empty working directory. No path can spell the names on the way to it, so a path that leaves
it upwards cannot come back. -/
def Volume.fresh : Volume :=
  let parent : Location := [[]]
  { nodes := [([] :: parent, .directory), (parent, .directory)], workingDirectory := [] :: parent }

namespace Layout

def enterDirectory? (v : Volume) (here : Location) : Step → Option (Volume × Location)
  | .stay | .finalSlash => some (v, here)
  | .up => some (v, here.tail)
  | .enter name =>
    match v.node? (name :: here), v.walk .existing linkLimit here [.enter name] with
    | none, _ => some (v.put (name :: here) .directory, name :: here)
    | _, .ok (.directory l) => some (v, l)
    | _, _ => none

/-- Put a node in a directory, under a name. A file is written through a link; a link needs a name
that is free. -/
def putNamed? (v : Volume) (here : Location) (name : Text) : Node → Option Volume
  | .directory => (enterDirectory? v here (.enter name)).map Prod.fst
  | .link target =>
    match v.node? (name :: here) with
    | none => some (v.put (name :: here) (.link target))
    | some _ => none
  | .file content =>
    match v.walk .creating linkLimit here [.enter name] with
    | .ok (.directory _) => none
    | .ok target => some (v.put target.location (.file content))
    | .error _ => none

/-- Put a node where the steps from a directory lead, and make the directories on the way. Steps
that do not end in a name lead to a directory, and nothing more is put there. A node that cannot
be put there is left out. -/
def place (v : Volume) (here : Location) (node : Node) : List Step → Volume
  | [] => v
  | [.enter name] => (putNamed? v here name node).getD v
  | step :: rest =>
    match enterDirectory? v here step with
    | some (v, next) => place v next node rest
    | none => v

def ofEntries (entries : List (Path × Node)) : Volume :=
  entries.foldl (fun v entry => place v v.workingDirectory entry.2 (steps entry.1)) .fresh

def entryName? (v : Volume) (l : Location) : Option Path :=
  (v.workingDirectory.isSuffixOf? l).bind fun below =>
    if below.isEmpty then none else some (['/'].intercalate below.reverse)

def entries (v : Volume) : List (Path × Node) :=
  v.nodes.filterMap fun (l, node) =>
    (entryName? v l).map fun name =>
      (if node = .directory then name ++ ['/'] else name, node)

end Layout

end MarkdownPage.File
