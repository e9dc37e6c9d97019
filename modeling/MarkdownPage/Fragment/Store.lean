import MarkdownPage.Fragment.Token

/-!
The store of lifted fragments. Fragments are only ever added, and the token of a fragment is its
place in the order in which its kind was lifted.
-/

namespace MarkdownPage

/-- A fenced code block. The body holds the lines between the fences, untouched. -/
structure CodeBlock where
  lang : Text
  body : Text
  deriving DecidableEq, Repr

structure Store where
  codeBlocks : Array CodeBlock := #[]
  /-- Tables as they stand in the source. -/
  tables : Array Text := #[]
  deriving DecidableEq, Repr

namespace Store

def addCode (block : CodeBlock) : StateM Store Token := fun store =>
  (.code store.codeBlocks.size, { store with codeBlocks := store.codeBlocks.push block })

def addTable (raw : Text) : StateM Store Token := fun store =>
  (.table store.tables.size, { store with tables := store.tables.push raw })

end Store

end MarkdownPage
