import MarkdownPage.Proofs.Bytes.Slice
import MarkdownPage.Proofs.Fence.Decomposition
import MarkdownPage.Table.Run

/-!
Fragments lifted by places. The lines of a text are read by their places among them, and the body of
a code block is the part of them between its fences. Main statements: `lift_eq` and `lift_tables_eq`,
by which this never fails and leaves the same text and the same store behind.
-/

namespace MarkdownPage.Bytes

open Text Fence

/-- Keep a code block, and name it by the place where it then stands. -/
def pushCode (block : CodeBlock) (store : Store) : Checked (Token × Store) := do
  let codeBlocks := store.codeBlocks.push block
  let place ← minus codeBlocks.size 1
  .ok (.code place, { store with codeBlocks := codeBlocks })

def pushTable (raw : Text) (store : Store) : Checked (Token × Store) := do
  let tables := store.tables.push raw
  let place ← minus tables.size 1
  .ok (.table place, { store with tables := tables })

theorem push_code_eq (block : CodeBlock) (store : Store) :
    pushCode block store = .ok ((Store.addCode block).run store) := by
  rw [pushCode]
  simp only [Array.size_push, minus_add, ok_bind]
  rfl

theorem push_table_eq (raw : Text) (store : Store) :
    pushTable raw store = .ok ((Store.addTable raw).run store) := by
  rw [pushTable]
  simp only [Array.size_push, minus_add, ok_bind]
  rfl

/-- The tag of the fence that opens at the place, and how many lines its block has. -/
def fencedAt (ls : List Line) (place : Nat) (l : Line) (exhausted : Bool) :
    Checked (Bool × Option (Text × Nat)) :=
  match langTag? l, exhausted with
  | some tag, false => do
    let behind ← part ls (place + 1) ls.length
    let close := behind.findIdx? isClosing
    .ok (close.isNone, close.map (tag, ·))
  | _, _ => .ok (exhausted, none)

def liftFrom (ls : List Line) (place : Nat) (exhausted : Bool) (written : List Line)
    (store : Store) : Checked (List Line × Store) :=
  if place < ls.length then do
    let l ← entry ls place
    let (exhausted, fenced) ← fencedAt ls place l exhausted
    match fenced with
    | some (tag, close) => do
      let body ← part ls (place + 1) (place + 1 + close)
      let (token, store) ← pushCode ⟨language tag, unlines body⟩ store
      liftFrom ls (place + (close + 2)) exhausted (written ++ [token.toLine]) store
    | none => liftFrom ls (place + 1) exhausted (written ++ [l]) store
  else .ok (written, store)
termination_by ls.length - place

def lift (t : Text) (store : Store) : Checked (Text × Store) := do
  let (ls, store) ← liftFrom (lines t) 0 false [] store
  .ok (unlines ls, store)

theorem close_place (ls : List Line) :
    ls.findIdx? isClosing = (closeBlock? ls).map fun (body, _, _) => body.length := by
  cases hclose : closeBlock? ls with
  | none => exact List.findIdx?_eq_none_iff.mpr (close_block_none_iff.mp hclose)
  | some block =>
    obtain ⟨body, closing, rest⟩ := block
    obtain ⟨rfl, hclosing, hbody⟩ := close_block_iff.mp hclose
    have hnone : body.findIdx? isClosing = none := List.findIdx?_eq_none_iff.mpr hbody
    rw [List.findIdx?_append, hnone, List.findIdx?_cons, if_pos hclosing]
    simp

theorem fenced_at_tag {l : Line} {tag : Text} (htag : langTag? l = some tag)
    (before ls : List Line) : fencedAt (before ++ l :: ls) before.length l false =
      .ok ((closeBlock? ls).isNone, (closeBlock? ls).map fun (body, _, _) => (tag, body.length)) := by
  have hbehind := part_append (before ++ [l]) ls
  rw [← List.append_cons, List.length_append] at hbehind
  have hpart : part (before ++ l :: ls) (before.length + 1) (before ++ l :: ls).length = .ok ls :=
    hbehind
  simp only [fencedAt, htag, hpart, ok_bind, close_place]
  cases closeBlock? ls <;> rfl

theorem fenced_at_text {l : Line} {exhausted : Bool}
    (h : ∀ tag, langTag? l = some tag → exhausted = false → False) (ls : List Line) (place : Nat) :
    fencedAt ls place l exhausted = .ok (exhausted, none) := by
  rw [fencedAt]
  exact h

section Steps

variable (before ls written : List Line) (store : Store) {l : Line}

theorem lift_text {exhausted next : Bool}
    (h : fencedAt (before ++ l :: ls) before.length l exhausted = .ok (next, none)) :
    liftFrom (before ++ l :: ls) before.length exhausted written store =
      liftFrom (before ++ [l] ++ ls) (before ++ [l]).length next (written ++ [l]) store := by
  have hin : before.length < (before ++ l :: ls).length := by simp
  rw [liftFrom, if_pos hin, entry_length, ok_bind, h, ok_bind, List.append_cons, List.length_append]
  rfl

theorem lift_block {body rest : List Line} {closing : Line} {tag : Text}
    (htag : langTag? l = some tag) (hclose : closeBlock? ls = some (body, closing, rest)) :
    let kept := (Store.addCode ⟨language tag, unlines body⟩).run store
    liftFrom (before ++ l :: ls) before.length false written store =
      liftFrom (before ++ l :: body ++ [closing] ++ rest) (before ++ l :: body ++ [closing]).length
        false (written ++ [kept.1.toLine]) kept.2 := by
  have hin : before.length < (before ++ l :: ls).length := by simp
  have hls := (close_block_iff.mp hclose).1
  have hbody := part_between (before ++ [l]) body (closing :: rest)
  have hwhole : before ++ [l] ++ body ++ closing :: rest = before ++ l :: ls := by simp [hls]
  have hrest : before ++ l :: body ++ [closing] ++ rest = before ++ l :: ls := by simp [hls]
  have hplace : (before ++ l :: body ++ [closing]).length = before.length + (body.length + 2) := by
    simp only [List.length_append, List.length_cons, List.length_nil]
    omega
  rw [hwhole, List.length_append, List.length_singleton] at hbody
  rw [liftFrom, if_pos hin, entry_length, ok_bind, fenced_at_tag htag, ok_bind, hclose, hrest, hplace]
  simp only [Option.map_some, hbody, ok_bind, push_code_eq]
  rfl

end Steps

theorem lift_from_eq (before ls : List Line) (exhausted : Bool) (written : List Line)
    (store : Store) :
    liftFrom (before ++ ls) before.length exhausted written store =
      let lifted := ((piecesFrom exhausted ls).mapM Piece.lift).run store
      .ok (written ++ lifted.1, lifted.2) := by
  fun_induction piecesFrom exhausted ls generalizing before written store with
  | case1 exhausted =>
    rw [liftFrom, if_neg (by simp), List.mapM_nil]
    exact congrArg Except.ok (Prod.ext (List.append_nil written).symm rfl)
  | case2 l ls tag htag body closing rest hclose hlt ih =>
    rw [lift_block before ls written store htag hclose, ih, Outline.run_map_cons]
    simp only [List.append_assoc]
    rfl
  | case3 l ls tag htag hclose ih =>
    have hfenced := fenced_at_tag htag before ls
    rw [hclose, Option.isNone_none, Option.map_none] at hfenced
    rw [lift_text before ls written store hfenced, ih, Outline.run_map_cons]
    simp only [List.append_assoc]
    rfl
  | case4 exhausted l ls hopen ih =>
    rw [lift_text before ls written store (fenced_at_text hopen _ _), ih, Outline.run_map_cons]
    simp only [List.append_assoc]
    rfl

theorem lift_eq (t : Text) (store : Store) : lift t store = .ok ((Fence.lift t).run store) := by
  have hfrom : liftFrom (lines t) 0 false [] store = _ := lift_from_eq [] (lines t) false [] store
  rw [lift, hfrom]
  rfl

section Tables

def liftPiece (piece : Table.Piece) : StateT Store Checked Line := fun store =>
  match piece with
  | .text l => .ok (l, store)
  | .run rows => do
    let (token, store) ← pushTable (unlines rows) store
    .ok (token.toLine, store)

def liftTables (t : Text) (store : Store) : Checked (Text × Store) := do
  let (ls, store) ← ((Table.pieces (lines t)).mapM liftPiece).run store
  .ok (unlines ls, store)

theorem lift_piece_eq (piece : Table.Piece) (store : Store) :
    (liftPiece piece).run store = .ok (piece.lift.run store) := by
  cases piece with
  | text l => rfl
  | run rows =>
    have hpush := push_table_eq (unlines rows) store
    simp only [liftPiece, StateT.run, hpush, ok_bind]
    rfl

theorem lift_pieces_eq (pieces : List Table.Piece) (store : Store) :
    (pieces.mapM liftPiece).run store = .ok ((pieces.mapM Table.Piece.lift).run store) := by
  induction pieces generalizing store with
  | nil => rfl
  | cons piece pieces ih =>
    rw [List.mapM_cons, StateT.run_bind, lift_piece_eq, ok_bind, StateT.run_bind, ih, ok_bind,
      Outline.run_map_cons]
    rfl

theorem lift_tables_eq (t : Text) (store : Store) :
    liftTables t store = .ok ((Table.lift t).run store) := by
  rw [liftTables, lift_pieces_eq, ok_bind]
  rfl

end Tables

end MarkdownPage.Bytes
