import MarkdownPage.Fragment.Expand
import MarkdownPage.Proofs.Fragment.Token
import MarkdownPage.Proofs.Text.Lines

/-!
Outlines, the texts between the passes with each fragment itself in the place of its token. From
its outline follow the lines of such a text, the tokens among them and the store.
-/

namespace MarkdownPage

open Text

inductive Fragment where
  | code (block : CodeBlock)
  | table (raw : Text)
  deriving DecidableEq, Repr

namespace Fragment

def toHtml (e : Html.Escaping) : Fragment → Text
  | code block => Html.codeBlock e block.lang block.body
  | table raw => Table.toHtml raw

def lines (e : Html.Escaping) (x : Fragment) : List Line := Text.lines (x.toHtml e)

end Fragment

inductive Slot where
  | text (l : Line)
  | fragment (x : Fragment)
  deriving DecidableEq, Repr

namespace Slot

def codeBlock? : Slot → Option CodeBlock
  | fragment (.code block) => some block
  | _ => none

def table? : Slot → Option Text
  | fragment (.table raw) => some raw
  | _ => none

def line? : Slot → Option Line
  | text l => some l
  | fragment _ => none

/-- The lines that stand here once the fragments are put back. -/
def lines (e : Html.Escaping) : Slot → List Line
  | text l => [l]
  | fragment x => x.lines e

def Spelled (p : Char → Prop) : Slot → Prop
  | text l => ∀ c ∈ l, p c
  | fragment (.code block) => (∀ c ∈ block.lang, p c) ∧ ∀ c ∈ block.body, p c
  | fragment (.table raw) => ∀ c ∈ raw, p c

def Whole : Slot → Prop
  | text l => '\n' ∉ l
  | fragment _ => True

def lift : Slot → StateM Store Line
  | text l => pure l
  | fragment (.code block) => Token.toLine <$> Store.addCode block
  | fragment (.table raw) => Token.toLine <$> Store.addTable raw

end Slot

abbrev Outline := List Slot

namespace Outline

def codeBlocks (o : Outline) : List CodeBlock := o.filterMap Slot.codeBlock?

def tables (o : Outline) : List Text := o.filterMap Slot.table?

def texts (o : Outline) : List Line := o.filterMap Slot.line?

def lines (e : Html.Escaping) (o : Outline) : List Line := o.flatMap (Slot.lines e)

/-- The tokens of the fragments, counting each kind from a number of its own. -/
def tokens (codes tables : Nat) : Outline → List Token
  | [] => []
  | .text _ :: o => tokens codes tables o
  | .fragment (.code _) :: o => .code codes :: tokens (codes + 1) tables o
  | .fragment (.table _) :: o => .table tables :: tokens codes (tables + 1) o

/-- The lines of the text, with the token of each fragment in its place. -/
def tokenLines (codes tables : Nat) : Outline → List Line
  | [] => []
  | .text l :: o => l :: tokenLines codes tables o
  | .fragment (.code _) :: o => (Token.code codes).toLine :: tokenLines (codes + 1) tables o
  | .fragment (.table _) :: o => (Token.table tables).toLine :: tokenLines codes (tables + 1) o

end Outline

def Store.withFragments (store : Store) (o : Outline) : Store :=
  { codeBlocks := store.codeBlocks ++ o.codeBlocks.toArray
    tables := store.tables ++ o.tables.toArray }

namespace Outline

section Counts

variable (l : Line) (block : CodeBlock) (raw : Text) (o : Outline)

@[simp] theorem code_blocks_nil : codeBlocks [] = [] := rfl
@[simp] theorem tables_nil : tables [] = [] := rfl
@[simp] theorem texts_nil : texts [] = [] := rfl

@[simp] theorem code_blocks_text : codeBlocks (.text l :: o) = codeBlocks o := rfl
@[simp] theorem tables_text : tables (.text l :: o) = tables o := rfl
@[simp] theorem texts_text : texts (.text l :: o) = l :: texts o := rfl

@[simp] theorem code_blocks_code :
    codeBlocks (.fragment (.code block) :: o) = block :: codeBlocks o := rfl
@[simp] theorem tables_code : tables (.fragment (.code block) :: o) = tables o := rfl
@[simp] theorem code_blocks_table : codeBlocks (.fragment (.table raw) :: o) = codeBlocks o := rfl
@[simp] theorem tables_table : tables (.fragment (.table raw) :: o) = raw :: tables o := rfl
@[simp] theorem texts_fragment (x : Fragment) : texts (.fragment x :: o) = texts o := rfl

@[simp] theorem code_blocks_append (o₁ o₂ : Outline) :
    codeBlocks (o₁ ++ o₂) = codeBlocks o₁ ++ codeBlocks o₂ := List.filterMap_append
@[simp] theorem tables_append (o₁ o₂ : Outline) :
    tables (o₁ ++ o₂) = tables o₁ ++ tables o₂ := List.filterMap_append
@[simp] theorem texts_append (o₁ o₂ : Outline) :
    texts (o₁ ++ o₂) = texts o₁ ++ texts o₂ := List.filterMap_append

theorem code_blocks_texts (ls : List Line) : codeBlocks (ls.map .text) = [] :=
  List.filterMap_eq_nil_iff.mpr (List.forall_mem_map.mpr fun _ _ => rfl)

theorem tables_texts (ls : List Line) : tables (ls.map .text) = [] :=
  List.filterMap_eq_nil_iff.mpr (List.forall_mem_map.mpr fun _ _ => rfl)

theorem with_fragments_texts (store : Store) (ls : List Line) :
    store.withFragments (ls.map .text) = store := by
  rw [Store.withFragments, code_blocks_texts, tables_texts]
  simp

theorem with_fragments_code (store : Store) :
    store.withFragments (.fragment (.code block) :: o) =
      { store with codeBlocks := store.codeBlocks.push block : Store }.withFragments o := by
  simp [Store.withFragments]

theorem with_fragments_table (store : Store) :
    store.withFragments (.fragment (.table raw) :: o) =
      { store with tables := store.tables.push raw : Store }.withFragments o := by
  simp [Store.withFragments]

end Counts

theorem lines_texts (e : Html.Escaping) (ls : List Line) : Outline.lines e (ls.map .text) = ls := by
  rw [Outline.lines, List.flatMap_map]
  exact List.flatMap_singleton' ls

theorem lines_around_fragment (e : Html.Escaping) (before after : Outline) (x : Fragment) :
    Outline.lines e (before ++ .fragment x :: after) =
      Outline.lines e before ++ (x.lines e ++ Outline.lines e after) := by
  rw [Outline.lines, List.flatMap_append, List.flatMap_cons]
  rfl

theorem token_lines_append (codes tables : Nat) (o₁ o₂ : Outline) :
    tokenLines codes tables (o₁ ++ o₂) = tokenLines codes tables o₁ ++
      tokenLines (codes + o₁.codeBlocks.length) (tables + o₁.tables.length) o₂ := by
  induction o₁ generalizing codes tables with
  | nil => rfl
  | cons s o ih =>
    cases s with
    | text l => simp only [List.cons_append, tokenLines, ih, code_blocks_text, tables_text]
    | fragment x =>
      cases x <;>
        simp only [List.cons_append, tokenLines, ih, code_blocks_code, tables_code,
          code_blocks_table, tables_table, List.length_cons, Nat.add_assoc, Nat.add_comm 1]

theorem token_lines_texts_append (codes tables : Nat) (ls : List Line) (o : Outline) :
    tokenLines codes tables (ls.map .text ++ o) = ls ++ tokenLines codes tables o := by
  induction ls with
  | nil => rfl
  | cons l ls ih => rw [List.map_cons, List.cons_append, tokenLines, ih, List.cons_append]

theorem token_lines_texts (codes tables : Nat) (ls : List Line) :
    tokenLines codes tables (ls.map .text) = ls := by
  have h := token_lines_texts_append codes tables ls []
  rwa [tokenLines, List.append_nil, List.append_nil] at h

theorem token_lines_codes {o : Outline} (h : o.codeBlocks = []) (codes codes' tables : Nat) :
    o.tokenLines codes tables = o.tokenLines codes' tables := by
  induction o generalizing tables with
  | nil => rfl
  | cons s o ih =>
    cases s with
    | text l => rw [tokenLines, tokenLines, ih h]
    | fragment x =>
      cases x with
      | code block => cases h
      | table raw => rw [tokenLines, tokenLines, ih h]

theorem fragment_step (codes tables : Nat) (x : Fragment) :
    ∃ k codes' tables', ∀ o,
      tokens codes tables (.fragment x :: o) = k :: tokens codes' tables' o ∧
        tokenLines codes tables (.fragment x :: o) = k.toLine :: tokenLines codes' tables' o := by
  cases x with
  | code block => exact ⟨.code codes, codes + 1, tables, fun _ => ⟨rfl, rfl⟩⟩
  | table raw => exact ⟨.table tables, codes, tables + 1, fun _ => ⟨rfl, rfl⟩⟩

theorem token_lines_ne_nil {codes tables : Nat} {o : Outline} (h : o ≠ []) :
    tokenLines codes tables o ≠ [] := by
  obtain ⟨s, o, rfl⟩ := List.exists_cons_of_ne_nil h
  cases s with
  | text l => simp [tokenLines]
  | fragment x =>
    obtain ⟨k, codes', tables', hstep⟩ := fragment_step codes tables x
    rw [(hstep o).2]
    exact List.cons_ne_nil _ _

theorem mem_texts {o : Outline} {l : Line} : l ∈ o.texts ↔ Slot.text l ∈ o := by
  constructor
  · intro h
    obtain ⟨s, hs, hl⟩ := List.mem_filterMap.mp h
    cases s with
    | text m => cases hl; exact hs
    | fragment x => cases hl
  · intro h
    exact List.mem_filterMap.mpr ⟨_, h, rfl⟩

theorem code_of_mem {o : Outline} {block : CodeBlock} (h : block ∈ o.codeBlocks) :
    Slot.fragment (.code block) ∈ o := by
  obtain ⟨s, hs, hblock⟩ := List.mem_filterMap.mp h
  unfold Slot.codeBlock? at hblock
  split at hblock
  all_goals cases hblock
  exact hs

theorem table_of_mem {o : Outline} {raw : Text} (h : raw ∈ o.tables) :
    Slot.fragment (.table raw) ∈ o := by
  obtain ⟨s, hs, hraw⟩ := List.mem_filterMap.mp h
  unfold Slot.table? at hraw
  split at hraw
  all_goals cases hraw
  exact hs

theorem mem_token_lines {codes tables : Nat} {o : Outline} {l : Line}
    (h : l ∈ tokenLines codes tables o) :
    l ∈ o.texts ∨ ∃ k ∈ o.tokens codes tables, l = k.toLine := by
  induction o generalizing codes tables with
  | nil => simp [tokenLines] at h
  | cons s o ih =>
    cases s with
    | text m =>
      rcases List.mem_cons.mp h with rfl | h
      · exact Or.inl List.mem_cons_self
      · exact (ih h).imp_left (List.mem_cons_of_mem m)
    | fragment x =>
      obtain ⟨k, codes', tables', hstep⟩ := fragment_step codes tables x
      rw [(hstep o).2] at h
      rw [(hstep o).1]
      rcases List.mem_cons.mp h with rfl | h
      · exact Or.inr ⟨k, List.mem_cons_self, rfl⟩
      · rcases ih h with hl | ⟨k', hk', hl⟩
        · exact Or.inl hl
        · exact Or.inr ⟨k', List.mem_cons_of_mem k hk', hl⟩

theorem text_mem_token_lines {o : Outline} {l : Line} (h : Slot.text l ∈ o) (codes tables : Nat) :
    l ∈ o.tokenLines codes tables := by
  induction o generalizing codes tables with
  | nil => cases h
  | cons s o ih =>
    cases h with
    | head => exact List.mem_cons_self
    | tail _ h =>
      cases s with
      | text m => exact List.mem_cons_of_mem m (ih h codes tables)
      | fragment x =>
        obtain ⟨k, codes', tables', hstep⟩ := fragment_step codes tables x
        rw [(hstep o).2]
        exact List.mem_cons_of_mem k.toLine (ih h codes' tables')

theorem lines_unlines_token_lines (codes tables : Nat) {o : Outline} (h : ∀ s ∈ o, s.Whole)
    (hne : o ≠ []) :
    Text.lines (unlines (o.tokenLines codes tables)) = o.tokenLines codes tables := by
  refine lines_unlines ?_ (token_lines_ne_nil hne)
  intro l hl
  rcases mem_token_lines hl with hl | ⟨k, -, rfl⟩
  · exact h (.text l) (mem_texts.mp hl)
  · exact k.to_line_newline_free

theorem run_map_cons {π : Type} (f : π → StateM Store Line) (piece : π) (pieces : List π)
    (store : Store) :
    ((piece :: pieces).mapM f).run store =
      (((f piece).run store).1 :: ((pieces.mapM f).run ((f piece).run store).2).1,
        ((pieces.mapM f).run ((f piece).run store).2).2) := by
  rw [List.mapM_cons]
  rfl

/-- Lifting leaves the lines of the outline behind, and its fragments in the store. -/
theorem run_lift {π : Type} {lift : π → StateM Store Line} {slot : π → Slot}
    (h : ∀ piece, lift piece = (slot piece).lift) (pieces : List π) (store : Store) :
    (pieces.mapM lift).run store =
      (tokenLines store.codeBlocks.size store.tables.size (pieces.map slot),
        store.withFragments (pieces.map slot)) := by
  induction pieces generalizing store with
  | nil => simp [tokenLines, Store.withFragments, StateT.run_pure]; rfl
  | cons piece pieces ih =>
    rw [run_map_cons, h piece, ih, List.map_cons]
    cases slot piece with
    | text l => rfl
    | fragment x =>
      cases x with
      | code block =>
        have hrun : (Slot.fragment (.code block)).lift.run store =
            ((Token.code store.codeBlocks.size).toLine,
              { store with codeBlocks := store.codeBlocks.push block }) := rfl
        rw [with_fragments_code, hrun, tokenLines, Array.size_push]
      | table raw =>
        have hrun : (Slot.fragment (.table raw)).lift.run store =
            ((Token.table store.tables.size).toLine,
              { store with tables := store.tables.push raw }) := rfl
        rw [with_fragments_table, hrun, tokenLines, Array.size_push]

end Outline

end MarkdownPage
