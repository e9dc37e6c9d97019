import MarkdownPage.Proofs.Fragment.Outline

/-!
Reading the tokens of a text back. If the lines around the tokens hold no frames, the tokens read
are those of the outline, in its order, and putting the fragments back gives its own lines.
-/

namespace MarkdownPage

open Text

namespace Token

def codeIndex? : Token → Option Nat
  | code i => some i
  | table _ => none

def tableIndex? : Token → Option Nat
  | code _ => none
  | table i => some i

end Token

def Store.Holds (store : Store) : Token → Prop
  | .code i => i < store.codeBlocks.size
  | .table i => i < store.tables.size

namespace Outline

variable {codes tables : Nat} {o : Outline}

theorem code_indexes (codes tables : Nat) (o : Outline) :
    (o.tokens codes tables).filterMap Token.codeIndex? =
      List.range' codes o.codeBlocks.length := by
  induction o generalizing codes tables with
  | nil => rfl
  | cons s o ih =>
    cases s with
    | text l => exact ih codes tables
    | fragment x =>
      cases x with
      | code block =>
        have hcode : Token.codeIndex? (.code codes) = some codes := rfl
        rw [tokens, List.filterMap_cons_some hcode, ih, code_blocks_code, List.length_cons,
          List.range'_succ]
      | table raw => exact ih codes (tables + 1)

theorem table_indexes (codes tables : Nat) (o : Outline) :
    (o.tokens codes tables).filterMap Token.tableIndex? =
      List.range' tables o.tables.length := by
  induction o generalizing codes tables with
  | nil => rfl
  | cons s o ih =>
    cases s with
    | text l => exact ih codes tables
    | fragment x =>
      cases x with
      | code block => exact ih (codes + 1) tables
      | table raw =>
        have htable : Token.tableIndex? (.table tables) = some tables := rfl
        rw [tokens, List.filterMap_cons_some htable, ih, tables_table, List.length_cons,
          List.range'_succ]

theorem holds_of_mem {k : Token} (hk : k ∈ o.tokens 0 0) : (Store.withFragments {} o).Holds k := by
  cases k with
  | code i =>
    have hi : i ∈ List.range' 0 o.codeBlocks.length := by
      rw [← code_indexes 0 0]
      exact List.mem_filterMap.mpr ⟨_, hk, rfl⟩
    simpa [Store.Holds, Store.withFragments] using hi
  | table i =>
    have hi : i ∈ List.range' 0 o.tables.length := by
      rw [← table_indexes 0 0]
      exact List.mem_filterMap.mpr ⟨_, hk, rfl⟩
    simpa [Store.Holds, Store.withFragments] using hi

/-- The numbers of the fragments can all be read back. -/
def Numbered (o : Outline) : Prop :=
  o.codeBlocks.length ≤ Token.indexLimit ∧ o.tables.length ≤ Token.indexLimit

theorem numbered_of_length (h : o.length ≤ Token.indexLimit) : o.Numbered :=
  ⟨Nat.le_trans (List.length_filterMap_le Slot.codeBlock? o) h,
    Nat.le_trans (List.length_filterMap_le Slot.table? o) h⟩

theorem index_lt (h : o.Numbered) {k : Token} (hk : k ∈ o.tokens 0 0) :
    k.index < Token.indexLimit := by
  have hholds := holds_of_mem hk
  cases k with
  | code i =>
    have hi : i < o.codeBlocks.length := by simpa [Store.Holds, Store.withFragments] using hholds
    exact Nat.lt_of_lt_of_le hi h.1
  | table i =>
    have hi : i < o.tables.length := by simpa [Store.Holds, Store.withFragments] using hholds
    exact Nat.lt_of_lt_of_le hi h.2

theorem tokens_of_token_lines (h : ∀ l ∈ o.texts, Token.Unframed l)
    (hk : ∀ k ∈ o.tokens codes tables, k.index < Token.indexLimit) :
    (o.tokenLines codes tables).filterMap Token.ofLine? = o.tokens codes tables := by
  induction o generalizing codes tables with
  | nil => rfl
  | cons s o ih =>
    cases s with
    | text l =>
      rw [texts_text, List.forall_mem_cons] at h
      rw [tokenLines, List.filterMap_cons_none (Token.of_line_unframed h.1)]
      exact ih h.2 hk
    | fragment x =>
      obtain ⟨k, codes', tables', hstep⟩ := fragment_step codes tables x
      rw [(hstep o).1, List.forall_mem_cons] at hk
      rw [(hstep o).1, (hstep o).2, List.filterMap_cons_some (Token.of_line_to_line hk.1),
        ih h hk.2]

theorem expand_line_text (store : Store) (e : Html.Escaping) {l : Line} (h : Token.Unframed l) :
    store.expandLine e l = l := by
  rw [Store.expandLine, Token.of_line_unframed h]

theorem expand_line_code {store : Store} (e : Html.Escaping) {i : Nat} {block : CodeBlock}
    (hi : i < Token.indexLimit) (h : store.codeBlocks[i]? = some block) :
    store.expandLine e (Token.code i).toLine = (Fragment.code block).toHtml e := by
  have hk : Token.ofLine? (Token.code i).toLine = some (.code i) := Token.of_line_to_line hi
  simp only [Store.expandLine, hk, h]
  rfl

theorem expand_line_table {store : Store} (e : Html.Escaping) {i : Nat} {raw : Text}
    (hi : i < Token.indexLimit) (h : store.tables[i]? = some raw) :
    store.expandLine e (Token.table i).toLine = (Fragment.table raw).toHtml e := by
  have hk : Token.ofLine? (Token.table i).toLine = some (.table i) := Token.of_line_to_line hi
  simp only [Store.expandLine, hk, h]
  rfl

theorem drop_eq_cons {α : Type} {xs rest : List α} {a : α} {n : Nat}
    (h : xs.drop n = a :: rest) : xs[n]? = some a ∧ xs.drop (n + 1) = rest := by
  constructor
  · have hget : (xs.drop n)[0]? = some a := by rw [h, List.getElem?_cons_zero]
    rwa [List.getElem?_drop, Nat.add_zero] at hget
  · rw [← List.drop_drop, h, List.drop_one, List.tail_cons]

/-- Putting back the fragments of a store whose entries from `codes` and `tables` on are those of
the outline. -/
theorem expand_token_lines {store : Store} (e : Html.Escaping)
    (hcodes : store.codeBlocks.toList.drop codes = o.codeBlocks)
    (htables : store.tables.toList.drop tables = o.tables)
    (hk : ∀ k ∈ o.tokens codes tables, k.index < Token.indexLimit)
    (h : ∀ l ∈ o.texts, Token.Unframed l ∧ '\n' ∉ l) :
    relined (List.map (store.expandLine e)) (o.tokenLines codes tables) = o.lines e := by
  rw [relined]
  induction o generalizing codes tables with
  | nil => rfl
  | cons s o ih =>
    cases s with
    | text l =>
      rw [texts_text, List.forall_mem_cons] at h
      rw [tokenLines, List.map_cons, List.flatMap_cons, expand_line_text store e h.1.1,
        lines_of_newline_free h.1.2, ih hcodes htables hk h.2]
      rfl
    | fragment x =>
      cases x with
      | code block =>
        rw [tokens, List.forall_mem_cons] at hk
        have hi : codes < Token.indexLimit := hk.1
        obtain ⟨hblock, hrest⟩ := drop_eq_cons hcodes
        rw [Array.getElem?_toList] at hblock
        rw [tokenLines, List.map_cons, List.flatMap_cons, expand_line_code e hi hblock,
          ih hrest htables hk.2 h]
        rfl
      | table raw =>
        rw [tokens, List.forall_mem_cons] at hk
        have hi : tables < Token.indexLimit := hk.1
        obtain ⟨hraw, hrest⟩ := drop_eq_cons htables
        rw [Array.getElem?_toList] at hraw
        rw [tokenLines, List.map_cons, List.flatMap_cons, expand_line_table e hi hraw,
          ih hcodes hrest hk.2 h]
        rfl

end Outline

end MarkdownPage
