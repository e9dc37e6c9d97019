import Mathlib.Data.List.Forall2
import Mathlib.Data.List.TakeWhile
import MarkdownPage.Proofs.Fence

/-!
Lifting code blocks as a decomposition of the text. The scan takes each block from the first opening
fence that is closed to the first closing fence behind it, and the flag by which it stops looking
changes nothing. What it takes away can be put back line for line, and what it leaves holds no block.
-/

namespace MarkdownPage

open Text

namespace Fence

/-- The scan that looks for a closing fence afresh at every opening fence. -/
def scan : List Line → List Piece
  | [] => []
  | l :: ls =>
    match langTag? l with
    | none => .text l :: scan ls
    | some tag =>
      match h : closeBlock? ls with
      | none => .text l :: scan ls
      | some (body, closing, rest) =>
        have := closeBlock?_length h
        .block l tag body closing :: scan rest
termination_by ls => ls.length
decreasing_by
  · exact Nat.lt_succ_self ls.length
  · exact Nat.lt_succ_self ls.length
  · exact Nat.lt_succ_of_lt this

def liftAfresh (t : Text) : StateM Store Text := do
  let ls ← (scan (lines t)).mapM Piece.lift
  pure (unlines ls)

section Scan

theorem lang_tag_token (k : Token) : langTag? k.toLine = none := by
  obtain ⟨s, hs⟩ := k.to_line_framed
  have hmarker : dropPrefix? marker k.toLine = none := by
    rw [hs]
    exact dropPrefix?_cons_ne (by decide) _ _
  rw [langTag?, k.trim_to_line, hmarker, Option.filter_none]

theorem close_block_none_iff {ls : List Line} :
    closeBlock? ls = none ↔ ∀ l ∈ ls, isClosing l = false := by
  have hnil : ls.dropWhile (!isClosing ·) = [] ↔ ∀ l ∈ ls, isClosing l = false := by
    simp [List.dropWhile_eq_nil_iff]
  rw [← hnil, closeBlock?]
  split
  · next h => simp [h]
  · next h => simp [h]

theorem scan_text {l : Line} (h : langTag? l = none) (ls : List Line) :
    scan (l :: ls) = .text l :: scan ls := by
  rw [scan]
  simp only [h]

theorem scan_unclosed {l : Line} {ls : List Line} (h : closeBlock? ls = none) :
    scan (l :: ls) = .text l :: scan ls := by
  rw [scan]
  split
  · rfl
  · split
    · rfl
    · next hsome =>
      rw [h] at hsome
      cases hsome

theorem scan_block {l : Line} {ls body rest : List Line} {tag : Text} {closing : Line}
    (htag : langTag? l = some tag) (h : closeBlock? ls = some (body, closing, rest)) :
    scan (l :: ls) = .block l tag body closing :: scan rest := by
  rw [scan]
  simp only [htag]
  split
  · next hnone =>
    rw [h] at hnone
    cases hnone
  · next hsome =>
    rw [h] at hsome
    cases hsome
    rfl

/-- The flag is only set where there is no closing fence ahead. -/
theorem pieces_from_eq_scan {exhausted : Bool} {ls : List Line}
    (h : exhausted = true → ∀ l ∈ ls, isClosing l = false) : piecesFrom exhausted ls = scan ls := by
  fun_induction piecesFrom exhausted ls with
  | case1 => rw [scan]
  | case2 l ls tag htag body closing rest hclose _ ih =>
    rw [scan_block htag hclose, ih fun hex => absurd hex Bool.false_ne_true]
  | case3 l ls tag htag hnone ih =>
    rw [scan_unclosed hnone, ih fun _ => close_block_none_iff.mp hnone]
  | case4 exhausted l ls hopen ih =>
    have hls := ih fun hex => fun m hm => h hex m (List.mem_cons_of_mem l hm)
    cases htag : langTag? l with
    | none => rw [scan_text htag, hls]
    | some tag =>
      have hex : exhausted = true := by
        by_contra hne
        exact hopen tag htag (by simpa using hne)
      have hnone : closeBlock? ls = none :=
        close_block_none_iff.mpr fun m hm => h hex m (List.mem_cons_of_mem l hm)
      rw [scan_unclosed hnone, hls]

theorem pieces_eq_scan (ls : List Line) : pieces ls = scan ls :=
  pieces_from_eq_scan fun hex => absurd hex Bool.false_ne_true

theorem lift_eq_afresh (t : Text) : lift t = liftAfresh t := by
  rw [lift, liftAfresh, pieces_eq_scan]

theorem scan_of_no_closing {ls : List Line} (h : ∀ l ∈ ls, isClosing l = false) :
    scan ls = ls.map .text := by
  induction ls with
  | nil => rw [scan]; rfl
  | cons l ls ih =>
    rw [List.forall_mem_cons] at h
    rw [scan_unclosed (close_block_none_iff.mpr h.2), ih h.2, List.map_cons]

end Scan

structure Fenced where
  opening : Line
  body : List Line
  closing : Line
  deriving DecidableEq, Repr

def Fenced.lines (f : Fenced) : List Line := f.opening :: f.body ++ [f.closing]

def Piece.fenced? : Piece → Option Fenced
  | .text _ => none
  | .block opening _ body closing => some ⟨opening, body, closing⟩

def fences (ps : List Piece) : List Fenced := ps.filterMap Piece.fenced?

def Piece.lines : Piece → List Line
  | .text l => [l]
  | .block opening _ body closing => (Fenced.mk opening body closing).lines

/-- The line, or the lines of a block if it is the token of one; blocks are counted from `n`. -/
def putBack (n : Nat) : List Fenced → Line → List Line
  | [], l => [l]
  | f :: fs, l => if l = (Token.code n).toLine then f.lines else putBack (n + 1) fs l

section Pieces

theorem fences_text (l : Line) (ps : List Piece) : fences (.text l :: ps) = fences ps := rfl

theorem fences_block (opening : Line) (tag : Text) (body : List Line) (closing : Line)
    (ps : List Piece) :
    fences (.block opening tag body closing :: ps) = ⟨opening, body, closing⟩ :: fences ps := rfl

theorem lines_of_pieces (ls : List Line) : (pieces ls).flatMap Piece.lines = ls := by
  rw [pieces_eq_scan]
  fun_induction scan ls with
  | case1 => rfl
  | case2 l ls _ ih => rw [List.flatMap_cons, ih, Piece.lines, List.singleton_append]
  | case3 l ls tag _ _ ih => rw [List.flatMap_cons, ih, Piece.lines, List.singleton_append]
  | case4 l ls tag htag body closing rest hclose _ ih =>
    rw [List.flatMap_cons, ih, (close_block_iff.mp hclose).1]
    simp [Piece.lines, Fenced.lines]

theorem mem_of_piece {ls : List Line} {piece : Piece} (hpiece : piece ∈ pieces ls) {l : Line}
    (hl : l ∈ piece.lines) : l ∈ ls := by
  rw [← lines_of_pieces ls]
  exact List.mem_flatMap.mpr ⟨piece, hpiece, hl⟩

/-- A block has an opening fence with its tag, then lines that do not close it, and one that does. -/
def Piece.Closed : Piece → Prop
  | .text _ => True
  | .block opening tag body closing =>
    langTag? opening = some tag ∧ isClosing closing = true ∧ ∀ l ∈ body, isClosing l = false

theorem pieces_closed (ls : List Line) : ∀ piece ∈ pieces ls, piece.Closed := by
  rw [pieces_eq_scan]
  fun_induction scan ls with
  | case1 => simp
  | case2 l ls _ ih => exact List.forall_mem_cons.mpr ⟨trivial, ih⟩
  | case3 l ls tag _ _ ih => exact List.forall_mem_cons.mpr ⟨trivial, ih⟩
  | case4 l ls tag htag body closing rest hclose _ ih =>
    obtain ⟨-, hclosing, hbody⟩ := close_block_iff.mp hclose
    exact List.forall_mem_cons.mpr ⟨⟨htag, hclosing, hbody⟩, ih⟩

/-- Behind an opening fence that was left as text there is only text, and nothing closes it. -/
def Piece.Leaves : Piece → Piece → Prop
  | .text l, next => langTag? l ≠ none → ∃ m, next = .text m ∧ isClosing m = false
  | .block .., _ => True

theorem pieces_leave (ls : List Line) : (pieces ls).Pairwise Piece.Leaves := by
  rw [pieces_eq_scan]
  fun_induction scan ls with
  | case1 => exact List.Pairwise.nil
  | case2 l ls htag ih =>
    exact List.pairwise_cons.mpr ⟨fun _ _ hopen => absurd htag hopen, ih⟩
  | case3 l ls tag htag hnone ih =>
    have hls := close_block_none_iff.mp hnone
    refine List.pairwise_cons.mpr ⟨?_, ih⟩
    rw [scan_of_no_closing hls, List.forall_mem_map]
    exact fun m hm _ => ⟨m, rfl, hls m hm⟩
  | case4 l ls tag htag body closing rest hclose _ ih =>
    exact List.pairwise_cons.mpr ⟨fun _ _ => trivial, ih⟩

end Pieces

/-- The block is what is stored for the lines: the tag of the fence is its language, or empty where
that is the default, and an empty body stands for no line or for one empty line. -/
structure Stores (f : Fenced) (block : CodeBlock) : Prop where
  opening : ∃ tag, langTag? f.opening = some tag ∧
    (tag = block.lang ∨ tag = [] ∧ block.lang = defaultLang)
  body : f.body = Text.lines block.body ∨ f.body = [] ∧ block.body = []
  closing : isClosing f.closing = true
  open_body : ∀ l ∈ Text.lines block.body, isClosing l = false
  lang_spelled : block.lang ≠ [] ∧ ∀ c ∈ block.lang, isLangChar c = true

/-- What lifting the code blocks of `t` makes of it and of the store. -/
structure Decomposed (t : Text) (store : Store) (out : Text) (after : Store)
    (fences : List Fenced) : Prop where
  afresh : (liftAfresh t).run store = (out, after)
  tables : after.tables = store.tables
  codes : ∃ new, after.codeBlocks = store.codeBlocks ++ new ∧ List.Forall₂ Stores fences new.toList
  numbered : (Text.lines out).filter (fun l => ¬ Token.Unframed l) =
    (List.range' store.codeBlocks.size fences.length).map fun i => (Token.code i).toLine
  restored : (Text.lines out).flatMap (putBack store.codeBlocks.size fences) = Text.lines t
  unclosed : ∀ before l behind, Text.lines out = before ++ l :: behind → langTag? l ≠ none →
    Text.lines t = before.flatMap (putBack store.codeBlocks.size fences) ++ l :: behind ∧
      ∀ m ∈ behind, isClosing m = false
  settled : ∀ other, (lift out).run other = (out, other)

section Stored

theorem stores_block {opening closing : Line} {tag : Text} {body : List Line}
    (h : (Piece.block opening tag body closing).Closed) (hfree : ∀ l ∈ body, '\n' ∉ l) :
    Stores ⟨opening, body, closing⟩ ⟨language tag, unlines body⟩ := by
  obtain ⟨htag, hclosing, hbody⟩ := h
  have hdefault : defaultLang ≠ [] ∧ ∀ c ∈ defaultLang, isLangChar c = true :=
    ⟨by decide, List.all_eq_true.mp (by decide)⟩
  have hempty : ∀ l ∈ Text.lines [], isClosing l = false := by
    rw [lines_nil, List.forall_mem_singleton]
    decide
  have hspelled := List.all_eq_true.mp (lang_tag_iff.mp htag).2
  have hlines : body = Text.lines (unlines body) ∨ body = [] ∧ unlines body = [] := by
    by_cases hne : body = []
    · exact Or.inr ⟨hne, by rw [hne]; rfl⟩
    · exact Or.inl (lines_unlines hfree hne).symm
  constructor
  case opening =>
    refine ⟨tag, htag, ?_⟩
    cases tag with
    | nil => exact Or.inr ⟨rfl, rfl⟩
    | cons c tag => exact Or.inl rfl
  case body => exact hlines
  case closing => exact hclosing
  case open_body =>
    rcases hlines with hlines | ⟨-, hnil⟩
    · exact hlines ▸ hbody
    · exact hnil.symm ▸ hempty
  case lang_spelled =>
    cases tag with
    | nil => exact hdefault
    | cons c tag => exact ⟨by simp [language], hspelled⟩

theorem stores_pieces {ps : List Piece} (h : ∀ piece ∈ ps, piece.Closed)
    (hfree : ∀ piece ∈ ps, ∀ l ∈ piece.lines, '\n' ∉ l) :
    List.Forall₂ Stores (fences ps) (Outline.codeBlocks (ps.map Piece.slot)) := by
  induction ps with
  | nil => exact .nil
  | cons piece ps ih =>
    rw [List.forall_mem_cons] at h hfree
    have hps := ih h.2 hfree.2
    cases piece with
    | text l => exact hps
    | block opening tag body closing =>
      refine .cons (stores_block h.1 fun l hl => hfree.1 l ?_) hps
      simp [Piece.lines, Fenced.lines, hl]

end Stored

section Restored

theorem put_back_text {l : Line} (h : Token.Unframed l) (n : Nat) (fences : List Fenced) :
    putBack n fences l = [l] := by
  induction fences generalizing n with
  | nil => rfl
  | cons f fences ih =>
    have hne : l ≠ (Token.code n).toLine := by
      rintro rfl
      exact Token.to_line_not_unframed _ h
    rw [putBack, if_neg hne, ih]

theorem put_back_token (n : Nat) (before : List Fenced) (f : Fenced) (behind : List Fenced) :
    putBack n (before ++ f :: behind) (Token.code (n + before.length)).toLine = f.lines := by
  induction before generalizing n with
  | nil => rw [List.nil_append, putBack, List.length_nil, Nat.add_zero, if_pos rfl]
  | cons g before ih =>
    have hne : (Token.code (n + (g :: before).length)).toLine ≠ (Token.code n).toLine := by
      intro h
      have hindex := Token.code.inj (Token.to_line_inj h)
      rw [List.length_cons] at hindex
      omega
    have hstep : n + (g :: before).length = n + 1 + before.length := by
      rw [List.length_cons]
      omega
    rw [List.cons_append, putBack, if_neg hne, hstep, ih]

theorem put_back_token_lines {ps : List Piece} (htext : ∀ l, .text l ∈ ps → Token.Unframed l)
    (n tables : Nat) (before : List Fenced) :
    (Outline.tokenLines (n + before.length) tables (ps.map Piece.slot)).flatMap
      (putBack n (before ++ fences ps)) = ps.flatMap Piece.lines := by
  induction ps generalizing before with
  | nil => rfl
  | cons piece ps ih =>
    have hps := ih fun l hl => htext l (List.mem_cons_of_mem piece hl)
    cases piece with
    | text l =>
      have hl := put_back_text (htext l List.mem_cons_self) n (before ++ fences ps)
      rw [List.map_cons, Piece.slot, Outline.tokenLines, List.flatMap_cons, List.flatMap_cons,
        fences_text, hl, hps, Piece.lines]
    | block opening tag body closing =>
      let f : Fenced := ⟨opening, body, closing⟩
      have hf := put_back_token n before f (fences ps)
      have hbehind := hps (before ++ [f])
      rw [List.length_append, List.length_singleton, ← Nat.add_assoc, List.append_assoc,
        List.singleton_append] at hbehind
      rw [List.map_cons, Piece.slot, Outline.tokenLines, List.flatMap_cons, List.flatMap_cons,
        fences_block, hf, hbehind, Piece.lines]

theorem tokens_numbered {ps : List Piece} (htext : ∀ l, .text l ∈ ps → Token.Unframed l)
    (n tables : Nat) :
    (Outline.tokenLines n tables (ps.map Piece.slot)).filter (fun l => ¬ Token.Unframed l) =
      (List.range' n (fences ps).length).map fun i => (Token.code i).toLine := by
  induction ps generalizing n with
  | nil => rfl
  | cons piece ps ih =>
    have hps := fun n => ih (fun l hl => htext l (List.mem_cons_of_mem piece hl)) n
    cases piece with
    | text l =>
      have hl := htext l List.mem_cons_self
      rw [List.map_cons, Piece.slot, Outline.tokenLines, fences_text,
        List.filter_cons_of_neg (by simpa using hl), hps]
    | block opening tag body closing =>
      have hk := Token.to_line_not_unframed (.code n)
      rw [List.map_cons, Piece.slot, Outline.tokenLines, fences_block,
        List.filter_cons_of_pos (by simpa using hk), hps, List.length_cons, List.range'_succ,
        List.map_cons]

end Restored

section Settled

theorem all_text {ps : List Piece} (h : ∀ piece ∈ ps, ∃ l, piece = .text l ∧ isClosing l = false) :
    ∃ ls : List Line, ps = ls.map .text ∧ ∀ l ∈ ls, isClosing l = false := by
  induction ps with
  | nil => exact ⟨[], rfl, by simp⟩
  | cons piece ps ih =>
    rw [List.forall_mem_cons] at h
    obtain ⟨l, rfl, hl⟩ := h.1
    obtain ⟨ls, rfl, hls⟩ := ih h.2
    exact ⟨l :: ls, rfl, List.forall_mem_cons.mpr ⟨hl, hls⟩⟩

theorem text_behind_fence {ps : List Piece} (hleave : ps.Pairwise Piece.Leaves) {n tables : Nat}
    {before behind : List Line} {l : Line}
    (h : Outline.tokenLines n tables (ps.map Piece.slot) = before ++ l :: behind)
    (hl : langTag? l ≠ none) :
    (l :: behind).map .text <:+ ps ∧ ∀ m ∈ behind, isClosing m = false := by
  induction ps generalizing n before with
  | nil => simp [Outline.tokenLines] at h
  | cons piece ps ih =>
    obtain ⟨hpiece, hps⟩ := List.pairwise_cons.mp hleave
    cases before with
    | nil =>
      cases piece with
      | text m =>
        obtain ⟨rfl, hbehind⟩ := List.cons.inj h
        obtain ⟨ls, rfl, hls⟩ := all_text fun next hnext => hpiece next hnext hl
        have hslots : (ls.map Piece.text).map Piece.slot = ls.map .text := List.map_map
        rw [hslots, Outline.token_lines_texts] at hbehind
        rw [← hbehind]
        exact ⟨List.suffix_refl _, hls⟩
      | block opening tag body closing =>
        obtain ⟨rfl, -⟩ := List.cons.inj h
        exact absurd (lang_tag_token (.code n)) hl
    | cons b before =>
      have hrest : (l :: behind).map .text <:+ ps ∧ ∀ m ∈ behind, isClosing m = false := by
        cases piece with
        | text m => exact ih hps (List.cons.inj h).2
        | block opening tag body closing => exact ih hps (List.cons.inj h).2
      exact ⟨hrest.1.trans (List.suffix_cons piece ps), hrest.2⟩

theorem pieces_of_unclosed {ls : List Line}
    (h : ∀ before l behind, ls = before ++ l :: behind → langTag? l ≠ none →
      ∀ m ∈ behind, isClosing m = false) : pieces ls = ls.map .text := by
  rw [pieces_eq_scan]
  induction ls with
  | nil => rw [scan]; rfl
  | cons l ls ih =>
    have hls := ih fun before m behind hm => h (l :: before) m behind (by rw [hm]; rfl)
    cases htag : langTag? l with
    | none => rw [scan_text htag, hls, List.map_cons]
    | some tag =>
      have hnone := close_block_none_iff.mpr (h [] l ls rfl (by simp [htag]))
      rw [scan_unclosed hnone, hls, List.map_cons]

theorem lift_of_texts {t : Text} (h : pieces (lines t) = (lines t).map .text) (store : Store) :
    (lift t).run store = (t, store) := by
  have houtline : outline (lines t) = (lines t).map .text := by
    rw [outline, h]
    exact List.map_map
  rw [run_lift, houtline, Outline.with_fragments_texts, Outline.token_lines_texts, unlines_lines]

end Settled

section Lifted

variable {t : Text} (store : Store)

theorem text_unframed (h : Token.Unframed t) {l : Line} (hl : .text l ∈ pieces (lines t)) :
    Token.Unframed l := by
  have hmem : l ∈ lines t := mem_of_piece hl (List.mem_singleton_self l)
  exact fun c hc => h c (mem_of_mem_lines hmem hc)

theorem lift_restored (h : Token.Unframed t) : (lines ((lift t).run store).1).flatMap
    (putBack store.codeBlocks.size (fences (pieces (lines t)))) = lines t := by
  have hback := put_back_token_lines (fun _ => text_unframed h) store.codeBlocks.size
    store.tables.size []
  rw [lines_of_pieces] at hback
  rw [lines_lift]
  exact hback

theorem lift_unclosed {before behind : List Line} {l : Line}
    (hl : lines ((lift t).run store).1 = before ++ l :: behind) (htag : langTag? l ≠ none) :
    (l :: behind).map .text <:+ pieces (lines t) ∧ ∀ m ∈ behind, isClosing m = false := by
  rw [lines_lift] at hl
  exact text_behind_fence (pieces_leave (lines t)) hl htag

end Lifted

/-- Lifting code blocks takes the text apart without loss and leaves nothing to lift. -/
theorem lift_decomposes {t : Text} (h : Token.Unframed t) (store : Store) :
    ∃ blocks, Decomposed t store ((lift t).run store).1 ((lift t).run store).2 blocks := by
  refine ⟨fences (pieces (lines t)), ?_⟩
  constructor
  case afresh => rw [← lift_eq_afresh]; rfl
  case tables =>
    rw [run_lift]
    simp [Store.withFragments, tables_outline]
  case codes =>
    refine ⟨(Outline.codeBlocks (outline (lines t))).toArray, by rw [run_lift]; rfl, ?_⟩
    exact stores_pieces (pieces_closed (lines t)) fun piece hpiece l hl =>
      newline_not_mem (mem_of_piece hpiece hl)
  case numbered =>
    rw [lines_lift]
    exact tokens_numbered (fun _ => text_unframed h) _ _
  case restored => exact lift_restored store h
  case unclosed =>
    intro before l behind hl htag
    obtain ⟨hsuffix, hbehind⟩ := lift_unclosed store hl htag
    have hput : (l :: behind).flatMap
        (putBack store.codeBlocks.size (fences (pieces (lines t)))) = l :: behind := by
      refine (List.flatMap_congr fun m hm => ?_).trans (List.flatMap_singleton' (l :: behind))
      exact put_back_text (text_unframed h (hsuffix.subset (List.mem_map_of_mem hm))) _ _
    have hback := lift_restored store h
    rw [hl, List.flatMap_append, hput] at hback
    exact ⟨hback.symm, hbehind⟩
  case settled =>
    exact lift_of_texts (pieces_of_unclosed fun _ _ _ hl htag => (lift_unclosed store hl htag).2)

/-- The third fence opens a block that the last one, which has a tag, does not close. -/
theorem lift_decomposes_unclosed :
    let t := "```rs\na\n```\nb\n```\n```c".toList
    let store : Store := ⟨#[⟨"c".toList, []⟩], #["|a|".toList]⟩
    Token.Unframed t ∧
      ((lift t).run store).1 = (Token.code 1).toLine ++ "\nb\n```\n```c".toList ∧
      ∃ blocks, Decomposed t store ((lift t).run store).1 ((lift t).run store).2 blocks :=
  ⟨by decide, by decide +kernel, lift_decomposes (by decide) _⟩

end Fence

end MarkdownPage
