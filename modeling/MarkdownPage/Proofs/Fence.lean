import MarkdownPage.Fence
import MarkdownPage.Proofs.Fragment.Outline
import MarkdownPage.Proofs.Html.Alphabet
import MarkdownPage.Proofs.Html.CodeBlock

/-!
Cutting lines at fences. Where every opening fence among some lines is closed among them, lines put
behind them are cut by themselves. The outline of a text after this cut has no tables yet.
-/

namespace MarkdownPage.Fence

open Text

theorem lang_tag_iff {l : Line} {tag : Text} :
    langTag? l = some tag ↔ trim l = marker ++ tag ∧ tag.all isLangChar = true := by
  rw [langTag?, Option.filter_eq_some_iff, dropPrefix?_eq_some_iff]

def language (tag : Text) : Text := if tag.isEmpty then defaultLang else tag

theorem close_block_iff {ls body rest : List Line} {closing : Line} :
    closeBlock? ls = some (body, closing, rest) ↔
      ls = body ++ closing :: rest ∧ isClosing closing = true ∧
        ∀ l ∈ body, isClosing l = false := by
  constructor
  · intro h
    have happ := List.takeWhile_append_dropWhile (p := (!isClosing ·)) (l := ls)
    have hhead := List.head?_dropWhile_not (!isClosing ·) ls
    rw [closeBlock?] at h
    split at h
    · cases h
    · next c r hd =>
      cases h
      rw [hd] at happ hhead
      refine ⟨happ.symm, by simpa using hhead, ?_⟩
      intro l hl
      simpa using List.all_eq_true.mp (List.all_takeWhile) l hl
  · rintro ⟨rfl, hclosing, hbody⟩
    have hopen : ∀ l ∈ body, (!isClosing l) = true := by
      intro l hl
      simp [hbody l hl]
    rw [closeBlock?, List.dropWhile_append_of_pos hopen, List.takeWhile_append_of_pos hopen]
    simp [hclosing]

theorem pieces_block {l : Line} {ls body rest : List Line} {tag : Text} {closing : Line}
    (htag : langTag? l = some tag) (h : closeBlock? ls = some (body, closing, rest)) :
    piecesFrom false (l :: ls) = .block l tag body closing :: piecesFrom false rest := by
  rw [piecesFrom.eq_def]
  simp only [htag]
  split
  · next h' =>
    rw [h] at h'
    cases h'
    rfl
  · next h' =>
    rw [h] at h'
    cases h'

theorem pieces_text {l : Line} (h : langTag? l = none) (exhausted : Bool) (ls : List Line) :
    piecesFrom exhausted (l :: ls) = .text l :: piecesFrom exhausted ls := by
  rw [piecesFrom.eq_def]
  simp only [h]

theorem pieces_from_append {exhausted : Bool} {xs : List Line} (hex : exhausted = false)
    (h : ∀ l, Piece.text l ∈ piecesFrom exhausted xs → langTag? l = none) (ys : List Line) :
    piecesFrom exhausted (xs ++ ys) = piecesFrom exhausted xs ++ piecesFrom false ys := by
  fun_induction piecesFrom exhausted xs with
  | case1 exhausted => rw [hex, List.nil_append, List.nil_append]
  | case2 l ls tag htag body closing rest hclose _ ih =>
    obtain ⟨hls, hclosing, hbody⟩ := close_block_iff.mp hclose
    have hclose' : closeBlock? (ls ++ ys) = some (body, closing, rest ++ ys) :=
      close_block_iff.mpr ⟨by rw [hls]; simp, hclosing, hbody⟩
    rw [List.cons_append, pieces_block htag hclose', List.cons_append,
      ih rfl fun m hm => h m (List.mem_cons_of_mem _ hm)]
  | case3 l ls tag htag _ _ =>
    -- an opening fence left as text
    rw [h l List.mem_cons_self] at htag
    cases htag
  | case4 exhausted l ls hopen ih =>
    have hl : langTag? l = none := h l List.mem_cons_self
    rw [List.cons_append, pieces_text hl, List.cons_append,
      ih hex fun m hm => h m (List.mem_cons_of_mem _ hm)]

/-- Lines whose opening fences are all closed among them can be cut off. -/
theorem pieces_append {xs : List Line} (h : ∀ l, Piece.text l ∈ pieces xs → langTag? l = none)
    (ys : List Line) : pieces (xs ++ ys) = pieces xs ++ pieces ys :=
  pieces_from_append rfl h ys

theorem length_pieces_le (ls : List Line) : (pieces ls).length ≤ ls.length := by
  rw [pieces]
  fun_induction piecesFrom false ls with
  | case1 => exact Nat.le_refl 0
  | case2 _ _ _ _ _ _ _ _ hlt ih =>
    simp only [List.length_cons]
    omega
  | case3 _ _ _ _ _ ih => exact Nat.succ_le_succ ih
  | case4 _ _ _ _ ih => exact Nat.succ_le_succ ih

def Piece.slot : Piece → Slot
  | .text l => .text l
  | .block _ tag body _ => .fragment (.code ⟨language tag, unlines body⟩)

def outline (ls : List Line) : Outline := (pieces ls).map Piece.slot

theorem tables_outline (ls : List Line) : (outline ls).tables = [] := by
  apply List.filterMap_eq_nil_iff.mpr
  intro s hs
  obtain ⟨piece, -, rfl⟩ := List.mem_map.mp hs
  cases piece <;> rfl

theorem run_lift (t : Text) (store : Store) :
    (lift t).run store =
      (unlines ((outline (lines t)).tokenLines store.codeBlocks.size store.tables.size),
        store.withFragments (outline (lines t))) := by
  have hpiece : ∀ piece : Piece, piece.lift = piece.slot.lift := by
    intro piece
    cases piece <;> rfl
  have hrun := Outline.run_lift hpiece (pieces (lines t)) store
  simp only [lift, StateT.run_bind, hrun]
  rfl

theorem outline_ne_nil {ls : List Line} (h : ls ≠ []) : outline ls ≠ [] := by
  obtain ⟨l, ls, rfl⟩ := List.exists_cons_of_ne_nil h
  rw [outline, pieces]
  cases htag : langTag? l with
  | none => simp [pieces_text htag]
  | some tag =>
    rw [piecesFrom.eq_def]
    simp only [htag]
    split <;> simp

/-- What holds of every line and of every block made of lines holds of the slots. -/
theorem forall_mem_slots {P : Slot → Prop} {all ls : List Line} (hsub : ls ⊆ all)
    (htext : ∀ l ∈ all, P (.text l))
    (hblock : ∀ l ∈ all, ∀ tag body, langTag? l = some tag → body ⊆ all →
      P (.fragment (.code ⟨language tag, unlines body⟩))) (exhausted : Bool) :
    ∀ s ∈ (piecesFrom exhausted ls).map Piece.slot, P s := by
  fun_induction piecesFrom exhausted ls with
  | case1 => simp
  | case2 l ls tag htag body closing rest hclose _ ih =>
    obtain ⟨hls, -, -⟩ := close_block_iff.mp hclose
    rw [hls, List.cons_subset, List.append_subset, List.cons_subset] at hsub
    rw [List.map_cons, List.forall_mem_cons]
    exact ⟨hblock l hsub.1 tag body htag hsub.2.1, ih hsub.2.2.2⟩
  | case3 l ls tag _ _ ih =>
    rw [List.cons_subset] at hsub
    rw [List.map_cons, List.forall_mem_cons]
    exact ⟨htext l hsub.1, ih hsub.2⟩
  | case4 exhausted l ls _ ih =>
    rw [List.cons_subset] at hsub
    rw [List.map_cons, List.forall_mem_cons]
    exact ⟨htext l hsub.1, ih hsub.2⟩

theorem outline_whole (t : Text) : ∀ s ∈ outline (lines t), s.Whole := by
  refine forall_mem_slots (List.Subset.refl (lines t)) ?_ ?_ false
  · intro l hl
    exact newline_not_mem hl
  · intros
    trivial

theorem lines_lift (t : Text) (store : Store) :
    lines ((lift t).run store).1 =
      (outline (lines t)).tokenLines store.codeBlocks.size store.tables.size := by
  rw [run_lift]
  exact Outline.lines_unlines_token_lines _ _ (outline_whole t) (outline_ne_nil (lines_ne_nil t))

/-- The lines of a text once its code blocks have been lifted. -/
def linesLeft (t : Text) : List Line := lines ((lift t).run {}).1

theorem lines_left (t : Text) : linesLeft t = (outline (lines t)).tokenLines 0 0 :=
  lines_lift t {}

/-- Every opening fence of the text is closed in it. -/
def AllClosed (t : Text) : Prop := ∀ l ∈ linesLeft t, langTag? l = none

instance (t : Text) : Decidable (AllClosed t) :=
  inferInstanceAs (Decidable (∀ l ∈ linesLeft t, langTag? l = none))

theorem AllClosed.pieces_append {t : Text} (h : AllClosed t) (ls : List Line) :
    pieces (lines t ++ ls) = pieces (lines t) ++ pieces ls := by
  apply Fence.pieces_append
  intro l hl
  apply h l
  rw [lines_left]
  exact Outline.text_mem_token_lines (List.mem_map.mpr ⟨_, hl, rfl⟩) 0 0

theorem AllClosed.outline_append_text {t : Text} (h : AllClosed t) {l : Line}
    (hl : langTag? l = none) (ls : List Line) :
    outline (lines t ++ l :: ls) = outline (lines t) ++ .text l :: outline ls := by
  rw [outline, h.pieces_append, pieces, pieces_text hl, List.map_append]
  rfl

theorem AllClosed.outline_append_block {t : Text} (h : AllClosed t) {opening closing : Line}
    {tag : Text} (htag : langTag? opening = some tag) {body : List Line}
    (hbody : ∀ l ∈ body, isClosing l = false) (hclosing : isClosing closing = true)
    (ls : List Line) :
    outline (lines t ++ opening :: (body ++ closing :: ls)) =
      outline (lines t) ++ .fragment (.code ⟨language tag, unlines body⟩) :: outline ls := by
  have hclose : closeBlock? (body ++ closing :: ls) = some (body, closing, ls) :=
    close_block_iff.mpr ⟨rfl, hclosing, hbody⟩
  rw [outline, h.pieces_append, pieces, pieces_block htag hclose, List.map_append]
  rfl

theorem lang_char_plain {c : Char} (h : isLangChar c = true) : Html.attributeEntity? c = none := by
  unfold Html.attributeEntity? Html.textEntity?
  split
  · exact absurd h (by decide)
  · split
    · exact absurd h (by decide)
    · exact absurd h (by decide)
    · exact absurd h (by decide)
    · rfl

theorem escape_language {l : Line} {tag : Text} (htag : langTag? l = some tag) :
    Html.escapeAttribute (language tag) = language tag := by
  have hdefault : defaultLang.all isLangChar = true := by decide
  have hall : (language tag).all isLangChar = true := by
    rw [language]
    split
    · exact hdefault
    · exact (lang_tag_iff.mp htag).2
  apply Html.escape_plain
  intro c hc
  exact lang_char_plain (List.all_eq_true.mp hall c hc)

theorem length_of_tag {l : Line} {tag : Text} (htag : langTag? l = some tag) : 3 ≤ l.length := by
  have htrim := length_trim_le l
  rw [(lang_tag_iff.mp htag).1, List.length_append] at htrim
  exact Nat.le_trans (Nat.le_add_right 3 tag.length) htrim

theorem language_spelled {p : Char → Prop} (hp : ∀ c ∈ defaultLang, p c) {l : Line} {tag : Text}
    (htag : langTag? l = some tag) (h : ∀ c ∈ l, p c) : ∀ c ∈ language tag, p c := by
  rw [language]
  split
  · exact hp
  · intro c hc
    apply h c
    apply mem_of_mem_trim
    rw [(lang_tag_iff.mp htag).1]
    exact List.mem_append_right marker hc

theorem outline_spelled {p : Char → Prop} (hp : ∀ c ∈ defaultLang, p c) (hn : p '\n')
    {ls : List Line} (h : ∀ l ∈ ls, ∀ c ∈ l, p c) : ∀ s ∈ outline ls, s.Spelled p := by
  refine forall_mem_slots (List.Subset.refl ls) h ?_ false
  intro l hl tag body htag hbody
  constructor
  · exact language_spelled hp htag (h l hl)
  · apply unlines_spelled hn
    intro m hm
    exact h m (hbody hm)

end MarkdownPage.Fence
