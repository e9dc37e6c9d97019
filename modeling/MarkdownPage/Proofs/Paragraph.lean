import MarkdownPage.Paragraph
import MarkdownPage.Proofs.Html.Alphabet
import MarkdownPage.Proofs.Text.Blank
import MarkdownPage.Proofs.Text.Runs

/-!
Paragraphs as a scan over lines whose state is the block still open. Blank lines and lines in a
block part the prose on their two sides. Main statement: lines come through as they are exactly when
each of them is sheltered: met while a block is open, or opening one, or empty.
-/

namespace MarkdownPage.Paragraph

open Text

def formFrom (stillOpen : Option Text) (ls : List Line) : List Line :=
  (joinRuns Piece.join? (linePieces stillOpen ls)).map Piece.toHtml

/-- The tag of the block that is still open behind some lines. -/
def openBehind (stillOpen : Option Text) (ls : List Line) : Option Text :=
  ls.foldl openAfter stillOpen

/-- Outside of blocks the line belongs to a paragraph. -/
def IsProse (l : Line) : Prop := Block.opened? (trim l) = none ∧ isBlank l = false

instance (l : Line) : Decidable (IsProse l) := inferInstanceAs (Decidable (_ ∧ _))

theorem mark_up_eq (t : Text) : markUp t = unlines (formFrom none (lines t)) := rfl

theorem line_pieces_append (stillOpen : Option Text) (xs ys : List Line) :
    linePieces stillOpen (xs ++ ys) =
      linePieces stillOpen xs ++ linePieces (openBehind stillOpen xs) ys := by
  induction xs generalizing stillOpen with
  | nil => rfl
  | cons l xs ih => rw [List.cons_append, linePieces, linePieces, ih, List.cons_append]; rfl

theorem lone_block (l : Line) : Lone Piece.join? (.block l) where
  before a := by cases a <;> rfl
  behind a := by cases a <;> rfl

theorem lone_blank : Lone Piece.join? .blank where
  before a := by cases a <;> rfl
  behind a := by cases a <;> rfl

theorem block_at_opened {l : Line} {tag : Text} (h : Block.opened? (trim l) = some tag)
    (stillOpen : Option Text) : (blockAt? stillOpen l).isSome = true := by
  cases stillOpen with
  | none => rw [blockAt?, h]; rfl
  | some tag' => rfl

section Scan

variable {stillOpen : Option Text} {l : Line}

theorem of_line_block (h : (blockAt? stillOpen l).isSome = true) :
    Piece.ofLine stillOpen l = .block l := by
  rw [Piece.ofLine, if_pos h]

theorem of_line_blank (h : blockAt? stillOpen l = none) (hl : isBlank l = true) :
    Piece.ofLine stillOpen l = .blank := by
  rw [Piece.ofLine, if_neg (by simp [h]), if_pos hl]

theorem of_line_prose (h : blockAt? stillOpen l = none) (hl : isBlank l = false) :
    Piece.ofLine stillOpen l = .prose [l] := by
  rw [Piece.ofLine, if_neg (by simp [h]), if_neg (by simp [hl])]

theorem form_append_block {xs : List Line}
    (h : (blockAt? (openBehind stillOpen xs) l).isSome = true) (ys : List Line) :
    formFrom stillOpen (xs ++ l :: ys) =
      formFrom stillOpen xs ++ formFrom (openBehind stillOpen xs) (l :: ys) := by
  simp only [formFrom, line_pieces_append, linePieces, of_line_block h,
    join_runs_append_lone (lone_block l), join_runs_cons_lone (lone_block l), List.map_append]

theorem form_cons_block (h : (blockAt? stillOpen l).isSome = true) (ys : List Line) :
    formFrom stillOpen (l :: ys) = l :: formFrom (openAfter stillOpen l) ys := by
  simp only [formFrom, linePieces, of_line_block h, join_runs_cons_lone (lone_block l),
    List.map_cons, Piece.toHtml]

theorem still_open_none (h : blockAt? stillOpen l = none) : stillOpen = none := by
  cases stillOpen with
  | none => rfl
  | some tag => cases h

theorem open_after_none (h : blockAt? stillOpen l = none) : openAfter stillOpen l = none := by
  rw [openAfter, h]
  rfl

theorem form_append_blank {xs : List Line} (hs : openBehind stillOpen xs = none)
    (h : blockAt? none l = none) (hl : isBlank l = true) (ys : List Line) :
    formFrom stillOpen (xs ++ l :: ys) = formFrom stillOpen xs ++ [] :: formFrom none ys := by
  simp only [formFrom, line_pieces_append, hs, linePieces, of_line_blank h hl, open_after_none h,
    join_runs_append_lone lone_blank, List.map_append, List.map_cons, Piece.toHtml]

theorem form_cons_blank (h : blockAt? none l = none) (hl : isBlank l = true) (ys : List Line) :
    formFrom none (l :: ys) = [] :: formFrom none ys :=
  @form_append_blank none l [] rfl h hl ys

theorem prose_to_html (l : Line) (ls : List Line) :
    ∃ more, (Piece.prose (l :: ls)).toHtml = Html.paragraph (trim l ++ more) := by
  refine ⟨(ls.map trim).flatMap (' ' :: ·), ?_⟩
  rw [Piece.toHtml, List.map_cons, intercalate_cons_flatMap]

theorem form_cons_prose (h : blockAt? stillOpen l = none) (hl : isBlank l = false)
    (ys : List Line) :
    ∃ more rest, formFrom stillOpen (l :: ys) = Html.paragraph (trim l ++ more) :: rest := by
  have hfirst : ∃ ls others, joinFirst Piece.join? (.prose [l])
      (joinRuns Piece.join? (linePieces (openAfter stillOpen l) ys)) =
        .prose (l :: ls) :: others := by
    cases joinRuns Piece.join? (linePieces (openAfter stillOpen l) ys) with
    | nil => exact ⟨[], [], rfl⟩
    | cons piece others =>
      cases piece with
      | block m => exact ⟨[], .block m :: others, rfl⟩
      | blank => exact ⟨[], .blank :: others, rfl⟩
      | prose ls => exact ⟨ls, others, rfl⟩
  obtain ⟨ls, others, hfirst⟩ := hfirst
  obtain ⟨more, hmore⟩ := prose_to_html l ls
  refine ⟨more, others.map Piece.toHtml, ?_⟩
  rw [formFrom, linePieces, of_line_prose h hl, joinRuns_cons, hfirst, List.map_cons, hmore]

end Scan

section Groups

variable {γ : Type} {group : γ → List Line} {xs : List γ}

theorem line_pieces_flat_map (h : ∀ a ∈ xs, openBehind none (group a) = none) :
    linePieces none (xs.flatMap group) = xs.flatMap fun a => linePieces none (group a) := by
  induction xs with
  | nil => rfl
  | cons a xs ih =>
    rw [List.forall_mem_cons] at h
    rw [List.flatMap_cons, List.flatMap_cons, line_pieces_append, h.1, ih h.2]

theorem open_behind_append (stillOpen : Option Text) (xs ys : List Line) :
    openBehind stillOpen (xs ++ ys) = openBehind (openBehind stillOpen xs) ys :=
  List.foldl_append

theorem open_behind_flat_map (h : ∀ a ∈ xs, openBehind none (group a) = none) :
    openBehind none (xs.flatMap group) = none := by
  induction xs with
  | nil => rfl
  | cons a xs ih =>
    rw [List.forall_mem_cons] at h
    rw [List.flatMap_cons, open_behind_append, h.1, ih h.2]

/-- Groups of lines that leave no block open are formed each by itself, if of two neighbours one
holds no prose. -/
theorem form_flat_map (hne : ∀ a ∈ xs, group a ≠ [])
    (hopen : ∀ a ∈ xs, openBehind none (group a) = none)
    (h : xs.IsChain fun a b => (∀ x ∈ linePieces none (group a), Lone Piece.join? x) ∨
      ∀ x ∈ linePieces none (group b), Lone Piece.join? x) :
    formFrom none (xs.flatMap group) = xs.flatMap fun a => formFrom none (group a) := by
  have hpieces : ∀ a ∈ xs, linePieces none (group a) ≠ [] := by
    intro a ha
    obtain ⟨l, ls, hl⟩ := List.exists_cons_of_ne_nil (hne a ha)
    rw [hl]
    exact List.cons_ne_nil _ _
  rw [formFrom, line_pieces_flat_map hopen, join_runs_flat_map hpieces h, List.map_flatMap]
  rfl

theorem line_pieces_prose {ls : List Line} (h : ∀ l ∈ ls, IsProse l) :
    linePieces none ls = ls.map (fun l => .prose [l]) ∧ openBehind none ls = none := by
  induction ls with
  | nil => exact ⟨rfl, rfl⟩
  | cons l ls ih =>
    rw [List.forall_mem_cons] at h
    have hblock : blockAt? none l = none := h.1.1
    obtain ⟨hpieces, hopen⟩ := ih h.2
    constructor
    · rw [linePieces, of_line_prose hblock h.1.2, open_after_none hblock, hpieces, List.map_cons]
    · rwa [openBehind, List.foldl_cons, open_after_none hblock]

theorem form_prose_append {ls : List Line} (hne : ls ≠ []) (h : ∀ l ∈ ls, IsProse l)
    {rest : List Line} (hrest : ∀ l ∈ rest.head?, ¬ IsProse l) :
    formFrom none (ls ++ rest) =
      Html.paragraph ([' '].intercalate (ls.map trim)) :: formFrom none rest := by
  obtain ⟨hpieces, hopen⟩ := line_pieces_prose h
  have hends : ∀ b ∈ (joinRuns Piece.join? (linePieces none rest)).head?, ∀ zs,
      (Piece.prose zs).join? b = none := by
    cases rest with
    | nil => simp [linePieces]
    | cons l rest =>
      have hlone : Lone Piece.join? (Piece.ofLine none l) := by
        cases hblock : blockAt? none l with
        | some tag =>
          rw [of_line_block (by rw [hblock]; rfl)]
          exact lone_block l
        | none =>
          have hblank : isBlank l = true := by
            rw [← Bool.not_eq_false]
            exact fun hfull => hrest l rfl ⟨hblock, hfull⟩
          rw [of_line_blank hblock hblank]
          exact lone_blank
      rw [linePieces, join_runs_cons_lone hlone, List.head?_cons]
      rintro b ⟨rfl⟩ zs
      exact hlone.before (.prose zs)
  rw [formFrom, line_pieces_append, hopen, hpieces, join_runs_map_append (fun _ _ => rfl) hne hends]
  rfl

theorem form_prose {ls : List Line} (hne : ls ≠ []) (h : ∀ l ∈ ls, IsProse l) :
    formFrom none ls = [Html.paragraph ([' '].intercalate (ls.map trim))] ∧
      openBehind none ls = none := by
  refine ⟨?_, (line_pieces_prose h).2⟩
  have hnil : ∀ l ∈ ([] : List Line).head?, ¬ IsProse l := by simp
  rw [← List.append_nil ls, form_prose_append hne h hnil, List.append_nil]
  rfl

end Groups

theorem form_ne_nil (stillOpen : Option Text) {ls : List Line} (h : ls ≠ []) :
    formFrom stillOpen ls ≠ [] := by
  obtain ⟨l, ls, rfl⟩ := List.exists_cons_of_ne_nil h
  have hpieces : linePieces stillOpen (l :: ls) ≠ [] := List.cons_ne_nil _ _
  simpa [formFrom] using join_runs_ne_nil hpieces

def Piece.Spelled (p : Char → Prop) : Piece → Prop
  | .block l => ∀ c ∈ l, p c
  | .blank => True
  | .prose ls => ∀ l ∈ ls, ∀ c ∈ l, p c

theorem piece_of_line_spelled {p : Char → Prop} (stillOpen : Option Text) {l : Line}
    (h : ∀ c ∈ l, p c) : (Piece.ofLine stillOpen l).Spelled p := by
  rw [Piece.ofLine]
  split
  · exact h
  · split
    · trivial
    · exact List.forall_mem_singleton.mpr h

theorem line_pieces_spelled {p : Char → Prop} (stillOpen : Option Text) {ls : List Line}
    (h : ∀ l ∈ ls, ∀ c ∈ l, p c) : ∀ piece ∈ linePieces stillOpen ls, piece.Spelled p := by
  induction ls generalizing stillOpen with
  | nil => simp [linePieces]
  | cons l ls ih =>
    rw [List.forall_mem_cons] at h
    rw [linePieces, List.forall_mem_cons]
    exact ⟨piece_of_line_spelled stillOpen h.1, ih (openAfter stillOpen l) h.2⟩

theorem join_spelled {p : Char → Prop} {a b c : Piece} (h : a.join? b = some c)
    (ha : a.Spelled p) (hb : b.Spelled p) : c.Spelled p := by
  unfold Piece.join? at h
  split at h
  · cases h
    exact List.forall_mem_append.mpr ⟨ha, hb⟩
  · cases h

theorem piece_html_spelled {p : Char → Prop} (hp : ∀ c ∈ Html.alphabet, p c) {piece : Piece}
    (h : piece.Spelled p) : ∀ c ∈ piece.toHtml, p c := by
  cases piece with
  | block l => exact h
  | blank => simp [Piece.toHtml]
  | prose ls =>
    have hspace : p ' ' := hp ' ' (by decide)
    have htrimmed : ∀ m ∈ ls.map trim, ∀ c ∈ m, p c :=
      List.forall_mem_map.mpr fun l hl c hc => h l hl c (mem_of_mem_trim hc)
    exact Html.enclose_spelled hp (by decide) (intercalate_spelled hspace htrimmed)

theorem form_spelled {p : Char → Prop} (hp : ∀ c ∈ Html.alphabet, p c) (stillOpen : Option Text)
    {ls : List Line} (h : ∀ l ∈ ls, ∀ c ∈ l, p c) :
    ∀ l ∈ formFrom stillOpen ls, ∀ c ∈ l, p c := by
  have hpieces := forall_mem_join_runs (fun a b c hj => join_spelled hj)
    (line_pieces_spelled stillOpen h)
  intro l hl
  obtain ⟨piece, hpiece, rfl⟩ := List.mem_map.mp hl
  exact piece_html_spelled hp (hpieces piece hpiece)

/-! ### Sheltered lines -/

/-- Each of the lines is met while a block is open, or opens one, or is empty. -/
def Sheltered (stillOpen : Option Text) : List Line → Prop
  | [] => True
  | l :: ls =>
    ((blockAt? stillOpen l).isSome = true ∨ l = []) ∧ Sheltered (openAfter stillOpen l) ls

instance decideSheltered (stillOpen : Option Text) :
    (ls : List Line) → Decidable (Sheltered stillOpen ls)
  | [] => inferInstanceAs (Decidable True)
  | l :: ls =>
    have := decideSheltered (openAfter stillOpen l) ls
    inferInstanceAs (Decidable (_ ∧ _))

theorem paragraph_ne_line (l : Line) (more : Text) : Html.paragraph (trim l ++ more) ≠ l := by
  intro h
  have hframed : Html.paragraph (trim l ++ more) =
      '<' :: (("p>".toList ++ (trim l ++ more) ++ "</p".toList) ++ ['>']) := by
    simp [Html.paragraph, Html.enclose, Html.openTag, Html.closeTag]
  have htrim : trim l = l := by
    rw [← h, hframed]
    exact trim_framed (by decide) (by decide) _
  have hlen := congrArg List.length h
  rw [hframed, htrim] at hlen
  simp only [List.length_cons, List.length_append] at hlen
  omega

theorem form_append_sheltered {stillOpen : Option Text} {xs : List Line}
    (h : Sheltered stillOpen xs) (ys : List Line) :
    formFrom stillOpen (xs ++ ys) = xs ++ formFrom (openBehind stillOpen xs) ys := by
  induction xs generalizing stillOpen with
  | nil => rfl
  | cons l xs ih =>
    have hrest : formFrom (openAfter stillOpen l) (xs ++ ys) =
        xs ++ formFrom (openBehind stillOpen (l :: xs)) ys := ih h.2
    rw [List.cons_append, List.cons_append]
    cases hblock : blockAt? stillOpen l with
    | some tag => rw [form_cons_block (by rw [hblock]; rfl), hrest]
    | none =>
      obtain hsome | rfl := h.1
      · rw [hblock] at hsome
        cases hsome
      · have hnone := still_open_none hblock
        subst hnone
        rw [form_cons_blank hblock rfl, ← hrest, open_after_none hblock]

theorem sheltered_lone {stillOpen : Option Text} {ls : List Line} (h : Sheltered stillOpen ls) :
    ∀ x ∈ linePieces stillOpen ls, Lone Piece.join? x := by
  induction ls generalizing stillOpen with
  | nil => simp [linePieces]
  | cons l ls ih =>
    rw [linePieces, List.forall_mem_cons]
    refine ⟨?_, ih h.2⟩
    cases hblock : blockAt? stillOpen l with
    | some tag =>
      rw [of_line_block (by rw [hblock]; rfl)]
      exact lone_block l
    | none =>
      obtain hsome | rfl := h.1
      · rw [hblock] at hsome
        cases hsome
      · rw [of_line_blank hblock rfl]
        exact lone_blank

theorem form_sheltered {stillOpen : Option Text} {ls : List Line} (h : Sheltered stillOpen ls) :
    formFrom stillOpen ls = ls := by
  have happend := form_append_sheltered h []
  have hnil : formFrom (openBehind stillOpen ls) [] = [] := rfl
  rwa [hnil, List.append_nil] at happend

/-- Only sheltered lines come through as they are. -/
theorem sheltered_of_prefix {stillOpen : Option Text} {xs ys : List Line}
    (h : xs <+: formFrom stillOpen (xs ++ ys)) : Sheltered stillOpen xs := by
  induction xs generalizing stillOpen with
  | nil => trivial
  | cons l xs ih =>
    rw [List.cons_append] at h
    cases hblock : blockAt? stillOpen l with
    | some tag =>
      rw [form_cons_block (by rw [hblock]; rfl), List.prefix_cons_inj] at h
      exact ⟨Or.inl (by rw [hblock]; rfl), ih h⟩
    | none =>
      have hnone := still_open_none hblock
      subst hnone
      cases hblank : isBlank l with
      | true =>
        rw [form_cons_blank hblock hblank, List.cons_prefix_cons] at h
        refine ⟨Or.inr h.1, ih ?_⟩
        rw [open_after_none hblock]
        exact h.2
      | false =>
        obtain ⟨more, rest, hform⟩ := form_cons_prose hblock hblank (xs ++ ys)
        rw [hform, List.cons_prefix_cons] at h
        exact absurd h.1.symm (paragraph_ne_line l more)

theorem prefix_form_iff {stillOpen : Option Text} {xs ys : List Line} :
    xs <+: formFrom stillOpen (xs ++ ys) ↔ Sheltered stillOpen xs := by
  constructor
  · exact sheltered_of_prefix
  · intro h
    exact ⟨_, (form_append_sheltered h ys).symm⟩

example : ¬ Sheltered none ["<pre></pre>".toList, "x</pre>".toList] := by decide

theorem block_run {stillOpen : Option Text} {tag : Text} {ls : List Line} {last : Line}
    (hfirst : ∀ l, (ls ++ [last]).head? = some l → blockAt? stillOpen l = some tag)
    (h : ∀ l ∈ ls, Block.isClosedBy tag l = false) :
    Sheltered stillOpen (ls ++ [last]) ∧
      openBehind stillOpen (ls ++ [last]) =
        (some tag).filter fun tag => !Block.isClosedBy tag last := by
  induction ls generalizing stillOpen with
  | nil =>
    have hblock : blockAt? stillOpen last = some tag := hfirst last rfl
    refine ⟨⟨Or.inl (by rw [hblock]; rfl), trivial⟩, ?_⟩
    rw [List.nil_append, openBehind, List.foldl_cons, List.foldl_nil, openAfter, hblock]
  | cons l ls ih =>
    rw [List.forall_mem_cons] at h
    have hblock : blockAt? stillOpen l = some tag := hfirst l rfl
    have hafter : openAfter stillOpen l = some tag := by
      rw [openAfter, hblock, Option.filter_some, if_pos (by simp [h.1])]
    obtain ⟨hsheltered, hopen⟩ := @ih (some tag) (fun _ _ => rfl) h.2
    refine ⟨⟨Or.inl (by rw [hblock]; rfl), ?_⟩, ?_⟩
    · exact hafter ▸ hsheltered
    · rwa [List.cons_append, openBehind, List.foldl_cons, hafter]

/-- A block from the line that opens it to the first one that closes it. -/
theorem closed_block_run {tag : Text} {ls : List Line} {last : Line}
    (hfirst : ∀ l, (ls ++ [last]).head? = some l → Block.opened? (trim l) = some tag)
    (h : ∀ l ∈ ls, Block.isClosedBy tag l = false) (hlast : Block.isClosedBy tag last = true) :
    Sheltered none (ls ++ [last]) ∧ openBehind none (ls ++ [last]) = none := by
  have hrun := @block_run none tag ls last hfirst h
  rwa [Option.filter_some, hlast] at hrun

end MarkdownPage.Paragraph
