import MarkdownPage.Proofs.Article.MarkUp
import MarkdownPage.Proofs.Span.Marked

/-!
The parts of a text without fragments: blank lines, headings, lists and runs of prose. Each pass
over such a text works on its parts one by one. A list ends where an item of the other style comes;
no two runs of prose stand side by side, and this is what keeps spans and paragraphs apart.
-/

namespace MarkdownPage.Article

open Text Html

inductive Part where
  | blank (l : Line)
  | heading (h : Heading)
  | list (style : ListStyle) (first : Text) (others : List Text)
  | prose (first : Line) (others : List Line)

namespace Part

def ofLine (l : Line) : Part :=
  match Heading.ofLine? l with
  | some h => .heading h
  | none =>
    match Item.ofLine? l with
    | some item => .list item.style item.content []
    | none => if isBlank l then .blank l else .prose l []

def join? : Part → Part → Option Part
  | .list style a as, .list style' b bs =>
    if style = style' then some (.list style a (as ++ b :: bs)) else none
  | .prose l ls, .prose m ms => some (.prose l (ls ++ m :: ms))
  | _, _ => none

def listed : Part → List ItemList.Piece
  | .blank l => [.text l]
  | .heading h => [.text h.toHtml]
  | .list style first others => [.list style (first :: others)]
  | .prose first others => (first :: others).map .text

def lines (p : Part) : List Line := p.listed.flatMap ItemList.Piece.toHtml

end Part

def parts (ls : List Line) : List Part := joinRuns Part.join? (ls.map Part.ofLine)

theorem lone_blank (l : Line) : Lone Part.join? (.blank l) where
  before a := by cases a <;> rfl
  behind a := by cases a <;> rfl

theorem lone_heading (h : Heading) : Lone Part.join? (.heading h) where
  before a := by cases a <;> rfl
  behind a := by cases a <;> rfl

theorem join_first_listed (l : Line) (ps : List Part) :
    joinFirst ItemList.Piece.join? (ItemList.Piece.ofLine (Heading.markUpLine l))
        (ps.flatMap Part.listed) =
      (joinFirst Part.join? (Part.ofLine l) ps).flatMap Part.listed := by
  cases hheading : Heading.ofLine? l with
  | some h =>
    have hitem : Item.ofLine? h.toHtml = none := Item.enclose_no_item h.level.tag h.content
    have hline : ItemList.Piece.ofLine (Heading.markUpLine l) = .text h.toHtml := by
      rw [Heading.markUpLine, hheading, ItemList.Piece.ofLine, hitem]
    have hpart : Part.ofLine l = .heading h := by rw [Part.ofLine, hheading]
    rw [hline, hpart, join_first_lone (ItemList.lone_text _), join_first_lone (lone_heading h)]
    rfl
  | none =>
    rw [Heading.mark_up_line_none hheading, ItemList.Piece.ofLine, Part.ofLine, hheading]
    cases hitem : Item.ofLine? l with
    | some item =>
      simp only
      cases ps with
      | nil => rfl
      | cons p ps =>
        cases p with
        | blank m => rfl
        | heading h => rfl
        | prose m ms => rfl
        | list style first others =>
          by_cases hstyle : item.style = style
          · simp [joinFirst, Part.join?, ItemList.Piece.join?, Part.listed, hstyle]
          · simp [joinFirst, Part.join?, ItemList.Piece.join?, Part.listed, hstyle]
    | none =>
      simp only
      rw [join_first_lone (ItemList.lone_text l)]
      by_cases hblank : isBlank l = true
      · rw [if_pos hblank, join_first_lone (lone_blank l)]
        rfl
      · rw [if_neg hblank]
        cases ps with
        | nil => rfl
        | cons p ps => cases p <;> rfl

theorem list_pieces_parts (ls : List Line) :
    ItemList.pieces (ls.map Heading.markUpLine) = (parts ls).flatMap Part.listed := by
  rw [ItemList.pieces, parts]
  induction ls with
  | nil => rfl
  | cons l ls ih =>
    rw [List.map_cons, List.map_cons, List.map_cons, joinRuns_cons, joinRuns_cons, ih,
      join_first_listed]

theorem list_lines_parts (ls : List Line) :
    ItemList.markUpLines (ls.map Heading.markUpLine) = (parts ls).flatMap Part.lines := by
  rw [ItemList.markUpLines, list_pieces_parts, List.flatMap_assoc]
  rfl

structure Tagless (l : Line) : Prop where
  newline : '\n' ∉ l
  bracket : '<' ∉ l
  frames : Token.Unframed l

theorem Tagless.subset {l m : Line} (h : Tagless l) (hsub : ∀ c ∈ m, c ∈ l) : Tagless m where
  newline hc := h.newline (hsub _ hc)
  bracket hc := h.bracket (hsub _ hc)
  frames c hc := h.frames c (hsub c hc)

namespace Part

def Tagless : Part → Prop
  | .blank l => Article.Tagless l ∧ isBlank l = true
  | .heading h => Article.Tagless h.content
  | .list _ first others => ∀ item ∈ first :: others, Article.Tagless item
  | .prose first others => ∀ l ∈ first :: others, Article.Tagless l ∧ isBlank l = false

def isProse : Part → Bool
  | .prose _ _ => true
  | _ => false

end Part

theorem part_of_line_tagless {l : Line} (h : Tagless l) : (Part.ofLine l).Tagless := by
  rw [Part.ofLine]
  split
  · next heading hheading => exact h.subset fun c hc => Heading.mem_of_mem_content hheading hc
  · split
    · next item hitem =>
      exact List.forall_mem_singleton.mpr (h.subset fun c hc => Item.mem_of_mem_content hitem hc)
    · split
      · next hblank => exact ⟨h, hblank⟩
      · next hblank => exact List.forall_mem_singleton.mpr ⟨h, by simpa using hblank⟩

theorem join_tagless {a b c : Part} (h : a.join? b = some c) (ha : a.Tagless) (hb : b.Tagless) :
    c.Tagless := by
  unfold Part.join? at h
  split at h
  · rw [Option.ite_none_right_eq_some] at h
    obtain ⟨-, hc⟩ := h
    cases hc
    rw [Part.Tagless, ← List.cons_append, List.forall_mem_append]
    exact ⟨ha, hb⟩
  · cases h
    rw [Part.Tagless, ← List.cons_append, List.forall_mem_append]
    exact ⟨ha, hb⟩
  · cases h

theorem parts_tagless {ls : List Line} (h : ∀ l ∈ ls, Tagless l) : ∀ p ∈ parts ls, p.Tagless := by
  refine forall_mem_join_runs (fun a b c hj => join_tagless hj) fun p hp => ?_
  obtain ⟨l, hl, rfl⟩ := List.mem_map.mp hp
  exact part_of_line_tagless (h l hl)

/-- A joined part goes on as its last part does. -/
theorem join_none_of_join {a b c d : Part} (h : a.join? b = some c) (hd : b.join? d = none) :
    c.join? d = none := by
  unfold Part.join? at h
  split at h
  · rw [Option.ite_none_right_eq_some] at h
    obtain ⟨rfl, hc⟩ := h
    cases hc
    cases d with
    | list style first others => simpa [Part.join?] using hd
    | _ => rfl
  · cases h
    cases d with
    | prose first others => cases hd
    | _ => rfl
  · cases h

theorem chain_parts (ls : List Line) :
    (parts ls).IsChain fun a b => a.isProse = false ∨ b.isProse = false := by
  refine (is_chain_join_runs (fun a b c d => join_none_of_join) _).imp fun a b hjoin => ?_
  cases a with
  | prose l ls => cases b <;> first | exact Or.inr rfl | cases hjoin
  | _ => exact Or.inl rfl

theorem part_lines_ne_nil (p : Part) : p.lines ≠ [] := by
  cases p <;> simp [Part.lines, Part.listed, ItemList.Piece.toHtml]

theorem prose_lines (first : Line) (others : List Line) :
    (Part.prose first others).lines = first :: others := by
  rw [Part.lines, Part.listed, List.flatMap_map]
  exact List.flatMap_singleton' (first :: others)

theorem list_lines (style : ListStyle) (first : Text) (others : List Text) :
    (Part.list style first others).lines =
      listOpen style :: (first :: others).map listItem ++ [listClose style] :=
  List.flatMap_singleton _ _

theorem part_lines_alone {p : Part} (h : p.Tagless) (hprose : p.isProse = false) :
    ∀ l ∈ p.lines, Span.Piece.ofLine l = .alone l := by
  cases p with
  | blank l => exact List.forall_mem_singleton.mpr (Span.of_line_blank h.1.frames h.2)
  | heading heading =>
    exact List.forall_mem_singleton.mpr (Span.of_line_heading heading.level heading.content)
  | list style first others =>
    rw [list_lines, List.forall_mem_append, List.forall_mem_cons, List.forall_mem_singleton,
      List.forall_mem_map]
    exact ⟨⟨Span.of_line_list_open style, fun item _ => Span.of_line_list_item item⟩,
      Span.of_line_list_close style⟩
  | prose first others => cases hprose

def Part.marked (e : Escaping) (p : Part) : List Line := relined (Span.markUpPieces e) p.lines

theorem marked_parts (e : Escaping) {ps : List Part} (h : ∀ p ∈ ps, p.Tagless)
    (hchain : ps.IsChain fun a b => a.isProse = false ∨ b.isProse = false) :
    relined (Span.markUpPieces e) (ps.flatMap Part.lines) = ps.flatMap (Part.marked e) := by
  have halone : ∀ p ∈ ps, p.isProse = false →
      ∀ l ∈ p.lines, (Span.Piece.ofLine l).isProse = false := by
    intro p hp hprose l hl
    rw [part_lines_alone (h p hp) hprose l hl]
    rfl
  have hgroups : ps.IsChain fun a b => (∀ l ∈ a.lines, (Span.Piece.ofLine l).isProse = false) ∨
      ∀ l ∈ b.lines, (Span.Piece.ofLine l).isProse = false :=
    hchain.imp_of_mem_imp fun a b ha hb hab => hab.imp (halone a ha) (halone b hb)
  rw [relined, Span.mark_up_pieces_flat_map e (fun p _ => part_lines_ne_nil p) hgroups,
    List.flatMap_assoc]
  rfl

/-- A text without tags is marked up part by part. -/
theorem mark_up_lines_parts (e : Escaping) {ls : List Line} (h : ∀ l ∈ ls, Tagless l) :
    markUpLines e ls = (parts ls).flatMap (Part.marked e) := by
  have hp := alphabet_newline_free
  have hls : ∀ l ∈ ls, ∀ c ∈ l, c ≠ '\n' := fun l hl => List.forall_mem_ne'.mpr (h l hl).newline
  have hheading : ∀ l ∈ ls.map Heading.markUpLine, ∀ c ∈ l, c ≠ '\n' :=
    List.forall_mem_map.mpr fun l hl => Heading.mark_up_line_spelled hp (hls l hl)
  have hlist := ItemList.mark_up_lines_spelled hp hheading
  rw [markUpLines, Function.comp_apply, Function.comp_apply,
    relined_of_newline_free fun l hl => List.forall_mem_ne'.mp (hheading l hl),
    relined_of_newline_free fun l hl => List.forall_mem_ne'.mp (hlist l hl), list_lines_parts,
    marked_parts e (parts_tagless h) (chain_parts ls)]

section Marked

variable {e : Escaping}

theorem marked_alone {p : Part} (h : p.Tagless) (hprose : p.isProse = false)
    (hfree : ∀ l ∈ p.lines, '\n' ∉ l) : p.marked e = p.lines.map (Span.markAll e) := by
  have hpieces := Span.mark_up_pieces_alone e (part_lines_alone h hprose)
  rw [Part.marked, relined_of_newline_free, hpieces]
  rw [hpieces, List.forall_mem_map]
  exact fun l hl => Span.mark_all_newline_free e (hfree l hl)

theorem marked_blank {l : Line} (h : (Part.blank l).Tagless) : (Part.blank l).marked e = [l] := by
  have hfree : ∀ m ∈ (Part.blank l).lines, '\n' ∉ m := List.forall_mem_singleton.mpr h.1.newline
  rw [marked_alone h rfl hfree]
  exact congrArg (fun t => [t]) (Span.mark_all_inert e (Span.inert_blank h.2))

theorem marked_heading {heading : Heading} (h : (Part.heading heading).Tagless) :
    (Part.heading heading).marked e =
      [Html.heading heading.level (Span.markAll e heading.content)] := by
  have hfree : ∀ m ∈ (Part.heading heading).lines, '\n' ∉ m := List.forall_mem_singleton.mpr
    (enclose_newline_free (level_tag_alphabet heading.level) h.newline)
  rw [marked_alone h rfl hfree]
  exact congrArg (fun t => [t]) (Span.mark_all_heading e heading.level heading.content)

theorem marked_list {style : ListStyle} {first : Text} {others : List Text}
    (h : (Part.list style first others).Tagless) :
    (Part.list style first others).marked e =
      listOpen style :: ((first :: others).map fun item => listItem (Span.markAll e item)) ++
        [listClose style] := by
  have hopen : '\n' ∉ listOpen style := by cases style <;> decide
  have hclose : '\n' ∉ listClose style := by cases style <;> decide
  have hfree : ∀ m ∈ (Part.list style first others).lines, '\n' ∉ m := by
    rw [list_lines, List.forall_mem_append, List.forall_mem_cons, List.forall_mem_singleton,
      List.forall_mem_map]
    exact ⟨⟨hopen, fun item hitem => enclose_newline_free (by decide) (h item hitem).newline⟩,
      hclose⟩
  obtain ⟨hopen, hclose⟩ := Span.mark_all_list_tags e style
  rw [marked_alone h rfl hfree, list_lines, List.map_append, List.map_cons, List.map_map, hopen,
    List.map_singleton, hclose]
  simp only [Function.comp_def, Span.mark_all_list_item]

theorem marked_prose {first : Line} {others : List Line}
    (h : (Part.prose first others).Tagless) :
    (Part.prose first others).marked e = Text.lines (Span.markAll e (unlines (first :: others))) := by
  have hpieces : ∀ l ∈ first :: others, Span.Piece.ofLine l = .prose [l] := by
    intro l hl
    exact Span.of_line_plain (h l hl).1.bracket (h l hl).1.frames (h l hl).2
  rw [Part.marked, prose_lines, relined,
    Span.mark_up_pieces_prose e (List.cons_ne_nil first others) hpieces, List.flatMap_cons,
    List.flatMap_nil, List.append_nil]

end Marked

end MarkdownPage.Article
