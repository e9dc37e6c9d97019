import MarkdownPage.Span.Prose
import MarkdownPage.Proofs.Fragment.Token
import MarkdownPage.Proofs.Html.Alphabet
import MarkdownPage.Proofs.Span.Rule
import MarkdownPage.Proofs.Text.Runs

/-!
Spans, stretch by stretch. Tokens and empty lines part the prose on their two sides and stay as
they are, and the marked text holds only characters of the text and of the markup.
-/

namespace MarkdownPage.Span

open Text

theorem delimited_spelled {p : Char → Prop} {mark : Text} {wrap : Text → Text}
    (hwrap : ∀ t, (∀ c ∈ t, p c) → ∀ c ∈ wrap t, p c) {t : Text} (h : ∀ c ∈ t, p c) :
    ∀ c ∈ substitute (delimitedRule mark wrap) t, p c := by
  apply substitute_spelled _ h
  intro s m hm hs
  obtain ⟨content, hspan, hwrite⟩ := (delimited_rule_replaces mark wrap).hit s m hm
  rw [(delimited?_eq hspan).1] at hs
  simp only [List.forall_mem_append] at hs
  rw [hwrite]
  exact ⟨hwrap content hs.1.1.2, hs.2⟩

theorem reference_spelled {p : Char → Prop} {lead : Text} {write : Reference → Text}
    (hwrite : ∀ r : Reference, (∀ c ∈ r.label, p c) → (∀ c ∈ r.address, p c) →
      ∀ c ∈ write r, p c) {t : Text} (h : ∀ c ∈ t, p c) :
    ∀ c ∈ substitute (referenceRule lead write) t, p c := by
  apply substitute_spelled _ h
  intro s m hm hs
  obtain ⟨r, hreference, hreplacement⟩ := (reference_rule_replaces lead write).hit s m hm
  rw [(reference?_eq hreference).1] at hs
  simp only [List.forall_mem_append] at hs
  rw [hreplacement]
  exact ⟨hwrite r hs.1.1.1.1.2 hs.1.1.2, hs.2⟩

theorem mark_all_spelled {p : Char → Prop} (hp : ∀ c ∈ Html.alphabet, p c) (e : Html.Escaping)
    {t : Text} (h : ∀ c ∈ t, p c) : ∀ c ∈ markAll e t, p c := by
  have hstrong : ∀ c ∈ markStrong t, p c :=
    delimited_spelled (fun _ ht => Html.enclose_spelled hp (by decide) ht) h
  have hemphasis : ∀ c ∈ markEmphasis (markStrong t), p c :=
    delimited_spelled (fun _ ht => Html.enclose_spelled hp (by decide) ht) hstrong
  have himages : ∀ c ∈ markImages e (markEmphasis (markStrong t)), p c :=
    reference_spelled (fun _ hl ha => Html.image_spelled hp e ha hl) hemphasis
  exact reference_spelled (fun _ hl ha => Html.link_spelled hp e ha hl) himages

theorem mark_all_newline_free (e : Html.Escaping) {t : Text} (h : '\n' ∉ t) :
    '\n' ∉ markAll e t :=
  List.forall_mem_ne'.mp
    (mark_all_spelled Html.alphabet_newline_free e (List.forall_mem_ne'.mpr h))

@[simp] theorem mark_all_nil (e : Html.Escaping) : markAll e [] = [] := by
  simp [markAll, markStrong, markEmphasis, markImages, markLinks]

def markUpPieces (e : Html.Escaping) (ls : List Line) : List Text :=
  (pieces ls).map (Piece.toHtml e)

def Piece.isProse : Piece → Bool
  | .prose _ => true
  | _ => false

theorem of_line_alone {l : Line} (htoken : isToken l = false) (h : standsAlone l = true) :
    Piece.ofLine l = .alone l := by
  rw [Piece.ofLine, if_neg (by simp [htoken]), if_pos h]

theorem of_line_prose {l : Line} (h : standsAlone l = false) : Piece.ofLine l = .prose [l] := by
  have htoken : isToken l = false := by
    simp only [standsAlone, Bool.or_eq_false_iff] at h
    exact h.1.1.1.2
  rw [Piece.ofLine, if_neg (by simp [htoken]), if_neg (by simp [h])]

theorem lone_of_not_prose {piece : Piece} (h : piece.isProse = false) :
    Lone Piece.join? piece where
  before a := by cases a <;> cases piece <;> first | rfl | cases h
  behind a := by cases a <;> cases piece <;> first | rfl | cases h

theorem mark_up_pieces_alone (e : Html.Escaping) {ls : List Line}
    (h : ∀ l ∈ ls, Piece.ofLine l = .alone l) : markUpPieces e ls = ls.map (markAll e) := by
  have hpieces : ls.map Piece.ofLine = ls.map .alone := List.map_congr_left h
  have hlone : ∀ piece ∈ ls.map Piece.alone, Lone Piece.join? piece :=
    List.forall_mem_map.mpr fun _ _ => lone_of_not_prose rfl
  rw [markUpPieces, pieces, hpieces, join_runs_of_lone hlone, List.map_map]
  rfl

theorem mark_up_pieces_prose (e : Html.Escaping) {ls : List Line} (hne : ls ≠ [])
    (h : ∀ l ∈ ls, Piece.ofLine l = .prose [l]) :
    markUpPieces e ls = [markAll e (unlines ls)] := by
  have hpieces : ls.map Piece.ofLine = ls.map fun l => .prose [l] := List.map_congr_left h
  rw [markUpPieces, pieces, hpieces, join_runs_map (fun _ _ => rfl) hne]
  rfl

theorem mark_up_eq_unlines (e : Html.Escaping) (t : Text) :
    markUp e t = unlines (markUpPieces e (lines t)) := rfl

theorem mark_up_line (e : Html.Escaping) {l : Line} (hfree : '\n' ∉ l)
    (htoken : isToken l = false) : markUp e l = markAll e l := by
  have hpieces : markUpPieces e [l] = [markAll e l] := by
    cases halone : standsAlone l with
    | true =>
      have hl := of_line_alone htoken halone
      exact mark_up_pieces_alone e (List.forall_mem_singleton.mpr hl)
    | false =>
      have hl := of_line_prose halone
      have hprose := mark_up_pieces_prose e (List.cons_ne_nil l []) (List.forall_mem_singleton.mpr hl)
      rwa [unlines_singleton] at hprose
  rw [mark_up_eq_unlines, lines_of_newline_free hfree, hpieces, unlines_singleton]

/-- Groups of lines are marked each by itself, if of two neighbours one holds no prose. -/
theorem mark_up_pieces_flat_map (e : Html.Escaping) {γ : Type} {group : γ → List Line}
    {xs : List γ} (hne : ∀ a ∈ xs, group a ≠ [])
    (h : xs.IsChain fun a b => (∀ l ∈ group a, (Piece.ofLine l).isProse = false) ∨
      ∀ l ∈ group b, (Piece.ofLine l).isProse = false) :
    markUpPieces e (xs.flatMap group) = xs.flatMap fun a => markUpPieces e (group a) := by
  have hlone : ∀ a, (∀ l ∈ group a, (Piece.ofLine l).isProse = false) →
      ∀ piece ∈ (group a).map Piece.ofLine, Lone Piece.join? piece := by
    intro a ha
    rw [List.forall_mem_map]
    intro l hl
    exact lone_of_not_prose (ha l hl)
  have hchain := h.imp fun a b hab => hab.imp (hlone a) (hlone b)
  have hgroups : ∀ a ∈ xs, (group a).map Piece.ofLine ≠ [] := by
    intro a ha
    simpa using hne a ha
  rw [markUpPieces, pieces, List.map_flatMap, join_runs_flat_map hgroups hchain, List.map_flatMap]
  rfl

theorem cuts_at (e : Html.Escaping) {l : Line} (h : (Piece.ofLine l).isProse = false) :
    CutsAt (markUpPieces e) l ((Piece.ofLine l).toHtml e) := by
  have hcut : CutsAt pieces l (Piece.ofLine l) := cuts_at_lone (lone_of_not_prose h)
  exact hcut.map (Piece.toHtml e)

theorem cuts_at_token (e : Html.Escaping) {k : Token} (h : k.index < Token.indexLimit) :
    CutsAt (markUpPieces e) k.toLine k.toLine := by
  have htoken : isToken k.toLine = true := by rw [isToken, Token.of_line_to_line h]; rfl
  have hl : Piece.ofLine k.toLine = .token k.toLine := by rw [Piece.ofLine, if_pos htoken]
  have hcut := cuts_at e (l := k.toLine) (by rw [hl]; rfl)
  rwa [hl] at hcut

theorem cuts_at_empty (e : Html.Escaping) : CutsAt (markUpPieces e) [] [] := by
  have hcut := cuts_at e (l := []) (by decide)
  have hl : (Piece.ofLine []).toHtml e = [] := mark_all_nil e
  rwa [hl] at hcut

theorem mark_up_pieces_ne_nil {e : Html.Escaping} {ls : List Line} (h : ls ≠ []) :
    markUpPieces e ls ≠ [] := by
  have hpieces : pieces ls ≠ [] := join_runs_ne_nil (by simpa using h)
  simpa [markUpPieces] using hpieces

def Piece.Spelled (p : Char → Prop) : Piece → Prop
  | .token l => ∀ c ∈ l, p c
  | .alone l => ∀ c ∈ l, p c
  | .prose ls => ∀ l ∈ ls, ∀ c ∈ l, p c

theorem piece_of_line_spelled {p : Char → Prop} {l : Line} (h : ∀ c ∈ l, p c) :
    (Piece.ofLine l).Spelled p := by
  rw [Piece.ofLine]
  split
  · exact h
  · split
    · exact h
    · exact List.forall_mem_singleton.mpr h

theorem join_spelled {p : Char → Prop} {a b c : Piece} (h : a.join? b = some c)
    (ha : a.Spelled p) (hb : b.Spelled p) : c.Spelled p := by
  unfold Piece.join? at h
  split at h
  · cases h
    exact List.forall_mem_append.mpr ⟨ha, hb⟩
  · cases h

theorem piece_html_spelled {p : Char → Prop} (hp : ∀ c ∈ Html.alphabet, p c) (hn : p '\n')
    (e : Html.Escaping) {piece : Piece} (h : piece.Spelled p) : ∀ c ∈ piece.toHtml e, p c := by
  cases piece with
  | token l => exact h
  | alone l => exact mark_all_spelled hp e h
  | prose ls => exact mark_all_spelled hp e (unlines_spelled hn h)

theorem mark_up_pieces_spelled {p : Char → Prop} (hp : ∀ c ∈ Html.alphabet, p c) (hn : p '\n')
    (e : Html.Escaping) {ls : List Line} (h : ∀ l ∈ ls, ∀ c ∈ l, p c) :
    ∀ t ∈ markUpPieces e ls, ∀ c ∈ t, p c := by
  have hpieces : ∀ piece ∈ pieces ls, piece.Spelled p := by
    refine forall_mem_join_runs (fun a b c hj => join_spelled hj) fun piece hpiece => ?_
    obtain ⟨l, hl, rfl⟩ := List.mem_map.mp hpiece
    exact piece_of_line_spelled (h l hl)
  intro t ht
  obtain ⟨piece, hpiece, rfl⟩ := List.mem_map.mp ht
  exact piece_html_spelled hp hn e (hpieces piece hpiece)

end MarkdownPage.Span
