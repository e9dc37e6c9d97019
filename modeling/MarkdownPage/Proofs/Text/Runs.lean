import Mathlib.Data.List.Chain
import Mathlib.Data.List.Induction
import MarkdownPage.Text.Runs
import MarkdownPage.Proofs.Text.Lines

/-!
Runs and the pieces that part them. A piece that joins with nothing stays as it is, and the runs on
its two sides are formed each by itself.
-/

namespace MarkdownPage.Text

variable {α : Type} {join? : α → α → Option α}

/-- The piece joins neither with one before it nor with one behind it. -/
structure Lone (join? : α → α → Option α) (b : α) : Prop where
  before : ∀ a, join? a b = none
  behind : ∀ a, join? b a = none

theorem join_first_lone {b : α} (h : Lone join? b) (rest : List α) :
    joinFirst join? b rest = b :: rest := by
  cases rest with
  | nil => rfl
  | cons a rest => simp only [joinFirst, h.behind a]

theorem join_first_before_lone {b : α} (h : Lone join? b) (a : α) (rest others : List α) :
    joinFirst join? a (rest ++ b :: others) = joinFirst join? a rest ++ b :: others := by
  cases rest with
  | nil => simp only [List.nil_append, joinFirst, h.before a, List.singleton_append]
  | cons c rest =>
    simp only [List.cons_append, joinFirst]
    split <;> rfl

theorem join_runs_cons_lone {b : α} (h : Lone join? b) (ys : List α) :
    joinRuns join? (b :: ys) = b :: joinRuns join? ys := by
  rw [joinRuns_cons, join_first_lone h]

theorem join_runs_append_lone {b : α} (h : Lone join? b) (xs ys : List α) :
    joinRuns join? (xs ++ b :: ys) = joinRuns join? xs ++ b :: joinRuns join? ys := by
  induction xs with
  | nil => exact join_runs_cons_lone h ys
  | cons a xs ih =>
    rw [List.cons_append, joinRuns_cons, ih, join_first_before_lone h, joinRuns_cons]

theorem join_runs_ne_nil {xs : List α} (h : xs ≠ []) : joinRuns join? xs ≠ [] := by
  obtain ⟨a, xs, rfl⟩ := List.exists_cons_of_ne_nil h
  exact joinFirst_ne_nil join? a (joinRuns join? xs)

theorem forall_mem_join_runs {P : α → Prop} {xs : List α}
    (hjoin : ∀ a b c, join? a b = some c → P a → P b → P c) (h : ∀ a ∈ xs, P a) :
    ∀ a ∈ joinRuns join? xs, P a := by
  induction xs with
  | nil => simp
  | cons a xs ih =>
    have hxs := ih fun b hb => h b (List.mem_cons_of_mem a hb)
    have ha := h a List.mem_cons_self
    rw [joinRuns_cons]
    cases hr : joinRuns join? xs with
    | nil => simpa [joinFirst] using ha
    | cons b rest =>
      rw [hr, List.forall_mem_cons] at hxs
      simp only [joinFirst]
      split
      · next c hc => exact List.forall_mem_cons.mpr ⟨hjoin a b c hc ha hxs.1, hxs.2⟩
      · exact List.forall_mem_cons.mpr ⟨ha, List.forall_mem_cons.mpr hxs⟩

section Members

variable {β : Type} {make : List β → α}
  (h : ∀ xs ys, join? (make xs) (make ys) = some (make (xs ++ ys))) {xs : List β} (hne : xs ≠ [])

include h hne

/-- Pieces made of one member each join to the piece made of all members, which ends before what it
does not join with. -/
theorem join_runs_map_append {ys : List α}
    (hends : ∀ b ∈ (joinRuns join? ys).head?, ∀ zs, join? (make zs) b = none) :
    joinRuns join? (xs.map (fun x => make [x]) ++ ys) = make xs :: joinRuns join? ys := by
  induction xs with
  | nil => exact absurd rfl hne
  | cons x xs ih =>
    rw [List.map_cons, List.cons_append, joinRuns_cons]
    by_cases hxs : xs = []
    · subst hxs
      cases hys : joinRuns join? ys with
      | nil => rw [List.map_nil, List.nil_append, hys, joinFirst]
      | cons b rest =>
        have hb := hends b (by rw [hys]; rfl) [x]
        simp only [List.map_nil, List.nil_append, hys, joinFirst, hb]
    · rw [ih hxs]
      simp only [joinFirst, h, List.singleton_append]

theorem join_runs_map : joinRuns join? (xs.map fun x => make [x]) = [make xs] := by
  rw [← List.append_nil (xs.map _)]
  exact join_runs_map_append h hne (by simp)

end Members

theorem flat_map_join_runs {β : Type} {parts : α → List β}
    (h : ∀ a b c, join? a b = some c → parts c = parts a ++ parts b) (xs : List α) :
    (joinRuns join? xs).flatMap parts = xs.flatMap parts := by
  induction xs with
  | nil => rfl
  | cons a xs ih =>
    rw [joinRuns_cons, List.flatMap_cons, ← ih]
    cases joinRuns join? xs with
    | nil => rfl
    | cons b rest =>
      simp only [joinFirst]
      split
      · next c hc => rw [List.flatMap_cons, h a b c hc, List.append_assoc, List.flatMap_cons]
      · rfl

/-- Neighbours among the runs join no more, where a joined piece goes on as its last part does. -/
theorem is_chain_join_runs
    (h : ∀ a b c d, join? a b = some c → join? b d = none → join? c d = none) (xs : List α) :
    (joinRuns join? xs).IsChain fun a b => join? a b = none := by
  induction xs with
  | nil => exact List.isChain_nil
  | cons a xs ih =>
    rw [joinRuns_cons]
    cases hr : joinRuns join? xs with
    | nil => exact List.isChain_singleton a
    | cons b rest =>
      rw [hr] at ih
      simp only [joinFirst]
      split
      · next c hc =>
        rw [List.isChain_cons] at ih ⊢
        exact ⟨fun d hd => h a b c d hc (ih.1 d hd), ih.2⟩
      · next hc =>
        rw [List.isChain_cons]
        exact ⟨by simpa using hc, ih⟩

section Seams

variable {xs ys : List α}

theorem join_runs_append_of_lone_head (h : ∀ b ∈ ys.head?, Lone join? b) :
    joinRuns join? (xs ++ ys) = joinRuns join? xs ++ joinRuns join? ys := by
  cases ys with
  | nil => simp
  | cons b ys =>
    have hb := h b rfl
    rw [join_runs_append_lone hb, join_runs_cons_lone hb]

theorem join_runs_append_of_lone (h : ∀ a ∈ xs, Lone join? a) :
    joinRuns join? (xs ++ ys) = xs ++ joinRuns join? ys := by
  induction xs with
  | nil => rfl
  | cons a xs ih =>
    rw [List.forall_mem_cons] at h
    rw [List.cons_append, join_runs_cons_lone h.1, ih h.2, List.cons_append]

theorem join_runs_of_lone (h : ∀ a ∈ xs, Lone join? a) : joinRuns join? xs = xs := by
  have happend := @join_runs_append_of_lone _ _ xs [] h
  rwa [List.append_nil, joinRuns_nil, List.append_nil] at happend

end Seams

/-- Groups of pieces are joined each by itself, if of two neighbours one joins with nothing. -/
theorem join_runs_flat_map {γ : Type} {group : γ → List α} {xs : List γ}
    (hne : ∀ a ∈ xs, group a ≠ [])
    (h : xs.IsChain fun a b => (∀ x ∈ group a, Lone join? x) ∨ ∀ x ∈ group b, Lone join? x) :
    joinRuns join? (xs.flatMap group) = xs.flatMap fun a => joinRuns join? (group a) := by
  induction xs with
  | nil => rfl
  | cons a xs ih =>
    rw [List.forall_mem_cons] at hne
    rw [List.isChain_cons] at h
    rw [List.flatMap_cons, List.flatMap_cons, ← ih hne.2 h.2]
    cases xs with
    | nil => simp
    | cons b xs =>
      rcases h.1 b rfl with hlone | hlone
      · rw [join_runs_append_of_lone hlone, join_runs_of_lone hlone]
      · apply join_runs_append_of_lone_head
        obtain ⟨x, others, hb⟩ := List.exists_cons_of_ne_nil (hne.2 b List.mem_cons_self)
        rw [hb, List.forall_mem_cons] at hlone
        simpa [hb] using hlone.1

theorem cuts_at_lone {ofLine : Line → α} {l : Line} (h : Lone join? (ofLine l)) :
    CutsAt (fun ls => joinRuns join? (ls.map ofLine)) l (ofLine l) := by
  intro before behind
  simp only [List.map_append, List.map_cons, join_runs_append_lone h]

end MarkdownPage.Text
