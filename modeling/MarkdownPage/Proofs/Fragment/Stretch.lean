import MarkdownPage.Proofs.Fragment.Outline

/-!
Stretches of text between fragments. A pass that is cut at token lines works on each stretch by
itself, so its work on a text can be told from the outline alone, without any token.
-/

namespace MarkdownPage.Outline

open Text

/-- Rework each stretch of lines between fragments; `before` is the stretch so far. -/
def overStretchesFrom (pass : List Line → Outline) (before : List Line) : Outline → Outline
  | [] => pass before
  | .text l :: o => overStretchesFrom pass (before ++ [l]) o
  | .fragment x :: o => pass before ++ .fragment x :: overStretchesFrom pass [] o

def overStretches (pass : List Line → Outline) : Outline → Outline := overStretchesFrom pass []

def lastStretchFrom (before : List Line) : Outline → List Line
  | [] => before
  | .text l :: o => lastStretchFrom (before ++ [l]) o
  | .fragment _ :: o => lastStretchFrom [] o

theorem last_stretch_suffix (codes tables : Nat) (before : List Line) (o : Outline) :
    lastStretchFrom before o <:+ before ++ tokenLines codes tables o := by
  induction o generalizing before codes tables with
  | nil => simp [lastStretchFrom, tokenLines]
  | cons s o ih =>
    cases s with
    | text l =>
      have h := ih codes tables (before ++ [l])
      rwa [List.append_assoc, List.singleton_append] at h
    | fragment x =>
      obtain ⟨k, codes', tables', hstep⟩ := fragment_step codes tables x
      rw [(hstep o).2]
      exact (ih codes' tables' []).trans ⟨before ++ [k.toLine], by simp⟩

section Pass

variable {pass : List Line → Outline}

theorem stretches_append_fragment (before : List Line) (o₁ o₂ : Outline) (x : Fragment) :
    overStretchesFrom pass before (o₁ ++ .fragment x :: o₂) =
      overStretchesFrom pass before o₁ ++ .fragment x :: overStretches pass o₂ := by
  induction o₁ generalizing before with
  | nil => rfl
  | cons s o ih =>
    cases s with
    | text l => exact ih (before ++ [l])
    | fragment y => simp only [List.cons_append, overStretchesFrom, ih, List.append_assoc]

theorem stretches_from_cut {before : List Line} {l : Line}
    (h : ∀ behind, pass (before ++ l :: behind) = pass before ++ .text l :: pass behind)
    (behind : List Line) (o : Outline) :
    overStretchesFrom pass (before ++ l :: behind) o =
      pass before ++ .text l :: overStretchesFrom pass behind o := by
  induction o generalizing behind with
  | nil => exact h behind
  | cons s o ih =>
    cases s with
    | text m =>
      have hm := ih (behind ++ [m])
      rwa [← List.cons_append, ← List.append_assoc] at hm
    | fragment x => simp only [overStretchesFrom, h behind, List.append_assoc, List.cons_append]

theorem stretches_append_cut {before : List Line} {o₁ : Outline} {l : Line}
    (h : ∀ behind, pass (lastStretchFrom before o₁ ++ l :: behind) =
      pass (lastStretchFrom before o₁) ++ .text l :: pass behind) (o₂ : Outline) :
    overStretchesFrom pass before (o₁ ++ .text l :: o₂) =
      overStretchesFrom pass before o₁ ++ .text l :: overStretches pass o₂ := by
  induction o₁ generalizing before with
  | nil => exact stretches_from_cut h [] o₂
  | cons s o ih =>
    cases s with
    | text m => exact ih h
    | fragment x =>
      have hx := @ih [] h
      simp only [List.cons_append, overStretchesFrom, hx, List.append_assoc]

theorem stretches_append_cut_at {l : Line} (h : CutsAt pass l (.text l)) (o₁ o₂ : Outline) :
    overStretches pass (o₁ ++ .text l :: o₂) =
      overStretches pass o₁ ++ .text l :: overStretches pass o₂ :=
  stretches_append_cut (h _) o₂

theorem forall_mem_stretches {P : Slot → Prop}
    (h : ∀ ls, (∀ l ∈ ls, P (.text l)) → ∀ s ∈ pass ls, P s) {before : List Line} {o : Outline}
    (hb : ∀ l ∈ before, P (.text l)) (ho : ∀ s ∈ o, P s) :
    ∀ s ∈ overStretchesFrom pass before o, P s := by
  induction o generalizing before with
  | nil => exact h before hb
  | cons s o ih =>
    rw [List.forall_mem_cons] at ho
    cases s with
    | text l => exact ih (by simpa [or_imp, forall_and] using ⟨hb, ho.1⟩) ho.2
    | fragment x =>
      simp only [overStretchesFrom, List.forall_mem_append, List.forall_mem_cons]
      exact ⟨h before hb, ho.1, ih (by simp) ho.2⟩

theorem filter_map_stretches {β : Type} {f : Slot → Option β} (hf : ∀ l, f (.text l) = none)
    (h : ∀ ls, (pass ls).filterMap f = []) (before : List Line) (o : Outline) :
    (overStretchesFrom pass before o).filterMap f = o.filterMap f := by
  induction o generalizing before with
  | nil => exact h before
  | cons s o ih =>
    cases s with
    | text l => rw [overStretchesFrom, ih, List.filterMap_cons_none (hf l)]
    | fragment x =>
      rw [overStretchesFrom, List.filterMap_append, h before, List.nil_append,
        List.filterMap_cons, List.filterMap_cons, ih]

theorem stretches_ne_nil (h : ∀ ls, ls ≠ [] → pass ls ≠ []) {before : List Line} {o : Outline}
    (hne : before ≠ [] ∨ o ≠ []) : overStretchesFrom pass before o ≠ [] := by
  induction o generalizing before with
  | nil => exact h before (by simpa using hne)
  | cons s o ih =>
    cases s with
    | text l => exact ih (by simp)
    | fragment x => simp [overStretchesFrom]

theorem length_stretches_le (h : ∀ ls, (pass ls).length ≤ ls.length) (before : List Line)
    (o : Outline) : (overStretchesFrom pass before o).length ≤ before.length + o.length := by
  induction o generalizing before with
  | nil => exact h before
  | cons s o ih =>
    cases s with
    | text l =>
      have hl := ih (before ++ [l])
      simp only [List.length_append, List.length_cons, List.length_nil] at hl ⊢
      exact Nat.le_trans hl (by omega)
    | fragment x =>
      have hx := ih []
      have hb := h before
      simp only [overStretchesFrom, List.length_append, List.length_cons, List.length_nil] at hx ⊢
      omega

end Pass

/-- A pass over lines that is cut at the tokens works on the stretches of the outline. -/
theorem pass_token_lines {pass : List Line → List Line} {codes tables : Nat} {o : Outline}
    (h : ∀ k ∈ o.tokens codes tables, CutsAt pass k.toLine k.toLine) (before : List Line) :
    pass (before ++ o.tokenLines codes tables) =
      (o.overStretchesFrom (fun ls => (pass ls).map .text) before).tokenLines codes tables := by
  induction o generalizing before codes tables with
  | nil => rw [overStretchesFrom, token_lines_texts, tokenLines, List.append_nil]
  | cons s o ih =>
    cases s with
    | text l =>
      have hl := ih h (before ++ [l])
      rwa [List.append_assoc, List.singleton_append] at hl
    | fragment x =>
      obtain ⟨k, codes', tables', hstep⟩ := fragment_step codes tables x
      rw [(hstep o).1, List.forall_mem_cons] at h
      have hx := ih h.2 []
      rw [List.nil_append] at hx
      rw [(hstep o).2, h.1, overStretchesFrom, token_lines_texts_append, (hstep _).2, hx]

end MarkdownPage.Outline
