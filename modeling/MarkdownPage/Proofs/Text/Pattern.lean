import MarkdownPage.Proofs.Text.Substitute

/-!
Patterns with groups, matched the way a backtracking search does. The ways in which a pattern
matches at the head of a text are listed in the order in which they are tried, and the first one
counts. Main statement: `substituted_iff`, by which a rule that finds the first match of a pattern
makes the global substitution of that pattern.
-/

namespace MarkdownPage.Text

/-- One way to match: what is taken, what the groups of the pattern hold, and what follows. -/
structure Way where
  taken : Text
  groups : List Text
  rest : Text
  deriving DecidableEq, Repr

namespace Way

def andThen (v w : Way) : Way := ⟨v.taken ++ w.taken, v.groups ++ w.groups, w.rest⟩

/-- Groups are numbered from one; the whole match has the number zero. -/
def group (w : Way) (n : Nat) : Text := (w.taken :: w.groups).getD n []

end Way

inductive Pattern where
  | literal (t : Text)
  /-- One or more characters of a class. -/
  | oneOrMore (accepts : Char → Bool)
  | group (p : Pattern)
  | seq (p q : Pattern)

namespace Pattern

/-- As many characters as there are of the class come first; then one after the other is given
back. -/
def repetitions (accepts : Char → Bool) : Text → List Way
  | [] => []
  | c :: t =>
    if accepts c then
      (repetitions accepts t).map (fun w => { w with taken := c :: w.taken }) ++ [⟨[c], [], t⟩]
    else []

/-- All ways to match at the head of a text, in the order in which they are tried. -/
def ways : Pattern → Text → List Way
  | literal t, s => ((dropPrefix? t s).map fun rest => ⟨t, [], rest⟩).toList
  | oneOrMore accepts, s => repetitions accepts s
  | group p, s => (p.ways s).map fun w => { w with groups := w.taken :: w.groups }
  | seq p q, s => (p.ways s).flatMap fun v => (q.ways v.rest).map v.andThen

def firstMatch? (p : Pattern) (s : Text) : Option Way := (p.ways s).head?

/-- The global substitution of a pattern: the match that begins first is replaced, and the search
goes on behind it. -/
inductive Substituted (p : Pattern) (write : (Nat → Text) → Text) : Text → Text → Prop where
  | done (t : Text) (none_left : ∀ s, s <:+ t → p.firstMatch? s = none) : Substituted p write t t
  | next (before s : Text) (w : Way) (out : Text) (matched : p.firstMatch? s = some w)
      (first : ∀ u c v, before = u ++ c :: v → p.firstMatch? (c :: v ++ s) = none)
      (behind : Substituted p write w.rest out) :
      Substituted p write (before ++ s) (before ++ write w.group ++ out)

/-- Where what follows cannot begin with a character of the class, nothing is ever given back. -/
theorem repetitions_flat_map {α : Type} {accepts : Char → Bool} {next : Way → List α}
    (h : ∀ w c t, w.rest = c :: t → accepts c = true → next w = []) (s : Text) :
    (repetitions accepts s).flatMap next =
      if s.takeWhile accepts = [] then []
      else next ⟨s.takeWhile accepts, [], s.dropWhile accepts⟩ := by
  induction s generalizing next with
  | nil => rfl
  | cons c t ih =>
    by_cases hc : accepts c = true
    · have hlonger := @ih (fun w => next { w with taken := c :: w.taken })
        fun w d u hw hd => h _ d u hw hd
      have hone : t.takeWhile accepts ≠ [] → next ⟨[c], [], t⟩ = [] := by
        intro hne
        cases t with
        | nil => exact absurd rfl hne
        | cons d u =>
          by_cases hd : accepts d = true
          · exact h _ d u rfl hd
          · exact absurd (by simp [hd]) hne
      simp only [repetitions, hc, if_true, List.flatMap_append, List.flatMap_map, hlonger,
        List.flatMap_cons, List.flatMap_nil, List.append_nil, List.takeWhile_cons_of_pos,
        List.dropWhile_cons_of_pos, reduceCtorEq, if_false]
      by_cases ht : t.takeWhile accepts = []
      · have hdrop : t.dropWhile accepts = t := by
          have happ := List.takeWhile_append_dropWhile (p := accepts) (l := t)
          rwa [ht, List.nil_append] at happ
        rw [if_pos ht, List.nil_append, ht, hdrop]
      · rw [if_neg ht, hone ht, List.append_nil]
    · simp [repetitions, hc]

end Pattern

/-- The rule replaces the first match of the pattern. -/
def Follows (rule : Rule) (p : Pattern) (write : (Nat → Text) → Text) : Prop :=
  Replaces rule (fun s => (p.firstMatch? s).map fun w => (w, w.rest)) fun w => write w.group

namespace Follows

variable {rule : Rule} {p : Pattern} {write : (Nat → Text) → Text} {s : Text}

theorem no_match (h : Follows rule p write) (hr : rule s = none) : p.firstMatch? s = none :=
  Option.map_eq_none_iff.mp (h.miss s hr)

theorem some_match (h : Follows rule p write) {m : Match s} (hr : rule s = some m) :
    ∃ w, p.firstMatch? s = some w ∧ w.rest = m.rest ∧ write w.group = m.replacement := by
  obtain ⟨w, hw, hwrite⟩ := h.hit s m hr
  obtain ⟨v, hv, hvw⟩ := Option.map_eq_some_iff.mp hw
  rw [Prod.mk.injEq] at hvw
  obtain ⟨rfl, hrest⟩ := hvw
  exact ⟨v, hv, hrest, hwrite.symm⟩

theorem rule_none (h : Follows rule p write) (hs : p.firstMatch? s = none) : rule s = none :=
  Replaces.rule_none h (by rw [hs]; rfl)

theorem rule_some (h : Follows rule p write) {w : Way} (hs : p.firstMatch? s = some w) :
    ∃ m, rule s = some m ∧ m.rest = w.rest ∧ m.replacement = write w.group :=
  Replaces.rule_some h (by rw [hs]; rfl)

theorem no_match_nil (h : Follows rule p write) : p.firstMatch? [] = none := by
  cases hs : p.firstMatch? [] with
  | none => rfl
  | some w =>
    obtain ⟨m, -, -, -⟩ := h.rule_some hs
    exact absurd m.rest_lt (Nat.not_lt_zero _)

theorem substitute_before (h : Follows rule p write) {before s : Text}
    (hfirst : ∀ u c v, before = u ++ c :: v → p.firstMatch? (c :: v ++ s) = none) :
    substitute rule (before ++ s) = before ++ substitute rule s := by
  induction before with
  | nil => rfl
  | cons c before ih =>
    have hc : rule (c :: (before ++ s)) = none := h.rule_none (hfirst [] c before rfl)
    have hbefore : substitute rule (before ++ s) = before ++ substitute rule s := by
      apply ih
      intro u d v hv
      exact hfirst (c :: u) d v (by rw [hv]; rfl)
    rw [List.cons_append, substitute_none hc, hbefore, List.cons_append]

theorem substituted_substitute (h : Follows rule p write) (t : Text) :
    p.Substituted write t (substitute rule t) := by
  induction t using scan_induction rule with
  | nil =>
    rw [substitute_nil]
    refine .done [] fun s hs => ?_
    rw [List.suffix_nil.mp hs]
    exact h.no_match_nil
  | hit c t m hm ih =>
    obtain ⟨w, hw, hrest, hwrite⟩ := h.some_match hm
    rw [substitute_some hm, ← hwrite]
    rw [← hrest] at ih ⊢
    exact .next [] (c :: t) w _ hw (by simp) ih
  | miss c t hm ih =>
    rw [substitute_none hm]
    have hc := h.no_match hm
    generalize substitute rule t = out at ih
    -- the first match of the longer text is that of the shorter one, one place further on
    cases ih with
    | done _ hnone =>
      refine .done (c :: t) fun s hs => ?_
      rcases List.suffix_cons_iff.mp hs with rfl | hs
      · exact hc
      · exact hnone s hs
    | next before s w out hw hfirst hbehind =>
      refine .next (c :: before) s w out hw ?_ hbehind
      intro u d v hv
      cases u with
      | nil =>
        cases hv
        exact hc
      | cons e u =>
        cases hv
        exact hfirst u d v rfl

theorem substituted_iff (h : Follows rule p write) (t out : Text) :
    p.Substituted write t out ↔ out = substitute rule t := by
  constructor
  · intro hsub
    induction hsub with
    | done t hnone => exact (substitute_eq_self fun s hs => h.rule_none (hnone s hs)).symm
    | next before s w out hw hfirst _ ih =>
      obtain ⟨m, hm, hrest, hreplacement⟩ := h.rule_some hw
      cases s with
      | nil =>
        rw [h.no_match_nil] at hw
        cases hw
      | cons c s =>
        rw [h.substitute_before hfirst, substitute_some hm, hreplacement, hrest, ih,
          List.append_assoc]
  · rintro rfl
    exact h.substituted_substitute t

end Follows

end MarkdownPage.Text
