import Mathlib.Data.List.Infix
import Mathlib.Logic.Function.Iterate
import MarkdownPage.Text.Substitute

/-!
Substitution, by induction along its scan: at each place the rule either matches, and the scan goes
on behind the match, or it does not, and one character is copied. The scan takes no more rounds than
the text has characters.
-/

namespace MarkdownPage.Text

theorem scan_induction (rule : Rule) {P : Text → Prop} (nil : P [])
    (hit : ∀ c t (m : Match (c :: t)), rule (c :: t) = some m → P m.rest → P (c :: t))
    (miss : ∀ c t, rule (c :: t) = none → P t → P (c :: t)) : ∀ t, P t := by
  intro t
  induction h : t.length using Nat.strongRecOn generalizing t with
  | _ n ih =>
    subst h
    cases t with
    | nil => exact nil
    | cons c t =>
      cases hr : rule (c :: t) with
      | none => exact miss c t hr (ih t.length (by simp) t rfl)
      | some m => exact hit c t m hr (ih m.rest.length m.rest_lt m.rest rfl)

def scanRound (rule : Rule) : Text × Text → Text × Text
  | ([], written) => ([], written)
  | (c :: t, written) =>
    match rule (c :: t) with
    | some m => (m.rest, m.replacement.reverse ++ written)
    | none => (t, c :: written)

theorem scan_rounds (rule : Rule) {s : Text} {n : Nat} (h : s.length ≤ n) (written : Text) :
    (scanRound rule)^[n] (s, written) = ([], (substitute rule s).reverse ++ written) := by
  induction n generalizing s written with
  | zero =>
    have hs : s = [] := List.length_eq_zero_iff.mp (by omega)
    simp [hs]
  | succ n ih =>
    rw [Function.iterate_succ_apply]
    cases s with
    | nil => exact ih (by simp) written
    | cons c t =>
      rw [List.length_cons] at h
      cases hr : rule (c :: t) with
      | none =>
        have hround : scanRound rule (c :: t, written) = (t, c :: written) := by
          simp only [scanRound, hr]
        rw [hround, ih (by omega), substitute_none hr]
        simp
      | some m =>
        have hround : scanRound rule (c :: t, written) =
            (m.rest, m.replacement.reverse ++ written) := by simp only [scanRound, hr]
        have hlt := m.rest_lt
        rw [List.length_cons] at hlt
        rw [hround, ih (by omega), substitute_some hr]
        simp

/-- The scan of `t` comes to the rest `s`. -/
def Visits (rule : Rule) (t s : Text) : Prop :=
  ∃ n, ∀ written, ((scanRound rule)^[n] (t, written)).1 = s

section Visits

variable {rule : Rule} {c : Char} {t s : Text}

theorem visits_self (rule : Rule) (t : Text) : Visits rule t t := ⟨0, fun _ => rfl⟩

theorem visits_behind {m : Match (c :: t)} (hm : rule (c :: t) = some m)
    (h : Visits rule m.rest s) : Visits rule (c :: t) s := by
  obtain ⟨n, hn⟩ := h
  refine ⟨n + 1, fun written => ?_⟩
  rw [Function.iterate_succ_apply, scanRound, hm]
  exact hn _

theorem visits_next (hm : rule (c :: t) = none) (h : Visits rule t s) : Visits rule (c :: t) s := by
  obtain ⟨n, hn⟩ := h
  refine ⟨n + 1, fun written => ?_⟩
  rw [Function.iterate_succ_apply, scanRound, hm]
  exact hn _

end Visits

theorem substitute_eq_self {rule : Rule} {t : Text} (h : ∀ s, s <:+ t → rule s = none) :
    substitute rule t = t := by
  induction t with
  | nil => exact substitute_nil rule
  | cons c t ih =>
    have ht : substitute rule t = t := ih fun s hs => h s (hs.trans (List.suffix_cons c t))
    rw [substitute_none (h (c :: t) List.suffix_rfl), ht]

/-- Nothing is read anywhere in the text. -/
def Unread {α : Type} (read? : Text → Option α) (t : Text) : Prop := ∀ s ∈ t.tails, read? s = none

instance {α : Type} [DecidableEq α] (read? : Text → Option α) (t : Text) :
    Decidable (Unread read? t) :=
  inferInstanceAs (Decidable (∀ s ∈ t.tails, read? s = none))

section Unread

variable {α : Type} {read? : Text → Option α}

theorem unread_iff {t : Text} : Unread read? t ↔ ∀ s, s <:+ t → read? s = none :=
  forall_congr' fun s => by rw [List.mem_tails]

theorem unread_cons {c : Char} {t : Text} :
    Unread read? (c :: t) ↔ read? (c :: t) = none ∧ Unread read? t := by
  rw [Unread, List.tails_cons, List.forall_mem_cons]
  rfl

theorem unread_append {x y : Text} : Unread read? (x ++ y) ↔
    (∀ s, s <:+ x → s ≠ [] → read? (s ++ y) = none) ∧ Unread read? y := by
  induction x with
  | nil =>
    rw [List.nil_append, iff_and_self]
    intro _ s hs hne
    exact absurd (List.suffix_nil.mp hs) hne
  | cons c x ih =>
    rw [List.cons_append, unread_cons, ih]
    constructor
    · rintro ⟨hc, hx, hy⟩
      refine ⟨fun s hs hne => ?_, hy⟩
      rcases List.suffix_cons_iff.mp hs with rfl | hs
      · exact hc
      · exact hx s hs hne
    · rintro ⟨hx, hy⟩
      exact ⟨hx (c :: x) List.suffix_rfl (List.cons_ne_nil c x),
        fun s hs => hx s (hs.trans (List.suffix_cons c x)), hy⟩

end Unread

/-- Texts that are related may be put for each other within longer texts, and one after the other. -/
structure Compatible (R : Text → Text → Prop) : Prop where
  refl : ∀ x, R x x
  trans : ∀ {x y z}, R z y → R y x → R z x
  append : ∀ {x y x' y'}, R y x → R y' x' → R (y ++ y') (x ++ x')

theorem Compatible.substitute {R : Text → Text → Prop} (hR : Compatible R) {rule : Rule}
    (h : ∀ s m, rule s = some m → ∃ x, s = x ++ m.rest ∧ R m.replacement x) (t : Text) :
    R (Text.substitute rule t) t := by
  induction t using scan_induction rule with
  | nil => rw [substitute_nil]; exact hR.refl []
  | hit c t m hm ih =>
    obtain ⟨x, hx, hreplacement⟩ := h (c :: t) m hm
    have hwhole := hR.append hreplacement ih
    rwa [← hx, ← substitute_some hm] at hwhole
  | miss c t hm ih =>
    rw [substitute_none hm]
    exact hR.append (hR.refl [c]) ih

theorem count_compatible (c : Char) : Compatible fun y x => y.count c = x.count c where
  refl _ := rfl
  trans hzy hyx := hzy.trans hyx
  append h h' := by rw [List.count_append, List.count_append, h, h']

theorem substitute_eq_or_hit (rule : Rule) (t : Text) : substitute rule t = t ∨
    ∃ lead s, ∃ m : Match s, t = lead ++ s ∧ rule s = some m ∧
      substitute rule t = lead ++ m.replacement ++ substitute rule m.rest := by
  induction t using scan_induction rule with
  | nil => exact Or.inl (substitute_nil rule)
  | hit c t m hm ih => exact Or.inr ⟨[], c :: t, m, rfl, hm, substitute_some hm⟩
  | miss c t hm ih =>
    rw [substitute_none hm]
    rcases ih with ht | ⟨lead, s, m, rfl, hrule, ht⟩
    · exact Or.inl (by rw [ht])
    · exact Or.inr ⟨c :: lead, s, m, rfl, hrule, by rw [ht]; rfl⟩

theorem substitute_copy {rule : Rule} {lead t : Text}
    (h : ∀ s, s <:+ lead → s ≠ [] → rule (s ++ t) = none) :
    substitute rule (lead ++ t) = lead ++ substitute rule t := by
  induction lead with
  | nil => rfl
  | cons c lead ih =>
    have hlead := ih fun s hs hne => h s (hs.trans (List.suffix_cons c lead)) hne
    have hnone : rule (c :: (lead ++ t)) = none := h (c :: lead) List.suffix_rfl (by simp)
    rw [List.cons_append, substitute_none hnone, hlead, List.cons_append]

theorem substitute_skip {rule : Rule} {lead : Text} (h : ∀ c ∈ lead, ∀ t, rule (c :: t) = none)
    (t : Text) : substitute rule (lead ++ t) = lead ++ substitute rule t := by
  apply substitute_copy
  intro s hs hne
  obtain ⟨c, s, rfl⟩ := List.exists_cons_of_ne_nil hne
  exact h c (hs.subset List.mem_cons_self) (s ++ t)

theorem substitute_length_le {rule : Rule}
    (h : ∀ s m, rule s = some m → m.replacement.length + m.rest.length ≤ s.length) (t : Text) :
    (substitute rule t).length ≤ t.length := by
  induction t using scan_induction rule with
  | nil => simp
  | hit c t m hm ih =>
    have hlen := h (c :: t) m hm
    rw [substitute_some hm, List.length_append]
    omega
  | miss c t hm ih =>
    rw [substitute_none hm, List.length_cons, List.length_cons]
    omega

theorem substitute_spelled {rule : Rule} {p : Char → Prop}
    (h : ∀ s m, rule s = some m → (∀ c ∈ s, p c) →
      (∀ c ∈ m.replacement, p c) ∧ ∀ c ∈ m.rest, p c)
    {t : Text} (ht : ∀ c ∈ t, p c) : ∀ c ∈ substitute rule t, p c := by
  induction t using scan_induction rule with
  | nil => simp
  | hit c t m hm ih =>
    obtain ⟨hreplacement, hrest⟩ := h (c :: t) m hm ht
    rw [substitute_some hm, List.forall_mem_append]
    exact ⟨hreplacement, ih hrest⟩
  | miss c t hm ih =>
    rw [List.forall_mem_cons] at ht
    rw [substitute_none hm, List.forall_mem_cons]
    exact ⟨ht.1, ih ht.2⟩

structure Replaces {α : Type} (rule : Rule) (read? : Text → Option (α × Text)) (write : α → Text) :
    Prop where
  miss : ∀ s, rule s = none → read? s = none
  hit : ∀ s m, rule s = some m → ∃ a, read? s = some (a, m.rest) ∧ m.replacement = write a

namespace Replaces

variable {α : Type} {rule : Rule} {read? : Text → Option (α × Text)} {write : α → Text} {s : Text}

theorem rule_none (h : Replaces rule read? write) (hs : read? s = none) : rule s = none := by
  cases hr : rule s with
  | none => rfl
  | some m =>
    obtain ⟨a, hread, -⟩ := h.hit s m hr
    rw [hs] at hread
    cases hread

theorem rule_some (h : Replaces rule read? write) {a : α} {rest : Text}
    (hs : read? s = some (a, rest)) :
    ∃ m, rule s = some m ∧ m.rest = rest ∧ m.replacement = write a := by
  cases hr : rule s with
  | none =>
    rw [h.miss s hr] at hs
    cases hs
  | some m =>
    obtain ⟨b, hread, hwrite⟩ := h.hit s m hr
    rw [hs] at hread
    cases hread
    exact ⟨m, rfl, rfl, hwrite⟩

theorem substitute_unread (h : Replaces rule read? write) {t : Text} (ht : Unread read? t) :
    substitute rule t = t :=
  substitute_eq_self fun s hs => h.rule_none (unread_iff.mp ht s hs)

/-- If what is written is longer by `k` than what is read, then a text in which anything is read
grows by `k` at least. -/
theorem unread_or_grows (h : Replaces rule read? write) {k : Nat}
    (hgrow : ∀ s a rest, read? s = some (a, rest) → s.length + k ≤ (write a).length + rest.length)
    (t : Text) :
    (Unread read? t ∧ substitute rule t = t) ∨ t.length + k ≤ (substitute rule t).length := by
  suffices Unread read? t ∨ t.length + k ≤ (substitute rule t).length from
    this.imp_left fun hunread => ⟨hunread, h.substitute_unread hunread⟩
  induction t using scan_induction rule with
  | nil =>
    have hnone : rule [] = none := by
      cases hr : rule [] with
      | none => rfl
      | some m => exact absurd m.rest_lt (Nat.not_lt_zero _)
    left
    rw [unread_iff]
    intro s hs
    rw [List.suffix_nil.mp hs]
    exact h.miss [] hnone
  | hit c t m hm ih =>
    obtain ⟨a, ha, hwrite⟩ := h.hit (c :: t) m hm
    have hhit := hgrow (c :: t) a m.rest ha
    have hrest : m.rest.length ≤ (substitute rule m.rest).length := by
      rcases ih with hunread | hgrown
      · exact (congrArg List.length (h.substitute_unread hunread)).ge
      · exact Nat.le_of_add_right_le hgrown
    right
    rw [substitute_some hm, List.length_append, hwrite]
    omega
  | miss c t hm ih =>
    rcases ih with hunread | hgrown
    · exact Or.inl (unread_cons.mpr ⟨h.miss (c :: t) hm, hunread⟩)
    · right
      rw [substitute_none hm, List.length_cons, List.length_cons]
      omega

theorem substitute_append (h : Replaces rule read? write) {tail : Text}
    (hpass : ∀ c ∈ tail, ∀ t, rule (c :: t) = none)
    (hread : ∀ s, read? (s ++ tail) = (read? s).map fun (a, rest) => (a, rest ++ tail)) (s : Text) :
    substitute rule (s ++ tail) = substitute rule s ++ tail := by
  induction s using scan_induction rule with
  | nil =>
    have htail := substitute_skip hpass []
    rw [List.append_nil, substitute_nil, List.append_nil] at htail
    rwa [substitute_nil, List.nil_append]
  | hit c t m hm ih =>
    obtain ⟨a, ha, hwrite⟩ := h.hit (c :: t) m hm
    have hat : read? (c :: (t ++ tail)) = some (a, m.rest ++ tail) := by
      rw [← List.cons_append, hread, ha]
      rfl
    obtain ⟨n, hn, hrest, hreplacement⟩ := h.rule_some hat
    rw [List.cons_append, substitute_some hn, substitute_some hm, hreplacement, hrest, ih, hwrite,
      List.append_assoc]
  | miss c t hm ih =>
    have hat : read? (c :: (t ++ tail)) = none := by
      rw [← List.cons_append, hread, h.miss (c :: t) hm]
      rfl
    rw [List.cons_append, substitute_none (h.rule_none hat), substitute_none hm, ih,
      List.cons_append]

end Replaces

theorem literal_rule_some {first : Char} {others replacement s : Text} {m : Match s}
    (h : literalRule first others replacement s = some m) :
    m.replacement = replacement ∧ s = first :: others ++ m.rest := by
  rw [literalRule] at h
  split at h
  · next rest hrest =>
    cases h
    exact ⟨rfl, dropPrefix?_eq_some_iff.mp hrest⟩
  · cases h

theorem literal_rule_none_iff {first : Char} {others replacement s : Text} :
    literalRule first others replacement s = none ↔ ¬ first :: others <+: s := by
  rw [literalRule]
  split
  · next rest hrest => simp [dropPrefix?_eq_some_iff.mp hrest]
  · next hnone =>
    refine iff_of_true rfl fun ⟨rest, hrest⟩ => ?_
    rw [dropPrefix?_eq_some_iff.mpr hrest.symm] at hnone
    cases hnone

end MarkdownPage.Text
