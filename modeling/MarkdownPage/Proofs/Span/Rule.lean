import Mathlib.Data.List.TakeWhile
import MarkdownPage.Proofs.Text.Substitute
import MarkdownPage.Span.Prose

/-!
What the rules for spans read. Both kinds of rule read a lead and then one or two fields, each a
text up to the one that closes it. A relation between texts that goes on to longer texts, and holds
between the markup of each span and the span as it was written, holds between a text with its spans
marked and the text.
-/

namespace MarkdownPage.Span

open Text Html

theorem delimited_eq_field (mark s : Text) :
    delimited? mark s = (dropPrefix? mark s).bind (field? '*' mark) := rfl

theorem reference_eq_fields (lead s : Text) :
    reference? lead s = (dropPrefix? lead s).bind fun s =>
      (field? ']' "](".toList s).bind fun (label, s) =>
        (field? ')' ")".toList s).map fun (address, rest) => (⟨label, address⟩, rest) := by
  simp only [reference?, Option.bind_eq_bind, Option.pure_def, Option.map_eq_bind]
  rfl

theorem field_stop {stop : Char} {close s content rest : Text}
    (h : field? stop close s = some (content, rest)) : stop ∉ content := by
  simp only [field?, Option.bind_eq_bind, Option.bind_eq_some_iff] at h
  obtain ⟨rest', -, h⟩ := h
  split at h
  · cases h
  · cases h
    intro hstop
    have hne := List.mem_takeWhile_imp hstop
    simp at hne

theorem delimited_stop {mark s content rest : Text}
    (h : delimited? mark s = some (content, rest)) : '*' ∉ content := by
  rw [delimited_eq_field, Option.bind_eq_some_iff] at h
  obtain ⟨inner, -, hfield⟩ := h
  exact field_stop hfield

theorem reference_stops {lead s rest : Text} {r : Reference}
    (h : reference? lead s = some (r, rest)) : ']' ∉ r.label ∧ ')' ∉ r.address := by
  simp only [reference_eq_fields, Option.bind_eq_some_iff, Option.map_eq_some_iff] at h
  obtain ⟨s₁, -, ⟨label, s₂⟩, hlabel, ⟨address, s₃⟩, haddress, h⟩ := h
  cases h
  exact ⟨field_stop hlabel, field_stop haddress⟩

theorem field_at {stop : Char} {content : Text} (hfree : stop ∉ content) (more tail : Text) :
    field? stop (stop :: more) (content ++ stop :: tail) =
      if content = [] then none else (dropPrefix? more tail).map fun rest => (content, rest) := by
  have hall : ∀ c ∈ content, decide (c ≠ stop) = true := by
    intro c hc
    apply decide_eq_true
    rintro rfl
    exact hfree hc
  have hdrop : (content ++ stop :: tail).dropWhile (· ≠ stop) = stop :: tail := by
    rw [List.dropWhile_append_of_pos hall, List.dropWhile_cons_of_neg (by simp)]
  have htake : (content ++ stop :: tail).takeWhile (· ≠ stop) = content := by
    rw [List.takeWhile_append_of_pos hall, List.takeWhile_cons_of_neg (by simp), List.append_nil]
  rw [field?, hdrop, htake, dropPrefix?_cons_self]
  cases dropPrefix? more tail <;> cases content <;> rfl

theorem field_read {stop : Char} {content : Text} (hstop : stop ∉ content) (hne : content ≠ [])
    (more rest : Text) :
    field? stop (stop :: more) (content ++ stop :: more ++ rest) = some (content, rest) := by
  rw [List.append_assoc, List.cons_append, field_at hstop, if_neg hne,
    dropPrefix?_eq_some_iff.mpr rfl]
  rfl

theorem field_unclosed {stop : Char} {s : Text} (h : stop ∉ s) (more : Text) :
    field? stop (stop :: more) s = none := by
  have hdrop : s.dropWhile (· ≠ stop) = [] := by
    rw [List.dropWhile_eq_nil_iff]
    intro c hc
    refine decide_eq_true ?_
    rintro rfl
    exact h hc
  rw [field?, hdrop]
  rfl

theorem field_close (stop : Char) (more t : Text) :
    field? stop (stop :: more) t =
      (field? stop [stop] t).bind fun (content, tail) =>
        (dropPrefix? more tail).map fun rest => (content, rest) := by
  by_cases hmem : stop ∈ t
  · obtain ⟨content, tail, rfl, hfree⟩ := List.eq_append_cons_of_mem hmem
    rw [field_at hfree, field_at hfree, dropPrefix?_nil]
    cases content <;> rfl
  · rw [field_unclosed hmem, field_unclosed hmem, Option.bind_none]

theorem field_none_iff {stop : Char} {s : Text} (hhead : s.head? ≠ some stop) :
    field? stop [stop] s = none ↔ stop ∉ s := by
  refine ⟨fun hnone hmem => ?_, fun h => field_unclosed h []⟩
  obtain ⟨content, rest, rfl, hstop⟩ := List.eq_append_cons_of_mem hmem
  have hne : content ≠ [] := by
    rintro rfl
    exact hhead rfl
  have hread := field_read hstop hne [] rest
  rw [List.append_assoc, List.singleton_append, hnone] at hread
  cases hread

theorem delimited_eq_some_iff {more s content rest : Text} :
    delimited? ('*' :: more) s = some (content, rest) ↔
      s = '*' :: more ++ content ++ '*' :: more ++ rest ∧ content ≠ [] ∧ '*' ∉ content := by
  constructor
  · intro h
    exact ⟨(delimited?_eq h).1, (delimited?_eq h).2, delimited_stop h⟩
  · rintro ⟨rfl, hne, hfree⟩
    have hlead : dropPrefix? ('*' :: more) ('*' :: more ++ (content ++ '*' :: more ++ rest)) =
        some _ := dropPrefix?_eq_some_iff.mpr rfl
    rw [delimited_eq_field, List.append_assoc, List.append_assoc, ← List.append_assoc content,
      hlead, Option.bind_some, field_read hfree hne]

theorem emphasis_read {content : Text} (hne : content ≠ []) (hfree : '*' ∉ content) (rest : Text) :
    delimited? "*".toList ('*' :: (content ++ '*' :: rest)) = some (content, rest) :=
  (@delimited_eq_some_iff [] _ _ _).mpr ⟨by simp, hne, hfree⟩

theorem reference_read {label : Text} (hlabel : ']' ∉ label) (hne : label ≠ []) (lead s : Text) :
    reference? lead (lead ++ label ++ "](".toList ++ s) =
      (field? ')' ")".toList s).map fun (address, rest) => (⟨label, address⟩, rest) := by
  have hlead : dropPrefix? lead (lead ++ (label ++ "](".toList ++ s)) = some _ :=
    dropPrefix?_eq_some_iff.mpr rfl
  have hfield : field? ']' "](".toList (label ++ "](".toList ++ s) = some (label, s) :=
    field_read hlabel hne ['('] s
  rw [List.append_assoc, List.append_assoc, ← List.append_assoc label, reference_eq_fields, hlead,
    Option.bind_some, hfield, Option.bind_some]

theorem delimited_rule_replaces (mark : Text) (wrap : Text → Text) :
    Replaces (delimitedRule mark wrap) (delimited? mark) wrap where
  miss s h := by
    rw [delimitedRule] at h
    split at h
    · cases h
    · assumption
  hit s m h := by
    rw [delimitedRule] at h
    split at h
    · next content rest hspan =>
      cases h
      exact ⟨content, hspan, rfl⟩
    · cases h

/-- A match of the rule is a span, and its markup is written for it. -/
theorem delimited_hit {mark t : Text} {wrap : Text → Text} {c : Char} {m : Match (c :: t)}
    (h : delimitedRule mark wrap (c :: t) = some m) :
    ∃ content, c :: t = mark ++ content ++ mark ++ m.rest ∧ content ≠ [] ∧ '*' ∉ content ∧
      substitute (delimitedRule mark wrap) (c :: t) =
        wrap content ++ substitute (delimitedRule mark wrap) m.rest := by
  obtain ⟨content, hread, hwrite⟩ := (delimited_rule_replaces mark wrap).hit _ m h
  obtain ⟨hspan, hne⟩ := delimited?_eq hread
  exact ⟨content, hspan, hne, delimited_stop hread, by rw [substitute_some h, hwrite]⟩

theorem reference_rule_replaces (lead : Text) (write : Reference → Text) :
    Replaces (referenceRule lead write) (reference? lead) write where
  miss s h := by
    rw [referenceRule] at h
    split at h
    · cases h
    · assumption
  hit s m h := by
    rw [referenceRule] at h
    split at h
    · next r rest hreference =>
      cases h
      exact ⟨r, hreference, rfl⟩
    · cases h

section Related

variable {R : Text → Text → Prop} (hR : Compatible R)

include hR

theorem delimited_related {mark : Text}
    {wrap : Text → Text} (hwrap : ∀ content, R (wrap content) (mark ++ content ++ mark)) (t : Text) :
    R (substitute (delimitedRule mark wrap) t) t := by
  refine hR.substitute (fun s m hm => ?_) t
  obtain ⟨content, hspan, hwrite⟩ := (delimited_rule_replaces mark wrap).hit s m hm
  exact ⟨_, (delimited?_eq hspan).1, hwrite ▸ hwrap content⟩

theorem reference_related {lead : Text}
    {write : Reference → Text}
    (hwrite : ∀ r : Reference,
      R (write r) (lead ++ r.label ++ "](".toList ++ r.address ++ ")".toList)) (t : Text) :
    R (substitute (referenceRule lead write) t) t := by
  refine hR.substitute (fun s m hm => ?_) t
  obtain ⟨r, hread, hreplacement⟩ := (reference_rule_replaces lead write).hit s m hm
  exact ⟨_, (reference?_eq hread).1, hreplacement ▸ hwrite r⟩

theorem attribute_value_related (hentity : ∀ {c w}, attributeEntity? c = some w → R w [c])
    (e : Escaping) (t : Text) : R (e.attributeValue t) t := by
  cases e with
  | verbatim => exact hR.refl t
  | escaped =>
    rw [Escaping.attributeValue, escapeAttribute, escape_eq_encode]
    induction t with
    | nil => exact hR.refl []
    | cons c t ih =>
      have hc : R ((attributeEntity? c).getD [c]) [c] := by
        cases h : attributeEntity? c with
        | none => exact hR.refl [c]
        | some w => exact hentity h
      exact hR.append hc ih

/-- If the markup of each span is related to the span, so is the marked text to the text. -/
theorem mark_all_related {e : Escaping} (hvalue : ∀ t, R (e.attributeValue t) t)
    (hstrong : ∀ content, R (strong content) ("**".toList ++ content ++ "**".toList))
    (hemphasis : ∀ content, R (emphasis content) ("*".toList ++ content ++ "*".toList))
    (himage : ∀ r : Reference, R (image .verbatim r.address r.label)
      ("![".toList ++ r.label ++ "](".toList ++ r.address ++ ")".toList))
    (hlink : ∀ r : Reference, R (link .verbatim r.address r.label)
      ("[".toList ++ r.label ++ "](".toList ++ r.address ++ ")".toList)) (t : Text) :
    R (markAll e t) t := by
  have hvalues (r : Reference) : R (image e r.address r.label) (image .verbatim r.address r.label) :=
    hR.append (hR.append (hR.append (hR.append (hR.refl _) (hvalue r.address)) (hR.refl _))
      (hvalue r.label)) (hR.refl _)
  have hhref (r : Reference) : R (link e r.address r.label) (link .verbatim r.address r.label) :=
    hR.append (hR.append (hR.append (hR.append (hR.refl _) (hvalue r.address)) (hR.refl _))
      (hR.refl _)) (hR.refl _)
  have himages := reference_related hR fun r => hR.trans (hvalues r) (himage r)
  have hlinks := reference_related hR fun r => hR.trans (hhref r) (hlink r)
  have hspans := hR.trans (delimited_related hR hemphasis _) (delimited_related hR hstrong t)
  exact hR.trans (hlinks _) (hR.trans (himages _) hspans)

end Related

end MarkdownPage.Span
