import Mathlib.Data.Bool.AllAny
import MarkdownPage.Proofs.Html.Tags
import MarkdownPage.Proofs.Span.Inert
import MarkdownPage.Proofs.Text.EachLine

/-!
The words that marking writes: the tags of spans, what stands between their parts, and entities. They
stand over marks and over characters that have an entity. Since a reference is written with its two
parts in the other order, lines of a text can change places in it; what a line is to the later passes
is still settled by what stands before the first word on it.
-/

namespace MarkdownPage.Span

open Text Html

/-- The characters over which marking writes words: the marks, and those that have an entity. -/
def overwritten : Text := marks ++ "&<>\"".toList

def written : List Text :=
  spanTags ++ ["\" alt=\"", "\">", "&amp;", "&lt;", "&gt;", "&quot;"].map String.toList

section EachLine

variable {Q : Line → Prop}

variable (hQ : Tolerates Q overwritten written)

include hQ

theorem each_line_written {c : Char} (hc : c ∈ overwritten) {w : Text} (hw : w ∈ written)
    {s s' t u : Text} (h : EachLine Q (s ++ c :: t)) (hu : EachLine Q (s' ++ u)) :
    EachLine Q (s ++ w ++ u) := by
  have hcuts : ∀ d ∈ overwritten, d ≠ '\n' := List.forall_mem_ne'.mpr (by decide)
  have hwords : ∀ v ∈ written, '\n' ∉ v := by decide
  exact each_line_word hQ hc hw (hcuts c hc) (hwords w hw) h hu

theorem entity_stands_for {c : Char} {w : Text} (h : attributeEntity? c = some w) :
    StandsFor Q w [c] := by
  have hword : c ∈ overwritten ∧ w ∈ written := by
    unfold attributeEntity? textEntity? at h
    split at h
    · cases h
      decide
    · split at h
      all_goals cases h
      all_goals decide
  intro s t hs
  have hline : EachLine Q (s ++ c :: t) := by simpa using hs
  exact each_line_written hQ hword.1 hword.2 hline hs

theorem enclosed_stands_for {c d : Char} (hc : c ∈ overwritten) (hd : d ∈ overwritten)
    {first last : Text} (hfirst : first ∈ written) (hlast : last ∈ written)
    (lead content tail : Text) :
    StandsFor Q (first ++ content ++ last) (c :: lead ++ content ++ d :: tail) := by
  intro s t h
  have hatfirst : EachLine Q (s ++ c :: (lead ++ content ++ d :: tail ++ t)) := by simpa using h
  have hatlast : EachLine Q (s ++ c :: lead ++ content ++ d :: (tail ++ t)) := by simpa using h
  have hend := each_line_written hQ hd hlast hatlast h
  rw [List.append_assoc, List.append_assoc] at hend
  have hwhole := each_line_written hQ hc hfirst hatfirst hend
  simpa using hwhole

theorem swapped_stands_for {c d f : Char} (hc : c ∈ overwritten) (hd : d ∈ overwritten)
    (hf : f ∈ overwritten) {first between last : Text} (hfirst : first ∈ written)
    (hbetween : between ∈ written) (hlast : last ∈ written) (lead x mid y tail : Text) :
    StandsFor Q (first ++ y ++ between ++ x ++ last)
      (c :: lead ++ x ++ d :: mid ++ y ++ f :: tail) := by
  intro s t h
  have hatfirst : EachLine Q (s ++ c :: (lead ++ x ++ d :: mid ++ y ++ f :: tail ++ t)) := by
    simpa using h
  have hatbetween : EachLine Q (s ++ c :: lead ++ x ++ d :: (mid ++ y ++ f :: tail ++ t)) := by
    simpa using h
  have hatlast : EachLine Q (s ++ c :: lead ++ x ++ d :: mid ++ y ++ f :: (tail ++ t)) := by
    simpa using h
  -- From the end of the result to its beginning: each part stands where it stood.
  have hx := each_line_written hQ hd hlast hatbetween h
  rw [List.append_assoc, List.append_assoc] at hx
  have hy := each_line_written hQ hf hbetween hatlast hx
  rw [List.append_assoc, List.append_assoc] at hy
  have hwhole := each_line_written hQ hc hfirst hatfirst hy
  simpa using hwhole

theorem mark_all_stands_for (e : Escaping) (t : Text) : StandsFor Q (markAll e t) t := by
  have hvalue := attribute_value_related stands_for_compatible (fun h => entity_stands_for hQ h) e
  refine mark_all_related stands_for_compatible hvalue ?_ ?_ ?_ ?_ t
  · intro content
    exact enclosed_stands_for hQ (by decide : '*' ∈ overwritten) (by decide : '*' ∈ overwritten)
      (by decide : openTag "strong".toList ∈ written) (by decide) "*".toList content "*".toList
  · intro content
    exact enclosed_stands_for hQ (by decide : '*' ∈ overwritten) (by decide : '*' ∈ overwritten)
      (by decide : openTag "em".toList ∈ written) (by decide) [] content []
  · intro r
    exact swapped_stands_for hQ (by decide : '!' ∈ overwritten) (by decide : ']' ∈ overwritten)
      (by decide : ')' ∈ overwritten) (by decide : "<img src=\"".toList ∈ written)
      (by decide : "\" alt=\"".toList ∈ written) (by decide : "\">".toList ∈ written)
      "[".toList r.label "(".toList r.address []
  · intro r
    exact swapped_stands_for hQ (by decide : '[' ∈ overwritten) (by decide : ']' ∈ overwritten)
      (by decide : ')' ∈ overwritten) (by decide : "<a href=\"".toList ∈ written)
      (by decide : "\">".toList ∈ written) (by decide : "</a>".toList ∈ written)
      [] r.label "(".toList r.address []

end EachLine

section Classes

theorem no_token_tolerates : Tolerates (isToken · = false) overwritten written := by
  have hwritten : ∀ w ∈ written, w.any (· ∈ "<>&\"".toList) = true := by decide
  intro lead c rest _ _ w hw more
  obtain ⟨d, hd, hmarkup⟩ := List.any_iff_exists_prop.mp (hwritten w hw)
  rw [isToken, Option.isSome_eq_false_iff, Option.isNone_iff_eq_none]
  cases htoken : Token.ofLine? (lead ++ w ++ more) with
  | none => rfl
  | some k => exact absurd hmarkup (Token.of_line_no_markup htoken d (by simp [hd]))

theorem written_foreign {w : Text} (h : w ∈ written) : ∃ c v, w = c :: v ∧ Block.Foreign c := by
  have hwritten : ∀ w ∈ written, w.head?.any (Block.Foreign ·) = true := by decide
  obtain ⟨c, hc, hforeign⟩ := (Option.any_eq_true _ _).mp (hwritten w h)
  obtain ⟨v, rfl⟩ := List.head?_eq_some_iff.mp hc
  exact ⟨c, v, rfl, of_decide_eq_true hforeign⟩

theorem opened_written {w : Text} (h : w ∈ written) (more : Text) :
    Block.opened? (trim (w ++ more)) = none := by
  have hwritten : ∀ w ∈ written, ∀ tag ∈ Block.tags, ¬ '<' :: tag <+: w ∧ ¬ w <+: '<' :: tag := by
    decide
  obtain ⟨c, v, rfl, hc⟩ := written_foreign h
  exact Block.opened_word (by simp [hc.1]) (by simp) (hwritten _ h) more

theorem unopened_tolerates :
    Tolerates (fun l => Block.opened? (trim l) = none) overwritten written := by
  have hspace : ∀ c ∈ overwritten, isSpace c = false := List.all_iff_forall_prop.mp (by decide)
  intro lead c rest hc h w hw more
  cases hblank : isBlank lead with
  | true =>
    rw [List.append_assoc, trim, trim_start_blank_append hblank]
    exact opened_written hw more
  | false =>
    obtain ⟨d, v, rfl, hd⟩ := written_foreign hw
    rw [trim_append hblank (hspace c hc)] at h
    rw [List.append_assoc, List.cons_append, Block.opened_foreign hblank hd]
    exact Block.opened_none_of_append h

/-- A mark opens no block either, so a word in its place changes nothing. -/
theorem opened_mark {c : Char} (hc : c ∈ marks) {w : Text} (hw : w ∈ written)
    (lead rest more : Text) :
    Block.opened? (trim (lead ++ w ++ more)) = Block.opened? (trim (lead ++ c :: rest)) := by
  have hmarks : ∀ c ∈ marks, Block.Foreign c ∧
      ∀ tag ∈ Block.tags, ¬ '<' :: tag <+: [c] ∧ ¬ [c] <+: '<' :: tag :=
    List.all_iff_forall_prop.mp (by decide)
  obtain ⟨hforeign, hapart⟩ := hmarks c hc
  cases hblank : isBlank lead with
  | true =>
    have hmark := Block.opened_word (by simp [hforeign.1]) (List.cons_ne_nil c []) hapart rest
    rw [List.append_assoc, trim, trim_start_blank_append hblank, trim, trim_start_blank_append hblank]
    exact (opened_written hw more).trans hmark.symm
  | false =>
    obtain ⟨d, v, rfl, hd⟩ := written_foreign hw
    rw [List.append_assoc, List.cons_append, Block.opened_foreign hblank hd,
      Block.opened_foreign hblank hforeign]

end Classes

section Opened

def MarksFirst (rule : Rule) : Prop := ∀ s m, rule s = some m →
  ∃ c ∈ marks, ∃ w ∈ written, [c] <+: s ∧ w <+: m.replacement

theorem opened_substitute {rule : Rule} (h : MarksFirst rule) (t : Text) :
    Block.opened? (trim (substitute rule t)) = Block.opened? (trim t) := by
  rcases substitute_eq_or_hit rule t with ht | ⟨lead, s, m, rfl, hm, ht⟩
  · rw [ht]
  · obtain ⟨c, hc, w, hw, ⟨rest, rfl⟩, ⟨more, hreplacement⟩⟩ := h s m hm
    rw [ht, ← hreplacement, List.append_assoc, List.append_assoc, ← List.append_assoc]
    exact opened_mark hc hw lead rest (more ++ substitute rule m.rest)

theorem delimited_marks_first {mark more tag : Text} (hmark : mark = '*' :: more)
    (hopen : openTag tag ∈ written) : MarksFirst (delimitedRule mark (enclose tag)) := by
  intro s m hm
  obtain ⟨content, hspan, hwrite⟩ := (delimited_rule_replaces mark (enclose tag)).hit s m hm
  refine ⟨'*', by decide, openTag tag, hopen, ?_, ?_⟩
  · rw [(delimited?_eq hspan).1, hmark]
    exact ⟨_, rfl⟩
  · rw [hwrite, enclose, List.append_assoc]
    exact List.prefix_append _ _

theorem reference_marks_first {c : Char} (hc : c ∈ marks) {lead more w : Text}
    (hlead : lead = c :: more) (hw : w ∈ written) {write : Reference → Text}
    (hwrite : ∀ r, w <+: write r) : MarksFirst (referenceRule lead write) := by
  intro s m hm
  obtain ⟨r, hread, hreplacement⟩ := (reference_rule_replaces lead write).hit s m hm
  refine ⟨c, hc, w, hw, ?_, hreplacement ▸ hwrite r⟩
  rw [(reference?_eq hread).1, hlead]
  exact ⟨_, rfl⟩

theorem opened_mark_all (e : Escaping) (t : Text) :
    Block.opened? (trim (markAll e t)) = Block.opened? (trim t) := by
  have hstrong : MarksFirst (delimitedRule "**".toList strong) :=
    delimited_marks_first rfl (by decide)
  have hemphasis : MarksFirst (delimitedRule "*".toList emphasis) :=
    delimited_marks_first rfl (by decide)
  have himages : MarksFirst (referenceRule "![".toList fun r => image e r.address r.label) := by
    refine reference_marks_first (by decide : '!' ∈ marks) rfl
      (by decide : "<img src=\"".toList ∈ written) fun r => ?_
    unfold image
    simp only [List.append_assoc]
    apply List.prefix_append
  have hlinks : MarksFirst (referenceRule "[".toList fun r => link e r.address r.label) := by
    refine reference_marks_first (by decide : '[' ∈ marks) rfl
      (by decide : "<a href=\"".toList ∈ written) fun r => ?_
    unfold link
    simp only [List.append_assoc]
    apply List.prefix_append
  rw [markAll, markLinks, opened_substitute hlinks, markImages, opened_substitute himages,
    markEmphasis, opened_substitute hemphasis, markStrong, opened_substitute hstrong]

end Opened

end MarkdownPage.Span
