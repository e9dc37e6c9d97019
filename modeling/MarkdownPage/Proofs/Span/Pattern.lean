import MarkdownPage.Proofs.Span.Rule
import MarkdownPage.Proofs.Text.Pattern

/-!
Spans as patterns. Each kind of span is read where its pattern matches, in the one way in which it
does. Main statement: `spans_substitute`, by which marking the spans of a kind is the global
substitution of its pattern.
-/

namespace MarkdownPage.Span

open Text

/-- The pattern `\*\*([^*]+)\*\*`. -/
def strongPattern : Pattern :=
  .seq (.literal "**".toList) (.seq (.group (.oneOrMore (· ≠ '*'))) (.literal "**".toList))

/-- The pattern `\*([^*]+)\*`. -/
def emphasisPattern : Pattern :=
  .seq (.literal "*".toList) (.seq (.group (.oneOrMore (· ≠ '*'))) (.literal "*".toList))

/-- The pattern `([^\]]+)\]\(([^)]+)\)` behind a lead: `!\[` for an image and `\[` for a link. -/
def referencePattern (lead : Text) : Pattern :=
  .seq (.literal lead) (.seq
    (.seq (.group (.oneOrMore (· ≠ ']'))) (.literal "](".toList))
    (.seq (.group (.oneOrMore (· ≠ ')'))) (.literal ")".toList)))

/-- There is at most one way to match, and this is it. -/
def Only (p : Pattern) (way? : Text → Option Way) : Prop := ∀ s, p.ways s = (way? s).toList

theorem Only.first_match {p : Pattern} {way? : Text → Option Way} (h : Only p way?) (s : Text) :
    p.firstMatch? s = way? s := by
  rw [Pattern.firstMatch?, h s]
  cases way? s <;> rfl

theorem only_literal (t : Text) :
    Only (.literal t) fun s => (dropPrefix? t s).map fun rest => ⟨t, [], rest⟩ :=
  fun _ => rfl

theorem Only.seq {p q : Pattern} {f g : Text → Option Way} (hp : Only p f) (hq : Only q g) :
    Only (p.seq q) fun s => (f s).bind fun v => (g v.rest).map v.andThen := by
  intro s
  simp only [Pattern.ways, hp s]
  cases f s with
  | none => rfl
  | some v =>
    simp only [Option.toList_some, List.flatMap_cons, List.flatMap_nil, List.append_nil,
      Option.bind_some, hq v.rest]
    cases g v.rest <;> rfl

def fieldWay? (stop : Char) (close s : Text) : Option Way :=
  (field? stop close s).map fun (content, rest) => ⟨content ++ close, [content], rest⟩

theorem only_field (stop : Char) (more : Text) :
    Only (.seq (.group (.oneOrMore (· ≠ stop))) (.literal (stop :: more)))
      (fieldWay? stop (stop :: more)) := by
  intro s
  have hnever : ∀ (w : Way) c t, w.rest = c :: t → decide (c ≠ stop) = true →
      dropPrefix? (stop :: more) w.rest = none := by
    intro w c t hw hc
    have hne : stop ≠ c := Ne.symm (of_decide_eq_true hc)
    rw [hw, dropPrefix?_cons_ne hne]
  simp only [Pattern.ways, List.flatMap_map]
  rw [Pattern.repetitions_flat_map fun w c t hw hc => by rw [hnever w c t hw hc]; rfl, fieldWay?,
    field?]
  generalize s.takeWhile (fun c => decide (c ≠ stop)) = content
  cases dropPrefix? (stop :: more) (s.dropWhile fun c => decide (c ≠ stop)) with
  | none => cases content <;> rfl
  | some rest => cases content <;> rfl

theorem first_match_delimited (more s : Text) :
    (Pattern.seq (.literal ('*' :: more)) (.seq (.group (.oneOrMore (· ≠ '*')))
        (.literal ('*' :: more)))).firstMatch? s =
      (delimited? ('*' :: more) s).map fun (content, rest) =>
        ⟨'*' :: more ++ (content ++ '*' :: more), [content], rest⟩ := by
  rw [((only_literal _).seq (only_field '*' more)).first_match, delimited_eq_field]
  cases dropPrefix? ('*' :: more) s with
  | none => rfl
  | some inner =>
    simp only [Option.map_some, Option.bind_some, fieldWay?, Option.map_map]
    rfl

theorem first_match_reference (lead s : Text) :
    (referencePattern lead).firstMatch? s =
      (reference? lead s).map fun (r, rest) =>
        ⟨lead ++ (r.label ++ "](".toList ++ (r.address ++ ")".toList)), [r.label, r.address],
          rest⟩ := by
  have hlabel : Only (.seq (.group (.oneOrMore (· ≠ ']'))) (.literal "](".toList))
      (fieldWay? ']' "](".toList) := only_field ']' ['(']
  have haddress : Only (.seq (.group (.oneOrMore (· ≠ ')'))) (.literal ")".toList))
      (fieldWay? ')' ")".toList) := only_field ')' []
  rw [referencePattern, ((only_literal lead).seq (hlabel.seq haddress)).first_match,
    reference_eq_fields]
  cases dropPrefix? lead s with
  | none => rfl
  | some s =>
    simp only [Option.map_some, Option.bind_some, fieldWay?]
    cases field? ']' "](".toList s with
    | none => rfl
    | some found =>
      simp only [Option.map_some, Option.bind_some, Option.map_map]
      rfl

theorem delimited_rule_follows (more : Text) (wrap : Text → Text) :
    Follows (delimitedRule ('*' :: more) wrap)
      (.seq (.literal ('*' :: more)) (.seq (.group (.oneOrMore (· ≠ '*')))
        (.literal ('*' :: more)))) fun group => wrap (group 1) where
  miss s hs := by
    have hspan := (delimited_rule_replaces ('*' :: more) wrap).miss s hs
    rw [first_match_delimited, hspan]
    rfl
  hit s m hm := by
    obtain ⟨content, hspan, hwrap⟩ := (delimited_rule_replaces ('*' :: more) wrap).hit s m hm
    rw [first_match_delimited, hspan]
    exact ⟨_, rfl, hwrap⟩

theorem reference_rule_follows (lead : Text) (write : Reference → Text) :
    Follows (referenceRule lead write) (referencePattern lead) fun group =>
      write ⟨group 1, group 2⟩ where
  miss s hs := by
    have hreference := (reference_rule_replaces lead write).miss s hs
    rw [first_match_reference, hreference]
    rfl
  hit s m hm := by
    obtain ⟨r, hreference, hwrite⟩ := (reference_rule_replaces lead write).hit s m hm
    rw [first_match_reference, hreference]
    exact ⟨_, rfl, hwrite⟩

/-- Marking is the global substitution of the pattern, and its scan is over after as many rounds as
the text has characters. -/
structure Substitutes (p : Pattern) (write : (Nat → Text) → Text) (rule : Rule)
    (mark : Text → Text) : Prop where
  result : ∀ t out, p.Substituted write t out ↔ out = mark t
  ends : ∀ t, (scanRound rule)^[t.length] (t, []) = ([], (mark t).reverse)

theorem substitutes_of_follows {p : Pattern} {write : (Nat → Text) → Text} {rule : Rule}
    (h : Follows rule p write) : Substitutes p write rule (substitute rule) where
  result := h.substituted_iff
  ends t := by
    have hrounds := scan_rounds rule (Nat.le_refl t.length) []
    rwa [List.append_nil] at hrounds

theorem spans_substitute (e : Html.Escaping) :
    Substitutes strongPattern
        (fun group => "<strong>".toList ++ group 1 ++ "</strong>".toList)
        (delimitedRule "**".toList Html.strong) markStrong ∧
      Substitutes emphasisPattern
        (fun group => "<em>".toList ++ group 1 ++ "</em>".toList)
        (delimitedRule "*".toList Html.emphasis) markEmphasis ∧
      Substitutes (referencePattern "![".toList)
        (fun group => "<img src=\"".toList ++ e.attributeValue (group 2) ++ "\" alt=\"".toList ++
          e.attributeValue (group 1) ++ "\">".toList)
        (referenceRule "![".toList fun r => Html.image e r.address r.label) (markImages e) ∧
      Substitutes (referencePattern "[".toList)
        (fun group => "<a href=\"".toList ++ e.attributeValue (group 2) ++ "\">".toList ++
          group 1 ++ "</a>".toList)
        (referenceRule "[".toList fun r => Html.link e r.address r.label) (markLinks e) := by
  refine ⟨?_, ?_, ?_, ?_⟩
  · exact substitutes_of_follows (delimited_rule_follows ['*'] Html.strong)
  · exact substitutes_of_follows (delimited_rule_follows [] Html.emphasis)
  · exact substitutes_of_follows (reference_rule_follows _ _)
  · exact substitutes_of_follows (reference_rule_follows _ _)

/-- A failed match is tried again one character on, and what follows a match is searched anew. -/
example : markStrong "***x** **y*".toList = "*<strong>x</strong> **y*".toList := by decide +kernel

end MarkdownPage.Span
