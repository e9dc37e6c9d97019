import MarkdownPage.Proofs.Bytes.Scan
import MarkdownPage.Proofs.Span.Rule

/-!
Spans and references read by places. A field ends at the first byte that closes it, and the markup
is written for what is cut out between the places found. Main statements: `match_span_eq` and
`match_link_eq`, by which the places are those of what is read of the text, and `mark_all_eq`, by which
marking a text by places never fails and gives the marked text.
-/

namespace MarkdownPage.Bytes

open Text MarkdownPage.Span

/-- The place of the first `stop`, if something stands before it. -/
def fieldEnd? (stop : Char) (bs : List UInt8) (start : Nat) : Option Nat := do
  let ahead ← part? bs start bs.length
  let stop := start + (← findByte stop ahead)
  if stop = start then none else some stop

def starsAt (bs : List UInt8) (place run : Nat) : Bool :=
  (part? bs place (place + run)).any fun stars => stars.all (· == '*'.toUInt8)

/-- The place where the content of a span ends that begins at the place. -/
def matchSpan (bs : List UInt8) (start run : Nat) : Option Nat := do
  if starsAt bs start run then
    let contentEnd ← fieldEnd? '*' bs (start + run)
    if starsAt bs contentEnd run then some contentEnd else none
  else none

/-- Where the two fields of a reference stand, and the place behind it. -/
structure LinkSpan where
  textStart : Nat
  textEnd : Nat
  urlStart : Nat
  urlEnd : Nat
  stop : Nat
  deriving DecidableEq, Repr

def enclosedEnd? (opener closer : Char) (bs : List UInt8) (place : Nat) : Option Nat :=
  if bs[place]? = some opener.toUInt8 then fieldEnd? closer bs (place + 1) else none

def matchLink (bs : List UInt8) (start : Nat) : Option LinkSpan := do
  let textEnd ← enclosedEnd? '[' ']' bs start
  let urlEnd ← enclosedEnd? '(' ')' bs (textEnd + 1)
  some ⟨start + 1, textEnd, textEnd + 2, urlEnd, urlEnd + 1⟩

section Fields

theorem field_end_lt {stop : Char} {bs : List UInt8} {start place : Nat}
    (h : fieldEnd? stop bs start = some place) : start < place := by
  simp only [fieldEnd?, Option.bind_eq_bind, Option.bind_eq_some_iff] at h
  obtain ⟨ahead, -, n, -, h⟩ := h
  split at h
  · cases h
  · cases h
    omega

theorem match_span_lt {bs : List UInt8} {start run place : Nat}
    (h : matchSpan bs start run = some place) : start < place + run := by
  rw [matchSpan] at h
  split at h
  · obtain ⟨contentEnd, hend, h⟩ := Option.bind_eq_some_iff.mp h
    have hlt := field_end_lt hend
    split at h
    · cases h
      omega
    · cases h
  · cases h

theorem enclosed_end_lt {opener closer : Char} {bs : List UInt8} {start place : Nat}
    (h : enclosedEnd? opener closer bs start = some place) : start + 1 < place := by
  rw [enclosedEnd?] at h
  split at h
  · exact field_end_lt h
  · cases h

theorem match_link_lt {bs : List UInt8} {start : Nat} {span : LinkSpan}
    (h : matchLink bs start = some span) : start < span.stop := by
  simp only [matchLink, Option.bind_eq_bind, Option.bind_eq_some_iff] at h
  obtain ⟨textEnd, htext, urlEnd, hurl, h⟩ := h
  have htext := enclosed_end_lt htext
  have hurl := enclosed_end_lt hurl
  cases h
  simp only
  omega

theorem field_end_eq {stop : Char} (h : Ascii stop) (s t : Text) :
    fieldEnd? stop (bytes (s ++ t)) (byteLength s) =
      (field? stop [stop] t).map fun (content, _) => byteLength s + byteLength content := by
  have hahead : part? (bytes (s ++ t)) (byteLength s) (bytes (s ++ t)).length = some (bytes t) := by
    rw [part?, length_bytes, part_bytes_append]
    rfl
  rw [fieldEnd?, hahead, Option.bind_eq_bind, Option.bind_some]
  by_cases hmem : stop ∈ t
  · obtain ⟨content, tail, rfl, hfree⟩ := List.eq_append_cons_of_mem hmem
    rw [find_byte h hfree, Option.bind_eq_bind, Option.bind_some, field_at hfree]
    by_cases hcontent : content = []
    · rw [if_pos hcontent, hcontent]
      exact if_pos rfl
    · have hpos : ¬ byteLength s + byteLength content = byteLength s := by
        intro hzero
        apply hcontent
        apply byte_length_eq_zero
        omega
      rw [if_neg hpos, if_neg hcontent]
      rfl
  · rw [field_unclosed hmem, find_byte_none h hmem]
    rfl

theorem bytes_stars (run : Nat) :
    bytes (List.replicate run '*') = List.replicate run '*'.toUInt8 := by
  rw [bytes_eq, List.flatMap_replicate, encode_ascii (by decide), List.flatten_replicate_singleton]

theorem stars_at_iff (s t : Text) (run : Nat) :
    starsAt (bytes (s ++ t)) (byteLength s) run = true ↔ List.replicate run '*' <+: t := by
  have hascii : ∀ c ∈ List.replicate run '*', Ascii c := by
    intro c hc
    rw [List.eq_of_mem_replicate hc]
    decide
  rw [← prefix_bytes_iff hascii, bytes_stars, starsAt, bytes_append, ← length_bytes]
  constructor
  · intro hstars
    obtain ⟨stars, hpart, hall⟩ := (Option.any_eq_true _ _).mp hstars
    obtain ⟨lead, tail, hwhole, hstart, hstop⟩ := part_eq_ok (part?_eq_some_iff.mp hpart)
    rw [List.append_assoc] at hwhole
    obtain ⟨-, hbehind⟩ := List.append_inj hwhole hstart
    have hrun : stars.length = run := by omega
    have hstars : stars = List.replicate run '*'.toUInt8 := by
      rw [List.eq_replicate_iff]
      refine ⟨hrun, fun b hb => ?_⟩
      exact beq_iff_eq.mp (List.all_eq_true.mp hall b hb)
    exact ⟨tail, by rw [hbehind, hstars]⟩
  · rintro ⟨bs, hbs⟩
    have hpart := part_between (bytes s) (List.replicate run '*'.toUInt8) bs
    rw [List.append_assoc, hbs, List.length_replicate] at hpart
    rw [part?_eq_some_iff.mpr hpart, Option.any_some, List.all_eq_true]
    intro b hb
    rw [List.eq_of_mem_replicate hb]
    exact beq_self_eq_true _

theorem stars_at_eq (s t : Text) (run : Nat) :
    starsAt (bytes (s ++ t)) (byteLength s) run =
      (dropPrefix? (List.replicate run '*') t).isSome := by
  rw [Bool.eq_iff_iff, stars_at_iff, Option.isSome_iff_exists]
  simp only [dropPrefix?_eq_some_iff]
  exact exists_congr fun rest => eq_comm

section Span

variable {run : Nat} {more : Text} (hmark : List.replicate run '*' = '*' :: more)

include hmark

theorem byte_length_stars : byteLength ('*' :: more) = run := by
  rw [← hmark, ← length_bytes, bytes_stars, List.length_replicate]

theorem match_span_eq (s t : Text) :
    matchSpan (bytes (s ++ t)) (byteLength s) run =
      (delimited? ('*' :: more) t).map fun (content, _) =>
        byteLength s + run + byteLength content := by
  rw [matchSpan, stars_at_eq, hmark, delimited_eq_field]
  cases hlead : dropPrefix? ('*' :: more) t with
  | none => rfl
  | some inner =>
    have hopen : s ++ t = s ++ '*' :: more ++ inner := by
      rw [dropPrefix?_eq_some_iff.mp hlead, List.append_assoc]
    have hinner : byteLength s + run = byteLength (s ++ '*' :: more) := by
      rw [byte_length_append, byte_length_stars hmark]
    rw [hopen, hinner, field_end_eq (by decide), Option.bind_some,
      field_close '*' more]
    cases hfield : field? '*' ['*'] inner with
    | none => rfl
    | some field =>
      obtain ⟨content, tail⟩ := field
      obtain ⟨rfl, -⟩ := field?_eq hfield
      have hwhole : s ++ '*' :: more ++ content ++ '*' :: tail =
          s ++ '*' :: more ++ (content ++ ['*'] ++ tail) := by simp
      have hclose := stars_at_eq (s ++ '*' :: more ++ content) ('*' :: tail) run
      rw [hmark, dropPrefix?_cons_self, byte_length_append, hwhole] at hclose
      simp only [Option.isSome_some, if_true, Option.map_some, Option.bind_eq_bind,
        Option.bind_some, hclose]
      cases dropPrefix? more tail <;> rfl

end Span

example : matchSpan (bytes "é**日**".toList) 2 2 = some 7 := by decide

def LinkSpan.ofReference (start : Nat) (r : Reference) : LinkSpan :=
  let textEnd := start + 1 + byteLength r.label
  let urlEnd := textEnd + 2 + byteLength r.address
  ⟨start + 1, textEnd, textEnd + 2, urlEnd, urlEnd + 1⟩

theorem enclosed_end_eq {opener closer : Char} (ho : Ascii opener) (hc : Ascii closer) (s t : Text) :
    enclosedEnd? opener closer (bytes (s ++ t)) (byteLength s) =
      ((dropPrefix? [opener] t).bind (field? closer [closer])).map fun (content, _) =>
        byteLength s + 1 + byteLength content := by
  rw [enclosedEnd?]
  simp only [byte_at_iff ho]
  cases t with
  | nil => rfl
  | cons d t =>
    by_cases hd : d = opener
    · subst hd
      have hinner := field_end_eq hc (s ++ [d]) t
      rw [byte_length_concat ho, ← List.append_cons] at hinner
      rw [if_pos List.head?_cons, hinner, dropPrefix?_cons_self, dropPrefix?_nil, Option.bind_some]
    · rw [if_neg (by simpa using hd), dropPrefix?_cons_ne (Ne.symm hd)]
      rfl

/-- A reference is a label in brackets and an address in parentheses behind it. -/
theorem reference_eq_enclosed (t : Text) :
    reference? ['['] t =
      ((dropPrefix? ['['] t).bind (field? ']' [']'])).bind fun (label, u) =>
        ((dropPrefix? ['('] u).bind (field? ')' [')'])).map fun (address, rest) =>
          (⟨label, address⟩, rest) := by
  have hlabel : "](".toList = [']', '('] := rfl
  have haddress : ")".toList = [')'] := rfl
  rw [reference_eq_fields, Option.bind_assoc, hlabel, haddress]
  congr 1
  funext inner
  rw [field_close ']' ['('], Option.bind_assoc]
  congr 1
  funext ⟨label, u⟩
  simp only
  cases dropPrefix? ['('] u <;> rfl

theorem match_link_eq (s t : Text) :
    matchLink (bytes (s ++ t)) (byteLength s) =
      (reference? ['['] t).map fun (r, _) => .ofReference (byteLength s) r := by
  rw [matchLink, enclosed_end_eq (by decide) (by decide), reference_eq_enclosed]
  cases hlabel : (dropPrefix? ['['] t).bind (field? ']' [']']) with
  | none => rfl
  | some field =>
    obtain ⟨label, u⟩ := field
    obtain ⟨inner, hinner, hfield⟩ := Option.bind_eq_some_iff.mp hlabel
    obtain ⟨rfl, -⟩ := field?_eq hfield
    have hwhole : s ++ t = s ++ ['['] ++ label ++ [']'] ++ u := by
      rw [dropPrefix?_eq_some_iff.mp hinner]
      simp
    have hplace : byteLength s + 1 + byteLength label + 1 =
        byteLength (s ++ ['['] ++ label ++ [']']) := by
      rw [byte_length_concat (by decide), byte_length_append, byte_length_concat (by decide)]
    have haddress := enclosed_end_eq (show Ascii '(' by decide) (show Ascii ')' by decide)
      (s ++ ['['] ++ label ++ [']']) u
    rw [← hwhole, ← hplace] at haddress
    simp only [Option.map_some, Option.bind_eq_bind, Option.bind_some, haddress]
    cases (dropPrefix? ['('] u).bind (field? ')' [')']) <;> rfl

end Fields

section Scanners

/-- A scanner follows the rule that replaces what is read of the text if it reads the places of it. -/
theorem follows_of_replaces {α β : Type} {sc : Scanner α} {rule : Rule}
    {read? : Text → Option (β × Text)} {write : β → Text} (hrule : Replaces rule read? write)
    (place : Nat → β → α)
    (hforeign : ∀ c t, c ≠ sc.trigger → read? (c :: t) = none)
    (hread : ∀ s t, sc.read? (bytes (s ++ sc.trigger :: t)) (byteLength s) =
      (read? (sc.trigger :: t)).map fun (b, _) => place (byteLength s) b)
    (hwrite : ∀ s t b rest, read? t = some (b, rest) →
      sc.write (s ++ t) (byteLength s) (place (byteLength s) b) = .ok (write b))
    (hbehind : ∀ t b rest, read? t = some (b, rest) →
      ∃ x, t = x ++ rest ∧ ∀ start, sc.behind (place start b) = start + byteLength x) :
    sc.Follows rule where
  foreign c t hc := hrule.rule_none (hforeign c t hc)
  miss s t hmiss := by
    rw [hread, hrule.miss _ hmiss]
    rfl
  hit s t m hhit := by
    obtain ⟨b, hb, hreplacement⟩ := hrule.hit _ m hhit
    obtain ⟨x, hx, hstop⟩ := hbehind _ b _ hb
    refine ⟨place (byteLength s) b, x, ?_, ?_, hx, hstop _⟩
    · rw [hread, hb]
      rfl
    · rw [hwrite s _ b _ hb, hreplacement]

def spanScanner (run : Nat) (wrap : Text → Text) : Scanner Nat where
  trigger := '*'
  ascii := by decide
  read? bs start := matchSpan bs start run
  behind contentEnd := contentEnd + run
  write line start contentEnd := do
    let content ← slice line (start + run) contentEnd
    .ok (wrap content)
  lt_behind := match_span_lt

/-- The place of the opening bracket of a reference that begins at the place. -/
def bracket (trigger : Char) (start : Nat) : Nat := if trigger = '!' then start + 1 else start

/-- References that begin at the trigger or, for images, behind it. -/
def referenceScanner (trigger : Char) (ascii : Ascii trigger) (write : Reference → Text) :
    Scanner LinkSpan where
  trigger := trigger
  ascii := ascii
  read? bs start := matchLink bs (bracket trigger start)
  behind span := span.stop
  write line _ span := do
    let address ← slice line span.urlStart span.urlEnd
    let label ← slice line span.textStart span.textEnd
    .ok (write ⟨label, address⟩)
  lt_behind h := by
    have hlt := match_link_lt h
    rw [bracket] at hlt
    split at hlt <;> omega

theorem span_scanner_follows {run : Nat} {more : Text}
    (hmark : List.replicate run '*' = '*' :: more) (wrap : Text → Text) :
    (spanScanner run wrap).Follows (delimitedRule ('*' :: more) wrap) := by
  apply follows_of_replaces (delimited_rule_replaces _ wrap)
    fun start content => start + run + byteLength content
  case hforeign =>
    intro c t hc
    have hne : '*' ≠ c := Ne.symm hc
    rw [delimited_eq_field, dropPrefix?_cons_ne hne, Option.bind_none]
  case hread => exact fun s t => match_span_eq hmark s ('*' :: t)
  case hwrite =>
    intro s t content rest hread
    obtain ⟨rfl, -⟩ := delimited?_eq hread
    have hslice := slice_between (s ++ '*' :: more) content ('*' :: more ++ rest)
    rw [byte_length_append, byte_length_stars hmark] at hslice
    have hwhole : s ++ ('*' :: more ++ content ++ '*' :: more ++ rest) =
        s ++ '*' :: more ++ content ++ ('*' :: more ++ rest) := by simp
    simp only [spanScanner, hwhole, hslice, ok_bind]
  case hbehind =>
    intro t content rest hread
    obtain ⟨rfl, -⟩ := delimited?_eq hread
    refine ⟨_, rfl, fun start => ?_⟩
    rw [byte_length_append, byte_length_append, byte_length_stars hmark]
    simp only [spanScanner]
    omega

section Reference

theorem reference_slices (s : Text) (r : Reference) (rest : Text) :
    let span := LinkSpan.ofReference (byteLength s) r
    let t := s ++ ['['] ++ r.label ++ "](".toList ++ r.address ++ ")".toList ++ rest
    slice t span.textStart span.textEnd = .ok r.label ∧
      slice t span.urlStart span.urlEnd = .ok r.address := by
  have hclose : byteLength "](".toList = 2 := rfl
  have hlabel := slice_between (s ++ ['[']) r.label ("](".toList ++ r.address ++ ")".toList ++ rest)
  have haddress := slice_between (s ++ ['['] ++ r.label ++ "](".toList) r.address
    (")".toList ++ rest)
  rw [byte_length_concat (by decide)] at hlabel
  rw [byte_length_append _ "](".toList, byte_length_append _ r.label,
    byte_length_concat (by decide), hclose] at haddress
  constructor
  · rw [← hlabel]
    simp [LinkSpan.ofReference]
  · rw [← haddress]
    simp [LinkSpan.ofReference]

theorem reference_stop (start : Nat) (r : Reference) :
    (LinkSpan.ofReference start r).stop = start +
      byteLength (['['] ++ r.label ++ "](".toList ++ r.address ++ ")".toList) := by
  have hopen : byteLength ['['] = 1 := rfl
  have hclose : byteLength "](".toList = 2 := rfl
  have hstop : byteLength ")".toList = 1 := rfl
  simp only [LinkSpan.ofReference, byte_length_append, hopen, hclose, hstop]
  omega

theorem reference_ahead (ahead t : Text) :
    reference? (ahead ++ ['[']) (ahead ++ t) = reference? ['['] t := by
  induction ahead with
  | nil => rfl
  | cons c ahead ih =>
    rw [reference_eq_fields] at ih ⊢
    rwa [List.cons_append, List.cons_append, dropPrefix?_cons_self]

theorem reference_scanner_follows {trigger : Char} (ascii : Ascii trigger)
    (write : Reference → Text) (ahead : Text)
    (hbracket : ∀ start, bracket trigger start = start + byteLength ahead)
    (hahead : ∀ t, ∃ u, trigger :: t = ahead ++ u)
    (hforeign : ∀ c t, c ≠ trigger → dropPrefix? (ahead ++ ['[']) (c :: t) = none) :
    (referenceScanner trigger ascii write).Follows (referenceRule (ahead ++ ['[']) write) := by
  apply follows_of_replaces (reference_rule_replaces _ write)
    fun start r => .ofReference (bracket trigger start) r
  case hforeign =>
    intro c t hc
    rw [reference_eq_fields, hforeign c t hc, Option.bind_none]
  case hread =>
    intro s t
    obtain ⟨u, hu⟩ := hahead t
    simp only [referenceScanner]
    rw [hu, ← List.append_assoc, hbracket, ← byte_length_append, match_link_eq, reference_ahead]
  case hwrite =>
    intro s t r rest hread
    obtain ⟨rfl, -⟩ := reference?_eq hread
    obtain ⟨hlabel, haddress⟩ := reference_slices (s ++ ahead) r rest
    simp only [List.append_assoc, byte_length_append, ← hbracket] at hlabel haddress
    simp only [referenceScanner, List.append_assoc, hlabel, haddress, ok_bind]
  case hbehind =>
    intro t r rest hread
    obtain ⟨rfl, -⟩ := reference?_eq hread
    refine ⟨_, rfl, fun start => ?_⟩
    simp only [referenceScanner, reference_stop, hbracket, List.append_assoc, byte_length_append]
    omega

end Reference

def strongScanner : Scanner Nat := spanScanner 2 Html.strong

def emphasisScanner : Scanner Nat := spanScanner 1 Html.emphasis

def imageScanner (e : Html.Escaping) : Scanner LinkSpan :=
  referenceScanner '!' (by decide) fun r => Html.image e r.address r.label

def linkScanner (e : Html.Escaping) : Scanner LinkSpan :=
  referenceScanner '[' (by decide) fun r => Html.link e r.address r.label

theorem strong_follows : strongScanner.Follows (delimitedRule "**".toList Html.strong) :=
  span_scanner_follows rfl Html.strong

theorem emphasis_follows : emphasisScanner.Follows (delimitedRule "*".toList Html.emphasis) :=
  span_scanner_follows rfl Html.emphasis

theorem images_follow (e : Html.Escaping) : (imageScanner e).Follows
    (referenceRule "![".toList fun r => Html.image e r.address r.label) := by
  apply reference_scanner_follows _ _ ['!']
  · exact fun start => rfl
  · exact fun u => ⟨u, rfl⟩
  · exact fun c u hc => dropPrefix?_cons_ne (Ne.symm hc) _ u

theorem links_follow (e : Html.Escaping) : (linkScanner e).Follows
    (referenceRule "[".toList fun r => Html.link e r.address r.label) := by
  apply reference_scanner_follows _ _ []
  · exact fun start => rfl
  · exact fun u => ⟨_, rfl⟩
  · exact fun c u hc => dropPrefix?_cons_ne (Ne.symm hc) _ u

def markAll (e : Html.Escaping) (t : Text) : Checked Text := do
  let t ← strongScanner.run t
  let t ← emphasisScanner.run t
  let t ← (imageScanner e).run t
  (linkScanner e).run t

theorem mark_all_eq (e : Html.Escaping) (t : Text) : markAll e t = .ok (Span.markAll e t) := by
  rw [markAll, Scanner.run_eq strong_follows, ok_bind, Scanner.run_eq emphasis_follows, ok_bind,
    Scanner.run_eq (images_follow e), ok_bind, Scanner.run_eq (links_follow e)]
  rfl

end Scanners

end MarkdownPage.Bytes
