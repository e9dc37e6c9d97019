import MarkdownPage.Heading
import MarkdownPage.Proofs.Block
import MarkdownPage.Proofs.Bytes.Ascii
import MarkdownPage.Proofs.ItemList

/-!
Lines read by places: headings, list items and closing tags. The markers are counted in bytes, and
what stands behind them is cut out. Main statements: `heading_eq`, `item_eq` and `closes_eq`, by which
nothing of this fails and the same is read as from the characters of the line.
-/

namespace MarkdownPage.Bytes

open Text

/-- What stands behind a marker of so many bytes, if the first of it is whitespace. -/
def contentBehind (t : Text) (length : Nat) : Checked (Option Text) := do
  let rest ← sliceFrom t length
  let content := trimStart rest
  .ok (if byteLength content = byteLength rest then none else some content)

theorem content_behind_eq (marker rest : Text) :
    contentBehind (marker ++ rest) (byteLength marker) = .ok (afterSpace? rest) := by
  have hsuffix : trimStart rest <:+ rest := List.dropWhile_suffix isSpace
  rw [contentBehind, slice_from_append, ok_bind]
  simp only [byte_length_suffix hsuffix]
  cases rest with
  | nil => rfl
  | cons c t =>
    rw [afterSpace?]
    by_cases hc : isSpace c = true
    · have htrim : trimStart (c :: t) = trimStart t := List.dropWhile_cons_of_pos hc
      have hne : trimStart t ≠ c :: t := by
        intro heq
        have hlength := (List.dropWhile_suffix isSpace (l := t)).length_le
        rw [trimStart] at heq
        rw [heq, List.length_cons] at hlength
        omega
      rw [htrim, if_neg hne, if_pos hc]
    · have htrim : trimStart (c :: t) = c :: t := List.dropWhile_cons_of_neg hc
      rw [htrim, if_pos rfl, if_neg hc]

/-- The hash signs are counted in bytes. -/
def heading? (l : Line) : Checked (Option Heading) :=
  let hashes := ((bytes l).takeWhile (· == '#'.toUInt8)).length
  match Html.Level.ofNat? hashes with
  | none => .ok none
  | some level => do
    let content ← contentBehind l hashes
    .ok (content.map (Heading.mk level))

theorem heading_eq (l : Line) : heading? l = .ok (Heading.ofLine? l) := by
  have hcontent := content_behind_eq (l.takeWhile (· = '#')) (l.dropWhile (· = '#'))
  have hlength : byteLength (l.takeWhile (· = '#')) = (l.takeWhile (· = '#')).length := by
    apply byte_length_of_ascii
    intro c hc
    have hhash := List.mem_takeWhile_imp hc
    rw [of_decide_eq_true hhash]
    decide
  have hhashes : ((bytes l).takeWhile (· == '#'.toUInt8)).length =
      (l.takeWhile (· = '#')).length := by
    rw [(agree_eq (by decide)).take_while, length_bytes]
    exact hlength
  rw [List.takeWhile_append_dropWhile, hlength] at hcontent
  rw [heading?, Heading.ofLine?, hhashes]
  cases Html.Level.ofNat? (l.takeWhile (· = '#')).length with
  | none => rfl
  | some level =>
    simp only [hcontent, ok_bind]
    cases afterSpace? (l.dropWhile (· = '#')) <;> rfl

section Items

def isBullet (b : UInt8) : Bool := b == '*'.toUInt8 || (b == '+'.toUInt8 || b == '-'.toUInt8)

def isDigit (b : UInt8) : Bool := '0'.toUInt8 ≤ b && b ≤ '9'.toUInt8

/-- How many bytes the digits have together with the full stop behind them. -/
def numberLength? (bs : List UInt8) : Option Nat :=
  let digits := (bs.takeWhile isDigit).length
  if bs[digits]? = some '.'.toUInt8 then some (digits + 1) else none

def markerLength? (bs : List UInt8) : Option (Html.ListStyle × Nat) :=
  match bs.head? with
  | none => none
  | some b =>
    if isBullet b then some (.bulleted, 1)
    else if isDigit b then (numberLength? bs).map (.numbered, ·)
    else none

def item? (l : Line) : Checked (Option Item) :=
  match markerLength? (bytes (trim l)) with
  | none => .ok none
  | some (style, length) => do
    let content ← contentBehind (trim l) length
    .ok (content.map (Item.mk style))

theorem is_bullet_agree : Agree isBullet "*+-".toList.contains := by
  have hagree := (agree_eq (show Ascii '*' by decide)).or
    ((agree_eq (show Ascii '+' by decide)).or (agree_eq (show Ascii '-' by decide)))
  intro c b hb
  have hlist : "*+-".toList.contains c = (c == '*' || (c == '+' || c == '-')) := by
    rw [show "*+-".toList = ['*', '+', '-'] from rfl, List.contains_cons, List.contains_cons,
      List.contains_cons, List.contains_nil, Bool.or_false]
  rw [hlist]
  exact hagree c b hb

theorem is_digit_agree : Agree isDigit Char.isDigit := by
  have hdigit (c : Char) : c.isDigit = decide (48 ≤ c.toNat ∧ c.toNat ≤ 57) := by
    rw [Char.isDigit, ← Bool.decide_and]
    rfl
  have hbyte (b : UInt8) : isDigit b = decide (48 ≤ b.toNat ∧ b.toNat ≤ 57) := by
    rw [isDigit, ← Bool.decide_and]
    rfl
  apply agree_of_ascii
  · intro c hc
    rw [hdigit, hbyte, byte_of_ascii hc]
  · intro b hb
    rw [hbyte, decide_eq_false_iff_not]
    omega
  · intro c hc
    rw [hdigit, decide_eq_false_iff_not]
    unfold Ascii at hc
    omega

theorem number_length_eq (t : Text) :
    numberLength? (bytes t) =
      (dropPrefix? ['.'] (t.dropWhile Char.isDigit)).map fun rest =>
        byteLength t - byteLength rest := by
  have hlength : ((bytes t).takeWhile isDigit).length = byteLength (t.takeWhile Char.isDigit) := by
    rw [is_digit_agree.take_while, length_bytes]
  have hstop := byte_at_iff (show Ascii '.' by decide) (t.takeWhile Char.isDigit)
    (t.dropWhile Char.isDigit)
  have hwhole := List.takeWhile_append_dropWhile (p := Char.isDigit) (l := t)
  rw [hwhole] at hstop
  rw [numberLength?, hlength]
  simp only [hstop]
  cases hrest : t.dropWhile Char.isDigit with
  | nil => rfl
  | cons c rest =>
    by_cases hc : c = '.'
    · subst hc
      have hsum := congrArg byteLength hwhole
      rw [hrest, List.append_cons, byte_length_append, byte_length_concat (by decide)] at hsum
      rw [if_pos List.head?_cons, dropPrefix?_cons_self, dropPrefix?_nil, Option.map_some, ← hsum,
        Nat.add_sub_cancel]
    · rw [if_neg (by simpa using hc), dropPrefix?_cons_ne (Ne.symm hc)]
      rfl

theorem marker_length_eq (t : Text) :
    markerLength? (bytes t) =
      (Item.marker? t).map fun (style, rest) => (style, byteLength t - byteLength rest) := by
  cases t with
  | nil => rfl
  | cons c t =>
    obtain ⟨b, bs, hb, hbytes⟩ := bytes_cons_head c t
    have hhead : (bytes (c :: t)).head? = some b := congrArg List.head? hbytes
    rw [markerLength?, hhead, Item.marker?]
    simp only [is_bullet_agree c b hb, is_digit_agree c b hb]
    by_cases hbullet : "*+-".toList.contains c = true
    · have hascii : Ascii c := by
        have hall : "*+-".toList.all fun d => Ascii d := by decide
        exact of_decide_eq_true (List.all_eq_true.mp hall c (by simpa using hbullet))
      have hsum := byte_length_concat hascii []
      rw [if_pos hbullet, if_pos hbullet, Option.map_some, ← List.singleton_append,
        byte_length_append, Nat.add_sub_cancel]
      rw [List.nil_append] at hsum
      rw [hsum]
      rfl
    · rw [if_neg hbullet, if_neg hbullet, Item.afterNumber?, List.head?_cons, Option.any_some]
      by_cases hdigit : c.isDigit = true
      · rw [if_pos hdigit, if_pos hdigit, number_length_eq, Option.map_map, Option.map_map]
        rfl
      · rw [if_neg hdigit, if_neg hdigit]
        rfl

theorem item_eq (l : Line) : item? l = .ok (Item.ofLine? l) := by
  rw [item?, marker_length_eq, Item.ofLine?]
  cases hmarker : Item.marker? (trim l) with
  | none => rfl
  | some found =>
    obtain ⟨style, rest⟩ := found
    obtain ⟨marker, -, htrim⟩ := Item.marker_eq_some_iff.mp hmarker
    have hlength : byteLength (trim l) - byteLength rest = byteLength marker := by
      rw [htrim, byte_length_append, Nat.add_sub_cancel]
    have hcontent := content_behind_eq marker rest
    rw [← htrim, ← hlength] at hcontent
    simp only [Option.map_some, hcontent, ok_bind, Option.bind_eq_bind, Option.bind_some]
    cases afterSpace? rest <;> rfl

end Items

section Closing

/-- The places at which the text begins with `needle`, from the place at which it stands itself. -/
def placesFrom (needle : Text) (place : Nat) : Text → List Nat
  | [] => []
  | c :: t =>
    let others := placesFrom needle (place + byteLength [c]) t
    if startsWith needle (c :: t) then place :: others else others

def closesAt (tag l : Text) (place : Nat) : Checked Bool := do
  let behind ← sliceFrom l (place + 2)
  .ok ((dropPrefix? tag behind).any (startsWith ['>']))

def closes (tag l : Text) : Checked Bool := (placesFrom "</".toList 0 l).anyM (closesAt tag l)

theorem closes_at_eq (tag s t : Text) :
    closesAt tag (s ++ ("</".toList ++ t)) (byteLength s) =
      .ok ((Html.closeTag tag).isPrefixOf ("</".toList ++ t)) := by
  have hslice := slice_from_append (s ++ "</".toList) t
  have hopen : byteLength "</".toList = 2 := rfl
  rw [byte_length_append, hopen, List.append_assoc] at hslice
  rw [closesAt, hslice, ok_bind]
  congr 1
  rw [Bool.eq_iff_iff, List.isPrefixOf_iff_prefix, Html.closeTag, List.append_assoc,
    List.prefix_append_right_inj, Option.any_eq_true]
  simp only [dropPrefix?_eq_some_iff, startsWith_iff]
  constructor
  · rintro ⟨_, rfl, u, rfl⟩
    exact ⟨u, by simp⟩
  · rintro ⟨u, rfl⟩
    exact ⟨'>' :: u, by simp, List.prefix_append ['>'] u⟩

theorem closes_from_eq (tag s t : Text) :
    (placesFrom "</".toList (byteLength s) t).anyM (closesAt tag (s ++ t)) =
      .ok (Block.isClosedBy tag t) := by
  induction t generalizing s with
  | nil => rfl
  | cons c t ih =>
    have hothers := ih (s ++ [c])
    rw [byte_length_append, ← List.append_cons] at hothers
    rw [placesFrom, Block.isClosedBy, occurs]
    by_cases hstart : startsWith "</".toList (c :: t) = true
    · obtain ⟨u, hu⟩ := startsWith_iff.mp hstart
      have hclose := closes_at_eq tag s u
      rw [hu] at hclose
      rw [if_pos hstart, List.anyM, hclose, ok_bind]
      cases (Html.closeTag tag).isPrefixOf (c :: t) with
      | true => rfl
      | false => exact hothers
    · -- No closing tag can stand where none begins.
      have hopen : "</".toList <+: Html.closeTag tag := ⟨tag ++ ['>'], by simp [Html.closeTag]⟩
      have hmiss : (Html.closeTag tag).isPrefixOf (c :: t) = false := by
        rw [Bool.eq_false_iff, Ne, List.isPrefixOf_iff_prefix]
        intro hclose
        exact hstart (startsWith_iff.mpr (hopen.trans hclose))
      rw [if_neg hstart, hmiss]
      exact hothers

theorem closes_eq (tag l : Text) : closes tag l = .ok (Block.isClosedBy tag l) :=
  closes_from_eq tag [] l

end Closing

end MarkdownPage.Bytes
