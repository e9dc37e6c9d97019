import Mathlib.Data.List.Infix
import MarkdownPage.Text.Encoded

/-!
Texts as bytes, with places in them. A place is the number of bytes in front of it. Cutting a text
at places fails where they are out of order, out of range or inside of a character. Main statements:
`is_boundary_iff`, by which a place is no place inside of a character just where the text can be
parted, and `slice_between`, by which a slice between two such places is what stands there.
-/

namespace MarkdownPage.Bytes

open Text

inductive Fault where
  | noSlice (start stop : Nat)
  | noEntry (place : Nat)
  | belowZero (count subtracted : Nat)
  deriving DecidableEq, Repr

abbrev Checked := Except Fault

@[simp] theorem ok_bind {α β : Type} (a : α) (f : α → Checked β) :
    (Except.ok a : Checked α) >>= f = f a := rfl

/-- A run has a result only if all its parts have one. -/
theorem bind_eq_ok {α β : Type} {x : Checked α} {f : α → Checked β} {b : β} :
    x >>= f = .ok b ↔ ∃ a, x = .ok a ∧ f a = .ok b := by
  cases x with
  | error fault => exact iff_of_false nofun nofun
  | ok a => simp

def minus (count subtracted : Nat) : Checked Nat :=
  if subtracted ≤ count then .ok (count - subtracted) else .error (.belowZero count subtracted)

def entry {α : Type} (xs : List α) (place : Nat) : Checked α :=
  match xs[place]? with
  | some x => .ok x
  | none => .error (.noEntry place)

/-- The entries between two places, which have to be in order and in range. -/
def part {α : Type} (xs : List α) (start stop : Nat) : Checked (List α) :=
  if start ≤ stop ∧ stop ≤ xs.length then .ok (xs.extract start stop)
  else .error (.noSlice start stop)

def part? {α : Type} (xs : List α) (start stop : Nat) : Option (List α) :=
  (part xs start stop).toOption

def bytes (t : Text) : List UInt8 := (toBytes t).data.toList

/-- A character begins at the place, or the text ends there. -/
def IsBoundary (t : Text) (place : Nat) : Prop :=
  place = byteLength t ∨ ∃ b ∈ (bytes t)[place]?, b.IsUTF8FirstByte

instance (t : Text) (place : Nat) : Decidable (IsBoundary t place) :=
  inferInstanceAs (Decidable (_ ∨ _))

/-- The text between two places, which have to be in order, in range and between characters. -/
def slice (t : Text) (start stop : Nat) : Checked Text :=
  if start ≤ stop ∧ IsBoundary t start ∧ IsBoundary t stop then
    match ofBytes? ((bytes t).extract start stop).toByteArray with
    | some s => .ok s
    | none => .error (.noSlice start stop)
  else .error (.noSlice start stop)

def sliceFrom (t : Text) (start : Nat) : Checked Text := slice t start (byteLength t)

section Parts

variable {α : Type}

theorem minus_add (n k : Nat) : minus (n + k) k = .ok n := by
  rw [minus, if_pos (Nat.le_add_left k n), Nat.add_sub_cancel]

theorem entry_length (xs : List α) (x : α) (ys : List α) :
    entry (xs ++ x :: ys) xs.length = .ok x := by
  rw [entry, List.getElem?_append_right (Nat.le_refl _), Nat.sub_self]
  rfl

theorem part_between (xs ys zs : List α) :
    part (xs ++ ys ++ zs) xs.length (xs.length + ys.length) = .ok ys := by
  have hrange : xs.length ≤ xs.length + ys.length ∧
      xs.length + ys.length ≤ (xs ++ ys ++ zs).length := by
    simp only [List.length_append]
    omega
  rw [part, if_pos hrange, List.extract_eq_take_drop, Nat.add_sub_cancel_left, List.append_assoc,
    List.drop_left, List.take_left]

theorem part_append (xs ys : List α) :
    part (xs ++ ys) xs.length (xs ++ ys).length = .ok ys := by
  have hpart := part_between xs ys []
  rwa [List.append_nil, ← List.length_append] at hpart

/-- What is cut out stands between what comes before the one place and what comes behind the other. -/
theorem part_eq_ok {xs ys : List α} {start stop : Nat} (h : part xs start stop = .ok ys) :
    ∃ lead tail, xs = lead ++ ys ++ tail ∧ start = lead.length ∧ stop = lead.length + ys.length := by
  rw [part] at h
  split at h
  · next hrange =>
    cases h
    refine ⟨xs.take start, xs.drop stop, ?_, ?_, ?_⟩
    · have hstop : xs.drop stop = (xs.drop start).drop (stop - start) := by
        rw [List.drop_drop, Nat.add_sub_of_le hrange.1]
      rw [List.extract_eq_take_drop, List.append_assoc, hstop, List.take_append_drop,
        List.take_append_drop]
    · rw [List.length_take]
      omega
    · simp only [List.extract_eq_take_drop, List.length_take, List.length_drop]
      omega
  · cases h

theorem part?_eq_some_iff {xs ys : List α} {start stop : Nat} :
    part? xs start stop = some ys ↔ part xs start stop = .ok ys := by
  rw [part?]
  cases part xs start stop <;> simp [Except.toOption]

end Parts

section Bytes

theorem bytes_eq (t : Text) : bytes t = t.flatMap String.utf8EncodeChar := by
  rw [bytes, toBytes, String.toUTF8, String.toByteArray_ofList, List.utf8Encode,
    List.toList_data_toByteArray]

theorem bytes_nil : bytes [] = [] := rfl

theorem bytes_append (s t : Text) : bytes (s ++ t) = bytes s ++ bytes t := by
  simp only [bytes_eq, List.flatMap_append]

theorem bytes_cons (c : Char) (t : Text) : bytes (c :: t) = String.utf8EncodeChar c ++ bytes t := by
  simp only [bytes_eq, List.flatMap_cons]

theorem length_bytes (t : Text) : (bytes t).length = byteLength t := rfl

theorem byte_length_append (s t : Text) : byteLength (s ++ t) = byteLength s + byteLength t := by
  rw [← length_bytes, bytes_append, List.length_append, length_bytes, length_bytes]

theorem byte_length_eq_zero {t : Text} (h : byteLength t = 0) : t = [] := by
  cases t with
  | nil => rfl
  | cons c t =>
    have hc := Char.utf8Size_pos c
    rw [← length_bytes, bytes_cons, List.length_append, String.length_utf8EncodeChar] at h
    omega

theorem byte_length_suffix {s t : Text} (h : s <:+ t) : byteLength s = byteLength t ↔ s = t := by
  obtain ⟨lead, rfl⟩ := h
  rw [byte_length_append]
  constructor
  · intro hlength
    have hlead : lead = [] := byte_length_eq_zero (by omega)
    rw [hlead, List.nil_append]
  · intro hs
    have hlength := congrArg byteLength hs
    rwa [byte_length_append] at hlength

theorem part_bytes_append (s t : Text) :
    part (bytes (s ++ t)) (byteLength s) (byteLength (s ++ t)) = .ok (bytes t) := by
  have hpart := part_append (bytes s) (bytes t)
  rwa [← bytes_append] at hpart

theorem to_byte_array_bytes (t : Text) : (bytes t).toByteArray = toBytes t := by
  rw [bytes_eq, toBytes, String.toUTF8, String.toByteArray_ofList, List.utf8Encode]

theorem is_boundary_iff_valid {t : Text} {place : Nat} :
    IsBoundary t place ↔ String.Pos.Raw.IsValid (String.ofList t) ⟨place⟩ := by
  have hbytes : bytes t = (String.ofList t).toByteArray.data.toList := rfl
  rw [IsBoundary, String.Pos.Raw.isValid_iff_isUTF8FirstByte, hbytes]
  refine or_congr ?_ ?_
  · constructor
    · rintro rfl
      rfl
    · intro hend
      exact congrArg String.Pos.Raw.byteIdx hend
  · constructor
    · rintro ⟨b, hb, hfirst⟩
      obtain ⟨hlt, rfl⟩ := List.getElem?_eq_some_iff.mp hb
      exact ⟨hlt, hfirst⟩
    · rintro ⟨hlt, hfirst⟩
      exact ⟨_, List.getElem?_eq_getElem hlt, hfirst⟩

/-- The boundaries of a text are the places between two parts of it. -/
theorem is_boundary_iff {t : Text} {place : Nat} :
    IsBoundary t place ↔ ∃ s u, t = s ++ u ∧ place = byteLength s := by
  rw [is_boundary_iff_valid, String.Pos.Raw.isValid_iff_exists_append]
  constructor
  · rintro ⟨s, u, ht, hplace⟩
    refine ⟨s.toList, u.toList, ?_, ?_⟩
    · have hlist := congrArg String.toList ht
      rwa [String.toList_ofList, String.toList_append] at hlist
    · have hend := congrArg String.Pos.Raw.byteIdx hplace
      rw [byteLength, toBytes, String.ofList_toList]
      exact hend
  · rintro ⟨s, u, rfl, rfl⟩
    exact ⟨String.ofList s, String.ofList u, String.ofList_append, rfl⟩

theorem is_boundary_append (s t : Text) : IsBoundary (s ++ t) (byteLength s) :=
  is_boundary_iff.mpr ⟨s, t, rfl, rfl⟩

theorem slice_between (s t u : Text) :
    slice (s ++ t ++ u) (byteLength s) (byteLength s + byteLength t) = .ok t := by
  have hstart : IsBoundary (s ++ t ++ u) (byteLength s) := by
    rw [List.append_assoc]
    exact is_boundary_append s (t ++ u)
  have hstop : IsBoundary (s ++ t ++ u) (byteLength s + byteLength t) := by
    rw [← byte_length_append]
    exact is_boundary_append (s ++ t) u
  have hbytes : (bytes (s ++ t ++ u)).extract (byteLength s) (byteLength s + byteLength t) =
      bytes t := by
    rw [bytes_append, bytes_append, ← length_bytes, ← length_bytes, List.extract_eq_take_drop,
      Nat.add_sub_cancel_left, List.append_assoc, List.drop_left, List.take_left]
  rw [slice, if_pos ⟨Nat.le_add_right _ _, hstart, hstop⟩, hbytes, to_byte_array_bytes,
    ofBytes?_toBytes]

example : slice "é*".toList 1 2 = .error (.noSlice 1 2) := by decide

theorem slice_from_append (s t : Text) : sliceFrom (s ++ t) (byteLength s) = .ok t := by
  have hslice := slice_between s t []
  rwa [List.append_nil, ← byte_length_append] at hslice

end Bytes

end MarkdownPage.Bytes
