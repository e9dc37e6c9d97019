import Mathlib.Data.List.TakeWhile
import MarkdownPage.Proofs.Bytes.Slice

/-!
ASCII characters among the bytes of a text. The byte of such a character is no byte of any other
character, so a search or a test of bytes comes out as one of characters does. Main statements:
`find_byte`, by which the search for the byte comes to the place before the first such character, and
`Agree.take_while`, by which bytes that pass a test are those of the characters that do.
-/

namespace MarkdownPage.Bytes

open Text

/-- The character is written as one byte. -/
def Ascii (c : Char) : Prop := c.toNat < 128

instance (c : Char) : Decidable (Ascii c) := inferInstanceAs (Decidable (_ < _))

theorem encode_ascii {c : Char} (h : Ascii c) : String.utf8EncodeChar c = [c.toUInt8] := by
  have hsize : c.utf8Size = 1 := by
    rw [Char.utf8Size_eq_one_iff, UInt32.le_iff_toNat_le]
    exact Nat.le_of_lt_succ h
  exact String.utf8EncodeChar_eq_singleton hsize

theorem byte_length_concat {c : Char} (h : Ascii c) (t : Text) :
    byteLength (t ++ [c]) = byteLength t + 1 := by
  rw [byte_length_append, ← length_bytes [c], bytes_cons, encode_ascii h]
  rfl

theorem byte_length_of_ascii {t : Text} (h : ∀ c ∈ t, Ascii c) : byteLength t = t.length := by
  induction t with
  | nil => rfl
  | cons c t ih =>
    rw [List.forall_mem_cons] at h
    rw [← length_bytes, bytes_cons, encode_ascii h.1, List.singleton_append, List.length_cons,
      List.length_cons, length_bytes, ih h.2]

theorem byte_of_ascii {c : Char} (h : Ascii c) : c.toUInt8.toNat = c.toNat := by
  have hmod : c.toUInt8.toNat = c.toNat % 256 := UInt32.toNat_toUInt8 c.val
  unfold Ascii at h
  omega

theorem high_of_not_ascii {c : Char} (h : ¬ Ascii c) :
    ∀ b ∈ String.utf8EncodeChar c, 128 ≤ b.toNat := by
  have hlow : ¬ c.val.toNat ≤ 127 := fun hle => h (Nat.lt_succ_of_le hle)
  intro b hb
  simp only [String.utf8EncodeChar, if_neg hlow] at hb
  split at hb
  · simp only [List.mem_cons, List.not_mem_nil, or_false] at hb
    rcases hb with rfl | rfl <;> simp only [UInt8.toNat_ofNat'] <;> omega
  · split at hb
    · simp only [List.mem_cons, List.not_mem_nil, or_false] at hb
      rcases hb with rfl | rfl | rfl <;> simp only [UInt8.toNat_ofNat'] <;> omega
    · simp only [List.mem_cons, List.not_mem_nil, or_false] at hb
      rcases hb with rfl | rfl | rfl | rfl <;> simp only [UInt8.toNat_ofNat'] <;> omega

theorem byte_mem_iff {c d : Char} (h : Ascii c) : c.toUInt8 ∈ String.utf8EncodeChar d ↔ d = c := by
  constructor
  · intro hmem
    by_cases hd : Ascii d
    · rw [encode_ascii hd, List.mem_singleton] at hmem
      apply Char.toNat_inj.mp
      rw [← byte_of_ascii hd, ← byte_of_ascii h, hmem]
    · have hhigh := high_of_not_ascii hd _ hmem
      rw [byte_of_ascii h] at hhigh
      exact absurd h (Nat.not_lt.mpr hhigh)
  · rintro rfl
    rw [encode_ascii h]
    exact List.mem_singleton_self _

/-- A test of bytes comes out for each byte of a character as the other test does for the
character. -/
def Agree (p : UInt8 → Bool) (q : Char → Bool) : Prop :=
  ∀ c, ∀ b ∈ String.utf8EncodeChar c, p b = q c

theorem agree_eq {c : Char} (h : Ascii c) : Agree (· == c.toUInt8) (· == c) := by
  intro d b hb
  by_cases hd : d = c
  · subst hd
    rw [encode_ascii h, List.mem_singleton] at hb
    simp [hb]
  · have hne : b ≠ c.toUInt8 := by
      rintro rfl
      exact hd ((byte_mem_iff h).mp hb)
    simp [hd, hne]

theorem agree_of_ascii {p : UInt8 → Bool} {q : Char → Bool}
    (hlow : ∀ c, Ascii c → p c.toUInt8 = q c) (hbyte : ∀ b : UInt8, 128 ≤ b.toNat → p b = false)
    (hchar : ∀ c, ¬ Ascii c → q c = false) : Agree p q := by
  intro c b hb
  by_cases hc : Ascii c
  · rw [encode_ascii hc, List.mem_singleton] at hb
    rw [hb, hlow c hc]
  · rw [hbyte b (high_of_not_ascii hc b hb), hchar c hc]

theorem Agree.or {p p' : UInt8 → Bool} {q q' : Char → Bool} (h : Agree p q) (h' : Agree p' q') :
    Agree (fun b => p b || p' b) fun c => q c || q' c := by
  intro c b hb
  simp only [h c b hb, h' c b hb]

theorem bytes_cons_head (c : Char) (t : Text) :
    ∃ b bs, b ∈ String.utf8EncodeChar c ∧ bytes (c :: t) = b :: bs := by
  obtain ⟨b, bs, hb⟩ := List.exists_cons_of_ne_nil (String.utf8EncodeChar_ne_nil (c := c))
  refine ⟨b, bs ++ bytes t, ?_, ?_⟩
  · rw [hb]
    exact List.mem_cons_self
  · rw [bytes_cons, hb, List.cons_append]

theorem Agree.take_while {p : UInt8 → Bool} {q : Char → Bool} (h : Agree p q) (t : Text) :
    (bytes t).takeWhile p = bytes (t.takeWhile q) := by
  induction t with
  | nil => rfl
  | cons c t ih =>
    cases hc : q c with
    | true =>
      have hall : ∀ b ∈ String.utf8EncodeChar c, p b = true := fun b hb => (h c b hb).trans hc
      rw [bytes_cons, List.takeWhile_append_of_pos hall, ih, List.takeWhile_cons_of_pos hc, bytes_cons]
    | false =>
      obtain ⟨b, bs, hb, hhead⟩ := bytes_cons_head c t
      have hstop : p b = false := (h c b hb).trans hc
      rw [hhead, List.takeWhile_cons_of_neg (by simp [hstop]),
        List.takeWhile_cons_of_neg (by simp [hc]), bytes_nil]

/-- The place of the first byte that a character is written with. -/
def findByte (c : Char) (bs : List UInt8) : Option Nat := bs.findIdx? (· == c.toUInt8)

theorem find_byte_none {c : Char} (h : Ascii c) {t : Text} (ht : c ∉ t) :
    findByte c (bytes t) = none := by
  rw [findByte, List.findIdx?_eq_none_iff, bytes_eq]
  intro b hb
  obtain ⟨d, hd, hb⟩ := List.mem_flatMap.mp hb
  refine (agree_eq h d b hb).trans (beq_false_of_ne ?_)
  rintro rfl
  exact ht hd

theorem find_byte {c : Char} (h : Ascii c) {s : Text} (hs : c ∉ s) (t : Text) :
    findByte c (bytes (s ++ c :: t)) = some (byteLength s) := by
  have hnone := find_byte_none h hs
  unfold findByte at hnone ⊢
  rw [bytes_append, bytes_cons, encode_ascii h, List.findIdx?_append, hnone, List.cons_append,
    List.findIdx?_cons, if_pos (beq_self_eq_true _)]
  simp [length_bytes]

theorem byte_at_iff {c : Char} (h : Ascii c) (s t : Text) :
    (bytes (s ++ t))[byteLength s]? = some c.toUInt8 ↔ t.head? = some c := by
  rw [bytes_append, ← length_bytes s, List.getElem?_append_right (Nat.le_refl _), Nat.sub_self]
  cases t with
  | nil => simp [bytes_nil]
  | cons d t =>
    obtain ⟨b, bs, hb, hhead⟩ := bytes_cons_head d t
    rw [hhead, List.getElem?_cons_zero, List.head?_cons, Option.some.injEq, Option.some.injEq]
    constructor
    · rintro rfl
      exact (byte_mem_iff h).mp hb
    · rintro rfl
      rwa [encode_ascii h, List.mem_singleton] at hb

theorem prefix_bytes_iff {lead : Text} (h : ∀ c ∈ lead, Ascii c) {t : Text} :
    bytes lead <+: bytes t ↔ lead <+: t := by
  induction lead generalizing t with
  | nil => simp [bytes_nil]
  | cons c lead ih =>
    rw [List.forall_mem_cons] at h
    rw [bytes_cons, encode_ascii h.1, List.singleton_append]
    constructor
    · rintro ⟨bs, hbs⟩
      have hhead : t.head? = some c := by
        rw [← byte_at_iff h.1 [] t, List.nil_append, ← hbs]
        rfl
      obtain ⟨t, rfl⟩ := List.head?_eq_some_iff.mp hhead
      rw [bytes_cons, encode_ascii h.1, List.singleton_append, List.cons_append] at hbs
      exact List.cons_prefix_cons.mpr ⟨rfl, (ih h.2).mp ⟨bs, (List.cons.inj hbs).2⟩⟩
    · intro hlead
      cases t with
      | nil => exact absurd hlead (by simp)
      | cons d t =>
        obtain ⟨rfl, hrest⟩ := List.cons_prefix_cons.mp hlead
        rw [bytes_cons, encode_ascii h.1, List.singleton_append]
        exact List.cons_prefix_cons.mpr ⟨rfl, (ih h.2).mpr hrest⟩

end MarkdownPage.Bytes
