import Mathlib.Data.Nat.Digits.Defs
import MarkdownPage.Proofs.Fragment.Token

/-!
How tokens are spelled. A token is written with the digits of its index, and lines are read more
freely: the index may have a plus sign in front and begin with zeros. Main statement: a line is read
as a token exactly when it spells the token, and a token is read back from the line written for it.
-/

namespace MarkdownPage.Token

open Text

def name : Token → Text
  | code _ => codeName
  | table _ => tableName

def withIndex : Token → Nat → Token
  | code _, n => code n
  | table _, n => table n

/-- The number that decimal digits stand for, the units last. -/
def numeral (digits : Text) : Nat :=
  Nat.ofDigits 10 (digits.reverse.map fun c => c.toNat - '0'.toNat)

/-- An index as it may be written: at most one plus sign, then digits, and no number that takes more
than 64 bits. -/
def Numbered (t : Text) (n : Nat) : Prop :=
  ∃ sign digits, (sign = [] ∨ sign = ['+']) ∧ digits ≠ [] ∧ (∀ c ∈ digits, c.isDigit = true) ∧
    numeral digits = n ∧ n < 2 ^ 64 ∧ t = sign ++ digits

/-- The name of the kind and the index between two frames, and nothing around them. -/
def Spelled (l : Line) (k : Token) : Prop :=
  ∃ index, Numbered index k.index ∧ l = frameStart :: (k.name ++ index ++ [frameEnd])

theorem numeral_cons (c : Char) (digits : Text) :
    numeral (c :: digits) = numeral digits + 10 ^ digits.length * (c.toNat - '0'.toNat) := by
  simp [numeral, Nat.ofDigits_append]

theorem of_digit_chars_eq (digits : Text) (n : Nat) :
    Nat.ofDigitChars 10 digits n = 10 ^ digits.length * n + numeral digits := by
  induction digits generalizing n with
  | nil => simp [Nat.ofDigitChars, numeral]
  | cons c digits ih =>
    rw [Nat.ofDigitChars_cons, ih, numeral_cons, List.length_cons, Nat.pow_succ]
    ring

theorem read_digits_iff {digits : Text} {n : Nat} :
    readDigits? digits = some n ↔
      digits ≠ [] ∧ (∀ c ∈ digits, c.isDigit = true) ∧ numeral digits = n ∧ n < 2 ^ 64 := by
  have hvalue : Nat.ofDigitChars 10 digits 0 = numeral digits := by simp [of_digit_chars_eq]
  have hlimit : indexLimit = 2 ^ 64 := rfl
  simp only [readDigits?, hvalue, hlimit, Option.ite_none_right_eq_some, Bool.and_eq_true,
    Bool.not_eq_true', List.isEmpty_eq_false_iff, List.all_eq_true, decide_eq_true_eq,
    Option.some.injEq]
  constructor
  · rintro ⟨⟨⟨hne, hall⟩, hlt⟩, rfl⟩
    exact ⟨hne, hall, rfl, hlt⟩
  · rintro ⟨hne, hall, rfl, hlt⟩
    exact ⟨⟨⟨hne, hall⟩, hlt⟩, rfl⟩

/-- A sign is no digit, so it is taken off before digits are read and never with them. -/
theorem read_index_signed {sign digits : Text} (hsign : sign = [] ∨ sign = ['+'])
    (hall : ∀ c ∈ digits, c.isDigit = true) :
    readIndex? (sign ++ digits) = readDigits? digits := by
  rcases hsign with rfl | rfl
  · rw [List.nil_append]
    unfold readIndex?
    split
    · next others =>
      have hplus : '+'.isDigit = true := hall '+' List.mem_cons_self
      exact absurd hplus (by decide)
    · rfl
  · rfl

theorem read_index_iff {t : Text} {n : Nat} : readIndex? t = some n ↔ Numbered t n := by
  constructor
  · intro h
    unfold readIndex? at h
    split at h
    · next digits =>
      obtain ⟨hne, hall, hvalue, hlt⟩ := read_digits_iff.mp h
      exact ⟨['+'], digits, Or.inr rfl, hne, hall, hvalue, hlt, rfl⟩
    · obtain ⟨hne, hall, hvalue, hlt⟩ := read_digits_iff.mp h
      exact ⟨[], t, Or.inl rfl, hne, hall, hvalue, hlt, rfl⟩
  · rintro ⟨sign, digits, hsign, hne, hall, hvalue, hlt, rfl⟩
    rw [read_index_signed hsign hall]
    exact read_digits_iff.mpr ⟨hne, hall, hvalue, hlt⟩

theorem of_line_named (k : Token) (index : Text) :
    ofLine? (frameStart :: (k.name ++ index ++ [frameEnd])) =
      (readIndex? index).map k.withIndex := by
  cases k with
  | code i => exact of_line_code (drop_prefix_append codeName index)
  | table i =>
    have hcode : dropPrefix? codeName (tableName ++ index) = none := rfl
    exact of_line_table hcode (drop_prefix_append tableName index)

theorem of_line_iff {l : Line} {k : Token} : ofLine? l = some k ↔ Spelled l k := by
  constructor
  · intro h
    simp only [ofLine?, Option.bind_eq_bind, Option.bind_eq_some_iff, dropPrefix?_eq_some_iff,
      dropSuffix?_eq_some_iff] at h
    obtain ⟨rest, rfl, inner, rfl, h⟩ := h
    split at h
    · next index hname =>
      obtain ⟨n, hn, rfl⟩ := Option.map_eq_some_iff.mp h
      rw [dropPrefix?_eq_some_iff.mp hname]
      exact ⟨index, read_index_iff.mp hn, rfl⟩
    · split at h
      · next index hname =>
        obtain ⟨n, hn, rfl⟩ := Option.map_eq_some_iff.mp h
        rw [dropPrefix?_eq_some_iff.mp hname]
        exact ⟨index, read_index_iff.mp hn, rfl⟩
      · cases h
  · rintro ⟨index, hindex, rfl⟩
    rw [of_line_named, read_index_iff.mpr hindex, Option.map_some]
    cases k <;> rfl

/-- Tokens are read back from their lines, and no two of them have one line. A line is read as a
token exactly if it spells the token, so a line that spells none is read as none; a number of more
than 64 bits is no index, whatever else the line holds. -/
theorem tokens_spelled :
    (∀ k : Token, k.index < 2 ^ 64 → ofLine? k.toLine = some k) ∧
    (∀ k k' : Token, k.toLine = k'.toLine → k = k') ∧
    (∀ l k, ofLine? l = some k ↔ Spelled l k) ∧
    (∀ l, ofLine? l = none ↔ ∀ k, ¬ Spelled l k) ∧
    ∀ (k : Token) sign digits, (sign = [] ∨ sign = ['+']) → (∀ c ∈ digits, c.isDigit = true) →
      2 ^ 64 ≤ numeral digits →
        ofLine? (frameStart :: (k.name ++ (sign ++ digits) ++ [frameEnd])) = none := by
  refine ⟨fun k hk => of_line_to_line hk, fun k k' => to_line_inj, fun l k => of_line_iff, ?_, ?_⟩
  · intro l
    rw [Option.eq_none_iff_forall_ne_some]
    exact forall_congr' fun k => not_congr of_line_iff
  · intro k sign digits hsign hall hlarge
    have hnone : readDigits? digits = none := by
      rw [Option.eq_none_iff_forall_ne_some]
      intro n hn
      obtain ⟨-, -, rfl, hlt⟩ := read_digits_iff.mp hn
      omega
    rw [of_line_named, read_index_signed hsign hall, hnone, Option.map_none]

/-- The largest index, read from a line with a sign and zeros in front, and the number behind it. -/
theorem tokens_spelled_at_limit :
    ofLine? (table 18446744073709551615).toLine = some (table 18446744073709551615) ∧
    ofLine? "\uE000TABLE_+0018446744073709551615\uE001".toList =
      some (table 18446744073709551615) ∧
    ofLine? "\uE000TABLE_+18446744073709551616\uE001".toList = none := by
  obtain ⟨hback, -, hread, -, hlarge⟩ := tokens_spelled
  refine ⟨hback _ (by decide), (hread _ _).mpr ?_, ?_⟩
  · have hall : ∀ c ∈ "0018446744073709551615".toList, c.isDigit = true :=
      List.all_eq_true.mp (by decide)
    have hindex : Numbered "+0018446744073709551615".toList 18446744073709551615 :=
      ⟨['+'], "0018446744073709551615".toList, Or.inr rfl, by decide, hall, by decide, by decide,
        by decide⟩
    exact ⟨_, hindex, by decide⟩
  · have hall : ∀ c ∈ "18446744073709551616".toList, c.isDigit = true :=
      List.all_eq_true.mp (by decide)
    have hline : "\uE000TABLE_+18446744073709551616\uE001".toList =
        frameStart :: ((table 0).name ++ (['+'] ++ "18446744073709551616".toList) ++ [frameEnd]) := by
      decide
    rw [hline]
    exact hlarge (table 0) ['+'] _ (Or.inr rfl) hall (by decide)

end MarkdownPage.Token
