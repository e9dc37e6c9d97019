import Mathlib.Data.Bool.AllAny
import MarkdownPage.Fragment.Token
import MarkdownPage.Heading
import MarkdownPage.ItemList
import MarkdownPage.Table.Run
import MarkdownPage.Proofs.Html.Tags

/-!
Token lines among other lines. A token is read back from its line, and from no line without frames.
Since a token line begins with a frame, no block rule sees anything in it: it is neither blank nor a
row, a heading or an item.
-/

namespace MarkdownPage.Token

open Text

def index : Token → Nat
  | code i => i
  | table i => i

/-- No character of the text frames a token. -/
def Unframed (t : Text) : Prop := ∀ c ∈ t, isFrame c = false

instance (t : Text) : Decidable (Unframed t) := List.decidableBAll (isFrame · = false) t

theorem unframed_erase_frames (t : Text) : Unframed (eraseFrames t) :=
  fun _ hc => not_isFrame_of_mem_eraseFrames hc

theorem erase_frames_cons {c : Char} (h : isFrame c = false) (t : Text) :
    eraseFrames (c :: t) = c :: eraseFrames t := by
  simp [eraseFrames, h]

theorem erase_frames_frame {c : Char} (h : isFrame c = true) (t : Text) :
    eraseFrames (c :: t) = eraseFrames t := by
  simp [eraseFrames, h]

theorem erase_frames_unframed {t : Text} (h : Unframed t) : eraseFrames t = t := by
  apply List.filter_eq_self.mpr
  intro c hc
  simp [h c hc]

theorem read_digits_to_digits {i : Nat} (h : i < indexLimit) :
    readDigits? (Nat.toDigits 10 i) = some i := by
  have hall : (Nat.toDigits 10 i).all Char.isDigit = true :=
    List.all_eq_true.mpr fun c hc => Nat.isDigit_of_mem_toDigits (by decide) (by decide) hc
  simp [readDigits?, Nat.ofDigitChars_ten_toDigits, hall, h, Nat.toDigits_ne_nil]

theorem read_index_to_digits {i : Nat} (h : i < indexLimit) :
    readIndex? (Nat.toDigits 10 i) = some i := by
  rw [← read_digits_to_digits h]
  unfold readIndex?
  split
  · next digits hd =>
    have hplus : '+'.isDigit = true :=
      Nat.isDigit_of_mem_toDigits (b := 10) (n := i) (by decide) (by decide) (by simp [hd])
    exact absurd hplus (by decide)
  · rfl

theorem drop_prefix_append (lead rest : Text) : dropPrefix? lead (lead ++ rest) = some rest :=
  dropPrefix?_eq_some_iff.mpr rfl

theorem drop_frames (s : Text) :
    dropPrefix? [frameStart] (frameStart :: (s ++ [frameEnd])) = some (s ++ [frameEnd]) ∧
      dropSuffix? [frameEnd] (s ++ [frameEnd]) = some s :=
  ⟨drop_prefix_append [frameStart] (s ++ [frameEnd]), dropSuffix?_eq_some_iff.mpr rfl⟩

theorem of_line_code {s digits : Text} (h : dropPrefix? codeName s = some digits) :
    ofLine? (frameStart :: (s ++ [frameEnd])) = (readIndex? digits).map code := by
  obtain ⟨hstart, hend⟩ := drop_frames s
  simp [ofLine?, hstart, hend, h]

theorem of_line_table {s digits : Text} (hcode : dropPrefix? codeName s = none)
    (h : dropPrefix? tableName s = some digits) :
    ofLine? (frameStart :: (s ++ [frameEnd])) = (readIndex? digits).map table := by
  obtain ⟨hstart, hend⟩ := drop_frames s
  simp [ofLine?, hstart, hend, hcode, h]

theorem of_line_to_line {k : Token} (h : k.index < indexLimit) : ofLine? k.toLine = some k := by
  cases k with
  | code i =>
    have hi : readIndex? (Nat.toDigits 10 i) = some i := read_index_to_digits h
    have hname := drop_prefix_append codeName (Nat.toDigits 10 i)
    refine (of_line_code hname).trans ?_
    rw [hi, Option.map_some]
  | table i =>
    have hi : readIndex? (Nat.toDigits 10 i) = some i := read_index_to_digits h
    have hcode : dropPrefix? codeName (tableName ++ Nat.toDigits 10 i) = none := rfl
    have hname := drop_prefix_append tableName (Nat.toDigits 10 i)
    refine (of_line_table hcode hname).trans ?_
    rw [hi, Option.map_some]

theorem of_line_unframed {l : Line} (h : Unframed l) : ofLine? l = none := by
  cases l with
  | nil => rfl
  | cons c l =>
    have hc : frameStart ≠ c := by
      rintro rfl
      exact absurd (h frameStart List.mem_cons_self) (by decide)
    simp [ofLine?, dropPrefix?_cons_ne hc]

theorem index_spelled {t : Text} {n : Nat} (h : readIndex? t = some n) :
    ∀ c ∈ t, c = '+' ∨ c.isDigit = true := by
  have hdigits : ∀ {s : Text}, readDigits? s = some n → ∀ c ∈ s, c.isDigit = true := by
    intro s hs
    simp only [readDigits?, Option.ite_none_right_eq_some, Bool.and_eq_true] at hs
    exact List.all_eq_true.mp hs.1.1.2
  intro c hc
  unfold readIndex? at h
  split at h
  · exact (List.mem_cons.mp hc).imp_right (hdigits h c)
  · exact Or.inr (hdigits h c hc)

theorem of_line_framed {l : Line} {k : Token} (h : ofLine? l = some k) :
    ∃ name index n, (name = codeName ∨ name = tableName) ∧ readIndex? index = some n ∧
      l = frameStart :: (name ++ index ++ [frameEnd]) := by
  simp only [ofLine?, Option.bind_eq_bind, Option.bind_eq_some_iff, dropPrefix?_eq_some_iff,
    dropSuffix?_eq_some_iff] at h
  obtain ⟨rest, rfl, inner, rfl, h⟩ := h
  split at h
  · next index hindex =>
    obtain ⟨n, hn, -⟩ := Option.map_eq_some_iff.mp h
    exact ⟨codeName, index, n, Or.inl rfl, hn, by rw [dropPrefix?_eq_some_iff.mp hindex]; rfl⟩
  · split at h
    · next index hindex =>
      obtain ⟨n, hn, -⟩ := Option.map_eq_some_iff.mp h
      exact ⟨tableName, index, n, Or.inr rfl, hn, by rw [dropPrefix?_eq_some_iff.mp hindex]; rfl⟩
    · cases h

theorem of_line_no_markup {l : Line} {k : Token} (h : ofLine? l = some k) :
    ∀ c ∈ l, c ∉ "<>&\"".toList := by
  have hmarkup : ∀ c ∈ "<>&\"".toList, c ≠ frameStart ∧ c ≠ frameEnd ∧ c ∉ codeName ∧
      c ∉ tableName ∧ c ≠ '+' ∧ c.isDigit = false :=
    List.all_iff_forall_prop.mp (by decide)
  obtain ⟨name, index, n, hname, hindex, rfl⟩ := of_line_framed h
  intro c hc hother
  obtain ⟨hstart, hend, hcode, htable, hplus, hdigit⟩ := hmarkup c hother
  have hmem : c ∈ name ∨ c ∈ index := by simpa [hstart, hend] using hc
  rcases hmem with hmem | hmem
  · rcases hname with rfl | rfl
    · exact hcode hmem
    · exact htable hmem
  · rcases index_spelled hindex c hmem with rfl | hc
    · exact hplus rfl
    · rw [hdigit] at hc
      cases hc

theorem enclose_no_token (tag content : Text) : ofLine? (Html.enclose tag content) = none := by
  rw [Html.enclose_framed, ofLine?, dropPrefix?_cons_ne (by decide)]
  rfl

theorem to_line_framed (k : Token) : ∃ s, k.toLine = frameStart :: (s ++ [frameEnd]) := by
  cases k with
  | code i => exact ⟨codeName ++ Nat.toDigits 10 i, rfl⟩
  | table i => exact ⟨tableName ++ Nat.toDigits 10 i, rfl⟩

theorem to_line_not_unframed (k : Token) : ¬ Unframed k.toLine := by
  obtain ⟨s, hs⟩ := k.to_line_framed
  intro h
  have hframe := h frameStart (by rw [hs]; exact List.mem_cons_self)
  exact absurd hframe (by decide)

theorem index_inj (name : Text) {i j : Nat}
    (h : name ++ Nat.toDigits 10 i ++ [frameEnd] = name ++ Nat.toDigits 10 j ++ [frameEnd]) :
    i = j := by
  have hdigits := List.append_cancel_left (List.append_cancel_right h)
  have hread := congrArg (Nat.ofDigitChars 10 · 0) hdigits
  simpa only [Nat.ofDigitChars_ten_toDigits] using hread

theorem code_line_ne_table_line (i j : Nat) : (code i).toLine ≠ (table j).toLine := by
  intro h
  have hname : some 'C' = some 'T' := congrArg (fun l : Line => l[1]?) h
  exact absurd hname (by decide)

theorem to_line_inj {k k' : Token} (h : k.toLine = k'.toLine) : k = k' := by
  cases k with
  | code i =>
    cases k' with
    | code j => exact congrArg code (index_inj codeName (List.cons.inj h).2)
    | table j => exact absurd h (code_line_ne_table_line i j)
  | table i =>
    cases k' with
    | code j => exact absurd h.symm (code_line_ne_table_line j i)
    | table j => exact congrArg table (index_inj tableName (List.cons.inj h).2)

theorem trim_to_line (k : Token) : trim k.toLine = k.toLine := by
  obtain ⟨s, hs⟩ := k.to_line_framed
  rw [hs]
  exact trim_framed (by decide) (by decide) s

theorem to_line_not_blank (k : Token) : isBlank k.toLine = false := by
  obtain ⟨s, hs⟩ := k.to_line_framed
  rw [hs]
  simp [isBlank, show isSpace frameStart = false by decide]

theorem to_line_no_run (k : Token) : Table.continuesRun k.toLine = false := by
  obtain ⟨s, hs⟩ := k.to_line_framed
  have hrow : Table.isRow k.toLine = false := by
    rw [hs]
    simp [Table.isRow, show frameStart ≠ '|' by decide]
  have hsep : Table.isSeparator k.toLine = false := by
    rw [hs, Table.isSeparator, dropPrefix?_cons_ne (by decide)]
    rfl
  simp [Table.continuesRun, Table.startsRun, k.trim_to_line, hrow, hsep, k.to_line_not_blank]

theorem to_line_no_heading (k : Token) : Heading.ofLine? k.toLine = none := by
  obtain ⟨s, hs⟩ := k.to_line_framed
  rw [hs]
  simp [Heading.ofLine?, Html.Level.ofNat?, show frameStart ≠ '#' by decide]

theorem to_line_no_item (k : Token) : Item.ofLine? k.toLine = none := by
  obtain ⟨s, hs⟩ := k.to_line_framed
  have hmarker : Item.marker? k.toLine = none := by
    rw [hs, Item.marker?, if_neg (by decide), Item.afterNumber?]
    simp [show frameStart.isDigit = false by decide]
  simp [Item.ofLine?, k.trim_to_line, hmarker]

theorem to_line_newline_free (k : Token) : '\n' ∉ k.toLine := by
  have hdigits (i : Nat) : '\n' ∉ Nat.toDigits 10 i := fun h =>
    absurd (Nat.isDigit_of_mem_toDigits (by decide) (by decide) h) (by decide)
  have hframes : '\n' ≠ frameStart ∧ '\n' ≠ frameEnd := by decide
  have hnames : '\n' ∉ codeName ∧ '\n' ∉ tableName := by decide
  cases k <;> simp [toLine, hdigits, hframes, hnames]

end MarkdownPage.Token
