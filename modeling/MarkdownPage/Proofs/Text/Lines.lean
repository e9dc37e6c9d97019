import MarkdownPage.Text.Lines

/-!
Lines and passes over them. A pass turns the lines of a text into pieces of text, and those pieces
may hold line ends of their own; `relined` gives the lines that come out. A pass is cut at a line
when what stands before it and what stands behind it are passed over each by itself.
-/

namespace MarkdownPage.Text

theorem mem_split_on {sep : Char} {t l : Text} (h : l ∈ t.splitOn sep) :
    sep ∉ l ∧ ∀ c ∈ l, c ∈ t := by
  induction t generalizing l with
  | nil =>
    have hl : l = [] := by simpa using h
    simp [hl]
  | cons d t ih =>
    rw [List.splitOn_cons_eq_if_modifyHead] at h
    by_cases hd : (d == sep) = true
    · rw [if_pos hd] at h
      rcases List.mem_cons.mp h with rfl | h
      · simp
      · exact ⟨(ih h).1, fun c hc => List.mem_cons_of_mem d ((ih h).2 c hc)⟩
    · rw [if_neg hd] at h
      obtain ⟨first, others, hs⟩ := List.exists_cons_of_ne_nil (List.splitOn_ne_nil sep t)
      rw [hs, List.modifyHead_cons] at h
      rcases List.mem_cons.mp h with rfl | h
      · obtain ⟨hsep, hmem⟩ := ih (by rw [hs]; exact List.mem_cons_self)
        have hne : sep ≠ d := by
          intro he
          exact hd (by simp [he])
        exact ⟨by simp [hne, hsep], List.forall_mem_cons.mpr
          ⟨List.mem_cons_self, fun c hc => List.mem_cons_of_mem d (hmem c hc)⟩⟩
      · obtain ⟨hsep, hmem⟩ := ih (by rw [hs]; exact List.mem_cons_of_mem first h)
        exact ⟨hsep, fun c hc => List.mem_cons_of_mem d (hmem c hc)⟩

theorem newline_not_mem {t : Text} {l : Line} (h : l ∈ lines t) : '\n' ∉ l :=
  (mem_split_on h).1

theorem mem_of_mem_lines {c : Char} {l : Line} {t : Text} (hl : l ∈ lines t) (hc : c ∈ l) :
    c ∈ t :=
  (mem_split_on hl).2 c hc

@[simp] theorem lines_nil : lines [] = [[]] := rfl

theorem lines_append_empty_line (s t : Text) :
    lines (s ++ "\n\n".toList ++ t) = lines s ++ [] :: lines t := by
  have happ : s ++ "\n\n".toList ++ t = s ++ '\n' :: ([] ++ '\n' :: t) := by simp
  rw [happ, lines_append_newline, lines_append_newline, lines_nil, List.singleton_append]

theorem lines_of_newline_free {l : Line} (h : '\n' ∉ l) : lines l = [l] :=
  List.splitOn_eq_singleton h

theorem lines_append_of_newline_free {lead t : Text} {first : Line} {others : List Line}
    (h : '\n' ∉ lead) (ht : lines t = first :: others) :
    lines (lead ++ t) = (lead ++ first) :: others := by
  induction lead with
  | nil => exact ht
  | cons c lead ih =>
    rw [List.mem_cons, not_or] at h
    have hc : (c == '\n') = false := beq_false_of_ne (Ne.symm h.1)
    have hlead : (lead ++ t).splitOn '\n' = (lead ++ first) :: others := ih h.2
    rw [lines, List.cons_append, List.splitOn_cons_eq_if_modifyHead, hc, hlead]
    rfl

theorem length_lines (t : Text) : (lines t).length = t.count '\n' + 1 := by
  rw [lines]
  induction t with
  | nil => rfl
  | cons c t ih =>
    rw [List.splitOn_cons_eq_if_modifyHead]
    by_cases hc : c = '\n'
    · subst hc
      simp [ih]
    · rw [if_neg (by simpa using hc), List.length_modifyHead, ih, List.count_cons_of_ne hc]

theorem length_lines_le (t : Text) : (lines t).length ≤ t.length + 1 := by
  rw [length_lines]
  exact Nat.succ_le_succ List.count_le_length

theorem intercalate_cons_flatMap (d : Char) (l : Line) (ls : List Line) :
    [d].intercalate (l :: ls) = l ++ ls.flatMap (d :: ·) := by
  induction ls generalizing l with
  | nil => simp
  | cons m ls ih =>
    rw [List.intercalate_cons_of_ne_nil (by simp), ih m, List.flatMap_cons, List.append_assoc]
    rfl

theorem intercalate_spelled {p : Char → Prop} {d : Char} (hd : p d) {ls : List Line}
    (h : ∀ l ∈ ls, ∀ c ∈ l, p c) : ∀ c ∈ [d].intercalate ls, p c := by
  cases ls with
  | nil => simp
  | cons l ls =>
    rw [List.forall_mem_cons] at h
    simp only [intercalate_cons_flatMap, List.forall_mem_append, List.forall_mem_flatMap,
      List.forall_mem_cons]
    exact ⟨h.1, fun m hm => ⟨hd, h.2 m hm⟩⟩

@[simp] theorem unlines_singleton (l : Text) : unlines [l] = l := by simp [unlines]

theorem unlines_cons {l : Line} {ls : List Line} (h : ls ≠ []) :
    unlines (l :: ls) = l ++ '\n' :: unlines ls := by
  simp [unlines, List.intercalate_cons_of_ne_nil h]

theorem unlines_append {ls ms : List Text} (h : ls ≠ []) (hm : ms ≠ []) :
    unlines (ls ++ ms) = unlines ls ++ '\n' :: unlines ms := by
  induction ls with
  | nil => exact absurd rfl h
  | cons l ls ih =>
    by_cases hls : ls = []
    · subst hls
      rw [List.singleton_append, unlines_cons hm]
      simp [unlines]
    · rw [List.cons_append, unlines_cons (by simp [hls]), ih hls, unlines_cons hls]
      simp

theorem unlines_cons_flatMap (l : Line) (ls : List Line) :
    unlines (l :: ls) = l ++ ls.flatMap ('\n' :: ·) :=
  intercalate_cons_flatMap '\n' l ls

theorem unlines_spelled {p : Char → Prop} (hn : p '\n') {ls : List Line}
    (h : ∀ l ∈ ls, ∀ c ∈ l, p c) : ∀ c ∈ unlines ls, p c :=
  intercalate_spelled hn h

theorem unlines_between (before behind : List Line) {ls : List Line} (h : ls ≠ []) :
    unlines (before ++ ls ++ behind) =
      before.flatMap (· ++ ['\n']) ++ unlines ls ++ behind.flatMap ('\n' :: ·) := by
  obtain ⟨l, ls, rfl⟩ := List.exists_cons_of_ne_nil h
  induction before with
  | nil => simp [unlines_cons_flatMap]
  | cons m before ih =>
    rw [List.cons_append, List.cons_append, unlines_cons (by simp), ih]
    simp

theorem intercalate_concat (d : Char) (ls : List Line) (last : Line) :
    [d].intercalate (ls ++ [last]) = ls.flatMap (· ++ [d]) ++ last := by
  induction ls with
  | nil => simp
  | cons l ls ih =>
    rw [List.cons_append, List.intercalate_cons_of_ne_nil (by simp), ih, List.flatMap_cons]
    simp

theorem unlines_concat (ls : List Line) (last : Line) :
    unlines (ls ++ [last]) = ls.flatMap (· ++ ['\n']) ++ last :=
  intercalate_concat '\n' ls last

theorem lines_append_tail {t tail : Text} {ls : List Line} {last : Line} (h : '\n' ∉ tail)
    (ht : lines t = ls ++ [last]) : lines (t ++ tail) = ls ++ [last ++ tail] := by
  have hfree : ∀ l ∈ ls ++ [last], '\n' ∉ l := by
    intro l hl
    exact newline_not_mem (ht ▸ hl)
  rw [List.forall_mem_append, List.forall_mem_singleton] at hfree
  have htail : t ++ tail = unlines (ls ++ [last ++ tail]) := by
    rw [← unlines_lines t, ht, unlines_concat, unlines_concat, List.append_assoc]
  rw [htail]
  refine lines_unlines ?_ (by simp)
  rw [List.forall_mem_append, List.forall_mem_singleton]
  exact ⟨hfree.1, by simp [hfree.2, h]⟩

theorem lines_unlines_flatMap {ts : List Text} (h : ts ≠ []) :
    lines (unlines ts) = ts.flatMap lines := by
  induction ts with
  | nil => exact absurd rfl h
  | cons t ts ih =>
    by_cases hts : ts = []
    · simp [hts, unlines]
    · rw [unlines_cons hts, lines_append_newline, ih hts, List.flatMap_cons]

def relined (pass : List Line → List Text) (ls : List Line) : List Line := (pass ls).flatMap lines

theorem flat_map_lines {ts : List Text} (h : ∀ t ∈ ts, '\n' ∉ t) : ts.flatMap lines = ts := by
  induction ts with
  | nil => rfl
  | cons t ts ih =>
    rw [List.forall_mem_cons] at h
    rw [List.flatMap_cons, lines_of_newline_free h.1, ih h.2, List.singleton_append]

theorem relined_of_newline_free {pass : List Line → List Text} {ls : List Line}
    (h : ∀ t ∈ pass ls, '\n' ∉ t) : relined pass ls = pass ls :=
  flat_map_lines h

theorem newline_not_mem_relined {pass : List Line → List Text} {ls : List Line} {l : Line}
    (h : l ∈ relined pass ls) : '\n' ∉ l := by
  obtain ⟨t, -, hl⟩ := List.mem_flatMap.mp h
  exact newline_not_mem hl

theorem relined_spelled {p : Char → Prop} {pass : List Line → List Text} {ls : List Line}
    (h : ∀ t ∈ pass ls, ∀ c ∈ t, p c) : ∀ l ∈ relined pass ls, ∀ c ∈ l, p c := by
  intro l hl c hc
  obtain ⟨t, ht, hl⟩ := List.mem_flatMap.mp hl
  exact h t ht c (mem_of_mem_lines hl hc)

theorem lines_overLines {pass : List Line → List Text} {t : Text} (h : pass (lines t) ≠ []) :
    lines (overLines pass t) = relined pass (lines t) :=
  lines_unlines_flatMap h

/-- The pass is cut at the line `l`, and gives `a` for it. -/
def CutsAt {α : Type} (pass : List Line → List α) (l : Line) (a : α) : Prop :=
  ∀ before behind, pass (before ++ l :: behind) = pass before ++ a :: pass behind

section Cuts

variable {α β : Type} {l : Line}

theorem cuts_at_map (f : Line → α) (l : Line) : CutsAt (List.map f) l (f l) := by
  intro before behind
  rw [List.map_append, List.map_cons]

theorem CutsAt.map {pass : List Line → List α} {a : α} (h : CutsAt pass l a) (f : α → β) :
    CutsAt (fun ls => (pass ls).map f) l (f a) := by
  intro before behind
  simp only [h before behind, List.map_append, List.map_cons]

theorem CutsAt.flatMap {pass : List Line → List α} {a : α} {f : α → List β} {b : β}
    (h : CutsAt pass l a) (hf : f a = [b]) : CutsAt (fun ls => (pass ls).flatMap f) l b := by
  intro before behind
  simp only [h before behind, List.flatMap_append, List.flatMap_cons, hf, List.singleton_append]

theorem CutsAt.relined {pass : List Line → List Text} {a : Text} (h : CutsAt pass l a)
    (ha : '\n' ∉ a) : CutsAt (relined pass) l a :=
  h.flatMap (lines_of_newline_free ha)

theorem CutsAt.comp {first : List Line → List Line} {second : List Line → List α} {m : Line}
    {a : α} (h : CutsAt second m a) (hf : CutsAt first l m) : CutsAt (second ∘ first) l a := by
  intro before behind
  rw [Function.comp_apply, hf before behind, h]
  rfl

end Cuts

end MarkdownPage.Text
