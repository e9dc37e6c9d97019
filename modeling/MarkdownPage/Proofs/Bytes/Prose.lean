import MarkdownPage.Proofs.Bytes.Span
import MarkdownPage.Proofs.Span.Prose

/-!
The pass over the lines of a text that marks its spans. It keeps the place where the next line
begins and the place where the open run of prose began, and cuts the run out of the text when it
ends. Main statements: the invariant `At`, which each line keeps, and `mark_up_eq`, by which the pass
never fails and gives the marked text.
-/

namespace MarkdownPage.Bytes

open Text MarkdownPage.Span

structure Pass where
  written : List Text := []
  /-- Where the run of prose begins that is still open. -/
  runStart : Option Nat := none
  /-- Where the next line begins. -/
  offset : Nat := 0

section Pass

variable (e : Html.Escaping) (input : Text)

/-- The open run of prose is written without the line end behind it. -/
def closeRun (p : Pass) : Checked (List Text) :=
  match p.runStart with
  | none => .ok p.written
  | some start => do
    let stop ← minus p.offset 1
    let run ← slice input start stop
    let markup ← markAll e run
    .ok (p.written ++ [markup])

def lineMarkup (l : Line) : Checked Text := if isToken l then .ok l else markAll e l

def passLine (p : Pass) (l : Line) : Checked Pass :=
  let offset := p.offset + (byteLength l + 1)
  if standsAlone l then do
    let written ← closeRun e input p
    let markup ← lineMarkup e l
    .ok ⟨written ++ [markup], none, offset⟩
  else .ok { p with runStart := p.runStart <|> some p.offset, offset := offset }

/-- A run that is open at the end goes on to the end of the text. -/
def finishPass (p : Pass) : Checked (List Text) :=
  match p.runStart with
  | none => .ok p.written
  | some start => do
    let run ← sliceFrom input start
    let markup ← markAll e run
    .ok (p.written ++ [markup])

def markUp : Checked Text := do
  let p ← (lines input).foldlM (passLine e input) {}
  let written ← finishPass e input p
  .ok (unlines written)

end Pass

def ended (ls : List Line) : Text := ls.flatMap (· ++ ['\n'])

/-- The pass has written all lines of `settled`, holds those of `pending` as an open run of prose, and
has those of `behind` ahead. -/
structure Pass.At (e : Html.Escaping) (input : Text) (p : Pass)
    (settled pending behind : List Line) : Prop where
  whole : lines input = settled ++ pending ++ behind
  prose : ∀ l ∈ pending, standsAlone l = false
  runStart : p.runStart = if pending = [] then none else some (byteLength (ended settled))
  offset : p.offset = byteLength (ended settled) + byteLength (ended pending)
  written : ∀ tail, markUpPieces e (settled ++ (pending ++ tail)) =
    p.written ++ markUpPieces e (pending ++ tail)

section At

variable {e : Html.Escaping} {input : Text} {p : Pass} {settled pending behind : List Line}

theorem pass_at_start (e : Html.Escaping) (input : Text) :
    Pass.At e input {} [] [] (lines input) where
  whole := rfl
  prose := nofun
  runStart := rfl
  offset := rfl
  written _ := rfl

theorem ended_append (ls ms : List Line) : ended (ls ++ ms) = ended ls ++ ended ms :=
  List.flatMap_append

theorem ended_eq {ls : List Line} (h : ls ≠ []) : ended ls = unlines ls ++ ['\n'] := by
  have hconcat := unlines_concat ls []
  rwa [unlines_append h (List.cons_ne_nil [] []), List.append_nil, unlines_singleton, eq_comm]
    at hconcat

section Run

variable (h : p.At e input settled pending behind)

include h

theorem no_run (hstart : p.runStart = none) : pending = [] := by
  rw [h.runStart] at hstart
  by_contra hne
  rw [if_neg hne] at hstart
  cases hstart

variable {start : Nat} (hstart : p.runStart = some start)

include hstart

theorem run_start : pending ≠ [] ∧ start = byteLength (ended settled) := by
  rw [h.runStart] at hstart
  by_cases hnil : pending = []
  · rw [if_pos hnil] at hstart
    cases hstart
  · rw [if_neg hnil] at hstart
    exact ⟨hnil, (Option.some.inj hstart).symm⟩

theorem run_offset : p.offset = start + byteLength (unlines pending) + 1 := by
  obtain ⟨hne, rfl⟩ := run_start h hstart
  rw [h.offset, ended_eq hne, byte_length_concat (by decide), Nat.add_assoc]

theorem run_whole :
    input = ended settled ++ unlines pending ++ behind.flatMap ('\n' :: ·) := by
  rw [← unlines_lines input, h.whole]
  exact unlines_between settled behind (run_start h hstart).1

theorem run_markup : markUpPieces e pending = [Span.markAll e (unlines pending)] :=
  mark_up_pieces_prose e (run_start h hstart).1 fun l hl => of_line_prose (h.prose l hl)

end Run

theorem close_run_eq (h : p.At e input settled pending behind) :
    closeRun e input p = .ok (p.written ++ markUpPieces e pending) := by
  rw [closeRun]
  cases hstart : p.runStart with
  | none =>
    rw [no_run h hstart]
    exact congrArg Except.ok (List.append_nil p.written).symm
  | some start =>
    have hslice := slice_between (ended settled) (unlines pending) (behind.flatMap ('\n' :: ·))
    rw [← run_whole h hstart, ← (run_start h hstart).2] at hslice
    simp only [run_offset h hstart, minus_add, hslice, mark_all_eq, ok_bind, run_markup h hstart]

theorem finish_pass_eq (h : p.At e input settled pending []) :
    finishPass e input p = .ok (p.written ++ markUpPieces e pending) := by
  rw [finishPass]
  cases hstart : p.runStart with
  | none =>
    rw [no_run h hstart]
    exact congrArg Except.ok (List.append_nil p.written).symm
  | some start =>
    have hwhole := run_whole h hstart
    rw [List.flatMap_nil, List.append_nil] at hwhole
    have hslice := slice_from_append (ended settled) (unlines pending)
    rw [← hwhole, ← (run_start h hstart).2] at hslice
    simp only [hslice, mark_all_eq, ok_bind, run_markup h hstart]

theorem line_markup_eq (e : Html.Escaping) {l : Line} (halone : standsAlone l = true) :
    lineMarkup e l = .ok ((Piece.ofLine l).toHtml e) := by
  rw [lineMarkup]
  by_cases htoken : isToken l = true
  · rw [if_pos htoken, Piece.ofLine, if_pos htoken]
    rfl
  · rw [if_neg htoken, mark_all_eq, of_line_alone (by simpa using htoken) halone]
    rfl

theorem alone_not_prose {l : Line} (halone : standsAlone l = true) :
    (Piece.ofLine l).isProse = false := by
  rw [Piece.ofLine]
  split <;> rfl

theorem next_offset (h : p.At e input settled pending behind) (l : Line) :
    p.offset + (byteLength l + 1) =
      byteLength (ended settled) + byteLength (ended (pending ++ [l])) := by
  have hl : ended [l] = l ++ ['\n'] := List.flatMap_singleton _ l
  rw [h.offset, ended_append, hl, byte_length_append, byte_length_concat (by decide), Nat.add_assoc]

theorem pass_alone {l : Line} (h : p.At e input settled pending (l :: behind))
    (halone : standsAlone l = true) :
    ∃ p', passLine e input p l = .ok p' ∧ p'.At e input (settled ++ pending ++ [l]) [] behind := by
  refine ⟨⟨p.written ++ markUpPieces e pending ++ [(Piece.ofLine l).toHtml e], none,
    p.offset + (byteLength l + 1)⟩, ?_, ?_⟩
  · rw [passLine, if_pos halone]
    simp only [close_run_eq h, line_markup_eq e halone, ok_bind]
  · constructor
    case whole =>
      rw [h.whole]
      simp
    case prose => nofun
    case runStart => rfl
    case offset =>
      rw [next_offset h, List.append_assoc settled, ended_append settled, byte_length_append]
      rfl
    case written =>
      -- The line cuts the pieces, so those of the run do not depend on what follows.
      intro tail
      have hcut := cuts_at e (alone_not_prose halone)
      have hwritten := h.written (l :: tail)
      rw [hcut pending tail] at hwritten
      simpa using hwritten

theorem pass_prose {l : Line} (h : p.At e input settled pending (l :: behind))
    (halone : ¬ standsAlone l = true) :
    ∃ p', passLine e input p l = .ok p' ∧ p'.At e input settled (pending ++ [l]) behind := by
  refine ⟨{ p with
    runStart := p.runStart <|> some p.offset, offset := p.offset + (byteLength l + 1) }, ?_, ?_⟩
  · rw [passLine, if_neg halone]
  · constructor
    case whole =>
      rw [h.whole]
      simp
    case prose =>
      rw [List.forall_mem_append, List.forall_mem_singleton]
      exact ⟨h.prose, by simpa using halone⟩
    case runStart =>
      rw [if_neg (by simp)]
      simp only
      cases hstart : p.runStart with
      | none =>
        rw [h.offset, no_run h hstart]
        rfl
      | some start => rw [(run_start h hstart).2]; rfl
    case offset => exact next_offset h l
    case written =>
      intro tail
      rw [List.append_assoc]
      exact h.written (l :: tail)

/-- Any line can be passed, and keeps the invariant. -/
theorem pass_line_at {l : Line} (h : p.At e input settled pending (l :: behind)) :
    ∃ p' settled' pending',
      passLine e input p l = .ok p' ∧ p'.At e input settled' pending' behind := by
  by_cases halone : standsAlone l = true
  · obtain ⟨p', hp', hat⟩ := pass_alone h halone
    exact ⟨p', _, _, hp', hat⟩
  · obtain ⟨p', hp', hat⟩ := pass_prose h halone
    exact ⟨p', _, _, hp', hat⟩

theorem pass_lines_at {ls : List Line} (h : p.At e input settled pending (ls ++ behind)) :
    ∃ p' settled' pending',
      ls.foldlM (passLine e input) p = .ok p' ∧ p'.At e input settled' pending' behind := by
  induction ls generalizing p settled pending with
  | nil => exact ⟨p, settled, pending, rfl, h⟩
  | cons l ls ih =>
    obtain ⟨p', settled', pending', hp', hat⟩ := pass_line_at h
    rw [List.foldlM_cons, hp', ok_bind]
    exact ih hat

end At

theorem mark_up_eq (e : Html.Escaping) (input : Text) :
    markUp e input = .ok (Span.markUp e input) := by
  have hstart := pass_at_start e input
  rw [← List.append_nil (lines input)] at hstart
  obtain ⟨p, settled, pending, hp, hat⟩ := pass_lines_at hstart
  have hwhole := hat.whole
  have hwritten := hat.written []
  rw [List.append_nil] at hwhole hwritten
  rw [markUp, hp, ok_bind, finish_pass_eq hat, ok_bind, ← hwritten, ← hwhole, mark_up_eq_unlines]

/-- The places of a run of prose that began at `start` are in order, in range and between
characters, and the line end behind it can be left out. -/
structure Pass.RunPlaced (input : Text) (p : Pass) (start : Nat) : Prop where
  offset_pos : 1 ≤ p.offset
  start_le_stop : start ≤ p.offset - 1
  stop_le : p.offset - 1 ≤ byteLength input
  start_boundary : IsBoundary input start
  stop_boundary : IsBoundary input (p.offset - 1)

theorem run_placed {e : Html.Escaping} {input : Text} {p : Pass}
    {settled pending behind : List Line} (h : p.At e input settled pending behind) {start : Nat}
    (hstart : p.runStart = some start) : p.RunPlaced input start := by
  obtain ⟨-, hsettled⟩ := run_start h hstart
  have hoffset := run_offset h hstart
  have hwhole := run_whole h hstart
  have hlength := congrArg byteLength hwhole
  rw [byte_length_append, byte_length_append, ← hsettled] at hlength
  have hstop : p.offset - 1 = byteLength (ended settled ++ unlines pending) := by
    rw [byte_length_append]
    omega
  constructor
  case offset_pos => omega
  case start_le_stop => omega
  case stop_le => omega
  case start_boundary =>
    rw [hsettled, hwhole, List.append_assoc]
    exact is_boundary_append (ended settled) _
  case stop_boundary =>
    rw [hstop, hwhole]
    exact is_boundary_append (ended settled ++ unlines pending) _

theorem pass_placed (e : Html.Escaping) (input : Text) {before behind : List Line}
    (h : lines input = before ++ behind) :
    ∃ p, before.foldlM (passLine e input) {} = .ok p ∧
      ∀ start ∈ p.runStart, p.RunPlaced input start := by
  have hat := pass_at_start e input
  rw [h] at hat
  obtain ⟨p, settled, pending, hp, hat⟩ := pass_lines_at hat
  exact ⟨p, hp, fun start hstart => run_placed hat hstart⟩

end MarkdownPage.Bytes
