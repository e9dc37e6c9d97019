import MarkdownPage.Proofs.Bytes.Ascii
import MarkdownPage.Proofs.Text.Substitute

/-!
The scan of a text by places. It goes from one trigger to the next, and keeps the place up to which
the text has been copied and the place from which it goes on. Main statements: the invariant `At`,
which each round keeps, and `run_eq`, by which the scan never fails and gives what substitution gives.
-/

namespace MarkdownPage.Bytes

open Text

/-- How the scan reads what begins at a trigger, and writes what it has read. -/
structure Scanner (α : Type) where
  trigger : Char
  ascii : Ascii trigger
  /-- What is read from the trigger at a place on. -/
  read? : List UInt8 → Nat → Option α
  /-- The place behind what has been read. -/
  behind : α → Nat
  /-- The markup for what has been read from a place on. -/
  write : Text → Nat → α → Checked Text
  lt_behind : ∀ {bs start a}, read? bs start = some a → start < behind a

structure Scan where
  copied : Nat := 0
  pos : Nat := 0
  /-- Nothing is written before something has been read. -/
  written : Option Text := none

namespace Scanner

variable {α : Type} (sc : Scanner α) (line : Text)

def next? (s : Scan) : Checked (Option Nat) := do
  let ahead ← part (bytes line) s.pos (byteLength line)
  .ok ((findByte sc.trigger ahead).map (s.pos + ·))

def visit (s : Scan) (start : Nat) : Checked Scan :=
  match sc.read? (bytes line) start with
  | none => .ok { s with pos := start + 1 }
  | some a => do
    let passed ← slice line s.copied start
    let markup ← sc.write line start a
    .ok ⟨sc.behind a, sc.behind a, some (s.written.getD [] ++ passed ++ markup)⟩

def round (s : Scan) : Checked (Option Scan) := do
  match ← sc.next? line s with
  | none => .ok none
  | some start => do
    let s' ← sc.visit line s start
    .ok (some s')

theorem next_bounds {s : Scan} {start : Nat} (h : sc.next? line s = .ok (some start)) :
    s.pos ≤ start ∧ start < byteLength line := by
  obtain ⟨ahead, hpart, h⟩ := bind_eq_ok.mp h
  obtain ⟨lead, tail, hline, hpos, hstop⟩ := part_eq_ok hpart
  rw [Except.ok.injEq, Option.map_eq_some_iff] at h
  obtain ⟨n, hn, rfl⟩ := h
  have hlt : n < ahead.length := (List.findIdx?_eq_some_iff_getElem.mp hn).1
  omega

theorem visit_advances {s s' : Scan} {start : Nat} (h : sc.visit line s start = .ok s') :
    start < s'.pos := by
  rw [visit] at h
  split at h
  · cases h
    exact Nat.lt_succ_self start
  · next a hread =>
    obtain ⟨passed, -, h⟩ := bind_eq_ok.mp h
    obtain ⟨markup, -, h⟩ := bind_eq_ok.mp h
    cases h
    exact sc.lt_behind hread

theorem round_eq_ok_some {s s' : Scan} (h : sc.round line s = .ok (some s')) :
    ∃ start, sc.next? line s = .ok (some start) ∧ sc.visit line s start = .ok s' := by
  obtain ⟨place, hnext, h⟩ := bind_eq_ok.mp h
  cases place with
  | none => cases h
  | some start =>
    obtain ⟨t, hvisit, h⟩ := bind_eq_ok.mp h
    cases h
    exact ⟨start, hnext, hvisit⟩

theorem round_advances {s s' : Scan} (h : sc.round line s = .ok (some s')) :
    s.pos < s'.pos ∧ s.pos < byteLength line := by
  obtain ⟨start, hnext, hvisit⟩ := sc.round_eq_ok_some line h
  have hbounds := sc.next_bounds line hnext
  have hlt := sc.visit_advances line hvisit
  omega

def finish (s : Scan) : Checked Text :=
  match s.written with
  | none => .ok line
  | some written => do
    let passed ← sliceFrom line s.copied
    .ok (written ++ passed)

def runFrom (s : Scan) : Checked Text :=
  match h : sc.round line s with
  | .error fault => .error fault
  | .ok none => finish line s
  | .ok (some s') =>
    have := sc.round_advances line h
    runFrom s'
termination_by byteLength line - s.pos
decreasing_by omega

def run : Checked Text := sc.runFrom line {}

/-- The states that the scan of a text comes through. -/
inductive Reached : Scan → Prop where
  | start : Reached {}
  | round {s s' : Scan} : Reached s → sc.round line s = .ok (some s') → Reached s'

/-- At each trigger the scanner reads what the rule reads there, and writes what the rule writes. -/
structure Follows (rule : Rule) : Prop where
  foreign : ∀ c t, c ≠ sc.trigger → rule (c :: t) = none
  miss : ∀ s t, rule (sc.trigger :: t) = none →
    sc.read? (bytes (s ++ sc.trigger :: t)) (byteLength s) = none
  hit : ∀ s t m, rule (sc.trigger :: t) = some m →
    ∃ a x, sc.read? (bytes (s ++ sc.trigger :: t)) (byteLength s) = some a ∧
      sc.write (s ++ sc.trigger :: t) (byteLength s) a = .ok m.replacement ∧
      sc.trigger :: t = x ++ m.rest ∧ sc.behind a = byteLength s + byteLength x

end Scanner

/-- The scan of a line by a rule has dealt with `done`, passed over `passed` without copying it, and
has `rest` ahead. -/
structure Scan.At (rule : Rule) (line : Text) (s : Scan) (done passed rest : Text) : Prop where
  whole : line = done ++ passed ++ rest
  copied : s.copied = byteLength done
  pos : s.pos = byteLength done + byteLength passed
  unwritten : s.written = none → done = []
  result : s.written.getD [] ++ passed ++ substitute rule rest = substitute rule line

namespace Scanner

variable {α : Type} {sc : Scanner α} {rule : Rule} {line done passed rest : Text} {s : Scan}

theorem at_start (rule : Rule) (line : Text) : Scan.At rule line {} [] [] line where
  whole := rfl
  copied := rfl
  pos := rfl
  unwritten _ := rfl
  result := rfl

theorem next_none (hs : s.At rule line done passed rest) (hfree : sc.trigger ∉ rest) :
    sc.next? line s = .ok none := by
  rw [next?, hs.pos, hs.whole, ← byte_length_append, part_bytes_append, ok_bind,
    find_byte_none sc.ascii hfree]
  rfl

theorem next_some {skipped tail : Text}
    (hs : s.At rule line done passed (skipped ++ sc.trigger :: tail))
    (hfree : sc.trigger ∉ skipped) :
    sc.next? line s = .ok (some (byteLength (done ++ passed ++ skipped))) := by
  rw [next?, hs.pos, hs.whole, ← byte_length_append, part_bytes_append, ok_bind,
    find_byte sc.ascii hfree, byte_length_append (done ++ passed)]
  rfl

section Follows

variable (h : sc.Follows rule) {skipped tail : Text}
  (hs : s.At rule line done passed (skipped ++ sc.trigger :: tail)) (hfree : sc.trigger ∉ skipped)

include h hfree

theorem substitute_skipped :
    substitute rule (skipped ++ sc.trigger :: tail) =
      skipped ++ substitute rule (sc.trigger :: tail) := by
  apply substitute_skip
  intro c hc t
  apply h.foreign
  rintro rfl
  exact hfree hc

include hs

theorem visit_miss (hmiss : rule (sc.trigger :: tail) = none) :
    ∃ s', sc.visit line s (byteLength (done ++ passed ++ skipped)) = .ok s' ∧
      s'.At rule line done (passed ++ skipped ++ [sc.trigger]) tail := by
  have hwhole : line = done ++ passed ++ skipped ++ sc.trigger :: tail := by
    rw [hs.whole]
    simp
  have hread := h.miss (done ++ passed ++ skipped) tail hmiss
  rw [← hwhole] at hread
  refine ⟨{ s with pos := byteLength (done ++ passed ++ skipped) + 1 }, ?_, ?_⟩
  · rw [visit, hread]
  · constructor
    case whole =>
      rw [hwhole]
      simp
    case copied => exact hs.copied
    case pos =>
      rw [← byte_length_append, ← List.append_assoc, ← List.append_assoc,
        byte_length_concat sc.ascii]
    case unwritten => exact hs.unwritten
    case result =>
      rw [← hs.result, substitute_skipped h hfree, substitute_none hmiss]
      simp

theorem visit_hit {m : Match (sc.trigger :: tail)} (hhit : rule (sc.trigger :: tail) = some m) :
    ∃ s' done', sc.visit line s (byteLength (done ++ passed ++ skipped)) = .ok s' ∧
      s'.At rule line done' [] m.rest := by
  have hwhole : line = done ++ passed ++ skipped ++ sc.trigger :: tail := by
    rw [hs.whole]
    simp
  obtain ⟨a, x, hread, hwrite, hx, hbehind⟩ := h.hit (done ++ passed ++ skipped) tail m hhit
  rw [← hwhole] at hread hwrite
  -- What was passed over in earlier rounds is copied together with what was skipped in this one.
  have hslice : slice line s.copied (byteLength (done ++ passed ++ skipped)) =
      .ok (passed ++ skipped) := by
    rw [hwhole, hs.copied, List.append_assoc done, byte_length_append]
    exact slice_between done (passed ++ skipped) (sc.trigger :: tail)
  have hstop : sc.behind a = byteLength (done ++ passed ++ skipped ++ x) := by
    rw [hbehind, ← byte_length_append]
  refine ⟨⟨sc.behind a, sc.behind a,
    some (s.written.getD [] ++ (passed ++ skipped) ++ m.replacement)⟩,
    done ++ passed ++ skipped ++ x, ?_, ?_⟩
  · rw [visit, hread]
    simp only [hslice, ok_bind, hwrite]
  · constructor
    case whole =>
      rw [hwhole.trans (congrArg (_ ++ ·) hx)]
      simp
    case copied => exact hstop
    case pos => exact hstop
    case unwritten => nofun
    case result =>
      rw [← hs.result, substitute_skipped h hfree, substitute_some hhit]
      simp

end Follows

/-- A round does not fail. It keeps the invariant, and only without a trigger ahead it is the last. -/
theorem round_at (h : sc.Follows rule) (hs : s.At rule line done passed rest) :
    ∃ next, sc.round line s = .ok next ∧ (next = none → sc.trigger ∉ rest) ∧
      ∀ s' ∈ next, ∃ done' passed' rest', s'.At rule line done' passed' rest' := by
  by_cases hmem : sc.trigger ∈ rest
  · obtain ⟨skipped, tail, rfl, hfree⟩ := List.eq_append_cons_of_mem hmem
    obtain ⟨s', hvisit, hs'⟩ :
        ∃ s', sc.visit line s (byteLength (done ++ passed ++ skipped)) = .ok s' ∧
          ∃ done' passed' rest', s'.At rule line done' passed' rest' := by
      cases hrule : rule (sc.trigger :: tail) with
      | none =>
        obtain ⟨s', hvisit, hs'⟩ := visit_miss h hs hfree hrule
        exact ⟨s', hvisit, _, _, _, hs'⟩
      | some m =>
        obtain ⟨s', done', hvisit, hs'⟩ := visit_hit h hs hfree hrule
        exact ⟨s', hvisit, _, _, _, hs'⟩
    refine ⟨some s', ?_, nofun, ?_⟩
    · rw [round, next_some hs hfree, ok_bind]
      simp only [hvisit, ok_bind]
    · rintro _ ⟨⟩
      exact hs'
  · refine ⟨none, ?_, fun _ => hmem, nofun⟩
    rw [round, next_none hs hmem, ok_bind]

theorem finish_eq (h : sc.Follows rule) (hs : s.At rule line done passed rest)
    (hfree : sc.trigger ∉ rest) : finish line s = .ok (substitute rule line) := by
  have hrest : substitute rule rest = rest := by
    have hskip : substitute rule (rest ++ []) = rest ++ substitute rule [] := by
      apply substitute_skip
      intro c hc t
      apply h.foreign
      rintro rfl
      exact hfree hc
    rwa [List.append_nil, substitute_nil, List.append_nil] at hskip
  have hresult := hs.result
  rw [hrest] at hresult
  rw [finish]
  cases hwritten : s.written with
  | none =>
    rw [hwritten] at hresult
    have hline := hs.whole
    rw [hs.unwritten hwritten] at hline
    rw [← hresult, hline]
    rfl
  | some written =>
    rw [hwritten] at hresult
    have hslice : sliceFrom line s.copied = .ok (passed ++ rest) := by
      rw [hs.whole, hs.copied, List.append_assoc]
      exact slice_from_append done (passed ++ rest)
    simp only [hslice, ok_bind, ← hresult, Option.getD_some, List.append_assoc]

theorem run_from_eq (h : sc.Follows rule) (hs : s.At rule line done passed rest) :
    sc.runFrom line s = .ok (substitute rule line) := by
  -- Along the rounds: the invariant is what one round hands on to the next.
  fun_induction runFrom sc line s generalizing done passed rest with
  | case1 s fault hround =>
    obtain ⟨next, hnext, -⟩ := round_at h hs
    rw [hround] at hnext
    cases hnext
  | case2 s hround =>
    obtain ⟨next, hnext, hlast, -⟩ := round_at h hs
    rw [hround] at hnext
    cases hnext
    exact finish_eq h hs (hlast rfl)
  | case3 s s' hround hadvances ih =>
    obtain ⟨next, hnext, -, hkept⟩ := round_at h hs
    rw [hround] at hnext
    cases hnext
    obtain ⟨done', passed', rest', hs'⟩ := hkept s' rfl
    exact ih hs'

/-- The scan does not fail, and gives what substitution by the rule gives. -/
theorem run_eq (h : sc.Follows rule) (line : Text) : sc.run line = .ok (substitute rule line) :=
  run_from_eq h (at_start rule line)

theorem Reached.at (h : sc.Follows rule) (hr : sc.Reached line s) :
    ∃ done passed rest, s.At rule line done passed rest := by
  induction hr with
  | start => exact ⟨[], [], line, at_start rule line⟩
  | round _ hround ih =>
    obtain ⟨done, passed, rest, hs⟩ := ih
    obtain ⟨next, hnext, -, hkept⟩ := round_at h hs
    rw [hround] at hnext
    cases hnext
    exact hkept _ rfl

/-- The places of a scan are in order, in range and between characters, and so is the place of the
next trigger. -/
structure Placed (sc : Scanner α) (line : Text) (s : Scan) : Prop where
  copied_le_pos : s.copied ≤ s.pos
  pos_le : s.pos ≤ byteLength line
  copied_boundary : IsBoundary line s.copied
  pos_boundary : IsBoundary line s.pos
  next : ∃ place, sc.next? line s = .ok place ∧
    ∀ start ∈ place, s.copied ≤ start ∧ start < byteLength line

theorem Reached.placed (h : sc.Follows rule) (hr : sc.Reached line s) : Placed sc line s := by
  obtain ⟨done, passed, rest, hs⟩ := hr.at h
  have hwhole : byteLength line = byteLength done + byteLength passed + byteLength rest := by
    rw [hs.whole, byte_length_append, byte_length_append]
  have hcopied := hs.copied
  have hpos := hs.pos
  constructor
  case copied_le_pos => omega
  case pos_le => omega
  case copied_boundary =>
    rw [hs.copied, hs.whole, List.append_assoc]
    exact is_boundary_append done (passed ++ rest)
  case pos_boundary =>
    rw [hs.pos, hs.whole, ← byte_length_append]
    exact is_boundary_append (done ++ passed) rest
  case next =>
    by_cases hmem : sc.trigger ∈ rest
    · obtain ⟨skipped, tail, rfl, hfree⟩ := List.eq_append_cons_of_mem hmem
      refine ⟨_, next_some hs hfree, fun start hstart => ?_⟩
      have hbounds := next_bounds sc line (next_some hs hfree)
      cases hstart
      omega
    · exact ⟨none, next_none hs hmem, nofun⟩

/-- The scan of the line gives what substitution gives, and its places are sound throughout. -/
structure Safe (sc : Scanner α) (rule : Rule) (line : Text) : Prop where
  result : sc.run line = .ok (substitute rule line)
  placed : ∀ s, sc.Reached line s → Placed sc line s

theorem Follows.safe (h : sc.Follows rule) (line : Text) : sc.Safe rule line where
  result := run_eq h line
  placed _ hs := hs.placed h

end Scanner

end MarkdownPage.Bytes
