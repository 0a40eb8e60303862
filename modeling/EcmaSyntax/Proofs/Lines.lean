import EcmaSyntax.Proofs.Advance

/-!
# Counting lines

A scan keeps account of lines while it reads, in many places: behind comments, in templates, in
strings that go on in the next line. `Scan.Call` is what a reader can ask of a scan from outside, and
`Scan.run` is any number of such calls from the start of a source on. The account is exact after each
of them (`line_of_run`): one call moves the cursor over the source (`Call.ensures_moves`), and so does
a run of calls, whatever was recorded or opened on the way.
-/

namespace EcmaSyntax

namespace Scan

open Cursor

/-- What a scan can be asked for. -/
inductive Call where
  | trivia
  | lex
  /-- A regular expression, which starts with a slash. -/
  | regex
  deriving DecidableEq, Repr, Inhabited

/-- Reads what is asked for. -/
def Call.read : Call → Scan Unit
  | .trivia => discard Scan.trivia
  | .lex => discard Scan.lex
  | .regex => discard Scan.regex

/-- Reads all that is asked for, in order. -/
def run : List Call → Scan Unit
  | [] => return
  | call :: calls => do
    call.read
    run calls

variable {r : Setting} {s : ScanState}

/-- One call moves the cursor on. -/
theorem Call.ensures_moves (call : Call) :
    Ensures call.read r s fun _ t => Moves r.source s.cursor t.cursor := by
  cases call with
  | trivia => exact Ensures.discard_iff.2 (ensures_trivia.mono fun _ _ ht => ht.1)
  | lex =>
    refine Ensures.discard_iff.2 (ensures_lex.mono fun _ _ ht => ?_)
    rcases ht with hcovers | ⟨-, -, c, hmoves, hcovers⟩
    · exact hcovers.moves
    · exact hmoves.trans hcovers.moves
  | regex => exact Ensures.discard_iff.2 (ensures_regex.mono fun _ _ ht => ht.1.moves)

theorem ensures_run_moves (calls : List Call) :
    Ensures (run calls) r s fun _ t => Moves r.source s.cursor t.cursor := by
  induction calls generalizing s with
  | nil => exact .pure (.refl _ _)
  | cons call calls ih =>
    rw [run, Ensures.bind_iff]
    refine call.ensures_moves.mono fun _ t ht => ?_
    exact ih.mono fun _ u hu => ht.trans hu

/-- **Lines are counted exactly.** After any calls from the start of a source that is not empty, none
of which failed, the line of the cursor is the one after as many line terminators as come before the
cursor, and it starts behind the last of them. -/
theorem line_of_run (r : Setting) (isModule : Bool) (calls : List Call) (t : ScanState) (hsize : 0 < r.source.size)
    (h : run calls r { ScanState.start r.source with isModule } = .ok () t) :
    t.cursor.line = 1 + r.source.lineEnds t.cursor.index ∧ t.cursor.lineStart = r.source.lineStart t.cursor.index
      ∧ t.cursor.lineStart ≤ t.cursor.index ∧ t.cursor.index ≤ r.source.size := by
  have hmoves := ensures_run_moves calls () t h
  have hright := hmoves.right (right_start r.source)
  have hline : (Cursor.start r.source).line = 1 := if_pos hsize
  refine ⟨hline ▸ hright.line, hright.lineStart, ?_, hmoves.bound (Nat.zero_le _)⟩
  rw [hright.lineStart]
  exact r.source.lineStart_le t.cursor.index

/-- A regular expression on the line after a comment that spans lines. -/
theorem line_of_run_of_comment :
    let r : Setting := ⟨.ofText "(/*\r\n*/\n /[/]/g", 2024, true⟩
    ∃ t, run [.lex, .trivia, .regex] r { ScanState.start r.source with isModule := true } = .ok () t
      ∧ t.cursor = ⟨15, 3, 8⟩
      ∧ t.cursor.line = 1 + r.source.lineEnds t.cursor.index
      ∧ t.cursor.lineStart = r.source.lineStart t.cursor.index
      ∧ t.cursor.lineStart ≤ t.cursor.index ∧ t.cursor.index ≤ r.source.size := by
  intro r
  have hrun : Yields (run [.lex, .trivia, .regex]) r { ScanState.start r.source with isModule := true }
      (fun _ t => t.cursor = ⟨15, 3, 8⟩) := by decide +kernel
  obtain ⟨_, t, ht, hcursor⟩ := exists_of_yields hrun
  exact ⟨t, ht, of_decide_eq_true hcursor, line_of_run r true _ t (by decide) ht⟩

end Scan

end EcmaSyntax
