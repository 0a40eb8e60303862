import EcmaSyntax.Proofs.Calls
import EcmaSyntax.Proofs.Location

/-!
# Line ends between tokens

A statement may end where a line does, so `next` notes if a line ends before the new lookahead. To know
that, it compares the line of the token it gives with the line of the lookahead. But the line of a
token is the one on which it ends. So what is noted is whether a line ends anywhere up to the end of
the lookahead (`newline_of_next`): before it, or inside of it. The second may be so for a string or a
template.

This is about runs without markup. `Looking` is the invariant: the lookahead ends at the cursor, and its
line is the one that is counted.
-/

namespace EcmaSyntax

open Parse
open Ensures (bind_iff step_iff ite_iff scan_iff)

namespace Source

variable {s : Source} {i j k : Nat}

/-- A line terminator stands between two offsets. -/
def HasLineEnd (s : Source) (i j : Nat) : Prop :=
  ∃ k, i ≤ k ∧ k < j ∧ CodePoint.isLineTerminator (s.char k)

theorem hasLineEnd_succ (hij : i ≤ j) :
    s.HasLineEnd i (j + 1) ↔ s.HasLineEnd i j ∨ CodePoint.isLineTerminator (s.char j) := by
  constructor
  · rintro ⟨k, hik, hkj, hk⟩
    rcases Nat.lt_or_eq_of_le (Nat.le_of_lt_succ hkj) with hlt | rfl
    · exact .inl ⟨k, hik, hlt, hk⟩
    · exact .inr hk
  · rintro (⟨k, hik, hkj, hk⟩ | hj)
    · exact ⟨k, hik, Nat.lt_succ_of_lt hkj, hk⟩
    · exact ⟨j, hij, Nat.lt_succ_self j, hj⟩

theorem hasLineEnd_split (hij : i ≤ j) (hjk : j ≤ k) : s.HasLineEnd i k ↔ s.HasLineEnd i j ∨ s.HasLineEnd j k := by
  constructor
  · rintro ⟨l, hil, hlk, hl⟩
    rcases Nat.lt_or_ge l j with hlj | hjl
    · exact .inl ⟨l, hil, hlj, hl⟩
    · exact .inr ⟨l, hjl, hlk, hl⟩
  · rintro (⟨l, hil, hlj, hl⟩ | ⟨l, hjl, hlk, hl⟩)
    · exact ⟨l, hil, Nat.lt_of_lt_of_le hlj hjk, hl⟩
    · exact ⟨l, Nat.le_trans hij hjl, hlk, hl⟩

/-- The line feed of a line terminator with two parts comes after its carriage return. -/
theorem hasLineEnd_of_splits (hi : s.splits i = false) (hij : i ≤ j) (hj : s.splits j) : s.HasLineEnd i j := by
  have hne : i ≠ j := by
    rintro rfl
    rw [hi] at hj
    cases hj
  simp only [splits, Bool.and_eq_true, decide_eq_true_eq] at hj
  obtain ⟨⟨hpos, hreturn⟩, -⟩ := hj
  exact ⟨j - 1, by omega, by omega, by simp [hreturn, CodePoint.isLineTerminator]⟩

/-- From an offset that is not inside of a line terminator on, lines are counted if and only if one
ends. -/
theorem lineEnds_lt_iff (hi : s.splits i = false) (hij : i ≤ j) : s.lineEnds i < s.lineEnds j ↔ s.HasLineEnd i j := by
  induction hij with
  | refl => exact ⟨fun h => absurd h (Nat.lt_irrefl _), fun ⟨k, hik, hki, _⟩ => by omega⟩
  | @step j hij ih =>
    rw [hasLineEnd_succ hij]
    constructor
    · intro hlt
      by_cases hj : CodePoint.isLineTerminator (s.char j)
      · exact .inr hj
      · exact .inl (ih.1 (by simpa [lineEnds, hj] using hlt))
    · rintro (hend | hj)
      · exact Nat.lt_of_lt_of_le (ih.2 hend) (lineEnds_mono (Nat.le_succ j))
      · cases hsplit : s.splits j with
        | false =>
          have hmono : s.lineEnds i ≤ s.lineEnds j := lineEnds_mono hij
          simp only [lineEnds, hj, hsplit, Bool.not_false, Bool.and_self, if_true]
          omega
        | true =>
          have hlt := ih.2 (hasLineEnd_of_splits hi hij hsplit)
          exact Nat.lt_of_lt_of_le hlt (lineEnds_mono (Nat.le_succ j))

end Source

namespace Ahead

variable {src : Source} {i : Nat} {c : Cursor} {t : Token}

theorem le_start (h : Ahead src i c t) : i ≤ t.start := by
  rcases h.start with hstart | ⟨hzero, -⟩
  · exact Nat.le_of_eq hstart.symm
  · exact hzero ▸ Nat.zero_le _

theorem line_eq (h : Ahead src i c t) : t.line = (Cursor.start src).line + src.lineEnds t.stop := by
  rw [h.line, h.right.line, h.stop]

end Ahead

/-! ### The invariant -/

/-- The lookahead was read from where it starts up to the cursor. If it is a slash, then no comment
starts with it. -/
structure Looking (src : Source) (s : ParseState) : Prop where
  ahead : Ahead src s.startMark.index s.scan.cursor s.lookahead
  settled : s.lookahead.lexeme.isSlash → Scan.Settled src s.startMark.index

namespace Looking

variable {c : ParseSetting} {s : ParseState}

theorem start (src : Source) : Looking src (.start src) where
  ahead := ⟨Nat.le_refl 0, Cursor.right_start src, Nat.zero_le _, .inl rfl, Nat.le_refl 0, rfl, rfl, rfl,
    (fun h => by cases h), (fun h => by cases h), .inl (.refl src 0)⟩
  settled h := by cases h

theorem of_eq (h : Looking src s) (hcursor : t.scan.cursor = s.scan.cursor)
    (hlookahead : t.lookahead = s.lookahead) (hstart : t.startMark = s.startMark) : Looking src t := by
  constructor
  · rw [hcursor, hlookahead, hstart]
    exact h.ahead
  · rw [hlookahead, hstart]
    exact h.settled

/-- The new lookahead comes after the token that is given. -/
theorem ensures_next (h : Looking c.source s) : Ensures next c s fun t u =>
    t = s.lookahead ∧ Looking c.source u ∧ t.stop ≤ u.lookahead.start := by
  refine Parse.ensures_next (Scan.ensures_trivia.mono fun _ t ht v hv => ?_)
  obtain ⟨es, -, rfl⟩ := hv
  obtain ⟨hmoves, hsettled⟩ := ht
  have hright := hmoves.right h.ahead.right
  have hbound := hmoves.bound h.ahead.bound
  refine (Scan.ensures_lex_ahead hright hbound).mono fun found t' ha newline tokens => ⟨rfl, ?_⟩
  have hstart (u : ParseState) (hu : u.scan = t) : (startNow u).index = t.cursor.index := by
    unfold startNow
    rw [hu]
    split
    · next hindex => exact hindex.symm
    · rfl
  have hahead : Ahead c.source t.cursor.index t'.cursor (if s.context.strict then found.reserve else found) := by
    split
    · exact ha.reserve
    · exact ha
  refine ⟨⟨?_, fun _ => ?_⟩, ?_⟩
  · rw [hstart _ rfl]
    exact hahead
  · rw [hstart _ rfl]
    exact hsettled
  · rw [h.ahead.stop]
    exact Nat.le_trans hmoves.le hahead.le_start

theorem ensures_resumeTemplate (h : Looking c.source s) :
    Ensures Grammar.resumeTemplate c s fun _ t => Looking c.source t := by
  refine Parse.ensures_resumeTemplate h fun hbrace => ?_
  have hchar := (h.ahead.brace hbrace).1
  refine (Scan.ensures_lex_again h.ahead hbrace).mono fun t t' ht =>
    ⟨ht.earlier h.ahead.start, fun hslash => ?_⟩
  -- What starts with a brace is no slash.
  have hchar' := ht.slash hslash
  rcases ht.start with hstart | ⟨hzero, hidden⟩
  · rw [hstart, hchar] at hchar'
    cases hchar'
  · rw [hzero, Source.char_zero_of_hidden hidden] at hchar
    cases hchar

/-- Where the lookahead is a slash, what is read in its place starts there too. -/
theorem ensures_rereadRegex (h : Looking c.source s) (hs : s.lookahead.lexeme.isSlash) :
    Ensures (rereadRegex s.startMark.index) c s fun _ t => Looking c.source t := by
  have hchar : c.source.char s.startMark.index = 0x2f ∨ c.source.char s.startMark.index = 0x23 :=
    (h.ahead.begins (w := ⟨s.startMark.index, 0, false⟩) rfl).slash hs
  simp only [rereadRegex, bind_iff, scan_iff, step_iff]
  refine ensures_passTrivia ((Scan.ensures_trivia_still ?_ ?_ (h.settled hs) ?_ ?_).mono fun _ t ht u hu => ?_)
  iterate 4
    rcases hchar with hchar | hchar <;> (dsimp only; rw [hchar]; decide)
  obtain ⟨es, -, rfl⟩ := hu
  refine Scan.ensures_regex.mono fun found t' hfound => ?_
  rw [ht] at hfound
  obtain ⟨hcovers, hslash : c.source.char s.startMark.index = 0x2f⟩ := hfound
  exact ⟨h.ahead.again hslash hcovers, fun _ => h.settled hs⟩

/-- Between two calls, the lookahead stays where it is. -/
theorem ensures_between (hjsx : c.jsx = false) (h : Looking c.source s)
    (hp : Between c s p) : Ensures p c s fun _ t => Looking c.source t := by
  cases hp with
  | quiet hq => exact (hq.kept c s).mono fun _ t ht => h.of_eq ht.cursor ht.lookahead ht.startMark
  | read => exact step_iff.2 h
  | log =>
    rw [step_iff]
    exact h.of_eq rfl rfl rfl
  | markLast | close => exact .modify (h.of_eq rfl rfl rfl)
  | rereadTemplate =>
    simp only [rereadTemplate, bind_iff, step_iff, ite_iff]
    refine ⟨fun _ => h, fun _ => h.ensures_resumeTemplate.mono fun _ t ht => ⟨fun _ => ht, fun _ => ?_⟩⟩
    exact ensures_unexpected
  | rereadRegex hs => exact h.ensures_rereadRegex hs
  | scan _ hmarkup | markStart hmarkup | record _ hmarkup =>
    rw [hjsx] at hmarkup
    cases hmarkup

end Looking

/-! ### What is noted -/

/-- What is noted is whether the lines of the two tokens differ. -/
theorem Parse.ensures_next_newline :
    Ensures next c s fun t u => u.newline = decide (t.line ≠ u.lookahead.line) := by
  simp only [next, bind_iff, step_iff]
  refine .always fun _ _ => .always fun found t => ?_
  generalize (if t.context.strict then found.reserve else found) = found
  split
  · exact .pure rfl
  · simp only [bind_iff, step_iff]

/-- A line end is noted wherever it is, up to the end of the new lookahead. -/
theorem Looking.ensures_newline (h : Looking c.source s) : Ensures next c s fun t u => t.stop ≤ u.lookahead.start
      ∧ (u.newline = true ↔ c.source.HasLineEnd t.stop u.lookahead.start
        ∨ c.source.HasLineEnd u.lookahead.start u.lookahead.stop) := by
  refine (h.ensures_next.and ensures_next_newline).mono ?_
  rintro t u ⟨⟨rfl, hu, hle⟩, hnewline⟩
  have hwithin : u.lookahead.start ≤ u.lookahead.stop := hu.ahead.stop ▸ hu.ahead.start_le
  have hwhole : c.source.splits s.lookahead.stop = false := h.ahead.stop ▸ h.ahead.right.whole
  have hmono : c.source.lineEnds s.lookahead.stop ≤ c.source.lineEnds u.lookahead.stop :=
    Source.lineEnds_mono (Nat.le_trans hle hwithin)
  rw [← Source.hasLineEnd_split hle hwithin, ← Source.lineEnds_lt_iff hwhole (Nat.le_trans hle hwithin),
    hnewline, decide_eq_true_iff, h.ahead.line_eq, hu.ahead.line_eq]
  omega

namespace Grammar

/-- **A line end is noted if there is one, before the lookahead or inside of it.** In a run of any
program without markup, after each call of `next`, a line end is noted if and only if a line terminator
stands between the token that the call gives and the new lookahead, or in the lookahead itself. -/
theorem newline_of_next (isModule : Bool) (c : ParseSetting) (hjsx : c.jsx = false) :
    (∃ calls, Calls c (program isModule) (.start c.source) calls)
      ∧ ∀ calls, Calls c (program isModule) (.start c.source) calls → ∀ s ∈ calls, ∀ t u, next c s = .ok t u →
          t.stop ≤ u.lookahead.start
          ∧ (u.newline = true ↔ c.source.HasLineEnd t.stop u.lookahead.start
            ∨ c.source.HasLineEnd u.lookahead.start u.lookahead.stop) := by
  refine ⟨Stepwise.out _, fun calls hcalls s hs t u hnext => ?_⟩
  have hlinked := hcalls.linked (I := fun _ s => Looking c.source s) (fun hp h => h.ensures_between hjsx hp)
    (fun h => h.ensures_next.mono fun _ _ hu => hu.2.1) none (.start c.source)
  obtain ⟨_, hlooking⟩ := hlinked.1.of_mem hs
  exact hlooking.ensures_newline t u hnext

/-- A comment that goes over several lines, before a name. -/
theorem newline_of_next_of_comment :
    let source := Source.ofText "/*\n*/a"
    let c : ParseSetting := ⟨⟨source, 2024, false⟩, false, false, .idle⟩
    ∃ calls s t u, Calls c (program false) (.start source) calls ∧ s ∈ calls ∧ next c s = .ok t u
      ∧ u.newline = true ∧ (t.stop ≤ u.lookahead.start
        ∧ (u.newline = true ↔ source.HasLineEnd t.stop u.lookahead.start
          ∨ source.HasLineEnd u.lookahead.start u.lookahead.stop)) := by
  intro source c
  have hrun : Yields next c (.start source) fun _ u => u.newline := by decide +kernel
  obtain ⟨t, u, hnext, hnewline⟩ := exists_of_yields hrun
  obtain ⟨calls, hcalls⟩ := exists_calls_program false c (.start source)
  have hmem : ParseState.start source ∈ ParseState.start source :: calls := List.mem_cons_self
  exact ⟨_, _, t, u, hcalls, hmem, hnext, hnewline, (newline_of_next false c rfl).2 _ hcalls _ hmem t u hnext⟩

/-- Before a template with a line end in it, one is noted, though nothing stands before the template. -/
theorem newline_of_template :
    let source := Source.ofText "`\n`"
    let c : ParseSetting := ⟨⟨source, 2024, false⟩, false, false, .idle⟩
    ∃ calls s t u, Calls c (program false) (.start source) calls ∧ s ∈ calls ∧ next c s = .ok t u
      ∧ u.newline = true ∧ ¬ source.HasLineEnd t.stop u.lookahead.start := by
  intro source c
  have hrun : Yields next c (.start source) fun t u =>
      u.newline && t.stop = 0 && u.lookahead.start = 0 := by decide +kernel
  obtain ⟨t, u, hnext, hseen⟩ := exists_of_yields hrun
  simp only [Bool.and_eq_true, decide_eq_true_eq] at hseen
  obtain ⟨⟨hnewline, hstop⟩, hstart⟩ := hseen
  obtain ⟨calls, hcalls⟩ := exists_calls_program false c (.start source)
  refine ⟨_, _, t, u, hcalls, List.mem_cons_self, hnext, hnewline, ?_⟩
  rintro ⟨k, -, hk, -⟩
  omega

end Grammar

end EcmaSyntax
