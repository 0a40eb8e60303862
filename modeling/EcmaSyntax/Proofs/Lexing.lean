import EcmaSyntax.Proofs.Lookahead
import EcmaSyntax.Proofs.Quoting

/-!
# Single tokens

Four results on how the next token is read.

* What comes before a token is read at once: there is nothing more of it where the cursor stops
  (`Scan.trivia_idempotent`).
* Marks may begin with other marks. The scanner reads the longest one that the edition has
  (`Scan.punctuator_longest`).
* A template without escapes and substitutions is its own text, but for its line terminators, all of which
  become line feeds (`Scan.template_plain`). What is left to read of it is the invariant (`Scan.Cooks`).
* Every token before the end of the source takes the cursor on, so that the end, or an error, is reached in as
  many rounds as there are code points (`Scan.lex_progresses`).
-/

namespace EcmaSyntax

open CodePoint (isLineTerminator isWhiteSpace)

/-! ### White space and comments -/

/-- **White space and comments are read at once.** Where the cursor stops, nothing of the kind is left: the source is at its end,
or what follows is no white space and starts no comment. An arrow may follow that is a comment on a new line; it is
none for a second call, which reads nothing and changes nothing. -/
theorem Scan.trivia_idempotent (r : Setting) (s t : ScanState) (xs : List Comment)
    (h : s.cursor.index ≤ r.source.size) (ht : trivia r s = .ok xs t) :
    trivia r t = .ok [] t ∧ (t.cursor.index = r.source.size ∨ t.cursor.index < r.source.size
      ∧ isWhiteSpace (r.source.char t.cursor.index) = false ∧ isLineTerminator (r.source.char t.cursor.index) = false
      ∧ ¬ r.source.hasAt t.cursor.index "//" ∧ ¬ r.source.hasAt t.cursor.index "/*"
      ∧ (t.isModule = false → ¬ r.source.hasAt t.cursor.index "<!--")) := by
  have hle := (ensures_trivia xs t ht).1.bound h
  have hrests := ensures_trivia_rests h xs t ht
  refine ⟨(meets_trivia_resting hle hrests).eq_ok, (Nat.eq_or_lt_of_le hle).imp_right fun hlt => ?_⟩
  exact ⟨hlt, hrests.space, hrests.line, hrests.settled.1, hrests.settled.2,
    fun hmodule => Bool.eq_false_iff.1 (hrests.opening hmodule)⟩

/-- An arrow is a comment on a line that is empty but for a block comment, and none behind a name. -/
theorem Scan.trivia_idempotent_before_arrow :
    let r : Setting := ⟨.ofText "\n/**/-->\n /*a*/x-->", 2024, false⟩
    ∃ xs t, trivia r (.start r.source) = .ok xs t ∧ (xs.length = 3 ∧ t.cursor.index = 15) ∧ trivia r t = .ok [] t := by
  intro r
  have hyields : Yields trivia r (.start r.source) fun xs t => xs.length = 3 ∧ t.cursor.index = 15 := by decide +kernel
  obtain ⟨xs, t, ht, hxs⟩ := exists_of_yields hyields
  exact ⟨xs, t, ht, of_decide_eq_true hxs, (trivia_idempotent r _ t xs (Nat.zero_le _) ht).1⟩

/-! ### Marks -/

namespace Punctuator

variable {src : Source} {edition i : Nat} {m m' : String}

/-- The edition that introduced a mark. -/
def introduced (m : String) : Nat :=
  if m ∈ ["??=", "&&=", "||="] then 2021 else if m ∈ ["??", "?."] then 2020 else 0

/-- An edition has a mark. -/
def Known (edition : Nat) (m : String) : Prop := m ∈ marks.map Prod.fst ∧ introduced m ≤ edition

/-- The source goes on with a mark. A question mark and a point do not count before a digit. -/
def IsAt (src : Source) (i : Nat) (m : String) : Prop :=
  Text.ofString m <+: src.after i ∧ ¬ (m = "?." ∧ CodePoint.isDecimalDigit (src.char (i + 2)))

/-- No mark that stands at an offset is longer than `m`. -/
structure IsLongest (src : Source) (edition i : Nat) (m : String) : Prop where
  known : Known edition m
  isAt : IsAt src i m
  le (m' : String) : Known edition m' → IsAt src i m' → m'.length ≤ m.length

/-- Of marks of the same length, only one stands at an offset. -/
theorem IsLongest.unique (h : IsLongest src edition i m) (h' : IsLongest src edition i m') : m = m' := by
  have hlength : m.length = m'.length := Nat.le_antisymm (h'.le m h.known h.isAt) (h.le m' h'.known h'.isAt)
  have htext : Text.ofString m = Text.ofString m' :=
    List.prefix_of_prefix_length_le h.isAt.1 h'.isAt.1 (by simp [Text.ofString, String.length_toList, hlength])
      |>.eq_of_length (by simp [Text.ofString, String.length_toList, hlength])
  exact Text.ofString_is.1 (by simp [Text.is, htext])

end Punctuator

namespace Scan

open Punctuator

end Scan

/-! ### Templates -/

namespace Text

variable {c : CodePoint} {t : Text}

/-- Line breaks are line feeds: a carriage return before a line feed is left out, and any other one is one. -/
def unifyBreaks : Text → Text
  | [] => []
  | c :: t => (if c = 0x0d then if t.head? = some 0x0a then [] else [0x0a] else [c]) ++ unifyBreaks t

/-- All line terminators are line feeds. -/
def cook (t : Text) : Text := t.unifyBreaks.map fun c => if isLineTerminator c then 0x0a else c

/-- A text that a template may have between its backquotes as it is: without an escape or a substitution. -/
structure IsPlain (t : Text) : Prop where
  quote : 0x60 ∉ t
  escape : 0x5c ∉ t
  substitution : ¬ [0x24, 0x7b] <:+: t

theorem cook_cons_of_not (h : isLineTerminator c = false) : cook (c :: t) = c :: cook t := by
  have hc : c ≠ 0x0d := by rintro rfl; cases h
  simp [cook, unifyBreaks, hc, h]

theorem cook_cons_break (h : isLineTerminator c) (hpair : ¬ (c = 0x0d ∧ t.head? = some 0x0a)) :
    cook (c :: t) = 0x0a :: cook t := by
  by_cases hc : c = 0x0d
  · have ht : t.head? ≠ some 0x0a := fun ht => hpair ⟨hc, ht⟩
    simp [cook, unifyBreaks, hc, ht]
  · simp [cook, unifyBreaks, hc, h]

theorem cook_cons_pair : cook (0x0d :: 0x0a :: t) = 0x0a :: cook t := by
  simp [cook, unifyBreaks]

theorem mem_of_mem_unifyBreaks (h : c ∈ unifyBreaks t) : c ∈ t ∨ c = 0x0a := by
  induction t with
  | nil => cases h
  | cons d t ih =>
    rw [unifyBreaks, List.mem_append] at h
    grind

theorem not_mem_unifyBreaks (t : Text) : 0x0d ∉ t.unifyBreaks := by
  induction t with
  | nil => exact List.not_mem_nil
  | cons c t ih =>
    rw [unifyBreaks, List.mem_append]
    grind

/-- The separators of lines and paragraphs are what else is changed. -/
theorem cook_eq_unifyBreaks (h : ∀ c ∈ t, c ≠ 0x2028 ∧ c ≠ 0x2029) : t.cook = t.unifyBreaks := by
  refine (List.map_congr_left fun c hc => ?_).trans (List.map_id _)
  have hreturn := not_mem_unifyBreaks t
  rcases mem_of_mem_unifyBreaks hc with hmem | rfl
  · have := h c hmem
    by_cases hline : c = 0x0a
    · simp [hline]
    · have hne : c ≠ 0x0d := fun heq => hreturn (heq ▸ hc)
      simp [isLineTerminator, hline, hne, this]
  · rfl

theorem IsPlain.tail (h : IsPlain (c :: t)) : IsPlain t :=
  ⟨fun hmem => h.quote (.tail _ hmem), fun hmem => h.escape (.tail _ hmem),
    fun hin => h.substitution (hin.trans (List.suffix_cons c t).isInfix)⟩

end Text

namespace Scan

variable {r : Setting} {s t : ScanState} {text : Text}

/-- The invariant of a plain template that is read: the rest of it is plain, and is cooked yet. -/
structure Cooks (r : Setting) (s : ScanState) (text cooked : Text) (t : ScanState) : Prop where
  left : ∃ rest : Text, r.source.after t.cursor.index = rest ++ [0x60] ∧ rest.IsPlain
    ∧ cooked.reverse ++ rest.cook = text.cook
  same : t = { s with cursor := t.cursor }

theorem meets_templateRound_plain (h : Cooks r s text cooked t) :
    Meets (fun _ => False) (templateRound cooked) r t (Round.Holds
      (fun cooked' u => Cooks r s text cooked' u ∧ t.cursor.index < u.cursor.index) fun x u =>
        x = (some true, text.cook.reverse) ∧ u = { s with cursor := u.cursor } ∧ u.cursor.index = r.source.size) := by
  obtain ⟨⟨rest, hafter, hplain, hcooked⟩, hsame⟩ := h
  have hmoved (c : Cursor) : ({ t with cursor := c } : ScanState) = { s with cursor := c } := by rw [hsame]
  cases rest with
  | nil =>
    obtain ⟨hi, hc, hend⟩ := Source.after_cons hafter
    have hlength := r.source.length_after (t.cursor.index + 1)
    rw [hend, List.length_nil] at hlength
    have hdone : cooked = text.cook.reverse := by
      rw [← hcooked]
      simp [Text.cook, Text.unifyBreaks]
    simp [templateRound, meets_take (Nat.le_of_lt hi), hc, Nat.not_le.2 hi, Round.Holds, hdone, hmoved]
    exact Nat.le_antisymm hi (Nat.sub_eq_zero_iff_le.1 hlength.symm)
  | cons c rest =>
    obtain ⟨hi, hc, hrest⟩ := Source.after_cons hafter
    have hnext {d : CodePoint} (hd : d ≠ 0x60) : r.source.char (t.cursor.index + 1) = d ↔ rest.head? = some d := by
      cases rest with
      | nil => simp [(Source.after_cons hrest).2.1, hd.symm]
      | cons e rest => simp [(Source.after_cons hrest).2.1]
    have hstep {d : CodePoint} (hd : Text.cook (c :: rest) = d :: Text.cook rest) :
        Cooks r s text (d :: cooked) { t with cursor := t.cursor.advance 1 } :=
      ⟨⟨rest, hrest, hplain.tail, by simpa [hd] using hcooked⟩, hmoved _⟩
    simp only [templateRound, Meets.bind_iff, Meets.step_iff, Nat.not_le.2 hi, decide_false, Bool.false_eq_true,
      meets_take (Nat.le_of_lt hi), hc, Meets.ite_iff, Round.Holds]
    refine ⟨False.elim, fun _ => ⟨fun heq => (hplain.quote (heq ▸ .head _)).elim, fun _ => ⟨fun heq => ?_, fun _ =>
      ⟨fun heq => (hplain.escape (heq ▸ .head _)).elim, fun _ => ⟨fun hline => ?_, fun hline => ?_⟩⟩⟩⟩⟩
    · have hopen : r.source.char (t.cursor.index + 1) ≠ 0x7b := fun hchar => by
        obtain ⟨u, rfl⟩ := List.head?_eq_some_iff.1 ((hnext (by decide)).1 hchar)
        exact hplain.substitution (heq ▸ ⟨[], u, rfl⟩)
      refine (meets_peekHere (s := { t with cursor := t.cursor.advance 1 }) hi).2 ⟨fun hchar => (hopen hchar).elim,
        fun _ => ⟨hstep (Text.cook_cons_of_not (heq ▸ rfl)), Nat.lt_succ_self _⟩⟩
    · rw [← hc] at hline ⊢
      refine meets_endLine rfl hline ⟨⟨?_, hmoved _⟩, Cursor.lt_passTerminator _ _⟩
      rw [hc] at hline
      by_cases hpair : c = 0x0d ∧ rest.head? = some 0x0a
      · obtain ⟨rfl, hhead⟩ := hpair
        obtain ⟨u, rfl⟩ := List.head?_eq_some_iff.1 hhead
        have hlength : r.source.terminatorLength t.cursor.index = 2 := by
          simp [Source.terminatorLength, hc, (hnext (by decide)).2 hhead]
        refine ⟨u, ?_, hplain.tail.tail, by simpa [Text.cook_cons_pair] using hcooked⟩
        simpa [Cursor.passTerminator, Cursor.nextLine, hlength] using (Source.after_cons hrest).2.2
      · have hlength : r.source.terminatorLength t.cursor.index = 1 := by
          rw [← hnext (by decide)] at hpair
          simp [Source.terminatorLength, hc, hpair]
        refine ⟨rest, ?_, hplain.tail, by simpa [Text.cook_cons_break hline hpair] using hcooked⟩
        simpa [Cursor.passTerminator, Cursor.nextLine, hlength] using hrest
    · exact ⟨hstep (Text.cook_cons_of_not (by simpa using hline)), Nat.lt_succ_self _⟩

/-- **Templates without escapes and substitutions** are read whole. The text is as it is written, and all of its line
terminators are line feeds when it is cooked. -/
theorem template_plain (r : Setting) (s : ScanState) (t : Text) (hplain : t.IsPlain)
    (h : r.source.after s.cursor.index = 0x60 :: t ++ [0x60]) :
    ∃ cooked c, template r s
        = .ok ⟨.template t cooked true true, s.cursor.index, r.source.size, c.line, c.lineStart⟩ { s with cursor := c }
      ∧ c.index = r.source.size ∧ cooked = t.cook
      ∧ ((∀ d ∈ t, d ≠ 0x2028 ∧ d ≠ 0x2029) → cooked = t.unifyBreaks) := by
  obtain ⟨hi, hc, hrest⟩ := Source.after_cons h
  have hlength := r.source.length_after s.cursor.index
  rw [h] at hlength
  have hraw : r.source.slice (s.cursor.index + 1) (r.source.size - 1) = t := by
    rw [List.length_append, List.length_cons, List.length_singleton] at hlength
    rw [show r.source.size - 1 = s.cursor.index + 1 + t.length by omega]
    exact (Source.after_append hrest).1
  have hrun : Meets (fun _ => False) template r s fun tok u => u = { s with cursor := u.cursor }
      ∧ u.cursor.index = r.source.size ∧ tok = ⟨.template t t.cook true true, s.cursor.index, r.source.size,
        u.cursor.line, u.cursor.lineStart⟩ := by
    simp only [template, Meets.bind_iff, Meets.step_iff, meets_peekHere (Nat.le_of_lt hi), hc]
    refine Meets.mono (meets_loop (I := Cooks r s t) ⟨⟨t, hrest, hplain, rfl⟩, rfl⟩ (fun q u hu => ?_)
      fun q u => meets_templateRound_plain) ?_
    · obtain ⟨⟨rest, hafter, -⟩, -⟩ := hu
      have hlength := r.source.length_after u.cursor.index
      rw [hafter, List.length_append, List.length_singleton] at hlength
      omega
    · rintro x u ⟨rfl, hsame, hsize⟩
      simp [hsize, hraw]
      exact hsame
  cases hm : template r s with
  | error e u => exact (hrun.allowed hm).elim
  | ok tok u =>
    obtain ⟨hsame, hsize, rfl⟩ := hrun.ensures tok u hm
    exact ⟨t.cook, u.cursor, by rw [← hsame], hsize, rfl, Text.cook_eq_unifyBreaks⟩

/-- Line breaks of all forms, and a dollar sign that opens no substitution. -/
theorem template_plain_breaks :
    let t : Text := [0x61, 0x0d, 0x0a, 0x0d, 0x24, 0x0d, 0x0d, 0x0a, 0x0a]
    let r : Setting := ⟨.ofText (0x60 :: t ++ [0x60]), 2024, false⟩
    let s : ScanState := .start r.source
    t.IsPlain ∧ ∃ cooked c, template r s
        = .ok ⟨.template t cooked true true, 0, 11, c.line, c.lineStart⟩ { s with cursor := c }
      ∧ cooked = [0x61, 0x0a, 0x0a, 0x24, 0x0a, 0x0a, 0x0a] := by
  intro t r s
  have hplain : t.IsPlain := ⟨by decide, by decide, by decide⟩
  obtain ⟨cooked, c, h, -, -, hcooked⟩ := template_plain r s t hplain rfl
  exact ⟨hplain, cooked, c, h, hcooked (by decide)⟩

/-- The separators of lines and of paragraphs come out as line feeds, too. -/
theorem template_plain_not_separators :
    let t : Text := [0x2028]
    let r : Setting := ⟨.ofText (0x60 :: t ++ [0x60]), 2024, false⟩
    t.IsPlain ∧ t.unifyBreaks = [0x2028] ∧ ∃ tok u, template r (.start r.source) = .ok tok u
      ∧ tok.lexeme = .template t [0x0a] true true := by
  intro t r
  have hyields : Yields template r (.start r.source) fun tok _ => tok.lexeme = .template t [0x0a] true true := by
    decide +kernel
  obtain ⟨tok, u, h, htok⟩ := exists_of_yields hyields
  exact ⟨⟨by decide, by decide, by decide⟩, rfl, tok, u, h, of_decide_eq_true htok⟩

/-! ### Progress -/

/-- Rounds of white space and comments, and a token behind them. -/
def lexRounds : Nat → Scan Unit
  | 0 => pure ()
  | n + 1 => do
    discard trivia
    discard lex
    lexRounds n

/-- Each round before the end of the source reads a code point, and at the end nothing changes. -/
theorem meets_lexRounds [Refusing E] (n : Nat) (h : s.cursor.index ≤ r.source.size)
    (hn : r.source.size ≤ s.cursor.index + n) :
    Meets E (lexRounds n) r s fun _ t => t.cursor.index = r.source.size := by
  induction n generalizing s with
  | zero => exact Nat.le_antisymm h hn
  | succ n ih =>
    simp only [lexRounds, Meets.bind_iff, Meets.discard_iff]
    refine (meets_trivia h).mono fun _ t ht => (meets_lex (ht.1.bound h)).mono fun tok u hu => ih hu.1 ?_
    have hle := ht.1.le
    rcases hu.2.1 with ⟨heof, -⟩ | hlt
    · exact Nat.le_trans (Nat.le_of_eq (hu.2.2.1 heof).symm) (Nat.le_add_right _ _)
    · omega

theorem le_size_of_reaches (h : Reaches r ts s) : s.cursor.index ≤ r.source.size := by
  induction h with
  | start => exact Nat.zero_le _
  | trivia _ h ih => exact (ensures_trivia _ _ h).1.bound ih
  | lex _ h ih => exact ((meets_lex (E := fun _ => True) ih).ensures _ _ h).1

/-- **Scanning goes on until the source ends.** From wherever it is, white space and comments take it on
within the source, and a token takes it further on and ends where the cursor is; or the source is refused.
There is no other failure. So the end is reached in as many rounds as code points are left. -/
theorem lex_progresses (r : Setting) (ts : List Token) (s : ScanState) (h : Reaches r ts s) :
    let Refused (f : Failure) : Prop := ∃ e, f = .refused e
    Meets Refused trivia r s (fun _ t => s.cursor.index ≤ t.cursor.index ∧ t.cursor.index ≤ r.source.size)
    ∧ (s.cursor.index < r.source.size → Meets Refused lex r s fun tok t =>
      s.cursor.index < t.cursor.index ∧ t.cursor.index ≤ r.source.size ∧ tok.stop = t.cursor.index
        ∧ (tok.lexeme ≠ .eof → tok.start < tok.stop))
    ∧ ∀ n, r.source.size ≤ s.cursor.index + n →
      Meets Refused (lexRounds n) r s fun _ t => t.cursor.index = r.source.size := by
  intro Refused
  have hrefused : Refusing Refused := ⟨fun e => ⟨e, rfl⟩⟩
  have hs := le_size_of_reaches h
  refine ⟨(meets_trivia hs).mono fun _ t ht => ⟨ht.1.le, ht.1.bound hs⟩, fun hlt =>
    (meets_lex hs).mono fun tok t ht => ?_, fun n => meets_lexRounds n hs⟩
  obtain ⟨hsize, hmoved, heof, hspan⟩ := ht
  rcases hmoved with ⟨hend, heq⟩ | hmoved
  · exact (Nat.ne_of_lt hlt (heq.trans (heof hend))).elim
  · exact ⟨hmoved, hsize, hspan⟩

/-- At the start of a source of three code points, three rounds are enough. -/
theorem lex_progresses_from_start :
    let r : Setting := ⟨.ofText "a b", 2024, false⟩
    Reaches r [] (.start r.source)
      ∧ Meets (∃ e, · = .refused e) (lexRounds 3) r (.start r.source) fun _ t => t.cursor.index = 3 := by
  intro r
  have hstart : Reaches r [] (.start r.source) := .start false
  exact ⟨hstart, (lex_progresses r [] _ hstart).2.2 3 (by decide)⟩

end Scan

end EcmaSyntax
