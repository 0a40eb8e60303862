import EcmaSyntax.Proofs.Coverage
import EcmaSyntax.Proofs.Location

/-!
# What is found at the cursor

Three things about the scanner that a parse relies on. The brace of a substitution is open only if
the source has a substitution (`Scan.Guarded`), and a chunk that goes on with a template is found only
then. Where white space and comments have been passed over, none are found when they are looked for
again (`Scan.Resting`). And before the end of the source, a token is found, unless all that is left is
a hidden line (`Setting.Visible`).

`Token.Found` puts together what is known of a token from where it was found.
-/

namespace EcmaSyntax

open Ensures (bind_iff step_iff ite_iff)

set_option synthInstance.maxSize 100000000000000

variable {src : Source} {isModule : Bool} {i : Nat}

/-- There is a substitution in the source, or something that looks like one. -/
def Source.HasSubstitution (src : Source) : Prop := ∃ i, src.hasAt i "$\x7b"

namespace Scan

variable {α β : Type} {r : Setting} {s : ScanState} {cooked : Text}

/-! ### Open braces -/

/-- Only a source with substitutions leaves the brace of one open. Whether this is a module does not
change. -/
structure Guards (src : Source) (s t : ScanState) : Prop where
  braces : .substitution ∈ t.braces → .substitution ∈ s.braces ∨ src.HasSubstitution
  isModule : t.isModule = s.isModule

namespace Guards

variable {t u : ScanState}

theorem refl (src : Source) (s : ScanState) : Guards src s s := ⟨.inl, rfl⟩

theorem trans (h : Guards src s t) (h' : Guards src t u) : Guards src s u :=
  ⟨fun hu => (h'.braces hu).elim h.braces .inr, h'.isModule.trans h.isModule⟩

end Guards

/-- A scan that keeps account of braces. -/
class Guarded (m : Scan α) : Prop where
  out (r : Setting) (s : ScanState) : Ensures m r s fun _ t => Guards r.source s t

namespace Guarded

variable {m : Scan α} {f : α → Scan β}

theorem after (h : Guarded m) (hs : Guards r.source s₀ s) : Ensures m r s fun _ t => Guards r.source s₀ t :=
  (h.out r s).mono fun _ _ => hs.trans

theorem seq [hm : Guarded m] (hf : ∀ a, Guarded (f a)) : Guarded (m >>= f) :=
  ⟨fun r s => (hm.out r s).bind fun a _ ht => (hf a).after ht⟩

instance [hm : Guarded m] [hf : ∀ a, Guarded (f a)] : Guarded (m >>= f) := seq hf

instance (priority := 50) [u : Expands m n] [h : Guarded n] : Guarded m := u.eq ▸ h

instance [Decidable p] [hm : Guarded m] [hm' : Guarded m'] : Guarded (if p then m else m') := by
  split
  · exact hm
  · exact hm'

instance loop [hbody : ∀ x, Guarded (body x)] : Guarded (Scan.loop body x) := by
  refine ⟨fun r s => ensures_loop (.refl _ _) fun x t ht => ((hbody x).after ht).mono fun y u hu => ?_⟩
  cases y <;> exact hu

instance (priority := low) ofSteady [h : Steady m] : Guarded m :=
  ⟨fun r s => (h.out r s).mono fun _ _ ht => ⟨ht.braces ▸ .inl, ht.isModule⟩⟩

instance : Guarded (openBrace .block) :=
  ⟨fun _ _ => by simp only [step_iff]; exact ⟨fun h => .inl (by simpa using h), rfl⟩⟩

instance : Guarded closeBrace :=
  ⟨fun _ _ => by simp only [step_iff]; exact ⟨fun h => .inl (List.mem_of_mem_drop h), rfl⟩⟩

instance : Guarded punctuator := by
  refine seq fun start => seq fun setting => ?_
  split <;> infer_instance

-- The brace of a substitution is opened where the source has one.
instance : Guarded (templateRound cooked) := by
  refine ⟨fun r s => ?_⟩
  simp only [templateRound, bind_iff, step_iff, ite_iff, ensures_take, ensures_peek]
  have hsame : Guards r.source s { s with cursor := s.cursor.advance 1 } := ⟨.inl, rfl⟩
  refine ⟨fun _ => .refl _ _, fun _ _ => ⟨fun _ => hsame, fun _ => ⟨fun hdollar _ => ⟨fun hbrace => ?_,
    fun _ => hsame⟩, fun _ => ⟨fun _ _ => ?_, fun _ => ⟨fun _ => ?_, fun _ => hsame⟩⟩⟩⟩⟩
  · exact ⟨fun _ => .inr ⟨s.cursor.index, Source.hasAt_pair rfl hdollar hbrace (by decide)⟩, rfl⟩
  · have htwo : Guards r.source s { s with cursor := (s.cursor.advance 1).advance 1 } := ⟨.inl, rfl⟩
    exact ⟨fun _ => Guarded.after inferInstance htwo, fun _ => Guarded.after inferInstance htwo⟩
  · exact Guarded.after inferInstance hsame

instance : Guarded template := by
  have (start : Nat) (head : Bool) (source : Source) (x : Option Bool × Text) : Guarded (match x with
      | (none, _) => refuse .illegalToken
      | (some tail, cooked) => do
        if !head then closeBrace
        let stop := (← index) - (if tail then 1 else 2)
        token start (.template (source.slice (start + 1) stop) cooked.reverse head tail)) := by
    split <;> infer_instance
  unfold template
  infer_instance

end Guarded

/-! ### Templates -/

/-- A chunk of a template opens it, or there are substitutions in the source. -/
theorem ensures_plainLex_template (hb : .substitution ∈ s.braces → r.source.HasSubstitution) :
    Ensures plainLex r s fun t _ => t.lexeme.isTemplate →
      t.lexeme ≠ .templateMark ∧ (t.lexeme.isTemplateHead ∨ r.source.HasSubstitution) := by
  have hbare {m : Scan Token} [hm : Bare m] : Ensures m r s fun t _ => t.lexeme.isTemplate →
      t.lexeme ≠ .templateMark ∧ (t.lexeme.isTemplateHead ∨ r.source.HasSubstitution) :=
    (hm.out r s).mono fun t _ ht h => by rw [ht.1] at h; cases h
  have hmark : Ensures punctuator r s fun t _ => t.lexeme.isTemplate →
      t.lexeme ≠ .templateMark ∧ (t.lexeme.isTemplateHead ∨ r.source.HasSubstitution) :=
    ensures_punctuator_untemplated.mono fun t _ ht h => by rw [ht] at h; cases h
  refine ensures_plainLex_of (Ensures.step_iff.2 fun h => ?_) (fun _ => hbare) hbare hbare (fun hquote => ?_)
    (fun _ => hbare) hmark
  · cases h
  refine ensures_template_head.mono fun t _ ht _ => ⟨ht.1, ?_⟩
  rw [ht.2.1, decide_eq_true_eq]
  exact hquote.imp_right fun h => hb (List.mem_of_mem_head? h.2)

theorem ensures_lex_template (hb : .substitution ∈ s.braces → r.source.HasSubstitution) :
    Ensures lex r s fun t _ => t.lexeme.isTemplate →
      t.lexeme ≠ .templateMark ∧ (t.lexeme.isTemplateHead ∨ r.source.HasSubstitution) :=
  ensures_lex_of_plainLex fun _ ht => ensures_plainLex_template (ht.braces ▸ hb)

/-- A chunk of a template ends with the template, or with a substitution. -/
def EndsChunk (src : Source) (j : Nat) : Prop := src.char (j - 1) = 0x60 ∨ src.hasAt (j - 2) "$\x7b"

theorem ensures_templateRound_ends : Ensures (templateRound cooked) r s (Round.Holds (fun _ _ => True) fun x t =>
      x.1.isSome → EndsChunk r.source t.cursor.index) := by
  simp only [templateRound, bind_iff, step_iff, ite_iff, ensures_take, ensures_peek]
  refine ⟨fun _ => nofun, fun _ _ => ⟨fun hquote _ => .inl hquote, fun _ => ⟨fun hdollar _ =>
    ⟨fun hbrace _ => .inr (Source.hasAt_pair rfl hdollar hbrace (by decide)), fun _ => trivial⟩, fun _ => ⟨fun _ _ =>
    ⟨fun _ => .always fun _ _ => trivial, fun _ => .always fun _ _ => trivial⟩,
    fun _ => ⟨fun _ => .always fun _ _ => trivial, fun _ => trivial⟩⟩⟩⟩⟩

theorem ensures_template_ends : Ensures template r s fun _ u => EndsChunk r.source u.cursor.index := by
  simp only [template, bind_iff, step_iff, ensures_peek, Nat.add_zero]
  refine fun _ => (ensures_loop trivial fun _ _ _ =>
    ensures_templateRound_ends).mono fun x t ht => ?_
  split
  · exact ensures_refuse.2 trivial
  · simp only [bind_iff, ite_iff, step_iff]
    exact ⟨fun _ => ht rfl, fun _ => ht rfl⟩

/-! ### Closing braces -/

theorem closing_marks : ∀ p ∈ Punctuator.marks, (Text.ofString p.1)[0]? = some 0x7d → p.1 = "\x7d" := by
  decide +kernel

/-- The mark that stands at a closing brace is the brace. -/
theorem ensures_punctuator_closing (h : r.source.char s.cursor.index = 0x7d) :
    Ensures punctuator r s fun t u => t.lexeme = .punctuator "\x7d"
      ∧ u.cursor.index = s.cursor.index + 1 ∧ u.braces = s.braces.drop 1 := by
  simp only [punctuator, bind_iff, step_iff]
  split
  · simp
  · next m hm =>
    obtain ⟨⟨since, hmem⟩, hat⟩ := hasAt_of_longestAt? hm
    have hbrace : m = "\x7d" := by
      refine closing_marks _ hmem ?_
      have hpos : 0 < m.length := by
        have hall : ∀ p ∈ Punctuator.marks, 0 < p.1.length := by decide +kernel
        exact hall _ hmem
      rw [Source.char_of_hasAt hat hpos, Nat.add_zero, h]
    have hlength : "\x7d".length = 1 := by decide
    simp [hbrace, hlength, Cursor.advance]

/-- What is read at a closing brace. -/
theorem ensures_lex_brace (h : r.source.char s.cursor.index = 0x7d)
    (htemplate : s.braces.head? = some .substitution → Ensures template r s Q)
    (hmark : s.braces.head? ≠ some .substitution → Ensures punctuator r s Q) : Ensures lex r s Q := by
  have hhidden : r.source.hasAt s.cursor.index "#!" = false :=
    Source.not_hasAt_of_char_ne rfl (by rw [h]; decide)
  simp only [lex, bind_iff, step_iff, ite_iff, hhidden]
  simpa using ensures_plainLex_brace h htemplate hmark

/-- Where a substitution is open, a closing brace goes on with its template. -/
theorem ensures_lex_resumed (h : r.source.char s.cursor.index = 0x7d) (hopen : s.braces.head? = some .substitution) :
    Ensures lex r s fun _ u => EndsChunk r.source u.cursor.index :=
  ensures_lex_brace h (fun _ => ensures_template_ends) fun hne => absurd hopen hne

/-- Without substitutions, a closing brace is a token of its own. -/
theorem ensures_lex_closing (hb : .substitution ∈ s.braces → r.source.HasSubstitution)
    (hnone : ¬ r.source.HasSubstitution) (h : r.source.char s.cursor.index = 0x7d) :
    Ensures lex r s fun _ u => u.cursor.index = s.cursor.index + 1 := by
  have hopen : s.braces.head? ≠ some .substitution := fun hhead => hnone (hb (List.mem_of_mem_head? hhead))
  refine ensures_lex_brace h (fun hhead => absurd hhead hopen) fun _ => ?_
  exact (ensures_punctuator_closing h).mono fun _ _ hu => hu.2.1

/-! ### White space and comments -/

/-- Neither white space nor a comment starts at an offset. -/
structure Resting (src : Source) (isModule : Bool) (i : Nat) : Prop where
  space : CodePoint.isWhiteSpace (src.char i) = false
  line : CodePoint.isLineTerminator (src.char i) = false
  settled : Settled src i
  opening : isModule = false → src.hasAt i "<!--" = false
  closing : i = 0 → src.hasAt i "-->" = false

theorem Resting.of_char (h : src.char i = d)
    (hspace : CodePoint.isWhiteSpace d = false) (hline : CodePoint.isLineTerminator d = false)
    (hslash : d ≠ 0x2f) (hless : d ≠ 0x3c) (hdash : d ≠ 0x2d) : Resting src isModule i := by
  subst h
  refine ⟨hspace, hline, ⟨Bool.eq_false_iff.1 ?_, Bool.eq_false_iff.1 ?_⟩, fun _ => ?_, fun _ => ?_⟩
  · exact Source.not_hasAt_of_char_ne rfl hslash
  · exact Source.not_hasAt_of_char_ne rfl hslash
  · exact Source.not_hasAt_of_char_ne rfl hless
  · exact Source.not_hasAt_of_char_ne rfl hdash

theorem Resting.of_size_le (h : src.size ≤ i) : Resting src isModule i :=
  .of_char (Source.char_of_size_le h) rfl rfl (by decide) (by decide) (by decide)

/-- A module has fewer comments than a script. -/
theorem Resting.module (h : Resting src isModule i) : Resting src true i :=
  { h with opening := nofun }

theorem ensures_triviaRound_rests : Ensures (triviaRound (found, lineStart)) r s (Round.Holds (fun _ _ => True)
    fun xs t => (xs = found.reverse ∧ t = s)
      ∧ ((s.cursor.index = 0 → lineStart = true) → Resting r.source s.isModule s.cursor.index)) := by
  simp only [triviaRound, bind_iff, step_iff, ite_iff, Round.Holds, ensures_peek, Nat.add_zero, decide_eq_true_eq]
  refine ⟨fun hend => ⟨⟨trivial, trivial⟩, fun _ => .of_size_le hend⟩, fun _ _ => ⟨fun _ => trivial, fun hspace =>
    ⟨fun _ => .always fun _ _ => trivial, fun hline => ⟨fun _ => .always fun _ _ => trivial, fun hnoLine =>
      ⟨fun _ => .always fun _ _ => trivial, fun hnoBlock => ⟨fun _ => .always fun _ _ => trivial, fun hnoClose =>
        ⟨fun _ => .always fun _ _ => trivial, fun hnoOpen => ⟨⟨trivial, trivial⟩, fun hstart => ?_⟩⟩⟩⟩⟩⟩⟩⟩
  refine ⟨Bool.eq_false_iff.2 hspace, Bool.eq_false_iff.2 hline, ⟨hnoLine, hnoBlock⟩, fun hmodule => ?_,
    fun hzero => ?_⟩
  · simpa [hmodule] using hnoOpen
  · simpa [hstart hzero] using hnoClose

/-- White space and comments are passed over up to where there are none. -/
theorem ensures_trivia_rests (h : s.cursor.index ≤ r.source.size) : Ensures trivia r s fun _ t =>
    Resting r.source t.isModule t.cursor.index := by
  simp only [trivia, bind_iff, step_iff]
  refine ensures_loop (I := fun x t => t.cursor.index ≤ r.source.size
    ∧ (t.cursor.index = 0 → x.2 = true)) ⟨h, by simp⟩ fun x t ht => ?_
  refine ((meets_triviaRound (E := fun _ => True) ht.1).ensures.and ensures_triviaRound_rests).mono fun y u hu => ?_
  cases y with
  | again y => exact ⟨hu.1.1.bound ht.1, fun hzero => absurd hu.1.2 (by omega)⟩
  | done =>
    obtain ⟨-, ⟨-, rfl⟩, hrests⟩ := hu
    exact hrests ht.2

/-- There they are not found again. -/
theorem meets_trivia_resting (hbound : s.cursor.index ≤ r.source.size)
    (h : Resting r.source s.isModule s.cursor.index) : Meets E trivia r s fun xs t => xs = [] ∧ t = s := by
  have hclosing : (decide (s.cursor.index = 0) && r.source.hasAt s.cursor.index "-->") = false := by
    by_cases hzero : s.cursor.index = 0
    · simp [h.closing hzero]
    · simp [hzero]
  have hopening : (!s.isModule && r.source.hasAt s.cursor.index "<!--") = false := by
    cases hmodule : s.isModule with
    | false => simp [h.opening hmodule]
    | true => rfl
  have hround : Meets E (triviaRound ([], decide (s.cursor.index = 0))) r s fun y t =>
      y = .done [] ∧ t = s := by
    simp only [triviaRound, Meets.bind_iff, Meets.step_iff, Meets.ite_iff, meets_peekHere hbound, h.space, h.line,
      Bool.eq_false_iff.2 h.settled.1, Bool.eq_false_iff.2 h.settled.2, hclosing, hopening]
    simp
  simp only [trivia, loop, Meets.bind_iff, Meets.step_iff]
  rw [EcmaSyntax.rounds, Meets.bind_iff]
  refine hround.mono ?_
  rintro y t ⟨rfl, rfl⟩
  exact ⟨rfl, rfl⟩

end Scan

/-! ### Hidden lines -/

/-- Where the line after a hidden one starts. -/
def Source.hiddenStop (src : Source) : Nat :=
  let stop := src.skipWhile (fun c => !CodePoint.isLineTerminator c) 2
  if stop < src.size then stop + src.terminatorLength stop else stop

/-- A hidden line is not all there is. -/
def Setting.Visible (r : Setting) : Prop :=
  r.source.hasAt 0 "#!" → 2023 ≤ r.edition → r.source.hiddenStop < r.source.size

namespace Scan

variable {r : Setting} {s : ScanState} {E : Failure → Prop}

theorem meets_hashbang_of (hzero : s.cursor.index = 0) (hat : r.source.hasAt 0 "#!")
    (h : ∀ t : ScanState, t.cursor.index = r.source.hiddenStop → t.cursor.index ≤ r.source.size →
      Meets E plainLex r t Q) : Meets E hashbang r s Q := by
  have htwo : (s.cursor.advance 2).index = 2 := by rw [Cursor.advance, hzero]
  have hsize : 2 ≤ r.source.size := Source.size_of_hasAt hat (by decide)
  have hstop : r.source.skipWhile (fun c => !CodePoint.isLineTerminator c) 2 ≤ r.source.size :=
    Source.skipWhile_le_size hsize
  simp only [hashbang, Meets.bind_iff, Meets.step_iff, Meets.ite_iff, htwo, Bool.not_eq_true',
    decide_eq_false_iff_not, Nat.not_le]
  refine ⟨fun hlt => ?_, fun hle => h _ ?_ hstop⟩
  · rw [meets_take (by exact hstop)]
    have hline : CodePoint.isLineTerminator
        (r.source.char (r.source.skipWhile (fun c => !CodePoint.isLineTerminator c) 2)) := by
      simpa using Source.not_test_skipWhile hlt
    refine meets_endLine rfl hline (h _ ?_ ?_)
    · simp [Source.hiddenStop, hlt, Cursor.passTerminator, Cursor.nextLine]
    · exact (Cursor.Moves.passTerminator hline).bound hstop
  · simp [Source.hiddenStop, hle]

/-- If a hidden line is all there is, the end is found at once. -/
theorem meets_lex_of_not_visible (h : ¬ r.Visible) (hzero : s.cursor.index = 0) :
    Meets E lex r s fun t _ => t.lexeme = .eof := by
  simp only [Setting.Visible, Classical.not_imp, Nat.not_lt] at h
  obtain ⟨hat, hsince, hstop⟩ := h
  simp only [lex, Meets.bind_iff, Meets.step_iff, Meets.ite_iff, hzero, hat, hsince, decide_true, Bool.and_true,
    not_true_eq_false, false_implies, and_true]
  refine fun _ => meets_hashbang_of hzero hat fun t ht hbound => ?_
  exact (meets_plainLex_of_le (ht ▸ hstop)).mono fun _ _ hu => hu.1

variable [Refusing E]

theorem meets_lex_of_lt (hv : r.Visible) (h : s.cursor.index < r.source.size) :
    Meets E lex r s fun t _ => t.lexeme ≠ .eof := by
  simp only [lex, Meets.bind_iff, Meets.step_iff, Meets.ite_iff, Bool.and_eq_true, decide_eq_true_eq]
  refine ⟨fun hhidden => ?_, fun _ => (meets_plainLex_of_lt h).mono fun _ _ ht => ht.ne_eof⟩
  obtain ⟨⟨hzero, hat⟩, hsince⟩ := hhidden
  rw [hzero] at hat
  refine meets_hashbang_of hzero hat fun t ht _ => ?_
  exact (meets_plainLex_of_lt (ht ▸ hv hat hsince)).mono fun _ _ hu => hu.ne_eof

end Scan

/-! ### Tokens -/

/-- A token was found from one offset up to another. -/
structure Token.Found (src : Source) (i j : Nat) (t : Token) : Prop where
  le : i ≤ j
  lt : t.lexeme ≠ .eof → i < j
  bound : j ≤ src.size
  ended : t.lexeme = .eof → i = src.size
  place : src.Plain ∨ 0 < i → t.start = i ∧ t.stop = j
  /-- A closing brace is one code point, and stands at the end. -/
  brace : t.lexeme.isMark "\x7d" → ∃ k, i ≤ k ∧ j = k + 1 ∧ src.char k = 0x7d ∧ (src.Plain ∨ 0 < i → k = i)
  closing : src.char i = 0x7d → ¬ src.HasSubstitution → j = i + 1
  slash : t.lexeme.isSlash → src.Plain → src.char i = 0x2f
  template : t.lexeme.isTemplate → t.lexeme ≠ .templateMark ∧ (t.lexeme.isTemplateHead ∨ src.HasSubstitution)

theorem Token.Found.reserve {t : Token} (h : t.Found src i j) : t.reserve.Found src i j := by
  unfold Token.reserve
  split
  · next name hname =>
    split
    · exact ⟨h.le, fun _ => h.lt (by rw [hname]; nofun), h.bound, nofun, h.place, nofun, h.closing, nofun, nofun⟩
    · exact h
  · exact h

theorem Scan.meets_lex_found {E : Failure → Prop} [Refusing E] (hv : r.Visible) (h : s.cursor.index ≤ r.source.size)
    (hb : .substitution ∈ s.braces → r.source.HasSubstitution) :
    Meets E lex r s fun t u => t.Found r.source s.cursor.index u.cursor.index ∧ Guards r.source s u := by
  have hended : Meets E lex r s fun t _ => t.lexeme = .eof → s.cursor.index = r.source.size := by
    rcases Nat.lt_or_eq_of_le h with hlt | heq
    · exact (meets_lex_of_lt hv hlt).mono fun _ _ hne heof => absurd heof hne
    · exact (meets_lex h).mono fun _ _ _ _ => heq
  have hclosing : Ensures lex r s fun _ u => r.source.char s.cursor.index = 0x7d →
      ¬ r.source.HasSubstitution → u.cursor.index = s.cursor.index + 1 :=
    fun _ _ hu hchar hnone => ensures_lex_closing hb hnone hchar _ _ hu
  have hmeets := ((meets_lex (E := E) h).and hended).and_ensures
    ((ensures_lex.and ((ensures_lex_template hb).and hclosing)).and (Guarded.out r s))
  refine hmeets.mono fun t u ⟨⟨honward, hended⟩, ⟨hcovers, htemplate, hclosing⟩, hguards⟩ => ⟨?_, hguards⟩
  have hle : s.cursor.index ≤ u.cursor.index := honward.2.1.elim (Nat.le_of_eq ·.2) Nat.le_of_lt
  have hfirst (hzero : s.cursor.index = 0) (hidden : r.source.hasAt 0 "#!") :
      ¬ (r.source.Plain ∨ 0 < s.cursor.index) := by
    simp [Source.Plain, hidden, hzero]
  refine ⟨hle, fun hne => honward.2.1.resolve_left fun hu => hne hu.1, honward.1, hended, fun hplain => ?_,
    fun hbrace => ?_, hclosing, fun hslash hplain => ?_, htemplate⟩
  · rcases hcovers with hcovers | ⟨hzero, hidden, -⟩
    · exact ⟨hcovers.start, hcovers.stop⟩
    · exact absurd hplain (hfirst hzero hidden)
  · rcases hcovers with hcovers | ⟨hzero, hidden, c, hc, hcovers⟩
    · obtain ⟨hchar, hstop⟩ := hcovers.brace hbrace
      exact ⟨_, Nat.le_refl _, hstop, hchar, fun _ => rfl⟩
    · obtain ⟨hchar, hstop⟩ := hcovers.brace hbrace
      exact ⟨_, hc.le, hstop, hchar, fun hplain => absurd hplain (hfirst hzero hidden)⟩
  · rcases hcovers with hcovers | ⟨-, hidden, -⟩
    · exact hcovers.slash (by simpa [Lexeme.isSlash] using hslash)
    · rw [hplain] at hidden
      cases hidden

/-! ### Markup -/

namespace Scan

variable {r : Setting} {s : ScanState}

/-- A token in a tag lies where it was read, and a closing brace is one code point. -/
theorem ensures_markupLex_place (hplain : r.source.Plain ∨ 0 < s.cursor.index) : Ensures markupLex r s fun t u =>
    (t.start = s.cursor.index ∧ t.stop = u.cursor.index) ∧ (t.lexeme.isMark "\x7d" →
      r.source.char s.cursor.index = 0x7d ∧ u.cursor.index = s.cursor.index + 1) := by
  simp only [markupLex, bind_iff, step_iff, ensures_peek, ite_iff, true_and]
  refine fun _ => ⟨fun _ hbrace => ?_, fun _ => ⟨fun _ => .always fun _ _ hbrace => ?_, fun _ =>
    ⟨fun _ hbrace => ?_, fun _ => ⟨fun _ hbrace => ?_, fun _ => ⟨fun _ hbrace => ?_, fun _ => ?_⟩⟩⟩⟩⟩
  · simp only [Lexeme.isMark, Text.is, beq_iff_eq] at hbrace
    exact ⟨(List.cons.inj hbrace).1, rfl⟩
  · cases hbrace
  · split at hbrace <;> cases hbrace
  · cases hbrace
  · cases hbrace
  · refine ensures_lex.mono fun t u hu => ?_
    rcases hu with hcovers | ⟨hzero, hidden, -⟩
    · exact ⟨⟨hcovers.start, hcovers.stop⟩, hcovers.brace⟩
    · simp [Source.Plain, hidden, hzero] at hplain

/-- The text between tags is empty only if nothing was read. -/
theorem ensures_markupText (h : s.cursor.index ≤ r.source.size) : Ensures markupText r s fun t u =>
    t.start = s.cursor.index ∧ t.stop = u.cursor.index
      ∧ (if t.lexeme = .jsxText [] then u.cursor.index = s.cursor.index
        else s.cursor.index < u.cursor.index) := by
  simp only [markupText, bind_iff, step_iff]
  refine Ensures.mono ?_ fun text t ht => by simpa using ht
  refine ensures_loop (I := fun text t => t.cursor.index ≤ r.source.size ∧ if text = [] then
    t.cursor.index = s.cursor.index else s.cursor.index < t.cursor.index) ⟨h, rfl⟩ fun text t ht => ?_
  have hgo : Ensures (markupTextRound text) r t _ := (meets_markupTextRound (E := fun _ => True) ht.1).ensures
  have hround : Ensures (markupTextRound text) r t (Round.Holds (fun text' _ => text' ≠ [])
      fun text' u => text' = text ∧ u = t) := by
    simp only [markupTextRound, bind_iff, step_iff, ite_iff, ensures_peek, Round.Holds]
    refine ⟨fun _ => ⟨trivial, trivial⟩, fun _ _ => ⟨fun _ => ⟨trivial, trivial⟩, fun _ => ⟨fun _ => ?_,
      fun _ => ?_⟩⟩⟩
    · exact .always fun _ _ => List.append_ne_nil_of_right_ne_nil _ (List.cons_ne_nil _ _)
    · exact List.append_ne_nil_of_right_ne_nil _ (List.cons_ne_nil _ _)
  refine (hgo.and hround).mono fun y u hu => ?_
  cases y with
  | again text' =>
    refine ⟨hu.1.1.bound ht.1, ?_⟩
    rw [if_neg hu.2]
    refine Nat.lt_of_le_of_lt ?_ hu.1.2
    have := ht.2
    split at this <;> omega
  | done text' =>
    obtain ⟨-, rfl, rfl⟩ := hu
    exact ht.2

end Scan

/-! ### Marks -/

/-- Where the token is found that is read at an offset: behind the first line if that is hidden. -/
def Setting.tokenStart (r : Setting) (i : Nat) : Nat :=
  if i = 0 ∧ r.source.hasAt 0 "#!" ∧ 2023 ≤ r.edition then r.source.hiddenStop else i

namespace Scan

variable {r : Setting} {s : ScanState} {w : String}

theorem ensures_punctuator_mark : Ensures punctuator r s fun t _ => ∀ w, t.lexeme.isMark w →
    Punctuator.longestAt? r.source r.edition s.cursor.index = some w :=
  ensures_punctuator_of fun _ _ _ hm htok _ _ h => by
    rw [htok] at h
    exact hm.trans (congrArg some (Text.ofString_is.1 h))

theorem ensures_plainLex_mark : Ensures plainLex r s fun t _ => ∀ w, t.lexeme.isMark w →
    Punctuator.longestAt? r.source r.edition s.cursor.index = some w := by
  have hbare {m : Scan Token} [hm : Bare m] : Ensures m r s fun t _ => ∀ w, t.lexeme.isMark w →
      Punctuator.longestAt? r.source r.edition s.cursor.index = some w := by
    refine (hm.out r s).mono fun t _ ht w h => ?_
    obtain ⟨-, hmark⟩ := ht
    cases hl : t.lexeme <;> rw [hl] at h hmark <;> first | cases h | cases hmark
  refine ensures_plainLex_of (Ensures.step_iff.2 fun w h => ?_) (fun _ => hbare) hbare hbare (fun _ => ?_)
    (fun _ => hbare) ensures_punctuator_mark
  · cases h
  · refine ensures_template_head.mono fun t _ ht w h => ?_
    have htemplate := ht.2.2
    cases hl : t.lexeme <;> rw [hl] at h htemplate <;> first | cases h | cases htemplate

/-- A punctuator is the longest mark where it was found. -/
theorem ensures_lex_mark : Ensures lex r s fun t _ => ∀ w, t.lexeme.isMark w →
    Punctuator.longestAt? r.source r.edition (r.tokenStart s.cursor.index) = some w := by
  simp only [lex, bind_iff, step_iff, ite_iff, Bool.and_eq_true, decide_eq_true_eq]
  refine ⟨fun hhidden => ?_, fun hplain => ?_⟩
  · obtain ⟨⟨hzero, hat⟩, hsince⟩ := hhidden
    rw [hzero] at hat ⊢
    refine Meets.ensures (E := fun _ => True) (meets_hashbang_of hzero hat fun t ht _ => ?_)
    rw [Setting.tokenStart, if_pos ⟨rfl, hat, hsince⟩, ← ht]
    exact .of_ensures ensures_plainLex_mark
  · rw [Setting.tokenStart, if_neg fun h => hplain ⟨⟨h.1, by rw [h.1]; exact h.2.1⟩, h.2.2⟩]
    exact ensures_plainLex_mark

end Scan

end EcmaSyntax
