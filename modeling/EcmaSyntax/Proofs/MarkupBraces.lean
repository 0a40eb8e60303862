import EcmaSyntax.Proofs.Peeking
import EcmaSyntax.Proofs.Running.Program

/-!
# The braces of markup

Where an expression stands in markup it stands in braces. These are tokens of markup, and such tokens neither
open nor close a brace. What is between them is code, however, and the token behind it is looked at as code
too: so the closing brace is read twice, first as a token of code, which closes a brace, and then as a token
of markup. The opening brace is read once. So each expression in markup closes one brace that was open before
it (`Embedding.braces_of_embedding`).
-/

namespace EcmaSyntax

open Parse Grammar
open Ensures (bind_iff step_iff step_bind throw_iff discard_iff ite_iff scan_iff)

set_option synthInstance.maxSize 100000000000000

variable {n : Node} {α : Type} {lo depth : Nat}

/-- No brace and no template is opened at an offset or behind it. -/
def Source.ClosedFrom (src : Source) (lo : Nat) : Prop :=
  ∀ j, lo ≤ j → src.char j ≠ 0x7b ∧ src.char j ≠ 0x60

/-- A word that is reserved in strict code is no brace. -/
theorem Lexeme.bracesAfter_reserve (tok : Token) (braces : List Brace) :
    tok.reserve.lexeme.bracesAfter braces = tok.lexeme.bracesAfter braces := by
  unfold Token.reserve
  split
  · next hname =>
    split
    · rw [hname]
      rfl
    · rfl
  · rfl

namespace Scan

variable {r : Setting} {s : ScanState}

theorem ensures_lex_of_pos {Q : Token → ScanState → Prop} (hpos : 0 < s.cursor.index)
    (h : Ensures plainLex r s Q) : Ensures lex r s Q := by
  simp only [lex, bind_iff, step_iff, ite_iff]
  refine ⟨fun hhidden => ?_, fun _ => h⟩
  simp [Nat.pos_iff_ne_zero.1 hpos] at hhidden

/-- Where nothing opens, a token closes a brace if one stands there, and does nothing else to braces. -/
theorem ensures_lex_closes (hpos : 0 < s.cursor.index) (hbraces : .substitution ∉ s.braces)
    (hopen : r.source.char s.cursor.index ≠ 0x7b) (hquote : r.source.char s.cursor.index ≠ 0x60) :
    Ensures lex r s fun t u => t.start = s.cursor.index ∧ s.cursor.index ≤ u.cursor.index
      ∧ u.braces = if r.source.char s.cursor.index = 0x7d then s.braces.drop 1 else s.braces := by
  have hplace : Ensures lex r s fun t u => t.start = s.cursor.index ∧ s.cursor.index ≤ u.cursor.index := by
    refine ensures_lex.mono fun t u hu => ?_
    rcases hu with hcovers | ⟨hzero, -⟩
    · exact ⟨hcovers.start, hcovers.moves.le⟩
    · exact absurd hzero (Nat.pos_iff_ne_zero.1 hpos)
  refine (hplace.and ?_).mono fun t u hu => ⟨hu.1.1, hu.1.2, hu.2⟩
  by_cases hclose : r.source.char s.cursor.index = 0x7d
  · rw [if_pos hclose]
    refine ensures_lex_brace hclose (fun hhead => absurd (List.mem_of_mem_head? hhead) hbraces) fun _ => ?_
    exact (ensures_punctuator_closing hclose).mono fun _ _ hu => hu.2.2
  · rw [if_neg hclose]
    refine ensures_lex_of_pos hpos ?_
    exact (ensures_plainLex_keeps hquote hopen hclose).mono fun _ _ hu => hu.braces

/-- An opening brace in a tag is one code point. -/
theorem ensures_markupLex_opening (hpos : 0 < s.cursor.index) : Ensures markupLex r s fun t u =>
    t.lexeme.isMark "\x7b" → r.source.char s.cursor.index = 0x7b ∧ u.cursor.index = s.cursor.index + 1 := by
  simp only [markupLex, bind_iff, step_iff, ensures_peek, ite_iff]
  refine fun _ => ⟨fun _ hbrace => ?_, fun hmark => ⟨fun _ => .always fun _ _ hbrace => ?_, fun _ =>
    ⟨fun _ hbrace => ?_, fun _ => ⟨fun _ hbrace => ?_, fun hquote => ⟨fun _ hbrace => ?_, fun _ => ?_⟩⟩⟩⟩⟩
  · simp only [Lexeme.isMark, Text.is, beq_iff_eq] at hbrace
    exact ⟨(List.cons.inj hbrace).1, rfl⟩
  · cases hbrace
  · split at hbrace <;> cases hbrace
  · cases hbrace
  · cases hbrace
  · -- Any other token of code leaves the braces as they are, and a brace would open one.
    have hkeeps : Ensures lex r s fun _ u => Keeps r s u := by
      refine ensures_lex_of_pos hpos (ensures_plainLex_keeps hquote ?_ ?_)
      all_goals
        intro hc
        simp [hc] at hmark
    refine (hkeeps.and ensures_lex_braced).mono fun t u hu hbrace => ?_
    have hsame := hu.2.braces.symm.trans hu.1.braces
    cases hl : t.lexeme with
    | punctuator m =>
      have hm : m.is "\x7b" := by
        rw [hl] at hbrace
        exact hbrace
      rw [hl] at hsame
      simp [Lexeme.bracesAfter, hm] at hsame
    | _ =>
      rw [hl] at hbrace
      cases hbrace

end Scan

/-! ### Code in which nothing opens -/

/-- What is known of code in which nothing opens: it starts at an offset, where some braces are open of
which none is that of a template. -/
structure Shut (c : ParseSetting) (braces : List Brace) (lo : Nat) : Prop where
  pos : 0 < lo
  closed : c.source.ClosedFrom lo
  blocks : .substitution ∉ braces

/-- In such code, braces were closed and none was opened. If the lookahead is a brace, at least one was
closed. -/
structure Sheds (c : ParseSetting) (braces : List Brace) (lo : Nat) (s : ParseState) : Prop where
  start : lo ≤ s.startMark.index
  cursor : s.startMark.index ≤ s.scan.cursor.index
  braces : ∃ k, s.scan.braces = braces.drop k ∧ (c.source.char s.lookahead.start = 0x7d → 0 < k)

/-- A step that opens no brace, and closes none without looking at one. -/
def Law.shedding : Law where
  Holds p := ∀ (c : ParseSetting) (braces : List Brace) (lo : Nat) (s : ParseState),
    Shut c braces lo → Sheds c braces lo s → Ensures p c s fun _ t => Sheds c braces lo t
  pure _ _ _ _ _ _ hs := .pure hs
  bind hp hf c braces lo s hshut hs := (hp c braces lo s hshut hs).bind fun x t ht => hf x c braces lo t hshut ht

abbrev Shedding {γ : Type} (p : Parse γ) : Prop := Obeys .shedding p

instance : Law.shedding.Passive where
  throw _ _ _ _ _ _ _ := throw_iff.2 trivial
  get _ _ _ _ _ hs := step_iff.2 hs
  read _ _ _ _ _ hs := step_iff.2 hs

namespace Sheds

variable {c : ParseSetting} {braces : List Brace} {s : ParseState}

theorem not_mem (h : Sheds c braces lo s) (hshut : Shut c braces lo) : .substitution ∉ s.scan.braces := by
  obtain ⟨k, hk, -⟩ := h.braces
  exact hk ▸ fun hmem => hshut.blocks (List.mem_of_mem_drop hmem)

/-- Behind white space and comments, a token is read. -/
theorem ensures_lex (hshut : Shut c braces lo) (hlo : lo ≤ t.cursor.index)
    (hk : t.braces = braces.drop k) : Ensures Scan.lex c.toSetting t fun found u =>
      found.start = t.cursor.index ∧ t.cursor.index ≤ u.cursor.index
        ∧ ∃ k', k ≤ k' ∧ u.braces = braces.drop k' ∧ (c.source.char found.start = 0x7d → 0 < k') := by
  obtain ⟨hopen, hquote⟩ := hshut.closed _ hlo
  refine (Scan.ensures_lex_closes (Nat.lt_of_lt_of_le hshut.pos hlo)
    (hk ▸ fun hmem => hshut.blocks (List.mem_of_mem_drop hmem)) hopen hquote).mono ?_
  rintro found u ⟨hstart, hle, hbraces⟩
  refine ⟨hstart, hle, ?_⟩
  rw [hk] at hbraces
  split at hbraces
  · exact ⟨k + 1, Nat.le_succ k, by rw [hbraces, List.drop_drop], fun _ => Nat.succ_pos k⟩
  · next hne => exact ⟨k, Nat.le_refl k, hbraces, fun hchar => absurd (hstart ▸ hchar) hne⟩

/-- Whatever the lookahead was, a new one is read. -/
theorem ensures_next (hshut : Shut c braces lo) (hlo : lo ≤ s.scan.cursor.index)
    (hk : s.scan.braces = braces.drop k) : Ensures next c s fun _ t => Sheds c braces lo t := by
  refine Parse.ensures_next ((Scan.ensures_trivia.and (Scan.Steady.out c.toSetting s.scan)).mono ?_)
  rintro _ t ⟨⟨hmoves, -⟩, hkeeps⟩ u ⟨es, -, rfl⟩
  have hle := Nat.le_trans hlo hmoves.le
  refine (ensures_lex hshut hle (hkeeps.braces.trans hk)).mono fun found v hv newline tokens => ?_
  obtain ⟨hstart, hcursor, k', -, hbraces, hclosed⟩ := hv
  have hreserve : found.reserve.start = found.start := by
    unfold Token.reserve
    repeat' split
    all_goals rfl
  refine ⟨?_, ?_, k', hbraces, fun hchar => hclosed ?_⟩
  · rw [startNow_index]
    exact hle
  · rw [startNow_index]
    exact hcursor
  · split at hchar
    · rwa [hreserve] at hchar
    · exact hchar

/-- Nothing changed but what has nothing to do with braces. -/
theorem of_same (h : Sheds c braces lo s) (hstart : t.startMark = s.startMark)
    (hcursor : s.scan.cursor.index ≤ t.scan.cursor.index) (hbraces : t.scan.braces = s.scan.braces)
    (hlookahead : t.lookahead = s.lookahead) : Sheds c braces lo t where
  start := hstart ▸ h.start
  cursor := hstart ▸ Nat.le_trans h.cursor hcursor
  braces := by
    rw [hbraces, hlookahead]
    exact h.braces

end Sheds

namespace Shedding

variable {γ : Type} {p : Parse γ}

theorem out [h : Shedding p] (c : ParseSetting) (braces : List Brace) (lo : Nat) (s : ParseState) (hshut : Shut c braces lo)
    (hs : Sheds c braces lo s) : Ensures p c s fun _ t => Sheds c braces lo t :=
  Obeys.out (L := .shedding) c braces lo s hshut hs

theorem of_same (h : ∀ c s, Ensures p c s fun _ t => t.startMark = s.startMark
    ∧ s.scan.cursor.index ≤ t.scan.cursor.index ∧ t.scan.braces = s.scan.braces
    ∧ t.lookahead = s.lookahead) : Shedding p :=
  ⟨fun c _ _ s _ hs => (h c s).mono fun _ _ ⟨hstart, hcursor, hbraces, hlookahead⟩ =>
    hs.of_same hstart hcursor hbraces hlookahead⟩

theorem ofModify (h : ∀ s, (g s).startMark = s.startMark
    ∧ (g s).scan.cursor = s.scan.cursor ∧ (g s).scan.braces = s.scan.braces
    ∧ (g s).lookahead = s.lookahead) : Shedding (modify g : Parse Unit) :=
  of_same fun _ s => .modify ⟨(h s).1, Nat.le_of_eq (by rw [(h s).2.1]), (h s).2.2⟩

instance (priority := 50) [u : Expands p q] [h : Shedding q] : Shedding p := u.eq ▸ h

instance : Shedding (log isComment n span) :=
  ⟨fun _ _ _ _ _ hs => step_iff.2 (by exact hs.of_same rfl (Nat.le_refl _) rfl rfl)⟩

/-- A scan that leaves the braces alone and does not go back. -/
theorem ofScan (hm : Scan.Steady m)
    (hle : ∀ r s, Ensures m r s fun _ t => s.cursor.index ≤ t.cursor.index) : Shedding (scan m) :=
  of_same fun _ _ => scan_iff.2 <| ((hm.out _ _).and (hle _ _)).mono
    fun _ _ ⟨hkeeps, hle⟩ => ⟨rfl, hle, hkeeps.braces, rfl⟩

/-- What comes after the lookahead may close a brace. -/
instance : Shedding peekBeyond := by
  refine ⟨fun c braces lo s hshut hs => ?_⟩
  obtain ⟨k, hk, hclosed⟩ := hs.braces
  rw [peekBeyond, scan_iff, Scan.ensures_lookahead_iff, bind_iff, discard_iff]
  refine (Scan.ensures_trivia.and (Scan.Steady.out c.toSetting s.scan)).mono ?_
  rintro _ t ⟨⟨hmoves, -⟩, hkeeps⟩
  have hle := Nat.le_trans (Nat.le_trans hs.start hs.cursor) hmoves.le
  refine (Sheds.ensures_lex hshut hle (hkeeps.braces.trans hk)).mono ?_
  rintro found u ⟨-, -, k', hkk', hbraces, -⟩
  exact ⟨hs.start, hs.cursor, k', hbraces, fun hchar => Nat.lt_of_lt_of_le (hclosed hchar) hkk'⟩

instance : Shedding peekMarkup := by
  refine ⟨fun c braces lo s hshut hs => Peek.ensures_peekMarkup.mono ?_⟩
  rintro _ t ⟨hframe, -, -, hkeeps⟩
  have hpos := Nat.lt_of_lt_of_le hshut.pos (Nat.le_trans hs.start hs.cursor)
  have hbraces := hkeeps hpos
  rw [hframe]
  exact hs.of_same rfl (Nat.le_refl _) hbraces rfl

theorem ofQuiet (h : Quiet true p) : Shedding p := by
  induction h with
  | bind _ _ ihp ihf => exact .seq ihf
  | setContext f => exact ofModify fun _ => ⟨rfl, rfl, rfl, rfl⟩
  | forgive e =>
    have hrecord : Shedding (modify fun s =>
        { s with scan := { s.scan with errors := s.scan.errors.push e } } : Parse Unit) :=
      ofModify fun _ => ⟨rfl, rfl, rfl, rfl⟩
    unfold Parse.forgive
    infer_instance
  | settings _ _ ih => exact .seq ih
  | since year _ => unfold Parse.since; infer_instance
  | unrecord | enterModule => exact ofModify fun _ => ⟨rfl, rfl, rfl, rfl⟩
  | scanAtEnd | scanPeek => exact ofScan inferInstance fun _ _ => by simp
  | _ => infer_instance

/-! #### Steps -/

instance (priority := low) [h : Quiet true p] : Shedding p := ofQuiet h

instance : Shedding (record t) := ofModify fun _ => ⟨rfl, rfl, rfl, rfl⟩
instance : Shedding markLast := ofModify fun _ => ⟨rfl, rfl, rfl, rfl⟩

instance : Shedding passTrivia := by
  refine of_same fun c s => ensures_passTrivia ?_
  refine (Scan.ensures_trivia.and (Scan.Steady.out c.toSetting s.scan)).mono ?_
  rintro _ t ⟨⟨hmoves, -⟩, hkeeps⟩ u ⟨es, -, rfl⟩
  exact ⟨rfl, hmoves.le, hkeeps.braces, rfl⟩

instance : Shedding next := by
  refine ⟨fun c braces lo s hshut hs => ?_⟩
  obtain ⟨k, hk, -⟩ := hs.braces
  exact Sheds.ensures_next hshut (Nat.le_trans hs.start hs.cursor) hk

instance : Shedding semicolon := by
  have hlast : Shedding (modify fun s => { s with lastMark := s.startMark } : Parse Unit) :=
    ofModify fun _ => ⟨rfl, rfl, rfl, rfl⟩
  infer_instance

/-- The slash that turns out to start a regular expression is read again. -/
instance : Shedding regexLiteral := by
  refine ⟨fun c braces lo s hshut hs => ?_⟩
  obtain ⟨k, hk, -⟩ := hs.braces
  simp only [regexLiteral, notTarget, bind_iff, step_iff, scan_iff]
  refine ensures_nextRegex ((Scan.ensures_trivia.and (Scan.Steady.out c.toSetting _)).mono ?_)
  rintro _ t ⟨⟨hmoves, -⟩, hkeeps⟩ u ⟨es, -, rfl⟩
  refine (Scan.ensures_regex.and (Scan.Steady.out c.toSetting t)).mono ?_
  rintro found v ⟨⟨hcovers, -⟩, hkeeps'⟩ tokens
  have hle := Nat.le_trans hs.start (Nat.le_trans hmoves.le hcovers.moves.le)
  refine (Sheds.ensures_next hshut hle ((hkeeps.trans hkeeps').braces.trans hk)).mono fun _ w hw => ?_
  split
  · exact Shedding.out c braces lo w hshut hw
  · exact ensures_unexpected

/-- There is no template to go on with. -/
instance : Shedding resumeTemplate := by
  refine ⟨fun c braces lo s hshut hs => ?_⟩
  have hnone := hs.not_mem hshut
  simp only [resumeTemplate, bind_iff, step_iff]
  simpa [hnone] using hs

/-! #### Markup -/

instance : Shedding enterMarkup := by
  refine ⟨fun c braces lo s hshut hs => ?_⟩
  simp only [enterMarkup, bind_iff, step_iff, scan_iff]
  exact ⟨hs.start, Nat.le_refl _, hs.braces⟩

/-- A token of markup opens and closes nothing. -/
theorem ofMarkToken (hm : ∀ r s, 0 < s.cursor.index →
    Ensures m r s fun _ t => s.cursor.index ≤ t.cursor.index ∧ t.braces = s.braces) :
    Shedding (markToken m) := by
  refine ⟨fun c braces lo s hshut hs => ?_⟩
  have hle := Nat.le_trans hs.start hs.cursor
  simp only [markToken, bind_iff, step_iff, scan_iff]
  refine (hm _ _ (Nat.lt_of_lt_of_le hshut.pos hle)).mono fun _ t ht => ?_
  exact ⟨hle, ht.1, ht.2 ▸ hs.braces⟩

instance : Shedding nextMarkup := by
  have hlex : Shedding (markToken Scan.markupLex) := by
    refine ofMarkToken fun r s hpos => (Scan.ensures_markupLex.and Scan.ensures_markupLex_braced).mono ?_
    rintro _ t ⟨hmoves, -, hkeeps⟩
    exact ⟨hmoves.elim (·.le) (·.2.1.le), (hkeeps hpos).braces⟩
  infer_instance

instance : Shedding nextMarkupText := by
  have htext : Shedding (markToken Scan.markupText) := by
    refine ofMarkToken fun r s _ => (Scan.ensures_markupText_moves.and (Scan.Steady.out r s)).mono ?_
    rintro _ t ⟨hmoves, hkeeps⟩
    exact ⟨hmoves.le, hkeeps.braces⟩
  infer_instance

end Shedding

theorem Primitive.shedding (h : Primitive p) : Shedding p := by
  cases h with
  | quiet h => exact .ofQuiet h
  | _ => infer_instance

/-- Runs open no brace, and close none without looking at one. -/
def StepProperty.shedding : StepProperty where
  Holds p c s := ∀ braces lo, Shut c braces lo → Sheds c braces lo s → Ensures p c s fun _ t => Sheds c braces lo t
  primitive hp _ braces lo := hp.shedding.out _ braces lo _
  bind {_ _ _ _ c _} hp hf braces lo hshut hs := by
    refine .seq fun x t hx => ?_
    exact hf x t ⟨c.tolerant, hx⟩ braces lo hshut (hp braces lo hshut hs x t hx)
  read _ h := h

def RunProperty.shedding : RunProperty :=
  StepProperty.shedding.toRunProperty fun _ _ _ c s _ braces lo => Shedding.out c braces lo s

/-! ### Expressions in markup -/

/-- The places of markup where an expression stands in braces. -/
inductive Embedding where
  /-- The value of an attribute. -/
  | value
  /-- Attributes that come from an object. -/
  | spread
  /-- What stands between two tags. -/
  | child
  deriving DecidableEq, Repr, Inhabited

namespace Embedding

variable {Q : α → ParseState → Prop}

/-- Reads the expression and its braces. -/
def parse : Embedding → Recur → Parse Node
  | .value => attributeExpression
  | .spread => spreadAttribute
  | .child => expressionContainer

variable {c : ParseSetting} {s t u : ParseState}

/-- Only tokens of markup were read since a state. -/
structure Tagwise (c : ParseSetting) (s t : ParseState) : Prop where
  tagged : Tagged c t
  le : s.scan.cursor.index ≤ t.scan.cursor.index
  braces : t.scan.braces = s.scan.braces

namespace Tagwise

theorem refl (h : Tagged c s) : Tagwise c s s := ⟨h, Nat.le_refl _, rfl⟩

theorem trans (h : Tagwise c s t) (h' : Tagwise c t u) : Tagwise c s u :=
  ⟨h'.tagged, Nat.le_trans h.le h'.le, h'.braces.trans h.braces⟩

theorem passTrivia (h : Tagwise c s t) : Ensures passTrivia c t fun _ u => Tagwise c s u := by
  have hsame : Ensures Parse.passTrivia c t fun _ u =>
      t.scan.cursor.index ≤ u.scan.cursor.index ∧ u.scan.braces = t.scan.braces := by
    refine ensures_passTrivia ((Scan.ensures_trivia.and (Scan.Steady.out c.toSetting t.scan)).mono ?_)
    rintro _ v ⟨⟨hmoves, -⟩, hkeeps⟩ u ⟨es, -, rfl⟩
    exact ⟨hmoves.le, hkeeps.braces⟩
  refine (h.tagged.meets_trivia.ensures.and hsame).mono ?_
  rintro _ u ⟨⟨htagged, -⟩, hle, hbraces⟩
  exact h.trans ⟨htagged, hle, hbraces⟩

theorem markupHere (h : Tagwise c s t) : Ensures markupHere c t fun _ u => Tagwise c s u := by
  simp only [Grammar.markupHere, cursorMark, bind_iff, step_iff]
  exact h.passTrivia

/-- A step that reads nothing. -/
theorem calm [hp : Calm c .markup p] (h : Tagwise c s t)
    (hsame : Ensures p c t fun _ u => u.scan.braces = t.scan.braces) :
    Ensures p c t fun _ u => Tagwise c s u := by
  refine ((hp.out t h.tagged).ensures.and hsame).mono ?_
  rintro _ u ⟨halike, hbraces⟩
  exact h.trans ⟨halike.holds (k := .markup) h.tagged, Nat.le_of_eq halike.index.symm, hbraces⟩

theorem seesMarkup (h : Tagwise c s t) (hpos : 0 < s.scan.cursor.index) :
    Ensures (seesMarkup marks) c t fun _ u => Tagwise c s u := by
  refine h.calm ?_
  simp only [Grammar.seesMarkup, bind_iff, step_iff]
  exact Peek.ensures_peekMarkup.mono fun _ u hu => hu.2.2.2 (Nat.lt_of_lt_of_le hpos h.le)

theorem expectMarkup (h : Tagwise c s t) (hpos : 0 < s.scan.cursor.index) :
    Ensures (expectMarkup mark) c t fun _ u => Tagwise c s u ∧ (mark = "\x7b" →
      ∃ i, s.scan.cursor.index ≤ i ∧ i < u.scan.cursor.index ∧ c.source.char i = 0x7b) := by
  have hread : Ensures nextMarkup c t fun tok u => s.scan.cursor.index ≤ u.scan.cursor.index
      ∧ u.scan.braces = t.scan.braces ∧ (tok.lexeme.isMark "\x7b" →
        ∃ i, s.scan.cursor.index ≤ i ∧ i < u.scan.cursor.index ∧ c.source.char i = 0x7b) := by
    rw [nextMarkup, bind_iff]
    refine ensures_passTrivia ((Scan.ensures_trivia.and (Scan.Steady.out c.toSetting t.scan)).mono ?_)
    rintro _ v ⟨⟨hmoves, -⟩, hkeeps⟩ u ⟨es, -, rfl⟩
    have hle : s.scan.cursor.index ≤ v.cursor.index := Nat.le_trans h.le hmoves.le
    have hlex := Scan.ensures_markupLex.and (Scan.ensures_markupLex_braced.and
      (Scan.ensures_markupLex_opening (r := c.toSetting) (Nat.lt_of_lt_of_le hpos hle)))
    simp only [markToken, bind_iff, step_iff, scan_iff]
    refine hlex.mono ?_
    rintro tok w ⟨hmoves', ⟨-, hkeeps'⟩, hopening⟩
    have hle' : v.cursor.index ≤ w.cursor.index := hmoves'.elim (·.le) (·.2.1.le)
    refine ⟨Nat.le_trans hle hle', ?_, fun hmark => ?_⟩
    · exact (hkeeps.trans (hkeeps' (Nat.lt_of_lt_of_le hpos hle))).braces
    · obtain ⟨hchar, hstop⟩ := hopening hmark
      exact ⟨v.cursor.index, hle, hstop ▸ Nat.lt_succ_self _, hchar⟩
  rw [Grammar.expectMarkup, bind_iff]
  refine (h.tagged.meets_nextMarkup.ensures.and hread).mono ?_
  rintro tok u ⟨htagged, hle, hbraces, hopening⟩
  split
  · next hmark =>
    have hne {l : Lexeme} (hl : l.isMark mark = false) : tok.lexeme ≠ l := fun heq => by
      rw [heq, hl] at hmark
      cases hmark
    refine .pure ⟨⟨(htagged (hne rfl) (hne rfl)).1, hle, hbraces.trans h.braces⟩, ?_⟩
    rintro rfl
    exact hopening hmark
  · exact ensures_unexpected

end Tagwise

/-- Behind an opening brace at `lo - 1`, the expression is about to be read as code. -/
structure Entered (c : ParseSetting) (s : ParseState) (lo : Nat) (v : ParseState) : Prop where
  ready : Ready c v
  pos : 0 < v.startMark.index
  braces : v.scan.braces = v.lookahead.lexeme.bracesAfter s.scan.braces
  sheds : Shut c s.scan.braces lo → Sheds c s.scan.braces lo v

/-- The expression was read as code, and so was the brace behind it. -/
structure Left (c : ParseSetting) (r : Recur) (s : ParseState) (lo : Nat) (t : ParseState) : Prop where
  code : ∃ v e u, v.scan.braces = v.lookahead.lexeme.bracesAfter s.scan.braces
    ∧ r.assignment c v = .ok e u ∧ c.source.char u.startMark.index = 0x7d
    ∧ t.scan.braces = u.scan.braces
  sheds : Shut c s.scan.braces lo → ∃ k, t.scan.braces = s.scan.braces.drop (k + 1)

theorem Tagwise.leaveMarkup (h : Tagwise c s t) (hpos : 0 < s.scan.cursor.index)
    (hlo : lo ≤ t.scan.cursor.index) : Ensures Grammar.leaveMarkup c t fun _ v => Entered c s lo v := by
  have hbraces : Ensures Grammar.leaveMarkup c t fun _ v => t.scan.cursor.index ≤ v.startMark.index
      ∧ v.scan.braces = v.lookahead.lexeme.bracesAfter t.scan.braces := by
    rw [Grammar.leaveMarkup, skip, discard_iff]
    refine Parse.ensures_next ((Scan.ensures_trivia.and (Scan.Steady.out c.toSetting t.scan)).mono ?_)
    rintro _ v ⟨⟨hmoves, -⟩, hkeeps⟩ u ⟨es, -, rfl⟩
    refine Scan.ensures_lex_braced.mono fun found w hw newline tokens => ⟨?_, ?_⟩
    · dsimp only
      rw [startNow_index]
      exact hmoves.le
    · rw [hw.braces, hkeeps.braces]
      split
      · rw [Lexeme.bracesAfter_reserve]
      · rfl
  have hsheds : Ensures Grammar.leaveMarkup c t fun _ v =>
      Shut c s.scan.braces lo → Sheds c s.scan.braces lo v := by
    rw [Grammar.leaveMarkup, skip, discard_iff]
    exact fun x v hv hshut => Sheds.ensures_next (k := 0) hshut hlo h.braces x v hv
  refine (h.tagged.meets_skip.ensures.and (hbraces.and hsheds)).mono ?_
  rintro _ v ⟨⟨hready, -⟩, ⟨hle, hbraces⟩, hsheds⟩
  exact ⟨hready, Nat.lt_of_lt_of_le hpos (Nat.le_trans h.le hle), h.braces ▸ hbraces, hsheds⟩

/-- An error that is tolerated says nothing about braces. -/
theorem Entered.tolerate (h : Entered c s lo t) :
    Ensures (tolerate cause) c t fun _ v => Entered c s lo v := by
  simp only [Parse.tolerate, errorBehind, forgive, fail, bind_iff, step_iff, ite_iff, throw_iff, implies_true,
    and_true]
  intro _
  have hready := h.ready
  refine ⟨⟨hready.scanned rfl hready.bound ⟨.inl, rfl⟩, hready.found, hready.rests, hready.noted,
    hready.remarked⟩, h.pos, h.braces, fun hshut => ?_⟩
  exact (h.sheds hshut).of_same rfl (Nat.le_refl _) rfl rfl

/-- The brace that ends the code is read as a token of markup, which closes nothing. -/
theorem ensures_reenterMarkup (h : Ready c u) (hpos : 0 < u.startMark.index) : Ensures reenterMarkup c u fun _ t =>
      c.source.char u.startMark.index = 0x7d ∧ t.scan.braces = u.scan.braces := by
  have hbound := Nat.le_trans h.found.le h.bound
  simp only [reenterMarkup, enterMarkup, bind_iff, step_iff, scan_iff, Grammar.expectMarkup, nextMarkup]
  refine (meets_passTrivia_resting (E := fun _ => True) hbound h.rests).ensures.mono fun _ v hv => ?_
  subst hv
  simp only [markToken, step_iff, scan_iff, bind_iff, ite_iff]
  refine ((Scan.ensures_markupLex_place (.inr hpos)).and Scan.ensures_markupLex_braced).mono ?_
  rintro tok w ⟨⟨-, hbrace⟩, -, hkeeps⟩
  exact ⟨fun hmark => ⟨(hbrace hmark).1, (hkeeps hpos).braces⟩, fun _ => ensures_unexpected⟩

/-- The expression is read, and the brace behind it is read for a second time. -/
theorem Entered.expression {f : Node → Parse α} (hdepth : 2 * c.source.size + 2 ≤ depth) (h : Entered c s lo t)
    (hf : ∀ e u, Left c (run depth) s lo u → Ensures (f e) c u Q) : Ensures (do
      let e ← (run depth).assignment
      reenterMarkup
      f e) c t Q := by
  have hgrants : (run depth).Grants c (2 * Mode.code.left c t + 1) :=
    (run_grants c depth).mono (by simp only [Mode.left]; omega)
  have hruns : Runs c (run depth) 1 .code .code Always (run depth).assignment := inferInstance
  have hreads : Reads View.unit (run depth).assignment := inferInstance
  have hcode := (hruns.out t hgrants h.ready).ensures
  refine .seq fun e u hu => ?_
  obtain ⟨hready, -, hleft⟩ := hcode e u hu
  have hpos : 0 < u.startMark.index := by
    have hlt := hleft trivial
    simp only [Mode.left] at hlt
    omega
  refine (ensures_reenterMarkup hready hpos).bind fun _ v hv => hf e v ?_
  obtain ⟨hchar, hbraces⟩ := hv
  refine ⟨⟨t, e, u, h.braces, hu, hchar, hbraces⟩, fun hshut => ?_⟩
  have hsheds := (hreads.out ()).along .shedding c t h.ready.formed _ lo hshut (h.sheds hshut) e u hu
  obtain ⟨k, hk, hclosed⟩ := hsheds.braces
  rw [(hready.found.place (.inr hpos)).1] at hclosed
  exact ⟨k - 1, by rw [hbraces, hk, Nat.sub_add_cancel (hclosed hchar)]⟩

/-- Nothing stands between the braces. -/
def IsEmpty (n : Node) : Prop := ∃ e : Node, n.get "expression" = .node e ∧ e.is .jsxEmptyExpression

theorem ensures_finish_braces : Ensures (finish start n) c t fun _ u => u.scan.braces = t.scan.braces := by
  simp only [step_iff]

theorem Tagwise.emptyExpression (h : Tagwise c s t) :
    Ensures emptyExpression c t fun e u => Tagwise c s u ∧ e.is .jsxEmptyExpression := by
  rw [Grammar.emptyExpression, step_bind, bind_iff]
  refine h.passTrivia.mono fun _ u hu => ?_
  rw [step_bind]
  have hv := step_iff.1 (hu.calm (p := markLast) (.modify rfl))
  refine ((hv.calm ensures_finish_braces).and (ensures_finish_idle hv.tagged.formed.idle)).mono ?_
  rintro e _ ⟨hw, rfl⟩
  exact ⟨hw, rfl⟩

/-- The opening brace is read. -/
theorem ensures_opening {f : Mark → Parse α} (hs : Tagged c s)
    (hpos : 0 < s.scan.cursor.index) (hf : ∀ start u i, Tagwise c s u → s.scan.cursor.index ≤ i →
      c.source.char i = 0x7b → i + 1 ≤ u.scan.cursor.index → Ensures (f start) c u Q) : Ensures (do
      let start ← Grammar.markupHere
      Grammar.expectMarkup "\x7b"
      f start) c s Q := by
  refine (Tagwise.refl hs).markupHere.bind fun start t ht => ?_
  refine (ht.expectMarkup hpos).bind fun _ u hu => ?_
  obtain ⟨htagwise, hbrace⟩ := hu
  obtain ⟨i, hi, hlt, hchar⟩ := hbrace rfl
  exact hf start u i htagwise hi hchar hlt

/-- A node is finished behind the closing brace. -/
theorem Left.finish (h : Left c r s lo t) : Ensures (finish start n) c t fun _ u => Left c r s lo u := by
  refine ensures_finish_braces.mono fun _ u hu => ⟨?_, fun hshut => hu ▸ h.sheds hshut⟩
  rw [hu]
  exact h.code

/-- What is read in braces is nothing, or is read as code. -/
theorem ensures_parse (p : Embedding) (hs : Tagged c s) (hpos : 0 < s.scan.cursor.index)
    (hdepth : 2 * c.source.size + 2 ≤ depth) : Ensures (p.parse (run depth)) c s fun n t =>
      (p = .child ∧ IsEmpty n ∧ t.scan.braces = s.scan.braces)
      ∨ ∃ i, s.scan.cursor.index ≤ i ∧ c.source.char i = 0x7b ∧ Left c (run depth) s (i + 1) t := by
  have hleft {i : Nat} {t : ParseState} (start : Mark) (n : Node) (hi : s.scan.cursor.index ≤ i)
      (hchar : c.source.char i = 0x7b) (h : Left c (run depth) s (i + 1) t) :
      Ensures (finish start n) c t fun n t => (p = .child ∧ IsEmpty n ∧ t.scan.braces = s.scan.braces)
        ∨ ∃ i, s.scan.cursor.index ≤ i ∧ c.source.char i = 0x7b ∧ Left c (run depth) s (i + 1) t :=
    h.finish.mono fun _ _ hu => .inr ⟨i, hi, hchar, hu⟩
  cases p with
  | value =>
    refine ensures_opening hs hpos fun start u i hu hi hchar hlo => ?_
    refine (hu.leaveMarkup hpos hlo).bind fun _ v hv => ?_
    simp only [bind_iff, step_iff]
    have hcode {w : ParseState} (hw : Entered c s (i + 1) w) :=
      hw.expression hdepth fun e _ hx => hleft start (.jsxExpressionContainer e) hi hchar hx
    split
    · exact hv.tolerate.bind fun _ w hw => hcode hw
    · exact hcode hv
  | spread =>
    refine ensures_opening hs hpos fun start u i hu hi hchar hlo => ?_
    have hpos' := Nat.lt_of_lt_of_le hpos hu.le
    refine ((Tagwise.refl hu.tagged).expectMarkup hpos').bind fun _ v hv => ?_
    refine ((hu.trans hv.1).leaveMarkup hpos (Nat.le_trans hlo hv.1.le)).bind
      fun _ w hw => hw.expression hdepth fun e _ hx => ?_
    exact hleft _ _ hi hchar hx
  | child =>
    refine ensures_opening hs hpos fun start u i hu hi hchar hlo => ?_
    have hpos' := Nat.lt_of_lt_of_le hpos hu.le
    refine ((Tagwise.refl hu.tagged).seesMarkup hpos').bind fun isEmpty v hv => ?_
    split
    · refine (hu.trans hv).emptyExpression.bind fun e w hw => ?_
      refine (hw.1.expectMarkup hpos).bind fun _ x hx => ?_
      refine ((ensures_finish_idle hs.formed.idle).and ensures_finish_braces).mono ?_
      rintro n y ⟨rfl, hbraces⟩
      exact .inl ⟨rfl, ⟨e, rfl, hw.2⟩, hbraces.trans hx.1.braces⟩
    · refine ((hu.trans hv).leaveMarkup hpos (Nat.le_trans hlo hv.le)).bind
        fun _ w hw => hw.expression hdepth fun e _ hx => ?_
      exact hleft _ _ hi hchar hx

/-- **The braces of an expression in markup.** Its own braces open and close nothing. If there is nothing
between them, then the same braces are open before and after. Otherwise all up to the closing brace is
read as code, and that brace with it. So if no other brace is opened from there on, then some brace
that was open before is closed. -/
theorem braces_of_embedding (p : Embedding) {c : ParseSetting} {s t : ParseState} {n : Node} {depth : Nat}
    (hs : Tagged c s) (hpos : 0 < s.scan.cursor.index) (hdepth : 2 * c.source.size + 2 ≤ depth)
    (h : p.parse (run depth) c s = .ok n t) :
    (p = .child ∧ IsEmpty n ∧ t.scan.braces = s.scan.braces)
    ∨ (∃ v e u, v.scan.braces = v.lookahead.lexeme.bracesAfter s.scan.braces
        ∧ (run depth).assignment c v = .ok e u ∧ c.source.char u.startMark.index = 0x7d
        ∧ t.scan.braces = u.scan.braces)
      ∧ (.substitution ∉ s.scan.braces → (∀ i, s.scan.cursor.index ≤ i → c.source.char i = 0x7b →
          c.source.ClosedFrom (i + 1)) → ∃ k, t.scan.braces = s.scan.braces.drop (k + 1)) := by
  refine (ensures_parse p hs hpos hdepth n t h).imp_right ?_
  rintro ⟨i, hi, hchar, hleft⟩
  refine ⟨hleft.code, fun hblocks hclosed => hleft.sheds ⟨Nat.succ_pos i, hclosed i hi hchar, hblocks⟩⟩

/-- An opening tag that stands in place of the lookahead. -/
theorem ensures_openingElement (hs : Ready c s) (hjsx : c.jsx)
    (hne : s.lookahead.lexeme ≠ .eof) (hdepth : 2 * c.source.size + 2 ≤ depth) : Ensures (do
      unrecord
      enterMarkup
      openingElement (run depth)) c s fun _ t => Tagged c t := by
  rw [← bind_assoc]
  refine (hs.meets_enterMarkup hjsx hne).ensures.bind fun _ t ht => ?_
  have hruns : Runs c (run depth) 2 .markup .markup Always (openingElement (run depth)) := inferInstance
  have hgrants : (run depth).Grants c (2 * Mode.markup.left c t + 2) :=
    (run_grants c depth).mono (by simp only [Mode.left]; omega)
  exact (hruns.out t hgrants ht.1).ensures.mono fun _ _ hu => hu.1

/-- A name between two tags, in a block: the brace of the block is closed. -/
theorem braces_of_embedding_in_block :
    let source := Source.ofText "\x7b<a>\x7bb\x7d</a>\x7d"
    let c : ParseSetting := ⟨⟨source, 2024, false⟩, true, false, .idle⟩
    ∃ s n t, Tagged c s ∧ 0 < s.scan.cursor.index ∧ 2 * c.source.size + 2 ≤ 26
      ∧ child.parse (run 26) c s = .ok n t ∧ s.scan.braces = [.block]
      ∧ ((child = .child ∧ IsEmpty n ∧ t.scan.braces = s.scan.braces)
        ∨ (∃ v e u, v.scan.braces = v.lookahead.lexeme.bracesAfter s.scan.braces
            ∧ (run 26).assignment c v = .ok e u ∧ c.source.char u.startMark.index = 0x7d
            ∧ t.scan.braces = u.scan.braces)
          ∧ (.substitution ∉ s.scan.braces → (∀ i, s.scan.cursor.index ≤ i → c.source.char i = 0x7b →
              c.source.ClosedFrom (i + 1)) → ∃ k, t.scan.braces = s.scan.braces.drop (k + 1))) := by
  intro source c
  have hrun : Yields (do begin; skip) c (.start source) fun _ a => decide (a.lookahead.lexeme ≠ .eof)
      && Yields (do unrecord; enterMarkup; openingElement (run 26)) c a fun _ s =>
        decide (0 < s.scan.cursor.index ∧ s.scan.braces = [.block])
          && Yields (child.parse (run 26)) c s fun _ _ => true := by decide +kernel
  obtain ⟨_, a, ha, hrun⟩ := exists_of_yields hrun
  obtain ⟨hne, hrun⟩ := Bool.and_eq_true_iff.1 hrun
  obtain ⟨_, s, hs, hrun⟩ := exists_of_yields hrun
  obtain ⟨hplace, hrun⟩ := Bool.and_eq_true_iff.1 hrun
  obtain ⟨n, t, ht, -⟩ := exists_of_yields hrun
  obtain ⟨hpos, hbraces⟩ := of_decide_eq_true hplace
  have hdepth : 2 * c.source.size + 2 ≤ 26 := by decide
  have hvisible : c.toSetting.Visible := fun hidden => absurd hidden (by decide)
  have hbegin : Ensures (do begin; skip) c (.start source) fun _ a => Ready c a :=
    (meets_begin rfl hvisible fun _ => trivial).ensures.bind fun _ b hb =>
      discard_iff.2 (hb.1.meets_next.ensures.mono fun _ _ hu => hu.1)
  have htagged := ensures_openingElement (hbegin _ a ha) rfl (of_decide_eq_true hne) hdepth _ s hs
  exact ⟨s, n, t, htagged, hpos, hdepth, ht, hbraces, braces_of_embedding child htagged hpos hdepth ht⟩

/-- So the braces that are open before and after an expression in markup are not the same. -/
theorem braces_not_of_embedding :
    let source := Source.ofText "\x7b<a>\x7bb\x7d</a>\x7d"
    let c : ParseSetting := ⟨⟨source, 2024, false⟩, true, false, .idle⟩
    ∃ s n t, (do begin; skip; unrecord; enterMarkup; discard (openingElement (run 26))) c (.start source) = .ok () s
      ∧ child.parse (run 26) c s = .ok n t ∧ s.scan.braces = [.block] ∧ t.scan.braces = [] := by
  intro source c
  have hrun : Yields (do begin; skip; unrecord; enterMarkup; discard (openingElement (run 26))) c
      (.start source) fun _ s => Yields (child.parse (run 26)) c s fun _ t =>
        decide (s.scan.braces = [.block] ∧ t.scan.braces = []) := by decide +kernel
  obtain ⟨_, s, hs, hrun⟩ := exists_of_yields hrun
  obtain ⟨n, t, ht, hbraces⟩ := exists_of_yields hrun
  exact ⟨s, n, t, hs, ht, of_decide_eq_true hbraces⟩

end Embedding

end EcmaSyntax
