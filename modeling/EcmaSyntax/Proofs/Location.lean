import EcmaSyntax.Proofs.Advance
import EcmaSyntax.Proofs.Forms

/-!
# Where nodes are

A node starts where its first token starts and ends where its last one ends, and what it is made of
lies in between. `View.places` keeps track of that: its moments say where the lookahead starts and
where the last token ends (`Stage`), and a span fits between two moments if it starts after the first
one and ends before the second one (`Span.Fits`).

The marks of a span are the places of its offsets. There is one exception: the place of a token is
worked out from the line on which it ends, and so it may be wrong if the token goes over several lines
(`Mark.Placed`).

All this is about sources without markup, in which errors are not tolerated. If the first line of a
source is hidden, then the first token starts behind it, and what starts there need not lie in what
starts at the very beginning. So ranges are only told of sources that are `Source.Plain`.
-/

namespace EcmaSyntax

open Parse

/-- No line of the source is hidden. -/
def Source.Plain (src : Source) : Prop := src.hasAt 0 "#!" = false

theorem Source.char_zero_of_hidden {src : Source} (h : src.hasAt 0 "#!") : src.char 0 = 0x23 :=
  (Option.some.inj (char_of_hasAt (k := 0) h (by decide))).symm

/-- What a token may start with if it goes over several lines. -/
def CodePoint.longMarks : List CodePoint := [0x22, 0x27, 0x60, 0x7d]

/-- A mark is the place of its offset, unless a token starts there that may go over several lines. -/
def Mark.Placed (src : Source) (m : Mark) : Prop :=
  m = src.place m.index ∨ src.char m.index ∈ CodePoint.longMarks

/-- How far a run has come: where the lookahead starts, where the last token ends, and whether there is
one. -/
structure Stage where
  start : Nat
  last : Nat
  read : Bool

/-- A run does not go back. -/
structure Stage.Later (a b : Stage) : Prop where
  start : a.start ≤ b.start
  last : a.last ≤ b.last
  read : a.read → b.read

namespace Stage.Later

variable {a b c : Stage}

theorem refl (a : Stage) : a.Later a := ⟨Nat.le_refl _, Nat.le_refl _, id⟩

theorem trans (h : a.Later b) (h' : b.Later c) : a.Later c :=
  ⟨Nat.le_trans h.start h'.start, Nat.le_trans h.last h'.last, h'.read ∘ h.read⟩

end Stage.Later

/-- A span lies in what was read from one stage to another, and its marks are right. -/
structure Span.Fits (src : Source) (a b : Stage) (sp : Span) : Prop where
  order : src.Plain → a.start ≤ sp.first.index ∧ sp.first.index ≤ sp.last.index ∧ sp.last.index ≤ b.last
  first : sp.first.Placed src
  last : sp.last = src.place sp.last.index

/-- What starts a token: in a plain source, it starts where the lookahead does. -/
structure Token.Begins (src : Source) (w : Stage) (t : Token) : Prop where
  start : src.Plain → t.start = w.start
  /-- If this is a slash, it stands there, or the line is hidden. -/
  slash : t.lexeme.isSlash → src.char w.start = 0x2f ∨ src.char w.start = 0x23
  placed (k : Nat) : (t.startMark k).Placed src

theorem Token.startMark_index (t : Token) (k : Nat) : (t.startMark k).index = t.start := by
  unfold startMark
  dsimp only
  split <;> rfl

/-- The view of where nodes are. -/
def View.places (src : Source) : View where
  Moment := Stage
  later a b := src.Plain → a.Later b
  reached a b := src.Plain → a.start ≤ b.last ∧ b.read
  opens w m := (src.Plain → m.index = w.start) ∧ m.Placed src
  begins w t := t.Begins src w
  covers w w' t := src.Plain → t.start = w.start ∧ t.stop = w'.last
  spells w w' raw := src.Plain → raw = src.slice w.start w'.last
  literal sp raw := src.Plain → raw = src.slice sp.first.index sp.last.index
  fits a b st := st.span.Fits src a b
  enter a st := { a with start := st.span.first.index }
  leave b st := { b with last := st.span.last.index }
  markup := False
  lenient := False
  later_refl a _ := .refl a
  later_trans h h' hp := (h hp).trans (h' hp)
  reached_of_later h h' hp := ⟨Nat.le_trans (h hp).start (h' hp).1, (h' hp).2⟩
  reached_later h h' hp := ⟨Nat.le_trans (h hp).1 (h' hp).last, (h' hp).read (h hp).2⟩
  reached_of_lenient := False.elim
  reached_of_markup := False.elim
  opens_startMark {_ t} k h := ⟨fun hp => (t.startMark_index k).trans (h.start hp), h.placed k⟩
  fits_mono ha hb h := by
    refine ⟨fun hp => ?_, h.first, h.last⟩
    obtain ⟨hfirst, hle, hlast⟩ := h.order hp
    exact ⟨Nat.le_trans (ha hp).start hfirst, hle, Nat.le_trans hlast (hb hp).last⟩
  enter_mono _ h hp := ⟨Nat.le_refl _, (h hp).last, (h hp).read⟩
  leave_mono _ h hp := ⟨(h hp).start, Nat.le_refl _, (h hp).read⟩
  later_enter h hp := ⟨(h.order hp).1, Nat.le_refl _, id⟩
  leave_later h hp := ⟨Nat.le_refl _, (h.order hp).2.2, id⟩

/-! ### The lookahead -/

/-- A token was read from an offset up to a cursor, perhaps behind a hidden line. -/
structure Ahead (src : Source) (i : Nat) (c : Cursor) (t : Token) : Prop where
  le : i ≤ c.index
  right : c.Right src
  bound : c.index ≤ src.size
  start : t.start = i ∨ i = 0 ∧ src.hasAt 0 "#!"
  start_le : t.start ≤ c.index
  stop : t.stop = c.index
  line : t.line = c.line
  lineStart : t.lineStart = c.lineStart
  brace : t.lexeme.isMark "\x7d" → src.char t.start = 0x7d ∧ c.index = t.start + 1
  slash : t.lexeme.isSlash → src.char t.start = 0x2f
  long : src.SameLine t.start c.index ∨ src.char t.start ∈ CodePoint.longMarks

namespace Ahead

variable {src : Source} {i : Nat} {c : Cursor} {t : Token}

/-- What is known of a token from where it was read. -/
theorem ofCovers (h : Scan.Covers src c₀ c t) (hright : c₀.Right src)
    (hbound : c₀.index ≤ src.size) (hi : i ≤ c₀.index)
    (hstart : c₀.index = i ∨ i = 0 ∧ src.hasAt 0 "#!") : Ahead src i c t where
  le := Nat.le_trans hi h.moves.le
  right := h.moves.right hright
  bound := h.moves.bound hbound
  start := h.start ▸ hstart
  start_le := h.start ▸ h.moves.le
  stop := h.stop
  line := h.line
  lineStart := h.lineStart
  brace := h.start ▸ h.brace
  slash hslash := by
    rw [Lexeme.isSlash, Bool.or_eq_true] at hslash
    exact h.start ▸ h.slash hslash
  long := h.start ▸ h.quoted

/-- A hidden line may come before a token. -/
theorem earlier (h : Ahead src j c t) (hstart : j = i ∨ i = 0 ∧ src.hasAt 0 "#!") : Ahead src i c t := by
  rcases hstart with rfl | hidden
  · exact h
  · exact { h with
      le := hidden.1 ▸ Nat.zero_le _
      start := .inr hidden }

/-- What is read in the place of a slash starts where that does, on the line of the cursor. -/
theorem again (h : Ahead src i c t) (hslash : src.char i = 0x2f)
    (hcovers : Scan.Covers src { c with index := i } c' t') : Ahead src i c' t' := by
  have hstart : t.start = i := by
    refine h.start.resolve_right fun ⟨hzero, hidden⟩ => ?_
    rw [hzero, Source.char_zero_of_hidden hidden] at hslash
    cases hslash
  have hline : src.SameLine i c.index := by
    refine (hstart ▸ h.long).resolve_right fun hlong => ?_
    rw [hslash] at hlong
    revert hlong
    decide
  exact .ofCovers hcovers (h.right.back h.le hline) (Nat.le_trans h.le h.bound) (Nat.le_refl _) (.inl rfl)

/-- In strict code, names become keywords. -/
theorem reserve (h : Ahead src i c t) : Ahead src i c t.reserve := by
  unfold Token.reserve
  split
  · split
    · exact ⟨h.le, h.right, h.bound, h.start, h.start_le, h.stop, h.line, h.lineStart, nofun, nofun, h.long⟩
    · exact h
  · exact h

/-- The place of a token is worked out from where it ends. -/
theorem placed (h : Ahead src i c t) (k : Nat) : (t.startMark k).Placed src := by
  rcases h.long with hline | hlong
  · refine .inl ?_
    have hstart : t.lineStart = src.lineStart t.start := by
      rw [h.lineStart, h.right.lineStart, hline.lineStart_eq h.start_le]
    have hends : t.line = (Cursor.start src).line + src.lineEnds t.start := by
      rw [h.line, h.right.line, hline.lineEnds_eq h.start_le]
    have hcolumn : ¬ (t.start : Int) - t.lineStart < 0 := by
      have := src.lineStart_le t.start
      omega
    rw [hstart] at hcolumn
    simp [Token.startMark, hcolumn, Source.place, hstart, hends]
  · refine .inr ?_
    rwa [t.startMark_index]

theorem begins (h : Ahead src i c t) (hw : w.start = i) : t.Begins src w where
  start hp := by
    rcases h.start with hstart | ⟨-, hidden⟩
    · exact hstart.trans hw.symm
    · rw [hp] at hidden
      cases hidden
  slash hslash := by
    rcases h.start with hstart | ⟨hzero, hidden⟩
    · rw [hw, ← hstart]
      exact .inl (h.slash hslash)
    · rw [hw, hzero]
      exact .inr (Source.char_zero_of_hidden hidden)
  placed := h.placed

end Ahead

namespace Scan

variable {r : Setting} {s : ScanState}

theorem ensures_lex_ahead (hright : s.cursor.Right r.source) (hbound : s.cursor.index ≤ r.source.size) :
    Ensures lex r s fun t u => Ahead r.source s.cursor.index u.cursor t := by
  refine ensures_lex.mono fun t u hu => ?_
  rcases hu with hu | ⟨hzero, hidden, c, hc, hu⟩
  · exact .ofCovers hu hright hbound (Nat.le_refl _) (.inl rfl)
  · exact .ofCovers hu (hc.right hright) (hc.bound hbound) hc.le (.inr ⟨hzero, hidden⟩)

/-- What is read in the place of a brace starts where that does. -/
theorem ensures_lex_again (h : Ahead r.source i s.cursor t) (hbrace : t.lexeme.isMark "\x7d") :
    Ensures lex r { s with braces, cursor := { s.cursor with index := s.cursor.index - 1 } } fun t' u =>
      Ahead r.source t.start u.cursor t' := by
  obtain ⟨hchar, hcursor⟩ := h.brace hbrace
  have hindex : s.cursor.index - 1 = t.start := by omega
  have hline : r.source.SameLine t.start s.cursor.index := by
    rw [hcursor]
    exact .single (by rw [hchar]; decide)
  rw [hindex]
  exact ensures_lex_ahead (h.right.back h.start_le hline) (Nat.le_trans h.start_le h.bound)

end Scan

/-! ### What the stages mean -/

/-- The state of a run at a stage. -/
structure Standing (src : Source) (c : ParseSetting) (s : ParseState) (w : Stage) : Prop where
  source : c.source = src
  idle : c.delegate = .idle
  jsx : c.jsx = false
  strict : c.tolerant = false
  ahead : Ahead src s.startMark.index s.scan.cursor s.lookahead
  startMark : s.startMark = src.place s.startMark.index
  lastMark : s.lastMark = src.place s.lastMark.index
  lastMark_le : s.lastMark.index ≤ src.size
  start : w.start = s.startMark.index
  last : w.read → w.last = s.lastMark.index
  /-- Before anything is read, the mark for the last token is that for the end of the lookahead. -/
  unread : w.read = false → w.start ≤ s.lastMark.index
  order : src.Plain → w.last ≤ w.start

/-- The same, once the first token is there: then the lookahead starts behind all comments. -/
structure Located (src : Source) (c : ParseSetting) (s : ParseState) (w : Stage) : Prop
    extends Standing src c s w where
  settled : Scan.Settled src s.startMark.index

namespace Located

variable {src : Source} {c : ParseSetting} {s : ParseState} {w : Stage} {a : Stage} {n : Node}

theorem kept (h : Located src c s w) (hk : Kept s s') : Located src c s' w where
  source := h.source
  idle := h.idle
  jsx := h.jsx
  strict := h.strict
  ahead := by
    rw [hk.startMark, hk.cursor, hk.lookahead]
    exact h.ahead
  startMark := hk.startMark ▸ h.startMark
  lastMark := hk.lastMark ▸ h.lastMark
  lastMark_le := hk.lastMark ▸ h.lastMark_le
  settled := hk.startMark ▸ h.settled
  start := hk.startMark ▸ h.start
  last := hk.lastMark ▸ h.last
  unread := hk.lastMark ▸ h.unread
  order := h.order

theorem startNow_eq (hmark : s.startMark = src.place s.startMark.index)
    (hright : s.scan.cursor.Right src) : startNow s = src.place s.scan.cursor.index := by
  unfold startNow
  split
  · next hindex => rw [hindex, ← hmark]
  · exact hright.mark_eq

/-- The next token is read from where the last one ends. -/
theorem ensures_next (h : Standing src c s w) : Ensures next c s fun t s' => ∃ w',
    (View.places src).later w w' ∧ (View.places src).reached w w' ∧ (View.places src).covers w w' t
      ∧ Located src c s' w' := by
  obtain ⟨rfl, hidle, hjsx, hstrict, hahead, hstartMark, -, -, hstart, -, -, horder⟩ := h
  refine Parse.ensures_next (Scan.ensures_trivia.mono fun _ t ht u hu => ?_)
  obtain ⟨es, -, rfl⟩ := hu
  obtain ⟨hmoves, hsettled⟩ := ht
  have hright := hmoves.right hahead.right
  have hbound := hmoves.bound hahead.bound
  refine (Scan.ensures_lex_ahead hright hbound).mono fun found t' ha newline tokens => ?_
  have hnow : startNow ({ s with
      scan := t
      lastMark := s.scan.cursor.mark
      events := s.events ++ es.toArray } : ParseState) = c.source.place t.cursor.index :=
    startNow_eq hstartMark hright
  have hbegins := hahead.begins hstart
  refine ⟨⟨t.cursor.index, s.scan.cursor.index, true⟩, fun hp => ⟨?_, ?_, fun _ => rfl⟩,
    fun hp => ⟨?_, rfl⟩, fun hp => ⟨hbegins.start hp, hahead.stop⟩, ?_⟩
  · exact hstart ▸ Nat.le_trans hahead.le hmoves.le
  · exact Nat.le_trans (horder hp) (hstart ▸ hahead.le)
  · exact hstart ▸ hahead.le
  · refine ⟨⟨rfl, hidle, hjsx, hstrict, ?_, ?_, hahead.right.mark_eq, hahead.bound, ?_, fun _ => rfl,
      nofun, fun _ => hmoves.le⟩, ?_⟩
    · rw [hnow]
      split
      · exact ha.reserve
      · exact ha
    · rw [hnow]
      rfl
    · rw [hnow]
      rfl
    · rw [hnow]
      exact hsettled

/-- The end of the last token is put off to the lookahead. -/
theorem close (h : Located src c s w) :
    ∃ w', (View.places src).later w w' ∧ Located src c { s with lastMark := s.startMark } w' := by
  refine ⟨{ w with last := w.start }, fun hp => ⟨Nat.le_refl _, h.order hp, id⟩, ?_⟩
  exact { h with
    lastMark := h.startMark
    lastMark_le := Nat.le_trans h.ahead.le h.ahead.bound
    last := fun _ => h.start
    unread := fun _ => Nat.le_of_eq h.start
    order := fun _ => Nat.le_refl _ }

/-- A node that ends with the last token that was read has its parts inside. -/
theorem holds_finished (ho : (View.places src).opens a start) (hlast : last = src.place last.index)
    (hw : src.Plain → w.last = last.index) (hr : src.Plain → a.start ≤ w.last)
    (hfresh : Fresh (V := View.places src) a w n) :
    (View.places src).Holds a w (.node { n with serial, span := some ⟨start, last⟩ }) := by
  refine hfresh.finished ⟨fun hp => ⟨?_, ?_, ?_⟩, ho.2, hlast⟩ (fun raw hraw hp => ?_)
    (fun hp => ⟨?_, Nat.le_refl _, id⟩) fun hp => ⟨Nat.le_refl _, ?_, id⟩
  · exact Nat.le_of_eq (ho.1 hp).symm
  · exact ho.1 hp ▸ hw hp ▸ hr hp
  · exact Nat.le_of_eq (hw hp).symm
  · rw [hraw hp, hw hp, ho.1 hp]
  · exact Nat.le_of_eq (ho.1 hp)
  · exact Nat.le_of_eq (hw hp)

theorem ensures_finish (h : Located src c s w)
    (ho : (View.places src).opens a start) (hr : (View.places src).reached a w)
    (hfresh : Fresh (V := View.places src) a w n) :
    Ensures (Parse.finish start n) c s fun n' s' => ∃ w', (View.places src).later w w'
      ∧ (View.places src).Holds a w' (.node n') ∧ Located src c s' w' := by
  have hkept : Ensures (Parse.finish start n) c s fun _ s' => Located src c s' w := by
    simp only [Ensures.step_iff]
    exact { h with }
  refine (hkept.and (ensures_finish_idle h.idle)).mono ?_
  rintro n' s' ⟨h', rfl⟩
  exact ⟨w, fun _ => .refl w, holds_finished ho h.lastMark (fun hp => h.last (hr hp).2)
    (fun hp => (hr hp).1) hfresh, h'⟩

/-- Where a slash is taken for the start of a regular expression, it is read again from there. -/
theorem ensures_regex (h : Located src c s w) {t : Token} (hb : t.Begins src w) (ht : t.lexeme.isSlash) :
    Ensures (do scan (Scan.setIndex s.startMark.index); nextRegex) c s fun t s' => ∃ w',
      (View.places src).later w w' ∧ (View.places src).reached w w'
        ∧ (View.places src).covers w w' t ∧ Located src c s' w' := by
  have hchar := hb.slash ht
  rw [h.start] at hchar
  obtain rfl := h.source
  refine ensures_nextRegex ((Scan.ensures_trivia_still ?_ ?_ h.settled ?_ ?_).mono fun _ u hu v hv => ?_)
  iterate 4
    rcases hchar with hchar | hchar <;> (dsimp only; rw [hchar]; decide)
  obtain ⟨es, -, rfl⟩ := hv
  refine Scan.ensures_regex.mono fun found t' hfound tokens => ?_
  rw [hu] at hfound
  obtain ⟨hcovers, hslash : c.source.char s.startMark.index = 0x2f⟩ := hfound
  have hlocated : Located c.source c { s with
      scan := t'
      events := s.events ++ es.toArray
      lookahead := found
      tokens } w := { h with ahead := h.ahead.again hslash hcovers }
  refine ((ensures_next hlocated.toStanding).and (ensures_next_eq c _)).mono ?_
  rintro t u ⟨hnext, rfl⟩
  exact hnext

theorem ensures_resumeTemplate (h : Located src c s w) :
    Ensures Grammar.resumeTemplate c s fun _ s' => Located src c s' w := by
  refine Parse.ensures_resumeTemplate h fun hbrace => ?_
  obtain rfl := h.source
  exact (Scan.ensures_lex_again h.ahead hbrace).mono fun t t' ht => { h with ahead := ht.earlier h.ahead.start }

/-- After the first token is read, and before any other. -/
theorem ensures_begin (src : Source) (hsource : c.source = src) (hidle : c.delegate = .idle)
    (hjsx : c.jsx = false) (hstrict : c.tolerant = false) : Ensures Parse.begin c (.start src) fun _ s =>
      Located src c s ⟨s.startMark.index, s.startMark.index, false⟩ := by
  have hplace : (ParseState.start src).startMark = src.place 0 := by
    simp [ParseState.start, ScanState.start, Source.place, Source.lineEnds, Source.lineStart]
  have hfirst : Standing src c (.start src) ⟨0, 0, true⟩ := by
    refine ⟨hsource, hidle, hjsx, hstrict, ?_, hplace, hplace, Nat.zero_le _, rfl, fun _ => rfl,
      (fun hread => by cases hread), fun _ => Nat.le_refl 0⟩
    exact ⟨Nat.le_refl 0, Cursor.right_start src, Nat.zero_le _, .inl rfl, Nat.le_refl 0, rfl, rfl, rfl,
      (fun h => by cases h), (fun h => by cases h), .inl (.refl src 0)⟩
  simp only [Parse.begin, Parse.skip, Ensures.bind_iff, Ensures.discard_iff, Ensures.step_iff]
  refine (ensures_next hfirst).mono fun _ s hnext => ?_
  obtain ⟨w, -, -, -, h⟩ := hnext
  exact { h with
    lastMark := h.ahead.right.mark_eq
    lastMark_le := h.ahead.bound
    start := rfl
    last := fun hread => by cases hread
    unread := fun _ => h.ahead.le
    order := fun _ => Nat.le_refl _ }

end Located

/-- What the moments of the view of places mean. -/
def Semantics.places (src : Source) : Semantics (View.places src) where
  At := Located src
  kept := Located.kept
  jsx h hjsx := by
    rw [h.jsx] at hjsx
    cases hjsx
  tolerant h htolerant := by
    rw [h.strict] at htolerant
    cases htolerant
  here h := ⟨fun _ => h.start.symm, .inl h.startMark⟩
  peek h := h.ahead.begins h.start
  next h := Located.ensures_next h.toStanding
  spells h hc hp := by
    rw [h.source, (hc hp).1, (hc hp).2]
  close h _ := h.close
  finish h ho _ hr hfresh := h.ensures_finish ho hr hfresh
  regex h hb ht := h.ensures_regex hb ht
  resumeTemplate h := h.ensures_resumeTemplate
  markupHere := False.elim
  cursorMark := False.elim
  enterMarkup := False.elim
  nextMarkup := False.elim
  nextMarkupText := False.elim
  emptyExpression := False.elim
  namedAttribute := False.elim
  element := False.elim

namespace Grammar

variable {src : Source} {c : ParseSetting} {s : ParseState}

/-- A program goes from its first token to its last one, if it has any. -/
theorem ensures_programNode {make : Value → Node} (hmake : ∀ body, Made (make body) [k] [.word kind, body]) (r : Recur) [Recur.Reads (View.places src) r]
    (h : Located src c s ⟨s.startMark.index, s.startMark.index, false⟩) : Ensures (do
      let start ← here
      let body ← programBody r
      Parse.finish start (make (.nodes body))) c s fun n _ =>
        ∃ a b, (View.places src).Holds a b (.node n) ∧ b.last ≤ src.size := by
  have hbody (w : (View.places src).Moment) : Derives false w w (programBody r) := inferInstance
  rw [Ensures.step_bind, Ensures.bind_iff]
  refine ((hbody _).sound (.places src) c s h).mono fun body s' hread => ?_
  obtain ⟨w, hl, _, hsound, h'⟩ := hread
  refine (ensures_finish_idle h'.idle).mono ?_
  rintro n' - rfl
  -- The mark for the last token is behind all that was read, even if that is nothing.
  let a : (View.places src).Moment := ⟨s.startMark.index, s.startMark.index, false⟩
  let b : (View.places src).Moment := { w with last := s'.lastMark.index }
  have hend (hp : src.Plain) : s.startMark.index ≤ s'.lastMark.index ∧ w.last ≤ s'.lastMark.index := by
    have hlater : a.Later w := hl hp
    cases hread : w.read with
    | true =>
      rw [← h'.last hread]
      exact ⟨hlater.last, Nat.le_refl _⟩
    | false =>
      have hunread := h'.unread hread
      exact ⟨Nat.le_trans hlater.start hunread, Nat.le_trans (h'.order hp) hunread⟩
  have hlater : (View.places src).later w b := fun hp => ⟨Nat.le_refl _, (hend hp).2, id⟩
  have hparts : Sound a b body := ⟨Carrier.mono ((View.places src).later_refl a) hlater hsound⟩
  refine ⟨a, b, Located.holds_finished ⟨fun _ => rfl, .inl h.startMark⟩ h'.lastMark (fun _ => rfl)
    (fun hp => (hend hp).1) (Derives.fresh_of_made (hmake _).toComposed inferInstance), h'.lastMark_le⟩

/-- **A program lies where it was read**, with all that it is made of. -/
theorem ensures_program_places (isModule : Bool) (hidle : c.delegate = .idle) (hjsx : c.jsx = false)
    (hstrict : c.tolerant = false) : Ensures (program isModule) c (.start c.source) fun n _ =>
      ∃ a b, (View.places c.source).Holds a b (.node n) ∧ b.last ≤ c.source.size := by
  rw [program, Ensures.bind_iff]
  refine (Located.ensures_begin c.source rfl hidle hjsx hstrict).mono fun _ s h => ?_
  rw [whole, Ensures.step_bind]
  have hmodule (r : Recur) : moduleProgram r = (do
      let awaits ← since 2022
      setContext fun c =>
        { c with strict := true, isModule := true, allowAwait := c.allowAwait || awaits }
      enterModule) >>= fun _ => (do
        let start ← here
        let body ← programBody r
        Parse.finish start (.moduleProgram (.nodes body))) := by
    simp only [moduleProgram, bind_assoc]
  cases isModule with
  | false => exact ensures_programNode (fun _ => inferInstance) _ h
  | true =>
    rw [if_pos rfl, hmodule, Ensures.bind_iff]
    refine (Quiet.kept (d := true) inferInstance c s).mono fun _ s' hk => ?_
    refine ensures_programNode (fun _ => inferInstance) _ ?_
    rw [hk.startMark]
    exact h.kept hk

end Grammar

end EcmaSyntax
