import EcmaSyntax.Proofs.Failing
import EcmaSyntax.Proofs.Shift

/-!
# Hidden lines

A first line that begins with a number sign and an exclamation mark is not read. It is passed over where
the first token is read (`Scan.hashbang`), that is, behind the white space and the comments before that
token, and after it is settled whether a slash starts a regular expression. So the rest is read as if it
were the whole source if it begins with a token that is no regular expression (`Source.beginsToken`), and
only the place of that token, as lines and columns, is not its own.
-/

namespace EcmaSyntax

set_option synthInstance.maxSize 100000000000000

variable {r : Setting} {bound : Nat} {σ : Shift}

namespace Shift

variable (σ : Shift)

/-- An entry of a stream of the second text, in both texts. -/
def entry : StreamEntry → StreamEntry
  | .comment c => .comment (σ.comment c)
  | .token t span => .token (σ.token t) (σ.span span)

/-- What a step of a stream of the second text gives, in both texts. -/
def step (x : List StreamEntry × SlashGuess) : List StreamEntry × SlashGuess := (x.1.map σ.entry, x.2)

/-- A stream of the second text, in both texts. -/
def stream (x : TokenStream) : TokenStream := ⟨x.entries.map σ.entry, x.errors.map σ.error⟩

end Shift

/-! ### Steps of a stream -/

/-- A source that begins with a token, and neither with a slash nor with a line that would be hidden. -/
def Source.beginsToken (s : Source) : Bool :=
  0 < s.size && !(CodePoint.isSpacing (s.char 0) || s.char 0 = 0x2f) && !(["-->", "<!--", "#!"].any (s.hasAt 0))

namespace Scan

variable {s : ScanState} {g : SlashGuess}

theorem slidesAt_guessedToken (h : s.cursor.index ≠ 0) :
    SlidesAt σ σ.token (guessedToken g) (guessedToken g) s := by
  have hchar : σ.whole.char (σ.state s).cursor.index = σ.rest.char s.cursor.index := σ.char_whole _
  unfold SlidesAt guessedToken
  rw [Shift.source_short, Shift.source_long, hchar]
  split
  · exact slidesAt_lex h
  · next hslash =>
    cases g.startsRegex with
    | error f => exact .inr rfl
    | ok starts =>
      cases starts with
      | false => exact slidesAt_lex h
      | true =>
        have hregex : Slides σ σ.token regex regex := inferInstance
        rcases hregex.out s with ⟨t, ht⟩ | hrun
        · have hsafe := meets_regex (E := Failure.Guessed False) (r := σ.short) (Decidable.not_not.1 hslash)
          exact (hsafe.allowed ht).elim
        · rw [hrun]
          cases regex σ.short s with
          | ok t u => exact .inr rfl
          | error e failed => exact slidesAt_lex h

theorem slidesAt_streamStep (h : s.cursor.index ≠ 0) : SlidesAt σ σ.step (streamStep g) (streamStep g) s := by
  refine (slidesAt_trivia h).bind fun xs t ht => ?_
  have htrivia : s.cursor.index ≤ t.cursor.index := (ensures_trivia xs t ht).1.le
  have hend : Slides σ (fun x => x) atEnd atEnd := inferInstance
  refine (hend.out t).bind fun ended u hu => ?_
  cases hu
  have hcomments : (xs.map σ.comment).map StreamEntry.comment = (xs.map StreamEntry.comment).map σ.entry := by
    rw [List.map_map, List.map_map]
    rfl
  split
  · refine .inr ?_
    rw [hcomments]
    rfl
  · refine (slidesAt_guessedToken (by omega : t.cursor.index ≠ 0)).bind fun x u hu => .inr ?_
    have htoken : σ.entry (.token x ⟨t.cursor.mark, u.cursor.mark⟩)
        = .token (σ.token x) ⟨(σ.cursor t.cursor).mark, (σ.cursor u.cursor).mark⟩ := by
      rw [Shift.mark_cursor, Shift.mark_cursor]
      rfl
    rw [hcomments]
    show EStateM.Result.ok (_ ++ [.token (σ.token x) _], _) _ = .ok (List.map σ.entry (_ ++ [_]), _) _
    rw [List.map_append, List.map_singleton, htoken]
    rfl

/-- White space and comments begin with few code points. -/
theorem trivia_eq_nil (hend : s.cursor.index < r.source.size)
    (hspace : CodePoint.isSpacing (r.source.char s.cursor.index) = false)
    (hslash : r.source.char s.cursor.index ≠ 0x2f) (hclose : r.source.hasAt s.cursor.index "-->" = false)
    (hopen : r.source.hasAt s.cursor.index "<!--" = false) : trivia r s = .ok [] s := by
  have hnone {w : String} (hw : (Text.ofString w)[0]? = some 0x2f) : ¬ r.source.hasAt s.cursor.index w :=
    Bool.eq_false_iff.1 (Source.not_hasAt_of_char_ne hw hslash)
  rw [CodePoint.isSpacing, Bool.or_eq_false_iff] at hspace
  exact (meets_trivia_resting (Nat.le_of_lt hend)
    ⟨hspace.1, hspace.2, ⟨hnone rfl, hnone rfl⟩, fun _ => hopen, fun _ => hclose⟩).eq_ok

/-- A step that starts at a token. -/
theorem streamStep_of_trivia (h : trivia r s = .ok [] s) (hend : s.cursor.index < r.source.size)
    (hslash : r.source.char s.cursor.index ≠ 0x2f) : streamStep g r s = match lex r s with
      | .ok t u => .ok ([.token t ⟨s.cursor.mark, u.cursor.mark⟩], g.push t.lexeme) u
      | .error e u => .error e u := by
  have hguess : guessedToken g r s = lex r s := if_pos hslash
  have hatEnd : atEnd r s = .ok false s :=
    congrArg (EStateM.Result.ok · _) (decide_eq_false (Nat.not_le.2 hend))
  have hcursor (u : ScanState) : cursor r u = .ok u.cursor u := rfl
  simp only [streamStep, bind_apply, h, hatEnd, hcursor, hguess, Bool.false_eq_true, if_false]
  cases lex r s <;> rfl

/-- A source that begins with a token is read from there. -/
theorem streamStep_start (hsrc : r.source = src) (h : src.beginsToken) :
    streamStep g r (.start src) = match plainLex r (.start src) with
      | .ok t u => .ok ([.token t ⟨(Cursor.start src).mark, u.cursor.mark⟩], g.push t.lexeme) u
      | .error e u => .error e u := by
  subst hsrc
  simp only [Source.beginsToken, Bool.and_eq_true, decide_eq_true_eq, Bool.not_eq_true',
    Bool.or_eq_false_iff, decide_eq_false_iff_not, List.any_cons, List.any_nil] at h
  obtain ⟨⟨hsize, hspace, hslash⟩, hclose, hopen, hsign, -⟩ := h
  have hlex : lex r (.start r.source) = plainLex r (.start r.source) := by
    show (if (true && r.source.hasAt 0 "#!" && _) = true then hashbang else plainLex) _ _ = _
    rw [hsign]
    rfl
  rw [streamStep_of_trivia (trivia_eq_nil (s := .start r.source) hsize hspace hslash hclose hopen) hsize hslash, hlex]
  rfl

end Scan

/-! ### Streams behind a text -/

namespace TokenStream

variable {s : ScanState} {g : SlashGuess} {ls : List Lexeme} {t : ScanState} {bound' : Nat}

/-- What was found before stands in front. -/
theorem readFrom_found (bound : Nat) (s : ScanState) (g : SlashGuess) (found : List StreamEntry) :
    readFrom r bound s g found = (readFrom r bound s g []).map fun x => ⟨found.reverse ++ x.entries, x.errors⟩ := by
  induction bound generalizing s g found with
  | zero => rfl
  | succ bound ih =>
    rw [readFrom, readFrom]
    cases Scan.streamStep g r s with
    | ok x t =>
      obtain ⟨more, g'⟩ := x
      cases more with
      | nil => simp [Except.map, pure, Except.pure]
      | cons e es =>
        dsimp only
        rw [ih, ih t g' (_ ++ [])]
        cases readFrom r bound t g' [] <;> simp [Except.map]
    | error e t =>
      cases e with
      | refused e =>
        cases r.tolerant <;> simp [Except.map, pure, Except.pure, throw, throwThe, MonadExceptOf.throw]
      | _ => rfl

/-- A step that gives something. -/
theorem readFrom_step (h : Scan.streamStep g r s = .ok (e :: es, g') t) : readFrom r (bound + 1) s g []
      = (readFrom r bound t g' []).map fun x => ⟨e :: es ++ x.entries, x.errors⟩ := by
  rw [readFrom, h]
  dsimp only
  rw [readFrom_found]
  simp

/-- A step that fails. -/
theorem readFrom_long_of_error (h : Scan.streamStep g σ.short s = .error f t)
    (h' : Scan.streamStep g σ.long s' = .error (σ.failure f) (σ.state t)) :
    readFrom σ.long (bound' + 1) s' g []
      = ((readFrom σ.short (bound + 1) s g []).map σ.stream).mapError σ.failure := by
  rw [readFrom, readFrom, h, h']
  cases f with
  | refused e =>
    dsimp only [Shift.failure]
    rw [Shift.tolerant_long]
    cases σ.short.tolerant with
    | false => rfl
    | true => simp [Except.map, Except.mapError.eq_def, pure, Except.pure, Shift.stream, Shift.state]
  | _ => rfl

/-- A stream that has left the start of the second text reads on there as in both texts. -/
theorem readFrom_long (h : Reached σ.short s g ls)
    (hs : s.cursor.index ≠ 0) (hsize : σ.rest.size - s.cursor.index < bound) (hle : bound ≤ bound') :
    readFrom σ.long bound' (σ.state s) g [] = ((readFrom σ.short bound s g []).map σ.stream).mapError σ.failure := by
  induction bound generalizing s g ls bound' with
  | zero => exact absurd hsize (Nat.not_lt_zero _)
  | succ bound ih =>
    obtain ⟨bound', rfl⟩ : ∃ n, bound' = n + 1 := ⟨bound' - 1, by omega⟩
    have hsafe := Scan.meets_streamStep h.knows.1 h.knows.2
    rcases Scan.slidesAt_streamStep hs with ⟨t, ht⟩ | hstep
    · exact (hsafe.allowed ht).elim
    · cases hrun : Scan.streamStep g σ.short s with
      | ok x t =>
        rw [hrun] at hstep
        obtain ⟨more, g'⟩ := x
        cases more with
        | nil =>
          rw [readFrom, readFrom, hrun, hstep]
          simp [Shift.outcome, Shift.step, Shift.stream, Shift.state, Except.map, Except.mapError.eq_def,
            pure, Except.pure]
        | cons e es =>
          obtain ⟨hbound, hlt, -⟩ := hsafe.ensures _ _ hrun
          have hlt := hlt (List.cons_ne_nil _ _)
          have hend : t.cursor.index ≤ σ.rest.size := hbound
          rw [readFrom_step hrun, readFrom_step hstep,
            ih (h.step hrun) (by omega) (by omega) (Nat.le_of_succ_le_succ hle)]
          cases readFrom σ.short bound t g' [] <;> simp [Except.map, Except.mapError.eq_def, Shift.stream]
      | error f t =>
        rw [hrun] at hstep
        exact readFrom_long_of_error hrun hstep

end TokenStream

/-! ### The first token -/

/-- A scan that has opened and recorded nothing. -/
def ScanState.fresh (c : Cursor) : ScanState := ⟨c, [], false, #[]⟩

/-- A text behind a hidden line, in the latest edition of the language. -/
def Shift.hidden (line rest : Text) (tolerant : Bool) : Shift where
  before := Text.ofString "#!" ++ line ++ [0x0a]
  rest := .ofText rest
  lines := 1
  edition := 2024
  tolerant := tolerant

namespace Shift

variable {line rest : Text} {tolerant : Bool}

theorem width_hidden (line rest : Text) (tolerant : Bool) : (hidden line rest tolerant).width = line.length + 3 := by
  simp [width, hidden, Text.ofString]

theorem whole_hidden (line rest : Text) (tolerant : Bool) : (hidden line rest tolerant).whole
    = .ofText (Text.ofString "#!" ++ line ++ 0x0a :: rest) := by
  simp [whole, hidden, Source.ofText]

theorem char_hidden (h : (Text.ofString "#!" ++ line ++ 0x0a :: rest)[i]? = some c) :
    (hidden line rest tolerant).whole.char i = c := by
  rw [whole_hidden, Source.char, Source.ofText, Array.getD_eq_getD_getElem?, List.getElem?_toArray, h]
  rfl

theorem char_hidden_end : (hidden line rest tolerant).whole.char (line.length + 2) = 0x0a := by
  refine char_hidden ?_
  simp [Text.ofString]

/-- The hidden line goes up to its terminator. -/
theorem skipWhile_hidden (hline : ∀ c ∈ line, CodePoint.isLineTerminator c = false) :
    (hidden line rest tolerant).whole.skipWhile (fun c => !CodePoint.isLineTerminator c) 2 = line.length + 2 := by
  generalize hstop : (hidden line rest tolerant).whole.skipWhile (fun c => !CodePoint.isLineTerminator c) 2 = stop
  have hle : 2 ≤ stop := hstop ▸ Source.le_skipWhile _ _ _
  rcases Nat.lt_trichotomy stop (line.length + 2) with hlt | heq | hlt
  · have hchar : (hidden line rest tolerant).whole.char stop = (line)[stop - 2] := by
      refine char_hidden ?_
      rw [List.getElem?_append_left (by simp [Text.ofString]; omega),
        List.getElem?_append_right (by simpa [Text.ofString] using hle)]
      simp [Text.ofString]
    have hsize : stop < (hidden line rest tolerant).whole.size := by
      rw [size_whole, width_hidden]
      omega
    have hstops := Source.not_test_skipWhile (hstop.symm ▸ hsize)
    rw [hstop, hchar, hline _ (List.getElem_mem _)] at hstops
    exact absurd hstops (by decide)
  · exact heq
  · have hpassed := Source.test_of_lt_skipWhile (by omega : 2 ≤ line.length + 2) (hstop.symm ▸ hlt)
    rw [char_hidden_end] at hpassed
    exact absurd hpassed (by decide)

/-- The first line is passed, and the next one starts where the second text does. -/
theorem hashbang_hidden (hline : ∀ c ∈ line, CodePoint.isLineTerminator c = false) (hrest : rest ≠ []) :
    let σ := hidden line rest tolerant
    Scan.hashbang σ.long (.start σ.whole) = Scan.plainLex σ.long (σ.state (.start σ.rest)) := by
  intro σ
  have hwidth : σ.width = line.length + 3 := width_hidden line rest tolerant
  have hsize : line.length + 3 ≤ σ.whole.size := by
    rw [size_whole, hwidth]
    omega
  have hskip : Scan.skipWhile (fun c => !CodePoint.isLineTerminator c) σ.long (.fresh ⟨2, 1, 0⟩)
      = .ok () (.fresh ⟨line.length + 2, 1, 0⟩) := by
    show EStateM.Result.ok _ (ScanState.fresh ⟨σ.whole.skipWhile _ 2, _, _⟩) = _
    rw [skipWhile_hidden hline]
    rfl
  have hatEnd : Scan.atEnd σ.long (.fresh ⟨line.length + 2, 1, 0⟩) = .ok false (.fresh ⟨line.length + 2, 1, 0⟩) :=
    congrArg (EStateM.Result.ok · _) (decide_eq_false (Nat.not_le.2 hsize))
  have hpeek (c : Cursor) (hc : c.index ≤ σ.whole.size) :
      Scan.peek 0 σ.long (.fresh c) = .ok (σ.whole.char c.index) (.fresh c) := by
    show (if σ.whole.size < c.index then _ else pure (σ.whole.char c.index) : Scan CodePoint) _ _ = _
    rw [if_neg (Nat.not_lt.2 hc)]
    rfl
  have htake : Scan.take σ.long (.fresh ⟨line.length + 2, 1, 0⟩) = .ok 0x0a (.fresh ⟨line.length + 3, 1, 0⟩) := by
    rw [Scan.take, bind_apply, hpeek _ (Nat.le_of_succ_le hsize), char_hidden_end]
    rfl
  have hendLine : Scan.endLine 0x0a σ.long (.fresh ⟨line.length + 3, 1, 0⟩)
      = .ok () (.fresh ⟨line.length + 3, 2, line.length + 3⟩) := by
    rw [Scan.endLine, bind_apply, hpeek _ hsize]
    rfl
  have hstart : σ.state (.start σ.rest) = .fresh ⟨line.length + 3, 2, line.length + 3⟩ := by
    have hpos : 0 < σ.rest.size := List.length_pos_iff.2 hrest
    simp [state, ScanState.start, ScanState.fresh, Cursor.start, cursor, hpos, hwidth]
    rfl
  have hfirst : ScanState.start σ.whole = .fresh ⟨0, 1, 0⟩ := by
    have hpos : 0 < σ.whole.size := by omega
    simp [ScanState.start, ScanState.fresh, Cursor.start, hpos]
  have hadvance : Scan.advance 2 σ.long (.fresh ⟨0, 1, 0⟩) = .ok () (.fresh ⟨2, 1, 0⟩) := rfl
  rw [hstart, hfirst]
  simp only [Scan.hashbang, bind_apply, hadvance, hskip, hatEnd, Bool.not_false, if_true, htake, hendLine]

/-- A stream of both texts starts with the token that the second one starts with; only the place where it
starts is another one. -/
def StartsAlike (σ : Shift) : Prop :=
  Scan.streamStep .start σ.long (.start σ.whole) = match Scan.plainLex σ.short (.start σ.rest) with
    | .ok t u => .ok ([.token (σ.token t) ⟨(Cursor.start σ.whole).mark, (σ.cursor u.cursor).mark⟩],
        .push .start t.lexeme) (σ.state u)
    | .error e u => .error (σ.failure e) (σ.state u)

theorem startsAlike_hidden (hline : ∀ c ∈ line, CodePoint.isLineTerminator c = false) (hrest : rest ≠ []) :
    (hidden line rest tolerant).StartsAlike := by
  unfold StartsAlike
  generalize hσ : hidden line rest tolerant = σ
  have hhash : Scan.hashbang σ.long (.start σ.whole) = Scan.plainLex σ.long (σ.state (.start σ.rest)) :=
    hσ ▸ hashbang_hidden hline hrest
  have hsize : 0 < σ.whole.size := by
    rw [size_whole, ← hσ, width_hidden]
    omega
  have hsign : σ.whole.char 0 = 0x23 := hσ ▸ char_hidden rfl
  have hat : σ.whole.hasAt 0 "#!" :=
    Source.hasAt_pair rfl hsign (hσ ▸ char_hidden rfl) (by decide)
  have hslash : σ.whole.char 0 ≠ 0x2f := by
    rw [hsign]
    decide
  have hnone {w : String} {d : CodePoint} (hw : (Text.ofString w)[0]? = some d) (hd : 0x23 ≠ d) :
      σ.whole.hasAt 0 w = false :=
    Source.not_hasAt_of_char_ne hw (hsign ▸ hd)
  have htrivia : Scan.trivia σ.long (.start σ.whole) = .ok [] (.start σ.whole) :=
    Scan.trivia_eq_nil hsize (hsign ▸ by decide) hslash (hnone rfl (by decide)) (hnone rfl (by decide))
  have hlex : Scan.lex σ.long (.start σ.whole) = Scan.hashbang σ.long (.start σ.whole) := by
    show (if (true && σ.whole.hasAt 0 "#!" && decide (2023 ≤ σ.edition)) = true then Scan.hashbang
      else Scan.plainLex) _ _ = _
    rw [hat, ← hσ]
    rfl
  have hslides : Slides σ σ.token Scan.plainLex Scan.plainLex := inferInstance
  have hplain : Scan.plainLex σ.long (σ.state (.start σ.rest))
      = σ.outcome σ.token (Scan.plainLex σ.short (.start σ.rest)) := by
    refine (hslides.out _).resolve_left fun h => ?_
    obtain ⟨t, ht⟩ := h
    exact (Scan.meets_plainLex (E := Failure.Guessed False) (Nat.zero_le _)).allowed ht
  rw [Scan.streamStep_of_trivia htrivia hsize hslash, hlex, hhash, hplain]
  cases Scan.plainLex σ.short (.start σ.rest) <;> rfl

end Shift

/-! ### Lists of tokens -/

/-- Offsets that are moved. -/
def Value.moveOffsets (n : Nat) : Value → Value
  | .list vs => .list (vs.map fun | .int i => .int (i + n) | v => v)
  | v => v

/-- A listed token or comment whose range is moved. -/
def Value.moveRange (n : Nat) : Value → Value
  | .object form serial span fields extra =>
    .object form serial span (fields.map fun x => (x.1, if x.1 = "range" then x.2.moveOffsets n else x.2)) extra
  | v => v

/-- An error that is moved, with a line before it. -/
def SyntaxError.moveBehind (n : Nat) (e : SyntaxError) : SyntaxError :=
  { e with index := e.index + n, line := e.line + 1 }

/-- An outcome that is moved. -/
def Program.moveListed (n : Nat) :
    Except Failure (List Value × List SyntaxError) → Except Failure (List Value × List SyntaxError)
  | .ok (entries, errors) => .ok (entries.map (·.moveRange n), errors.map (·.moveBehind n))
  | .error (.refused e) => .error (.refused (e.moveBehind n))
  | .error f => .error f

namespace Report

variable {r : Report} (hloc : r.loc = false) (σ : Shift)
include hloc

theorem listed_moveRange (form type : String) (value : Text) (regex : Value) (start stop : Nat)
    (span : Span) : r.listed form type value regex (start + σ.width) (stop + σ.width) (σ.span span)
      = (r.listed form type value regex start stop span).moveRange σ.width := by
  cases hrange : r.range <;>
    simp [listed, hloc, hrange, Value.moveRange, Value.moveOffsets, Node.make, Value.node, Value.nat]

theorem entry_moveRange (e : StreamEntry) : r.entry σ.whole (σ.entry e) = (r.entry σ.rest e).moveRange σ.width := by
  cases e with
  | token t span =>
    show r.listed _ _ (σ.whole.slice (t.start + σ.width) (t.stop + σ.width)) _ _ _ _ = _
    rw [σ.slice_whole]
    exact listed_moveRange hloc σ _ _ _ _ t.start t.stop span
  | comment c =>
    show r.listed _ _ (σ.whole.slice (c.textStart + σ.width) (c.textStop + σ.width)) _ _ _ _ = _
    rw [σ.slice_whole]
    exact listed_moveRange hloc σ _ _ _ _ c.span.first.index c.span.last.index c.span

end Report

namespace Program

/-- What is listed of a stream. -/
def listing (o : OptionList) (src : Source) (x : TokenStream) : List Value × List SyntaxError :=
  let r : Report := { range := o.flag "range", loc := o.flag "loc", source := .null, comments := #[] }
  let isListed : StreamEntry → Bool
    | .comment _ => o.flag "comment"
    | .token _ _ => true
  ((x.entries.filter isListed).map (r.entry src), x.errors)

theorem tokenize_eq (code : Text) (o : OptionList) : tokenize code o
    = (TokenStream.ofText code (o.flag "tolerant")).map (listing o (.ofText code)) := by
  unfold tokenize
  cases TokenStream.ofText code (o.flag "tolerant") <;> rfl

section

variable {o : OptionList} (hloc : o.flag "loc" = false)
include hloc

/-- Without lines and columns, it does not matter which ones a token has. -/
theorem listing_token (src : Source) (t : Token) (span span' : Span) (es : List StreamEntry)
    (errors : List SyntaxError) :
    listing o src ⟨.token t span :: es, errors⟩ = listing o src ⟨.token t span' :: es, errors⟩ := by
  simp [listing, Report.entry, Report.listedToken, Report.listed, hloc]

theorem listing_stream (hlines : σ.lines = 1) (x : Except Failure TokenStream) :
    ((x.map σ.stream).mapError σ.failure).map (listing o σ.whole)
      = moveListed σ.width (x.map (listing o σ.rest)) := by
  have herror (e : SyntaxError) : σ.error e = e.moveBehind σ.width := by
    simp [Shift.error, SyntaxError.moveBehind, hlines]
  cases x with
  | error f =>
    cases f with
    | refused e => exact congrArg (fun e => Except.error (Failure.refused e)) (herror e)
    | _ => rfl
  | ok x =>
    refine congrArg Except.ok (Prod.ext ?_ (List.map_congr_left fun e _ => herror e))
    show ((x.entries.map σ.entry).filter _).map _ = ((x.entries.filter _).map _).map _
    rw [List.filter_map, List.map_map, List.map_map]
    have hlisted : (fun e => match e with
        | StreamEntry.comment _ => o.flag "comment"
        | StreamEntry.token _ _ => true) ∘ σ.entry = fun e => match e with
        | StreamEntry.comment _ => o.flag "comment"
        | StreamEntry.token _ _ => true := by
      funext e
      cases e <;> rfl
    rw [hlisted]
    exact List.map_congr_left fun e _ => Report.entry_moveRange hloc σ e

/-- A stream that starts alike goes on alike. -/
theorem listing_long (hlines : σ.lines = 1) (hrest : σ.rest.beginsToken) (hstart : σ.StartsAlike) :
    (TokenStream.readFrom σ.long (σ.whole.size + 2) (.start σ.whole) .start []).map (listing o σ.whole)
      = moveListed σ.width ((TokenStream.readFrom σ.short (σ.rest.size + 2) (.start σ.rest) .start []).map
        (listing o σ.rest)) := by
  have hstart' := Scan.streamStep_start (g := .start) σ.source_short hrest
  unfold Shift.StartsAlike at hstart
  cases hplain : Scan.plainLex σ.short (.start σ.rest) with
  | error e u =>
    rw [hplain] at hstart hstart'
    rw [← listing_stream hloc hlines, TokenStream.readFrom_long_of_error hstart' hstart]
  | ok t u =>
    rw [hplain] at hstart hstart'
    have hreached := TokenStream.Reached.start.step hstart'
    obtain ⟨hbound, hlt, -⟩ :=
      (Scan.meets_streamStep (Nat.zero_le _) SlashGuess.Knows.start).ensures _ _ hstart'
    have hlt := hlt (List.cons_ne_nil _ _)
    have hlong := TokenStream.readFrom_long hreached (Nat.ne_of_gt (Nat.zero_lt_of_lt hlt))
      (by omega : σ.rest.size - u.cursor.index < σ.rest.size + 1)
      (by rw [Shift.size_whole]; omega : σ.rest.size + 1 ≤ σ.whole.size + 1)
    rw [TokenStream.readFrom_step hstart, TokenStream.readFrom_step hstart', hlong, ← listing_stream hloc hlines]
    cases TokenStream.readFrom σ.short (σ.rest.size + 1) u _ [] with
    | error f => rfl
    | ok x => exact congrArg Except.ok (listing_token hloc _ _ _ _ _ _)

end

/-- **A hidden line is transparent to a source that begins with a token.** What is listed behind it is
what is listed of that source alone, with the ranges moved; and if that is refused, so is the whole, at
the same place. -/
theorem tokenize_behind_hidden_line (line rest : Text) (o : OptionList)
    (hline : ∀ c ∈ line, CodePoint.isLineTerminator c = false)
    (hrest : (Source.ofText rest).beginsToken) (hloc : o.flag "loc" = false) :
    tokenize (Text.ofString "#!" ++ line ++ 0x0a :: rest) o = moveListed (line.length + 3) (tokenize rest o) := by
  have hne : rest ≠ [] := by
    rintro rfl
    exact absurd hrest (by decide)
  rw [tokenize_eq, tokenize_eq, TokenStream.ofText, ← Shift.whole_hidden line rest (o.flag "tolerant"),
    ← Shift.width_hidden line rest (o.flag "tolerant")]
  exact listing_long hloc rfl hrest (Shift.startsAlike_hidden hline hne)

theorem tokenize_behind_hidden_line_of_call :
    let o : OptionList := [("range", .bool true)]
    (tokenize "f(1) /a/" o).toOption.map (·.1.length) = some 7
      ∧ tokenize "#!/bin/js\nf(1) /a/" o = moveListed 10 (tokenize "f(1) /a/" o) :=
  ⟨by decide +kernel, tokenize_behind_hidden_line "/bin/js" "f(1) /a/" _ (by decide) (by decide) (by decide)⟩

/-- Behind a hidden line, white space is where a token is looked for. -/
theorem tokenize_hidden_line_before_space :
    let o : OptionList := [("range", .bool true)]
    (tokenize " a" o).toOption.map (·.1.length) = some 1
      ∧ tokenize "#!\n a" o = .error (.refused ⟨3, 2, 1, .illegalToken⟩) :=
  ⟨by decide +kernel, eq_error_of_failsWith (by decide +kernel)⟩

end Program

end EcmaSyntax
