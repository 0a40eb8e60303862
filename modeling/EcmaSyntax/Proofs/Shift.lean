import EcmaSyntax.Proofs.Coverage

/-!
# A source behind another text

A scan that has come to the end of one text and goes on in the next one does what it would do if that
were the whole source, except that all places are moved. `Shift` is such a pair of sources: `rest`
alone, and `whole`, which has `before` in front of it. `Slides σ g m m'` compares a run of `m` in the
first one with a run of `m'` in the second one from where that run would be: it ends there too, with
`g` of the result.

A scan that keeps an offset compares it to offsets only, so it slides once that offset is moved along
(`Slides.index`). The one exception is the start of the source, where `Scan.trivia` and `Scan.lex` look
at the offset itself. Loops have more rounds to go in the longer source; as the shorter one is not
exhausted, they do not need them (`Slides.rounds`).
-/

namespace EcmaSyntax

set_option synthInstance.maxSize 100000000000000

variable {s : ScanState} {τ : Type} {c : CodePoint} {cause : Cause}

/-- A source that goes on behind a text of some lines, and how it is read. -/
structure Shift where
  before : Text
  rest : Source
  lines : Nat
  edition : Nat
  tolerant : Bool

namespace Shift

variable (σ : Shift)

/-- How far offsets are moved. -/
def width : Nat := σ.before.length

/-- The two texts as one source. -/
def whole : Source := ⟨σ.before.toArray ++ σ.rest.chars⟩

/-- The setting for the second text alone. -/
def short : Setting := ⟨σ.rest, σ.edition, σ.tolerant⟩

/-- The setting for both texts. -/
def long : Setting := ⟨σ.whole, σ.edition, σ.tolerant⟩

/-! ### The text behind -/

@[simp] theorem source_short : σ.short.source = σ.rest := rfl
@[simp] theorem source_long : σ.long.source = σ.whole := rfl
@[simp] theorem edition_long : σ.long.edition = σ.short.edition := rfl
@[simp] theorem tolerant_long : σ.long.tolerant = σ.short.tolerant := rfl

theorem size_whole : σ.whole.size = σ.rest.size + σ.width := by
  simp [whole, Source.size, width, Nat.add_comm]

theorem char_whole (i : Nat) : σ.whole.char (i + σ.width) = σ.rest.char i := by
  simp only [whole, Source.char, width, Array.getD_eq_getD_getElem?]
  rw [Array.getElem?_append_right (by simp)]
  simp

theorem slice_whole (i j : Nat) : σ.whole.slice (i + σ.width) (j + σ.width) = σ.rest.slice i j := by
  simp [whole, Source.slice, width, Array.extract_append]

/-- Where the end of a slice is given by a distance, nothing is cut off in front of the second text. -/
theorem slice_whole_sub (i j n : Nat) : σ.whole.slice (i + σ.width) (j + σ.width - n) = σ.rest.slice i (j - n) := by
  rcases Nat.le_total n j with h | h
  · rw [Nat.sub_add_comm h, slice_whole]
  · rw [Nat.sub_eq_zero_of_le h, Source.slice, Source.slice, Array.extract_empty_of_stop_le_start (by omega),
      Array.extract_empty_of_stop_le_start (Nat.zero_le _)]

theorem hasAt_whole (i : Nat) (w : String) : σ.whole.hasAt (i + σ.width) w = σ.rest.hasAt i w := by
  rw [Source.hasAt, Source.hasAt, Nat.add_right_comm, slice_whole]

theorem skipWhile_whole (test : CodePoint → Bool) (i : Nat) :
    σ.whole.skipWhile test (i + σ.width) = σ.rest.skipWhile test i + σ.width := by
  fun_induction Source.skipWhile σ.rest test i with
  | case1 i hsize htest ih =>
    rw [Source.skipWhile, if_pos (by rw [size_whole]; omega), char_whole, if_pos htest, Nat.add_right_comm, ih]
  | case2 i hsize htest =>
    rw [Source.skipWhile, if_pos (by rw [size_whole]; omega), char_whole, if_neg htest]
  | case3 i hsize => rw [Source.skipWhile, if_neg (by rw [size_whole]; omega)]

theorem terminatorLength_whole (i : Nat) : σ.whole.terminatorLength (i + σ.width) = σ.rest.terminatorLength i := by
  rw [Source.terminatorLength, Source.terminatorLength, Nat.add_right_comm, char_whole, char_whole]

theorem longestAt?_whole (edition i : Nat) :
    Punctuator.longestAt? σ.whole edition (i + σ.width) = Punctuator.longestAt? σ.rest edition i := by
  simp only [Punctuator.longestAt?, Punctuator.standsAt, hasAt_whole, Nat.add_right_comm i σ.width, char_whole]

/-! ### Places behind -/

/-- A cursor in the second text, in both texts. -/
def cursor (c : Cursor) : Cursor := ⟨c.index + σ.width, c.line + σ.lines, c.lineStart + σ.width⟩

/-- A place in the second text, in both texts. -/
def mark (m : Mark) : Mark := ⟨m.index + σ.width, m.line + σ.lines, m.column⟩

/-- A part of the second text, in both texts. -/
def span (s : Span) : Span := ⟨σ.mark s.first, σ.mark s.last⟩

/-- An error in the second text, in both texts. -/
def error (e : SyntaxError) : SyntaxError := ⟨e.index + σ.width, e.line + σ.lines, e.column, e.cause⟩

/-- A failure in the second text, in both texts. -/
def failure : Failure → Failure
  | .refused e => .refused (σ.error e)
  | f => f

/-- A token of the second text, in both texts. -/
def token (t : Token) : Token :=
  { t with
    start := t.start + σ.width
    stop := t.stop + σ.width
    line := t.line + σ.lines
    lineStart := t.lineStart + σ.width }

/-- A comment in the second text, in both texts. -/
def comment (c : Comment) : Comment :=
  { c with
    textStart := c.textStart + σ.width
    textStop := c.textStop + σ.width
    span := σ.span c.span }

/-- The state of a scan of the second text, in both texts. -/
def state (s : ScanState) : ScanState :=
  { s with cursor := σ.cursor s.cursor, errors := s.errors.map σ.error }

/-- What becomes of a scan of the second text, in both texts, with its result changed. -/
def outcome {α : Type} (g : α → α) :
    EStateM.Result Failure ScanState α → EStateM.Result Failure ScanState α
  | .ok a s => .ok (g a) (σ.state s)
  | .error e s => .error (σ.failure e) (σ.state s)

/-- What a round of `Scan.trivia` in the second text comes to, in both texts. -/
def round : Round (List Comment × Bool) (List Comment) → Round (List Comment × Bool) (List Comment)
  | .again x => .again (x.1.map σ.comment, x.2)
  | .done xs => .done (xs.map σ.comment)

theorem column_cursor (c : Cursor) : (σ.cursor c).column = c.column := by
  simp only [Cursor.column, cursor]
  omega

theorem mark_cursor (c : Cursor) : (σ.cursor c).mark = σ.mark c.mark := by
  simp only [Cursor.mark, mark, column_cursor]
  simp [cursor]

theorem advance_cursor (c : Cursor) (n : Nat) : (σ.cursor c).advance n = σ.cursor (c.advance n) := by
  simp only [Cursor.advance, cursor, Nat.add_right_comm]

theorem nextLine_cursor (c : Cursor) (n : Nat) : (σ.cursor c).nextLine n = σ.cursor (c.nextLine n) := by
  simp only [Cursor.nextLine, cursor, Nat.add_right_comm]

theorem passTerminator_cursor (c : Cursor) :
    (σ.cursor c).passTerminator σ.whole = σ.cursor (c.passTerminator σ.rest) := by
  rw [Cursor.passTerminator, Cursor.passTerminator, ← nextLine_cursor]
  exact congrArg _ (σ.terminatorLength_whole c.index)

theorem char_cursor (c : Cursor) (k : Nat) : σ.whole.char ((σ.cursor c).index + k) = σ.rest.char (c.index + k) := by
  rw [← σ.char_whole (c.index + k), Nat.add_right_comm]
  rfl

theorem index_cursor_lt_size (c : Cursor) : (σ.cursor c).index < σ.whole.size ↔ c.index < σ.rest.size := by
  rw [size_whole]
  exact Nat.add_lt_add_iff_right

theorem passBlock_cursor (c : Cursor) : (σ.cursor c).passBlock σ.whole = (c.passBlock σ.rest).map id σ.cursor := by
  fun_induction Cursor.passBlock σ.rest c with
  | case1 c hsize hend ih =>
    rw [Cursor.passBlock, if_pos ((σ.index_cursor_lt_size c).2 hsize), if_pos, passTerminator_cursor, ih]
    exact (σ.char_cursor c 0).symm ▸ hend
  | case2 c hsize hend hclose =>
    rw [Cursor.passBlock, if_pos ((σ.index_cursor_lt_size c).2 hsize), if_neg, if_pos, advance_cursor]
    · rfl
    · rw [σ.char_cursor c 1, ← Nat.add_zero (σ.cursor c).index, σ.char_cursor c 0]
      exact hclose
    · exact (σ.char_cursor c 0).symm ▸ hend
  | case3 c hsize hend hclose ih =>
    rw [Cursor.passBlock, if_pos ((σ.index_cursor_lt_size c).2 hsize), if_neg, if_neg, advance_cursor, ih]
    · rw [σ.char_cursor c 1, ← Nat.add_zero (σ.cursor c).index, σ.char_cursor c 0]
      exact hclose
    · exact (σ.char_cursor c 0).symm ▸ hend
  | case4 c hsize =>
    rw [Cursor.passBlock, if_neg (mt (σ.index_cursor_lt_size c).1 hsize)]
    rfl

end Shift

/-! ### Scans that slide -/

/-- A run of `m` in the second text, from a state, is run out; or a run of `m'` in both texts does the
same, with all places moved. -/
def SlidesAt (σ : Shift) {α : Type} (g : α → α) (m m' : Scan α) (s : ScanState) : Prop :=
  (∃ t, m σ.short s = .error .exhausted t) ∨ m' σ.long (σ.state s) = σ.outcome g (m σ.short s)

/-- The two runs do the same from any state. -/
class Slides (σ : Shift) {α : Type} (g : α → α) (m m' : Scan α) : Prop where
  out (s : ScanState) : SlidesAt σ g m m' s

/-- What follows need only slide where the first run gets. -/
theorem SlidesAt.bind (h : SlidesAt σ g m m' s)
    (hf : ∀ a t, m σ.short s = .ok a t → SlidesAt σ k (f a) (f' (g a)) t) :
    SlidesAt σ k (m >>= f) (m' >>= f') s := by
  unfold SlidesAt
  simp only [bind_apply]
  rcases h with ⟨t, ht⟩ | hm
  · exact .inl ⟨t, by rw [ht]⟩
  · rw [hm]
    cases hrun : m σ.short s with
    | ok a t => exact hf a t hrun
    | error e t => exact .inr rfl

namespace Slides

variable {σ : Shift} {α β : Type} {g : α → α} {k : β → β} {m m' n n' : Scan α}
  {f f' : α → Scan β} {p : Prop} {body body' : τ → Scan (Round τ β)} {q : Round τ β → Round τ β}

theorem pure (a : α) : Slides σ g (Pure.pure a) (Pure.pure (g a)) := ⟨fun _ => .inr rfl⟩

theorem of_eq (h : b = g a) : Slides σ g (Pure.pure a) (Pure.pure b) := h ▸ pure a

instance (a : α) : Slides σ (fun x => x) (Pure.pure a) (Pure.pure a) := pure a

instance : Slides σ g (throw (.fault e)) (throw (.fault e)) := ⟨fun _ => .inr rfl⟩

theorem bind (h : Slides σ g m m') (hf : ∀ a, Slides σ k (f a) (f' (g a))) : Slides σ k (m >>= f) (m' >>= f') :=
  ⟨fun s => (h.out s).bind fun a t _ => (hf a).out t⟩

theorem seq [h : Slides σ (fun x => x) m m'] (hf : ∀ a, Slides σ k (f a) (f' a)) :
    Slides σ k (m >>= f) (m' >>= f') := bind h hf

instance [Slides σ (fun x => x) m m'] [hf : ∀ a, Slides σ k (f a) (f' a)] :
    Slides σ k (m >>= f) (m' >>= f') := seq hf

instance (priority := 50) [u : Expands m n] [u' : Expands m' n'] [h : Slides σ g n n'] : Slides σ g m m' :=
  u.eq ▸ u'.eq ▸ h

instance [Decidable p] [h : Slides σ g m m'] [h' : Slides σ g n n'] :
    Slides σ g (if p then m else n) (if p then m' else n') := by
  split
  · exact h
  · exact h'

theorem ite [Decidable p] [Decidable p'] (hp : p' ↔ p) (h : Slides σ g m m')
    (h' : Slides σ g n n') : Slides σ g (if p then m else n) (if p' then m' else n') := by
  by_cases hpos : p
  · rw [if_pos hpos, if_pos (hp.2 hpos)]
    exact h
  · rw [if_neg hpos, if_neg (mt hp.1 hpos)]
    exact h'

theorem modify {f f' : ScanState → ScanState} (h : ∀ s, f' (σ.state s) = σ.state (f s)) :
    Slides σ (fun x => x) (modify f : Scan Unit) (modify f') :=
  ⟨fun s => .inr (show EStateM.Result.ok PUnit.unit (f' (σ.state s)) = .ok PUnit.unit (σ.state (f s)) by
    rw [h s])⟩

/-- What is done with the setting in the two texts. -/
theorem read {f f' : Setting → Scan α} (h : Slides σ g (f σ.short) (f' σ.long)) :
    Slides σ g (MonadReader.read >>= f) (MonadReader.read >>= f') :=
  ⟨h.out⟩

/-- An offset moves along. -/
instance index {f f' : Nat → Scan α} [h : ∀ i, Slides σ g (f i) (f' (i + σ.width))] :
    Slides σ g (Scan.index >>= f) (Scan.index >>= f') :=
  ⟨fun s => (h s.cursor.index).out s⟩

theorem readIndex {f f' : Setting → Nat → Scan α} (h : ∀ i, Slides σ g (f σ.short i) (f' σ.long (i + σ.width))) :
    Slides σ g (MonadReader.read >>= fun r => Scan.index >>= f r)
      (MonadReader.read >>= fun r => Scan.index >>= f' r) :=
  read index

theorem get {f f' : ScanState → Scan α} (h : ∀ s, Slides σ g (f s) (f' (σ.state s))) :
    Slides σ g (MonadState.get >>= f) (MonadState.get >>= f') :=
  ⟨fun s => (h s).out s⟩

/-- A loop that is not run out needs no more rounds. -/
theorem rounds {p : τ → τ} (hagain : ∀ x, q (.again x) = .again (p x))
    (hdone : ∀ b, q (.done b) = .done (k b)) (h : ∀ x, Slides σ q (body x) (body' (p x))) :
    ∀ (bound bound' : Nat) (x : τ), bound ≤ bound' →
      Slides σ k (EcmaSyntax.rounds body bound x) (EcmaSyntax.rounds body' bound' (p x))
  | 0, _, _, _ => ⟨fun s => .inl ⟨s, rfl⟩⟩
  | bound + 1, 0, _, hle => absurd hle (Nat.not_succ_le_zero _)
  | bound + 1, bound' + 1, x, hle => by
    refine bind (h x) fun y => ?_
    cases y with
    | again y =>
      rw [hagain]
      exact rounds hagain hdone h bound bound' y (Nat.le_of_succ_le_succ hle)
    | done b =>
      rw [hdone]
      exact pure b

theorem loop {p : τ → τ} (hagain : ∀ x, q (.again x) = .again (p x))
    (hdone : ∀ b, q (.done b) = .done (k b)) (h : ∀ x, Slides σ q (body x) (body' (p x))) (x : τ) :
    Slides σ k (Scan.loop body x) (Scan.loop body' (p x)) := by
  refine read (rounds hagain hdone h _ _ x ?_)
  rw [Shift.source_short, Shift.source_long, Shift.size_whole]
  omega

instance [h : ∀ x, Slides σ (fun y => y) (body x) (body' x)] :
    Slides σ (fun y => y) (Scan.loop body x) (Scan.loop body' x) :=
  loop (fun _ => rfl) (fun _ => rfl) h x

instance forIn {body body' : γ → β → Scan (ForInStep β)} [h : ∀ x b, Slides σ (fun y => y) (body x b) (body' x b)] :
    ∀ l : List γ, Slides σ (fun y => y) (ForIn.forIn l b body) (ForIn.forIn l b body')
  | [] => by
    rw [List.forIn_nil, List.forIn_nil]
    infer_instance
  | x :: l => by
    have (b : β) : Slides σ (fun y => y) (ForIn.forIn l b body) (ForIn.forIn l b body') := forIn l
    rw [List.forIn_cons, List.forIn_cons]
    refine bind (h x b) fun y => ?_
    cases y <;> infer_instance

end Slides

/-! ### Scanners -/

namespace Scan

variable {σ : Shift} {α : Type} {g : α → α} {test : CodePoint → Bool}

instance {c : Cursor} : Slides σ (fun x => x) (setCursor c) (setCursor (σ.cursor c)) :=
  .modify fun _ => rfl
instance : Slides σ (fun x => x) (setIndex i) (setIndex (i + σ.width)) :=
  .modify fun _ => rfl
instance : Slides σ (fun x => x) (advance n) (advance n) :=
  .modify fun s => by simp only [Shift.state, Shift.advance_cursor]

instance : Slides σ (fun x => x) (peek k) (peek k) := by
  refine .readIndex fun i => ?_
  simp only [Shift.source_short, Shift.source_long, Nat.add_right_comm i σ.width, Shift.char_whole, Shift.size_whole]
  exact .ite Nat.add_lt_add_iff_right inferInstance inferInstance

instance : Slides σ (fun x => x) atEnd atEnd := by
  refine .readIndex fun i => ?_
  refine .of_eq (decide_eq_decide.2 ?_)
  rw [Shift.source_short, Shift.source_long, Shift.size_whole, Nat.add_le_add_iff_right]

instance : Slides σ (fun x => x) (looksAt w) (looksAt w) := by
  refine .readIndex fun i => ?_
  simp only [Shift.source_short, Shift.source_long, Shift.hasAt_whole]
  infer_instance

instance : Slides σ (fun x => x) (since year) (since year) :=
  .read (.of_eq rfl)

instance : Slides σ (fun x => x) (sliceFrom start) (sliceFrom (start + σ.width)) := by
  refine .readIndex fun i => ?_
  simp only [Shift.source_short, Shift.source_long, Shift.slice_whole]
  infer_instance

instance : Slides σ (fun x => x) (skipWhile test) (skipWhile test) := by
  refine .readIndex fun i => ?_
  simp only [Shift.source_short, Shift.source_long, Shift.skipWhile_whole]
  infer_instance

instance : Slides σ (fun x => x) (endLine c) (endLine c) :=
  .seq fun _ => .modify fun s => by
    simp only [Shift.state, Shift.nextLine_cursor]

theorem slides_errorHere {f f' : SyntaxError → Scan α} (h : ∀ e, Slides σ g (f e) (f' (σ.error e))) :
    Slides σ g (errorHere cause >>= f) (errorHere cause >>= f') := by
  refine .bind ⟨fun s => .inr ?_⟩ h
  show EStateM.Result.ok (SyntaxError.mk _ _ _ _) _ = .ok (SyntaxError.mk _ _ _ _) _
  simp only [Shift.state, Shift.column_cursor]
  rfl

theorem slides_refused (e : SyntaxError) :
    Slides σ g (throw (.refused e)) (throw (.refused (σ.error e))) := ⟨fun _ => .inr rfl⟩

instance : Slides σ g (refuse cause) (refuse cause) := slides_errorHere slides_refused

-- What would follow a refusal does not matter.
instance (priority := high) {f f' : β → Scan α} : Slides σ g (refuse cause >>= f) (refuse cause >>= f') := by
  unfold refuse
  rw [bind_assoc, bind_assoc]
  exact slides_errorHere fun e => ⟨fun _ => .inr rfl⟩

instance : Slides σ (fun x => x) (tolerate cause) (tolerate cause) := by
  refine slides_errorHere fun e => .read (.ite Iff.rfl (.modify fun s => ?_) (slides_refused e))
  simp only [Shift.state, Array.map_push]

instance : Slides σ (fun x => x) (openBrace b) (openBrace b) := .modify fun _ => rfl
instance : Slides σ (fun x => x) closeBrace closeBrace := .modify fun _ => rfl
instance : Slides σ σ.token (token start l) (token (start + σ.width) l) :=
  ⟨fun _ => .inr rfl⟩

/-! #### Names and numbers -/

instance : Slides σ (fun x => x) (hexEscape count) (hexEscape count) := by
  refine .readIndex fun i => ?_
  simp only [Shift.source_short, Shift.source_long, Shift.skipWhile_whole, Nat.add_right_comm i σ.width,
    Nat.add_min_add_right, Shift.slice_whole]
  refine .seq fun _ => .of_eq ?_
  simp only [Nat.add_right_cancel_iff]
  congr

instance : Slides σ (fun x => x) (nameEscape test) (nameEscape test) := by
  repeat' first
    | infer_instance
    | refine Slides.seq fun _ => ?_
    | split

instance : Slides σ (fun x => x) plainName plainName := by
  refine .readIndex fun i => ?_
  simp only [Shift.source_short, Shift.source_long, Nat.add_right_comm i σ.width, Shift.skipWhile_whole,
    Shift.char_whole, Shift.slice_whole, Shift.size_whole]
  exact .ite (by simp) inferInstance inferInstance

instance : Slides σ σ.token identifier identifier := by
  have hname (start : Nat) (name : Text) : Slides σ σ.token (do
        let lexeme := nameLexeme name
        let stop ← index
        if !lexeme.isIdentifier && start + name.length ≠ stop then
          setIndex start
          tolerate .escapedReservedWord
          setIndex stop
        token start lexeme) (do
        let lexeme := nameLexeme name
        let stop ← index
        if !lexeme.isIdentifier && start + σ.width + name.length ≠ stop then
          setIndex (start + σ.width)
          tolerate .escapedReservedWord
          setIndex stop
        token (start + σ.width) lexeme) := by
    refine @Slides.index _ _ _ _ _ fun stop => .ite ?_ inferInstance inferInstance
    rw [Nat.add_right_comm]
    simp only [ne_eq, Nat.add_right_cancel_iff]
  infer_instance

instance : Slides σ (fun x => x) isLegacyOctal isLegacyOctal := by
  refine .readIndex fun i => .of_eq ?_
  have hchar : σ.whole.char (σ.whole.skipWhile CodePoint.isOctalDigit (i + σ.width + 1))
      = σ.rest.char (σ.rest.skipWhile CodePoint.isOctalDigit (i + 1)) := by
    rw [Nat.add_right_comm, Shift.skipWhile_whole, Shift.char_whole]
  exact congrArg (fun c => !(c = 0x38 || c = 0x39)) hchar

instance : Slides σ σ.token punctuator punctuator := by
  refine @Slides.index _ _ _ _ _ fun start => .read ?_
  simp only [Shift.source_short, Shift.source_long, Shift.edition_long, Shift.longestAt?_whole]
  cases Punctuator.longestAt? σ.rest σ.short.edition start <;> infer_instance

/-! #### Literals -/

instance : Slides σ (fun x => x) (stringEscape q c) (stringEscape q c) := by
  unfold stringEscape
  repeat' first
    | infer_instance
    | refine Slides.seq fun _ => ?_
    | split

instance : Slides σ (fun x => x) (templateEscape c) (templateEscape c) := by
  unfold templateEscape
  repeat' first
    | infer_instance
    | refine @Slides.index _ _ _ _ _ fun _ => ?_
    | refine Slides.seq fun _ => ?_
    | split

instance : Slides σ σ.token template template := by
  refine .readIndex fun start => ?_
  refine .seq fun c => .seq fun _ =>
    .seq fun x => ?_
  obtain ⟨tail, cooked⟩ := x
  cases tail with
  | none => infer_instance
  | some tail =>
    have htoken : Slides σ σ.token (do
        let stop := (← index) - (if tail then 1 else 2)
        token start (.template (σ.rest.slice (start + 1) stop) cooked.reverse (c = 0x60) tail)) (do
        let stop := (← index) - (if tail then 1 else 2)
        token (start + σ.width) (.template (σ.whole.slice (start + σ.width + 1) stop) cooked.reverse
          (c = 0x60) tail)) := by
      refine @Slides.index _ _ _ _ _ fun i => ?_
      simp only [Nat.add_right_comm start σ.width, Shift.slice_whole_sub]
      infer_instance
    exact .ite Iff.rfl (.seq fun _ => htoken) htoken

instance : Slides σ (fun x => x) regexBody regexBody := by
  have hslice (start : Nat) : Slides σ (fun x => x)
      (do return (← read).source.slice (start + 1) ((← index) - 1) : Scan Text)
      (do return (← read).source.slice (start + σ.width + 1) ((← index) - 1) : Scan Text) := by
    refine .readIndex fun i => .of_eq ?_
    rw [Nat.add_right_comm]
    exact σ.slice_whole_sub _ _ _
  unfold regexBody
  infer_instance

instance : Slides σ (fun x => x) (checkRegex body flags) (checkRegex body flags) := by
  refine .seq fun _ => ?_
  split <;> infer_instance

/-! #### Tokens -/

instance : Slides σ σ.token plainLex plainLex := by
  unfold plainLex
  repeat' first
    | with_reducible refine Slides.seq fun _ => ?_
    | split
    | refine Slides.get fun _ => .ite Iff.rfl ?_ ?_
    | infer_instance

/-! #### Comments -/

theorem lineComment_apply (width : Nat) (r : Setting) (s : ScanState) : lineComment width r s =
      (let stop := r.source.skipWhile (fun c => !CodePoint.isLineTerminator c) s.cursor.index
      let last : Cursor := { s.cursor with index := stop }
      .ok { block := false, textStart := s.cursor.index, textStop := stop
            span := ⟨⟨s.cursor.index - width, s.cursor.line, s.cursor.column - width⟩, last.mark⟩ }
        { s with cursor := if stop < r.source.size then last.passTerminator r.source else last }) :=
  rfl

theorem slidesAt_lineComment (h : width ≤ s.cursor.index) :
    SlidesAt σ σ.comment (lineComment width) (lineComment width) s := by
  generalize hstop : σ.rest.skipWhile (fun c => !CodePoint.isLineTerminator c) s.cursor.index = stop
  have hstop' : σ.whole.skipWhile (fun c => !CodePoint.isLineTerminator c) (σ.cursor s.cursor).index
      = stop + σ.width := hstop ▸ σ.skipWhile_whole _ _
  have hend : (if stop + σ.width < σ.whole.size then
        (σ.cursor { s.cursor with index := stop }).passTerminator σ.whole
        else σ.cursor { s.cursor with index := stop })
      = σ.cursor (if stop < σ.rest.size then
        ({ s.cursor with index := stop } : Cursor).passTerminator σ.rest
        else { s.cursor with index := stop }) := by
    rw [Shift.passTerminator_cursor, Shift.size_whole]
    simp only [Nat.add_lt_add_iff_right]
    split <;> rfl
  have hfirst : (⟨(σ.cursor s.cursor).index - width, (σ.cursor s.cursor).line,
        (σ.cursor s.cursor).column - width⟩ : Mark)
      = σ.mark ⟨s.cursor.index - width, s.cursor.line, s.cursor.column - width⟩ := by
    rw [Shift.column_cursor]
    exact congrArg (Mark.mk · _ _) (Nat.sub_add_comm h)
  have hspan : (⟨⟨(σ.cursor s.cursor).index - width, (σ.cursor s.cursor).line,
        (σ.cursor s.cursor).column - width⟩, (σ.cursor { s.cursor with index := stop }).mark⟩ : Span)
      = σ.span ⟨⟨s.cursor.index - width, s.cursor.line, s.cursor.column - width⟩,
        ({ s.cursor with index := stop } : Cursor).mark⟩ := by
    rw [hfirst, Shift.mark_cursor]
    rfl
  refine .inr ?_
  rw [lineComment_apply, lineComment_apply, Shift.source_short, Shift.source_long, hstop]
  dsimp only [Shift.state]
  rw [hstop']
  exact congr (congrArg EStateM.Result.ok (congrArg (Comment.mk _ _ _) hspan)) (congrArg (ScanState.mk · _ _ _) hend)

/-- A block comment once its end is found. -/
def endBlock (c : Cursor) (closed : Bool) (last : Cursor) : Scan Comment := do
  setCursor last
  unless closed do tolerate .illegalToken
  return { block := true, textStart := c.index
           textStop := if closed then last.index - 2 else last.index
           span := ⟨⟨c.index - 2, c.line, c.column - 2⟩, last.mark⟩ }

theorem slides_endBlock {c last : Cursor} {closed : Bool} (hc : 2 ≤ c.index) (hlast : closed → 2 ≤ last.index) :
    Slides σ σ.comment (endBlock c closed last) (endBlock (σ.cursor c) closed (σ.cursor last)) := by
  have hfirst : (σ.cursor c).index - 2 = c.index - 2 + σ.width := Nat.sub_add_comm hc
  have hstop : (if closed then (σ.cursor last).index - 2 else (σ.cursor last).index)
      = (if closed then last.index - 2 else last.index) + σ.width := by
    cases closed with
    | false => rfl
    | true => exact Nat.sub_add_comm (hlast rfl)
  unfold endBlock
  rw [hfirst, hstop, Shift.column_cursor, Shift.mark_cursor]
  refine .seq fun _ => ?_
  exact .ite Iff.rfl (.of_eq rfl) (.seq fun _ => .of_eq rfl)

theorem slidesAt_blockComment (h : 2 ≤ s.cursor.index) :
    SlidesAt σ σ.comment blockComment blockComment s := by
  have hrun (r : Setting) (s : ScanState) : blockComment r s
      = endBlock s.cursor (s.cursor.passBlock r.source).1 (s.cursor.passBlock r.source).2 r s := rfl
  have hclosed : (s.cursor.passBlock σ.rest).1 → 2 ≤ (s.cursor.passBlock σ.rest).2.index := by
    intro hclosed
    obtain ⟨i, -, hindex, -⟩ := Cursor.hasAt_passBlock hclosed
    omega
  unfold SlidesAt
  rw [hrun, hrun, Shift.source_short, Shift.source_long]
  dsimp only [Shift.state]
  rw [Shift.passBlock_cursor]
  exact (slides_endBlock h hclosed).out s

/-- A comment is read after its delimiter, so that there is room for that before it. -/
theorem slides_comment (width : Nat) (found : List Comment) (lineStart : Bool)
    (h : ∀ s : ScanState, width ≤ s.cursor.index → SlidesAt σ σ.comment m m s) :
    Slides σ σ.round (do advance width; return .again ((← m) :: found, lineStart))
      (do advance width; return .again ((← m) :: found.map σ.comment, lineStart)) := by
  have hadvance : Slides σ (fun x => x) (advance width) (advance width) := inferInstance
  refine ⟨fun s => (hadvance.out s).bind fun _ t ht => ?_⟩
  cases ht
  exact (h _ (Nat.le_add_left _ _)).bind fun x u _ => .inr rfl

theorem slides_triviaRound (x : List Comment × Bool) :
    Slides σ σ.round (triviaRound x) (triviaRound (x.1.map σ.comment, x.2)) := by
  obtain ⟨found, lineStart⟩ := x
  have hline (width : Nat) (b : Bool) :=
    slides_comment (σ := σ) width found b fun _ => slidesAt_lineComment
  have hblock := slides_comment (σ := σ) 2 found lineStart fun _ => slidesAt_blockComment
  have hdone : Slides σ σ.round (Pure.pure (.done found.reverse)) (Pure.pure (.done (found.map σ.comment).reverse)) :=
    .of_eq (by rw [Shift.round, List.map_reverse])
  have hagain (b : Bool) : Slides σ σ.round (Pure.pure (.again (found, b)))
      (Pure.pure (.again (found.map σ.comment, b))) := .of_eq rfl
  refine .seq fun _ => .ite Iff.rfl hdone ?_
  refine .seq fun c => .ite Iff.rfl inferInstance ?_
  refine .ite Iff.rfl inferInstance ?_
  refine .seq fun _ => .ite Iff.rfl (hline 2 true) ?_
  refine .seq fun _ => .ite Iff.rfl hblock ?_
  refine .seq fun _ => .ite Iff.rfl (hline 3 lineStart) ?_
  refine .get fun s => .seq fun _ => ?_
  exact .ite Iff.rfl (hline 4 lineStart) hdone

theorem index_state_ne_zero (h : s.cursor.index ≠ 0) : (σ.state s).cursor.index ≠ 0 := by
  show s.cursor.index + σ.width ≠ 0
  omega

/-- Only at the start of a source does it matter where white space and comments are. -/
theorem slidesAt_trivia (h : s.cursor.index ≠ 0) : SlidesAt σ (List.map σ.comment) trivia trivia s := by
  have hloop : Slides σ (List.map σ.comment) (loop triviaRound ([], false)) (loop triviaRound ([], false)) :=
    .loop (fun _ => rfl) (fun _ => rfl) slides_triviaRound ([], false)
  have hrun (r : Setting) (s : ScanState) (h : s.cursor.index ≠ 0) :
      trivia r s = loop triviaRound ([], false) r s := by
    rw [← decide_eq_false h]
    rfl
  unfold SlidesAt
  rw [hrun _ _ h, hrun _ _ (index_state_ne_zero h)]
  exact hloop.out s

/-- Only at the start of a source may a line be hidden. -/
theorem lex_of_ne_zero (h : s.cursor.index ≠ 0) : lex r s = plainLex r s := by
  show (if (decide (s.cursor.index = 0) && _ && _) = true then hashbang else plainLex) r s = _
  rw [decide_eq_false h]
  rfl

theorem slidesAt_lex (h : s.cursor.index ≠ 0) : SlidesAt σ σ.token lex lex s := by
  have hlex : Slides σ σ.token plainLex plainLex := inferInstance
  unfold SlidesAt
  rw [lex_of_ne_zero h, lex_of_ne_zero (index_state_ne_zero h)]
  exact hlex.out s

end Scan

end EcmaSyntax
