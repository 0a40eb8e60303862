import EcmaSyntax.Token.Trivia

/-!
# Places in a source

`Source.place` says on which line an offset is, and in which column, by counting the line terminators
before it; a carriage return and the line feed after it are one. A cursor that is carried along while
the source is read is `Cursor.Right` if its line is the one that is counted.

`Cursor.Moves` is what reading comes down to: a cursor moves on, stays within the source, and stays
right. It does so on its line, over anything that is no line terminator (`Cursor.Glides`), and over a
line terminator if it is put on the next line (`Moves.passTerminator`).
-/

namespace EcmaSyntax

variable {test : CodePoint → Bool} {w : String}

/-- A written word is read as no other one. -/
theorem Text.ofString_is : (Text.ofString s).is t ↔ s = t := by
  have hinjective (a b : Char) (h : a.toNat = b.toNat) : a = b := Char.toNat_inj.1 h
  simp only [Text.is, Text.ofString, beq_iff_eq, List.map_inj_right hinjective, String.toList_inj]

/-- A code point that ends no line and is not met at the end of a source. -/
def CodePoint.isSolid (c : CodePoint) : Bool := c ≠ 0 && !CodePoint.isLineTerminator c

/-- What fails for line terminators, and at the end, only lets other code points pass. -/
theorem CodePoint.isSolid_of_test (hc : test c)
    (h : ∀ d ∈ [0, 0x0a, 0x0d, 0x2028, 0x2029], test d = false) : isSolid c := by
  by_cases hmem : c ∈ [0, 0x0a, 0x0d, 0x2028, 0x2029]
  · rw [h c hmem] at hc
    cases hc
  · simp only [List.mem_cons, List.not_mem_nil, or_false, not_or] at hmem
    simp [isSolid, isLineTerminator, hmem]

namespace CodePoint

variable {c : CodePoint}

theorem isSolid_of_isWhiteSpace (h : isWhiteSpace c) : isSolid c := isSolid_of_test h (by decide)
theorem isSolid_of_isHexDigit (h : isHexDigit c) : isSolid c := isSolid_of_test h (by decide)
theorem isSolid_of_isDecimalDigit (h : isDecimalDigit c) : isSolid c := isSolid_of_test h (by decide)
theorem isSolid_of_isOctalDigit (h : isOctalDigit c) : isSolid c := isSolid_of_test h (by decide)
theorem isSolid_of_isBinaryDigit (h : isBinaryDigit c) : isSolid c := isSolid_of_test h (by decide)
theorem isSolid_of_isIdentifierStart (h : isIdentifierStart c) : isSolid c :=
  isSolid_of_test h (by decide +kernel)
theorem isSolid_of_isIdentifierPart (h : isIdentifierPart c) : isSolid c :=
  isSolid_of_test h (by decide +kernel)

end CodePoint

theorem CodePoint.not_isLineTerminator_of_isSolid (h : isSolid c) : isLineTerminator c = false := by
  simp only [isSolid, Bool.and_eq_true, Bool.not_eq_true'] at h
  exact h.2

namespace Source

variable {s : Source} {i j k : Nat}

theorem char_of_size_le (h : s.size ≤ i) : s.char i = 0 := by
  simp only [size] at h
  simp [char, h]

theorem lt_size_of_isSolid (h : CodePoint.isSolid (s.char i)) : i < s.size := by
  refine Nat.lt_of_not_le fun hle => ?_
  rw [char_of_size_le hle] at h
  simp [CodePoint.isSolid] at h

/-! ### Slices -/

theorem slice_append (hij : i ≤ j) (hjk : j ≤ k) : s.slice i j ++ s.slice j k = s.slice i k := by
  rw [slice, slice, slice, ← Array.toList_append, Array.extract_append_extract, Nat.min_eq_left hij,
    Nat.max_eq_right hjk]

theorem slice_succ (hi : i < s.size) : s.slice i (i + 1) = [s.char i] := by
  have hi' : i < s.chars.size := hi
  rw [slice, char, Array.getD_eq_getD_getElem?, Array.getElem?_eq_getElem hi', Option.getD_some,
    Array.extract_succ_right (Nat.lt_succ_self i) hi', Array.extract_empty_of_stop_le_start (Nat.le_refl i)]
  rfl

theorem slice_pair (hi : i + 1 < s.size) : s.slice i (i + 2) = [s.char i, s.char (i + 1)] := by
  rw [← slice_append (Nat.le_succ i) (Nat.le_succ _), slice_succ (Nat.lt_of_succ_lt hi), slice_succ hi]
  rfl

theorem slice_of_hasAt (h : s.hasAt i w) : s.slice i (i + w.length) = Text.ofString w :=
  eq_of_beq h

/-- A word of two code points is found where these stand. -/
theorem hasAt_pair (hw : Text.ofString w = [a, b]) (ha : s.char i = a)
    (hb : s.char (i + 1) = b) (hsolid : CodePoint.isSolid b) : s.hasAt i w := by
  have hlength : w.length = 2 := by
    rw [← String.length_toList, ← List.length_map, ← Text.ofString, hw]
    rfl
  rw [hasAt, hlength, hw, slice_pair (lt_size_of_isSolid (by rwa [hb])), ha, hb, beq_self_eq_true]

section

variable {c : CodePoint} {t u : Text}

theorem after_eq_drop (s : Source) (i : Nat) : s.after i = s.chars.toList.drop i := by
  simp [after, slice, size, List.take_of_length_le]

theorem length_after (s : Source) (i : Nat) : (s.after i).length = s.size - i := by
  simp [after_eq_drop, size]

theorem after_append (h : s.after i = t ++ u) : s.slice i (i + t.length) = t ∧ s.after (i + t.length) = u := by
  rw [after_eq_drop] at h
  rw [after_eq_drop, ← List.drop_drop, h, List.drop_left]
  simp [slice, h]

theorem after_cons (h : s.after i = c :: t) : i < s.size ∧ s.char i = c ∧ s.after (i + 1) = t := by
  have hi : i < s.size := by
    have hlength := s.length_after i
    rw [h, List.length_cons] at hlength
    omega
  obtain ⟨hslice, hafter⟩ := after_append (t := [c]) h
  exact ⟨hi, List.singleton_inj.1 ((slice_succ hi).symm.trans hslice), hafter⟩

/-- A text lies between two offsets. -/
structure Spans (s : Source) (i : Nat) (t : Text) (j : Nat) : Prop where
  le : i ≤ j
  le_size : j ≤ s.size
  slice : s.slice i j = t

theorem Spans.append (h : s.Spans i t j) (h' : s.Spans j u k) : s.Spans i (t ++ u) k :=
  ⟨Nat.le_trans h.le h'.le, h'.le_size, by rw [← slice_append h.le h'.le, h.slice, h'.slice]⟩

theorem Spans.one (h : i < s.size) : s.Spans i [s.char i] (i + 1) := ⟨Nat.le_succ i, h, slice_succ h⟩

theorem Spans.after (h : s.Spans i t j) : s.after i = t ++ s.after j := by
  rw [Source.after, ← slice_append h.le h.le_size, h.slice]
  rfl

theorem Spans.length (h : s.Spans i t j) : i + t.length = j := by
  have hlength := congrArg List.length h.after
  rw [List.length_append, length_after, length_after] at hlength
  have := h.le
  have := h.le_size
  omega

end

/-! ### Looking ahead -/

theorem le_skipWhile (s : Source) (test : CodePoint → Bool) (i : Nat) : i ≤ s.skipWhile test i := by
  fun_induction skipWhile s test i <;> omega

theorem skipWhile_le_size (h : i ≤ s.size) : s.skipWhile test i ≤ s.size := by
  fun_induction skipWhile s test i <;> grind

theorem test_of_lt_skipWhile (hi : i ≤ k) (hk : k < s.skipWhile test i) : test (s.char k) := by
  fun_induction skipWhile s test i <;> grind

theorem not_test_skipWhile (h : s.skipWhile test i < s.size) :
    test (s.char (s.skipWhile test i)) = false := by
  fun_induction skipWhile s test i <;> grind

theorem spans_skipWhile (test : CodePoint → Bool) (h : i ≤ s.size) :
    s.Spans i (s.slice i (s.skipWhile test i)) (s.skipWhile test i) :=
  ⟨s.le_skipWhile test i, skipWhile_le_size h, rfl⟩

/-- A word that the source goes on with lies in the source. -/
theorem size_of_hasAt (h : s.hasAt i w) (hw : 0 < w.length) : i + w.length ≤ s.size := by
  simp only [hasAt, slice, beq_iff_eq] at h
  have hlength := congrArg List.length h
  simp only [Array.length_toList, Array.size_extract, Text.ofString, List.length_map, String.length_toList] at hlength
  simp only [size]
  omega

theorem char_of_hasAt (h : s.hasAt i w) (hk : k < w.length) : (Text.ofString w)[k]? = some (s.char (i + k)) := by
  have hsize : i + k < s.chars.size := by
    have := size_of_hasAt h (Nat.zero_lt_of_lt hk)
    simp only [size] at this
    omega
  simp only [hasAt, slice, beq_iff_eq] at h
  rw [← h, Array.getElem?_toList, Array.getElem?_extract]
  simp [char, hsize]
  omega

/-- A word is not found where another code point stands than its first one. -/
theorem not_hasAt_of_char_ne (hw : (Text.ofString w)[0]? = some d) (hd : s.char i ≠ d) : s.hasAt i w = false := by
  refine Bool.eq_false_iff.2 fun hat => hd ?_
  have hlength : 0 < w.length := by
    have := (List.getElem?_eq_some_iff.1 hw).1
    rwa [Text.ofString, List.length_map, String.length_toList] at this
  exact (Option.some.inj (hw.symm.trans (char_of_hasAt hat hlength))).symm

/-! ### Lines -/

/-- Does an offset lie inside of a line terminator? -/
def splits (s : Source) (i : Nat) : Bool := 0 < i && s.char (i - 1) = 0x0d && s.char i = 0x0a

/-- How many lines end before an offset. -/
def lineEnds (s : Source) : Nat → Nat
  | 0 => 0
  | i + 1 =>
    if CodePoint.isLineTerminator (s.char i) && !s.splits i then s.lineEnds i + 1 else s.lineEnds i

/-- Where the line of an offset starts. -/
def lineStart (s : Source) : Nat → Nat
  | 0 => 0
  | i + 1 => if CodePoint.isLineTerminator (s.char i) then i + 1 else s.lineStart i

/-- The place of an offset. The first line is that of the start, which has no number if the source is
empty. -/
def place (s : Source) (i : Nat) : Mark :=
  ⟨i, (Cursor.start s).line + s.lineEnds i, (i : Int) - s.lineStart i⟩

theorem lineStart_le (s : Source) (i : Nat) : s.lineStart i ≤ i := by
  induction i with
  | zero => exact Nat.le_refl 0
  | succ i ih =>
    rw [lineStart]
    split <;> omega

theorem lineEnds_mono (h : i ≤ j) : s.lineEnds i ≤ s.lineEnds j := by
  induction h with
  | refl => exact Nat.le_refl _
  | step _ ih =>
    rw [lineEnds]
    split <;> omega

/-- No line ends between two offsets. -/
def SameLine (s : Source) (i j : Nat) : Prop :=
  ∀ k, i ≤ k → k < j → CodePoint.isLineTerminator (s.char k) = false

theorem SameLine.refl (s : Source) (i : Nat) : s.SameLine i i := fun _ hk hlt => by omega

theorem SameLine.trans (h : s.SameLine i j) (h' : s.SameLine j k) : s.SameLine i k := by
  intro l hil hlk
  rcases Nat.lt_or_ge l j with hlj | hjl
  · exact h l hil hlj
  · exact h' l hjl hlk

theorem SameLine.single (h : CodePoint.isLineTerminator (s.char i) = false) : s.SameLine i (i + 1) :=
  fun k hk hlt => by rwa [show k = i by omega]

theorem SameLine.lineEnds_eq (h : s.SameLine i j) (hij : i ≤ j) : s.lineEnds j = s.lineEnds i := by
  induction hij with
  | refl => rfl
  | step hij ih =>
    rw [lineEnds, h _ hij (Nat.lt_succ_self _)]
    exact ih fun k hk hkj => h k hk (Nat.lt_succ_of_lt hkj)

theorem SameLine.lineStart_eq (h : s.SameLine i j) (hij : i ≤ j) : s.lineStart j = s.lineStart i := by
  induction hij with
  | refl => rfl
  | step hij ih =>
    rw [lineStart, h _ hij (Nat.lt_succ_self _)]
    exact ih fun k hk hkj => h k hk (Nat.lt_succ_of_lt hkj)

/-- An offset that is reached on one line is not inside of a line terminator, if the first one is not. -/
theorem SameLine.whole (h : s.SameLine i j) (hij : i ≤ j) (hi : s.splits i = false) : s.splits j = false := by
  rcases Nat.eq_or_lt_of_le hij with rfl | hij
  · exact hi
  · have hlast := h (j - 1) (by omega) (by omega)
    have hne : s.char (j - 1) ≠ 0x0d := fun hcr => by simp [hcr, CodePoint.isLineTerminator] at hlast
    simp [splits, hne]

theorem SameLine.whole_left (h : s.SameLine i j) (hij : i ≤ j) (hj : s.splits j = false) : s.splits i = false := by
  rcases Nat.eq_or_lt_of_le hij with rfl | hij
  · exact hj
  · have hfirst := h i (Nat.le_refl i) hij
    have hne : s.char i ≠ 0x0a := fun hlf => by simp [hlf, CodePoint.isLineTerminator] at hfirst
    simp [splits, hne]

end Source

/-! ### Cursors -/

namespace Cursor

variable {s : Source} {c c' c'' : Cursor} {i : Nat}

/-- The line of a cursor is the one that is counted, and the cursor is not inside of a line
terminator. -/
structure Right (s : Source) (c : Cursor) : Prop where
  line : c.line = (start s).line + s.lineEnds c.index
  lineStart : c.lineStart = s.lineStart c.index
  whole : s.splits c.index = false

theorem right_start (s : Source) : (start s).Right s := ⟨rfl, rfl, rfl⟩

theorem Right.mark_eq (h : c.Right s) : c.mark = s.place c.index := by
  simp [mark, Source.place, column, h.line, h.lineStart]

/-- A cursor stays right on its line. -/
theorem Right.forth (h : c.Right s) (hi : c.index ≤ i) (hline : s.SameLine c.index i) :
    ({ c with index := i } : Cursor).Right s where
  line := by rw [hline.lineEnds_eq hi, h.line]
  lineStart := by rw [hline.lineStart_eq hi, h.lineStart]
  whole := hline.whole hi h.whole

theorem Right.back (h : c.Right s) (hi : i ≤ c.index) (hline : s.SameLine i c.index) :
    ({ c with index := i } : Cursor).Right s where
  line := by rw [← hline.lineEnds_eq hi, h.line]
  lineStart := by rw [← hline.lineStart_eq hi, h.lineStart]
  whole := hline.whole_left hi h.whole

/-- Behind a line terminator one more line has ended, and the next one starts. -/
theorem passTerminator_counts (hwhole : s.splits c.index = false) (hc : CodePoint.isLineTerminator (s.char c.index)) :
    s.lineEnds (c.passTerminator s).index = s.lineEnds c.index + 1
      ∧ s.lineStart (c.passTerminator s).index = (c.passTerminator s).index
      ∧ s.splits (c.passTerminator s).index = false := by
  have hends : s.lineEnds (c.index + 1) = s.lineEnds c.index + 1 := by
    simp [Source.lineEnds, hc, hwhole]
  have hstart : s.lineStart (c.index + 1) = c.index + 1 := by simp [Source.lineStart, hc]
  simp only [Cursor.passTerminator, Cursor.nextLine, Source.terminatorLength]
  split
  · next hcrlf =>
    -- The line feed belongs to the terminator, and so ends no line of its own.
    simp only [Bool.and_eq_true, decide_eq_true_eq] at hcrlf
    have hsplit : s.splits (c.index + 1) := by simp [Source.splits, hcrlf]
    have hlf : CodePoint.isLineTerminator (s.char (c.index + 1)) := by
      simp [hcrlf, CodePoint.isLineTerminator]
    refine ⟨?_, ?_, ?_⟩
    · rw [show c.index + 2 = c.index + 1 + 1 from rfl, Source.lineEnds]
      simp [hsplit, hends]
    · rw [show c.index + 2 = c.index + 1 + 1 from rfl, Source.lineStart]
      simp [hlf]
    · simp [Source.splits, hcrlf]
  · next hcrlf => exact ⟨hends, hstart, by simpa [Source.splits] using hcrlf⟩

theorem passTerminator_le_size (hc : CodePoint.isLineTerminator (s.char c.index)) :
    (c.passTerminator s).index ≤ s.size := by
  have hsize : c.index < s.size := by
    refine Nat.lt_of_not_le fun hle => ?_
    rw [Source.char_of_size_le hle] at hc
    simp [CodePoint.isLineTerminator] at hc
  simp only [Cursor.passTerminator, Cursor.nextLine, Source.terminatorLength]
  split
  · next hcrlf =>
    have : ¬ s.size ≤ c.index + 1 := fun hle => by simp [Source.char_of_size_le hle] at hcrlf
    omega
  · omega

/-- Past a line terminator, a cursor on the next line is right. -/
theorem Right.passTerminator (h : c.Right s) (hc : CodePoint.isLineTerminator (s.char c.index)) :
    (c.passTerminator s).Right s := by
  obtain ⟨hends, hstart, hwhole⟩ := passTerminator_counts h.whole hc
  refine ⟨?_, hstart.symm, hwhole⟩
  rw [hends, ← Nat.add_assoc, ← h.line]
  rfl

/-- No more lines were counted than end before a cursor, and its line starts where some line does. -/
structure Lags (s : Source) (c : Cursor) : Prop where
  low : (start s).line ≤ c.line
  high : c.line ≤ (start s).line + s.lineEnds c.index
  lineStart : ∃ k ≤ s.size, c.lineStart = s.lineStart k
  whole : s.splits c.index = false

theorem Lags.forth (h : c.Lags s) (hi : c.index ≤ i) (hline : s.SameLine c.index i) :
    ({ c with index := i } : Cursor).Lags s :=
  ⟨h.low, hline.lineEnds_eq hi ▸ h.high, h.lineStart, hline.whole hi h.whole⟩

theorem Lags.passTerminator (h : c.Lags s) (hc : CodePoint.isLineTerminator (s.char c.index)) :
    (c.passTerminator s).Lags s := by
  obtain ⟨hends, hstart, hwhole⟩ := passTerminator_counts h.whole hc
  refine ⟨Nat.le_succ_of_le h.low, ?_, ⟨_, passTerminator_le_size hc, hstart.symm⟩, hwhole⟩
  rw [hends, ← Nat.add_assoc]
  exact Nat.succ_le_succ h.high

/-- Reading goes on from one cursor to another, if need be past the end. -/
structure Runs (s : Source) (c c' : Cursor) : Prop where
  le : c.index ≤ c'.index
  right : c.Right s → c'.Right s
  lags : c.Lags s → c'.Lags s

/-- Reading goes on from one cursor to another. -/
structure Moves (s : Source) (c c' : Cursor) : Prop extends Runs s c c' where
  bound : c.index ≤ s.size → c'.index ≤ s.size

/-- Reading goes on from one cursor to another on the same line, if need be past the end. -/
structure Slides (s : Source) (c c' : Cursor) : Prop where
  le : c.index ≤ c'.index
  sameLine : s.SameLine c.index c'.index
  line : c'.line = c.line
  lineStart : c'.lineStart = c.lineStart

/-- Reading goes on from one cursor to another on the same line. -/
structure Glides (s : Source) (c c' : Cursor) : Prop extends Slides s c c' where
  bound : c.index ≤ s.size → c'.index ≤ s.size

/-- Reading goes on from one cursor to another, and no account of lines is kept. -/
structure Drifts (s : Source) (c c' : Cursor) : Prop where
  le : c.index ≤ c'.index
  bound : c.index ≤ s.size → c'.index ≤ s.size
  line : c'.line = c.line
  lineStart : c'.lineStart = c.lineStart

namespace Runs

theorem refl (s : Source) (c : Cursor) : Runs s c c := ⟨Nat.le_refl _, id, id⟩

theorem trans (h : Runs s c c') (h' : Runs s c' c'') : Runs s c c'' :=
  ⟨Nat.le_trans h.le h'.le, h'.right ∘ h.right, h'.lags ∘ h.lags⟩

end Runs

namespace Slides

theorem refl (s : Source) (c : Cursor) : Slides s c c :=
  ⟨Nat.le_refl _, .refl s c.index, rfl, rfl⟩

theorem trans (h : Slides s c c') (h' : Slides s c' c'') : Slides s c c'' :=
  ⟨Nat.le_trans h.le h'.le, h.sameLine.trans h'.sameLine, h'.line.trans h.line, h'.lineStart.trans h.lineStart⟩

theorem eq_forth (h : Slides s c c') : c' = { c with index := c'.index } := by
  rw [← h.line, ← h.lineStart]

theorem runs (h : Slides s c c') : Runs s c c' := by
  refine ⟨h.le, fun hc => ?_, fun hc => ?_⟩
  · rw [h.eq_forth]
    exact hc.forth h.le h.sameLine
  · rw [h.eq_forth]
    exact hc.forth h.le h.sameLine

theorem step (h : Slides s c c') (hc : CodePoint.isLineTerminator (s.char c'.index) = false) :
    Slides s c (c'.advance 1) :=
  h.trans ⟨Nat.le_succ _, .single hc, rfl, rfl⟩

end Slides

theorem Runs.step (h : Runs s c c') (hc : CodePoint.isLineTerminator (s.char c'.index) = false) :
    Runs s c (c'.advance 1) :=
  h.trans ((Slides.refl s c').step hc).runs

namespace Glides

theorem refl (s : Source) (c : Cursor) : Glides s c c := ⟨.refl s c, id⟩

theorem trans (h : Glides s c c') (h' : Glides s c' c'') : Glides s c c'' :=
  ⟨h.toSlides.trans h'.toSlides, h'.bound ∘ h.bound⟩

theorem moves (h : Glides s c c') : Moves s c c' := ⟨h.runs, h.bound⟩

/-- What was read on a line may be given back. -/
theorem giveBack (h : Glides s c c') (h' : Glides s c' c'') : Glides s c { c'' with index := c'.index } :=
  ⟨⟨h.le, h.sameLine, h'.line.trans h.line, h'.lineStart.trans h.lineStart⟩, h.bound⟩

/-- Over what ends no line. -/
theorem skip (hi : c.index ≤ i) (hbound : c.index ≤ s.size → i ≤ s.size)
    (hline : s.SameLine c.index i) : Glides s c { c with index := i } :=
  ⟨⟨hi, hline, rfl, rfl⟩, hbound⟩

theorem advance (hsolid : ∀ k < n, CodePoint.isSolid (s.char (c.index + k))) : Glides s c (c.advance n) := by
  refine skip (by omega) (fun h => ?_) fun k hk hkn => ?_
  · cases n with
    | zero => exact h
    | succ n =>
      have := Source.lt_size_of_isSolid (hsolid n (Nat.lt_succ_self n))
      omega
  · have hk' := hsolid (k - c.index) (by omega)
    rw [Nat.add_sub_cancel' hk] at hk'
    exact CodePoint.not_isLineTerminator_of_isSolid hk'

theorem one (h : CodePoint.isSolid (s.char c.index)) : Glides s c (c.advance 1) :=
  advance fun k hk => by rwa [Nat.lt_one_iff.1 hk]

theorem step (h : c.index < s.size) (hc : CodePoint.isLineTerminator (s.char c.index) = false) :
    Glides s c (c.advance 1) :=
  skip (by omega) (fun _ => h) (.single hc)

theorem skipWhile (htest : ∀ d, test d → CodePoint.isLineTerminator d = false) :
    Glides s c { c with index := s.skipWhile test c.index } :=
  skip (s.le_skipWhile test c.index) Source.skipWhile_le_size
    fun _ hk hlt => htest _ (Source.test_of_lt_skipWhile hk hlt)

theorem word (h : s.hasAt c.index w) (hw : ∀ d ∈ Text.ofString w, CodePoint.isSolid d) :
    Glides s c (c.advance w.length) :=
  advance fun _ hk => hw _ (List.mem_of_getElem? (Source.char_of_hasAt h hk))

end Glides

namespace Drifts

theorem refl (s : Source) (c : Cursor) : Drifts s c c := ⟨Nat.le_refl _, id, rfl, rfl⟩

theorem trans (h : Drifts s c c') (h' : Drifts s c' c'') : Drifts s c c'' :=
  ⟨Nat.le_trans h.le h'.le, h'.bound ∘ h.bound, h'.line.trans h.line, h'.lineStart.trans h.lineStart⟩

theorem step (h : c.index < s.size) : Drifts s c (c.advance 1) := ⟨Nat.le_succ _, fun _ => h, rfl, rfl⟩

end Drifts

namespace Moves

theorem refl (s : Source) (c : Cursor) : Moves s c c := ⟨.refl s c, id⟩

theorem trans (h : Moves s c c') (h' : Moves s c' c'') : Moves s c c'' :=
  ⟨h.toRuns.trans h'.toRuns, h'.bound ∘ h.bound⟩

theorem passTerminator (hc : CodePoint.isLineTerminator (s.char c.index)) :
    Moves s c (c.passTerminator s) := by
  refine ⟨⟨?_, fun h => h.passTerminator hc, fun h => h.passTerminator hc⟩, fun _ =>
    passTerminator_le_size hc⟩
  simp only [Cursor.passTerminator, Cursor.nextLine]
  omega

theorem passBlock (s : Source) (c : Cursor) : Moves s c (c.passBlock s).2 := by
  fun_induction Cursor.passBlock s c with
  | case1 c hsize hc ih => exact (passTerminator hc).trans ih
  | case2 c hsize hc hclose =>
    simp only [Bool.and_eq_true, decide_eq_true_eq] at hclose
    refine (Glides.advance fun k hk => ?_).moves
    match k, hk with
    | 0, _ => simp [hclose, CodePoint.isSolid, CodePoint.isLineTerminator]
    | 1, _ => simp [hclose, CodePoint.isSolid, CodePoint.isLineTerminator]
  | case3 c hsize hc hclose ih => exact (Glides.step hsize (by simpa using hc)).moves.trans ih
  | case4 c hsize => exact refl s c

end Moves

end Cursor

end EcmaSyntax
