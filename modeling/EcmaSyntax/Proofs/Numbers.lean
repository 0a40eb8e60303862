import Mathlib.Data.Nat.Digits.Defs
import EcmaSyntax.Proofs.Advance
import EcmaSyntax.Proofs.Quoting

/-!
# Numbers

A separator of a number stands before a digit, and behind a digit or the point
(`Scan.separated_of_numericLiteral`). The point is an exception to what the language asks for: only what
follows a separator is looked at.
-/

namespace EcmaSyntax

open CodePoint

variable {d : CodePoint} {test : CodePoint → Bool} {whole : Text}

/-! ### Separators -/

/-- A digit or a point stands before `k`, not before `i`. -/
def Source.Admits (s : Source) (i k : Nat) : Prop :=
  i < k ∧ (isDecimalDigit (s.char (k - 1)) ∨ s.char (k - 1) = 0x2e)

/-- Every separator from `i` up to `j` stands behind a digit or a point, and before a digit. -/
def Source.Separated (s : Source) (i j : Nat) : Prop :=
  ∀ k, i ≤ k → k < j → s.char k = 0x5f → s.Admits i k ∧ isDecimalDigit (s.char (k + 1))

theorem Source.Separated.succ {s : Source} (h : s.Separated i j)
    (hj : s.char j = 0x5f → s.Admits i j ∧ isDecimalDigit (s.char (j + 1))) : s.Separated i (j + 1) := by
  intro k hi hk hc
  rcases Nat.lt_succ_iff_lt_or_eq.1 hk with hlt | rfl
  · exact h k hi hlt hc
  · exact hj hc

theorem CodePoint.ne_of_isDecimalDigit {c : CodePoint} (h : isDecimalDigit c)
    (hd : isDecimalDigit d = false) : c ≠ d := by
  rintro rfl
  simp [h] at hd

namespace Scan

variable {r : Setting} {s : ScanState} {i start : Nat}

/-- From `i` up to the cursor, separators stand as they should. -/
structure Separates (r : Setting) (i : Nat) (s : ScanState) : Prop where
  le : i ≤ s.cursor.index
  separated : r.source.Separated i s.cursor.index

theorem Separates.advance (h : Separates r i s) (hc : r.source.char s.cursor.index ≠ 0x5f) :
    Separates r i { s with cursor := s.cursor.advance 1 } :=
  ⟨Nat.le_succ_of_le h.le, h.separated.succ fun heq => absurd heq hc⟩

theorem Separates.skipWhile (h : Separates r i s) (htest : test 0x5f = false) :
    Separates r i { s with cursor := { s.cursor with index := r.source.skipWhile test s.cursor.index } } := by
  refine ⟨Nat.le_trans h.le (r.source.le_skipWhile test _), fun k hi hk hc => ?_⟩
  by_cases hlt : k < s.cursor.index
  · exact h.separated k hi hlt hc
  · have := Source.test_of_lt_skipWhile (Nat.le_of_not_lt hlt) hk
    simp [hc, htest] at this

/-- A separator comes first only behind a digit or a point. -/
theorem ensures_digits_separates (h : Separates r i s)
    (hfirst : r.source.char s.cursor.index = 0x5f → r.source.Admits i s.cursor.index) :
    Ensures digits r s fun _ t => Separates r i t := by
  refine ensures_loop (I := fun _ t => Separates r i t
    ∧ (r.source.char t.cursor.index = 0x5f → r.source.Admits i t.cursor.index)) ⟨h, hfirst⟩ fun found t ht => ?_
  obtain ⟨ht, hbehind⟩ := ht
  simp [digitsRound, Round.Holds, ht]
  refine fun _ => ⟨fun hdigit => ⟨ht.advance (ne_of_isDecimalDigit hdigit rfl), fun _ =>
    ⟨Nat.lt_succ_of_le ht.le, .inl hdigit⟩⟩, fun _ hc _ _ hdigit => ⟨⟨Nat.le_succ_of_le ht.le, ?_⟩, fun hc' => ?_⟩⟩
  · exact ht.separated.succ fun _ => ⟨hbehind hc, hdigit⟩
  · exact absurd hc' (ne_of_isDecimalDigit hdigit rfl)

theorem ensures_fraction_separates (h : Separates r i s) :
    Ensures fraction? r s fun _ t => Separates r i t := by
  simp [fraction?, h]
  intro _ hpoint
  refine ensures_digits_separates (h.advance (by rw [hpoint]; decide)) fun _ => ?_
  exact ⟨Nat.lt_succ_of_le h.le, .inr hpoint⟩

theorem ensures_power_separates (h : Separates r i s) : Ensures power? r s fun _ t => Separates r i t := by
  have hdigits {t : ScanState} (ht : Separates r i t) (hdigit : isDecimalDigit (r.source.char t.cursor.index)) :
      Ensures digits r t fun _ u => Separates r i u :=
    ensures_digits_separates ht fun hc => absurd hc (ne_of_isDecimalDigit hdigit rfl)
  simp [power?, exponent, h]
  intro _ hmark
  have hletter := h.advance (by rcases hmark with hc | hc <;> simp [hc])
  refine fun _ => ⟨fun hsign _ hdigit => hdigits (hletter.advance ?_) hdigit, fun _ _ _ => hdigits hletter⟩
  rcases hsign with hc | hc <;> simp [hc]

theorem ensures_someDigits_separates (h : Separates r i s)
    (htest : test 0x5f = false) : Ensures (someDigits test) r s fun _ t => Separates r i t := by
  simp [someDigits, takeWhile]
  exact fun _ => h.skipWhile htest

theorem ensures_decimalLiteral_separates (h : Separates r i s) :
    Ensures (decimalLiteral start whole) r s fun _ t => Separates r i t := by
  refine (ensures_fraction_separates h).bind fun fraction t ht =>
    (ensures_power_separates ht).bind fun power u hu => ?_
  simp [endNumber, hu]
  exact fun _ hn _ _ _ _ => hu.advance (by rw [hn]; decide)

theorem ensures_numericLiteral_separates :
    Ensures numericLiteral r s fun _ t => Separates r s.cursor.index t := by
  have hradix {t : ScanState} (ht : Separates r s.cursor.index t) :
      Ensures (hexLiteral s.cursor.index) r t (fun _ u => Separates r s.cursor.index u)
      ∧ Ensures (binaryLiteral s.cursor.index) r t (fun _ u => Separates r s.cursor.index u)
      ∧ ∀ legacy, Ensures (octalLiteral legacy s.cursor.index) r t fun _ u => Separates r s.cursor.index u := by
    refine ⟨?_, ?_, fun legacy => ?_⟩
    all_goals
      refine (ensures_someDigits_separates ht rfl).bind fun _ u hu => ?_
      simp [endNumber, endDigits, hu]
  have hstart : Separates r s.cursor.index s := ⟨Nat.le_refl _, fun k hi hk => absurd hk (Nat.not_lt.2 hi)⟩
  simp [numericLiteral, isLegacyOctal]
  intro _ hc
  have hone := hstart.advance (hc.elim (ne_of_isDecimalDigit · rfl) fun hc => by rw [hc]; decide)
  have hdecimal (hpoint : r.source.char s.cursor.index ≠ 0x2e) : Ensures digits r
      { s with cursor := s.cursor.advance 1 } fun ds t => Ensures (decimalLiteral s.cursor.index
        (r.source.char s.cursor.index :: ds)) r t fun _ u => Separates r s.cursor.index u := by
    refine (ensures_digits_separates hone fun _ => ?_).mono fun _ _ => ensures_decimalLiteral_separates
    exact ⟨Nat.lt_succ_self _, .inl (hc.resolve_right hpoint)⟩
  have htwo {a b : CodePoint} (h : r.source.char (s.cursor.advance 1).index = a
      ∨ r.source.char (s.cursor.advance 1).index = b) (ha : a ≠ 0x5f) (hb : b ≠ 0x5f) :=
    hradix (hone.advance (h.elim (· ▸ ha) (· ▸ hb)))
  refine ⟨fun _ => ensures_decimalLiteral_separates hstart, fun hpoint => ⟨fun _ _ =>
    ⟨fun hx => (htwo hx (by decide) (by decide)).1, fun _ _ =>
      ⟨fun hb => (htwo hb (by decide) (by decide)).2.1, fun _ _ =>
        ⟨fun ho => (htwo ho (by decide) (by decide)).2.2 false, fun _ _ =>
          ⟨fun _ _ _ => (hradix hone).2.2 true, fun _ => hdecimal hpoint⟩⟩⟩⟩, fun _ => hdecimal hpoint⟩⟩

/-- **Separators stand between digits**, or between a point and a digit. -/
theorem separated_of_numericLiteral {tok : Token} {t : ScanState} (h : numericLiteral r s = .ok tok t) :
    ∀ k, tok.start ≤ k → k < tok.stop → r.source.char k = 0x5f →
      (tok.start < k ∧ (isDecimalDigit (r.source.char (k - 1)) ∨ r.source.char (k - 1) = 0x2e))
        ∧ isDecimalDigit (r.source.char (k + 1)) := by
  have hcovers := ensures_numericLiteral tok t h
  rw [hcovers.start, hcovers.stop]
  exact (ensures_numericLiteral_separates tok t h).separated

/-- Separators before and behind the point, and in the exponent. -/
theorem separated_of_numericLiteral_parts :
    let r : Setting := ⟨.ofText "1_0.2_5e1_0", 2021, false⟩
    ∃ tok t, numericLiteral r (.start r.source) = .ok tok t ∧ tok.stop = 11 ∧ r.source.char 9 = 0x5f
      ∧ isDecimalDigit (r.source.char 10) := by
  intro r
  have hyields : Yields numericLiteral r (.start r.source) fun tok _ => tok.start = 0 ∧ tok.stop = 11 := by
    decide +kernel
  obtain ⟨tok, t, h, htok⟩ := exists_of_yields hyields
  obtain ⟨hstart, hstop⟩ := of_decide_eq_true htok
  exact ⟨tok, t, h, hstop, rfl, (separated_of_numericLiteral h 9 (by omega) (by omega) rfl).2⟩

/-- A separator stands behind a point. -/
theorem separated_not_of_point :
    let r : Setting := ⟨.ofText "1._5", 2021, false⟩
    ∃ tok t, numericLiteral r (.start r.source) = .ok tok t ∧ tok.start ≤ 2 ∧ 2 < tok.stop
      ∧ r.source.char 2 = 0x5f ∧ isDecimalDigit (r.source.char 1) = false := by
  intro r
  have hyields : Yields numericLiteral r (.start r.source) fun tok _ => tok.start ≤ 2 ∧ 2 < tok.stop := by
    decide +kernel
  obtain ⟨tok, t, h, htok⟩ := exists_of_yields hyields
  obtain ⟨hstart, hstop⟩ := of_decide_eq_true htok
  exact ⟨tok, t, h, hstart, hstop, rfl, rfl⟩

end Scan

/-! ### Integers -/

/-- The number that digits denote in a base. -/
def Text.positional (base : Nat) (ds : Text) : Nat := Nat.ofDigits base (ds.reverse.map digitValue)

theorem Numeral.ofDigits_eq_positional (base : Nat) (ds : Text) : ofDigits base ds = ds.positional base := by
  rw [Text.positional, Nat.ofDigits_eq_foldr, List.foldr_map, List.foldr_reverse, ofDigits]
  simp only [Nat.add_comm, Nat.mul_comm, Nat.cast_id]

/-- Decimal digits, and how they are written: each may stand behind a separator. -/
inductive Grouped : Text → Text → Prop where
  | nil : Grouped [] []
  | digit {d : CodePoint} {t ds : Text} : isDecimalDigit d → Grouped t ds → Grouped (d :: t) (d :: ds)
  | separated {d : CodePoint} {t ds : Text} : isDecimalDigit d → Grouped t ds → Grouped (0x5f :: d :: t) (d :: ds)

theorem Grouped.ofDigits (h : ∀ d ∈ ds, isDecimalDigit d) : Grouped ds ds := by
  induction ds with
  | nil => exact .nil
  | cons d ds ih =>
    obtain ⟨hd, hds⟩ := List.forall_mem_cons.1 h
    exact .digit hd (ih hds)

/-- Integers, and the tokens they are: in base sixteen, two and eight, and big ones. -/
inductive IntegerLiteral : Text → Lexeme → Prop where
  | hex {x : CodePoint} {ds : Text} (hx : x ∈ [0x78, 0x58]) (hne : ds ≠ []) (hds : ∀ d ∈ ds, isHexDigit d) :
      IntegerLiteral (0x30 :: x :: ds) (.numeric (.whole (ds.positional 16)) none)
  | binary {x : CodePoint} {ds : Text} (hx : x ∈ [0x62, 0x42]) (hne : ds ≠ []) (hds : ∀ d ∈ ds, isBinaryDigit d) :
      IntegerLiteral (0x30 :: x :: ds) (.numeric (.whole (ds.positional 2)) none)
  | octal {x : CodePoint} {ds : Text} (hx : x ∈ [0x6f, 0x4f]) (hne : ds ≠ []) (hds : ∀ d ∈ ds, isOctalDigit d) :
      IntegerLiteral (0x30 :: x :: ds) (.numeric (.whole (ds.positional 8)) (some false))
  | legacy {ds : Text} (hne : ds ≠ []) (hds : ∀ d ∈ ds, isOctalDigit d) :
      IntegerLiteral (0x30 :: ds) (.numeric (.whole (ds.positional 8)) (some true))
  | bigInt {d : CodePoint} {t ds : Text} (hd : isDecimalDigit d) (ht : Grouped t ds) (hzero : d = 0x30 → t = [])
      (hlength : (d :: ds).length ≤ 4300) :
      IntegerLiteral (d :: (t ++ [0x6e])) (.bigInt (Text.positional 10 (d :: ds)) (d :: ds))

namespace Scan

variable {E : Failure → Prop} {r : Setting} {s : ScanState} {ds rest : Text} {Q : Token → ScanState → Prop}
  {c : Nat}

theorem skipWhile_of_after {src : Source} (h : src.after i = ds)
    (hi : i ≤ src.size) (hds : ∀ d ∈ ds, test d) : src.skipWhile test i = src.size := by
  have hlength := src.length_after i
  rw [h] at hlength
  have hle := Source.le_skipWhile_of_after (h.trans (List.append_nil ds).symm) hds
  have hsize : src.skipWhile test i ≤ src.size := Source.skipWhile_le_size hi
  omega

/-- Digits up to the end are all read. -/
theorem meets_someDigits (h : r.source.after s.cursor.index = ds) (hne : ds ≠ [])
    (hds : ∀ d ∈ ds, test d) {Q : Text → ScanState → Prop} :
    Meets E (someDigits test) r s Q ↔ Q ds { s with cursor := { s.cursor with index := r.source.size } } := by
  have hslice : r.source.slice s.cursor.index r.source.size = ds := h
  have hi : s.cursor.index ≤ r.source.size := by
    obtain ⟨d, t, rfl⟩ := List.exists_cons_of_ne_nil hne
    exact Nat.le_of_lt (Source.after_cons h).1
  simp [someDigits, takeWhile, skipWhile_of_after h hi hds, hslice, hne]

/-- No code point stands behind the end. -/
theorem meets_end (h : s.cursor.index = r.source.size) {Q : Unit → ScanState → Prop} :
    (Meets E endNumber r s Q ↔ Q () s) ∧ (Meets E endDigits r s Q ↔ Q () s) := by
  have hchar : r.source.char s.cursor.index = 0 := Source.char_of_size_le (Nat.le_of_eq h.symm)
  have hstart : isIdentifierStart 0 = false := by decide
  have hdigit : isDecimalDigit 0 = false := by decide
  simp [endNumber, endDigits, meets_peekHere (Nat.le_of_eq h), hchar, hstart, hdigit]

/-- What is left of grouped digits when some have been read. -/
structure Groups (r : Setting) (s : ScanState) (ds rest : Text) (found : Text) (t : ScanState) : Prop where
  left : ∃ u es, Grouped u es ∧ ds = found.reverse ++ es ∧ r.source.after t.cursor.index = u ++ rest
  le : t.cursor.index ≤ r.source.size
  same : t = { s with cursor := { s.cursor with index := t.cursor.index } }

theorem meets_digitsRound (hr : 2021 ≤ r.edition) (hrest : rest = [] ∨ rest = [0x6e]) (h : Groups r s ds rest found t) :
    Meets E (digitsRound found) r t (Round.Holds
      (fun found' t' => Groups r s ds rest found' t' ∧ t.cursor.index < t'.cursor.index) fun x t' =>
        x = ds ∧ t' = { s with cursor := { s.cursor with index := r.source.size - rest.length } }) := by
  obtain ⟨⟨u, es, hgrouped, rfl, hafter⟩, hle, hsame⟩ := h
  have hnext (hlt : t.cursor.index < r.source.size) {found' u' es' : Text} (hgrouped' : Grouped u' es')
      (heq : found.reverse ++ es = found'.reverse ++ es')
      (hafter' : r.source.after (t.cursor.index + 1) = u' ++ rest) :
      Groups r s (found.reverse ++ es) rest found' { t with cursor := t.cursor.advance 1 }
        ∧ t.cursor.index < (t.cursor.advance 1).index := by
    refine ⟨⟨⟨u', es', hgrouped', heq, hafter'⟩, hlt, ?_⟩, Nat.lt_succ_self _⟩
    rw [hsame]
    rfl
  cases hgrouped with
  | nil =>
    have hlength := r.source.length_after t.cursor.index
    rw [hafter, List.nil_append] at hlength
    have hc : isDecimalDigit (r.source.char t.cursor.index) = false ∧ r.source.char t.cursor.index ≠ 0x5f := by
      rcases hrest with rfl | rfl
      · rw [Source.char_of_size_le (Nat.le_of_sub_eq_zero hlength.symm)]
        decide
      · rw [(Source.after_cons hafter).2.1]
        decide
    simp [digitsRound, meets_peekHere hle, hc, Round.Holds]
    rw [hsame, hlength, Nat.sub_sub_self hle]
  | @digit d u es hd hgrouped =>
    obtain ⟨hi, hc, hafter⟩ := Source.after_cons hafter
    simp [digitsRound, meets_peekHere hle, hc, hd, Round.Holds]
    exact hnext hi hgrouped (List.reverse_cons ▸ by simp) hafter
  | @separated d u es hd hgrouped =>
    obtain ⟨hi, hc, hafter⟩ := Source.after_cons hafter
    obtain ⟨hi', hc', -⟩ := Source.after_cons hafter
    have hseparator : isDecimalDigit 0x5f = false := rfl
    simp [digitsRound, meets_peekHere hle, hc, hseparator, hr, meets_peek (Nat.le_of_lt hi'), hc', hd, Round.Holds]
    exact hnext hi (.digit hd hgrouped) rfl hafter

/-- Digits behind a first one are all read. -/
theorem meets_digits (hr : 2021 ≤ r.edition) (hgrouped : Grouped u ds)
    (hrest : rest = [] ∨ rest = [0x6e]) (h : r.source.after s.cursor.index = d :: (u ++ rest)) :
    Meets E digits r { s with cursor := s.cursor.advance 1 } fun x t =>
      x = ds ∧ t = { s with cursor := { s.cursor with index := r.source.size - rest.length } } := by
  obtain ⟨hi, -, h⟩ := Source.after_cons h
  exact meets_loop ⟨⟨u, ds, hgrouped, rfl, h⟩, hi, rfl⟩
    (fun _ _ ht => Nat.le_succ_of_le ht.le) fun _ _ => meets_digitsRound hr hrest

theorem meets_decimalLiteral_end (hwhole : whole ≠ [])
    (h : s.cursor.index = r.source.size) : Meets E (decimalLiteral start whole) r s fun tok t =>
      tok = ⟨.numeric (.ofDouble (Decimal.toDouble false ⟨whole, [], 0⟩)) none, start, r.source.size,
        s.cursor.line, s.cursor.lineStart⟩ ∧ t = s := by
  have hchar : r.source.char s.cursor.index = 0 := Source.char_of_size_le (Nat.le_of_eq h.symm)
  rw [← h]
  simp [decimalLiteral, fraction?, power?, meets_peekHere (Nat.le_of_eq h), hchar, (meets_end h).1, hwhole]

theorem meets_decimalLiteral_bigInt (hr : 2021 ≤ r.edition)
    (hlength : whole.length ≤ 4300) (h : r.source.after s.cursor.index = [0x6e]) :
    Meets E (decimalLiteral start whole) r s fun tok t =>
      tok = ⟨.bigInt (Text.positional 10 whole) whole, start, r.source.size, s.cursor.line, s.cursor.lineStart⟩
        ∧ t = { s with cursor := { s.cursor with index := r.source.size } } := by
  obtain ⟨hi, hc, -⟩ := Source.after_cons h
  have hsize : s.cursor.index + 1 = r.source.size := by
    have := r.source.length_after s.cursor.index
    rw [h, List.length_singleton] at this
    omega
  have hr' : 2020 ≤ r.edition := by omega
  have hlimit : ¬ bigIntLimit < whole.length := Nat.not_lt.2 hlength
  simp [decimalLiteral, fraction?, power?, meets_peekHere (Nat.le_of_lt hi), hc, hr', hlimit, Cursor.advance, hsize,
    Numeral.ofDigits_eq_positional]

/-- At a digit, a number is read. -/
theorem meets_lex_of_digit (h : isDecimalDigit (r.source.char s.cursor.index)) :
    Meets E lex r s Q ↔ Meets E numericLiteral r s Q := by
  have hlt := Source.lt_size_of_isSolid (isSolid_of_isDecimalDigit h)
  have hdigits : ∀ c < 0x3a, isDecimalDigit c → isIdentifierStart c = false := by decide
  have hstart := hdigits _ (Nat.lt_succ_of_le (of_decide_eq_true (Bool.and_eq_true_iff.1 h).2)) h
  have hhash := Source.not_hasAt_of_char_ne (w := "#!") rfl (ne_of_isDecimalDigit h rfl)
  have hne (d : CodePoint) (hd : isDecimalDigit d = false) := ne_of_isDecimalDigit h hd
  simp [lex, plainLex, hhash, meets_peekHere (Nat.le_of_lt hlt), hlt, hstart, hne 0x27 rfl, hne 0x22 rfl,
    hne 0x2e rfl, h]

theorem isDecimalDigit_of_isOctalDigit (h : isOctalDigit c) : isDecimalDigit c := by
  have h : 0x30 ≤ c ∧ c ≤ 0x37 := by simpa [isOctalDigit] using h
  have hle : c ≤ 0x39 := by omega
  simp [isDecimalDigit, h, hle]

theorem eq_of_not_isOctalDigit (h : isDecimalDigit c) (hc : isOctalDigit c = false) :
    c = 0x38 ∨ c = 0x39 := by
  have h : 0x30 ≤ c ∧ c ≤ 0x39 := by simpa [isDecimalDigit] using h
  have hc : 0x30 ≤ c → 0x37 < c := by simpa [isOctalDigit] using hc
  omega

/-- Zero and further digits are octal unless one of these is an eight or a nine. -/
theorem meets_isLegacyOctal (h : r.source.after s.cursor.index = d :: ds)
    (hds : ∀ c ∈ ds, isDecimalDigit c) {Q : Bool → ScanState → Prop} :
    Meets E isLegacyOctal r s Q ↔ Q (ds.all isOctalDigit) s := by
  obtain ⟨hi, -, h⟩ := Source.after_cons h
  have hle : r.source.skipWhile isOctalDigit (s.cursor.index + 1) ≤ _ := Source.skipWhile_le_size hi
  simp only [isLegacyOctal, Meets.bind_iff, Meets.step_iff]
  generalize hstop : r.source.skipWhile isOctalDigit (s.cursor.index + 1) = stop at hle ⊢
  cases hall : ds.all isOctalDigit with
  | true =>
    rw [← hstop, skipWhile_of_after h hi (List.all_eq_true.1 hall), Source.char_of_size_le (Nat.le_refl _)]
    rfl
  | false =>
    have hlt : stop < r.source.size := by
      refine Nat.lt_of_le_of_ne hle fun heq => ?_
      have hslice : r.source.slice (s.cursor.index + 1) stop = ds := by rw [heq]; exact h
      have : ds.all isOctalDigit := List.all_eq_true.2 (hslice ▸ hstop ▸ Source.test_of_mem_skipWhile)
      simp [hall] at this
    have hnot := Source.not_test_skipWhile (hstop ▸ hlt)
    have hle : s.cursor.index + 1 ≤ stop := hstop ▸ r.source.le_skipWhile _ _
    have hmem : r.source.char stop ∈ ds := by
      rw [← h, Source.after, ← Source.slice_append hle (Nat.le_of_lt hlt),
        ← Source.slice_append (Nat.le_succ stop) hlt, Source.slice_succ hlt]
      simp
    rw [hstop] at hnot
    rcases eq_of_not_isOctalDigit (hds _ hmem) hnot with heq | heq <;> simp [heq]

/-- A token was read from the cursor up to the end of the source. -/
def ReadsAll (r : Setting) (s : ScanState) (l : Lexeme) (tok : Token) (t : ScanState) : Prop :=
  tok = ⟨l, s.cursor.index, r.source.size, s.cursor.line, s.cursor.lineStart⟩
    ∧ t = { s with cursor := { s.cursor with index := r.source.size } }

/-- A letter behind a zero tells the base. -/
theorem meets_numericLiteral_letter (h : r.source.after s.cursor.index = 0x30 :: x :: ds) (hne : ds ≠ []) :
    (x ∈ [0x78, 0x58] → (∀ d ∈ ds, isHexDigit d) → Meets E numericLiteral r s
      (ReadsAll r s (.numeric (.whole (ds.positional 16)) none)))
    ∧ (x ∈ [0x62, 0x42] → (∀ d ∈ ds, isBinaryDigit d) → Meets E numericLiteral r s
      (ReadsAll r s (.numeric (.whole (ds.positional 2)) none)))
    ∧ (x ∈ [0x6f, 0x4f] → (∀ d ∈ ds, isOctalDigit d) → Meets E numericLiteral r s
      (ReadsAll r s (.numeric (.whole (ds.positional 8)) (some false)))) := by
  obtain ⟨hi, hc, h⟩ := Source.after_cons h
  obtain ⟨hi', hx, h⟩ := Source.after_cons h
  have hzero : isDecimalDigit 0x30 := rfl
  have hx : r.source.char (s.cursor.advance 1).index = x := hx
  have hpeek (Q : CodePoint → ScanState → Prop) := meets_peekHere (E := E) (Q := Q)
    (s := { s with cursor := s.cursor.advance 1 }) (Nat.le_of_lt hi')
  have hdigits {test : CodePoint → Bool} (hds : ∀ d ∈ ds, test d) (Q : Text → ScanState → Prop) :=
    meets_someDigits (E := E) (Q := Q) (s := { s with cursor := (s.cursor.advance 1).advance 1 }) h hne hds
  refine ⟨fun hmem hds => ?_, fun hmem hds => ?_, fun hmem hds => ?_⟩
  all_goals
    simp only [List.mem_cons, List.not_mem_nil, or_false] at hmem
    rcases hmem with rfl | rfl
  all_goals
    simp [numericLiteral, hexLiteral, binaryLiteral, octalLiteral, meets_peekHere (Nat.le_of_lt hi), hc, hzero, hpeek,
      hx, hdigits hds, meets_end, ReadsAll, Numeral.ofDigits_eq_positional]
    exact ⟨rfl, rfl⟩

/-- Digits behind a zero are octal, unless there is an eight or a nine. -/
theorem meets_numericLiteral_zero (h : r.source.after s.cursor.index = 0x30 :: d :: ds)
    (hd : isDecimalDigit d ∨ d = 0x6e) (hds : ∀ c ∈ ds, isDecimalDigit c) :
    Meets E numericLiteral r s Q ↔ Meets E (if isOctalDigit d && ds.all isOctalDigit then
      octalLiteral true s.cursor.index else do decimalLiteral s.cursor.index (0x30 :: (← digits))) r
        { s with cursor := s.cursor.advance 1 } Q := by
  obtain ⟨hi, hc, h⟩ := Source.after_cons h
  obtain ⟨hi', hd', -⟩ := Source.after_cons h
  have hletters : ∀ c ∈ [0x78, 0x58, 0x62, 0x42, 0x6f, 0x4f], ¬ (isDecimalDigit c ∨ c = 0x6e) := by decide
  have hletters : ∀ c ∈ [0x78, 0x58, 0x62, 0x42, 0x6f, 0x4f], d ≠ c :=
    fun c hc heq => hletters c hc (heq ▸ hd)
  have hzero : isDecimalDigit 0x30 := rfl
  have hd' : r.source.char (s.cursor.advance 1).index = d := hd'
  have hpeek (Q : CodePoint → ScanState → Prop) := meets_peekHere (E := E) (Q := Q)
    (s := { s with cursor := s.cursor.advance 1 }) (Nat.le_of_lt hi')
  have hlegacy (Q : Bool → ScanState → Prop) := meets_isLegacyOctal (E := E) (Q := Q)
    (s := { s with cursor := s.cursor.advance 1 }) h hds
  simp [numericLiteral, meets_peekHere (Nat.le_of_lt hi), hc, hzero, hpeek, hd', hletters, hlegacy]

/-- **Integers have their positional value.** Each is one token that ends where the source does, and only
those in base eight without a letter are octal. A zero before digits is no such sign if there is an eight or
a nine among them. -/
theorem lex_integerLiteral (r : Setting) (hr : 2021 ≤ r.edition) (s : ScanState) :
    (∀ l, IntegerLiteral (r.source.after s.cursor.index) l → lex r s
      = .ok ⟨l, s.cursor.index, r.source.size, s.cursor.line, s.cursor.lineStart⟩
        { s with cursor := { s.cursor with index := r.source.size } })
    ∧ ∀ ds, r.source.after s.cursor.index = 0x30 :: ds → (∀ d ∈ ds, isDecimalDigit d) →
      (0x38 ∈ ds ∨ 0x39 ∈ ds) → ∃ v, lex r s
        = .ok ⟨.numeric v none, s.cursor.index, r.source.size, s.cursor.line, s.cursor.lineStart⟩
          { s with cursor := { s.cursor with index := r.source.size } } := by
  refine ⟨fun l h => Meets.eq_ok ?_, fun ds h hds hlarge =>
    ⟨.ofDouble (Decimal.toDouble false ⟨0x30 :: ds, [], 0⟩), Meets.eq_ok ?_⟩⟩
  · generalize ht : r.source.after s.cursor.index = t at h
    have hlex {d : CodePoint} {u : Text} (hu : t = d :: u) (hd : isDecimalDigit d)
        (h : Meets (fun _ => False) numericLiteral r s (ReadsAll r s l)) :
        Meets (fun _ => False) lex r s (ReadsAll r s l) :=
      (meets_lex_of_digit (by rwa [(Source.after_cons (ht.trans hu)).2.1])).2 h
    cases h with
    | hex hx hne hds => exact hlex rfl rfl ((meets_numericLiteral_letter ht hne).1 hx hds)
    | binary hx hne hds => exact hlex rfl rfl ((meets_numericLiteral_letter ht hne).2.1 hx hds)
    | octal hx hne hds => exact hlex rfl rfl ((meets_numericLiteral_letter ht hne).2.2 hx hds)
    | @legacy ds hne hds =>
      obtain ⟨d, ds, rfl⟩ := List.exists_cons_of_ne_nil hne
      obtain ⟨hd, htail⟩ := List.forall_mem_cons.1 hds
      refine hlex rfl rfl ((meets_numericLiteral_zero ht (.inl (isDecimalDigit_of_isOctalDigit hd))
        fun c hc => isDecimalDigit_of_isOctalDigit (htail c hc)).2 ?_)
      have hall : ds.all isOctalDigit := List.all_eq_true.2 htail
      simp [hd, hall, octalLiteral, meets_someDigits (s := { s with cursor := s.cursor.advance 1 })
        (Source.after_cons ht).2.2 hne hds, meets_end, ReadsAll, Numeral.ofDigits_eq_positional]
      exact ⟨rfl, rfl⟩
    | @bigInt d u ds hd hgrouped hzero hlength =>
      obtain ⟨hi, hc, hafter⟩ := Source.after_cons ht
      have hdigits : Meets (fun _ => False) (do decimalLiteral s.cursor.index (d :: (← digits))) r
          { s with cursor := s.cursor.advance 1 } (ReadsAll r s (.bigInt (Text.positional 10 (d :: ds)) (d :: ds))) := by
        refine Meets.bind_iff.2 ((meets_digits hr hgrouped (.inr rfl) ht).mono fun es t hes => ?_)
        obtain ⟨rfl, rfl⟩ := hes
        refine meets_decimalLiteral_bigInt hr hlength ?_
        have hsize := r.source.length_after (s.cursor.index + 1)
        rw [hafter, List.length_append, List.length_singleton] at hsize
        have hindex : s.cursor.index + 1 + u.length = r.source.size - 1 := by omega
        exact hindex ▸ (Source.after_append hafter).2
      refine hlex rfl hd ?_
      by_cases heq : d = 0x30
      · obtain rfl := hzero heq
        subst heq
        exact (meets_numericLiteral_zero ht (.inr rfl) (List.forall_mem_nil _)).2 hdigits
      · have hpoint := ne_of_isDecimalDigit hd (d := 0x2e) rfl
        simp only [numericLiteral, Meets.bind_iff, Meets.step_iff, meets_peekHere (Nat.le_of_lt hi), hc, hd,
          Bool.true_or, meets_require, if_neg hpoint, if_neg heq]
        exact Meets.bind_iff.1 hdigits
  · obtain ⟨-, hc, -⟩ := Source.after_cons h
    obtain ⟨d, ds, rfl⟩ : ∃ d t, ds = d :: t := by
      cases ds with
      | nil => simp at hlarge
      | cons d t => exact ⟨d, t, rfl⟩
    obtain ⟨hd, htail⟩ := List.forall_mem_cons.1 hds
    refine (meets_lex_of_digit (by rw [hc]; rfl)).2 ((meets_numericLiteral_zero h (.inl hd) htail).2 ?_)
    have hall : (isOctalDigit d && ds.all isOctalDigit) = false := by
      rw [← List.all_cons, List.all_eq_false]
      exact hlarge.elim (fun hmem => ⟨_, hmem, by decide⟩) fun hmem => ⟨_, hmem, by decide⟩
    rw [hall, if_neg Bool.false_ne_true, Meets.bind_iff]
    refine (meets_digits hr (Grouped.ofDigits hds) (.inl rfl)
      (h.trans (congrArg _ (List.append_nil _).symm))).mono fun es t hes => ?_
    obtain ⟨rfl, rfl⟩ := hes
    exact meets_decimalLiteral_end (List.cons_ne_nil _ _) rfl

/-- A big integer with a separator, and digits behind a zero that are octal or not. -/
theorem lex_integerLiteral_grouped :
    let r (t : Text) : Setting := ⟨.ofText t, 2024, false⟩
    IntegerLiteral [0x31, 0x5f, 0x30, 0x6e] (.bigInt 10 "10")
      ∧ (∃ t, lex (r "1_0n") (.start (r "1_0n").source) = .ok ⟨.bigInt 10 "10", 0, 4, 1, 0⟩ t)
      ∧ (∃ t, lex (r "017") (.start (r "017").source) = .ok ⟨.numeric (.whole 15) (some true), 0, 3, 1, 0⟩ t)
      ∧ ∃ v t, lex (r "018") (.start (r "018").source) = .ok ⟨.numeric v none, 0, 3, 1, 0⟩ t := by
  intro r
  have hgrouped : IntegerLiteral [0x31, 0x5f, 0x30, 0x6e] (.bigInt 10 "10") :=
    .bigInt (t := [0x5f, 0x30]) rfl (.separated rfl .nil) (by decide) (by decide)
  have hlegacy : IntegerLiteral [0x30, 0x31, 0x37] (.numeric (.whole 15) (some true)) :=
    .legacy (by decide) (by decide)
  obtain ⟨v, hv⟩ := (lex_integerLiteral (r "018") (by decide) (.start (r "018").source)).2 [0x31, 0x38] rfl
    (by decide) (by decide)
  exact ⟨hgrouped, ⟨_, (lex_integerLiteral (r "1_0n") (by decide) _).1 _ hgrouped⟩,
    ⟨_, (lex_integerLiteral (r "017") (by decide) _).1 _ hlegacy⟩, v, _, hv⟩

end Scan

end EcmaSyntax
