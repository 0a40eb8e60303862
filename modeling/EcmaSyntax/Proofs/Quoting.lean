import EcmaSyntax.Proofs.Scanning
import EcmaSyntax.Tree.Print

/-!
# Quoted texts are read back

Texts are printed between double quotes, in ASCII. A string literal that spells the same denotes the
UTF-16 units of the text (`Print.stringLiteral_of_printed`): a code point is quoted unit by unit
(`Text.quotedPoint_units`), and each round of the scanner reads one unit back
(`Scan.meets_stringRound_quoted`).
-/

namespace EcmaSyntax

variable {n c u : Nat}

/-! ### Texts at an offset -/

namespace Source

variable {s : Source} {i : Nat} {c : CodePoint} {t u : Text} {test : CodePoint → Bool}

theorem le_skipWhile_of_after (h : s.after i = t ++ u) (ht : ∀ c ∈ t, test c) :
    i + t.length ≤ s.skipWhile test i := by
  induction t generalizing i with
  | nil => exact s.le_skipWhile test i
  | cons c t ih =>
    obtain ⟨hi, hc, hrest⟩ := after_cons h
    obtain ⟨hc', ht'⟩ := List.forall_mem_cons.1 ht
    rw [skipWhile, if_pos hi, if_pos (hc ▸ hc'), List.length_cons]
    have := ih hrest ht'
    omega

theorem mem_slice (hc : c ∈ s.slice i j) : ∃ k, i ≤ k ∧ k < j ∧ s.char k = c := by
  obtain ⟨k, hk, rfl⟩ := List.mem_iff_getElem.1 hc
  simp only [slice, Array.length_toList, Array.size_extract] at hk
  have hsize : i + k < s.chars.size := by omega
  exact ⟨i + k, by omega, by omega, by simp [slice, char, hsize]⟩

theorem test_of_mem_skipWhile : ∀ c ∈ s.slice i (s.skipWhile test i), test c := by
  intro c hc
  obtain ⟨k, hk, hlt, rfl⟩ := mem_slice hc
  exact test_of_lt_skipWhile hk hlt

end Source

/-! ### Hexadecimal digits -/

namespace Text

theorem digitValue_hexDigit (h : d < 16) :
    CodePoint.isHexDigit (hexDigit d) ∧ CodePoint.digitValue (hexDigit d) = d := by
  revert d
  decide

theorem isHexDigit_of_mem_hex : ∀ c ∈ hex w n, CodePoint.isHexDigit c := by
  intro c hc
  obtain ⟨k, -, rfl⟩ := List.mem_map.1 hc
  exact (digitValue_hexDigit (Nat.mod_lt _ (by decide))).1

theorem ofDigits_hex (h : n < 0x10000) : Numeral.ofDigits 16 (hex 4 n) = n := by
  have hd (k : Nat) : CodePoint.digitValue (hexDigit (n >>> k % 16)) = n / 2 ^ k % 16 := by
    rw [(digitValue_hexDigit (Nat.mod_lt _ (by decide))).2, Nat.shiftRight_eq_div_pow]
  have hhex : hex 4 n = [12, 8, 4, 0].map fun k => hexDigit (n >>> k % 16) := rfl
  rw [hhex]
  simp only [Numeral.ofDigits, List.map_cons, List.map_nil, List.foldl_cons, List.foldl_nil, hd]
  omega

/-! ### Units -/

theorem lt_of_mem_units (hc : c ≤ 0x10ffff) (hu : u ∈ units c) : u < 0x10000 := by
  by_cases h : c < 0x10000
  · simp [units, h] at hu
    omega
  · simp [units, h] at hu
    omega

/-- What is not ASCII is escaped. -/
theorem quotedPoint_of_lt (h : 0x7e < c) : quotedPoint c = (units c).flatMap (escape 0x75 4) := by
  have hne (d : Nat) (hd : d ≤ 0x7e) : c ≠ d := by omega
  have hle : ¬ c ≤ 0x7e := by omega
  simp [quotedPoint, hne, hle]

theorem quotedPoint_ne_nil (hu : u < 0x10000) : quotedPoint u ≠ [] := by
  unfold quotedPoint
  repeat' split
  all_goals simp [ofString, units, hu, escape]

/-- A code point is quoted unit by unit. -/
theorem quotedPoint_units (hc : c ≤ 0x10ffff) : quotedPoint c = (units c).flatMap quotedPoint := by
  by_cases h : c < 0x10000
  · simp [units, h]
  · have hescape (d : Nat) (hd : d ∈ units c) : quotedPoint d = escape 0x75 4 d := by
      have hlt := lt_of_mem_units hc hd
      simp only [units, h, if_false, List.mem_cons, List.not_mem_nil, or_false] at hd
      rw [quotedPoint_of_lt (by omega), units, if_pos hlt]
      exact List.append_nil _
    rw [quotedPoint_of_lt (by omega), List.flatMap_def, List.flatMap_def, List.map_congr_left hescape]

end Text

/-! ### Rounds -/

namespace Scan

variable {E : Failure → Prop} {r : Setting} {s : ScanState} {q : Quoted} {rest : Text}

/-- Four digits are read for the number that they denote. -/
theorem meets_hexEscape (hn : n < 0x10000) (h : r.source.after s.cursor.index = Text.hex 4 n ++ rest) :
    Meets E (hexEscape 4) r s Q ↔ Q (some n) { s with cursor := s.cursor.advance 4 } := by
  have hstop : min (r.source.skipWhile CodePoint.isHexDigit s.cursor.index) (s.cursor.index + 4)
      = s.cursor.index + 4 :=
    Nat.min_eq_right (Source.le_skipWhile_of_after h Text.isHexDigit_of_mem_hex)
  have hslice : r.source.slice s.cursor.index (s.cursor.index + 4) = Text.hex 4 n :=
    (Source.after_append h).1
  simp only [hexEscape, Meets.bind_iff, Meets.step_iff, hstop, hslice, if_true, Text.ofDigits_hex hn]
  rfl

theorem meets_stringEscape_hex (hn : n < 0x10000) (h : r.source.after s.cursor.index = Text.hex 4 n ++ rest) :
    Meets E (stringEscape q 0x75) r s Q ↔ Q (q.push n) { s with cursor := s.cursor.advance 4 } := by
  obtain ⟨hi, hc, -⟩ := Source.after_cons h
  have hbrace : r.source.char s.cursor.index ≠ 0x7b := by
    intro heq
    have hdigit := Text.isHexDigit_of_mem_hex (w := 4) (n := n) _ List.mem_cons_self
    rw [← hc, heq] at hdigit
    cases hdigit
  simp only [stringEscape, if_true, Meets.bind_iff, meets_peekHere (Nat.le_of_lt hi), if_neg hbrace, Meets.step_iff,
    meets_hexEscape hn h]

/-- A backslash is read together with what it escapes. -/
theorem meets_stringRound_escape
    (h : r.source.after s.cursor.index = 0x5c :: d :: rest) (hd : CodePoint.isLineTerminator d = false) :
    Meets E (stringRound 0x22 q) r s Q ↔
      Meets E (stringEscape q d) r { s with cursor := s.cursor.advance 2 } fun q' => Q (.again q') := by
  obtain ⟨hi, hc, h⟩ := Source.after_cons h
  obtain ⟨hi', hc', -⟩ := Source.after_cons h
  have htake (Q : CodePoint → ScanState → Prop) :=
    meets_take (E := E) (s := { s with cursor := s.cursor.advance 1 }) (Q := Q) hi
  have hnext : r.source.char (s.cursor.advance 1).index = d := hc'
  simp [stringRound, meets_take (Nat.le_of_lt hi), hc, htake, hnext, hd, Nat.not_le.2 hi]
  rfl

/-- What a unit is quoted as is read back in one round. -/
theorem meets_stringRound_quoted (hu : u < 0x10000) (h : r.source.after s.cursor.index = Text.quotedPoint u ++ rest) :
    Meets E (stringRound 0x22 q) r s fun y t => y = .again (q.push u)
      ∧ t = { s with cursor := s.cursor.advance (Text.quotedPoint u).length } := by
  -- Some units are escaped by a letter, or by themselves.
  have hletter (d : CodePoint) (hd : CodePoint.isLineTerminator d = false)
      (hquoted : Text.quotedPoint u = [0x5c, d]) (hescape : stringEscape q d = pure (q.push u)) :
      Meets E (stringRound 0x22 q) r s fun y t => y = .again (q.push u)
        ∧ t = { s with cursor := s.cursor.advance (Text.quotedPoint u).length } := by
    rw [hquoted] at h ⊢
    rw [meets_stringRound_escape h hd, hescape]
    exact Meets.step_iff.2 ⟨rfl, rfl⟩
  by_cases hshort : u = 0x22 ∨ u = 0x5c ∨ u = 0x0a ∨ u = 0x0d ∨ u = 0x09 ∨ u = 0x08 ∨ u = 0x0c
  · rcases hshort with rfl | rfl | rfl | rfl | rfl | rfl | rfl
    · exact hletter 0x22 rfl rfl rfl
    · exact hletter 0x5c rfl rfl rfl
    · exact hletter 0x6e rfl rfl rfl
    · exact hletter 0x72 rfl rfl rfl
    · exact hletter 0x74 rfl rfl rfl
    · exact hletter 0x62 rfl rfl rfl
    · exact hletter 0x66 rfl rfl rfl
  simp only [not_or] at hshort
  obtain ⟨h22, h5c, h0a, h0d, h09, h08, h0c⟩ := hshort
  by_cases hprint : 0x20 ≤ u ∧ u ≤ 0x7e
  · have hquoted : Text.quotedPoint u = [u] := by simp [Text.quotedPoint, h22, h5c, hprint]
    rw [hquoted] at h ⊢
    obtain ⟨hi, hc, -⟩ := Source.after_cons h
    have hne (d : Nat) (hd : 0x7e < d) : u ≠ d := by omega
    have hline : CodePoint.isLineTerminator u = false := by
      simp [CodePoint.isLineTerminator, h0a, h0d, hne]
    simp [stringRound, meets_take (Nat.le_of_lt hi), hi, hc, h22, h5c, hline]
  · have hquoted : Text.quotedPoint u = 0x5c :: 0x75 :: Text.hex 4 u := by
      rw [Text.quotedPoint, if_neg h22, if_neg h5c, if_neg (by simpa using hprint), if_neg h0a, if_neg h0d,
        if_neg h09, if_neg h08, if_neg h0c, Text.units, if_pos hu]
      exact List.append_nil _
    rw [hquoted] at h ⊢
    rw [meets_stringRound_escape h rfl]
    obtain ⟨-, -, h⟩ := Source.after_cons h
    obtain ⟨-, -, h⟩ := Source.after_cons h
    exact (meets_stringEscape_hex hu h).2 ⟨rfl, rfl⟩

/-- The invariant of a quoted text that is read: some units are done, and what is left is quoted. -/
structure Unquotes (r : Setting) (s : ScanState) (us : Text) (q : Quoted) (t : ScanState) : Prop where
  left : ∃ done rest, us = done ++ rest ∧ q = ⟨done.reverse, false⟩
    ∧ r.source.after t.cursor.index = rest.flatMap Text.quotedPoint ++ [0x22]
  same : t = { s with cursor := { s.cursor with index := t.cursor.index } }

theorem meets_stringRound (hus : ∀ u ∈ us, u < 0x10000) (h : Unquotes r s us q t) :
    Meets E (stringRound 0x22 q) r t (Round.Holds
      (fun q' t' => Unquotes r s us q' t' ∧ t.cursor.index < t'.cursor.index) fun x t' =>
        x = (true, ⟨us.reverse, false⟩) ∧ t' = { s with cursor := { s.cursor with index := r.source.size } }) := by
  obtain ⟨⟨done, rest, rfl, rfl, hafter⟩, hsame⟩ := h
  cases rest with
  | nil =>
    obtain ⟨hi, hc, hend⟩ := Source.after_cons hafter
    have hsize : t.cursor.index + 1 = r.source.size := by
      have hlength := r.source.length_after (t.cursor.index + 1)
      rw [hend, List.length_nil] at hlength
      omega
    simp [stringRound, meets_take (Nat.le_of_lt hi), hc, Nat.not_le.2 hi, Round.Holds]
    rw [hsame]
    simp [Cursor.advance, hsize]
  | cons u rest =>
    rw [List.flatMap_cons, List.append_assoc] at hafter
    refine (meets_stringRound_quoted (hus u (by simp)) hafter).mono fun y t' hy => ?_
    obtain ⟨rfl, rfl⟩ := hy
    refine ⟨⟨⟨done ++ [u], rest, by simp, by simp [Quoted.push], (Source.after_append hafter).2⟩, ?_⟩, ?_⟩
    · rw [hsame]
      rfl
    · exact Nat.lt_add_of_pos_right (List.length_pos_iff.2 (Text.quotedPoint_ne_nil (hus u (by simp))))

/-- **A quoted text is read back.** -/
theorem meets_stringLiteral_quoted (hus : ∀ u ∈ us, u < 0x10000)
    (h : r.source.after s.cursor.index = Text.quoted us) : Meets E stringLiteral r s fun tok t =>
      tok = ⟨.string us (some false), s.cursor.index, r.source.size, s.cursor.line, s.cursor.lineStart⟩
        ∧ t = { s with cursor := { s.cursor with index := r.source.size } } := by
  obtain ⟨hi, hc, h⟩ := Source.after_cons h
  simp only [stringLiteral, Meets.bind_iff, Meets.step_iff, meets_peekHere (Nat.le_of_lt hi), hc]
  refine (meets_require (by decide)).2 ?_
  refine Meets.mono (meets_loop ⟨⟨[], us, rfl, rfl, h⟩, rfl⟩ (fun q t ht => ?_) fun q t => meets_stringRound hus) ?_
  · obtain ⟨⟨_, rest, -, -, hafter⟩, -⟩ := ht
    have hlength := r.source.length_after t.cursor.index
    rw [hafter, List.length_append, List.length_singleton] at hlength
    omega
  · rintro x t ⟨rfl, rfl⟩
    simp

end Scan

/-! ### Whole texts -/

namespace Print

theorem quoted_units (ht : ∀ c ∈ t, c ≤ 0x10ffff) : Text.quoted t = Text.quoted (t.flatMap Text.units) := by
  have hpoints : t.flatMap Text.quotedPoint = (t.flatMap Text.units).flatMap Text.quotedPoint := by
    rw [List.flatMap_assoc, List.flatMap_def, List.flatMap_def,
      List.map_congr_left fun c hc => Text.quotedPoint_units (ht c hc)]
  rw [Text.quoted, Text.quoted, hpoints]

/-- **What is printed of a text is a string literal for it.** The literal is read to its end, no escape in it
is octal and no error is recorded; its value is the text in UTF-16, which is the text itself if that has no
code point beyond the basic plane. -/
theorem stringLiteral_of_printed (t : Text) (ht : ∀ c ∈ t, c ≤ 0x10ffff) (l : Layout) (skip : List Text)
    (edition : Nat) (tolerant isModule : Bool) :
    ∃ text, ofValue (.text t) l skip = .ok text
      ∧ (let r : Setting := ⟨.ofText text, edition, tolerant⟩
        let s : ScanState := { ScanState.start r.source with isModule }
        Scan.stringLiteral r s = .ok ⟨.string (t.flatMap Text.units) (some false), 0, text.length, 1, 0⟩
          { s with cursor := ⟨text.length, 1, 0⟩ })
      ∧ ((∀ c ∈ t, c < 0x10000) → t.flatMap Text.units = t) := by
  refine ⟨Text.quoted t, rfl, ?_, fun hbasic => ?_⟩
  · intro r s
    have hafter : r.source.after s.cursor.index = Text.quoted (t.flatMap Text.units) := by
      change r.source.after 0 = _
      rw [← quoted_units ht]
      simp [r, Source.after, Source.slice, Source.size, Source.ofText]
    have hunits (u : CodePoint) (hu : u ∈ t.flatMap Text.units) : u < 0x10000 := by
      obtain ⟨c, hc, hu⟩ := List.mem_flatMap.1 hu
      exact Text.lt_of_mem_units (ht c hc) hu
    have hsize : r.source.size = (Text.quoted t).length := by simp [r, Source.size, Source.ofText]
    have hline : s.cursor = ⟨0, 1, 0⟩ := by simp [s, ScanState.start, Cursor.start, hsize, Text.quoted]
    have hmeets := Scan.meets_stringLiteral_quoted (E := fun _ => False) hunits hafter
    exact hmeets.eq_ok
  · have hpoint (c : CodePoint) (hc : c ∈ t) : Text.units c = [c] := if_pos (hbasic c hc)
    rw [List.flatMap_def, List.map_congr_left hpoint, ← List.flatMap_def, List.flatMap_singleton']

/-- Quotes, a line feed, half of a pair and a code point beyond the basic plane. -/
theorem stringLiteral_of_printed_pair :
    let t : Text := [0x22, 0x5c, 0x0a, 0xd800, 0x1f600]
    (∀ c ∈ t, c ≤ 0x10ffff) ∧ ∃ text, ofValue (.text t) .standard [] = .ok text
      ∧ (let r : Setting := ⟨.ofText text, 2024, false⟩
        Scan.stringLiteral r (.start r.source)
          = .ok ⟨.string [0x22, 0x5c, 0x0a, 0xd800, 0xd83d, 0xde00] (some false), 0, text.length, 1, 0⟩
            { ScanState.start r.source with cursor := ⟨text.length, 1, 0⟩ }) := by
  intro t
  have ht : ∀ c ∈ t, c ≤ 0x10ffff := by decide
  obtain ⟨text, hprint, hread, -⟩ := stringLiteral_of_printed t ht .standard [] 2024 false false
  exact ⟨ht, text, hprint, hread⟩

end Print

end EcmaSyntax
