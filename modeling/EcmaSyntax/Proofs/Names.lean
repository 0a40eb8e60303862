import EcmaSyntax.Proofs.Advance
import EcmaSyntax.Proofs.Quoting

/-!
# Names and their spellings

A code point of a name is written as itself or as an escape (`Letter`), and a name is written code point by
code point (`Spelling`). The scanner reads a name from a spelling of it that ends where no name could go
on, and a source has one such spelling at a place (`Spelling.unique`).

An escape is longer than what it denotes, so a name of the same length as its spelling has no escape
(`Spelling.length_cases`). That is how reserved words are kept free of escapes (`Scan.reserved_of_lex`).

Not every token that is a name carries a valid one: what an escape in braces denotes is not looked at, and a
private name that starts with its only escape is taken as it is written. All others do (`Scan.isName_of_lex`).
-/

namespace EcmaSyntax

open CodePoint

variable {i : Nat} {name : Text} {l : Lexeme}

/-! ### Spellings -/

/-- A code point of a name, and how it is written. An escape without braces has to denote what could
stand there itself; one in braces may denote anything. -/
inductive Letter (test : CodePoint → Bool) : Text → CodePoint → Prop where
  | plain {c : CodePoint} (hc : test c) (hne : c ≠ 0x5c) : Letter test [c] c
  | short {ds : Text} (hds : ∀ d ∈ ds, isHexDigit d) (hlength : ds.length = 4)
      (hc : test (Numeral.ofDigits 16 ds)) (hne : Numeral.ofDigits 16 ds ≠ 0x5c) :
      Letter test (0x5c :: 0x75 :: ds) (Numeral.ofDigits 16 ds)
  | braced {ds : Text} (hds : ∀ d ∈ ds, isHexDigit d) (hne : ds ≠ []) (hle : Numeral.ofDigits 16 ds ≤ 0x10ffff) :
      Letter test (0x5c :: 0x75 :: 0x7b :: (ds ++ [0x7d])) (Numeral.ofDigits 16 ds)

/-- The code points of a name from some place on, and how they are written; the first has to pass `test`. -/
inductive Spelling : (CodePoint → Bool) → Text → Text → Prop where
  | nil {test : CodePoint → Bool} : Spelling test [] []
  | cons {test : CodePoint → Bool} {u t n : Text} {c : CodePoint} : Letter test u c →
      Spelling isIdentifierPart t n → Spelling test (u ++ t) (c :: n)

/-- No name goes on with this text. -/
def Text.EndsName (t : Text) : Prop := ∀ c ∈ t.head?, isIdentifierPart c = false

namespace Letter

variable {test test' : CodePoint → Bool} {u u' x x' : Text} {c c' : CodePoint}

theorem eq_or_lt (h : Letter test u c) : (u = [c] ∧ c ≠ 0x5c) ∨ 1 < u.length := by
  cases h <;> simp_all

theorem exists_head (h : Letter test u c) : ∃ d v, u = d :: v ∧ (test d ∨ d = 0x5c) := by
  cases h with
  | plain hc => exact ⟨_, _, rfl, .inl hc⟩
  | short | braced => exact ⟨_, _, rfl, .inr rfl⟩

theorem not_endsName (h : Letter test u c) (htest : ∀ c, test c → isIdentifierPart c)
    (hx : x = u ++ x') : ¬ x.EndsName := by
  obtain ⟨d, v, rfl, hd⟩ := h.exists_head
  intro hends
  have hpart := hends d (by simp [hx])
  rcases hd with hd | rfl
  · simp [htest d hd] at hpart
  · exact absurd hpart (by decide)

/-- Where an escape with braces ends is told by its brace. -/
theorem digits_unique (hds : ∀ d ∈ ds, isHexDigit d)
    (hds' : ∀ d ∈ ds', isHexDigit d) (h : ds ++ 0x7d :: x = ds' ++ 0x7d :: x') : ds = ds' := by
  have htake (es y : Text) (hes : ∀ d ∈ es, isHexDigit d) : (es ++ 0x7d :: y).takeWhile isHexDigit = es := by
    rw [List.takeWhile_append_of_pos hes, List.takeWhile_cons_of_neg (by decide), List.append_nil]
  rw [← htake ds x hds, h, htake ds' x' hds']

/-- A text starts with one letter at most. -/
theorem unique (h : Letter test u c) (h' : Letter test' u' c') (heq : u ++ x = u' ++ x') :
    u = u' ∧ c = c' := by
  have hbrace {ds : Text} {y z : Text} (hds : ∀ d ∈ ds, isHexDigit d) (hlength : ds.length = 4)
      (h : ds ++ y = 0x7b :: z) : False := by
    obtain ⟨d, ds, rfl⟩ := List.exists_cons_of_ne_nil (List.ne_nil_of_length_pos (by omega : 0 < ds.length))
    have hd := hds d List.mem_cons_self
    rw [(List.cons.inj h).1] at hd
    cases hd
  cases h with
  | plain hc hne =>
    cases h' with
    | plain => simp_all
    | short | braced => exact absurd (List.cons.inj heq).1 hne
  | @short ds hds hlength =>
    cases h' with
    | plain _ hne => exact absurd (List.cons.inj heq).1.symm hne
    | @short ds' hds' hlength' =>
      have heq : ds ++ x = ds' ++ x' := by simpa using heq
      simp [(List.append_inj heq (by omega)).1]
    | @braced ds' =>
      have heq : ds ++ x = 0x7b :: (ds' ++ 0x7d :: x') := by simpa using heq
      exact (hbrace hds hlength heq).elim
  | @braced ds hds hne =>
    cases h' with
    | plain _ hne => exact absurd (List.cons.inj heq).1.symm hne
    | @short ds' hds' hlength' =>
      have heq : ds' ++ x' = 0x7b :: (ds ++ 0x7d :: x) := by simpa using heq.symm
      exact (hbrace hds' hlength' heq).elim
    | @braced ds' hds' =>
      have heq : ds ++ 0x7d :: x = ds' ++ 0x7d :: x' := by simpa using heq
      simp [digits_unique hds hds' heq]

end Letter

namespace Spelling

variable {test : CodePoint → Bool} {t t' n n' u rest rest' : Text} {c : CodePoint}

theorem snoc (h : Spelling test t n) (hne : n ≠ []) (hc : Letter isIdentifierPart u c) :
    Spelling test (t ++ u) (n ++ [c]) := by
  induction h with
  | nil => exact absurd rfl hne
  | cons hd ht ih =>
    rw [List.append_assoc]
    refine .cons hd ?_
    cases ht with
    | nil => simpa using cons hc nil
    | cons => exact ih (List.cons_ne_nil _ _)

theorem ofPlain (h : ∀ c ∈ t, isIdentifierPart c ∧ c ≠ 0x5c) : Spelling isIdentifierPart t t := by
  induction t with
  | nil => exact .nil
  | cons c t ih =>
    obtain ⟨hc, ht⟩ := List.forall_mem_cons.1 h
    exact .cons (.plain hc.1 hc.2) (ih ht)

/-- A name is shorter than its spelling, unless it is written as it is. -/
theorem length_cases (h : Spelling test t n) : (t = n ∧ 0x5c ∉ t) ∨ n.length < t.length := by
  induction h with
  | nil => simp
  | cons hc _ ih =>
    rw [List.length_append, List.length_cons]
    rcases hc.eq_or_lt with ⟨rfl, hne⟩ | hlt
    · rcases ih with ⟨rfl, hmem⟩ | hlt
      · exact .inl ⟨rfl, by simp [hne.symm, hmem]⟩
      · simp [hlt, Nat.add_comm 1]
    · rcases ih with ⟨rfl, -⟩ | hlt' <;> omega

/-- A text starts with one spelling at most that ends where no name could go on. -/
theorem unique (h : Spelling test t n) (h' : Spelling test t' n')
    (htest : ∀ c, test c → isIdentifierPart c) (heq : t ++ rest = t' ++ rest')
    (hrest : rest.EndsName) (hrest' : rest'.EndsName) : t = t' ∧ n = n' := by
  induction h generalizing t' n' with
  | nil =>
    cases h' with
    | nil => exact ⟨rfl, rfl⟩
    | cons hc => exact (hc.not_endsName htest (heq.trans (List.append_assoc ..)) hrest).elim
  | cons hc _ ih =>
    cases h' with
    | nil => exact (hc.not_endsName htest (heq.symm.trans (List.append_assoc ..)) hrest').elim
    | cons hc' ht' =>
      rw [List.append_assoc, List.append_assoc] at heq
      obtain ⟨rfl, rfl⟩ := hc.unique hc' heq
      obtain ⟨rfl, rfl⟩ := ih ht' (fun _ => id) (List.append_cancel_left heq)
      exact ⟨rfl, rfl⟩

end Spelling

/-! ### Reading names -/

/-- What lies between two offsets spells a name. -/
structure Spelled (src : Source) (i : Nat) (name : Text) (j : Nat) : Prop where
  ne_nil : name ≠ []
  spans : ∃ text, Spelling isIdentifierStart text name ∧ src.Spans i text j

/-- It does so to its end: no name could go on. -/
def SpelledOut (src : Source) (i : Nat) (name : Text) (j : Nat) : Prop :=
  Spelled src i name j ∧ isIdentifierPart (src.char j) = false

namespace Spelled

variable {src : Source} {j k : Nat} {u : Text} {c : CodePoint}

theorem first (hc : Letter isIdentifierStart u c) (hu : src.Spans i u j) : Spelled src i [c] j :=
  ⟨List.cons_ne_nil _ _, u, by simpa using Spelling.cons hc .nil, hu⟩

theorem snoc (h : Spelled src i name j) (hc : Letter isIdentifierPart u c)
    (hu : src.Spans j u k) : Spelled src i (name ++ [c]) k := by
  obtain ⟨hne, text, hspelling, hspans⟩ := h
  exact ⟨by simp, text ++ u, hspelling.snoc hne hc, hspans.append hu⟩

end Spelled

namespace Scan

open Source (Spans)

variable {r : Setting} {s : ScanState}

theorem ensures_bracedEscape (test : CodePoint → Bool) : Ensures bracedEscape r s fun c t =>
    ∃ u, Letter test (0x5c :: 0x75 :: 0x7b :: u) c ∧ r.source.Spans s.cursor.index u t.cursor.index := by
  simp [bracedEscape, takeWhile]
  intro hi hopen hend _ hle hclose
  have hspans := (Source.spans_skipWhile isHexDigit hi).append (.one hend)
  rw [hclose] at hspans
  refine ⟨_, .braced Source.test_of_mem_skipWhile (fun hnil => hopen ?_) hle, hspans⟩
  have hafter := hspans.after
  rw [hnil] at hafter
  exact (Source.after_cons hafter).2.1

theorem ensures_hexEscape (h : s.cursor.index ≤ r.source.size) :
    Ensures (hexEscape count) r s fun d t => ∀ c ∈ d, ∃ ds, (∀ d ∈ ds, isHexDigit d)
      ∧ ds.length = count ∧ c = Numeral.ofDigits 16 ds
      ∧ r.source.Spans s.cursor.index ds t.cursor.index := by
  simp [hexEscape]
  intro hstop
  have hle : s.cursor.index + count ≤ r.source.skipWhile isHexDigit s.cursor.index := by omega
  have hsize := Nat.le_trans hle (Source.skipWhile_le_size h)
  rw [Nat.min_eq_right hle]
  refine ⟨_, fun d hd => ?_, ?_, rfl, Nat.le_add_right _ _, hsize, rfl⟩
  · obtain ⟨k, hk, hlt, rfl⟩ := Source.mem_slice hd
    exact Source.test_of_lt_skipWhile hk (by omega)
  · simp only [Source.size] at hsize
    simp [Source.slice]
    omega

theorem ensures_nameEscape (test : CodePoint → Bool) : Ensures (nameEscape test) r s fun c t =>
    ∃ u, Letter test (0x5c :: u) c ∧ r.source.Spans s.cursor.index u t.cursor.index := by
  simp [nameEscape]
  intro _ hu hi
  have hletter : r.source.Spans s.cursor.index [0x75] (s.cursor.index + 1) := hu ▸ .one hi
  refine ⟨fun hopen => ?_, fun _ => ?_⟩
  · have hbrace : r.source.Spans (s.cursor.index + 1) [0x7b] (s.cursor.index + 2) :=
      hopen ▸ .one (Source.lt_size_of_isSolid (hopen ▸ by decide))
    refine (ensures_bracedEscape test).mono fun c t ht => ?_
    obtain ⟨u, hc, hspans⟩ := ht
    exact ⟨_, hc, (hletter.append hbrace).append hspans⟩
  · refine (ensures_hexEscape hi).mono fun d t ht => ?_
    cases d with
    | none => simp
    | some c =>
      obtain ⟨ds, hds, hlength, rfl, hspans⟩ := ht c rfl
      simp
      exact fun hne hc => ⟨_, .short hds hlength hc hne, hletter.append hspans⟩

/-- A round reads one more code point of a name, or finds that it ends. -/
theorem ensures_spelledRound (h : Spelled r.source i name.reverse s.cursor.index) :
    Ensures (spelledRound name) r s (Round.Holds
      (fun name' t => Spelled r.source i name'.reverse t.cursor.index) fun name' t =>
        SpelledOut r.source i name' t.cursor.index) := by
  simp [spelledRound, Round.Holds, SpelledOut, h]
  refine ⟨fun hend => ?_, fun hend hi hpart => ⟨fun hescape => ?_, fun hplain => ?_⟩⟩
  · rw [Source.char_of_size_le hend]
    decide
  · refine (ensures_nameEscape _).mono fun c t ht => ?_
    obtain ⟨u, hc, hu⟩ := ht
    have hbackslash : r.source.Spans s.cursor.index [0x5c] (s.cursor.index + 1) := hescape ▸ .one hend
    simpa [Round.Holds] using h.snoc hc (hbackslash.append hu)
  · exact h.snoc (.plain hpart hplain) (.one hend)

theorem ensures_spelledName_spelled (h : isIdentifierStart (r.source.char s.cursor.index)) :
    Ensures spelledName r s fun name t => SpelledOut r.source s.cursor.index name t.cursor.index := by
  have hlt := Source.lt_size_of_isSolid (isSolid_of_isIdentifierStart h)
  have hloop {c : CodePoint} {t : ScanState} (hc : Spelled r.source s.cursor.index [c] t.cursor.index) :
      Ensures (loop spelledRound [c]) r t fun name u =>
        SpelledOut r.source s.cursor.index name u.cursor.index :=
    ensures_loop hc fun _ _ => ensures_spelledRound
  simp [spelledName]
  refine fun _ => ⟨fun hescape => ?_, fun hplain => hloop (.first (.plain h hplain) (.one hlt))⟩
  refine (ensures_nameEscape _).mono fun c t ht => ?_
  obtain ⟨u, hc, hu⟩ := ht
  have hbackslash : r.source.Spans s.cursor.index [0x5c] (s.cursor.index + 1) := hescape ▸ .one hlt
  exact hloop (.first hc (hbackslash.append hu))

/-- Reading a name as a slice gives up at a backslash or a surrogate, and otherwise goes up to where no name could go on. -/
theorem plainName_cases (h : s.cursor.index < r.source.size) : plainName r s = spelledName r s
    ∨ ∃ j, s.cursor.index + 1 ≤ j ∧ j ≤ r.source.size ∧ isIdentifierPart (r.source.char j) = false
      ∧ (∀ k, s.cursor.index + 1 ≤ k → k < j → isIdentifierPart (r.source.char k) ∧ r.source.char k ≠ 0x5c)
      ∧ plainName r s = .ok (r.source.char s.cursor.index :: r.source.slice (s.cursor.index + 1) j)
          { s with cursor := { s.cursor with index := j } } := by
  show ite _ spelledName _ r s = _ ∨ ∃ j, _ ∧ _ ∧ _ ∧ _ ∧ ite _ spelledName _ r s = _
  split
  · exact .inl rfl
  next hspecial =>
  refine .inr ⟨_, Source.le_skipWhile .., Source.skipWhile_le_size h, ?_, fun k hk hlt => ?_, rfl⟩
  · generalize hj : r.source.skipWhile _ (s.cursor.index + 1) = j at hspecial ⊢
    by_cases hlt : j < r.source.size
    · have hnot := Source.not_test_skipWhile (hj ▸ hlt)
      simp_all
    · rw [Source.char_of_size_le (Nat.le_of_not_lt hlt)]
      decide
  · have htest := Source.test_of_lt_skipWhile hk hlt
    simp at htest
    exact ⟨htest.1, htest.2.1⟩

/-- A name that starts with an escape, and has no other, is taken as it is written. -/
theorem ensures_plainName_spelled (h : isIdentifierStart (r.source.char s.cursor.index)) :
    Ensures plainName r s fun name t => SpelledOut r.source s.cursor.index name t.cursor.index
      ∨ ∃ rest, r.source.Spans s.cursor.index (0x5c :: rest) t.cursor.index ∧ 0x5c ∉ rest := by
  have hlt := Source.lt_size_of_isSolid (isSolid_of_isIdentifierStart h)
  rcases plainName_cases hlt with heq | ⟨j, hstart, hsize, hend, hletters, heq⟩
  · exact fun name t hname => .inl (ensures_spelledName_spelled h name t (heq ▸ hname))
  intro name t hname
  cases heq.symm.trans hname
  have hplain : ∀ c ∈ r.source.slice (s.cursor.index + 1) j, isIdentifierPart c ∧ c ≠ 0x5c := by
    intro c hc
    obtain ⟨k, hk, hkj, rfl⟩ := Source.mem_slice hc
    exact hletters k hk hkj
  have hspans := (Spans.one hlt).append ⟨hstart, hsize, rfl⟩
  by_cases hfirst : r.source.char s.cursor.index = 0x5c
  · exact .inr ⟨_, hfirst ▸ hspans, fun hmem => (hplain _ hmem).2 rfl⟩
  · exact .inl ⟨⟨List.cons_ne_nil _ _, _, .cons (.plain h hfirst) (.ofPlain hplain), hspans⟩, hend⟩

/-- Where a name has no escapes, reading it letter by letter collects a slice of the source. -/
theorem spelledName_eq_slice {j : Nat} (hfirst : r.source.char s.cursor.index ≠ 0x5c) (hstart : s.cursor.index + 1 ≤ j)
    (hj : j ≤ r.source.size) (hend : isIdentifierPart (r.source.char j) = false)
    (hletters : ∀ k, s.cursor.index + 1 ≤ k → k < j → isIdentifierPart (r.source.char k) ∧ r.source.char k ≠ 0x5c) :
    spelledName r s = .ok (r.source.char s.cursor.index :: r.source.slice (s.cursor.index + 1) j)
      { s with cursor := { s.cursor with index := j } } := by
  refine Meets.eq_ok ?_
  simp [spelledName, hfirst, Nat.le_trans (Nat.le_of_lt hstart) hj]
  -- The letters so far are those between the first one and the cursor.
  refine meets_loop (I := fun name t => ∃ k, s.cursor.index + 1 ≤ k ∧ k ≤ j
      ∧ name.reverse = r.source.char s.cursor.index :: r.source.slice (s.cursor.index + 1) k
      ∧ t = { s with cursor := { s.cursor with index := k } })
    ⟨_, Nat.le_refl _, hstart, by simp [Source.slice], rfl⟩ ?_ fun name t ht => ?_
  · rintro name t ⟨k, -, hk, -, rfl⟩
    exact Nat.le_succ_of_le (Nat.le_trans hk hj)
  obtain ⟨k, hk, hkj, hname, rfl⟩ := ht
  have hsize := Nat.le_trans hkj hj
  rcases Nat.lt_or_eq_of_le hkj with hlt | rfl
  · obtain ⟨hpart, hne⟩ := hletters k hk hlt
    have hltsize := Nat.lt_of_lt_of_le hlt hj
    simp [spelledRound, hpart, hne, hsize, Nat.not_le.2 hltsize]
    refine ⟨⟨k + 1, Nat.le_succ_of_le hk, hlt, ?_, rfl⟩, Nat.lt_succ_self k⟩
    rw [← List.reverse_reverse name, hname, ← Source.slice_append hk (Nat.le_succ k), Source.slice_succ hltsize]
    simp
  · simp [spelledRound, Round.Holds, hend, hsize, hname]

/-- **Both ways to read a name agree.** From a code point that a name may start with, other than a backslash, a name is
read as a slice of the source just as it is read letter by letter: with the same result and up to the same place, or with
the same failure. -/
theorem plainName_eq_spelledName (r : Setting) (s : ScanState)
    (hstart : isIdentifierStart (r.source.char s.cursor.index)) (hplain : r.source.char s.cursor.index ≠ 0x5c) :
    plainName r s = spelledName r s := by
  have hlt := Source.lt_size_of_isSolid (isSolid_of_isIdentifierStart hstart)
  rcases plainName_cases hlt with heq | ⟨j, hfirst, hsize, hend, hletters, heq⟩
  · exact heq
  · rw [heq, spelledName_eq_slice hplain hfirst hsize hend hletters]

/-- A name with an escape in it. -/
theorem plainName_eq_spelledName_escape :
    let r : Setting := ⟨.ofText "a\\u\x7b42\x7d c", 2024, false⟩
    ∃ name t, plainName r (.start r.source) = .ok name t ∧ spelledName r (.start r.source) = .ok name t
      ∧ name = Text.ofString "aB" := by
  intro r
  have hyields : Yields spelledName r (.start r.source) fun name _ => name = Text.ofString "aB" := by decide +kernel
  obtain ⟨name, t, h, hname⟩ := exists_of_yields hyields
  exact ⟨name, t, (plainName_eq_spelledName r _ (by decide) (by decide)).trans h, h, of_decide_eq_true hname⟩

end Scan

/-! ### Tokens that are names -/

/-- Is this a name, a reserved word or a private name? -/
def Lexeme.isNamed : Lexeme → Bool
  | .privateName _ => true
  | l => l.isIdentifierName

theorem Lexeme.isNamed_of_isIdentifierName (h : l.isIdentifierName) : l.isNamed := by
  cases l <;> simp_all [isNamed, isIdentifierName]

/-- A token is a name or a reserved word. It was read from a spelling, and a reserved word is as long as
that unless errors are tolerated. -/
structure Token.Reads (r : Setting) (tok : Token) (name : Text) : Prop where
  lexeme : tok.lexeme = Scan.nameLexeme name
  spelled : SpelledOut r.source tok.start name tok.stop
  length : r.tolerant = false → tok.lexeme.isIdentifier ∨ tok.start + name.length = tok.stop

/-- How a token that is a name was read. A private name may have been taken as it is written. -/
inductive Token.Named (r : Setting) (tok : Token) : Prop where
  | word {name : Text} (reads : tok.Reads r name)
  | privateName {name : Text} (lexeme : tok.lexeme = .privateName (0x23 :: name))
      (spelled : SpelledOut r.source (tok.start + 1) name tok.stop
        ∨ ∃ rest, r.source.Spans (tok.start + 1) (0x5c :: rest) tok.stop ∧ 0x5c ∉ rest)

namespace Scan

variable {cause : Cause} {octal : Option Bool}

/-- A scan that reads names from their spellings. -/
class Naming (m : Scan Token) : Prop where
  out (r : Setting) (s : ScanState) : Ensures m r s fun t _ => t.lexeme.isNamed → t.Named r

namespace Naming

variable {α : Type} {start : Nat} {m : Scan α} {f : α → Scan Token}

theorem seq (hf : ∀ a, Naming (f a)) : Naming (m >>= f) :=
  ⟨fun r _ => .seq (.always fun a t => (hf a).out r t)⟩

instance [hf : ∀ a, Naming (f a)] : Naming (m >>= f) := seq hf

instance [Decidable p] {m m' : Scan Token} [hm : Naming m] [hm' : Naming m'] :
    Naming (if p then m else m') := by
  split
  · exact hm
  · exact hm'

instance (priority := 50) {m n : Scan Token} [u : Expands m n] [h : Naming n] : Naming m := u.eq ▸ h

instance : Naming (refuse cause) := ⟨fun _ _ => ensures_refuse.2 trivial⟩

theorem ofToken (h : l.isNamed = false) : Naming (token start l) :=
  ⟨fun _ _ => Ensures.step_iff.2 fun hname => by simp [h] at hname⟩

instance : Naming (token start (.numeric v octal)) := ofToken rfl
instance {digits : Text} : Naming (token start (.bigInt v digits)) := ofToken rfl
instance : Naming (token start (.string v octal)) := ofToken rfl
instance : Naming (token start (.punctuator mark)) := ofToken rfl
instance : Naming (token start (.template raw cooked head tail)) :=
  ofToken rfl

instance : Naming template := by
  refine seq fun _ => seq fun _ => seq fun _ => seq fun _ => seq fun chunk => ?_
  split <;> infer_instance

instance : Naming punctuator := by
  refine seq fun _ => seq fun _ => ?_
  split <;> infer_instance

end Naming

/-- Only a run that tolerates errors records one. -/
theorem ensures_tolerant : Ensures (tolerate cause) r s fun _ _ => r.tolerant := by
  simp [tolerate, errorHere]

theorem ensures_identifier_reads (h : isIdentifierStart (r.source.char s.cursor.index)) :
    Ensures identifier r s fun tok _ => ∃ name, tok.Reads r name := by
  have hplain (hne : r.source.char s.cursor.index ≠ 0x5c) :
      Ensures plainName r s fun name t => SpelledOut r.source s.cursor.index name t.cursor.index := by
    refine (ensures_plainName_spelled h).mono fun _ _ ht => ht.resolve_right ?_
    rintro ⟨rest, hspans, -⟩
    exact hne (Source.after_cons hspans.after).2.1
  simp [identifier]
  refine fun _ => ⟨fun _ => (ensures_spelledName_spelled h).mono fun name t ht => ?_,
    fun hne => (hplain hne).mono fun name t ht => ?_⟩
  all_goals
    refine ⟨fun _ _ => ensures_tolerant.mono fun _ _ htolerant => ?_, fun hlength => ?_⟩
    · exact ⟨name, rfl, ht, fun hstrict => by simp [hstrict] at htolerant⟩
    · exact ⟨name, rfl, ht, fun _ => (Bool.eq_false_or_eq_true _).imp_right hlength⟩

theorem ensures_privateName_named : Ensures privateName r s fun tok _ => tok.Named r := by
  simp [privateName]
  intro _ _ hstart
  exact (ensures_plainName_spelled hstart).mono fun name t ht => .privateName rfl ht

set_option synthInstance.maxSize 100000 in
instance : Naming plainLex := by
  refine ⟨fun r s => ensures_plainLex_of (Ensures.step_iff.2 ?_) (fun hstart => ?_) (Naming.out r s)
    (Naming.out r s) (fun _ => Naming.out r s) (fun _ => ?_) (Naming.out r s)⟩
  · simp [Lexeme.isNamed, Lexeme.isIdentifierName]
  · exact (ensures_identifier_reads hstart).mono fun _ _ htok _ => htok.elim fun _ => .word
  · exact ensures_privateName_named.mono fun _ _ htok _ => htok

end Scan

/-! ### Valid names -/

namespace Text

/-- Is this a valid name? -/
def isName : Text → Bool
  | [] => false
  | c :: t =>
    isIdentifierStart c && t.all isIdentifierPart && !(c :: t).contains 0x5c

/-- Does an escape in braces open here? -/
def opensBraced (t : Text) : Bool := [0x5c, 0x75, 0x7b].isPrefixOf t

/-- What the escapes in braces of a text denote. -/
def braced : Text → List CodePoint
  | [] => []
  | c :: t =>
    if opensBraced (c :: t) then
      Numeral.ofDigits 16 ((t.drop 2).takeWhile isHexDigit) :: braced t
    else braced t

theorem braced_append (h : 0x5c ∉ t) : braced (t ++ u) = braced u := by
  induction t with
  | nil => rfl
  | cons c t ih =>
    simp only [List.mem_cons, not_or] at h
    simp [braced, opensBraced, h.1, ih h.2]

end Text

/-- A letter denotes what passes the test, or what an escape in braces denotes. -/
theorem Letter.braced_cases (h : Letter test u c) (t : Text) : (test c ∧ c ≠ 0x5c ∧ (u ++ t).braced = t.braced)
      ∨ ((u ++ t).opensBraced ∧ (u ++ t).braced = c :: t.braced) := by
  have hdigit {ds : Text} (hds : ∀ d ∈ ds, isHexDigit d) (d : CodePoint)
      (hd : isHexDigit d = false) : d ∉ ds := fun hmem => by simp [hds d hmem] at hd
  cases h with
  | plain hc hne => exact .inl ⟨hc, hne, Text.braced_append (by simpa using hne.symm)⟩
  | @short ds hds hlength hc hne =>
    have hopens : Text.opensBraced (0x5c :: 0x75 :: (ds ++ t)) = false := by
      obtain ⟨d, ds, rfl⟩ := List.exists_cons_of_length_eq_add_one hlength
      have hd : d ≠ 0x7b := fun heq => hdigit hds 0x7b rfl (heq ▸ List.mem_cons_self)
      simp [Text.opensBraced, List.isPrefixOf, hd.symm]
    have hmem : 0x5c ∉ 0x75 :: ds := by simp [hdigit hds 0x5c rfl]
    refine .inl ⟨hc, hne, ?_⟩
    rw [List.cons_append, Text.braced, ← List.cons_append, if_neg (by simp [hopens])]
    exact Text.braced_append hmem
  | @braced ds hds hne =>
    have hmem : 0x5c ∉ 0x75 :: 0x7b :: (ds ++ [0x7d]) := by simp [hdigit hds 0x5c rfl]
    have htake : (ds ++ [0x7d] ++ t).takeWhile isHexDigit = ds := by
      rw [List.append_assoc, List.takeWhile_append_of_pos hds]
      simp [isHexDigit, isDecimalDigit]
    refine .inr ⟨rfl, ?_⟩
    rw [List.cons_append, Text.braced, if_pos (by rfl), Text.braced_append hmem]
    exact congrArg (Numeral.ofDigits 16 · :: t.braced) htake

namespace Spelling

variable {test : CodePoint → Bool} {t n : Text}

theorem isIdentifierPart_of_mem (h : Spelling test t n) (htest : ∀ c, test c → isIdentifierPart c)
    (hbraced : ∀ c ∈ t.braced, isIdentifierPart c ∧ c ≠ 0x5c) : ∀ c ∈ n, isIdentifierPart c ∧ c ≠ 0x5c := by
  induction h with
  | nil => simp
  | @cons _ u t n c hc _ ih =>
    rcases hc.braced_cases t with ⟨hc, hne, heq⟩ | ⟨-, heq⟩
    · rw [heq] at hbraced
      exact List.forall_mem_cons.2 ⟨⟨htest c hc, hne⟩, ih (fun _ => id) hbraced⟩
    · rw [heq, List.forall_mem_cons] at hbraced
      exact List.forall_mem_cons.2 ⟨hbraced.1, ih (fun _ => id) hbraced.2⟩

theorem test_head (h : Spelling test t n) (hfirst : t.opensBraced → ∀ c ∈ t.braced.head?, test c) :
    ∀ c ∈ n.head?, test c := by
  cases h with
  | nil => simp
  | cons hc _ =>
    rcases hc.braced_cases _ with ⟨hc, -⟩ | ⟨hopens, heq⟩
    · simpa using hc
    · simpa [heq] using hfirst hopens

end Spelling

/-- The name that a token carries: an identifier, a keyword, or a private name without its number sign. -/
def Lexeme.name? : Lexeme → Option Text
  | .identifier name | .keyword name => some name
  | .privateName name => some (name.drop 1)
  | _ => none

/-- Is this any private name? -/
def Lexeme.isPrivateName : Lexeme → Bool
  | .privateName _ => true
  | _ => false

/-- How a token that carries a name is written, a private name without its number sign. -/
def Token.spelling (src : Source) (tok : Token) : Text :=
  src.slice (if tok.lexeme.isPrivateName then tok.start + 1 else tok.start) tok.stop

/-- The escapes of a token that carries a name are as they should be. -/
structure Token.WellSpelled (src : Source) (tok : Token) : Prop where
  /-- In braces they denote what a name may have. -/
  braced : ∀ c ∈ (tok.spelling src).braced, isIdentifierPart c ∧ c ≠ 0x5c
  first : (tok.spelling src).opensBraced → ∀ c ∈ (tok.spelling src).braced.head?, isIdentifierStart c
  /-- A private name that starts with one has another one. -/
  another : tok.lexeme.isPrivateName → (tok.spelling src).head? = some 0x5c → 0x5c ∈ (tok.spelling src).tail

theorem Lexeme.isNamed_of_name? (h : l.name? = some name) : l.isNamed := by
  cases l <;> simp_all [name?, isNamed, isIdentifierName]

theorem CodePoint.isIdentifierPart_of_start (h : isIdentifierStart c) : isIdentifierPart c := by
  unfold isIdentifierPart
  split <;> simp [h]

theorem Spelled.isName (h : Spelled src i name j)
    (hbraced : ∀ c ∈ (src.slice i j).braced, isIdentifierPart c ∧ c ≠ 0x5c)
    (hfirst : (src.slice i j).opensBraced →
      ∀ c ∈ (src.slice i j).braced.head?, isIdentifierStart c) : name.isName := by
  obtain ⟨hne, text, hspelling, hspans⟩ := h
  rw [hspans.slice] at hbraced hfirst
  obtain ⟨c, n, rfl⟩ := List.exists_cons_of_ne_nil hne
  have hc := hspelling.test_head hfirst c rfl
  have hall := hspelling.isIdentifierPart_of_mem (fun _ => isIdentifierPart_of_start) hbraced
  have hparts (d : CodePoint) (hd : d ∈ n) := (hall d (List.mem_cons_of_mem c hd)).1
  have hescape : 0x5c ∉ c :: n := fun hmem => (hall _ hmem).2 rfl
  simpa [Text.isName, hc, hescape] using hparts

namespace Scan

variable {r : Setting} {s t : ScanState} {tok : Token}

theorem name?_nameLexeme (h : (nameLexeme n).name? = some name) :
    name = n ∧ (nameLexeme n).isPrivateName = false := by
  unfold nameLexeme at h ⊢
  repeat' split
  all_goals simp_all [Lexeme.name?, Lexeme.isPrivateName]

/-- **Tokens carry valid names**, if the escapes in braces do and unless a private name starts with its
only escape. -/
theorem isName_of_lex (h : lex r s = .ok tok t) (hname : tok.lexeme.name? = some name)
    (hspelled : tok.WellSpelled r.source) :
    name.isName ∧ ∀ n, tok.lexeme = .privateName n → n = 0x23 :: name := by
  obtain ⟨hbraced, hfirst, hanother⟩ := hspelled
  cases Naming.out r s tok t h (Lexeme.isNamed_of_name? hname) with
  | word hreads =>
    rw [hreads.lexeme] at hname
    obtain ⟨rfl, hprivate⟩ := name?_nameLexeme hname
    rw [← hreads.lexeme] at hprivate
    simp only [Token.spelling, hprivate, Bool.false_eq_true, if_false] at hbraced hfirst
    refine ⟨hreads.spelled.1.isName hbraced hfirst, fun n hn => ?_⟩
    simp [hn, Lexeme.isPrivateName] at hprivate
  | @privateName n hlexeme hread =>
    have heq : n = name := by simpa [hlexeme, Lexeme.name?] using hname
    subst heq
    have hprivate : tok.lexeme.isPrivateName := by rw [hlexeme]; rfl
    simp only [Token.spelling, hprivate, if_true] at hbraced hfirst hanother
    refine ⟨?_, by simp [hlexeme]⟩
    rcases hread with hread | ⟨rest, hspans, hnone⟩
    · exact hread.1.isName hbraced hfirst
    · rw [hspans.slice] at hanother
      exact absurd (hanother trivial rfl) hnone

/-- A private name with escapes of both forms. -/
theorem isName_of_lex_escapes :
    let r : Setting := ⟨.ofText "#\\u0061b\\u\x7b63\x7d", 2022, false⟩
    ∃ tok t, lex r (.start r.source) = .ok tok t ∧ tok.lexeme.name? = some "abc"
      ∧ tok.WellSpelled r.source ∧ Text.isName "abc" := by
  intro r
  let found : Token := ⟨.privateName "#abc", 0, 14, 1, 0⟩
  have hyields : Yields lex r (.start r.source) fun tok _ => tok = found := by decide +kernel
  obtain ⟨tok, t, h, htok⟩ := exists_of_yields hyields
  rw [decide_eq_true_eq] at htok
  subst htok
  have hspelled : found.WellSpelled r.source := ⟨by decide +kernel, by decide +kernel, by decide +kernel⟩
  exact ⟨found, t, h, rfl, hspelled, (isName_of_lex h rfl hspelled).1⟩

/-- An escape in braces may denote a digit, which is no name. -/
theorem isName_not_of_lex :
    let r : Setting := ⟨.ofText "\\u\x7b30\x7d", 2024, false⟩
    ∃ tok t, lex r (.start r.source) = .ok tok t ∧ tok.lexeme.name? = some "0"
      ∧ Text.isName "0" = false := by
  intro r
  have hyields : Yields lex r (.start r.source) fun tok _ => tok.lexeme.name? = some (Text.ofString "0") := by
    decide +kernel
  obtain ⟨tok, t, h, htok⟩ := exists_of_yields hyields
  exact ⟨tok, t, h, of_decide_eq_true htok, by decide⟩

end Scan

/-! ### Reserved words -/

/-- Is this a word that no name may be? -/
def Word.isReserved (name : Text) : Bool := name.isAny (keywords ++ ["null", "true", "false"])

/-- A reserved word is written as it is. -/
theorem Token.Reads.slice {tok : Token} (h : tok.Reads r name)
    (hr : r.tolerant = false) (hreserved : tok.lexeme.isIdentifier = false) :
    r.source.slice tok.start tok.stop = name ∧ 0x5c ∉ name := by
  obtain ⟨⟨-, text, hspelling, hspans⟩, -⟩ := h.spelled
  have hlength := (h.length hr).resolve_left (by simp [hreserved])
  rcases hspelling.length_cases with ⟨rfl, hescape⟩ | hlt
  · exact ⟨hspans.slice, hescape⟩
  · have := hspans.length
    omega

/-- What is spelled at a place is spelled there to its end in one way only. -/
theorem SpelledOut.unique (h : SpelledOut src i name' j) (hafter : src.after i = text ++ rest) (hrest : rest.EndsName)
    (hspelling : Spelling isIdentifierStart text name) : src.slice i j = text ∧ name' = name := by
  obtain ⟨⟨-, text', hspelling', hspans⟩, hends⟩ := h
  have hafter' : (src.after j).EndsName := by
    intro c hc
    obtain ⟨t, ht⟩ := List.head?_eq_some_iff.1 hc
    rwa [← (Source.after_cons ht).2.1]
  rw [hspans.slice]
  exact hspelling'.unique hspelling (fun _ => isIdentifierPart_of_start)
    (hspans.after.symm.trans hafter) hafter' hrest

namespace Scan

theorem isIdentifier_of_isReserved (h : Word.isReserved n) : (nameLexeme n).isIdentifier = false := by
  have hwords : ∀ w ∈ Word.keywords ++ ["null", "true", "false"],
      (nameLexeme (Text.ofString w)).isIdentifier = false := by
    decide
  obtain ⟨w, hw, hn⟩ := List.any_eq_true.1 h
  exact eq_of_beq hn ▸ hwords w hw

theorem text?_nameLexeme (name : Text) : (nameLexeme name).text? = some name := by
  unfold nameLexeme
  split
  · rfl
  split
  · rfl
  split
  · next hnull => exact congrArg some (eq_of_beq hnull).symm
  split <;> rfl

/-- Where a name starts, a name is read. -/
theorem ensures_lex_of_start (h : isIdentifierStart (r.source.char s.cursor.index))
    (hQ : Ensures identifier r s Q) : Ensures lex r s Q := by
  have hlt := Source.lt_size_of_isSolid (isSolid_of_isIdentifierStart h)
  have hne : r.source.char s.cursor.index ≠ 0x23 := fun heq => by simp [heq] at h; cases h
  have hhash := Source.not_hasAt_of_char_ne (w := "#!") rfl hne
  simp [lex, plainLex, hhash, h, Nat.not_le.2 hlt]
  exact fun _ _ => hQ

/-- **Reserved words are not spelled with escapes**, unless errors are tolerated. A token that is one covers
its own letters; and where a spelling of one has an escape, the source is refused. -/
theorem reserved_of_lex (r : Setting) (hr : r.tolerant = false) (s : ScanState) :
    (∀ tok t, lex r s = .ok tok t → tok.lexeme.isIdentifierName → tok.lexeme.isIdentifier = false →
      tok.lexeme.text? = some (r.source.slice tok.start tok.stop))
    ∧ ∀ text rest name, r.source.after s.cursor.index = text ++ rest → rest.EndsName →
      Spelling isIdentifierStart text name → 0x5c ∈ text → Word.isReserved name →
        ∃ e t, lex r s = .error (.refused e) t := by
  refine ⟨fun tok t h hname hreserved => ?_, fun text rest name hafter hrest hspelling hescape hname => ?_⟩
  · cases Naming.out r s tok t h (Lexeme.isNamed_of_isIdentifierName hname) with
    | word hreads => rw [hreads.lexeme, text?_nameLexeme, (hreads.slice hr hreserved).1]
    | privateName hlexeme => simp [hlexeme, Lexeme.isIdentifierName] at hname
  · have hstart : isIdentifierStart (r.source.char s.cursor.index) := by
      cases hspelling with
      | nil => cases hescape
      | cons hc =>
        obtain ⟨d, v, rfl, hd⟩ := hc.exists_head
        rw [(Source.after_cons hafter).2.1]
        exact hd.elim id fun heq => heq ▸ by decide
    have hsolid := isSolid_of_isIdentifierStart hstart
    have hnone : Ensures lex r s fun _ _ => False := by
      refine ensures_lex_of_start hstart
        (((ensures_identifier_reads hstart).and (ensures_identifier hsolid)).mono fun tok t htok => ?_)
      obtain ⟨⟨n, hreads⟩, hcovers⟩ := htok
      have hspelled := hreads.spelled
      rw [hcovers.start] at hspelled
      obtain ⟨hslice, rfl⟩ := hspelled.unique hafter hrest hspelling
      have hl : tok.lexeme.isIdentifier = false := hreads.lexeme ▸ isIdentifier_of_isReserved hname
      obtain ⟨htext, hplain⟩ := hreads.slice hr hl
      rw [hcovers.start, hslice] at htext
      exact hplain (htext ▸ hescape)
    let E (f : Failure) : Prop := ∃ e, f = .refused e
    have hE : Refusing E := ⟨fun e => ⟨e, rfl⟩⟩
    cases h : lex r s with
    | ok tok t => exact (hnone tok t h).elim
    | error f t =>
      obtain ⟨e, rfl⟩ := (meets_lex (E := E) (Nat.le_of_lt (Source.lt_size_of_isSolid hsolid))).allowed h
      exact ⟨e, t, rfl⟩

/-- A keyword with one of its letters as an escape, and the keyword itself. -/
theorem reserved_of_lex_escape :
    let text : Text := [0x76, 0x5c, 0x75, 0x30, 0x30, 0x36, 0x31, 0x72]
    let r : Setting := ⟨.ofText (text ++ [0x20]), 2024, false⟩
    let r' : Setting := ⟨.ofText "var", 2024, false⟩
    Spelling isIdentifierStart text "var" ∧ (∃ e t, lex r (.start r.source) = .error (.refused e) t)
      ∧ ∃ tok t, lex r' (.start r'.source) = .ok tok t ∧ tok.lexeme = .keyword "var"
        ∧ tok.lexeme.text? = some (r'.source.slice tok.start tok.stop) := by
  intro text r r'
  have hspelling : Spelling isIdentifierStart text "var" :=
    .cons (u := [0x76]) (.plain (by decide) (by decide))
      (.cons (u := [0x5c, 0x75, 0x30, 0x30, 0x36, 0x31]) (.short (by decide) rfl (by decide) (by decide))
        (.cons (u := [0x72]) (.plain (by decide) (by decide)) .nil))
  have hyields : Yields lex r' (.start r'.source) fun tok _ => tok.lexeme = .keyword "var" := by decide +kernel
  obtain ⟨tok, t, h, htok⟩ := exists_of_yields hyields
  have htok := of_decide_eq_true htok
  exact ⟨hspelling, (reserved_of_lex r rfl _).2 text [0x20] "var" rfl (by simp [Text.EndsName]; decide)
    hspelling (by decide) (by decide), tok, t, h, htok,
    (reserved_of_lex r' rfl _).1 tok t h (by rw [htok]; rfl) (by rw [htok]; rfl)⟩

end Scan

end EcmaSyntax
