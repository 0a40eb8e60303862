import EcmaSyntax.Proofs.Entities

/-!
# Scanning goes on

No scan goes on for ever, and none fails but by refusing the source: every loop reads at least one code
point in each of its rounds, and nobody looks for a code point past the end. All keep account of the lines, and
what is on one line is read as such (`Scan.Tame`). What is lexed is not empty unless the source is at its
end (`Scan.meets_lex`), and is what was read from one cursor to another (`Scan.ensures_lex`).

Markup is the exception: a number that is no character is a fault, and so `Scan.meets_markupLex` asks
that these faults be allowed if the source has a character that is written as a number
(`Source.HasCharacterNumber`).
-/

namespace EcmaSyntax

open CodePoint Meets

variable {i : Nat} {c quote : CodePoint} {src : Source} {t : Token} {u : ScanState}

theorem Source.lt_size_of_isLineTerminator {s : Source} (h : isLineTerminator (s.char i)) : i < s.size := by
  refine Nat.lt_of_not_le fun hle => ?_
  rw [char_of_size_le hle] at h
  cases h

theorem Cursor.lt_passTerminator (s : Source) (c : Cursor) : c.index < (c.passTerminator s).index := by
  simp only [passTerminator, nextLine, Source.terminatorLength]
  split <;> omega

/-- Some character may be written as a number. -/
def Source.HasCharacterNumber (src : Source) : Prop := ∃ i, src.hasAt i "&#"

namespace Scan

open Cursor

variable {α β : Type} {E : Failure → Prop} {r : Setting} {s : ScanState} {cause : Cause}
  {test : CodePoint → Bool} {m : Scan α} {l : Lexeme}

/-- A scan that goes on within its line and within the source, or refuses the source. -/
class Tame (E : Failure → Prop) (m : Scan α) : Prop where
  out (r : Setting) (s : ScanState) : s.cursor.index ≤ r.source.size →
    Meets E m r s fun _ t => Glides r.source s.cursor t.cursor

/-- A round of a loop that reads at least one code point if there is another round to come. -/
class TameRounds (E : Failure → Prop) {τ : Type} (body : τ → Scan (Round τ β)) : Prop where
  out (x : τ) (r : Setting) (s : ScanState) : s.cursor.index ≤ r.source.size → Meets E (body x) r s (Round.Holds
      (fun _ t => Glides r.source s.cursor t.cursor ∧ s.cursor.index < t.cursor.index)
      fun _ t => Glides r.source s.cursor t.cursor)

namespace Tame

variable {f : α → Scan β} {c : Cursor}

theorem after (h : Tame E m) (hc : c.index ≤ r.source.size) (hs : Glides r.source c s.cursor) :
    Meets E m r s fun _ t => Glides r.source c t.cursor :=
  (h.out r s (hs.bound hc)).mono fun _ _ => hs.trans

theorem seq [hm : Tame E m] (hf : ∀ a, Tame E (f a)) : Tame E (m >>= f) :=
  ⟨fun r s hs => bind_iff.2 ((hm.out r s hs).mono fun a _ ht => (hf a).after hs ht)⟩

instance [hm : Tame E m] [hf : ∀ a, Tame E (f a)] : Tame E (m >>= f) := seq hf

instance (priority := 50) [u : Expands m n] [h : Tame E n] : Tame E m := u.eq ▸ h

instance [Decidable p] [hm : Tame E m] [hm' : Tame E m'] : Tame E (if p then m else m') := by
  split
  · exact hm
  · exact hm'

instance overLoop [h : TameRounds E body] : Tame E (loop body x) := by
  refine ⟨fun r s hs => meets_loop (I := fun _ t => Glides r.source s.cursor t.cursor) (.refl _ _)
    (fun _ _ ht => Nat.le_succ_of_le (ht.bound hs)) fun y t ht => ?_⟩
  refine (h.out y r t (ht.bound hs)).mono fun z u hu => ?_
  cases z with
  | again => exact ⟨ht.trans hu.1, hu.2⟩
  | done => exact ht.trans hu

/-- What leaves the cursor where it is. -/
theorem ofStill (h : ∀ r s, s.cursor.index ≤ r.source.size →
    Meets E m r s fun _ t => t.cursor = s.cursor) : Tame E m :=
  ⟨fun r s hs => (h r s hs).mono fun _ _ ht => ht ▸ .refl _ _⟩

instance (a : α) : Tame E (pure a) := ofStill fun _ _ _ => by simp
instance : Tame E (peek 0) := ofStill fun _ _ h => by simp [h]
instance : Tame E isLegacyOctal := ofStill fun _ _ _ => by simp [isLegacyOctal]

section

variable [Refusing E]

instance : Tame E (refuse cause : Scan α) := ofStill fun _ _ _ => by simp
instance : Tame E (tolerate cause) :=
  ofStill fun _ _ _ => meets_tolerate fun _ => rfl

instance overList {body : γ → β → Scan (ForInStep β)}
    [hbody : ∀ x b, Tame E (body x b)] (l : List γ) : Tame E (forIn l b body) := by
  refine ⟨fun r s hs => forIn (fun x _ b t ht => ?_) (.refl _ _)⟩
  exact ((hbody x b).after hs ht).mono fun y u hu => by cases y <;> exact hu

end

end Tame

/-- The code point at the cursor is one of those that the end is not taken for. -/
theorem advance_le (h : isSolid (r.source.char s.cursor.index)) : (s.cursor.advance 1).index ≤ r.source.size :=
  Source.lt_size_of_isSolid h

variable [Refusing E]

/-! ### Names -/

omit [Refusing E] in
instance : Tame E (hexEscape count) := by
  refine ⟨fun r s _ => ?_⟩
  refine .skip ?_ (fun h => ?_) fun k hk hlt => ?_
  · have := r.source.le_skipWhile isHexDigit s.cursor.index
    omega
  · exact Nat.le_trans (Nat.min_le_left _ _) (Source.skipWhile_le_size h)
  · exact not_isLineTerminator_of_isSolid (isSolid_of_isHexDigit
      (Source.test_of_lt_skipWhile hk (Nat.lt_of_lt_of_le hlt (Nat.min_le_left _ _))))

instance : Tame E bracedEscape := by
  refine ⟨fun r s h => ?_⟩
  simp [bracedEscape, takeWhile, h]
  intro _ hlt
  rw [meets_take (Nat.le_of_lt hlt)]
  intro _ hclose
  exact .trans (.skipWhile fun _ h => not_isLineTerminator_of_isSolid
    (isSolid_of_isHexDigit h)) (.one (by rw [hclose]; decide))

instance : Tame E (nameEscape test) := by
  refine ⟨fun r s h => ?_⟩
  simp [nameEscape, h]
  intro hu
  have hletter : Glides r.source s.cursor (s.cursor.advance 1) := .one (by rw [hu]; decide)
  rw [meets_peekHere (hletter.bound h)]
  refine ⟨fun hopen => ?_, fun _ => ?_⟩
  · exact Tame.after inferInstance h (hletter.trans (.one (by rw [hopen]; decide)))
  · refine (Tame.after inferInstance h hletter).mono fun d t ht => ?_
    cases d <;> simp [ht]

instance : TameRounds E spelledRound := by
  refine ⟨fun name r s h => ?_⟩
  simp [spelledRound, h, Round.Holds, Glides.refl]
  intro _ hpart
  have hone : Glides r.source s.cursor (s.cursor.advance 1) :=
    .one (isSolid_of_isIdentifierPart hpart)
  refine ⟨fun _ => ?_, fun _ => ⟨hone, Nat.lt_succ_self _⟩⟩
  exact (Tame.out r _ (hone.bound h)).mono fun _ t ht => ⟨hone.trans ht, ht.le⟩

/-- What was read goes on from the place behind the first code point. -/
theorem meets_spelledName (h : isSolid (r.source.char s.cursor.index)) :
    Meets E spelledName r s fun _ t => Glides r.source (s.cursor.advance 1) t.cursor := by
  have hone := advance_le h
  simp [spelledName, Nat.le_of_succ_le hone]
  refine ⟨fun _ => ?_, fun _ => Tame.out r _ hone⟩
  exact (Tame.out r _ hone).mono fun _ t ht => Tame.after inferInstance hone ht

theorem meets_plainName (h : isSolid (r.source.char s.cursor.index)) :
    Meets E plainName r s fun _ t => Glides r.source (s.cursor.advance 1) t.cursor := by
  simp [plainName]
  refine ⟨fun _ _ => meets_spelledName h, fun _ => ?_⟩
  refine .skipWhile fun d hd => ?_
  simp only [Bool.and_eq_true] at hd
  exact not_isLineTerminator_of_isSolid (isSolid_of_isIdentifierPart hd.1)

/-! ### Tokens on a line -/

/-- A token was read from one cursor to another, and is not empty. -/
structure Lexed (src : Source) (c c' : Cursor) (t : Token) : Prop extends Covers src c c' t where
  ne_eof : t.lexeme ≠ .eof
  lt : c.index < c'.index

section

variable {c c' : Cursor} (hc : isSolid (r.source.char c.index))
include hc

omit [Refusing E]

/-- The token that ends here is no mark, and was read on one line. -/
theorem Lexed.ofGlides (h : Glides r.source (c.advance 1) c') (hl : l.isPunctuator = false) (hne : l ≠ .eof) :
    Lexed r.source c c' ⟨l, c.index, c'.index, c'.line, c'.lineStart⟩ :=
  ⟨.ofGlides ((Glides.one hc).trans h) hl, hne, h.le⟩

/-- What comes to a token in the end. -/
theorem meets_lexed {f : α → Scan Token} [hm : Tame E m] (h : Glides r.source (c.advance 1) s.cursor)
    (hf : ∀ a t, Glides r.source (c.advance 1) t.cursor → Meets E (f a) r t fun x u => Lexed r.source c u.cursor x) :
    Meets E (m >>= f) r s fun x u => Lexed r.source c u.cursor x :=
  bind_iff.2 ((hm.after (c := c.advance 1) (Source.lt_size_of_isSolid hc) h).mono hf)

end

theorem meets_identifier (h : isSolid (r.source.char s.cursor.index)) :
    Meets E identifier r s fun t u => Lexed r.source s.cursor u.cursor t := by
  have hname (name : Text) : nameLexeme name ≠ .eof := by
    unfold nameLexeme
    repeat' split
    all_goals simp
  simp [identifier, Nat.le_of_succ_le (advance_le h)]
  refine ⟨fun _ => (meets_spelledName h).mono fun name t ht => ?_,
    fun _ => (meets_plainName h).mono fun name t ht => ?_⟩
  all_goals
    have hlexed := Lexed.ofGlides h ht (nameLexeme_isPunctuator name) (hname name)
    exact ⟨fun _ _ => meets_tolerate fun _ => hlexed, fun _ => hlexed⟩

theorem ensures_identifier (h : isSolid (r.source.char s.cursor.index)) :
    Ensures identifier r s fun t u => Covers r.source s.cursor u.cursor t :=
  (meets_identifier (E := fun _ => True) h).ensures.mono fun _ _ ht => ht.toCovers

theorem meets_privateName (h : isSolid (r.source.char s.cursor.index)) :
    Meets E privateName r s fun t u => Lexed r.source s.cursor u.cursor t := by
  have hone := advance_le h
  simp [privateName]
  intro _
  rw [meets_peekHere hone]
  intro hstart
  have hsolid := isSolid_of_isIdentifierStart hstart
  exact (meets_plainName hsolid).mono fun _ t ht => .ofGlides h ((Glides.one hsolid).trans ht) rfl (by simp)

/-! ### Numbers -/

instance : TameRounds E digitsRound := by
  refine ⟨fun found r s h => ?_⟩
  have hdigit (hc : isSolid (r.source.char s.cursor.index)) :
      Glides r.source s.cursor (s.cursor.advance 1) ∧ s.cursor.index < (s.cursor.advance 1).index :=
    ⟨.one hc, Nat.lt_succ_self _⟩
  simp [digitsRound, h, Round.Holds, Glides.refl]
  refine ⟨fun hc => hdigit (isSolid_of_isDecimalDigit hc), fun _ => fun hc _ => ?_⟩
  have hmove := hdigit (by rw [hc]; decide)
  rw [meets_peek (hmove.1.bound h)]
  exact fun _ => hmove

theorem Tame.someDigits (htest : ∀ d, test d → isSolid d) : Tame E (someDigits test) := by
  refine ⟨fun r s h => ?_⟩
  simp [Scan.someDigits, takeWhile]
  exact fun _ => .skipWhile fun d hd => not_isLineTerminator_of_isSolid (htest d hd)

instance : Tame E exponent := by
  refine ⟨fun r s h => ?_⟩
  simp [exponent, h]
  refine ⟨fun hsign => ?_, fun _ _ _ => Tame.out r s h⟩
  have hone : Glides r.source s.cursor (s.cursor.advance 1) :=
    .one (by rcases hsign with hc | hc <;> (rw [hc]; decide))
  rw [meets_peekHere (hone.bound h)]
  exact fun _ => Tame.after inferInstance h hone

instance : Tame E fraction? := by
  refine ⟨fun r s h => ?_⟩
  simp [fraction?, h, Glides.refl]
  exact fun hc => Tame.after inferInstance h (.one (by rw [hc]; decide))

instance : Tame E power? := by
  refine ⟨fun r s h => ?_⟩
  simp [power?, h, Glides.refl]
  refine fun hc => Tame.after inferInstance h (.one ?_)
  rcases hc with hc | hc <;> (rw [hc]; decide)

/-- Where there is a digit, digits are found. -/
theorem ensures_digits_ne_nil (hc : isDecimalDigit (r.source.char s.cursor.index)) :
    Ensures digits r s fun ds _ => ds ≠ [] := by
  refine ensures_loop (I := fun found t => found ≠ [] ∨ t.cursor = s.cursor) (.inr rfl) fun found t ht => ?_
  simp [digitsRound, Round.Holds]
  intro _ hdigit
  have hfound : found ≠ [] := ht.resolve_right fun heq => by simp [heq, hc] at hdigit
  exact ⟨fun _ _ _ _ => .inl hfound, fun _ => hfound⟩

section

variable {c : Cursor} (hc : isSolid (r.source.char c.index))
include hc

/-- Digits in another base than ten. -/
theorem meets_based [Tame E check] {l : Text → Lexeme}
    (htest : ∀ d, test d → isSolid d) (h : Glides r.source (c.advance 1) s.cursor)
    (hl : ∀ ds, (l ds).isPunctuator = false ∧ l ds ≠ .eof) :
    Meets E (do let ds ← someDigits test; check; token c.index (l ds)) r s fun t u => Lexed r.source c u.cursor t :=
  have := Tame.someDigits (E := E) htest
  meets_lexed hc h fun ds _ ht => meets_lexed hc ht fun _ _ hu => .ofGlides hc hu (hl ds).1 (hl ds).2

/-- A decimal number has digits before the point or after it, or is no value. -/
theorem meets_decimalLiteral
    (hfraction : Meets E fraction? r s fun fraction t => Glides r.source (c.advance 1) t.cursor
      ∧ ((!whole.isEmpty || !(fraction.getD []).isEmpty) = false → E (.fault .invalidValue))) :
    Meets E (decimalLiteral c.index whole) r s fun t u => Lexed r.source c u.cursor t := by
  have hc' : (c.advance 1).index ≤ r.source.size := Source.lt_size_of_isSolid hc
  refine bind_iff.2 (hfraction.mono fun fraction t ⟨ht, hdigits⟩ => ?_)
  refine meets_lexed hc ht fun power u hu => ?_
  have hend (l : Lexeme) (hl : l.isPunctuator = false) (hne : l ≠ .eof) : Meets E endNumber r u fun _ v =>
      Meets E (require (!whole.isEmpty || !(fraction.getD []).isEmpty) .invalidValue) r v fun _ w =>
        Lexed r.source c w.cursor ⟨l, c.index, w.cursor.index, w.cursor.line, w.cursor.lineStart⟩ :=
    (Tame.after inferInstance hc' hu).mono fun _ v hv => by
      cases hvalue : !whole.isEmpty || !(fraction.getD []).isEmpty with
      | false => exact hdigits hvalue
      | true => exact (meets_require rfl).2 (.ofGlides hc hv hl hne)
  simp [hu.bound hc']
  refine ⟨fun hn _ _ => ⟨fun _ _ => ?_, fun _ => hend _ rfl (by simp)⟩, fun _ => hend _ rfl (by simp)⟩
  exact .ofGlides hc (hu.trans (.one (by rw [hn]; decide))) rfl (by simp)

end

theorem meets_numericLiteral (hc : isDecimalDigit (r.source.char s.cursor.index)
    ∨ (r.source.char s.cursor.index = 0x2e ∧ (isDecimalDigit (r.source.char (s.cursor.index + 1))
      ∨ E (.fault .invalidValue)))) :
    Meets E numericLiteral r s fun t u => Lexed r.source s.cursor u.cursor t := by
  have hsolid : isSolid (r.source.char s.cursor.index) := by
    rcases hc with hc | ⟨hc, -⟩
    · exact isSolid_of_isDecimalDigit hc
    · rw [hc]
      decide
  have hone := advance_le hsolid
  have hrequire : (isDecimalDigit (r.source.char s.cursor.index)
      || r.source.char s.cursor.index = 0x2e) = true := by
    rcases hc with hc | hc <;> simp [hc]
  have hdecimal (t : ScanState) (ht : Glides r.source (s.cursor.advance 1) t.cursor) :
      Meets E digits r t fun ds u => Meets E (decimalLiteral s.cursor.index
        (r.source.char s.cursor.index :: ds)) r u fun t v => Lexed r.source s.cursor v.cursor t :=
    (Tame.after inferInstance hone ht).mono fun ds u hu => meets_decimalLiteral hsolid <|
      (Tame.after inferInstance hone hu).mono fun _ v hv => ⟨hv, by simp⟩
  have htwo {a b : CodePoint} (ha : isSolid a) (hb : isSolid b) (h : r.source.char (s.cursor.advance 1).index = a
        ∨ r.source.char (s.cursor.advance 1).index = b) :
      Glides r.source (s.cursor.advance 1) ((s.cursor.advance 1).advance 1) :=
    .one (by rcases h with h | h <;> rwa [h])
  simp only [numericLiteral, bind_iff, step_iff, meets_peekHere (Nat.le_of_succ_le hone), meets_require hrequire,
    ite_iff]
  refine ⟨fun hpoint => meets_decimalLiteral hsolid ?_, fun _ => ⟨fun _ => ?_, fun _ => hdecimal _ (.refl _ _)⟩⟩
  · have hdigit := (hc.resolve_left fun hdigit => by rw [hpoint] at hdigit; cases hdigit).2
    simp only [fraction?, bind_iff, meets_peekHere (Nat.le_of_succ_le hone), hpoint, if_true, step_iff]
    rcases hdigit with hdigit | hE
    · exact ((Tame.out r _ hone).and_ensures (ensures_digits_ne_nil hdigit)).mono fun _ _ ht => ⟨ht.1, by simp [ht.2]⟩
    · exact (Tame.out r _ hone).mono fun _ _ ht => ⟨ht, fun _ => hE⟩
  · rw [meets_peekHere hone]
    simp only [Bool.or_eq_true, decide_eq_true_eq]
    have hoctal {legacy : Bool} {t : ScanState} (ht : Glides r.source (s.cursor.advance 1) t.cursor) :
        Meets E (octalLiteral legacy s.cursor.index) r t fun t u => Lexed r.source s.cursor u.cursor t :=
      meets_based hsolid (fun _ => isSolid_of_isOctalDigit) ht fun _ => ⟨rfl, by simp⟩
    refine ⟨fun hx => meets_based hsolid (fun _ => isSolid_of_isHexDigit)
      (htwo (by decide) (by decide) hx) fun _ => ⟨rfl, by simp⟩, fun _ => ⟨fun hb => meets_based hsolid
        (fun _ => isSolid_of_isBinaryDigit) (htwo (by decide) (by decide) hb) fun _ => ⟨rfl, by simp⟩,
          fun _ => ⟨fun ho => hoctal (htwo (by decide) (by decide) ho), fun _ => ?_⟩⟩⟩
    exact (Tame.out r _ hone).mono fun _ t ht => ⟨fun _ => hoctal ht, fun _ => hdecimal t ht⟩

theorem ensures_numericLiteral :
    Ensures numericLiteral r s fun t u => Covers r.source s.cursor u.cursor t := by
  by_cases hc : isDecimalDigit (r.source.char s.cursor.index) ∨ r.source.char s.cursor.index = 0x2e
  · have hmeets := meets_numericLiteral (E := fun _ => True) (hc.imp_right fun hpoint => ⟨hpoint, .inr trivial⟩)
    exact hmeets.ensures.mono fun _ _ ht => ht.toCovers
  · simp [numericLiteral, hc]

/-! ### Punctuators -/

theorem length_marks : ∀ p ∈ Punctuator.marks, 0 < p.1.length := by decide +kernel

theorem meets_punctuator : Meets E punctuator r s fun t u => Lexed r.source s.cursor u.cursor t := by
  simp only [punctuator, bind_iff, step_iff]
  split
  · simp
  · next m hm =>
    obtain ⟨⟨since, hmark⟩, hat⟩ := hasAt_of_longestAt? hm
    have hlexed : Lexed r.source s.cursor (s.cursor.advance m.length)
        ⟨.punctuator m, s.cursor.index, s.cursor.index + m.length, s.cursor.line, s.cursor.lineStart⟩ := by
      have hglides := Glides.word hat (isSolid_marks _ hmark)
      refine ⟨⟨hglides.moves, rfl, rfl, rfl, rfl, fun hbrace => ?_, fun hslash => ?_,
        .inl hglides.sameLine⟩, by simp, Nat.lt_add_of_pos_right (length_marks _ hmark)⟩
      · cases Text.ofString_is.1 hbrace
        exact ⟨(Option.some.inj (Source.char_of_hasAt (k := 0) hat (by decide))).symm, rfl⟩
      · rcases hslash with hslash | hslash <;> cases Text.ofString_is.1 hslash
        all_goals exact (Option.some.inj (Source.char_of_hasAt (k := 0) hat (by decide))).symm
    simp
    exact hlexed

/-! ### Strings and templates -/

instance : Tame E (octalEscape c) := by
  refine ⟨fun r s h => ?_⟩
  simp [octalEscape, h, Glides.refl]
  intro hd
  have hone : Glides r.source s.cursor (s.cursor.advance 1) := .one (isSolid_of_isOctalDigit hd)
  rw [meets_peekHere (hone.bound h)]
  exact ⟨fun _ he => hone.trans (.one (isSolid_of_isOctalDigit he)), fun _ => hone⟩

omit [Refusing E] in
/-- A code point is read if it is the one that is looked for. -/
theorem Tame.accept {f : Unit → Scan α} (hd : isSolid d) (hf : Tame E (f ())) (hm : Tame E m) :
    Tame E (peek 0 >>= fun c => if c = d then advance 1 >>= f else m) := by
  refine ⟨fun r s h => ?_⟩
  simp [h]
  exact ⟨fun hc => hf.after h (.one (by rwa [hc])), fun _ => hm.out r s h⟩

instance : Tame E (stringEscape q c) := by
  have hhex (n : Nat) (cause : Cause) : Tame E (do match ← hexEscape n with
      | some d => return q.push d
      | none => refuse cause) :=
    .seq fun d => by cases d <;> infer_instance
  unfold stringEscape
  split
  · exact .accept (by decide) inferInstance (hhex 4 _)
  split
  · exact hhex 2 _
  split <;> infer_instance

instance : Tame E (templateEscape c) := by
  have hletter : Tame E (do
      let start ← index
      match ← hexEscape 4 with
      | some d => return d
      | none =>
        setIndex start
        return c) := by
    refine ⟨fun r s h => ?_⟩
    simp only [bind_iff, step_iff]
    refine (Tame.out r s h).mono fun d t ht => ?_
    cases d with
    | some d => exact ht
    | none => exact (Glides.refl _ _).giveBack ht
  have hhex : Tame E (do match ← hexEscape 2 with
      | some d => return d
      | none => refuse .invalidHexEscape) :=
    .seq fun d => by cases d <;> infer_instance
  unfold templateEscape
  split
  · exact .accept (by decide) inferInstance hletter
  split
  · exact hhex
  split <;> infer_instance

omit [Refusing E] in
/-- A line terminator that was just read is moved over. -/
theorem meets_endLine {c : Cursor} (hc : s.cursor = c.advance 1) (hd : isLineTerminator (r.source.char c.index))
    (h : Q () { s with cursor := c.passTerminator r.source }) :
    Meets E (endLine (r.source.char c.index)) r s Q := by
  have hone : s.cursor.index ≤ r.source.size := by
    rw [hc]
    exact Source.lt_size_of_isLineTerminator hd
  have hsafe : Meets E (endLine (r.source.char c.index)) r s fun _ _ => True := by
    simp [endLine, hone]
  exact (hsafe.and_ensures ((ensures_endLine hc).2 fun _ => h)).mono fun _ _ ht => ht.2

/-- A round of a loop that goes on, but may get past the end by one. -/
def Loose (E : Failure → Prop) {τ : Type} (r : Setting) (P : Cursor → Prop) (body : τ → Scan (Round τ β))
    (Q : β → ScanState → Prop) : Prop :=
  ∀ (x : τ) (s : ScanState), P s.cursor → Meets E (body x) r s (Round.Holds
    (fun _ t => (P t.cursor ∧ t.cursor.index ≤ r.source.size + 1) ∧ s.cursor.index < t.cursor.index) Q)

omit [Refusing E] in
theorem Loose.loop {body : τ → Scan (Round τ β)}
    (h : Loose E r P body Q) (x : τ) (hs : P s.cursor) (hbound : s.cursor.index ≤ r.source.size) :
    Meets E (Scan.loop body x) r s Q :=
  meets_loop ⟨hs, Nat.le_succ_of_le hbound⟩ (fun _ _ ht => ht.2) fun y t ht => h y t ht.1

omit [Refusing E] in
/-- What follows a backslash: the end of a line, or what `escape` reads. At the end of the source the
cursor gets past it, and no further. -/
theorem meets_escaped {escape : CodePoint → Scan α}
    (hescape : ∀ d, Tame E (escape d)) (hzero : ∃ x, escape 0 = pure x) (hs : s.cursor.index ≤ r.source.size)
    (hPQ : ∀ t, Runs r.source s.cursor t.cursor → s.cursor.index < t.cursor.index →
      t.cursor.index ≤ r.source.size + 1 → P () t ∧ ∀ x, Q x t) : Meets E take r s fun d t =>
      (isLineTerminator d = true → Meets E (endLine d) r t P)
        ∧ (¬ isLineTerminator d = true → Meets E (escape d) r t Q) := by
  rw [meets_take hs]
  refine ⟨fun hd => meets_endLine rfl hd ?_, fun hd => ?_⟩
  · have hmove := Moves.passTerminator hd
    exact (hPQ _ hmove.toRuns (lt_passTerminator _ _) (Nat.le_succ_of_le (hmove.bound hs))).1
  · have hstep : Runs r.source s.cursor (s.cursor.advance 1) := (Runs.refl _ _).step (by simpa using hd)
    rcases Nat.lt_or_eq_of_le hs with hlt | heq
    · exact ((hescape _).out r _ (by exact hlt)).mono fun x t ht =>
        (hPQ t (hstep.trans ht.runs) ht.le (Nat.le_succ_of_le (ht.bound hlt))).2 x
    · obtain ⟨x, hx⟩ := hzero
      rw [Source.char_of_size_le (Nat.le_of_eq heq.symm), hx]
      exact (hPQ _ hstep (Nat.lt_succ_self _) (Nat.succ_le_succ hs)).2 x

/-- A string is right up to its closing quote, if it has one. -/
theorem loose_stringRound {c : Cursor} (hquote : isSolid quote) :
    Loose E r (Runs r.source c) (stringRound quote) fun x t => x.1 → Moves r.source c t.cursor := by
  intro q s h
  simp only [stringRound, bind_iff, step_iff, ite_iff, decide_eq_true_eq]
  refine ⟨fun _ hclosed => absurd hclosed Bool.false_ne_true, fun hlt => ?_⟩
  have hlt := Nat.lt_of_not_le hlt
  simp only [meets_take (Nat.le_of_lt hlt)]
  refine ⟨fun hc _ => ?_, fun _ => ⟨fun hc => ?_, fun _ =>
    ⟨fun _ hclosed => absurd hclosed Bool.false_ne_true, fun hc => ?_⟩⟩⟩
  · exact ⟨h.trans (Glides.one (by rwa [hc])).runs, fun _ => hlt⟩
  · have hslash := h.step (by rw [hc]; decide)
    refine meets_escaped (fun _ => inferInstance) ⟨q.push 0, rfl⟩ hlt fun t ht hmove hbound => ?_
    have hgo := And.intro (And.intro (hslash.trans ht) hbound) (Nat.lt_of_succ_lt hmove)
    exact ⟨hgo, fun _ => hgo⟩
  · exact ⟨⟨h.step (by simpa using hc), Nat.succ_le_succ (Nat.le_of_lt hlt)⟩, Nat.lt_succ_self _⟩

theorem meets_stringLiteral (hquote : r.source.char s.cursor.index = 0x27 ∨ r.source.char s.cursor.index = 0x22) :
    Meets E stringLiteral r s fun t u => Lexed r.source s.cursor u.cursor t := by
  have hsolid : isSolid (r.source.char s.cursor.index) := by
    rcases hquote with h | h <;> (rw [h]; decide)
  have hone := advance_le hsolid
  have hrequire : (r.source.char s.cursor.index = 0x27 || r.source.char s.cursor.index = 0x22) = true := by
    simpa using hquote
  simp only [stringLiteral, bind_iff, step_iff, meets_peekHere (Nat.le_of_succ_le hone), meets_require hrequire]
  refine ((loose_stringRound hsolid).loop _ (.refl _ (s.cursor.advance 1)) hone).mono fun x t ht => ?_
  cases hclosed : x.1 with
  | false => simp
  | true =>
    exact ⟨.ofMoves ((Glides.one hsolid).moves.trans (ht hclosed))
      (.inr (by simpa using hquote.symm.imp_right .inl)) rfl, by simp, (ht hclosed).le⟩

/-- A chunk of a template is right up to its end, if it has one. -/
theorem loose_templateRound {c : Cursor} : Loose E r (Runs r.source c) templateRound
    fun x t => x.1.isSome → Moves r.source c t.cursor := by
  intro cooked s h
  simp only [templateRound, bind_iff, step_iff, ite_iff, decide_eq_true_eq]
  refine ⟨fun _ hclosed => absurd hclosed Bool.false_ne_true, fun hlt => ?_⟩
  have hlt := Nat.lt_of_not_le hlt
  have hone (hc : isLineTerminator (r.source.char s.cursor.index) = false) :
      (Runs r.source c (s.cursor.advance 1) ∧ (s.cursor.advance 1).index ≤ r.source.size + 1)
        ∧ s.cursor.index < (s.cursor.advance 1).index :=
    ⟨⟨h.step hc, Nat.le_succ_of_le hlt⟩, Nat.lt_succ_self _⟩
  simp only [meets_take (Nat.le_of_lt hlt)]
  refine ⟨fun hc _ => ⟨h.step (by rw [hc]; decide), fun _ => hlt⟩, fun _ => ⟨fun hc => ?_, fun _ => ⟨fun hc => ?_,
    fun _ => ⟨fun hd => meets_endLine rfl hd ?_, fun hd => hone (by simpa using hd)⟩⟩⟩⟩
  · simp only [meets_peekHere (s := { s with cursor := s.cursor.advance 1 }) hlt]
    refine ⟨fun hd _ => ⟨(h.step (by rw [hc]; decide)).step (by rw [hd]; decide), fun _ => ?_⟩, fun _ => ?_⟩
    · exact Source.lt_size_of_isSolid (by rw [hd]; decide)
    · exact hone (by rw [hc]; decide)
  · have hslash := h.step (by rw [hc]; decide)
    refine meets_escaped (fun _ => inferInstance) ⟨0, rfl⟩ hlt fun t ht hmove hbound => ?_
    have hgo := And.intro (And.intro (hslash.trans ht) hbound) (Nat.lt_of_succ_lt hmove)
    exact ⟨hgo, fun _ => hgo⟩
  · have hmove := Moves.passTerminator hd
    exact ⟨⟨h.trans hmove.toRuns, Nat.le_succ_of_le (hmove.bound (Nat.le_of_lt hlt))⟩, lt_passTerminator _ _⟩

/-- A chunk of a template starts with a backquote or a brace. -/
theorem meets_template (h : r.source.char s.cursor.index = 0x60 ∨ r.source.char s.cursor.index = 0x7d) :
    Meets E template r s fun t u => Lexed r.source s.cursor u.cursor t := by
  have hsolid : isSolid (r.source.char s.cursor.index) := by
    rcases h with h | h <;> (rw [h]; decide)
  have hone := advance_le hsolid
  simp only [template, bind_iff, step_iff, meets_peekHere (Nat.le_of_succ_le hone)]
  refine (loose_templateRound.loop _ (.refl _ (s.cursor.advance 1)) hone).mono fun x t ht => ?_
  obtain ⟨tail, cooked⟩ := x
  cases tail with
  | none => simp
  | some tail =>
    simp
    exact ⟨.ofMoves ((Glides.one hsolid).moves.trans (ht rfl)) (.inr (by rcases h with h | h <;> simp [h])) rfl,
      by simp, (ht rfl).le⟩

/-! ### Regular expressions -/

/-- A regular expression is on one line, up to its closing slash, if it has one. -/
theorem loose_regexBodyRound {c : Cursor} : Loose E r (Slides r.source c) regexBodyRound
    fun closed t => closed → Glides r.source c t.cursor := by
  intro inClass s h
  simp only [regexBodyRound, bind_iff, step_iff, ite_iff, decide_eq_true_eq]
  refine ⟨fun _ hclosed => absurd hclosed Bool.false_ne_true, fun hlt => ?_⟩
  have hlt := Nat.lt_of_not_le hlt
  simp only [meets_take (Nat.le_of_lt hlt)]
  refine ⟨fun hc => ?_, fun _ => ⟨fun _ => by simp, fun hc => ?_⟩⟩
  · simp only [meets_take (s := { s with cursor := s.cursor.advance 1 }) hlt, meets_refuse]
    refine ⟨fun _ => trivial, fun hd => ⟨⟨?_, Nat.succ_le_succ hlt⟩, Nat.lt_add_of_pos_right Nat.zero_lt_two⟩⟩
    exact (h.step (by rw [hc]; decide)).step (by simpa using hd)
  · have hstep := h.step (by simpa using hc)
    have hone := And.intro (And.intro hstep (Nat.le_succ_of_le hlt)) (Nat.lt_succ_self s.cursor.index)
    exact ⟨fun _ => hone, fun _ => ⟨fun _ _ => ⟨hstep, fun _ => hlt⟩, fun _ => hone⟩⟩

theorem meets_regexBody (h : r.source.char s.cursor.index = 0x2f) :
    Meets E regexBody r s fun _ t => Glides r.source (s.cursor.advance 1) t.cursor := by
  have hone := advance_le (by rw [h]; decide)
  simp only [regexBody, bind_iff, step_iff, meets_peekHere (Nat.le_of_succ_le hone), h, meets_require, decide_true]
  refine (loose_regexBodyRound.loop _ (.refl _ (s.cursor.advance 1)) hone).mono fun closed t ht => ?_
  cases closed with
  | false => simp
  | true => simpa using ht rfl

instance : TameRounds E regexFlagsRound := by
  refine ⟨fun flags r s h => ?_⟩
  simp [regexFlagsRound, h, Round.Holds, Glides.refl]
  intro _ hpart
  have hone : Glides r.source s.cursor (s.cursor.advance 1) :=
    .one (isSolid_of_isIdentifierPart hpart)
  refine ⟨fun _ _ => ?_, fun _ => ⟨hone, Nat.lt_succ_self _⟩⟩
  rw [meets_peekHere (hone.bound h)]
  refine ⟨fun hu => ?_, fun _ => meets_tolerate fun _ => ⟨hone, Nat.lt_succ_self _⟩⟩
  have htwo := hone.trans (.one (by rw [hu]; decide))
  have hlt : s.cursor.index < ((s.cursor.advance 1).advance 1).index :=
    Nat.lt_add_of_pos_right Nat.zero_lt_two
  refine (Tame.out r _ (htwo.bound h)).mono fun d t ht => ?_
  exact ⟨fun _ => meets_tolerate fun _ => ⟨htwo.giveBack ht, hlt⟩,
    fun _ => meets_tolerate fun _ => ⟨htwo.trans ht, Nat.lt_of_lt_of_le hlt ht.le⟩⟩

instance : Tame E (checkRegex body flags) := by
  unfold checkRegex
  cases resolveEscapes 0 body with
  | mk values resolved =>
    dsimp only
    cases Pattern.compile? (joinSurrogates resolved) (patternFlags flags) <;> infer_instance

/-- A regular expression is read where a slash stands. -/
theorem meets_regex (h : r.source.char s.cursor.index = 0x2f) :
    Meets E regex r s fun t u => Lexed r.source s.cursor u.cursor t := by
  have hsolid : isSolid (r.source.char s.cursor.index) := by rw [h]; decide
  rw [regex, step_bind, bind_iff]
  refine (meets_regexBody h).mono fun body t ht => ?_
  exact meets_lexed hsolid ht fun flags u hu => meets_lexed hsolid hu fun _ _ hv => .ofGlides hsolid hv rfl (by simp)

theorem ensures_regex : Ensures regex r s fun t u =>
    Covers r.source s.cursor u.cursor t ∧ r.source.char s.cursor.index = 0x2f := by
  by_cases h : r.source.char s.cursor.index = 0x2f
  · exact (meets_regex (E := fun _ => True) h).ensures.mono fun _ _ ht => ⟨ht.toCovers, h⟩
  · simp [regex, regexBody, h]

/-! ### White space and comments -/

theorem ensures_lineComment_moves :
    Ensures (lineComment width) r s fun _ t => Moves r.source s.cursor t.cursor := by
  simp [lineComment]
  have hline : Glides r.source s.cursor { s.cursor with
      index := r.source.skipWhile (fun d => !isLineTerminator d) s.cursor.index } :=
    .skipWhile fun d hd => by simpa using hd
  split
  · next hsize =>
    exact hline.moves.trans (.passTerminator (by simpa using Source.not_test_skipWhile hsize))
  · exact hline.moves

theorem ensures_blockComment_moves : Ensures blockComment r s fun _ t => Moves r.source s.cursor t.cursor := by
  simp [blockComment]
  have hblock := Moves.passBlock r.source s.cursor
  exact ⟨fun _ => hblock, fun _ => ensures_tolerate fun _ => hblock⟩

theorem meets_triviaRound (h : s.cursor.index ≤ r.source.size) : Meets E (triviaRound x) r s (Round.Holds
      (fun _ t => Moves r.source s.cursor t.cursor ∧ s.cursor.index < t.cursor.index)
      fun _ t => Moves r.source s.cursor t.cursor ∧ Settled r.source t.cursor.index) := by
  -- After a delimiter of a comment, the comment is read.
  have hcomment {m : Scan Comment} {w : String} (hat : r.source.hasAt s.cursor.index w)
      (hw : 0 < w.length ∧ ∀ d ∈ Text.ofString w, isSolid d)
      (hm : Ensures m r { s with cursor := s.cursor.advance w.length } fun _ t =>
        Moves r.source (s.cursor.advance w.length) t.cursor)
      (hsafe : Meets E m r { s with cursor := s.cursor.advance w.length } fun _ _ => True) :
      Meets E m r { s with cursor := s.cursor.advance w.length } fun _ t =>
        Moves r.source s.cursor t.cursor ∧ s.cursor.index < t.cursor.index :=
    (hsafe.and_ensures hm).mono fun _ t ht =>
      ⟨(Glides.word hat hw.2).moves.trans ht.2, Nat.lt_of_lt_of_le (Nat.lt_add_of_pos_right hw.1) ht.2.le⟩
  have hblock : Meets E blockComment r { s with cursor := s.cursor.advance 2 } fun _ _ => True := by
    simp [blockComment]
    exact fun _ => meets_tolerate fun _ => trivial
  simp [triviaRound, h, Round.Holds]
  refine ⟨fun hsize => ⟨.refl _ _, settled_of_size_le hsize⟩, fun _ => ⟨fun hspace => ?_, fun _ => ⟨fun hline => ?_,
    fun _ => ⟨fun hat => ?_, fun hnoLine => ⟨fun hat => ?_, fun hnoBlock => ⟨fun _ hat => ?_, fun _ =>
      ⟨fun _ hat => ?_, fun _ => ⟨.refl _ _, by simp [Settled, *]⟩⟩⟩⟩⟩⟩⟩⟩
  · exact ⟨(Glides.one (isSolid_of_isWhiteSpace hspace)).moves, Nat.lt_succ_self _⟩
  · exact meets_endLine rfl hline ⟨.passTerminator hline, lt_passTerminator _ _⟩
  · exact hcomment hat (by decide) ensures_lineComment_moves (by simp [lineComment])
  · exact hcomment hat (by decide) ensures_blockComment_moves hblock
  all_goals exact hcomment hat (by decide) ensures_lineComment_moves (by simp [lineComment])

theorem meets_trivia (h : s.cursor.index ≤ r.source.size) : Meets E trivia r s fun _ t =>
    Moves r.source s.cursor t.cursor ∧ Settled r.source t.cursor.index := by
  simp only [trivia, bind_iff, step_iff]
  refine meets_loop (I := fun _ t => Moves r.source s.cursor t.cursor) (.refl _ _)
    (fun _ _ ht => Nat.le_succ_of_le (ht.bound h)) fun x t ht => ?_
  refine (meets_triviaRound (ht.bound h)).mono fun y u hu => ?_
  cases y with
  | again => exact ⟨ht.trans hu.1, hu.2⟩
  | done => exact ⟨ht.trans hu.1, hu.2⟩

theorem ensures_trivia : Ensures trivia r s fun _ t =>
    Moves r.source s.cursor t.cursor ∧ Settled r.source t.cursor.index := by
  rcases Nat.le_total s.cursor.index r.source.size with h | h
  · exact (meets_trivia (E := fun _ => True) h).ensures
  · have hchar : r.source.char s.cursor.index = 0 := Source.char_of_size_le h
    have hsettled := settled_of_size_le h
    refine (ensures_trivia_still ?_ ?_ hsettled ?_ ?_).mono fun _ t ht => ⟨ht ▸ .refl _ _, ht ▸ hsettled⟩
    all_goals
      rw [hchar]
      decide

/-! ### The next token -/

/-- Before the end of the source a token is read, and it is not empty. -/
theorem meets_plainLex_of_lt (h : s.cursor.index < r.source.size) :
    Meets E plainLex r s fun t u => Lexed r.source s.cursor u.cursor t := by
  simp only [plainLex, bind_iff, step_iff, Nat.not_le.2 h, decide_false, Bool.false_eq_true,
    meets_peekHere (Nat.le_of_lt h), ite_iff, meets_peek (k := 1) (Nat.succ_le_of_lt h), Bool.or_eq_true,
    Bool.and_eq_true, decide_eq_true_eq]
  refine ⟨False.elim, fun _ => ⟨fun hstart => ?_, fun _ => ⟨meets_stringLiteral, fun _ => ⟨fun hpoint =>
    ⟨fun hdigit => ?_, fun _ => meets_punctuator⟩, fun _ => ⟨fun hdigit => ?_, fun _ =>
      ⟨fun hquote => ?_, fun _ => ⟨fun hsign => ?_, fun _ => meets_punctuator⟩⟩⟩⟩⟩⟩⟩
  · exact meets_identifier (isSolid_of_isIdentifierStart hstart)
  · exact meets_numericLiteral (.inr ⟨hpoint, .inl hdigit⟩)
  · exact meets_numericLiteral (.inl hdigit)
  · exact meets_template (hquote.imp_right And.left)
  · exact meets_privateName (by rw [hsign.1]; decide)

omit [Refusing E] in
/-- The end of the source is read if the cursor is there. -/
theorem meets_plainLex_of_le (h : r.source.size ≤ s.cursor.index) :
    Meets E plainLex r s fun t u => t.lexeme = .eof ∧ u = s ∧ Covers r.source s.cursor s.cursor t := by
  simp [plainLex, h]
  exact .ofGlides (.refl _ _) rfl

theorem ensures_plainLex : Ensures plainLex r s fun t u => Covers r.source s.cursor u.cursor t := by
  rcases Nat.lt_or_ge s.cursor.index r.source.size with h | h
  · exact (meets_plainLex_of_lt (E := fun _ => True) h).ensures.mono fun _ _ ht => ht.toCovers
  · exact (meets_plainLex_of_le (E := fun _ => True) h).ensures.mono fun _ _ ht => ht.2.1 ▸ ht.2.2

/-- What it means that a token was read: the source was at its end, and still is; or the cursor has
moved on. The token ends at the cursor. -/
def Onward (src : Source) (i : Nat) (t : Token) (u : ScanState) : Prop :=
  u.cursor.index ≤ src.size ∧ ((t.lexeme = .eof ∧ i = u.cursor.index) ∨ i < u.cursor.index)
    ∧ (t.lexeme = .eof → u.cursor.index = src.size)
    ∧ t.stop = u.cursor.index ∧ (t.lexeme ≠ .eof → t.start < t.stop)

theorem meets_plainLex (h : s.cursor.index ≤ r.source.size) :
    Meets E plainLex r s (Onward r.source s.cursor.index) := by
  rcases Nat.lt_or_eq_of_le h with hlt | heq
  · refine (meets_plainLex_of_lt hlt).mono fun t u ht => ?_
    refine ⟨ht.moves.bound h, .inr ht.lt, fun heof => absurd heof ht.ne_eof, ht.stop, fun _ => ?_⟩
    rw [ht.start, ht.stop]
    exact ht.lt
  · refine (meets_plainLex_of_le (Nat.le_of_eq heq.symm)).mono fun t u ht => ?_
    obtain ⟨heof, rfl, hcovers⟩ := ht
    exact ⟨h, .inl ⟨heof, rfl⟩, fun _ => heq, hcovers.stop, fun hne => absurd heof hne⟩

theorem Onward.of_lt (h : Onward src j t u) (hij : i < j) : Onward src i t u := by
  refine ⟨h.1, .inr ?_, h.2.2⟩
  rcases h.2.1 with hu | hu
  · exact hu.2 ▸ hij
  · exact Nat.lt_trans hij hu

/-- The first line is hidden, and the token after it is read from where the next one starts. -/
theorem meets_hashbang (h : r.source.hasAt s.cursor.index "#!") :
    Meets E hashbang r s fun t u => Onward r.source s.cursor.index t u
      ∧ ∃ c, Moves r.source s.cursor c ∧ Covers r.source c u.cursor t := by
  let last : Cursor := { s.cursor.advance 2 with
    index := r.source.skipWhile (fun c => !isLineTerminator c) (s.cursor.advance 2).index }
  have htwo : (s.cursor.advance 2).index ≤ r.source.size := Source.size_of_hasAt h (by decide)
  have hlast : last.index ≤ r.source.size := Source.skipWhile_le_size htwo
  have hhidden : Moves r.source s.cursor last :=
    ((Glides.word h (by decide)).trans (.skipWhile fun d hd => by simpa using hd)).moves
  have hlt : s.cursor.index < last.index :=
    Nat.lt_of_lt_of_le (Nat.lt_add_of_pos_right Nat.zero_lt_two) (r.source.le_skipWhile _ _)
  simp only [hashbang, bind_iff, step_iff, ite_iff]
  refine ⟨fun hend => ?_, fun _ => ((meets_plainLex hlast).and_ensures ensures_plainLex).mono fun _ _ hu =>
    ⟨hu.1.of_lt hlt, last, hhidden, hu.2⟩⟩
  have hline : isLineTerminator (r.source.char last.index) := by
    have hstop := Source.not_test_skipWhile (Nat.lt_of_not_le (by simpa using hend))
    rwa [Bool.not_eq_false'] at hstop
  rw [meets_take hlast]
  refine meets_endLine rfl hline ?_
  have hnext := hhidden.trans (.passTerminator hline)
  have hbound := hnext.bound (Nat.le_trans (Nat.le_of_lt hlt) hlast)
  refine ((meets_plainLex hbound).and_ensures ensures_plainLex).mono fun _ _ hu => ?_
  exact ⟨hu.1.of_lt (Nat.lt_trans hlt (lt_passTerminator _ _)), _, hnext, hu.2⟩

theorem meets_lex (h : s.cursor.index ≤ r.source.size) :
    Meets E lex r s (Onward r.source s.cursor.index) := by
  simp only [lex, bind_iff, step_iff, ite_iff, Bool.and_eq_true, decide_eq_true_eq]
  exact ⟨fun hhidden => (meets_hashbang hhidden.1.2).mono fun _ _ => And.left, fun _ => meets_plainLex h⟩

/-- The first line is only hidden at the very start. -/
theorem ensures_lex : Ensures lex r s fun t u => Covers r.source s.cursor u.cursor t
    ∨ (s.cursor.index = 0 ∧ r.source.hasAt 0 "#!"
      ∧ ∃ c, Moves r.source s.cursor c ∧ Covers r.source c u.cursor t) := by
  simp [lex]
  refine ⟨fun hzero hat _ => ?_, fun _ => ensures_plainLex.mono fun _ _ => .inl⟩
  exact (meets_hashbang (E := fun _ => True) hat).ensures.mono fun _ _ hu => .inr ⟨hzero, hzero ▸ hat, hu.2⟩

/-! ### Markup -/

/-- What is read in a tag is not empty, unless it is the place of a template or the end. All but strings keep
account of the lines. -/
structure Marked (src : Source) (c c' : Cursor) (t : Token) : Prop where
  le : c.index ≤ c'.index
  bound : c'.index ≤ src.size
  lt : t.lexeme ≠ .eof → t.lexeme ≠ .templateMark → c.index < c'.index
  ended : c.index = src.size → t.lexeme = .eof
  moves : Moves src c c' ∨ (t.lexeme.isString ∧ Drifts src c c' ∧ t.start = c.index ∧ t.stop = c'.index)

theorem Marked.ofGlides {c c' : Cursor} (h : Glides src c c') (hc : c.index ≤ src.size) (hlt : c.index < c'.index) :
    Marked src c c' t :=
  ⟨h.le, h.bound hc, fun _ _ => hlt, fun heq => absurd (h.bound hc) (by omega), .inl h.moves⟩

section

variable (hE : r.source.HasCharacterNumber → EntityFaults E)
include hE

omit [Refusing E] in
theorem meets_markupString (hs : s.cursor.index ≤ r.source.size) :
    Meets E (markupString quote) r s fun _ t => Drifts r.source s.cursor t.cursor := by
  refine meets_loop (I := fun _ t => Drifts r.source s.cursor t.cursor) (.refl _ _)
    (fun _ _ h => Nat.le_succ_of_le (h.bound hs)) fun value t ht => ?_
  simp [markupStringRound, ht.bound hs, ht, Round.Holds]
  intro hlt
  have hstep := ht.trans (.step hlt)
  refine ⟨fun _ => hstep, fun _ => ⟨fun hchar => ?_, fun _ => ⟨hstep, Nat.lt_succ_self _⟩⟩⟩
  refine (meets_entity (fun hsign => hE ⟨_, Source.hasAt_pair rfl hchar hsign (by decide)⟩) (Nat.succ_le_of_lt hlt)).mono
    fun _ u hu => ?_
  exact ⟨hstep.trans hu.1, hu.1.le⟩

theorem meets_markupLex (h : s.cursor.index ≤ r.source.size) :
    Meets E markupLex r s fun t u => Marked r.source s.cursor u.cursor t := by
  have hone (hc : isSolid (r.source.char s.cursor.index)) : s.cursor.index < r.source.size :=
    Source.lt_size_of_isSolid hc
  simp only [markupLex, bind_iff, step_iff, meets_peekHere h, ite_iff, Bool.or_eq_true, Bool.and_eq_true,
    decide_eq_true_eq]
  refine ⟨fun hmark => ?_, fun _ => ⟨fun hquote => ?_, fun _ => ⟨fun hdot => ?_, fun _ =>
    ⟨fun htemplate => ?_, fun _ => ⟨fun hstart => ?_, fun _ => ?_⟩⟩⟩⟩⟩
  · refine .ofGlides (.one ?_) h (Nat.lt_succ_self _)
    simp only [List.contains_cons, List.contains_nil, Bool.or_false, Bool.or_eq_true, beq_iff_eq] at hmark
    rcases hmark with h | h | h | h | h | h | h <;> (rw [h]; decide)
  · have hlt := hone (by rcases hquote with h | h <;> (rw [h]; decide))
    refine (meets_markupString hE (by exact hlt)).mono fun _ t ht => ?_
    have hdrifts := (Drifts.step hlt).trans ht
    exact ⟨hdrifts.le, hdrifts.bound h, fun _ _ => ht.le, fun heq => absurd heq (Nat.ne_of_lt hlt),
      .inr ⟨rfl, hdrifts, rfl, rfl⟩⟩
  · split
    · next hdots => exact .ofGlides (.word hdots (by decide)) h (Nat.lt_add_of_pos_right (by decide))
    · exact .ofGlides (.one (by rw [hdot]; decide)) h (Nat.lt_succ_self _)
  · have hlt := hone (by rw [htemplate]; decide)
    exact ⟨Nat.le_refl _, h, fun _ hne => absurd rfl hne, fun heq => absurd heq (Nat.ne_of_lt hlt), .inl (.refl _ _)⟩
  · refine .ofGlides (.trans (.one (isSolid_of_isIdentifierStart hstart.1)) (.skipWhile fun d hd => ?_)) h
      (r.source.le_skipWhile _ _)
    simp only [Bool.or_eq_true, Bool.and_eq_true, decide_eq_true_eq] at hd
    rcases hd with ⟨hpart, -⟩ | rfl
    · exact not_isLineTerminator_of_isSolid (isSolid_of_isIdentifierPart hpart)
    · decide
  · refine ((meets_lex h).and_ensures ensures_lex).mono fun t u h => ?_
    obtain ⟨ht, hu⟩ := h
    have hmoves : Moves r.source s.cursor u.cursor := by
      rcases hu with hu | ⟨-, -, c, hc, hu⟩
      · exact hu.moves
      · exact hc.trans hu.moves
    refine ⟨hmoves.le, ht.1, fun hne _ => ht.2.1.resolve_left fun h => hne h.1, fun heq => ?_, .inl hmoves⟩
    rcases ht.2.1 with h | hlt
    · exact h.1
    · exact absurd ht.1 (by omega)

end

/-- In a tag, all but strings keep account of the lines. -/
theorem ensures_markupLex : Ensures markupLex r s fun t u => Moves r.source s.cursor u.cursor
    ∨ (t.lexeme.isString ∧ Drifts r.source s.cursor u.cursor
      ∧ t.start = s.cursor.index ∧ t.stop = u.cursor.index) := by
  rcases Nat.lt_or_ge r.source.size s.cursor.index with h | h
  · simp [markupLex, Nat.not_le.2 h]
  · exact (meets_markupLex (E := fun _ => True) (fun _ => ⟨trivial, trivial⟩) h).ensures.mono fun _ _ ht => ht.moves

omit [Refusing E]

theorem meets_markupTextRound (h : s.cursor.index ≤ r.source.size) : Meets E (markupTextRound text) r s (Round.Holds
      (fun _ t => Moves r.source s.cursor t.cursor ∧ s.cursor.index < t.cursor.index)
      fun _ t => Moves r.source s.cursor t.cursor) := by
  simp [markupTextRound, h, Round.Holds, Moves.refl]
  intro hlt _ _
  refine ⟨fun hline => meets_endLine rfl hline ⟨.passTerminator hline, lt_passTerminator _ _⟩, fun hline => ?_⟩
  exact ⟨(Glides.step hlt (by simpa using hline)).moves, Nat.lt_succ_self _⟩

theorem meets_markupText (h : s.cursor.index ≤ r.source.size) :
    Meets E markupText r s fun _ t => Moves r.source s.cursor t.cursor := by
  simp only [markupText, bind_iff, step_iff]
  refine meets_loop (I := fun _ t => Moves r.source s.cursor t.cursor) (.refl _ _)
    (fun _ _ ht => Nat.le_succ_of_le (ht.bound h)) fun x t ht => ?_
  refine (meets_markupTextRound (ht.bound h)).mono fun y u hu => ?_
  cases y with
  | again => exact ⟨ht.trans hu.1, hu.2⟩
  | done => exact ht.trans hu

theorem ensures_markupText_moves : Ensures markupText r s fun _ t => Moves r.source s.cursor t.cursor := by
  rcases Nat.le_total s.cursor.index r.source.size with h | h
  · exact (meets_markupText (E := fun _ => True) h).ensures
  · simp only [markupText, Ensures.bind_iff, Ensures.step_iff]
    refine ensures_loop (I := fun _ t => t = s) rfl fun _ t ht => ?_
    simp [markupTextRound, ht, h, Round.Holds, Moves.refl]

end Scan

end EcmaSyntax
