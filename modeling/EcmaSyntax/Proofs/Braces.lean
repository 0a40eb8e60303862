import EcmaSyntax.Proofs.Advance
import EcmaSyntax.Proofs.Simple

/-!
# Open braces

Scanning keeps account of the braces that are open, and only tokens change it: `Lexeme.bracesAfter` says
how. All other scans are `Steady`: they leave the braces alone, since they are put together from steps
that do (`Scan.Simple`).
-/

namespace EcmaSyntax

open Ensures (bind_iff step_iff throw_iff ite_iff)

set_option synthInstance.maxSize 100000000000000

/-- The braces that are open behind a token, where `braces` are open before it. The end of a
substitution closes its brace, and another substitution opens it again. -/
def Lexeme.bracesAfter (l : Lexeme) (braces : List Brace) : List Brace :=
  match l with
  | .template _ _ true false => .substitution :: braces
  | .template _ _ false true => braces.drop 1
  | .punctuator m =>
    if m.is "\x7b" then .block :: braces else if m.is "\x7d" then braces.drop 1 else braces
  | _ => braces

theorem Lexeme.bracesAfter_of_bare {l : Lexeme} (ht : l.isTemplate = false) (hp : l.isPunctuator = false)
    (braces : List Brace) : l.bracesAfter braces = braces := by
  cases l <;> first | rfl | simp_all [isTemplate, isPunctuator]

namespace Scan

variable {α β : Type} {r : Setting} {s : ScanState} {m : Scan α} {s₀ : ScanState} {l : Lexeme}
  {octal : Option Bool} {Q : Token → ScanState → Prop}

/-! ### Scans that leave the braces alone -/

/-- No brace was opened or closed. Nor was an error recorded, unless errors are tolerated. -/
structure Keeps (r : Setting) (s t : ScanState) : Prop where
  braces : t.braces = s.braces
  isModule : t.isModule = s.isModule
  errors : r.tolerant = false → t.errors = s.errors

namespace Keeps

variable {t u : ScanState}

theorem refl (r : Setting) (s : ScanState) : Keeps r s s := ⟨rfl, rfl, fun _ => rfl⟩

theorem trans (h : Keeps r s t) (h' : Keeps r t u) : Keeps r s u :=
  ⟨h'.braces.trans h.braces, h'.isModule.trans h.isModule,
    fun hstrict => (h'.errors hstrict).trans (h.errors hstrict)⟩

end Keeps

/-- A scan that neither opens nor closes a brace. -/
class Steady (m : Scan α) : Prop where
  out (r : Setting) (s : ScanState) : Ensures m r s fun _ t => Keeps r s t

theorem Steady.after (h : Steady m) (hs : Keeps r s₀ s) : Ensures m r s fun _ t => Keeps r s₀ t :=
  (h.out r s).mono fun _ _ => hs.trans

theorem Simple.steady (h : Simple m) : Steady m := by
  induction h with
  | pure a => exact ⟨fun r s => .pure (.refl r s)⟩
  | throw e => exact ⟨fun _ _ => throw_iff.2 trivial⟩
  | get => exact ⟨fun r s => step_iff.2 (.refl r s)⟩
  | move g => exact ⟨fun _ _ => .modify ⟨rfl, rfl, fun _ => rfl⟩⟩
  | tolerate cause =>
    refine ⟨fun r s => ?_⟩
    simp only [Scan.tolerate, bind_iff, step_iff, ite_iff, throw_iff, errorHere]
    exact ⟨fun htolerant => ⟨rfl, rfl, fun hstrict => by simp [hstrict] at htolerant⟩, fun _ => trivial⟩
  | bind _ _ ihm ihf => exact ⟨fun r s => (ihm.out r s).bind fun a _ ht => (ihf a).after ht⟩
  | read _ _ ih => exact ⟨fun r s => .seq (step_iff.2 ((ih r).out r s))⟩

instance (priority := low) [h : Simple m] : Steady m := h.steady
instance : Steady (read : Scan Setting) := ⟨fun r s => step_iff.2 (.refl r s)⟩

/-! ### Tokens that are neither marks nor templates -/

/-- A scan for a token that is neither a mark nor a chunk of a template. -/
class Bare (m : Scan Token) : Prop where
  out (r : Setting) (s : ScanState) :
    Ensures m r s fun t _ => t.lexeme.isTemplate = false ∧ t.lexeme.isPunctuator = false

namespace Bare

variable {f : α → Scan Token} {start : Nat}

instance [hf : ∀ a, Bare (f a)] : Bare (m >>= f) :=
  ⟨fun r _ => .seq (.always fun a t => (hf a).out r t)⟩

instance (priority := 50) {m n : Scan Token} [u : Expands m n] [h : Bare n] : Bare m := u.eq ▸ h

instance [Decidable p] {m m' : Scan Token} [hm : Bare m] [hm' : Bare m'] : Bare (if p then m else m') := by
  split
  · exact hm
  · exact hm'

theorem ofToken (ht : l.isTemplate = false) (hp : l.isPunctuator = false) : Bare (token start l) :=
  ⟨fun _ _ => Ensures.step_iff.2 ⟨ht, hp⟩⟩

theorem nameLexeme_isTemplate (name : Text) : (nameLexeme name).isTemplate = false := by
  unfold nameLexeme
  repeat' split
  all_goals rfl

instance : Bare (token start (.numeric v octal)) := ofToken rfl rfl
instance {digits : Text} : Bare (token start (.bigInt v digits)) := ofToken rfl rfl
instance : Bare (token start (.string v octal)) := ofToken rfl rfl
instance : Bare (token start (.privateName name)) := ofToken rfl rfl
instance : Bare (token start (nameLexeme name)) :=
  ofToken (nameLexeme_isTemplate name) (nameLexeme_isPunctuator name)

end Bare

/-! ### Braces behind a token -/

/-- A token of a kind was read, which opens and closes braces. -/
structure Braced (r : Setting) (l : Lexeme) (s t : ScanState) : Prop where
  braces : t.braces = l.bracesAfter s.braces
  isModule : t.isModule = s.isModule
  errors : r.tolerant = false → t.errors = s.errors

theorem Keeps.braced (h : Keeps r s t) (h' : Braced r l t u) : Braced r l s u :=
  ⟨h.braces ▸ h'.braces, h'.isModule.trans h.isModule, fun hstrict => (h'.errors hstrict).trans (h.errors hstrict)⟩

theorem ensures_bare {m : Scan Token} (hm : Steady m) (hb : Bare m) :
    Ensures m r s fun t u => Braced r t.lexeme s u := by
  refine ((hm.out r s).and (hb.out r s)).mono fun t u ⟨hkeeps, ht, hp⟩ => ?_
  exact ⟨by rw [Lexeme.bracesAfter_of_bare ht hp, hkeeps.braces], hkeeps.isModule, hkeeps.errors⟩

theorem punctuator_of_none (h : Punctuator.longestAt? r.source r.edition s.cursor.index = none) : punctuator r s
    = .error (.refused ⟨s.cursor.index, s.cursor.line, s.cursor.column + 1, .illegalToken⟩) s := by
  have hindex : index r s = .ok s.cursor.index s := rfl
  have hread : (read : Scan Setting) r s = .ok r s := rfl
  simp only [punctuator, bind_apply, hindex, hread, h]
  rfl

theorem punctuator_of_some (h : Punctuator.longestAt? r.source r.edition s.cursor.index = some w) : punctuator r s
    = .ok ⟨.punctuator w, s.cursor.index, s.cursor.index + w.length, s.cursor.line, s.cursor.lineStart⟩
      { s with cursor := s.cursor.advance w.length, braces := (Lexeme.punctuator w).bracesAfter s.braces } := by
  apply Meets.eq_ok
  have his (v : String) : (Text.ofString w).is v = (w == v) := by
    rw [Bool.eq_iff_iff, Text.ofString_is, beq_iff_eq]
  simp only [punctuator, Meets.bind_iff, Meets.step_iff, h, Meets.ite_iff, Lexeme.bracesAfter, his]
  by_cases hopen : w = "\x7b"
  · simp [hopen, Cursor.advance]
  · by_cases hclose : w = "\x7d" <;> simp [hopen, hclose, Cursor.advance]

/-- A punctuator is the longest mark at the cursor. -/
theorem ensures_punctuator_of (h : ∀ m tok t, Punctuator.longestAt? r.source r.edition s.cursor.index = some m →
      tok.lexeme = .punctuator m → Braced r tok.lexeme s t → Q tok t) : Ensures punctuator r s Q := by
  intro tok t hrun
  cases hm : Punctuator.longestAt? r.source r.edition s.cursor.index with
  | none => cases (punctuator_of_none hm).symm.trans hrun
  | some m =>
    cases (punctuator_of_some hm).symm.trans hrun
    exact h m _ _ hm rfl ⟨rfl, rfl, fun _ => rfl⟩

/-- A chunk that ends with a substitution opens a brace. -/
theorem ensures_templateRound_braced (h : Keeps r s₀ s) :
    Ensures (templateRound cooked) r s (Round.Holds (fun _ t => Keeps r s₀ t) fun x t =>
      ∀ tail raw text, x.1 = some tail → Braced r (.template raw text true tail) s₀ t) := by
  have hmoved (c : Cursor) : Keeps r s₀ { s with cursor := c } := ⟨h.braces, h.isModule, h.errors⟩
  simp only [templateRound, bind_iff, step_iff, ite_iff, ensures_take, ensures_peek]
  refine ⟨fun _ => ?_, fun _ _ => ⟨fun _ => ?_, fun _ => ⟨fun _ _ => ⟨fun _ => ?_, fun _ => hmoved _⟩,
    fun _ => ⟨fun _ _ => ⟨fun _ => ?_, fun _ => ?_⟩, fun _ => ⟨fun _ => ?_, fun _ => hmoved _⟩⟩⟩⟩⟩
  · intro tail raw text htail
    cases htail
  · intro tail raw text htail
    cases htail
    exact ⟨h.braces, h.isModule, h.errors⟩
  · intro tail raw text htail
    cases htail
    exact ⟨congrArg (.substitution :: ·) h.braces, h.isModule, h.errors⟩
  · exact Steady.after inferInstance (hmoved _)
  · exact Steady.after inferInstance (hmoved _)
  · exact Steady.after inferInstance (hmoved _)

theorem ensures_template_braced : Ensures template r s fun t u => Braced r t.lexeme s u := by
  simp only [template, bind_iff, step_iff, ensures_peek, Nat.add_zero]
  have hstart : Keeps r s { s with cursor := s.cursor.advance 1 } := ⟨rfl, rfl, fun _ => rfl⟩
  refine fun _ => (ensures_loop (I := fun _ t => Keeps r s t) hstart
    fun _ _ => ensures_templateRound_braced).mono fun x t ht => ?_
  split
  · exact ensures_refuse.2 trivial
  · next tail cooked =>
    simp only [bind_iff, ite_iff, step_iff]
    have hx := ht tail [] [] rfl
    refine ⟨fun hhead => ⟨?_, hx.isModule, hx.errors⟩, fun hhead => ⟨?_, hx.isModule, hx.errors⟩⟩
    · have hbraces := hx.braces
      cases tail <;> simp_all [Lexeme.bracesAfter]
    · have hbraces := hx.braces
      cases tail <;> simp_all [Lexeme.bracesAfter]

/-- Reading a token opens and closes the braces that are in it, and no others. -/
theorem ensures_plainLex_braced : Ensures plainLex r s fun t u => Braced r t.lexeme s u := by
  have hbare {m : Scan Token} [Steady m] [Bare m] : Ensures m r s fun t u => Braced r t.lexeme s u :=
    ensures_bare inferInstance inferInstance
  exact ensures_plainLex_of (Ensures.step_iff.2 ⟨rfl, rfl, fun _ => rfl⟩) (fun _ => hbare) hbare hbare
    (fun _ => ensures_template_braced) (fun _ => hbare) (ensures_punctuator_of fun _ _ _ _ _ => id)

/-- No brace is in a line that is hidden. -/
theorem ensures_lex_of_plainLex (h : ∀ t, Keeps r s t → Ensures plainLex r t Q) : Ensures lex r s Q := by
  have hskip (c : CodePoint) : Steady (endLine c) := inferInstance
  have hmoved (c : Cursor) : Keeps r s { s with cursor := c } := ⟨rfl, rfl, fun _ => rfl⟩
  simp only [lex, hashbang, bind_iff, step_iff, ite_iff, ensures_take]
  exact ⟨fun _ => ⟨fun _ _ => ((hskip _).after (hmoved _)).mono fun _ t => h t, fun _ => h _ (hmoved _)⟩,
    fun _ => h s (.refl r s)⟩

theorem ensures_lex_braced : Ensures lex r s fun t u => Braced r t.lexeme s u :=
  ensures_lex_of_plainLex fun _ ht => ensures_plainLex_braced.mono fun _ _ => ht.braced

/-! ### Closing braces -/

theorem ensures_punctuator_untemplated : Ensures punctuator r s fun t _ => t.lexeme.isTemplate = false :=
  ensures_punctuator_of fun _ _ _ _ htok _ => htok ▸ rfl

theorem ensures_template_head : Ensures template r s fun t _ => t.lexeme ≠ .templateMark
    ∧ t.lexeme.isTemplateHead = decide (r.source.char s.cursor.index = 0x60) ∧ t.lexeme.isTemplate := by
  simp only [template, bind_iff, step_iff, ensures_peek, Nat.add_zero]
  refine fun _ => .always fun x t => ?_
  split
  · exact ensures_refuse.2 trivial
  · simp only [bind_iff, ite_iff, step_iff]
    have hmark {raw cooked : Text} {head tail : Bool} : Lexeme.template raw cooked head tail ≠ .templateMark := by
      intro h
      cases h
    exact ⟨fun _ => ⟨hmark, rfl, rfl⟩, fun _ => ⟨hmark, rfl, rfl⟩⟩

theorem ensures_plainLex_brace (h : r.source.char s.cursor.index = 0x7d)
    (htemplate : s.braces.head? = some .substitution → Ensures template r s Q)
    (hmark : s.braces.head? ≠ some .substitution → Ensures punctuator r s Q) : Ensures plainLex r s Q := by
  simp only [plainLex, bind_iff, step_iff, ite_iff, ensures_peek, Nat.add_zero, h]
  have hend : ¬ r.source.size ≤ s.cursor.index := fun hle => by
    rw [Source.char_of_size_le hle] at h
    cases h
  have hname : CodePoint.isIdentifierStart 0x7d = false := rfl
  have hdigit : CodePoint.isDecimalDigit 0x7d = false := rfl
  by_cases hopen : s.braces.head? = some .substitution
  · simp [hend, hname, hdigit, hopen, htemplate]
  · simp [hend, hname, hdigit, hopen, hmark]

/-- A token at a closing brace goes on with a template exactly if a substitution is open. -/
theorem ensures_lex_continues : Ensures lex r s fun t _ => r.source.char t.start = 0x7d →
    (t.lexeme.isTemplate ↔ s.braces.head? = some .substitution) := by
  refine ensures_lex_of_plainLex fun t ht => ?_
  rw [← ht.braces]
  by_cases h : r.source.char t.cursor.index = 0x7d
  · refine ensures_plainLex_brace h (fun hopen => ?_) fun hopen => ?_
    · exact ensures_template_head.mono fun _ _ hx _ => iff_of_true hx.2.2 hopen
    · exact ensures_punctuator_untemplated.mono fun _ _ hx _ => iff_of_false (by rw [hx]; simp) hopen
  · exact ensures_plainLex.mono fun _ _ hx hchar => absurd (hx.start ▸ hchar) h

/-! ### Runs -/

/-- Tokens were read from the start of a source on, with white space and comments passed over in between. -/
inductive Reaches (r : Setting) : List Token → ScanState → Prop
  | start (isModule : Bool) : Reaches r [] { ScanState.start r.source with isModule }
  | trivia {ts : List Token} {s t : ScanState} {found : List Comment} :
    Reaches r ts s → Scan.trivia r s = .ok found t → Reaches r ts t
  | lex {ts : List Token} {s t : ScanState} {tok : Token} :
    Reaches r ts s → Scan.lex r s = .ok tok t → Reaches r (ts ++ [tok]) t

/-- The braces that are open behind tokens. -/
def openBraces (ts : List Token) : List Brace := ts.foldl (fun braces t => t.lexeme.bracesAfter braces) []

/-- **Braces are matched.** Wherever a scan is, the braces that are open are those that the tokens opened
and did not close; and of the tokens that start with a closing brace, those that close a substitution, and
no others, go on with a template. -/
theorem braces_of_reaches (r : Setting) (ts : List Token) (s : ScanState) (h : Reaches r ts s) :
    s.braces = openBraces ts ∧ ∀ before tok after, ts = before ++ tok :: after → r.source.char tok.start = 0x7d →
        (tok.lexeme.isTemplate ↔ (openBraces before).head? = some .substitution) := by
  induction h with
  | start isModule => exact ⟨rfl, fun before tok after h => by simp at h⟩
  | @trivia ts s t found _ hrun ih =>
    have hkeeps : Keeps r s t := Steady.out r s found t hrun
    exact ⟨hkeeps.braces.trans ih.1, ih.2⟩
  | @lex ts s t last _ hrun ih =>
    refine ⟨?_, fun before tok after hts hchar => ?_⟩
    · simp [(ensures_lex_braced last t hrun).braces, ih.1, openBraces]
    -- The token is the last one, or was there before.
    rcases List.eq_nil_or_concat after with rfl | ⟨after, last', rfl⟩
    · obtain ⟨rfl, heq⟩ := List.append_inj' hts rfl
      cases heq
      rw [← ih.1]
      exact ensures_lex_continues last t hrun hchar
    · rw [List.concat_eq_append, ← List.cons_append, ← List.append_assoc] at hts
      exact ih.2 before tok after (List.append_inj' hts rfl).1 hchar

/-- A block in a substitution, whose brace does not end the substitution. -/
theorem braces_of_reaches_block :
    let r : Setting := ⟨.ofText "`$\x7b\x7b\x7d\x7d`", 2024, false⟩
    ∃ ts s, Reaches r ts s ∧ ts.map (·.lexeme.isTemplate) = [true, false, false, true]
      ∧ s.braces = openBraces ts ∧ ∀ before tok after, ts = before ++ tok :: after → r.source.char tok.start = 0x7d →
          (tok.lexeme.isTemplate ↔ (openBraces before).head? = some .substitution) := by
  intro r
  let four : Scan (List Token) := do return [← lex, ← lex, ← lex, ← lex]
  have hrun : Yields four r (.start r.source)
      (fun ts _ => ts.map (·.lexeme.isTemplate) = [true, false, false, true]) := by decide +kernel
  have hreaches : Ensures four r (.start r.source) fun ts s => Reaches r ts s := by
    simp only [four, bind_iff, step_iff]
    intro a t ha b u hb c v hc d w hd
    exact ((((Reaches.start false).lex ha).lex hb).lex hc).lex hd
  obtain ⟨ts, s, hok, hkinds⟩ := exists_of_yields hrun
  have hts := hreaches ts s hok
  exact ⟨ts, s, hts, of_decide_eq_true hkinds, braces_of_reaches r ts s hts⟩

end Scan

end EcmaSyntax
