import EcmaSyntax.Proofs.Braces
import EcmaSyntax.Proofs.Run

/-!
# Looking behind the lookahead

In a few places a parse has to know which token comes after the lookahead. It reads that token and puts
the cursor back. `Peek` lists these places, and `state_of_look` says what is left of such a look: nothing,
but that the token has opened or closed its braces already, and that its errors are recorded if they
are tolerated. So a look is free of effects where errors are refused and no brace comes next.
-/

namespace EcmaSyntax

open Parse Cursor
open Ensures (bind_iff step_iff discard_iff ite_iff scan_iff)

set_option synthInstance.maxSize 100000000000000

namespace Scan

variable {α : Type} {r : Setting} {s : ScanState}

/-- After a look ahead, the cursor is where it was. -/
theorem ensures_lookahead_iff :
    Ensures (lookahead m) r s Q ↔ Ensures m r s fun a t => Q a { t with cursor := s.cursor } := by
  simp [lookahead]

/-- A mark that stands where no brace does is no brace. -/
theorem ensures_punctuator_keeps (hopen : r.source.char s.cursor.index ≠ 0x7b)
    (hclose : r.source.char s.cursor.index ≠ 0x7d) : Ensures punctuator r s fun _ t => Keeps r s t := by
  refine ensures_punctuator_of fun m tok t hm htok ht => ⟨?_, ht.isModule, ht.errors⟩
  obtain ⟨-, hat⟩ := hasAt_of_longestAt? hm
  have hne {w : String} {d : CodePoint} (hw : (Text.ofString w)[0]? = some d)
      (hd : r.source.char s.cursor.index ≠ d) : ¬ (Text.ofString m).is w := by
    intro h
    rw [Text.ofString_is.1 h, Source.not_hasAt_of_char_ne hw hd] at hat
    cases hat
  rw [ht.braces, htok, Lexeme.bracesAfter, if_neg (hne rfl hopen), if_neg (hne rfl hclose)]

theorem ensures_plainLex_keeps (hquote : r.source.char s.cursor.index ≠ 0x60)
    (hopen : r.source.char s.cursor.index ≠ 0x7b) (hclose : r.source.char s.cursor.index ≠ 0x7d) :
    Ensures plainLex r s fun _ t => Keeps r s t := by
  refine ensures_plainLex_of (Ensures.step_iff.2 (.refl _ _)) (fun _ => Steady.out _ _) (Steady.out _ _)
    (Steady.out _ _) (fun htemplate => ?_) (fun _ => Steady.out _ _) (ensures_punctuator_keeps hopen hclose)
  simp [hquote, hclose] at htemplate

/-- No token inside of a tag opens or closes a brace, but for one behind a hidden line. -/
theorem ensures_markupLex_braced : Ensures markupLex r s fun t u =>
    (Keeps r s u ∨ Braced r t.lexeme s u) ∧ (0 < s.cursor.index → Keeps r s u) := by
  have hsteady {m : Scan Token} [hm : Steady m] : Ensures m r s fun t u =>
      (Keeps r s u ∨ Braced r t.lexeme s u) ∧ (0 < s.cursor.index → Keeps r s u) :=
    (hm.out r s).mono fun _ _ hu => ⟨.inl hu, fun _ => hu⟩
  rw [markupLex, Ensures.step_bind, bind_iff, ensures_peek]
  intro _
  split
  · exact hsteady
  next hmark =>
  split
  · exact hsteady
  split
  · exact hsteady
  split
  · exact hsteady
  next hquote =>
  split
  · exact hsteady
  -- What is left is read as it is outside of tags.
  have hkeeps (hpos : 0 < s.cursor.index) : Ensures lex r s fun _ u => Keeps r s u := by
    simp only [lex, bind_iff, step_iff, ite_iff]
    refine ⟨fun hzero => ?_, fun _ => ensures_plainLex_keeps hquote ?_ ?_⟩
    · simp [Nat.pos_iff_ne_zero.1 hpos] at hzero
    all_goals
      intro hc
      simp [hc] at hmark
  intro t u ht
  exact ⟨.inr (ensures_lex_braced t u ht), fun hpos => hkeeps hpos t u ht⟩

end Scan

/-- The places where a parse looks behind the lookahead. -/
inductive Peek where
  /-- After `let`, for a declaration. -/
  | lexicalDeclaration
  /-- After `async`, for a function. -/
  | asyncFunction
  /-- After `import`, for a call. -/
  | importCall
  /-- After `import`, for metadata. -/
  | importMeta
  /-- Inside of a tag. -/
  | markup
  deriving DecidableEq, Repr, Inhabited

namespace Peek

/-- The token that is looked at. -/
def token : Peek → Parse Token
  | .markup => Grammar.peekMarkup
  | _ => peekBeyond

/-- Looks at the token, if there is any need to. -/
def look : Peek → Parse Unit
  | .lexicalDeclaration => discard Grammar.seesLexicalDeclaration
  | .asyncFunction => discard Grammar.seesAsyncFunction
  | .importCall => discard (Grammar.seesImportBefore "(")
  | .importMeta => discard (Grammar.seesImportBefore ".")
  | .markup => discard Grammar.peekMarkup

variable {c : ParseSetting} {s : ParseState}

/-- A look does nothing besides reading the token. -/
theorem ensures_look (p : Peek) : Ensures p.look c s fun _ t => t = s ∨ ∃ tok, p.token c s = .ok tok t := by
  have hbefore (mark : String) : Ensures (Grammar.seesImportBefore mark) c s fun _ t =>
      t = s ∨ ∃ tok, peekBeyond c s = .ok tok t := by
    simp only [Grammar.seesImportBefore, bind_iff, step_iff]
    split
    · simp only [bind_iff, step_iff]
      exact fun tok t ht => .inr ⟨tok, ht⟩
    · exact .pure (.inl rfl)
  cases p with
  | lexicalDeclaration =>
    simp only [look, Grammar.seesLexicalDeclaration, discard_iff, bind_iff, step_iff]
    exact fun tok t ht => .inr ⟨tok, ht⟩
  | asyncFunction =>
    simp only [look, Grammar.seesAsyncFunction, discard_iff, bind_iff, step_iff]
    split
    · simp only [bind_iff, step_iff]
      exact fun tok t ht => .inr ⟨tok, ht⟩
    · exact .pure (.inl rfl)
  | importCall => exact discard_iff.2 (hbefore "(")
  | importMeta => exact discard_iff.2 (hbefore ".")
  | markup => exact discard_iff.2 fun tok t ht => .inr ⟨tok, ht⟩

/-- Outside of tags, the token that is looked at opens and closes its braces. -/
theorem ensures_peekBeyond : Ensures peekBeyond c s fun tok t =>
    t = { s with scan := { s.scan with braces := t.scan.braces, errors := t.scan.errors } }
      ∧ (c.tolerant = false → t.scan.errors = s.scan.errors)
      ∧ t.scan.braces = tok.lexeme.bracesAfter s.scan.braces := by
  rw [peekBeyond, scan_iff, Scan.ensures_lookahead_iff, bind_iff, discard_iff]
  refine (Scan.Steady.out c.toSetting s.scan).mono fun _ t ht => ?_
  refine Scan.ensures_lex_braced.mono fun tok u hu => ?_
  have hbraced := ht.braced hu
  refine ⟨?_, hbraced.errors, hbraced.braces⟩
  simp only [hbraced.isModule]

/-- Inside of a tag it does not, unless the cursor is at the very start of the source. -/
theorem ensures_peekMarkup : Ensures Grammar.peekMarkup c s fun tok t =>
    t = { s with scan := { s.scan with braces := t.scan.braces, errors := t.scan.errors } }
      ∧ (c.tolerant = false → t.scan.errors = s.scan.errors)
      ∧ (t.scan.braces = s.scan.braces ∨ t.scan.braces = tok.lexeme.bracesAfter s.scan.braces)
      ∧ (0 < s.scan.cursor.index → t.scan.braces = s.scan.braces) := by
  rw [Grammar.peekMarkup, scan_iff, Scan.ensures_lookahead_iff, bind_iff, discard_iff]
  refine ((Scan.Steady.out c.toSetting s.scan).and Scan.ensures_trivia).mono fun _ t ⟨ht, hmoves, _⟩ => ?_
  refine Scan.ensures_markupLex_braced.mono fun tok u ⟨hu, hkeeps⟩ => ?_
  have hle := hmoves.le
  have hbraces (hpos : 0 < s.scan.cursor.index) : u.braces = s.scan.braces :=
    (ht.trans (hkeeps (Nat.lt_of_lt_of_le hpos hle))).braces
  rcases hu with hu | hu
  · have hsame := ht.trans hu
    refine ⟨?_, hsame.errors, .inl hsame.braces, hbraces⟩
    simp only [hsame.isModule]
  · have hbraced := ht.braced hu
    refine ⟨?_, hbraced.errors, .inr hbraced.braces, hbraces⟩
    simp only [hbraced.isModule]

/-- **A look behind the lookahead** leaves everything as it was, apart from braces and errors: braces only
as the token says that is looked at, which inside of a tag says nothing, and errors only if they are
tolerated. -/
theorem state_of_look (p : Peek) (c : ParseSetting) (s t : ParseState) (h : p.look c s = .ok () t) :
    t = { s with scan := { s.scan with braces := t.scan.braces, errors := t.scan.errors } }
      ∧ (c.tolerant = false → t.scan.errors = s.scan.errors)
      ∧ (t.scan.braces = s.scan.braces ∨ ∃ tok, p.token c s = .ok tok t
        ∧ t.scan.braces = tok.lexeme.bracesAfter s.scan.braces)
      ∧ (p = .markup → 0 < s.scan.cursor.index → t.scan.braces = s.scan.braces) := by
  rcases ensures_look p () t h with rfl | ⟨tok, htok⟩
  · exact ⟨rfl, fun _ => rfl, .inl rfl, fun _ _ => rfl⟩
  · by_cases hp : p = .markup
    · subst hp
      obtain ⟨hframe, herrors, hbraces, hmarkup⟩ := ensures_peekMarkup tok t htok
      exact ⟨hframe, herrors, hbraces.imp_right fun hafter => ⟨tok, htok, hafter⟩, fun _ => hmarkup⟩
    · have hbeyond : p.token = peekBeyond := by cases p <;> first | rfl | exact absurd rfl hp
      obtain ⟨hframe, herrors, hbraces⟩ := ensures_peekBeyond tok t (hbeyond ▸ htok)
      exact ⟨hframe, herrors, .inr ⟨tok, htok, hbraces⟩, fun hmarkup => absurd hmarkup hp⟩

/-- Before a name that is declared, a look leaves nothing behind. -/
theorem state_of_look_of_name :
    let source := Source.ofText "let a"
    let c : ParseSetting := ⟨⟨source, 2024, false⟩, false, false, .idle⟩
    ∃ s t, begin c (.start source) = .ok () s ∧ lexicalDeclaration.look c s = .ok () t
      ∧ t = { s with scan := { s.scan with braces := t.scan.braces, errors := t.scan.errors } }
      ∧ (c.tolerant = false → t.scan.errors = s.scan.errors)
      ∧ (t.scan.braces = s.scan.braces ∨ ∃ tok, lexicalDeclaration.token c s = .ok tok t
        ∧ t.scan.braces = tok.lexeme.bracesAfter s.scan.braces)
      ∧ (lexicalDeclaration = .markup → 0 < s.scan.cursor.index → t.scan.braces = s.scan.braces) := by
  intro source c
  have hrun : Yields begin c (.start source) fun _ s =>
      Yields lexicalDeclaration.look c s fun _ _ => true := by decide +kernel
  obtain ⟨_, s, hs, hlook⟩ := exists_of_yields hrun
  obtain ⟨_, t, ht, -⟩ := exists_of_yields hlook
  exact ⟨s, t, hs, ht, state_of_look lexicalDeclaration c s t ht⟩

/-- Before a pattern, a look leaves a brace open. -/
theorem braces_not_of_pattern :
    let source := Source.ofText "let {a} = b"
    let c : ParseSetting := ⟨⟨source, 2024, false⟩, false, false, .idle⟩
    ∃ s t, begin c (.start source) = .ok () s ∧ lexicalDeclaration.look c s = .ok () t
      ∧ s.scan.braces = [] ∧ t.scan.braces = [.block] := by
  intro source c
  have hrun : Yields begin c (.start source) fun _ s => Yields lexicalDeclaration.look c s
      fun _ t => s.scan.braces = [] ∧ t.scan.braces = [.block] := by decide +kernel
  obtain ⟨_, s, hs, hlook⟩ := exists_of_yields hrun
  obtain ⟨_, t, ht, hbraces⟩ := exists_of_yields hlook
  exact ⟨s, t, hs, ht, of_decide_eq_true hbraces⟩

end Peek

end EcmaSyntax
