import EcmaSyntax.Proofs.Places
import EcmaSyntax.Proofs.Run
import EcmaSyntax.Proofs.Unfolds

namespace EcmaSyntax

open Cursor
open Ensures (bind_iff step_iff throw_iff)

variable {Q : Unit → ScanState → Prop} {c : Cursor} {i : Nat} {test : CodePoint → Bool} {cause : Cause}
  {l : Lexeme} {src : Source} {quote : CodePoint}

/-! ### Steps of a scan -/

/-- Whatever else is allowed, a source may be refused. -/
class Refusing (E : Failure → Prop) : Prop where
  refused (e : SyntaxError) : E (.refused e)

/-- Where it does not matter how a run fails. -/
instance : Refusing fun _ => True := ⟨fun _ => trivial⟩

@[simp] theorem Ensures.ite_iff [Decidable p] {Q : α → σ → Prop} :
    Ensures (if p then m else m') r s Q ↔ (p → Ensures m r s Q) ∧ (¬ p → Ensures m' r s Q) := by
  split <;> simp [*]

namespace Scan

variable {α β : Type} {E : Failure → Prop} {r : Setting} {s : ScanState} {k : Nat} {c' : Cursor} {m : Scan α} {q : Quoted}
  {e : EntityText}

/-- Looking ahead fails past the end. -/
@[simp] theorem ensures_peek {Q : CodePoint → ScanState → Prop} : Ensures (peek k) r s Q
      ↔ (s.cursor.index + k ≤ r.source.size → Q (r.source.char (s.cursor.index + k)) s) := by
  simp only [peek, bind_iff, step_iff]
  split
  · next h => simp [Nat.not_le.2 h]
  · next h => simp [Nat.not_lt.1 h]

@[simp] theorem ensures_take {Q : CodePoint → ScanState → Prop} :
    Ensures take r s Q ↔ (s.cursor.index ≤ r.source.size →
      Q (r.source.char s.cursor.index) { s with cursor := s.cursor.advance 1 }) := by
  simp only [take, bind_iff, ensures_peek, step_iff, Nat.add_zero]

/-- Past a line terminator that was just read, the cursor is where `Cursor.passTerminator` puts it. -/
theorem ensures_endLine (hc : s.cursor = c.advance 1) : Ensures (endLine (r.source.char c.index)) r s Q
      ↔ (c.index + 1 ≤ r.source.size → Q () { s with cursor := c.passTerminator r.source }) := by
  have hnext : s.cursor.nextLine (if r.source.char c.index = 0x0d && r.source.char (c.index + 1) = 0x0a
      then 1 else 0) = c.passTerminator r.source := by
    simp only [hc, nextLine, Cursor.advance, passTerminator, Source.terminatorLength]
    split <;> rfl
  simp only [endLine, bind_iff, ensures_peek, step_iff, Nat.add_zero]
  rw [← hnext, hc]
  rfl

@[simp] theorem ensures_refuse {Q : α → ScanState → Prop} : Ensures (refuse cause) r s Q ↔ True := by
  simp [refuse, errorHere]

/-- Recording an error only changes the list of errors. -/
theorem ensures_tolerate (h : ∀ errors, Q () { s with errors }) : Ensures (tolerate cause) r s Q := by
  simp only [tolerate, errorHere, bind_iff, step_iff]
  split
  · exact .modify (h _)
  · exact throw_iff.2 trivial

@[simp] theorem ensures_require : Ensures (require condition f) r s Q ↔ (condition → Q () s) := by
  cases condition <;> simp [require]

theorem ensures_loop {body : τ → Scan (Round τ β)} {I : τ → ScanState → Prop}
    {Q : β → ScanState → Prop} {x : τ} (hx : I x s)
    (hbody : ∀ x s, I x s → Ensures (body x) r s (Round.Holds I Q)) : Ensures (loop body x) r s Q := by
  exact Ensures.rounds hbody _ x s hx

/-- Looking ahead past the end is a fault. -/
@[simp] theorem meets_peek {Q : CodePoint → ScanState → Prop} (hk : s.cursor.index + k ≤ r.source.size) :
    Meets E (peek k) r s Q ↔ Q (r.source.char (s.cursor.index + k)) s := by
  simp only [peek, Meets.bind_iff, Meets.step_iff, if_neg (Nat.not_lt.2 hk)]

theorem meets_peekHere {Q : CodePoint → ScanState → Prop} (h : s.cursor.index ≤ r.source.size) :
    Meets E (peek 0) r s Q ↔ Q (r.source.char s.cursor.index) s :=
  meets_peek h

@[simp] theorem meets_take {Q : CodePoint → ScanState → Prop} (h : s.cursor.index ≤ r.source.size) :
    Meets E take r s Q ↔
      Q (r.source.char s.cursor.index) { s with cursor := s.cursor.advance 1 } := by
  simp [take, meets_peek (k := 0) h]

@[simp] theorem meets_refuse [hE : Refusing E] {Q : α → ScanState → Prop} : Meets E (refuse cause) r s Q ↔ True :=
  iff_true_intro (hE.refused _)

theorem meets_tolerate [hE : Refusing E] (h : ∀ errors, Q () { s with errors }) : Meets E (tolerate cause) r s Q := by
  simp only [tolerate, errorHere, Meets.bind_iff, Meets.step_iff]
  split
  · exact h _
  · exact hE.refused _

@[simp] theorem meets_require {condition : Bool} {f : Fault}
    (h : condition) : Meets E (require condition f) r s Q ↔ Q () s := by
  simp [require, h]

/-- A loop ends if each of its rounds that asks for another one moves the cursor on, and the cursor
never gets past the place behind the end. -/
theorem meets_loop {I : τ → ScanState → Prop} {Q : β → ScanState → Prop} (hx : I x s)
    (hbound : ∀ x s, I x s → s.cursor.index ≤ r.source.size + 1) (hbody : ∀ x s, I x s → Meets E (body x) r s
      (Round.Holds (fun y t => I y t ∧ s.cursor.index < t.cursor.index) Q)) :
    Meets E (loop body x) r s Q := by
  refine Meets.rounds (N := fun t => r.source.size + 1 - t.cursor.index)
    (fun y t ht => (hbody y t ht).mono fun z u hu => ?_) _ x s hx (by omega)
  cases z with
  | again y' =>
    have := hbound y' u hu.1
    exact ⟨hu.1, by have := hu.2; omega⟩
  | done b => exact hu

/-! ### Tokens -/

/-- A token is what was read from one cursor to another. -/
structure Covers (s : Source) (c c' : Cursor) (t : Token) : Prop where
  moves : Moves s c c'
  start : t.start = c.index
  stop : t.stop = c'.index
  line : t.line = c'.line
  lineStart : t.lineStart = c'.lineStart
  /-- A closing brace is one code point. -/
  brace : t.lexeme.isMark "\x7d" → s.char c.index = 0x7d ∧ c'.index = c.index + 1
  slash : t.lexeme.isMark "/" ∨ t.lexeme.isMark "/=" → s.char c.index = 0x2f
  /-- Only strings and templates go over several lines. -/
  quoted : s.SameLine c.index c'.index ∨ s.char c.index ∈ [0x22, 0x27, 0x60, 0x7d]

/-- The token that ends here is no mark. -/
theorem Covers.ofMoves (h : Moves src c c')
    (hquoted : src.SameLine c.index c'.index ∨ src.char c.index ∈ [0x22, 0x27, 0x60, 0x7d])
    (hl : l.isPunctuator = false) : Covers src c c' ⟨l, c.index, c'.index, c'.line, c'.lineStart⟩ := by
  have hmark (m : String) : l.isMark m = false := by
    cases l <;> simp_all [Lexeme.isMark, Lexeme.isPunctuator]
  exact ⟨h, rfl, rfl, rfl, rfl, by simp [hmark], by simp [hmark], hquoted⟩

/-- The token that ends here is no mark, and was read on one line. -/
theorem Covers.ofGlides (h : Glides src c c') (hl : l.isPunctuator = false) :
    Covers src c c' ⟨l, c.index, c'.index, c'.line, c'.lineStart⟩ :=
  .ofMoves h.moves (.inl h.sameLine) hl

theorem nameLexeme_isPunctuator (name : Text) : (nameLexeme name).isPunctuator = false := by
  unfold nameLexeme
  repeat' split
  all_goals rfl

theorem hasAt_of_longestAt? {m : String} (h : Punctuator.longestAt? src edition i = some m) :
    (∃ since, (m, since) ∈ Punctuator.marks) ∧ src.hasAt i m := by
  obtain ⟨⟨m', since⟩, hfind, rfl⟩ := Option.map_eq_some_iff.1 h
  have hstands := List.find?_some hfind
  simp only [Punctuator.standsAt, Bool.and_eq_true] at hstands
  exact ⟨⟨since, List.mem_of_find?_eq_some hfind⟩, hstands.2.1⟩

theorem isSolid_marks : ∀ p ∈ Punctuator.marks, ∀ d ∈ Text.ofString p.1, CodePoint.isSolid d := by
  decide +kernel

/-- No comment starts at an offset. -/
def Settled (src : Source) (i : Nat) : Prop := ¬ src.hasAt i "//" ∧ ¬ src.hasAt i "/*"

theorem settled_of_size_le (h : src.size ≤ i) : Settled src i := by
  constructor
  all_goals
    intro hat
    have := Source.size_of_hasAt hat (by decide)
    change i + 2 ≤ src.size at this
    omega

/-- Neither white space nor a comment is found where another code point stands than those that they
start with. -/
theorem ensures_trivia_still (hspace : CodePoint.isWhiteSpace (r.source.char s.cursor.index) = false)
    (hline : CodePoint.isLineTerminator (r.source.char s.cursor.index) = false)
    (hsettled : Settled r.source s.cursor.index)
    (harrow : r.source.char s.cursor.index ≠ 0x2d) (hopen : r.source.char s.cursor.index ≠ 0x3c) :
    Ensures trivia r s fun _ t => t.cursor = s.cursor := by
  simp only [trivia, bind_iff, step_iff]
  refine ensures_loop (I := fun _ t => t = s) rfl fun x t ht => ?_
  subst ht
  have hnone {w : String} {d : CodePoint} (hw : (Text.ofString w)[0]? = some d)
      (hd : r.source.char t.cursor.index ≠ d) : r.source.hasAt t.cursor.index w = false :=
    Source.not_hasAt_of_char_ne hw hd
  simp [triviaRound, Round.Holds, hspace, hline, Bool.eq_false_iff.2 hsettled.1,
    Bool.eq_false_iff.2 hsettled.2, hnone (w := "-->") rfl harrow, hnone (w := "<!--") rfl hopen]

/-- A token is of one of seven sorts, by the code point at the cursor. -/
theorem ensures_plainLex_of {Q : Token → ScanState → Prop} (heof : Ensures (token s.cursor.index .eof) r s Q)
    (hname : CodePoint.isIdentifierStart (r.source.char s.cursor.index) → Ensures identifier r s Q)
    (hstring : Ensures stringLiteral r s Q) (hnumber : Ensures numericLiteral r s Q)
    (htemplate : r.source.char s.cursor.index = 0x60 ∨ r.source.char s.cursor.index = 0x7d
      ∧ s.braces.head? = some .substitution → Ensures template r s Q)
    (hprivate : r.source.char s.cursor.index = 0x23 → Ensures privateName r s Q)
    (hmark : Ensures punctuator r s Q) : Ensures plainLex r s Q := by
  simp [plainLex]
  exact ⟨fun _ => step_iff.1 heof, fun _ _ => ⟨hname, fun _ => ⟨fun _ => hstring, fun _ _ =>
    ⟨fun _ _ => ⟨fun _ => hnumber, fun _ => hmark⟩, fun _ => ⟨fun _ => hnumber, fun _ =>
      ⟨htemplate, fun _ _ => ⟨fun hsign _ => hprivate hsign, fun _ => hmark⟩⟩⟩⟩⟩⟩⟩

end Scan

end EcmaSyntax
