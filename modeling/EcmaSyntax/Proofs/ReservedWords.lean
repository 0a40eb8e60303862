import EcmaSyntax.Proofs.Calls
import EcmaSyntax.Proofs.Names

/-!
# Words that only strict code reserves

Seven words are keywords in strict code and names elsewhere. Which of the two a word is gets decided
when it becomes the lookahead, by the strictness of the code at that call of `next`; nothing decides it
again when the word is given, one call later (`reserved_of_last_call`). So a word is taken for what it is
unless the code becomes strict, or ceases to be, between the two calls. It does so behind the body of a
class or of a strict function, behind a directive, and at the start of a module.
-/

namespace EcmaSyntax

open Parse

set_option synthInstance.maxSize 100000000000000

/-- The words that are reserved in strict code only. -/
def Word.strictOnly : List String :=
  ["implements", "interface", "package", "private", "protected", "public", "static"]

/-- They are no keywords at first, but strict code reserves them. -/
theorem Word.strictOnly_names : ∀ w ∈ strictOnly, Scan.nameLexeme w = .identifier w ∧ isStrictReserved w := by
  decide

/-- Is this spelled like a name, and is it a given word? -/
def Lexeme.isWord (l : Lexeme) (w : String) : Bool := l.isIdentifierName && l.reads w

namespace Scan

/-- Outside of strict code, such a word is a name. -/
theorem ensures_lex_word {r : Setting} {s : ScanState} : Ensures lex r s fun t _ =>
    ∀ w ∈ Word.strictOnly, t.lexeme.isWord w → t.lexeme = .identifier w := by
  refine (Naming.out r s).mono fun t _ ht w hw hword => ?_
  rw [Lexeme.isWord, Bool.and_eq_true] at hword
  cases ht (Lexeme.isNamed_of_isIdentifierName hword.1) with
  | @word name hreads =>
    have hname : some name = some (Text.ofString w) := by
      rw [← text?_nameLexeme, ← hreads.lexeme]
      exact eq_of_beq hword.2
    rw [hreads.lexeme, Option.some.inj hname]
    exact (Word.strictOnly_names w hw).1
  | privateName hlexeme => simp [hlexeme, Lexeme.isIdentifierName] at hword

end Scan

/-- In strict code, such a word is a keyword. -/
theorem Token.reserve_word {t : Token} (hw : w ∈ Word.strictOnly)
    (h : t.lexeme = .identifier w) : t.reserve.lexeme = .keyword w := by
  simp [Token.reserve, h, (Word.strictOnly_names w hw).2]

/-- What is reserved is spelled as before. -/
theorem Token.isWord_of_reserve {t : Token} (h : t.reserve.lexeme.isWord w) : t.lexeme.isWord w := by
  unfold Token.reserve at h
  split at h
  · next name hname =>
    split at h
    · rw [hname]
      exact h
    · exact h
  · exact h

/-- Such a word is what it has to be in the code of the last call. -/
def Sorted (last : Option ParseState) (l : Lexeme) : Prop :=
  ∀ w ∈ Word.strictOnly, l.isWord w → ∃ s, last = some s ∧ l = if s.context.strict then .keyword w else .identifier w

namespace Sorted

variable {c : ParseSetting} {s : ParseState} {last : Option ParseState} {l : Lexeme}

theorem of_not_isWord (h : ∀ w, l.isWord w = false) : Sorted last l := fun w _ hw => by simp [h] at hw

/-- The lookahead is sorted when it is read. -/
theorem ensures_next : Ensures next c s fun _ t => Sorted (some s) t.lookahead.lexeme := by
  refine Parse.ensures_next (.always fun _ t u hu => ?_)
  obtain ⟨es, -, rfl⟩ := hu
  refine Scan.ensures_lex_word.mono fun found _ hfound _ _ w hw hword => ⟨s, rfl, ?_⟩
  cases hstrict : s.context.strict with
  | false =>
    simp only [hstrict, Bool.false_eq_true, if_false] at hword ⊢
    exact hfound w hw hword
  | true =>
    simp only [hstrict, if_true] at hword ⊢
    exact found.reserve_word hw (hfound w hw (Token.isWord_of_reserve hword))

/-- Between two calls it stays as it is, or no word is left. -/
theorem ensures_between (h : Sorted last s.lookahead.lexeme)
    (hp : Between c s p) : Ensures p c s fun _ t => Sorted last t.lookahead.lexeme := by
  refine hp.ensures_lookahead.mono fun _ t ht => ?_
  rcases ht with heq | ⟨-, hname⟩
  · rw [heq]
    exact h
  · exact of_not_isWord fun w => by rw [Lexeme.isWord, hname, Bool.false_and]

end Sorted

namespace Grammar

/-- **A reserved word is what it has to be in the code of the call before.** In a run of any program,
if a call of `next` gives a word that only strict code reserves, then a call came before it, and the
word is a keyword if the code was strict at that call, and a name otherwise. -/
theorem reserved_of_last_call (isModule : Bool) (c : ParseSetting) :
    (∃ calls, Calls c (program isModule) (.start c.source) calls)
      ∧ ∀ before s after, Calls c (program isModule) (.start c.source) (before ++ s :: after) →
        ∀ t u, next c s = .ok t u → ∀ w ∈ Word.strictOnly, t.lexeme.isWord w → ∃ last, before.getLast? = some last
            ∧ t.lexeme = if last.context.strict then .keyword w else .identifier w := by
  refine ⟨Stepwise.out _, fun before s after hcalls t u hnext w hw hword => ?_⟩
  have hstart : Sorted none (ParseState.start c.source).lookahead.lexeme := .of_not_isWord fun _ => rfl
  have hlinked := hcalls.linked (I := fun last s => Sorted last s.lookahead.lexeme)
    (fun hp h => h.ensures_between hp) (fun _ => Sorted.ensures_next) none hstart
  rw [ensures_next_eq c s t u hnext] at hword ⊢
  obtain ⟨last, hlast, hsorted⟩ := hlinked.1.of_append w hw hword
  exact ⟨last, by simpa using hlast, hsorted⟩

/-- Does a script start with a switch, and does a test hold behind what it switches over? -/
def switchHead (c : ParseSetting) (test : ParseState → Bool) : Bool :=
  let depth := depthOf c.source
  Yields begin c (.start c.source) fun _ s =>
    Yields (directives (run depth)) c s fun _ t =>
      t.lookahead.lexeme = .keyword "switch" && Yields (expectKeyword "switch") c
          { t with context := { t.context with isTarget := true, isBinding := true } } fun _ u =>
            Yields (expect "(") c u fun _ v =>
              Yields (expression (run (depth - 1))) c v fun _ w => test w

section

variable {c : ParseSetting} {r : Recur} [Recur.Stepwise c r] {s t u v : ParseState} {e : Node}

theorem callsAt_switchStatement (hword : expectKeyword "switch" c s = .ok () t)
    (hopen : expect "(" c t = .ok () u) (he : expression r c u = .ok e v) :
    CallsAt c (switchStatement r) s v :=
  .later rfl <| .later hword <| .later hopen <| .later he <|
    .first (.first (.next v) fun _ => inferInstance) fun _ => inferInstance

omit [Recur.Stepwise c r] in
theorem callsAt_item (hlex : s.lookahead.lexeme = .keyword "switch") (h : CallsAt c (switchStatement r)
      { s with context := { s.context with isTarget := true, isBinding := true } } v) :
    CallsAt c (item r) s v := by
  have hother (w : String) (hw : w ≠ "switch") : s.lookahead.lexeme.isKeyword w = false := by
    rw [hlex]
    exact Bool.eq_false_iff.2 fun his => hw (Text.ofString_is.1 his).symm
  refine .later rfl <| .later rfl <| .later rfl ?_
  iterate 6 rw [if_neg (by rw [hother _ (by decide)]; decide)]
  refine .later rfl ?_
  rw [hlex]
  exact h

end

/-- The closing parenthesis of a switch is expected with a call. -/
theorem callsAt_program_of_switchHead
    (h : switchHead c test) : ∃ s, CallsAt c (program false) (.start c.source) s ∧ test s := by
  obtain ⟨_, s, hbegin, h⟩ := exists_of_yields h
  obtain ⟨_, t, hdirectives, h⟩ := exists_of_yields h
  rw [Bool.and_eq_true, decide_eq_true_eq] at h
  obtain ⟨hlex, h⟩ := h
  obtain ⟨_, u, hword, h⟩ := exists_of_yields h
  obtain ⟨_, v, hopen, h⟩ := exists_of_yields h
  obtain ⟨e, w, he, htest⟩ := exists_of_yields h
  have hitem : CallsAt c (run (depthOf c.source)).item t w :=
    callsAt_item hlex (callsAt_switchStatement hword hopen he)
  have hend : seesEnd c t = .ok (decide (t.lookahead.lexeme = .eof)) t := rfl
  rw [hlex] at hend
  have hbody : CallsAt c (programBody (run (depthOf c.source))) s w :=
    .later hdirectives (.first (.manyUntil hend hitem) fun _ => inferInstance)
  exact ⟨w, .later hbegin (.later rfl (.later rfl (.first hbody fun _ => inferInstance))), htest⟩

/-- A word in strict code, read and given there. -/
theorem reserved_of_last_call_of_directive :
    let source := Source.ofText "'use strict';switch(a public)"
    let c : ParseSetting := ⟨⟨source, 2024, false⟩, false, false, .idle⟩
    ∃ before s after t u, Calls c (program false) (.start source) (before ++ s :: after)
      ∧ next c s = .ok t u ∧ t.lexeme.isWord "public" ∧ s.context.strict
      ∧ ∃ last, before.getLast? = some last
        ∧ t.lexeme = if last.context.strict then .keyword "public" else .identifier "public" := by
  intro source c
  have hhead : switchHead c fun s => s.context.strict && Yields next c s fun t _ => t.lexeme.isWord "public" := by
    decide +kernel
  obtain ⟨s, ⟨before, after, hcalls⟩, hs⟩ := callsAt_program_of_switchHead hhead
  rw [Bool.and_eq_true] at hs
  obtain ⟨t, u, hnext, hword⟩ := exists_of_yields hs.2
  exact ⟨before, s, after, t, u, hcalls, hnext, hword, hs.1, (reserved_of_last_call false c).2 before s
    after hcalls t u hnext "public" (by decide) hword⟩

/-- Behind a class, a word is given as a keyword though the code is not strict. -/
theorem reserved_behind_class :
    let source := Source.ofText "switch(class\x7b\x7dpublic)"
    let c : ParseSetting := ⟨⟨source, 2024, false⟩, false, false, .idle⟩
    ∃ before s after t u, Calls c (program false) (.start source) (before ++ s :: after)
      ∧ next c s = .ok t u ∧ t.lexeme = .keyword "public" ∧ s.context.strict = false := by
  intro source c
  have hhead : switchHead c fun s => !s.context.strict
      && Yields next c s fun t _ => t.lexeme = .keyword "public" := by
    decide +kernel
  obtain ⟨s, ⟨before, after, hcalls⟩, hs⟩ := callsAt_program_of_switchHead hhead
  rw [Bool.and_eq_true, Bool.not_eq_true'] at hs
  obtain ⟨t, u, hnext, hword⟩ := exists_of_yields hs.2
  exact ⟨before, s, after, t, u, hcalls, hnext, of_decide_eq_true hword, hs.1⟩

end Grammar

end EcmaSyntax
