import EcmaSyntax.Proofs.Arrows.Resolved
import EcmaSyntax.Proofs.Calls
import EcmaSyntax.Proofs.Lookahead

/-!
# Productions at an arrow

Nothing starts with an arrow, and nothing but parameters goes on with one. So a production that is run
where the lookahead is an arrow reads no token: it ends where it is, or it is refused (`Stalls`).
-/

namespace EcmaSyntax

open Parse
open Ensures (bind_iff step_iff step_bind throw_iff map_iff ite_iff scan_iff)

variable {m w : String} {b : Bool}

/-! ### Where an arrow stands -/

theorem Setting.char_of_arrow {r : Setting} (h : r.source.hasAt (r.tokenStart i) "=>") :
    r.source.char i = 0x3d ∨ r.source.char i = 0x23 := by
  rw [Setting.tokenStart] at h
  split at h
  · next hhidden =>
    obtain ⟨rfl, hat, -⟩ := hhidden
    exact .inr (Source.char_zero_of_hidden hat)
  · exact .inl (Option.some.inj (Source.char_of_hasAt (k := 0) h (by decide))).symm

namespace Scan

variable {r : Setting} {s : ScanState}

/-- The text of a punctuator stands where it was found. -/
theorem ensures_lex_hasAt :
    Ensures lex r s fun t _ => t.lexeme.isMark w → r.source.hasAt (r.tokenStart s.cursor.index) w :=
  ensures_lex_mark.mono fun _ _ ht h => (hasAt_of_longestAt? (ht w h)).2

/-- No brace closes where an arrow stands. -/
theorem ensures_markupLex_arrow (h : r.source.hasAt (r.tokenStart s.cursor.index) "=>") :
    Ensures markupLex r s fun t _ => t.lexeme.isMark "\x7d" = false := by
  have hlex : Ensures lex r s fun t _ => t.lexeme.isMark "\x7d" = false := by
    refine (ensures_lex_hasAt (w := "\x7d")).mono fun t _ ht => Bool.eq_false_iff.2 fun hmark => ?_
    have hbrace := Source.char_of_hasAt (k := 0) (ht hmark) (by decide)
    rw [← Source.char_of_hasAt h (by decide)] at hbrace
    cases hbrace
  rcases Setting.char_of_arrow h with hchar | hchar
  · simp only [markupLex, bind_iff, step_iff, ensures_peek, Nat.add_zero, hchar, ite_iff]
    exact fun _ => ⟨fun _ => rfl, fun hne => absurd rfl hne⟩
  · have hname : CodePoint.isIdentifierStart 0x23 = false := by decide
    simpa [markupLex, hchar, hname] using fun _ => hlex

end Scan

/-- The lookahead is an arrow, and it stands in the source. -/
structure AtArrow (c : ParseSetting) (s : ParseState) : Prop where
  mark : s.lookahead.lexeme.isMark "=>"
  place : c.source.hasAt (c.toSetting.tokenStart s.startMark.index) "=>"

namespace AtArrow

variable {c : ParseSetting} {s t : ParseState}

theorem of_kept (h : AtArrow c s) (hk : Kept s t) : AtArrow c t := by
  refine ⟨?_, ?_⟩
  · rw [hk.lookahead]
    exact h.mark
  · rw [hk.startMark]
    exact h.place

theorem inContext (h : AtArrow c s) (b : Context) : AtArrow c { s with context := b } := ⟨h.mark, h.place⟩

end AtArrow

/-- In strict code, punctuators are what they are. -/
theorem Token.isMark_reserve (t : Token) (w : String) : t.reserve.lexeme.isMark w = t.lexeme.isMark w := by
  unfold Token.reserve
  split
  · next name hname =>
    split
    · rw [hname]
      rfl
    · rfl
  · rfl

namespace Parse

variable {c : ParseSetting} {s : ParseState} {Q : Unit → ParseState → Prop}

/-- An arrow that was read as the lookahead stands in the source. -/
theorem ensures_next_arrow : Ensures next c s fun _ t => t.lookahead.lexeme.isMark "=>" → AtArrow c t := by
  refine ensures_next (.always fun _ t u hu => ?_)
  have hscan : u.scan = t := by
    obtain ⟨es, -, rfl⟩ := hu
    rfl
  have hstart : (startNow u).index = t.cursor.index := by
    rw [← hscan]
    unfold startNow
    split
    · next h => exact h.symm
    · rfl
  refine (Scan.ensures_lex_hasAt (w := "=>")).mono fun found t' hfound newline tokens hmark => ⟨hmark, ?_⟩
  rw [hstart]
  refine hfound ?_
  split at hmark
  · rwa [Token.isMark_reserve] at hmark
  · exact hmark

/-- No brace is read where an arrow stands. -/
theorem ensures_expectMarkup_arrow (h : c.source.hasAt (c.toSetting.tokenStart s.scan.cursor.index) "=>") :
    Ensures (Grammar.expectMarkup "\x7d") c s Q := by
  have hchar := Setting.char_of_arrow h
  have hslash {w : String} (hw : (Text.ofString w)[0]? = some 0x2f) : ¬ c.source.hasAt s.scan.cursor.index w := by
    rw [Source.not_hasAt_of_char_ne hw (by rcases hchar with hchar | hchar <;> rw [hchar] <;> decide)]
    exact Bool.false_ne_true
  have hstill : Ensures Scan.trivia c.toSetting s.scan fun _ t => t.cursor = s.scan.cursor := by
    refine Scan.ensures_trivia_still ?_ ?_ ⟨hslash rfl, hslash rfl⟩ ?_ ?_
    all_goals
      rcases hchar with hchar | hchar <;> (rw [hchar]; decide)
  rw [Grammar.expectMarkup, Grammar.nextMarkup, Grammar.markToken, bind_iff, bind_iff]
  refine ensures_passTrivia (hstill.mono fun _ t ht u hu => ?_)
  obtain ⟨es, -, rfl⟩ := hu
  simp only [bind_iff, step_iff, scan_iff]
  refine (Scan.ensures_markupLex_arrow (by rw [ht]; exact h)).mono fun token t' htoken => ?_
  simp only [htoken]
  exact ensures_unexpected

/-- Markup does not go on where an arrow stands. -/
theorem ensures_reenterMarkup_arrow (h : AtArrow c s) : Ensures Grammar.reenterMarkup c s Q := by
  simp only [Grammar.reenterMarkup, Grammar.enterMarkup, bind_iff, step_iff, scan_iff]
  exact ensures_expectMarkup_arrow h.place

end Parse

/-! ### What is seen at an arrow -/

/-- An error ends the run, and nobody changes a node. -/
class Exacting (c : ParseSetting) : Prop where
  idle : c.delegate = .idle
  tolerant : c.tolerant = false

/-- A mark that is no arrow. -/
class Differs (m : String) : Prop where
  out : m ≠ "=>"

instance : Differs "," := ⟨by decide⟩
instance : Differs ";" := ⟨by decide⟩
instance : Differs ":" := ⟨by decide⟩
instance : Differs "." := ⟨by decide⟩
instance : Differs "?" := ⟨by decide⟩
instance : Differs "?." := ⟨by decide⟩
instance : Differs "(" := ⟨by decide⟩
instance : Differs ")" := ⟨by decide⟩
instance : Differs "[" := ⟨by decide⟩
instance : Differs "]" := ⟨by decide⟩
instance : Differs "\x7b" := ⟨by decide⟩
instance : Differs "\x7d" := ⟨by decide⟩
instance : Differs "*" := ⟨by decide⟩
instance : Differs "**" := ⟨by decide⟩
instance : Differs "<" := ⟨by decide⟩

theorem Lexeme.eq_punctuator {l : Lexeme} (h : l.isMark m) : l = .punctuator m := by
  cases l with
  | punctuator t => exact congrArg Lexeme.punctuator (beq_iff_eq.1 h)
  | _ => cases h

/-- A token that is an arrow. -/
structure ArrowToken where
  get : Token
  arrow : get.lexeme.isMark "=>"

/-- The value of a condition. -/
class Settles (b : Bool) (value : outParam Bool) : Prop where
  out : b = value

namespace Settles

variable {a value : Bool}

instance : Settles false false := ⟨rfl⟩
instance [h : Settles a false] : Settles (!a) true := ⟨by rw [h.out]; rfl⟩
instance [h : Settles a false] : Settles (a && b) false := ⟨by rw [h.out, Bool.false_and]⟩
instance [h : Settles b false] : Settles (a && b) false := ⟨by rw [h.out, Bool.and_false]⟩
instance [h : Settles a false] [h' : Settles b value] : Settles (a || b) value := ⟨by rw [h.out, h'.out, Bool.false_or]⟩

section

variable {t : ArrowToken}

theorem ofArrow (test : Lexeme → Bool) (h : test (.punctuator "=>") = value) :
    Settles (test t.get.lexeme) value := by
  rw [Lexeme.eq_punctuator t.arrow]
  exact ⟨h⟩

theorem isMark_arrow [h : Differs m] : (Lexeme.punctuator "=>").isMark m = false :=
  Bool.eq_false_iff.2 fun hm => h.out (Text.ofString_is.1 hm).symm

instance [Differs m] : Settles (t.get.lexeme.isMark m) false := ofArrow (·.isMark m) isMark_arrow
instance : Settles (t.get.lexeme.isKeyword w) false := ofArrow (·.isKeyword w) rfl
instance : Settles (t.get.lexeme.isName w) false := ofArrow (·.isName w) rfl
instance : Settles t.get.lexeme.isIdentifier false := ofArrow _ rfl
instance : Settles t.get.lexeme.isString false := ofArrow _ rfl
instance : Settles t.get.lexeme.isTemplate false := ofArrow _ rfl
instance : Settles t.get.lexeme.isTemplateHead false := ofArrow _ rfl
instance : Settles (decide (t.get.lexeme = .eof)) false := ofArrow (fun l => decide (l = .eof)) rfl

end

end Settles

/-- At an arrow, a step tells a value and does nothing else. -/
class Tells (c : ParseSetting) {α : Type} (p : Parse α) (value : outParam α) : Prop where
  out {s : ParseState} : AtArrow c s → p c s = .ok value s

namespace Tells

variable {c : ParseSetting} {α β : Type} {x : α} {y : β}

instance : Tells c (pure x : Parse α) x := ⟨fun _ => rfl⟩
instance : Tells c (read : Parse ParseSetting) c := ⟨fun _ => rfl⟩

instance {f : α → Parse β} [hp : Tells c p x] [hf : Tells c (f x) y] : Tells c (p >>= f) y :=
  ⟨fun h => by rw [bind_apply, hp.out h]; exact hf.out h⟩

theorem ofPeek {f : Token → α} (h : ∀ t : ArrowToken, f t.get = x) : Tells c (do return f (← peek)) x :=
  ⟨fun {s} hs => congrArg (EStateM.Result.ok · s) (h ⟨s.lookahead, hs.mark⟩)⟩

instance {m n : Parse α} [hb : Settles b false] [hn : Tells c n x] :
    Tells c (if b = true then m else n) x := by
  rw [hb.out]
  exact hn

instance [Differs m] : Tells c (sees m) false := ofPeek fun _ => Settles.out
instance [Differs m] : Tells c (accept m) false := by unfold accept; infer_instance
instance : Tells c (seesKeyword w) false := ofPeek fun _ => Settles.out
instance : Tells c (seesName w) false := ofPeek fun _ => Settles.out
instance : Tells c seesEnd false := ofPeek fun _ => Settles.out
instance : Tells c (since year) (year ≤ c.edition) := by unfold since; infer_instance

theorem ofMarks (h : "=>" ∉ marks) : Tells c (seesAny marks) false :=
  ofPeek fun t => List.any_eq_false.2 fun m hm => by
    rw [Lexeme.eq_punctuator t.arrow]
    exact fun his => h (Text.ofString_is.1 his ▸ hm)

instance : Tells c (seesKeywords words) false :=
  ofPeek fun t => List.any_eq_false.2 fun w _ => by
    rw [Lexeme.eq_punctuator t.arrow]
    exact Bool.false_ne_true

end Tells

/-! ### Productions -/

/-- A production that is run at an arrow leaves it where it is, if it is not refused there. With `False` for
`q`, it is refused. -/
class Stalls (q : Prop) (c : ParseSetting) {α : Type} (p : Parse α) : Prop where
  out {s : ParseState} : AtArrow c s → Ensures p c s fun _ t => q ∧ AtArrow c t

/-- So does a production that goes on with a result. -/
class StallsWith (q : Prop) (c : ParseSetting) {α β : Type} (f : α → Parse β) : Prop where
  out (x : α) : Stalls q c (f x)

namespace Stalls

variable {q : Prop} {c : ParseSetting} {α β γ : Type} {p : Parse α} {f : α → Parse β} {n : Parse α} {x : α}
  {stop : Parse Bool}

theorem kept (h : ∀ s, Ensures p c s fun _ t => Kept s t) : Stalls True c p :=
  ⟨fun {s} hs => (h s).mono fun _ _ ht => ⟨trivial, hs.of_kept ht⟩⟩

instance (priority := low) [h : Quiet true p] : Stalls True c p := kept fun s => h.kept c s

theorem anyway (h : Stalls False c p) : Stalls q c p :=
  ⟨fun hs => (h.out hs).mono fun _ _ ht => ht.1.elim⟩

instance {n : Node} : Stalls True c (log isComment n span) :=
  ⟨fun hs => step_iff.2 (by exact ⟨trivial, hs.mark, hs.place⟩)⟩
instance {n : Node} : Stalls True c (finish start n) :=
  ⟨fun {s} hs => by
    rw [finish, step_bind]
    exact out hs⟩

instance (priority := 50) [u : Unfolds p p'] [h : Stalls q c p'] : Stalls q c p := u.eq ▸ h

instance : Stalls q c (unexpected t : Parse α) := ⟨fun _ => ensures_unexpected⟩

/-! #### Sequences and choices -/

instance (priority := low) [h : ∀ x, Stalls q c (f x)] : StallsWith q c f := ⟨h⟩

-- Pairs are taken apart, so that a production that matches on one goes on with its parts.
instance {f : α × γ → Parse β} [h : ∀ x, StallsWith q c fun y => f (x, y)] : StallsWith q c f :=
  ⟨fun x => (h x.1).out x.2⟩

theorem seq [hp : Stalls True c p] (hf : ∀ x, Stalls q c (f x)) : Stalls q c (p >>= f) :=
  ⟨fun hs => (hp.out hs).bind fun x _ ht => (hf x).out ht.2⟩

instance (priority := 900) [hp : Stalls True c p] [hf : StallsWith q c f] : Stalls q c (p >>= f) := seq hf.out

/-- What comes after a refusal is never run. -/
instance (priority := 950) [hp : Stalls False c p] : Stalls q c (p >>= f) :=
  ⟨fun hs => (hp.out hs).bind fun _ _ ht => ht.1.elim⟩

instance ofTells [hp : Tells c p x] [hf : Stalls q c (f x)] : Stalls q c (p >>= f) :=
  ⟨fun {s} hs => by
    rw [Ensures, bind_apply, hp.out hs]
    exact hf.out hs⟩

theorem ofPeek {f : Token → Parse β} (hf : ∀ t : ArrowToken, Stalls q c (f t.get)) : Stalls q c (peek >>= f) :=
  ⟨fun {s} hs => step_bind.2 ((hf ⟨s.lookahead, hs.mark⟩).out hs)⟩

instance {f : Token → Parse β} [hf : ∀ t : ArrowToken, Stalls q c (f t.get)] : Stalls q c (peek >>= f) := ofPeek hf

instance {f : α → β} [Stalls q c p] : Stalls q c (f <$> p) :=
  ⟨fun hs => map_iff.2 (out hs)⟩

instance (priority := 900) {b : Prop} [Decidable b] {m : Parse α} [hm : Stalls q c m] [hn : Stalls q c n] :
    Stalls q c (if b then m else n) := by
  split
  · exact hm
  · exact hn

instance {m : Parse α} [hb : Settles b true] [hm : Stalls q c m] :
    Stalls q c (if b = true then m else n) := by
  rw [hb.out]
  exact hm

instance {m : Parse α} [hb : Settles b false] [hn : Stalls q c n] :
    Stalls q c (if b = true then m else n) := by
  rw [hb.out]
  exact hn

instance [hp : Stalls q c p] : Stalls q c (within enter leave p) :=
  ⟨fun hs => ensures_within.2 <| (hp.out (hs.inContext _)).mono fun _ _ ht => ⟨ht.1, ht.2.inContext _⟩⟩

instance [Stalls q c p] : Stalls q c (inherit p) := inferInstance

instance [hp : Stalls q c p] : Stalls q c (isolate p) :=
  ⟨fun hs => ensures_isolate <| (hp.out (hs.inContext _)).mono fun _ _ ht _ => ⟨ht.1, ht.2.inContext _⟩⟩

/-! #### Loops -/

instance [h : StallsWith q c body] : Stalls q c (loop body x) := by
  refine ⟨fun hs => ensures_loop (I := fun _ => AtArrow c) hs fun x t ht => ?_⟩
  refine ((h.out x).out ht).mono fun y u hu => ?_
  cases y with
  | again x' => exact hu.2
  | done b => exact hu

instance [Tells c stop b] [Settles b false] [Stalls False c item] : Stalls q c (manyUntil stop item) := by
  unfold manyUntil
  infer_instance

instance [Tells c stop b] [Settles b true] : Stalls True c (manyUntil stop item) := by
  unfold manyUntil
  infer_instance

end Stalls

/-! ### Refusals -/

/-- A production that is always refused. -/
class Refused (c : ParseSetting) {α : Type} (p : Parse α) : Prop where
  out {s : ParseState} {Q : α → ParseState → Prop} : Ensures p c s Q

namespace Refused

variable {c : ParseSetting} {α β : Type} {p : Parse α} {f : α → Parse β}

instance : Refused c (unexpected t : Parse α) := ⟨ensures_unexpected⟩
instance [hp : Refused c p] : Refused c (p >>= f) := ⟨.seq hp.out⟩

instance {m n : Parse α} [hb : Settles b false] [hn : Refused c n] :
    Refused c (if b = true then m else n) := by
  rw [hb.out]
  exact hn

end Refused

namespace Stalls

variable {q : Prop} {c : ParseSetting} {α : Type} {f : Token → Parse α}

/-- An arrow is read to be refused. -/
theorem ofNext (hf : ∀ t : ArrowToken, Refused c (f t.get)) : Stalls q c (next >>= f) :=
  ⟨fun {s} hs => (ensures_next_eq c s).bind fun t _ ht => by
    rw [ht]
    exact (hf ⟨s.lookahead, hs.mark⟩).out⟩

instance [hf : ∀ t : ArrowToken, Refused c (f t.get)] : Stalls q c (next >>= f) := ofNext hf

instance [h : Exacting c] : Settles c.tolerant false := ⟨h.tolerant⟩

end Stalls

/-! ### The grammar -/

/-- Assignments and items are refused at an arrow. -/
class Recur.Stalls (c : ParseSetting) (r : Recur) : Prop where
  assignment : EcmaSyntax.Stalls False c r.assignment
  item : EcmaSyntax.Stalls False c r.item

namespace Grammar

variable {q : Prop} {c : ParseSetting} {r : Recur} {right : Operand}

instance [Differs m] : Settles (Text.is "=>" m) false :=
  ⟨Settles.isMark_arrow⟩

/-! #### Leaves -/

instance : Stalls q c (propertyKey r) := by
  refine .seq fun start => .ofNext fun t => ?_
  simp only [Lexeme.eq_punctuator t.arrow]
  infer_instance

instance : Stalls q c (classElement r hasConstructor) := inferInstance

instance : Stalls q c reenterMarkup := ⟨fun hs => ensures_reenterMarkup_arrow hs⟩

instance : Stalls q c (markExpression r "=>") := by
  have hslash : Settles (Text.isAny "=>" ["/", "/="]) false := ⟨by decide⟩
  infer_instance

instance : Stalls q c (primary r) := by
  refine ⟨fun {s} hs => ?_⟩
  have hmark : s.lookahead.lexeme = .punctuator "=>" := Lexeme.eq_punctuator hs.mark
  rw [primary, step_bind, step_bind, hmark, Settles.isMark_arrow, Bool.and_false,
    if_neg Bool.false_ne_true, step_bind, step_bind]
  simp only [hmark]
  exact Stalls.out hs

/-! #### Rules -/

section

variable [h : Recur.Stalls c r]

instance : Stalls q c r.assignment := h.assignment.anyway
instance : Stalls q c r.item := h.item.anyway

end

/-! #### Operators -/

instance : Tells c (seesAny ["++", "--"]) false := .ofMarks (by decide)
instance : Tells c (seesAny ["+", "-", "~", "!"]) false := .ofMarks (by decide)

instance : Tells c seenPrecedence 0 :=
  ⟨fun {s} hs => by
    have hnone : precedence s.context.allowIn s.lookahead.lexeme = 0 := by
      rw [Lexeme.eq_punctuator hs.mark]
      exact (by decide : ((precedences.find? fun p => Text.is "=>" p.1).map (·.2)).getD 0 = 0)
    exact congrArg (EStateM.Result.ok · s) hnone⟩

instance {m n : Parse α} [hm : Stalls q c m] : Stalls q c (if (0 : Nat) = 0 then m else n) := hm

instance : Stalls q c (callChain r) := inferInstance
instance : Stalls True c (memberLink r start allowCall e) := inferInstance
instance : Stalls q c (unaryExpression r) := inferInstance
instance : Stalls q c (exponentiation r) := inferInstance

instance {p : Pending} : Stalls True c (p.complete lineStart right) := inferInstance

instance : Stalls True c (reduceAll stack right) := by
  induction stack generalizing right <;> unfold reduceAll <;> infer_instance

/-! #### Statements -/

section

variable [Recur.Stalls c r]

instance : Stalls q c (statement r) := by
  refine ⟨fun {s} hs => ?_⟩
  have hmark : s.lookahead.lexeme = .punctuator "=>" := Lexeme.eq_punctuator hs.mark
  rw [statement, step_bind]
  simp only [hmark]
  exact Stalls.out hs

end

/-- At no depth of nesting does a rule read an arrow first. -/
theorem run_stalls (depth : Nat) : Recur.Stalls c (run depth) := by
  induction depth with
  | zero =>
    have hnone {α : Type} : Stalls False c (throw .exhausted : Parse α) := ⟨fun _ => throw_iff.2 trivial⟩
    exact ⟨hnone, hnone⟩
  | succ depth ih =>
    exact ⟨inferInstanceAs (Stalls False c (assignment _)), inferInstanceAs (Stalls False c (item _))⟩

end Grammar

end EcmaSyntax
