import EcmaSyntax.Proofs.Derivation
import EcmaSyntax.Proofs.Run

namespace EcmaSyntax

open Ensures (bind_iff step_iff throw_iff scan_iff)

/-! ### Steps that read no tokens -/

/-- The place in the source and the log of nodes are the same. -/
structure Kept (s s' : ParseState) : Prop where
  cursor : s'.scan.cursor = s.scan.cursor
  lookahead : s'.lookahead = s.lookahead
  startMark : s'.startMark = s.startMark
  lastMark : s'.lastMark = s.lastMark
  events : s'.events = s.events

theorem Kept.refl (s : ParseState) : Kept s s := ⟨rfl, rfl, rfl, rfl, rfl⟩

theorem Kept.trans (h : Kept s s') (h' : Kept s' s'') : Kept s s'' where
  cursor := h'.cursor.trans h.cursor
  lookahead := h'.lookahead.trans h.lookahead
  startMark := h'.startMark.trans h.startMark
  lastMark := h'.lastMark.trans h.lastMark
  events := h'.events.trans h.events

/-- A lookahead leaves the cursor where it was. -/
theorem Scan.ensures_lookahead : Ensures (Scan.lookahead m) r s fun _ t => t.cursor = s.cursor := by
  simp only [Scan.lookahead, bind_iff, step_iff]
  exact fun _ _ _ => trivial

theorem Quiet.kept (h : Quiet d p) : ∀ (c : ParseSetting) (s : ParseState), Ensures p c s fun _ s' => Kept s s' := by
  induction h with
  | pure x => exact fun c s => .pure (.refl s)
  | bind _ _ ihp ihf =>
    exact fun c s => (ihp c s).bind fun x t ht =>
      (ihf x c t).mono fun _ _ => ht.trans
  | throw e => exact fun c s => throw_iff.2 trivial
  | get => exact fun c s => step_iff.2 (.refl s)
  | setContext f => exact fun c s => .modify ⟨rfl, rfl, rfl, rfl, rfl⟩
  | forgive e =>
    intro c s
    simp only [Parse.forgive, bind_iff, step_iff]
    split
    · exact .modify ⟨rfl, rfl, rfl, rfl, rfl⟩
    · exact throw_iff.2 trivial
  | settings _ _ ih => exact fun c s => .seq (step_iff.2 (ih c c s))
  | since year _ => exact fun c s => .seq (step_iff.2 (.pure (.refl s)))
  | unrecord | enterModule => exact fun c s => .modify ⟨rfl, rfl, rfl, rfl, rfl⟩
  | peekBeyond | peekMarkup =>
    exact fun c s => scan_iff.2 <| Scan.ensures_lookahead.mono fun _ _ ht =>
      ⟨ht, rfl, rfl, rfl, rfl⟩
  | scanAtEnd =>
    intro c s
    simp only [scan_iff, step_iff]
    exact .refl s
  | scanPeek =>
    intro c s
    simp only [scan_iff, Scan.peek, bind_iff, step_iff]
    split
    · simp
    · simpa using .refl s

/-! ### What a view means -/

open Parse Grammar

section

variable {V : View} {α β γ : Type} [Carrier V α] [Carrier V β]

/-- What a run of `p` at the moment `w` comes to: a later moment, up to which its result was read from
the moment `a` on, with at least one token in between if it `must`. -/
def Fulfils (At : ParseSetting → ParseState → V.Moment → Prop) (must : Bool) (a w : V.Moment)
    (p : Parse α) : Prop :=
  ∀ c s, At c s w → Ensures p c s fun x s' =>
    ∃ w', V.later w w' ∧ (must → V.reached a w') ∧ Carrier.sound V a w' x ∧ At c s' w'

/-- What the moments of a view have to do with the states of a run, for all but three productions. -/
structure StepSemantics (V : View) where
  At : ParseSetting → ParseState → V.Moment → Prop
  kept {c : ParseSetting} {s s' : ParseState} {w : V.Moment} : At c s w → Kept s s' → At c s' w
  jsx {c : ParseSetting} {s : ParseState} {w : V.Moment} : At c s w → c.jsx → V.markup
  tolerant {c : ParseSetting} {s : ParseState} {w : V.Moment} : At c s w → c.tolerant → V.lenient
  here {c : ParseSetting} {s : ParseState} {w : V.Moment} : At c s w → V.opens w s.startMark
  peek {c : ParseSetting} {s : ParseState} {w : V.Moment} : At c s w → V.begins w s.lookahead
  next {c : ParseSetting} {s : ParseState} {w : V.Moment} : At c s w → Ensures Parse.next c s fun t s' =>
      ∃ w', V.later w w' ∧ V.reached w w' ∧ V.covers w w' t ∧ At c s' w'
  spells {c : ParseSetting} {s : ParseState} {w j : V.Moment} {t : Token} : At c s w →
    V.covers j w t → V.spells j w (c.source.slice t.start t.stop)
  close {c : ParseSetting} {s : ParseState} {w j : V.Moment} : At c s w → V.reached j w →
    ∃ w', V.later w w' ∧ At c { s with lastMark := s.startMark } w'
  finish {c : ParseSetting} {s : ParseState} {a w : V.Moment} {start : Mark} {n : Node} :
    At c s w → V.opens a start → V.later a w → V.reached a w → Fresh a w n →
    Ensures (Parse.finish start n) c s fun n' s' =>
      ∃ w', V.later w w' ∧ V.Holds a w' (.node n') ∧ At c s' w'
  regex {c : ParseSetting} {s : ParseState} {w : V.Moment} {t : Token} : At c s w → V.begins w t → t.lexeme.isSlash →
    Ensures (do scan (Scan.setIndex s.startMark.index); nextRegex) c s fun t s' =>
      ∃ w', V.later w w' ∧ V.reached w w' ∧ V.covers w w' t ∧ At c s' w'
  resumeTemplate {c : ParseSetting} {s : ParseState} {w : V.Moment} : At c s w →
    Ensures Grammar.resumeTemplate c s fun _ s' => At c s' w
  markupHere {c : ParseSetting} {s : ParseState} {w : V.Moment} : V.markup → At c s w →
    Ensures Grammar.markupHere c s fun m s' => ∃ w', V.later w w' ∧ V.opens w' m ∧ At c s' w'
  cursorMark {c : ParseSetting} {s : ParseState} {w : V.Moment} : V.markup → At c s w → V.opens w s.scan.cursor.mark
  enterMarkup {c : ParseSetting} {s : ParseState} {w : V.Moment} : V.markup → At c s w →
    Ensures Grammar.enterMarkup c s fun _ s' => At c s' w
  nextMarkup {c : ParseSetting} {s : ParseState} {w : V.Moment} : V.markup → At c s w →
    Ensures Grammar.nextMarkup c s fun t s' =>
      t.lexeme.isString = false → ∃ w', V.later w w' ∧ At c s' w'
  nextMarkupText {c : ParseSetting} {s : ParseState} {w : V.Moment} : V.markup → At c s w →
    Ensures Grammar.nextMarkupText c s fun _ s' => ∃ w', V.later w w' ∧ At c s' w'

/-- What the moments of a view have to do with the states of a run. -/
structure Semantics (V : View) extends StepSemantics V where
  emptyExpression {w : V.Moment} : V.markup → Fulfils At true w w Grammar.emptyExpression
  namedAttribute {w : V.Moment} {r : Recur} : V.markup → (∀ w : V.Moment, Fulfils At true w w Grammar.attributeName) →
    (∀ w : V.Moment, Fulfils At true w w (Grammar.attributeExpression r)) →
    (∀ w : V.Moment, Fulfils At true w w r.element) →
    Fulfils At true w w (Grammar.namedAttribute r)
  element {w : V.Moment} {r : Recur} : V.markup → (∀ w : V.Moment, Fulfils At true w w Grammar.elementName) →
    (∀ w : V.Moment, Fulfils At false w w (Grammar.attributes r)) →
    (∀ w : V.Moment, Fulfils At false w w (Grammar.markupChildren r)) →
    Fulfils At true w w (Grammar.element r)

end

/-! ### Rules for runs -/

namespace Fulfils

variable {V : View} {At : ParseSetting → ParseState → V.Moment → Prop} {must must' : Bool}
  {a j w : V.Moment} {α β γ : Type} [Carrier V α] [Carrier V β] {p : Parse γ} {f : Unit → Parse α}
  {t : Token}

theorem pure (hr : must → V.reached a w) (hx : Carrier.sound V a w x) : Fulfils At must a w (Pure.pure x : Parse α) :=
  fun _ _ h => .pure ⟨w, V.later_refl w, hr, hx, h⟩

theorem throw (e : Failure) : Fulfils At must a w (MonadExcept.throw e : Parse α) :=
  fun _ _ _ => throw_iff.2 trivial

/-- What follows a step that reads up to some later moment. -/
theorem step {f : γ → Parse α} {Q : γ → V.Moment → Prop}
    (hp : ∀ c s, At c s w → Ensures p c s fun x s' => ∃ w', V.later w w' ∧ Q x w' ∧ At c s' w')
    (hf : ∀ (t : Since w) (x : γ), Q x t.now → Fulfils At must a t.now (f x)) :
    Fulfils At must a w (p >>= f) := by
  intro c s h
  rw [bind_iff]
  refine (hp c s h).mono fun x s' ⟨w', hl, hQ, h'⟩ => ?_
  refine (hf ⟨w', hl⟩ x hQ c s' h').mono fun y s'' ⟨w'', hl', hrest⟩ => ?_
  exact ⟨w'', V.later_trans hl hl', hrest⟩

theorem bind {p : Parse α} {f : α → Parse β} (hp : Fulfils At must' j w p)
    (hf : ∀ (t : Since w) (x : Result j t.now α), (must' → V.reached j t.now) →
      Fulfils At must a t.now (f x.get)) : Fulfils At must a w (p >>= f) := by
  have hstep (c s) (h : At c s w) : Ensures p c s fun x s' => ∃ w', V.later w w'
      ∧ (Carrier.sound V j w' x ∧ (must' → V.reached j w')) ∧ At c s' w' :=
    (hp c s h).mono fun _ _ ⟨w', hl, hr, hx, h'⟩ => ⟨w', hl, ⟨hx, hr⟩, h'⟩
  exact step hstep fun t x hx => hf t ⟨x, hx.1⟩ hx.2

theorem rounds {σ : Type} [Carrier V σ] {body : σ → Parse (Round σ β)}
    (hbody : ∀ (t : Since w) (x : Result a t.now σ), Fulfils At false a t.now (body x.get)) :
    ∀ (bound : Nat) (t : Since w) (x : Result a t.now σ),
      Fulfils At false a t.now (EcmaSyntax.rounds body bound x.get)
  | 0, _, _ => .throw _
  | bound + 1, t, x => by
    refine .bind (hbody t x) fun u y _ => ?_
    obtain ⟨y, hy⟩ := y
    cases y with
    | again z => exact rounds hbody bound ⟨u.now, V.later_trans t.later u.later⟩ ⟨z, hy⟩
    | done z => exact .pure Bool.noConfusion hy

theorem loop [Carrier V σ] {body : σ → Parse (Round σ β)} (hx : Carrier.sound V a w x)
    (hbody : ∀ (t : Since w) (x : Result a t.now σ), Fulfils At false a t.now (body x.get)) :
    Fulfils At false a w (Parse.loop body x) :=
  fun c s h => rounds hbody _ ⟨w, V.later_refl w⟩ ⟨x, hx⟩ c s h

theorem weaken {p : Parse α} (ha : V.later a j) (hp : Fulfils At true j w p) : Fulfils At must a w p :=
  fun c s h => (hp c s h).mono fun _ _ ⟨w', hl, hr, hx, h'⟩ =>
    ⟨w', hl, fun _ => V.reached_of_later ha (hr rfl), Carrier.mono ha (V.later_refl w') hx, h'⟩

/-- A step that looks at the state. -/
theorem look {f : γ → Parse α} {g : ParseSetting → ParseState → γ}
    (hp : ∀ c s, p c s = .ok (g c s) s) (hf : ∀ c s, At c s w → Fulfils At must a w (f (g c s))) :
    Fulfils At must a w (p >>= f) := by
  intro c s h
  rw [bind_iff]
  rintro x s' hx
  cases (hp c s).symm.trans hx
  exact hf c s h c s h

/-! #### Rules for the moments of a view -/

section

variable (S : StepSemantics V)

theorem quiet {f : γ → Parse α} (hp : Quiet true p)
    (hf : ∀ x, Fulfils S.At must a w (f x)) : Fulfils S.At must a w (p >>= f) :=
  fun c s h => (hp.kept c s).bind fun x s' hk => hf x c s' (S.kept h hk)

theorem settings {f : ParseSetting → Parse α} (hf : ∀ c, (c.jsx → V.markup) → Fulfils S.At must a w (f c)) :
    Fulfils S.At must a w (read >>= f) :=
  fun c s h => .seq (step_iff.2 (hf c (S.jsx h) c s h))

theorem here {f : Mark → Parse α} (hf : ∀ m : Start w, Fulfils S.At must a w (f m.mark)) :
    Fulfils S.At must a w (Parse.here >>= f) :=
  .look (fun _ _ => rfl) fun _ _ h => hf ⟨_, S.here h⟩

theorem peek {f : Token → Parse α} (hf : ∀ t : Seen w, Fulfils S.At must a w (f t.token)) :
    Fulfils S.At must a w (Parse.peek >>= f) :=
  .look (fun _ _ => rfl) fun _ _ h => hf ⟨_, S.peek h⟩

theorem next {f : Token → Parse α} (hf : ∀ t : Taken w, Fulfils S.At must a t.now (f t.token)) :
    Fulfils S.At must a w (Parse.next >>= f) := by
  refine .step (Q := fun t w' => V.reached w w' ∧ V.begins w t ∧ V.covers w w' t)
    (fun c s h => ?_) fun t x ⟨hr, hb, hc⟩ => hf ⟨⟨t, hr⟩, x, hb, hc⟩
  refine ((S.next h).and (Parse.ensures_next_eq c s)).mono ?_
  rintro t s' ⟨⟨w', hl, hr, hc, h'⟩, rfl⟩
  exact ⟨w', hl, ⟨hr, S.peek h, hc⟩, h'⟩

theorem rawOf {f : Text → Parse α} (hf : ∀ raw : Raw w t, Fulfils S.At must a w (f raw.text)) :
    Fulfils S.At must a w (Parse.rawOf t >>= f) :=
  .look (fun _ _ => rfl) fun _ _ h =>
    hf ⟨_, fun hc => S.spells h hc⟩

theorem skip (hf : ∀ t : After w, Fulfils S.At must a t.now (f ())) :
    Fulfils S.At must a w (Parse.skip >>= f) := by
  have h : Parse.skip >>= f = Parse.next >>= fun _ => f () := by
    rw [Parse.skip, Derives.discard_eq, bind_assoc]
    rfl
  rw [h]
  exact next S fun t => hf t.toAfter

/-- What follows is run at some later moment, if this comes to nothing else. -/
theorem seq {p : Parse Unit} (hp : Fulfils S.At false w w p)
    (hf : ∀ t : Since w, Fulfils S.At must a t.now (f ())) : Fulfils S.At must a w (p >>= f) :=
  .bind hp fun t _ _ => hf t

theorem done (t : Since w) : Fulfils S.At false w t.now (Pure.pure () : Parse Unit) :=
  .pure (fun hmust => absurd hmust Bool.false_ne_true) trivial

theorem semicolon (hr : V.reached j w) : Fulfils S.At false w w Parse.semicolon := by
  unfold Parse.semicolon
  rw [Derives.accept_bind]
  refine .quiet S inferInstance fun b => ?_
  split
  · exact skip S fun t => done S t.toSince
  refine .look (fun _ _ => rfl) fun _ s _ => ?_
  split
  · exact done S ⟨w, V.later_refl w⟩
  refine .peek S fun t => ?_
  have hclose : Fulfils S.At false w w (modify fun s => { s with lastMark := s.startMark } : Parse Unit) := by
    intro c s h
    obtain ⟨w', hl, h'⟩ := S.close h hr
    exact .modify ⟨w', hl, fun hmust => absurd hmust Bool.false_ne_true, trivial, h'⟩
  split
  · exact hclose
  · exact .quiet S inferInstance fun _ => hclose

theorem expect (hf : ∀ t : After w, Fulfils S.At must a t.now (f ())) :
    Fulfils S.At must a w (Parse.expect mark >>= f) := by
  unfold Parse.expect
  rw [bind_assoc]
  refine .next S fun t => ?_
  split
  · exact hf t.toAfter
  · exact .quiet S inferInstance fun _ => hf t.toAfter

theorem expectComma : Fulfils S.At false w w Parse.expectComma := by
  refine .look (fun _ _ => rfl) fun c _ _ => ?_
  split
  · refine .peek S fun t => ?_
    split
    · rw [← bind_pure Parse.skip]
      exact .skip S fun t => done S t.toSince
    split
    · refine .skip S fun u => ?_
      rw [← bind_pure (Parse.tolerateToken t.token)]
      exact .quiet S inferInstance fun _ => done S u.toSince
    · rw [← bind_pure (Parse.tolerateAt t.token _)]
      exact .quiet S inferInstance fun _ => done S ⟨w, V.later_refl w⟩
  · rw [← bind_pure (Parse.expect ",")]
    exact .expect S fun t => done S t.toSince

theorem closeHead {f : Bool → Parse α} (ht : ∀ t : After w, Fulfils S.At must a t.now (f true))
    (hf : ∀ t : Skipped w, Fulfils S.At must a t.now (f false)) :
    Fulfils S.At must a w (Grammar.closeHead >>= f) := by
  have hclose : Fulfils S.At must a w (Parse.expect ")" >>= fun _ => f true) := .expect S ht
  unfold Grammar.closeHead
  simp only [bind_assoc]
  refine .quiet S inferInstance fun b => .look (fun _ _ => rfl) fun c s h => ?_
  split
  · next htolerant =>
    have hlenient : V.lenient := S.tolerant h (by simp_all)
    simp only [bind_assoc, pure_bind]
    exact .next S fun t => .quiet S inferInstance fun _ => hf ⟨t.toAfter, hlenient⟩
  · simpa only [bind_assoc, pure_bind] using hclose

/-! #### Nodes -/

theorem finish (ho : V.opens a start) (hl : V.later a w) (hr : V.reached a w) (hfresh : Fresh a w n) :
    Fulfils S.At true a w (Parse.finish start n) :=
  fun _ _ h => (S.finish h ho hl hr hfresh).mono fun _ _ ⟨w', hl', hn', h'⟩ =>
    ⟨w', hl', fun _ => V.reached_later hr hl', hn', h'⟩

theorem fresh_regexLiteral {raw pattern flags : Text} (hv : V.Holds a w value) (hraw : V.spells a w raw) :
    Fresh a w (.regexLiteral value (.text raw) (.text pattern) (.text flags)) := by
  refine ⟨Derives.loggable_ofKind (by decide) (by decide), Derives.tidy_ofKind (by decide) rfl,
    fun f => Derives.parts_ofKind ?_, fun _ => ⟨raw, rfl, hraw⟩⟩
  simp only [List.forall_mem_cons]
  exact ⟨hv, trivial, Derives.holds_make (by decide) (by simp) rfl (by simp [View.Holds]), by simp⟩

theorem regexLiteral (hb : V.begins w t) (ht : t.lexeme.isSlash) :
    Fulfils S.At true w w Grammar.regexLiteral := by
  -- After the token, all that is left is to finish the node.
  have hrest {start : Mark} (ho : V.opens w start) (u : After w) (t : Token)
      (hc : V.covers w u.now t) {body flags : Text} {compiled : Option Pattern} :
      Fulfils S.At true w u.now (do
        Parse.finish start (.regexLiteral ((compiled.map Value.pattern).getD .null)
          (← Parse.rawOf t) body flags)) := by
    have hvalue : V.Holds w u.now ((compiled.map Value.pattern).getD .null) := by
      cases compiled <;> trivial
    exact .rawOf S fun raw =>
      .finish S ho u.later u.reached (fresh_regexLiteral hvalue (raw.spells hc))
  intro c s h
  have hregex := S.regex (S.kept h (⟨rfl, rfl, rfl, rfl, rfl⟩ :
    Kept s { s with context := { s.context with isTarget := false, isBinding := false } })) hb ht
  simp only [Grammar.regexLiteral, notTarget, bind_iff, step_iff] at hregex ⊢
  refine hregex.mono fun _ _ hnext => hnext.mono fun t s' hread => ?_
  obtain ⟨w', hl, hr, hc, h'⟩ := hread
  split
  · refine (hrest (S.here h) ⟨⟨w', hl⟩, hr⟩ t hc c s' h').mono fun _ _ hfinish => ?_
    obtain ⟨w'', hl', hr', hx, h''⟩ := hfinish
    exact ⟨w'', V.later_trans hl hl', fun _ => hr' rfl, hx, h''⟩
  · exact Parse.ensures_unexpected

theorem resumeTemplate (hf : Fulfils S.At must a w (f ())) : Fulfils S.At must a w (Grammar.resumeTemplate >>= f) :=
  fun c _ h => (S.resumeTemplate h).bind fun _ s' h' => hf c s' h'

/-! #### Markup -/

section

variable (hm : V.markup)

include hm

theorem markupHere {f : Mark → Parse α}
    (hf : ∀ (t : Since w) (m : Start t.now), Fulfils S.At must a t.now (f m.mark)) :
    Fulfils S.At must a w (Grammar.markupHere >>= f) :=
  .step (fun _ _ => S.markupHere hm) fun t m ho => hf t ⟨m, ho⟩

theorem cursorMark {f : Mark → Parse α} (hf : ∀ m : Start w, Fulfils S.At must a w (f m.mark)) :
    Fulfils S.At must a w (Parse.cursorMark >>= f) :=
  .look (fun _ _ => rfl) fun _ _ h =>
    hf ⟨_, S.cursorMark hm h⟩

theorem enterMarkup (hf : Fulfils S.At must a w (f ())) : Fulfils S.At must a w (Grammar.enterMarkup >>= f) :=
  fun c _ h => (S.enterMarkup hm h).bind fun _ s' h' => hf c s' h'

theorem nextMarkupText {f : Token → Parse α} (hf : ∀ (t : Since w) (x : Token), Fulfils S.At must a t.now (f x)) :
    Fulfils S.At must a w (Grammar.nextMarkupText >>= f) := by
  refine .step (Q := fun _ _ => True) (fun _ _ h => ?_) fun t x _ => hf t x
  exact (S.nextMarkupText hm h).mono fun _ _ ⟨w', hl, h'⟩ => ⟨w', hl, trivial, h'⟩

/-- What follows a token of markup that is no string. -/
theorem nextMarkup {f : Token → Parse α}
    (hstring : ∀ t : Token, t.lexeme.isString → ∀ c s, Ensures (f t) c s fun _ _ => False)
    (hf : ∀ (t : Since w) (x : Token), Fulfils S.At must a t.now (f x)) :
    Fulfils S.At must a w (Grammar.nextMarkup >>= f) := by
  intro c s h
  rw [bind_iff]
  refine (S.nextMarkup hm h).mono fun t s' ht => ?_
  cases hlexeme : t.lexeme.isString with
  | true => exact (hstring t hlexeme c s').mono fun _ _ h => h.elim
  | false =>
    obtain ⟨w', hl, h'⟩ := ht hlexeme
    exact (hf ⟨w', hl⟩ t c s' h').mono fun _ _ ⟨w'', hl', hrest⟩ =>
      ⟨w'', V.later_trans hl hl', hrest⟩

theorem expectMarkup (hf : ∀ t : Since w, Fulfils S.At must a t.now (f ())) :
    Fulfils S.At must a w (Grammar.expectMarkup mark >>= f) := by
  unfold Grammar.expectMarkup
  rw [bind_assoc]
  refine .nextMarkup S hm (fun t ht c s => ?_) fun t x => ?_
  · have hmark : ¬ t.lexeme.isMark mark := by
      cases h : t.lexeme <;> simp_all [Lexeme.isMark, Lexeme.isString]
    rw [if_neg hmark, bind_iff]
    exact Parse.ensures_unexpected
  · split
    · exact hf t
    · exact .quiet S inferInstance fun _ => hf t

theorem markupIdentifier : Fulfils S.At true w w Grammar.markupIdentifier := by
  refine .markupHere S hm fun u start => .nextMarkup S hm (fun t ht c s => ?_) fun v t => ?_
  · cases h : t.lexeme with
    | string => exact Parse.ensures_unexpected
    | _ => simp [h, Lexeme.isString] at ht
  · split
    · next name _ =>
      exact .weaken u.later (.finish S start.opens v.later (V.reached_of_markup hm)
        (Derives.fresh_of_made inferInstance inferInstance))
    · exact fun _ _ _ => Parse.ensures_unexpected

end

end

end Fulfils

/-- **Soundness.** What is derived of a production holds of its runs. -/
theorem Derives.sound (S : Semantics V) {a w : V.Moment}
    [Carrier V α] {p : Parse α} (h : Derives must a w p) : Fulfils S.At must a w p := by
  induction h with
  | pure hr hx => exact .pure hr hx
  | bind _ _ ihp ihf => exact .bind ihp ihf
  | throw e => exact .throw e
  | quiet hp _ ihf => exact .quiet S.toStepSemantics hp ihf
  | settings _ _ ihf => exact .settings S.toStepSemantics ihf
  | weaken ha _ ih => exact .weaken ha ih
  | here _ ih => exact .here S.toStepSemantics ih
  | peek _ ih => exact .peek S.toStepSemantics ih
  | next _ ih => exact .next S.toStepSemantics ih
  | rawOf _ ih => exact .rawOf S.toStepSemantics ih
  | semicolon hr _ ih => exact .seq S.toStepSemantics (.semicolon S.toStepSemantics hr) ih
  | expectComma _ ih => exact .seq S.toStepSemantics (.expectComma S.toStepSemantics) ih
  | closeHead _ _ iht ihf => exact .closeHead S.toStepSemantics iht ihf
  | finish ho hl hr hfresh _ => exact .finish S.toStepSemantics ho hl hr hfresh
  | regexLiteral hb ht => exact .regexLiteral S.toStepSemantics hb ht
  | resumeTemplate _ ih => exact .resumeTemplate S.toStepSemantics ih
  | markupHere hm _ ih => exact .markupHere S.toStepSemantics hm ih
  | cursorMark hm _ ih => exact .cursorMark S.toStepSemantics hm ih
  | enterMarkup hm _ ih => exact .enterMarkup S.toStepSemantics hm ih
  | expectMarkup hm _ ih => exact .expectMarkup S.toStepSemantics hm ih
  | nextMarkupText hm _ ih => exact .nextMarkupText S.toStepSemantics hm ih
  | markupIdentifier hm => exact .markupIdentifier S.toStepSemantics hm
  | emptyExpression hm => exact S.emptyExpression hm
  | namedAttribute hm _ _ _ ihn ihe ihr => exact S.namedAttribute hm ihn ihe ihr
  | element hm _ _ _ ihn iha ihc => exact S.element hm ihn iha ihc

end EcmaSyntax
