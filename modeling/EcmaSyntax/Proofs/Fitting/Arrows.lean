import EcmaSyntax.Proofs.Fitting.Expressions

/-!
# Arrow functions and assignments that fit

What stands before an arrow was read as an expression, in the surroundings of the function and not in those
of its parameters. As an expression fits in all surroundings in which it may be read, it fits in both.
-/

namespace EcmaSyntax

open Parse

set_option synthInstance.maxSize 100000000000000

variable {level : Bool} {e : Surroundings} {P : Prop}

variable {n : Node} {first : Token}

namespace Grammar

variable {isAsync : Bool} {f : Formals} {t : Token}

/-! ### Parameters that were read as expressions -/

theorem fits_asYieldName (h : Fits e P (.node n)) (hn : n.is .yieldExpression) :
    Fits e True (.node (asYieldName n)) := by
  have hframes : n.isAny frames = false := Node.not_isAny_of_is hn (by decide)
  have hmade : (asYieldName n).MadeAs .identifier :=
    ((((h.madeAs hn).setKind .identifier).set (by decide)).erase (by decide)).erase (by decide)
  have hfreely : Fits.Freely e ((asYieldName n).fields ++ (asYieldName n).extra) :=
    (((h.freely hframes).set (.scalar rfl)).set (.scalar rfl)).erase.erase
  exact .of_patternKind hmade.kind (by decide) hmade.extra hfreely

variable {c : ParseSetting} {s : ParseState}

theorem ensures_coverParameter (h : Fits e True param) :
    Ensures (coverParameter isAsync param) c s fun v _ => Fits e True v := by
  unfold coverParameter
  split
  · next p hnode =>
    have hp : Fits e True (.node p) := h.asNode hnode
    split
    · next hpattern =>
      have hframes : p.isAny frames = false := Node.not_isAny_of_is hpattern (by decide)
      split
      · next right hright =>
        split
        · next hyield =>
          have hright : Fits e True (.node right) := (hp.get hframes (by decide)).asNode hright
          have hmade : (p.set "right" (asYieldName right)).MadeAs .assignmentPattern :=
            (hp.madeAs hpattern).set (by decide)
          have hset : Fits e True (.node (p.set "right" (asYieldName right))) :=
            .of_patternKind hmade.kind (by decide) hmade.extra
              ((hp.freely hframes).set (fits_asYieldName hright hyield))
          split
          · exact .anyway fun _ _ => .seq ensures_unexpected
          · exact .pure hset
        · exact .pure h
      · exact .pure h
    · split
      · exact .anyway fun _ _ => .seq ensures_unexpected
      · exact .pure h
  · exact .pure h

/-- What is made of each of some things holds of all that is made. -/
theorem ensures_mapM {f : α → Parse β} {p : α → Prop} {q : β → Prop}
    (hf : ∀ x s, p x → Ensures (f x) c s fun y _ => q y) {l : List α} (hl : ∀ x ∈ l, p x) :
    Ensures (l.mapM f) c s fun ys _ => ∀ y ∈ ys, q y := by
  induction l generalizing s with
  | nil => exact .pure (List.forall_mem_nil _)
  | cons x l ih =>
    rw [List.forall_mem_cons] at hl
    rw [List.mapM_cons]
    refine (hf x s hl.1).bind fun y t hy => (ih hl.2).bind fun ys u hys => ?_
    exact .pure (List.forall_mem_cons.2 ⟨hy, hys⟩)

theorem fits_foldl_push {strict : Bool} {names : Value → List (Culprit × Text)} {params : List Value} (hf : Carries.fits e P f) (hparams : ∀ v ∈ params, Fits e P v) :
    Carries.fits e P (params.foldl (fun f p => f.push strict p (names p)) f) := by
  induction params generalizing f with
  | nil => exact hf
  | cons p params ih =>
    rw [List.forall_mem_cons] at hparams
    have : Fitting e P f := ⟨hf⟩
    have : Fitting e P p := ⟨hparams.1⟩
    exact ih (inferInstance : Fitting e P (f.push strict p (names p))).out hparams.2

/-- The parameters before an arrow fit where the expression does. -/
theorem ensures_coverFormals (h : Fits e True (.node n)) :
    Ensures (coverFormals n) c s fun f _ => ∀ f' ∈ f, Carries.fits e True f' := by
  rw [coverFormals]
  dsimp only
  split
  · next hn =>
    have hparams : ∀ v ∈ (if n.is .identifier then [Value.node n] else (n.get "params").items),
        Fits e True v := by
      split
      · exact List.forall_mem_singleton.2 h
      · next hname =>
        have hn : n.is .arrowParameters := by simpa [hname] using hn
        exact (h.get (Node.not_isAny_of_is hn (by decide)) (by decide)).items
    refine (ensures_mapM (fun _ _ => ensures_coverParameter) hparams).bind fun params s hparams => ?_
    rw [Ensures.step_bind]
    have hrest {f : Formals} (hf : Carries.fits e True f) {t : ParseState} : Ensures (do
        if f.cause = some .duplicateParameter then
          fail (← errorFor (if s.context.strict then f.stricted else f.firstRestricted) .duplicateParameter)
        return some f) c t fun f _ => ∀ f' ∈ f, Carries.fits e True f' := by
      split
      · exact .anyway fun _ _ => .seq (Ensures.throw_iff.2 trivial)
      · exact .pure fun f' hf' => by cases hf'; exact hf
    have hstart : Fitting e True (Formals.start none) := inferInstance
    split
    · exact .anyway fun _ _ => .seq ensures_unexpected
    · exact hrest (fits_foldl_push hstart.out hparams)
  · exact .pure fun _ h => by cases h

/-! ### Arrow functions -/

variable {r : Recur} [Recur.Restores r] [Recur.Fills r]

omit [Recur.Restores r] in
/-- The body of an arrow function fits. If it is an expression, it fits in the body and in the parameters. -/
theorem ensures_arrowRest (h : Situated level e P c s) (hf : Carries.fits e.params True f) :
    Ensures (arrowRest r start isAsync f) c s fun n _ => Fits e False (.node n) := by
  have hrest {body : Node} {s : ParseState}
      (hbody : Fits (if body.is .blockStatement then e.function else e.params) False (.node body)) :
      Ensures (do
        if ← strict then
          refuseSuspect f
          tolerateStricted f
        let make := if isAsync then Node.asyncArrowFunctionExpression else Node.arrowFunctionExpression
        finish start (make (.list f.params) body (!body.is .blockStatement))) c s fun n _ =>
          Fits e False (.node n) := by
    have hfinish {s : ParseState} : Ensures (finish start ((if isAsync then Node.asyncArrowFunctionExpression
        else Node.arrowFunctionExpression) (.list f.params) body (!body.is .blockStatement))) c s fun n _ =>
          Fits e False (.node n) := by
      refine (ensures_finish_idle h.idle).mono fun n _ hn => ?_
      rw [hn]
      refine Fits.finished ?_ _ _
      split
      · exact .asyncArrowFunctionExpression (.list hf) hbody (.scalar rfl)
      · exact .arrowFunctionExpression (.list hf) hbody (.scalar rfl)
    refine .anyway fun isStrict _ => ?_
    dsimp only
    split
    · exact .anyway fun _ _ => .anyway fun _ _ => hfinish
    · exact hfinish
  refine h.seq fun _ s h _ => h.seq fun isBlock s h _ => ?_
  dsimp only
  split
  · refine .seq (ensures_within.2 ((ensures_functionBody (h.entered (aside_allowIn true))).mono
      fun body t hbody => hrest ?_))
    rw [if_pos hbody.2]
    exact hbody.1
  -- An expression is no block, but that is not known here; so it is read in both surroundings.
  · have hparams : Seals false e.params False (isolate r.assignment) := inferInstance
    have hfunction : Seals false e.function False (isolate r.assignment) := inferInstance
    refine ((hparams.out h.params.forget).and (hfunction.out h.function.forget)).bind fun body t hbody => hrest ?_
    split
    · exact hbody.2.2
    · exact hbody.1.2

/-- What stands before an arrow is read as an expression, both where the function stands and where its
parameters do. -/
structure Covered (e : Surroundings) (n : Node) (a : Context) : Prop where
  here : Fits e a.IsPending (.node n)
  params : Fits e.params True (.node n)

theorem ensures_arrowFunction (h : Situated level e False c s) (hn : Covered e n s.context) :
    Ensures (arrowFunction r first n) c s fun m t =>
      Situated level e False c t ∧ Fits e t.context.IsPending (.node m) := by
  have hstays : Ensures (arrowFunction r first n) c s fun _ t => Situated level e False c t := h.stays
  refine hstays.and ?_
  refine h.exact.seq fun _ t h _ => ?_
  have hspares : Spares Context.IsPending (coverFormals n) := inferInstance
  refine ((hspares.out c t).and ((ensures_coverFormals hn.params).and h.stays)).bind fun f u hu => ?_
  obtain ⟨hkept, hf, hu⟩ := hu
  cases f with
  | none => exact .pure (hn.here.mono fun hp => hkept (h.pending hp))
  | some f =>
    have hrest {u : ParseState} (h : Situated level e False c u) : Ensures (do
        setContext fun c => { c with coverError := none }
        withStrictness f <| withYield true (some (n.has "isAsync")) <|
          arrowRest r (first.startMark 0) (n.has "isAsync") f) c u fun m t =>
            Fits e t.context.IsPending (.node m) := by
      refine h.seq fun _ u h _ => ensures_within.2 (ensures_within.2 ?_)
      have hinside := (h.entered (aside_withStrictness f)).entered (aside_withYield true (some (n.has "isAsync")))
      exact (ensures_arrowRest hinside (hf f rfl)).mono fun m t hm => hm.mono False.elim
    refine .seq (Ensures.step_iff.2 ?_)
    split
    · exact hu.seq fun _ u h _ => h.seq fun _ u h _ => hrest h
    · exact hrest hu

/-! ### Assignments -/

theorem ensures_seesAssignment : Ensures seesAssignment c s fun isAssigned t =>
    t = s ∧ (isAssigned → ∃ m, s.lookahead.lexeme = .punctuator m) := by
  have hmark {marks : List String} (h : marks.any s.lookahead.lexeme.isMark) :
      ∃ m, s.lookahead.lexeme = .punctuator m := by
    obtain ⟨mark, -, hmark⟩ := List.any_eq_true.1 h
    cases hlex : s.lookahead.lexeme with
    | punctuator m => exact ⟨m, rfl⟩
    | _ =>
      rw [hlex] at hmark
      cases hmark
  rw [seesAssignment, Ensures.step_bind]
  split
  · next h => exact .pure ⟨rfl, fun _ => hmark h⟩
  · rw [Ensures.step_bind, Ensures.step_bind]
    exact .pure ⟨rfl, fun h => hmark (Bool.and_eq_true_iff.1 h).2⟩

theorem ensures_tolerateAt : Ensures (tolerateAt t cause) c s fun _ u =>
    u.lookahead = s.lookahead := by
  exact ensures_forgive.mono fun _ _ ht => ht.2

omit [Recur.Restores r] in
/-- What is assigned to becomes a pattern before an equals sign. -/
theorem ensures_assign (h : Situated level e False c s)
    (hn : Fits e True (.node n)) (htarget : e.lenient ∨ n.isAny targets)
    (hmark : s.lookahead.lexeme = .punctuator mark) : Ensures (do
      let isPlain ← sees "="
      unless isPlain do notTarget
      let t ← next
      let right ← isolate r.assignment
      let left := if isPlain then n.asPattern else n
      let e ← finishFrom first (.assignmentExpression (.ofLexeme t.lexeme) left right)
      setContext fun c => { c with coverError := none }
      return e) c s fun m t => Situated level e False c t ∧ Fits e t.context.IsPending (.node m) := by
  have hrest (isPlain : Bool) (hplain : mark.is "=" = isPlain) {s : ParseState}
      (h : Situated level e False c s) (hmark : s.lookahead.lexeme = .punctuator mark) : Ensures (do
        let t ← next
        let right ← isolate r.assignment
        let left := if isPlain then n.asPattern else n
        let e ← finishFrom first (.assignmentExpression (.ofLexeme t.lexeme) left right)
        setContext fun c => { c with coverError := none }
        return e) c s fun m t => Situated level e False c t ∧ Fits e t.context.IsPending (.node m) := by
    have hnext : Seals level e False next := inferInstance
    refine ((hnext.out h).and (ensures_next_eq c s)).bind fun t u hu => ?_
    obtain ⟨⟨h, -⟩, rfl⟩ := hu
    refine h.seq fun right u h hright => ?_
    have : Fitting e True n := ⟨hn⟩
    have hleft : Fitting e True (if isPlain then n.asPattern else n) := inferInstance
    rw [hmark]
    have hkind (hn' : n.isAny targets) : (if isPlain then n.asPattern else n).isAny
        (if mark.is "=" then patternTargets else targets) := by
      rw [hplain]
      cases isPlain with
      | true =>
        obtain ⟨k, hk, hkind⟩ := List.any_eq_true.1 hn'
        exact (hn.madeAs hkind).isAny_asPattern hk
      | false => exact hn'
    have hassigns : e.lenient ∨ (Node.assignmentExpression (.ofLexeme (.punctuator mark))
        (Value.node (if isPlain then n.asPattern else n)) right).assignsTarget := htarget.imp id hkind
    have hfits : Fits e False (.node (.assignmentExpression _ _ _)) :=
      .assignmentExpression hassigns (.scalar rfl) hleft.out hright
    refine (h.ensures_finish hfits).bind fun m v hv => ?_
    exact hv.1.seq fun _ w hw _ => .pure ⟨hw, hv.2.2.mono False.elim⟩
  rw [Ensures.step_bind, hmark]
  split
  · next hplain => exact hrest true hplain h hmark
  · next hplain =>
    exact .seq (.modify (hrest false (Bool.eq_false_iff.2 hplain) (h.move rfl False.elim) hmark))

/-- A name is checked before it is assigned to. The lookahead stays what it is. -/
theorem ensures_checkedName {Q : Node → ParseState → Prop}
    (hp : ∀ s, Situated level e False c s → s.lookahead = t → Ensures p c s Q)
    (h : Situated level e False c s) (ht : s.lookahead = t) : Ensures (do
      if (← strict) && n.is .identifier then
        let name := n.textOf "name"
        if Word.isRestricted name then tolerateAt first .strictAssignment
        if Word.isStrictReserved name then tolerateAt first .strictReservedWord
      p) c s Q := by
  have htolerate {s : ParseState} {cause : Cause} {p : Parse Node} (h : Situated level e False c s)
      (ht : s.lookahead = t) (hp : ∀ s, Situated level e False c s → s.lookahead = t → Ensures p c s Q) :
      Ensures (do tolerateAt first cause; p) c s Q := by
    have hseals : Seals level e False (tolerateAt first cause) := inferInstance
    exact ((hseals.out h).and ensures_tolerateAt).bind fun _ s hs =>
      hp s hs.1.1 (hs.2.trans ht)
  rw [Ensures.step_bind]
  dsimp only
  split
  · split
    · refine htolerate h ht fun s h ht => ?_
      split
      · exact htolerate h ht hp
      · exact hp s h ht
    · split
      · exact htolerate h ht hp
      · exact hp s h ht
  · exact hp s h ht

omit [Recur.Restores r] in
theorem ensures_assignmentRest (h : Situated level e False c s)
    (hn : Fits e True (.node n)) (hjudged : n.Judged s.context) (hparams : n.is .arrowParameters = false)
    (hmark : ∃ m, s.lookahead.lexeme = .punctuator m) : Ensures (assignmentRest r first n) c s fun m t =>
      Situated level e False c t ∧ Fits e t.context.IsPending (.node m) := by
  obtain ⟨mark, hmark⟩ := hmark
  have htargets (hn : n.isAny updateTargets) : n.isAny targets := by
    simpa [updateTargets, Node.isAny, hparams] using hn
  rw [assignmentRest, Ensures.step_bind]
  split
  · next htarget =>
    refine ensures_checkedName (fun t h ht => ?_) h rfl
    exact ensures_assign h hn (.inr (htargets (hjudged.2 htarget))) (ht ▸ hmark)
  · have htolerate : Seals level e False (tolerate .invalidAssignmentTarget) := inferInstance
    refine ((htolerate.out h).and ensures_tolerate).bind fun _ t hs => ?_
    refine ensures_checkedName (fun t h ht => ?_) hs.1.1 hs.2.2
    exact ensures_assign h hn (.inl (h.lenient.trans hs.2.1)) (ht ▸ hmark)

variable [Recur.Judges r] [Recur.Remembers r]

theorem ensures_asyncParameter (h : Situated level e False c s)
    (hn : Covered e n s.context) : Ensures (asyncParameter r first n) c s fun m t =>
      Situated level e False c t ∧ Covered e m t.context := by
  rw [asyncParameter, Ensures.step_bind]
  split
  · split
    · have hhere : Leaves level e False (primary r) := inferInstance
      have hparams : Leaves false e.params False (primary r) := inferInstance
      refine ((hhere.out h).and (hparams.out h.params)).bind fun m t hm => ?_
      have : Fitting e True m := ⟨Carries.mono (fun _ => trivial) hm.1.2.2⟩
      have : Fitting e.params True m := ⟨Carries.mono (fun _ => trivial) hm.2.2.2⟩
      have hm₁ : Fitting e t.context.IsPending (Node.asyncArrowParameters (.nodes [m.asPattern])) :=
        inferInstance
      have hm₂ : Fitting e.params True (Node.asyncArrowParameters (.nodes [m.asPattern])) := inferInstance
      exact .pure ⟨hm.1.2.1.forget, hm₁.out, hm₂.out⟩
    · exact .pure ⟨h, hn⟩
  · exact .pure ⟨h, hn⟩

instance : Leaves level e False (assignment r) := by
  refine .ofEnsures fun c s h => ?_
  rw [assignment, Ensures.step_bind, Ensures.step_bind]
  split
  · have hyield : Leaves level e False (yieldExpression r) := inferInstance
    exact (hyield.out h).mono fun _ _ ht => ⟨ht.2.1.forget, ht.2.2⟩
  · rw [Ensures.step_bind]
    have hhere : Leaves level e False (conditional r) := inferInstance
    have hparams : Leaves false e.params False (conditional r) := inferInstance
    refine ((hhere.out h).and ((hparams.out h.params).and (Appraises.ensures (W := Node.Judged) h.idle))).bind fun n t hn => ?_
    obtain ⟨⟨-, h, hhere⟩, ⟨-, -, hparams⟩, hjudged⟩ := hn
    have hcovered : Covered e n t.context := ⟨hhere, hparams.mono fun _ => trivial⟩
    have hjudges : Judges n.Judged (asyncParameter r s.lookahead n) := inferInstance
    refine ((ensures_asyncParameter h.forget hcovered).and (hjudges.out h.idle hjudged)).bind fun m u hm => ?_
    obtain ⟨⟨h, hcovered⟩, hjudged⟩ := hm
    rw [Ensures.step_bind]
    split
    · exact ensures_arrowFunction h hcovered
    · next harrow =>
      refine ensures_seesAssignment.bind fun isAssigned v hv => ?_
      obtain ⟨rfl, hmark⟩ := hv
      have hparams : m.is .arrowParameters = false := by
        simp only [Bool.or_eq_true, not_or, Bool.not_eq_true] at harrow
        exact harrow.1
      split
      · next hassigned =>
        exact ensures_assignmentRest h (hcovered.here.mono fun _ => trivial) hjudged hparams (hmark hassigned)
      · exact .pure ⟨h, hcovered.here⟩

end Grammar

end EcmaSyntax
