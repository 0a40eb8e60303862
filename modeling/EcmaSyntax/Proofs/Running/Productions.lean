import EcmaSyntax.Proofs.Running.Basic

namespace EcmaSyntax

open Parse
open Meets (bind_iff step_iff step_bind ite_iff within_iff)

set_option synthInstance.maxSize 100000000000000

theorem Lexeme.isTemplate_of_isTemplateHead {l : Lexeme} (h : l.isTemplateHead) : l.isTemplate := by
  cases l <;> first | rfl | cases h

theorem Lexeme.reads_of_isKeyword {l : Lexeme} (h : l.isKeyword word) : l.reads word := by
  cases l <;> first | exact h | cases h

/-! ### Nodes -/

/-- A production gives a node, and no value in the place of one. -/
theorem ensures_form (h : Formed c s) {p : Parse Node}
    [hp : Reads View.unit p] : Ensures p c s fun n _ => n.form ≠ "" :=
  ((hp.out ()).sound Semantics.unit c s h).mono fun _ _ ⟨_, _, _, hn, _⟩ =>
    (View.holds_node.1 hn).2.1.tidy.form

theorem Calm.requireNode [Extent c] (h : n.form ≠ "") : Calm c k (requireNode n) := by
  have hn : n.isStandIn = false := beq_eq_false_iff_ne.2 h
  rw [Parse.requireNode, Parse.require, hn, Bool.not_false, if_pos rfl]
  infer_instance

variable {c : ParseSetting} [Extent c] {r : Recur} {e : Nat} {k : Mode} {β : Type} {asks : β → Prop}

section

variable {p : Parse Node} {f : Node → Parse β} [Reads View.unit p]

theorem RunsOn.seqNode (hp : RunsOn P c r e .code Always p)
    (hf : ∀ n, n.form ≠ "" → Runs c r 2 .code k Never (f n)) : RunsOn P c r e k asks (p >>= f) := by
  refine ⟨fun s hg hs h => Meets.bind_iff.2 <| ((hp.out s hg hs h).and_ensures
    (ensures_form hs.formed)).mono fun n t ⟨⟨ht, _, hread⟩, hn⟩ => ?_⟩
  have hlt := hread trivial
  refine ((hf n hn).out t (hg.mono (by omega)) ht).mono fun y u ⟨hu, hle', _⟩ => ?_
  exact ⟨hu, Nat.le_of_lt (Nat.lt_of_le_of_lt hle' hlt), fun _ => Nat.lt_of_le_of_lt hle' hlt⟩

theorem Runs.seqNode (hp : Runs c r e .code .code Always p)
    (hf : ∀ n, n.form ≠ "" → Runs c r 2 .code k Never (f n)) : Runs c r e .code k asks (p >>= f) :=
  .ofAny (.seqNode inferInstance hf)

end

/-- Elements of markup are expressions. -/
class ParseSetting.Extended (c : ParseSetting) : Prop where
  jsx : c.jsx

/-! ### Tokens of markup -/

namespace Runs

/-- Where there is markup, it is an extension that is on. -/
theorem ofJsx (h : c.Extended → Runs c r e .markup k asks p) : Runs c r e .markup k asks p :=
  ⟨fun s hg hs => (h ⟨Tagged.jsx hs⟩).out s hg hs⟩

/-- A token that is no good if it is the end, or a template. -/
theorem ofNextMarkup (hend : ∀ t s, t.lexeme = .eof ∨ t.lexeme = .templateMark →
      Meets (Failure.Allowed c) (f t) c s fun _ _ => False) (hf : ∀ t, Runs c r 2 .markup k Never (f t)) :
    Runs c r e .markup k asks (Grammar.nextMarkup >>= f) := by
  refine ⟨fun s hg h => Meets.bind_iff.2 <| (Tagged.meets_nextMarkup h).mono fun t u hu => ?_⟩
  by_cases hbad : t.lexeme = .eof ∨ t.lexeme = .templateMark
  · exact (hend t u hbad).mono fun _ _ => False.elim
  obtain ⟨hu, hlt⟩ := hu (fun h => hbad (.inl h)) fun h => hbad (.inr h)
  refine ((hf t).out u (hg.mono (by omega)) hu).mono fun _ v ⟨hv, hle, _⟩ => ?_
  exact ⟨hv, Nat.le_trans hle (Nat.le_of_lt hlt), fun _ => Nat.lt_of_le_of_lt hle hlt⟩

end Runs

namespace Grammar

instance [Decidable q] [hn : Calm c k (finish start n)]
    [hn' : Calm c k (finish start n')] : Calm c k (finish start (if q then n else n')) := by
  split
  · exact hn
  · exact hn'

/-! ### Names, keys and binding patterns -/

instance : Runs c r e .code .code Always identifierName := by
  refine .seq fun start => .ofNext (fun t s heof => ?_) fun t => inferInstance
  rw [heof]
  exact meets_unexpected

instance : Runs c r e .code .code Always propertyName := by
  refine .seq fun start => .ofNext (fun t s heof => ?_) fun t => ?_
  · rw [heof]
    exact meets_unexpected
  · split <;> infer_instance

instance : Runs c r e .code .code Always (variableIdentifier kind) := by
  refine .seq fun start => .ofNext (fun t s heof => ?_) fun t => inferInstance
  rw [heof, Meets.step_bind]
  have hlet : Lexeme.eof.reads "let" = false := by decide
  simp [Lexeme.isKeyword, Lexeme.isIdentifier, isReservedInStrict, hlet]
  exact meets_unexpected

instance : Runs c r e .code .code Always (propertyKey r) := by
  refine .seq fun start => .ofNext (fun t s heof => ?_) fun t => ?_
  · rw [heof]
    exact meets_unexpected
  · split <;> infer_instance

/-! ### Functions -/

section

variable [Recur.Reads View.unit r] {m : Member}

instance : Runs c r (e + 1) .code .code Never (directives r) := by
  refine .loop fun (body, octal) => .seq fun t => ?_
  split
  · refine .seqNode inferInstance fun statement hform => ?_
    have := Calm.requireNode (c := c) (k := .code) hform
    split
    · cases octal <;> infer_instance
    · infer_instance
  · infer_instance

instance : Runs c r e .code .code Always (plainMethod r) := by
  unfold plainMethod plainMethodNode; infer_instance
instance : Runs c r e .code .code Always (getter r) := by
  unfold getter plainMethodNode; infer_instance

instance : Runs c r e .code .code Always (setter r) := by
  unfold setter plainMethodNode; infer_instance

/-! ### Classes -/

instance : Runs c r e .code .code Never (memberByToken r start m) := by
  unfold memberByToken
  split <;> infer_instance

instance : Runs c r e .code .code Never (member r start hasConstructor m) := by
  have hfinish (m : Member) (kind : MemberKind) : Calm c .code (finish start
      ((if kind = .field then Node.fieldDefinition else Node.methodDefinition) m.key m.computed m.value
        (.word kind.word) m.isStatic)) := by
    split <;> infer_instance
  unfold member
  infer_instance

end

/-! ### Markup -/

instance : Runs c r e .markup .code Never leaveMarkup :=
  ⟨fun _ _ h => (Tagged.meets_skip h).mono fun _ _ hu => ⟨hu.1, hu.2, False.elim⟩⟩

instance [h : c.Extended] : Runs c r e .code .markup Never reenterMarkup :=
  ⟨fun _ _ hs => (Ready.meets_reenterMarkup hs h.jsx).mono fun _ _ hu => ⟨hu.1, hu.2, False.elim⟩⟩

instance : Runs c r e .markup .markup Never passTrivia :=
  ⟨fun _ _ h => (Tagged.meets_trivia h).mono fun _ _ hu => ⟨hu.1, hu.2, False.elim⟩⟩

instance : Runs c r e .markup .markup Never nextMarkupText :=
  ⟨fun _ _ h => (Tagged.meets_nextMarkupText h).mono fun _ _ hu => ⟨hu.1, hu.2, False.elim⟩⟩

instance : Runs c r e .markup .markup Always (expectMarkup mark) := by
  refine .ofNextMarkup (fun t s hbad => ?_) fun t => inferInstance
  rcases hbad with heq | heq <;> rw [heq] <;> exact meets_unexpected

/-! ### Names and attributes -/

instance : Runs c r e .markup .markup Always markupIdentifier := by
  refine .seq fun start => .ofNextMarkup (fun t s hbad => ?_) fun t => ?_
  · rcases hbad with heq | heq <;> rw [heq] <;> exact meets_unexpected
  · split <;> infer_instance

instance : Runs c r e .markup .markup Always attributeString := by
  refine .seq fun start => .ofNextMarkup (fun t s hbad => ?_) fun t => ?_
  · rcases hbad with heq | heq <;> rw [heq] <;> exact meets_unexpected
  · split <;> infer_instance

instance : Runs c r e .markup .markup Always (attributeExpression r) := by
  exact .ofJsx fun _ => inferInstance

instance : Runs c r e .markup .markup Always (spreadAttribute r) := by
  exact .ofJsx fun _ => inferInstance

/-! ### Tags and elements -/

instance : Runs c r e .markup .markup Always (expressionContainer r) := by
  exact .ofJsx fun _ => inferInstance

instance : Runs c r e .markup .markup Never (elementRest r el) := by
  refine .loop fun (el, outer) => .seq fun atEnd => ?_
  cases outer <;> infer_instance

/-- In place of the lookahead, an element is read. -/
instance [hP : Present P] [hjsx : c.Extended] : RunsOn P c r e .code Always (markupRoot r) := by
  have hrest : Runs c r e .markup .code Always (do
      let el ← element r
      leaveMarkup
      return el) := inferInstance
  refine ⟨fun s hg hs h => ?_⟩
  have henter := Ready.meets_enterMarkup hs hjsx.jsx (hP.ne_eof _ h)
  rw [markupRoot, ← bind_assoc]
  refine Meets.bind_iff.2 <| henter.mono fun _ u ⟨hu, hleft⟩ => ?_
  rw [← hleft] at hg ⊢
  exact hrest.out u hg hu

variable {s : ParseState} [Recur.Reads View.unit r] {P : Lexeme → Prop} {right : Operand} {isAsync : Bool}

/-! ### Arrays and objects -/

instance : Runs c r e .code .code Always (propertyHead r start) := by
  refine .ofPeek fun t => ?_
  split
  · next hname =>
    have : Present (· = t.lexeme) := .of_ne fun heof => by
      rw [heof] at hname
      cases hname
    infer_instance
  · infer_instance

instance : Runs c r e .code .code Always (objectProperty r hasProto) := by
  refine .seq fun start => .seqRead fun h => .seq fun t => ?_
  cases h.key <;> infer_instance

/-! ### Templates -/

instance : Runs c r e .code .code Always templateChunk := by
  refine .seq fun start => .ofNext (fun t s heof => ?_) fun t => ?_
  · rw [heof]
    exact meets_unexpected
  · split <;> infer_instance

/-- Only a template that goes on is no good where one starts. -/
instance : RunsOn (·.isTemplate) c r e .code Always templateHead := by
  unfold templateHead
  refine ⟨fun s hg hs htemplate => ?_⟩
  rw [step_bind, bind_iff, require, ite_iff]
  refine ⟨fun _ => ?_, fun hhead => ?_⟩
  · exact (inferInstance : Runs c r e .code .code Always templateChunk).out s hg hs
  · exact .inl ((hs.found.template htemplate).2.resolve_left hhead)

instance : Runs c r e .code .code Never resumeTemplate :=
  ⟨fun _ _ h => (Ready.meets_resumeTemplate h).mono fun _ _ hu => ⟨hu.1, Nat.le_of_eq hu.2, False.elim⟩⟩

instance : RunsOn (·.isTemplate) c r e .code Always (templateLiteral r) := by
  refine .calm inferInstance fun start => .seqNode inferInstance fun first hfirst => ?_
  -- The chunk that a round starts with is a node.
  refine .bind (.loopWith (I := fun x => x.2.2.form ≠ "") hfirst ?_) fun _ => inferInstance
  rintro ⟨quasis, expressions, last⟩ hlast s hg hs
  have hexpression : Runs c r 2 .code .code Always (expression r) := inferInstance
  have helement : Runs c r 2 .code .code Always templateElement := inferInstance
  refine bind_iff.2 <| ((Calm.requireNode hlast).out s hs).mono fun _ t ht => ?_
  rw [← ht.left .code] at hg ⊢
  rw [ite_iff]
  refine ⟨fun _ => ⟨ht.ready hs, Nat.le_refl _, False.elim, nofun⟩, fun _ => bind_iff.2 ?_⟩
  refine (hexpression.out t hg (ht.ready hs)).mono fun _ u ⟨hu, _, hread⟩ => bind_iff.2 ?_
  have hlt := hread trivial
  refine ((helement.out u (hg.mono (by omega)) hu).and_ensures (ensures_form (Ready.toSane hu).formed)).mono
    fun quasi v ⟨⟨hv, hle, _⟩, hquasi⟩ => ?_
  refine ⟨hv, by omega, fun _ => by omega, ?_⟩
  rintro _ ⟨⟩
  exact hquasi

/-! ### All primary expressions -/

instance [Present P] : RunsOn P c r e .code Always (literal value) := by
  unfold literal; infer_instance

instance : RunsOn (·.isSlash) c r e .code Always regexLiteral :=
  ⟨fun _ _ hs h => (Ready.meets_regexLiteral hs h).mono fun _ _ hu => ⟨hu.1, Nat.le_of_lt hu.2, fun _ => hu.2⟩⟩

instance [Present P] : RunsOn P c r e .code Always (keywordExpression r word) := by
  unfold keywordExpression; infer_instance

instance : RunsOn (· = .punctuator mark) c r e .code Always (markExpression r mark) := by
  unfold markExpression
  split
  · infer_instance
  split
  · infer_instance
  split
  · infer_instance
  split
  · next hslash =>
    refine RunsOn.mono (P := (·.isSlash)) inferInstance ?_
    simpa [Lexeme.isSlash, Lexeme.isMark, Text.isAny] using hslash
  · infer_instance

instance : Runs c r e .code .code Always (primary r) := by
  refine .ofRead <| .ofTest (·.isMark "<") fun b => ?_
  split
  · next hmarkup =>
    obtain ⟨hjsx, rfl⟩ := Bool.and_eq_true_iff.1 hmarkup
    have : c.Extended := ⟨hjsx⟩
    infer_instance
  refine @RunsOn.ofRuns _ _ _ _ _ _ _ _ _ (.seq fun start => .ofPeek fun t => ?_)
  have present (h : t.lexeme ≠ .eof) : Present (· = t.lexeme) := .of_ne h
  split
  case h_8 heq | h_9 heq =>
    refine RunsOn.mono (P := (·.isTemplate)) inferInstance ?_
    rintro _ rfl
    rw [heq]
    rfl
  case h_10 heq =>
    rw [heq]
    infer_instance
  case h_12 => infer_instance
  all_goals
    next heq =>
    have := present (by rw [heq]; nofun)
    infer_instance

/-! ### Accesses and calls -/

variable {start : Mark} {n : Node}

instance : Runs c r e .code .code Again (memberLink r start allowCall n) := by
  have htemplate : Runs c r e .code .code Again (do
      if (← peek).lexeme.isTemplateHead then
        let quasi ← templateLiteral r
        return .again (← finish start (.taggedTemplateExpression n quasi))
      return .done n : Parse (Round Node Node)) := by
    refine .ofPeek fun t => ?_
    split
    · next hhead =>
      have hquasi : RunsOn (· = t.lexeme) c r e .code Always (templateLiteral r) := by
        refine RunsOn.mono (P := (·.isTemplate)) inferInstance ?_
        rintro _ rfl
        exact Lexeme.isTemplate_of_isTemplateHead hhead
      infer_instance
    · infer_instance
  infer_instance

/-! ### Chains -/

section

omit [Recur.Reads View.unit r]

/-- The name that a keyword is read as. -/
theorem meets_keywordName (hs : Ready c s) (h : s.lookahead.lexeme.isKeyword word) :
    Meets (Failure.Allowed c) identifierName c s fun n t => Ready c t
      ∧ Mode.code.left c t < Mode.code.left c s ∧ (n.textOf "name").is word ∧ t.context = s.context := by
  unfold identifierName
  rw [step_bind, bind_iff]
  refine hs.meets_next.mono fun t u hnext => ?_
  obtain ⟨hu, -, hlt, ht, hcontext⟩ := hnext
  obtain ⟨w, hw⟩ : ∃ w, t.lexeme = .keyword w := by
    cases hl : s.lookahead.lexeme <;> simp_all [Lexeme.isKeyword]
  have hword : w.is word := by
    rw [← ht, hw] at h
    exact h
  have hkept : Ensures (finish s.startMark (.identifier (.ofLexeme (.keyword w)))) c u fun _ v =>
      v.context = u.context := by
    simp only [Ensures.step_iff]
  rw [hw, Lexeme.isIdentifierName, if_pos rfl]
  refine ((Calm.out (k := .code) u hu).and_ensures (hkept.and
    (ensures_finish_idle (Ready.toSane hu).formed.idle))).mono fun n v hfinish => ?_
  obtain ⟨hv, hcontext', hn⟩ := hfinish
  refine ⟨hv.ready hu, hv.left .code ▸ hlt (by rw [hw]; nofun), ?_, hcontext'.trans hcontext⟩
  rw [hn]
  exact hword

/-- After `new`, what is constructed is a chain of accesses, and `in` must be an operator there. -/
theorem meets_newExpression (hg : r.Grants c (2 * Mode.code.left c s + e)) (hs : Ready c s)
    (hnew : s.lookahead.lexeme.isKeyword "new") (hin : s.context.allowIn) :
    Meets (Failure.Allowed c) (newExpression r) c s fun _ t =>
      Ready c t ∧ Mode.code.left c t < Mode.code.left c s := by
  unfold newExpression
  rw [step_bind, bind_iff]
  refine (meets_keywordName hs hnew).mono fun id t hword => ?_
  obtain ⟨ht, hlt, hname, hcontext⟩ := hword
  have hg : r.Grants c (2 * Mode.code.left c t + 2) := hg.mono (by omega)
  have hin : t.context.allowIn := hcontext ▸ hin
  rw [hname, require, if_pos rfl, pure_bind, bind_iff]
  have rest {p : Parse Node} {v : ParseState} (hp : Runs c r 2 .code .code Never p) (hv : Ready c v)
      (hle : Mode.code.left c v ≤ Mode.code.left c t) : Meets (Failure.Allowed c) p c v fun _ w =>
        Ready c w ∧ Mode.code.left c w < Mode.code.left c s := by
    refine (hp.out v (hg.mono (by omega)) hv).mono fun _ w hw => ⟨hw.1, ?_⟩
    omega
  refine ht.meets_accept.mono fun b u hu => ?_
  cases b with
  | true =>
    exact rest inferInstance hu.1 (Nat.le_of_lt hu.2)
  | false =>
    rw [if_neg (by decide)] at hu ⊢
    subst hu
    rw [step_bind, ite_iff]
    refine ⟨fun _ => trivial, fun _ => ?_⟩
    have hcallee := hg .memberChain _ (Nat.lt_add_of_pos_right (by decide))
      { u with context := freshCover u.context } (ht.withContext _) rfl fun _ => hin
    refine bind_iff.2 <| (Ready.meets_isolate hcallee).mono fun callee v hv => ?_
    exact rest inferInstance hv.1 (Nat.le_of_lt hv.2)

end

theorem meets_chainHead (hg : r.Grants c (2 * Mode.code.left c s + e)) (hs : Ready c s)
    (hin : s.context.allowIn) : Meets (Failure.Allowed c) (chainHead r) c s fun _ t =>
      Ready c t ∧ Mode.code.left c t < Mode.code.left c s := by
  have hprimary : Runs c r e .code .code Always (primary r) := inferInstance
  have hcover := hs.withContext (freshCover s.context)
  rw [chainHead, step_bind, inherit, within_iff, ite_iff]
  refine ⟨fun hnew => ?_, fun _ => ?_⟩
  · exact (meets_newExpression (s := { s with context := freshCover s.context }) hg hcover hnew hin).mono
      fun _ t ht => ⟨ht.1.withContext _, ht.2⟩
  · exact (hprimary.out { s with context := freshCover s.context } hg hcover).mono
      fun _ t ⟨ht, _, hread⟩ => ⟨Ready.withContext ht _, hread trivial⟩

/-- A chain starts with the parent class, or with an expression where `in` is an operator. -/
theorem meets_chain
    (hm : RunsOn (·.isKeyword "super") c r e .code Always m) (hf : ∀ n, Runs c r 2 .code .code Never (f n))
    (hg : r.Grants c (2 * Mode.code.left c s + e)) (hs : Ready c s) (hin : s.context.allowIn) :
    Meets (Failure.Allowed c)
      (if s.lookahead.lexeme.isKeyword "super" && inFunction then m else chainHead r >>= f) c s fun _ t =>
        Ready c t ∧ Mode.code.left c t < Mode.code.left c s := by
  rw [ite_iff, Bool.and_eq_true]
  refine ⟨fun ⟨hsuper, _⟩ => ?_, fun _ => bind_iff.2 ?_⟩
  · exact (hm.out s hg hs hsuper).mono fun _ t ⟨ht, _, hread⟩ => ⟨ht, hread trivial⟩
  · refine (meets_chainHead hg hs hin).mono fun first t ⟨ht, hlt⟩ => ?_
    exact ((hf first).out t (hg.mono (by omega)) ht).mono fun _ u ⟨hu, hle, _⟩ =>
      ⟨hu, Nat.lt_of_le_of_lt hle hlt⟩

instance : Runs c r e .code .code Always (callChain r) := by
  refine .seq fun t => .seq fun maybeAsync => ⟨fun s hg hs => ?_⟩
  rw [within_iff, step_bind, step_bind]
  refine (meets_chain (s := { s with context := { s.context with allowIn := true } }) inferInstance
    (fun _ => inferInstance) hg (Ready.withContext hs _) rfl).mono fun _ t ⟨ht, hlt⟩ => ?_
  exact ⟨Ready.withContext ht _, Nat.le_of_lt hlt, fun _ => hlt⟩

theorem meets_memberChain (hg : r.Grants c (2 * Mode.code.left c s + e)) (hs : Ready c s)
    (hin : s.context.allowIn) : Meets (Failure.Allowed c) (memberChain r) c s fun _ t =>
      Ready c t ∧ Mode.code.left c t < Mode.code.left c s := by
  unfold memberChain
  rw [step_bind, hin, require, if_pos rfl, pure_bind, step_bind, step_bind, step_bind]
  exact meets_chain inferInstance (fun _ => inferInstance) hg hs hin

/-! ### Operators -/

instance : Runs c r e .code .code Always (updateExpression r) := by
  refine .seq fun first => .ofTest (fun l => ["++", "--"].any l.isMark) fun b => ?_
  cases b with
  | true => infer_instance
  | false => infer_instance

instance [Present P] : RunsOn P c r e .code Always (awaitExpression r) := by
  unfold awaitExpression; infer_instance

instance : Runs c r e .code .code Always (unaryExpression r) := by
  refine .ofTest (fun l => ["+", "-", "~", "!"].any l.isMark) fun a => ?_
  cases a with
  | true =>
    infer_instance
  | false =>
    refine @RunsOn.ofRuns _ _ _ _ _ _ _ _ _ <|
      .ofTest (fun l => ["delete", "void", "typeof"].any l.isKeyword) fun b => ?_
    cases b with
    | true =>
      infer_instance
    | false =>
      refine .calm inferInstance fun x => @RunsOn.ofRuns _ _ _ _ _ _ _ _ _ <|
        .ofTest (·.isName "await") fun b => ?_
      cases b with
      | true => infer_instance
      | false =>
        simp only [Bool.and_false, Bool.false_eq_true, if_false]
        infer_instance

instance : Runs c r e .code .code Always (exponentiation r) := by
  refine .seq fun first => .seqNode inferInstance fun operand hform => ?_
  have := Calm.requireNode (c := c) (k := .code) hform
  infer_instance

instance {p : Pending} : Calm c .code (p.complete lineStart right) := by
  unfold Pending.complete; infer_instance

/-! ### Arrows and assignments -/

instance : Runs c r e .code .code Always (arrowRest r start isAsync f) := by
  have hfinish (body : Node) : Calm c .code (finish start
      ((if isAsync then Node.asyncArrowFunctionExpression else Node.arrowFunctionExpression)
        (.list f.params) body (!body.is .blockStatement))) := by
    split <;> infer_instance
  infer_instance

instance : Runs c r e .code .code Never (arrowFunction r first n) := by
  refine .seq fun _ => .seq fun f => ?_
  cases f <;> infer_instance

/-! ### Declarations of variables -/

instance : RunsOn (fun l => l.reads "let" || l.reads "const") c r e .code Always (lexicalDeclaration r) := by
  refine .calm inferInstance fun start => ⟨fun s hg hs h => Meets.bind_iff.2 ?_⟩
  refine hs.meets_next.mono fun t u ⟨hu, hle, _, ht, _⟩ => ?_
  have rest {p : Parse Node} (hp : Runs c r e .code .code Always p) :
      Meets (Failure.Allowed c) p c u fun x v => Ready c v ∧ Mode.code.left c v ≤ Mode.code.left c s
        ∧ (Always x → Mode.code.left c v < Mode.code.left c s) :=
    (hp.out u (hg.mono (by omega)) hu).mono fun _ v ⟨hv, hle', hread⟩ =>
      ⟨hv, Nat.le_trans hle' hle, fun h => Nat.lt_of_lt_of_le (hread h) hle⟩
  rw [require, if_pos (ht ▸ h), pure_bind]
  exact rest inferInstance

/-! ### Statements -/

instance : Runs c r e .code .code Always (variableLoopHead r isAwait) := by
  refine .seq fun start => .seq fun _ => .seqRead fun declarations => ?_
  split <;> infer_instance

instance : Runs c r (e + 1) .code .code Always (lexicalLoopHead r isAwait) := by
  refine .seq fun start => .seq fun t => .seq fun isStrict =>
    .seq fun seen => ?_
  dsimp only
  split
  · infer_instance
  · refine .seqRead fun declarations => ?_
    split <;> infer_instance

instance : Runs c r (e + 2) .code .code Never (forRest r start isAwait head) := by
  cases head with
  | steps init => unfold forRest; infer_instance
  | names left right => unfold forRest; infer_instance
  | values left right =>
    have hfinish (body : Node) : Calm c .code (finish start
        ((if isAwait then Node.forAwaitStatement else Node.forOfStatement) left right body)) := by
      split <;> infer_instance
    unfold forRest
    infer_instance

instance : Runs c r e .code .code Always (switchCases r) := by
  refine .seqRead fun _ => .bind (.loop fun (cases, hasDefault) => ?_) fun _ => inferInstance
  refine .seq fun stop => ?_
  split
  · infer_instance
  · refine .seqNode inferInstance fun clause hform => ?_
    have := Calm.requireNode (c := c) (k := .code) hform
    infer_instance

instance : Runs c r (e + 1) .code .code Always (keywordStatement r word) := by
  unfold keywordStatement
  repeat refine .choice inferInstance ?_
  infer_instance

instance : Runs c r (e + 1) .code .code Always (statement r) := by
  refine .seq fun t => ?_
  split <;> infer_instance

/-! ### Imports and exports -/

instance : Runs c r (e + 2) .code .code Always (exportedDeclaration r) := by
  refine .ofTest (fun l => ["let", "const"].any l.isKeyword) fun b => ?_
  cases b with
  | true =>
    refine RunsOn.mono (P := fun l => l.reads "let" || l.reads "const") inferInstance fun l hl => ?_
    simp only [List.any_cons, List.any_nil, Bool.or_false, Bool.or_eq_true] at hl ⊢
    exact hl.imp Lexeme.reads_of_isKeyword Lexeme.reads_of_isKeyword
  | false => infer_instance
instance : Runs c r e .code .code Never (exportNames start) := by unfold exportNames; infer_instance

/-! ### All productions -/

instance : Runs c r (e + 1) .code .code Always (item r) := by
  refine .seq fun _ => .ofPeek fun t => .calm inferInstance fun context => ?_
  have hlexical (h : t.lexeme.isKeyword "let" ∨ t.lexeme.isKeyword "const") :
      RunsOn (· = t.lexeme) c r (e + 1) .code Always (lexicalDeclaration r) := by
    refine RunsOn.mono (P := fun l => l.reads "let" || l.reads "const") inferInstance ?_
    rintro _ rfl
    exact Bool.or_eq_true_iff.2 (h.imp Lexeme.reads_of_isKeyword Lexeme.reads_of_isKeyword)
  split
  · infer_instance
  split
  · infer_instance
  split
  · next hconst => exact hlexical (.inr hconst)
  split
  · infer_instance
  split
  · infer_instance
  split
  · next hlet =>
    have := hlexical (.inl hlet)
    infer_instance
  · infer_instance

omit [Recur.Reads View.unit r] in
/-- A rule reads something, if the rules below it do. -/
theorem runs_run (rule : Rule) (h : rule ≠ .memberChain) :
    Runs c (run depth) rule.rank rule.mode rule.mode Always (run (depth + 1) rule) := by
  cases rule with
  | memberChain => exact absurd rfl h
  | _ => simp only [run, Rule.rank, Rule.mode]; infer_instance

omit [Recur.Reads View.unit r] in
/-- All rules read something, if they are nested no deeper than a bound. -/
theorem run_grants (c : ParseSetting) [Extent c] (depth : Nat) : (run depth).Grants c depth := by
  induction depth with
  | zero => exact fun _ _ h => absurd h (Nat.not_lt_zero _)
  | succ depth ih =>
    intro rule left hcost s hs hleft hin
    have hg : (run depth).Grants c (2 * rule.mode.left c s + rule.rank) := ih.mono (by omega)
    subst hleft
    by_cases hrule : rule = .memberChain
    · subst hrule
      exact meets_memberChain hg hs (hin rfl)
    · exact ((runs_run rule hrule).out s hg hs).mono fun _ _ ht => ⟨ht.1, ht.2.2 trivial⟩

end Grammar

end EcmaSyntax
