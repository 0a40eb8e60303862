import EcmaSyntax.Proofs.Fitting.Literals

/-!
# Expressions that fit

An initializer stays pending only in the first operand of an operator; the others are read on their own.
Calls of what may be an asynchronous function are an exception: their arguments are read as if an arrow
might follow, and what is pending in them is forgotten even if none does. Such a call is known by what it
starts with (`Node.StartsAsync`).
-/

namespace EcmaSyntax

open Parse
open Ensures (bind_iff step_iff step_bind throw_iff scan_iff)

set_option synthInstance.maxSize 100000000000000

variable {level : Bool} {e : Surroundings} {P : Prop}

variable {n : Node} {ps : List Pending} {right : Operand}

/-- What an attribute holds fits, wherever something may be pending. -/
theorem Fits.get (h : Fits e P (.node n)) (hn : n.isAny frames = false)
    (hname : isPlace name = false) : Fits e True (n.get name) := by
  rcases n.mem_get_or_null name with hmem | hnull
  · exact h.freely hn _ hmem hname
  · rw [hnull]
    exact .scalar rfl

theorem Fits.asNode (h : Fits e P v) (hn : v.asNode? = some n) : Fits e P (.node n) := by
  cases v with
  | object =>
    cases hn
    exact h
  | _ => cases hn

theorem Fits.items (h : Fits e P v) : ∀ u ∈ v.items, Fits e P u := by
  cases v with
  | list vs => exact Fits.list_iff.1 h
  | _ => exact List.forall_mem_nil _

/-! ### Chains that start with `async` -/

/-- A production that lengthens a chain. -/
class Lengthens (n : Node) (p : Parse Node) : Prop where
  out {c : ParseSetting} {s : ParseState} : c.delegate = .idle → n.StartsAsync →
    Ensures p c s fun m _ => m.StartsAsync

section

variable {start : Mark} {a b : Value}

instance [h : ∀ x, Lengthens n (f x)] : Lengthens n (p >>= f) :=
  ⟨fun hc hn => .anyway fun x _ => (h x).out hc hn⟩

instance [hp : Lengthens n p] [hf : ∀ x, Lengthens x (f x)] : Lengthens n (p >>= f) :=
  ⟨fun hc hn => (hp.out hc hn).bind fun x _ hx => (hf x).out hc hx⟩

instance : Lengthens n (pure n) := ⟨fun _ hn => .pure hn⟩

instance [Decidable q] [hp : Lengthens n p] [hp' : Lengthens n p'] : Lengthens n (if q then p else p') := by
  split
  · exact hp
  · exact hp'

theorem Lengthens.ofLink (l : Kind × String) (hl : l ∈ chainLinks) (hm : m.is l.1)
    (hchild : m.child? l.2 = some n) : Lengthens n (finish start m) := by
  refine ⟨fun hc hn => (ensures_finish_idle hc).mono fun x t hx => ?_⟩
  rw [hx]
  exact .link hl hm hchild hn

instance : Lengthens n (finish start (.callExpression n a b)) :=
  .ofLink (.callExpression, "callee") (by decide) rfl rfl
instance : Lengthens n (finish start (.staticMemberExpression n a b)) :=
  .ofLink (.memberExpression, "object") (by decide) rfl rfl
instance : Lengthens n (finish start (.computedMemberExpression n a b)) :=
  .ofLink (.memberExpression, "object") (by decide) rfl rfl
instance : Lengthens n (finish start (.taggedTemplateExpression n a)) :=
  .ofLink (.taggedTemplateExpression, "tag") (by decide) rfl rfl

end

/-- Does an arrow follow? -/
def ParseState.SeesArrow (s : ParseState) : Prop := s.lookahead.lexeme.isMark "=>"

theorem Lexeme.eq_of_isMark {l : Lexeme} (hv : l.isMark v) (hw : l.isMark w) : v = w := by
  cases l with
  | punctuator m =>
    have hm : m = Text.ofString v := beq_iff_eq.1 hv
    exact Text.ofString_is.1 (hm ▸ hw)
  | _ => exact absurd hv Bool.false_ne_true

namespace Grammar

variable {r : Recur} [Recur.Restores r] [Recur.Fills r] {c : ParseSetting} {s : ParseState}

/-! ### Parentheses -/

/-- Anything may be pending in parameters before an arrow. -/
instance [hn : Fitting e P n] : Leaves level e P (closeGroup n) := by
  have hparams : Fitting e True (if n.is .sequenceExpression
      then (n.get "expressions").items.map Value.asPattern else [(Value.node n).asPattern]) := by
    have hfree : Fitting e True (Value.node n) := ⟨Fits.mono hn.out fun _ => trivial⟩
    split
    · next hsequence =>
      have : Fitting e True (n.get "expressions").items :=
        ⟨(Fits.get hn.out (Node.not_isAny_of_is hsequence (by decide)) (by decide)).items⟩
      infer_instance
    · infer_instance
  have : Fitting e True n := ⟨Fits.mono hn.out fun _ => trivial⟩
  infer_instance

omit [Recur.Restores r] in
/-- The expressions in parentheses fit. If they turn out to be parameters, anything may be pending in them. -/
theorem ensures_groupRest (h : Situated level e False c s)
    (hfirst : Fits e s.context.IsPending (.node first)) : Ensures (groupRest r first t) c s fun n u =>
      Situated level e False c u ∧ Fits e u.context.IsPending (.node n) := by
  refine (ensures_loop
    (I := fun (es : List Node) u => Situated level e False c u ∧ Carries.fits e u.context.IsPending es)
    (Q := fun (x : List Node × Bool) u => Situated level e False c u ∧ Carries.fits e (x.2 ∨ u.context.IsPending) x.1)
    ⟨h, List.forall_mem_singleton.2 hfirst⟩ fun es u hu => ?_).bind fun x u hu => ?_
  · obtain ⟨h, hes⟩ := hu
    have hfree {Q : Prop} : Carries.fits e (true = true ∨ Q) es := Carries.mono (fun _ => .inl rfl) hes
    refine h.exact.seq fun isMore u h _ => ?_
    split
    · refine h.seq fun isClosed u h _ => ?_
      split
      · exact .pure ⟨h.forget, hfree⟩
      · refine h.seq fun isRest u h _ => ?_
        split
        · refine h.forget.seq fun b u h _ => ?_
          split
          · refine h.seq fun rest u h hrest => ?_
            refine h.seq fun _ u h _ => h.seq fun _ u h _ => h.seq fun _ u h _ => ?_
            exact .pure ⟨h, List.forall_mem_append.2 ⟨hfree, List.forall_mem_singleton.2 (hrest.1.mono False.elim)⟩⟩
          · exact h.seq fun _ _ h _ => .seq ensures_unexpected
        · refine h.seqLeaving fun x u hkept h hx => .pure ⟨h.forget, ?_⟩
          exact List.forall_mem_append.2 ⟨Carries.mono hkept hes, List.forall_mem_singleton.2 hx⟩
    · exact .pure ⟨h.forget, Carries.mono (fun hp => .inr (h.pending hp)) hes⟩
  · obtain ⟨es, isArrow⟩ := x
    obtain ⟨h, hes⟩ := hu
    dsimp only at hes ⊢
    split
    · have : Fitting e True es := ⟨Carries.mono (fun _ => trivial) hes⟩
      have hparams : Fitting e u.context.IsPending (Node.arrowParameters (.nodes (es.map Node.asPattern))) :=
        inferInstance
      exact .pure ⟨h, hparams.out⟩
    · next hgroup =>
      have : Fitting e u.context.IsPending es := ⟨Carries.mono (fun hp => hp.resolve_left hgroup) hes⟩
      have hclose : Leaves level e u.context.IsPending
          (finishFrom t (.sequenceExpression (.nodes es)) >>= closeGroup) := inferInstance
      exact (hclose.out h.exact).mono fun n v hv => ⟨hv.2.1.forget, hv.2.2⟩

instance : Leaves level e False (groupExpression r) := by
  refine .ofEnsures fun c s h => h.seq fun _ s h _ => h.seq fun isClosed s h _ => ?_
  split
  · refine h.seq fun _ s h _ => .pure ⟨h, ?_⟩
    exact (inferInstance : Fitting e _ (Node.arrowParameters (.list []))).out
  · refine h.seq fun t s h _ => h.seq fun isRest s h _ => ?_
    split
    · refine h.seq fun rest s h hrest => h.seq fun _ s h _ => h.seq fun _ s h _ => ?_
      have : Fitting e True rest.1 := ⟨hrest.1.mono False.elim⟩
      exact .pure ⟨h, (inferInstance : Fitting e _ (Node.arrowParameters (.nodes [rest.1]))).out⟩
    · refine h.seq fun _ s h _ => h.seqLeaving fun first s _ h hfirst => ?_
      refine h.seq fun isMore t h _ => ?_
      split
      · refine h.seq fun _ t h _ => ensures_groupRest h.forget (hfirst.mono h.pending)
      · have : Fitting e s.context.IsPending first := ⟨hfirst⟩
        have hclose : Leaves level e s.context.IsPending (closeGroup first) := inferInstance
        exact (hclose.out h).mono fun n u hu => ⟨hu.2.1.forget, hu.2.2⟩

/-! ### All primary expressions -/

variable [Recur.Judges r] [Recur.Remembers r]

instance : Seals level e P regexLiteral := by
  refine .seq fun start _ => .seq fun _ _ => .seq fun _ _ => .seq fun t _ => ?_
  split
  · next compiled _ =>
    infer_instance
  · infer_instance

instance : Leaves level e False (primary r) := by
  refine .seq fun c _ => .seq fun isMarkup _ => ?_
  split
  · infer_instance
  · refine .seq fun start _ => .seq fun t _ => ?_
    split <;> infer_instance

/-! ### Accesses and calls -/

omit [Recur.Restores r] [Recur.Judges r] [Recur.Remembers r] in
/-- Arguments that may turn out to be parameters fit wherever something may be pending. What is pending before
them is so after them. -/
theorem ensures_asyncArguments (h : Situated level e P c s) :
    Ensures (asyncArguments r) c s fun args t => Situated level e P c t ∧ Carries.fits e True args := by
  have hone {s : ParseState} (h : Situated level e P c s) : Ensures (isolate (asyncArgument r)) c s fun n t =>
      Situated level e P c t ∧ Fits e True (.node n) := by
    refine ensures_isolate ?_
    have hfresh : Situated level e False c { s with context := freshCover s.context } := h.move rfl False.elim
    refine hfresh.seqLeaving fun n t _ ht hn => ?_
    refine .seq (.modify (.pure ?_))
    exact fun _ => ⟨ht.move rfl h.pending, hn.mono fun _ => trivial⟩
  refine h.seq fun _ s h _ => h.seq fun isEmpty s h _ => ?_
  have hclose {args : List Node} {s : ParseState} (h : Situated level e P c s)
      (hargs : Carries.fits e True args) : Ensures (do expect ")"; return args) c s fun args t =>
        Situated level e P c t ∧ Carries.fits e True args :=
    h.seq fun _ _ h _ => .pure ⟨h, hargs⟩
  split
  · exact hclose h (List.forall_mem_nil _)
  · refine (ensures_loop (I := fun (args : List Node) t => Situated level e P c t ∧ Carries.fits e True args)
      (Q := fun (args : List Node) t => Situated level e P c t ∧ Carries.fits e True args)
      ⟨h, List.forall_mem_nil _⟩ fun args t ht => ?_).bind fun args t ht => hclose ht.1 ht.2
    have hrest {n : Node} {u : ParseState} (h : Situated level e P c u) (hn : Fits e True (.node n)) : Ensures (do
          let args := args ++ [n]
          if ← sees ")" then return .done args
          expectComma
          if ← sees ")" then return .done args
          return .again args) c u (Round.Holds
            (fun (args : List Node) t => Situated level e P c t ∧ Carries.fits e True args)
            fun (args : List Node) t => Situated level e P c t ∧ Carries.fits e True args) := by
      have hargs : Carries.fits e True (args ++ [n]) :=
        List.forall_mem_append.2 ⟨ht.2, List.forall_mem_singleton.2 hn⟩
      refine h.seq fun isLast u h _ => ?_
      split
      · exact .pure ⟨h, hargs⟩
      · refine h.seq fun _ u h _ => h.seq fun isLast u h _ => ?_
        split
        · exact .pure ⟨h, hargs⟩
        · exact .pure ⟨h, hargs⟩
    refine ht.1.seq fun isSpread u h _ => ?_
    split
    · refine h.seqLeaving fun n u hkept h hn => ?_
      exact hrest (h.weaken hkept) (hn.mono fun _ => trivial)
    · exact (hone h).bind fun n u hn => hrest hn.1 hn.2

variable {start : Mark} {optional allowCall : Bool}

instance [Fitting e P n] : Leaves level e P (callLink r start false n) := by
  unfold callLink
  simp only [Bool.false_and, Bool.false_eq_true, if_false]
  infer_instance

instance : Lengthens n (computedAccess r start n optional) := by unfold computedAccess; infer_instance
instance : Lengthens n (staticAccess start n optional) := by unfold staticAccess; infer_instance
instance : Lengthens n (optionalLink r start allowCall n) := by unfold optionalLink; infer_instance
instance : Lengthens n (callLink r start false n) := by
  unfold callLink
  simp only [Bool.false_and, Bool.false_eq_true, if_false]
  infer_instance

omit [Recur.Restores r] [Recur.Fills r] [Recur.Judges r] [Recur.Remembers r] in
theorem ensures_memberLink_async (hc : c.delegate = .idle) (hs : n.StartsAsync ∨ s.SeesArrow) :
    Ensures (memberLink r start allowCall n) c s
      (Round.Holds (fun m t => m.StartsAsync ∨ t.SeesArrow) fun _ _ => True) := by
  have hagain {p : Parse Node} [hp : Lengthens n p] {s : ParseState} (hn : n.StartsAsync) :
      Ensures (p >>= fun n => pure (.again n)) c s
        (Round.Holds (fun m t => m.StartsAsync ∨ t.SeesArrow) fun (_ : Node) _ => True) :=
    (hp.out hc hn).bind fun _ _ ht => .pure (.inl ht)
  -- Nothing but a call is read before an arrow.
  have hlink {mark : String} (hmark : s.lookahead.lexeme.isMark mark) (hne : "=>" ≠ mark) : n.StartsAsync :=
    hs.resolve_right fun harrow => hne (Lexeme.eq_of_isMark harrow hmark)
  rw [memberLink, step_bind]
  split
  · next hmark =>
    exact .anyway fun _ _ => .anyway fun _ _ =>
      hagain (hlink hmark (by decide))
  · rw [step_bind, step_bind]
    split
    · next hmark => exact hagain (hlink (Bool.and_eq_true_iff.1 hmark).1 (by decide))
    · rw [step_bind]
      split
      · next hmark => exact .anyway fun _ _ => hagain (hlink hmark (by decide))
      · rw [step_bind]
        split
        · next htemplate =>
          refine .anyway fun _ _ => hagain (hs.resolve_right fun harrow => ?_)
          cases hlex : s.lookahead.lexeme <;>
            simp_all [ParseState.SeesArrow, Lexeme.isMark, Lexeme.isTemplateHead]
        · exact .pure trivial

omit [Recur.Restores r] [Recur.Judges r] [Recur.Remembers r] in
/-- A call of what may be an asynchronous function, or the parameters of one before an arrow. -/
theorem ensures_asyncCallLink (h : Situated level e P c s) (hn : Fits e P (.node n)) (hasync : n.StartsAsync) :
    Ensures (callLink r start true n) c s fun m t => Situated level e P c t ∧ Fits e P (.node m)
      ∧ (m.StartsAsync ∨ t.SeesArrow) := by
  have hrest {args : List Node} {s : ParseState} (h : Situated level e P c s)
      (hargs : Carries.fits e True args) : Ensures (do
        let call ← finish start (.callExpression n args false)
        if true && (← sees "=>") then return .asyncArrowParameters (args.map Node.asPattern)
        return call) c s fun m t => Situated level e P c t ∧ Fits e P (.node m) ∧ (m.StartsAsync ∨ t.SeesArrow) := by
    have hlink : Lengthens n (finish start (.callExpression n args false)) := inferInstance
    have hcall : (Node.callExpression n args false).StartsAsync :=
      .link (l := (.callExpression, "callee")) (by decide) rfl rfl hasync
    have : Fitting e True args := ⟨hargs⟩
    have hargs : Fitting e True (Value.nodes args) := inferInstance
    refine ((h.ensures_finish (.asyncCall hcall hn hargs.out (.scalar rfl))).and
      (hlink.out h.idle hasync)).bind fun m t hm => ?_
    rw [step_bind, Bool.true_and]
    split
    · next harrow =>
      have hparams : Fitting e P (Node.asyncArrowParameters (.nodes (args.map Node.asPattern))) :=
        inferInstance
      exact .pure ⟨hm.1.1, hparams.out, .inr harrow⟩
    · exact .pure ⟨hm.1.1, hm.1.2.2, .inl hm.2⟩
  refine h.seq fun _ s h _ => (ensures_asyncArguments h).bind fun args s hs => ?_
  dsimp only
  split
  · exact hs.1.seq fun _ s h _ => hrest h hs.2
  · exact hrest hs.1 hs.2

omit [Recur.Restores r] [Recur.Judges r] [Recur.Remembers r] in
/-- What is pending in the arguments of an asynchronous function is forgotten. -/
theorem ensures_chain {maybeAsync : Bool} {isNear : Token → Bool} (h : Situated level e False c s)
    (hn : Fits e s.context.IsPending (.node n)) (hasync : maybeAsync → n.StartsAsync ∨ s.SeesArrow) :
    Ensures (loop (fun (e : Node) => do
      unless ← sees "(" do return ← memberLink r start true e
      return .again (← callLink r start (maybeAsync && isNear (← peek)) e)) n) c s fun m t =>
        Situated level e False c t ∧ Fits e t.context.IsPending (.node m) := by
  -- The chain still starts with `async`, or it has been replaced by parameters and an arrow follows.
  refine ensures_loop (I := fun (n : Node) t => Situated level e False c t
    ∧ Fits e t.context.IsPending (.node n) ∧ (maybeAsync → n.StartsAsync ∨ t.SeesArrow))
    ⟨h, hn, hasync⟩ fun n t ht => ?_
  obtain ⟨h, hn, hasync⟩ := ht
  have : Fitting e t.context.IsPending n := ⟨hn⟩
  rw [step_bind]
  split
  · next hcall =>
    rw [step_bind]
    have hasync (hm : maybeAsync) : n.StartsAsync := (hasync hm).resolve_right fun harrow =>
      absurd (Lexeme.eq_of_isMark harrow hcall) (by decide)
    cases hnear : maybeAsync && isNear t.lookahead with
    | true =>
      have hm := (Bool.and_eq_true_iff.1 hnear).1
      refine (ensures_asyncCallLink h.exact hn (hasync hm)).bind fun m u hu => ?_
      exact .pure ⟨hu.1.forget, hu.2.1.mono hu.1.pending, fun _ => hu.2.2⟩
    | false =>
      have hread : Leaves level e t.context.IsPending (callLink r start false n) := inferInstance
      have hlink : Lengthens n (callLink r start false n) := inferInstance
      have hchain : Ensures (callLink r start false n) c t fun m _ => maybeAsync → m.StartsAsync :=
        fun m u hu hm => hlink.out h.idle (hasync hm) m u hu
      refine ((hread.out h.exact).and hchain).bind fun m u hu => ?_
      exact .pure ⟨hu.1.2.1.forget, hu.1.2.2, fun hm => .inl (hu.2 hm)⟩
  · have hread : Leaves level e t.context.IsPending (memberLink r start true n) := inferInstance
    have hchain : Ensures (memberLink r start true n) c t fun x u => maybeAsync →
        Round.Holds (fun m t => m.StartsAsync ∨ t.SeesArrow) (fun _ _ => True) x u :=
      fun x u hu hm => ensures_memberLink_async h.idle (hasync hm) x u hu
    refine ((hread.out h.exact).and hchain).mono fun x u hu => ?_
    cases x with
    | again m => exact ⟨hu.1.2.1.forget, hu.1.2.2, hu.2⟩
    | done m => exact ⟨hu.1.2.1.forget, hu.1.2.2⟩

/-! #### First parts of chains -/

theorem ensures_functionIntroduction : Ensures functionIntroduction c s fun x _ =>
    x.1 = s.lookahead.lexeme.isName "async" := by
  rw [functionIntroduction, step_bind]
  have hrest {isAsync : Bool} {s : ParseState} : Ensures (do
      expectKeyword "function"
      let isGenerator ← accept "*"
      return (isAsync, isGenerator)) c s fun x _ => x.1 = isAsync :=
    .anyway fun _ _ => .anyway fun _ _ => .pure rfl
  split
  · exact .anyway fun _ _ => hrest
  · exact hrest

omit [Recur.Restores r] [Recur.Fills r] [Recur.Judges r] [Recur.Remembers r] in
theorem ensures_functionExpression_async (hc : c.delegate = .idle) (hs : s.lookahead.lexeme.isName "async") :
    Ensures (functionExpression r) c s fun n _ => n.StartsAsync := by
  refine ensures_functionIntroduction.bind fun x _ hx => ?_
  refine .anyway fun y _ => (ensures_finish_idle hc).mono fun n _ hn => ?_
  rw [hn, hx, hs]
  exact .function rfl rfl

theorem ensures_seesAsyncFunction : Ensures seesAsyncFunction c s fun isFunction t =>
    isFunction → t.lookahead.lexeme.isName "async" := by
  rw [seesAsyncFunction, step_bind]
  split
  · next hs =>
    simp only [bind_iff, step_iff]
    exact scan_iff.2 (.always fun _ _ _ => hs)
  · exact .pure fun h => absurd h Bool.false_ne_true

omit [Recur.Restores r] [Recur.Fills r] [Recur.Judges r] [Recur.Remembers r] in
theorem ensures_primary_async (hc : c.delegate = .idle) (hs : s.lookahead.lexeme.isName "async") :
    Ensures (primary r) c s fun n _ => n.StartsAsync := by
  cases hlex : s.lookahead.lexeme with
  | identifier name =>
    rw [hlex] at hs
    have hrest {start : Mark} {s : ParseState} : Ensures (do
        if ← seesAsyncFunction then return ← functionExpression r
        skip
        finish start (.identifier name)) c s fun n _ => n.StartsAsync := by
      refine ensures_seesAsyncFunction.bind fun isFunction s hfunction => ?_
      split
      · next h => exact ensures_functionExpression_async hc (hfunction h)
      · refine .anyway fun _ _ => (ensures_finish_idle hc).mono fun n _ hn => ?_
        rw [hn]
        exact .name rfl hs
    rw [primary, step_bind, step_bind, hlex]
    simp only [Lexeme.isMark, Bool.and_false, Bool.false_eq_true, if_false]
    rw [step_bind, step_bind, hlex, step_bind]
    split
    · exact .anyway fun _ _ => hrest
    · exact hrest
  | _ => rw [hlex] at hs; exact absurd hs Bool.false_ne_true

omit [Recur.Restores r] [Recur.Fills r] [Recur.Judges r] [Recur.Remembers r] in
theorem ensures_chainHead_async (hc : c.delegate = .idle) (hs : s.lookahead.lexeme.isName "async") :
    Ensures (chainHead r) c s fun n _ => n.StartsAsync := by
  have hnew : s.lookahead.lexeme.isKeyword "new" = false := by
    cases hlex : s.lookahead.lexeme <;> simp_all [Lexeme.isName, Lexeme.isKeyword]
  rw [chainHead, step_bind, hnew]
  exact ensures_within.2 (ensures_primary_async hc hs)

instance : Leaves level e False (callChain r) := by
  refine .ofEnsures fun c s h => ?_
  rw [callChain, step_bind, step_bind]
  have haside := aside_allowIn true
  refine ensures_within.2 (Ensures.mono (P := fun n t => Situated level e False c t
    ∧ Fits e t.context.IsPending (.node n)) ?_ fun n t ht => ⟨ht.1.left haside _, ht.2⟩)
  have h := h.entered haside
  rw [step_bind, step_bind]
  split
  · next hsuper =>
    have hname : s.lookahead.lexeme.isName "async" = false := by
      cases hlex : s.lookahead.lexeme <;> simp_all [Lexeme.isName, Lexeme.isKeyword]
    refine h.seq fun start t h _ => h.seq fun _ t h _ => h.seq fun n t h hn => h.seq fun isLinked t h _ => ?_
    split
    · refine ensures_chain h (hn.mono False.elim) fun hasync => ?_
      rw [hname] at hasync
      cases hasync
    · exact h.seq fun _ _ h _ => .seq ensures_unexpected
  · have hread : Leaves level e False (chainHead r) := inferInstance
    have hasync {t : ParseState} : Ensures (chainHead r) c t fun n _ =>
        t.lookahead.lexeme.isName "async" → n.StartsAsync :=
      fun n u hn hs => ensures_chainHead_async h.idle hs n u hn
    refine ((hread.out h).and hasync).bind fun n t hn => ?_
    exact ensures_chain hn.1.2.1.forget hn.1.2.2 fun hs => .inl (hn.2 hs)

/-! ### Operators -/

theorem ensures_checkUpdated (h : Situated level e P c s) (hn : n.Judged s.context) :
    Ensures (checkUpdated n cause) c s fun _ t =>
      Situated level e P c t ∧ (e.lenient ∨ n.isAny updateTargets) := by
  have hchecked : Seals level e P (checkUpdated n cause) := inferInstance
  have htarget {s : ParseState} (hn : n.Judged s.context) : Ensures (do
      unless (← context).isTarget do tolerate .invalidAssignmentTarget) c s fun _ _ =>
        e.lenient ∨ n.isAny updateTargets := by
    rw [step_bind]
    split
    · next h => exact .pure (.inr (hn.2 h))
    · exact ensures_tolerate.mono fun _ _ ht => .inl (h.lenient.trans ht.1)
  refine ((hchecked.out h).mono fun _ _ ht => ht.1).and ?_
  refine Spares.ensures_bind hn fun isStrict t hn => ?_
  split
  · exact Spares.ensures_bind hn fun _ t hn => htarget hn
  · exact htarget hn

instance : Leaves level e False (updateExpression r) := by
  refine .ofEnsures fun c s h => ?_
  rw [updateExpression, step_bind, step_bind]
  split
  · refine h.seq fun operator s h _ => ?_
    have hread : Leaves level e False (inherit r.unary) := inferInstance
    refine ((hread.out h).and (Appraises.ensures (W := Node.Judged) h.idle)).bind fun n s hn => ?_
    obtain ⟨⟨-, h, hfits⟩, hjudged⟩ := hn
    refine (ensures_checkUpdated h hjudged).bind fun _ t ht => ?_
    have hoperator : Fitting e False (Value.ofLexeme operator.lexeme) := inferInstance
    refine (ht.1.ensures_finish (.updateExpression ht.2 hoperator.out hfits (.scalar rfl))).bind fun m u hu => ?_
    exact hu.1.seq fun _ v hv _ => .pure ⟨hv.forget, hu.2.2.mono hv.pending⟩
  · have hread : Leaves level e False (inherit (callChain r)) := inferInstance
    refine ((hread.out h).and (Appraises.ensures (W := Node.Judged) h.idle)).bind fun n s hn => ?_
    obtain ⟨⟨-, h, hfits⟩, hjudged⟩ := hn
    refine .seq (step_iff.2 ?_)
    rw [step_bind]
    split
    · refine (ensures_checkUpdated h hjudged).bind fun _ t ht => ?_
      refine ht.1.seq fun _ t h _ => h.seq fun operator t h _ => ?_
      have hoperator : Fitting e False (Value.ofLexeme operator.lexeme) := inferInstance
      refine (h.ensures_finish (.updateExpression ht.2 hoperator.out hfits (.scalar rfl))).mono fun m u hu => ?_
      exact ⟨hu.1.forget, hu.2.2.mono hu.1.pending⟩
    · exact .pure ⟨h.forget, hfits⟩

/-- Operators that wait, and the operand after the last of them. An initializer may be pending only in the
first operand. -/
def Piled (e : Surroundings) (P : Prop) : List Pending → Operand → Prop
  | [], right => Fits e P (.node right.node)
  | p :: ps, right => Fits e False (.node right.node) ∧ Fits e False p.operator ∧ Piled e P ps p.left

theorem Piled.imp (h : Piled e P ps o)
    (ho : ∀ Q, Fits e Q (.node o.node) → Fits e Q (.node o'.node)) : Piled e P ps o' := by
  cases ps with
  | nil => exact ho P h
  | cons p ps => exact ⟨ho False h.1, h.2⟩

theorem ensures_complete_piled (h : Situated level e P c s) (hp : Piled e P (p :: ps) right) :
    Ensures (p.complete lineStart right) c s fun o t => Situated level e P c t ∧ Piled e P ps o := by
  obtain ⟨hright, hoperator, hleft⟩ := hp
  have hright : Fitting e False right.node := ⟨hright⟩
  have hoperator : Fitting e False p.operator := ⟨hoperator⟩
  have hnode (Q : Prop) (hleft : Fits e Q (.node p.left.node)) :
      Fits e Q (.node (.binaryExpression p.operator p.left.node right.node)) := by
    have : Fitting e Q p.left.node := ⟨hleft⟩
    exact (inferInstance : Fitting e Q (Node.binaryExpression _ _ _)).out
  simp only [Pending.complete, bind_iff, step_iff, h.idle, Event.taken_idle]
  exact ⟨h.move rfl h.pending, hleft.imp fun Q hQ => (hnode Q hQ).finished _ _⟩

theorem ensures_reduceTo_piled (h : Situated level e P c s) (hps : Piled e P ps right) :
    Ensures (reduceTo prec ps right) c s fun x t => Situated level e P c t ∧ Piled e P x.1 x.2 := by
  induction ps generalizing right s with
  | nil => exact .pure ⟨h, hps⟩
  | cons p ps ih =>
    unfold reduceTo
    split
    · exact .pure ⟨h, hps⟩
    · exact (ensures_complete_piled h hps).bind fun o t ht => ih ht.1 ht.2

theorem ensures_reduceAll_piled (h : Situated level e P c s) (hps : Piled e P ps right) :
    Ensures (reduceAll ps right) c s fun n t => Situated level e P c t ∧ Fits e P (.node n) := by
  induction ps generalizing right s with
  | nil => exact .pure ⟨h, hps⟩
  | cons p ps ih => exact (ensures_complete_piled h hps).bind fun o t ht => ih ht.1 ht.2

theorem ensures_shift_piled (h : Situated level e P c s) (hleft : Piled e P ps left) :
    Ensures (shift r prec left) c s fun x t => Situated level e P c t ∧ Piled e P (x.1 :: ps) x.2 := by
  refine h.seq fun operator s h _ => h.seq fun first s h _ => h.seq fun right s h hright => ?_
  have hoperator : Fitting e False (Value.ofLexeme operator.lexeme) := inferInstance
  exact .pure ⟨h, hright, hoperator.out, hleft⟩

instance : Leaves level e False (binaryExpression r) := by
  refine .ofEnsures fun c s h => ?_
  rw [binaryExpression, step_bind]
  refine h.seqLeaving fun n s _ h hn => h.seq fun prec t h _ => ?_
  split
  · exact .pure ⟨h.forget, hn.mono h.pending⟩
  · have hstart {first : Token} : Piled e s.context.IsPending [] ⟨n, first⟩ := hn
    refine h.seq fun _ t h _ => (ensures_shift_piled h hstart).bind fun x t hx => ?_
    refine (ensures_loop
      (I := fun x t => Situated level e s.context.IsPending c t ∧ Piled e s.context.IsPending x.1 x.2)
      (Q := fun x t => Situated level e s.context.IsPending c t ∧ Piled e s.context.IsPending x.1 x.2)
      hx fun x u hx => ?_).bind fun x t ht => ?_
    · refine hx.1.seq fun prec u h _ => ?_
      split
      · exact .pure ⟨h, hx.2⟩
      · refine (ensures_reduceTo_piled h hx.2).bind fun y u hy => ?_
        refine (ensures_shift_piled hy.1 hy.2).bind fun z u hz => ?_
        exact .pure hz
    · refine (ensures_reduceAll_piled ht.1 ht.2).mono fun n u hu => ?_
      exact ⟨hu.1.forget, hu.2.mono hu.1.pending⟩

end Grammar

end EcmaSyntax
