import EcmaSyntax.Proofs.Arrows.Placeholders

/-!
# Groups and expressions

What stands in parentheses is an expression, or a placeholder for the parameters of an arrow function. The
parameters are checked if an arrow follows, unless a comma stands before the closing parenthesis.

An expression is resolved, or an arrow follows that may take a placeholder in it.
-/

namespace EcmaSyntax

open Parse

set_option synthInstance.maxSize 100000000000000

variable {c : ParseSetting} {V : ParseState → Prop} {s t : ParseState} {n : Node}

theorem AtArrow.not_isMark (h : AtArrow c s) [Differs m] : s.lookahead.lexeme.isMark m = false := by
  rw [Lexeme.eq_punctuator h.mark]
  exact Settles.isMark_arrow

/-- A group, as far as it is known: an expression, or a placeholder. -/
structure Node.Grouped (c : ParseSetting) (V : ParseState → Prop) (n : Node) (t : ParseState) : Prop where
  held : n.Held c V t
  resolved : (Value.node n).Resolved (Trails c V) ∨ AtArrow c t

namespace Node.Grouped

theorem inContext (h : n.Grouped c V s) (b : Context) : n.Grouped c V { s with context := b } :=
  ⟨h.held.inContext b, h.resolved.imp_right fun harrow => harrow.inContext b⟩

/-- A placeholder for some parameters. -/
theorem ofParams (hparams : ∀ v ∈ vs, v.Resolved (Trails c V))
    (hchecked : Trails c V vs (t.lookahead.lexeme.isMark "=>") ∨ t.lookahead.lexeme.isMark "=>" ∧ Value.BindAll vs)
    (harrow : t.lookahead.lexeme.isMark "=>" → AtArrow c t) :
    (Node.arrowParameters (.list vs)).Grouped c V t := by
  refine ⟨⟨fun h => (by cases h), fun h => (by cases h), fun _ => hparams, fun _ => .inr hchecked⟩, ?_⟩
  cases hmark : t.lookahead.lexeme.isMark "=>" with
  | true => exact .inr (harrow hmark)
  | false =>
    rw [hmark] at hchecked
    have htrails : Trails c V vs false := hchecked.resolve_right fun h => by cases h.1
    refine .inl (Value.resolved_node.2 ⟨⟨fun _ => htrails, fun h => (by cases h), fun h => (by cases h)⟩, ?_⟩)
    refine Fits.forall_ofKind (fun _ => .scalar rfl) ?_
    simpa using ⟨fun _ => Value.resolved_list.2 hparams, fun _ => .scalar rfl⟩

end Node.Grouped

namespace EnsuresIn

variable {β : Type} {Q : β → ParseState → Prop}

/-- A node is finished: it gets its place, and is the last one. -/
theorem finish [hc : Exacting c] {f : Node → Parse β} [Onward c f]
    (hf : ∀ serial span t, t.context = s.context → t.lookahead = s.lookahead → t.startMark = s.startMark →
      Node.Latest { n with serial, span } t → EnsuresIn V (f { n with serial, span }) c t Q) :
    EnsuresIn V (finish start n >>= f) c s Q := by
  refine bind (P := fun m t => ∃ serial span, m = { n with serial, span } ∧ t.context = s.context ∧
    t.lookahead = s.lookahead ∧ t.startMark = s.startMark ∧ m.Latest t) (of_ensures ?_) fun m t hm => ?_
  · simp only [Ensures.step_iff, hc.idle, Event.taken_idle]
    exact ⟨_, _, rfl, trivial, trivial, trivial, _, by simp [ParseState.latest?, Event.make]; rfl, rfl⟩
  · obtain ⟨serial, span, rfl, hcontext, hlookahead, hstart, hlatest⟩ := hm
    exact hf serial span t hcontext hlookahead hstart hlatest

end EnsuresIn

/-- Patterns without a rest. -/
theorem Value.BindAll.of_forall (h : ∀ v ∈ vs, v.Binds .element) : BindAll vs := by
  refine Ends.of_forall h fun v hv => ?_
  obtain ⟨m, rfl, hm⟩ := hv
  exact ⟨m, rfl, hm.last⟩

theorem Node.Grouped.ensuresIn [hp : Hands c V p] [hp' : Resolves True c V p] :
    EnsuresIn V p c s fun n t => n.Grouped c V t :=
  ((hp.out s).and (hp'.out s)).mono fun _ _ hn => ⟨hn.1, hn.2.imp_right And.right⟩

namespace Grammar

/-- What is closed is taken for parameters if an arrow follows and all of it could be parameters. -/
theorem ensuresIn_closeGroup (he : e.is .arrowParameters = false) (hs : e.Grouped c V s)
    (hseq : s.context.isBinding → e.is .sequenceExpression →
      ∀ v ∈ (e.get "expressions").items, v.asPattern.Binds .element)
    (hone : s.context.isBinding → e.is .sequenceExpression = false → e.asPattern.Binds .element) :
    EnsuresIn V (closeGroup e) c s fun n t => n.Grouped c V t := by
  refine .expect fun hmark _ token t hrun => ?_
  have hresolved : (Value.node e).Resolved (Trails c V) := by
    refine hs.resolved.resolve_right fun harrow => ?_
    rw [harrow.not_isMark] at hmark
    cases hmark
  have hheld : e.Held c V t := hs.held.of_next he hrun
  have hdone {e : Node} (he : e.Grouped c V t) : EnsuresIn V (do
      setContext fun c => { c with isBinding := false }
      return e) c t fun n t => n.Grouped c V t :=
    .step rfl (.pure (he.inContext _))
  refine .step rfl ?_
  dsimp only
  split
  · next harrow =>
    have hat : AtArrow c t := ensures_next_arrow token t hrun harrow
    have hspares : Spares (· = s.context) next := inferInstance
    have hcontext : t.context = s.context := hspares.out c s token t hrun rfl
    split
    · next hyield =>
      refine .step rfl (hdone (.ofParams ?_ (.inr ⟨harrow, ?_⟩) fun _ => hat))
      · exact List.forall_mem_singleton.2 hresolved
      · have hname : e.isAny bindable := List.any_eq_true.2 ⟨.identifier, by decide, (Bool.and_eq_true_iff.1 hyield).1⟩
        exact .of_forall (List.forall_mem_singleton.2 ⟨e, rfl, .name hname⟩)
    · refine .step rfl ?_
      split
      · next hbinding =>
        refine .step rfl (hdone (.ofParams ?_ (.inr ⟨harrow, ?_⟩) fun _ => hat))
        · split
          · exact List.forall_mem_map.2 fun v hv => ((hresolved.get rfl).items v hv).asPattern
          · exact List.forall_mem_singleton.2 hresolved.asPattern
        · rw [hcontext] at hbinding
          refine .of_forall ?_
          split
          · next hsequence => exact List.forall_mem_map.2 (hseq hbinding hsequence)
          · next hsingle =>
            rw [Value.asPattern_node]
            exact List.forall_mem_singleton.2 ⟨_, rfl, hone hbinding (Bool.eq_false_iff.2 hsingle)⟩
      · exact .of_ensures (.anyway fun _ _ => .seq ensures_unexpected)
  · exact hdone ⟨hheld, .inl hresolved⟩

section

variable {β : Type} {p : Parse β} [Stepwise c p] {Q : β → ParseState → Prop}

/-- What is gone on with has an arrow behind it. -/
theorem ensuresIn_expectArrow (hs : s.lookahead.lexeme.isMark "=>" → AtArrow c s)
    (hp : AtArrow c s → EnsuresIn V p c s Q) : EnsuresIn V (do
      expectArrow
      p) c s Q := by
  refine EnsuresIn.bind (P := fun _ u => AtArrow c s ∧ u = s) ?_ fun _ u hu => by
    rw [hu.2]
    exact hp hu.1
  refine .step rfl ?_
  split
  · next harrow => exact .pure ⟨hs harrow, rfl⟩
  · next harrow =>
    refine .of_ensures ((ensures_next_eq c s).bind fun found u hfound => ?_)
    rw [hfound, if_neg harrow]
    exact ensures_unexpected

/-- Parameters are closed before an arrow. -/
theorem ensuresIn_closeParams (hp : ∀ t, AtArrow c t → EnsuresIn V p c t Q) : EnsuresIn V (do
      expect ")"
      expectArrow
      p) c s Q :=
  .expect fun _ _ token t hrun => ensuresIn_expectArrow (ensures_next_arrow token t hrun) (hp t)

end

/-- The expressions of a group, as far as they have been read. -/
structure Listed (c : ParseSetting) (V : ParseState → Prop) (es : List Node) (s : ParseState) : Prop where
  last : ∃ n, es.getLast? = some n ∧ n.Latest s
  resolved : (∀ e ∈ es, (Value.node e).Resolved (Trails c V)) ∨ AtArrow c s
  binds : s.context.isBinding → ∀ e ∈ es, e.asPattern.Binds .element

namespace Listed

variable {es : List Node}

/-- Nothing is left open where a mark is read. -/
theorem forall_resolved (h : Listed c V es s) [Differs m] (hmark : s.lookahead.lexeme.isMark m) :
    ∀ e ∈ es, (Value.node e).Resolved (Trails c V) := by
  refine h.resolved.resolve_right fun harrow => ?_
  rw [harrow.not_isMark] at hmark
  cases hmark

/-- A comma before the closing parenthesis is all that is known of parameters then. -/
theorem trails (h : Listed c V es s) (hs : V s) (hcomma : s.lookahead.lexeme.isMark ",") (hu : next c s = .ok comma u) (hV : V u) (hclosing : u.lookahead.lexeme.isMark ")")
    (hw : next c u = .ok closing w) : (Node.arrowParameters (.nodes (es.map Node.asPattern))).Grouped c V w := by
  obtain ⟨n, hn, hlatest⟩ := h.last
  refine .ofParams ?_ (.inl ⟨n.asPattern, s, u, w, comma, closing, ?_, ?_, hs, hcomma, hu, hV, hclosing, hw, rfl⟩)
    (ensures_next_arrow closing w hw)
  · have hparams := fun e he => (h.forall_resolved hcomma e he).asPattern_node
    exact List.forall_mem_map.2 (List.forall_mem_map.2 hparams)
  · rw [List.getLast?_map, List.getLast?_map, hn]
    rfl
  · exact hlatest.of_serial n.serial_asPattern

/-- The rest of the parameters stands last, before an arrow. -/
theorem rest (h : Listed c V es s) {rest : Node} (hresolved : ∀ e ∈ es, (Value.node e).Resolved (Trails c V))
    (hbinding : s.context.isBinding) (hrest : (Value.node rest).Resolved (Trails c V)) (hlast : rest.Binds .last)
    (ht : AtArrow c t) : (Node.arrowParameters (.nodes ((es ++ [rest]).map Node.asPattern))).Grouped c V t := by
  refine .ofParams ?_ (.inr ⟨ht.mark, ?_⟩) fun _ => ht
  · have hparams : ∀ e ∈ es ++ [rest], (Value.node e.asPattern).Resolved (Trails c V) :=
      List.forall_mem_append.2 ⟨fun e he => (hresolved e he).asPattern_node,
        List.forall_mem_singleton.2 hrest.asPattern_node⟩
    exact List.forall_mem_map.2 (List.forall_mem_map.2 hparams)
  · rw [List.map_append, List.map_append]
    refine .append_singleton (List.forall_mem_map.2 (List.forall_mem_map.2 fun e he => ?_)) ⟨rest.asPattern, rfl, ?_⟩
    · exact ⟨e.asPattern, rfl, h.binds hbinding e he⟩
    · rwa [hlast.asPattern_eq]

/-- One more expression. -/
theorem snoc (h : Listed c V es s) (hresolved : ∀ e ∈ es, (Value.node e).Resolved (Trails c V))
    (hn : n.is .arrowParameters = false) (ht : n.Grouped c V t)
    (hbinds : t.context.isBinding → s.context.isBinding ∧ n.asPattern.Binds .element) : Listed c V (es ++ [n]) t where
  last := ⟨n, List.getLast?_concat, ht.held.latest hn⟩
  resolved := ht.resolved.imp_left fun hn => List.forall_mem_append.2 ⟨hresolved, List.forall_mem_singleton.2 hn⟩
  binds hbinding := List.forall_mem_append.2
    ⟨h.binds (hbinds hbinding).1, List.forall_mem_singleton.2 (hbinds hbinding).2⟩

end Listed

variable {r : Recur} [Exacting c] [Recur.Stepwise c r] [Recur.Resolves c V r] [Recur.Weighs r]
  [h : Recur.Hands c V r]

/-- An expression in a group: it is no placeholder, and a pattern if it can be a parameter. -/
theorem ensuresIn_grouped : EnsuresIn V (inherit r.assignment) c s fun n t =>
    n.is .arrowParameters = false ∧ n.Grouped c V t ∧
      (t.context.isBinding → s.context.isBinding ∧ n.asPattern.Binds .element) := by
  have hresolves : Resolves True c V (inherit r.assignment) := inferInstance
  have hhands : EnsuresIn V (inherit r.assignment) c s fun n t => n.is .arrowParameters = false ∧ n.Held c V t :=
    .within <| (h.assignment _).mono fun _ _ ht => ht.imp_right fun ht => ht.inContext _
  refine ((hresolves.out s).and (hhands.and (.of_ensures (ensures_inherit_binds Exacting.idle)))).mono fun n t hn => ?_
  obtain ⟨hresolved, ⟨hkind, hheld⟩, hbinds⟩ := hn
  exact ⟨hkind, ⟨hheld, hresolved.imp_right And.right⟩, hbinds⟩

omit [Recur.Stepwise c r] [Recur.Resolves c V r] [Recur.Weighs r] h in
/-- Expressions with commas between them are one expression, before a closing parenthesis. -/
theorem ensuresIn_sequence (hs : Listed c V es s) :
    EnsuresIn V (do closeGroup (← finishFrom token (.sequenceExpression es))) c s fun n t => n.Grouped c V t := by
  refine .finish fun serial span t hcontext hlookahead hstart hlatest => ensuresIn_closeGroup rfl ⟨?_, ?_⟩ ?_ ?_
  · exact .of_latest rfl hlatest fun hname => by cases hname
  · refine hs.resolved.imp (fun hes => ?_) fun harrow => ⟨?_, ?_⟩
    · have : Clear (Trails c V) es := ⟨hes⟩
      have hsequence : Clear (Trails c V) (Node.sequenceExpression es) := inferInstance
      exact hsequence.out.finished serial span
    · rw [hlookahead]
      exact harrow.mark
    · rw [hstart]
      exact harrow.place
  · intro hbinding _
    refine List.forall_mem_map.2 fun e he => ?_
    rw [Value.asPattern_node]
    exact ⟨_, rfl, hs.binds (hcontext ▸ hbinding) e he⟩
  · intro _ hother
    cases hother

/-- The expressions after the first. -/
theorem ensuresIn_groupRest (hs : Listed c V [first] s) :
    EnsuresIn V (groupRest r first token) c s fun n t => n.Grouped c V t := by
  refine EnsuresIn.bind (P := fun x t => if x.2 then
    (Node.arrowParameters (.nodes (x.1.map Node.asPattern))).Grouped c V t else Listed c V x.1 t) ?_ fun x t hx => ?_
  · refine .loop hs fun es t ht => .accept (fun hcomma hV comma u hu => ?_) fun _ => .pure ht
    have hresolved := ht.forall_resolved hcomma
    refine .accept (fun hclosing hV' closing w hw => .pure (ht.trails hV hcomma hu hV' hclosing hw)) fun _ => ?_
    have hspares : Spares (· = t.context) next := inferInstance
    have hcontext : u.context = t.context := hspares.out c t comma u hu rfl
    refine .step rfl ?_
    split
    · refine .step rfl ?_
      split
      · next hbinding =>
        have hrest : Resolves False c V (restParameter r) := inferInstance
        refine ((hrest.out u).and (.of_ensures (ensures_restParameter_binds Exacting.idle))).bind fun x v hx => ?_
        obtain ⟨hrest | hnever, hlast⟩ := hx
        · refine ensuresIn_closeParams fun w hw => .step rfl (.pure ?_)
          exact ht.rest hresolved (hcontext ▸ hbinding) hrest.1 hlast (hw.inContext _)
        · exact hnever.1.elim
      · exact .of_ensures (.anyway fun _ _ => .seq ensures_unexpected)
    · refine ensuresIn_grouped.bind fun n v hn => .pure (ht.snoc hresolved hn.1 hn.2.1 ?_)
      rw [← hcontext]
      exact hn.2.2
  · obtain ⟨es, isArrow⟩ := x
    cases isArrow with
    | true => exact .pure hx
    | false => exact ensuresIn_sequence hx

/-- Parameters, or an expression. -/
theorem ensuresIn_groupExpression : EnsuresIn V (groupExpression r) c s fun n t => n.Grouped c V t := by
  refine .expect fun _ _ _ t _ => .accept (fun hclosing hV token u hu => ?_) fun _ => ?_
  · refine ensuresIn_expectArrow (ensures_next_arrow token u hu) fun hat => .pure (.ofParams ?_ (.inr ⟨hat.mark, ?_⟩)
      fun _ => hat)
    · exact fun v hv => by cases hv
    · exact .of_forall fun v hv => by cases hv
  refine .step rfl (.step rfl ?_)
  split
  · have hrest : Resolves False c V (restParameter r) := inferInstance
    refine ((hrest.out t).and (.of_ensures (ensures_restParameter_binds Exacting.idle))).bind fun x v hx => ?_
    obtain ⟨rest, names⟩ := x
    obtain ⟨hrest | hnever, hlast⟩ := hx
    · refine ensuresIn_closeParams fun w hw => .pure (.ofParams ?_ (.inr ⟨hw.mark, ?_⟩) fun _ => hw)
      · exact List.forall_mem_singleton.2 hrest.1
      · have hnone : ∀ v ∈ ([] : List Value), v.Binds .element := fun v hv => by cases hv
        exact .append_singleton hnone ⟨rest, rfl, hlast⟩
    · exact hnever.1.elim
  refine .step rfl (ensuresIn_grouped.bind fun first u hfirst => ?_)
  obtain ⟨hkind, hgrouped, hbinds⟩ := hfirst
  refine .step rfl ?_
  split
  · refine .step rfl (ensuresIn_groupRest ⟨⟨first, rfl, hgrouped.held.latest hkind⟩, ?_, ?_⟩)
    · exact (hgrouped.inContext _).resolved.imp_left List.forall_mem_singleton.2
    · exact fun hbinding => List.forall_mem_singleton.2 (hbinds hbinding).2
  · refine ensuresIn_closeGroup hkind hgrouped (fun hbinding hsequence => ?_) fun hbinding _ => (hbinds hbinding).2
    -- A sequence in parentheses of its own is no parameter.
    have hsame : first.asPattern = first := Node.asPattern_eq_self (Node.not_isAny_of_is hsequence (by decide))
    have hnone := (hbinds hbinding).2.isAny
    rw [hsame, Node.not_isAny_of_is hsequence (by decide)] at hnone
    cases hnone

variable [Recur.Stalls c r] {stack : List Pending} {right : Operand}

/-! ### Primary expressions -/

omit [Recur.Stepwise c r] [Recur.Stalls c r] [Recur.Resolves c V r] [Recur.Weighs r] [Recur.Hands c V r] in
theorem ensures_regexLiteral_grouped : Ensures regexLiteral c s fun n t => n.Grouped c V t := by
  refine .anyway fun start _ => .anyway fun _ _ => .anyway fun _ _ => .anyway fun t _ => ?_
  split
  · next pattern flags compiled _ =>
    refine .anyway fun raw u => (ensures_finish_latest Exacting.idle).mono fun n t hn => ?_
    obtain ⟨hlatest, serial, span, rfl⟩ := hn
    have hnode : Clear (Trails c V)
        (Node.regexLiteral ((compiled.map Value.pattern).getD .null) raw pattern flags) := inferInstance
    exact ⟨.of_latest rfl hlatest fun hname => (by cases hname), .inl (hnode.out.finished serial span)⟩
  · exact ensures_unexpected

theorem ensuresIn_markExpression : EnsuresIn V (markExpression r mark) c s fun n t => n.Grouped c V t := by
  unfold markExpression
  split
  · exact .step rfl (.within (ensuresIn_groupExpression.mono fun _ _ hn => hn.inContext _))
  split
  · exact Node.Grouped.ensuresIn
  split
  · exact Node.Grouped.ensuresIn
  split
  · exact .of_ensures ensures_regexLiteral_grouped
  · exact .of_ensures (.anyway fun _ _ => ensures_unexpected)

theorem ensuresIn_primary : EnsuresIn V (primary r) c s fun n t => n.Grouped c V t := by
  refine .step rfl (.step rfl ?_)
  split
  · next hmarkup =>
    have : HasMarkup c := ⟨(Bool.and_eq_true_iff.1 hmarkup).1⟩
    exact Node.Grouped.ensuresIn
  · refine .step rfl (.step rfl ?_)
    split
    case h_10 => exact ensuresIn_markExpression
    all_goals exact Node.Grouped.ensuresIn

instance : Hands c V (primary r) := ⟨fun _ => ensuresIn_primary.mono fun _ _ hn => hn.held⟩
instance : Resolves True c V (primary r) :=
  ⟨fun _ => ensuresIn_primary.mono fun _ _ hn => hn.resolved.imp_right fun harrow => ⟨trivial, harrow⟩⟩

/-! ### Accesses and calls -/

variable {start : Mark} {e : Node} {isAsync : Bool}

omit [Exacting c] [Recur.Stepwise c r] [Recur.Stalls c r] [Recur.Resolves c V r] [Recur.Weighs r] [Recur.Hands c V r] in
/-- An arrow behind arguments stands in the source. -/
theorem ensures_argumentList_arrow : Ensures (argumentList r one) c s fun _ t =>
    t.lookahead.lexeme.isMark "=>" → AtArrow c t := by
  have hclose {args : List Node} {t : ParseState} : Ensures (do
      expect ")"
      return args) c t fun _ t => t.lookahead.lexeme.isMark "=>" → AtArrow c t := by
    refine Ensures.bind ?_ fun _ t ht =>
      .pure ht
    refine ensures_next_arrow.bind fun token t ht => ?_
    split
    · exact .pure ht
    · exact ensures_unexpected
  refine .anyway fun _ _ => .anyway fun isEmpty t => ?_
  split
  · exact .seq (.pure hclose)
  · exact .anyway fun _ _ => hclose

/-- After `async`, arguments are taken for parameters at an arrow only. -/
instance [he : Clear (Trails c V) e] : Resolves True c V (callLink r start isAsync e) := by
  have hcall {args : List Node} {t : ParseState} (hargs : Clear (Trails c V) args)
      (ht : t.lookahead.lexeme.isMark "=>" → AtArrow c t) : EnsuresIn V (do
        let call ← finish start (.callExpression e args false)
        if isAsync && (← sees "=>") then return .asyncArrowParameters (args.map Node.asPattern)
        return call) c t fun n u => (Value.node n).Resolved (Trails c V) ∨ (True ∧ AtArrow c u) := by
    refine .finish fun serial span u _ hlookahead hstart _ => ?_
    refine .step rfl ?_
    split
    · next harrow =>
      rw [hlookahead] at harrow
      have hat := ht (Bool.and_eq_true_iff.1 harrow).2
      exact .pure (.inr ⟨trivial, hlookahead ▸ hat.mark, hstart ▸ hat.place⟩)
    · have hnode : Clear (Trails c V) (Node.callExpression e args false) := inferInstance
      exact .pure (.inl (hnode.out.finished serial span))
  have hrest {args : List Node} {t : ParseState} (hargs : Clear (Trails c V) args)
      (ht : t.lookahead.lexeme.isMark "=>" → AtArrow c t) : EnsuresIn V (do
        if e.is .importCallee && args.length ≠ 1 then tolerate .importCallArity
        let call ← finish start (.callExpression e args false)
        if isAsync && (← sees "=>") then return .asyncArrowParameters (args.map Node.asPattern)
        return call) c t fun n u => (Value.node n).Resolved (Trails c V) ∨ (True ∧ AtArrow c u) := by
    split
    · have hquiet : Quiet true (tolerate .importCallArity) := inferInstance
      refine EnsuresIn.bind (.of_ensures (hquiet.kept c t)) fun _ u hu => hcall hargs fun harrow => ?_
      exact (ht (hu.lookahead ▸ harrow)).of_kept hu
    · exact hcall hargs ht
  have hargs {p : Parse (List Node)} [hp : Resolves False c V p] {t : ParseState}
      (harrow : Ensures p c t fun _ u => u.lookahead.lexeme.isMark "=>" → AtArrow c u) :
      EnsuresIn V p c t fun args u => Clear (Trails c V) args ∧ (u.lookahead.lexeme.isMark "=>" → AtArrow c u) :=
    ((hp.out t).and (.of_ensures harrow)).mono fun _ _ hu => ⟨⟨hu.1.resolve_right fun h => h.1⟩, hu.2⟩
  refine ⟨fun s => .anyway fun _ t => ?_⟩
  split
  · exact (hargs ensures_argumentList_arrow).bind fun args u hu => hrest hu.1 hu.2
  · exact (hargs ensures_argumentList_arrow).bind fun args u hu => hrest hu.1 hu.2

instance : Hands c V (callChain r) := by
  have hlinks {start : Mark} {isAsync : Token → Bool} {e : Node} {t : ParseState} (ht : e.Held c V t) : EnsuresIn V
      (loop (fun (e : Node) => do
        unless ← sees "(" do return ← memberLink r start true e
        return .again (← callLink r start (isAsync (← peek)) e)) e) c t fun n u => n.Held c V u := by
    refine .loop ht fun e u hu => .step (x := u.lookahead.lexeme.isMark "(") rfl ?_
    split
    · exact .step rfl ensuresIn_again
    · exact ensuresIn_memberLink hu
  refine ⟨fun s => .anyway fun t _ => .anyway fun maybeAsync _ => .within ?_⟩
  refine .anyway fun isSuper _ => .anyway fun b _ => ?_
  split
  · refine .anyway fun start _ => .anyway fun _ _ => (Hands.out _).bind fun e u hu => ?_
    refine .step (x := ["(", ".", "["].any u.lookahead.lexeme.isMark) rfl ?_
    split
    · exact .step rfl ((hlinks hu).mono fun _ _ hn => hn.inContext _)
    · exact .of_ensures (.anyway fun _ _ => .seq ensures_unexpected)
  · exact (Hands.out _).bind fun e u hu => (hlinks hu).mono fun _ _ hn => hn.inContext _

/-! ### Operators -/

instance : Resolves True c V (updateExpression r) := inferInstance
instance : Resolves True c V (exponentiation r) := inferInstance

theorem resolves_reduceTo (hstack : Clear (Trails c V) stack)
    (hright : Clear (Trails c V) right) : Resolves False c V (reduceTo prec stack right) := by
  induction stack generalizing right with
  | nil => exact inferInstanceAs (Resolves False c V (pure ([], right)))
  | cons p stack ih =>
    have : Clear (Trails c V) p := ⟨hstack.out p List.mem_cons_self⟩
    have hrest : Clear (Trails c V) stack := ⟨fun q hq => hstack.out q (List.mem_cons_of_mem p hq)⟩
    unfold reduceTo
    split
    · infer_instance
    · exact .seq (fun _ => inferInstance) fun x hx => ih hrest hx

theorem resolves_reduceAll (hstack : Clear (Trails c V) stack)
    (hright : Clear (Trails c V) right) : Resolves False c V (reduceAll stack right) := by
  induction stack generalizing right with
  | nil => exact inferInstanceAs (Resolves False c V (pure right.node))
  | cons p stack ih =>
    have : Clear (Trails c V) p := ⟨hstack.out p List.mem_cons_self⟩
    have hrest : Clear (Trails c V) stack := ⟨fun q hq => hstack.out q (List.mem_cons_of_mem p hq)⟩
    exact .seq (fun _ => inferInstance) fun x hx => ih hrest hx

instance [hstack : Clear (Trails c V) stack]
    [hright : Clear (Trails c V) right] : Resolves False c V (reduceTo prec stack right) :=
  resolves_reduceTo hstack hright
instance [hstack : Clear (Trails c V) stack]
    [hright : Clear (Trails c V) right] : Resolves q c V (reduceAll stack right) :=
  (resolves_reduceAll hstack hright).anyway

instance : Resolves True c V (conditional r) := inferInstance

end Grammar

end EcmaSyntax
