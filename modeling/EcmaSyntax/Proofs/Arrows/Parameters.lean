import EcmaSyntax.Proofs.Arrows.Binding

/-!
# What may be a parameter

While an expression is read, the context keeps track of whether it can be a parameter. `Node.Weighed` says
what becomes of an expression of which this is said, and `Weighs` that it holds of all that a production
reads. A placeholder stands for parameters, and is none itself.
-/

namespace EcmaSyntax

open Parse
open Ensures (bind_iff step_iff step_bind throw_iff)

set_option synthInstance.maxSize 100000000000000

/-- Is it known that what was read cannot be a parameter? -/
def Context.IsUnbound (c : Context) : Prop := c.isBinding = false

/-- An expression becomes a pattern if it is taken for a parameter, unless it is a placeholder. -/
def Node.Weighed (n : Node) (c : Context) : Prop :=
  n.is .arrowParameters ∨ (c.isBinding → n.asPattern.Binds .target)

/-- What a production reads is taken for a name. -/
class Names (p : Parse Node) : Prop where
  out {c : ParseSetting} {s : ParseState} : c.delegate = .idle → Ensures p c s fun n _ => n.isAny bindable

/-- What a production reads is weighed right. -/
abbrev Weighs := Appraises Node.Weighed

variable {I : Context → Prop} {α : Type} {n : Node}

theorem Node.weighed_of_unbound (hc : c.IsUnbound) : n.Weighed c :=
  .inr fun hc' => by rw [hc] at hc'; cases hc'

namespace Names

variable {p : Parse Node} {f : α → Parse Node}

instance [hf : ∀ x, Names (f x)] : Names (q >>= f) := ⟨fun hc => .anyway fun x _ => (hf x).out hc⟩

instance [Decidable q] [hp : Names p] [hp' : Names p'] : Names (if q then p else p') := by
  split
  · exact hp
  · exact hp'

instance [h : Among Kind.isBindable n] : Names (finish start n) := by
  refine ⟨fun {c s} hc => (ensures_finish_idle hc).mono fun x t hx => ?_⟩
  rw [hx]
  exact h.isAny (by intro k; cases k <;> decide)

instance [hp : Names p] : Names (within enter leave p) :=
  ⟨fun hc => ensures_within.2 (hp.out hc)⟩

end Names

/-! ### Steps after which nothing is a parameter -/

namespace Spares

variable {p : Parse α}

/-- What is isolated says nothing of what it is isolated from. -/
instance : Spares Context.IsUnbound (isolate p) :=
  ⟨fun _ _ => ensures_within.2 (.always fun _ _ h => h)⟩

/-- What cannot be a parameter is no part of one. -/
instance : Spares Context.IsUnbound (inherit p) :=
  ⟨fun _ _ => ensures_within.2 <| .always fun _ _ h => by simp_all [Context.IsUnbound]⟩

/-- A step that is not always made. -/
theorem ensures_optional [Decidable b] {p : Parse Unit} {f : Unit → Parse β} [Spares (· = s.context) p]
    (hf : ∀ t : ParseState, t.context = s.context → Ensures (f ()) c t Q) :
    Ensures (if b then p >>= f else f ()) c s Q := by
  split
  · exact ensures_bind (I := (· = s.context)) rfl fun _ t ht => hf t ht
  · exact hf s rfl

theorem within {enter : Context → Context} {leave : Context → Context → Context}
    (hp : Spares Context.IsUnbound p) (henter : ∀ b, (enter b).isBinding = b.isBinding)
    (hleave : ∀ b c, (leave b c).isBinding = c.isBinding) : Spares Context.IsUnbound (within enter leave p) := by
  refine ⟨fun c s => ensures_within.2 <| (hp.out c _).mono fun _ t ht hs => ?_⟩
  exact (hleave _ _).trans (ht ((henter _).trans hs))

end Spares

/-- After a production, nothing is a parameter. -/
class Unbinds (p : Parse α) : Prop where
  out (c : ParseSetting) (s : ParseState) : Ensures p c s fun _ t => t.context.IsUnbound

namespace Unbinds

variable {β : Type} {p : Parse α} {f : α → Parse β}

instance (priority := 50) [u : Unfolds p q] [h : Unbinds q] : Unbinds p := u.eq ▸ h

instance : Unbinds notTarget := ⟨fun _ _ => .modify rfl⟩

instance (priority := low) [hp : Unbinds p] [hf : ∀ x, Spares Context.IsUnbound (f x)] : Unbinds (p >>= f) :=
  ⟨fun c s => (hp.out c s).bind fun x t ht => ((hf x).out c t).mono fun _ _ hu => hu ht⟩

instance [hf : ∀ x, Unbinds (f x)] : Unbinds (p >>= f) := ⟨fun c _ => .anyway fun x t => (hf x).out c t⟩

theorem within {enter : Context → Context} {leave : Context → Context → Context} (hp : Unbinds p)
    (hleave : ∀ b c, (leave b c).isBinding = c.isBinding) : Unbinds (within enter leave p) :=
  ⟨fun c _ => ensures_within.2 <| (hp.out c _).mono fun _ _ ht => (hleave _ _).trans ht⟩

end Unbinds

/-! ### Rules -/

namespace Weighs

variable {p : Parse Node} {f : α → Parse Node}

instance (priority := high) unbindBind {target : Context → Bool} {f : Unit → Parse Node}
    [hf : Weighs Context.IsUnbound (f ())] :
    Weighs I (setContext (fun c => { c with isTarget := target c, isBinding := false }) >>= f) :=
  ⟨fun hc _ => .seq <| .modify <| hf.out hc rfl⟩
instance (priority := high) {f : Unit → Parse Node} [hf : Weighs Context.IsUnbound (f ())] :
    Weighs I (notTarget >>= f) :=
  inferInstanceAs (Weighs I (setContext (fun c => { c with isTarget := false, isBinding := false }) >>= f))
instance (priority := high) {f : Unit → Parse Node} [hf : Weighs Context.IsUnbound (f ())] :
    Weighs I (setContext (fun c => { c with isBinding := false }) >>= f) :=
  inferInstanceAs (Weighs I (setContext (fun c => { c with isTarget := c.isTarget, isBinding := false }) >>= f))

instance (priority := low) [hp : Spares Context.IsUnbound p] : Weighs Context.IsUnbound p :=
  ⟨fun {c s} _ hs => (hp.out c s).mono fun x _ ht => x.weighed_of_unbound (ht hs)⟩

instance : Weighs I (pure (.arrowParameters a)) := ⟨fun _ _ => .pure (.inl rfl)⟩
instance : Weighs I (pure (.asyncArrowParameters a)) := ⟨fun _ _ => .pure (.inl rfl)⟩

instance (priority := low) [hp : Names p] : Weighs I p :=
  ⟨fun hc _ => (hp.out hc).mono fun _ _ hn => .inr fun _ => .of_name hn⟩

/-- What is read as a part is weighed by itself. -/
instance [h : Weighs Context.Anyhow p] : Weighs I (inherit p) :=
  ⟨fun hc _ => ensures_within.2 <| (h.out hc trivial).mono fun _ _ ht =>
    ht.imp_right fun ht hbinding => ht (by simp_all)⟩

end Weighs

/-- What is read as an assignment becomes a pattern, perhaps with a default, if it is taken for a parameter.
What is read as a pattern is one. -/
class Recur.Weighs (r : Recur) : Prop where
  assignment {c : ParseSetting} {s : ParseState} : c.delegate = .idle →
    Ensures r.assignment c s fun n t => t.context.isBinding → n.asPattern.Binds .element
  pattern {kind : Option Declares} {c : ParseSetting} {s : ParseState} : c.delegate = .idle →
    Ensures (r.pattern kind) c s fun x _ => x.1.Binds .target

/-- A node that is finished only gets its place. -/
theorem Parse.ensures_finish_bind {f : Node → Parse β}
    (hc : c.delegate = .idle) (hf : ∀ serial span t, t.context = s.context →
      Ensures (f { n with serial, span }) c t Q) : Ensures (finish start n >>= f) c s Q := by
  simp only [bind_iff, step_iff, hc, Event.taken_idle]
  exact hf _ _ _ rfl

namespace Grammar

variable {r : Recur} {f : Formals} {p : Parse α} {hasProto : Bool} {stack : List Pending} {right : Operand}

/-! ### Patterns -/

section

variable [h : Recur.Weighs r] {c : ParseSetting} {s : ParseState} {kind : Option Declares}

omit h in
theorem ensures_variableIdentifier_binds (hc : c.delegate = .idle) :
    Ensures (variableIdentifier kind) c s fun n _ => n.Binds .target := by
  have hnames : Names (variableIdentifier kind) := by
    unfold variableIdentifier
    infer_instance
  exact (hnames.out hc).mono fun _ _ hn => .name hn

theorem ensures_patternWithDefault_binds (hc : c.delegate = .idle) :
    Ensures (patternWithDefault r kind) c s fun x _ => x.1.Binds .element := by
  rw [patternWithDefault, step_bind]
  refine (h.pattern hc).bind fun x t hx => .anyway fun hasDefault u => ?_
  obtain ⟨pattern, names⟩ := x
  split
  · refine .anyway fun right v => ensures_finish_bind hc fun serial span w _ => ?_
    exact .pure (.ofAssignmentPattern hx)
  · exact .pure hx.element

theorem ensures_bindingRest_binds (hc : c.delegate = .idle) :
    Ensures (bindingRest r kind) c s fun x _ => x.1.Binds .last := by
  refine .anyway fun start _ => .anyway fun _ _ => (h.pattern hc).bind fun x t hx => ?_
  exact ensures_finish_bind hc fun serial span w _ => .pure (.ofRestElement hx.element)

theorem ensures_arrayPattern_binds (hc : c.delegate = .idle) :
    Ensures (arrayPattern r kind) c s fun x _ => x.1.Binds .target := by
  refine .anyway fun start _ => .anyway fun _ t => ?_
  refine Ensures.bind (P := fun x _ => Value.Ends (fun v => v = .null ∨ v.Binds .element)
    (fun v => v = .null ∨ v.Binds .last) x.1) ?_ fun x t hx => ?_
  · have hlast (v : Value) (hv : v = .null ∨ v.Binds .element) : v = .null ∨ v.Binds .last := by
      obtain hnull | ⟨m, rfl, hm⟩ := hv
      · exact .inl hnull
      · exact .inr ⟨m, rfl, hm.last⟩
    have hmore {elements : List Value} (helements : ∀ v ∈ elements, v = .null ∨ v.Binds .element)
        {v : Value} (hv : v = .null ∨ v.Binds .element) : ∀ u ∈ elements ++ [v], u = .null ∨ u.Binds .element :=
      List.forall_mem_append.2 ⟨helements, List.forall_mem_singleton.2 hv⟩
    refine ensures_loop (I := fun x _ => ∀ v ∈ x.1, v = .null ∨ v.Binds .element)
      (fun v hv => by cases hv) fun x t hx => ?_
    rw [step_bind]
    split
    · exact .pure (.of_forall hx hlast)
    refine .anyway fun isHole u => ?_
    split
    · exact .pure (hmore hx (.inl rfl))
    rw [step_bind]
    split
    · refine (ensures_bindingRest_binds hc).bind fun y v hy => .pure ?_
      exact .append_singleton hx (.inr ⟨_, rfl, hy⟩)
    · refine (ensures_patternWithDefault_binds hc).bind fun y v hy => ?_
      have hall := hmore hx (.inr ⟨y.1, rfl, hy⟩)
      rw [step_bind]
      split
      · exact .pure hall
      · exact .anyway fun _ _ => .pure hall
  · obtain ⟨elements, names⟩ := x
    refine .anyway fun _ u => ensures_finish_bind hc fun serial span w _ => .pure ?_
    exact .arrayOf rfl elements rfl hx

theorem ensures_propertyPattern_binds (hc : c.delegate = .idle) :
    Ensures (propertyPattern r kind) c s fun x _ => Node.Binds.Member (.node x.1) := by
  have hproperty {start : Mark} {t : ParseState} {key value : Node} {computed shorthand : Bool}
      {names : List Token} (hvalue : value.Binds .element) :
      Ensures (do return (← finish start (.property (.word "init") key computed value false shorthand), names))
        c t fun x _ => Node.Binds.Member (.node x.1) :=
    ensures_finish_bind hc fun serial span u _ => .pure ⟨_, rfl, .inr ⟨rfl, value, rfl, hvalue⟩⟩
  rw [propertyPattern, step_bind]
  rw [step_bind]
  split
  · refine .anyway fun key _ => ensures_finish_bind hc fun serial span t _ => ?_
    have hname : Node.Binds .target { Node.identifier (.ofLexeme s.lookahead.lexeme) with serial, span } :=
      .name rfl
    refine .anyway fun hasDefault u => ?_
    split
    · refine .anyway fun right v => ensures_finish_bind hc fun serial span w _ => ?_
      exact hproperty (.ofAssignmentPattern hname)
    rw [step_bind]
    split
    · exact hproperty hname.element
    · exact .anyway fun _ _ => (ensures_patternWithDefault_binds hc).bind fun x _ hx => hproperty hx
  · refine .anyway fun computed _ => .anyway fun key _ => .anyway fun _ _ => ?_
    exact (ensures_patternWithDefault_binds hc).bind fun x _ hx => hproperty hx

omit h in
/-- What comes last is the rest, with a pattern. -/
theorem ensures_restEnd_binds {argument : Node}
    (hc : c.delegate = .idle) (hargument : argument.Binds .target) : Ensures (do
      if ← sees "=" then refuse .defaultForRest
      unless ← sees closing do refuse cause
      return (← finish start (.restElement argument), names)) c s
      fun x _ => x.1.is .restElement ∧ x.1.Binds .last := by
  have hfinish {t : ParseState} : Ensures (do return (← finish start (.restElement argument), names)) c t
      fun x _ => x.1.is .restElement ∧ x.1.Binds .last :=
    ensures_finish_bind hc fun serial span u _ => .pure ⟨rfl, .ofRestElement hargument.element⟩
  have hclosing {t : ParseState} : Ensures (do
      unless ← sees closing do refuse cause
      return (← finish start (.restElement argument), names)) c t
      fun x _ => x.1.is .restElement ∧ x.1.Binds .last := by
    rw [step_bind]
    split
    · exact hfinish
    · exact .anyway fun _ _ => hfinish
  rw [step_bind]
  split
  · exact .anyway fun _ _ => hclosing
  · exact hclosing

theorem ensures_restProperty_binds (hc : c.delegate = .idle) :
    Ensures (restProperty r) c s fun x _ => Node.Binds.Member (.node x.1) := by
  refine .anyway fun start _ => .anyway fun _ _ => (h.pattern hc).bind fun x t hx => ?_
  exact (ensures_restEnd_binds hc hx).mono fun x _ hrest => ⟨x.1, rfl, .inl hrest⟩

theorem ensures_objectPattern_binds (hc : c.delegate = .idle) :
    Ensures (objectPattern r kind) c s fun x _ => x.1.Binds .target := by
  refine .anyway fun start _ => .anyway fun _ t => ?_
  refine Ensures.bind (P := fun xs _ => ∀ x ∈ xs, Node.Binds.Member (.node x.1)) ?_ fun xs t hxs => ?_
  · refine ensures_loop (I := fun xs _ => ∀ x ∈ xs, Node.Binds.Member (.node x.1))
      (fun x hx => by cases hx) fun xs t hxs => ?_
    rw [step_bind]
    split
    · exact .pure fun x hx => hxs x (List.mem_reverse.1 hx)
    refine Ensures.bind ?_ fun x u hx =>
      .pure (List.forall_mem_cons.2 ⟨hx, hxs⟩)
    have hcomma {x : Node × List Token} {u : ParseState} (hx : Node.Binds.Member (.node x.1)) : Ensures (do
          unless ← sees "\x7d" do expect ","
          return x) c u fun x _ => Node.Binds.Member (.node x.1) := by
      rw [step_bind]
      split
      · exact .pure hx
      · exact .anyway fun _ _ => .pure hx
    rw [step_bind]
    split
    · exact (ensures_restProperty_binds hc).bind fun x u hx => hcomma hx
    · exact (ensures_propertyPattern_binds hc).bind fun x u hx => hcomma hx
  · refine .anyway fun _ u => ensures_finish_bind hc fun serial span w _ => .pure ?_
    refine .objectOf rfl ((xs.map (·.1)).map Value.node) rfl ?_
    exact List.forall_mem_map.2 (List.forall_mem_map.2 hxs)

theorem ensures_pattern_binds (hc : c.delegate = .idle) :
    Ensures (pattern r kind) c s fun x _ => x.1.Binds .target := by
  have hname {t : Token} {u : ParseState} : Ensures (do return (← variableIdentifier kind, [t])) c u
      fun x _ => x.1.Binds .target :=
    (ensures_variableIdentifier_binds hc).bind fun n _ hn => .pure hn
  rw [pattern, step_bind]
  split
  · exact ensures_arrayPattern_binds hc
  rw [step_bind]
  split
  · exact ensures_objectPattern_binds hc
  rw [step_bind]
  split
  · exact .anyway fun _ _ => hname
  · exact hname

theorem ensures_restParameter_binds (hc : c.delegate = .idle) :
    Ensures (restParameter r) c s fun x _ => x.1.Binds .last := by
  refine .anyway fun start _ => .anyway fun _ _ => (ensures_pattern_binds hc).bind fun x t hx => ?_
  exact (ensures_restEnd_binds hc hx).mono fun x _ hrest => hrest.2

end

/-! ### Primary expressions -/

instance : Weighs I (markupRoot r) := by
  unfold markupRoot leaveMarkup
  infer_instance

instance : Weighs I regexLiteral := by
  unfold regexLiteral
  refine @Appraises.forgetBind _ _ _ _ _ fun start => @Weighs.unbindBind _ _ _ ?_
  refine @Appraises.spareBind _ _ _ _ _ _ fun _ => @Appraises.spareBind _ _ _ _ _ _ fun t => ?_
  split <;> infer_instance

/-! ### Arrays and objects -/

section

variable [h : Recur.Weighs r] {c : ParseSetting} {s : ParseState}

/-- A part can only be a parameter where all before it could be. -/
theorem ensures_inherit_binds (hc : c.delegate = .idle) :
    Ensures (inherit r.assignment) c s fun n t => t.context.isBinding →
      s.context.isBinding ∧ n.asPattern.Binds .element := by
  refine ensures_within.2 <| (h.assignment hc).mono fun n t ht hbinding => ?_
  simp only [Bool.and_eq_true] at hbinding
  exact ⟨hbinding.2, ht hbinding.1⟩

theorem ensures_spreadElement_binds (hc : c.delegate = .idle) :
    Ensures (spreadElement r) c s fun n t => t.context.isBinding → s.context.isBinding ∧
      ∃ (a : Node) (serial : Option Nat) (span : Option Span),
        n = { Node.spreadElement a with serial, span } ∧ a.asPattern.Binds .element := by
  rw [spreadElement, step_bind]
  refine Spares.ensures_bind (I := (· = s.context)) rfl fun _ t ht => ?_
  refine (ensures_inherit_binds hc).bind fun a u hu => ?_
  simp only [step_iff, hc, Event.taken_idle]
  rw [ht] at hu
  exact fun hbinding => ⟨(hu hbinding).1, a, _, _, rfl, (hu hbinding).2⟩

/-- A spread that is not the last element makes an array no parameter. -/
instance : Weighs I (arrayInitializer r) := by
  refine ⟨fun {c s} hc _ => ?_⟩
  rw [arrayInitializer, step_bind]
  refine .anyway fun _ t => ?_
  refine Ensures.bind (P := fun es t => t.context.isBinding →
    Value.Ends (Value.Becomes .element) (Value.Becomes .last) es) ?_ fun es t ht => ?_
  · refine ensures_loop (I := fun found t => t.context.isBinding →
      Value.Ends (Value.Becomes .element) (Value.Becomes .last) found.reverse ∧
        (t.lookahead.lexeme.isMark "]" ∨ ∀ v ∈ found, Value.Becomes .element v)) (fun _ => by simp [Value.Ends])
      fun found t ht => ?_
    rw [step_bind]
    split
    · exact .pure fun hbinding => (ht hbinding).1
    next hmore =>
    refine Ensures.bind (P := fun v u => u.context.isBinding → t.context.isBinding ∧
      v.Becomes .last ∧ (u.lookahead.lexeme.isMark "]" ∨ v.Becomes .element)) ?_ fun v u hu => ?_
    · refine Spares.ensures_bind rfl fun isHole u hu => ?_
      split
      · exact .pure fun hbinding => ⟨hu ▸ hbinding, .inl rfl, .inr (.inl rfl)⟩
      rw [step_bind]
      split
      · refine (ensures_spreadElement_binds hc).bind fun n v hv => ?_
        rw [step_bind]
        split
        · next hend =>
          refine .pure fun hbinding => ?_
          obtain ⟨hbefore, a, serial, span, rfl, ha⟩ := hv hbinding
          exact ⟨hu ▸ hbefore, Value.becomes_node.2 (Node.Binds.ofSpreadElement ha).2, .inl hend⟩
        · rw [notTarget, step_bind]
          refine Spares.ensures_bind (I := Context.IsUnbound) rfl fun _ w hw => ?_
          refine .pure fun hbinding => ?_
          rw [hw] at hbinding
          cases hbinding
      · refine (ensures_inherit_binds hc).bind fun n v hv => ?_
        have helement (hbinding : v.context.isBinding) : t.context.isBinding ∧
            (Value.node n).Becomes .last ∧ (Value.node n).Becomes .element := by
          obtain ⟨hbefore, hn⟩ := hv hbinding
          exact ⟨hu ▸ hbefore, Value.becomes_node.2 hn.last, Value.becomes_node.2 hn⟩
        rw [step_bind]
        split
        · exact .pure fun hbinding => (helement hbinding).imp_right fun h => h.imp_right .inr
        · refine Spares.ensures_bind rfl fun _ w hw => .pure fun hbinding => ?_
          exact (helement (hw ▸ hbinding)).imp_right fun h => h.imp_right .inr
    · refine .pure fun hbinding => ?_
      obtain ⟨hbefore, hlast, hnext⟩ := hu hbinding
      have hfound : ∀ v ∈ found, Value.Becomes .element v := (ht hbefore).2.resolve_left hmore
      refine ⟨?_, hnext.imp_right fun hv => List.forall_mem_cons.2 ⟨hv, hfound⟩⟩
      rw [List.reverse_cons]
      exact .append_singleton (fun u hu => hfound u (List.mem_reverse.1 hu)) hlast
  · refine Spares.ensures_bind rfl fun _ u hu => ?_
    simp only [step_iff, hc, Event.taken_idle]
    exact .inr fun hbinding => .ofArrayExpression (ht (hu ▸ hbinding))

omit h in
instance : Spares Context.IsUnbound (propertyKey r) := by
  refine .seq fun start => .seq fun t => ?_
  split <;> infer_instance

omit h in
/-- The body of a method is no part of a parameter, and neither is the method. -/
instance : Unbinds (methodBody r f) := by
  have hbody : Spares Context.IsUnbound (withStrictness f do
      let body ← isolate (functionBody r)
      if ← strict then
        tolerateSuspect f
        tolerateStricted f
      return body) :=
    .within inferInstance (fun _ => rfl) fun _ _ => rfl
  infer_instance

instance [hp : Unbinds p] : Unbinds (withYield y x p) :=
  .within hp fun _ _ => rfl
instance [Unbinds value] :
    Unbinds (keyedProperty r kind isMethod value) := inferInstance

theorem ensures_propertyValue_binds (hc : c.delegate = .idle) :
    Ensures (propertyValue r start hasProto head key) c s fun p t => t.context.isBinding →
      s.context.isBinding ∧ p.value.asPattern.Binds .element := by
  have hmethod {p : Parse Node} [hp : Unbinds p] {f : Node → PropertyParts} :
      Ensures (p >>= fun value => pure (f value)) c s fun p t => t.context.isBinding →
        s.context.isBinding ∧ p.value.asPattern.Binds .element := by
    refine (hp.out c s).bind fun _ t ht => .pure fun hbinding => ?_
    rw [ht] at hbinding
    cases hbinding
  rw [propertyValue, step_bind]
  split
  · refine Spares.ensures_optional fun t ht => ?_
    refine Spares.ensures_bind (I := (· = s.context)) ht fun _ u hu => ?_
    refine (ensures_inherit_binds hc).bind fun n v hv => .pure fun hbinding => ?_
    exact hu ▸ hv hbinding
  rw [step_bind]
  split
  · split
    · exact hmethod
    · exact hmethod
  split
  · refine ensures_finish_bind hc fun serial span t ht => ?_
    have hname : Node.Binds .target { Node.identifier (.ofLexeme head.token.lexeme) with serial, span } :=
      .name rfl
    rw [step_bind]
    split
    · refine Spares.ensures_bind (I := (· = s.context)) ht fun equals u hu => ?_
      rw [step_bind]
      refine .seq <| ensures_isolate <| .always fun right v _ => ?_
      refine ensures_finish_bind hc fun serial' span' w hw => .pure fun hbinding => ?_
      rw [hw] at hbinding
      refine ⟨hu ▸ hbinding, ?_⟩
      have hdefault : Node.Binds .element { Node.assignmentPattern _ right with serial := serial', span := span' } :=
        .ofAssignmentPattern hname
      exact hdefault
    · refine .pure fun hbinding => ⟨ht ▸ hbinding, ?_⟩
      exact hname.element
  · exact .anyway fun _ _ => .seq ensures_unexpected

theorem ensures_objectProperty_binds (hc : c.delegate = .idle) :
    Ensures (objectProperty r hasProto) c s fun x t => t.context.isBinding →
      s.context.isBinding ∧ Node.Binds.Member (Value.node x.1).asMember := by
  have hfinish {start : Mark} {t : ParseState} {p : Parse PropertyParts} (hp : Ensures p c t fun p u =>
      u.context.isBinding → s.context.isBinding ∧ p.value.asPattern.Binds .element) :
      Ensures (do
        let p ← p
        let node ← finish start (.property (.word p.kind) p.key p.computed p.value p.method p.shorthand)
        return (node, hasProto || p.isProto)) c t fun x t => t.context.isBinding →
          s.context.isBinding ∧ Node.Binds.Member (Value.node x.1).asMember := by
    refine hp.bind fun p u hu => ensures_finish_bind hc fun serial span v hv => ?_
    refine .pure fun hbinding => ?_
    obtain ⟨hbefore, hvalue⟩ := hu (hv ▸ hbinding)
    exact ⟨hbefore, Node.Binds.member_property hvalue⟩
  have hkeyed {p : Parse PropertyParts} [hp : Unbinds p] {t : ParseState} : Ensures p c t fun p u =>
      u.context.isBinding → s.context.isBinding ∧ p.value.asPattern.Binds .element := by
    refine (hp.out c t).mono fun _ u hu hbinding => ?_
    rw [hu] at hbinding
    cases hbinding
  rw [objectProperty, step_bind]
  refine ((inferInstance : Spares Context.IsUnbound (propertyHead r _)).out c s).bind fun head t ht => ?_
  have hbefore (hbinding : t.context.isBinding) : s.context.isBinding := by
    cases hs : s.context.isBinding with
    | true => rfl
    | false =>
      rw [ht hs] at hbinding
      cases hbinding
  rw [step_bind]
  dsimp only
  split
  · exact hfinish hkeyed
  split
  · exact hfinish hkeyed
  split
  · exact hfinish hkeyed
  split
  · exact hfinish <| (ensures_propertyValue_binds hc).mono fun p u hu hbinding =>
      (hu hbinding).imp_left hbefore
  · rw [step_bind]
    exact .seq ensures_unexpected

/-- The properties read so far become parts of a pattern if they are taken for parameters. -/
def Members (ps : List Node) (t : ParseState) : Prop :=
  t.context.isBinding → ∀ p ∈ ps, Node.Binds.Member (Value.node p).asMember

instance : Weighs I (objectInitializer r) := by
  refine ⟨fun {c s} hc _ => ?_⟩
  rw [objectInitializer, step_bind]
  refine .anyway fun _ t => ?_
  refine Ensures.bind (P := fun v t => ∃ ps : List Node, v = .nodes ps ∧ Members ps t) ?_ fun v t ht => ?_
  · refine ensures_loop (I := fun x t => Members x.1 t) (fun _ p hp => by cases hp) fun x t ht => ?_
    obtain ⟨properties, hasProto⟩ := x
    have hround {property : Node} {hasProto : Bool} {u : ParseState} (hu : u.context.isBinding →
        t.context.isBinding ∧ Node.Binds.Member (Value.node property).asMember) :
        Ensures (do
          unless ← sees "\x7d" do expectComma
          return Round.again (properties ++ [property], hasProto)) c u
          (Round.Holds (fun x t => Members x.1 t) fun v t => ∃ ps : List Node, v = Value.nodes ps ∧ Members ps t) := by
      have hall : Members (properties ++ [property]) u := fun hbinding =>
        List.forall_mem_append.2 ⟨ht (hu hbinding).1, List.forall_mem_singleton.2 (hu hbinding).2⟩
      rw [step_bind]
      split
      · exact .pure hall
      · exact Spares.ensures_bind rfl fun _ v hv =>
          .pure fun hbinding => hall (hv ▸ hbinding)
    rw [step_bind]
    split
    · exact .pure ⟨properties, rfl, ht⟩
    rw [step_bind]
    split
    · refine (ensures_spreadElement_binds hc).bind fun n u hu => ?_
      refine .seq <| .pure <| hround fun hbinding => ?_
      obtain ⟨hbefore, a, serial, span, rfl, ha⟩ := hu hbinding
      exact ⟨hbefore, Node.Binds.member_spreadElement ha⟩
    · exact (ensures_objectProperty_binds hc).bind fun x u hu => hround hu
  · obtain ⟨ps, rfl, hps⟩ := ht
    refine Spares.ensures_bind rfl fun _ u hu => ?_
    simp only [step_iff, hc, Event.taken_idle]
    exact .inr fun hbinding => .ofObjectExpression (hps (hu ▸ hbinding))

end

/-! ### Accesses and calls -/

section

variable [Recur.Weighs r]

instance : Weighs I (primary r) := by
  refine @Appraises.forgetBind _ _ _ _ _ fun c => @Appraises.forgetBind _ _ _ _ _ fun isMarkup => ?_
  split
  · infer_instance
  · refine @Appraises.forgetBind _ _ _ _ _ fun start => @Appraises.forgetBind _ _ _ _ _ fun t => ?_
    split <;> infer_instance

end

/-- What is accessed or called is no parameter. -/
instance {f : Unit → Parse Node} [hf : Weighs Context.IsUnbound (f ())] : Weighs I (accessTarget isTarget >>= f) :=
  ⟨fun hc _ => .seq <| .modify <| hf.out hc rfl⟩

variable {start : Mark} {e : Node} {optional allowCall isAsync : Bool}

variable {c : ParseSetting} {s : ParseState}

theorem ensures_memberLink_weighed (hc : c.delegate = .idle) (hs : e.Weighed s.context ∨ seesLink s)
    (hcall : s.lookahead.lexeme.isMark "(" = false) :
    Ensures (memberLink r start allowCall e) c s
      (Round.Holds (fun n t => n.Weighed t.context) fun n t => n.Weighed t.context) := by
  rw [memberLink, step_bind]
  split
  · rw [accessTarget, step_bind]
    exact Spares.ensures_bind (I := Context.IsUnbound) rfl fun _ _ ht => Appraises.again hc ht
  next hstatic =>
  rw [step_bind, step_bind]
  split
  · exact Appraises.again hc (Context.anyhow _)
  rw [step_bind]
  split
  · rw [accessTarget, step_bind]
    exact Appraises.again (I := Context.IsUnbound) hc rfl
  next hcomputed =>
  rw [step_bind]
  split
  · exact .anyway fun _ _ => Appraises.again hc (Context.anyhow _)
  · refine .pure (hs.resolve_right ?_)
    simp_all [seesLink]

instance [Recur.Weighs r] : Weighs I (callChain r) :=
  appraises_callChain id fun hc => ensures_memberLink_weighed hc

/-! ### Arrows and assignments -/

instance : Names (arrowRest r start isAsync f) := by unfold arrowRest; infer_instance
instance : Names (yieldExpression r) := by unfold yieldExpression; infer_instance

/-- What stands before an arrow is no parameter. A function that starts with it is taken for a name. -/
theorem ensures_arrowFunction_binds (hc : c.delegate = .idle) :
    Ensures (arrowFunction r first e) c s fun n t => t.context.isBinding → n.asPattern.Binds .target := by
  rw [arrowFunction, notTarget, step_bind]
  refine Spares.ensures_bind (I := Context.IsUnbound) rfl fun f t ht => ?_
  cases f with
  | none =>
    refine .pure fun hbinding => ?_
    rw [ht] at hbinding
    cases hbinding
  | some f =>
    have hnames : Names (withStrictness f <| withYield true (some (e.has "isAsync")) <|
        arrowRest r (first.startMark 0) (e.has "isAsync") f) := by
      unfold withStrictness withYield
      infer_instance
    refine .anyway fun now u => ?_
    split
    · exact .anyway fun _ _ => .anyway fun _ _ => .anyway fun _ _ => (hnames.out hc).mono fun _ _ hn _ => .of_name hn
    · exact .anyway fun _ _ => (hnames.out hc).mono fun _ _ hn _ => .of_name hn

/-- An assignment to an expression becomes a pattern if the expression does. -/
def Assigns (e : Node) (s : ParseState) (n : Node) (t : ParseState) : Prop :=
  n.is .assignmentExpression ∧
    ((s.context.isBinding → e.asPattern.Binds .target) → t.context.isBinding → n.asPattern.Binds .element)

/-- Before an equals sign, a pattern gets a default. Before any other operator, nothing is a parameter. -/
theorem ensures_assign_binds (hc : c.delegate = .idle) (hu : u.context = s.context) : Ensures (do
      let isPlain ← sees "="
      unless isPlain do notTarget
      let t ← next
      let right ← isolate r.assignment
      let left := if isPlain then e.asPattern else e
      let e ← finishFrom first (.assignmentExpression (.ofLexeme t.lexeme) left right)
      setContext fun c => { c with coverError := none }
      return e) c u (Assigns e s) := by
  have hrest (isPlain : Bool) {t : ParseState} (ht : t.context.isBinding → isPlain ∧ s.context.isBinding) :
      Ensures (do
        let t ← next
        let right ← isolate r.assignment
        let left := if isPlain then e.asPattern else e
        let e ← finishFrom first (.assignmentExpression (.ofLexeme t.lexeme) left right)
        setContext fun c => { c with coverError := none }
        return e) c t (Assigns e s) := by
    refine Spares.ensures_bind rfl fun mark u hu => ?_
    refine .seq <| ensures_isolate <| .always fun right v _ => ?_
    refine ensures_finish_bind hc fun serial span w hw => ?_
    rw [step_bind]
    refine .pure ⟨rfl, fun hs hbinding => ?_⟩
    rw [hw] at hbinding
    obtain ⟨rfl, hbefore⟩ := ht (hu ▸ hbinding)
    exact .ofAssignmentExpression (hs hbefore)
  rw [step_bind]
  dsimp only
  split
  · exact hrest true fun hbinding => ⟨rfl, hu ▸ hbinding⟩
  · rw [notTarget, step_bind]
    exact hrest false fun hbinding => by cases hbinding

/-- The check of a name that is assigned to leaves the context as it is. -/
theorem ensures_checkedName_spares (hp : ∀ t : ParseState, t.context = s.context → Ensures p c t Q) : Ensures (do
      if (← strict) && e.is .identifier then
        let name := e.textOf "name"
        if Word.isRestricted name then tolerateAt first .strictAssignment
        if Word.isStrictReserved name then tolerateAt first .strictReservedWord
      p) c s Q := by
  rw [step_bind]
  split
  · exact Spares.ensures_optional fun t ht => Spares.ensures_optional fun u hu => hp u (hu.trans ht)
  · exact hp s rfl

theorem ensures_assignmentRest_binds (hc : c.delegate = .idle) :
    Ensures (assignmentRest r first e) c s (Assigns e s) := by
  rw [assignmentRest, step_bind]
  split
  · exact ensures_checkedName_spares fun t ht => ensures_assign_binds hc ht
  · refine Spares.ensures_bind (I := (· = s.context)) rfl fun _ t ht => ?_
    exact ensures_checkedName_spares fun u hu => ensures_assign_binds hc (hu.trans ht)

theorem ensures_assignment_binds [Recur.Weighs r] (hc : c.delegate = .idle) :
    Ensures (assignment r) c s fun n t => t.context.isBinding → n.asPattern.Binds .element := by
  rw [assignment, step_bind, step_bind]
  split
  · exact (Names.out hc).mono fun _ _ hn _ => .of_name hn
  rw [step_bind]
  refine (Appraises.ensures (W := Node.Weighed) hc).bind fun e t ht => ?_
  refine (Appraises.out (W := Node.Weighed) hc ht).bind fun e u hu => ?_
  rw [step_bind]
  split
  · exact (ensures_arrowFunction_binds hc).mono fun _ _ hn hbinding => (hn hbinding).element
  next hplain =>
  rw [Bool.or_eq_true, not_or] at hplain
  have he : u.context.isBinding → e.asPattern.Binds .target := hu.resolve_left hplain.1
  refine Spares.ensures_bind (I := (· = u.context)) rfl fun assigns v hv => ?_
  rw [← hv] at he
  split
  · exact (ensures_assignmentRest_binds hc).mono fun _ _ hn => hn.2 he
  · exact .pure fun hbinding => (he hbinding).element

instance run_weighs (depth : Nat) : Recur.Weighs (run depth) := by
  induction depth with
  | zero => exact ⟨fun _ => throw_iff.2 trivial, fun _ => throw_iff.2 trivial⟩
  | succ depth ih => exact ⟨ensures_assignment_binds, ensures_pattern_binds⟩

end Grammar

end EcmaSyntax
