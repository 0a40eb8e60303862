import EcmaSyntax.Proofs.Fitting.Targets

/-!
# Parameters that are names

While a pattern is read, a pending initializer may be forgotten. A name is read without that; so nothing
is forgotten while a method is read whose parameters are just names.
-/

namespace EcmaSyntax

open Parse Grammar

set_option synthInstance.maxSize 100000000000000

/-! ### Patterns that are no names -/

/-- What a production reads is no name. -/
class Nameless (p : Parse (Node × List Token)) : Prop where
  out (c : ParseSetting) (s : ParseState) : c.delegate = .idle → Ensures p c s fun x _ => x.1.is .identifier = false

namespace Nameless

variable {α : Type} {p q : Parse (Node × List Token)} {names : List Token} {a b : Value} {start : Mark}

instance {f : α → Parse (Node × List Token)} [h : ∀ x, Nameless (f x)] : Nameless (m >>= f) :=
  ⟨fun c _ hc => .anyway fun x t => (h x).out c t hc⟩

instance [Decidable c] [hp : Nameless p] [hq : Nameless q] : Nameless (if c then p else q) := by
  split
  · exact hp
  · exact hq

theorem ofFinish (hn : n.is .identifier = false) : Nameless (finish start n >>= fun x => pure (x, names)) :=
  ⟨fun c s hc => (ensures_finish_idle hc).bind fun x _ hx => .pure <| by
    rw [hx]
    exact hn⟩

instance : Nameless (finish start (.arrayPattern a) >>= fun x => pure (x, names)) := ofFinish rfl
instance : Nameless (finish start (.objectPattern a) >>= fun x => pure (x, names)) := ofFinish rfl
instance : Nameless (finish start (.restElement a) >>= fun x => pure (x, names)) := ofFinish rfl
instance : Nameless (finishFrom t (.assignmentPattern a b) >>= fun x => pure (x, names)) :=
  ofFinish rfl

variable {r : Recur} {kind : Option Declares}

instance : Nameless (arrayPattern r kind) := by unfold arrayPattern; infer_instance
instance : Nameless (objectPattern r kind) := by unfold objectPattern; infer_instance
instance : Nameless (restParameter r) := by unfold restParameter; infer_instance

end Nameless

/-! ### What is remembered -/

/-- If a production reads a name, then what was pending before it still is. -/
class Remembers (p : Parse (Node × List Token)) : Prop where
  out (c : ParseSetting) (s : ParseState) : c.delegate = .idle →
    Ensures p c s fun x t => x.1.is .identifier → s.context.IsPending → t.context.IsPending

namespace Remembers

variable {p q : Parse (Node × List Token)} {r : Recur} {kind : Option Declares}

instance [h : Nameless p] : Remembers p :=
  ⟨fun c s hc => (h.out c s hc).mono fun _ _ hx hname => absurd (hx.symm.trans hname) Bool.false_ne_true⟩

instance (priority := low) [h : Spares Context.IsPending p] : Remembers p :=
  ⟨fun c s _ => (h.out c s).mono fun _ _ ht _ => ht⟩

/-- Nothing is forgotten before a name is read. -/
instance {f : α → Parse (Node × List Token)} [hm : Spares Context.IsPending m]
    [hf : ∀ x, Remembers (f x)] : Remembers (m >>= f) :=
  ⟨fun c s hc => (hm.out c s).bind fun x t ht =>
    ((hf x).out c t hc).mono fun _ _ hu hname hs => hu hname (ht hs)⟩

instance [Decidable c] [hp : Remembers p] [hq : Remembers q] : Remembers (if c then p else q) := by
  split
  · exact hp
  · exact hq

instance : Remembers (Grammar.pattern r kind) := by unfold Grammar.pattern; infer_instance

end Remembers

/-- The rule for patterns remembers what is pending. -/
class Recur.Remembers (r : Recur) : Prop where
  pattern (kind : Option Declares) : EcmaSyntax.Remembers (r.pattern kind)

instance Grammar.remembers_run : ∀ depth : Nat, Recur.Remembers (run depth)
  | 0 => ⟨fun _ => ⟨fun _ _ _ => Ensures.throw_iff.2 trivial⟩⟩
  | depth + 1 => ⟨fun kind => inferInstanceAs (EcmaSyntax.Remembers (Grammar.pattern (run depth) kind))⟩

/-! ### Parameters -/

/-- If all parameters are names, then what was pending before them still is. -/
def Formals.Remembered (f : Formals) (before after : Context) : Prop :=
  (∀ v ∈ f.params, v.kind? = some .identifier) → before.IsPending → after.IsPending

namespace Grammar

variable {r : Recur} [hr : Recur.Remembers r] {kind : Option Declares} {c : ParseSetting} {s t : ParseState}

instance : Remembers (patternWithDefault r kind) := by
  refine ⟨fun c s hc => Ensures.step_bind.2 (((hr.pattern kind).out c s hc).bind fun x t hx => ?_)⟩
  have hspares : Spares Context.IsPending (accept "=") := inferInstance
  refine (hspares.out c t).bind fun isDefault u hu => ?_
  split
  · exact (Nameless.out c u hc).mono fun _ _ h hname => absurd (h.symm.trans hname) Bool.false_ne_true
  · exact .pure fun hname hs => hu (hx hname hs)

theorem ensures_formalParameter (hc : c.delegate = .idle) (hf : f.Remembered b s.context) :
    Ensures (formalParameter r f) c s fun f' t => f'.Remembered b t.context := by
  have hpush (p : Parse (Node × List Token)) [hp : Remembers p] :
      Ensures (p >>= fun x => strict >>= fun isStrict => pure <|
        f.push isStrict x.1 (x.2.map fun t => (Culprit.token t, t.lexeme.valueText))) c s
        fun f' t => f'.Remembered b t.context := by
    refine (hp.out c s hc).bind fun x t hx => ?_
    refine Spares.ensures_bind (I := fun d => x.1.is .identifier → s.context.IsPending → d.IsPending) hx
      fun isStrict u hu => .pure fun hnames hb => ?_
    rw [Formals.params_push, List.forall_mem_append, List.forall_mem_singleton] at hnames
    exact hu (beq_iff_eq.2 hnames.2) (hf hnames.1 hb)
  rw [formalParameter, Ensures.step_bind]
  split
  · exact hpush (restParameter r)
  · exact hpush (patternWithDefault r none)

/-- What holds before the first parameter and after each one of them holds behind all of them. -/
theorem ensures_formalParameters_of {I : Formals → Context → Prop}
    (hstart : I (.start name) s.context) (hparam : ∀ f t, I f t.context →
      Ensures (formalParameter r f) c t fun f u => I f u.context) :
    Ensures (formalParameters r name) c s fun f t => I f t.context := by
  have hclose {f : Formals} {t : ParseState} (hf : I f t.context) :
      Ensures (expect ")" >>= fun _ => pure f) c t fun f u => I f u.context :=
    Spares.ensures_bind hf fun _ _ hu => .pure hu
  refine Spares.ensures_bind hstart fun _ t ht => ?_
  rw [Ensures.step_bind]
  split
  · exact hclose ht
  · refine (ensures_loop (I := fun f t => I f t.context) ht fun f t ht => ?_).bind fun f t hf => hclose hf
    refine Spares.ensures_bind ht fun isEnd t ht => ?_
    split
    · exact .pure ht
    · refine (hparam f t ht).bind fun f t hf => Spares.ensures_bind hf fun isLast t hf => ?_
      split
      · exact .pure hf
      · refine Spares.ensures_bind hf fun _ t hf => Spares.ensures_bind hf fun isLast t hf => ?_
        split
        · exact .pure hf
        · exact .pure hf

theorem ensures_formalParameters (hc : c.delegate = .idle) :
    Ensures (formalParameters r name) c s fun f t => f.Remembered s.context t.context :=
  ensures_formalParameters_of (fun _ h => h) fun _ _ =>
    ensures_formalParameter hc

end Grammar

/-! ### Methods -/

/-- Are the parameters of a function just names? -/
def Node.HasNames (n : Node) : Prop := ∀ v ∈ (n.get "params").items, v.kind? = some .identifier

/-- A method is no pattern, and if its parameters are just names, then what was pending before it still
is. -/
class Recalls (p : Parse Node) : Prop where
  out (c : ParseSetting) (s : ParseState) : c.delegate = .idle →
    Ensures p c s fun n t => n.is .assignmentPattern = false
      ∧ (n.HasNames → s.context.IsPending → t.context.IsPending)

instance [hm : Spares Context.IsPending m] [hp : Recalls p] : Recalls (m >>= fun _ => p) :=
  ⟨fun c s hc => (hm.out c s).bind fun _ t ht =>
    (hp.out c t hc).mono fun _ _ hn => ⟨hn.1, fun hnames hs => hn.2 hnames (ht hs)⟩⟩

namespace Grammar

variable {r : Recur} [Recur.Remembers r] {c : ParseSetting} {s : ParseState} {α : Type} {p : Parse α}
  {f : Formals} {check : Formals → Parse Unit}

theorem spares_aside (hw : Aside enter leave) (hp : Spares Context.IsPending p) :
    Spares Context.IsPending (within enter leave p) := by
  refine ⟨fun c s => ensures_within.2 <| (hp.out c _).mono fun _ t ht hs => ?_⟩
  rw [Context.IsPending, hw.leaveCover]
  refine ht ?_
  rw [Context.IsPending, hw.enterCover]
  exact hs

instance : Spares Context.IsPending (isolate p) := ⟨fun _ _ => ensures_within.2 (.always fun _ _ h => h)⟩
instance : Spares Context.IsPending (setContext fun c => { c with allowYield := false }) :=
  ⟨fun _ _ => .modify id⟩

instance : Spares Context.IsPending (methodBody r f) := by
  have hbody : Spares Context.IsPending (withStrictness f do
      let body ← isolate (functionBody r)
      if ← strict then
        tolerateSuspect f
        tolerateStricted f
      return body) := spares_aside (aside_withStrictness f) inferInstance
  infer_instance

theorem ensures_method_names [hcheck : ∀ f, Spares Context.IsPending (check f)] (hc : c.delegate = .idle) :
    Ensures (method r check) c s fun x t => x.1.Remembered s.context t.context := by
  refine (ensures_formalParameters hc).bind fun f t hf => ?_
  have hbody : Spares Context.IsPending (methodBody r f) := inferInstance
  refine ((hcheck f).out c t).bind fun _ u hu => ?_
  refine (hbody.out c u).bind fun body v hv => .pure fun hnames hs => ?_
  exact hv (hu (hf hnames hs))

/-- What is made of the parameters and the body of a method is no pattern, and has the parameters. -/
theorem recalls_method [∀ f, Spares Context.IsPending (check f)] (make : Formals → Node → Node)
    (hkind : ∀ f body, (make f body).is .assignmentPattern = false)
    (hparams : ∀ f body, (make f body).get "params" = .list f.params) : Recalls (do
      let start ← here
      let m ← withYield y x (method r check)
      finish start (make m.1 m.2)) := by
  refine ⟨fun c s hc => Spares.ensures_bind (I := fun d => s.context.IsPending → d.IsPending) id fun start t ht => ?_⟩
  refine .seq (ensures_within.2 <| (ensures_method_names hc).mono fun m u hm => ?_)
  simp only [Ensures.step_iff, hc, Event.taken_idle]
  refine ⟨hkind _ _, fun hnames hs => hm (fun v hv => hnames v ?_) (ht hs)⟩
  change v ∈ ((make m.1 m.2).get "params").items
  rw [hparams]
  exact hv

instance : Recalls (plainMethod r) := recalls_method plainMethodNode (fun _ _ => rfl) fun _ _ => rfl
instance : Recalls (asyncMethod r) :=
  recalls_method (fun f body => .asyncFunctionExpression .null (.list f.params) body false) (fun _ _ => rfl)
    fun _ _ => rfl
instance : Recalls (getter r) := recalls_method plainMethodNode (fun _ _ => rfl) fun _ _ => rfl
instance : Recalls (setter r) := recalls_method plainMethodNode (fun _ _ => rfl) fun _ _ => rfl
instance : Recalls (generatorMethod r) :=
  recalls_method (fun f body => .functionExpression .null (.list f.params) body true) (fun _ _ => rfl) fun _ _ => rfl

end Grammar

end EcmaSyntax
