import EcmaSyntax.Proofs.Fitting.Rules

/-!
# What may be assigned to

While an expression is read, the context keeps track of whether it can be assigned to. Not every
production says so of what it reads, and then the answer is that of a part. `Node.Judged` says what an
expression may be if the answer is yes, and `Judges` that this holds of all that a production reads.
-/

namespace EcmaSyntax

open Parse
open Ensures (bind_iff step_iff step_bind throw_iff)

set_option synthInstance.maxSize 100000000000000

variable {p : Parse Node} {c : ParseSetting} {β : Type} {s : ParseState} {t : Token} {start : Mark}
  {right : Operand}

/-- An expression is no pattern, and if it is taken for a target then it is one of those that are. -/
def Node.Judged (n : Node) (c : Context) : Prop :=
  n.is .assignmentPattern = false ∧ (c.isTarget → n.isAny updateTargets)

/-- Not judged yet. -/
def Node.Unjudged (n : Node) (_ : Context) : Prop := n.is .assignmentPattern = false

/-- Nothing is known of a context. -/
def Context.Anyhow (_ : Context) : Prop := True

theorem Context.anyhow (c : Context) : c.Anyhow := trivial

/-- Is what is of this kind taken for a name? -/
@[reducible] def Kind.isBindable : Kind → Bool
  | .identifier | .privateIdentifier | .templateLiteral | .taggedTemplateExpression | .metaProperty
  | .awaitExpression | .yieldExpression | .jsxElement | .functionExpression | .classExpression
  | .arrowFunctionExpression => true
  | _ => false

/-- May what is of this kind be taken for a target? -/
@[reducible] def Kind.isAim : Kind → Bool
  | .memberExpression | .arrayExpression | .objectExpression | .assignmentExpression | .arrowParameters => true
  | k => k.isBindable

/-- Is this not the kind of patterns with defaults? -/
@[reducible] def Kind.isNoDefault : Kind → Bool
  | .assignmentPattern => false
  | _ => true

/-- Something holds of what a production reads and the context after, if something holds of the context before. -/
class Appraises (W : Node → Context → Prop) (I : Context → Prop) (p : Parse Node) : Prop where
  out {c : ParseSetting} {s : ParseState} : c.delegate = .idle → I s.context → Ensures p c s fun n t => W n t.context

/-- What a production reads is judged right. -/
abbrev Judges := Appraises Node.Judged

variable {W : Node → Context → Prop} {I : Context → Prop} {α : Type} {n : Node}

instance (priority := 50) [u : Unfolds p q] [h : Appraises W I q] : Appraises W I p := u.eq ▸ h

theorem Among.noDefault (h : Among Kind.isNoDefault n) : n.is .assignmentPattern = false :=
  Node.not_isAny_iff.1 (h.not_isAny (by decide)) _ (List.mem_singleton_self _)

theorem Among.noDefault_of_aim (h : Among Kind.isAim n) : Among Kind.isNoDefault n := by
  obtain ⟨k, hk, haim⟩ := h.out
  exact ⟨k, hk, by cases k <;> first | rfl | cases haim⟩

theorem Node.judged_of_aimed [h : Among Kind.isAim n] (c : Context) : n.Judged c :=
  ⟨h.noDefault_of_aim.noDefault, fun _ => h.isAny (by intro k; cases k <;> decide)⟩

theorem Node.judged_of_fixed [h : Among Kind.isNoDefault n] {c : Context} (hc : c.IsFixed) : n.Judged c :=
  ⟨h.noDefault, fun hc' => by rw [hc] at hc'; cases hc'⟩

/-! ### Steps that leave a target fixed -/

namespace Spares

/-- A run goes on with what was spared. -/
theorem ensures_bind {p : Parse α} {f : α → Parse β} {Q : β → ParseState → Prop} [hp : Spares I p] (hs : I s.context)
    (hf : ∀ x t, I t.context → Ensures (f x) c t Q) : Ensures (p >>= f) c s Q :=
  (hp.out c s).bind fun x t ht => hf x t (ht hs)

/-- What is isolated says nothing of what it is isolated from. -/
instance : Spares Context.IsFixed (isolate p) :=
  ⟨fun _ _ => ensures_within.2 (.always fun _ _ h => h)⟩

/-- What cannot be assigned to is no part of something that can. -/
instance : Spares Context.IsFixed (inherit p) :=
  ⟨fun _ _ => ensures_within.2 <| .always fun _ _ h => by simp_all [Context.IsFixed]⟩

end Spares

/-! ### Looking ahead -/

/-! ### Rules -/

namespace Appraises

variable {f : α → Parse Node}

theorem mono (h : Appraises W J p) (hI : ∀ c, I c → J c) : Appraises W I p :=
  ⟨fun hc hs => h.out hc (hI _ hs)⟩

/-- What is known of the context is still known after a step that spares it. -/
instance spareBind [hq : Spares I q] [hf : ∀ x, Appraises W I (f x)] : Appraises W I (q >>= f) :=
  ⟨fun {c s} hc hs => (hq.out c s).bind fun x _ ht => (hf x).out hc (ht hs)⟩

/-- It is forgotten where it does not matter. -/
instance (priority := low) forgetBind [hf : ∀ x, Appraises W Context.Anyhow (f x)] : Appraises W I (q >>= f) :=
  ⟨fun hc _ => .anyway fun x _ => (hf x).out hc trivial⟩

/-- What holds of an expression holds until something else is read. -/
instance (priority := high) readBind {f : Node → Parse Node} [hq : Appraises W I q]
    [hf : ∀ x, Appraises W (W x) (f x)] : Appraises W I (q >>= f) :=
  ⟨fun hc hs => (hq.out hc hs).bind fun x _ ht => (hf x).out hc ht⟩

instance : Appraises W (W n) (pure n) := ⟨fun _ hs => .pure hs⟩

instance [Decidable q] [hp : Appraises W I p] [hp' : Appraises W I p'] :
    Appraises W I (if q then p else p') := by
  split
  · exact hp
  · exact hp'

theorem ensures [h : Appraises W Context.Anyhow p] (hc : c.delegate = .idle) :
    Ensures p c s fun n t => W n t.context :=
  h.out hc trivial

/-- A round of a loop that goes on with what a production reads. -/
theorem again {R : α → ParseState → Prop} [h : Appraises W I p] (hc : c.delegate = .idle) (hs : I s.context) :
    Ensures (p >>= fun n => pure (.again n)) c s (Round.Holds (fun n t => W n t.context) R) :=
  (h.out hc hs).bind fun _ _ ht => .pure ht

theorem ofNever (h : ∀ c s, Ensures p c s fun _ _ => False) : Appraises W I p :=
  ⟨fun {c s} _ _ => (h c s).mono fun _ _ => False.elim⟩

instance : Appraises W I (unexpected t) := ofNever fun _ _ => ensures_unexpected

instance [h : Appraises W I (finish (t.startMark 0) n)] : Appraises W I (finishFrom t n) := h

end Appraises

namespace Judges

variable {f : α → Parse Node}

instance (priority := high) fixBind {binding : Context → Bool} {f : Unit → Parse Node}
    [hf : Judges Context.IsFixed (f ())] :
    Judges I (setContext (fun c => { c with isTarget := false, isBinding := binding c }) >>= f) :=
  ⟨fun hc _ => .seq <| .modify <| hf.out hc rfl⟩
instance (priority := high) {f : Unit → Parse Node} [hf : Judges Context.IsFixed (f ())] :
    Judges I (notTarget >>= f) :=
  inferInstanceAs (Judges I (setContext (fun c => { c with isTarget := false, isBinding := false }) >>= f))

instance [Among Kind.isAim n] : Judges I (pure n) := ⟨fun _ _ => .pure (n.judged_of_aimed _)⟩

/-- What can be told from a node does not change when it is finished. -/
theorem ofFinish (hn : ∀ c, I c → n.Judged c) : Judges I (finish start n) := by
  refine ⟨fun {c s} hc hs => ?_⟩
  simp only [step_iff, hc, Event.taken_idle]
  exact hn _ hs

instance [Among Kind.isAim n] : Judges I (finish start n) := ofFinish fun c _ => n.judged_of_aimed c
instance [Among Kind.isNoDefault n] : Judges Context.IsFixed (finish start n) :=
  ofFinish fun _ hc => n.judged_of_fixed hc

-- What cannot be assigned to is finished before that is said.
instance (priority := high) finishBind {f : Node → Parse Node} [hn : Among Kind.isNoDefault n]
    [hf : ∀ x : Node, Judges x.Unjudged (f x)] : Judges I (finish start n >>= f) := by
  refine ⟨fun hc _ => (ensures_finish_idle hc).bind fun x t hx => (hf x).out hc ?_⟩
  rw [hx]
  exact hn.noDefault
instance (priority := high) {f : Node → Parse Node}
    [h : Judges I (finish (t.startMark 0) n >>= f)] : Judges I (finishFrom t n >>= f) :=
  h
instance (priority := high) {f : Unit → Parse Node} [hf : Judges n.Judged (f ())] :
    Judges n.Unjudged (notTarget >>= f) :=
  ⟨fun hc hs => .seq <| .modify <| hf.out hc ⟨hs, fun h => nomatch h⟩⟩

/-- What is read as a part is judged by itself. -/
instance [h : Judges Context.Anyhow p] : Judges I (inherit p) :=
  ⟨fun hc _ => ensures_within.2 <| (h.out hc trivial).mono fun _ _ ht =>
    ⟨ht.1, fun htarget => ht.2 (by simp_all)⟩⟩

end Judges

theorem Judges.within (hp : Judges Context.Anyhow p) (hleave : ∀ b c, (leave b c).isTarget = c.isTarget) :
    Judges I (Parse.within enter leave p) := by
  refine ⟨fun hc _ => ensures_within.2 <| (hp.out hc trivial).mono fun n t ht => ⟨ht.1, fun h => ?_⟩⟩
  rw [hleave] at h
  exact ht.2 h

/-- The rules that read expressions judge them right. -/
class Recur.Judges (r : Recur) : Prop where
  assignment : EcmaSyntax.Judges Context.Anyhow r.assignment
  unary : EcmaSyntax.Judges Context.Anyhow r.unary

instance [h : Recur.Judges r] : Judges I r.assignment := h.assignment.mono fun _ _ => trivial
instance [h : Recur.Judges r] : Judges I r.unary := h.unary.mono fun _ _ => trivial

namespace Grammar

variable {r : Recur} {stack : List Pending}

/-! ### Primary expressions -/

instance : Judges I (markupRoot r) := by
  unfold markupRoot leaveMarkup
  infer_instance

instance : Judges I regexLiteral := by
  unfold regexLiteral
  refine @Appraises.forgetBind _ _ _ _ _ fun start => @Judges.fixBind _ _ _ ?_
  refine @Appraises.spareBind _ _ _ _ _ _ fun _ => @Appraises.spareBind _ _ _ _ _ _ fun t => ?_
  split <;> infer_instance

variable [Recur.Judges r]

/-- Steps that do not tell if something can be assigned to. -/
instance {binding : Context → Bool} {coverError : Context → Option Token} : Spares n.Judged
    (setContext fun c => { c with isBinding := binding c, coverError := coverError c }) :=
  ⟨fun _ _ => .modify id⟩

/-- Only parameters can be assigned to after more than one expression in parentheses. -/
instance : Judges Context.IsFixed (groupRest r first t) := by
  refine ⟨fun {c s} hc hs => ?_⟩
  refine (ensures_loop (I := fun _ u => u.context.IsFixed) (Q := fun x u => x.2 ∨ u.context.IsFixed) hs
    fun es s hs => ?_).bind fun x u hu => ?_
  · refine Spares.ensures_bind hs fun isMore u hu => ?_
    split
    · refine Spares.ensures_bind hu fun isClosed u hu => ?_
      split
      · exact .pure (.inl rfl)
      · refine Spares.ensures_bind hu fun isRest u hu => ?_
        split
        · refine .anyway fun b u => ?_
          split
          · simp only [bind_iff, step_iff]
            exact .always fun _ _ => .always fun _ _ => .always fun _ _ => .inl rfl
          · exact .anyway fun _ _ => .seq ensures_unexpected
        · exact Spares.ensures_bind hu fun _ _ hu => .pure hu
    · exact .pure (.inr hu)
  · obtain ⟨es, isArrow⟩ := x
    dsimp only
    split
    · exact .pure (Node.judged_of_aimed _)
    · next hgroup =>
      have hclose : Judges Context.IsFixed (finishFrom t (.sequenceExpression (.nodes es)) >>= closeGroup) :=
        inferInstance
      exact hclose.out hc (hu.resolve_left hgroup)

instance : Judges I (primary r) := by
  refine @Appraises.forgetBind _ _ _ _ _ fun c => @Appraises.forgetBind _ _ _ _ _ fun isMarkup => ?_
  split
  · infer_instance
  · refine @Appraises.forgetBind _ _ _ _ _ fun start => @Appraises.forgetBind _ _ _ _ _ fun t => ?_
    split <;> infer_instance

/-! ### Accesses and calls -/

instance {f : Unit → Parse Node} [hf : Judges Context.IsFixed (f ())] : Judges I (accessTarget false >>= f) :=
  inferInstanceAs (Judges I (setContext (fun c => { c with isTarget := false, isBinding := false }) >>= f))

variable {e : Node} {optional allowCall isAsync : Bool}

/-- Does an access or a call follow? -/
def seesLink (s : ParseState) : Bool := ["(", ".", "["].any s.lookahead.lexeme.isMark

omit [Recur.Judges r] in
theorem ensures_memberLink (hc : c.delegate = .idle) (hs : e.Judged s.context ∨ seesLink s)
    (hcall : s.lookahead.lexeme.isMark "(" = false) :
    Ensures (memberLink r start allowCall e) c s
      (Round.Holds (fun n t => n.Judged t.context) fun n t => n.Judged t.context) := by
  rw [memberLink, step_bind]
  split
  · exact .anyway fun _ _ => .anyway fun _ _ => Appraises.again hc (Context.anyhow _)
  · next hstatic =>
    rw [step_bind, step_bind]
    split
    · exact Appraises.again hc (Context.anyhow _)
    · rw [step_bind]
      split
      · exact .anyway fun _ _ => Appraises.again hc (Context.anyhow _)
      · next hcomputed =>
        rw [step_bind]
        split
        · exact .anyway fun _ _ => Appraises.again hc (Context.anyhow _)
        · refine .pure (hs.resolve_right ?_)
          simp_all [seesLink]

/-- What a link reads, or what stood before if none follows. -/
abbrev Links (W : Node → Context → Prop) (c : ParseSetting) (r : Recur) : Prop :=
  ∀ {start : Mark} {e : Node} {s : ParseState}, W e s.context ∨ seesLink s →
    s.lookahead.lexeme.isMark "(" = false → Ensures (memberLink r start true e) c s
      (Round.Holds (fun n t => W n t.context) fun n t => W n t.context)

section

variable [∀ start isAsync e, Appraises W Context.Anyhow (callLink r start isAsync e)]

omit [Recur.Judges r] in
/-- The parent class alone is no expression: a link follows it. -/
theorem ensures_links {isAsync : Token → Bool} (hc : c.delegate = .idle) (hlinks : Links W c r)
    (hs : W e s.context ∨ seesLink s) :
    Ensures (loop (fun (e : Node) => do
      unless ← sees "(" do return ← memberLink r start true e
      return .again (← callLink r start (isAsync (← peek)) e)) e) c s fun n t => W n t.context := by
  refine ensures_loop (I := fun (e : Node) t => W e t.context ∨ seesLink t) hs fun e t ht => ?_
  rw [step_bind]
  split
  · rw [step_bind, bind_iff]
    exact (Appraises.ensures hc).mono fun _ _ ht => .pure (.inl ht)
  · next hcall =>
    refine (hlinks ht (Bool.eq_false_iff.2 hcall)).mono fun x _ hx => ?_
    cases x with
    | again _ => exact .inl hx
    | done _ => exact hx

omit [Recur.Judges r] in
theorem appraises_callChain [Appraises W Context.Anyhow (chainHead r)]
    (hW : ∀ {n c a}, W n c → W n { c with allowIn := a })
    (hlinks : ∀ {c : ParseSetting}, c.delegate = .idle → Links W c r) : Appraises W I (callChain r) := by
  refine ⟨fun {c s} hc _ => ?_⟩
  rw [callChain, step_bind, bind_iff]
  refine .always fun maybeAsync _ => ensures_within.2 <| .mono ?_ fun _ _ => hW
  refine .anyway fun isSuper _ => .anyway fun b _ => ?_
  split
  · refine .anyway fun start _ => .anyway fun _ _ => .anyway fun e t => ?_
    rw [step_bind]
    split
    · next hlink => exact .seq (.pure (ensures_links hc (hlinks hc) (.inr hlink)))
    · rw [step_bind]
      exact .seq ensures_unexpected
  · exact (Appraises.ensures hc).bind fun _ _ ht => ensures_links hc (hlinks hc) (.inl ht)

end

instance : Judges I (callChain r) := appraises_callChain id fun hc => ensures_memberLink hc

/-! ### Operators -/

/-- What is read as an operand is no pattern. -/
theorem ensures_isolate_judged [h : Judges Context.Anyhow p] (hc : c.delegate = .idle) :
    Ensures (isolate p) c s fun n _ => n.is .assignmentPattern = false :=
  ensures_isolate <| (h.out hc trivial).mono fun _ _ ht _ => ht.1

theorem ensures_complete {p : Pending} (hc : c.delegate = .idle) : Ensures (p.complete lineStart right) c s fun o t =>
      t.context = s.context ∧ o.node.is .assignmentPattern = false := by
  simp only [Pending.complete, bind_iff, step_iff, hc, Event.taken_idle, true_and]
  exact Among.noDefault (n := .binaryExpression p.operator p.left.node right.node) inferInstance

theorem ensures_reduceTo (hc : c.delegate = .idle) (hright : right.node.is .assignmentPattern = false) :
    Ensures (reduceTo prec stack right) c s fun x t =>
      t.context = s.context ∧ x.2.node.is .assignmentPattern = false := by
  induction stack generalizing right s with
  | nil => exact .pure ⟨rfl, hright⟩
  | cons p stack ih =>
    unfold reduceTo
    split
    · exact .pure ⟨rfl, hright⟩
    · refine (ensures_complete hc).bind fun o t ht => ?_
      exact (ih ht.2).mono fun _ _ hu => ⟨hu.1.trans ht.1, hu.2⟩

theorem ensures_reduceAll (hc : c.delegate = .idle) (hright : right.node.is .assignmentPattern = false) :
    Ensures (reduceAll stack right) c s fun n t =>
      t.context = s.context ∧ n.is .assignmentPattern = false := by
  induction stack generalizing right s with
  | nil => exact .pure ⟨rfl, hright⟩
  | cons p stack ih =>
    refine (ensures_complete hc).bind fun o t ht => ?_
    exact (ih ht.2).mono fun _ _ hu => ⟨hu.1.trans ht.1, hu.2⟩

theorem ensures_shift (hc : c.delegate = .idle) (hs : s.context.IsFixed) : Ensures (shift r prec left) c s fun x t =>
      t.context.IsFixed ∧ x.2.node.is .assignmentPattern = false := by
  refine Spares.ensures_bind hs fun t _ hs => Spares.ensures_bind hs fun first s hs => ?_
  have hspares : Spares Context.IsFixed (isolate (exponentiation r)) := inferInstance
  refine ((hspares.out c s).and (ensures_isolate_judged hc)).bind fun n t ht => ?_
  exact .pure ⟨ht.1 hs, ht.2⟩

instance : Judges I (binaryExpression r) := by
  refine ⟨fun {c s} hc _ => ?_⟩
  rw [binaryExpression, step_bind]
  refine (Appraises.ensures (W := Node.Judged) hc).bind fun e t ht => ?_
  refine Spares.ensures_bind ht fun prec t ht => ?_
  split
  · exact .pure ht
  · rw [notTarget, step_bind, bind_iff]
    refine (ensures_shift hc (by exact rfl)).mono fun x t ht => ?_
    refine (ensures_loop (I := fun x t => t.context.IsFixed ∧ x.2.node.is .assignmentPattern = false)
      (Q := fun x t => t.context.IsFixed ∧ x.2.node.is .assignmentPattern = false) ht
      fun x s hs => ?_).bind fun x t ht => ?_
    · refine Spares.ensures_bind hs.1 fun prec s hs' => ?_
      split
      · exact .pure ⟨hs', hs.2⟩
      · refine (ensures_reduceTo hc hs.2).bind fun y t ht => ?_
        refine (ensures_shift hc (ht.1 ▸ hs')).bind fun z u hu => ?_
        exact .pure hu
    · refine (ensures_reduceAll hc ht.2).mono fun n u hu => ⟨hu.2, fun h => ?_⟩
      rw [hu.1, ht.1] at h
      cases h

/-! ### Arrows and assignments -/

instance [hp : Judges Context.Anyhow p] : Judges I (withStrictness f p) :=
  .within hp fun _ _ => rfl
instance [hp : Judges Context.Anyhow p] : Judges I (withYield y x p) :=
  .within hp fun _ _ => rfl

instance : Spares n.Judged notTarget := ⟨fun _ _ => .modify fun h => ⟨h.1, fun h => nomatch h⟩⟩

instance : Judges e.Judged (arrowFunction r first e) := by
  refine @Appraises.spareBind _ _ _ _ _ _ fun _ => @Appraises.spareBind _ _ _ _ _ _ fun f => ?_
  cases f <;> infer_instance

instance judges_run : ∀ depth : Nat, Recur.Judges (run depth)
  | 0 => ⟨.ofNever fun _ _ => throw_iff.2 trivial, .ofNever fun _ _ => throw_iff.2 trivial⟩
  | depth + 1 => by
    have : Recur.Judges (run depth) := judges_run depth
    exact ⟨inferInstanceAs (Judges _ (assignment (run depth))),
      inferInstanceAs (Judges _ (unaryExpression (run depth)))⟩

end Grammar

end EcmaSyntax
