import EcmaSyntax.Proofs.Derivation
import EcmaSyntax.Proofs.Laws
import EcmaSyntax.Proofs.Run

/-!
# What productions leave of the context

Productions change the context for their parts and put it back. `Restored` says of two states that the
context of the second is that of the first, apart from what every expression changes (`Context.frame`),
and `Restores` that a production always comes to such a state. Two things are not put back where they
are changed, and a `Leeway` says if they may still be off: a directive makes the code strict, up to the
end of the function it stands in, and a getter makes `yield` an operator.

Nothing puts the second one back, so it is off behind a getter. But then the getter is in the log: if
no getter was finished, then `yield` is what it was before.
-/

namespace EcmaSyntax

open Parse

set_option synthInstance.maxSize 100000000000000

/-- Does a node define a getter, of an object or of a class? -/
def Node.isGetter (n : Node) : Bool :=
  (n.is .property || n.is .methodDefinition) && (n.textOf "kind").is "get"

/-- What a production may leave changed. -/
structure Leeway where
  /-- Code may have become strict. -/
  strict : Bool
  /-- `yield` may have become an operator, for a getter that is not finished. -/
  getter : Bool
  deriving DecidableEq, Repr, Inhabited

/-- No leeway. -/
def Leeway.none : Leeway := ⟨false, false⟩

/-- The part of a context that productions put back. -/
def Context.frame (k : Leeway) (c : Context) : Context :=
  { c with
    allowYield := true
    isTarget := true
    isBinding := true
    strict := k.strict || c.strict
    coverError := Option.none }

/-- The events since an earlier state. -/
def ParseState.eventsSince (t s : ParseState) : List Event := t.events.toList.drop s.events.size

/-- Events are not lost when one looks back further. -/
theorem ParseState.mem_eventsSince {s t u : ParseState}
    (h : s.events.toList <+: t.events.toList) (he : e ∈ u.eventsSince t) : e ∈ u.eventsSince s := by
  have hsize : s.events.size ≤ t.events.size := by simpa using h.length_le
  exact List.drop_subset_drop_left _ hsize he

/-- The context of a state is that of an earlier one, within a leeway. -/
structure Restored (k : Leeway) (s t : ParseState) : Prop where
  frame : t.context.frame k = s.context.frame k
  log : s.events.toList <+: t.events.toList
  allowYield : t.context.allowYield = s.context.allowYield ∨ t.context.allowYield = false
    ∧ (k.getter ∨ ∃ e ∈ t.eventsSince s, e.given.isGetter)

namespace Restored

variable {k : Leeway} {s t u : ParseState}

/-- The context and the log are as they were. -/
theorem of_eq (hc : t.context = s.context) (he : t.events = s.events) : Restored k s t :=
  ⟨by rw [hc], he ▸ List.prefix_refl _, .inl (by rw [hc])⟩

theorem refl (k : Leeway) (s : ParseState) : Restored k s s := of_eq rfl rfl

theorem trans (h : Restored k s t) (h' : Restored k t u) : Restored k s u := by
  have hlater (e : Event) (he : e ∈ t.eventsSince s) : e ∈ u.eventsSince s := by
    obtain ⟨new, hnew⟩ := h'.log
    rw [ParseState.eventsSince, ← hnew, List.drop_append]
    exact List.mem_append_left _ he
  refine ⟨h'.frame.trans h.frame, h.log.trans h'.log, ?_⟩
  rcases h'.allowYield with heq | ⟨hfalse, hwhy⟩
  · rw [heq]
    refine h.allowYield.imp_right fun ⟨hfalse, hwhy⟩ => ⟨hfalse, hwhy.imp_right ?_⟩
    exact fun ⟨e, he, hgetter⟩ => ⟨e, hlater e he, hgetter⟩
  · refine .inr ⟨hfalse, hwhy.imp_right fun ⟨e, he, hgetter⟩ => ⟨e, ?_, hgetter⟩⟩
    exact ParseState.mem_eventsSince h.log he

/-- Once a getter is finished, no leeway is needed for it. -/
theorem settle (h : Restored ⟨k.strict, true⟩ s t)
    (hgetter : ∃ e ∈ t.eventsSince s, e.given.isGetter) : Restored k s t :=
  ⟨h.frame, h.log, h.allowYield.imp_right fun hy => ⟨hy.1, .inr hgetter⟩⟩

end Restored

/-- A production puts the context back, within a leeway, if it gives a result. -/
def Law.restores (k : Leeway) : Law := .relating (Restored k) (.refl k) fun _ _ _ => .trans

abbrev Restores (k : Leeway) {α : Type} (p : Parse α) : Prop := Obeys (.restores k) p

instance : (Law.restores k).Contextual := Law.contextual_relating fun _ _ => .of_eq

namespace Restores

variable {k : Leeway} {α : Type} {p : Parse α} {start : Mark}

theorem out [h : Restores k p] (c : ParseSetting) (s : ParseState) : Ensures p c s fun _ t => Restored k s t :=
  Obeys.out (L := .restores k) c s

instance (priority := 50) [u : Unfolds p q] [h : Restores k q] : Restores k p := u.eq ▸ h

theorem ofSetContext {f : Context → Context} (hframe : ∀ c, (f c).frame k = c.frame k)
    (hyield : ∀ c, (f c).allowYield = c.allowYield ∨ (f c).allowYield = false ∧ k.getter) :
    Restores k (setContext f) :=
  ⟨fun _ s => .modify ⟨hframe _, List.prefix_refl _, (hyield s.context).imp_right fun h => ⟨h.1, .inl h.2⟩⟩⟩

-- Whether what was read can be a pattern is for the next production to say.
instance {target binding : Context → Bool} {coverError : Context → Option Token} :
    Restores k (setContext fun c => { c with
      isTarget := target c, isBinding := binding c, coverError := coverError c }) :=
  ofSetContext (fun _ => rfl) fun _ => .inl rfl

instance : Restores ⟨true, g⟩ (setContext fun c => { c with strict := true }) :=
  ofSetContext (fun _ => rfl) fun _ => .inl rfl

instance : Restores ⟨b, true⟩ (setContext fun c => { c with allowYield := false }) :=
  ofSetContext (fun _ => rfl) fun _ => .inr ⟨rfl, rfl⟩

instance : Restores k (log isComment n span) := by
  refine ⟨fun c s => Ensures.step_iff.2 ?_⟩
  refine ⟨rfl, ?_, .inl rfl⟩
  rw [Array.toList_push]
  exact List.prefix_append _ _

/-! ### Contexts -/

/-- A production may change for its parts whatever it puts back. `l` is what the parts may leave
changed. -/
theorem within (hp : Restores l p) (hframe : ∀ b c, c.frame l = (enter b).frame l → (leave b c).frame k = b.frame k)
    (hyield : (∀ b c, (leave b c).allowYield = b.allowYield)
      ∨ l.getter = k.getter ∧ ∀ b, (enter b).allowYield = b.allowYield
        ∧ ∀ c, (leave b c).allowYield = c.allowYield) : Restores k (Parse.within enter leave p) := by
  refine ⟨fun c s => ?_⟩
  simp only [Parse.within, Ensures.bind_iff, Ensures.step_iff]
  refine (hp.out c _).mono fun _ t ht => ⟨hframe _ _ ht.frame, ht.log, ?_⟩
  rcases hyield with hback | ⟨hgetter, hkeeps⟩
  · exact .inl (hback _ _)
  · obtain ⟨henter, hleave⟩ := hkeeps s.context
    have hy := ht.allowYield
    rw [henter, hgetter, ← hleave t.context] at hy
    exact hy

/-! ### Steps -/

instance : Restores k notTarget :=
  inferInstanceAs (Restores k (setContext fun c => { c with isTarget := false, isBinding := false }))

/-! ### Expressions that may turn out to be patterns -/

instance [hp : Restores k p] : Restores k (isolate p) := by
  refine within (.seq fun a => .seq fun c => ?_) (fun _ _ h => h)
    (.inr ⟨rfl, fun _ => ⟨rfl, fun _ => rfl⟩⟩)
  split <;> infer_instance

instance [hp : Restores k p] : Restores k (inherit p) :=
  within hp (fun _ _ h => h) (.inr ⟨rfl, fun _ => ⟨rfl, fun _ => rfl⟩⟩)

end Restores

variable {c : ParseSetting} {s : ParseState} {start : Mark} {m : Member}

/-- Each rule puts the context back. -/
class Recur.Restores (r : Recur) : Prop where
  out (k : Leeway) (rule : Rule) : EcmaSyntax.Restores k (r rule)

section

variable {k : Leeway} {r : Recur} [h : Recur.Restores r]

instance : Restores k r.assignment := h.out k .assignment
instance : Restores k r.exponentiation := h.out k .exponentiation
instance : Restores k r.unary := h.out k .unary
instance : Restores k r.callChain := h.out k .callChain
instance : Restores k r.memberChain := h.out k .memberChain
instance : Restores k (r.pattern kind) := h.out k (.pattern kind)
instance : Restores k r.statement := h.out k .statement
instance : Restores k r.item := h.out k .item
instance : Restores k r.element := h.out k .element

end

namespace Grammar

variable {k : Leeway} {α : Type} {r : Recur} [Recur.Restores r]
  {g hasConstructor : Bool} {f : Formals} {p : Parse α}

/-! ### Names, keys and binding patterns -/

instance : Restores k (propertyKey r) := by
  refine .seq fun start => .seq fun t => ?_
  split <;> infer_instance

instance : Restores k (patternWithDefault r kind) := by
  have hdefault : Restores k (within (fun c => { c with allowYield := true })
      (fun before c => { c with allowYield := before.allowYield }) (isolate r.assignment)) :=
    .within inferInstance (fun _ _ h => h) (.inl fun _ _ => rfl)
  infer_instance

instance : Restores k (pattern r kind) := inferInstance

/-! ### Functions -/

-- A directive is not undone where it is read.
instance : Restores ⟨true, g⟩ (directives r) := by
  refine .seq fun c => .rounds (fun (body, octal) => ?_) _ _
  refine .seq fun t => ?_
  split
  · refine .seq fun statement => .seq fun _ => ?_
    split
    · cases octal <;> infer_instance
    · infer_instance
  · infer_instance

instance : Restores ⟨true, g⟩ (functionBody r) := by
  have hbody : Restores ⟨true, g⟩ (within
      (fun c => { c with labels := [], inLoop := false, inSwitch := false, inFunction := true })
      (fun before c =>
        { c with
          labels := before.labels
          inLoop := before.inLoop
          inSwitch := before.inSwitch
          inFunction := before.inFunction })
      do
        let body ← manyUntil (do return (← seesEnd) || (← sees "\x7d")) r.item
        expect "\x7d"
        return body) :=
    .within inferInstance (fun _ _ h => by simp_all [Context.frame]) (.inr ⟨rfl, fun _ => ⟨rfl, fun _ => rfl⟩⟩)
  infer_instance

instance : Restores k (formalParameters r name) := inferInstance

-- What was changed by a directive is put back with the function.
instance [hp : Restores ⟨true, k.getter⟩ p] : Restores k (withStrictness f p) :=
  .within hp (fun _ _ h => by simp_all [Context.frame]) (.inr ⟨rfl, fun _ => ⟨rfl, fun _ => rfl⟩⟩)

instance [hp : Restores ⟨k.strict, true⟩ p] : Restores k (withYield y x p) :=
  .within hp (fun _ _ h => by cases x <;> simp_all [Context.frame]) (.inl fun _ _ => rfl)

instance [∀ f, Restores k (check f)] : Restores k (method r check) :=
  inferInstance

/-! ### Classes -/

/-- Once it is finished, a getter is in the log. -/
theorem ensures_finish_getter (hn : n.isGetter) (h : Restored ⟨k.strict, true⟩ s t) :
    Ensures (finish start n) c t fun _ u => Restored k s u := by
  have hfinish : Restores ⟨k.strict, true⟩ (finish start n) := inferInstance
  have hlogged : Ensures (finish start n) c t fun _ u => ∃ e ∈ u.eventsSince t, e.given.isGetter := by
    simp only [Ensures.step_iff]
    refine ⟨.make c.delegate t.events.size false n ⟨start, t.lastMark⟩, ?_, hn⟩
    simp [ParseState.eventsSince]
  refine ((hfinish.out c t).and hlogged).mono fun _ u hfinished => ?_
  obtain ⟨hu, e, he, hgetter⟩ := hfinished
  exact (h.trans hu).settle ⟨e, ParseState.mem_eventsSince h.log he, hgetter⟩

omit [Recur.Restores r] in
theorem ensures_keyedMember_kind {kind : MemberKind}
    : Ensures (keyedMember r m kind value) c s fun m' _ => m'.kind = some kind := by
  simp only [keyedMember, Ensures.bind_iff, Ensures.step_iff]
  exact .always fun _ _ => .always fun _ _ => trivial

/-- If a member is a getter, then `yield` is left an operator. -/
theorem ensures_memberByToken : Ensures (memberByToken r start m) c s fun m' t => Restored k s t
      ∨ m'.kind = some .getter ∧ Restored ⟨k.strict, true⟩ s t := by
  have hplain {p : Parse Member} (hp : Restores k p) : Ensures p c s fun m' u => Restored k s u
      ∨ m'.kind = some .getter ∧ Restored ⟨k.strict, true⟩ s u :=
    (hp.out c s).mono fun _ _ hu => .inl hu
  unfold memberByToken
  rw [Ensures.step_bind]
  dsimp only
  split
  · split
    · exact (ensures_keyedMember_kind.and (Restores.out c s)).mono fun _ _ h => .inr h
    · exact hplain inferInstance
  all_goals exact hplain inferInstance

/-- A member stays what it is, unless it is a method, and the first one that is a constructor. -/
theorem ensures_checkMember : Ensures (checkMember m hasConstructor) c s fun x _ => x = (m, hasConstructor)
      ∨ m.kind = some .method ∧ hasConstructor = false ∧ x = ({ m with kind := some .constructor }, true) := by
  have hrefuse {cause : Cause} {f : PUnit → Parse (Member × Bool)} {Q : Member × Bool → ParseState → Prop} :
      Ensures (refuseAt m.token cause >>= f) c s Q := by
    simp only [refuseAt, fail, Ensures.bind_iff, Ensures.throw_iff]
    exact .always fun _ _ => trivial
  unfold checkMember
  dsimp only
  split
  · split
    · exact hrefuse
    · exact .pure (.inl rfl)
  · split
    · split
      · exact hrefuse
      · next hspecial =>
        split
        · exact hrefuse
        · next hnone => exact .pure (.inr ⟨by simp_all, by simpa using hnone, rfl⟩)
    · exact .pure (.inl rfl)

instance : Restores k (member r start hasConstructor m) := by
  refine ⟨fun c s => ?_⟩
  rw [member, Ensures.bind_iff]
  refine (ensures_memberByToken (k := k)).mono fun m' t ht => ?_
  rcases ht with ht | ⟨hkind, ht⟩
  · exact (Restores.out c t).mono fun _ u hu => ht.trans hu
  · -- What is left to do for a getter is to finish it.
    have hseen : Restores ⟨k.strict, true⟩ (sees "(") := inferInstance
    refine .seq ((hseen.out c t).mono fun _ u hu => ?_)
    simp only [hkind, Option.isNone_some, Bool.false_and, Bool.false_eq_true, if_false, pure_bind]
    have hchecked : Restores ⟨k.strict, true⟩ (checkMember m' hasConstructor) := inferInstance
    refine (ensures_checkMember.and (hchecked.out c u)).bind fun x v hv => ?_
    obtain ⟨rfl | ⟨hmethod, -⟩, hv⟩ := hv
    · rw [hkind]
      exact (ensures_finish_getter rfl ((ht.trans hu).trans hv)).bind fun _ _ hw => .pure hw
    · cases hkind.symm.trans hmethod

instance [Restores ⟨true, k.getter⟩ name] : Restores k (classParts r name) := by
  refine .within (l := ⟨true, k.getter⟩) inferInstance (fun _ _ h => ?_) (.inr ⟨rfl, fun _ => ⟨rfl, fun _ => rfl⟩⟩)
  simp_all [Context.frame]

/-! ### Markup -/

instance : Restores k leaveMarkup := inferInstanceAs (Restores k skip)

instance : Restores k (markToken lex) := by
  have hstart : Restores k (modify fun s => { s with startMark := s.scan.cursor.mark } : Parse Unit) :=
    .ofModify fun _ => ⟨rfl, rfl⟩
  unfold markToken
  infer_instance

instance : Restores k peekMarkup := by unfold peekMarkup; infer_instance

instance : Restores k (elementRest r e) := by
  refine .seq fun c => .rounds (fun (e, outer) => ?_) _ _
  cases outer <;> infer_instance

/-! ### Primary expressions -/

omit [Recur.Restores r] in
theorem ensures_keyedProperty_kind :
    Ensures (keyedProperty r kind isMethod value) c s fun p _ => p.kind = kind := by
  simp only [keyedProperty, Ensures.bind_iff, Ensures.step_iff]
  exact .always fun _ _ => .always fun _ _ => trivial

instance : Restores k (objectProperty r hasProto) := by
  refine .seq fun start => .seq fun h => .seq fun t => ?_
  dsimp only
  split
  · -- Here `yield` is left an operator.
    refine ⟨fun c s => ?_⟩
    have hvalue : Restores ⟨k.strict, true⟩ (keyedProperty r "get" false do
        setContext fun c => { c with allowYield := false }
        getter r) := inferInstance
    rw [Ensures.bind_iff]
    refine (ensures_keyedProperty_kind.and (hvalue.out c s)).mono fun p t ⟨hkind, ht⟩ => ?_
    rw [hkind]
    exact (ensures_finish_getter rfl ht).bind fun _ _ hu => .pure hu
  · cases h.key <;> infer_instance

instance : Restores k templateChunk := by
  refine .seq fun start => .seq fun t => ?_
  split <;> infer_instance

instance : Restores k regexLiteral := by
  refine .seq fun start => .seq fun _ => .seq fun _ =>
    .seq fun t => ?_
  split <;> infer_instance

instance : Restores k (primary r) := by
  refine .seq fun c => .seq fun isMarkup => ?_
  split
  · infer_instance
  · refine .seq fun start => .seq fun t => ?_
    split <;> infer_instance

/-! ### Accesses and calls -/

variable {e : Node}

/-- Where `in` is an operator, or is none, it is put back. -/
instance withIn [hp : Restores k p] : Restores k (within (fun c => { c with allowIn := b })
      (fun before c => { c with allowIn := before.allowIn }) p) :=
  .within hp (fun _ _ h => by simp_all [Context.frame]) (.inr ⟨rfl, fun _ => ⟨rfl, fun _ => rfl⟩⟩)

/-! ### Operators -/

instance : Restores k (arrowFunction r first e) := by
  refine .seq fun _ => .seq fun f => ?_
  cases f <;> infer_instance

instance : Restores k (yieldExpression r) := by
  have hargument : Restores k (within (fun c => { c with allowYield := false })
      (fun before c => { c with allowYield := before.allowYield })
      do
        let delegate ← accept "*"
        let argument ← if delegate || (← startsExpression) then some <$> r.assignment else pure none
        return (argument, delegate)) :=
    .within inferInstance (fun _ _ h => h) (.inl fun _ _ => rfl)
  infer_instance

/-! ### Statements -/

instance [hp : Restores k body] : Restores k (loopBody body) :=
  .within hp (fun _ _ h => by simp_all [Context.frame]) (.inr ⟨rfl, fun _ => ⟨rfl, fun _ => rfl⟩⟩)

instance : Restores k (variableLoopHead r isAwait) := by
  refine .seq fun start => .seq fun _ => .seq fun declarations => ?_
  split <;> infer_instance

instance : Restores k (lexicalLoopHead r isAwait) := by
  refine .seq fun start => .seq fun t => .seq fun isStrict =>
    .seq fun seen => ?_
  dsimp only
  split
  · infer_instance
  · refine .seq fun declarations => ?_
    split <;> infer_instance

instance : Restores k (forRest r start isAwait head) := by
  cases head <;> unfold forRest <;> infer_instance

instance : Restores k (switchStatement r) := by
  have hcases : Restores k (within (fun c => { c with inSwitch := true })
      (fun before c => { c with inSwitch := before.inSwitch }) (switchCases r)) :=
    .within inferInstance (fun _ _ h => by simp_all [Context.frame]) (.inr ⟨rfl, fun _ => ⟨rfl, fun _ => rfl⟩⟩)
  infer_instance

/-- A label is taken away again: it comes first among the labels of its statement. -/
instance withLabel {f : α → Parse β} [hp : Restores k p] [hf : ∀ x, Restores k (f x)] : Restores k (do
      setContext fun c => { c with labels := name :: c.labels }
      let x ← p
      setContext fun c => { c with labels := c.labels.erase name }
      f x) := by
  refine ⟨fun c s => ?_⟩
  simp only [Ensures.bind_iff, Ensures.step_iff]
  refine (hp.out c _).mono fun x t ht => ?_
  have herased : Restored k s { t with context :=
      { t.context with labels := t.context.labels.erase name } } := by
    refine ⟨?_, ht.log, ht.allowYield⟩
    have hframe := ht.frame
    simp_all [Context.frame]
  exact ((hf x).out c _).mono fun _ u hu => herased.trans hu

instance : Restores k (statement r) := by
  refine .seq fun t => ?_
  split <;> infer_instance

/-! ### Imports and exports -/

instance : Restores k (exportNames start) := by unfold exportNames; infer_instance

/-! ### All productions -/

/-- All productions put the context back, however deep they are nested. -/
instance run_restores : ∀ depth : Nat, Recur.Restores (run depth)
  | 0 => ⟨fun k _ => inferInstanceAs (Restores k (throw _))⟩
  | depth + 1 => by
    have : Recur.Restores (run depth) := run_restores depth
    refine ⟨fun k rule => ?_⟩
    cases rule <;> simp only [run] <;> infer_instance

/-- **A statement leaves the context as it found it**: all that decides what is allowed in the next
statement, apart from `yield`. -/
theorem context_of_item (depth : Nat) (c : ParseSetting) (s t : ParseState) (n : Node)
    (h : item (run depth) c s = .ok n t) :
    t.context.isModule = s.context.isModule ∧ t.context.allowAwait = s.context.allowAwait
      ∧ t.context.allowIn = s.context.allowIn
      ∧ t.context.allowStrictDirective = s.context.allowStrictDirective
      ∧ t.context.inFunction = s.context.inFunction
      ∧ t.context.inLoop = s.context.inLoop
      ∧ t.context.inSwitch = s.context.inSwitch
      ∧ t.context.strict = s.context.strict
      ∧ t.context.labels = s.context.labels := by
  have hitem : Restores .none (item (run depth)) := inferInstance
  have hframe := (hitem.out c s n t h).frame
  simpa [Context.frame, Leeway.none] using hframe

/-- A statement that changes the whole context for its parts. -/
theorem context_of_item_of_label :
    let source := Source.ofText "a: for (;;) \x7b async () => \x7b 'use strict' \x7d; switch (b) \x7b\x7d break a \x7d"
    let c : ParseSetting := ⟨⟨source, 2024, false⟩, false, false, .idle⟩
    ∃ s n t, begin c (.start source) = .ok () s ∧ item (run (depthOf source)) c s = .ok n t
      ∧ t.lookahead.lexeme = .eof
      ∧ t.context.isModule = s.context.isModule
      ∧ t.context.allowAwait = s.context.allowAwait
      ∧ t.context.allowIn = s.context.allowIn
      ∧ t.context.allowStrictDirective = s.context.allowStrictDirective
      ∧ t.context.inFunction = s.context.inFunction
      ∧ t.context.inLoop = s.context.inLoop
      ∧ t.context.inSwitch = s.context.inSwitch
      ∧ t.context.strict = s.context.strict
      ∧ t.context.labels = s.context.labels := by
  intro source c
  have hrun : Yields begin c (.start source) fun _ s =>
      Yields (item (run (depthOf source))) c s fun _ t => t.lookahead.lexeme = .eof := by
    decide +kernel
  obtain ⟨_, s, hs, hitem⟩ := exists_of_yields hrun
  obtain ⟨n, t, ht, hend⟩ := exists_of_yields hitem
  exact ⟨s, n, t, hs, ht, of_decide_eq_true hend, context_of_item _ c s t n ht⟩

/-- **A statement leaves `yield` as it found it, unless it has a getter**: then `yield` may be an
operator afterwards, but never becomes a name. -/
theorem allowYield_of_item (depth : Nat) (c : ParseSetting) (s t : ParseState) (n : Node)
    (h : item (run depth) c s = .ok n t) :
    t.context.allowYield = s.context.allowYield
      ∨ t.context.allowYield = false ∧ ∃ e ∈ t.eventsSince s, e.given.isGetter := by
  have hitem : Restores .none (item (run depth)) := inferInstance
  have hyield := (hitem.out c s n t h).allowYield
  exact hyield.imp_right fun ⟨hfalse, hwhy⟩ => ⟨hfalse, hwhy.resolve_left (by decide)⟩

/-- A generator method, a default and a setter, after which `yield` is a name again. -/
theorem allowYield_of_item_of_methods :
    let source := Source.ofText "({ *a(b = yield) { yield b }, set c(d) {} })"
    let c : ParseSetting := ⟨⟨source, 2024, false⟩, false, false, .idle⟩
    ∃ s n t, begin c (.start source) = .ok () s ∧ item (run (depthOf source)) c s = .ok n t
      ∧ (t.eventsSince s).all (!·.given.isGetter)
      ∧ (t.context.allowYield = s.context.allowYield
        ∨ t.context.allowYield = false ∧ ∃ e ∈ t.eventsSince s, e.given.isGetter) := by
  intro source c
  have hrun : Yields begin c (.start source) fun _ s => Yields (item (run (depthOf source))) c s
      fun _ t => (t.eventsSince s).all (!·.given.isGetter) := by
    decide +kernel
  obtain ⟨_, s, hs, hitem⟩ := exists_of_yields hrun
  obtain ⟨n, t, ht, hnone⟩ := exists_of_yields hitem
  exact ⟨s, n, t, hs, ht, hnone, allowYield_of_item _ c s t n ht⟩

/-- After a getter, `yield` is no name any more. -/
theorem allowYield_not_of_getter :
    let source := Source.ofText "({get a(){}})"
    let c : ParseSetting := ⟨⟨source, 2024, false⟩, false, false, .idle⟩
    ∃ s n t, begin c (.start source) = .ok () s ∧ item (run (depthOf source)) c s = .ok n t
      ∧ s.context.allowYield = true ∧ t.context.allowYield = false := by
  intro source c
  have hrun : Yields begin c (.start source) fun _ s => Yields (item (run (depthOf source))) c s
      fun _ t => s.context.allowYield && !t.context.allowYield := by
    decide +kernel
  obtain ⟨_, s, hs, hitem⟩ := exists_of_yields hrun
  obtain ⟨n, t, ht, hyield⟩ := exists_of_yields hitem
  simp only [Bool.and_eq_true, Bool.not_eq_true'] at hyield
  exact ⟨s, n, t, hs, ht, hyield⟩

end Grammar

end EcmaSyntax
