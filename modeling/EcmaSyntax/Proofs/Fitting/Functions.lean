import EcmaSyntax.Proofs.Fitting.Frames
import EcmaSyntax.Proofs.Fitting.Members
import EcmaSyntax.Proofs.Fitting.Targets

/-!
# Functions and classes that fit

The parameters and the body of a function are not read in the surroundings of the function, but in those
that it gives them (`Surroundings.params`, `Surroundings.function`). `Recur.Fills` says of all rules at once
that what they read fits; the rules of functions and classes follow from it here, those of expressions and
statements in the modules after this one.
-/

namespace EcmaSyntax

open Parse

set_option synthInstance.maxSize 100000000000000

variable {level : Bool} {e : Surroundings} {P : Prop}

variable {α : Type} {p : Parse α}

/-- What each rule reads fits where it is read. -/
class Recur.Fills (r : Recur) : Prop where
  assignment (level : Bool) (e : Surroundings) : Leaves level e False r.assignment
  exponentiation (level : Bool) (e : Surroundings) : Leaves level e False r.exponentiation
  unary (level : Bool) (e : Surroundings) : Leaves level e False r.unary
  callChain (level : Bool) (e : Surroundings) : Leaves level e False r.callChain
  memberChain (level : Bool) (e : Surroundings) : Leaves level e False r.memberChain
  pattern (level : Bool) (e : Surroundings) (kind : Option Declares) : Seals level e False (r.pattern kind)
  element (level : Bool) (e : Surroundings) : Seals level e False r.element
  statement (e : Surroundings) : Seals true e False r.statement
  item (e : Surroundings) : Seals true e False r.item

attribute [instance] Recur.Fills.assignment Recur.Fills.exponentiation Recur.Fills.unary Recur.Fills.callChain
  Recur.Fills.memberChain Recur.Fills.pattern Recur.Fills.element Recur.Fills.statement Recur.Fills.item

/-! ### Parameters -/

/-- The parameters and the body of a function. -/
instance : Carries (Formals × Node) where
  all i x := Carries.fits i.surroundings.params False x.1 ∧ Fits i.surroundings.function False (.node x.2)
    ∧ x.2.is .blockStatement
  mono h hx := h.1 ▸ hx

section

variable {Q : Prop} {x : Found e Q (Formals × Node)} {id generator : Value}

instance [hid : Fitting e.params False id] [hgenerator : Fitting e.params False generator] :
    Fitting e P (Node.functionExpression id (.list x.get.1.params) (.node x.get.2) generator) :=
  ⟨.functionExpression hid.out (.list x.out.1) x.out.2.1 x.out.2.2 hgenerator.out⟩
instance [hid : Fitting e.params False id] [hgenerator : Fitting e.params False generator] :
    Fitting e P (Node.asyncFunctionExpression id (.list x.get.1.params) (.node x.get.2) generator) :=
  ⟨.asyncFunctionExpression hid.out (.list x.out.1) x.out.2.1 x.out.2.2 hgenerator.out⟩
instance : Fitting e P (Grammar.plainMethodNode x.get.1 x.get.2) :=
  inferInstanceAs (Fitting e P (Node.functionExpression _ _ _ _))

end

/-- A member of a class. What is pending in the value of a field is not looked at. -/
instance : Carries Grammar.Member where
  all i m := Carries.fits i.surroundings False m.key ∧ Carries.fits i.surroundings True m.value
  mono h hx := h.1 ▸ hx

section

variable {m : Grammar.Member}

instance [h : Fitting e False m] : Fitting e P m.key := ⟨Carries.mono False.elim h.out.1⟩
instance [h : Fitting e False m] : Fitting e True m.value := ⟨h.out.2⟩
instance [hkey : Fitting e False key] [hvalue : Fitting e True value] :
    Fitting e P (Grammar.Member.mk t key computed isStatic isAsync kind value) :=
  ⟨hkey.out, hvalue.out⟩
instance : Fitting e P (Grammar.Member.start t) :=
  inferInstanceAs (Fitting e P (Grammar.Member.mk t none false false false none none))

end

/-! ### Surroundings of functions -/

namespace Situated

variable {c : ParseSetting} {s : ParseState}

/-- An expression in a function is read in the surroundings of the function. Where classes have no blocks,
it does not matter what these are. -/
theorem function (h : Situated level e P c s) : Situated false e.function P c s := by
  refine ⟨h.idle, h.hasBlocks, h.lenient, fun hblocks => ?_, h.pending⟩
  have hblocks : e.hasBlocks := hblocks.resolve_left Bool.false_ne_true
  have hcovers := h.covers (.inr hblocks)
  refine ⟨fun _ => rfl, ?_, ?_, ?_, fun hnone => ?_⟩
  · simpa [Surroundings.function, hblocks] using hcovers.inLoop
  · simpa [Surroundings.function, hblocks] using hcovers.inSwitch
  · simpa [Surroundings.function, hblocks] using hcovers.labels
  · have hnone : e.hasBlocks = false := hnone
    simp [hnone] at hblocks

theorem params (h : Situated level e P c s) : Situated false e.params P c s := by
  unfold Surroundings.params
  split
  · next hblocks => exact { h with covers := fun _ => h.covers (.inr hblocks) }
  · exact h.function

/-- Where classes have blocks, it matters everywhere what can be jumped to. -/
theorem raise (h : Situated level e P c s) (hblocks : e.hasBlocks) : Situated true e P c s :=
  { h with covers := fun _ => h.covers (.inr hblocks) }

theorem lower (h : Situated true e P c s) : Situated level e P c s :=
  { h with covers := fun _ => h.covers (.inl rfl) }

/-- What is read in other surroundings leaves the run where it was. -/
theorem stays [hp : Restores ⟨true, true⟩ p] (h : Situated level e P c s) :
    Ensures p c s fun _ t => Situated level e False c t :=
  (hp.out c s).mono fun _ _ ht => h.move (scope_of_frame ht.frame) False.elim

/-- What is read where a function starts fits there. -/
theorem alongside [Carries α] [Restores ⟨true, true⟩ p]
    [hp : Seals false e.params False p] (h : Situated level e False c s) :
    Ensures p c s fun x t => Situated level e False c t ∧ Carries.fits e.params False x :=
  h.stays.and ((hp.out h.params).mono fun _ _ ht => ht.2)

end Situated

namespace Grammar

variable {r : Recur} [Recur.Restores r] [Recur.Fills r] {kind : Option Declares}
  {check : Formals → Parse Unit}

/-! ### Names, keys and binding patterns -/

instance : Seals level e P (propertyKey r) := by
  refine .seq fun start _ => .seq fun t _ => ?_
  split <;> infer_instance

/-! ### Functions -/

instance : Seals level e False (directives r) := by
  refine Seals.loop fun x => ?_
  obtain ⟨⟨body, octal⟩, hbody, -⟩ := x
  have : Fitting e False body := ⟨hbody⟩
  refine .seq fun t _ => ?_
  split
  · refine .seq fun statement hstatement => .seq fun _ _ => ?_
    have : Fitting e False statement := ⟨hstatement⟩
    split
    · cases octal <;> infer_instance
    · infer_instance
  · infer_instance

variable {c : ParseSetting} {s : ParseState}

omit [Recur.Restores r] in
theorem ensures_functionBody (h : Situated level e P c s) :
    Ensures (functionBody r) c s fun n _ => Fits e.function False (.node n) ∧ n.is .blockStatement := by
  -- The prologue is read in the context around the function, the rest in one of its own.
  refine h.function.forget.seq fun start s h _ => h.seq fun _ s h _ => h.seq fun prologue s h hprologue => ?_
  refine .seq (ensures_within.2 ?_)
  have hinside : Situated true e.function False c { s with context :=
      { s.context with labels := [], inLoop := false, inSwitch := false, inFunction := true } } := by
    refine ⟨h.idle, h.hasBlocks, h.lenient,
      fun _ => ⟨fun _ => rfl, ?_, ?_, List.nil_subset _, fun hblocks => ?_⟩, False.elim⟩
    · exact fun h => absurd h Bool.false_ne_true
    · exact fun h => absurd h Bool.false_ne_true
    · have hblocks : e.hasBlocks = false := hblocks
      simp [Surroundings.function, hblocks]
  have hitems : Seals true e.function False (do
      let body ← manyUntil (do return (← seesEnd) || (← sees "\x7d")) r.item
      expect "\x7d"
      return body) := inferInstance
  refine (hitems.out hinside).mono fun body t ht => ?_
  have hout : Situated false e.function False c { t with context :=
      { t.context with
        labels := s.context.labels
        inLoop := s.context.inLoop
        inSwitch := s.context.inSwitch
        inFunction := s.context.inFunction } } := h.move rfl False.elim
  have hprologue : Fitting e.function False prologue := ⟨hprologue⟩
  have hbody : Fitting e.function False body := ⟨ht.2⟩
  have hblock : Fitting e.function False (Node.blockStatement (.nodes (prologue ++ body))) := inferInstance
  refine ((hout.ensures_finish hblock.out).and (ensures_finish_idle h.idle)).mono fun n _ hn => ⟨hn.1.2.2, ?_⟩
  rw [hn.2]
  rfl

omit [Recur.Restores r] in
/-- The body of a function is read in the surroundings of its parameters. -/
theorem ensures_functionRest (h : Situated level e False c s) :
    Ensures (functionRest r name) c s fun x _ => Carries.fits e False x := by
  refine h.params.seq fun f s h hf => ensures_within.2 ?_
  refine (ensures_functionBody (h.entered (aside_withStrictness f))).bind fun body t hbody => ?_
  rw [Surroundings.function_params] at hbody
  refine .anyway fun isStrict _ => ?_
  have hparts : Carries.fits e False (f, body) := ⟨hf, hbody⟩
  split
  · exact .anyway fun _ _ => .anyway fun _ _ => .pure hparts
  · exact .pure hparts

instance : Seals level e False (functionRest r name) :=
  ⟨fun h => h.stays.and (ensures_functionRest h)⟩

omit [Recur.Restores r] in
theorem ensures_methodBody (h : Situated level e P c s) :
    Ensures (methodBody r f) c s fun n _ => Fits e.function False (.node n) ∧ n.is .blockStatement := by
  refine h.forget.seq fun _ s h _ => ensures_within.2 (.seq (ensures_isolate ?_))
  have hinside := (h.entered (aside_withStrictness f)).move
    (t := { s with context := freshCover { s.context with allowStrictDirective := f.simple } }) rfl False.elim
  refine (ensures_functionBody hinside).mono fun body t hbody _ => .anyway fun isStrict _ => ?_
  split
  · exact .anyway fun _ _ => .anyway fun _ _ => .pure hbody
  · exact .pure hbody

omit [Recur.Restores r] in
theorem ensures_method [∀ f, Restores ⟨true, true⟩ (check f)] (h : Situated level e False c s) :
    Ensures (method r check) c s fun x _ => Carries.fits e False x := by
  refine h.params.seq fun f s h hf => h.seq fun _ s h _ => ?_
  refine (ensures_methodBody h).bind fun body t hbody => .pure ⟨hf, ?_⟩
  rwa [Surroundings.function_params] at hbody

instance [∀ f, Restores ⟨true, true⟩ (check f)] : Seals level e False (method r check) :=
  ⟨fun h => h.stays.and (ensures_method h)⟩

instance [Carries α] [h : Seals level e P p] : Seals level e P (withYield y x p) :=
  .aside (aside_withYield y x) h

/-- A function fits whether it is asynchronous or not. -/
theorem ensures_finish_function {m n : Node} {isAsync : Bool} (h : Situated level e False c s)
    (hm : Fits e False (.node m)) (hn : Fits e False (.node n)) :
    Ensures (finish start (if isAsync then m else n)) c s fun n t =>
      Situated level e False c t ∧ Fits e False (.node n) := by
  have heither : Fits e False (.node (if isAsync then m else n)) := by
    split
    · exact hm
    · exact hn
  exact h.ensures_finish_fits heither

instance : Seals level e False (functionDeclaration r nameIsOptional) := by
  refine ⟨fun {c s} h => h.seq fun start s h _ => h.seq fun x s h _ => h.seq fun isBare s h _ => ?_⟩
  obtain ⟨isAsync, isGenerator⟩ := x
  have hrest (id : Option Node) (complaint : Option (Token × Cause)) {s : ParseState}
      (h : Situated level e False c s) (hid : Fits e.params False (.node? id)) :
      Ensures (withYield (!isGenerator) (some isAsync) (functionRest r complaint) >>= fun x =>
        finish start <|
          if isAsync then .asyncFunctionDeclaration id (.list x.1.params) x.2 isGenerator
          else .functionDeclaration id (.list x.1.params) x.2 isGenerator) c s fun n t =>
        Situated level e False c t ∧ Fits e False (.node n) := by
    refine h.seq fun x s h hx => ?_
    exact ensures_finish_function h (.asyncFunctionDeclaration hid (.list hx.1) hx.2.1 hx.2.2 (.scalar rfl))
      (.functionDeclaration hid (.list hx.1) hx.2.1 hx.2.2 (.scalar rfl))
  dsimp only
  split
  · exact hrest none none h (.scalar rfl)
  · refine h.seq fun t s h _ => h.alongside.bind fun id s hid => ?_
    exact hid.1.seq fun complaint s h _ => hrest (some id) complaint h hid.2

instance : Seals level e False (functionExpression r) := by
  refine ⟨fun {c s} h => h.seq fun start s h _ => h.seq fun x s h _ => ?_⟩
  obtain ⟨isAsync, isGenerator⟩ := x
  have hrest (id : Option Node) (complaint : Option (Token × Cause)) {s : ParseState}
      (h : Situated level e False c s) (hid : Fits e.params False (.node? id)) :
      Ensures (functionRest r complaint >>= fun x => pure (id, x.1, x.2)) c s fun x t =>
        Situated level e False c t ∧ Fits e.params False (.node? x.1) ∧ Carries.fits e False x.2 :=
    h.seq fun x s h hx => .pure ⟨h, hid, hx⟩
  have haside := aside_withYield (!isGenerator) (some isAsync)
  refine .seq (ensures_within.2 (Ensures.mono (P := fun x t => Situated level e False c t
    ∧ Fits e.params False (.node? x.1) ∧ Carries.fits e False x.2) ?_ fun x t hx => ?_))
  · refine (h.entered haside).seq fun isBare s h _ => ?_
    split
    · exact hrest none none h (.scalar rfl)
    · refine h.seq fun t s h _ => h.seq fun isStrict s h _ => ?_
      split
      · refine h.alongside.bind fun id s hid => ?_
        exact hid.1.seq fun complaint s h _ => hrest (some id) complaint h hid.2
      · refine h.alongside.bind fun id s hid => ?_
        exact hid.1.seq fun complaint s h _ => hrest (some id) complaint h hid.2
  · obtain ⟨h, hid, hparams, hbody⟩ := hx
    exact ensures_finish_function (h.left haside _)
      (.asyncFunctionExpression hid (.list hparams) hbody.1 hbody.2 (.scalar rfl))
      (.functionExpression hid (.list hparams) hbody.1 hbody.2 (.scalar rfl))

/-! ### Classes -/

instance [Fitting e False m] : Seals level e False (memberByToken r start m) := by
  refine .seq fun t _ => ?_
  split <;> infer_instance

/-- Statements stand in a class only where it may have blocks. -/
instance : Seals level e False (classElement r hasConstructor) := by
  refine .seq fun start _ => .seq fun t _ => .seq fun isGenerator _ => ?_
  dsimp only
  split
  · infer_instance
  · refine .seq fun computed _ => .seq fun key hkey => .seq fun t' _ => ?_
    have : Fitting e False key := ⟨hkey⟩
    split
    · refine ⟨fun {c s} h => Ensures.step_bind.2 ?_⟩
      split
      · next hblock =>
        have hblocks : e.hasBlocks := by
          rw [h.hasBlocks]
          exact (Bool.and_eq_true_iff.1 hblock).2
        refine (h.raise hblocks).seq fun body s h hbody => ?_
        have : Fitting e False body := ⟨hbody⟩
        have hrest : Seals level e False (finish start (.staticBlock body) >>= fun n =>
          pure (n, hasConstructor)) := inferInstance
        exact hrest.out h.lower
      · exact Seals.out h
    · infer_instance

instance : Seals level e False (classBody r) := by
  refine ⟨fun {c s} h => h.seq fun start s h _ => h.seq fun _ s h _ => ?_⟩
  refine (ensures_loop (I := fun (x : List Node × Bool) t => Situated level e False c t ∧ Carries.fits e False x.1
      ∧ x.1.countP Node.isConstructor ≤ x.2.toNat)
    (Q := fun v t => Situated level e False c t ∧ Fits e False (.node (.classBody v)))
    ⟨h, List.forall_mem_nil _, Nat.le_refl _⟩ fun x t ht => ?_).bind fun v t ht => ?_
  · obtain ⟨members, seen⟩ := x
    obtain ⟨h, hmembers, hcount⟩ := ht
    refine h.seq fun isEnd t h _ => ?_
    split
    · have : Fitting e False members := ⟨hmembers⟩
      have hnodes : Fitting e False (Value.nodes members) := inferInstance
      exact .pure ⟨h, .classBody hnodes.out (Nat.le_trans hcount (Bool.toNat_le _))⟩
    · refine h.seq fun isEmpty t h _ => ?_
      split
      · exact .pure ⟨h, hmembers, hcount⟩
      · refine ((Seals.out h).and (ensures_classElement_tallies h.idle)).bind fun y t hy => ?_
        obtain ⟨⟨h, hfits⟩, htallies⟩ := hy
        exact .pure ⟨h, List.forall_mem_append.2 ⟨hmembers, List.forall_mem_singleton.2 hfits.1⟩,
          htallies.push hcount⟩
  · exact ht.1.seq fun _ t h _ => h.ensures_finish_fits ht.2

theorem aside_strict : Aside (fun c => { c with strict := true })
    fun before c => { c with strict := before.strict } :=
  ⟨fun _ => rfl, fun _ => rfl, fun _ _ => rfl, fun _ _ => rfl⟩

instance [Seals level e False name] : Seals level e False (classParts r name) := by
  exact .aside aside_strict inferInstance

end Grammar

end EcmaSyntax
