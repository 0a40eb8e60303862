import EcmaSyntax.Proofs.Laws
import EcmaSyntax.Proofs.Reading
import EcmaSyntax.Proofs.Soundness

namespace EcmaSyntax

open Parse Grammar

set_option synthInstance.maxSize 100000000000000

variable {n : Node} {c : ParseSetting} {s : ParseState} {start : Mark}

/-! ### Finished nodes -/

/-- A node that is finished stays where its parts were read. -/
theorem Fresh.finished {V : View} {a w w' : V.Moment} (hfresh : Fresh a w n)
    (hfits : V.fits a w' (Node.stamp { n with serial, span := some sp } sp))
    (hliteral : ∀ raw, V.spells a w raw → V.literal sp raw)
    (ha : V.later (V.enter a (Node.stamp { n with serial, span := some sp } sp)) a)
    (hb : V.later w (V.leave w' (Node.stamp { n with serial, span := some sp } sp))) :
    V.Holds a w' (.node { n with serial, span := some sp }) := by
  refine View.holds_node.2 ⟨fun _ hsp => ?_, ⟨hfresh.tidy.of_names rfl (fun _ => id) (.refl _),
    fun _ hnone => ?_, fun hlit => ?_⟩, fun f hf => ?_⟩
  · cases hsp
    exact hfits
  · cases hnone
  · obtain ⟨raw, hraw, hspells⟩ := hfresh.literal hlit
    exact ⟨sp, raw, rfl, hraw, hliteral raw hspells⟩
  · exact (hfresh.parts f hf).mono ha hb

/-! ### The view that sees nothing -/

/-- The view that tells no moments apart. -/
def View.unit : View where
  Moment := Unit
  later _ _ := True
  reached _ _ := True
  opens _ _ := True
  begins _ _ := True
  covers _ _ _ := True
  spells _ _ _ := True
  literal _ _ := True
  fits _ _ _ := True
  enter _ _ := ()
  leave _ _ := ()
  markup := True
  lenient := True
  later_refl _ := trivial
  later_trans _ _ := trivial
  reached_of_later _ _ := trivial
  reached_later _ _ := trivial
  reached_of_lenient _ := trivial
  reached_of_markup _ := trivial
  opens_startMark _ _ := trivial
  fits_mono _ _ _ := trivial
  enter_mono _ _ := trivial
  leave_mono _ _ := trivial
  later_enter _ := trivial
  leave_later _ := trivial

/-! ### The log of a run -/

/-- Nobody changes nodes, and all that was logged may be. -/
structure Formed (c : ParseSetting) (s : ParseState) : Prop where
  idle : c.delegate = .idle
  loggable : ∀ e ∈ s.events, e.taken.Loggable

theorem Formed.of_events_eq (h : Formed c s) (he : s'.events = s.events) : Formed c s' :=
  ⟨h.idle, he ▸ h.loggable⟩

/-- Where a run ends, whether it fails or not. -/
def lastState {ε σ α : Type} : EStateM.Result ε σ α → σ
  | .ok _ s | .error _ s => s

/-- A node that is logged leaves all as it should be. -/
theorem Formed.ensures_finish
    (h : Formed c s) (hn : n.Loggable) : Ensures (Parse.finish start n) c s fun _ t => Formed c t := by
  simp only [Ensures.step_iff, h.idle]
  refine ⟨h.idle, fun e he => ?_⟩
  rcases Array.mem_push.1 he with he | rfl
  · exact h.loggable e he
  · exact ⟨hn.form, hn.comment⟩

/-- Events were added to a log, of nodes that may be logged and are not made for elements of markup. -/
inductive Grown (es : Array Event) : Array Event → Prop
  | refl : Grown es es
  | push {es' : Array Event} {isComment : Bool} {n : Node} {span : Span} : Grown es es' → n.Loggable →
    n.isElemental = false → Grown es (es'.push (.make .idle es'.size isComment n span))

namespace Grown

variable {es es' es'' : Array Event}

theorem of_eq (h : es' = es) : Grown es es' := h ▸ .refl

theorem trans (h : Grown es es') (h' : Grown es' es'') : Grown es es'' := by
  induction h' with
  | refl => exact h
  | push _ hn hcommon ih => exact .push ih hn hcommon

theorem loggable (h : Grown es es') (hes : ∀ e ∈ es, e.taken.Loggable) : ∀ e ∈ es', e.taken.Loggable := by
  induction h with
  | refl => exact hes
  | push _ hn _ ih =>
    intro e he
    rcases Array.mem_push.1 he with he | rfl
    · exact ih e he
    · exact ⟨hn.form, hn.comment⟩

end Grown

/-- A run that finishes nothing but nodes, even if it fails, and none for elements of markup. -/
def Law.orderly : Law where
  Holds p := ∀ (c : ParseSetting) s, c.delegate = .idle → Grown s.events (lastState (p c s)).events
  pure _ _ _ _ := .refl
  bind {_ _ p _} hp hf c s h := by
    have hp' := hp c s h
    rw [bind_apply]
    cases hrun : p c s with
    | ok x t =>
      rw [hrun] at hp'
      exact hp'.trans (hf x c t h)
    | error e t =>
      rw [hrun] at hp'
      exact hp'

abbrev Orderly {γ : Type} (p : Parse γ) : Prop := Obeys .orderly p

instance : Law.orderly.Contextual where
  throw _ _ _ _ := .refl
  get _ _ _ := .refl
  read _ _ _ := .refl
  scan _ _ _ _ := .of_eq (by unfold scan; split <;> rfl)
  modify hg _ s _ := .of_eq (hg s).2

namespace Orderly

variable {γ : Type} {p : Parse γ}

theorem grown [h : Orderly p] (c : ParseSetting) (s : ParseState) (hc : c.delegate = .idle) :
    Grown s.events (lastState (p c s)).events :=
  Obeys.out (L := .orderly) (p := p) c s hc

theorem out (hp : Orderly p) (c : ParseSetting) (s : ParseState) (h : Formed c s) : Formed c (lastState (p c s)) :=
  ⟨h.idle, (hp.grown c s h.idle).loggable h.loggable⟩

theorem ensures_grown (hp : Orderly p)
    (h : c.delegate = .idle) : Ensures p c s fun _ s' => Grown s.events s'.events := by
  intro x s' hx
  have h' := hp.grown c s h
  rwa [hx] at h'

theorem ensures (hp : Orderly p) (h : Formed c s) : Ensures p c s fun _ s' => Formed c s' :=
  (hp.ensures_grown h.idle).mono fun _ _ h' => ⟨h.idle, h'.loggable h.loggable⟩

theorem ofLog (hn : n.Loggable) (hcommon : n.isElemental = false) : Orderly (log isComment n span) := by
  refine ⟨fun c s h => ?_⟩
  have hlast : (lastState (log isComment n span c s)).events =
      s.events.push (.make .idle s.events.size isComment n span) := h ▸ rfl
  rw [hlast]
  exact .push .refl hn hcommon

end Orderly

theorem Quiet.orderly (h : Quiet true p) : Orderly p := by
  induction h with
  | bind _ _ ihp ihf => exact .seq ihf
  | setContext f => exact ⟨fun _ _ _ => .refl⟩
  | settings _ _ ih => exact .seq ih
  | since year _ => unfold Parse.since; infer_instance
  | unrecord | enterModule => exact .ofModify fun _ => ⟨rfl, rfl⟩
  | peekBeyond | peekMarkup => exact inferInstanceAs (Orderly (scan _))
  | _ => infer_instance

/-! #### Steps -/

namespace Orderly

instance (priority := low) [h : Quiet true p] : Orderly p := h.orderly

instance (priority := 50) [u : Expands p q] [h : Orderly q] : Orderly p := u.eq ▸ h

theorem ofFinish (hn : n.Loggable) (hcommon : n.isElemental = false) : Orderly (Parse.finish start n) :=
  .seq fun _ => ofLog hn hcommon

instance [hn : Made n ks parts] : Orderly (Parse.finish start n) :=
  ofFinish (Derives.loggable_of_made hn.toComposed) hn.common

instance : Orderly (Parse.finish start (.literal value raw)) :=
  ofFinish (Derives.loggable_ofKind (by decide) (by decide)) rfl

instance {value raw pattern flags : Value} : Orderly (Parse.finish start (.regexLiteral value raw pattern flags)) :=
  ofFinish (Derives.loggable_ofKind (by decide) (by decide)) rfl

instance {comment : Comment} {source : Source} : Orderly (log true (comment.node source) comment.span) :=
  ofLog ⟨by unfold Comment.node; split <;> simp [Node.make], fun _ => ⟨_, rfl⟩⟩
    (by unfold Comment.node; split <;> rfl)

instance : Orderly Grammar.regexLiteral := by
  refine .seq fun _ => .seq fun _ => .seq fun _ => .seq fun t => ?_
  split <;> infer_instance

instance : Orderly (Grammar.markToken lex) := by
  have hstart : Orderly (modify fun s => { s with startMark := s.scan.cursor.mark } : Parse Unit) :=
    .ofModify fun _ => ⟨rfl, rfl⟩
  unfold Grammar.markToken
  infer_instance

end Orderly

/-! ### The view that sees nothing -/

/-- All that this view asks for is that nodes are nodes. -/
def StepSemantics.unit : StepSemantics View.unit where
  At c s _ := Formed c s
  kept h hk := h.of_events_eq hk.events
  jsx _ _ := trivial
  tolerant _ _ := trivial
  here _ := trivial
  peek _ := trivial
  next h := (Orderly.ensures inferInstance h).mono fun _ _ h' => ⟨(), trivial, trivial, trivial, h'⟩
  spells _ _ := trivial
  close h _ := ⟨(), trivial, h.of_events_eq rfl⟩
  finish {c s _ _ start n} h _ _ _ hfresh := by
    refine ((h.ensures_finish hfresh.loggable).and (ensures_finish_idle h.idle)).mono ?_
    rintro n' s' ⟨h', rfl⟩
    exact ⟨(), trivial, hfresh.finished trivial (fun _ _ => trivial) trivial trivial, h'⟩
  regex h _ _ := (Orderly.ensures inferInstance h).mono fun _ _ h' => ⟨(), trivial, trivial, trivial, h'⟩
  resumeTemplate h := Orderly.ensures inferInstance h
  markupHere _ h := (Orderly.ensures inferInstance h).mono fun _ _ h' => ⟨(), trivial, trivial, h'⟩
  cursorMark _ _ := trivial
  enterMarkup _ h := Orderly.ensures inferInstance h
  nextMarkup _ h := (Orderly.ensures inferInstance h).mono fun _ _ h' _ => ⟨(), trivial, h'⟩
  nextMarkupText _ h := (Orderly.ensures inferInstance h).mono fun _ _ h' => ⟨(), trivial, h'⟩

/-! ### Views of the log -/

/-- What is asked of a run by a view to which it does not matter where tokens are: only what is logged
counts. -/
structure StepSemantics.Loose {V : View} (S : StepSemantics V) : Prop where
  markup : V.markup
  opens (w : V.Moment) (m : Mark) : V.opens w m
  spells (w w' : V.Moment) (raw : Text) : V.spells w w' raw
  advance {γ : Type} {p : Parse γ} {c : ParseSetting} {s : ParseState} {w : V.Moment} : Orderly p →
    S.At c s w → Ensures p c s fun _ s' => ∃ w', V.later w w' ∧ S.At c s' w'

namespace Fulfils

variable {V : View} {S : StepSemantics V} (hS : S.Loose) {a w : V.Moment}

include hS

/-- A finished node of such a view. -/
theorem finishLoose (hl : V.later a w) (hfresh : Fresh a w n) : Fulfils S.At true a w (Parse.finish start n) :=
  .finish S (hS.opens a start) hl (V.reached_of_markup hS.markup) hfresh

/-- A step whose result is of no interest to such a view. -/
theorem stepLoose [Carrier V α] {f : γ → Parse α}
    (hp : Orderly p) (hf : ∀ (t : Since w) (x : γ), Fulfils S.At must a t.now (f x)) :
    Fulfils S.At must a w (p >>= f) :=
  .step (fun _ _ h => (hS.advance hp h).mono fun _ _ ⟨w', hl, h'⟩ =>
    ⟨w', hl, trivial, h'⟩) fun t x _ => hf t x

theorem attributeStringLoose : Fulfils S.At true w w Grammar.attributeString := by
  refine .stepLoose hS inferInstance fun u start => .stepLoose hS inferInstance fun v t => ?_
  split
  · refine .rawOf S fun raw => .finishLoose hS (V.later_trans u.later v.later) ?_
    exact Derives.fresh_literal trivial (hS.spells _ _ _)
  · exact fun _ _ _ => ensures_unexpected

theorem attributeValueLoose (hexpression : ∀ w : V.Moment, Fulfils S.At true w w (attributeExpression r))
    (helement : ∀ w : V.Moment, Fulfils S.At true w w r.element) :
    Fulfils S.At true w w (attributeValue r) := by
  refine .quiet S inferInstance fun isExpression => ?_
  split
  · exact hexpression w
  refine .quiet S inferInstance fun isElement => ?_
  split
  · exact helement w
  · exact .attributeStringLoose hS

/-! #### Elements of markup -/

omit hS

include hS

variable {r : Recur} (hname : ∀ w : V.Moment, Fulfils S.At true w w elementName)
  (hattributes : ∀ w : V.Moment, Fulfils S.At false w w (attributes r))
  (hchildren : ∀ w : V.Moment, Fulfils S.At false w w (markupChildren r))

include hname hattributes

theorem openingRestLoose (hl : V.later a w) : Fulfils S.At true a w (openingRest r start) := by
  have : Later a w := ⟨hl⟩
  refine .bind (hname w) fun u name _ => .bind (hattributes u.now) fun v attributes _ =>
    .quiet S inferInstance fun selfClosing => ?_
  have hfinish (t : Since v.now) : Fulfils S.At true a t.now
      (Parse.finish start (.jsxOpeningElement name.get selfClosing attributes.get)) :=
    have : Later a t.now := inferInstance
    .finishLoose hS this.out (Derives.fresh_of_made inferInstance inferInstance)
  split
  · exact .stepLoose hS inferInstance fun x _ => .stepLoose hS inferInstance fun y _ =>
      hfinish ⟨y.now, V.later_trans x.later y.later⟩
  · exact .stepLoose hS inferInstance fun x _ => hfinish x

theorem boundaryElementLoose : Fulfils S.At true w w (boundaryElement r) := by
  refine .stepLoose hS inferInstance fun t start => .stepLoose hS inferInstance fun u _ =>
    .quiet S inferInstance fun isClosing => ?_
  have hu : Later w u.now := ⟨V.later_trans t.later u.later⟩
  split
  · refine .stepLoose hS inferInstance fun x _ => .bind (hname x.now) fun y name _ =>
      .stepLoose hS inferInstance fun z _ => ?_
    have hz : Later w z.now := inferInstance
    exact .finishLoose hS hz.out (Derives.fresh_of_made inferInstance inferInstance)
  · exact .openingRestLoose hS hname hattributes hu.out

include hchildren

theorem elementRestLoose (hl : V.later a w)
    (he : Carrier.sound V a w e) : Fulfils S.At false a w (elementRest r e) := by
  have hstart : Carrier.sound V a w (e, ([] : List OpenElement)) := ⟨he, List.forall_mem_nil _⟩
  refine .loop hstart fun t x => ?_
  obtain ⟨⟨e, outer⟩, he, houter⟩ := x
  have ht : Later a t.now := ⟨V.later_trans hl t.later⟩
  have he : Sound a t.now e := ⟨he⟩
  have houter : Sound a t.now outer := ⟨houter⟩
  refine .quiet S inferInstance fun atEnd => ?_
  split
  · exact .pure Bool.noConfusion he.out
  refine .bind (hchildren t.now) fun u children _ => .stepLoose hS inferInstance fun v start =>
    .bind (.boundaryElementLoose hS hname hattributes) fun x tag _ => ?_
  have hx : Later a x.now := inferInstance
  -- An element is finished, and is a child of another one.
  have hchild (start : Mark) (parent : OpenElement) (outer : List OpenElement) (opening : Node)
      (children : Value) (closing : Value) (hparent : Sound a x.now parent) (houter : Sound a x.now outer)
      (hparts : Sound a x.now [Value.node opening, children, closing]) :
      Fulfils S.At false a x.now (Parse.finish start (.jsxElement opening children closing) >>= fun child =>
        Pure.pure (Round.again (parent.add [child], outer) : Round _ OpenElement)) := by
    refine .bind (.finishLoose hS hx.out (Derives.fresh_of_made inferInstance hparts)) fun y child _ => ?_
    have hadd : Sound a y.now (Round.again (parent.add [child.get], outer) : Round _ OpenElement) :=
      inferInstance
    exact .pure Bool.noConfusion hadd.out
  have hagain (e : OpenElement) (outer : List OpenElement) (he : Sound a x.now e) (houter : Sound a x.now outer) :
      Fulfils S.At false a x.now (Pure.pure (Round.again (e, outer) : Round _ OpenElement)) :=
    .pure Bool.noConfusion ⟨he.out, houter.out⟩
  split
  · split
    · exact hchild start _ outer _ _ _ inferInstance inferInstance inferInstance
    · exact hagain _ _ inferInstance inferInstance
  split
  · -- Names that do not match are tolerated, or not.
    have hclosed {p : Parse (Round (OpenElement × List OpenElement) OpenElement)} {q : Prop} [Decidable q]
        {cause : Cause} (hp : Fulfils S.At false a x.now p) :
        Fulfils S.At false a x.now (if q then p else tolerate cause >>= fun _ => p) := by
      split
      · exact hp
      · exact .quiet S inferInstance fun _ => hp
    cases outer with
    | nil =>
      have hdone : Sound a x.now (OpenElement.mk (e.add children.get).start (e.add children.get).opening
        (e.add children.get).children (some tag.get)) := inferInstance
      exact hclosed (.pure Bool.noConfusion hdone.out)
    | cons parent outer =>
      have hparent : Sound a t.now parent := ⟨houter.out parent List.mem_cons_self⟩
      have houter : Sound a t.now outer := ⟨fun y hy => houter.out y (List.mem_cons_of_mem _ hy)⟩
      exact hclosed (hchild _ parent outer _ _ _ inferInstance inferInstance inferInstance)
  · exact hagain _ _ inferInstance inferInstance

theorem elementLoose : Fulfils S.At true w w (element r) := by
  unfold element openingElement
  simp only [bind_assoc]
  refine .stepLoose hS inferInstance fun t start => .stepLoose hS inferInstance fun u _ =>
    .stepLoose hS inferInstance fun v _ => ?_
  have hv : Later w v.now := ⟨V.later_trans t.later (V.later_trans u.later v.later)⟩
  refine .bind (.openingRestLoose hS hname hattributes hv.out) fun x opening _ => ?_
  have hx : Later w x.now := inferInstance
  split
  · exact .finishLoose hS hx.out (Derives.fresh_of_made inferInstance inferInstance)
  · have hstart : Sound w x.now (OpenElement.mk start opening.get [] none) := inferInstance
    refine .bind (.elementRestLoose hS hname hattributes hchildren hx.out hstart.out) fun y e _ => ?_
    have hy : Later w y.now := inferInstance
    exact .finishLoose hS hy.out (Derives.fresh_of_made inferInstance inferInstance)

end Fulfils

/-- Such a view understands all productions. -/
def Semantics.ofLoose {V : View} (S : StepSemantics V) (hS : S.Loose) : Semantics V where
  toStepSemantics := S
  emptyExpression {w} _ := by
    unfold Grammar.emptyExpression
    refine .stepLoose hS inferInstance fun u start => .stepLoose hS inferInstance fun v _ =>
      .stepLoose hS inferInstance fun x _ => ?_
    exact .finishLoose hS (V.later_trans u.later (V.later_trans v.later x.later))
      (Derives.fresh_of_made inferInstance inferInstance)
  element _ hname hattributes hchildren := .elementLoose hS hname hattributes hchildren
  namedAttribute {w r} _ hname hexpression helement := by
    have hfinish (start : Mark) {u : V.Moment} (hl : V.later w u) (name : Node) (value : Option Node)
        (hn : Sound w u name) (hv : Sound w u value) : Fulfils S.At true w u
          (Parse.finish start (.jsxAttribute (.node name) (.node? value))) :=
      .finishLoose hS hl (Derives.fresh_of_made inferInstance inferInstance)
    unfold Grammar.namedAttribute
    refine .stepLoose hS inferInstance fun u start => .bind (hname u.now) fun v name _ =>
      .quiet S inferInstance fun hasValue => ?_
    have hv : Later w v.now := ⟨V.later_trans u.later v.later⟩
    have hu : Later w u.now := ⟨u.later⟩
    dsimp only
    split
    · refine .stepLoose hS inferInstance fun t _ => ?_
      simp only [map_eq_pure_bind, bind_assoc, pure_bind]
      refine .bind (.attributeValueLoose hS hexpression helement) fun x value _ => ?_
      have hx : Later v.now x.now := ⟨V.later_trans t.later x.later⟩
      have ht : Later w t.now := ⟨V.later_trans hv.out t.later⟩
      exact hfinish start (V.later_trans ht.out x.later) name.get (some value.get) inferInstance inferInstance
    · rw [pure_bind]
      exact hfinish start hv.out name.get none inferInstance inferInstance

theorem StepSemantics.loose_unit : StepSemantics.unit.Loose where
  markup := trivial
  opens _ _ := trivial
  spells _ _ _ := trivial
  advance hp h := (hp.ensures h).mono fun _ _ h' => ⟨(), trivial, h'⟩

def Semantics.unit : Semantics View.unit := .ofLoose .unit StepSemantics.loose_unit

/-! ### Properties of whole runs -/

/-- The steps that productions are made of. -/
inductive Primitive : {γ : Type} → Parse γ → Prop
  | quiet {γ : Type} {p : Parse γ} : Quiet true p → Primitive p
  | here : Primitive Parse.here
  | peek : Primitive Parse.peek
  | next : Primitive Parse.next
  | rawOf (t : Token) : Primitive (Parse.rawOf t)
  | semicolon : Primitive Parse.semicolon
  | expectComma : Primitive Parse.expectComma
  | closeHead : Primitive Grammar.closeHead
  | finish (start : Mark) {n : Node} : n.Loggable → n.isElemental = false → Primitive (Parse.finish start n)
  | regexLiteral : Primitive Grammar.regexLiteral
  | resumeTemplate : Primitive Grammar.resumeTemplate
  | markupHere : Primitive Grammar.markupHere
  | cursorMark : Primitive Parse.cursorMark
  | enterMarkup : Primitive Grammar.enterMarkup
  | expectMarkup (mark : String) : Primitive (Grammar.expectMarkup mark)
  | nextMarkupText : Primitive Grammar.nextMarkupText
  | markupIdentifier : Primitive Grammar.markupIdentifier
  | emptyExpression : Primitive Grammar.emptyExpression
  | attributeString : Primitive Grammar.attributeString
  | begin : Primitive Parse.begin

theorem Primitive.orderly (h : Primitive p) : Orderly p := by
  cases h with
  | quiet h => exact h.orderly
  | finish start hn hcommon => exact .ofFinish hn hcommon
  | _ => infer_instance

/-- The property of a run to finish nothing but nodes, even if it fails, and the like: it holds of a
run if it holds of all steps of the run. -/
structure StepProperty where
  Holds : {γ : Type} → Parse γ → ParseSetting → ParseState → Prop
  primitive {γ : Type} {p : Parse γ} {c : ParseSetting} {s : ParseState} : Primitive p → Formed c s → Holds p c s
  bind {γ δ : Type} {p : Parse γ} {f : γ → Parse δ} {c : ParseSetting} {s : ParseState} : Holds p c s →
    (∀ x t, (∃ tolerant, p (c.withTolerance tolerant) s = .ok x t) → Holds (f x) c t) →
    Holds (p >>= f) c s
  read {γ : Type} {f : ParseSetting → Parse γ} {c : ParseSetting} {s : ParseState} :
    (∀ tolerant, f (c.withTolerance tolerant) = f c) → Holds (f c) c s → Holds (read >>= f) c s

namespace StepProperty

variable (H : StepProperty)

/-- The property holds of all runs from a state in which all nodes are nodes. -/
def Along {γ : Type} (p : Parse γ) : Prop := ∀ c s, Formed c s → H.Holds p c s

/-- So it does, and all nodes are nodes afterwards. -/
structure Walks {γ : Type} (p : Parse γ) : Prop where
  along : H.Along p
  formed (c : ParseSetting) (s : ParseState) : Formed c s → Ensures p c s fun _ t => Formed c t

variable {H} {γ δ : Type} {p : Parse γ} {f : γ → Parse δ}

theorem Along.bind {Q : γ → Prop} (hp : H.Along p)
    (hform : ∀ c s, Formed c s → Ensures p c s fun x t => Q x ∧ Formed c t)
    (hf : ∀ x, Q x → H.Along (f x)) : H.Along (p >>= f) := by
  intro c s h
  refine H.bind (hp c s h) fun x t ⟨tolerant, hx⟩ => ?_
  obtain ⟨hQ, ht⟩ := hform (c.withTolerance tolerant) s ⟨h.idle, h.loggable⟩ x t hx
  exact hf x hQ c t ⟨ht.idle, ht.loggable⟩

/-- What follows a step. -/
theorem Along.step (hp : Primitive p) (hf : ∀ x, H.Along (f x)) : H.Along (p >>= f) :=
  .bind (fun _ _ => H.primitive hp)
    (fun _ _ h => (hp.orderly.ensures h).mono fun _ _ ht => ⟨trivial, ht⟩) fun x _ => hf x

theorem Along.of (hp : Primitive p) : H.Along p := fun _ _ => H.primitive hp

namespace Walks

theorem bind (hp : H.Walks p) (hf : ∀ x, H.Walks (f x)) : H.Walks (p >>= f) where
  along := hp.along.bind (fun c s h => (hp.formed c s h).mono fun _ _ ht => ⟨trivial, ht⟩) fun x _ => (hf x).along
  formed c s h := (hp.formed c s h).bind fun x t ht => (hf x).formed c t ht

theorem of (hp : Primitive p) : H.Walks p where
  along := .of hp
  formed _ _ h := hp.orderly.ensures h

theorem quiet [hp : Quiet true p] : H.Walks p := .of (.quiet hp)

theorem choice [Decidable q] {m n : Parse γ} (hm : H.Walks m) (hn : H.Walks n) : H.Walks (if q then m else n) := by
  split
  · exact hm
  · exact hn

theorem rounds (hbody : ∀ x, H.Walks (body x)) : H.Walks (EcmaSyntax.rounds body bound x) := by
  induction bound generalizing x with
  | zero => exact .of (.quiet (.throw _))
  | succ bound ih =>
    refine (hbody x).bind fun y => ?_
    cases y with
    | again z => exact ih
    | done z => exact .quiet

theorem loop {body : σ → Parse (Round σ δ)} {x : σ} (hbody : ∀ x, H.Walks (body x)) :
    H.Walks (Parse.loop body x) where
  along c s h := H.read (fun _ => rfl) ((rounds hbody).along c s h)
  formed c s h := (rounds hbody).formed c s h

/-! #### Elements of markup -/

section

variable (hfinish : ∀ (start : Mark) (n : Node), n.Loggable → H.Along (Parse.finish start n))

include hfinish

theorem finish [hn : Composed n ks parts] : H.Walks (Parse.finish start n) where
  along := hfinish start n (Derives.loggable_of_made hn)
  formed _ _ h := h.ensures_finish (Derives.loggable_of_made hn)

variable {r : Recur} (hname : H.Walks elementName) (hattributes : H.Walks (attributes r))

include hname hattributes

theorem openingRest : H.Walks (Grammar.openingRest r start) := by
  refine hname.bind fun name => hattributes.bind fun attributes => .bind .quiet fun selfClosing => ?_
  split
  · exact .bind (.of (.expectMarkup _)) fun _ => .bind (.of (.expectMarkup _)) fun _ => .finish hfinish
  · exact .bind (.of (.expectMarkup _)) fun _ => .finish hfinish

theorem boundaryElement : H.Walks (Grammar.boundaryElement r) := by
  refine .bind (.of .markupHere) fun start => .bind (.of (.expectMarkup _)) fun _ => .bind .quiet fun isClosing => ?_
  split
  · exact .bind (.of (.expectMarkup _)) fun _ => hname.bind fun name => .bind (.of (.expectMarkup _)) fun _ =>
      .finish hfinish
  · exact .openingRest hfinish hname hattributes

variable (hchildren : H.Walks (markupChildren r))

include hchildren

theorem elementRest : H.Walks (Grammar.elementRest r e) := by
  refine .loop fun x => .bind .quiet fun atEnd => .choice .quiet ?_
  obtain ⟨e, outer⟩ := x
  refine hchildren.bind fun children => .bind (.of .cursorMark) fun start =>
    .bind (.boundaryElement hfinish hname hattributes) fun tag => ?_
  refine .choice (.choice (.bind (.finish hfinish) fun _ => .quiet) .quiet) (.choice ?_ .quiet)
  cases outer with
  | nil => exact .choice .quiet (.bind .quiet fun _ => .quiet)
  | cons parent outer =>
    exact .choice (.bind (.finish hfinish) fun _ => .quiet)
      (.bind .quiet fun _ => .bind (.finish hfinish) fun _ => .quiet)

/-- A property of all steps, however elements are finished, is one of elements. -/
theorem element : H.Walks (Grammar.element r) := by
  unfold Grammar.element openingElement
  simp only [bind_assoc]
  refine .bind (.of .markupHere) fun start => .bind (.of .markupHere) fun _ =>
    .bind (.of (.expectMarkup _)) fun _ => .bind (.openingRest hfinish hname hattributes) fun opening =>
      .choice (.finish hfinish) ?_
  exact .bind (.elementRest hfinish hname hattributes hchildren) fun e => .finish hfinish

end

end Walks

end StepProperty

/-- Such a property that also holds of a run that reads an element of markup, if it holds of the runs that
read the name, the attributes and what is between the tags. -/
structure RunProperty extends StepProperty where
  element {r : Recur} : toStepProperty.Walks elementName → toStepProperty.Walks (attributes r) →
    toStepProperty.Walks (markupChildren r) → toStepProperty.Along (Grammar.element r)

/-- A property of all steps, however elements are finished. -/
def StepProperty.toRunProperty (H : StepProperty)
    (hfinish : ∀ (start : Mark) (n : Node), n.Loggable → H.Along (Parse.finish start n)) : RunProperty :=
  { H with element := fun hname hattributes hchildren =>
    (StepProperty.Walks.element hfinish hname hattributes hchildren).along }

/-- **Runs of productions** have every property that their steps have. -/
theorem Derives.along (H : RunProperty) {a w : View.unit.Moment} [Carrier .unit α]
    {p : Parse α} (h : Derives must a w p) : H.Along p := by
  induction h with
  | pure _ _ => exact .of (.quiet (.pure _))
  | bind hp _ ihp ihf =>
    refine ihp.bind (fun c s hs => ?_) fun x hx => ihf ⟨(), trivial⟩ ⟨x, hx⟩ fun _ => trivial
    exact (hp.sound Semantics.unit c s hs).mono fun x t ⟨_, _, _, hx, ht⟩ => ⟨hx, ht⟩
  | throw e => exact .of (.quiet (.throw e))
  | quiet hp _ ihf => exact .step (.quiet hp) ihf
  | settings hf _ ih => exact fun c s h => H.read (hf c) (ih c (fun _ => trivial) c s h)
  | weaken _ _ ih => exact ih
  | here _ ih => exact .step .here fun m => ih ⟨m, trivial⟩
  | peek _ ih => exact .step .peek fun t => ih ⟨t, trivial⟩
  | next _ ih => exact .step .next fun t => ih ⟨⟨⟨(), trivial⟩, trivial⟩, t, trivial, trivial⟩
  | rawOf _ ih => exact .step (.rawOf _) fun raw => ih ⟨raw, fun _ => trivial⟩
  | semicolon _ _ ih => exact .step .semicolon fun _ => ih ⟨(), trivial⟩
  | expectComma _ ih => exact .step .expectComma fun _ => ih ⟨(), trivial⟩
  | closeHead _ _ iht ihf =>
    refine .step .closeHead fun closed => ?_
    cases closed with
    | true => exact iht ⟨⟨(), trivial⟩, trivial⟩
    | false => exact ihf ⟨⟨⟨(), trivial⟩, trivial⟩, trivial⟩
  | finish _ _ _ hfresh hcommon => exact .of (.finish _ hfresh.loggable hcommon)
  | regexLiteral _ _ => exact .of .regexLiteral
  | resumeTemplate _ ih => exact .step .resumeTemplate fun _ => ih
  | markupHere _ _ ih => exact .step .markupHere fun m => ih ⟨(), trivial⟩ ⟨m, trivial⟩
  | cursorMark _ _ ih => exact .step .cursorMark fun m => ih ⟨m, trivial⟩
  | enterMarkup _ _ ih => exact .step .enterMarkup fun _ => ih
  | expectMarkup _ _ ih => exact .step (.expectMarkup _) fun _ => ih ⟨(), trivial⟩
  | nextMarkupText _ _ ih => exact .step .nextMarkupText fun t => ih ⟨(), trivial⟩ t
  | markupIdentifier => exact .of .markupIdentifier
  | emptyExpression => exact .of .emptyExpression
  | @namedAttribute w r _ hn he hr ihn ihe ihr =>
    have formed {p : Parse Node} (hp : Fulfils StepSemantics.unit.At true w w p) (c s)
        (hs : Formed c s) : Ensures p c s fun _ t => True ∧ Formed c t :=
      (hp c s hs).mono fun _ _ ⟨_, _, _, _, ht⟩ => ⟨trivial, ht⟩
    have hvalue : H.Along (attributeValue r) := by
      unfold attributeValue
      refine .step (.quiet inferInstance) fun isExpression => ?_
      split
      · exact ihe w
      refine .step (.quiet inferInstance) fun isElement => ?_
      split
      · exact ihr w
      · exact .of .attributeString
    have hfinish (start : Mark) (name : Node) (value : Option Node) :
        H.Along (Parse.finish start (.jsxAttribute (.node name) (.node? value))) :=
      .of (.finish start (Derives.loggable_ofKind (by decide) (by decide)) rfl)
    unfold Grammar.namedAttribute
    refine .step .markupHere fun start => (ihn w).bind (formed ((hn w).sound Semantics.unit))
      fun name _ => .step (.quiet inferInstance) fun hasValue => ?_
    split
    · refine .step (.expectMarkup _) fun _ => ?_
      simp only [map_eq_pure_bind, bind_assoc, pure_bind]
      exact hvalue.bind (formed (.attributeValueLoose StepSemantics.loose_unit (fun w => (he w).sound Semantics.unit)
        fun w => (hr w).sound Semantics.unit)) fun value _ => hfinish start name (some value)
    · rw [pure_bind]
      exact hfinish start name none

  | @element w r _ hn ha hc ihn iha ihc =>
    have walks {γ : Type} {must : Bool} [Carrier .unit γ] {p : Parse γ} (hp : Derives must w w p)
        (ih : H.Along p) : H.Walks p :=
      ⟨ih, fun c s hs => (hp.sound Semantics.unit c s hs).mono fun _ _ ⟨_, _, _, _, ht⟩ => ht⟩
    exact H.element (walks (hn w) (ihn w)) (walks (ha w) (iha w)) (walks (hc w) (ihc w))

instance : Markup View.unit := ⟨trivial⟩

/-- Whole programs are read, whatever language they are in. -/
theorem derives_program [Markup V] (w : V.Moment) (isModule : Bool) :
    Derives true w w (whole (if isModule then moduleProgram else script)) := by
  refine derives_whole fun r _ => ?_
  split
  · exact (inferInstance : Reads V (moduleProgram r)).out w
  · exact (inferInstance : Reads V (script r)).out w

/-- So have runs of whole programs. -/
theorem along_program (H : RunProperty) (isModule : Bool) : H.Along (Grammar.program isModule) :=
  .step .begin fun _ => (derives_program () isModule).along H

/-- Whatever a run comes to, it has finished nothing but nodes. -/
def StepProperty.formed : StepProperty where
  Holds p c s := Formed c (lastState (p c s))
  primitive hp h := hp.orderly.out _ _ h
  bind {_ _ p _ c s} hp hf := by
    rw [bind_apply]
    cases hrun : p c s with
    | ok x t => exact hf x t ⟨c.tolerant, hrun⟩
    | error e t =>
      rw [hrun] at hp
      exact hp
  read _ h := h

def RunProperty.formed : RunProperty :=
  StepProperty.formed.toRunProperty fun _ _ hn _ _ h => h.ensures_finish hn _ _ rfl

end EcmaSyntax
