import EcmaSyntax.Proofs.Fitting.Functions
import EcmaSyntax.Proofs.Fitting.Parameters

/-!
# Markup, arrays, templates and objects that fit

An initializer in an object is noted as pending when it is read. It is forgotten again if a later method of
the object has a pattern for a parameter; so `Collected` says two things of the properties that were read,
one in general and one for objects without such a method.
-/

namespace EcmaSyntax

open Parse

set_option synthInstance.maxSize 100000000000000

variable {level : Bool} {e : Surroundings} {P : Prop}

variable {b a : Context} {key : Node} {computed : Bool}

/-! ### Markup -/

/-- What stands in an object and was read between two contexts. -/
structure Node.Settled (e : Surroundings) (n : Node) (before after : Context) : Prop where
  fits : Fits e after.IsPending (.node n)
  initializer : n.is .property → (n.child? "value").any (·.is .assignmentPattern) → after.IsPending
  kept : n.isPatternMethod = false → before.IsPending → after.IsPending

theorem Node.Settled.finished {n : Node} (h : n.Settled e b a) (serial : Option Nat)
    (span : Option Span) : Node.Settled e { n with serial, span } b a :=
  ⟨h.fits.finished serial span, h.initializer, h.kept⟩

/-- The first words of a property. -/
instance : Carries Grammar.PropertyHead where
  all i x := Carries.fits i.surroundings False x.key
  mono h hx := h.1 ▸ hx

instance {key : Option Node} [hkey : Fitting e False key] :
    Fitting e P (Grammar.PropertyHead.mk t key computed isAsync) :=
  ⟨hkey.out⟩

namespace Grammar

variable {r : Recur} [Recur.Restores r] [Recur.Fills r] {hasProto seen : Bool} {ps : List Node}

instance [hx : Fitting e False x] : Seals level e False (elementRest r x) := by
  refine Seals.loop fun y => ?_
  obtain ⟨⟨x, outer⟩, hx, houter⟩ := y
  have : Fitting e False x := ⟨hx⟩
  cases outer with
  | nil => infer_instance
  | cons parent outer =>
    have : Fitting e False parent := ⟨houter parent List.mem_cons_self⟩
    have : Fitting e False outer := ⟨fun y hy => houter y (List.mem_cons_of_mem _ hy)⟩
    infer_instance

/-! ### Arrays and templates -/

instance : Seals level e P templateChunk := by
  refine .seq fun start _ => .seq fun t _ => ?_
  split <;> infer_instance

/-! ### Objects -/

/-- A property fits that was read between two contexts. -/
structure PropertyParts.Fit (e : Surroundings) (p : PropertyParts) (before after : Context) : Prop where
  key : Fits e False (.node p.key)
  value : Fits e (p.shorthand ∨ after.IsPending) (.node p.value)
  initializer : p.value.is .assignmentPattern → after.IsPending
  kept : (p.method ∨ p.kind ≠ "init" → p.value.HasNames) → before.IsPending → after.IsPending

namespace PropertyParts.Fit

variable {p : PropertyParts} {b' : Context}

theorem before (h : p.Fit e b' a) (hb : b.IsPending → b'.IsPending) : p.Fit e b a :=
  { h with kept := fun hnames hp => h.kept hnames (hb hp) }

theorem settled (h : p.Fit e b a) :
    (Node.property (.word p.kind) p.key p.computed p.value p.method p.shorthand).Settled e b a := by
  obtain ⟨kind, key, computed, value, method, shorthand, isProto⟩ := p
  obtain ⟨hkey, hvalue, hinitializer, hkept⟩ := h
  have : Fitting e False key := ⟨hkey⟩
  refine ⟨?_, fun _ => hinitializer, fun hn => hkept fun hkind v hv => ?_⟩
  · cases shorthand with
    | false =>
      have : Fitting e a.IsPending value := ⟨hvalue.mono fun h => h.resolve_left Bool.false_ne_true⟩
      exact (inferInstance : Fitting e a.IsPending (Node.property _ _ _ _ _ _)).out
    | true =>
      have : Fitting e True value := ⟨hvalue.mono fun _ => trivial⟩
      exact (inferInstance : Fitting e a.IsPending (Node.property _ _ _ _ _ _)).out
  · have hguard : (method || !(Text.ofString kind).is "init") = true := by
      rcases hkind with hmethod | hkind
      · simp only at hmethod
        simp [hmethod]
      · have hinit : (Text.ofString kind).is "init" = false :=
          Bool.eq_false_iff.2 (mt Text.ofString_is.1 hkind)
        simp [hinit]
    have hn : ((method || !(Text.ofString kind).is "init")
        && (value.get "params").items.any (·.kind? ≠ some .identifier)) = false := hn
    rw [hguard, Bool.true_and] at hn
    simpa using List.any_eq_false.1 hn v hv

end PropertyParts.Fit

variable {c : ParseSetting} {s : ParseState}

/-- A method or an accessor is read for a property. -/
theorem ensures_methodProperty {p : Node → PropertyParts}
    [hvalue : Seals level e False value] [hrecalls : Recalls value] (h : Situated level e b.IsPending c s)
    (hkey : Fits e False (.node key))
    (hp : ∀ n, (p n).key = key ∧ (p n).value = n ∧ ((p n).method ∨ (p n).kind ≠ "init")) :
    Ensures (value >>= fun n => pure (p n)) c s fun p t =>
      Situated level e False c t ∧ p.Fit e b t.context := by
  refine ((hvalue.out h.forget).and (hrecalls.out c s h.idle)).bind fun n t hn => ?_
  obtain ⟨⟨ht, hfits⟩, hpattern, hnames⟩ := hn
  obtain ⟨hpkey, hpvalue, hkind⟩ := hp n
  refine .pure ⟨ht, ?_, ?_, fun hn => ?_, fun hall hb => ?_⟩
  · rwa [hpkey]
  · rw [hpvalue]
    exact hfits.mono False.elim
  · rw [hpvalue, hpattern] at hn
    cases hn
  · rw [hpvalue] at hall
    exact hnames (hall hkind) (h.pending hb)

omit [Recur.Restores r] in
theorem ensures_keyedProperty {isMethod : Bool}
    [Seals level e False value] [Recalls value] (hkind : isMethod ∨ kind ≠ "init")
    (h : Situated level e False c s) : Ensures (keyedProperty r kind isMethod value) c s fun p t =>
      Situated level e False c t ∧ p.Fit e s.context t.context :=
  h.exact.seq fun _ _ h _ => h.seq fun _ _ h hkey =>
    ensures_methodProperty h hkey fun _ => ⟨rfl, rfl, hkind⟩

variable [Recur.Judges r] [Recur.Remembers r]

omit [Recur.Restores r] [Recur.Remembers r] in
/-- A part of an object is no pattern, and leaves pending what is pending in it. -/
theorem ensures_memberValue (h : Situated level e b.IsPending c s) (hkey : Fits e False (.node key)) :
    Ensures (inherit r.assignment >>= fun n =>
      pure (PropertyParts.mk "init" key computed n false false isProto)) c s fun p t =>
      Situated level e False c t ∧ p.Fit e b t.context := by
  have hread : Leaves level e b.IsPending (inherit r.assignment) := inferInstance
  refine ((hread.out h).and (Appraises.ensures (W := Node.Judged) h.idle)).bind fun n t hn => ?_
  obtain ⟨⟨hkept, ht, hfits⟩, hjudged⟩ := hn
  refine .pure ⟨ht.forget, hkey, hfits.mono .inr, fun hn => ?_, fun _ hb => hkept hb⟩
  exact absurd (hjudged.1.symm.trans hn) Bool.false_ne_true

omit [Recur.Restores r] [Recur.Judges r] [Recur.Remembers r] in
/-- A property with a name only, and perhaps a default. -/
theorem ensures_shorthandValue
    (h : Situated level e b.IsPending c s) (hkey : Fits e False (.node key)) [Fitting e False name] :
    Ensures (do
      let name ← finish start (.identifier name)
      unless ← sees "=" do return PropertyParts.mk "init" key computed name false true false
      let equals ← next
      setContext fun c => { c with coverError := some equals }
      let right ← isolate r.assignment
      let value ← finish start (.assignmentPattern name right)
      return ⟨"init", key, computed, value, false, true, false⟩) c s fun p t =>
      Situated level e False c t ∧ p.Fit e b t.context := by
  have hname : Fitting e False (Node.identifier name) := inferInstance
  refine ((h.ensures_finish hname.out).and (ensures_finish_idle h.idle)).bind fun n s hn => ?_
  obtain ⟨⟨h, -, hfits⟩, hn⟩ := hn
  refine h.seq fun isDefault s h _ => ?_
  split
  · refine h.seq fun equals s h _ => .seq (.modify ?_)
    have hpending : Situated level e True c
        { s with context := { s.context with coverError := some equals } } := h.move rfl fun _ => rfl
    refine hpending.seq fun right s h hright => ?_
    have : Fitting e False n := ⟨hfits⟩
    have : Fitting e False right := ⟨hright⟩
    have hvalue : Fitting e False (Node.assignmentPattern (.node n) (.node right)) := inferInstance
    refine (h.ensures_finish hvalue.out).bind fun value s hs => ?_
    obtain ⟨h, -, hfits⟩ := hs
    exact .pure ⟨h.forget, hkey, hfits.mono False.elim, fun _ => h.pending trivial, fun _ _ => h.pending trivial⟩
  · refine .pure ⟨h.forget, hkey, hfits.mono False.elim, fun hpattern => ?_, fun _ => h.pending⟩
    rw [hn] at hpattern
    exact absurd hpattern Bool.false_ne_true

theorem ensures_propertyValue (h : Situated level e False c s) (hkey : Fits e False (.node key)) :
    Ensures (propertyValue r start hasProto head key) c s fun p t =>
      Situated level e False c t ∧ p.Fit e s.context t.context := by
  refine h.exact.seq fun isColon t h _ => ?_
  dsimp only
  split
  · split
    · exact h.seq fun _ _ h _ => h.seq fun _ _ h _ => ensures_memberValue h hkey
    · exact h.seq fun _ _ h _ => ensures_memberValue h hkey
  · refine h.seq fun isMethod t h _ => ?_
    split
    · split
      · exact ensures_methodProperty h hkey fun _ => ⟨rfl, rfl, .inl rfl⟩
      · exact ensures_methodProperty h hkey fun _ => ⟨rfl, rfl, .inl rfl⟩
    · split
      · exact ensures_shorthandValue h hkey
      · exact h.seq fun _ _ h _ => .seq ensures_unexpected

/-- A property leaves pending what was, unless it is a method with patterns for parameters. -/
theorem ensures_objectProperty (h : Situated level e False c s) :
    Ensures (objectProperty r hasProto) c s fun x t => Situated level e False c t
      ∧ x.1.Settled e s.context t.context := by
  have hfinish {start : Mark} {p : PropertyParts} {t : ParseState} (h : Situated level e False c t)
      (hp : p.Fit e s.context t.context) :
      Ensures (finish start (.property (.word p.kind) p.key p.computed p.value p.method p.shorthand) >>=
        fun n => pure (n, hasProto || p.isProto)) c t fun x t => Situated level e False c t
        ∧ x.1.Settled e s.context t.context := by
    simp only [Ensures.bind_iff, Ensures.step_iff, h.idle, Event.taken_idle]
    exact ⟨h.move rfl False.elim, hp.settled.finished _ _⟩
  refine h.exact.seq fun start t h _ => h.seq fun head t h hhead => h.seq fun next t h _ => ?_
  have hrest {p : Parse PropertyParts} (hp : Ensures p c t fun p u =>
      Situated level e False c u ∧ p.Fit e t.context u.context) :
      Ensures (p >>= fun p =>
        finish start (.property (.word p.kind) p.key p.computed p.value p.method p.shorthand) >>=
          fun n => pure (n, hasProto || p.isProto)) c t fun x t => Situated level e False c t
        ∧ x.1.Settled e s.context t.context :=
    hp.bind fun p u hu => hfinish hu.1 (hu.2.before h.pending)
  dsimp only
  split
  · exact hrest (ensures_keyedProperty (.inr (by decide)) h.forget)
  · split
    · exact hrest (ensures_keyedProperty (.inr (by decide)) h.forget)
    · split
      · exact hrest (ensures_keyedProperty (.inl rfl) h.forget)
      · cases hkey : head.key with
        | some key => exact hrest (ensures_propertyValue h.forget (hhead key hkey))
        | none => exact h.seq fun _ _ _ _ => .seq ensures_unexpected

omit [Recur.Restores r] [Recur.Judges r] [Recur.Remembers r] in
theorem ensures_spreadElement (h : Situated level e False c s) : Ensures (spreadElement r) c s fun n t =>
      Situated level e False c t ∧ n.Settled e s.context t.context ∧ n.is .property = false := by
  have hread : Leaves level e s.context.IsPending (spreadElement r) := inferInstance
  have hkind : Ensures (spreadElement r) c s fun n _ => n.is .property = false := by
    refine .anyway fun _ _ => .anyway fun _ _ => .anyway fun _ _ => ?_
    refine (ensures_finish_idle h.idle).mono fun n _ hn => ?_
    rw [hn]
    rfl
  refine ((hread.out h.exact).and hkind).mono fun n t hn => ?_
  obtain ⟨⟨hkept, ht, hfits⟩, hkind⟩ := hn
  exact ⟨ht.forget, ⟨hfits, fun hn => absurd (hkind.symm.trans hn) Bool.false_ne_true, fun _ => hkept⟩, hkind⟩

/-- What has been read of an object. `seen` tells if its prototype was set. -/
structure Collected (e : Surroundings) (ps : List Node) (seen : Bool) (c : Context) : Prop where
  freely : ∀ p ∈ ps, Fits e True (.node p)
  kept : (∀ p ∈ ps, p.isPatternMethod = false) → ∀ p ∈ ps, Fits e c.IsPending (.node p)
    ∧ (p.is .property → (p.child? "value").any (·.is .assignmentPattern) → c.IsPending)
  rivals : e.lenient ∨ ps.countP Node.setsPrototype ≤ seen.toNat

theorem Collected.nil : Collected e [] false a :=
  ⟨List.forall_mem_nil _, fun _ => List.forall_mem_nil _, .inr (Nat.le_refl _)⟩

theorem Collected.push
    (h : Collected e ps seen b) (hn : x.1.Settled e b a) (hx : e.lenient ∨ Tallies Node.setsPrototype seen x) :
    Collected e (ps ++ [x.1]) x.2 a := by
  refine ⟨List.forall_mem_append.2 ⟨h.freely, ?_⟩, fun hnames => ?_,
    hx.elim .inl fun hx => h.rivals.imp_right hx.push⟩
  · exact List.forall_mem_singleton.2 (hn.fits.mono fun _ => trivial)
  · rw [List.forall_mem_append, List.forall_mem_singleton] at hnames ⊢
    have hkept := hn.kept hnames.2
    refine ⟨fun p hp => ?_, hn.fits, hn.initializer⟩
    obtain ⟨hfits, hinitializer⟩ := h.kept hnames.1 p hp
    exact ⟨hfits.mono hkept, fun hproperty hpattern => hkept (hinitializer hproperty hpattern)⟩

theorem Collected.fits (h : Collected e ps seen a) :
    Fits e a.IsPending (.node (.objectExpression (.nodes ps))) := by
  have hrivals := h.rivals.imp_right fun hle => Nat.le_trans hle (Bool.toNat_le seen)
  by_cases hnames : ∀ p ∈ ps, p.isPatternMethod = false
  · have hkept := h.kept hnames
    exact .objectExpression (fun _ => id) (fun p hp => (hkept p hp).2) (fun p hp => (hkept p hp).1) hrivals
  · exact .objectExpression (fun h => absurd h hnames) (fun _ _ _ _ => trivial) h.freely hrivals

/-- Nothing that is pending in an object is forgotten, unless a method has patterns for parameters. -/
instance : Leaves level e False (objectInitializer r) := by
  refine ⟨fun {c s} h => h.seq fun start s h _ => h.seq fun _ s h _ => ?_⟩
  refine (ensures_loop
    (I := fun (x : List Node × Bool) t => Situated level e False c t ∧ Collected e x.1 x.2 t.context)
    (Q := fun v t => Situated level e False c t ∧ ∃ ps seen, v = Value.nodes ps ∧ Collected e ps seen t.context)
    ⟨h, .nil⟩ fun x t ht => ?_).bind fun v t ht => ?_
  · obtain ⟨properties, hasProto⟩ := x
    obtain ⟨h, hproperties⟩ := ht
    have hagain {x : Node × Bool} {u : ParseState} (h : Situated level e False c u)
        (hn : x.1.Settled e t.context u.context) (hx : e.lenient ∨ Tallies Node.setsPrototype hasProto x) :
        Ensures (do
          unless ← sees "\x7d" do expectComma
          return .again (properties ++ [x.1], x.2)) c u
          (Round.Holds (fun (x : List Node × Bool) t => Situated level e False c t ∧ Collected e x.1 x.2 t.context)
            fun v t => Situated level e False c t
              ∧ ∃ ps seen, v = Value.nodes ps ∧ Collected e ps seen t.context) := by
      refine h.seqSparing (hproperties.push hn hx) fun isLast u h hpushed => ?_
      split
      · exact .pure ⟨h, hpushed⟩
      · exact h.seqSparing hpushed fun _ u h hpushed => .pure ⟨h, hpushed⟩
    dsimp only
    rw [Ensures.step_bind]
    split
    · exact .pure ⟨h, properties, hasProto, rfl, hproperties⟩
    · rw [Ensures.step_bind]
      split
      · refine (ensures_spreadElement h).bind fun n u hn => hagain hn.1 hn.2.1 (.inr ⟨id, ?_⟩)
        simp [Node.setsPrototype, hn.2.2]
      · have htallies : Ensures (objectProperty r hasProto) c t fun x _ =>
            e.lenient ∨ Tallies Node.setsPrototype hasProto x := by
          cases hstrict : c.tolerant with
          | true => exact .always fun _ _ => .inl (h.lenient.trans hstrict)
          | false => exact (ensures_objectProperty_tallies h.idle hstrict).mono fun _ _ => .inr
        exact ((ensures_objectProperty h).and htallies).bind fun x u hx => hagain hx.1.1 hx.1.2 hx.2
  · obtain ⟨h, ps, seen, rfl, hps⟩ := ht
    refine h.seqSparing hps fun _ t h hps => ?_
    refine (h.ensures_finish hps.fits).mono fun n u hu => ⟨False.elim, hu.1.exact, ?_⟩
    rw [hu.2.1]
    exact hu.2.2

end Grammar

end EcmaSyntax
