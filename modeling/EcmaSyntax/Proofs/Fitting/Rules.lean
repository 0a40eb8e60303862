import EcmaSyntax.Proofs.Fitting.Nodes
import EcmaSyntax.Proofs.Scope

/-!
# Reading what fits

`Situated` says that the context of a run is what `Surroundings` tell of it, and `Seals` that a
production, run there, gives something that fits there and leaves no initializer pending in it. `Leaves`
says the same of a production that may leave one pending; then the context says so.

Before classes have blocks, no statement stands in an expression, unless it is in a function. So it does
not matter then in which surroundings an expression is read; only where statements are read (`level`)
the surroundings must be those of the context.
-/

namespace EcmaSyntax

open Parse
open Ensures (bind_iff step_iff throw_iff map_iff scan_iff)

variable {c : ParseSetting} {s : ParseState} {q : Prop} {n : Node} {start : Mark} {t : Token}

/-- An invariant of a loop holds where it ends. -/
theorem Parse.ensures_loop {I : τ → ParseState → Prop} {Q : β → ParseState → Prop} (hx : I x s)
    (hbody : ∀ x s, I x s → Ensures (body x) c s (Round.Holds I Q)) : Ensures (loop body x) c s Q := by
  exact Ensures.rounds hbody _ x s hx

/-! ### Steps that spare a part of the context -/

/-- Is an initializer pending that only a pattern may have? -/
def Context.IsPending (c : Context) : Prop := c.coverError.isSome

/-- Is it known that what was read cannot be assigned to? -/
def Context.IsFixed (c : Context) : Prop := c.isTarget = false

/-- What holds of a context before a production holds after it. -/
def Law.spares (I : Context → Prop) : Law :=
  .relating (fun s t => I s.context → I t.context) (fun _ => id) fun _ _ _ h h' => h' ∘ h

abbrev Spares (I : Context → Prop) {α : Type} (p : Parse α) : Prop := Obeys (.spares I) p

instance : (Law.spares I).Contextual := Law.contextual_relating fun _ _ h _ => h ▸ id

namespace Spares

variable {I : Context → Prop} {α : Type} {p : Parse α}

theorem out [h : Spares I p] (c : ParseSetting) (s : ParseState) : Ensures p c s fun _ t => I s.context → I t.context :=
  Obeys.out (L := .spares I) c s

instance (priority := 50) {q : Parse α} [u : Unfolds p q] [h : Spares I q] : Spares I p := u.eq ▸ h

instance : Spares I (log isComment n span) := ⟨fun _ _ => step_iff.2 (by exact id)⟩

-- What can be assigned to, or can be a parameter, is told apart from what is pending.
instance {target binding : Context → Bool} : Spares Context.IsPending
    (setContext fun c => { c with isTarget := target c, isBinding := binding c }) :=
  ⟨fun _ _ => .modify id⟩
instance : Spares Context.IsPending notTarget :=
  inferInstanceAs (Spares _ (setContext fun c => { c with isTarget := false, isBinding := false }))

end Spares

/-! ### Where a run stands -/

/-- What the surroundings must tell of a context. -/
structure Surroundings.Covers (e : Surroundings) (c : Context) : Prop where
  inFunction : c.inFunction → e.inFunction
  inLoop : c.inLoop → e.inLoop
  inSwitch : c.inSwitch → e.inSwitch
  labels : c.labels ⊆ e.labels
  allLabels : e.hasBlocks = false → e.labels ⊆ c.labels

/-- A run stands in some surroundings. `P` says if an initializer is pending. -/
structure Situated (level : Bool) (e : Surroundings) (P : Prop) (c : ParseSetting) (s : ParseState) :
    Prop where
  idle : c.delegate = .idle
  hasBlocks : e.hasBlocks = decide (2022 ≤ c.edition)
  lenient : e.lenient = c.tolerant
  covers : level ∨ e.hasBlocks → e.Covers s.context
  pending : P → s.context.IsPending

/-- The part of a context that surroundings tell of. -/
def Context.scope (c : Context) : Bool × Bool × Bool × List Text :=
  (c.inFunction, c.inLoop, c.inSwitch, c.labels)

theorem Surroundings.Covers.of_scope {e : Surroundings} {c d : Context} (h : e.Covers c)
    (hd : d.scope = c.scope) : e.Covers d := by
  simp only [Context.scope, Prod.mk.injEq] at hd
  obtain ⟨hfunction, hloop, hswitch, hlabels⟩ := hd
  exact ⟨hfunction ▸ h.inFunction, hloop ▸ h.inLoop, hswitch ▸ h.inSwitch, hlabels ▸ h.labels, hlabels ▸ h.allLabels⟩

namespace Situated

variable {level : Bool} {e : Surroundings} {P Q : Prop} {t : ParseState}

theorem weaken (h : Situated level e P c s) (hQ : Q → P) : Situated level e Q c s :=
  { h with pending := fun hq => h.pending (hQ hq) }

theorem forget (h : Situated level e P c s) : Situated level e False c s := h.weaken False.elim

/-- The same surroundings at another state. -/
theorem move (h : Situated level e P c s) (hscope : t.context.scope = s.context.scope)
    (hpending : Q → t.context.IsPending) : Situated level e Q c t :=
  { h with
    covers := fun hl => (h.covers hl).of_scope hscope
    pending := hpending }

/-- What is pending is what the context says. -/
theorem exact (h : Situated level e P c s) : Situated level e s.context.IsPending c s :=
  { h with pending := id }

end Situated

/-! ### Productions that leave nothing pending -/

variable {level : Bool} {e : Surroundings} {P Q : Prop} {α β γ : Type} [Carries α] [Carries β] [Carries γ]

/-- A production that gives something that fits, with nothing pending in it. -/
class Seals (level : Bool) (e : Surroundings) (P : Prop) {α : Type} [Carries α] (p : Parse α) : Prop where
  out {c : ParseSetting} {s : ParseState} : Situated level e P c s →
    Ensures p c s fun x t => Situated level e P c t ∧ Carries.fits e False x

/-- A production that gives something that fits. What is pending before it is so after it. -/
class Leaves (level : Bool) (e : Surroundings) (P : Prop) {α : Type} [Carries α] (p : Parse α) : Prop where
  out {c : ParseSetting} {s : ParseState} : Situated level e P c s →
    Ensures p c s fun x t => (P → t.context.IsPending)
      ∧ Situated level e t.context.IsPending c t ∧ Carries.fits e t.context.IsPending x

/-- A production that goes on with a result in which something may be pending, or not. -/
class SealsWith (level : Bool) (e : Surroundings) (P Q : Prop) {α β : Type} [Carries α] [Carries β]
    (f : α → Parse β) : Prop where
  out (x : α) : Carries.fits e Q x → Seals level e P (f x)

class LeavesWith (level : Bool) (e : Surroundings) (P Q : Prop) {α β : Type} [Carries α] [Carries β]
    (f : α → Parse β) : Prop where
  out (x : α) : Carries.fits e Q x → Leaves level e P (f x)

/-- What may be pending later on. -/
structure Onwards (P : Prop) where
  now : Prop
  of : P → now

instance (priority := low) {w : Onwards P} {x : α} [h : Fitting e P x] : Fitting e w.now x :=
  ⟨Carries.mono w.of h.out⟩

instance (priority := 50) {p q : Parse α} [u : Unfolds p q] [h : Seals level e P q] : Seals level e P p := u.eq ▸ h
instance (priority := 50) {p q : Parse α} [u : Unfolds p q] [h : Leaves level e P q] : Leaves level e P p :=
  u.eq ▸ h

instance (priority := low) {f : α → Parse β} [h : ∀ x : Found e Q α, Seals level e P (f x.get)] :
    SealsWith level e P Q f :=
  ⟨fun x hx => h ⟨x, hx⟩⟩
instance (priority := low) {f : α → Parse β} [h : ∀ x : Found e Q α, Leaves level e P (f x.get)] :
    LeavesWith level e P Q f :=
  ⟨fun x hx => h ⟨x, hx⟩⟩

-- Pairs are taken apart, so that a production that matches on one goes on with its parts.
instance {f : α × β → Parse γ} [h : ∀ x : Found e Q α, SealsWith level e P Q fun y => f (x.get, y)] :
    SealsWith level e P Q f :=
  ⟨fun x hx => (h ⟨x.1, hx.1⟩).out x.2 hx.2⟩
instance {f : α × β → Parse γ} [h : ∀ x : Found e Q α, LeavesWith level e P Q fun y => f (x.get, y)] :
    LeavesWith level e P Q f :=
  ⟨fun x hx => (h ⟨x.1, hx.1⟩).out x.2 hx.2⟩

theorem Seals.leaves {p : Parse α} (h : Seals level e P p) : Leaves level e P p :=
  ⟨fun hs => (h.out hs).mono fun _ _ ht =>
    ⟨ht.1.pending, ht.1.exact, Carries.mono False.elim ht.2⟩⟩

instance (priority := 50) {p : Parse α} [h : Seals level e P p] : Leaves level e P p := h.leaves

/-! #### Sequences -/

namespace Situated

variable {p : Parse α} {f : α → Parse β} {R : β → ParseState → Prop}

omit [Carries β] in
/-- A run goes on where a production ends that leaves nothing pending. -/
theorem seq (h : Situated level e P c s) [hp : Seals level e P p]
    (hf : ∀ x t, Situated level e P c t → Carries.fits e False x → Ensures (f x) c t R) :
    Ensures (p >>= f) c s R :=
  (hp.out h).bind fun x t ht => hf x t ht.1 ht.2

omit [Carries β] in
/-- It goes on where something may be pending. -/
theorem seqLeaving (h : Situated level e P c s) [hp : Leaves level e P p]
    (hf : ∀ x t, (P → t.context.IsPending) → Situated level e t.context.IsPending c t →
      Carries.fits e t.context.IsPending x → Ensures (f x) c t R) : Ensures (p >>= f) c s R :=
  (hp.out h).bind fun x t ht => hf x t ht.1 ht.2.1 ht.2.2

omit [Carries β] in
/-- It goes on with what was spared. -/
theorem seqSparing {I : Context → Prop} (h : Situated level e P c s) (hs : I s.context)
    [hp : Seals level e P p] [hI : Spares I p]
    (hf : ∀ x t, Situated level e P c t → I t.context → Ensures (f x) c t R) : Ensures (p >>= f) c s R :=
  ((hp.out h).and (hI.out c s)).bind fun x t ht => hf x t ht.1.1 (ht.2 hs)

end Situated

theorem Seals.seq {f : α → Parse β} [hp : Seals level e P p]
    (hf : ∀ x, Carries.fits e False x → Seals level e P (f x)) : Seals level e P (p >>= f) :=
  ⟨fun h => h.seq fun x _ ht hx => (hf x hx).out ht⟩

/-- Nothing needs to be kept that was pending before. -/
theorem Leaves.ofEnsures {p : Parse α} (h : ∀ c s, Situated level e False c s →
    Ensures p c s fun x t => Situated level e False c t ∧ Carries.fits e t.context.IsPending x) :
    Leaves level e False p :=
  ⟨fun {c s} hs => (h c s hs).mono fun _ _ ht => ⟨False.elim, ht.1.exact, ht.2⟩⟩

theorem Leaves.seq {f : α → Parse β} [hp : Seals level e P p]
    (hf : ∀ x, Carries.fits e False x → Leaves level e P (f x)) : Leaves level e P (p >>= f) :=
  ⟨fun h => h.seq fun x _ ht hx => (hf x hx).out ht⟩

instance sealsBind {f : α → Parse β} [hp : Seals level e P p]
    [hf : SealsWith level e P False f] : Seals level e P (p >>= f) :=
  .seq hf.out

instance leavesBind {f : α → Parse β} [hp : Seals level e P p]
    [hf : LeavesWith level e P False f] : Leaves level e P (p >>= f) :=
  .seq hf.out

-- What is pending in a result is forgotten where it does not matter.
instance (priority := 90) forgetBind {f : α → Parse β} [hp : Leaves level e False p]
    [hf : SealsWith level e False True f] : Seals level e False (p >>= f) :=
  ⟨fun h => (hp.out h).bind fun x _ ht =>
    (hf.out x (Carries.mono (fun _ => trivial) ht.2.2)).out ht.2.1.forget⟩

instance (priority := 90) onwardsBind {f : α → Parse β} [hp : Leaves level e P p]
    [hf : ∀ w : Onwards P, LeavesWith level e w.now w.now f] : Leaves level e P (p >>= f) :=
  ⟨fun h => (hp.out h).bind fun x t ht =>
    (((hf ⟨t.context.IsPending, ht.1⟩).out x ht.2.2).out ht.2.1).mono fun _ _ hu =>
      ⟨fun hP => hu.1 (ht.1 hP), hu.2⟩⟩

instance (priority := high) sealsPureBind {f : α → Parse β} [h : Seals level e P (f x)] :
    Seals level e P ((pure x : Parse α) >>= f) := by
  rwa [pure_bind]

instance (priority := high) leavesPureBind {f : α → Parse β} [h : Leaves level e P (f x)] :
    Leaves level e P ((pure x : Parse α) >>= f) := by
  rwa [pure_bind]

instance sealsPure [hx : Fitting e False x] : Seals level e P (pure x : Parse α) :=
  ⟨fun h => .pure ⟨h, hx.out⟩⟩

instance leavesPure [hx : Fitting e P x] : Leaves level e P (pure x : Parse α) :=
  ⟨fun h => .pure ⟨h.pending, h.exact, Carries.mono h.pending hx.out⟩⟩

instance sealsIte [Decidable q] {m n : Parse α} [hm : Seals level e P m]
    [hn : Seals level e P n] : Seals level e P (if q then m else n) := by
  split
  · exact hm
  · exact hn

instance leavesIte [Decidable q] {m n : Parse α} [hm : Leaves level e P m]
    [hn : Leaves level e P n] : Leaves level e P (if q then m else n) := by
  split
  · exact hm
  · exact hn

/-! #### Steps -/

/-- What is pending before a production is so after it, if that is asked for. -/
class Retains (P : Prop) {α : Type} (p : Parse α) : Prop where
  out (c : ParseSetting) (s : ParseState) : Ensures p c s fun _ t =>
    (P → s.context.IsPending) → P → t.context.IsPending

omit [Carries α] in
instance (priority := high) : Retains False p := ⟨fun _ _ => .always fun _ _ _ => False.elim⟩

omit [Carries α] in
instance [h : Spares Context.IsPending p] : Retains P p :=
  ⟨fun c s => (h.out c s).mono fun _ _ ht hs hP => ht (hs hP)⟩

theorem scope_of_frame {c d : Context} (h : d.frame k = c.frame k) : d.scope = c.scope := by
  simp only [Context.frame, Context.mk.injEq] at h
  simp [Context.scope, h]

instance (priority := 80) sealsStep [hα : Barren Site α] {p : Parse α} [hp : Restores ⟨true, true⟩ p]
    [hr : Retains P p] : Seals level e P p :=
  ⟨fun {c s} h => ((hp.out c s).and (hr.out c s)).mono fun x _ ht =>
    ⟨h.move (scope_of_frame ht.1.frame) (ht.2 h.pending), hα.all _ x⟩⟩

theorem Seals.ofNever {p : Parse α} (h : ∀ c s, Ensures p c s fun _ _ => False) : Seals level e P p :=
  ⟨fun {c s} _ => (h c s).mono fun _ _ => False.elim⟩

instance : Seals level e P (refuse cause : Parse α) :=
  .ofNever fun _ _ => .anyway fun _ _ => throw_iff.2 trivial
instance : Seals level e P (refuseAt t cause : Parse α) :=
  .ofNever fun _ _ => .anyway fun _ _ => throw_iff.2 trivial
instance : Seals level e P (unexpected t : Parse α) :=
  .ofNever fun _ _ => ensures_unexpected

/-! #### Finished nodes -/

theorem Fits.finished (h : Fits e P (.node n)) (serial : Option Nat) (span : Option Span) :
    Fits e P (.node { n with serial, span }) := by
  obtain ⟨hallows, hfields⟩ := node_iff.1 h
  have halike : n.Alike { n with serial, span } := .of_get fun _ _ => rfl
  refine node_iff.2 ⟨halike.allows hallows.made hallows, fun f hf hplace => ?_⟩
  exact (hfields f hf hplace).mono halike.pending

/-- A node that is finished fits if it did before. -/
theorem Situated.ensures_finish (h : Situated level e P c s) (hn : Fits e' Q (.node n)) :
    Ensures (finish start n) c s fun x t => Situated level e P c t ∧ t.context = s.context ∧ Fits e' Q (.node x) := by
  simp only [step_iff, h.idle, Event.taken_idle, true_and]
  exact ⟨h.move rfl h.pending, hn.finished _ _⟩

theorem Situated.ensures_finish_fits (h : Situated level e P c s) (hn : Fits e' Q (.node n)) :
    Ensures (finish start n) c s fun x t => Situated level e P c t ∧ Fits e' Q (.node x) :=
  (h.ensures_finish hn).mono fun _ _ ht => ⟨ht.1, ht.2.2⟩

instance sealsFinish [hn : Fitting e False n] : Seals level e P (finish start n) :=
  ⟨fun h => h.ensures_finish_fits hn.out⟩

instance leavesFinish [hn : Fitting e P n] : Leaves level e P (finish start n) :=
  ⟨fun h => (h.ensures_finish hn.out).mono fun _ _ ht =>
    ⟨ht.1.pending, ht.1.exact, ht.2.2.mono ht.1.pending⟩⟩

-- A node in which something is pending is finished to be a part of another one.
instance (priority := low) {f : Node → Parse β} [hn : Fitting e True n]
    [hf : SealsWith level e False True f] : Seals level e False (finish start n >>= f) :=
  ⟨fun h => (h.ensures_finish hn.out).bind fun x _ ht => (hf.out x ht.2.2).out ht.1⟩

instance [h : Seals level e P (finish (t.startMark 0) n)] : Seals level e P (finishFrom t n) :=
  h
instance (priority := low) {f : Node → Parse β}
    [h : Seals level e False (finish (t.startMark 0) n >>= f)] : Seals level e False (finishFrom t n >>= f) :=
  h
instance [h : Leaves level e P (finish (t.startMark 0) n)] : Leaves level e P (finishFrom t n) :=
  h

/-! #### Mapped results -/

instance {f : α → β} [hp : Seals level e P p]
    [hf : ∀ x : Found e False α, Fitting e False (f x.get)] : Seals level e P (f <$> p) :=
  ⟨fun h => map_iff.2 <| (hp.out h).mono fun x _ ht => ⟨ht.1, (hf ⟨x, ht.2⟩).out⟩⟩

instance {f : α → β} [hp : Leaves level e P p]
    [hf : ∀ (Q : Prop) (x : Found e Q α), Fitting e Q (f x.get)] : Leaves level e P (f <$> p) :=
  ⟨fun h => map_iff.2 <| (hp.out h).mono fun x _ ht =>
    ⟨ht.1, ht.2.1, (hf _ ⟨x, ht.2.2⟩).out⟩⟩

/-! #### Loops -/

theorem Seals.rounds {body : α → Parse (Round α β)} (hbody : ∀ x : Found e False α, Seals level e P (body x.get)) :
    ∀ (bound : Nat) (x : Found e False α), Seals level e P (EcmaSyntax.rounds body bound x.get)
  | 0, _ => .ofNever fun _ _ => throw_iff.2 trivial
  | bound + 1, x => by
    refine ⟨fun h => ((hbody x).out h).bind fun y t ht => ?_⟩
    cases y with
    | again z => exact (Seals.rounds hbody bound ⟨z, ht.2⟩).out ht.1
    | done z => exact .pure ht

theorem Seals.loop {body : α → Parse (Round α β)} [hx : Fitting e False x]
    (hbody : ∀ x : Found e False α, Seals level e P (body x.get)) : Seals level e P (Parse.loop body x) := by
  refine ⟨fun hs => ?_⟩
  exact (Seals.rounds hbody _ ⟨x, hx.out⟩).out hs

instance sealsLoop {body : α → Parse (Round α β)} [Fitting e False x]
    [h : SealsWith level e P False body] : Seals level e P (loop body x) :=
  .loop fun x => h.out x.get x.out

theorem Leaves.rounds {body : α → Parse (Round α β)}
    (hbody : ∀ (w : Onwards P) (x : Found e w.now α), Leaves level e w.now (body x.get)) :
    ∀ (bound : Nat) (w : Onwards P) (x : Found e w.now α), Leaves level e w.now (EcmaSyntax.rounds body bound x.get)
  | 0, _, _ => (Seals.ofNever fun _ _ => throw_iff.2 trivial).leaves
  | bound + 1, w, x => by
    refine ⟨fun h => ((hbody w x).out h).bind fun y t ht => ?_⟩
    obtain ⟨hw, hsituated, hy⟩ := ht
    cases y with
    | again z =>
      refine ((Leaves.rounds hbody bound ⟨_, fun hP => hw (w.of hP)⟩ ⟨z, hy⟩).out hsituated).mono ?_
      exact fun _ _ hu => ⟨fun hn => hu.1 (hw hn), hu.2⟩
    | done z => exact .pure ⟨hw, hsituated, hy⟩

instance (priority := 90) leavesLoop {body : α → Parse (Round α β)} [hx : Fitting e P x]
    [h : ∀ w : Onwards P, LeavesWith level e w.now w.now body] : Leaves level e P (loop body x) :=
  ⟨fun hs => by
    exact (Leaves.rounds (fun w x => (h w).out x.get x.out) _ ⟨P, id⟩ ⟨x, hx.out⟩).out hs⟩

instance sealsMany {item : Parse α} [Seals level e P stop] [Seals level e P item] :
    Seals level e P (manyUntil stop item) := by
  unfold manyUntil
  infer_instance

instance (priority := 90) leavesMany {item : Parse α}
    [∀ w : Onwards P, Seals level e w.now stop] [∀ w : Onwards P, Leaves level e w.now item] :
    Leaves level e P (manyUntil stop item) := by
  unfold manyUntil
  infer_instance

/-! #### Contexts -/

theorem ensures_within {R : α → ParseState → Prop} : Ensures (within enter leave p) c s R ↔
      Ensures p c { s with context := enter s.context } fun x t =>
        R x { t with context := leave s.context t.context } := by
  simp only [within, bind_iff, step_iff]

/-- A change of the context that surroundings do not tell of. -/
structure Aside (enter : Context → Context) (leave : Context → Context → Context) : Prop where
  enterScope (b : Context) : (enter b).scope = b.scope
  enterCover (b : Context) : (enter b).coverError = b.coverError
  leaveScope (b c : Context) : (leave b c).scope = c.scope
  leaveCover (b c : Context) : (leave b c).coverError = c.coverError

section

variable {enter : Context → Context} {leave : Context → Context → Context} {p : Parse α}

theorem Situated.entered (h : Situated level e P c s)
    (hw : Aside enter leave) : Situated level e P c { s with context := enter s.context } :=
  h.move (hw.enterScope _) fun hP => by
    rw [Context.IsPending, hw.enterCover]
    exact h.pending hP

theorem Situated.left {t : ParseState} (h : Situated level e P c t) (hw : Aside enter leave) (b : Context) :
    Situated level e P c { t with context := leave b t.context } :=
  h.move (hw.leaveScope _ _) fun hP => by
    rw [Context.IsPending, hw.leaveCover]
    exact h.pending hP

theorem Seals.aside (hw : Aside enter leave) (hp : Seals level e P p) : Seals level e P (within enter leave p) :=
  ⟨fun h => ensures_within.2 <| (hp.out (h.entered hw)).mono fun _ _ ht => ⟨ht.1.left hw _, ht.2⟩⟩

theorem Leaves.aside (hw : Aside enter leave) (hp : Leaves level e P p) :
    Leaves level e P (within enter leave p) := by
  refine ⟨fun {c s} h => ensures_within.2 <| (hp.out (h.entered hw)).mono fun _ t ht => ?_⟩
  have hcover : (leave s.context t.context).IsPending = t.context.IsPending := by
    rw [Context.IsPending, hw.leaveCover]
    rfl
  simp only [hcover]
  exact ⟨ht.1, ht.2.1.left hw _, ht.2.2⟩

end

theorem aside_allowIn (b : Bool) : Aside (fun c => { c with allowIn := b })
    fun before c => { c with allowIn := before.allowIn } :=
  ⟨fun _ => rfl, fun _ => rfl, fun _ _ => rfl, fun _ _ => rfl⟩

theorem aside_allowYield (b : Bool) : Aside (fun c => { c with allowYield := b })
    fun before c => { c with allowYield := before.allowYield } :=
  ⟨fun _ => rfl, fun _ => rfl, fun _ _ => rfl, fun _ _ => rfl⟩

theorem aside_withStrictness (f : Formals) : Aside (fun c => { c with allowStrictDirective := f.simple })
    fun before c => { c with strict := before.strict, allowStrictDirective := before.allowStrictDirective } :=
  ⟨fun _ => rfl, fun _ => rfl, fun _ _ => rfl, fun _ _ => rfl⟩

theorem aside_withYield (y : Bool) (x : Option Bool) :
    Aside (fun c => { c with allowYield := y, allowAwait := x.getD c.allowAwait }) fun before c =>
        { c with
          allowYield := before.allowYield
          allowAwait := if x.isSome then before.allowAwait else c.allowAwait } :=
  ⟨fun _ => rfl, fun _ => rfl, fun _ _ => rfl, fun _ _ => rfl⟩

section

variable {p : Parse α} {b : Bool}

instance [h : Seals level e P p] : Seals level e P (within (fun c => { c with allowIn := b })
    (fun before c => { c with allowIn := before.allowIn }) p) :=
  .aside (aside_allowIn b) h
instance [h : Leaves level e P p] : Leaves level e P (within (fun c => { c with allowIn := b })
    (fun before c => { c with allowIn := before.allowIn }) p) :=
  .aside (aside_allowIn b) h
instance [h : Seals level e P p] : Seals level e P (within (fun c => { c with allowYield := b })
    (fun before c => { c with allowYield := before.allowYield }) p) :=
  .aside (aside_allowYield b) h
instance [h : Leaves level e P p] : Leaves level e P (within (fun c => { c with allowYield := b })
    (fun before c => { c with allowYield := before.allowYield }) p) :=
  .aside (aside_allowYield b) h

end

/-! #### Isolation and inheritance -/

omit [Carries α] in
/-- What is isolated is what is read, if nothing is pending. -/
theorem ensures_isolate {R : α → ParseState → Prop}
    (h : Ensures p c { s with context := freshCover s.context } fun x t => t.context.coverError = none →
      R x { t with context :=
        { t.context with
          isBinding := s.context.isBinding
          isTarget := s.context.isTarget
          coverError := s.context.coverError } }) : Ensures (isolate p) c s R := by
  refine ensures_within.2 (h.bind fun x t ht => ?_)
  simp only [bind_iff, step_iff]
  cases hcover : t.context.coverError with
  | some t => exact .seq ensures_unexpected
  | none => exact .pure (ht hcover)

/-- An expression that is no part of a pattern leaves nothing pending. -/
instance sealsIsolate {p : Parse α} [hp : Leaves level e False p] : Seals level e P (isolate p) := by
  refine ⟨fun {c s} h => ensures_isolate ?_⟩
  have hfresh : Situated level e False c { s with context := freshCover s.context } :=
    h.move rfl False.elim
  refine (hp.out hfresh).mono fun x t ht hcover => ⟨ht.2.1.move rfl h.pending, Carries.mono ?_ ht.2.2⟩
  simp [Context.IsPending, hcover]

/-- What is pending in a part of a pattern is pending for the pattern. -/
instance leavesInherit {p : Parse α} [hp : Leaves level e False p] : Leaves level e P (inherit p) := by
  refine ⟨fun {c s} h => ensures_within.2 ?_⟩
  have hfresh : Situated level e False c { s with context := freshCover s.context } :=
    h.move rfl False.elim
  refine (hp.out hfresh).mono fun x t ht => ?_
  have hinner (ht : t.context.IsPending) : (s.context.coverError <|> t.context.coverError).isSome := by
    cases hs : s.context.coverError <;> simp_all [Context.IsPending]
  have houter (hP : P) : (s.context.coverError <|> t.context.coverError).isSome := by
    have := h.pending hP
    cases hs : s.context.coverError <;> simp_all [Context.IsPending]
  exact ⟨houter, ht.2.1.move rfl id, Carries.mono hinner ht.2.2⟩

end EcmaSyntax
