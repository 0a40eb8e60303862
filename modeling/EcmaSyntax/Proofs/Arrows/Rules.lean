import EcmaSyntax.Proofs.Arrows.Stalling

/-!
# Reading what is resolved

`EnsuresIn V p c s Q` says of a run what `Ensures` does, if all calls of `next` in the run are in states of
which `V` holds. `Resolves` says that a production gives something resolved, unless it ends at an arrow: there
a placeholder may be left that is still to be taken away.

All productions but those that a placeholder goes through. Where a part of one ends at an arrow, the rest is
refused, or leaves the arrow where it is.
-/

namespace EcmaSyntax

open Parse

set_option synthInstance.maxSize 100000000000000

/-! ### Runs with calls in given states -/

/-- All calls of `next` in a run are in states of which something holds. -/
def Admits (c : ParseSetting) (V : ParseState → Prop) {α : Type} (p : Parse α) (s : ParseState) : Prop :=
  ∀ u, CallsAt c p s u → V u

/-- If so, a run that gives a result gives one of which `Q` holds. -/
def EnsuresIn (V : ParseState → Prop) {α : Type} (p : Parse α) (c : ParseSetting) (s : ParseState)
    (Q : α → ParseState → Prop) : Prop :=
  Admits c V p s → Ensures p c s Q

namespace EnsuresIn

variable {V : ParseState → Prop} {c : ParseSetting} {s : ParseState} {α β : Type} {p : Parse α}
  {f : α → Parse β} {P P' : α → ParseState → Prop} {Q : β → ParseState → Prop} {x : α}
  {body : α → Parse (Round α β)} {m : String}

theorem of_ensures (h : Ensures p c s P) : EnsuresIn V p c s P := fun _ => h

theorem pure (h : P x s) : EnsuresIn V (pure x) c s P := of_ensures (.pure h)

theorem mono (h : EnsuresIn V p c s P) (hP : ∀ x t, P x t → P' x t) : EnsuresIn V p c s P' :=
  fun hV => (h hV).mono hP

theorem and (h : EnsuresIn V p c s P) (h' : EnsuresIn V p c s P') : EnsuresIn V p c s fun x t => P x t ∧ P' x t :=
  fun hV => (h hV).and (h' hV)

theorem bind [Stepwise c p] [hstep : Onward c f] (h : EnsuresIn V p c s P)
    (hf : ∀ x t, P x t → EnsuresIn V (f x) c t Q) : EnsuresIn V (p >>= f) c s Q := by
  intro hV
  have hfirst := h fun u hu => hV u (hu.first hstep.out)
  refine .seq fun x t hrun => ?_
  exact hf x t (hfirst x t hrun) fun u hu => hV u (hu.later hrun)

/-- A step of which nothing is known. -/
theorem anyway [Stepwise c p] [Onward c f] (hf : ∀ x t, EnsuresIn V (f x) c t Q) : EnsuresIn V (p >>= f) c s Q :=
  bind (of_ensures (.always fun _ _ => trivial)) fun x t _ => hf x t

/-- A step that gives one result from this state, and leaves another state. -/
theorem step [Stepwise c p] {t : ParseState} (hp : p c s = .ok x t) (hf : EnsuresIn V (f x) c t Q) :
    EnsuresIn V (p >>= f) c s Q := by
  refine fun hV => .seq fun y u hrun => ?_
  cases hp.symm.trans hrun
  exact hf fun v hv => hV v (hv.later hp)

theorem map (g : α → β) [Stepwise c p] (h : EnsuresIn V p c s fun x t => Q (g x) t) :
    EnsuresIn V (g <$> p) c s Q := by
  rw [map_eq_pure_bind]
  exact bind h fun x t hx => pure hx

/-- An invariant of a loop holds where it ends. -/
theorem rounds [hstep : Onward c body]
    (hbody : ∀ x s, P x s → EnsuresIn V (body x) c s (Round.Holds P Q)) (bound : Nat) (x : α)
    (hx : P x s) : EnsuresIn V (EcmaSyntax.rounds body bound x) c s Q := by
  induction bound generalizing x s with
  | zero => exact of_ensures (Ensures.throw_iff.2 trivial)
  | succ bound ih =>
    have : Stepwise c (body x) := hstep.out x
    refine fun hV => .seq fun y t hrun => ?_
    have hy := hbody x s hx (fun u hu => hV u (CallsAt.first hu fun y => by
      cases y with
      | again x' => exact .rounds hstep.out bound x'
      | done b => infer_instance)) y t hrun
    cases y with
    | again x' => exact ih x' hy fun u hu => hV u (CallsAt.later hrun hu)
    | done b => exact .pure hy

theorem loop [hstep : Onward c body] (hx : P x s)
    (hbody : ∀ x s, P x s → EnsuresIn V (body x) c s (Round.Holds P Q)) :
    EnsuresIn V (Parse.loop body x) c s Q := by
  exact step rfl (rounds hbody _ x hx)

theorem within {enter : Context → Context} {leave : Context → Context → Context} [Stepwise c p]
    (h : EnsuresIn V p c { s with context := enter s.context } fun x t =>
      P x { t with context := leave s.context t.context }) : EnsuresIn V (within enter leave p) c s P := by
  refine step (x := s.context) (t := s) rfl (step (x := ()) rfl (bind h fun x t hx => ?_))
  exact step (x := ()) rfl (pure hx)

theorem isolate [Stepwise c p] (h : EnsuresIn V p c { s with context := freshCover s.context } fun x t =>
      P x { t with context :=
        { t.context with
          isBinding := s.context.isBinding
          isTarget := s.context.isTarget
          coverError := s.context.coverError } }) : EnsuresIn V (isolate p) c s P := by
  intro hV
  refine ensures_isolate ((h fun u hu => hV u ?_).mono fun _ _ hx _ => hx)
  refine CallsAt.later rfl (CallsAt.later rfl ?_)
  refine CallsAt.first (CallsAt.first hu fun x => .seq fun b => ?_) fun _ => inferInstance
  split <;> infer_instance

/-! #### Tokens -/

theorem next : EnsuresIn V next c s fun token t => V s ∧ Parse.next c s = .ok token t :=
  fun hV _ _ hrun => ⟨hV s (.next s), hrun⟩

/-- A mark is read in a call of `next`. -/
theorem expect {f : Unit → Parse β} [Onward c f]
    (hf : s.lookahead.lexeme.isMark m → V s → ∀ token t, Parse.next c s = .ok token t → EnsuresIn V (f ()) c t Q) :
    EnsuresIn V (expect m >>= f) c s Q := by
  refine bind (P := fun _ t => s.lookahead.lexeme.isMark m ∧ V s ∧ ∃ token, Parse.next c s = .ok token t) ?_
    fun _ t ht => ?_
  · refine (next.and (of_ensures (ensures_next_eq c s))).bind fun token t ht => ?_
    obtain ⟨⟨hV, hrun⟩, rfl⟩ := ht
    split
    · next hmark => exact pure ⟨hmark, hV, _, hrun⟩
    · exact of_ensures ensures_unexpected
  · obtain ⟨hmark, hV, token, hrun⟩ := ht
    exact hf hmark hV token t hrun

/-- A mark is read in a call of `next`, or nothing is read. -/
theorem accept {f : Bool → Parse β} [Onward c f]
    (hread : s.lookahead.lexeme.isMark m → V s → ∀ token t, Parse.next c s = .ok token t → EnsuresIn V (f true) c t Q)
    (hkept : s.lookahead.lexeme.isMark m = false → EnsuresIn V (f false) c s Q) :
    EnsuresIn V (accept m >>= f) c s Q := by
  refine bind (P := fun x t => if x then s.lookahead.lexeme.isMark m ∧ V s ∧ ∃ token, Parse.next c s = .ok token t
    else s.lookahead.lexeme.isMark m = false ∧ t = s) ?_ fun x t ht => ?_
  · refine step rfl ?_
    split
    · next hmark =>
      have hskip : EnsuresIn V skip c s fun _ t => V s ∧ ∃ token, Parse.next c s = .ok token t := by
        rw [skip, Derives.discard_eq]
        exact next.bind fun token t ht => pure ⟨ht.1, token, ht.2⟩
      exact hskip.bind fun _ t ht => pure ⟨hmark, ht⟩
    · next hmark => exact pure ⟨Bool.eq_false_iff.2 hmark, rfl⟩
  · cases x with
    | true =>
      obtain ⟨hmark, hV, token, hrun⟩ := ht
      exact hread hmark hV token t hrun
    | false =>
      obtain ⟨hmark, rfl⟩ := ht
      exact hkept hmark

end EnsuresIn

/-! ### Parameters with a comma behind them -/

/-- The node that was finished last. -/
def ParseState.latest? (s : ParseState) : Option Node :=
  (s.events.toList.filter (!·.isComment)).getLast?.map Event.taken

/-- A node is the one that was finished last, as far as its number tells. -/
def Node.Latest (n : Node) (s : ParseState) : Prop := ∃ m, s.latest? = some m ∧ m.serial = n.serial

/-- A comma and a closing parenthesis are read after the last one of some parameters, with an arrow behind
them or not. -/
def Trails (c : ParseSetting) (V : ParseState → Prop) (params : List Value) (isArrow : Bool) : Prop :=
  ∃ n u v w, ∃ comma closing : Token, params.getLast? = some (.node n) ∧ n.Latest u ∧
    V u ∧ u.lookahead.lexeme.isMark "," ∧ next c u = .ok comma v ∧
    V v ∧ v.lookahead.lexeme.isMark ")" ∧ next c v = .ok closing w ∧
    w.lookahead.lexeme.isMark "=>" = isArrow

/-! ### Productions -/

/-- A production gives something resolved, or ends at an arrow. With `False` for `q`, the latter is not so. -/
class Resolves (q : Prop) (c : ParseSetting) (V : ParseState → Prop) {α : Type} [Bearer Demand α] (p : Parse α) :
    Prop where
  out (s : ParseState) : EnsuresIn V p c s fun x t =>
    Bearer.all (Trails c V) x ∨ (q ∧ AtArrow c t)

/-- So does a production that goes on with something resolved. -/
class ResolvesWith (q : Prop) (c : ParseSetting) (V : ParseState → Prop) {α β : Type} [Bearer Demand α] [Bearer Demand β]
    (f : α → Parse β) : Prop where
  out (x : α) : Bearer.all (Trails c V) x → Resolves q c V (f x)

namespace Resolves

variable {q : Prop} {c : ParseSetting} {V : ParseState → Prop} {α β γ : Type} [Bearer Demand α] [Bearer Demand β] [Bearer Demand γ]
  {p : Parse α} {f : α → Parse β} {x : α} {t : Token} {n : Node} {body : α → Parse (Round α β)}

theorem anyway (h : Resolves False c V p) : Resolves q c V p :=
  ⟨fun s => (h.out s).mono fun _ _ ht => ht.imp_right fun ht => ht.1.elim⟩

instance [h : Clear (Trails c V) x] : Resolves q c V (pure x) := ⟨fun _ => .pure (.inl h.out)⟩

theorem ofEnsures (h : ∀ s, Ensures p c s fun x _ => Bearer.all (Trails c V) x) : Resolves q c V p :=
  ⟨fun s => .of_ensures ((h s).mono fun _ _ hx => .inl hx)⟩

instance : Resolves q c V (unexpected t : Parse α) := ofEnsures fun _ => ensures_unexpected

instance [hc : Exacting c] [h : Clear (Trails c V) n] : Resolves q c V (finish start n) :=
  ofEnsures fun _ => (ensures_finish_idle hc.idle).mono fun _ _ hn => by
    rw [hn]
    exact h.out.finished _ _

instance [Exacting c] [Clear (Trails c V) n] : Resolves q c V (finishFrom t n) := by
  unfold finishFrom
  infer_instance

/-! #### Sequences and choices -/

instance (priority := 50) [u : Unfolds p p'] [h : Resolves q c V p'] : Resolves q c V p :=
  u.eq ▸ h

instance (priority := low) [h : ∀ x : Borne (Trails c V) α, Resolves q c V (f x.get)] : ResolvesWith q c V f :=
  ⟨fun x hx => h ⟨x, hx⟩⟩

-- Pairs are taken apart, so that a production that matches on one goes on with its parts.
instance {f : α × γ → Parse β} [h : ∀ x : Borne (Trails c V) α, ResolvesWith q c V fun y => f (x.get, y)] :
    ResolvesWith q c V f :=
  ⟨fun x hx => (h ⟨x.1, hx.1⟩).out x.2 hx.2⟩

section

variable [Stepwise c p]

/-- What is only looked at or skipped may be anything. -/
theorem skip [Barren Demand α] (hstep : ∀ x, Stepwise c (f x)) (hf : ∀ x, Resolves q c V (f x)) :
    Resolves q c V (p >>= f) := by
  exact ⟨fun _ => .anyway fun x t => (hf x).out t⟩

theorem seq [hp : Resolves False c V p] (hstep : ∀ x, Stepwise c (f x))
    (hf : ∀ x, Clear (Trails c V) x → Resolves q c V (f x)) : Resolves q c V (p >>= f) := by
  exact ⟨fun s => (hp.out s).bind fun x t hx => (hf x ⟨hx.resolve_right fun h => h.1⟩).out t⟩

/-- A production that ends at an arrow is gone on with there. -/
theorem stall [hp : Resolves True c V p] (hstep : ∀ x, Stepwise c (f x)) (hs : ∀ x, Stalls q c (f x))
    (hf : ∀ x, Clear (Trails c V) x → Resolves q c V (f x)) : Resolves q c V (p >>= f) := by
  refine ⟨fun s => (hp.out s).bind fun x t hx => ?_⟩
  rcases hx with hx | hx
  · exact (hf x ⟨hx⟩).out t
  · exact .of_ensures (((hs x).out hx.2).mono fun _ _ hu => .inr hu)

variable [hstep : Onward c f] [hf : ResolvesWith q c V f]

instance (priority := 1100) [hx : Barren Demand α] : Resolves q c V (p >>= f) :=
  skip hstep.out fun x => hf.out x (hx.all _ x)

instance [hp : Resolves False c V p] : Resolves q c V (p >>= f) :=
  seq hstep.out fun x hx => hf.out x hx.out

instance (priority := 900) [hp : Resolves True c V p] [hs : StallsWith q c f] : Resolves q c V (p >>= f) :=
  stall hstep.out hs.out fun x hx => hf.out x hx.out

end

instance [Stepwise c p] [hp : Resolves q c V p] : Resolves q c V (some <$> p) :=
  ⟨fun s => .map _ <| (hp.out s).mono fun x _ hx => hx.imp_left fun hx y hy => by
    cases hy
    exact hx⟩

instance {b : Prop} [Decidable b] {m n : Parse α} [hm : Resolves q c V m] [hn : Resolves q c V n] :
    Resolves q c V (if b then m else n) := by
  split
  · exact hm
  · exact hn

section

variable [Stepwise c p] [hp : Resolves q c V p]

instance : Resolves q c V (within enter leave p) :=
  ⟨fun _ => .within <| (hp.out _).mono fun _ _ ht => ht.imp_right fun ht => ⟨ht.1, ht.2.inContext _⟩⟩

instance : Resolves q c V (isolate p) :=
  ⟨fun _ => .isolate <| (hp.out _).mono fun _ _ ht => ht.imp_right fun ht => ⟨ht.1, ht.2.inContext _⟩⟩

end

/-! #### Loops -/

theorem again [hx : Clear (Trails c V) x] (hstep : ∀ x, Stepwise c (body x)) (hs : ∀ x, Stalls True c (body x))
    (hbody : ∀ x, Clear (Trails c V) x → Resolves True c V (body x)) : Resolves True c V (loop body x) := by
  refine ⟨fun s => .loop (P := fun x t => Bearer.all (Trails c V) x ∨ AtArrow c t) (.inl hx.out) fun x t ht => ?_⟩
  rcases ht with ht | ht
  · refine ((hbody x ⟨ht⟩).out t).mono fun y u hu => ?_
    cases y with
    | again x' => exact hu.imp_right And.right
    | done b => exact hu
  · refine .of_ensures (((hs x).out ht).mono fun y u hu => ?_)
    cases y with
    | again x' => exact .inr hu.2
    | done b => exact .inr hu

instance [Clear (Trails c V) x] [hstep : Onward c body]
    [hs : StallsWith True c body] [hbody : ResolvesWith True c V body] : Resolves True c V (loop body x) :=
  again hstep.out hs.out fun x hx => hbody.out x hx.out

theorem againSure [hx : Clear (Trails c V) x]
    (hstep : ∀ x, Stepwise c (body x)) (hbody : ∀ x, Clear (Trails c V) x → Resolves False c V (body x)) :
    Resolves q c V (loop body x) := by
  refine ⟨fun s => .loop (P := fun x _ => Bearer.all (Trails c V) x) hx.out fun x t ht => ?_⟩
  refine ((hbody x ⟨ht⟩).out t).mono fun y u hu => ?_
  cases y with
  | again x' => exact hu.resolve_right fun h => h.1
  | done b => exact .inl (hu.resolve_right fun h => h.1)

instance [Clear (Trails c V) x] [hstep : Onward c body]
    [hbody : ResolvesWith False c V body] : Resolves q c V (loop body x) :=
  againSure hstep.out fun x hx => hbody.out x hx.out

section

variable {stop : Parse Bool} {item : Parse α} [Stepwise c stop] [Stepwise c item]

instance [Resolves False c V item] : Resolves q c V (manyUntil stop item) := by
  unfold manyUntil
  infer_instance

variable {b : Bool} [Tells c stop b] [Resolves True c V item]

instance [Settles b true] : Resolves True c V (manyUntil stop item) := by
  unfold manyUntil
  infer_instance

instance [Settles b false] [Stalls True c item] : Resolves True c V (manyUntil stop item) := by
  unfold manyUntil
  infer_instance

end

end Resolves

/-! ### Rules -/

/-- The rules read what is resolved, the one for markup if there is any. -/
class Recur.Resolves (c : ParseSetting) (V : ParseState → Prop) (r : Recur) : Prop where
  assignment : EcmaSyntax.Resolves True c V r.assignment
  exponentiation : EcmaSyntax.Resolves True c V r.exponentiation
  unary : EcmaSyntax.Resolves True c V r.unary
  callChain : EcmaSyntax.Resolves True c V r.callChain
  memberChain : EcmaSyntax.Resolves True c V r.memberChain
  pattern (kind : Option Declares) : EcmaSyntax.Resolves False c V (r.pattern kind)
  statement : EcmaSyntax.Resolves True c V r.statement
  item : EcmaSyntax.Resolves True c V r.item
  element : c.jsx → EcmaSyntax.Resolves False c V r.element

attribute [instance] Recur.Resolves.assignment Recur.Resolves.exponentiation Recur.Resolves.unary
  Recur.Resolves.callChain Recur.Resolves.memberChain Recur.Resolves.statement Recur.Resolves.item

section

variable {q : Prop} {c : ParseSetting} {V : ParseState → Prop} {r : Recur} [h : Recur.Resolves c V r]

instance : Resolves q c V (r.pattern kind) := (h.pattern kind).anyway
instance [hjsx : HasMarkup c] : Resolves q c V r.element := (h.element hjsx.out).anyway

end

namespace Grammar

variable {q : Prop} {c : ParseSetting} {V : ParseState → Prop} {r : Recur} [Exacting c] [Recur.Stepwise c r]
  [Recur.Stalls c r] [Recur.Resolves c V r] {kind : Option Declares} {start : Mark} {e : Node}

/-! ### Names, keys and binding patterns -/

instance : Resolves q c V (propertyKey r) := by
  refine .skip (fun start => .seq fun t => ?_) fun start => .skip (fun t => ?_) fun t => ?_
  all_goals split <;> infer_instance

instance : Resolves q c V (pattern r kind) := inferInstance

/-! ### Functions -/

instance : Resolves True c V (directives r) := by
  refine .again (fun x => .seq fun t => ?step) (fun x => ?stalls) fun x hx =>
    .skip (fun t => ?stepClear) fun t => ?resolves
  all_goals obtain ⟨body, octal⟩ := x
  case stalls => infer_instance
  case step | stepClear =>
    split
    · refine .seq fun statement => .seq fun _ => ?_
      split
      · cases octal <;> infer_instance
      · infer_instance
    · infer_instance
  case resolves =>
    have hbody : Clear (Trails c V) body := ⟨hx.out.1⟩
    split
    · refine .stall (fun statement => .seq fun _ => ?_)
        (fun statement => .seq fun _ => ?_) fun statement hstatement =>
          .skip (fun _ => ?_) fun _ => ?_
      all_goals
        split
        · cases octal <;> infer_instance
        · infer_instance
    · infer_instance

section

variable {f : Formals} {name : Option (Token × Cause)} {α : Type} [Bearer Demand α] {p : Parse α}

instance : Resolves q c V (formalParameters r name) := inferInstance

instance [∀ f, Stepwise c (check f)] : Resolves q c V (method r check) :=
  inferInstance
instance : Resolves q c V (plainMethod r) := by unfold plainMethod plainMethodNode; infer_instance
instance : Resolves q c V (getter r) := by unfold getter plainMethodNode; infer_instance
instance : Resolves q c V (setter r) := by unfold setter plainMethodNode; infer_instance

end

instance : Resolves q c V (functionDeclaration r nameIsOptional) :=
  inferInstance

/-! ### Classes -/

section

variable {m : Member} [Clear (Trails c V) m] {hasConstructor : Bool}

instance : Resolves True c V (memberByToken r start m) := by
  unfold memberByToken
  all_goals
    split <;> infer_instance

end

instance : Resolves True c V (classElement r hasConstructor) :=
  inferInstance
instance : Resolves q c V (classDeclaration r nameIsOptional) :=
  inferInstance

/-! ### Markup -/

section

variable [HasMarkup c]

instance {e : OpenElement} [Clear (Trails c V) e] : Resolves q c V (elementRest r e) := by
  refine .againSure (fun x => .seq fun atEnd => ?step) fun x hx =>
    .skip (fun atEnd => ?stepClear) fun atEnd => ?resolves
  all_goals obtain ⟨e, outer⟩ := x
  case step | stepClear => cases outer <;> infer_instance
  case resolves =>
    have he : Clear (Trails c V) e := ⟨hx.out.1⟩
    cases outer with
    | nil => infer_instance
    | cons parent outer =>
      have hparent : Clear (Trails c V) parent := ⟨hx.out.2 _ List.mem_cons_self⟩
      have houter : Clear (Trails c V) outer := ⟨fun x hx' => hx.out.2 x (List.mem_cons_of_mem _ hx')⟩
      infer_instance

end

/-! ### Primary expressions -/

instance : Resolves True c V (objectProperty r hasProto) := by
  refine .skip (fun start => .seq fun h => .seq fun t => ?step) fun start =>
    .seq (fun h => .seq fun t => ?stepStart) fun h hh =>
      .skip (fun t => ?stepHead) fun t => ?resolves
  all_goals dsimp only
  case step | stepStart | stepHead => cases h.key <;> infer_instance
  case resolves =>
    cases hkey : h.key with
    | none => infer_instance
    | some key =>
      have : Clear (Trails c V) key := ⟨hh.out key hkey⟩
      infer_instance

instance : Resolves q c V templateChunk := by
  refine .skip (fun start => .seq fun t => ?_) fun start => .skip (fun t => ?_) fun t => ?_
  all_goals split <;> infer_instance

instance : Resolves q c V templateElement := by rw [templateElement_eq]; infer_instance

instance : Resolves q c V (keywordExpression r word) := inferInstance

/-! ### Accesses and calls -/

instance : Resolves True c V (newExpression r) := inferInstance

section

variable [Clear (Trails c V) e] {allowCall optional : Bool}

instance : Resolves q c V (optionalLink r start allowCall e) := inferInstance
instance : Resolves q c V (memberLink r start allowCall e) := inferInstance

end

end Grammar

end EcmaSyntax
