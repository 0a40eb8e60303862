import EcmaSyntax.Proofs.Arrows.Parameters
import EcmaSyntax.Proofs.Arrows.Rules

/-!
# Placeholders on their way to an arrow

A placeholder for parameters is made deep within an expression, and handed on until an arrow is looked for.
`Node.Held` says what is known of an expression meanwhile: a placeholder holds parameters that were checked or
have a comma behind them, and any other expression is the node that was finished last. `Hands` says that a
production ends with an expression of which this is known.
-/

namespace EcmaSyntax

open Parse

set_option synthInstance.maxSize 100000000000000

variable {start : Mark} {a : Value} {p' : Parse Node}

/-! ### The node that was finished last -/

namespace ParseState

variable {s t : ParseState}

theorem latest?_congr (h : t.events = s.events) : t.latest? = s.latest? := by rw [latest?, latest?, h]

/-- Comments do not count. -/
theorem latest?_of_comments {es : List Event} (hes : ∀ e ∈ es, e.isComment) (h : t.events = s.events ++ es.toArray) :
    t.latest? = s.latest? := by
  have hnone : es.filter (!·.isComment) = [] := List.filter_eq_nil_iff.2 fun e he => by simp [hes e he]
  simp [latest?, h, hnone]

end ParseState

namespace Node.Latest

variable {n m : Node} {s t : ParseState}

theorem of_eq (h : n.Latest s) (heq : t.latest? = s.latest?) : n.Latest t := by rwa [Node.Latest, heq]

theorem of_serial (h : n.Latest s) (heq : m.serial = n.serial) : m.Latest s := by rwa [Node.Latest, heq]

end Node.Latest

namespace Parse

variable {c : ParseSetting} {s : ParseState} {n : Node}

/-- A finished node is what was made, with its place, and it is the last one. -/
theorem ensures_finish_latest (hc : c.delegate = .idle) : Ensures (finish start n) c s fun m t =>
    m.Latest t ∧ ∃ serial span, m = { n with serial, span } := by
  simp only [Ensures.step_iff, hc, Event.taken_idle]
  exact ⟨⟨_, by simp [ParseState.latest?, Event.make]; rfl, rfl⟩, _, _, rfl⟩

/-- No node is finished while a token is read. -/
theorem ensures_next_latest : Ensures next c s fun _ t => t.latest? = s.latest? := by
  refine ensures_next (.always fun _ t u hu => .always fun found t' newline tokens => ?_)
  obtain ⟨es, hes, rfl⟩ := hu
  exact ParseState.latest?_of_comments hes rfl

end Parse

/-! ### What is handed on -/

/-- What is known of an expression that has just been read. -/
structure Node.Held (c : ParseSetting) (V : ParseState → Prop) (n : Node) (t : ParseState) : Prop where
  latest : n.is .arrowParameters = false → n.Latest t
  name : n.is .identifier → (Value.node n).Resolved (Trails c V)
  params : n.is .arrowParameters → ∀ v ∈ (n.get "params").items, v.Resolved (Trails c V)
  checked : n.is .arrowParameters → n.has "isAsync" = true
    ∨ Trails c V (n.get "params").items (t.lookahead.lexeme.isMark "=>")
    ∨ t.lookahead.lexeme.isMark "=>" ∧ Value.BindAll (n.get "params").items

/-- Is this neither the kind of names nor that of placeholders? -/
@[reducible] def Kind.isSundry : Kind → Bool
  | .identifier | .arrowParameters => false
  | _ => true

/-- A production ends with an expression of which something is known. -/
class Hands (c : ParseSetting) (V : ParseState → Prop) (p : Parse Node) : Prop where
  out (s : ParseState) : EnsuresIn V p c s fun n t => n.Held c V t

/-- So does a production that goes on with an expression of which it is known. -/
class HandsOn (c : ParseSetting) (V : ParseState → Prop) (n : Node) (p : Parse Node) : Prop where
  out (s : ParseState) : n.Held c V s → EnsuresIn V p c s fun n t => n.Held c V t

variable {c : ParseSetting} {V : ParseState → Prop} {n : Node}

namespace Node.Held

variable {s t : ParseState}

theorem of_kept (h : n.Held c V s) (hk : Kept s t) : n.Held c V t where
  latest hn := (h.latest hn).of_eq (ParseState.latest?_congr hk.events)
  name := h.name
  params := h.params
  checked hn := by
    rw [hk.lookahead]
    exact h.checked hn

theorem inContext (h : n.Held c V s) (b : Context) : n.Held c V { s with context := b } :=
  h.of_kept ⟨rfl, rfl, rfl, rfl, rfl⟩

/-- Nothing but that it is the last one is to be known of an expression that is no placeholder. -/
theorem of_latest (hn : n.is .arrowParameters = false) (hlatest : n.Latest t)
    (hname : n.is .identifier → (Value.node n).Resolved (Trails c V)) : n.Held c V t where
  latest _ := hlatest
  name := hname
  params h := by rw [hn] at h; cases h
  checked h := by rw [hn] at h; cases h

/-- After `async`, parameters are not checked. -/
theorem ofAsync (ha : ∀ v ∈ a.items, v.Resolved (Trails c V)) : (Node.asyncArrowParameters a).Held c V t where
  latest h := by cases h
  name h := by cases h
  params _ := ha
  checked _ := .inl rfl

/-- Reading a token changes nothing, except for a placeholder. -/
theorem of_next (h : n.Held c V s) (hn : n.is .arrowParameters = false)
    (hrun : next c s = .ok token t) : n.Held c V t :=
  of_latest hn ((h.latest hn).of_eq (ensures_next_latest token t hrun)) h.name

end Node.Held

/-! ### Rules -/

namespace Hands

variable {α : Type} {p : Parse Node} {q : Parse Node} {t : Token} {f : α → Parse Node}

theorem ofEnsures (h : ∀ s, Ensures p c s fun n t => n.Held c V t) : Hands c V p := ⟨fun s => .of_ensures (h s)⟩

instance (priority := 50) [u : Unfolds p q] [h : Hands c V q] : Hands c V p := u.eq ▸ h

instance : Hands c V (unexpected t) := ofEnsures fun _ => ensures_unexpected

instance [hc : Exacting c] [hn : Among Kind.isSundry n] : Hands c V (finish start n) := by
  refine ofEnsures fun s => (ensures_finish_latest hc.idle).mono fun m t hm => ?_
  obtain ⟨hlatest, serial, span, rfl⟩ := hm
  have hkinds := Node.not_isAny_iff.1 (hn.not_isAny (l := [.identifier, .arrowParameters]) (by decide))
  refine .of_latest (hkinds .arrowParameters (by simp)) hlatest fun hname => ?_
  exact absurd ((hkinds .identifier (by simp)).symm.trans hname) Bool.false_ne_true

instance [hc : Exacting c] [h : Clear (Trails c V) (Node.identifier a)] :
    Hands c V (finish start (.identifier a)) := by
  refine ofEnsures fun s => (ensures_finish_latest hc.idle).mono fun m t hm => ?_
  obtain ⟨hlatest, serial, span, rfl⟩ := hm
  exact .of_latest rfl hlatest fun _ => h.out.finished _ _

instance [h : Hands c V (finish (t.startMark 0) n)] : Hands c V (finishFrom t n) := h

/-- What is done with an expression, if something is known of it. -/
instance (priority := high) {f : Node → Parse Node} [Stepwise c q] [Onward c f]
    [hq : Hands c V q] [hf : ∀ x, HandsOn c V x (f x)] : Hands c V (q >>= f) :=
  ⟨fun s => (hq.out s).bind fun x t hx => (hf x).out t hx⟩

instance {q : Parse α} [Stepwise c q] [Onward c f] [hf : ∀ x, Hands c V (f x)] : Hands c V (q >>= f) :=
  ⟨fun _ => .anyway fun x t => (hf x).out t⟩

instance (priority := low) [Bearer Demand α] {q : Parse α} [Stepwise c q] [Onward c f]
    [hq : Resolves False c V q] [hf : ∀ x : Borne (Trails c V) α, Hands c V (f x.get)] : Hands c V (q >>= f) :=
  ⟨fun s => (hq.out s).bind fun x t hx => (hf ⟨x, hx.resolve_right fun h => h.1⟩).out t⟩

instance [h : Clear (Trails c V) a] : Hands c V (pure (.asyncArrowParameters a)) :=
  ⟨fun _ => .pure (.ofAsync h.out.items)⟩

instance {q : Prop} [Decidable q] [hp : Hands c V p] [hp' : Hands c V p'] :
    Hands c V (if q then p else p') := by
  split
  · exact hp
  · exact hp'

instance [Stepwise c p] [hp : Hands c V p] : Hands c V (within enter leave p) :=
  ⟨fun _ => .within <| (hp.out _).mono fun _ _ ht => ht.inContext _⟩

end Hands

namespace HandsOn

variable {α : Type} {p : Parse Node}

instance (priority := low) [hp : Hands c V p] : HandsOn c V n p := ⟨fun s _ => hp.out s⟩

instance : HandsOn c V n (pure n) := ⟨fun _ hs => .pure hs⟩

/-- Nothing is forgotten in a step that reads nothing. -/
instance (priority := high) [Stepwise c q] [Onward c f] [hq : Quiet true q]
    [hf : ∀ x, HandsOn c V n (f x)] : HandsOn c V n (q >>= f) :=
  ⟨fun s hs => EnsuresIn.bind (.of_ensures (hq.kept c s)) fun x t ht => (hf x).out t (hs.of_kept ht)⟩

instance (priority := high) {f : Token → Parse Node} [hf : ∀ x, HandsOn c V n (f x)] : HandsOn c V n (peek >>= f) :=
  ⟨fun s hs => .step rfl ((hf _).out s hs)⟩

instance [h : Hands c V p] : Hands c V (if true = true then p else p') := h
instance [h : HandsOn c V n p'] : HandsOn c V n (if false = true then p else p') := h

/-- A token is read or not. -/
instance (priority := high) {f : Bool → Parse Node} [Onward c f] [ht : Hands c V (f true)]
    [hf : HandsOn c V n (f false)] : HandsOn c V n (accept m >>= f) :=
  ⟨fun s hs => .accept (fun _ _ _ t _ => ht.out t) fun _ => hf.out s hs⟩

instance [Decidable q] [hp : HandsOn c V n p] [hp' : HandsOn c V n p'] :
    HandsOn c V n (if q then p else p') := by
  split
  · exact hp
  · exact hp'

end HandsOn

/-- What is read as an assignment is no placeholder. -/
class Recur.Hands (c : ParseSetting) (V : ParseState → Prop) (r : Recur) : Prop where
  assignment (s : ParseState) : EnsuresIn V r.assignment c s fun n t =>
    n.is .arrowParameters = false ∧ n.Held c V t

namespace Grammar

variable {r : Recur} [Exacting c] [Recur.Stepwise c r] {right : Operand}

/-! ### Primary expressions -/

instance [HasMarkup c] : Hands c V (markupRoot r) := by
  have hclose (n : Node) (hn : n.isAny bindable) : HandsOn c V n (leaveMarkup >>= fun _ => pure n) := by
    refine ⟨fun s hs => EnsuresIn.bind (.of_ensures ?_) fun _ t ht => .pure ht⟩
    exact Ensures.discard_iff.2 fun token t hrun => hs.of_next (Node.not_is_of_isAny hn (by decide)) hrun
  have hnames : Names (element r) := by
    unfold element
    infer_instance
  refine ⟨fun s => .anyway fun _ _ => .anyway fun _ t => ?_⟩
  refine ((Hands.out t).and (.of_ensures (hnames.out Exacting.idle))).bind fun n u hn => ?_
  exact (hclose n hn.2).out u hn.1

variable {s : ParseState} {e : Node} {optional allowCall isAsync : Bool}

omit [Exacting c] [Recur.Stepwise c r] in
/-- A round of a loop that goes on with what a production gives. -/
theorem ensuresIn_again [Stepwise c p] [hp : Hands c V p]
    {Q : α → ParseState → Prop} : EnsuresIn V (p >>= fun n => pure (.again n)) c s
      (Round.Holds (fun n t => n.Held c V t) Q) :=
  (hp.out s).bind fun _ _ ht => .pure ht

theorem ensuresIn_memberLink (hs : e.Held c V s) : EnsuresIn V (memberLink r start allowCall e) c s
      (Round.Holds (fun n t => n.Held c V t) fun n t => n.Held c V t) := by
  refine .step rfl ?_
  split
  · exact .anyway fun _ _ => .anyway fun _ _ => ensuresIn_again
  refine .step rfl (.step rfl ?_)
  split
  · exact ensuresIn_again
  refine .step (x := s.lookahead.lexeme.isMark "[") rfl ?_
  split
  · exact .anyway fun _ _ => ensuresIn_again
  refine .step rfl ?_
  split
  · exact .anyway fun _ _ => ensuresIn_again
  · exact .pure hs

/-! ### Operators -/

section

variable [Hands c V (callChain r)]

omit [Recur.Stepwise c r] [Hands c V (callChain r)] in
theorem ensuresIn_complete {p : Pending} :
    EnsuresIn V (p.complete lineStart right) c s fun x t => x.node.Held c V t :=
  (Hands.out s).bind fun _ _ hn => .pure hn

omit [Recur.Stepwise c r] [Hands c V (callChain r)] in
theorem handsOn_reduceAll : HandsOn c V right.node (reduceAll stack right) := by
  induction stack generalizing right with
  | nil => exact inferInstanceAs (HandsOn c V right.node (pure right.node))
  | cons p stack ih => exact ⟨fun s _ => ensuresIn_complete.bind fun x t hx => ih.out t hx⟩

/-- An operator waits as long as operands are read, so a node is finished last. -/
instance : Hands c V (binaryExpression r) := by
  refine ⟨fun s => .step rfl ((Hands.out s).bind fun e t he => ?_)⟩
  refine .step rfl ?_
  split
  · exact .pure he
  refine .anyway fun _ u => .anyway fun x v => ?_
  refine EnsuresIn.bind (P := fun x _ => x.1 ≠ []) (.of_ensures ?_) fun y w hy => ?_
  · refine ensures_loop (I := fun x _ => x.1 ≠ []) (List.cons_ne_nil _ _) fun y w hy => ?_
    refine .anyway fun prec _ => ?_
    split
    · exact .pure hy
    · exact .anyway fun _ _ => .anyway fun _ _ => .pure (List.cons_ne_nil _ _)
  · obtain ⟨stack, right⟩ := y
    cases stack with
    | nil => exact absurd rfl hy
    | cons p stack => exact ensuresIn_complete.bind fun x t hx => handsOn_reduceAll.out t hx

end

end Grammar

end EcmaSyntax
