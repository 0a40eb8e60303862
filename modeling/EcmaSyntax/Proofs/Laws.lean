import EcmaSyntax.Proofs.Run
import EcmaSyntax.Proofs.Unfolds

/-!
# Laws of productions

Most of what is known of all runs of a production is known step by step: it holds of a sequence if it holds of
the parts. A `Law` is such a property. Sequences, choices and loops are gone through here for all laws, and so
are the steps that read tokens, if a law is about the context and the log only. What is left to each law are
its own steps.
-/

namespace EcmaSyntax

open Parse Grammar

set_option synthInstance.maxSize 100000000000000

/-- A property of productions that sequences keep. -/
structure Law where
  Holds {α : Type} : Parse α → Prop
  pure {α : Type} (x : α) : Holds (Pure.pure x)
  bind {α β : Type} {p : Parse α} {f : α → Parse β} : Holds p → (∀ x, Holds (f x)) → Holds (p >>= f)

/-- A production obeys a law. -/
class Obeys (L : Law) {α : Type} (p : Parse α) : Prop where
  out : L.Holds p

/-- So does one that goes on with a result. -/
class ObeysAll (L : Law) {α β : Type} (f : α → Parse β) : Prop where
  out (x : α) : Obeys L (f x)

namespace Obeys

variable {L : Law} {α β γ : Type} {p : Parse α} {f : α → Parse β} {body : α → Parse (Round α β)}

instance (priority := low) [h : ∀ x, Obeys L (f x)] : ObeysAll L f := ⟨h⟩

-- Pairs are taken apart, so that a production that matches on one goes on with its parts.
instance {f : α × γ → Parse β} [h : ∀ x, ObeysAll L fun y => f (x, y)] : ObeysAll L f :=
  ⟨fun x => (h x.1).out x.2⟩

theorem seq [hp : Obeys L p] (hf : ∀ x, Obeys L (f x)) : Obeys L (p >>= f) :=
  ⟨L.bind hp.out fun x => (hf x).out⟩

instance [Obeys L p] [hf : ObeysAll L f] : Obeys L (p >>= f) := seq hf.out

instance (x : α) : Obeys L (pure x) := ⟨L.pure x⟩

instance {f : α → β} [Obeys L p] : Obeys L (f <$> p) := by
  rw [map_eq_pure_bind]
  infer_instance

instance [Obeys L p] : Obeys L (discard p) := by
  rw [discard, LawfulFunctor.map_const, Function.comp_apply]
  infer_instance

instance [Decidable q] [hp : Obeys L p] [hp' : Obeys L p'] : Obeys L (if q then p else p') := by
  split
  · exact hp
  · exact hp'

/-! ### Loops -/

theorem rounds [Obeys L (throw .exhausted : Parse β)] (hbody : ∀ x, Obeys L (body x)) (bound : Nat) (x : α) :
    Obeys L (EcmaSyntax.rounds body bound x) := by
  induction bound generalizing x with
  | zero => exact inferInstanceAs (Obeys L (throw Failure.exhausted))
  | succ bound ih =>
    refine seq fun y => ?_
    cases y <;> infer_instance

theorem forIn {body : γ → α → Parse (ForInStep α)} (hbody : ∀ x a, Obeys L (body x a)) (l : List γ) (a : α) :
    Obeys L (ForIn.forIn l a body) := by
  induction l generalizing a with
  | nil =>
    rw [List.forIn_nil]
    infer_instance
  | cons x l ih =>
    rw [List.forIn_cons]
    refine seq fun y => ?_
    cases y <;> infer_instance

instance {body : γ → α → Parse (ForInStep α)} {l : List γ} [h : ∀ x, ObeysAll L (body x)] :
    Obeys L (ForIn.forIn l a body) :=
  forIn (fun x => (h x).out) l a

instance mapM [∀ x, Obeys L (f x)] {l : List α} : Obeys L (l.mapM f) := by
  induction l with
  | nil =>
    rw [List.mapM_nil]
    infer_instance
  | cons x l ih =>
    rw [List.mapM_cons]
    infer_instance

end Obeys

/-! ### Steps -/

/-- A production may fail, or look at the state and the setting, whatever the law. -/
class Law.Passive (L : Law) : Prop where
  throw {α : Type} (e : Failure) : L.Holds (throw e : Parse α)
  get : L.Holds get
  read : L.Holds read

/-- A law that is about the context and the log only. -/
class Law.Contextual (L : Law) : Prop extends L.Passive where
  scan {α : Type} (m : Scan α) : L.Holds (scan m)
  modify : (∀ s, (g s).context = s.context ∧ (g s).events = s.events) → L.Holds (modify g)

/-- Where a production ends is related to where it started. -/
def Law.relating (R : ParseState → ParseState → Prop) (hrefl : ∀ s, R s s)
    (htrans : ∀ s t u, R s t → R t u → R s u) : Law where
  Holds p := ∀ c s, Ensures p c s fun _ t => R s t
  pure _ _ s := .pure (hrefl s)
  bind hp hf c s := (hp c s).bind fun x t ht => (hf x c t).mono fun _ u => htrans s t u ht

theorem Law.contextual_relating {R : ParseState → ParseState → Prop} {hrefl : ∀ s, R s s}
    {htrans : ∀ s t u, R s t → R t u → R s u}
    (h : ∀ s t, t.context = s.context → t.events = s.events → R s t) : (Law.relating R hrefl htrans).Contextual where
  throw _ _ _ := Ensures.throw_iff.2 trivial
  get _ s := Ensures.step_iff.2 (hrefl s)
  read _ s := Ensures.step_iff.2 (hrefl s)
  scan _ _ s := Ensures.scan_iff.2 (.always fun _ _ => h s _ rfl rfl)
  modify hg _ s := .modify (h s _ (hg s).1 (hg s).2)

namespace Obeys

variable {L : Law}

section

variable [h : L.Passive]

instance : Obeys L (throw e : Parse α) := ⟨h.throw e⟩
instance : Obeys L (fail e : Parse α) := ⟨h.throw _⟩
instance : Obeys L get := ⟨h.get⟩
instance : Obeys L read := ⟨h.read⟩

instance {body : α → Parse (Round α β)} [h : ObeysAll L body] : Obeys L (loop body x) :=
  seq fun _ => rounds h.out _ _

instance [Obeys L p] [Obeys L q] : Obeys L (manyUntil p q) := by
  unfold manyUntil
  infer_instance

end

section

variable [h : L.Contextual]

instance : Obeys L (scan m) := ⟨h.scan m⟩

theorem ofModify (hg : ∀ s, (g s).context = s.context ∧ (g s).events = s.events) : Obeys L (modify g) := ⟨h.modify hg⟩

instance : Obeys L (record t) := ofModify fun _ => ⟨rfl, rfl⟩
instance : Obeys L unrecord := ofModify fun _ => ⟨rfl, rfl⟩
instance : Obeys L markLast := ofModify fun _ => ⟨rfl, rfl⟩
instance : Obeys L (setLookahead t) := ofModify fun _ => ⟨rfl, rfl⟩
instance : Obeys L peekBeyond := ⟨h.scan _⟩

instance : Obeys L (forgive e) := by
  have hrecord : Obeys L (modify fun s =>
      { s with scan := { s.scan with errors := s.scan.errors.push e } } : Parse Unit) :=
    ofModify fun _ => ⟨rfl, rfl⟩
  unfold forgive
  infer_instance

variable [∀ (comment : Comment) (source : Source), Obeys L (log true (comment.node source) comment.span)]

instance : Obeys L passTrivia := by unfold passTrivia; infer_instance

instance : Obeys L next := by
  have hstart : Obeys L (modify fun s => if s.scan.cursor.index = s.startMark.index then s
      else { s with startMark := s.scan.cursor.mark } : Parse Unit) :=
    ofModify fun s => by split <;> exact ⟨rfl, rfl⟩
  have hseen (found : Token) (newline : Bool) :
      Obeys L (modify fun s => { s with lookahead := found, newline } : Parse Unit) :=
    ofModify fun _ => ⟨rfl, rfl⟩
  unfold next peek strict context
  infer_instance

instance : Obeys L semicolon := by
  have hlast : Obeys L (modify fun s => { s with lastMark := s.startMark } : Parse Unit) :=
    ofModify fun _ => ⟨rfl, rfl⟩
  unfold semicolon accept sees skip unexpected refuseAt errorAt strict context peek
  infer_instance

end

/-! ### Productions that are more than a sequence -/

section

variable [∀ cause, Obeys L (tolerate cause)]

instance : Obeys L (checkSetter f) := by
  unfold checkSetter
  split <;> infer_instance

instance : Obeys L (checkCaught seen names) := by
  induction names generalizing seen <;> unfold checkCaught <;> infer_instance

end

instance [∀ t, Obeys L (errorAt t cause)] [Obeys L (errorBehind cause)] : Obeys L (errorFor who cause) := by
  unfold errorFor
  split <;> infer_instance

section

variable [Obeys L peek]

instance [∀ t, Obeys L (unexpected t : Parse PUnit)] : Obeys L (coverParameter isAsync param) := by
  unfold coverParameter
  split
  · split
    · split <;> infer_instance
    · infer_instance
  · infer_instance

instance [Obeys L read] : Obeys L startsExpression := by
  refine seq fun t => ?_
  split <;> infer_instance

end

section

variable [∀ (p : Pending) lineStart right, Obeys L (p.complete lineStart right)]

instance : Obeys L (reduceTo prec stack right) := by
  induction stack generalizing right <;> unfold reduceTo <;> infer_instance

instance : Obeys L (reduceAll stack right) := by
  induction stack generalizing right <;> unfold reduceAll <;> infer_instance

end

end Obeys

end EcmaSyntax
