import EcmaSyntax.Proofs.Comparison
import EcmaSyntax.Proofs.Scanning
import EcmaSyntax.Proofs.Soundness

/-!
# The calls that a run makes

`Calls c p s l` says that a run of `p` from `s` comes down to calls of `next`, made in the states `l` in
this order, and to the steps between them; it may break off with a failure.

`Stepwise` is the class of productions whose runs are all made in this way, which is to say that their
runs compare with themselves. What is true at each call is shown with an invariant, which may also speak
of the call before it (`Calls.linked`).
-/

namespace EcmaSyntax

open Parse

set_option synthInstance.maxSize 100000000000000

variable {c : ParseSetting} {s : ParseState} {l : List ParseState}

/-- Between two calls the lookahead stays as it is, or it is read again, and is neither a mark nor a word. -/
theorem Between.ensures_lookahead (h : Between c s p) : Ensures p c s fun _ t => t.lookahead = s.lookahead
      ∨ t.lookahead.lexeme.isPunctuator = false ∧ t.lookahead.lexeme.isIdentifierName = false := by
  cases h with
  | quiet hq => exact (hq.kept c s).mono fun _ _ ht => .inl ht.lookahead
  | read => exact Ensures.step_iff.2 (.inl rfl)
  | log =>
    rw [Ensures.step_iff]
    exact .inl rfl
  | markLast | close | markStart | record => exact .modify (.inl rfl)
  | scan => exact Ensures.scan_iff.2 (.always fun _ _ => .inl rfl)
  | rereadTemplate =>
    simp only [Parse.rereadTemplate, Ensures.bind_iff, Ensures.step_iff, Ensures.ite_iff]
    refine ⟨fun _ => .inl trivial, fun _ => .always fun _ t => ⟨fun h => .inr ?_, fun _ => ensures_unexpected⟩⟩
    revert h
    cases t.lookahead.lexeme <;> simp [Lexeme.isTemplate, Lexeme.isPunctuator, Lexeme.isIdentifierName]
  | rereadRegex =>
    simp only [Parse.rereadRegex, Scan.regex, Ensures.bind_iff, Ensures.scan_iff, Ensures.step_iff]
    exact .always fun _ _ => .always fun _ _ => .always fun _ _ => .always fun _ _ => .inr ⟨rfl, rfl⟩

/-- A run calls `next` in the states of a list. -/
inductive Calls (c : ParseSetting) : {α : Type} → Parse α → ParseState → List ParseState → Prop
  | step {α : Type} {p : Parse α} {s : ParseState} : Between c s p → Calls c p s []
  | next {s : ParseState} : Calls c Parse.next s [s]
  | bind {α β : Type} {p : Parse α} {f : α → Parse β} {s t : ParseState} {x : α} {l l' : List ParseState} :
    p c s = .ok x t → Calls c p s l → Calls c (f x) t l' → Calls c (p >>= f) s (l ++ l')
  | stop {α β : Type} {p : Parse α} {f : α → Parse β} {s t : ParseState} {e : Failure} {l : List ParseState} :
    p c s = .error e t → Calls c p s l → Calls c (p >>= f) s l

/-! ### Invariants -/

/-- Each state of a list is related to the one before it, the first one to a given one. -/
def Linked (I : Option ParseState → ParseState → Prop) : Option ParseState → List ParseState → Prop
  | _, [] => True
  | o, s :: l => I o s ∧ Linked I (some s) l

namespace Linked

variable {I : Option ParseState → ParseState → Prop} {o : Option ParseState}

theorem append_iff : Linked I o (l ++ l') ↔ Linked I o l ∧ Linked I (l.getLast?.or o) l' := by
  induction l generalizing o with
  | nil => simp [Linked]
  | cons s l ih => simp [Linked, ih, and_assoc, List.getLast?_cons]

theorem of_append (h : Linked I o (before ++ s :: after)) : I (before.getLast?.or o) s :=
  (append_iff.1 h).2.1

theorem of_mem (h : Linked I o l) (hs : s ∈ l) : ∃ o, I o s := by
  obtain ⟨before, after, rfl⟩ := List.append_of_mem hs
  exact ⟨_, h.of_append⟩

end Linked

namespace Calls

variable {α β : Type} {p : Parse α}

/-- What all steps and all calls preserve holds at each call of a run, and where it ends. `I o s` is
said of a state `s` after the call in the state `o`, if there is one. -/
theorem linked (hstep : ∀ {γ : Type} {q : Parse γ} {o : Option ParseState} {s : ParseState},
      Between c s q → I o s → Ensures q c s fun _ t => I o t)
    (hnext : ∀ {o : Option ParseState} {s : ParseState}, I o s →
      Ensures Parse.next c s fun _ t => I (some s) t) (h : Calls c p s l) :
    ∀ o, I o s → Linked I o l ∧ Ensures p c s fun _ t => I (l.getLast?.or o) t := by
  induction h with
  | step h => exact fun o hs => ⟨trivial, hstep h hs⟩
  | next => exact fun o hs => ⟨⟨hs, trivial⟩, hnext hs⟩
  | bind hrun _ _ ihp ihf =>
    intro o hs
    obtain ⟨hl, hp⟩ := ihp o hs
    obtain ⟨hl', hf⟩ := ihf _ (hp _ _ hrun)
    refine ⟨Linked.append_iff.2 ⟨hl, hl'⟩, fun y u hu => ?_⟩
    rw [bind_apply, hrun] at hu
    rw [List.getLast?_append, Option.or_assoc]
    exact hf y u hu
  | stop hrun _ ih =>
    intro o hs
    refine ⟨(ih o hs).1, fun y u hu => ?_⟩
    rw [bind_apply, hrun] at hu
    cases hu

/-- A run goes on from where its first part ends. -/
theorem exists_bind (hp : ∃ l, Calls c p s l)
    (hf : ∀ x t, p c s = .ok x t → ∃ l, Calls c (f x) t l) : ∃ l, Calls c (p >>= f) s l := by
  obtain ⟨l, hl⟩ := hp
  cases hrun : p c s with
  | ok x t =>
    obtain ⟨l', hl'⟩ := hf x t hrun
    exact ⟨_, hl.bind hrun hl'⟩
  | error e t => exact ⟨l, hl.stop hrun⟩

end Calls

/-! ### Productions -/

/-- A run is made of steps and calls. -/
def Comparison.calls : Comparison where
  Rel c s _ p _ := ∃ l, Calls c p s l
  step h := ⟨[], .step h⟩
  next := ⟨_, .next⟩
  bind := Calls.exists_bind

/-- All runs of a production are made of steps and calls. -/
abbrev Stepwise (c : ParseSetting) {α : Type} (p : Parse α) : Prop := Compares .calls c p p

theorem Stepwise.out [h : Stepwise c p] (s : ParseState) : ∃ l, Calls c p s l :=
  Compares.out (K := .calls) (q := p) s

/-- So are those of a production that goes on with a result. -/
abbrev Onward (c : ParseSetting) {α β : Type} (f : α → Parse β) : Prop := ComparesAll .calls c f f

/-- The rules are made of steps and calls, those for markup if there is any. -/
abbrev Recur.Stepwise (c : ParseSetting) (r : Recur) : Prop := Recur.Compares .calls c r r

/-! ### Single calls -/

/-- A run from a state calls `next` in another one. -/
def CallsAt (c : ParseSetting) {α : Type} (p : Parse α) (s u : ParseState) : Prop :=
  ∃ before after, Calls c p s (before ++ u :: after)

namespace CallsAt

variable {α β : Type} {p : Parse α} {f : α → Parse β} {t u : ParseState}

theorem next (s : ParseState) : CallsAt c Parse.next s s := ⟨[], [], .next⟩

/-- A call of the first part of a run. -/
theorem first (h : CallsAt c p s u) (hf : ∀ x, Stepwise c (f x)) : CallsAt c (p >>= f) s u := by
  obtain ⟨before, after, hcalls⟩ := h
  cases hrun : p c s with
  | ok x t =>
    obtain ⟨l, hl⟩ := (hf x).out t
    refine ⟨before, after ++ l, ?_⟩
    simpa using hcalls.bind hrun hl
  | error e t => exact ⟨before, after, hcalls.stop hrun⟩

/-- A call of what comes after the first part. -/
theorem later [hp : Stepwise c p] (hrun : p c s = .ok x t) (h : CallsAt c (f x) t u) :
    CallsAt c (p >>= f) s u := by
  obtain ⟨l, hl⟩ := hp.out s
  obtain ⟨before, after, hcalls⟩ := h
  refine ⟨l ++ before, after, ?_⟩
  simpa using hl.bind hrun hcalls

/-- A call in the first round of a loop that reads an item. -/
theorem manyUntil [Stepwise c stop] [Stepwise c item]
    (hstop : stop c s = .ok false t) (h : CallsAt c item t u) : CallsAt c (manyUntil stop item) s u := by
  refine later rfl ?_
  refine first (later hstop (first h fun _ => inferInstance)) fun y => ?_
  cases y with
  | again x => exact .rounds (fun _ => inferInstance) _ x
  | done b => infer_instance

end CallsAt

namespace Grammar

variable {isModule : Bool}

/-- All productions are made of steps and calls, however deep they are nested. -/
instance run_stepwise (depth : Nat) : Recur.Stepwise c (run depth) := by
  induction depth with
  | zero => exact ⟨fun _ _ => inferInstanceAs (Stepwise c (throw _))⟩
  | succ depth ih => exact run_succ ih

instance : Stepwise c (whole (if isModule then moduleProgram else script)) := by
  refine .seq fun _ => ?_
  cases isModule with
  | false => exact inferInstanceAs (Stepwise c (script _))
  | true => exact inferInstanceAs (Stepwise c (moduleProgram _))

/-- So are whole programs. -/
instance : Stepwise c (program isModule) := by unfold program; infer_instance

/-- The first call of a program is made at once. -/
theorem exists_calls_program (isModule : Bool) (c : ParseSetting) (s : ParseState) :
    ∃ l, Calls c (program isModule) s (s :: l) := by
  have hfirst : program isModule = next >>= fun _ => (do
      markLast
      whole (if isModule then moduleProgram else script)) := by
    simp only [program, begin, skip, Derives.discard_eq, bind_assoc, pure_bind]
  rw [hfirst]
  cases hrun : next c s with
  | ok t u =>
    have hrest : Stepwise c (do
        markLast
        whole (if isModule then moduleProgram else script)) := inferInstance
    obtain ⟨l, hl⟩ := hrest.out u
    exact ⟨l, Calls.next.bind hrun hl⟩
  | error e u => exact ⟨[], Calls.next.stop hrun⟩

end Grammar

end EcmaSyntax
