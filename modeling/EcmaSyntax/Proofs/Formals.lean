import EcmaSyntax.Proofs.Fitting.Parameters

/-!
# What strict code has against parameters

Parameters are judged before it is known if their function is strict. `Formals.Judged` says what is known
of them then: in strict code, whether a name is not allowed or is bound twice; in other code, whether one
of this would matter if the body made the function strict. A name is judged by those before it, and so
the names are taken in the order in which the parameters bind them.
-/

namespace EcmaSyntax

open Parse

set_option synthInstance.maxSize 100000000000000

/-- Strict code does not allow this name for a parameter. -/
def Text.IsSuspect (name : Text) : Prop := Word.isRestricted name ∨ Word.isStrictReserved name

namespace Formals

/-- What is known of parameters in strict code or not, of a function whose name was suspect or not. -/
structure Judged (strict named : Bool) (f : Formals) : Prop where
  stricted : strict → (f.stricted.isSome ↔ (∃ name ∈ f.names, Word.isRestricted name) ∨ ¬ f.names.Nodup)
  suspect : strict = false → (f.firstRestricted.isSome ∨ f.stricted.isSome ↔
    named ∨ (∃ name ∈ f.names, name.IsSuspect) ∨ ¬ f.names.Nodup)
  /-- A name that is bound twice is what is complained of, if nothing else is suspect. -/
  cause : named = false → (∀ name ∈ f.names, ¬ name.IsSuspect) →
    f.firstRestricted = none ∧ (¬ f.names.Nodup → f.cause = some .duplicateParameter)

variable {strict named : Bool} {f : Formals}

theorem judged_start (strict : Bool) (name : Option (Token × Cause)) : (start name).Judged strict name.isSome where
  stricted _ := by simp [start]
  suspect _ := by simp [start]
  cause hname _ := by simp_all [start]

section

variable (who : Culprit) (name : Text)

theorem names_bindName : (f.bindName strict who name).names = name :: f.names := by
  unfold bindName
  grind [blame, suspect]

theorem stricted_bindName : (f.bindName true who name).stricted.isSome ↔
    f.stricted.isSome ∨ Word.isRestricted name ∨ name ∈ f.names := by
  unfold bindName
  grind [blame]

-- Once something is suspect, the names that follow are not looked at.
theorem suspect_bindName :
    (f.bindName false who name).firstRestricted.isSome ∨ (f.bindName false who name).stricted.isSome ↔
      (f.firstRestricted.isSome ∨ f.stricted.isSome) ∨ name.IsSuspect ∨ name ∈ f.names := by
  unfold bindName Text.IsSuspect
  grind [blame, suspect]

theorem cause_bindName (hfirst : f.firstRestricted = none) (hname : ¬ name.IsSuspect) :
    (f.bindName strict who name).firstRestricted = none ∧
      (f.bindName strict who name).cause = if name ∈ f.names then some .duplicateParameter else f.cause := by
  unfold Text.IsSuspect at hname
  unfold bindName
  grind [blame]

theorem Judged.bindName (h : f.Judged strict named) : (f.bindName strict who name).Judged strict named := by
  refine ⟨fun hs => ?_, fun hs => ?_, fun hnamed hall => ?_⟩
  · subst hs
    rw [stricted_bindName, h.stricted rfl, names_bindName]
    grind
  · subst hs
    rw [suspect_bindName, h.suspect rfl, names_bindName]
    grind
  · rw [names_bindName, List.forall_mem_cons] at hall
    obtain ⟨hfirst, hcause⟩ := h.cause hnamed hall.2
    obtain ⟨hfirst, heq⟩ := @cause_bindName strict f who name hfirst hall.1
    rw [names_bindName, heq]
    grind

end

theorem Judged.push (h : f.Judged strict named) (param : Value) (names : List (Culprit × Text)) :
    (f.push strict param names).Judged strict named := by
  suffices hfold : (names.foldl (fun f p => f.bindName strict p.1 p.2) f).Judged strict named from
    ⟨hfold.stricted, hfold.suspect, hfold.cause⟩
  induction names generalizing f with
  | nil => exact h
  | cons p names ih => exact ih (h.bindName p.1 p.2)

theorem names_push (param : Value) (names : List (Culprit × Text)) :
    (f.push strict param names).names.reverse = f.names.reverse ++ names.map (·.2) := by
  suffices hfold : (names.foldl (fun f p => f.bindName strict p.1 p.2) f).names.reverse
      = f.names.reverse ++ names.map (·.2) from hfold
  induction names generalizing f with
  | nil => simp
  | cons p names ih => simp [ih, names_bindName]

end Formals

/-- Code is as strict as it was, where no directive may be left. -/
theorem Restores.strict [h : Restores .none p] (hrun : p c s = .ok x t) : t.context.strict = s.context.strict := by
  simpa [Context.frame, Leeway.none] using congrArg Context.strict (h.out c s x t hrun).frame

namespace Grammar

/-- What may be read as a parameter: a pattern, and the tokens of the names that it binds. -/
def IsParameter (r : Recur) (c : ParseSetting) (p : Node × List Token) : Prop :=
  ∃ s t, restParameter r c s = .ok p t ∨ patternWithDefault r none c s = .ok p t

/-- Parameters are those that were read, and their names are those of the tokens. -/
structure Collects (r : Recur) (c : ParseSetting) (f : Formals) (ps : List (Node × List Token)) : Prop where
  all : ∀ p ∈ ps, IsParameter r c p
  params : f.params = ps.map (Value.node ·.1)
  names : f.names.reverse = (ps.flatMap (·.2)).map (·.lexeme.valueText)

theorem ensures_formalParameter_push [Recur.Restores r] :
    Ensures (formalParameter r f) c s fun f' t => t.context.strict = s.context.strict ∧ ∃ p, IsParameter r c p
      ∧ f' = f.push s.context.strict p.1 (p.2.map fun t => (.token t, t.lexeme.valueText)) := by
  rw [formalParameter, Ensures.step_bind]
  split
  all_goals
    refine .seq fun x t hx => Ensures.step_bind.2 (.pure ?_)
    rw [Restores.strict hx]
    refine ⟨rfl, x, ⟨s, t, ?_⟩, rfl⟩
  · exact .inl hx
  · exact .inr hx

/-- **What strict code has against parameters is never missed**, in strict code and in code that may still
turn out to be strict: it is judged by all names that the parameters bind, in their order. -/
theorem formalParameters_judged (depth : Nat) (name : Option (Token × Cause)) (c : ParseSetting)
    (s t : ParseState) (f : Formals) (h : formalParameters (run depth) name c s = .ok f t) :
    f.Judged s.context.strict name.isSome ∧ ∃ ps, Collects (run depth) c f ps := by
  refine (ensures_formalParameters_of (I := fun f d => d.strict = s.context.strict
    ∧ f.Judged s.context.strict name.isSome ∧ ∃ ps, Collects (run depth) c f ps)
    ⟨rfl, Formals.judged_start _ _, [], nofun, rfl, rfl⟩ (fun f t hf => ?_) f t h).2
  obtain ⟨hstrict, hf, ps, hps⟩ := hf
  refine ensures_formalParameter_push.mono fun f' u hu => ?_
  obtain ⟨hu, p, hp, rfl⟩ := hu
  rw [hstrict] at hu ⊢
  refine ⟨hu, hf.push _ _, ps ++ [p], ?_, ?_, ?_⟩
  · exact List.forall_mem_append.2 ⟨hps.all, List.forall_mem_singleton.2 hp⟩
  · rw [Formals.params_push, hps.params, List.map_append]
    rfl
  · rw [Formals.names_push, hps.names]
    simp

/-- Two names that strict code does not allow, inside of a pattern, and one that is bound twice. -/
theorem formalParameters_judged_of_pattern :
    let source := Source.ofText "(a, {b: [yield, eval]}, ...a)"
    let c : ParseSetting := ⟨⟨source, 2024, false⟩, false, false, .idle⟩
    ∃ s t f, begin c (.start source) = .ok () s ∧ formalParameters (run 20) none c s = .ok f t
      ∧ f.names = ["a", "eval", "yield", "a"].map Text.ofString ∧ f.Judged s.context.strict false
      ∧ ∃ ps, Collects (run 20) c f ps := by
  intro source c
  have hrun : Yields begin c (.start source) fun _ s => Yields (formalParameters (run 20) none) c s fun f _ =>
      f.names = ["a", "eval", "yield", "a"].map Text.ofString := by decide +kernel
  obtain ⟨_, s, hs, hparams⟩ := exists_of_yields hrun
  obtain ⟨f, t, hf, hnames⟩ := exists_of_yields hparams
  exact ⟨s, t, f, hs, hf, of_decide_eq_true hnames, formalParameters_judged 20 none c s t f hf⟩

end Grammar

end EcmaSyntax
