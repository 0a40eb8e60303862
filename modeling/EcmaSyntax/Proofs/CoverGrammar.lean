import EcmaSyntax.Proofs.Fitting.Report

/-!
# What the cover grammar lets through

Objects and patterns are read by the same rules, and it is only known afterwards which of them was read.
Until then two things are noted: an initializer that only a pattern may have, as in `{a = 1}`, and whether
what was read can be assigned to.

An object with such an initializer is refused where it stands in an attribute that is checked
(`checkedSlots`), and where it is a part of an expression that stands there, if all steps in between leave
the check to the node (`Step.Passes`). Nothing else is refused (`Program.initializer_escapes`): the
arguments of what may be an asynchronous function are not checked (`Program.initializer_of_async`).

Nearly everything can be assigned to if it is no literal, no call and no operation: besides names, members
and patterns the parts of `falseTargets` (`Program.assigned_is_target`), templates among them
(`Program.template_is_assigned`).
-/

namespace EcmaSyntax

/-- Where an initializer is pending though it must not be in the whole, there is a first step that does
not leave the check to its node, and its attribute is not checked. -/
theorem exists_of_pendingAlong (h : pendingAlong False path) :
    ∃ inner st outer, path = inner ++ st :: outer ∧ (∀ s ∈ inner, s.Passes) ∧ ¬ st.Passes
      ∧ st.isIn checkedSlots = false := by
  induction path with
  | nil => exact h.elim
  | cons st path ih =>
    obtain ⟨hchecked, hpasses⟩ := h
    by_cases hst : st.Passes
    · obtain ⟨inner, st', outer, rfl, hinner, hst'⟩ := ih (hpasses hst)
      exact ⟨st :: inner, st', outer, rfl, List.forall_mem_cons.2 ⟨hst, hinner⟩, hst'⟩
    · exact ⟨[], st, path, rfl, List.forall_mem_nil _, hst, hchecked⟩

namespace Program

/-! ### Initializers -/

/-- **An object with an initializer** that only a pattern may have is accepted only if the object has a
method with patterns for parameters, or if no check comes first on the way up from the object. -/
theorem initializer_escapes (e : EntryPoint) (code : Text) (o : OptionList) (p : Program)
    (h : run e code o .idle = .ok p) (n : Node) (path : List Step)
    (hn : (Value.node n).Path path p.tree) (hobject : n.is .objectExpression)
    (hinitializer : n.hasInitializer) :
    n.clears ∨ ∃ inner st outer, path = inner ++ st :: outer ∧ (∀ s ∈ inner, s.Passes) ∧ ¬ st.Passes
      ∧ st.isIn checkedSlots = false := by
  obtain ⟨edition, -, hfits⟩ := fits_of_run h
  cases hclears : n.clears with
  | true => exact .inl rfl
  | false =>
    exact .inr (exists_of_pendingAlong ((hfits.allows hn).initializes hobject hinitializer hclears))

/-- An object in an array that a loop runs over. -/
theorem initializer_escapes_of_loop :
    let code : Text := "for(a of[\x7bb=1\x7d]);"
    ∃ p path n, run .parse code [] .idle = .ok p ∧ (Value.node n).Path path p.tree
      ∧ n.is .objectExpression ∧ n.hasInitializer
      ∧ (n.clears ∨ ∃ inner st outer, path = inner ++ st :: outer ∧ (∀ s ∈ inner, s.Passes)
        ∧ ¬ st.Passes ∧ st.isIn checkedSlots = false) := by
  intro code
  obtain ⟨p, path, n, hrun, hn, htest⟩ := exists_follow .parse code [] ["body", "right", "elements"]
    (fun _ n => n.is .objectExpression && n.hasInitializer) (by decide) (by decide +kernel)
  obtain ⟨hobject, hinitializer⟩ := Bool.and_eq_true_iff.1 htest
  exact ⟨p, path, n, hrun, hn, hobject, hinitializer,
    initializer_escapes .parse code [] p hrun n path hn hobject hinitializer⟩

/-- A call of `async` with an object that has such an initializer. -/
theorem initializer_of_async :
    ∃ p path n, run .parse "async(\x7ba=1\x7d)" [] .idle = .ok p ∧ (Value.node n).Path path p.tree
      ∧ n.is .objectExpression ∧ n.hasInitializer := by
  obtain ⟨p, path, n, hrun, hn, htest⟩ := exists_follow .parse "async(\x7ba=1\x7d)" []
    ["body", "expression", "arguments"]
    (fun _ n => n.is .objectExpression && n.hasInitializer) (by decide) (by decide +kernel)
  exact ⟨p, path, n, hrun, hn, Bool.and_eq_true_iff.1 htest⟩

/-! ### Targets -/

/-- **What is assigned to** is a name or a member, a pattern if the operator is an equals sign, or one of
the other kinds of which it is not noted that they cannot be assigned to. So is what is incremented. -/
theorem assigned_is_target (e : EntryPoint) (code : Text) (o : OptionList) (p : Program)
    (hstrict : o.flag "tolerant" = false) (h : run e code o .idle = .ok p) (n : Node)
    (hn : (Value.node n).Part p.tree) :
    (n.is .assignmentExpression → ∃ m k, n.child? "left" = some m ∧ m.is k
      ∧ k ∈ if (n.textOf "operator").is "=" then patternTargets else targets)
    ∧ (n.is .updateExpression → ∃ m k, n.child? "argument" = some m ∧ m.is k ∧ k ∈ updateTargets) := by
  obtain ⟨edition, -, hfits⟩ := fits_of_run h
  obtain ⟨path, hpath⟩ := hn.exists_path
  have hallows := hfits.allows hpath
  have hlenient : ((Surroundings.start edition (o.flag "tolerant")).along path).lenient ≠ true := by
    simp [Surroundings.lenient_along, Surroundings.start, hstrict]
  have hkind {m? : Option Node} {ks : List Kind} (hany : m?.any (·.isAny ks)) :
      ∃ m k, m? = some m ∧ m.is k ∧ k ∈ ks := by
    obtain ⟨m, hm, hks⟩ := (Option.any_eq_true _ _).1 hany
    obtain ⟨k, hk, hmk⟩ := List.any_eq_true.1 hks
    exact ⟨m, k, hm, hmk, hk⟩
  exact ⟨fun hk => hkind ((hallows.assigns hk).resolve_left hlenient),
    fun hk => hkind ((hallows.updates hk).resolve_left hlenient)⟩

/-- An assignment to a pattern. -/
theorem assigned_is_target_of_pattern :
    let code : Text := "[a.b]=c"
    ∃ p n, run .parse code [] .idle = .ok p ∧ p.tree.firstExpression = some n
      ∧ n.is .assignmentExpression ∧ ∃ m k, n.child? "left" = some m ∧ m.is k
        ∧ k ∈ if (n.textOf "operator").is "=" then patternTargets else targets := by
  intro code
  obtain ⟨p, n, hrun, hn, hk⟩ := exists_firstExpression .parse code []
    (·.is .assignmentExpression) (by decide +kernel)
  exact ⟨p, n, hrun, hn, hk, (assigned_is_target .parse code [] p (by decide) hrun n (.of_firstExpression hn)).1 hk⟩

/-- An assignment to a template. -/
theorem template_is_assigned : ∃ p n, run .parse "`a`=1" [] .idle = .ok p ∧ (Value.node n).Part p.tree
      ∧ n.is .assignmentExpression ∧ ∃ m, n.child? "left" = some m ∧ m.is .templateLiteral := by
  obtain ⟨p, n, hrun, hn, htest⟩ := exists_firstExpression .parse "`a`=1" []
    (fun n => n.is .assignmentExpression && (n.child? "left").any (·.is .templateLiteral)) (by decide +kernel)
  obtain ⟨hk, hleft⟩ := Bool.and_eq_true_iff.1 htest
  exact ⟨p, n, hrun, .of_firstExpression hn, hk, (Option.any_eq_true _ _).1 hleft⟩

end Program

end EcmaSyntax
