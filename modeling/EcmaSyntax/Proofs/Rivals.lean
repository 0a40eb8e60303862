import EcmaSyntax.Proofs.Fitting.Report

/-!
# Members without rivals

Of some members there is only one, wherever they stand in a tree: the constructor of a class, the default
clause of a switch and the property that sets the prototype of an object (`Program.rivals_of_run`).
-/

namespace EcmaSyntax.Program

/-- **Members that must be alone are alone.** Where no error is tolerated, a class has at most one constructor,
a switch at most one default clause, and an object at most one property that sets its prototype. -/
theorem rivals_of_run (e : EntryPoint) (code : Text) (o : OptionList) (p : Program)
    (hstrict : o.flag "tolerant" = false) (h : run e code o .idle = .ok p) (n : Node)
    (hn : (Value.node n).Part p.tree) :
    (n.is .classBody → (n.children "body").countP Node.isConstructor ≤ 1)
    ∧ (n.is .switchStatement → (n.children "cases").countP Node.isDefault ≤ 1)
    ∧ (n.is .objectExpression → (n.children "properties").countP Node.setsPrototype ≤ 1) := by
  obtain ⟨path, hpath⟩ := hn.exists_path
  obtain ⟨edition, -, hfits⟩ := fits_of_run h
  have hlenient : ((Surroundings.start edition (o.flag "tolerant")).along path).lenient = false := by
    rw [Surroundings.lenient_along, hstrict]
    rfl
  have hrivals := (hfits.allows hpath).rivals
  rw [hlenient] at hrivals
  simp only [Bool.false_eq_true, false_or, Node.lacksRivals, Bool.and_eq_true, decide_eq_true_eq] at hrivals
  exact ⟨fun hk => (hrivals (.inl hk)).1.1, fun hk => (hrivals (.inr (.inl hk))).1.2,
    fun hk => (hrivals (.inr (.inr hk))).2⟩

/-- An object with four properties of which only the first one sets the prototype. -/
theorem rivals_of_run_of_prototypes :
    let code : Text := "(\x7b'__proto__': a, __proto__, ['__proto__']: b, __proto__() \x7b\x7d\x7d)"
    ∃ p n, run .parse code [] .idle = .ok p ∧ (Value.node n).Part p.tree ∧ n.is .objectExpression
      ∧ (n.children "properties").length = 4 ∧ (n.children "properties").any Node.setsPrototype
      ∧ (n.children "properties").countP Node.setsPrototype ≤ 1 := by
  intro code
  obtain ⟨p, path, n, hrun, hn, htest⟩ := exists_follow .parse code [] ["body", "expression"]
    (fun _ n => n.is .objectExpression && (n.children "properties").length == 4
      && (n.children "properties").any Node.setsPrototype) (by decide) (by decide +kernel)
  simp only [Bool.and_eq_true, beq_iff_eq] at htest
  exact ⟨p, n, hrun, hn.part, htest.1.1, htest.1.2, htest.2,
    (rivals_of_run .parse code [] p (by decide) hrun n hn.part).2.2 htest.1.1⟩

end EcmaSyntax.Program
