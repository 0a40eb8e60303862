import EcmaSyntax.Proofs.Fitting.Nodes

/-!
# Nodes with rules of their own

Functions, loops, switches and labels, in which other things are allowed than around them, and the nodes
that may not stand everywhere: jumps, and the expressions that assign or that may be patterns.
-/

namespace EcmaSyntax

variable {e : Surroundings} {P : Prop} {n : Node}

variable {k : Kind} {form : String} {fields : List (String × Value)}

namespace Surroundings

/-- In the parameters of a function, or in its body if that is an expression. -/
def params (e : Surroundings) : Surroundings := if e.hasBlocks then e else e.function

/-- In the body of a loop. -/
def looped (e : Surroundings) : Surroundings := { e with inLoop := true }

/-- In the clauses of a switch. -/
def switched (e : Surroundings) : Surroundings := { e with inSwitch := true }

/-- In a statement with a label. -/
def labelled (e : Surroundings) (l : Text) : Surroundings := { e with labels := l :: e.labels }

theorem function_params (e : Surroundings) : e.params.function = e.function := by
  unfold params
  split
  · rfl
  · next h => simp [function, h]

theorem below_function (hn : n.isFunction) (name : String) :
    e.below ⟨n, name⟩ = if name = "body" ∧ n.hasBlockBody then e.function else e.params := by
  have hplain : n.isLoop = false ∧ n.is .switchStatement = false ∧ n.is .labeledStatement = false := by
    simp only [Node.isFunction, Bool.or_eq_true, Node.is, beq_iff_eq] at hn
    rcases hn with (hn | hn) | hn <;> simp [Node.isLoop, Node.is, hn]
  obtain ⟨hasBlocks, lenient, inFunction, inLoop, inSwitch, labels⟩ := e
  by_cases hbody : name = "body" ∧ n.hasBlockBody <;> cases hasBlocks <;>
    simp [below, Step.isFunctionBody, Step.isLoopBody, Step.isSwitchBody, Step.label?, hn, hplain, params, hbody]

theorem below_loop (hn : n.isLoop) (name : String) : e.below ⟨n, name⟩ = if name = "body" then e.looped else e := by
  have hplain : n.isFunction = false ∧ n.is .switchStatement = false ∧ n.is .labeledStatement = false := by
    simp only [Node.isLoop, Bool.or_eq_true, Node.is, beq_iff_eq] at hn
    rcases hn with ((((hn | hn) | hn) | hn) | hn) | hn <;> simp [Node.isFunction, Node.is, hn]
  by_cases hbody : name = "body" <;>
    simp [below, Step.isLoopBody, Step.isSwitchBody, Step.label?, hn, hplain, hbody, looped]

theorem below_switch (hn : n.is .switchStatement) (name : String) :
    e.below ⟨n, name⟩ = if name = "cases" then e.switched else e := by
  have hplain : n.isFunction = false ∧ n.isLoop = false ∧ n.is .labeledStatement = false := by
    rw [Node.is, beq_iff_eq] at hn
    simp [Node.isFunction, Node.isLoop, Node.is, hn]
  by_cases hbody : name = "cases" <;>
    simp [below, Step.isLoopBody, Step.isSwitchBody, Step.label?, hn, hplain, hbody, switched]

/-! ### Nodes that may not stand everywhere -/

/-- What is asked of a node of some kind, beyond that of its parts. -/
def Asks (e : Surroundings) (P : Prop) (n : Node) : Kind → Prop
  | .continueStatement => (n.label? = none → e.inLoop) ∧ ∀ l, n.label? = some l → l ∈ e.labels
  | .breakStatement => (n.label? = none → e.inLoop ∨ e.inSwitch) ∧ ∀ l, n.label? = some l → l ∈ e.labels
  | .labeledStatement => e.hasBlocks = false → ∀ l, n.label? = some l → l ∉ e.labels
  | .returnStatement => e.lenient ∨ e.inFunction
  | .objectExpression => (n.hasInitializer → n.clears = false → P) ∧ (e.lenient ∨ n.lacksRivals)
  | .classBody | .switchStatement => e.lenient ∨ n.lacksRivals
  | .assignmentExpression => e.lenient ∨ n.assignsTarget
  | .updateExpression => e.lenient ∨ n.updatesTarget
  | _ => True

theorem allows_of_asks (hn : n.kind? = some k) (hmade : n.extra.lookup "type" = none) (h : e.Asks P n k) :
    e.Allows P n := by
  have his {l : Kind} (hl : n.is l) : k = l := Option.some.inj (hn.symm.trans (beq_iff_eq.1 hl))
  refine ⟨fun _ => hmade, fun hl => ?_, fun hl => ?_, fun hl => ?_, fun hl => ?_, fun hl => ?_, fun hl => ?_,
    fun hl => ?_, fun hl => ?_, fun hl => ?_⟩
  case refine_3 => rcases hl with hl | hl <;> cases his hl <;> exact h.2
  case refine_9 => rcases hl with hl | hl | hl <;> cases his hl <;> first | exact h | exact h.2
  all_goals cases his hl <;> first | exact h | exact h.1

end Surroundings

namespace Fits

theorem ofKind (hallows : e.Allows P (.ofKind form k fields))
    (h : ∀ f ∈ fields, Fits (e.below ⟨.ofKind form k fields, f.1⟩)
      (Step.Pending ⟨.ofKind form k fields, f.1⟩ P) f.2) : Fits e P (.node (.ofKind form k fields)) :=
  node_iff.2 ⟨hallows, fun f hf _ => forall_ofKind (.scalar rfl) h f hf⟩

/-- What is read so that anything may be pending in it, in an attribute where anything may be. -/
theorem unchecked (h : Fits e True v) (hst : Grade.free.suits st) : Fits e (st.Pending P) v :=
  h.mono fun _ => Grade.pending_of_suits hst trivial

/-! ### Functions -/

theorem function (hk : k = .functionDeclaration ∨ k = .functionExpression)
    (hchild : (Node.ofKind form k fields).child? "body" = some body) (hblock : body.is .blockStatement)
    (h : ∀ f ∈ fields, Fits (if f.1 = "body" then e.function else e.params) False f.2) :
    Fits e P (.node (.ofKind form k fields)) := by
  have hfunction : (Node.ofKind form k fields).isFunction ∧ (Node.ofKind form k fields).isAny guarded = false := by
    rcases hk with rfl | rfl <;> exact ⟨rfl, rfl⟩
  have hbody : (Node.ofKind form k fields).hasBlockBody := by simp [Node.hasBlockBody, hchild, hblock]
  refine ofKind (Surroundings.allows_of_not_guarded hfunction.2 fun _ => rfl) fun f hf => ?_
  rw [Surroundings.below_function hfunction.1]
  simp only [hbody, and_true]
  exact (h f hf).mono False.elim

section

variable {id params generator : Value} {body : Node} (hid : Fits e.params False id)
  (hparams : Fits e.params False params) (hbody : Fits e.function False (.node body))
  (hblock : body.is .blockStatement) (hgenerator : Fits e.params False generator)

include hid hparams hbody hblock hgenerator

theorem functionDeclaration : Fits e P (.node (.functionDeclaration id params (.node body) generator)) :=
  function (.inl rfl) rfl hblock <| by
    simp only [List.forall_mem_cons]
    exact ⟨.scalar rfl, .scalar rfl, hid, hparams, hbody, hgenerator, List.forall_mem_nil _⟩

theorem asyncFunctionDeclaration : Fits e P (.node (.asyncFunctionDeclaration id params (.node body) generator)) :=
  function (.inl rfl) rfl hblock <| by
    simp only [List.forall_mem_cons]
    exact ⟨hgenerator, .scalar rfl, .scalar rfl, hid, hparams, hbody, List.forall_mem_nil _⟩

theorem functionExpression : Fits e P (.node (.functionExpression id params (.node body) generator)) :=
  function (.inr rfl) rfl hblock <| by
    simp only [List.forall_mem_cons]
    exact ⟨.scalar rfl, .scalar rfl, hid, hparams, hbody, hgenerator, List.forall_mem_nil _⟩

theorem asyncFunctionExpression : Fits e P (.node (.asyncFunctionExpression id params (.node body) generator)) :=
  function (.inr rfl) rfl hblock <| by
    simp only [List.forall_mem_cons]
    exact ⟨hgenerator, .scalar rfl, .scalar rfl, hid, hparams, hbody, List.forall_mem_nil _⟩

end

/-- The body of an arrow function may be an expression. -/
theorem arrow (hchild : (Node.ofKind form .arrowFunctionExpression fields).child? "body" = some body)
    (h : ∀ f ∈ fields, Fits (if f.1 = "body" ∧ body.is .blockStatement then e.function else e.params)
      (Step.Pending ⟨.ofKind form .arrowFunctionExpression fields, f.1⟩ P) f.2) :
    Fits e P (.node (.ofKind form .arrowFunctionExpression fields)) := by
  refine ofKind (Surroundings.allows_of_not_guarded rfl fun _ => rfl) fun f hf => ?_
  have hbody : (Node.ofKind form .arrowFunctionExpression fields).hasBlockBody = body.is .blockStatement := by
    simp [Node.hasBlockBody, hchild]
  rw [Surroundings.below_function rfl, hbody]
  exact h f hf

section

variable {params expression : Value} {body : Node} (hparams : Fits e.params True params)
  (hbody : Fits (if body.is .blockStatement then e.function else e.params) False (.node body))
  (hexpression : Fits e.params False expression)

include hparams hbody hexpression

theorem arrowFunctionExpression : Fits e P (.node (.arrowFunctionExpression params (.node body) expression)) :=
  arrow rfl <| by
    simp only [List.forall_mem_cons, true_and]
    exact ⟨.scalar rfl, .scalar rfl, hparams.unchecked rfl, hbody.mono False.elim,
      hexpression.mono False.elim, List.forall_mem_nil _⟩

theorem asyncArrowFunctionExpression :
    Fits e P (.node (.asyncArrowFunctionExpression params (.node body) expression)) :=
  arrow rfl <| by
    simp only [List.forall_mem_cons, true_and]
    exact ⟨.scalar rfl, .scalar rfl, hparams.unchecked rfl, hbody.mono False.elim,
      hexpression.mono False.elim, List.forall_mem_nil _⟩

end

/-! ### Loops, switches and labels -/

theorem loop (hloop : (Node.ofKind form k fields).isLoop)
    (hguarded : (Node.ofKind form k fields).isAny guarded = false)
    (h : ∀ f ∈ fields, Fits (if f.1 = "body" then e.looped else e)
      (Step.Pending ⟨.ofKind form k fields, f.1⟩ P) f.2) : Fits e P (.node (.ofKind form k fields)) := by
  refine ofKind (Surroundings.allows_of_not_guarded hguarded fun _ => rfl) fun f hf => ?_
  rw [Surroundings.below_loop hloop]
  exact h f hf

section

variable {init test update left right body : Value}

theorem whileStatement (htest : Fits e False test) (hbody : Fits e.looped False body) :
    Fits e P (.node (.whileStatement test body)) :=
  loop rfl rfl <| by
    simp only [List.forall_mem_cons]
    exact ⟨htest.mono False.elim, hbody.mono False.elim, List.forall_mem_nil _⟩

theorem doWhileStatement (hbody : Fits e.looped False body) (htest : Fits e False test) :
    Fits e P (.node (.doWhileStatement body test)) :=
  loop rfl rfl <| by
    simp only [List.forall_mem_cons]
    exact ⟨hbody.mono False.elim, htest.mono False.elim, List.forall_mem_nil _⟩

theorem forStatement (hinit : Fits e True init) (htest : Fits e False test) (hupdate : Fits e False update)
    (hbody : Fits e.looped False body) : Fits e P (.node (.forStatement init test update body)) :=
  loop rfl rfl <| by
    simp only [List.forall_mem_cons]
    exact ⟨hinit.unchecked rfl, htest.mono False.elim, hupdate.mono False.elim, hbody.mono False.elim,
      List.forall_mem_nil _⟩

theorem forInStatement (hleft : Fits e True left) (hright : Fits e False right)
    (hbody : Fits e.looped False body) : Fits e P (.node (.forInStatement left right body)) :=
  loop rfl rfl <| by
    simp only [List.forall_mem_cons]
    exact ⟨.scalar rfl, hleft.unchecked rfl, hright.mono False.elim, hbody.mono False.elim, List.forall_mem_nil _⟩

theorem forOfStatement (hleft : Fits e True left) (hright : Fits e True right)
    (hbody : Fits e.looped False body) : Fits e P (.node (.forOfStatement left right body)) :=
  loop rfl rfl <| by
    simp only [List.forall_mem_cons]
    exact ⟨hleft.unchecked rfl, hright.unchecked rfl, hbody.mono False.elim, List.forall_mem_nil _⟩

theorem forAwaitStatement (hleft : Fits e True left) (hright : Fits e True right)
    (hbody : Fits e.looped False body) : Fits e P (.node (.forAwaitStatement left right body)) :=
  loop rfl rfl <| by
    simp only [List.forall_mem_cons]
    exact ⟨hleft.unchecked rfl, hright.unchecked rfl, hbody.mono False.elim, List.forall_mem_nil _⟩

end

theorem filterMap_asNode? (ns : List Node) : (ns.map Value.node).filterMap Value.asNode? = ns := by
  rw [List.filterMap_map]
  exact List.filterMap_some

theorem switchStatement (hdiscriminant : Fits e False discriminant)
    (hcases : Fits e.switched False (.nodes cases)) (hrivals : cases.countP Node.isDefault ≤ 1) :
    Fits e P (.node (.switchStatement discriminant (.nodes cases))) := by
  have hlacks : (Node.switchStatement discriminant (.nodes cases)).lacksRivals := by
    have hchildren : (Node.switchStatement discriminant (.nodes cases)).children "cases" = cases :=
      filterMap_asNode? cases
    rw [Node.lacksRivals, hchildren]
    exact (Bool.and_true _).trans (decide_eq_true hrivals)
  refine ofKind (Surroundings.allows_of_asks rfl rfl (.inr hlacks)) ?_
  simp only [List.forall_mem_cons, Surroundings.below_switch (n := .ofKind _ .switchStatement _) rfl]
  exact ⟨hdiscriminant.mono False.elim, hcases.mono False.elim, List.forall_mem_nil _⟩

theorem labeledStatement (hlabel : Fits e False (.node label))
    (hnew : e.hasBlocks = false → label.textOf "name" ∉ e.labels)
    (hbody : Fits (e.labelled (label.textOf "name")) False body) :
    Fits e P (.node (.labeledStatement (.node label) body)) := by
  have hlabel? : (Node.labeledStatement (.node label) body).label? = some (label.textOf "name") := rfl
  refine ofKind (Surroundings.allows_of_asks rfl rfl fun hblocks l hl => ?_) ?_
  · rw [← Option.some.inj (hlabel?.symm.trans hl)]
    exact hnew hblocks
  · simp only [List.forall_mem_cons]
    exact ⟨hlabel.mono False.elim, hbody.mono False.elim, List.forall_mem_nil _⟩

/-! ### Nodes that may not stand everywhere -/

/-- A node that is no frame fits if it may stand where it does. -/
theorem guarded (hallows : e.Allows P (.ofKind form k fields))
    (hframes : (Node.ofKind form k fields).isAny frames = false)
    (h : ∀ f ∈ fields, Fits e (Step.Pending ⟨.ofKind form k fields, f.1⟩ P) f.2) :
    Fits e P (.node (.ofKind form k fields)) :=
  ofKind hallows fun f hf => by
    rw [Surroundings.below_eq hframes]
    exact h f hf

section

variable {label : Option Node} (hlabel : Fits e False (.node? label))
  (hsome : ∀ id, label = some id → id.textOf "name" ∈ e.labels)

include hsome

/-- What is known of the label that a jump is made with is known of the one that it has. -/
theorem jumps_of_get (hn : n.get "label" = .node? label) (hnone : label = none → X) :
    (n.label? = none → X) ∧ ∀ l, n.label? = some l → l ∈ e.labels := by
  have hlabel? : n.label? = label.map (·.textOf "name") := by
    rw [Node.label?, Node.child?, hn]
    cases label <;> rfl
  rw [hlabel?]
  refine ⟨fun h => hnone (Option.map_eq_none_iff.1 h), fun l h => ?_⟩
  obtain ⟨id, hid, rfl⟩ := Option.map_eq_some_iff.1 h
  exact hsome id hid

include hlabel

theorem continueStatement (hnone : label = none → e.inLoop) :
    Fits e P (.node (.continueStatement (.node? label))) := by
  refine guarded (Surroundings.allows_of_asks rfl rfl (jumps_of_get hsome rfl hnone)) rfl ?_
  simp only [List.forall_mem_cons]
  exact ⟨hlabel.mono False.elim, List.forall_mem_nil _⟩

theorem breakStatement (hnone : label = none → e.inLoop ∨ e.inSwitch) :
    Fits e P (.node (.breakStatement (.node? label))) := by
  refine guarded (Surroundings.allows_of_asks rfl rfl (jumps_of_get hsome rfl hnone)) rfl ?_
  simp only [List.forall_mem_cons]
  exact ⟨hlabel.mono False.elim, List.forall_mem_nil _⟩

end

section

variable {argument operator left right callee args optional : Value}

theorem returnStatement (hreturn : e.lenient ∨ e.inFunction) (hargument : Fits e False argument) :
    Fits e P (.node (.returnStatement argument)) := by
  refine guarded (Surroundings.allows_of_asks rfl rfl hreturn) rfl ?_
  simp only [List.forall_mem_cons]
  exact ⟨hargument.mono False.elim, List.forall_mem_nil _⟩

/-- What is pending in the properties of an object is pending for it, unless one of them is a method with
patterns for parameters. -/
theorem objectExpression (hclears : (∀ p ∈ properties, p.isPatternMethod = false) → Q → P)
    (hinitializer : ∀ p ∈ properties, p.is .property → (p.child? "value").any (·.is .assignmentPattern) → Q)
    (hproperties : ∀ p ∈ properties, Fits e Q (.node p))
    (hrivals : e.lenient ∨ properties.countP Node.setsPrototype ≤ 1) :
    Fits e P (.node (.objectExpression (.nodes properties))) := by
  have hchildren : (Node.objectExpression (.nodes properties)).children "properties" = properties :=
    filterMap_asNode? properties
  have hlacks : (Node.objectExpression (.nodes properties)).lacksRivals
      = decide (properties.countP Node.setsPrototype ≤ 1) := by
    rw [Node.lacksRivals, hchildren]
    exact Bool.true_and _
  have hQ (hn : (Node.objectExpression (.nodes properties)).clears = false) : Q → P := by
    refine hclears fun p hp => ?_
    rw [Node.clears, hchildren] at hn
    simpa using List.any_eq_false.1 hn p hp
  refine guarded (Surroundings.allows_of_asks rfl rfl ⟨fun hn hclear => hQ hclear ?_, ?_⟩) rfl ?_
  · change (Node.objectExpression (.nodes properties)).hasInitializer = true at hn
    rw [Node.hasInitializer, hchildren] at hn
    obtain ⟨p, hp, hvalue⟩ := List.any_eq_true.1 hn
    rw [Bool.and_eq_true] at hvalue
    exact hinitializer p hp hvalue.1 hvalue.2
  · exact hrivals.imp_right fun hone => hlacks.trans (decide_eq_true hone)
  · simp only [List.forall_mem_cons]
    refine ⟨.list fun v hv => ?_, List.forall_mem_nil _⟩
    obtain ⟨p, hp, rfl⟩ := List.mem_map.1 hv
    exact (hproperties p hp).mono fun hq => ⟨rfl, fun hpass => hQ (hpass.clears rfl) hq⟩

theorem classBody (hmembers : Fits e False (.nodes members))
    (hrivals : members.countP Node.isConstructor ≤ 1) : Fits e P (.node (.classBody (.nodes members))) := by
  have hlacks : (Node.classBody (.nodes members)).lacksRivals := by
    have hchildren : (Node.classBody (.nodes members)).children "body" = members := filterMap_asNode? members
    rw [Node.lacksRivals, hchildren, Bool.and_assoc]
    exact (Bool.and_true _).trans (decide_eq_true hrivals)
  refine guarded (Surroundings.allows_of_asks rfl rfl (.inr hlacks)) rfl ?_
  simp only [List.forall_mem_cons]
  exact ⟨hmembers.mono False.elim, List.forall_mem_nil _⟩

theorem assignmentExpression (htarget : e.lenient ∨ (Node.assignmentExpression operator left right).assignsTarget)
    (hoperator : Fits e False operator) (hleft : Fits e True left) (hright : Fits e False right) :
    Fits e P (.node (.assignmentExpression operator left right)) := by
  refine guarded (Surroundings.allows_of_asks rfl rfl htarget) rfl ?_
  simp only [List.forall_mem_cons]
  exact ⟨hoperator.mono False.elim, hleft.unchecked rfl, hright.mono False.elim, List.forall_mem_nil _⟩

theorem updateExpression (htarget : e.lenient ∨ (Node.updateExpression operator argument before).updatesTarget)
    (hoperator : Fits e False operator) (hargument : Fits e P argument) (hbefore : Fits e False before) :
    Fits e P (.node (.updateExpression operator argument before)) := by
  refine guarded (Surroundings.allows_of_asks rfl rfl htarget) rfl ?_
  simp only [List.forall_mem_cons]
  exact ⟨hoperator.mono False.elim, hargument.mono fun hp => ⟨rfl, fun _ => hp⟩, hbefore.mono False.elim,
    List.forall_mem_nil _⟩

/-- The arguments of what may be an asynchronous function are not looked at. -/
theorem asyncCall (hasync : (Node.callExpression callee args optional).StartsAsync)
    (hcallee : Fits e P callee) (hargs : Fits e True args) (hoptional : Fits e False optional) :
    Fits e P (.node (.callExpression callee args optional)) := by
  refine guarded (Surroundings.allows_of_not_guarded rfl fun _ => rfl) rfl ?_
  simp only [List.forall_mem_cons]
  exact ⟨hcallee.mono fun hp => ⟨rfl, fun _ => hp⟩,
    hargs.mono fun _ => ⟨rfl, fun hpass => absurd hasync (hpass.async rfl rfl)⟩, hoptional.mono False.elim,
    List.forall_mem_nil _⟩

end

end Fits

end EcmaSyntax
