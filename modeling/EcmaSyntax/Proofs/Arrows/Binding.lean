import EcmaSyntax.Proofs.Fitting.Report

/-!
# Patterns that bind names

`Node.Binds` says that a node is a pattern for parameters: a name, or a pattern for arrays or objects whose
parts are patterns again. A part may have a default, and the last one may be the rest, but this depends on
its place (`Role`). The kinds of `falseTargets` count as names here, since nothing keeps them from being
taken for parameters.

What was read as an expression becomes such a pattern by `Node.asPattern` if its parts do.
-/

namespace EcmaSyntax

variable {n a : Node}

/-- What a part of a pattern may be, for its place. -/
inductive Role where
  /-- A pattern alone, as on the left of a default. -/
  | target
  /-- A pattern that may have a default. -/
  | element
  /-- Also the rest. -/
  | last
  deriving DecidableEq, Repr, Inhabited

/-- The kinds that are taken for names. -/
def bindable : List Kind := .identifier :: falseTargets

/-- A pattern for parameters. -/
inductive Node.Binds : Role → Node → Prop
  | name {role : Role} {n : Node} : n.isAny bindable → Binds role n
  | array {role : Role} {n : Node} : n.is .arrayPattern →
    (∀ v ∈ (n.get "elements").items, v = .null ∨ v.asNode?.isSome) →
    (∀ v ∈ (n.get "elements").items.dropLast, ∀ m, v.asNode? = some m → Binds .element m) →
    (∀ v ∈ (n.get "elements").items.getLast?, ∀ m, v.asNode? = some m → Binds .last m) →
    Binds role n
  | object {role : Role} {n : Node} : n.is .objectPattern → (∀ v ∈ (n.get "properties").items, ∃ m, v.asNode? = some m
      ∧ (m.is .restElement ∨ m.is .property ∧ (m.child? "value").isSome)) →
    (∀ v ∈ (n.get "properties").items, ∀ m, v.asNode? = some m → m.is .restElement → Binds .last m) →
    (∀ v ∈ (n.get "properties").items, ∀ m, v.asNode? = some m → m.is .property →
      ∀ k, m.child? "value" = some k → Binds .element k) →
    Binds role n
  | default {role : Role} {n m : Node} : role ≠ .target → n.is .assignmentPattern →
    n.child? "left" = some m → Binds .target m → Binds role n
  | rest {n m : Node} : n.is .restElement → n.child? "argument" = some m → Binds .element m → Binds .last n

/-- All but the last of some values have a property, and the last one has another. -/
def Value.Ends (P Q : Value → Prop) (vs : List Value) : Prop :=
  (∀ v ∈ vs.dropLast, P v) ∧ ∀ v ∈ vs.getLast?, Q v

/-- A value is a pattern. -/
def Value.Binds (role : Role) (v : Value) : Prop := ∃ m, v = .node m ∧ m.Binds role

/-- Values that are parameters, of which the last may be the rest. -/
def Value.BindAll (vs : List Value) : Prop := Ends (Value.Binds .element) (Value.Binds .last) vs

/-- A value becomes a pattern if it is taken for one; null stands for a hole. -/
def Value.Becomes (role : Role) (v : Value) : Prop := v = .null ∨ v.asPattern.Binds role

namespace Value.Ends

variable {P Q P' Q' : Value → Prop} {vs : List Value}

theorem mono (h : Ends P Q vs) (hP : ∀ v ∈ vs, P v → P' v) (hQ : ∀ v ∈ vs, Q v → Q' v) : Ends P' Q' vs :=
  ⟨fun v hv => hP v (List.dropLast_subset _ hv) (h.1 v hv), fun v hv => hQ v (List.mem_of_getLast? hv) (h.2 v hv)⟩

theorem of_forall (h : ∀ v ∈ vs, P v) (hPQ : ∀ v, P v → Q v) : Ends P Q vs :=
  ⟨fun v hv => h v (List.dropLast_subset _ hv), fun v hv => hPQ v (h v (List.mem_of_getLast? hv))⟩

theorem forall_mem (h : Ends P Q vs) (hP : ∀ v, P v → P' v) (hQ : ∀ v, Q v → P' v) : ∀ v ∈ vs, P' v := by
  intro v hv
  cases hlast : vs.getLast? with
  | none => simp_all
  | some u =>
    obtain ⟨init, rfl⟩ := List.getLast?_eq_some_iff.1 hlast
    rcases List.mem_append.1 hv with hv | hv
    · exact hP v (h.1 v (by rwa [List.dropLast_concat]))
    · rw [List.mem_singleton.1 hv]
      exact hQ u (h.2 u hlast)

theorem append_singleton (h : ∀ u ∈ vs, P u) (hv : Q v) : Ends P Q (vs ++ [v]) := by
  refine ⟨fun u hu => h u ?_, fun u hu => ?_⟩
  · rwa [List.dropLast_concat] at hu
  · rw [List.getLast?_concat, Option.mem_some_iff] at hu
    exact hu ▸ hv

theorem map (h : Ends (fun v => P (f v)) (fun v => Q (f v)) vs) : Ends P Q (vs.map f) := by
  refine ⟨fun v hv => ?_, fun v hv => ?_⟩
  · rw [← List.map_dropLast] at hv
    obtain ⟨u, hu, rfl⟩ := List.mem_map.1 hv
    exact h.1 u hu
  · rw [List.getLast?_map, Option.mem_def, Option.map_eq_some_iff] at hv
    obtain ⟨u, hu, rfl⟩ := hv
    exact h.2 u hu

end Value.Ends

/-! ### What becomes of expressions -/

namespace Value

variable {fs : List (String × Value)} {role : Role}

theorem asPattern_node (n : Node) : (Value.node n).asPattern = .node n.asPattern := by
  have hnode : ∃ m, (Value.node n).asPattern = .node m := by
    obtain ⟨form, serial, span, fields, extra⟩ := n
    show ∃ m, Value.asPattern (.object form serial span fields extra) = .node m
    rw [asPattern]
    split <;> exact ⟨⟨form, serial, span, _, extra⟩, rfl⟩
  obtain ⟨m, hm⟩ := hnode
  rw [Node.asPattern, hm]
  rfl

theorem asPatternAt_cons (h : key ≠ name) : asPatternAt name ((key, v) :: fs) = (key, v) :: asPatternAt name fs := by
  cases v <;> simp [asPatternAt, h]

theorem asPatternAt_node :
    asPatternAt name ((name, .node n) :: fs) = (name, .node n.asPattern) :: asPatternAt name fs := by
  rw [← asPattern_node]
  simp only [node, asPatternAt, if_true]

theorem binds_node : (Value.node n).Binds role ↔ n.Binds role := by
  refine ⟨fun h => ?_, fun h => ⟨n, rfl, h⟩⟩
  obtain ⟨m, hm, hbinds⟩ := h
  obtain rfl := node_injective hm
  exact hbinds

theorem becomes_node : (Value.node n).Becomes role ↔ n.asPattern.Binds role := by
  rw [Becomes, asPattern_node, binds_node]
  exact ⟨fun h => h.resolve_left (by intro hnull; cases hnull), .inr⟩

end Value

namespace Node

variable {role : Role}

theorem asPattern_eq (n : Node) : n.asPattern = match n.kind? with
    | some .spreadElement =>
      { n with fields := retyped .restElement (Value.asPatternAt "argument" n.fields) }
    | some .arrayExpression =>
      { n with fields := retyped .arrayPattern (Value.asPatternAt "elements" n.fields) }
    | some .objectExpression =>
      { n with fields := retyped .objectPattern (Value.asPatternAt "properties" n.fields) }
    | some .assignmentExpression =>
      { n with
        fields := retyped .assignmentPattern ((Value.asPatternAt "left" n.fields).filter (·.1 ≠ "operator")) }
    | _ => n := by
  obtain ⟨form, serial, span, fields, extra⟩ := n
  show (Value.asPattern (.object form serial span fields extra)).asNode?.getD _ = _
  rw [Value.asPattern]
  generalize (Node.mk form serial span fields extra).kind? = k
  cases k with
  | none => rfl
  | some k => cases k <;> rfl

/-- A pattern is the node that was read. -/
theorem serial_asPattern (n : Node) : n.asPattern.serial = n.serial := by
  rw [asPattern_eq]
  split <;> rfl

/-- The kinds of expressions that become something else as patterns. -/
def convertible : List Kind :=
  [.spreadElement, .arrayExpression, .objectExpression, .assignmentExpression]

/-- What cannot be a pattern stays as it is. -/
theorem asPattern_eq_self (h : n.isAny convertible = false) : n.asPattern = n := by
  have hkind (k : Kind) (hk : k ∈ convertible) (heq : n.kind? = some k) : False := by
    have hn := not_isAny_iff.1 h k hk
    rw [Node.is, heq, beq_self_eq_true] at hn
    cases hn
  rw [asPattern_eq]
  split
  · next hk => exact (hkind _ (by decide) hk).elim
  · next hk => exact (hkind _ (by decide) hk).elim
  · next hk => exact (hkind _ (by decide) hk).elim
  · next hk => exact (hkind _ (by decide) hk).elim
  · rfl

theorem not_isAny_of_isAny (h : n.isAny ks) (hks : ∀ k ∈ ks, k ∉ ks') : n.isAny ks' = false := by
  obtain ⟨k, hk, hn⟩ := List.any_eq_true.1 h
  exact not_isAny_of_is hn (hks k hk)

theorem not_is_of_isAny (h : n.isAny ks) (hk : k ∉ ks) : n.is k = false :=
  not_isAny_iff.1 (@not_isAny_of_isAny _ _ [k] h fun _ hj hk' => hk (List.mem_singleton.1 hk' ▸ hj)) k
    (List.mem_singleton_self k)

namespace Binds

theorem element (h : n.Binds .target) : n.Binds .element := by
  cases h with
  | name h => exact .name h
  | array h hall hinit hlast => exact .array h hall hinit hlast
  | object h hall hrest hvalue => exact .object h hall hrest hvalue
  | default h => exact absurd rfl h

theorem last (h : n.Binds .element) : n.Binds .last := by
  cases h with
  | name h => exact .name h
  | array h hall hinit hlast => exact .array h hall hinit hlast
  | object h hall hrest hvalue => exact .object h hall hrest hvalue
  | default _ h hleft hm => exact .default (by decide) h hleft hm

/-- The kinds of patterns. -/
theorem isAny (h : n.Binds role) :
    n.isAny (.arrayPattern :: .objectPattern :: .assignmentPattern :: .restElement :: bindable) := by
  have hkind {k : Kind} {ks : List Kind} (hn : n.is k) (hk : k ∈ ks) : n.isAny ks :=
    List.any_eq_true.2 ⟨k, hk, hn⟩
  cases h with
  | name h =>
    obtain ⟨k, hk, hn⟩ := List.any_eq_true.1 h
    exact hkind hn (by simp [hk])
  | array h => exact hkind h (by simp)
  | object h => exact hkind h (by simp)
  | default _ h => exact hkind h (by simp)
  | rest h => exact hkind h (by simp)

/-- A pattern stays as it is. -/
theorem asPattern_eq (h : n.Binds role) : n.asPattern = n :=
  asPattern_eq_self (not_isAny_of_isAny h.isAny (by decide))

theorem of_name (h : n.isAny bindable) : n.asPattern.Binds role := by
  rw [asPattern_eq_self (not_isAny_of_isAny h (by decide))]
  exact .name h

/-- A default with another right side. -/
theorem set_right (h : n.Binds role) (hn : n.is .assignmentPattern) (v : Value) : (n.set "right" v).Binds role := by
  have hget {key : String} (hkey : key ≠ "right") : (n.set "right" v).get key = n.get key :=
    get_set_of_ne hkey
  have hother {k : Kind} (hk : n.is k) : k = .assignmentPattern := by
    have heq : some k = some Kind.assignmentPattern := (beq_iff_eq.1 hk).symm.trans (beq_iff_eq.1 hn)
    exact Option.some.inj heq
  cases h with
  | name h =>
    rw [not_isAny_of_is hn (by decide)] at h
    cases h
  | array h => cases hother h
  | object h => cases hother h
  | default hrole h hleft hm =>
    refine .default hrole ?_ ?_ hm
    · rwa [Node.is, Node.kind?, hget (by decide)]
    · rwa [Node.child?, hget (by decide)]
  | rest h => cases hother h

/-! ### New patterns -/

/-- A pattern for arrays, from its elements. -/
theorem arrayOf (h : n.is .arrayPattern) (es : List Value) (hes : n.get "elements" = .list es)
    (hends : Value.Ends (fun v => v = .null ∨ v.Binds .element) (fun v => v = .null ∨ v.Binds .last) es) :
    n.Binds role := by
  have hnode {role : Role} {v : Value} {m : Node} (hv : v = .null ∨ v.Binds role) (hm : v.asNode? = some m) :
      m.Binds role := by
    obtain rfl | ⟨m', rfl, hbinds⟩ := hv
    · cases hm
    · cases hm
      exact hbinds
  have hitems : (n.get "elements").items = es := by rw [hes, Value.items]
  refine .array h ?_ (fun v hv m hm => ?_) fun v hv m hm => ?_
  · rw [hitems]
    have hall {role : Role} (v : Value) (hv : v = .null ∨ v.Binds role) : v = .null ∨ v.asNode?.isSome := by
      obtain hnull | ⟨m', rfl, -⟩ := hv
      · exact .inl hnull
      · exact .inr rfl
    exact hends.forall_mem hall hall
  · rw [hitems] at hv
    exact hnode (hends.1 v hv) hm
  · rw [hitems] at hv
    exact hnode (hends.2 v hv) hm

/-- A part of a pattern for objects: the rest, or a property with a pattern. -/
def Member (v : Value) : Prop :=
  ∃ m : Node, v = .node m ∧ (m.is .restElement ∧ m.Binds .last
    ∨ m.is .property ∧ ∃ k, m.child? "value" = some k ∧ k.Binds .element)

/-- A pattern for objects, from its properties. -/
theorem objectOf (h : n.is .objectPattern) (ps : List Value) (hps : n.get "properties" = .list ps)
    (hall : ∀ v ∈ ps, Member v) : n.Binds role := by
  have hdiffers {m : Node} (hrest : m.is .restElement) (hproperty : m.is .property) : False := by
    rw [Node.is, beq_iff_eq.1 hrest] at hproperty
    cases hproperty
  have hitems : (n.get "properties").items = ps := by rw [hps, Value.items]
  refine .object h (fun v hv => ?_) (fun v hv m hm hrest => ?_) fun v hv m hm hproperty k hk => ?_
  · rw [hitems] at hv
    obtain ⟨m, rfl, ⟨hrest, -⟩ | ⟨hproperty, k, hk, -⟩⟩ := hall v hv
    · exact ⟨m, rfl, .inl hrest⟩
    · exact ⟨m, rfl, .inr ⟨hproperty, by rw [hk]; rfl⟩⟩
  · rw [hitems] at hv
    obtain ⟨m', rfl, ⟨-, hbinds⟩ | ⟨hproperty, -⟩⟩ := hall v hv
    · cases hm
      exact hbinds
    · cases hm
      exact (hdiffers hrest hproperty).elim
  · rw [hitems] at hv
    obtain ⟨m', rfl, ⟨hrest, -⟩ | ⟨-, k', hk', hbinds⟩⟩ := hall v hv
    · cases hm
      exact (hdiffers hrest hproperty).elim
    · cases hm
      cases hk'.symm.trans hk
      exact hbinds

section

variable {serial : Option Nat} {span : Option Span}

/-- An array becomes a pattern if its elements do. -/
theorem ofArrayExpression (h : Value.Ends (Value.Becomes .element) (Value.Becomes .last) es) :
    ({ arrayExpression (.list es) with serial, span } : Node).asPattern.Binds role := by
  have hbecomes {role : Role} (v : Value) (hv : v.Becomes role) : v.asPattern = .null ∨ v.asPattern.Binds role := by
    refine hv.imp (fun hnull => ?_) id
    rw [hnull]
    simp only [Value.asPattern]
  refine arrayOf ?_ (es.map Value.asPattern) ?_ (h.mono (fun v _ => hbecomes v) fun v _ => hbecomes v).map
  · rfl
  · rw [Node.asPattern_eq, ← Value.asPatterns_eq_map]
    rfl

theorem ofRestElement (h : a.Binds .element) : ({ restElement a with serial, span } : Node).Binds .last :=
  .rest rfl rfl h

theorem ofAssignmentPattern (h : a.Binds .target) :
    ({ assignmentPattern a right with serial, span } : Node).Binds .element :=
  .default (by decide) rfl rfl h

/-- A spread becomes the rest if its argument becomes a pattern. -/
theorem ofSpreadElement (h : a.asPattern.Binds .element) :
    ({ spreadElement a with serial, span } : Node).asPattern.is .restElement
      ∧ ({ spreadElement a with serial, span } : Node).asPattern.Binds .last := by
  have heq : ({ spreadElement a with serial, span } : Node).asPattern
      = { restElement a.asPattern with form := "SpreadElement", serial, span } := by
    show Node.mk _ serial span (retyped _ (Value.asPatternAt "argument"
      [("type", .kind .spreadElement), ("argument", .node a)])) [] = _
    rw [Value.asPatternAt_cons (by decide), Value.asPatternAt_node, Value.asPatternAt]
    rfl
  rw [heq]
  exact ⟨rfl, .rest rfl rfl h⟩

/-- An assignment to a pattern becomes a pattern with a default. -/
theorem ofAssignmentExpression (h : a.Binds .target) :
    ({ assignmentExpression operator a right with serial, span } : Node).asPattern.Binds .element := by
  have heq : ({ assignmentExpression operator a right with serial, span } : Node).asPattern
      = { assignmentPattern a right with form := "AssignmentExpression", serial, span } := by
    show Node.mk _ serial span (retyped _ ((Value.asPatternAt "left" [("type", .kind .assignmentExpression),
      ("operator", operator), ("left", .node a), ("right", right)]).filter _)) [] = _
    rw [Value.asPatternAt_cons (by decide), Value.asPatternAt_cons (by decide), Value.asPatternAt_node,
      Value.asPatternAt_cons (by decide), Value.asPatternAt, h.asPattern_eq]
    rfl
  rw [heq]
  exact .default (by decide) rfl rfl h

theorem member_spreadElement (h : a.asPattern.Binds .element) :
    Member (Value.node { spreadElement a with serial, span }).asMember := by
  rw [Value.asMember, if_pos (by exact rfl), Value.asPattern_node]
  exact ⟨_, rfl, .inl (ofSpreadElement h)⟩

theorem member_property (h : a.asPattern.Binds .element) :
    Member (Value.node { property kind key computed a method shorthand with serial, span }).asMember := by
  have heq : (Value.node { property kind key computed a method shorthand with serial, span }).asMember
      = .node { property kind key computed a.asPattern method shorthand with serial, span } := by
    show Value.asPropertyPattern (.object _ serial span [("type", .kind .property), ("key", key),
      ("computed", computed), ("value", .node a), ("kind", kind), ("method", method),
      ("shorthand", shorthand)] []) = _
    rw [Value.asPropertyPattern, Value.asPatternAt_cons (by decide), Value.asPatternAt_cons (by decide),
      Value.asPatternAt_cons (by decide), Value.asPatternAt_node, Value.asPatternAt_cons (by decide),
      Value.asPatternAt_cons (by decide), Value.asPatternAt_cons (by decide), Value.asPatternAt]
    rfl
  rw [heq]
  exact ⟨_, rfl, .inr ⟨rfl, a.asPattern, rfl, h⟩⟩

/-- An object becomes a pattern if its properties become parts of one. -/
theorem ofObjectExpression {ps : List Node} (h : ∀ p ∈ ps, Member (Value.node p).asMember) :
    ({ objectExpression ps with serial, span } : Node).asPattern.Binds role := by
  refine objectOf ?_ ((ps.map Value.node).map Value.asMember) ?_ ?_
  · rfl
  · rw [Node.asPattern_eq, ← Value.asPropertyPatterns_eq_map]
    rfl
  · simpa using h

end

end Binds

end Node

end EcmaSyntax
