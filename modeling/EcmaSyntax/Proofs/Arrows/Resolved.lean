import EcmaSyntax.Proofs.Arrows.Binding
import EcmaSyntax.Proofs.Formals

/-!
# Placeholders and arrows in a tree

Parameters whose arrow is still to come are kept in a placeholder. `Value.Resolved` says of all nodes in a
value what a placeholder is left for and what an arrow function has for parameters; in both, `T params b`
stands for what is known of parameters that were not checked, with an arrow after them or not. It holds of
a new node if it holds of its parts (`Clear`), unless the node is one of those two.
-/

namespace EcmaSyntax

variable {name : String} {n : Node}

/-- Parameters bind each name once, unless a name is suspect: then those behind it are not looked at, and
what was found before it is forgotten. -/
def Value.BindOnce (params : List Value) : Prop :=
  (boundNamesAll params).Nodup ∨ ∃ name ∈ boundNamesAll params, name.IsSuspect

/-- A name that is bound twice is complained of, unless a name is suspect. -/
theorem Formals.Judged.bindOnce {strict : Bool} {f : Formals} {params : List Value} (h : f.Judged strict false)
    (hnames : f.names.reverse = Value.boundNamesAll params) (hcause : f.cause ≠ some .duplicateParameter) :
    Value.BindOnce params := by
  rw [Value.BindOnce, ← hnames]
  by_cases hsuspect : ∃ name ∈ f.names.reverse, name.IsSuspect
  · exact .inr hsuspect
  · have htwice := (h.cause rfl fun name hname hn => hsuspect ⟨name, List.mem_reverse.2 hname, hn⟩).2
    have hnodup : f.names.Nodup := Classical.not_not.1 fun hn => hcause (htwice hn)
    exact .inl (List.pairwise_reverse.2 (hnodup.imp Ne.symm))

/-- What is demanded of parameters; does an arrow follow them? -/
abbrev Demand : Type := List Value → Bool → Prop

/-- The parameters in a placeholder were not checked, and those of an arrow function that is not
asynchronous are patterns unless they were not checked. -/
structure Node.Resolved (T : Demand) (n : Node) : Prop where
  placeholder : n.is .arrowParameters → T (n.get "params").items false
  arrow : n.is .arrowFunctionExpression → n.has "isAsync" = false →
    Value.BindAll (n.get "params").items ∨ T (n.get "params").items true
  once : n.is .arrowFunctionExpression → Value.BindOnce (n.get "params").items

/-- This holds of all nodes in a value. -/
def Value.Resolved (T : Demand) (v : Value) : Prop :=
  ∀ n, (Value.node n).Part v → n.Resolved T

variable {T : Demand}

/-- The kinds of nodes of which something is said. -/
def arrowKinds : List Kind := [.arrowParameters, .arrowFunctionExpression]

namespace Node.Resolved

variable {m : Node}

theorem of_kind (h : n.isAny arrowKinds = false) : n.Resolved T := by
  have hkind {k : Kind} (hk : k ∈ arrowKinds) (hn : n.is k) : False :=
    Bool.false_ne_true ((not_isAny_iff.1 h k hk).symm.trans hn)
  exact ⟨fun hn => (hkind (by decide) hn).elim, fun hn => (hkind (by decide) hn).elim,
    fun hn => (hkind (by decide) hn).elim⟩

/-- Nothing is said of other attributes. -/
theorem of_get (hget : ∀ key ∈ ["type", "params", "isAsync"], m.get key = n.get key) (h : n.Resolved T) :
    m.Resolved T := by
  have his (k : Kind) : m.is k = n.is k := by rw [Node.is, Node.kind?, hget _ (by decide)]; rfl
  have hasync : m.has "isAsync" = n.has "isAsync" := by rw [Node.has, hget _ (by decide)]; rfl
  refine ⟨fun hm => ?_, fun hm hplain => ?_, fun hm => ?_⟩
  all_goals rw [hget _ (by decide)]
  · exact h.placeholder (his _ ▸ hm)
  · exact h.arrow (his _ ▸ hm) (hasync ▸ hplain)
  · exact h.once (his _ ▸ hm)

end Node.Resolved

namespace Value

variable {v : Value}

theorem resolved_list : (Value.list vs).Resolved T ↔ ∀ v ∈ vs, v.Resolved T := by
  refine ⟨fun h v hv n hn => h n (.item hv hn), fun h n hn => ?_⟩
  cases hn with
  | item hv hn => exact h _ hv n hn

theorem resolved_node : (Value.node n).Resolved T ↔
    n.Resolved T ∧ ∀ f ∈ n.fields ++ n.extra, isPlace f.1 = false → f.2.Resolved T := by
  refine ⟨fun h => ⟨h n .self, fun f hf hplace m hm => h m (.inNode hf hplace hm)⟩, fun h m hm => ?_⟩
  obtain hself | ⟨f, hf, hplace, hm⟩ := hm.of_node
  · rw [node_injective hself]
    exact h.1
  · exact h.2 f hf hplace m hm

namespace Resolved

theorem scalar (h : v.isScalar) : v.Resolved T := by
  intro n hn
  cases hn <;> cases h

/-- A new node, if nothing is said of its kind. -/
theorem ofNode (hn : n.isAny arrowKinds = false) (h : ∀ f ∈ n.fields ++ n.extra, f.2.Resolved T) :
    (Value.node n).Resolved T :=
  resolved_node.2 ⟨.of_kind hn, fun f hf _ => h f hf⟩

theorem finished (h : (Value.node n).Resolved T) (serial : Option Nat) (span : Option Span) :
    (Value.node { n with serial, span }).Resolved T := by
  rw [resolved_node] at h ⊢
  exact ⟨.of_get (n := n) (fun _ _ => rfl) h.1, h.2⟩

theorem get (h : (Value.node n).Resolved T) (hname : isPlace name = false) : (n.get name).Resolved T := by
  rcases n.mem_get_or_null name with hmem | hnull
  · exact (resolved_node.1 h).2 _ hmem hname
  · rw [hnull]
    exact .scalar rfl

theorem items (h : v.Resolved T) : ∀ u ∈ v.items, u.Resolved T := by
  cases v with
  | list vs => exact resolved_list.1 h
  | _ => simp [Value.items]

theorem asNode (h : v.Resolved T) (hn : v.asNode? = some n) : (Value.node n).Resolved T := by
  cases v with
  | object => cases hn; exact h
  | _ => cases hn

/-- An attribute is given, and nothing is said of the node then. -/
theorem set (h : (Value.node n).Resolved T) (hv : v.Resolved T)
    (hn : (n.set name v).isAny arrowKinds = false) : (Value.node (n.set name v)).Resolved T := by
  refine resolved_node.2 ⟨.of_kind hn, fun f hf hplace => ?_⟩
  rcases Node.mem_of_set hf with hf | rfl
  · exact (resolved_node.1 h).2 f hf hplace
  · exact hv

theorem erase (h : (Value.node n).Resolved T)
    (hn : (n.erase name).isAny arrowKinds = false) : (Value.node (n.erase name)).Resolved T := by
  refine resolved_node.2 ⟨.of_kind hn, fun f hf => (resolved_node.1 h).2 f ?_⟩
  simp only [Node.erase, List.mem_append, List.mem_filter] at hf ⊢
  exact hf.imp And.left And.left

/-! ### Expressions taken for patterns -/

theorem asPattern (h : v.Resolved T) : v.asPattern.Resolved T := by
  refine Value.asPattern_induction (K := fun v w => v.Resolved T → w.Resolved T) (fun _ => id)
    (fun vs g ih h => ?_) (fun n g ih h => ?_) (fun n k k' name g fs hmem hkind hfs _ ih h => ?_) v h
  · exact resolved_list.2 <| List.forall_mem_map.2 fun v hv => ih v hv (resolved_list.1 h v hv)
  · obtain ⟨hn, hparts⟩ := resolved_node.1 h
    obtain ⟨hfields, hextra⟩ := List.forall_mem_append.1 hparts
    refine resolved_node.2 ⟨.of_get (fun key hkey => ?_) hn, List.forall_mem_append.2
      ⟨Node.forall_altered hfields fun v hv hplace => ih v hv (hfields _ hv hplace), hextra⟩⟩
    have hother : ∀ key ∈ ["type", "params", "isAsync"], key ≠ "value" := by decide
    simp only [Node.get, Node.lookup_altered (hother key hkey)]
  · -- Nothing is said of either kind.
    have hkinds : ∀ x ∈ becoming, x.1 ∉ arrowKinds ∧ x.2.1 ∉ arrowKinds := by decide
    obtain ⟨hk, hk'⟩ := hkinds _ hmem
    obtain ⟨hfields, hextra⟩ := List.forall_mem_append.1 (resolved_node.1 h).2
    refine resolved_node.2 ⟨.of_kind (Node.not_isAny_iff.2 fun j hj => Bool.eq_false_iff.2 ?_),
      List.forall_mem_append.2 ⟨Node.forall_retyped (fun f hf => ?_) fun _ => .scalar rfl, hextra⟩⟩
    · exact Node.not_is_retyped hkind (fun heq => hk (heq ▸ hj)) fun heq => hk' (heq ▸ hj)
    · exact Node.forall_altered hfields (fun v hv hplace => ih v hv (hfields _ hv hplace)) f (hfs hf)

theorem asPattern_node (h : (Value.node n).Resolved T) : (Value.node n.asPattern).Resolved T := by
  rw [← Value.asPattern_node]
  exact h.asPattern

end Resolved

end Value

/-! ### Results -/

/-- What is said holds of all nodes. -/
instance : Sense (Demand) where
  Holds T := Value.Resolved T
  le := Eq
  mono h hv := h ▸ hv
  scalar := .scalar
  list := Value.resolved_list.2

/-- What is said holds of all nodes in a result. -/
abbrev Clear (T : Demand) {α : Type} [Bearer (Demand) α] (x : α) : Prop :=
  Bears T x

instance [h : Clear T n] : Clear T n.asPattern := ⟨h.out.asPattern_node⟩
instance {ns : List Node} [h : Clear T ns] : Clear T (ns.map Node.asPattern) :=
  ⟨List.forall_mem_map.2 fun n hn => (h.out n hn).asPattern_node⟩

namespace Grammar

instance : Bearer (Demand) Operand := ⟨fun T x => Bearer.all T x.node, fun h hx => Bearer.mono h hx⟩
instance : Bearer (Demand) Pending :=
  ⟨fun T x => Bearer.all T x.left ∧ Bearer.all T x.operator, fun h hx => ⟨Bearer.mono h hx.1, Bearer.mono h hx.2⟩⟩

instance [h : Clear T n] : Clear T (Operand.mk n t) := ⟨h.out⟩
instance {x : Operand} [h : Clear T x] : Clear T x.node := ⟨h.out⟩
instance {precedence : Nat} [hl : Clear T left] [ho : Clear T operator] :
    Clear T (Pending.mk left operator precedence) :=
  ⟨hl.out, ho.out⟩
instance {x : Pending} [h : Clear T x] : Clear T x.left := ⟨h.out.1⟩
instance {x : Pending} [h : Clear T x] : Clear T x.operator := ⟨h.out.2⟩

end Grammar

/-! ### New nodes -/

/-- Is nothing said of nodes of this kind? -/
@[reducible] def Kind.isIncidental : Kind → Bool
  | .arrowParameters | .arrowFunctionExpression => false
  | _ => true

instance [hm : Composed n ks parts] [hn : Among Kind.isIncidental n] [h : Clear T parts] : Clear T n := by
  refine ⟨.ofNode (hn.not_isAny (by decide)) ?_⟩
  obtain ⟨form, k, fields, -, -, rfl, hfields⟩ := hm.out
  exact Fits.forall_ofKind (.scalar rfl) fun f hf => h.out f.2 (hfields f hf)

namespace Node

variable {a b c d e f : Value}

/-- A node without a kind. -/
theorem clear_make {form : String} {fields : List (String × Value)} (h : (make form fields).kind? = none)
    (hfields : ∀ p ∈ fields, p.2.Resolved T) : Clear T (make form fields) :=
  ⟨.ofNode (not_isAny_iff.2 fun k _ => by rw [Node.is, h]; rfl) (by simpa [make] using hfields)⟩

instance [ha : Clear T a] [hb : Clear T b] : Clear T (make "Value" [("raw", a), ("cooked", b)]) :=
  clear_make rfl (by simpa using ⟨ha.out, hb.out⟩)
instance [ha : Clear T a] [hb : Clear T b] : Clear T (make "Object" [("key", a), ("value", b)]) :=
  clear_make rfl (by simpa using ⟨ha.out, hb.out⟩)

instance [ha : Clear T a] [hb : Clear T b] : Clear T (literal a b) :=
  ⟨.ofNode rfl (Fits.forall_ofKind (.scalar rfl) (by simpa using ⟨ha.out, hb.out⟩))⟩

instance [ha : Clear T a] [hb : Clear T b] [hc : Clear T c] [hd : Clear T d] : Clear T (regexLiteral a b c d) := by
  have hregex : Clear T (make "RegExp" [("pattern", c), ("flags", d)]) :=
    clear_make rfl (by simpa using ⟨hc.out, hd.out⟩)
  exact ⟨.ofNode rfl (Fits.forall_ofKind (.scalar rfl) (by simpa using ⟨ha.out, hb.out, hregex.out⟩))⟩

end Node

end EcmaSyntax
