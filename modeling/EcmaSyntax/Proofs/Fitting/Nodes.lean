import EcmaSyntax.Proofs.Fitting.Basic

/-!
# Nodes that fit

A new node fits if its parts do. For most nodes these parts need only fit where the node stands
(`Neutral`); the others have a rule of their own: those in which other things are allowed than around
them, those that may not stand everywhere, and those with parts in which an initializer may be pending.

Where any initializer may be pending, what fits as an expression also fits as the pattern that it stands
for: no attribute of a pattern is one of `checkedSlots`.
-/

namespace EcmaSyntax

variable {P : Prop} {n : Node} {ks : List Kind} {k : Kind} {parts : List Value} {form : String}

/-! ### Results -/

/-- A place, and if an initializer may be pending there. -/
structure Site where
  surroundings : Surroundings
  pending : Prop

/-- All nodes fit. -/
instance : Sense Site where
  Holds i v := Fits i.surroundings i.pending v
  le i j := i.surroundings = j.surroundings ∧ (i.pending → j.pending)
  mono h hv := h.1 ▸ hv.mono h.2
  scalar := .scalar
  list := .list

/-- Results with nodes that fit. -/
abbrev Carries (α : Type) := Bearer Site α

namespace Carries

abbrev fits {α : Type} [Carries α] (e : Surroundings) (P : Prop) (x : α) : Prop := Bearer.all (Site.mk e P) x

theorem mono {e : Surroundings} [Carries α] {x : α} (h : P → Q) (hx : fits e P x) : fits e Q x :=
  Bearer.mono (i := Site.mk e P) ⟨rfl, h⟩ hx

end Carries

/-- A result fits. -/
abbrev Fitting (e : Surroundings) (P : Prop) {α : Type} [Carries α] (x : α) : Prop := Bears (Site.mk e P) x

/-- What was read, and fits. -/
abbrev Found (e : Surroundings) (P : Prop) (α : Type) [Carries α] := Borne (Site.mk e P) α

section

variable {e : Surroundings} {α : Type} [Carries α]

-- Where nothing is pending, something may be.
instance (priority := low) {x : Found e P α} : Fitting e True x.get :=
  ⟨Carries.mono (fun _ => trivial) x.out⟩

theorem Fits.node? (h : Carries.fits e P o) : Fits e P (.node? o) :=
  have : Fitting e P o := ⟨h⟩
  (inferInstance : Fitting e P (Value.node? o)).out
end

/-! ### Nodes that change nothing -/

/-- The kinds of nodes in which other things are allowed than around them. -/
def frames : List Kind :=
  [.functionDeclaration, .functionExpression, .arrowFunctionExpression, .forStatement, .forInStatement,
   .forOfStatement, .forAwaitStatement, .whileStatement, .doWhileStatement, .switchStatement,
   .labeledStatement]

/-- The kinds of nodes that may not stand everywhere. -/
def guarded : List Kind :=
  [.continueStatement, .breakStatement, .labeledStatement, .returnStatement, .objectExpression,
   .assignmentExpression, .updateExpression, .classBody, .switchStatement]

theorem Node.not_isAny_iff : n.isAny ks = false ↔ ∀ k ∈ ks, n.is k = false := by
  simp [isAny]

theorem Node.not_isAny_of_is (hn : n.is k) (hk : k ∉ ks) : n.isAny ks = false := by
  refine not_isAny_iff.2 fun k' hk' => Bool.eq_false_iff.2 fun hn' => hk ?_
  have heq : some k = some k' := (beq_iff_eq.1 hn).symm.trans (beq_iff_eq.1 hn')
  cases heq
  exact hk'

/-! ### Kinds -/

/-- A condition that is found by computing it. -/
class IsTrue (b : Bool) : Prop where
  out : b = true

instance : IsTrue true := ⟨rfl⟩

/-- A node of a kind of which `p` holds. -/
class Among (p : Kind → Bool) (n : Node) : Prop where
  out : ∃ k, n.kind? = some k ∧ p k

namespace Among

variable {p : Kind → Bool} {a b c d : Value} {q : Prop} {l : List Kind}

instance [hn : Composed n [k] parts] [h : IsTrue (p k)] : Among p n := by
  obtain ⟨form, k', fields, hk, -, rfl, -⟩ := hn.out
  exact ⟨k', rfl, List.mem_singleton.1 hk ▸ h.out⟩

instance [h : IsTrue (p .logicalExpression)] [h' : IsTrue (p .binaryExpression)] :
    Among p (.binaryExpression a b c) := by
  obtain ⟨form, k, fields, hk, -, hn, -⟩ := (inferInstance : Made (.binaryExpression a b c) _ _).out
  refine ⟨k, by rw [hn]; rfl, ?_⟩
  simp only [List.mem_cons, List.not_mem_nil, or_false] at hk
  rcases hk with rfl | rfl
  · exact h.out
  · exact h'.out

instance [h : IsTrue (p .literal)] : Among p (.literal a b) := ⟨_, rfl, h.out⟩
instance [h : IsTrue (p .literal)] : Among p (.regexLiteral a b c d) := ⟨_, rfl, h.out⟩

instance [Decidable q] [hm : Among p m] [hn : Among p n] : Among p (if q then m else n) := by
  split
  · exact hm
  · exact hn
instance [Decidable q] {f g : Value → Value → Value → Node} [hf : Among p (f a b c)]
    [hg : Among p (g a b c)] : Among p ((if q then f else g) a b c) := by
  split
  · exact hf
  · exact hg

theorem isAny (h : Among p n) (hks : ∀ k, p k → k ∈ l) : n.isAny l := by
  obtain ⟨k, hkind, hk⟩ := h.out
  exact List.any_eq_true.2 ⟨k, hks k hk, by rw [Node.is, hkind, beq_self_eq_true]⟩

theorem not_isAny (h : Among p n) (hks : ∀ k ∈ l, p k = false) : n.isAny l = false := by
  obtain ⟨k, hkind, hk⟩ := h.out
  exact Node.not_isAny_of_is (by rw [Node.is, hkind, beq_self_eq_true]) fun hmem => by simp [hks k hmem] at hk

end Among

namespace Surroundings

variable {e : Surroundings}

theorem below_eq (h : n.isAny frames = false) (name : String) : e.below ⟨n, name⟩ = e := by
  simp only [frames, Node.not_isAny_iff, List.forall_mem_cons] at h
  simp [below, Step.isLoopBody, Step.isSwitchBody, Step.label?, Node.isFunction, Node.isLoop, h]

theorem allows_of_not_guarded (h : n.isAny guarded = false)
    (hmade : n.kind?.isSome → n.extra.lookup "type" = none) : e.Allows P n := by
  simp only [guarded, Node.not_isAny_iff, List.forall_mem_cons] at h
  refine ⟨hmade, ?_, ?_, ?_, ?_, ?_, ?_, ?_, ?_, ?_⟩ <;> simp [h]

end Surroundings

/-- A new node in which the same is allowed as around it, and that may stand everywhere. -/
class Neutral (n : Node) : Prop where
  frames : n.isAny frames = false
  guarded : n.isAny guarded = false
  extra : n.extra = []

/-- Is neither of the two to be thought of for nodes of this kind? -/
@[reducible] def Kind.isNeutral : Kind → Bool
  | .functionDeclaration | .functionExpression | .arrowFunctionExpression | .forStatement | .forInStatement
  | .forOfStatement | .forAwaitStatement | .whileStatement | .doWhileStatement | .switchStatement
  | .labeledStatement | .continueStatement | .breakStatement | .returnStatement | .objectExpression
  | .assignmentExpression | .updateExpression | .classBody => false
  | _ => true

instance [hm : Composed n ks parts] [hn : Among Kind.isNeutral n] : Neutral n := by
  obtain ⟨form, k, fields, -, -, rfl, -⟩ := hm.out
  exact ⟨hn.not_isAny (by decide), hn.not_isAny (by decide), rfl⟩

namespace Fits

variable {e : Surroundings}

theorem neutral (hn : Neutral n)
    (h : ∀ f ∈ n.fields ++ n.extra, Fits e (Step.Pending ⟨n, f.1⟩ P) f.2) : Fits e P (.node n) :=
  node_iff.2 ⟨Surroundings.allows_of_not_guarded hn.guarded fun _ => by rw [hn.extra]; rfl, fun f hf _ => by
      rw [Surroundings.below_eq hn.frames]
      exact h f hf⟩

/-- A new node is told by its parts. -/
theorem forall_ofKind {p : String × Value → Prop} (hkind : p ("type", .kind k)) (h : ∀ f ∈ fields, p f) :
    ∀ f ∈ (Node.ofKind form k fields).fields ++ (Node.ofKind form k fields).extra, p f := by
  intro f hf
  simp only [Node.ofKind, Node.make, List.append_nil, List.mem_cons] at hf
  rcases hf with rfl | hf
  · exact hkind
  · exact h f hf

end Fits

instance [hn : Neutral n] [hm : Composed n ks parts] [h : Fitting e False parts] : Fitting e P n := by
  obtain ⟨form, k, fields, -, -, rfl, hfields⟩ := hm.out
  exact ⟨.neutral hn (Fits.forall_ofKind (.scalar rfl) fun f hf =>
    (h.out f.2 (hfields f hf)).mono False.elim)⟩

/-! ### Parts in which an initializer may be pending -/

/-- What may be pending in a part of a node. -/
inductive Grade where
  /-- Nothing. -/
  | sealed
  /-- What may be pending for the node. -/
  | passed
  /-- Anything. -/
  | free
  deriving DecidableEq, Repr, Inhabited

namespace Grade

/-- May an initializer be pending in the part? `P` says if one may be for the node. -/
def Pending : Grade → Prop → Prop
  | .sealed, _ => False
  | .passed, P => P
  | .free, _ => True

/-- May a part be given such a grade, for what is known of its attribute? -/
def suits (g : Grade) (st : Step) : Bool :=
  match g with
  | .sealed => true
  | .passed => !st.isIn checkedSlots
  | .free => !st.isIn checkedSlots && !st.isIn passedSlots

theorem pending_of_suits {g : Grade} (h : g.suits st) (hg : g.Pending P) : st.Pending P := by
  cases g with
  | sealed => exact hg.elim
  | passed => exact ⟨by simpa [suits] using h, fun _ => hg⟩
  | free =>
    have h : st.isIn checkedSlots = false ∧ st.isIn passedSlots = false := by simpa [suits] using h
    exact ⟨h.1, fun hpass => absurd hpass.slot (by simp [h.2])⟩

end Grade

/-- The parts of a node, with what may be pending in them. -/
class Graded (n : Node) (parts : outParam (List (Grade × Value))) : Prop where
  fits {e : Surroundings} {P : Prop} : (∀ p ∈ parts, Fits e (p.1.Pending P) p.2) → Fits e P (.node n)

theorem Graded.ofKind (hn : Neutral (.ofKind form k fields)) (hlength : fields.length = g.length)
    (h : (fields.zip g).all (fun p => p.2.suits ⟨.ofKind form k fields, p.1.1⟩) = true) :
    Graded (.ofKind form k fields) (g.zip (fields.map Prod.snd)) := by
  refine ⟨fun hparts => .neutral hn (Fits.forall_ofKind (.scalar rfl) fun f hf => ?_)⟩
  obtain ⟨i, hi, rfl⟩ := List.getElem_of_mem hf
  have hgrade : (fields.zip g).get ⟨i, by simp [hi, ← hlength]⟩ ∈ fields.zip g := List.get_mem _ _
  have hpart : (g.zip (fields.map Prod.snd)).get ⟨i, by simp [hi, ← hlength]⟩
      ∈ g.zip (fields.map Prod.snd) := List.get_mem _ _
  have hsuits := List.all_eq_true.1 h _ hgrade
  have hfits := @hparts _ hpart
  simp only [List.get_eq_getElem, List.getElem_zip, List.getElem_map] at hsuits hfits
  exact hfits.mono (Grade.pending_of_suits hsuits)

/-- Parts fit with what may be pending in them. -/
class FittingParts (e : Surroundings) (P : Prop) (parts : List (Grade × Value)) : Prop where
  out : ∀ p ∈ parts, Fits e (p.1.Pending P) p.2

section

variable {e : Surroundings} {v : Value} {parts : List (Grade × Value)}

instance : FittingParts e P [] := ⟨fun _ h => nomatch h⟩
instance [hv : Fitting e False v] [h : FittingParts e P parts] : FittingParts e P ((.sealed, v) :: parts) :=
  ⟨List.forall_mem_cons.2 ⟨hv.out, h.out⟩⟩
instance [hv : Fitting e P v] [h : FittingParts e P parts] : FittingParts e P ((.passed, v) :: parts) :=
  ⟨List.forall_mem_cons.2 ⟨hv.out, h.out⟩⟩
instance [hv : Fitting e True v] [h : FittingParts e P parts] : FittingParts e P ((.free, v) :: parts) :=
  ⟨List.forall_mem_cons.2 ⟨hv.out, h.out⟩⟩

instance [hn : Graded n parts] [h : FittingParts e P parts] : Fitting e P n :=
  ⟨hn.fits h.out⟩

end

namespace Node

variable {a b c d e f : Value}

instance : Graded (arrayExpression a) [(.passed, a)] := .ofKind (g := [.passed]) ⟨rfl, rfl, rfl⟩ rfl rfl
instance : Graded (assignmentPattern a b) [(.passed, a), (.passed, b)] :=
  .ofKind (g := [.passed, .passed]) ⟨rfl, rfl, rfl⟩ rfl rfl
instance : Graded (awaitExpression a) [(.passed, a)] := .ofKind (g := [.passed]) ⟨rfl, rfl, rfl⟩ rfl rfl
instance : Graded (callExpression a b c) [(.passed, a), (.passed, b), (.sealed, c)] :=
  .ofKind (g := [.passed, .passed, .sealed]) ⟨rfl, rfl, rfl⟩ rfl rfl
instance : Graded (computedMemberExpression a b c)
      [(.sealed, .bool true), (.passed, a), (.sealed, b), (.sealed, c)] :=
  .ofKind (g := [.sealed, .passed, .sealed, .sealed]) ⟨rfl, rfl, rfl⟩ rfl rfl
instance : Graded (staticMemberExpression a b c) [(.sealed, .bool false), (.passed, a), (.sealed, b), (.sealed, c)] :=
  .ofKind (g := [.sealed, .passed, .sealed, .sealed]) ⟨rfl, rfl, rfl⟩ rfl rfl
instance : Graded (conditionalExpression a b c) [(.passed, a), (.sealed, b), (.sealed, c)] :=
  .ofKind (g := [.passed, .sealed, .sealed]) ⟨rfl, rfl, rfl⟩ rfl rfl
instance : Graded (exportDefaultDeclaration a) [(.free, a)] :=
  .ofKind (g := [.free]) ⟨rfl, rfl, rfl⟩ rfl rfl
instance : Graded (fieldDefinition a b c d e) [(.sealed, a), (.sealed, b), (.free, c), (.sealed, d), (.sealed, e)] :=
  .ofKind (g := [.sealed, .sealed, .free, .sealed, .sealed]) ⟨rfl, rfl, rfl⟩ rfl rfl
instance : Graded (methodDefinition a b c d e) [(.sealed, a), (.sealed, b), (.free, c), (.sealed, d), (.sealed, e)] :=
  .ofKind (g := [.sealed, .sealed, .free, .sealed, .sealed]) ⟨rfl, rfl, rfl⟩ rfl rfl
instance : Graded (newExpression a b) [(.sealed, a), (.passed, b)] :=
  .ofKind (g := [.sealed, .passed]) ⟨rfl, rfl, rfl⟩ rfl rfl
instance : Graded (sequenceExpression a) [(.passed, a)] :=
  .ofKind (g := [.passed]) ⟨rfl, rfl, rfl⟩ rfl rfl
instance : Graded (spreadElement a) [(.passed, a)] := .ofKind (g := [.passed]) ⟨rfl, rfl, rfl⟩ rfl rfl
instance : Graded (taggedTemplateExpression a b) [(.passed, a), (.sealed, b)] :=
  .ofKind (g := [.passed, .sealed]) ⟨rfl, rfl, rfl⟩ rfl rfl
instance : Graded (unaryExpression a b) [(.sealed, .bool true), (.sealed, a), (.passed, b)] :=
  .ofKind (g := [.sealed, .sealed, .passed]) ⟨rfl, rfl, rfl⟩ rfl rfl
instance : Graded (yieldExpression a b) [(.passed, a), (.sealed, b)] :=
  .ofKind (g := [.passed, .sealed]) ⟨rfl, rfl, rfl⟩ rfl rfl
instance : Graded (arrowParameters a) [(.free, a), (.sealed, .bool false)] :=
  .ofKind (g := [.free, .sealed]) ⟨rfl, rfl, rfl⟩ rfl rfl
instance : Graded (asyncArrowParameters a) [(.free, a), (.sealed, .bool true)] :=
  .ofKind (g := [.free, .sealed]) ⟨rfl, rfl, rfl⟩ rfl rfl
instance : Graded (jsxExpressionContainer a) [(.free, a)] :=
  .ofKind (g := [.free]) ⟨rfl, rfl, rfl⟩ rfl rfl
instance : Graded (jsxSpreadAttribute a) [(.free, a)] := .ofKind (g := [.free]) ⟨rfl, rfl, rfl⟩ rfl rfl
instance : Graded (literal a b) [(.sealed, a), (.sealed, b)] :=
  .ofKind (g := [.sealed, .sealed]) ⟨rfl, rfl, rfl⟩ rfl rfl
instance : Graded (regexLiteral a b c d)
      [(.sealed, a), (.sealed, b), (.sealed, .node (make "RegExp" [("pattern", c), ("flags", d)]))] :=
  .ofKind (g := [.sealed, .sealed, .sealed]) ⟨rfl, rfl, rfl⟩ rfl rfl
instance : Graded (binaryExpression a b c) [(.sealed, a), (.passed, b), (.sealed, c)] := by
  have hgraded (isLogical : Bool) : Graded
      (ofKind "BinaryExpression" (if isLogical then .logicalExpression else .binaryExpression)
        [("operator", a), ("left", b), ("right", c)]) [(.sealed, a), (.passed, b), (.sealed, c)] := by
    cases isLogical <;> exact .ofKind (g := [.sealed, .passed, .sealed]) ⟨rfl, rfl, rfl⟩ rfl rfl
  exact hgraded _
instance : Graded (property a b c d e (.bool false))
      [(.sealed, b), (.sealed, c), (.passed, d), (.sealed, a), (.sealed, e), (.sealed, .bool false)] :=
  .ofKind (g := [.sealed, .sealed, .passed, .sealed, .sealed, .sealed]) ⟨rfl, rfl, rfl⟩ rfl rfl

end Node

/-! ### Nodes with other rules -/

section

variable {e : Surroundings} {a b c d : Value}

/-- What is pending in the default of a shorthand property is not looked at. -/
instance [hkey : Fitting e False b] [hcomputed : Fitting e False c]
    [hvalue : Fitting e True d] [hkind : Fitting e False kind] [hmethod : Fitting e False a] :
    Fitting e P (Node.property kind b c d a (.bool true)) := by
  have hsealed {v : Value} {Q : Prop} (h : Fitting e False v) : Fits e Q v := h.out.mono False.elim
  refine ⟨.neutral ⟨rfl, rfl, rfl⟩ (Fits.forall_ofKind (.scalar rfl) ?_)⟩
  simp only [List.forall_mem_cons, List.not_mem_nil, false_implies, implies_true, and_true]
  refine ⟨hsealed hkey, hsealed hcomputed, hvalue.out.mono fun _ => ⟨rfl, fun hpass => ?_⟩, hsealed hkind,
    hsealed hmethod, .scalar rfl⟩
  exact nomatch hpass.shorthand rfl

/-- Records of a form that is no kind. -/
theorem Fits.pair (hn : Neutral (.make form [(x, a), (y, b)]))
    (hx : Grade.free.suits ⟨.make form [(x, a), (y, b)], x⟩)
    (hy : Grade.free.suits ⟨.make form [(x, a), (y, b)], y⟩)
    (ha : Fits e True a) (hb : Fits e True b) : Fits e P (.node (.make form [(x, a), (y, b)])) := by
  refine .neutral hn ?_
  simp only [Node.make, List.append_nil, List.forall_mem_cons, List.not_mem_nil, false_implies,
    implies_true, and_true]
  exact ⟨ha.mono (Grade.pending_of_suits hx), hb.mono (Grade.pending_of_suits hy)⟩

instance [ha : Fitting e True a] [hb : Fitting e True b] :
    Fitting e P (Node.make "Value" [("raw", a), ("cooked", b)]) :=
  ⟨.pair ⟨rfl, rfl, rfl⟩ rfl rfl ha.out hb.out⟩
instance [ha : Fitting e True a] [hb : Fitting e True b] :
    Fitting e P (Node.make "RegExp" [("pattern", a), ("flags", b)]) :=
  ⟨.pair ⟨rfl, rfl, rfl⟩ rfl rfl ha.out hb.out⟩
instance [ha : Fitting e True a] [hb : Fitting e True b] :
    Fitting e P (Node.make "Object" [("key", a), ("value", b)]) :=
  ⟨.pair ⟨rfl, rfl, rfl⟩ rfl rfl ha.out hb.out⟩

end

/-! ### Patterns -/

variable {e : Surroundings} {v : Value}

namespace Fits

/-- Attributes fit where anything may be pending. -/
def Freely (e : Surroundings) (fs : List (String × Value)) : Prop :=
  ∀ f ∈ fs, isPlace f.1 = false → Fits e True f.2

theorem freely (h : Fits e P (.node n)) (hn : n.isAny frames = false) : Freely e (n.fields ++ n.extra) := by
  intro f hf hplace
  have := (node_iff.1 h).2 f hf hplace
  rw [Surroundings.below_eq hn] at this
  exact this.mono fun _ => trivial

/-- A node that may stand everywhere, with attributes in none of which something is checked. -/
theorem of_freely (hframes : n.isAny frames = false) (hguarded : n.isAny guarded = false)
    (hmade : n.extra.lookup "type" = none) (hslots : ∀ name, Step.isIn ⟨n, name⟩ checkedSlots = false)
    (h : Freely e (n.fields ++ n.extra)) : Fits e True (.node n) := by
  refine node_iff.2 ⟨Surroundings.allows_of_not_guarded hguarded fun _ => hmade, fun f hf hplace => ?_⟩
  rw [Surroundings.below_eq hframes]
  exact (h f hf hplace).mono fun _ => ⟨hslots f.1, fun _ => trivial⟩

/-- The kinds of patterns that expressions become. -/
def patternKinds : List Kind :=
  [.identifier, .restElement, .arrayPattern, .objectPattern, .assignmentPattern]

theorem of_patternKind (hkind : n.kind? = some k) (hk : k ∈ patternKinds)
    (hmade : n.extra.lookup "type" = none) (h : Freely e (n.fields ++ n.extra)) : Fits e True (.node n) := by
  simp only [patternKinds, List.mem_cons, List.not_mem_nil, or_false] at hk
  refine of_freely ?_ ?_ hmade (fun name => ?_) h
  · rcases hk with rfl | rfl | rfl | rfl | rfl <;> simp [Node.isAny, Node.is, hkind, frames]
  · rcases hk with rfl | rfl | rfl | rfl | rfl <;> simp [Node.isAny, Node.is, hkind, guarded]
  · rcases hk with rfl | rfl | rfl | rfl | rfl <;> simp [Step.isIn, Node.is, hkind, checkedSlots]

theorem Freely.append : Freely e (fs ++ gs) ↔ Freely e fs ∧ Freely e gs :=
  List.forall_mem_append

theorem asPattern (h : Fits e True v) : Fits e True v.asPattern := by
  refine Value.asPattern_induction (K := fun v w => ∀ e, Fits e True v → Fits e True w) (fun _ _ => id)
    (fun vs g ih e h => ?_) (fun n g ih e h => ?_)
    (fun n k k' name g fs hmem hkind hfs htype ih e h => ?_) v e h
  · exact .list <| List.forall_mem_map.2 fun v hv => ih v hv e (list_iff.1 h v hv)
  · let m : Node := { n with fields := Node.altered "value" g n.fields }
    obtain ⟨hallows, hparts⟩ := node_iff.1 h
    obtain ⟨hfields, hextra⟩ := List.forall_mem_append.1 hparts
    have halike : n.Alike m := .of_get fun key hkey => by
      simp only [m, Node.get, Node.lookup_altered (List.ne_of_not_mem_cons hkey)]
    have hsame {f : String × Value} (hf : Fits (e.below ⟨n, f.1⟩) (Step.Pending ⟨n, f.1⟩ True) f.2) :
        Fits (e.below ⟨m, f.1⟩) (Step.Pending ⟨m, f.1⟩ True) f.2 := by
      rw [halike.below_eq]
      exact hf.mono halike.pending
    refine (node_iff).2 ⟨halike.allows (fun hkind => hallows.made (halike.kind ▸ hkind)) hallows,
      List.forall_mem_append.2 ⟨Node.forall_altered (fun f hf hplace => hsame (hfields f hf hplace))
        fun v hv hplace => ?_, fun f hf hplace => hsame (hextra f hf hplace)⟩⟩
    have hvalue : Step.isIn ⟨m, "value"⟩ checkedSlots = false := by simp [Step.isIn, checkedSlots]
    rw [halike.below_eq]
    exact (ih v hv _ ((hfields _ hv hplace).mono fun _ => trivial)).mono fun _ => ⟨hvalue, fun _ => trivial⟩
  · -- Its parts fit as they did, as far as they are not patterns themselves.
    have hkinds : ∀ x ∈ Value.becoming, x.1 ∉ frames ∧ x.2.1 ∈ patternKinds := by decide
    obtain ⟨hk, hk'⟩ := hkinds _ hmem
    have hmade := (node_iff.1 h).1.made (by rw [hkind]; rfl)
    have hframe (j : Kind) (hj : j ∈ frames) : n.is j = false := by
      rw [Node.is, hkind, beq_eq_false_iff_ne]
      exact fun heq => hk (by cases heq; exact hj)
    obtain ⟨hfields, hextra⟩ := Freely.append.1 (h.freely (Node.not_isAny_iff.2 hframe))
    refine of_patternKind (Node.kind?_retyped hkind hmade htype) hk' hmade (Freely.append.2
      ⟨Node.forall_retyped (fun f hf => ?_) fun _ => .scalar rfl, hextra⟩)
    exact Node.forall_altered hfields (fun v hv hplace => ih v hv e (hfields _ hv hplace)) f (hfs hf)

/-! ### Attributes that are given and taken -/

theorem Freely.set (h : Freely e (n.fields ++ n.extra))
    (hv : Fits e True v) : Freely e ((n.set name v).fields ++ (n.set name v).extra) := by
  intro f hf hplace
  rcases Node.mem_of_set hf with hf | rfl
  · exact h f hf hplace
  · exact hv

theorem Freely.erase (h : Freely e (n.fields ++ n.extra)) :
    Freely e ((n.erase name).fields ++ (n.erase name).extra) := by
  refine fun f hf => h f ?_
  simp only [Node.erase, List.mem_append, List.mem_filter] at hf ⊢
  exact hf.imp And.left And.left

end Fits

/-- A node that got its kind when it was made. -/
structure Node.MadeAs (n : Node) (k : Kind) : Prop where
  kind : n.kind? = some k
  extra : n.extra.lookup "type" = none

theorem Fits.madeAs (h : Fits e P (.node n)) (hk : n.is k) : n.MadeAs k := by
  have hkind : n.kind? = some k := beq_iff_eq.1 hk
  exact ⟨hkind, (node_iff.1 h).1.made (by rw [hkind]; rfl)⟩

namespace Node.MadeAs

variable {k : Kind} {name : String}

theorem setKind (h : n.MadeAs k) (k' : Kind) : (n.set "type" (.kind k')).MadeAs k' := by
  obtain ⟨hkind, hextra⟩ := h
  unfold Node.set
  cases hput : putIn "type" (.kind k') n.fields with
  | some fields => exact ⟨by simp [kind?, Node.get, hextra, lookup_putIn hput], hextra⟩
  | none =>
    have hnone : n.fields.lookup "type" = none :=
      List.lookup_eq_none_iff.2 fun p hp => by simpa using (putIn_eq_none_iff.1 hput p hp).symm
    simp [kind?, Node.get, hextra, hnone] at hkind

theorem set (h : n.MadeAs k) (hname : "type" ≠ name) : (n.set name v).MadeAs k := by
  refine ⟨by rw [kind?, get_set_of_ne hname]; exact h.kind, ?_⟩
  unfold Node.set
  split
  · exact h.extra
  · split
    · next hput => simpa [lookup_putIn hput, hname] using h.extra
    · simp [List.lookup_append, h.extra, lookup_cons_eq, hname]

theorem erase (h : n.MadeAs k) (hname : "type" ≠ name) : (n.erase name).MadeAs k := by
  refine ⟨by rw [kind?, get_erase_of_ne hname]; exact h.kind, ?_⟩
  rw [Node.erase, lookup_filter_of_ne hname]
  exact h.extra

/-- What can be assigned to becomes one of the targets before an equals sign. -/
theorem isAny_asPattern (h : n.MadeAs k) (hk : k ∈ targets) : n.asPattern.isAny patternTargets := by
  obtain ⟨form, serial, span, fields, extra⟩ := n
  obtain ⟨hkind, hmade⟩ := h
  have become {k' : Kind} {fields' : List (String × Value)} (hk' : k' ∈ patternTargets)
      (htype : fields'.lookup "type" = fields.lookup "type") :
      (Node.mk form serial span (retyped k' fields') extra).isAny patternTargets := by
    refine List.any_eq_true.2 ⟨k', hk', ?_⟩
    rw [Node.is, kind?_retyped hkind hmade htype, beq_self_eq_true]
  have htype (name : String) (hname : "type" ≠ name) :
      (Value.asPatternAt name fields).lookup "type" = fields.lookup "type" := by
    rw [Value.asPatternAt_eq_altered, lookup_altered hname]
  show ((Value.asPattern (.object form serial span fields extra)).asNode?.getD _).isAny patternTargets
  rw [Value.asPattern]
  split
  · next hspread =>
    rw [hspread, Option.some.injEq] at hkind
    subst hkind
    exact absurd hk (by decide)
  · exact become (by decide) (htype _ (by decide))
  · exact become (by decide) (htype _ (by decide))
  · refine become (by decide) ?_
    rw [lookup_filter_of_ne (by decide), htype _ (by decide)]
  · next harray hobject hassignment =>
    refine List.any_eq_true.2 ⟨k, ?_, beq_iff_eq.2 hkind⟩
    have hsame : ∀ k ∈ targets, k ≠ .arrayExpression → k ≠ .objectExpression → k ≠ .assignmentExpression →
        k ∈ patternTargets := by decide
    rw [hkind] at harray hobject hassignment
    exact hsame k hk (by simpa using harray) (by simpa using hobject) (by simpa using hassignment)

end Node.MadeAs

instance [h : Fitting e True v] : Fitting e True v.asPattern := ⟨h.out.asPattern⟩
instance {vs : List Value} [h : Fitting e True vs] : Fitting e True (vs.map Value.asPattern) :=
  ⟨List.forall_mem_map.2 fun v hv => (h.out v hv).asPattern⟩
instance [h : Fitting e True n] : Fitting e True n.asPattern :=
  ⟨by
    have hpattern := h.out.asPattern
    unfold Node.asPattern
    cases hn : (Value.node n).asPattern with
    | object form serial span fields extra =>
      rw [hn] at hpattern
      exact hpattern
    | _ => exact h.out⟩
instance {ns : List Node} [h : Fitting e True ns] : Fitting e True (ns.map Node.asPattern) :=
  ⟨List.forall_mem_map.2 fun n hn =>
    have : Fitting e True n := ⟨h.out n hn⟩
    (inferInstance : Fitting e True n.asPattern).out⟩

end EcmaSyntax
