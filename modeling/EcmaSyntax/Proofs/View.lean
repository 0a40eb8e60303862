import EcmaSyntax.Grammar.Program
import EcmaSyntax.Proofs.Attribute

/-!
# Patterns and views

An expression that is taken for a pattern keeps its form and its place. It gets another kind, and what is
under one of its names is taken for a pattern, too (`Value.asPattern_induction`).
-/

namespace EcmaSyntax

namespace Node

variable {Q : String × Value → Prop}

/-- Attributes with another value under one name. -/
def altered (name : String) (g : Value → Value) (fs : List (String × Value)) : List (String × Value) :=
  fs.map fun f => (f.1, if f.1 = name then g f.2 else f.2)

variable {name key : String} {g : Value → Value} {fs : List (String × Value)}

theorem altered_names : (altered name g fs).map Prod.fst = fs.map Prod.fst := by
  simp only [altered, List.map_map, Function.comp_def]

theorem lookup_altered (h : key ≠ name) : (altered name g fs).lookup key = fs.lookup key := by
  induction fs with
  | nil => rfl
  | cons f fs ih =>
    obtain ⟨n, v⟩ := f
    rw [altered, List.map_cons, lookup_cons_eq, lookup_cons_eq]
    by_cases hn : key = n
    · simp [hn, hn ▸ h]
    · rw [if_neg hn, if_neg hn]
      exact ih

/-- What holds of attributes holds of other values, too, if it holds of each of these. -/
theorem forall_altered (h : ∀ f ∈ fs, Q f)
    (hg : ∀ v, (name, v) ∈ fs → Q (name, g v)) : ∀ f ∈ altered name g fs, Q f := by
  intro f hf
  obtain ⟨⟨n, v⟩, hmem, rfl⟩ := List.mem_map.1 hf
  by_cases hn : n = name
  · subst hn
    simpa using hg v hmem
  · simpa [hn] using h _ hmem

theorem lookup_filter_of_ne (h : key ≠ name) (l : List (String × Value)) :
    (l.filter (·.1 ≠ name)).lookup key = l.lookup key := by
  induction l with
  | nil => rfl
  | cons p l ih =>
    obtain ⟨k, w⟩ := p
    simp only [ne_eq, decide_not] at ih ⊢
    by_cases hk : k = name <;> simp [hk, lookup_cons_eq, h, ih]

/-! ### Another kind -/

theorem forall_retyped (h : ∀ f ∈ fs, Q f) (hk : Q ("type", .kind k)) : ∀ f ∈ retyped k fs, Q f := by
  intro f hf
  cases hput : putIn "type" (.kind k) fs with
  | none =>
    rw [retyped, hput] at hf
    exact h f hf
  | some fs' =>
    rw [retyped, hput] at hf
    obtain hf | rfl := mem_of_putIn hput hf
    · exact h f hf
    · exact hk

theorem retyped_names (k : Kind) (fs : List (String × Value)) : (retyped k fs).map Prod.fst = fs.map Prod.fst := by
  cases hput : putIn "type" (.kind k) fs with
  | none => rw [retyped, hput, Option.getD_none]
  | some fs' => rw [retyped, hput, Option.getD_some, putIn_names hput]

variable {form : String} {serial : Option Nat} {span : Option Span} {fields fields' extra : List (String × Value)}
  {k k' j : Kind}

/-- What is not of a kind does not become so with another kind. -/
theorem not_is_retyped (hkind : (Node.mk form serial span fields extra).kind? = some k) (hk : k ≠ j)
    (hk' : k' ≠ j) : ¬ (Node.mk form serial span (retyped k' fields') extra).is j := by
  simp only [is, kind?, get] at hkind ⊢
  cases hextra : extra.lookup "type" with
  | some v =>
    simp only [hextra] at hkind ⊢
    simpa [hkind] using hk
  | none =>
    simp only [retyped]
    cases hput : putIn "type" (.kind k') fields' with
    | some fs => simpa [lookup_putIn hput] using hk'
    | none =>
      have hnone : fields'.lookup "type" = none :=
        List.lookup_eq_none_iff.2 fun p hp => by simpa using (putIn_eq_none_iff.1 hput p hp).symm
      simp [hnone]

/-- Which kind a node has after another one was given to its attributes, with its own in the first
place. -/
theorem kind?_retyped (hkind : (Node.mk form serial span fields extra).kind? = some k)
    (hextra : extra.lookup "type" = none) (htype : fields'.lookup "type" = fields.lookup "type") :
    (Node.mk form serial span (retyped k' fields') extra).kind? = some k' := by
  simp only [kind?, get, hextra] at hkind ⊢
  cases hput : putIn "type" (.kind k') fields' with
  | some fs => simp [retyped, hput, lookup_putIn hput]
  | none =>
    have hnone : fields'.lookup "type" = none :=
      List.lookup_eq_none_iff.2 fun p hp => by simpa using (putIn_eq_none_iff.1 hput p hp).symm
    rw [← htype, hnone] at hkind
    simp at hkind

end Node

namespace Value

theorem asPatterns_eq_map (vs : List Value) : asPatterns vs = vs.map asPattern := by
  induction vs with
  | nil => rw [asPatterns, List.map_nil]
  | cons v vs ih => rw [asPatterns, List.map_cons, ih]

/-- A property or a spread of an object as a part of a pattern. -/
def asMember (v : Value) : Value :=
  if v.kind? = some .spreadElement then v.asPattern else v.asPropertyPattern

theorem asPropertyPatterns_eq_map (vs : List Value) : asPropertyPatterns vs = vs.map asMember := by
  induction vs with
  | nil => rw [asPropertyPatterns, List.map_nil]
  | cons v vs ih => rw [asPropertyPatterns, List.map_cons, ih, asMember]

/-- What is under a name of an expression as a part of a pattern. -/
def asPart (name : String) : Value → Value
  | .list vs => .list (vs.map (if name = "properties" then asMember else asPattern))
  | v => v.asPattern

theorem asPatternAt_eq_altered (name : String) (fs : List (String × Value)) :
    asPatternAt name fs = Node.altered name (asPart name) fs := by
  induction fs with
  | nil => rw [asPatternAt, Node.altered, List.map_nil]
  | cons f fs ih =>
    obtain ⟨n, v⟩ := f
    rw [Node.altered, List.map_cons, ← Node.altered, ← ih]
    by_cases hn : n = name
    · subst hn
      cases v <;> simp [asPatternAt, asPart]
      split <;> simp [asPatterns_eq_map, asPropertyPatterns_eq_map, *]
    · cases v <;> simp [asPatternAt, hn]

/-- What expressions become, and under which name their parts are taken for patterns. -/
def becoming : List (Kind × Kind × String) :=
  [(.spreadElement, .restElement, "argument"), (.arrayExpression, .arrayPattern, "elements"),
    (.objectExpression, .objectPattern, "properties"), (.assignmentExpression, .assignmentPattern, "left")]

/-- **What is kept by expressions that become patterns**: it is kept where nothing changes, where the items
of a list keep it, and where a node gets other values under some name, perhaps with another kind. -/
theorem asPattern_induction {K : Value → Value → Prop} (same : ∀ v, K v v)
    (items : ∀ vs (g : Value → Value), (∀ v ∈ vs, K v (g v)) → K (.list vs) (.list (vs.map g)))
    (part : ∀ (n : Node) (g : Value → Value), (∀ v, ("value", v) ∈ n.fields → K v (g v)) →
      K (.node n) (.node { n with fields := Node.altered "value" g n.fields }))
    (retype : ∀ (n : Node) (k k' : Kind) (name : String) (g : Value → Value) (fs : List (String × Value)),
      (k, k', name) ∈ becoming → n.kind? = some k → fs ⊆ Node.altered name g n.fields →
      fs.lookup "type" = n.fields.lookup "type" → (∀ v, (name, v) ∈ n.fields → K v (g v)) →
      K (.node n) (.node { n with fields := Node.retyped k' fs })) (v : Value) : K v v.asPattern := by
  suffices h : K v v.asPattern ∧ K v v.asPropertyPattern ∧ ∀ name, K v (v.asPart name) from h.1
  induction v using partsInduction with
  | list vs ih =>
    refine ⟨same _, same _, fun name => items vs _ fun v hv => ?_⟩
    obtain ⟨hpattern, hproperty, -⟩ := ih v hv
    split
    · rw [asMember]
      split
      · exact hpattern
      · exact hproperty
    · exact hpattern
  | node n ih =>
    have hpart (name : String) (v : Value) (hv : (name, v) ∈ n.fields) : K v (v.asPart name) :=
      (ih _ (List.mem_append_left _ hv)).2.2 name
    obtain ⟨form, serial, span, fields, extra⟩ := n
    have become {k k' : Kind} {name : String} (hkind : (Node.mk form serial span fields extra).kind? = some k)
        (hmem : (k, k', name) ∈ becoming) {fs : List (String × Value)} :=
      retype _ k k' name (asPart name) fs hmem hkind
    have hpattern : K (.node ⟨form, serial, span, fields, extra⟩)
        (asPattern (.object form serial span fields extra)) := by
      rw [asPattern]
      simp only [asPatternAt_eq_altered]
      split
      · next hk => exact become hk (by decide) (fun _ => id) (Node.lookup_altered (by decide)) (hpart _)
      · next hk => exact become hk (by decide) (fun _ => id) (Node.lookup_altered (by decide)) (hpart _)
      · next hk => exact become hk (by decide) (fun _ => id) (Node.lookup_altered (by decide)) (hpart _)
      · next hk =>
        refine become hk (by decide) List.filter_sublist.subset ?_ (hpart "left")
        rw [Node.lookup_filter_of_ne (by decide), Node.lookup_altered (by decide)]
      · exact same _
    refine ⟨hpattern, ?_, fun _ => hpattern⟩
    rw [node, asPropertyPattern, asPatternAt_eq_altered]
    exact part _ _ (hpart "value")
  | dict => simp only [asPattern, asPropertyPattern, asPart, same, implies_true, and_self]
  | scalar v hv => cases v <;> simp_all [isScalar, asPattern, asPropertyPattern, asPart]

end Value

variable {n : Node} {v : Value}

/-! ### Views -/

/-- What an element of markup is made of. -/
structure ElementParts where
  opening : Value
  children : Value
  closing : Value

/-- What a node gets when it is finished, with its form. An element of markup is known by its parts,
too. -/
structure Stamp where
  form : String
  serial : Option Nat
  span : Span
  element : Option ElementParts

namespace Node

/-- The parts of an element of markup. -/
def elementParts (n : Node) : ElementParts :=
  ⟨n.get "openingElement", n.get "children", n.get "closingElement"⟩

/-- The stamp of a node that is finished in a place. -/
abbrev stamp (n : Node) (span : Span) : Stamp :=
  ⟨n.form, n.serial, span, if n.is .jsxElement then some n.elementParts else none⟩

/-- The stamp of a node, if it is finished. -/
def stamp? (n : Node) : Option Stamp := n.span.map n.stamp

variable {m : Node}

theorem stamp_congr (hform : m.form = n.form) (hserial : m.serial = n.serial)
    (hget : ∀ key ∈ ["type", "openingElement", "children", "closingElement"], m.get key = n.get key) :
    m.stamp = n.stamp := by
  funext span
  simp only [List.forall_mem_cons] at hget
  obtain ⟨htype, hopening, hchildren, hclosing, -⟩ := hget
  have his : m.is .jsxElement = n.is .jsxElement := by
    rw [Node.is, Node.kind?, htype]
    rfl
  simp only [stamp, elementParts, hform, hserial, his, hopening, hchildren, hclosing]

theorem stamp_of_not_element (hform : m.form = n.form) (hserial : m.serial = n.serial)
    (hm : ¬ m.is .jsxElement) (hn : ¬ n.is .jsxElement) : m.stamp = n.stamp := by
  funext span
  simp only [stamp, hform, hserial, if_neg hm, if_neg hn]

end Node

/-- A node that is made and not finished: what stands for the parameters of an arrow function until the
arrow is seen, and the name in front of metadata. -/
def Node.IsDraft (n : Node) : Prop :=
  n.serial = none ∧ (n.is .arrowParameters ∨ n.is .identifier ∧ n.get "name" = .word "import")

theorem Node.IsDraft.congr {m : Node} (h : n.IsDraft) (hserial : m.serial = n.serial)
    (hkind : m.kind? = n.kind?) (hname : m.get "name" = n.get "name") : m.IsDraft := by
  unfold IsDraft Node.is at h ⊢
  rwa [hserial, hkind, hname]

/-- What a property of parsing keeps track of. -/
structure View where
  /-- The points of time in a run, as far as they are told apart. -/
  Moment : Type
  later : Moment → Moment → Prop
  /-- Has a token been read from one moment to another? -/
  reached : Moment → Moment → Prop
  /-- Is a mark the place of the lookahead? -/
  opens : Moment → Mark → Prop
  /-- Is a token the lookahead? -/
  begins : Moment → Token → Prop
  /-- Is a token all that was read from one moment to another? -/
  covers : Moment → Moment → Token → Prop
  /-- Is a text the source between two moments? -/
  spells : Moment → Moment → Text → Prop
  /-- Is a text the source in a span? -/
  literal : Span → Text → Prop
  /-- Was a node finished with a stamp between two moments? -/
  fits : Moment → Moment → Stamp → Prop
  /-- A moment, put off to the start of what is stamped. -/
  enter : Moment → Stamp → Moment
  /-- A moment, put back to the end of what is stamped. -/
  leave : Moment → Stamp → Moment
  /-- Is markup allowed? -/
  markup : Prop
  /-- May errors be tolerated? -/
  lenient : Prop
  later_refl (w : Moment) : later w w
  later_trans {a b c : Moment} : later a b → later b c → later a c
  reached_of_later {a b c : Moment} : later a b → reached b c → reached a c
  reached_later {a b c : Moment} : reached a b → later b c → reached a c
  reached_of_lenient {a b : Moment} : lenient → reached a b
  reached_of_markup {a b : Moment} : markup → reached a b
  opens_startMark {w : Moment} {t : Token} (k : Nat) : begins w t → opens w (t.startMark k)
  fits_mono {a w w' b : Moment} {st : Stamp} : later a w → later w' b → fits w w' st → fits a b st
  enter_mono {a b : Moment} (st : Stamp) : later a b → later (enter a st) (enter b st)
  leave_mono {a b : Moment} (st : Stamp) : later a b → later (leave a st) (leave b st)
  later_enter {a b : Moment} {st : Stamp} : fits a b st → later a (enter a st)
  leave_later {a b : Moment} {st : Stamp} : fits a b st → later (leave b st) b

namespace View

variable {V : View}

/-- The moment from which on the parts of a node are read. -/
def opening (a : V.Moment) (stamp : Option Stamp) : V.Moment := stamp.elim a (V.enter a)

/-- The moment up to which the parts of a node are read. -/
def closing (b : V.Moment) (stamp : Option Stamp) : V.Moment := stamp.elim b (V.leave b)

/-- Are the attributes of a node in order? Is it finished, unless it is a draft? And if it is a literal,
does it have a place, and say what the source says there? -/
structure Proper (V : View) (n : Node) : Prop where
  tidy : n.Tidy
  finished : n.kind?.isSome → n.span = none → n.IsDraft
  literal : n.is .literal → ∃ sp raw, n.span = some sp ∧ n.get "raw" = .text raw ∧ V.literal sp raw

mutual

/-- Do all nodes in a value lie between two moments, and in the nodes around them? -/
def Holds (V : View) (a b : V.Moment) : Value → Prop
  | .list vs => V.HoldsAll a b vs
  | .dict es => V.HoldsEntries a b es
  | .object form serial span fields extra =>
    (∀ sp, span = some sp → V.fits a b (Node.stamp ⟨form, serial, span, fields, extra⟩ sp))
      ∧ V.Proper ⟨form, serial, span, fields, extra⟩
      ∧ V.HoldsFields (opening a (Node.stamp? ⟨form, serial, span, fields, extra⟩))
        (closing b (Node.stamp? ⟨form, serial, span, fields, extra⟩)) fields
      ∧ V.HoldsFields (opening a (Node.stamp? ⟨form, serial, span, fields, extra⟩))
        (closing b (Node.stamp? ⟨form, serial, span, fields, extra⟩)) extra
  | _ => True

/-- Do they in all items of a list? -/
def HoldsAll (V : View) (a b : V.Moment) : List Value → Prop
  | [] => True
  | v :: vs => V.Holds a b v ∧ V.HoldsAll a b vs

/-- Do they in all entries of a dictionary? -/
def HoldsEntries (V : View) (a b : V.Moment) : List (Text × Value) → Prop
  | [] => True
  | (_, v) :: es => V.Holds a b v ∧ V.HoldsEntries a b es

/-- Do they in all attributes? -/
def HoldsFields (V : View) (a b : V.Moment) : List (String × Value) → Prop
  | [] => True
  | (_, v) :: fs => V.Holds a b v ∧ V.HoldsFields a b fs

end

variable {a b w w' : V.Moment}

theorem holdsAll_iff : V.HoldsAll a b vs ↔ ∀ v ∈ vs, V.Holds a b v := by
  induction vs with
  | nil => simp [HoldsAll]
  | cons v vs ih => simp [HoldsAll, ih]

theorem holdsEntries_iff : V.HoldsEntries a b es ↔ ∀ e ∈ es, V.Holds a b e.2 := by
  induction es with
  | nil => simp [HoldsEntries]
  | cons e es ih => simp [HoldsEntries, ih]

theorem holdsFields_iff : V.HoldsFields a b fs ↔ ∀ f ∈ fs, V.Holds a b f.2 := by
  induction fs with
  | nil => simp [HoldsFields]
  | cons f fs ih => simp [HoldsFields, ih]

theorem opening_mono (h : V.later a w) (stamp : Option Stamp) : V.later (opening a stamp) (opening w stamp) := by
  cases stamp with
  | none => exact h
  | some st => exact V.enter_mono st h

theorem closing_mono (h : V.later w' b) (stamp : Option Stamp) : V.later (closing w' stamp) (closing b stamp) := by
  cases stamp with
  | none => exact h
  | some st => exact V.leave_mono st h

/-! ### Nodes and their attributes -/

theorem holds_node : V.Holds a b (.node n) ↔ (∀ sp, n.span = some sp → V.fits a b (n.stamp sp)) ∧ V.Proper n
      ∧ ∀ f ∈ n.fields ++ n.extra, V.Holds (opening a n.stamp?) (closing b n.stamp?) f.2 := by
  simp only [Value.node, Holds, holdsFields_iff, List.forall_mem_append]

theorem Holds.mono (ha : V.later a w) (hb : V.later w' b) (h : V.Holds w w' v) : V.Holds a b v := by
  induction v using Value.partsInduction generalizing a b w w' with
  | list vs ih => exact holdsAll_iff.2 fun v hv => ih v hv ha hb (holdsAll_iff.1 h v hv)
  | dict es ih => exact holdsEntries_iff.2 fun e he => ih e he ha hb (holdsEntries_iff.1 h e he)
  | node n ih =>
    rw [holds_node] at h ⊢
    obtain ⟨hspan, hproper, hparts⟩ := h
    exact ⟨fun sp hsp => V.fits_mono ha hb (hspan sp hsp), hproper, fun f hf =>
      ih f hf (opening_mono ha _) (closing_mono hb _) (hparts f hf)⟩
  | scalar v hv => cases v <;> first | trivial | cases hv

/-- What lies in a node lies between the same moments as the node. -/
theorem Holds.widen (h : V.Holds a b (.node n))
    (hv : V.Holds (opening a n.stamp?) (closing b n.stamp?) v) : V.Holds a b v := by
  cases hspan : n.span with
  | none => simpa only [Node.stamp?, hspan, opening, closing, Option.map, Option.elim] using hv
  | some sp =>
    have hfits := (holds_node.1 h).1 sp hspan
    rw [Node.stamp?, hspan] at hv
    exact hv.mono (V.later_enter hfits) (V.leave_later hfits)

theorem Holds.get_inside (h : V.Holds a b (.node n)) (name : String) :
    V.Holds (opening a n.stamp?) (closing b n.stamp?) (n.get name) := by
  rcases n.mem_get_or_null name with hmem | hnull
  · exact (holds_node.1 h).2.2 _ hmem
  · rw [hnull]
    trivial

theorem Holds.get (h : V.Holds a b (.node n)) (name : String) : V.Holds a b (n.get name) :=
  h.widen (h.get_inside name)

theorem Holds.items (h : V.Holds a b v) : ∀ u ∈ v.items, V.Holds a b u := by
  cases v with
  | list vs => exact holdsAll_iff.1 h
  | _ => simp [Value.items]

theorem Holds.asNode (h : V.Holds a b v) (hn : v.asNode? = some n) : V.Holds a b (.node n) := by
  cases v with
  | object => cases hn; exact h
  | _ => cases hn

/-- A node is finished if its kind is not that of a draft. -/
theorem Holds.span_ne_none (h : V.Holds a b (.node n)) (hk : n.is k)
    (hdrafts : k ∉ [.identifier, .arrowParameters]) : n.span ≠ none := by
  intro hspan
  have hkind : n.kind? = some k := by simpa [Node.is] using hk
  have hdraft := (holds_node.1 h).2.1.finished (by rw [hkind]; rfl) hspan
  simp only [Node.IsDraft, Node.is, hkind] at hdraft
  rcases hdraft.2 with hdraft | ⟨hdraft, -⟩ <;> simp_all

/-- A finished node stays in its place when one of its attributes is set, if it does not become a
literal and is no element of markup. -/
theorem Holds.set (h : V.Holds a b (.node n)) (hspan : n.span ≠ none) (hv : V.Holds (opening a n.stamp?) (closing b n.stamp?) v)
    (hliteral : (n.set name v).is .literal → n.is .literal) (hraw : name ≠ "raw")
    (hname : isPlace name = false ∧ name ∉ Node.patternNames) (hbefore : ¬ n.is .jsxElement)
    (hafter : (n.set name v).is .jsxElement → n.is .jsxElement) : V.Holds a b (.node (n.set name v)) := by
  have hstamp : (n.set name v).stamp = n.stamp :=
    Node.stamp_of_not_element Node.set_form Node.set_serial (fun h => hbefore (hafter h)) hbefore
  rw [holds_node] at h ⊢
  rw [Node.stamp?, Node.set_span, hstamp]
  refine ⟨h.1, ⟨h.2.1.tidy.set hname, fun _ hnone => ?_, fun hlit => ?_⟩, fun f hf => ?_⟩
  · rw [Node.set_span] at hnone
    exact absurd hnone hspan
  · rw [Node.set_span, Node.get_set_of_ne hraw.symm]
    exact h.2.1.literal (hliteral hlit)
  · rcases Node.mem_of_set hf with hf | rfl
    · exact h.2.2 f hf
    · exact hv

/-- A finished node stays in its place when one of its attributes is taken away. -/
theorem Holds.erase (h : V.Holds a b (.node n)) (hspan : n.span ≠ none)
    (hname : name ∉ ["raw", "type", "openingElement", "children", "closingElement"]) :
    V.Holds a b (.node (n.erase name)) := by
  simp only [List.mem_cons, not_or] at hname
  obtain ⟨hraw, htype, hopening, hchildren, hclosing, -⟩ := hname
  have hstamp : (n.erase name).stamp = n.stamp := by
    refine Node.stamp_congr rfl rfl ?_
    simp only [List.forall_mem_cons, List.not_mem_nil, false_implies, implies_true, and_true]
    exact ⟨Node.get_erase_of_ne (Ne.symm htype), Node.get_erase_of_ne (Ne.symm hopening),
      Node.get_erase_of_ne (Ne.symm hchildren), Node.get_erase_of_ne (Ne.symm hclosing)⟩
  rw [holds_node] at h ⊢
  rw [Node.stamp?, hstamp]
  refine ⟨h.1, ⟨h.2.1.tidy.erase, fun _ hnone => absurd hnone hspan, fun hlit => ?_⟩, fun f hf => h.2.2 f ?_⟩
  · rw [Node.get_erase_of_ne (Ne.symm hraw)]
    refine h.2.1.literal ?_
    rwa [Node.is, Node.kind?, Node.get_erase_of_ne (Ne.symm htype)] at hlit
  · simp only [Node.erase, List.mem_append, List.mem_filter] at hf ⊢
    exact hf.imp And.left And.left

/-! ### Expressions taken for patterns -/

theorem Holds.asPattern (h : V.Holds a b v) : V.Holds a b v.asPattern := by
  refine Value.asPattern_induction (K := fun v w => ∀ a b : V.Moment, V.Holds a b v → V.Holds a b w)
    (fun _ _ _ => id) (fun vs g ih a b h => ?_) (fun n g ih a b h => ?_)
    (fun n k k' name g fs hmem hkind hfs _ ih a b h => ?_) v a b h
  · refine holdsAll_iff.2 <| List.forall_mem_map.2 fun v hv => ih v hv a b (holdsAll_iff.1 h v hv)
  · have hget (key : String) (hkey : key ≠ "value") :
        ({ n with fields := Node.altered "value" g n.fields } : Node).get key = n.get key := by
      simp only [Node.get, Node.lookup_altered hkey]
    have hkind : ({ n with fields := Node.altered "value" g n.fields } : Node).kind? = n.kind? := by
      rw [Node.kind?, hget "type" (by decide), Node.kind?]
    have hstamp : ({ n with fields := Node.altered "value" g n.fields } : Node).stamp = n.stamp :=
      Node.stamp_congr rfl rfl fun key hkey => hget key fun heq => absurd (heq ▸ hkey) (by decide)
    rw [holds_node] at h ⊢
    obtain ⟨hspan, hproper, hparts⟩ := h
    obtain ⟨hfields, hextra⟩ := List.forall_mem_append.1 hparts
    rw [Node.stamp?, hstamp]
    refine ⟨hspan, ⟨hproper.tidy.of_names rfl ?_ (.refl _), fun hsome hnone => ?_, fun hlit => ?_⟩,
      List.forall_mem_append.2 ⟨Node.forall_altered hfields fun v hv => ih v hv _ _ (hfields _ hv), hextra⟩⟩
    · rw [Node.altered_names]
      exact fun _ => id
    · exact (hproper.finished (hkind ▸ hsome) hnone).congr rfl hkind (hget "name" (by decide))
    · rw [hget "raw" (by decide)]
      refine hproper.literal ?_
      rwa [Node.is, hkind] at hlit
  · -- Neither kind is that of a literal or of an element, so the node stays in its place.
    have hkinds : ∀ x ∈ Value.becoming, x.1 ∉ [.literal, .jsxElement, .identifier, .arrowParameters]
      ∧ x.2.1 ∉ [.literal, .jsxElement] := by decide
    have hnode := h
    rw [holds_node] at h ⊢
    obtain ⟨hk, hk'⟩ := hkinds _ hmem
    simp only [List.mem_cons, not_or] at hk hk'
    obtain ⟨hliteral, helement, hidentifier, hparameters, -⟩ := hk
    have hstamp : ({ n with fields := Node.retyped k' fs } : Node).stamp = n.stamp :=
      Node.stamp_of_not_element rfl rfl (Node.not_is_retyped hkind helement hk'.2.1)
        (by simpa [Node.is, hkind] using helement)
    obtain ⟨hspan, hproper, hparts⟩ := h
    obtain ⟨hfields, hextra⟩ := List.forall_mem_append.1 hparts
    rw [Node.stamp?, hstamp]
    refine ⟨hspan, ⟨hproper.tidy.of_names rfl ?_ (.refl _), fun _ hnone => False.elim ?_, fun hlit => ?_⟩,
      List.forall_mem_append.2 ⟨Node.forall_retyped (fun f hf => ?_) trivial, hextra⟩⟩
    · rw [Node.retyped_names]
      exact fun x hx => Node.altered_names ▸ List.map_subset _ hfs hx
    · exact hnode.span_ne_none (k := k) (by simp [Node.is, hkind]) (by simp [hidentifier, hparameters]) hnone
    · exact absurd hlit (Node.not_is_retyped hkind hliteral hk'.1)
    · exact Node.forall_altered hfields (fun v hv => ih v hv _ _ (hfields _ hv)) f (hfs hf)

end View

end EcmaSyntax
