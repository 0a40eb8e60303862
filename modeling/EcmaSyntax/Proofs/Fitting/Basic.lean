import EcmaSyntax.Proofs.Occurrence

/-!
# Nodes and what stands around them

Whether a node may stand at its place in a tree is decided by the nodes above it: a `break` needs a loop
or a switch, a `return` a function, and an initializer that only a pattern may have needs a pattern. Some
members must be the only ones of their sort.
`Value.Path` is the way from a value down to a part of it, and `Surroundings` is what is known at the end
of such a way: `Surroundings.below` goes one step down. `Surroundings.Allows` says which nodes may stand
there, and `Fits` that all nodes of a tree may stand where they do (`Fits.allows`).

An initializer that only a pattern may have is *pending* until it is known that there is no pattern.
Some attributes are read so that none is pending behind them (`checkedSlots`), and some leave that to the
node they belong to (`Step.Passes`). All others let it through.
-/

namespace EcmaSyntax

/-- A step down a tree: from a node into one of its attributes. -/
structure Step where
  node : Node
  name : String

/-- The steps from a value down to a part of it, the last one first. -/
inductive Value.Path (u : Value) : List Step → Value → Prop
  | here : Path u [] u
  | item {path : List Step} {v : Value} {vs : List Value} : v ∈ vs → Path u path v → Path u path (.list vs)
  | entry {path : List Step} {e : Text × Value} {es : List (Text × Value)} :
    e ∈ es → Path u path e.2 → Path u path (.dict es)
  | field {path : List Step} {form : String} {serial : Option Nat} {span : Option Span}
      {fields extra : List (String × Value)} {f : String × Value} :
    f ∈ fields ++ extra → isPlace f.1 = false → Path u path f.2 →
      Path u (path ++ [⟨⟨form, serial, span, fields, extra⟩, f.1⟩]) (.object form serial span fields extra)

/-- There is a way to every part of a value. -/
theorem Value.Part.exists_path {u v : Value} (h : u.Part v) : ∃ path, u.Path path v := by
  induction h with
  | self => exact ⟨[], .here⟩
  | item hv _ ih => exact ih.imp fun _ h => .item hv h
  | entry he _ ih => exact ih.imp fun _ h => .entry he h
  | field hf hplace _ ih =>
    obtain ⟨path, h⟩ := ih
    exact ⟨_, .field hf hplace h⟩

theorem Value.Path.part {u v : Value} (h : u.Path path v) : u.Part v := by
  induction h with
  | here => exact .self
  | item hv _ ih => exact .item hv ih
  | entry he _ ih => exact .entry he ih
  | field hf hplace _ ih => exact .field hf hplace ih

/-! ### What can be told from a node -/

namespace Node

/-- Is this a function? A method has one for its value. -/
def isFunction (n : Node) : Bool :=
  n.is .functionDeclaration || n.is .functionExpression || n.is .arrowFunctionExpression

/-- Is this a loop? -/
def isLoop (n : Node) : Bool :=
  n.is .forStatement || n.is .forInStatement || n.is .forOfStatement || n.is .forAwaitStatement
    || n.is .whileStatement || n.is .doWhileStatement

/-- The label of a statement: its own, or the one it jumps to. -/
def label? (n : Node) : Option Text := (n.child? "label").map (·.textOf "name")

/-- Has an object an initializer that only a pattern may have? -/
def hasInitializer (n : Node) : Bool :=
  (n.children "properties").any fun p =>
    p.is .property && (p.child? "value").any (·.is .assignmentPattern)

/-- Is this a method or an accessor of an object, with parameters that are not just names? -/
def isPatternMethod (n : Node) : Bool :=
  (n.has "method" || !(n.textOf "kind").is "init")
    && (n.child? "value").any fun f => (f.get "params").items.any (·.kind? ≠ some .identifier)

/-- Has an object such a method? While its parameters are read, pending initializers are forgotten. -/
def clears (n : Node) : Bool := (n.children "properties").any isPatternMethod

/-- Is this the constructor of a class? -/
def isConstructor (n : Node) : Bool := n.is .methodDefinition && (n.textOf "kind").is "constructor"

/-- Is this the default clause of a switch? -/
def isDefault (n : Node) : Bool := n.is .switchCase && (n.get "test").isNull

/-- Is this a property that sets the prototype of an object? -/
def setsPrototype (n : Node) : Bool :=
  n.is .property && (n.textOf "kind").is "init" && !n.has "computed" && !n.has "method"
    && !n.has "shorthand" && (n.child? "key").any (·.isKey "__proto__")

/-- Is there no second constructor, default clause or prototype among the members of a node? -/
def lacksRivals (n : Node) : Bool :=
  (n.children "body").countP isConstructor ≤ 1 && (n.children "cases").countP isDefault ≤ 1
    && (n.children "properties").countP setsPrototype ≤ 1

/-- Is the body of a function or a loop a block? -/
def hasBlockBody (n : Node) : Bool := (n.child? "body").any (·.is .blockStatement)

end Node

/-- Where a chain of accesses and calls goes on. -/
def chainLinks : List (Kind × String) :=
  [(.memberExpression, "object"), (.callExpression, "callee"), (.taggedTemplateExpression, "tag")]

/-- A chain of accesses and calls that starts with the word `async`. -/
inductive Node.StartsAsync : Node → Prop
  | name {n : Node} : n.is .identifier → (n.textOf "name").is "async" → StartsAsync n
  | function {n : Node} : n.is .functionExpression → n.has "isAsync" → StartsAsync n
  | link {n m : Node} {l : Kind × String} :
    l ∈ chainLinks → n.is l.1 → n.child? l.2 = some m → StartsAsync m → StartsAsync n

/-! ### Targets of assignments -/

/-- What is taken for the target of an assignment though it is neither a name nor a member. -/
def falseTargets : List Kind :=
  [.privateIdentifier, .templateLiteral, .taggedTemplateExpression, .metaProperty, .awaitExpression,
   .yieldExpression, .jsxElement, .functionExpression, .classExpression, .arrowFunctionExpression]

/-- What an expression may be of which it is not known that it cannot be assigned to. -/
def targets : List Kind :=
  [.identifier, .memberExpression, .arrayExpression, .objectExpression, .assignmentExpression] ++ falseTargets

/-- What stands on the left of an equals sign. -/
def patternTargets : List Kind :=
  [.identifier, .memberExpression, .arrayPattern, .objectPattern, .assignmentPattern] ++ falseTargets

/-- What is incremented or decremented. -/
def updateTargets : List Kind := .arrowParameters :: targets

namespace Node

/-- Is a node of one of some kinds? -/
def isAny (n : Node) (ks : List Kind) : Bool := ks.any n.is

/-- Is what an assignment assigns to one of the targets? -/
def assignsTarget (n : Node) : Bool :=
  (n.child? "left").any (·.isAny (if (n.textOf "operator").is "=" then patternTargets else targets))

/-- Is what is incremented or decremented one of the targets? -/
def updatesTarget (n : Node) : Bool := (n.child? "argument").any (·.isAny updateTargets)

end Node

/-! ### Steps -/

/-- Attributes that are read so that no initializer is pending behind them. -/
def checkedSlots : List (Kind × String) :=
  [(.memberExpression, "property"), (.newExpression, "callee"), (.taggedTemplateExpression, "quasi"),
   (.templateLiteral, "expressions"), (.binaryExpression, "right"), (.logicalExpression, "right"),
   (.conditionalExpression, "consequent"), (.conditionalExpression, "alternate"),
   (.assignmentExpression, "right"), (.arrowFunctionExpression, "body"), (.property, "key"),
   (.methodDefinition, "key"), (.fieldDefinition, "key"), (.classDeclaration, "superClass"),
   (.classExpression, "superClass"), (.functionDeclaration, "params"), (.functionExpression, "params"),
   (.catchClause, "param"), (.variableDeclarator, "id"), (.variableDeclarator, "init"),
   (.expressionStatement, "expression"), (.returnStatement, "argument"), (.throwStatement, "argument"),
   (.ifStatement, "test"), (.whileStatement, "test"), (.doWhileStatement, "test"),
   (.forStatement, "test"), (.forStatement, "update"), (.forInStatement, "right"),
   (.switchStatement, "discriminant"), (.switchCase, "test"), (.withStatement, "object")]

/-- Attributes of which the pending initializers are pending for the node. -/
def passedSlots : List (Kind × String) :=
  [(.arrayExpression, "elements"), (.objectExpression, "properties"), (.property, "value"),
   (.spreadElement, "argument"), (.memberExpression, "object"), (.callExpression, "callee"),
   (.callExpression, "arguments"), (.newExpression, "arguments"), (.taggedTemplateExpression, "tag"),
   (.unaryExpression, "argument"), (.updateExpression, "argument"), (.awaitExpression, "argument"),
   (.yieldExpression, "argument"), (.binaryExpression, "left"), (.logicalExpression, "left"),
   (.conditionalExpression, "test"), (.sequenceExpression, "expressions"),
   (.arrayPattern, "elements"), (.objectPattern, "properties"), (.restElement, "argument"),
   (.assignmentPattern, "left"), (.assignmentPattern, "right")]

namespace Step

/-- Does a step go into one of some attributes? -/
def isIn (st : Step) (slots : List (Kind × String)) : Bool :=
  slots.any fun slot => st.node.is slot.1 && st.name = slot.2

/-- Does a step go into the body of a loop? -/
def isLoopBody (st : Step) : Bool := st.node.isLoop && st.name = "body"

/-- Does a step go into the clauses of a switch? -/
def isSwitchBody (st : Step) : Bool := st.node.is .switchStatement && st.name = "cases"

/-- Does a step go into the body of a function, which is a block? -/
def isFunctionBody (st : Step) : Bool :=
  st.node.isFunction && st.name = "body" && st.node.hasBlockBody

/-- The label of the statement of which a step goes into the body. -/
def label? (st : Step) : Option Text :=
  if st.node.is .labeledStatement && st.name = "body" then st.node.label? else none

/-- Is an initializer that is pending in the attribute pending for the node? Defaults of shorthand
properties, objects with patterns for parameters and the arguments of what may be an asynchronous
function are not looked at. -/
structure Passes (st : Step) : Prop where
  slot : st.isIn passedSlots
  shorthand : st.node.is .property → st.node.has "shorthand" = false
  clears : st.node.is .objectExpression → st.node.clears = false
  async : st.node.is .callExpression → st.name = "arguments" → ¬ st.node.StartsAsync

/-- May an initializer be pending in the attribute? `P` says if one may be for the node. -/
def Pending (st : Step) (P : Prop) : Prop := st.isIn checkedSlots = false ∧ (st.Passes → P)

end Step

/-! ### Surroundings -/

/-- What is known of the place of a node. -/
structure Surroundings where
  /-- May classes have blocks? -/
  hasBlocks : Bool
  /-- Are errors tolerated? -/
  lenient : Bool
  inFunction : Bool
  inLoop : Bool
  inSwitch : Bool
  /-- The labels of the statements around. -/
  labels : List Text

namespace Surroundings

/-- Around a whole program. -/
def start (edition : Nat) (tolerant : Bool) : Surroundings :=
  ⟨decide (2022 ≤ edition), tolerant, false, false, false, []⟩

/-- In a function. What stands around the function is forgotten, unless it can be jumped to from a block
of a class: such a block may stand in a directive, and directives are read before the context is that of
the body. -/
def function (e : Surroundings) : Surroundings :=
  { e with
    inFunction := true
    inLoop := e.hasBlocks && e.inLoop
    inSwitch := e.hasBlocks && e.inSwitch
    labels := if e.hasBlocks then e.labels else [] }

/-- One step further down. -/
def below (e : Surroundings) (st : Step) : Surroundings :=
  if st.node.isFunction && (!e.hasBlocks || st.isFunctionBody) then e.function
  else
    { e with
      inLoop := st.isLoopBody || e.inLoop
      inSwitch := st.isSwitchBody || e.inSwitch
      labels := st.label?.toList ++ e.labels }

/-- May a node stand here? `P` says if an initializer may be pending. -/
structure Allows (e : Surroundings) (P : Prop) (n : Node) : Prop where
  /-- Its kind was given to it when it was made. -/
  made : n.kind?.isSome → n.extra.lookup "type" = none
  continues : n.is .continueStatement → n.label? = none → e.inLoop
  breaks : n.is .breakStatement → n.label? = none → e.inLoop ∨ e.inSwitch
  jumps : n.is .continueStatement ∨ n.is .breakStatement → ∀ l, n.label? = some l → l ∈ e.labels
  labels : n.is .labeledStatement → e.hasBlocks = false → ∀ l, n.label? = some l → l ∉ e.labels
  returns : n.is .returnStatement → e.lenient ∨ e.inFunction
  initializes : n.is .objectExpression → n.hasInitializer → n.clears = false → P
  assigns : n.is .assignmentExpression → e.lenient ∨ n.assignsTarget
  updates : n.is .updateExpression → e.lenient ∨ n.updatesTarget
  rivals : n.is .classBody ∨ n.is .switchStatement ∨ n.is .objectExpression → e.lenient ∨ n.lacksRivals

/-- At the end of a way down. -/
def along (e : Surroundings) (path : List Step) : Surroundings :=
  path.foldr (fun st e => e.below st) e

section

variable {e : Surroundings} {st : Step} {path : List Step}

theorem hasBlocks_below : (e.below st).hasBlocks = e.hasBlocks := by
  unfold below
  split <;> rfl

theorem lenient_below : (e.below st).lenient = e.lenient := by
  unfold below
  split <;> rfl

theorem hasBlocks_along : (e.along path).hasBlocks = e.hasBlocks := by
  induction path with
  | nil => rfl
  | cons st path ih => exact hasBlocks_below.trans ih

theorem lenient_along : (e.along path).lenient = e.lenient := by
  induction path with
  | nil => rfl
  | cons st path ih => exact lenient_below.trans ih

end

end Surroundings

/-- May an initializer be pending at the end of a way down? -/
def pendingAlong (P : Prop) (path : List Step) : Prop := path.foldr Step.Pending P

/-- May all nodes of a value stand where they do? -/
inductive Fits : Surroundings → Prop → Value → Prop
  | scalar {e : Surroundings} {P : Prop} {v : Value} : v.isScalar → Fits e P v
  | list {e : Surroundings} {P : Prop} {vs : List Value} : (∀ v ∈ vs, Fits e P v) → Fits e P (.list vs)
  | dict {e : Surroundings} {P : Prop} {es : List (Text × Value)} : (∀ p ∈ es, Fits e P p.2) → Fits e P (.dict es)
  | object {e : Surroundings} {P : Prop} {form : String} {serial : Option Nat} {span : Option Span}
      {fields extra : List (String × Value)} :
    e.Allows P ⟨form, serial, span, fields, extra⟩ →
    (∀ f ∈ fields ++ extra, isPlace f.1 = false → Fits (e.below ⟨⟨form, serial, span, fields, extra⟩, f.1⟩)
        (Step.Pending ⟨⟨form, serial, span, fields, extra⟩, f.1⟩ P) f.2) →
    Fits e P (.object form serial span fields extra)

/-! ### Nodes that look alike -/

/-- Two nodes of which the same can be told, as far as it matters what stands around others. -/
structure Node.Alike (n m : Node) : Prop where
  kind : m.kind? = n.kind?
  label : m.label? = n.label?
  hasInitializer : m.hasInitializer = n.hasInitializer
  clears : m.clears = n.clears
  assignsTarget : m.assignsTarget = n.assignsTarget
  updatesTarget : m.updatesTarget = n.updatesTarget
  lacksRivals : m.lacksRivals = n.lacksRivals
  hasBlockBody : m.hasBlockBody = n.hasBlockBody
  shorthand : m.has "shorthand" = n.has "shorthand"
  async : n.StartsAsync → m.StartsAsync

namespace Node.Alike

variable {n m : Node} {e : Surroundings} {P : Prop}

theorem is_eq (h : n.Alike m) (k : Kind) : m.is k = n.is k := by rw [is, is, h.kind]

/-- Attributes with the same values look alike. What matters is never the value of a property itself, nor
what belongs to a whole run. -/
theorem of_get (h : ∀ key, key ∉ ["value", "comments", "tokens", "errors"] → m.get key = n.get key) : n.Alike m := by
  have hkind : m.kind? = n.kind? := by rw [kind?, kind?, h _ (by decide)]
  have his (k : Kind) : m.is k = n.is k := by rw [is, is, hkind]
  have hchild (key : String) (hkey : key ∉ ["value", "comments", "tokens", "errors"]) :
      m.child? key = n.child? key := by
    rw [child?, child?, h _ hkey]
  have hchildren (key : String) (hkey : key ∉ ["value", "comments", "tokens", "errors"]) :
      m.children key = n.children key := by
    rw [children, children, h _ hkey]
  refine ⟨hkind, ?_, ?_, ?_, ?_, ?_, ?_, ?_, ?_, fun hasync => ?_⟩
  · rw [label?, label?, hchild _ (by decide)]
  · rw [Node.hasInitializer, Node.hasInitializer, hchildren _ (by decide)]
  · rw [Node.clears, Node.clears, hchildren _ (by decide)]
  · rw [Node.assignsTarget, Node.assignsTarget, hchild "left" (by decide), textOf, textOf, h "operator" (by decide)]
  · simp only [Node.updatesTarget, hchild "argument" (by decide)]
  · rw [Node.lacksRivals, Node.lacksRivals, hchildren _ (by decide), hchildren _ (by decide), hchildren _ (by decide)]
  · simp only [Node.hasBlockBody, hchild "body" (by decide)]
  · rw [has, has, h _ (by decide)]
  · cases hasync with
    | name hk hname => exact .name (his _ ▸ hk) (by rwa [textOf, h _ (by decide)])
    | function hk hasync => exact .function (his _ ▸ hk) (by rwa [has, h _ (by decide)])
    | link hl hk hlink hm =>
      refine .link hl (his _ ▸ hk) ?_ hm
      rw [hchild _ ?_, hlink]
      revert hl
      simp only [chainLinks, List.mem_cons, List.not_mem_nil, or_false]
      rintro (rfl | rfl | rfl) <;> decide

theorem isIn_eq (h : n.Alike m) (name : String) (slots : List (Kind × String)) :
    Step.isIn ⟨m, name⟩ slots = Step.isIn ⟨n, name⟩ slots := by
  simp only [Step.isIn, h.is_eq]

theorem below_eq (h : n.Alike m) (e : Surroundings) (name : String) : e.below ⟨m, name⟩ = e.below ⟨n, name⟩ := by
  simp only [Surroundings.below, Step.isFunctionBody, Step.isLoopBody, Step.isSwitchBody, Step.label?,
    isFunction, isLoop, h.is_eq, h.label, h.hasBlockBody]

theorem pending (h : n.Alike m) (hn : Step.Pending ⟨n, name⟩ P) : Step.Pending ⟨m, name⟩ P := by
  refine ⟨(h.isIn_eq name _).trans hn.1, fun hpass => hn.2 ⟨?_, fun hk => ?_, fun hk => ?_, ?_⟩⟩
  · exact h.isIn_eq name _ ▸ hpass.slot
  · exact h.shorthand ▸ hpass.shorthand ((h.is_eq _).trans hk)
  · exact h.clears ▸ hpass.clears ((h.is_eq _).trans hk)
  · exact fun hk hname hasync => hpass.async ((h.is_eq _).trans hk) hname (h.async hasync)

theorem allows (h : n.Alike m) (hextra : m.kind?.isSome → m.extra.lookup "type" = none)
    (hn : e.Allows P n) : e.Allows P m := by
  obtain ⟨-, hcontinues, hbreaks, hjumps, hlabels, hreturns, hinitializes, hassigns, hupdates, hrivals⟩ := hn
  refine ⟨hextra, ?_, ?_, ?_, ?_, ?_, ?_, ?_, ?_, ?_⟩ <;> simpa only [h.is_eq, h.label, h.hasInitializer,
    h.clears, h.assignsTarget, h.updatesTarget, h.lacksRivals]

end Node.Alike

theorem Step.Pending.mono {st : Step} (h : P → Q) (hP : st.Pending P) : st.Pending Q :=
  ⟨hP.1, fun hpass => h (hP.2 hpass)⟩

theorem Surroundings.Allows.mono {e : Surroundings} (h : P → Q) (hP : e.Allows P n) : e.Allows Q n :=
  { hP with initializes := fun hk hn hc => h (hP.initializes hk hn hc) }

namespace Fits

variable {e : Surroundings} {P Q : Prop} {v : Value} {n : Node}

theorem mono (hv : Fits e P v) (h : P → Q) : Fits e Q v := by
  induction hv generalizing Q with
  | scalar hv => exact .scalar hv
  | list _ ih => exact .list fun v hv => ih v hv h
  | dict _ ih => exact .dict fun p hp => ih p hp h
  | object hn _ ih => exact .object (hn.mono h) fun f hf hplace => ih f hf hplace (.mono h)

theorem node_iff : Fits e P (.node n) ↔ e.Allows P n ∧ ∀ f ∈ n.fields ++ n.extra, isPlace f.1 = false →
      Fits (e.below ⟨n, f.1⟩) (Step.Pending ⟨n, f.1⟩ P) f.2 := by
  constructor
  · intro h
    generalize hv : Value.node n = v at h
    cases h with
    | scalar h => cases hv ▸ h
    | object hn hf =>
      cases hv
      exact ⟨hn, hf⟩
    | _ => cases hv
  · exact fun h => .object h.1 h.2

theorem list_iff : Fits e P (.list vs) ↔ ∀ v ∈ vs, Fits e P v := by
  refine ⟨fun h => ?_, .list⟩
  generalize hv : Value.list vs = v at h
  cases h with
  | scalar h => cases hv ▸ h
  | list h =>
    cases hv
    exact h
  | _ => cases hv

/-- **Every node of a value that fits** may stand where it does. -/
theorem allows (hv : Fits e P v)
    (h : (Value.node n).Path path v) : (e.along path).Allows (pendingAlong P path) n := by
  induction hv generalizing path with
  | scalar hv => cases h <;> cases hv
  | list _ ih =>
    cases h with
    | item hv h => exact ih _ hv h
  | dict _ ih =>
    cases h with
    | entry hp h => exact ih _ hp h
  | object hn _ ih =>
    generalize hw : Value.object _ _ _ _ _ = w at h
    cases h with
    | here =>
      cases hw
      exact hn
    | field hf hplace h =>
      cases hw
      have := ih _ hf hplace h
      simpa [Surroundings.along, pendingAlong, List.foldr_append] using this
    | _ => cases hw

end Fits

end EcmaSyntax
