import EcmaSyntax.Proofs.Derivation

namespace EcmaSyntax

open Parse

set_option synthInstance.maxSize 100000000000000
set_option synthInstance.maxHeartbeats 200000

variable {m : Member} {hasConstructor d isAsync : Bool} {start : Mark} {e : Node} {first : Token} {α : Type}

/-! ### What is read through the rules -/

/-- Each rule reads at least one token. -/
class Recur.Reads (V : View) (r : Recur) : Prop where
  assignment : EcmaSyntax.Reads V r.assignment
  exponentiation : EcmaSyntax.Reads V r.exponentiation
  unary : EcmaSyntax.Reads V r.unary
  callChain : EcmaSyntax.Reads V r.callChain
  memberChain : EcmaSyntax.Reads V r.memberChain
  pattern (kind : Option Declares) : EcmaSyntax.Reads V (r.pattern kind)
  statement : EcmaSyntax.Reads V r.statement
  item : EcmaSyntax.Reads V r.item
  element : [Markup V] → EcmaSyntax.Reads V r.element

attribute [instance] Recur.Reads.assignment Recur.Reads.exponentiation Recur.Reads.unary
  Recur.Reads.callChain Recur.Reads.memberChain Recur.Reads.pattern Recur.Reads.statement
  Recur.Reads.item Recur.Reads.element

namespace Grammar

variable {V : View} {a j w : V.Moment} {must : Bool} {r : Recur} [Recur.Reads V r] {hasProto : Bool}
  {t : Token} {n : Node} {param : Value}

/-! ### Names, keys and binding patterns -/

section

variable {kind : Option Declares}

instance : Reads V (propertyKey r) :=
  ⟨fun _ => by
    unfold propertyKey
    refine .here fun start => .next fun t => ?_
    split <;> infer_instance⟩

instance : Reads V (pattern r kind) := inferInstance

end

/-! ### Functions -/

instance : Derives false w w (directives r) := by
  refine .loop inferInstance nofun fun t x => ?_
  obtain ⟨⟨body, octal⟩, hbody, -⟩ := x
  have : Sound w t.now body := ⟨hbody⟩
  refine .peek fun first => ?_
  split
  · refine .bind (Reads.out t.now) fun u statement _ => .quiet inferInstance fun _ => ?_
    split
    · cases octal <;> infer_instance
    · infer_instance
  · infer_instance

instance : Reads V (functionBody r) := inferInstance
instance : Reads V (block r) := inferInstance

instance [Later a w] [Sound a w f] : Derives false a w (formalParameter r f) := by
  unfold formalParameter
  infer_instance

instance : Reads V (formalParameters r name) := inferInstance

section

variable {α : Type} [Carrier V α] {p : Parse α} {y : Bool} {x : Option Bool}

instance [Derives must a w p] : Derives must a w (withStrictness f p) :=
  inferInstanceAs (Derives must a w (within _ _ p))
instance [Derives must a w p] : Derives must a w (withYield y x p) :=
  inferInstanceAs (Derives must a w (within _ _ p))
instance [Reads V p] : Reads V (withYield y x p) := ⟨fun _ => inferInstance⟩

end

instance : Reads V (plainMethod r) :=
  ⟨fun _ => by unfold plainMethod plainMethodNode; infer_instance⟩
instance : Reads V (getter r) := ⟨fun _ => by unfold getter plainMethodNode; infer_instance⟩

instance : Quiet d (checkSetter f) := by
  unfold checkSetter
  split <;> infer_instance

instance : Reads V (setter r) := ⟨fun _ => by unfold setter plainMethodNode; infer_instance⟩

instance : Reads V (functionDeclaration r nameIsOptional) := inferInstance
instance : Reads V (functionExpression r) := inferInstance

/-! ### Classes -/

instance [Later a w] [Sound a w m] : Derives false a w (asyncKey r m) := by
  unfold asyncKey
  infer_instance

instance [Later a w] [Reads V value] : Derives false a w (keyedMember r m kind value) := inferInstance

instance [Later a w] [Sound a w m] : Derives false a w (fieldValue r m) := by
  unfold fieldValue
  infer_instance

instance [Opens j start] [Reached j w] [Later j w] [Sound j w m] :
    Derives false j w (memberByToken r start m) := by
  refine .peek fun t => ?_
  dsimp only
  split
  · split
    · infer_instance
    · split
      · infer_instance
      · refine .settings (fun _ _ => rfl) fun c _ => ?_
        simp only [Derives.discard_eq, bind_assoc]
        infer_instance
  all_goals infer_instance

instance [Sound a w m] : Derives false a w (checkMember m hasConstructor) := by
  unfold checkMember
  infer_instance

instance [Opens j start] [Reached j w] [Later j w] [Sound j w m] : Gives j w (member r start hasConstructor m) :=
  ⟨by
    unfold member
    infer_instance⟩

/-! ### Markup -/

section

variable [Markup V]

instance : Reads V leaveMarkup := inferInstanceAs (Reads V skip)

instance : Derives false w w reenterMarkup := by
  unfold reenterMarkup
  infer_instance

instance : Reads V markupIdentifier := ⟨fun _ => .markupIdentifier Markup.out⟩
instance : Reads V emptyExpression := ⟨fun _ => .emptyExpression Markup.out⟩

instance [Opens j start] [Later j w] [Sound j w space] : Gives j w (namespacedName start space) :=
  ⟨by unfold namespacedName; infer_instance⟩

instance : Reads V elementName :=
  ⟨fun _ => by
    unfold elementName
    -- All parts of the name are read from its start on.
    refine .markupHere Markup.out fun t start => .weaken t.later ?_
    infer_instance⟩

instance : Reads V (namedAttribute r) :=
  ⟨fun _ => .namedAttribute Markup.out Reads.out Reads.out Reads.out⟩

instance : Derives false w w (attributes r) := by
  unfold attributes
  infer_instance

instance : Derives false w w (markupChildren r) := inferInstance

instance : Reads V (element r) :=
  ⟨fun _ => .element Markup.out Reads.out (fun _ => inferInstance) fun _ => inferInstance⟩

end

/-! ### Primary expressions -/

instance [Opens w start] : Derives true w w (propertyHead r start) := by
  unfold propertyHead
  infer_instance

instance [Opens j start] [Reached j w] [Later j w] [Sound j w key] :
    Gives j w (propertyValue r start hasProto h key) :=
  ⟨by unfold propertyValue; infer_instance⟩

instance : Reads V (objectProperty r hasProto) :=
  ⟨fun w => by
    unfold objectProperty
    refine .here fun start => .bind (inferInstance : Derives true w w (propertyHead r _))
      fun t h ht => .peek fun first => ?_
    obtain ⟨⟨token, key, computed, isAsync⟩, hkey⟩ := h
    have : Reached w t.now := ⟨ht rfl⟩
    cases key with
    | none => infer_instance
    | some key =>
      have : Sound w t.now key := ⟨hkey key rfl⟩
      infer_instance⟩

instance : Reads V templateChunk :=
  ⟨fun _ => by
    unfold templateChunk
    refine .here fun start => .next fun t => ?_
    split <;> infer_instance⟩

instance : Derives false w w expectArrow := by unfold expectArrow; infer_instance

instance [Later a w] [Sound a w e] : Derives true a w (closeGroup e) := by
  unfold closeGroup
  infer_instance

instance {first : Node} [Begins j t] [Reached j w] [Later j w] [Sound j w first] : Gives j w (groupRest r first t) :=
  ⟨by
    unfold groupRest
    infer_instance⟩

theorem derives_markExpression (hb : V.begins w t)
    (ht : t.lexeme = .punctuator mark) : Derives true w w (markExpression r mark) := by
  unfold markExpression
  iterate 3
    split
    · infer_instance
  split
  · next h => exact .regexLiteral hb (by simpa [Lexeme.isSlash, Lexeme.isMark, ht, Text.isAny] using h)
  · infer_instance

instance : Reads V (primary r) :=
  ⟨fun w => by
    unfold primary
    refine .settings (fun _ _ => rfl) fun c hc => .quiet inferInstance fun sees => ?_
    split
    · next h =>
      have : Markup V := ⟨hc (by simp_all)⟩
      infer_instance
    · refine .here fun start => .peek fun t => ?_
      split <;> first | infer_instance | exact derives_markExpression t.begins (by assumption)⟩

/-! ### Accesses and calls -/

section

variable {optional allowCall : Bool} [Opens j start] [Later j w] [Sound j w e]

instance : Gives j w (computedAccess r start e optional) :=
  ⟨by unfold computedAccess; infer_instance⟩
instance : Gives j w (staticAccess start e optional) := ⟨by unfold staticAccess; infer_instance⟩
instance : Gives j w (optionalLink r start allowCall e) := ⟨by unfold optionalLink; infer_instance⟩

instance [Reached j w] : Gives j w (memberLink r start allowCall e) :=
  ⟨by unfold memberLink; infer_instance⟩
instance : Gives j w (callLink r start isAsync e) := ⟨by unfold callLink; infer_instance⟩

end

/-! ### Binary operators -/

/-- The left operands of pending operators were read one after the other, the innermost last, and
the last of them before a moment `k`. -/
def Stacked (V : View) (a b : V.Moment) : V.Moment → List Pending → Prop
  | k, [] => V.later a k
  | k, p :: ps => ∃ j, V.later j k ∧ V.reached j b ∧ V.begins j p.left.first
    ∧ Carrier.sound V j b p.left.node ∧ Carrier.sound V j b p.operator ∧ Stacked V a b j ps

section

omit [Recur.Reads V r]

theorem Stacked.mono {a' b b' : V.Moment} (ha : V.later a' a) (hb : V.later b b') :
    ∀ {k : V.Moment} {stack : List Pending}, Stacked V a b k stack → Stacked V a' b' k stack
  | _, [], h => V.later_trans ha h
  | _, _ :: _, ⟨j, hj, hr, hfirst, hnode, hop, h⟩ =>
    ⟨j, hj, V.reached_later hr hb, hfirst, Carrier.mono (V.later_refl j) hb hnode,
      Carrier.mono (V.later_refl j) hb hop, h.mono ha hb⟩

/-- Pending operators, and the operand that was read last. -/
instance : Carrier V (List Pending × Operand) :=
  ⟨fun i x => ∃ k, V.later k i.last ∧ V.reached k i.last ∧ V.begins k x.2.first
      ∧ Carrier.sound V k i.last x.2.node ∧ Stacked V i.first i.last k x.1,
    fun ⟨ha, hb⟩ ⟨k, hk, hr, hfirst, hnode, h⟩ =>
      ⟨k, V.later_trans hk hb, V.reached_later hr hb, hfirst, Carrier.mono (V.later_refl k) hb hnode, h.mono ha hb⟩⟩

instance : Quiet d seenPrecedence := inferInstance

/-- An operator with both operands takes the place of the left one. -/
theorem complete_bind [Carrier V α] {p : Pending} {ps : List Pending} {right : Operand}
    {lineStart : Nat} {f : Operand → Parse α} (h : Carrier.sound V a w (p :: ps, right))
    (hf : ∀ (t : Since w) (left : Operand), Carrier.sound V a t.now (ps, left) →
      Derives must a t.now (f left)) : Derives must a w (p.complete lineStart right >>= f) := by
  obtain ⟨k, hk, -, -, hright, j, hjk, hr, hfirst, hleft, hop, hps⟩ := h
  have : Begins j p.left.first := ⟨hfirst⟩
  have : Later j w := ⟨V.later_trans hjk hk⟩
  have : Reached j w := ⟨hr⟩
  have : Sound j w p.operator := ⟨hop⟩
  have : Sound j w p.left.node := ⟨hleft⟩
  have : Sound j w right.node := ⟨Carrier.mono hjk (V.later_refl w) hright⟩
  have hfinish : Gives j w (Parse.finish (p.left.first.startMark lineStart)
      (.binaryExpression p.operator p.left.node right.node)) := inferInstance
  simp only [Pending.complete, bind_assoc, pure_bind]
  exact .bind hfinish.out fun t n _ => hf t _
    ⟨j, V.later_trans hjk (V.later_trans hk t.later), V.reached_later hr t.later, hfirst, n.sound,
      hps.mono (V.later_refl a) t.later⟩

theorem derives_reduceTo (prec : Nat) : ∀ (stack : List Pending) {w : V.Moment} (right : Operand),
    Carrier.sound V a w (stack, right) → Derives false a w (reduceTo prec stack right) := by
  intro stack
  induction stack with
  | nil =>
    intro _ _ h
    exact .pure (fun hmust => absurd hmust Bool.false_ne_true) h
  | cons p ps ih =>
    intro _ right h
    rw [reduceTo]
    split
    · exact .pure (fun hmust => absurd hmust Bool.false_ne_true) h
    · exact complete_bind h fun t left hleft => ih left hleft

theorem derives_reduceAll : ∀ (stack : List Pending) {w : V.Moment} (right : Operand),
    Carrier.sound V a w (stack, right) → Derives true a w (reduceAll stack right)
  | [], w, _, ⟨_, _, hr, _, hnode, hk⟩ =>
    .pure (fun _ => V.reached_of_later hk hr) (Carrier.mono hk (V.later_refl w) hnode)
  | _ :: ps, _, _, h => complete_bind h fun _ left hleft => derives_reduceAll ps left hleft

end

/-- Reading an operator and another operand makes the last operand its left one. -/
theorem shift_bind [Carrier V α] {f : Pending × Operand → Parse α} (h : Carrier.sound V a w (stack, left))
    (hf : ∀ (t : Since w) (p : Pending) (right : Operand),
      Carrier.sound V a t.now (p :: stack, right) → Derives must a t.now (f (p, right))) :
    Derives must a w (shift r prec left >>= f) := by
  obtain ⟨k, hk, hkr, hfirst, hnode, hstack⟩ := h
  simp only [shift, bind_assoc, pure_bind]
  refine .next fun t => .peek fun first => .bind (Reads.out t.now) fun u right hr => ?_
  have hl : V.later w u.now := V.later_trans t.later u.later
  have hop : Sound k u.now (Value.ofLexeme t.token.lexeme) := inferInstance
  exact hf ⟨u.now, hl⟩ _ _ ⟨t.now, u.later, hr rfl, first.begins, right.sound, k,
    V.later_trans hk t.later, V.reached_later hkr hl, hfirst, Carrier.mono (V.later_refl k) hl hnode,
    hop.out, hstack.mono (V.later_refl a) hl⟩

instance : Reads V (binaryExpression r) := by
  refine ⟨fun w => ?_⟩
  refine .peek fun first => .bind (Reads.out w : Derives true w w (inherit (exponentiation r)))
    fun t e he => .quiet inferInstance fun prec => ?_
  have hr : V.reached w t.now := he rfl
  split
  · exact .pure (fun _ => hr) e.sound
  have hfirst : Carrier.sound V w t.now (([] : List Pending), Operand.mk e.get first.token) :=
    ⟨w, t.later, hr, first.begins, e.sound, V.later_refl w⟩
  refine .quiet inferInstance fun _ => shift_bind hfirst fun u p right hright => ?_
  have hstart : Sound w u.now ([p], right) := ⟨hright⟩
  refine .bind (?_ : Derives false w u.now _) fun v x _ =>
    derives_reduceAll x.get.1 x.get.2 x.sound
  refine .loop hstart nofun fun v x => .quiet inferInstance fun prec => ?_
  split
  · exact .pure nofun x.sound
  · refine .bind (derives_reduceTo prec x.get.1 x.get.2 x.sound) fun y z _ => ?_
    exact shift_bind z.sound fun u p right hright => .pure nofun hright

/-! ### Arrows and assignments -/

section

omit [Recur.Reads V r]

theorem is_of_get_type {m : Node} (h : n.get "type" = m.get "type") : n.is k → m.is k := by
  simp only [Node.is, Node.kind?, h]
  exact id

theorem holds_asYieldName (h : V.Holds a w (.node n)) (hn : n.is .yieldExpression) :
    V.Holds a w (.node (asYieldName n)) := by
  have hget : n.kind? = some .yieldExpression := by simpa [Node.is] using hn
  have hnot {k : Kind} (hk : .identifier ≠ k) (hk' : .yieldExpression ≠ k) :
      ¬ (n.set "type" (.kind .identifier)).is k := by
    simp only [Node.is, Node.kind?] at hget ⊢
    rcases n.get_set_self "type" (.kind .identifier) with h | h
    · rw [h]; simpa using hk
    · rw [h, hget]; simpa using hk'
  have helement : ¬ n.is .jsxElement := by rw [Node.is, hget]; decide
  have hspan : n.span ≠ none := h.span_ne_none hn (by decide)
  have hspan' : ((n.set "type" (.kind .identifier)).set "name" (.word "yield")).span ≠ none := by
    rwa [Node.set_span, Node.set_span]
  have htype : V.Holds a w (.node (n.set "type" (.kind .identifier))) :=
    h.set hspan trivial (fun h => absurd h (hnot (by decide) (by decide))) (by decide) (by decide)
      helement fun h => absurd h (hnot (by decide) (by decide))
  have hname : V.Holds a w (.node ((n.set "type" (.kind .identifier)).set "name" (.word "yield"))) :=
    htype.set (by rwa [Node.set_span]) trivial (is_of_get_type (Node.get_set_of_ne (by decide)))
      (by decide) (by decide) (hnot (by decide) (by decide))
      (is_of_get_type (Node.get_set_of_ne (by decide)))
  exact (hname.erase hspan' (by decide)).erase hspan' (by decide)

instance [hp : Sound a w param] : Derives false a w (coverParameter isAsync param) := by
  unfold coverParameter
  split
  · next p hnode =>
    have hp : V.Holds a w (.node p) := View.Holds.asNode hp.out hnode
    split
    · next hpattern =>
      split
      · next right hright =>
        by_cases hyield : right.is .yieldExpression
        · have hinside := (hp.get_inside "right").asNode hright
          have : Sound a w (Value.node (p.set "right" (asYieldName right))) :=
            ⟨hp.set (hp.span_ne_none hpattern (by decide)) (holds_asYieldName hinside hyield)
              (is_of_get_type (Node.get_set_of_ne (by decide))) (by decide) (by decide)
              (by rw [Node.is, beq_iff_eq.1 hpattern]; decide)
              (is_of_get_type (Node.get_set_of_ne (by decide)))⟩
          infer_instance
        · rw [if_neg hyield]
          infer_instance
      · infer_instance
    · infer_instance
  · infer_instance

/-- What is done to the items of a list, one after the other. -/
theorem derives_mapM [Carrier V α] [Carrier V β] {f : α → Parse β}
    (hf : ∀ (w : V.Moment) (x : α), Sound a w x → Derives false a w (f x)) :
    ∀ (l : List α) (w : V.Moment), Sound a w l → Derives false a w (l.mapM f)
  | [], _, _ => by
    rw [List.mapM_nil]
    infer_instance
  | x :: l, w, h => by
    rw [List.mapM_cons]
    have hx : Sound a w x := ⟨h.out x List.mem_cons_self⟩
    refine .bind (hf w x hx) fun t y _ => ?_
    have hl : Sound a t.now l :=
      ⟨fun z hz => Carrier.mono (V.later_refl a) t.later (h.out z (List.mem_cons_of_mem x hz))⟩
    exact .bind (derives_mapM hf l t.now hl) fun u ys _ => inferInstance

instance [Sound a w e] : Derives false a w (coverFormals e) := by
  unfold coverFormals
  split
  · have hparams : Sound a w (if e.is .identifier then [Value.node e] else (e.get "params").items) :=
      inferInstance
    refine .bind (derives_mapM (fun _ _ _ => inferInstance) _ w hparams) fun t params _ =>
      .quiet inferInstance fun c => ?_
    have : Sound a t.now (params.get.foldl (fun f p => f.push c.strict p
        (p.boundNames.map fun name => (Culprit.expression, name))) (Formals.start none)) := by
      have hpush (fs : List Value) (h : ∀ p ∈ fs, V.Holds a t.now p) (f : Formals)
          (hf : Sound a t.now f) : Sound a t.now (fs.foldl (fun f p => f.push c.strict p
            (p.boundNames.map fun name => (Culprit.expression, name))) f) := by
        induction fs generalizing f with
        | nil => exact hf
        | cons p ps ih =>
          have : Sound a t.now p := ⟨h p List.mem_cons_self⟩
          exact ih (fun q hq => h q (List.mem_cons_of_mem p hq)) _ inferInstance
      exact hpush params.get params.sound _ inferInstance
    infer_instance
  · infer_instance

end

instance [Opens j start] [Later j w] [Sound j w f] : Gives j w (arrowRest r start isAsync f) :=
  ⟨by unfold arrowRest; infer_instance⟩

instance [Begins j first] [Reached j w] [Later j w] [Sound j w e] : Gives j w (arrowFunction r first e) := by
  refine ⟨?_⟩
  refine .quiet inferInstance fun _ => .bind (inferInstance : Derives false j w (coverFormals e)) fun t f _ => ?_
  obtain ⟨f, hf⟩ := f
  cases f with
  | none => infer_instance
  | some f =>
    have : Sound j t.now f := ⟨hf f rfl⟩
    infer_instance

instance [∀ x, Quiet d (f x)] {l : List α} : Quiet d (l.mapM f) := by
  induction l with
  | nil => exact .pure _
  | cons x l ih =>
    rw [List.mapM_cons]
    infer_instance

instance : Quiet d (coverParameter isAsync param) := by
  unfold coverParameter Parse.peek
  split
  · split
    · split <;> infer_instance
    · infer_instance
  · infer_instance

instance : Quiet d (coverFormals e) := inferInstance

instance [Begins j first] [Later j w] [Sound j w left] : Gives j w (assignmentRest r first left) :=
  ⟨by unfold assignmentRest; infer_instance⟩

instance : Quiet d startsExpression := by
  refine .bind inferInstance fun t => ?_
  split
  · exact .settings (fun _ _ _ _ => rfl) fun _ => inferInstance
  all_goals infer_instance

instance [Later a w] [Sound a w e] : Derives false a w (asyncParameter r first e) := by
  unfold asyncParameter
  infer_instance

/-! ### Statements -/

instance {x : Skipped w} : Gives x.now x.now missingStatement :=
  ⟨by unfold missingStatement; infer_instance⟩

/-! ### Loops with a variable -/

section

variable {left : Node} {isAwait : Bool}

instance [Later a w] [Sound a w left] : Derives true a w (loopNames r left) := by
  unfold loopNames
  infer_instance
instance [Later a w] [Sound a w left] : Derives true a w (loopValues r left) := by
  unfold loopValues
  infer_instance

instance : Reads V (variableLoopHead r isAwait) := by
  refine ⟨fun w => ?_⟩
  refine .here fun start => .bind (Reads.out w : Derives true w w skip) fun t _ ht =>
    .bind (Reads.out t.now) fun u declarations hu => ?_
  have : Reached w u.now := ⟨V.reached_of_later t.later (hu rfl)⟩
  split <;> infer_instance

instance : Reads V (lexicalLoopHead r isAwait) := by
  refine ⟨fun w => ?_⟩
  refine .here fun start => .next fun t => .quiet inferInstance fun _ => .peek fun _ => ?_
  refine @Derives.ite _ _ _ _ _ _ _ _ _ _ inferInstance (.bind (Reads.out t.now) fun u declarations hu => ?_)
  dsimp only
  split <;> infer_instance

instance : Derives false w w (expressionBefore r mark) := by
  unfold expressionBefore
  infer_instance

/-- The rest of a loop with a variable, after its head. -/
instance [Opens j start] [Reached j w] [Later j w]
    [h : Sound j w head] : Gives j w (forRest r start isAwait head) := by
  refine ⟨?_⟩
  unfold forRest
  obtain ⟨h⟩ := h
  cases head with
  | steps init =>
    have : Sound j w init := ⟨h⟩
    infer_instance
  | names left right | values left right =>
    have : Sound j w left := ⟨h.1⟩
    have : Sound j w right := ⟨h.2⟩
    infer_instance

end

/-! ### Jumps and other statements -/

instance : Derives false w w jumpLabel := by unfold jumpLabel; infer_instance

instance : Quiet d (checkCaught seen names) := by
  induction names generalizing seen <;> unfold checkCaught <;> infer_instance

instance : Reads V (statement r) :=
  ⟨fun _ => by
    unfold statement
    refine .peek fun t => ?_
    split <;> infer_instance⟩

/-! ### Imports -/

instance (priority := high) [Carrier V β] {f : α → Parse β} : Derives must a w (refuseMissingFrom >>= f) := by
  unfold refuseMissingFrom
  rw [bind_assoc]
  infer_instance
instance : Derives false w w importedNames := by unfold importedNames; infer_instance

/-! ### Exports -/

instance [Opens j start] [Reached j w] [Later j w] [Moved w] : Gives j w (exportNames start) :=
  ⟨by unfold exportNames; infer_instance⟩

/-! ### Programs -/

instance : Reads V (item r) := ⟨fun _ => by unfold item; infer_instance⟩

/-- Each rule reads at least one token, however deep it is nested. -/
instance reads_run : ∀ depth : Nat, Recur.Reads V (run depth)
  | 0 =>
    have refused {α : Type} [Carrier V α] {p : Parse α} (h : p = throw .exhausted) : Reads V p :=
      ⟨fun _ => h ▸ .throw _⟩
    by constructor <;> intros <;> exact refused rfl
  | depth + 1 => by
    have := reads_run depth
    constructor <;> infer_instance

instance : Derives false w w (programBody r) := by unfold programBody; infer_instance

/-- What all rules together read, they read however deep they are nested. -/
theorem derives_whole [Carrier V α] {p : Recur → Parse α}
    (hp : ∀ r : Recur, Recur.Reads V r → Derives must a w (p r)) : Derives must a w (whole p) :=
  .settings (fun _ _ => rfl) fun _ _ => hp _ inferInstance

end Grammar

end EcmaSyntax
