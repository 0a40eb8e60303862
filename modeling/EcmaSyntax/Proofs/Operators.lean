import EcmaSyntax.Proofs.Fitting.Rules
import EcmaSyntax.Proofs.Nesting
import Mathlib.Data.List.Forall2

/-!
# How operators bind

Operands with operators between them are put together with a stack of operators that wait for their right
operand. On the stack, each operator binds more tightly than the one below it. So what is put together is
ordered: an operator has on its left what binds at least as tightly, and on its right what binds more tightly.
There is one such tree only for operators with given precedences, and its shape does not depend on anything but
the order of these.
-/

namespace EcmaSyntax

open Parse Grammar
open Ensures (bind_iff step_iff)

set_option synthInstance.maxSize 100000000000000

variable {s t : ParseState} {ps : List Pending} {tree tree' : Compound}

/-- What operands with operators between them are put together to. -/
inductive Compound where
  | operand (n : Node)
  /-- A node for an operator, and what stands beside the operator. -/
  | made (n : Node) (o : Token) (left right : Compound)

namespace Compound

def node : Compound → Node
  | operand n | made n _ _ _ => n

/-- The operands and the operators, in order. -/
def words : Compound → List (Node ⊕ Token)
  | operand n => [.inl n]
  | made _ o left right => left.words ++ .inr o :: right.words

/-- An operand, or a node for an operator that binds at least so tightly. -/
def Binds (prec : Token → Nat) (bound : Nat) : Compound → Prop
  | operand _ => True
  | made _ o _ _ => bound ≤ prec o

/-- An operator has on its left what binds at least as tightly, and on its right what binds more tightly. -/
def Ordered (prec : Token → Nat) : Compound → Prop
  | operand _ => True
  | made _ o left right =>
    left.Binds prec (prec o) ∧ right.Binds prec (prec o + 1) ∧ left.Ordered prec ∧ right.Ordered prec

/-- The nodes for operators were finished with what stands beside their operators. -/
def IsMade (d : Delegate) : Compound → Prop
  | operand _ => True
  | made n o left right => left.IsMade d ∧ right.IsMade d ∧ ∃ k span,
    n = (Event.make d k false (.binaryExpression (.ofLexeme o.lexeme) left.node right.node) span).taken

end Compound

/-! ### Stacks -/

section

variable {prec : Token → Nat} {d : Delegate}

/-- What waits on a stack, with what was read up to there, and how tightly the right operand must bind. -/
inductive Stands (prec : Token → Nat) (d : Delegate) : List Pending → List (Node ⊕ Token) → Nat → Prop
  | nil : Stands prec d [] [] 0
  | cons {p : Pending} {ps : List Pending} {words : List (Node ⊕ Token)} {b : Nat} {o : Token} (left : Compound) :
    Stands prec d ps words b → b ≤ prec o → p.operator = .ofLexeme o.lexeme → p.precedence = prec o →
    left.node = p.left.node → left.IsMade d → left.Ordered prec → left.Binds prec (prec o) →
    Stands prec d (p :: ps) (words ++ (left.words ++ [.inr o])) (prec o + 1)

/-- A stack and its right operand, with all that was read. The operand binds at least as tightly as `bound`. -/
def Poised (prec : Token → Nat) (d : Delegate) (stack : List Pending) (right : Operand)
    (all : List (Node ⊕ Token)) (bound : Nat) : Prop :=
  ∃ (words : List (Node ⊕ Token)) (b : Nat) (tree : Compound), Stands prec d stack words b ∧ all = words ++ tree.words
    ∧ tree.node = right.node ∧ tree.IsMade d ∧ tree.Ordered prec ∧ tree.Binds prec b ∧ tree.Binds prec bound

/-- Nothing was done but to finish nodes, and to note that they are no targets. -/
def Settled (s t : ParseState) : Prop :=
  t = { s with
    events := t.events
    context := { s.context with isTarget := t.context.isTarget, isBinding := t.context.isBinding } }

theorem Settled.refl (s : ParseState) : Settled s s := rfl

theorem Settled.trans (h : Settled s t) (h' : Settled t u) : Settled s u := by
  rw [Settled, h', h]

theorem Settled.lookahead (h : Settled s t) : t.lookahead = s.lookahead := by rw [h]
theorem Settled.allowIn (h : Settled s t) : t.context.allowIn = s.context.allowIn := by rw [h]

variable {c : ParseSetting} {right : Operand} {all : List (Node ⊕ Token)} {bound : Nat}

theorem Poised.complete (h : Poised prec c.delegate (p :: ps) right all bound) :
    Ensures (p.complete lineStart right) c s fun o t =>
      Settled s t ∧ Poised prec c.delegate ps o all p.precedence := by
  obtain ⟨_, _, tree, hstack, rfl, hnode, hmade, hordered, hbinds, -⟩ := h
  cases hstack with
  | @cons _ _ words b o left hps hb hoperator hprec hleft hlmade hlordered hlbinds =>
    simp only [Pending.complete, bind_iff, step_iff]
    refine ⟨rfl, words, b, .made _ o left tree, hps, by simp [Compound.words], rfl,
      ⟨hlmade, hmade, s.events.size, ⟨p.left.first.startMark lineStart, s.lastMark⟩, ?_⟩,
      ⟨hlbinds, hbinds, hlordered, hordered⟩, hb, Nat.le_of_eq hprec⟩
    rw [hoperator, hleft, hnode]

theorem Poised.reduceTo (h : Poised prec c.delegate ps right all q) : Ensures (reduceTo q ps right) c s fun x t =>
      Settled s t ∧ Poised prec c.delegate x.1 x.2 all q ∧ ∀ p ∈ x.1.head?, p.precedence < q := by
  induction ps generalizing right s with
  | nil => exact .pure ⟨.refl s, h, by simp⟩
  | cons p ps ih =>
    unfold Grammar.reduceTo
    split
    · next hlt => exact .pure ⟨.refl s, h, by simpa using hlt⟩
    · next hge =>
      refine h.complete.bind fun o t ht => (ih ?_).mono fun x u hu => ⟨ht.1.trans hu.1, hu.2⟩
      obtain ⟨words, b, tree, hstack, hall, hnode, hmade, hordered, hb, hbinds⟩ := ht.2
      refine ⟨words, b, tree, hstack, hall, hnode, hmade, hordered, hb, ?_⟩
      cases tree with
      | operand n => trivial
      | made n o left right => exact Nat.le_trans (Nat.le_of_not_lt hge) hbinds

theorem Poised.reduceAll (h : Poised prec c.delegate ps right all bound) : Ensures (reduceAll ps right) c s fun n _ =>
      ∃ tree : Compound, tree.node = n ∧ tree.words = all ∧ tree.Ordered prec ∧ tree.IsMade c.delegate := by
  induction ps generalizing right s bound with
  | nil =>
    obtain ⟨_, _, tree, hstack, rfl, hnode, hmade, hordered, -, -⟩ := h
    cases hstack
    exact .pure ⟨tree, hnode, rfl, hordered, hmade⟩
  | cons p ps ih => exact h.complete.bind fun o t ht => ih ht.2

end

/-! ### Runs -/

/-- The operators and operands that are read after the first operand. -/
inductive Chain (r : Recur) (c : ParseSetting) (allowIn : Bool) (s : ParseState) :
    List (Token × Node) → ParseState → Prop
  | nil : Chain r c allowIn s [] s
  | snoc {chain : List (Token × Node)} {t t' u v : ParseState} {o : Token} {n : Node} :
    Chain r c allowIn s chain t → Settled t t' → next c t' = .ok o u → precedence allowIn o.lexeme ≠ 0 →
    isolate (exponentiation r) c u = .ok n v → Chain r c allowIn s (chain ++ [(o, n)]) v

/-- A first operand with the operators and operands after it, in order. -/
def chainWords (x : Node) (chain : List (Token × Node)) : List (Node ⊕ Token) :=
  .inl x :: chain.flatMap fun e => [.inr e.1, .inl e.2]

/-- How tightly a token binds where a state stands. -/
def ParseState.prec (s : ParseState) (o : Token) : Nat := precedence s.context.allowIn o.lexeme

/-- From a state on, operands with operators between them are read, up to a token that is no operator, and put
together in order. -/
structure Composes (r : Recur) (c : ParseSetting) (s : ParseState) (x : Node) (chain : List (Token × Node))
    (tree : Compound) : Prop where
  reads : ∃ u v, inherit (exponentiation r) c s = .ok x u ∧ Chain r c s.context.allowIn u chain v
    ∧ s.prec v.lookahead = 0
  words : tree.words = chainWords x chain
  ordered : tree.Ordered s.prec
  isMade : tree.IsMade c.delegate

section

variable {r : Recur} {c : ParseSetting}

theorem eq_lookahead_of_next (h : next c s = .ok o t) : o = s.lookahead :=
  Parse.ensures_next (Q := fun o _ => o = s.lookahead) (.always fun _ _ _ _ => .always fun _ _ _ _ => rfl) o t h

theorem Restores.allowIn [h : Restores ⟨true, true⟩ p] (hrun : p c s = .ok x t) :
    t.context.allowIn = s.context.allowIn := by
  have hframe := congrArg Context.allowIn (h.out c s x t hrun).frame
  exact hframe

/-- Reading an operator and its right operand, once the operators before it are completed. -/
theorem Chain.shift [Recur.Restores r] (h : Chain r c a s chain t)
    (ha : t.context.allowIn = a) (hq : q = precedence a t.lookahead.lexeme) (hne : q ≠ 0) (hsettled : Settled t t')
    (hstack : Poised (precedence a ·.lexeme) c.delegate stack left (chainWords x chain) q)
    (hhead : ∀ p ∈ stack.head?, p.precedence < q) :
    Ensures (Grammar.shift r q left) c t' fun y u => ∃ chain', Chain r c a s chain' u ∧ u.context.allowIn = a
      ∧ ∀ bound, Poised (precedence a ·.lexeme) c.delegate (y.1 :: stack) y.2 (chainWords x chain') bound := by
  simp only [Grammar.shift, bind_iff, step_iff]
  intro o u hnext n v hoperand
  have ho : o = t.lookahead := (eq_lookahead_of_next hnext).trans hsettled.lookahead
  have hprec : q = precedence a o.lexeme := ho ▸ hq
  refine ⟨chain ++ [(o, n)], .snoc h hsettled hnext (hprec ▸ hne) hoperand, ?_, fun bound => ?_⟩
  · exact ((Restores.allowIn hoperand).trans (Restores.allowIn hnext)).trans (hsettled.allowIn.trans ha)
  obtain ⟨words, b, tree, hstands, hall, hnode, hmade, hordered, hb, hbinds⟩ := hstack
  have hbound : b ≤ precedence a o.lexeme := by
    rw [← hprec]
    cases hstands with
    | nil => exact Nat.zero_le q
    | cons _ _ _ _ hp _ _ _ _ => exact hp ▸ hhead _ rfl
  refine ⟨_, _, .operand n, .cons tree hstands hbound rfl hprec hnode hmade hordered
    (hprec ▸ hbinds), ?_, rfl, trivial, trivial, trivial, trivial⟩
  rw [← List.append_assoc, ← hall]
  simp [chainWords, Compound.words]

/-- Operands and operators are put together in order. -/
theorem ensures_binaryExpression [Recur.Restores r] :
    Ensures (binaryExpression r) c s fun n _ => ∃ x chain tree, tree.node = n ∧ Composes r c s x chain tree := by
  unfold binaryExpression
  simp only [bind_iff, step_iff, seenPrecedence]
  intro x u hx
  have ha : u.context.allowIn = s.context.allowIn := Restores.allowIn hx
  simp only [ha]
  split
  · next hzero =>
    refine .pure ⟨x, [], .operand x, rfl, ⟨u, u, hx, .nil, hzero⟩, rfl, trivial, trivial⟩
  next hne =>
  have hfirst {first : Token} : Poised s.prec c.delegate [] ⟨x, first⟩ (chainWords x [])
      (precedence s.context.allowIn u.lookahead.lexeme) :=
    ⟨[], 0, .operand x, .nil, rfl, rfl, trivial, trivial, trivial, trivial⟩
  simp only [bind_iff, notTarget, step_iff]
  have hsettled : Settled u { u with context := { u.context with isTarget := false, isBinding := false } } := rfl
  refine (Chain.nil.shift ha rfl hne hsettled hfirst (by simp)).mono fun y t hy => ?_
  refine (ensures_loop (I := fun (z : List Pending × Operand) t => ∃ chain, Chain r c s.context.allowIn u chain t
      ∧ t.context.allowIn = s.context.allowIn ∧ ∀ bound, Poised s.prec c.delegate z.1 z.2 (chainWords x chain) bound)
    (Q := fun (z : List Pending × Operand) t => ∃ chain, Chain r c s.context.allowIn u chain t ∧ s.prec t.lookahead = 0
      ∧ Poised s.prec c.delegate z.1 z.2 (chainWords x chain) 0) hy fun z t hz => ?_).mono fun z t hz => ?_
  · obtain ⟨chain, hchain, hallowIn, hstack⟩ := hz
    simp only [bind_iff, step_iff, hallowIn]
    split
    · next hzero => exact .pure ⟨chain, hchain, hzero, hstack 0⟩
    next hmore =>
    refine (hstack _).reduceTo.bind fun y u hy => ?_
    refine (hchain.shift hallowIn rfl hmore hy.1 hy.2.1 hy.2.2).bind fun z v hz => ?_
    exact .pure hz
  · obtain ⟨chain, hchain, hend, hstack⟩ := hz
    refine hstack.reduceAll.mono fun n _ hn => ?_
    obtain ⟨tree, hnode, hwords, hordered, hmade⟩ := hn
    exact ⟨x, chain, tree, hnode, ⟨u, t, hx, hchain, hend⟩, hwords, hordered, hmade⟩

end

/-- Whatever `binaryExpression` reads, it puts the operands together in the order in which they are read, as the
precedences of the operators ask for. -/
theorem binaryExpression_composes {depth : Nat} {c : ParseSetting} {s t : ParseState} {n : Node}
    (h : binaryExpression (run depth) c s = .ok n t) :
    ∃ x chain tree, tree.node = n ∧ Composes (run depth) c s x chain tree :=
  ensures_binaryExpression n t h

theorem sum_composes :
    let source := Source.ofText "a<b+c*d-e";
    let c : ParseSetting := ⟨⟨source, 2024, false⟩, false, false, .idle⟩;
    ∃ s n t, begin c (.start source) = .ok () s ∧ binaryExpression (run 5) c s = .ok n t
      ∧ ∃ x chain tree, tree.node = n ∧ Composes (run 5) c s x chain tree := by
  intro source c
  have hrun : Yields begin c (.start source) fun _ s =>
      Yields (binaryExpression (run 5)) c s fun n _ => n.is .binaryExpression := by decide +kernel
  obtain ⟨_, s, hbegin, hrun⟩ := exists_of_yields hrun
  obtain ⟨n, t, hrun, -⟩ := exists_of_yields hrun
  exact ⟨s, n, t, hbegin, hrun, binaryExpression_composes hrun⟩

/-! ### Shapes -/

namespace Compound

variable {prec prec' : Token → Nat} {bound : Nat}

def operators : Compound → List Token
  | operand _ => []
  | made _ o left right => left.operators ++ o :: right.operators

theorem operators_eq (tree : Compound) : tree.operators = tree.words.filterMap Sum.getRight? := by
  induction tree with
  | operand n => rfl
  | made n o left right ihl ihr => simp [operators, words, ihl, ihr]

/-- The operator of which this is the node. -/
def top? : Compound → Option Token
  | operand _ => none
  | made _ o _ _ => some o

theorem binds_iff : tree.Binds prec bound ↔ ∀ o ∈ tree.top?, bound ≤ prec o := by
  cases tree <;> simp [Binds, top?]

/-- Two trees are alike up to what stands in them. -/
def SameShape : Compound → Compound → Prop
  | operand _, operand _ => True
  | made _ _ left right, made _ _ left' right' => left.SameShape left' ∧ right.SameShape right'
  | _, _ => False

theorem SameShape.length_operators (h : tree.SameShape tree') : tree.operators.length = tree'.operators.length := by
  induction tree generalizing tree' with
  | operand n => cases tree' with
    | operand n' => rfl
    | made n' o' left' right' => cases h
  | made n o left right ihl ihr => cases tree' with
    | operand n' => cases h
    | made n' o' left' right' => simp [operators, ihl h.1, ihr h.2]

theorem Ordered.le (h : tree.Ordered prec) (hbinds : tree.Binds prec bound) :
    ∀ q ∈ tree.operators.map prec, bound ≤ q := by
  induction tree generalizing bound with
  | operand n => simp [operators]
  | made n o left right ihl ihr =>
    obtain ⟨hleft, hright, hlordered, hrordered⟩ := h
    intro q hq
    rw [operators, List.map_append, List.map_cons, List.mem_append, List.mem_cons] at hq
    obtain hq | rfl | hq := hq
    · exact Nat.le_trans hbinds (ihl hlordered hleft q hq)
    · exact hbinds
    · exact Nat.le_trans hbinds (Nat.le_of_lt (ihr hrordered hright q hq))

/-- Operators that bind alike are put together alike: at the top stands the last one of those that bind the
least. -/
theorem Ordered.sameShape (h : tree.Ordered prec) (h' : tree'.Ordered prec')
    (hprec : tree.operators.map prec = tree'.operators.map prec') : tree.SameShape tree' := by
  induction tree generalizing tree' with
  | operand n =>
    cases tree' with
    | operand n' => trivial
    | made n' o' left' right' => simp [operators] at hprec
  | made n o left right ihl ihr =>
    cases tree' with
    | operand n' => simp [operators] at hprec
    | made n' o' left' right' =>
      obtain ⟨hleft, hright, hlordered, hrordered⟩ := h
      obtain ⟨hleft', hright', hlordered', hrordered'⟩ := h'
      simp only [operators, List.map_append, List.map_cons] at hprec
      obtain ⟨m, hl', hm⟩ | ⟨m, hl, hm⟩ := List.append_eq_append_iff.1 hprec
      · obtain ⟨rfl, hm⟩ | ⟨m, rfl, hr⟩ := List.cons_eq_append_iff.1 hm
        · rw [List.append_nil] at hl'
          exact ⟨ihl hlordered hlordered' hl'.symm, ihr hrordered hrordered' (List.cons.inj hm).2⟩
        · have hle := hlordered'.le hleft' (prec o) (by simp [hl'])
          have hlt := hrordered.le hright (prec' o') (by simp [hr])
          omega
      · obtain ⟨rfl, hm⟩ | ⟨m, rfl, hr⟩ := List.cons_eq_append_iff.1 hm
        · rw [List.append_nil] at hl
          exact ⟨ihl hlordered hlordered' hl, ihr hrordered hrordered' (List.cons.inj hm).2.symm⟩
        · have hle := hlordered.le hleft (prec' o') (by simp [hl])
          have hlt := hrordered'.le hright' (prec o) (by simp [hr])
          omega

theorem SameShape.split (h : left.SameShape left') (hprec : (made n o left right).operators.map prec
      = (made n' o' left' right').operators.map prec') :
    left.operators.map prec = left'.operators.map prec' ∧ prec o = prec' o'
      ∧ right.operators.map prec = right'.operators.map prec' := by
  simp only [operators, List.map_append, List.map_cons] at hprec
  obtain ⟨hleft, hrest⟩ := List.append_inj hprec (by simp [h.length_operators])
  exact ⟨hleft, List.cons.inj hrest⟩

theorem Binds.of_sameShape (h : tree'.Binds prec' bound) (hshape : tree.SameShape tree')
    (hprec : tree.operators.map prec = tree'.operators.map prec') : tree.Binds prec bound := by
  cases tree with
  | operand n => trivial
  | made n o left right =>
    cases tree' with
    | operand n' => cases hshape
    | made n' o' left' right' => exact Nat.le_trans h (Nat.le_of_eq (hshape.1.split hprec).2.1.symm)

/-- What is put together alike is ordered alike. -/
theorem Ordered.of_sameShape (h : tree'.Ordered prec') (hshape : tree.SameShape tree')
    (hprec : tree.operators.map prec = tree'.operators.map prec') : tree.Ordered prec := by
  induction tree generalizing tree' with
  | operand n => trivial
  | made n o left right ihl ihr =>
    cases tree' with
    | operand n' => cases hshape
    | made n' o' left' right' =>
      obtain ⟨hleft, hright, hlordered, hrordered⟩ := h
      obtain ⟨hl, ho, hr⟩ := hshape.1.split hprec
      rw [← ho] at hleft hright
      exact ⟨hleft.of_sameShape hshape.1 hl, hright.of_sameShape hshape.2 hr, ihl hlordered hshape.1 hl,
        ihr hrordered hshape.2 hr⟩

end Compound

/-! ### Keywords as operators -/

/-- Is this one of the keywords that are operators? -/
def Lexeme.isKeywordOperator (l : Lexeme) : Bool := l.isKeyword "in" || l.isKeyword "instanceof"

/-- This, with the mark in place of a keyword that is an operator. -/
def Lexeme.related (mark : String) (l : Lexeme) : Lexeme :=
  if l.isKeywordOperator then .punctuator mark else l

/-- The operators after an operand, with the mark in place of the keywords. -/
def Related (mark : String) (chain chain' : List (Token × Node)) : Prop :=
  List.Forall₂ (fun e e' => e'.1.lexeme = e.1.lexeme.related mark) chain chain'

/-- No keyword has a mark for an equality on top of its left operand, or one for a relation on top of its right
operand. -/
def Compound.Aligned : Compound → Prop
  | operand _ => True
  | made _ o left right => left.Aligned ∧ right.Aligned ∧ (o.lexeme.isKeywordOperator →
    (∀ o' ∈ left.top?, precedence true o'.lexeme = 7 → o'.lexeme.isKeywordOperator)
      ∧ ∀ o' ∈ right.top?, precedence true o'.lexeme ≠ 8)

theorem precedence_of_isKeywordOperator (h : l.isKeywordOperator) : precedence true l = 7 := by
  cases l with
  | keyword word => obtain h | h := Bool.or_eq_true_iff.1 h <;> simp_all [precedence, Lexeme.isKeyword]
  | _ => cases h

theorem precedence_related (mark : String) (l : Lexeme) : precedence true (l.related mark) =
    if l.isKeywordOperator then precedence true (.punctuator mark) else precedence true l := by
  unfold Lexeme.related
  split <;> rfl

theorem precedence_related_eq (l : Lexeme) : precedence true (l.related "==") = precedence true l := by
  rw [precedence_related]
  split
  · next hl => rw [precedence_of_isKeywordOperator hl, show precedence true (.punctuator "==") = 7 by decide]
  · rfl

/-- In a tree that is ordered, marks for relations are so as well exactly if they are aligned. -/
theorem Compound.Ordered.related_iff (h : tree.Ordered (precedence true ·.lexeme)) :
    tree.Ordered (fun o => precedence true (o.lexeme.related "<")) ↔ tree.Aligned := by
  have hmark : precedence true (.punctuator "<") = 8 := by decide
  have hkeyword := @precedence_of_isKeywordOperator
  induction tree with
  | operand n => exact Iff.rfl
  | made n o left right ihl ihr =>
    obtain ⟨hleft, hright, hlordered, hrordered⟩ := h
    have hl : left.Binds (fun o => precedence true (o.lexeme.related "<")) (precedence true (o.lexeme.related "<")) ↔
        (o.lexeme.isKeywordOperator →
          ∀ o' ∈ left.top?, precedence true o'.lexeme = 7 → o'.lexeme.isKeywordOperator) := by
      simp only [binds_iff, precedence_related, hmark] at hleft ⊢
      grind
    have hr : right.Binds (fun o => precedence true (o.lexeme.related "<"))
        (precedence true (o.lexeme.related "<") + 1) ↔
        (o.lexeme.isKeywordOperator → ∀ o' ∈ right.top?, precedence true o'.lexeme ≠ 8) := by
      simp only [binds_iff, precedence_related, hmark] at hright ⊢
      grind
    simp only [Ordered, Aligned, hl, hr, ihl hlordered, ihr hrordered]
    grind

section

variable {r r' : Recur} {c c' : ParseSetting} {s' : ParseState} {x x' : Node}
  {chain chain' : List (Token × Node)}

theorem Chain.head (h : Chain r c a s chain t) : ∀ e ∈ chain.head?, e.1 = s.lookahead := by
  induction h with
  | nil => simp
  | @snoc chain t t' u v o n h hsettled hnext _ _ ih =>
    cases h with
    | nil => simpa using (eq_lookahead_of_next hnext).trans hsettled.lookahead
    | snoc => simpa using ih

theorem operators_chainWords (x : Node) (chain : List (Token × Node)) :
    (chainWords x chain).filterMap Sum.getRight? = chain.map Prod.fst := by
  induction chain with
  | nil => rfl
  | cons e chain ih => exact congrArg (e.1 :: ·) ih

theorem Composes.operators (h : Composes r c s x chain tree) : tree.operators = chain.map Prod.fst := by
  rw [tree.operators_eq, h.words, operators_chainWords]

theorem Composes.ordered_true (h : Composes r c s x chain tree) (hin : s.context.allowIn) :
    tree.Ordered (precedence true ·.lexeme) := by
  have hordered := h.ordered
  unfold ParseState.prec at hordered
  rwa [hin] at hordered

/-- A mark stands in place of the keywords without a change exactly if what was put together is ordered for it. -/
theorem Composes.sameShape_iff (h : Composes r c s x chain tree)
    (h' : Composes r' c' s' x' chain' tree') (hin' : s'.context.allowIn) (hrelated : Related mark chain chain') :
    tree.SameShape tree' ↔ tree.Ordered fun o => precedence true (o.lexeme.related mark) := by
  have hprec : tree.operators.map (fun o => precedence true (o.lexeme.related mark))
      = tree'.operators.map (precedence true ·.lexeme) := by
    rw [h.operators, h'.operators, List.map_map, List.map_map]
    clear h h'
    induction hrelated with
    | nil => rfl
    | cons he _ ih => rw [List.map_cons, List.map_cons, ih, Function.comp, Function.comp, he]
  exact ⟨fun hshape => (h'.ordered_true hin').of_sameShape hshape hprec,
    fun hordered => hordered.sameShape (h'.ordered_true hin') hprec⟩

theorem Compound.IsMade.eq_operand (h : tree.IsMade .idle) (hnode : tree.node.is .identifier) :
    ∃ n, tree = .operand n := by
  cases tree with
  | operand n => exact ⟨n, rfl⟩
  | made n o left right =>
    obtain ⟨-, -, k, span, rfl⟩ := h
    rw [Node.is, beq_iff_eq] at hnode
    have hkind : ∀ isLogical : Bool,
        (if isLogical then Kind.logicalExpression else .binaryExpression) ≠ .identifier := by decide
    exact absurd (Option.some.inj hnode) (hkind _)

/-- Is this an expression with an operator between two identifiers? -/
def Node.isPair (n : Node) : Bool :=
  n.is .binaryExpression && ((n.child? "left").any (·.is .identifier) && (n.child? "right").any (·.is .identifier))

/-- An operator between two identifiers is all that is read. -/
theorem Composes.eq_pair (h : Composes r c s x chain tree) (hidle : c.delegate = .idle) (hx : x.is .identifier)
    (hnode : tree.node.isPair) :
    ∃ u y, inherit (exponentiation r) c s = .ok x u ∧ chain = [(u.lookahead, y)] ∧ tree.Aligned := by
  obtain ⟨u, v, hrun, hchain, -⟩ := h.reads
  have hmade := h.isMade
  have hwords := h.words
  have hoperators := h.operators
  rw [hidle] at hmade
  simp only [Node.isPair, Bool.and_eq_true] at hnode
  obtain ⟨hkind, hleft, hright⟩ := hnode
  cases tree with
  | operand n =>
    cases List.head_eq_of_cons_eq hwords
    rw [Node.is, beq_iff_eq] at hx hkind
    cases hx.symm.trans hkind
  | made n o left right =>
    obtain ⟨hlmade, hrmade, k, span, rfl⟩ := hmade
    obtain ⟨a, rfl⟩ := hlmade.eq_operand hleft
    obtain ⟨b, rfl⟩ := hrmade.eq_operand hright
    obtain ⟨e, chain, rfl, rfl, hnil⟩ := List.map_eq_cons_iff.1 hoperators.symm
    cases List.map_eq_nil_iff.1 hnil
    have he := hchain.head e rfl
    exact ⟨u, e.2, hrun, by rw [← he], trivial, trivial, by simp [Compound.top?]⟩

/-- What is read where an operator stands between two identifiers, with what can be computed of the operator. -/
theorem exists_pair (r : Recur) (test : Lexeme → Bool) (hidle : c.delegate = .idle)
    (h : Yields begin c (.start c.source) fun _ s => s.context.allowIn
      && (Yields (inherit (exponentiation r)) c s (fun x u => x.is .identifier && test u.lookahead.lexeme)
        && Yields (binaryExpression r) c s fun n _ => n.isPair)) :
    ∃ s n t, begin c (.start c.source) = .ok () s ∧ s.context.allowIn ∧ binaryExpression r c s = .ok n t
      ∧ ∀ x chain tree, tree.node = n → Composes r c s x chain tree → ∃ o y, chain = [(o, y)] ∧ test o.lexeme
        ∧ tree.Aligned := by
  obtain ⟨_, s, hbegin, h⟩ := exists_of_yields h
  simp only [Bool.and_eq_true] at h
  obtain ⟨hin, hfirst, hrun⟩ := h
  obtain ⟨a, u, ha, hfirst⟩ := exists_of_yields hfirst
  obtain ⟨n, t, hrun, hn⟩ := exists_of_yields hrun
  refine ⟨s, n, t, hbegin, hin, hrun, ?_⟩
  rintro x chain tree rfl hcomposes
  obtain ⟨v, w, hx, -⟩ := hcomposes.reads
  cases ha.symm.trans hx
  obtain ⟨ha, htest⟩ := Bool.and_eq_true_iff.1 hfirst
  obtain ⟨v, y, hx', rfl, haligned⟩ := hcomposes.eq_pair hidle ha hn
  cases hx.symm.trans hx'
  exact ⟨_, y, rfl, htest, haligned⟩

end

/-- The keywords among the operators bind like the marks for equality, whatever stands around them. They bind
like the marks for relations exactly if no such mark stands on top of the right operand of a keyword, and no mark
for equality on top of its left operand. -/
theorem keywordOperators_sameShape {depth depth' : Nat} {c c' : ParseSetting} {s s' t t' : ParseState} {n n' : Node}
    (hin : s.context.allowIn) (hin' : s'.context.allowIn) (h : binaryExpression (run depth) c s = .ok n t)
    (h' : binaryExpression (run depth') c' s' = .ok n' t') :
    ∃ x chain tree x' chain' tree', tree.node = n ∧ Composes (run depth) c s x chain tree
      ∧ tree'.node = n' ∧ Composes (run depth') c' s' x' chain' tree'
      ∧ (Related "==" chain chain' → tree.SameShape tree')
      ∧ (Related "<" chain chain' → (tree.SameShape tree' ↔ tree.Aligned)) := by
  obtain ⟨x, chain, tree, hnode, hcomposes⟩ := ensures_binaryExpression n t h
  obtain ⟨x', chain', tree', hnode', hcomposes'⟩ := ensures_binaryExpression n' t' h'
  have hordered := hcomposes.ordered_true hin
  refine ⟨x, chain, tree, x', chain', tree', hnode, hcomposes, hnode', hcomposes', fun hrelated => ?_,
    fun hrelated => (hcomposes.sameShape_iff hcomposes' hin' hrelated).trans hordered.related_iff⟩
  rw [hcomposes.sameShape_iff hcomposes' hin' hrelated]
  simpa only [precedence_related_eq] using hordered

theorem keywordOperators_pair :
    let c (code : String) : ParseSetting := ⟨⟨Source.ofText code, 2024, false⟩, false, false, .idle⟩;
    ∃ s s' n n' t t', begin (c "a in b") (.start (Source.ofText "a in b")) = .ok () s
      ∧ begin (c "a<b") (.start (Source.ofText "a<b")) = .ok () s'
      ∧ s.context.allowIn ∧ s'.context.allowIn
      ∧ binaryExpression (run 5) (c "a in b") s = .ok n t ∧ binaryExpression (run 5) (c "a<b") s' = .ok n' t'
      ∧ ∃ x chain tree x' chain' tree', tree.node = n ∧ Composes (run 5) (c "a in b") s x chain tree
        ∧ tree'.node = n' ∧ Composes (run 5) (c "a<b") s' x' chain' tree'
        ∧ Related "<" chain chain' ∧ tree.Aligned ∧ tree.SameShape tree' := by
  intro c
  obtain ⟨s, n, t, hbegin, hin, hrun, hpair⟩ := exists_pair (c := c "a in b") (run 5)
    Lexeme.isKeywordOperator rfl (by decide +kernel)
  obtain ⟨s', n', t', hbegin', hin', hrun', hpair'⟩ := exists_pair (c := c "a<b") (run 5)
    (· == .punctuator "<") rfl (by decide +kernel)
  obtain ⟨x, chain, tree, x', chain', tree', hnode, hcomposes, hnode', hcomposes', -, hless⟩ :=
    keywordOperators_sameShape hin hin' hrun hrun'
  obtain ⟨o, y, rfl, ho, haligned⟩ := hpair x chain tree hnode hcomposes
  obtain ⟨o', y', rfl, ho', -⟩ := hpair' x' chain' tree' hnode' hcomposes'
  have hrelated : Related "<" [(o, y)] [(o', y')] :=
    .cons (by rw [beq_iff_eq.1 ho', Lexeme.related, if_pos ho]) .nil
  exact ⟨s, s', n, n', t, t', hbegin, hbegin', hin, hin', hrun, hrun', x, _, tree, x', _, tree', hnode, hcomposes,
    hnode', hcomposes', hrelated, haligned, (hless hrelated).2 haligned⟩

/-- A keyword before a mark for a relation leaves the mark to its right operand, which no such mark does. -/
theorem keywordOperators_not_as_relations :
    (∃ p n, Program.run .parse "a in b<c" [] .idle = .ok p ∧ p.tree.firstExpression = some n
      ∧ ((n.child? "left").any (·.is .identifier) && (n.child? "right").any (·.is .binaryExpression)))
    ∧ ∃ p n, Program.run .parse "a<b<c" [] .idle = .ok p ∧ p.tree.firstExpression = some n
      ∧ ((n.child? "left").any (·.is .binaryExpression) && (n.child? "right").any (·.is .identifier)) :=
  ⟨Program.exists_firstExpression _ _ _ _ (by decide +kernel),
    Program.exists_firstExpression _ _ _ _ (by decide +kernel)⟩

end EcmaSyntax
