import EcmaSyntax.Proofs.Reading
import EcmaSyntax.Proofs.Run

/-!
# Comparing two runs

Tokens are read by `next` and by nothing else. What a run does between two calls of `next` is one of a
few steps (`Between`). Most of them leave the lookahead alone. In two places it is read again from where it
starts: a slash may turn out to start a regular expression, and a brace to close a substitution.

A `Comparison` relates the runs of two productions from the same state. It has to be known of these steps
and of `next`, and to be kept by sequences; then it is known of two productions that are put together in the
same way from parts that compare. `Compares` is the class of such pairs. With the two productions the
same, it says what is true of every run of one.

Two runs of a production compare if those of the rules that it calls do. Only a regular expression is not
so from every state: it is read where the lookahead is a slash, and that is known to `primary` alone.

The rules of a grammar call each other to a bounded depth. Where the bound is not met, a greater one gives
the same answer (`Comparison.depth`): each production passes that on from the rules that it calls, and so
do the rules with a greater depth, by induction (`Grammar.run_deepens`).
-/

namespace EcmaSyntax

open Parse

set_option synthInstance.maxSize 100000000000000

namespace Parse

/-- Reads the lookahead again, as a regular expression that starts at an offset. -/
def rereadRegex (start : Nat) : Parse Token := do
  scan (Scan.setIndex start)
  passTrivia
  let token ← scan Scan.regex
  unrecord
  record token
  setLookahead token
  return token

/-- Reads the lookahead again where a chunk of a template should be, and refuses it if it is none. -/
def rereadTemplate : Parse Unit := do
  unless (← peek).lexeme.isTemplate do
    Grammar.resumeTemplate
    let t ← peek
    unless t.lexeme.isTemplate do unexpected t

end Parse

/-- What a run does between two calls of `next`. -/
inductive Between (c : ParseSetting) (s : ParseState) : {α : Type} → Parse α → Prop
  | quiet {d : Bool} {α : Type} {p : Parse α} : Quiet d p → Between c s p
  | read : Between c s (MonadReader.read : Parse ParseSetting)
  | log (isComment : Bool) (n : Node) (span : Span) : Between c s (Parse.log isComment n span)
  | markLast : Between c s Parse.markLast
  /-- The last token is taken to end where the lookahead starts. -/
  | close : Between c s (modify fun s => { s with lastMark := s.startMark } : Parse Unit)
  | rereadTemplate : Between c s Parse.rereadTemplate
  | rereadRegex : s.lookahead.lexeme.isSlash → Between c s (Parse.rereadRegex s.startMark.index)
  -- The rest is for markup only, which has tokens of its own.
  | scan {α : Type} (m : Scan α) : c.jsx → Between c s (Parse.scan m)
  | markStart : c.jsx →
    Between c s (modify fun s => { s with startMark := s.scan.cursor.mark } : Parse Unit)
  | record (t : Token) : c.jsx → Between c s (Parse.record t)

/-- A relation between the runs of two productions. -/
structure Comparison where
  Rel : ParseSetting → ParseState → {α : Type} → Parse α → Parse α → Prop
  step {c : ParseSetting} {s : ParseState} {α : Type} {p : Parse α} : Between c s p → Rel c s p p
  next {c : ParseSetting} {s : ParseState} : Rel c s Parse.next Parse.next
  bind {c : ParseSetting} {s : ParseState} {α β : Type} {p q : Parse α} {f g : α → Parse β} :
    Rel c s p q → (∀ x t, p c s = .ok x t → Rel c t (f x) (g x)) → Rel c s (p >>= f) (q >>= g)

/-- The runs of two productions compare. -/
class Compares (K : Comparison) (c : ParseSetting) {α : Type} (p q : Parse α) : Prop where
  out (s : ParseState) : K.Rel c s p q

/-- So do those of productions that go on with a result. -/
class ComparesAll (K : Comparison) (c : ParseSetting) {α β : Type} (f g : α → Parse β) : Prop where
  out (x : α) : Compares K c (f x) (g x)

/-- Elements of markup are expressions. -/
class HasMarkup (c : ParseSetting) : Prop where
  out : c.jsx

variable {K : Comparison} {c : ParseSetting}

namespace Compares

variable {α β γ : Type} {p q : Parse α} {f g : α → Parse β} {body body' : α → Parse (Round α β)}

theorem ofStep (h : ∀ s, Between c s p) : Compares K c p p := ⟨fun s => K.step (h s)⟩

instance (priority := low) [h : Quiet true p] : Compares K c p p := ofStep fun _ => .quiet h

instance : Compares K c (log isComment n span) (log isComment n span) :=
  ofStep fun _ => .log isComment n span
instance : Compares K c markLast markLast := ofStep fun _ => .markLast
instance : Compares K c rereadTemplate rereadTemplate := ofStep fun _ => .rereadTemplate
instance : Compares K c next next := ⟨fun _ => K.next⟩
instance : Compares K c (read : Parse ParseSetting) read := ofStep fun _ => .read

/-! #### Sequences and choices -/

instance (priority := low) [h : ∀ x, Compares K c (f x) (g x)] : ComparesAll K c f g := ⟨h⟩

-- Pairs are taken apart, so that a production that matches on one goes on with its parts.
instance {f g : α × γ → Parse β} [h : ∀ x, ComparesAll K c (fun y => f (x, y)) fun y => g (x, y)] :
    ComparesAll K c f g :=
  ⟨fun x => (h x.1).out x.2⟩
instance {f g : Option α → Parse β} [h : Compares K c (f none) (g none)]
    [h' : ∀ x, Compares K c (f (some x)) (g (some x))] : ComparesAll K c f g :=
  ⟨fun | none => h | some x => h' x⟩

theorem seq [hp : Compares K c p q] (hf : ∀ x, Compares K c (f x) (g x)) : Compares K c (p >>= f) (q >>= g) :=
  ⟨fun s => K.bind (hp.out s) fun x t _ => (hf x).out t⟩

instance [hp : Compares K c p q] [hf : ComparesAll K c f g] : Compares K c (p >>= f) (q >>= g) :=
  seq hf.out

instance {f : α → β} [Compares K c p q] : Compares K c (f <$> p) (f <$> q) := by
  rw [map_eq_pure_bind, map_eq_pure_bind]
  infer_instance

instance [Compares K c p q] : Compares K c (discard p) (discard q) := by
  rw [Derives.discard_eq, Derives.discard_eq]
  infer_instance

instance [Decidable b] [hm : Compares K c m m'] [hn : Compares K c n n'] :
    Compares K c (if b then m else n) (if b then m' else n') := by
  split
  · exact hm
  · exact hn

instance [Compares K c p q] : Compares K c (within enter leave p) (within enter leave q) := by
  unfold within
  infer_instance

/-! #### Loops -/

theorem rounds (hbody : ∀ x, Compares K c (body x) (body' x)) (bound : Nat) (x : α) :
    Compares K c (EcmaSyntax.rounds body bound x) (EcmaSyntax.rounds body' bound x) := by
  induction bound generalizing x with
  | zero => exact inferInstanceAs (Compares K c (throw _) (throw _))
  | succ bound ih =>
    refine seq fun y => ?_
    cases y <;> infer_instance

instance [h : ComparesAll K c body body'] : Compares K c (loop body x) (loop body' x) :=
  seq fun _ => rounds h.out _ _

instance [Compares K c stop stop] [Compares K c item item'] :
    Compares K c (manyUntil stop item) (manyUntil stop item') := by
  unfold manyUntil
  infer_instance

instance forIn {body body' : γ → α → Parse (ForInStep α)}
    [hbody : ∀ x a, Compares K c (body x a) (body' x a)] (l : List γ) (a : α) :
    Compares K c (ForIn.forIn l a body) (ForIn.forIn l a body') := by
  induction l generalizing a with
  | nil =>
    rw [List.forIn_nil, List.forIn_nil]
    infer_instance
  | cons x l ih =>
    rw [List.forIn_cons, List.forIn_cons]
    refine seq fun y => ?_
    cases y with
    | done a' => infer_instance
    | yield a' => exact ih a'

/-! #### Markup -/

section

variable [hjsx : HasMarkup c]

instance : Compares K c (scan m) (scan m) := ofStep fun _ => .scan m hjsx.out
instance : Compares K c (record t) (record t) := ofStep fun _ => .record t hjsx.out

end

/-! #### Steps -/

instance (priority := 50) [u : Unfolds p p'] [v : Unfolds q q'] [h : Compares K c p' q'] :
    Compares K c p q := by
  rw [u.eq, v.eq]
  exact h

instance : Compares K c semicolon semicolon := by
  have hclose : Compares K c (modify fun s => { s with lastMark := s.startMark } : Parse Unit) _ :=
    ofStep fun _ => .close
  infer_instance

instance [hp : Compares K c p q] : Compares K c (isolate p) (isolate q) := by
  refine seq fun _ => seq fun _ => @seq _ _ _ _ _ _ _ _ (seq fun a => ?_) inferInstance
  refine seq fun context => ?_
  split <;> infer_instance

end Compares

/-- The rules of two recursions compare, those for markup if there is any. -/
class Recur.Compares (K : Comparison) (c : ParseSetting) (r r' : Recur) : Prop where
  out (rule : Rule) : (rule = .element → c.jsx) → EcmaSyntax.Compares K c (r rule) (r' rule)

section

variable {r r' : Recur} [h : Recur.Compares K c r r']

instance : Compares K c r.assignment r'.assignment := h.out .assignment nofun
instance : Compares K c r.exponentiation r'.exponentiation := h.out .exponentiation nofun
instance : Compares K c r.unary r'.unary := h.out .unary nofun
instance : Compares K c r.callChain r'.callChain := h.out .callChain nofun
instance : Compares K c r.memberChain r'.memberChain := h.out .memberChain nofun
instance : Compares K c (r.pattern kind) (r'.pattern kind) :=
  h.out (.pattern kind) nofun
instance : Compares K c r.statement r'.statement := h.out .statement nofun
instance : Compares K c r.item r'.item := h.out .item nofun
instance [hjsx : HasMarkup c] : Compares K c r.element r'.element := h.out .element fun _ => hjsx.out

end

namespace Grammar

variable {r r' : Recur} [hr : Recur.Compares K c r r'] {kind : Option Declares} {start : Mark} {e : Node}
  {s : ParseState} {isAwait : Bool} {stack : List Pending} {right : Operand}

/-! ### Names, keys and binding patterns -/

instance : Compares K c (propertyKey r) (propertyKey r') := by
  refine .seq fun start => .seq fun t => ?_
  split <;> infer_instance

instance : Compares K c (propertyPattern r kind) (propertyPattern r' kind) := inferInstance
instance : Compares K c (pattern r kind) (pattern r' kind) := inferInstance

/-! ### Functions -/

instance : Compares K c (directives r) (directives r') := by
  refine .seq fun _ => .rounds (fun x => ?_) _ _
  obtain ⟨body, octal⟩ := x
  refine .seq fun t => ?_
  split
  · refine .seq fun statement => .seq fun _ => ?_
    split
    · cases octal <;> infer_instance
    · infer_instance
  · infer_instance

instance [∀ f, Compares K c (check f) (check f)] :
    Compares K c (method r check) (method r' check) := inferInstance

/-! ### Markup -/

section

variable [HasMarkup c]

instance : Compares K c passTrivia passTrivia := by
  unfold passTrivia
  infer_instance
instance : Compares K c leaveMarkup leaveMarkup := inferInstanceAs (Compares K c skip skip)

instance [Compares K c (scan lex) (scan lex)] : Compares K c (markToken lex) (markToken lex) := by
  have hstart : Compares K c (modify fun s => { s with startMark := s.scan.cursor.mark } : Parse Unit) _ :=
    .ofStep fun _ => .markStart HasMarkup.out
  unfold markToken
  infer_instance

instance {e : OpenElement} : Compares K c (elementRest r e) (elementRest r' e) := by
  refine .seq fun _ => .rounds (fun x => ?_) _ _
  obtain ⟨e, outer⟩ := x
  cases outer <;> infer_instance

end

/-! ### Primary expressions -/

instance : Compares K c (objectProperty r hasProto) (objectProperty r' hasProto) := by
  refine .seq fun start => .seq fun h => .seq fun t => ?_
  cases h.key <;> infer_instance

instance : Compares K c templateChunk templateChunk := by
  refine .seq fun start => .seq fun t => ?_
  split <;> infer_instance

omit hr in
/-- After a substitution, the lookahead is read again if it is no chunk. -/
theorem templateElement_eq : templateElement = rereadTemplate >>= fun _ => templateChunk := by
  simp only [templateElement, rereadTemplate, bind_assoc]
  refine bind_congr fun seen => ?_
  split
  · rw [pure_bind]
  · simp only [bind_assoc]
    refine bind_congr fun _ => bind_congr fun t => ?_
    split
    · rw [pure_bind]
    · rfl

instance : Compares K c templateElement templateElement := by
  rw [templateElement_eq]
  infer_instance

/-- Where the lookahead is a slash, it is read again as a regular expression. -/
theorem rel_regexLiteral (hs : s.lookahead.lexeme.isSlash) : K.Rel c s regexLiteral regexLiteral := by
  have hreread (i : Nat) (k : Token → Parse Node) : (do scan (Scan.setIndex i); k (← nextRegex))
      = (do let t ← rereadRegex i; skip; k t) := by
    simp only [nextRegex, rereadRegex, bind_assoc, pure_bind]
  simp only [regexLiteral, hreread]
  refine K.bind (Compares.out s) fun start t ht => ?_
  obtain ⟨rfl, rfl⟩ : s.startMark = start ∧ s = t := by
    cases ht
    exact ⟨rfl, rfl⟩
  refine K.bind (Compares.out s) fun _ t ht => ?_
  cases ht
  refine K.bind (K.step (.rereadRegex hs)) fun found t _ => ?_
  refine (Compares.seq fun _ => ?_ : Compares K c _ _).out t
  split <;> infer_instance

theorem rel_markExpression (hs : s.lookahead.lexeme = .punctuator mark) :
    K.Rel c s (markExpression r mark) (markExpression r' mark) := by
  unfold markExpression
  split
  · exact Compares.out s
  split
  · exact Compares.out s
  split
  · exact Compares.out s
  split
  · next hslash =>
    refine rel_regexLiteral ?_
    simpa [hs, Lexeme.isSlash, Lexeme.isMark, Text.isAny] using hslash
  · exact Compares.out s

/-! ### Statements -/

instance : Compares K c (variableLoopHead r isAwait) (variableLoopHead r' isAwait) := by
  refine .seq fun start => .seq fun _ => .seq fun declarations => ?_
  split <;> infer_instance

instance : Compares K c (lexicalLoopHead r isAwait) (lexicalLoopHead r' isAwait) := by
  refine .seq fun start => .seq fun t => .seq fun isStrict =>
    .seq fun seen => ?_
  dsimp only
  split
  · infer_instance
  · refine .seq fun declarations => ?_
    split <;> infer_instance

instance : Compares K c (forRest r start isAwait head) (forRest r' start isAwait head) := by
  cases head <;> unfold forRest <;> infer_instance

instance : Compares K c (memberByToken r start m) (memberByToken r' start m) := by
  unfold memberByToken
  split <;> infer_instance

/-! ### Expressions -/

instance : Compares K c (primary r) (primary r') := by
  refine ⟨fun s => K.bind (Compares.out s) fun _ t hc => ?_⟩
  cases hc
  refine K.bind (Compares.out s) fun isMarkup t ht => ?_
  obtain rfl : s = t := by
    cases ht
    rfl
  split
  · next hmarkup =>
    have : HasMarkup c := ⟨(Bool.and_eq_true _ _ ▸ hmarkup).1⟩
    exact Compares.out s
  · refine K.bind (Compares.out s) fun start t ht => ?_
    obtain rfl : s = t := by
      cases ht
      rfl
    refine K.bind (Compares.out s) fun t u hu => ?_
    obtain ⟨rfl, rfl⟩ : s.lookahead = t ∧ s = u := by
      cases hu
      exact ⟨rfl, rfl⟩
    split
    case h_10 mark hs => exact rel_markExpression hs
    all_goals exact Compares.out s

instance : Compares K c (reduceTo prec stack right) (reduceTo prec stack right) := by
  induction stack generalizing right <;> unfold reduceTo <;> infer_instance

instance : Compares K c (reduceAll stack right) (reduceAll stack right) := by
  induction stack generalizing right <;> unfold reduceAll <;> infer_instance

instance : Compares K c (arrowFunction r first e) (arrowFunction r' first e) := by
  refine .seq fun _ => .seq fun f => ?_
  cases f <;> infer_instance

/-! ### Statements and declarations -/

instance : Compares K c (statement r) (statement r') := by
  refine .seq fun t => ?_
  split <;> infer_instance

/-! ### Imports and exports -/

instance : Compares K c (exportNames start) (exportNames start) := by unfold exportNames; infer_instance

/-! ### All productions -/

omit hr in
/-- Rules that are nested one level deeper compare too. -/
theorem run_succ (hrun : Recur.Compares K c (run m) (run n)) : Recur.Compares K c (run (m + 1)) (run (n + 1)) := by
  refine ⟨fun rule hjsx => ?_⟩
  cases rule with
  | element =>
    have : HasMarkup c := ⟨hjsx rfl⟩
    exact inferInstanceAs (Compares K c (element _) (element _))
  | _ => simp only [run]; infer_instance

end Grammar

/-! ### Depth -/

/-- A run goes on where another one has run out of depth, and otherwise does the same. -/
def Comparison.depth : Comparison where
  Rel c s _ p q := (∃ t, p c s = .error .exhausted t) ∨ p c s = q c s
  step _ := .inr rfl
  next := .inr rfl
  bind {c s _ _ p q f g} hp hf := by
    simp only [bind_apply]
    rcases hp with ⟨t, ht⟩ | heq
    · exact .inl ⟨t, by rw [ht]⟩
    · rw [← heq]
      cases hrun : p c s with
      | ok x t => exact hf x t hrun
      | error e t => exact .inr rfl

namespace Grammar

theorem run_deepens (hmn : m ≤ n) : Recur.Compares .depth c (run m) (run n) := by
  induction m generalizing n with
  | zero => exact ⟨fun _ _ => ⟨fun s => .inl ⟨s, rfl⟩⟩⟩
  | succ m ih =>
    obtain ⟨n, rfl⟩ : ∃ k, n = k + 1 := ⟨n - 1, by omega⟩
    have := ih (Nat.le_of_succ_le_succ hmn)
    exact run_succ this

/-- Reads a whole program, with rules nested no deeper than a bound. -/
def programTo (depth : Nat) (isModule : Bool) : Parse Node := do
  begin
  (if isModule then moduleProgram else script) (run depth)

theorem program_apply (isModule : Bool) (c : ParseSetting) (s : ParseState) :
    program isModule c s = programTo (depthOf c.source) isModule c s := by
  have hwhole (p : Recur → Parse Node) (t : ParseState) : whole p c t = p (run (depthOf c.source)) c t := rfl
  simp only [program, programTo, bind_apply, hwhole]

/-- A greater depth gives the same answer, if there is one. -/
theorem programTo_extends (hmn : m ≤ n) (isModule : Bool) (c : ParseSetting) (s : ParseState) :
    (∃ t, programTo m isModule c s = .error .exhausted t) ∨
      programTo m isModule c s = programTo n isModule c s := by
  have := run_deepens (c := c) hmn
  have hdepth : Compares .depth c (programTo m isModule) (programTo n isModule) := by
    refine .seq fun _ => ?_
    split <;> infer_instance
  exact hdepth.out s

end Grammar

end EcmaSyntax
