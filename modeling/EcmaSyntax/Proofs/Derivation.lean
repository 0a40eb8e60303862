import EcmaSyntax.Proofs.Parts
import EcmaSyntax.Proofs.Results
import EcmaSyntax.Proofs.Unfolds
import EcmaSyntax.Proofs.View

namespace EcmaSyntax

variable {t : Token} {k : Kind} {v : Value} {n : Node} {c : Prop} {mark word form : String} {cause : Cause}
  {δ σ : Type} {fields : List (String × Value)} {ks : List Kind} {parts : List Value} {start : Mark}

/-! ### Results -/

/-- Two moments, with something read between them. -/
structure Stretch (V : View) where
  first : V.Moment
  last : V.Moment

/-- All nodes lie between two moments. -/
instance (V : View) : Sense (Stretch V) where
  Holds i v := V.Holds i.first i.last v
  le i j := V.later j.first i.first ∧ V.later i.last j.last
  mono h hv := hv.mono h.1 h.2
  scalar {_ v} h := by cases v <;> first | trivial | cases h
  list h := View.holdsAll_iff.2 h

/-- Results with nodes that lie between two moments. -/
abbrev Carrier (V : View) (α : Type) := Bearer (Stretch V) α

namespace Carrier

abbrev sound {α : Type} (V : View) [Carrier V α] (a b : V.Moment) (x : α) : Prop := Bearer.all (Stretch.mk a b) x

theorem mono {a w w' b : V.Moment} [Carrier V α] {x : α} (ha : V.later a w)
    (hb : V.later w' b) (h : sound V w w' x) : sound V a b x :=
  Bearer.mono ⟨ha, hb⟩ h

end Carrier

/-! ### Moments -/

section

variable {V : View}

/-- A moment that is not before another one. -/
structure Since (w : V.Moment) where
  now : V.Moment
  later : V.later w now

/-- A moment after something has been read. -/
structure After (w : V.Moment) extends Since w where
  reached : V.reached w now

/-- A token that was read, and the moment after it. -/
structure Taken (w : V.Moment) extends After w where
  token : Token
  begins : V.begins w token
  covers : V.covers w now token

/-- A moment after a token was tolerated in place of another. -/
structure Skipped (w : V.Moment) extends After w where
  lenient : V.lenient

/-- The place of the lookahead at a moment. -/
structure Start (w : V.Moment) where
  mark : Mark
  opens : V.opens w mark

/-- The lookahead at a moment. -/
structure Seen (w : V.Moment) where
  token : Token
  begins : V.begins w token

/-- The text of a token, as it is found at a moment. -/
structure Raw (w : V.Moment) (t : Token) where
  text : Text
  spells {j : V.Moment} : V.covers j w t → V.spells j w text

/-- What was read between two moments. -/
structure Result (w w' : V.Moment) (α : Type) [Carrier V α] where
  get : α
  sound : Carrier.sound V w w' get

class Later (w w' : V.Moment) : Prop where
  out : V.later w w'

class Reached (w w' : V.Moment) : Prop where
  out : V.reached w w'

/-- Something has been read before this moment. -/
class Moved (w : V.Moment) : Prop where
  out : ∃ j, V.reached j w

class Opens (w : outParam V.Moment) (m : Mark) : Prop where
  out : V.opens w m

class Begins (w : outParam V.Moment) (t : Token) : Prop where
  out : V.begins w t

class Spells (w w' : V.Moment) (t : Text) : Prop where
  out : V.spells w w' t

/-- The nodes in a result lie between two moments. -/
abbrev Sound (w w' : V.Moment) {α : Type} [Carrier V α] (x : α) : Prop := Bears (Stretch.mk w w') x

variable {a b w w' : V.Moment} {α β : Type} [Carrier V α] [Carrier V β]

instance (priority := high) : Later w w := ⟨V.later_refl w⟩
instance {x : Since w} [h : Later a w] : Later a x.now := ⟨V.later_trans h.out x.later⟩

instance (priority := high) {x : After w} [h : Later a w] : Reached a x.now :=
  ⟨V.reached_of_later h.out x.reached⟩
instance (priority := high) {x : Skipped w} : Reached a x.now := ⟨V.reached_of_lenient x.lenient⟩
instance {x : Since w} [h : Reached a w] : Reached a x.now := ⟨V.reached_later h.out x.later⟩

instance (priority := high) {x : After w} : Moved x.now := ⟨w, x.reached⟩
instance {x : Since w} [h : Moved w] : Moved x.now := ⟨h.out.imp fun _ hj => V.reached_later hj x.later⟩

instance {x : Start w} : Opens w x.mark := ⟨x.opens⟩
instance {x : Seen w} : Begins w x.token := ⟨x.begins⟩
instance {x : Taken w} : Begins w x.token := ⟨x.begins⟩
instance {k : Nat} [h : Begins w t] : Opens w (t.startMark k) :=
  ⟨V.opens_startMark k h.out⟩

instance {x : Taken w} {r : Raw x.now x.token} : Spells w x.now r.text := ⟨r.spells x.covers⟩

instance {x : Result w w' α} [ha : Later a w] [hb : Later w' b] : Sound a b x.get :=
  ⟨Carrier.mono ha.out hb.out x.sound⟩

-- What was sound stays so. This is only tried for results that are given from outside.
instance (priority := low) {t : Since w} {x : α} [h : Sound a w x] : Sound a t.now x :=
  ⟨Carrier.mono (V.later_refl a) t.later h.out⟩

/-! ### Sound results -/

instance [h : Sound a b v] : Sound a b v.asPattern := ⟨View.Holds.asPattern h.out⟩
instance [h : Sound a b v] : Sound a b v.items := ⟨View.Holds.items h.out⟩
instance {vs : List Value} [h : Sound a b vs] : Sound a b (vs.map Value.asPattern) :=
  ⟨fun x hx => by
    obtain ⟨v, hv, rfl⟩ := List.mem_map.1 hx
    exact View.Holds.asPattern (h.out v hv)⟩

instance [h : Sound a b n] : Sound a b (n.get name) :=
  ⟨View.Holds.get h.out name⟩
instance [h : Sound a b n] : Sound a b n.asPattern :=
  ⟨by
    cases hn : (Value.node n).asPattern.asNode? with
    | none =>
      simp only [Node.asPattern, hn]
      exact h.out
    | some m =>
      simp only [Node.asPattern, hn]
      exact (View.Holds.asPattern h.out).asNode hn⟩
instance {ns : List Node} [h : Sound a b ns] : Sound a b (ns.map Node.asPattern) :=
  ⟨fun x hx => by
    obtain ⟨n, hn, rfl⟩ := List.mem_map.1 hx
    have : Sound a b n := ⟨h.out n hn⟩
    exact (inferInstance : Sound a b n.asPattern).out⟩

end

/-! ### Steps that read no tokens -/

open Parse

/-- The settings of a run with errors tolerated or not. -/
def ParseSetting.withTolerance (c : ParseSetting) (tolerant : Bool) : ParseSetting :=
  { c with tolerant }

/-- Steps that leave the place in the source and the log of nodes as they are. Do they ask for the
edition themselves? -/
class inductive Quiet (dated : Bool) : {γ : Type} → Parse γ → Prop
  | pure {γ : Type} (x : γ) : Quiet dated (Pure.pure x)
  | bind {γ δ : Type} {p : Parse γ} {f : γ → Parse δ} :
    Quiet dated p → (∀ x, Quiet dated (f x)) → Quiet dated (p >>= f)
  | throw {γ : Type} (e : Failure) : Quiet dated (MonadExcept.throw e : Parse γ)
  | get : Quiet dated (MonadState.get : Parse ParseState)
  | setContext (f : Context → Context) : Quiet dated (Parse.setContext f)
  | forgive (e : SyntaxError) : Quiet dated (Parse.forgive e)
  | settings {γ : Type} {f : ParseSetting → Parse γ} :
    (∀ (c : ParseSetting) (edition : Nat) (tolerant classFields : Bool),
      f { c with edition, tolerant, classFields } = f c) →
    (∀ c, Quiet dated (f c)) → Quiet dated (read >>= f)
  | since (year : Nat) : dated → Quiet dated (Parse.since year)
  | unrecord : Quiet dated Parse.unrecord
  | enterModule : Quiet dated Grammar.enterModule
  | peekBeyond : Quiet dated Parse.peekBeyond
  | peekMarkup : Quiet dated Grammar.peekMarkup
  | scanAtEnd : Quiet dated (scan Scan.atEnd)
  | scanPeek : Quiet dated (scan (Scan.peek 0))

/-! ### Derivations -/

/-- Is this a mark that may be the start of a regular expression? -/
def Lexeme.isSlash (l : Lexeme) : Bool := l.isMark "/" || l.isMark "/="

/-- A node that may be logged: if it is taken for a comment, it has a text. -/
structure Node.Loggable (n : Node) : Prop where
  form : n.form ≠ ""
  comment : Comments.isComment n → ∃ t, n.get "value" = .text t

/-- The node is new, its parts lie between two moments, and a literal has its text. -/
structure Fresh {V : View} (a b : V.Moment) (n : Node) : Prop where
  loggable : n.Loggable
  tidy : n.Tidy
  parts : ∀ f ∈ n.fields ++ n.extra, V.Holds a b f.2
  literal : n.is .literal → ∃ raw, n.get "raw" = .text raw ∧ V.spells a b raw

class inductive Derives {V : View} :
    Bool → V.Moment → V.Moment → {α : Type} → [Carrier V α] → Parse α → Prop
  | pure {must : Bool} {a w : V.Moment} {α : Type} [Carrier V α] {x : α} :
    (must → V.reached a w) → Carrier.sound V a w x → Derives must a w (Pure.pure x)
  | bind {must must' : Bool} {a j w : V.Moment} {α β : Type} [Carrier V α] [Carrier V β] {p : Parse α}
      {f : α → Parse β} :
    Derives must' j w p →
    (∀ (t : Since w) (x : Result j t.now α), (must' → V.reached j t.now) → Derives must a t.now (f x.get)) →
    Derives must a w (p >>= f)
  | throw {must : Bool} {a w : V.Moment} {α : Type} [Carrier V α] (e : Failure) :
    Derives must a w (MonadExcept.throw e : Parse α)
  | quiet {must : Bool} {a w : V.Moment} {γ α : Type} [Carrier V α] {p : Parse γ} {f : γ → Parse α} :
    Quiet true p → (∀ x, Derives must a w (f x)) → Derives must a w (p >>= f)
  | settings {must : Bool} {a w : V.Moment} {α : Type} [Carrier V α] {f : ParseSetting → Parse α} :
    (∀ c b, f (c.withTolerance b) = f c) → (∀ c, (c.jsx → V.markup) → Derives must a w (f c)) →
    Derives must a w (read >>= f)
  | weaken {must : Bool} {a j w : V.Moment} {α : Type} [Carrier V α] {p : Parse α} :
    V.later a j → Derives true j w p → Derives must a w p
  | here {must : Bool} {a w : V.Moment} {α : Type} [Carrier V α] {f : Mark → Parse α} :
    (∀ m : Start w, Derives must a w (f m.mark)) → Derives must a w (Parse.here >>= f)
  | peek {must : Bool} {a w : V.Moment} {α : Type} [Carrier V α] {f : Token → Parse α} :
    (∀ t : Seen w, Derives must a w (f t.token)) → Derives must a w (Parse.peek >>= f)
  | next {must : Bool} {a w : V.Moment} {α : Type} [Carrier V α] {f : Token → Parse α} :
    (∀ t : Taken w, Derives must a t.now (f t.token)) → Derives must a w (Parse.next >>= f)
  | rawOf {must : Bool} {a w : V.Moment} {α : Type} [Carrier V α] {t : Token} {f : Text → Parse α} :
    (∀ raw : Raw w t, Derives must a w (f raw.text)) → Derives must a w (Parse.rawOf t >>= f)
  | semicolon {must : Bool} {a j w : V.Moment} {α : Type} [Carrier V α] {f : Unit → Parse α} :
    V.reached j w → (∀ t : Since w, Derives must a t.now (f ())) →
    Derives must a w (Parse.semicolon >>= f)
  | expectComma {must : Bool} {a w : V.Moment} {α : Type} [Carrier V α] {f : Unit → Parse α} :
    (∀ t : Since w, Derives must a t.now (f ())) → Derives must a w (Parse.expectComma >>= f)
  | closeHead {must : Bool} {a w : V.Moment} {α : Type} [Carrier V α] {f : Bool → Parse α} :
    (∀ t : After w, Derives must a t.now (f true)) →
    (∀ t : Skipped w, Derives must a t.now (f false)) → Derives must a w (Grammar.closeHead >>= f)
  | finish {a w : V.Moment} {start : Mark} {n : Node} :
    V.opens a start → V.later a w → V.reached a w → Fresh a w n → n.isElemental = false →
    Derives true a w (Parse.finish start n)
  | regexLiteral {w : V.Moment} {t : Token} : V.begins w t → t.lexeme.isSlash → Derives true w w Grammar.regexLiteral
  | resumeTemplate {must : Bool} {a w : V.Moment} {α : Type} [Carrier V α] {f : Unit → Parse α} :
    Derives must a w (f ()) → Derives must a w (Grammar.resumeTemplate >>= f)
  | markupHere {must : Bool} {a w : V.Moment} {α : Type} [Carrier V α] {f : Mark → Parse α} :
    V.markup → (∀ (t : Since w) (m : Start t.now), Derives must a t.now (f m.mark)) →
    Derives must a w (Grammar.markupHere >>= f)
  | cursorMark {must : Bool} {a w : V.Moment} {α : Type} [Carrier V α] {f : Mark → Parse α} :
    V.markup → (∀ m : Start w, Derives must a w (f m.mark)) →
    Derives must a w (Parse.cursorMark >>= f)
  | enterMarkup {must : Bool} {a w : V.Moment} {α : Type} [Carrier V α] {f : Unit → Parse α} :
    V.markup → Derives must a w (f ()) → Derives must a w (Grammar.enterMarkup >>= f)
  | expectMarkup {must : Bool} {a w : V.Moment} {α : Type} [Carrier V α] {mark : String} {f : Unit → Parse α} :
    V.markup → (∀ t : Since w, Derives must a t.now (f ())) →
    Derives must a w (Grammar.expectMarkup mark >>= f)
  | nextMarkupText {must : Bool} {a w : V.Moment} {α : Type} [Carrier V α] {f : Token → Parse α} :
    V.markup → (∀ (t : Since w) (x : Token), Derives must a t.now (f x)) →
    Derives must a w (Grammar.nextMarkupText >>= f)
  | markupIdentifier {w : V.Moment} : V.markup → Derives true w w Grammar.markupIdentifier
  | emptyExpression {w : V.Moment} : V.markup → Derives true w w Grammar.emptyExpression
  | namedAttribute {w : V.Moment} {r : Recur} : V.markup → (∀ w : V.Moment, Derives true w w Grammar.attributeName) →
    (∀ w : V.Moment, Derives true w w (Grammar.attributeExpression r)) →
    (∀ w : V.Moment, Derives true w w r.element) →
    Derives true w w (Grammar.namedAttribute r)
  | element {w : V.Moment} {r : Recur} : V.markup → (∀ w : V.Moment, Derives true w w Grammar.elementName) →
    (∀ w : V.Moment, Derives false w w (Grammar.attributes r)) →
    (∀ w : V.Moment, Derives false w w (Grammar.markupChildren r)) →
    Derives true w w (Grammar.element r)

/-! ### Rules for quiet steps -/

namespace Quiet

variable {γ : Type} {d : Bool} {p q : Parse γ}

attribute [instance] Quiet.pure Quiet.throw Quiet.get Quiet.setContext Quiet.forgive Quiet.unrecord
  Quiet.enterModule Quiet.peekBeyond Quiet.peekMarkup Quiet.scanAtEnd Quiet.scanPeek

instance seq {f : γ → Parse δ} [hp : Quiet d p] [hf : ∀ x, Quiet d (f x)] : Quiet d (p >>= f) :=
  .bind hp hf

instance choice [Decidable c] [hp : Quiet d p] [hq : Quiet d q] : Quiet d (if c then p else q) := by
  split
  · exact hp
  · exact hq

instance (priority := 50) [u : Expands p q] [h : Quiet d q] : Quiet d p := u.eq ▸ h

instance : Quiet true (Parse.since year) := .since year rfl

instance : Quiet d (fail e : Parse γ) := .throw _

instance : Quiet d (sees mark) := inferInstance
instance : Quiet d (seesAny marks) := inferInstance
instance : Quiet d (seesKeyword word) := inferInstance
instance : Quiet d (seesKeywords words) := inferInstance
instance : Quiet d (seesName word) := inferInstance
instance : Quiet d seesIdentifier := inferInstance
instance : Quiet d seesString := inferInstance
instance : Quiet d seesEnd := inferInstance

instance : Quiet d (errorFor who cause) := by
  unfold errorFor
  split <;> infer_instance

end Quiet

/-! ### Rules for productions -/

/-- Markup is allowed. -/
class Markup (V : View) : Prop where
  out : V.markup

/-- A production that reads at least one token, and of which the result lies in what it reads. -/
class Reads (V : View) {α : Type} [Carrier V α] (p : Parse α) : Prop where
  out (w : V.Moment) : Derives true w w p

/-- A production that goes on with what was read from a moment `j` on. -/
class Gives {V : View} (j : outParam V.Moment) (w : V.Moment) {α : Type} [Carrier V α]
    (p : Parse α) : Prop where
  out : Derives true j w p

/-- What follows a production that has read from `j` up to now. -/
class Continues {V : View} (must : Bool) (a j w : V.Moment) {α β : Type} [Carrier V α] [Carrier V β]
    (f : α → Parse β) : Prop where
  out (x : α) : Carrier.sound V j w x → Derives must a w (f x)

namespace Derives

variable {V : View} {must : Bool} {a j w : V.Moment} {α β γ : Type} [Carrier V α] [Carrier V β]
  [Carrier V γ] {p q : Parse α} {f : δ → Parse β} {x : σ} {raw : Text} {y z : Value}
  {enter : Context → Context} {body : σ → Parse (Round σ β)}

instance (priority := 50) [u : Unfolds p q] [h : ∀ w : V.Moment, Derives true w w q] : Reads V p :=
  ⟨fun w => u.eq ▸ h w⟩

instance (priority := low) {f : α → Parse β} [h : ∀ x : Result j w α, Derives must a w (f x.get)] :
    Continues must a j w f :=
  ⟨fun x hx => h ⟨x, hx⟩⟩

-- Pairs are taken apart, so that a production that matches on one goes on with its parts.
instance {f : α × β → Parse γ} [h : ∀ x : Result j w α, Continues must a j w fun y => f (x.get, y)] :
    Continues must a j w f :=
  ⟨fun x hx => (h ⟨x.1, hx.1⟩).out x.2 hx.2⟩

instance (priority := low) [h : Markup V] : Reached a w := ⟨V.reached_of_markup h.out⟩

instance pureMust {x : α} [hr : Reached a w] [hx : Sound a w x] : Derives true a w (Pure.pure x : Parse α) :=
  .pure (fun _ => hr.out) hx.out

instance pureMay {x : α} [hx : Sound a w x] : Derives false a w (Pure.pure x : Parse α) :=
  .pure nofun hx.out

instance [h : Gives j w p] [hj : Later a j] : Derives must a w p :=
  .weaken hj.out h.out

instance [h : Reads V p] [ha : Later a w] : Derives must a w p :=
  .weaken ha.out (h.out w)

instance ite [Decidable c] [hp : Derives must a w p]
    [hq : Derives must a w q] : Derives must a w (if c then p else q) := by
  split
  · exact hp
  · exact hq

-- After a test whose outcome is known, only one branch is left.
instance (priority := high) iteTrue [hp : Derives must a w p] :
    Derives must a w (if true = true then p else q) := by
  rwa [if_pos rfl]

instance (priority := high) iteFalse [hq : Derives must a w q] :
    Derives must a w (if false = true then p else q) := by
  rwa [if_neg (by decide)]

/-! #### Refusals -/

instance : Derives must a w (unexpected t : Parse α) :=
  .quiet inferInstance fun _ => .quiet inferInstance fun _ => .throw _

-- What would follow a refusal does not matter.
instance (priority := high) : Derives must a w (fail e >>= f) :=
  .throw _
instance (priority := high) : Derives must a w (refuse cause >>= f) := by
  unfold refuse
  rw [bind_assoc]
  exact .quiet inferInstance fun _ => .throw _
instance (priority := high) : Derives must a w (refuseAt t cause >>= f) := by
  unfold refuseAt
  rw [bind_assoc]
  exact .quiet inferInstance fun _ => .throw _
instance (priority := high) : Derives must a w (unexpected t >>= f) := by
  unfold unexpected
  rw [bind_assoc]
  exact .quiet inferInstance fun _ => inferInstance

/-! #### Sequences -/

instance (priority := high) pureBind {x : α} {f : α → Parse β} [h : Derives must a w (f x)] :
    Derives must a w ((Pure.pure x : Parse α) >>= f) := by
  rwa [pure_bind]

instance quietBind {p : Parse δ} [hp : Quiet true p]
    [hf : ∀ x, Derives must a w (f x)] : Derives must a w (p >>= f) :=
  .quiet hp hf

instance (priority := low) quietTail [hα : Barren (Stretch V) α] [hp : Quiet true p] :
    Derives false a w p := by
  rw [← bind_pure p]
  exact .quiet hp fun x => .pure nofun (hα.all _ x)

instance quietReads {p : Parse δ} [hp : Quiet true p] [hf : ∀ x, Reads V (f x)] : Reads V (p >>= f) :=
  ⟨fun w => .quiet hp fun x => (hf x).out w⟩

instance readsBind {f : α → Parse β} [hp : Reads V p]
    [hf : ∀ t : After w, Continues must a w t.now f] : Derives must a w (p >>= f) :=
  .bind (hp.out w) fun t x hr => (hf ⟨t, hr rfl⟩).out x.get x.sound

instance givesBind {f : α → Parse β} [hp : Gives j w p]
    [hf : ∀ t : Since w, Continues must a j t.now f] : Derives must a w (p >>= f) :=
  .bind hp.out fun t x _ => (hf t).out x.get x.sound

instance (priority := low) mayBind {f : α → Parse β} [hp : Derives false w w p]
    [hf : ∀ t : Since w, Continues must a w t.now f] : Derives must a w (p >>= f) :=
  .bind hp fun t x _ => (hf t).out x.get x.sound

-- For a production that goes on with what was read before, from the same moment on.
instance (priority := 90) mayBindFrom {f : α → Parse β} [hp : Derives false a w p]
    [hf : ∀ t : Since w, Continues must a a t.now f] : Derives must a w (p >>= f) :=
  .bind hp fun t x _ => (hf t).out x.get x.sound

/-! #### Tokens -/

instance hereBind {f : Mark → Parse α} [hf : ∀ m : Start w, Derives must a w (f m.mark)] :
    Derives must a w (Parse.here >>= f) :=
  .here hf

instance peekBind {f : Token → Parse α} [hf : ∀ t : Seen w, Derives must a w (f t.token)] :
    Derives must a w (Parse.peek >>= f) :=
  .peek hf

instance nextBind {f : Token → Parse α} [hf : ∀ t : Taken w, Derives must a t.now (f t.token)] :
    Derives must a w (Parse.next >>= f) :=
  .next hf

instance rawOfBind {f : Text → Parse α}
    [hf : ∀ raw : Raw w t, Derives must a w (f raw.text)] : Derives must a w (Parse.rawOf t >>= f) :=
  .rawOf hf

instance semicolonBind {f : Unit → Parse α} [hw : Moved w]
    [hf : ∀ t : Since w, Derives must a t.now (f ())] : Derives must a w (Parse.semicolon >>= f) :=
  .semicolon hw.out.choose_spec hf

instance expectCommaBind {f : Unit → Parse α} [hf : ∀ t : Since w, Derives must a t.now (f ())] :
    Derives must a w (Parse.expectComma >>= f) :=
  .expectComma hf

instance : Reads V skip :=
  ⟨fun w => by
    have h : skip = Parse.next >>= fun _ => Pure.pure () := rfl
    rw [h]
    infer_instance⟩

instance : Reads V (expect mark) :=
  ⟨fun w => by unfold expect; infer_instance⟩

instance : Reads V (expectKeyword word) :=
  ⟨fun w => by unfold expectKeyword; infer_instance⟩

omit [Carrier V α] in
theorem accept_bind {f : Bool → Parse α} :
    (accept mark >>= f) = sees mark >>= fun b => if b then skip >>= fun _ => f true else f false := by
  simp only [accept, bind_assoc]
  refine congrArg _ (funext fun b => ?_)
  split <;> simp

instance acceptBind {f : Bool → Parse α}
    [ht : ∀ t : After w, Derives must a t.now (f true)] [hf : Derives must a w (f false)] :
    Derives must a w (accept mark >>= f) := by
  rw [accept_bind]
  infer_instance

instance closeHeadBind {f : Bool → Parse α} [ht : ∀ t : After w, Derives must a t.now (f true)]
    [hf : ∀ t : Skipped w, Derives must a t.now (f false)] : Derives must a w (Grammar.closeHead >>= f) :=
  .closeHead ht hf

instance resumeTemplateBind {f : Unit → Parse α} [hf : Derives must a w (f ())] :
    Derives must a w (Grammar.resumeTemplate >>= f) :=
  .resumeTemplate hf

/-! #### Markup -/

instance markupHereBind [hm : Markup V] {f : Mark → Parse α}
    [hf : ∀ (t : Since w) (m : Start t.now), Derives must a t.now (f m.mark)] :
    Derives must a w (Grammar.markupHere >>= f) :=
  .markupHere hm.out hf

instance cursorMarkBind [hm : Markup V] {f : Mark → Parse α}
    [hf : ∀ m : Start w, Derives must a w (f m.mark)] : Derives must a w (Parse.cursorMark >>= f) :=
  .cursorMark hm.out hf

instance enterMarkupBind [hm : Markup V] {f : Unit → Parse α} [hf : Derives must a w (f ())] :
    Derives must a w (Grammar.enterMarkup >>= f) :=
  .enterMarkup hm.out hf

instance expectMarkupBind [hm : Markup V] {f : Unit → Parse α}
    [hf : ∀ t : Since w, Derives must a t.now (f ())] : Derives must a w (Grammar.expectMarkup mark >>= f) :=
  .expectMarkup hm.out hf

instance nextMarkupTextBind [hm : Markup V] {f : Token → Parse α}
    [hf : ∀ (t : Since w) (x : Token), Derives must a t.now (f x)] :
    Derives must a w (Grammar.nextMarkupText >>= f) :=
  .nextMarkupText hm.out hf

/-! #### Nodes -/

/-- A node that is not finished. -/
class Draft (n : Node) : Prop where
  out : n.IsDraft

instance : Draft (.arrowParameters v) := ⟨rfl, .inl rfl⟩
instance : Draft (.asyncArrowParameters v) := ⟨rfl, .inl rfl⟩
instance : Draft (.identifier (.word "import")) := ⟨rfl, .inr ⟨rfl, rfl⟩⟩

theorem parts_ofKind (h : ∀ f ∈ fields, V.Holds a w f.2) {f : String × Value}
    (hf : f ∈ (Node.ofKind form k fields).fields ++ (Node.ofKind form k fields).extra) : V.Holds a w f.2 := by
  simp only [Node.ofKind, Node.make, List.append_nil, List.mem_cons] at hf
  rcases hf with rfl | hf
  · trivial
  · exact h f hf

theorem not_isLiteral_ofKind (hk : k ≠ .literal) : ¬ (Node.ofKind form k fields).is .literal := by
  simpa [Node.is, Node.kind?, Node.get, Node.ofKind, Node.make] using hk

theorem tidy_ofKind (hform : form ≠ "") (h : (fields.map Prod.fst).all (!isPlace ·)) :
    (Node.ofKind form k fields).Tidy := by
  refine .of_made hform (fun x hx => ?_) rfl
  rcases List.mem_cons.1 hx with rfl | hx
  · rfl
  · simpa using List.all_eq_true.1 h x hx

theorem not_isComment_ofKind (form : String)
    (hk : k ≠ .lineComment ∧ k ≠ .blockComment) : Comments.isComment (.ofKind form k fields) = false :=
  Kind.not_isAny_name hk.1 hk.2

theorem loggable_ofKind (hform : form ≠ "") (hk : k ≠ .lineComment ∧ k ≠ .blockComment) :
    (Node.ofKind form k fields).Loggable :=
  ⟨hform, fun h => absurd h (by simp [not_isComment_ofKind form hk])⟩

instance [hn : Made n ks parts] [hd : Draft n] [h : Sound a w parts] : Sound a w n := by
  have hdraft := hd.out
  obtain ⟨form, k, fields, -, hsignature, rfl, hfields⟩ := hn.out
  obtain ⟨hform, hk, -, hnames⟩ := isSignature_iff.1 hsignature
  exact ⟨View.holds_node.2 ⟨nofun,
    ⟨tidy_ofKind hform hnames, fun _ _ => hdraft, fun hlit => absurd hlit (not_isLiteral_ofKind hk)⟩,
    fun f => parts_ofKind fun f hf => h.out f.2 (hfields f hf)⟩⟩

/-- An object that is no node, made of what lies between two moments. -/
theorem holds_make (hform : form ≠ "")
    (htype : ∀ f ∈ fields, f.1 ≠ "type") (hnames : (fields.map Prod.fst).all (!isPlace ·))
    (h : ∀ f ∈ fields, V.Holds a w f.2) : V.Holds a w (.node (.make form fields)) := by
  have hkind : (Node.make form fields).kind? = none := by
    have hnone : fields.lookup "type" = none :=
      List.lookup_eq_none_iff.2 fun f hf => by simpa using (htype f hf).symm
    simp [Node.kind?, Node.get, Node.make, hnone]
  refine View.holds_node.2 ⟨fun _ h => (by cases h), ⟨.of_made hform (fun x hx => ?_) rfl, fun hsome => ?_, fun hlit => ?_⟩,
    fun f hf => h f (by simpa [Node.make] using hf)⟩
  · simpa using List.all_eq_true.1 hnames x hx
  · rw [hkind] at hsome
    cases hsome
  · rw [Node.is, hkind] at hlit
    cases hlit

instance {raw cooked : Value} [hr : Sound a w raw] [hc : Sound a w cooked] :
    Sound a w (Node.make "Value" [("raw", raw), ("cooked", cooked)]) :=
  ⟨holds_make (by decide) (by simp) rfl (by simpa using ⟨hr.out, hc.out⟩)⟩
instance [hk : Sound a w key] [hv : Sound a w value] :
    Sound a w (Node.make "Object" [("key", key), ("value", value)]) :=
  ⟨holds_make (by decide) (by simp) rfl (by simpa using ⟨hk.out, hv.out⟩)⟩

theorem loggable_of_made (hn : Composed n ks parts) : n.Loggable := by
  obtain ⟨form, k, fields, -, hsignature, rfl, -⟩ := hn.out
  obtain ⟨hform, -, hcomment, -⟩ := isSignature_iff.1 hsignature
  exact loggable_ofKind hform hcomment

theorem fresh_of_made (hn : Composed n ks parts) (h : Sound a w parts) : Fresh a w n := by
  have hloggable := loggable_of_made hn
  obtain ⟨form, k, fields, -, hsignature, rfl, hfields⟩ := hn.out
  obtain ⟨hform, hk, -, hnames⟩ := isSignature_iff.1 hsignature
  exact ⟨hloggable, tidy_ofKind hform hnames, fun f => parts_ofKind fun f hf => h.out f.2 (hfields f hf),
    fun hlit => absurd hlit (not_isLiteral_ofKind hk)⟩

theorem fresh_literal (hv : V.Holds a w v) (hraw : V.spells a w raw) :
    Fresh a w (.literal v (.text raw)) := by
  refine ⟨loggable_ofKind (by decide) (by decide), tidy_ofKind (by decide) rfl, fun f => parts_ofKind ?_,
    fun _ => ⟨raw, rfl, hraw⟩⟩
  simp only [List.forall_mem_cons, List.not_mem_nil, false_implies, implies_true, and_true]
  exact ⟨hv, trivial⟩

instance finishMade [ho : Opens j start]
    [hl : Later j w] [hr : Reached j w] [hn : Made n ks parts] [h : Sound j w parts] :
    Gives j w (Parse.finish start n) :=
  ⟨.finish ho.out hl.out hr.out (fresh_of_made hn.toComposed h) hn.common⟩

instance finishLiteral [ho : Opens j start]
    [hl : Later j w] [hr : Reached j w] [hv : Sound j w v] [hraw : Spells j w raw] :
    Gives j w (Parse.finish start (.literal v (.text raw))) :=
  ⟨.finish ho.out hl.out hr.out (fresh_literal hv.out hraw.out) rfl⟩

instance finishChoice [Decidable c] [hm : Gives j w (Parse.finish start m)] [hn : Gives j w (Parse.finish start n)] :
    Gives j w (Parse.finish start (if c then m else n)) := by
  split
  · exact hm
  · exact hn

-- The same where what makes the node is chosen before its parts are given.
instance finishChoice₃ [Decidable c] {f g : Value → Value → Value → Node}
    {x : Value} [hf : Gives j w (Parse.finish start (f x y z))]
    [hg : Gives j w (Parse.finish start (g x y z))] :
    Gives j w (Parse.finish start ((if c then f else g) x y z)) := by
  split
  · exact hf
  · exact hg

instance finishChoice₅ [Decidable c] {f g : Value → Value → Value → Value → Value → Node} {x u : Value}
    [hf : Gives j w (Parse.finish start (f x y z u v))] [hg : Gives j w (Parse.finish start (g x y z u v))] :
    Gives j w (Parse.finish start ((if c then f else g) x y z u v)) := by
  split
  · exact hf
  · exact hg

instance finishToken [h : Gives j w (Parse.finish (t.startMark 0) n)] : Gives j w (finishFrom t n) :=
  h

/-! #### Contexts -/

instance inContext [hp : Derives must a w p] : Derives must a w (within enter leave p) :=
  .quiet inferInstance fun _ => .quiet inferInstance fun _ => .bind hp fun _ x hr =>
    .quiet inferInstance fun _ => .pure hr x.sound

instance inIsolation [hp : Derives must a w p] : Derives must a w (isolate p) := by
  refine @inContext _ _ _ _ _ _ _ _ _ (.bind hp fun _ x hr => .quiet inferInstance fun c => ?_)
  split
  · exact .quiet inferInstance fun _ => .pure hr x.sound
  · exact .pure hr x.sound

instance inInheritance [hp : Derives must a w p] : Derives must a w (inherit p) :=
  inContext

instance [hp : Reads V p] : Reads V (within enter leave p) :=
  ⟨fun _ => inferInstance⟩
instance [hp : Reads V p] : Reads V (isolate p) := ⟨fun _ => inferInstance⟩
instance [hp : Reads V p] : Reads V (inherit p) := ⟨fun _ => inferInstance⟩

/-! #### Mapped results -/

instance mapMay {f : α → β} [hp : Derives must a w p]
    [hf : ∀ (t : Since w) (x : Result a t.now α), Sound a t.now (f x.get)] : Derives must a w (f <$> p) := by
  exact .bind hp fun t x hr => .pure hr (hf t x).out

instance {f : α → β} [hp : Reads V p]
    [hf : ∀ (w w' : V.Moment) (x : Result w w' α), Sound w w' (f x.get)] : Reads V (f <$> p) :=
  ⟨fun w => by
    exact .bind (hp.out w) fun t x hr => .pure hr (hf w t.now x).out⟩

omit [Carrier V α] in
theorem discard_eq : discard p = p >>= fun _ => Pure.pure PUnit.unit := by
  rw [discard, LawfulFunctor.map_const, Function.comp_apply, map_eq_pure_bind]

instance {f : Unit → Parse α} [ht : ∀ t : After w, Derives must a t.now (f ())]
    [hf : Derives must a w (f ())] : Derives must a w (discard (accept mark) >>= f) := by
  rw [discard_eq, bind_assoc]
  infer_instance

/-! #### Loops -/

theorem rounds [Carrier V σ] (hbody : ∀ (t : Since w) (x : Result a t.now σ), Derives false a t.now (body x.get)) :
    ∀ (bound : Nat) (t : Since w) (x : Result a t.now σ), (must → V.reached a t.now) →
      Derives must a t.now (EcmaSyntax.rounds body bound x.get)
  | 0, _, _, _ => .throw _
  | bound + 1, t, x, hr => by
    refine .bind (hbody t x) fun u y _ => ?_
    have hr' (h : must) : V.reached a u.now := V.reached_later (hr h) u.later
    obtain ⟨y, hy⟩ := y
    cases y with
    | again z => exact rounds hbody bound ⟨u.now, V.later_trans t.later u.later⟩ ⟨z, hy⟩ hr'
    | done z => exact .pure hr' hy

theorem loop [Carrier V σ] (hx : Sound a w x) (hr : must → V.reached a w)
    (hbody : ∀ (t : Since w) (x : Result a t.now σ), Derives false a t.now (body x.get)) :
    Derives must a w (Parse.loop body x) :=
  .settings (fun _ _ => rfl) fun _ _ =>
    rounds hbody _ ⟨w, V.later_refl w⟩ ⟨x, hx.out⟩ hr

instance loopMay [Carrier V σ] [hx : Sound a w x]
    [hf : ∀ t : Since w, Continues false a a t.now body] : Derives false a w (Parse.loop body x) :=
  loop hx nofun fun t y => (hf t).out y.get y.sound

instance loopMust [Carrier V σ] [hr : Reached a w]
    [hx : Sound a w x] [hf : ∀ t : Since w, Continues false a a t.now body] :
    Derives true a w (Parse.loop body x) :=
  loop hx (fun _ => hr.out) fun t y => (hf t).out y.get y.sound

instance manyUntil {item : Parse α} [hs : Quiet true stop] [hi : ∀ t : Since w, Derives false a t.now item] :
    Derives false a w (Parse.manyUntil stop item) := by
  refine loop inferInstance nofun fun t x => .quiet hs fun _ => ?_
  infer_instance

end Derives

end EcmaSyntax
