import EcmaSyntax.Proofs.Progress

/-!
# How productions run

Every production that is read through a rule reads something, or is refused: there is less of the source
left after it than before. So a loop over such productions ends, and so does their recursion. `Runs` says
this of a production step by step, and the rules below take it apart, for one production after another.

A rule costs two for each code point that is left, and one more if it is a statement, which may start
with an expression and need not read anything before (`Rule.rank`). A production may use all rules that
cost less than it does (`Recur.Grants`).
-/

namespace EcmaSyntax

open Parse

variable {E : Failure → Prop} {c : ParseSetting} {s : ParseState} {word mark : String}

theorem Meets.within_iff :
    Meets E (within enter leave p) c s Q ↔ Meets E p c { s with context := enter s.context }
      fun a t => Q a { t with context := leave s.context t.context } := by
  simp only [within, Meets.bind_iff, Meets.step_iff]

/-- An expression is read in a context that does not matter afterwards. -/
theorem Ready.meets_isolate [Extent c]
    (h : Meets (Failure.Allowed c) p c { s with context := freshCover s.context } fun _ t =>
      Ready c t ∧ Mode.code.left c t < n) :
    Meets (Failure.Allowed c) (isolate p) c s fun _ t => Ready c t ∧ Mode.code.left c t < n := by
  rw [isolate, Meets.within_iff, Meets.bind_iff]
  refine h.mono fun _ t ⟨ht, hlt⟩ => ?_
  simp only [Meets.bind_iff, Meets.step_iff]
  split
  · exact meets_unexpected
  · exact ⟨ht.withContext _, hlt⟩

/-! ### Rules -/

/-- Where a rule is read. -/
def Rule.mode : Rule → Mode
  | .element => .markup
  | _ => .code

/-- Statements may start with other rules. -/
def Rule.rank : Rule → Nat
  | .statement | .item => 1
  | _ => 0

/-- A rule reads something, or is refused, if so much of the source is left. -/
def Recur.Serves (c : ParseSetting) [Extent c] (r : Recur) (rule : Rule) (left : Nat) : Prop :=
  ∀ s, rule.mode.Holds c s → rule.mode.left c s = left → (rule = .memberChain → s.context.allowIn) →
    Meets (Failure.Allowed c) (r rule) c s fun _ t => rule.mode.Holds c t ∧ rule.mode.left c t < left

/-- So does every rule that costs less than an amount. -/
def Recur.Grants (c : ParseSetting) [Extent c] (r : Recur) (cost : Nat) : Prop :=
  ∀ rule left, 2 * left + rule.rank < cost → r.Serves c rule left

theorem Recur.Grants.mono [Extent c] {r : Recur} (h : r.Grants c n) (hmn : m ≤ n) : r.Grants c m :=
  fun rule left hcost => h rule left (Nat.lt_of_lt_of_le hcost hmn)

/-! ### Productions -/

section

variable {α β : Type}

/-- No result asks that something was read. -/
def Never (_ : α) : Prop := False

/-- Every result asks that something was read. -/
def Always (_ : α) : Prop := True

/-- Something must be read before the next round of a loop. -/
def Again : Round α β → Prop
  | .again _ => True
  | .done _ => False

end

/-- A production, with `extra` to spend on rules beyond what is left of the source: it goes from one mode
to another and never back in the source, and something is read if `asks` asks for that. -/
class Runs (c : ParseSetting) [Extent c] (r : Recur) (extra : Nat) (k : Mode) (k' : outParam Mode)
    {α : Type} (asks : α → Prop) (p : Parse α) : Prop where
  out (s : ParseState) : r.Grants c (2 * k.left c s + extra) → k.Holds c s →
    Meets (Failure.Allowed c) p c s fun x t =>
      k'.Holds c t ∧ k'.left c t ≤ k.left c s ∧ (asks x → k'.left c t < k.left c s)

/-- A production that goes on with a result. -/
class Continued (c : ParseSetting) [Extent c] (r : Recur) (extra : Nat) (k : Mode) (k' : outParam Mode)
    {α β : Type} (asks : β → Prop) (f : α → Parse β) : Prop where
  out (x : α) : Runs c r extra k k' asks (f x)

namespace Runs

variable [Extent c] {r : Recur} {e : Nat} {k k₁ k₂ : Mode} {α β γ : Type} {asks : β → Prop} {p : Parse α}
  {f : α → Parse β} {x : α} {t : Token} {body : α → Parse (Round α β)}

instance (priority := 50) {p q : Parse β} [u : Unfolds p q] [h : Runs c r e k k₁ asks q] :
    Runs c r e k k₁ asks p := u.eq ▸ h

instance (priority := low) [h : ∀ x, Runs c r e k k₁ asks (f x)] : Continued c r e k k₁ asks f :=
  ⟨h⟩

-- Pairs are taken apart, so that a production that matches on one goes on with its parts.
instance {f : α × γ → Parse β} [h : ∀ x, Continued c r e k k₁ asks fun y => f (x, y)] : Continued c r e k k₁ asks f :=
  ⟨fun x => (h x.1).out x.2⟩

instance pureMay : Runs c r e k k Never (pure x : Parse α) :=
  ⟨fun _ _ h => ⟨h, Nat.le_refl _, False.elim⟩⟩

instance pureDone {x : β} : Runs c r e k k Again (pure (.done x) : Parse (Round α β)) :=
  ⟨fun _ _ h => ⟨h, Nat.le_refl _, False.elim⟩⟩

/-- What reads something does what is asked for. -/
instance (priority := low) ofAlways {p : Parse β} [h : Runs c r e k k₁ Always p] : Runs c r e k k₁ asks p :=
  ⟨fun s hg hs => (h.out s hg hs).mono fun _ _ ht => ⟨ht.1, ht.2.1, fun _ => ht.2.2 trivial⟩⟩

instance ofCalm [h : Calm c k p] : Runs c r e k k Never p :=
  ⟨fun s _ hs => (h.out s hs).mono fun _ _ ht =>
    ⟨ht.holds hs, Nat.le_of_eq (ht.left k), False.elim⟩⟩

/-! #### Sequences -/

theorem bind (hp : Runs c r e k k₁ Never p)
    (hf : ∀ x, Runs c r e k₁ k₂ asks (f x)) : Runs c r e k k₂ asks (p >>= f) := by
  refine ⟨fun s hg hs => Meets.bind_iff.2 <| (hp.out s hg hs).mono fun x t ⟨ht, hle, _⟩ => ?_⟩
  refine ((hf x).out t (hg.mono (by omega)) ht).mono fun y u ⟨hu, hle', hasks⟩ => ?_
  exact ⟨hu, Nat.le_trans hle' hle, fun h => Nat.lt_of_lt_of_le (hasks h) hle⟩

theorem seq [hp : Runs c r e k k₁ Never p]
    (hf : ∀ x, Runs c r e k₁ k₂ asks (f x)) : Runs c r e k k₂ asks (p >>= f) :=
  bind hp hf

/-- After something was read, there is enough to spend for every rule. -/
theorem seqRead [hp : Runs c r e k k₁ Always p]
    (hf : ∀ x, Runs c r 2 k₁ k₂ Never (f x)) : Runs c r e k k₂ asks (p >>= f) := by
  refine ⟨fun s hg hs => Meets.bind_iff.2 <| (hp.out s hg hs).mono fun x t ⟨ht, _, hread⟩ => ?_⟩
  have hlt := hread trivial
  refine ((hf x).out t (hg.mono (by omega)) ht).mono fun y u ⟨hu, hle', _⟩ => ?_
  exact ⟨hu, Nat.le_of_lt (Nat.lt_of_le_of_lt hle' hlt), fun _ => Nat.lt_of_le_of_lt hle' hlt⟩

instance (priority := high) pureBind [h : Runs c r e k k₁ asks (f x)] :
    Runs c r e k k₁ asks ((pure x : Parse α) >>= f) := by
  rwa [pure_bind]

/-- What a parse is given is known. -/
theorem ofRead {f : ParseSetting → Parse β} (h : Runs c r e k k₁ asks (f c)) : Runs c r e k k₁ asks (read >>= f) :=
  ⟨fun s hg hs => h.out s hg hs⟩

instance (priority := high) readSetting {f : ParseSetting → Parse β} [h : Runs c r e k k₁ asks (f c)] :
    Runs c r e k k₁ asks (read >>= f) :=
  ofRead h

instance calmBind [Calm c k p] [hf : Continued c r e k k₁ asks f] : Runs c r e k k₁ asks (p >>= f) :=
  seq hf.out

instance (priority := 900) readBind [hp : Runs c r e k k₁ Always p]
    [hf : Continued c r 2 k₁ k₂ Never f] : Runs c r e k k₂ asks (p >>= f) :=
  seqRead hf.out

instance (priority := low) mayBind [hp : Runs c r e k k₁ Never p]
    [hf : Continued c r e k₁ k₂ asks f] : Runs c r e k k₂ asks (p >>= f) :=
  seq hf.out

-- A production that is the last step of another one.

theorem choice [Decidable q] (hm : Runs c r e k k₁ asks m) (hn : Runs c r e k k₁ asks n) :
    Runs c r e k k₁ asks (if q then m else n) := by
  split
  · exact hm
  · exact hn

instance ite [Decidable q] [hm : Runs c r e k k₁ asks m] [hn : Runs c r e k k₁ asks n] :
    Runs c r e k k₁ asks (if q then m else n) :=
  choice hm hn

-- After a test whose outcome is known, only one branch is left.
instance (priority := high) iteTrue [hm : Runs c r e k k₁ asks m] :
    Runs c r e k k₁ asks (if true = true then m else n) := by
  rwa [if_pos rfl]

instance (priority := high) iteFalse [hn : Runs c r e k k₁ asks n] :
    Runs c r e k k₁ asks (if false = true then m else n) := by
  rwa [if_neg (by decide)]

instance mapRead {f : α → β} [hp : Runs c r e k k₁ Always p] : Runs c r e k k₁ asks (f <$> p) := by
  rw [map_eq_pure_bind]
  exact seqRead fun _ => inferInstance

instance (priority := low) mapMay {f : α → β} [hp : Runs c r e k k₁ Never p] :
    Runs c r e k k₁ Never (f <$> p) := by
  rw [map_eq_pure_bind]
  exact seq fun _ => inferInstance

instance discardMay [hp : Runs c r e k k₁ Never p] : Runs c r e k k₁ Never (discard p) := by
  rw [Derives.discard_eq]
  exact seq fun _ => inferInstance

/-! #### Refusals -/

theorem ofThrow {p : Parse β} (h : ∀ s, Meets (Failure.Allowed c) p c s fun _ _ => False) : Runs c r e k k₁ asks p :=
  ⟨fun s _ _ => (h s).mono fun _ _ => False.elim⟩

instance : Runs c r e k k asks (unexpected t) := ofThrow fun _ => trivial

-- What would follow a refusal does not matter.
instance (priority := high) : Runs c r e k k asks (refuse cause >>= f) :=
  ofThrow fun _ => trivial
instance (priority := high) : Runs c r e k k asks (unexpected t >>= f) :=
  ofThrow fun _ => trivial

/-! #### Contexts -/

instance inContext {p : Parse β} [hp : Runs c r e k k₁ asks p] : Runs c r e k k₁ asks (within enter leave p) := by
  refine seq fun before => seq fun _ => ⟨fun s hg hs => ?_⟩
  refine Meets.bind_iff.2 <| (hp.out s hg hs).mono fun x t ⟨ht, hle, hasks⟩ => Meets.bind_iff.2 ?_
  refine (Calm.out t ht).mono fun _ u hu => ?_
  exact ⟨hu.holds ht, hu.left k₁ ▸ hle, fun h => hu.left k₁ ▸ hasks h⟩

instance inIsolation {p : Parse β} [hp : Runs c r e k k₁ asks p] : Runs c r e k k₁ asks (isolate p) := by
  have hcheck : Runs c r e k k₁ asks (do
      let a ← p
      if let some t := (← context).coverError then unexpected t
      return a) := by
    refine ⟨fun s hg hs => Meets.bind_iff.2 <| (hp.out s hg hs).mono fun x t ht => ?_⟩
    simp only [Meets.bind_iff, Meets.step_iff]
    split
    · exact meets_unexpected
    · exact ht
  exact inContext

instance inInheritance {p : Parse β} [hp : Runs c r e k k₁ asks p] : Runs c r e k k₁ asks (inherit p) :=
  inContext

/-! #### Loops -/

/-- A loop that keeps something of what it carries from round to round. -/
theorem loopWith {I : α → Prop} (hx : I x) (hbody : ∀ x, I x → ∀ s, r.Grants c (2 * k.left c s + e) → k.Holds c s →
      Meets (Failure.Allowed c) (body x) c s fun z t => k.Holds c t ∧ k.left c t ≤ k.left c s
        ∧ (Again z → k.left c t < k.left c s) ∧ ∀ y, z = .again y → I y) :
    Runs c r e k k Never (Parse.loop body x) := by
  refine ⟨fun s hg hs => ?_⟩
  refine Meets.rounds (I := fun y t => k.Holds c t ∧ k.left c t ≤ k.left c s ∧ I y) (N := k.left c)
    (fun y t hI => ?_) _ x s ⟨hs, Nat.le_refl _, hx⟩ ?_
  · obtain ⟨ht, hle, hy⟩ := hI
    refine (hbody y hy t (hg.mono (by omega)) ht).mono fun z u hround => ?_
    obtain ⟨hu, hle', hread, hz⟩ := hround
    cases z with
    | again y' => exact ⟨⟨hu, Nat.le_trans hle' hle, hz y' rfl⟩, hread trivial⟩
    | done _ => exact ⟨hu, Nat.le_trans hle' hle, False.elim⟩
  · cases k <;> simp only [Mode.left] <;> omega

theorem loop (hbody : ∀ x, Runs c r e k k Again (body x)) : Runs c r e k k Never (Parse.loop body x) :=
  loopWith trivial fun y _ s hg hs => ((hbody y).out s hg hs).mono
    fun _ _ ⟨ht, hle, hread⟩ => ⟨ht, hle, hread, fun _ _ => trivial⟩

instance overLoop [h : Continued c r e k k Again body] : Runs c r e k k Never (Parse.loop body x) :=
  loop h.out

instance overItems [hs : Runs c r e k k Never stop]
    [hi : Runs c r e k k Always item] : Runs c r e k k Never (manyUntil stop item) :=
  loop fun _ => seq fun done => by
    cases done <;> infer_instance

/-! #### Rules -/

theorem ofRule (rule : Rule) (hrank : rule.rank < e) (hrule : rule ≠ .memberChain) :
    Runs c r e rule.mode rule.mode Always (r rule) :=
  ⟨fun s hg hs => (hg rule _ (Nat.add_lt_add_left hrank _) s hs rfl (absurd · hrule)).mono
    fun _ _ ht => ⟨ht.1, Nat.le_of_lt ht.2, fun _ => ht.2⟩⟩

instance : Runs c r (e + 1) .code .code Always r.assignment :=
  ofRule .assignment (Nat.succ_pos e) nofun
instance : Runs c r (e + 1) .code .code Always r.exponentiation :=
  ofRule .exponentiation (Nat.succ_pos e) nofun
instance : Runs c r (e + 1) .code .code Always r.unary :=
  ofRule .unary (Nat.succ_pos e) nofun
instance : Runs c r (e + 1) .code .code Always r.callChain :=
  ofRule .callChain (Nat.succ_pos e) nofun
instance : Runs c r (e + 1) .code .code Always (r.pattern kind) :=
  ofRule (.pattern kind) (Nat.succ_pos e) nofun
instance : Runs c r (e + 2) .code .code Always r.statement :=
  ofRule .statement (Nat.le_add_left 2 e) nofun
instance : Runs c r (e + 2) .code .code Always r.item :=
  ofRule .item (Nat.le_add_left 2 e) nofun
instance : Runs c r (e + 1) .markup .markup Always r.element :=
  ofRule .element (Nat.succ_pos e) nofun

/-! #### Tokens -/

instance : Runs c r e .code .code Never next :=
  ⟨fun _ _ h => (Ready.meets_next h).mono fun _ _ hu => ⟨hu.1, hu.2.1, False.elim⟩⟩

/-- A token that is no good if it is the end. -/
theorem ofNext {f : Token → Parse β}
    (hend : ∀ t s, t.lexeme = .eof → Meets (Failure.Allowed c) (f t) c s fun _ _ => False)
    (hf : ∀ t, Runs c r 2 .code k₁ Never (f t)) : Runs c r e .code k₁ asks (next >>= f) := by
  refine ⟨fun s hg h => Meets.bind_iff.2 <| (Ready.meets_next h).mono fun t u ⟨hu, hle, hlt, _, _⟩ => ?_⟩
  by_cases heof : t.lexeme = .eof
  · exact (hend t u heof).mono fun _ _ => False.elim
  have hread := hlt heof
  refine ((hf t).out u (hg.mono (by omega)) hu).mono fun _ v ⟨hv, hle', _⟩ => ?_
  exact ⟨hv, Nat.le_trans hle' hle, fun _ => Nat.lt_of_le_of_lt hle' hread⟩

instance : Runs c r e .code .code Always (expect mark) :=
  ofNext (fun t s heof => by
    rw [heof]
    exact meets_unexpected) fun t => inferInstance

instance : Runs c r e .code .code Always (expectKeyword word) :=
  ofNext (fun t s heof => by
    rw [heof]
    exact meets_unexpected) fun t => inferInstance

end Runs

/-! ### Productions after a look at the lookahead -/

/-- A production that is read where the lookahead is known to be of some sort. -/
class RunsOn (P : Lexeme → Prop) (c : ParseSetting) [Extent c] (r : Recur) (extra : Nat)
    (k' : outParam Mode) {α : Type} (asks : α → Prop) (p : Parse α) : Prop where
  out (s : ParseState) : r.Grants c (2 * Mode.code.left c s + extra) → Ready c s →
    P s.lookahead.lexeme → Meets (Failure.Allowed c) p c s fun x t =>
      k'.Holds c t ∧ k'.left c t ≤ Mode.code.left c s ∧ (asks x → k'.left c t < Mode.code.left c s)

/-- Lexemes that are not the end of the source. -/
class Present (P : Lexeme → Prop) : Prop where
  ne_eof (l : Lexeme) : P l → l ≠ .eof

instance : Present (·.isMark mark) := ⟨by rintro _ h rfl; cases h⟩
instance : Present (·.isKeyword word) := ⟨by rintro _ h rfl; cases h⟩
instance : Present (·.isName word) := ⟨by rintro _ h rfl; cases h⟩
instance {marks : List String} : Present fun l => marks.any l.isMark :=
  ⟨by rintro _ h rfl; simp [Lexeme.isMark] at h⟩
instance {words : List String} : Present fun l => words.any l.isKeyword :=
  ⟨by rintro _ h rfl; simp [Lexeme.isKeyword] at h⟩
theorem Present.of_ne (h : l ≠ .eof) : Present (· = l) := ⟨fun _ heq => heq ▸ h⟩

theorem Ready.meets_accept [Extent c] (hs : Ready c s) : Meets (Failure.Allowed c) (accept mark) c s fun b t =>
      if b then Ready c t ∧ Mode.code.left c t < Mode.code.left c s else t = s := by
  simp only [accept, Meets.bind_iff, Meets.step_iff, Meets.ite_iff, skip, Meets.discard_iff, if_true,
    Bool.false_eq_true, if_false]
  refine ⟨fun hmark => hs.meets_next.mono fun t u hnext => ?_, fun _ => trivial⟩
  obtain ⟨hu, -, hlt, ht, -⟩ := hnext
  exact ⟨hu, hlt (ht ▸ Present.ne_eof (P := (·.isMark mark)) _ hmark)⟩

namespace RunsOn

variable {P : Lexeme → Prop} [Extent c] {r : Recur} {e : Nat} {k k₁ : Mode} {α β : Type} {asks : β → Prop}
  {p : Parse α} {f : α → Parse β}

instance (priority := low) ofRuns {p : Parse β} [h : Runs c r e .code k₁ asks p] : RunsOn P c r e k₁ asks p :=
  ⟨fun s hg hs _ => h.out s hg hs⟩

theorem calm (hp : Calm c .code p) (hf : ∀ x, RunsOn P c r e k₁ asks (f x)) : RunsOn P c r e k₁ asks (p >>= f) := by
  refine ⟨fun s hg hs hP => Meets.bind_iff.2 <| (hp.out s hs).mono fun x t ht => ?_⟩
  have hleft := ht.left .code
  refine ((hf x).out t (hleft ▸ hg) (ht.ready hs) (ht.lookahead ▸ hP)).mono fun _ u hu => ?_
  rwa [hleft] at hu

instance calmBind [hp : Calm c .code p] [hf : ∀ x, RunsOn P c r e k₁ asks (f x)] : RunsOn P c r e k₁ asks (p >>= f) :=
  calm hp hf

instance ite [Decidable q] [hm : RunsOn P c r e k₁ asks m]
    [hn : RunsOn P c r e k₁ asks n] : RunsOn P c r e k₁ asks (if q then m else n) := by
  split
  · exact hm
  · exact hn

instance next [hP : Present P] : RunsOn P c r e .code Always next :=
  ⟨fun _ _ hs h => hs.meets_next.mono fun _ _ ⟨hu, hle, hlt, ht, _⟩ =>
    ⟨hu, hle, fun _ => hlt (ht ▸ hP.ne_eof _ h)⟩⟩

theorem seqRead [hp : RunsOn P c r e k Always p]
    (hf : ∀ x, Runs c r 2 k k₁ Never (f x)) : RunsOn P c r e k₁ asks (p >>= f) := by
  refine ⟨fun s hg hs h => Meets.bind_iff.2 <| (hp.out s hg hs h).mono fun x t ⟨ht, _, hread⟩ => ?_⟩
  have hlt := hread trivial
  refine ((hf x).out t (hg.mono (by omega)) ht).mono fun y u ⟨hu, hle', _⟩ => ?_
  exact ⟨hu, Nat.le_of_lt (Nat.lt_of_le_of_lt hle' hlt), fun _ => Nat.lt_of_le_of_lt hle' hlt⟩

instance (priority := 900) readBind [hp : RunsOn P c r e k Always p]
    [hf : Continued c r 2 k k₁ Never f] : RunsOn P c r e k₁ asks (p >>= f) :=
  seqRead hf.out

instance skip [Present P] : RunsOn P c r e .code Always skip := by
  rw [Parse.skip, Derives.discard_eq]
  infer_instance

theorem mono {p : Parse β} (h : RunsOn P c r e k₁ asks p) (hQ : ∀ l, Q l → P l) : RunsOn Q c r e k₁ asks p :=
  ⟨fun s hg hs hs' => h.out s hg hs (hQ _ hs')⟩

end RunsOn

namespace Runs

variable [Extent c] {r : Recur} {e : Nat} {k k₁ : Mode} {α β : Type} {asks : β → Prop}

theorem ofAny (h : RunsOn (fun _ => True) c r e k₁ asks p) : Runs c r e .code k₁ asks p :=
  ⟨fun s hg hs => h.out s hg hs trivial⟩

theorem ofPeek {f : Token → Parse β} (h : ∀ t, RunsOn (· = t.lexeme) c r e k₁ asks (f t)) :
    Runs c r e .code k₁ asks (peek >>= f) :=
  ⟨fun s hg hs => (h s.lookahead).out s hg hs rfl⟩

/-- A look at the lookahead tells what it is. -/
theorem ofTest (test : Lexeme → Bool) {f : Bool → Parse β}
    (h : ∀ b, RunsOn (fun l => test l = b) c r e k₁ asks (f b)) :
    Runs c r e .code k₁ asks ((do return test (← peek).lexeme) >>= f) :=
  ⟨fun s hg hs => (h (test s.lookahead.lexeme)).out s hg hs rfl⟩

-- If a mark is accepted, it was read.
instance (priority := high) acceptBind {f : Bool → Parse β}
    [ht : Runs c r 2 .code k₁ Never (f true)] [hf : Runs c r e .code k₁ asks (f false)] :
    Runs c r e .code k₁ asks (accept mark >>= f) := by
  rw [accept, bind_assoc]
  refine ofTest (·.isMark mark) fun b => ?_
  cases b with
  | true =>
    simp only [if_true, bind_assoc, pure_bind]
    exact RunsOn.seqRead fun _ => ht
  | false =>
    simp only [Bool.false_eq_true, if_false, pure_bind]
    infer_instance

instance : Runs c r e .code .code Never (accept mark) := inferInstance

instance : Runs c r e .code .code Never semicolon := by
  have hlast : Calm c .code (modify fun s => { s with lastMark := s.startMark } : Parse Unit) :=
    .ofModify fun s => ⟨_, _, s.startMark, rfl⟩
  infer_instance

end Runs

end EcmaSyntax
