import EcmaSyntax.Grammar.Program

/-!
# Results of runs

`Ensures m r s Q` says of a run of `m`, with the setting `r` and from the state `s`, that `Q` holds of
its result and of the state it leaves, if it gives a result at all. It says nothing of a run that fails.
The rules below take the steps of a program one by one, as simplification lemmas; a loop takes an
invariant (`Ensures.rounds`, `Ensures.forIn`).

`Meets E m r s Q` says of a run of `m` that it gives a result of which `Q` holds, or fails in a way that
`E` allows. Where `Ensures` says nothing of a run that fails, this says why it may. The bounds on the
loops are part of that: `Meets.rounds` asks for a measure that goes down with every round, and in
return `Failure.exhausted` need not be allowed.
-/

namespace EcmaSyntax

variable {ρ σ α β : Type}

/-- A run of two steps goes on where the first one ends, unless that fails. -/
theorem bind_apply {f : α → ReaderT ρ (EStateM Failure σ) β} (r : ρ) (s : σ) : (m >>= f) r s = match m r s with
      | .ok a t => f a r t
      | .error e t => .error e t := by
  show EStateM.bind (m r) (fun a => f a r) s = _
  unfold EStateM.bind
  cases m r s <;> rfl

/-- A run from `s` gives the result `a` and leaves the state `t`. -/
class Steps (m : ReaderT ρ (EStateM Failure σ) α) (r : ρ) (s : σ) (a : outParam α) (t : outParam σ) : Prop where
  eq : m r s = .ok a t

instance : Steps (pure a : ReaderT ρ (EStateM Failure σ) α) r s a s := ⟨rfl⟩
instance : Steps (get : ReaderT ρ (EStateM Failure σ) σ) r s s s := ⟨rfl⟩
instance : Steps (read : ReaderT ρ (EStateM Failure σ) ρ) r s r s := ⟨rfl⟩
instance : Steps (modify g : ReaderT ρ (EStateM Failure σ) PUnit) r s ⟨⟩ (g s) := ⟨rfl⟩

/-- If a run from `s` gives a result, then `Q` holds of it and of the state it leaves. -/
def Ensures (m : ReaderT ρ (EStateM Failure σ) α) (r : ρ) (s : σ) (Q : α → σ → Prop) : Prop :=
  ∀ a t, m r s = .ok a t → Q a t

/-- Does a run from `s` give a result that passes a test? -/
def Yields (m : ReaderT ρ (EStateM Failure σ) α) (r : ρ) (s : σ) (test : α → σ → Bool) : Bool :=
  match m r s with
  | .ok a t => test a t
  | .error _ _ => false

theorem exists_of_yields (h : Yields m r s test) : ∃ a t, m r s = .ok a t ∧ test a t := by
  unfold Yields at h
  split at h
  · next a t ht => exact ⟨a, t, ht, h⟩
  · cases h

/-- What holds after a round of a loop: the invariant, or what is said of the result. -/
def Round.Holds {τ : Type} (I : τ → σ → Prop) (R : β → σ → Prop) : Round τ β → σ → Prop
  | .again x, t => I x t
  | .done b, t => R b t

namespace Ensures

variable {m : ReaderT ρ (EStateM Failure σ) α} {f : α → ReaderT ρ (EStateM Failure σ) β} {r : ρ}
  {s : σ} {P Q : α → σ → Prop} {R : β → σ → Prop}

theorem mono (h : Ensures m r s P) (hPQ : ∀ a t, P a t → Q a t) : Ensures m r s Q :=
  fun a t ht => hPQ a t (h a t ht)

theorem and (hP : Ensures m r s P) (hQ : Ensures m r s Q) : Ensures m r s fun a t => P a t ∧ Q a t :=
  fun a t ht => ⟨hP a t ht, hQ a t ht⟩

theorem always (h : ∀ a t, Q a t) : Ensures m r s Q := fun a t _ => h a t

@[simp] theorem bind_iff : Ensures (m >>= f) r s R ↔ Ensures m r s fun a t => Ensures (f a) r t R := by
  unfold Ensures
  simp only [bind_apply]
  cases m r s <;> simp

theorem seq (h : Ensures m r s fun a t => Ensures (f a) r t R) : Ensures (m >>= f) r s R := bind_iff.2 h

/-- What follows a run that ends in some way. -/
theorem bind (h : Ensures m r s P) (hf : ∀ a t, P a t → Ensures (f a) r t R) : Ensures (m >>= f) r s R :=
  bind_iff.2 (h.mono hf)

/-- What follows a run, however that ends. -/
theorem anyway (hf : ∀ a t, Ensures (f a) r t R) : Ensures (m >>= f) r s R := bind_iff.2 (.always hf)

@[simp] theorem step_iff [h : Steps m r s a t] : Ensures m r s Q ↔ Q a t := by
  unfold Ensures
  rw [h.eq]
  simp

/-- What follows a step. -/
theorem step_bind [h : Steps m r s a t] : Ensures (m >>= f) r s R ↔ Ensures (f a) r t R := by
  rw [bind_iff, step_iff]

protected theorem pure {a : α} (h : Q a s) : Ensures (pure a : ReaderT ρ (EStateM Failure σ) α) r s Q :=
  step_iff.2 h

protected theorem modify {g : σ → σ} {Q : PUnit → σ → Prop} (h : Q ⟨⟩ (g s)) :
    Ensures (modify g : ReaderT ρ (EStateM Failure σ) PUnit) r s Q :=
  step_iff.2 h

@[simp] theorem throw_iff : Ensures (throw e : ReaderT ρ (EStateM Failure σ) α) r s Q ↔ True := by
  refine ⟨fun _ => trivial, fun _ b t hb => ?_⟩
  cases hb

@[simp] theorem map_iff : Ensures (g <$> m) r s R ↔ Ensures m r s fun a t => R (g a) t := by
  unfold Ensures
  show (∀ b u, EStateM.map g (m r) s = .ok b u → R b u) ↔ _
  unfold EStateM.map
  cases m r s <;> simp

@[simp] theorem discard_iff {Q : PUnit → σ → Prop} :
    Ensures (discard m) r s Q ↔ Ensures m r s fun _ t => Q ⟨⟩ t := by
  rw [discard, LawfulFunctor.map_const, Function.comp_apply, map_iff]

/-- An invariant of a loop holds where it ends. -/
theorem rounds {body : τ → ReaderT ρ (EStateM Failure σ) (Round τ β)}
    {I : τ → σ → Prop} (hbody : ∀ x s, I x s → Ensures (body x) r s (Round.Holds I R)) :
    ∀ (bound : Nat) (x : τ) (s : σ), I x s → Ensures (EcmaSyntax.rounds body bound x) r s R
  | 0, _, _, _ => throw_iff.2 trivial
  | bound + 1, x, s, h => by
    rw [EcmaSyntax.rounds, bind_iff]
    refine (hbody x s h).mono fun y t hy => ?_
    cases y with
    | again x' => exact rounds hbody bound x' t hy
    | done b => exact .pure hy

end Ensures

/-- A run from `s` gives a result, and `Q` holds of it and of the state it leaves; or the run fails, and
the failure is one that `E` allows. -/
def Meets (E : Failure → Prop) (m : ReaderT ρ (EStateM Failure σ) α) (r : ρ) (s : σ)
    (Q : α → σ → Prop) : Prop :=
  match m r s with
  | .ok a t => Q a t
  | .error e _ => E e

namespace Meets

variable {E : Failure → Prop} {m : ReaderT ρ (EStateM Failure σ) α}
  {f : α → ReaderT ρ (EStateM Failure σ) β} {r : ρ} {s : σ} {P Q : α → σ → Prop} {R : β → σ → Prop} {a : α}
  {t : σ} {e : Failure}

theorem imp (h : Meets E m r s P) (hPQ : ∀ a t, m r s = .ok a t → P a t → Q a t) : Meets E m r s Q := by
  unfold Meets at h ⊢
  cases hm : m r s with
  | ok a t =>
    rw [hm] at h
    exact hPQ a t hm h
  | error e t =>
    rw [hm] at h
    exact h

theorem mono (h : Meets E m r s P) (hPQ : ∀ a t, P a t → Q a t) : Meets E m r s Q := h.imp fun a t _ => hPQ a t

/-- What is known of the results adds to what a run meets. -/
theorem and_ensures (h : Meets E m r s P) (hQ : Ensures m r s Q) : Meets E m r s fun a t => P a t ∧ Q a t :=
  h.imp fun a t hm hP => ⟨hP, hQ a t hm⟩

theorem ensures (h : Meets E m r s Q) : Ensures m r s Q := by
  intro a t hm
  unfold Meets at h
  rwa [hm] at h

/-- Where all failures are allowed, this says no more than what is known of the results. -/
theorem of_ensures (h : Ensures m r s Q) : Meets (fun _ => True) m r s Q := by
  unfold Meets
  cases hm : m r s with
  | ok a t => exact h a t hm
  | error e t => trivial

theorem and (h : Meets E m r s P) (h' : Meets E m r s Q) : Meets E m r s fun a t => P a t ∧ Q a t :=
  h.and_ensures h'.ensures

/-- Where no failure is allowed, a run gives its result. -/
theorem eq_ok (h : Meets (fun _ => False) m r s fun b u => b = a ∧ u = t) : m r s = .ok a t := by
  unfold Meets at h
  split at h
  · next hm =>
    obtain ⟨rfl, rfl⟩ := h
    exact hm
  · exact h.elim

/-- A failure of the run is one that is allowed. -/
theorem allowed (h : Meets E m r s Q) (hm : m r s = .error e t) : E e := by
  unfold Meets at h
  rwa [hm] at h

@[simp] theorem bind_iff : Meets E (m >>= f) r s R ↔ Meets E m r s fun a t => Meets E (f a) r t R := by
  unfold Meets
  rw [bind_apply]
  cases m r s <;> rfl

@[simp] theorem step_iff [h : Steps m r s a t] : Meets E m r s Q ↔ Q a t := by
  unfold Meets
  rw [h.eq]

/-- What follows a step. -/
theorem step_bind [h : Steps m r s a t] : Meets E (m >>= f) r s R ↔ Meets E (f a) r t R := by
  rw [bind_iff, step_iff]

@[simp] theorem throw_iff : Meets E (throw e : ReaderT ρ (EStateM Failure σ) α) r s Q ↔ E e :=
  Iff.rfl

@[simp] theorem map_iff : Meets E (g <$> m) r s R ↔ Meets E m r s fun a t => R (g a) t := by
  rw [map_eq_pure_bind, bind_iff]
  rfl

@[simp] theorem discard_iff {Q : PUnit → σ → Prop} :
    Meets E (discard m) r s Q ↔ Meets E m r s fun _ t => Q ⟨⟩ t := by
  rw [discard, LawfulFunctor.map_const, Function.comp_apply, map_iff]

@[simp] theorem ite_iff [Decidable p] :
    Meets E (if p then m else m') r s Q ↔ (p → Meets E m r s Q) ∧ (¬ p → Meets E m' r s Q) := by
  split <;> simp [*]

/-- A loop ends within its bound if a measure goes down with every round. -/
theorem rounds {body : τ → ReaderT ρ (EStateM Failure σ) (Round τ β)} {I : τ → σ → Prop} {N : σ → Nat}
    (hbody : ∀ x s, I x s → Meets E (body x) r s (Round.Holds (fun y t => I y t ∧ N t < N s) R)) :
    ∀ (bound : Nat) (x : τ) (s : σ), I x s → N s < bound → Meets E (EcmaSyntax.rounds body bound x) r s R
  | 0, _, _, _, hN => absurd hN (Nat.not_lt_zero _)
  | bound + 1, x, s, h, hN => by
    rw [EcmaSyntax.rounds, bind_iff]
    refine (hbody x s h).mono fun y t hy => ?_
    cases y with
    | again x' => exact rounds hbody bound x' t hy.1 (Nat.lt_of_lt_of_le hy.2 (Nat.le_of_lt_succ hN))
    | done b => exact step_iff.2 hy

/-- A loop over a list keeps what each of its rounds keeps. -/
theorem forIn {l : List γ} (hbody : ∀ x ∈ l, ∀ b s, R b s → Meets E (body x b) r s fun y t => match y with
      | .yield b' | .done b' => R b' t) {s : σ} (h : R b s) : Meets E (ForIn.forIn l b body) r s R := by
  induction l generalizing b s with
  | nil => exact h
  | cons x l ih =>
    rw [List.forIn_cons, bind_iff]
    refine (hbody x List.mem_cons_self b s h).mono fun y t hy => ?_
    cases y with
    | done b' => exact step_iff.2 hy
    | yield b' => exact ih (fun x' hx' => hbody x' (List.mem_cons_of_mem x hx')) hy

end Meets

/-- An invariant of a loop over a list holds where it ends. -/
theorem Ensures.forIn {l : List γ} {R : β → σ → Prop} (hbody : ∀ x ∈ l, ∀ b s, R b s → Ensures (body x b) r s
      fun y t => match y with
      | .yield b' | .done b' => R b' t) (h : R b s) : Ensures (ForIn.forIn l b body) r s R :=
  (Meets.forIn (fun x hx b s hb => .of_ensures (hbody x hx b s hb)) h).ensures

/-- A scan within a parse changes the state of the scan only. -/
@[simp] theorem Ensures.scan_iff {Q : α → ParseState → Prop} : Ensures (Parse.scan m) c s Q
      ↔ Ensures m c.toSetting s.scan fun a t => Q a { s with scan := t } := by
  unfold Ensures
  simp only [Parse.scan]
  cases m c.toSetting s.scan <;> simp

@[simp] theorem Meets.scan_iff {Q : α → ParseState → Prop} : Meets E (Parse.scan m) c s Q
      ↔ Meets E m c.toSetting s.scan fun a t => Q a { s with scan := t } := by
  unfold Meets Parse.scan
  cases m c.toSetting s.scan <;> rfl

/-! ### Steps -/

namespace Steps

section

open Scan

variable {r : Setting} {s : ScanState}

instance : Steps cursor r s s.cursor s := ⟨rfl⟩
instance : Steps index r s s.cursor.index s := ⟨rfl⟩
instance : Steps (setCursor c) r s () { s with cursor := c } := ⟨rfl⟩
instance : Steps (setIndex i) r s () { s with cursor := { s.cursor with index := i } } := ⟨rfl⟩
instance : Steps (advance n) r s () { s with cursor := s.cursor.advance n } := ⟨rfl⟩
instance : Steps atEnd r s (r.source.size ≤ s.cursor.index) s := ⟨rfl⟩
instance : Steps (looksAt w) r s (r.source.hasAt s.cursor.index w) s := ⟨rfl⟩
instance : Steps (since year) r s (year ≤ r.edition) s := ⟨rfl⟩
instance : Steps (sliceFrom i) r s (r.source.slice i s.cursor.index) s := ⟨rfl⟩
instance : Steps (skipWhile test) r s ()
    { s with cursor := { s.cursor with index := r.source.skipWhile test s.cursor.index } } := ⟨rfl⟩
instance : Steps (openBrace b) r s () { s with braces := b :: s.braces } := ⟨rfl⟩
instance : Steps closeBrace r s () { s with braces := s.braces.drop 1 } := ⟨rfl⟩
instance : Steps (token start l) r s ⟨l, start, s.cursor.index, s.cursor.line, s.cursor.lineStart⟩ s := ⟨rfl⟩

end

open Parse

variable {c : ParseSetting} {s : ParseState}

instance : Steps context c s s.context s := ⟨rfl⟩
instance : Steps (setContext f) c s () { s with context := f s.context } := ⟨rfl⟩
instance : Steps strict c s s.context.strict s := ⟨rfl⟩
instance : Steps (since year) c s (year ≤ c.edition) s := ⟨rfl⟩
instance : Steps (log isComment n span) c s (Event.make c.delegate s.events.size isComment n span).taken
    { s with events := s.events.push (.make c.delegate s.events.size isComment n span) } := ⟨rfl⟩
instance : Steps (finish start n) c s (Event.make c.delegate s.events.size false n ⟨start, s.lastMark⟩).taken
    { s with events := s.events.push (.make c.delegate s.events.size false n ⟨start, s.lastMark⟩) } := ⟨rfl⟩
instance : Steps here c s s.startMark s := ⟨rfl⟩
instance : Steps peek c s s.lookahead s := ⟨rfl⟩
instance : Steps cursorMark c s s.scan.cursor.mark s := ⟨rfl⟩
instance : Steps (record t) c s () { s with tokens := s.tokens.push ⟨t, s.startMark, s.scan.cursor.mark⟩ } := ⟨rfl⟩
instance : Steps unrecord c s () { s with tokens := s.tokens.pop } := ⟨rfl⟩
instance : Steps markLast c s () { s with lastMark := s.scan.cursor.mark } := ⟨rfl⟩
instance : Steps (setLookahead t) c s () { s with lookahead := t } := ⟨rfl⟩
instance : Steps (sees mark) c s (s.lookahead.lexeme.isMark mark) s := ⟨rfl⟩
instance : Steps (seesAny marks) c s (marks.any s.lookahead.lexeme.isMark) s := ⟨rfl⟩
instance : Steps (seesKeyword word) c s (s.lookahead.lexeme.isKeyword word) s := ⟨rfl⟩
instance : Steps (seesName word) c s (s.lookahead.lexeme.isName word) s := ⟨rfl⟩

end Steps

open Ensures (bind_iff step_iff throw_iff discard_iff scan_iff)

/-- Nobody changes a node, apart from the place it gets. -/
theorem Event.taken_idle {k : Nat} {isComment : Bool} {n : Node} {span : Span} :
    (Event.make .idle k isComment n span).taken = { n with serial := some (2 * k), span := some span } :=
  rfl

namespace Parse

variable {c : ParseSetting} {s : ParseState} {n : Node} {Q : Unit → ParseState → Prop}

/-! ### Events -/

/-- A finished node is what was made, with its place. -/
theorem ensures_finish_idle {start : Mark} (h : c.delegate = .idle) : Ensures (finish start n) c s fun n' _ =>
      n' = { n with serial := some (2 * s.events.size), span := some ⟨start, s.lastMark⟩ } := by
  simp only [step_iff, h, Event.taken_idle]

/-- Nothing was logged but comments, and nothing else was done. -/
def Commented (s t : ParseState) : Prop :=
  ∃ es : List Event, (∀ e ∈ es, e.isComment) ∧ t = { s with events := s.events ++ es.toArray }

theorem Commented.refl (s : ParseState) : Commented s s := ⟨[], by simp, by simp⟩

theorem Commented.push (h : Commented s t) (he : e.isComment) :
    Commented s { t with events := t.events.push e } := by
  obtain ⟨es, hes, rfl⟩ := h
  exact ⟨es ++ [e], List.forall_mem_append.2 ⟨hes, List.forall_mem_singleton.2 he⟩, by simp⟩

/-- White space and comments change nothing but the scan, as `Scan.trivia` does, and the log, by
comments. -/
theorem ensures_passTrivia (h : Ensures Scan.trivia c.toSetting s.scan fun _ t =>
      ∀ u, Commented { s with scan := t } u → Q () u) : Ensures passTrivia c s Q := by
  unfold passTrivia
  rw [bind_iff, scan_iff]
  refine h.mono fun comments t ht => ?_
  rw [bind_iff]
  refine Ensures.mono (Ensures.forIn (fun comment _ _ u hu => ?_) (.refl _)) fun _ u hu => .pure (ht u hu)
  simp only [bind_iff, step_iff, discard_iff]
  exact hu.push rfl

/-! ### Tokens -/

/-- A token that is refused gives no result. -/
theorem ensures_unexpected {Q : α → ParseState → Prop} : Ensures (unexpected t) c s Q := by
  simp only [unexpected, refuseAt, fail, bind_iff, throw_iff]
  exact .always fun _ _ => .always fun _ _ => trivial

/-- Where the lookahead starts that is about to be read. -/
def startNow (s : ParseState) : Mark :=
  if s.scan.cursor.index = s.startMark.index then s.startMark else s.scan.cursor.mark

/-- Reading a token gives the lookahead. The last token ends where the cursor was, and the new
lookahead starts behind white space and comments. -/
theorem ensures_next {Q : Token → ParseState → Prop} (h : Ensures Scan.trivia c.toSetting s.scan fun _ t =>
      ∀ u, Commented { s with scan := t, lastMark := s.scan.cursor.mark } u →
        Ensures Scan.lex c.toSetting t fun found t' => ∀ newline tokens, Q s.lookahead
          { u with scan := t', startMark := startNow u, newline, tokens
                   lookahead := if u.context.strict then found.reserve else found }) :
    Ensures next c s Q := by
  simp only [next, bind_iff, step_iff]
  refine ensures_passTrivia (h.mono fun _ t ht u hu => ?_)
  have hscan : u.scan = t := by
    obtain ⟨es, -, rfl⟩ := hu
    rfl
  have hstart : (if u.scan.cursor.index = u.startMark.index then u
      else { u with startMark := u.scan.cursor.mark }) = { u with startMark := startNow u } := by
    unfold startNow
    split <;> rfl
  simp only [hstart, scan_iff]
  rw [hscan]
  refine (ht u hu).mono fun found t' hQ => ?_
  generalize (if u.context.strict then found.reserve else found) = found at hQ ⊢
  split
  · exact .pure (hQ _ _)
  · simp only [bind_iff, step_iff]
    exact hQ _ _

/-- A token that is read was the lookahead. -/
theorem ensures_next_eq (c : ParseSetting) (s : ParseState) : Ensures next c s fun t _ => t = s.lookahead :=
  ensures_next <| .always fun _ _ _ _ => .always fun _ _ _ _ => rfl

/-- Reading a regular expression at the cursor, and the lookahead after it. -/
theorem ensures_nextRegex {Q : Token → ParseState → Prop} (h : Ensures Scan.trivia c.toSetting s.scan fun _ t =>
      ∀ u, Commented { s with scan := t } u → Ensures Scan.regex c.toSetting t fun found t' => ∀ tokens,
          Ensures next c { u with scan := t', lookahead := found, tokens } fun _ v => Q found v) :
    Ensures nextRegex c s Q := by
  simp only [nextRegex, skip, bind_iff, scan_iff, step_iff, discard_iff]
  refine ensures_passTrivia (h.mono fun _ t ht u hu => ?_)
  have hscan : u.scan = t := by
    obtain ⟨es, -, rfl⟩ := hu
    rfl
  rw [hscan]
  exact (ht u hu).mono fun found t' hQ => hQ _

/-- A template is only gone on with where the lookahead is a closing brace: then the lookahead is read
again, from the brace on. -/
theorem ensures_resumeTemplate (hskip : Q () s) (hlex : s.lookahead.lexeme.isMark "\x7d" →
      Ensures Scan.lex c.toSetting { s.scan with
          braces := .substitution :: s.scan.braces.erase .substitution
          cursor := { s.scan.cursor with index := s.scan.cursor.index - 1 } }
        fun t t' => Q () { s with scan := t', lookahead := t }) : Ensures Grammar.resumeTemplate c s Q := by
  simp only [Grammar.resumeTemplate, bind_iff, step_iff]
  split
  · next h =>
    simp only [bind_iff, step_iff, scan_iff]
    exact hlex (by simp_all)
  · exact .pure hskip

end Parse

end EcmaSyntax
