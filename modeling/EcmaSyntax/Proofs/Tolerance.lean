import EcmaSyntax.Proofs.Reporting
import EcmaSyntax.Proofs.Simple

/-!
# Two runs in lockstep

A strict run refuses the source at the first error; a lenient one records the error and goes on.
`LockstepAt m r s` compares the two runs of `m` from the same state: until an error is met they do the
same (`agrees`), and where the strict run fails, a lenient run that goes on has recorded an error
(`fails`), which it never forgets (`grows`).

Nothing that is done with the setting may depend on whether errors are tolerated (`LockstepAt.read`),
apart from the one place where an error is recorded (`Scan.tolerate`). So every scan is in lockstep.
-/

namespace EcmaSyntax

set_option synthInstance.maxSize 100000000000000

variable {α : Type} {m : Scan α}

/-- Runs that may tolerate errors. -/
class Tolerant (ρ : Type) (σ : outParam Type) where
  /-- The setting with errors tolerated or not. -/
  withTolerance : ρ → Bool → ρ
  /-- The errors recorded so far. -/
  errors : σ → Array SyntaxError

instance : Tolerant Setting ScanState := ⟨fun r tolerant => { r with tolerant }, ScanState.errors⟩

open Tolerant

section

variable {ρ σ β : Type} [Tolerant ρ σ]

/-- The strict and the lenient run of `m` from a state are in lockstep. -/
structure LockstepAt (m : ReaderT ρ (EStateM Failure σ) α) (r : ρ) (s : σ) : Prop where
  grows : errors ρ s ≠ #[] → Ensures m (withTolerance r true) s fun _ t => errors ρ t ≠ #[]
  agrees : errors ρ s = #[] → ∀ a t, m (withTolerance r false) s = .ok a t →
    m (withTolerance r true) s = .ok a t ∧ errors ρ t = #[]
  fails : errors ρ s = #[] → ∀ e t, m (withTolerance r false) s = .error e t →
    Ensures m (withTolerance r true) s fun _ u => errors ρ u ≠ #[]

/-- The strict and the lenient run of `m` are in lockstep from any state. -/
class Lockstep (m : ReaderT ρ (EStateM Failure σ) α) : Prop where
  out (r : ρ) (s : σ) : LockstepAt m r s

variable {m : ReaderT ρ (EStateM Failure σ) α} {f : α → ReaderT ρ (EStateM Failure σ) β} {r : ρ}
  {s : σ}

/-! ### Rules -/

namespace LockstepAt

/-- What follows need only be in lockstep where one of the two runs gets. -/
theorem bind (hm : LockstepAt m r s)
    (hf : ∀ a t, m (withTolerance r false) s = .ok a t ∨ m (withTolerance r true) s = .ok a t →
      LockstepAt (f a) r t) : LockstepAt (m >>= f) r s := by
  refine ⟨fun hs => ?_, fun hs b u hb => ?_, fun hs e u hb => ?_⟩
  · rw [Ensures.bind_iff]
    exact fun a t ht => (hf a t (.inr ht)).grows (hm.grows hs a t ht)
  · rw [bind_apply] at hb ⊢
    cases hstrict : m (withTolerance r false) s with
    | ok a t =>
      obtain ⟨hlenient, ht⟩ := hm.agrees hs a t hstrict
      rw [hlenient]
      rw [hstrict] at hb
      exact (hf a t (.inl hstrict)).agrees ht b u hb
    | error e' t => rw [hstrict] at hb; cases hb
  · rw [Ensures.bind_iff]
    rw [bind_apply] at hb
    intro a' t' hlenient'
    cases hstrict : m (withTolerance r false) s with
    | ok a t =>
      -- The strict run fails later on: up to here the lenient one did the same.
      obtain ⟨hlenient, ht⟩ := hm.agrees hs a t hstrict
      cases hlenient.symm.trans hlenient'
      rw [hstrict] at hb
      exact (hf _ _ (.inl hstrict)).fails ht e u hb
    | error e' t =>
      exact (hf a' t' (.inr hlenient')).grows (hm.fails hs e' t hstrict a' t' hlenient')

theorem pure (a : α) : LockstepAt (Pure.pure a : ReaderT ρ (EStateM Failure σ) α) r s where
  grows hs := .pure hs
  agrees hs _ _ h := by
    cases h
    exact ⟨rfl, hs⟩
  fails _ _ _ h := nomatch h

theorem throw (e : Failure) : LockstepAt (MonadExcept.throw e : ReaderT ρ (EStateM Failure σ) α) r s where
  grows _ := Ensures.throw_iff.2 trivial
  agrees _ _ _ h := nomatch h
  fails _ _ _ _ := Ensures.throw_iff.2 trivial

/-- A step that always succeeds, in the same way whether errors are tolerated or not, and that records
no error. -/
theorem same {g : ρ → σ → α × σ} (hg : ∀ tolerant, m (withTolerance r tolerant) s
      = .ok (g r s).1 (g r s).2) (herrors : errors ρ (g r s).2 = errors ρ s) : LockstepAt m r s where
  grows hs a t h := by
    cases (hg true).symm.trans h
    exact herrors ▸ hs
  agrees hs a t h := by
    cases (hg false).symm.trans h
    exact ⟨hg true, herrors ▸ hs⟩
  fails _ _ _ h := nomatch (hg false).symm.trans h

theorem congr (h : LockstepAt m' r s)
    (hm : ∀ tolerant, m (withTolerance r tolerant) s = m' (withTolerance r tolerant) s) :
    LockstepAt m r s := by
  refine ⟨fun hs => ?_, fun hs a t ht => ?_, fun hs e t ht => ?_⟩
  · exact fun a t ht => h.grows hs a t (hm true ▸ ht)
  · rw [hm] at ht ⊢
    exact h.agrees hs a t ht
  · rw [hm] at ht
    exact fun a u hu => h.fails hs e t ht a u (hm true ▸ hu)

/-- The strict run fails, and the lenient one records an error. -/
theorem refused (hstrict : Ensures m (withTolerance r false) s fun _ _ => False)
    (hlenient : Ensures m (withTolerance r true) s fun _ t => errors ρ t ≠ #[]) : LockstepAt m r s where
  grows _ := hlenient
  agrees _ a t h := (hstrict a t h).elim
  fails _ _ _ _ := hlenient

/-- What is done with the setting does not depend on whether errors are tolerated. -/
theorem read {f : ρ → ReaderT ρ (EStateM Failure σ) β}
    (hf : ∀ tolerant, f (withTolerance r tolerant) = f r) (h : LockstepAt (f r) r s) :
    LockstepAt (MonadReader.read >>= f) r s := by
  refine h.congr fun tolerant => ?_
  rw [← hf tolerant]
  rfl

end LockstepAt

namespace Lockstep

instance (a : α) : Lockstep (Pure.pure a : ReaderT ρ (EStateM Failure σ) α) :=
  ⟨fun _ _ => .pure a⟩

instance (e : Failure) : Lockstep (MonadExcept.throw e : ReaderT ρ (EStateM Failure σ) α) :=
  ⟨fun _ _ => .throw e⟩

theorem seq [hm : Lockstep m] (hf : ∀ a, Lockstep (f a)) : Lockstep (m >>= f) :=
  ⟨fun r s => (hm.out r s).bind fun a t _ => (hf a).out r t⟩

instance bind [hm : Lockstep m] [hf : ∀ a, Lockstep (f a)] : Lockstep (m >>= f) := seq hf

instance (priority := 50) [u : Expands m n] [h : Lockstep n] : Lockstep m := u.eq ▸ h

instance [Decidable c] [h : Lockstep m] [h' : Lockstep m'] : Lockstep (if c then m else m') := by
  split
  · exact h
  · exact h'

instance : Lockstep (MonadState.get : ReaderT ρ (EStateM Failure σ) σ) :=
  ⟨fun _ _ => .same (g := fun _ s => (s, s)) (fun _ => rfl) rfl⟩

theorem ofModify (h : ∀ s, errors ρ (g s) = errors ρ s) : Lockstep (modify g : ReaderT ρ (EStateM Failure σ) PUnit) :=
  ⟨fun _ s => .same (g := fun _ s => (⟨⟩, g s)) (fun _ => rfl) (h s)⟩

theorem ofRead {f : ρ → ReaderT ρ (EStateM Failure σ) β}
    (hf : ∀ r tolerant, f (withTolerance r tolerant) = f r) (h : ∀ r, Lockstep (f r)) :
    Lockstep (MonadReader.read >>= f) :=
  ⟨fun r s => .read (hf r) ((h r).out r s)⟩

/-- A step that refuses the source or records an error. -/
theorem ofRecord (e : SyntaxError) (hstrict : ∀ r s, m (withTolerance r false) s = .error (.refused e) s)
    (hlenient : ∀ r s, Ensures m (withTolerance r true) s fun _ t => errors ρ t ≠ #[]) : Lockstep m :=
  ⟨fun r s =>
    { grows := fun _ => hlenient r s
      agrees := fun _ _ _ h => nomatch (hstrict r s).symm.trans h
      fails := fun _ _ _ _ => hlenient r s }⟩

instance [h : Lockstep m] : Lockstep (g <$> m) := by
  rw [map_eq_pure_bind]
  infer_instance

instance [h : Lockstep m] : Lockstep (discard m) := by
  rw [discard, LawfulFunctor.map_const, Function.comp_apply]
  infer_instance

instance rounds {body : τ → ReaderT ρ (EStateM Failure σ) (Round τ β)}
    [h : ∀ x, Lockstep (body x)] : ∀ (bound : Nat) (x : τ),
    Lockstep (EcmaSyntax.rounds body bound x)
  | 0, _ => inferInstanceAs (Lockstep (throw Failure.exhausted))
  | bound + 1, x => by
    have (y : τ) : Lockstep (EcmaSyntax.rounds body bound y) := rounds bound y
    unfold EcmaSyntax.rounds
    refine seq fun y => ?_
    cases y <;> infer_instance

instance forIn {body : γ → β → ReaderT ρ (EStateM Failure σ) (ForInStep β)}
    [h : ∀ x b, Lockstep (body x b)] : ∀ l : List γ, Lockstep (ForIn.forIn l b body)
  | [] => by
    rw [List.forIn_nil]
    infer_instance
  | x :: l => by
    have (b : β) : Lockstep (ForIn.forIn l b body) := forIn l
    rw [List.forIn_cons]
    refine seq fun y => ?_
    cases y <;> infer_instance

end Lockstep

end

/-! ### Scanners -/

namespace Scan

/-- Simple scans are in lockstep. The one step for which it matters if errors are tolerated records one. -/
theorem Simple.lockstep (h : Simple m) : Lockstep m := by
  induction h with
  | pure a => infer_instance
  | throw e => infer_instance
  | get => infer_instance
  | move g => exact .ofModify fun _ => rfl
  | tolerate cause =>
    have hhere : Lockstep (errorHere cause) := by
      unfold errorHere cursor
      infer_instance
    exact .seq fun e => .ofRecord e (fun _ _ => rfl) fun _ s => by
      exact .modify (Array.push_ne_empty)
  | bind _ _ ihm ihf => exact .seq ihf
  | read hf _ ih => exact .ofRead hf ih

instance (priority := low) [h : Simple m] : Lockstep m := h.lockstep

instance : Lockstep (openBrace b) := .ofModify fun _ => rfl
instance : Lockstep closeBrace := .ofModify fun _ => rfl
instance [∀ x, Lockstep (body x)] : Lockstep (loop body x) :=
  .ofRead (fun _ _ => rfl) fun _ => inferInstance
instance [Lockstep m] : Lockstep (lookahead m) := by
  unfold lookahead; infer_instance

instance : Lockstep punctuator :=
  .seq fun _ => .ofRead (fun _ _ => rfl) fun setting => by
    cases h : Punctuator.longestAt? setting.source setting.edition _ <;> infer_instance

instance : Lockstep template :=
  .ofRead (fun _ _ => rfl) fun _ => .seq fun _ => .seq fun _ =>
    .seq fun _ => .seq fun ⟨tail, cooked⟩ => by
      cases tail <;> infer_instance

end Scan

open Parse Grammar

variable {γ : Type} {p : Parse γ} {t : Token} {c : ParseSetting} {s : ParseState}

instance : Tolerant ParseSetting ParseState := ⟨ParseSetting.withTolerance, (·.scan.errors)⟩

/-! ### Steps in lockstep -/

instance lockstep_scan [hm : Lockstep m] : Lockstep (scan m) := by
  refine ⟨fun c s => ?_⟩
  have h := hm.out c.toSetting s.scan
  refine ⟨fun hs => ?_, fun hs a t ht => ?_, fun hs e t ht => ?_⟩
  · exact Ensures.scan_iff.2 (h.grows hs)
  · unfold scan at ht ⊢
    cases hstrict : m (withTolerance c false).toSetting s.scan with
    | ok b u =>
      rw [hstrict] at ht
      cases ht
      have hlenient := h.agrees hs _ _ hstrict
      exact ⟨by rw [show m (withTolerance c true).toSetting s.scan = _ from hlenient.1], hlenient.2⟩
    | error e u =>
      rw [hstrict] at ht
      cases ht
  · unfold scan at ht
    cases hstrict : m (withTolerance c false).toSetting s.scan with
    | ok b u =>
      rw [hstrict] at ht
      cases ht
    | error e u => exact Ensures.scan_iff.2 (h.fails hs _ _ hstrict)

theorem Quiet.lockstep (h : Quiet true p) : Lockstep p := by
  induction h with
  | pure x => infer_instance
  | bind _ _ ihp ihf => exact .seq ihf
  | throw e => infer_instance
  | get => infer_instance
  | setContext f => exact .ofModify fun _ => rfl
  | forgive e =>
    exact .ofRecord e (fun _ _ => rfl) fun _ _ => by
      exact .modify Array.push_ne_empty
  | settings hf _ ih => exact .ofRead (fun c tolerant => hf c c.edition tolerant c.classFields) ih
  | since year _ => exact .ofRead (fun _ _ => rfl) fun _ => inferInstance
  | unrecord | enterModule => exact .ofModify fun _ => rfl
  | peekBeyond | peekMarkup =>
    exact inferInstanceAs (Lockstep (scan (Scan.lookahead _)))
  | scanAtEnd | scanPeek => infer_instance

instance (priority := low) [h : Quiet true p] : Lockstep p := h.lockstep

instance : Lockstep (Parse.rawOf t) := .ofRead (fun _ _ => rfl) fun _ => inferInstance

instance : Lockstep (log isComment n span) :=
  .ofRead (fun _ _ => rfl) fun _ => .seq fun _ =>
    @Lockstep.seq _ _ _ _ _ _ _ (.ofModify fun _ => rfl) fun _ => inferInstance

instance : Lockstep passTrivia := by
  have hbody (comment : Comment) : Lockstep (do
      discard (log true (comment.node (← read).source) comment.span)
      pure (ForInStep.yield PUnit.unit)) :=
    .ofRead (fun _ _ => rfl) fun _ => inferInstance
  unfold passTrivia
  infer_instance

instance : Lockstep (record t) := .ofModify fun _ => rfl
instance : Lockstep markLast := .ofModify fun _ => rfl
instance : Lockstep (setLookahead t) := .ofModify fun _ => rfl

instance : Lockstep Parse.next := by
  have hstart : Lockstep (modify fun s => if s.scan.cursor.index = s.startMark.index then s
      else { s with startMark := s.scan.cursor.mark } : Parse Unit) :=
    .ofModify fun s => by split <;> rfl
  have hseen (found : Token) (newline : Bool) : Lockstep (modify fun s =>
      { s with lookahead := found, newline } : Parse Unit) :=
    .ofModify fun s => rfl
  unfold Parse.next
  infer_instance

instance : Lockstep Parse.semicolon := by
  have hlast : Lockstep (modify fun s => { s with lastMark := s.startMark } : Parse Unit) :=
    .ofModify fun _ => rfl
  infer_instance

instance : Lockstep Grammar.regexLiteral := by
  refine .seq fun _ => .seq fun _ => .seq fun _ =>
    .seq fun t => ?_
  split <;> infer_instance

instance : Lockstep Grammar.resumeTemplate := by
  have hbraces : Lockstep (modify fun s =>
      { s with braces := .substitution :: s.braces.erase .substitution } : Scan Unit) :=
    .ofModify fun _ => rfl
  infer_instance

instance [Lockstep lex] : Lockstep (Grammar.markToken lex) := by
  have hstart : Lockstep (modify fun s => { s with startMark := s.scan.cursor.mark } : Parse Unit) :=
    .ofModify fun _ => rfl
  unfold Grammar.markToken
  infer_instance

/-! ### Steps that ask if errors are tolerated -/

theorem expect_of_sees (h : s.lookahead.lexeme.isMark mark) : Parse.expect mark c s = Parse.skip c s := by
  rw [Parse.expect, Parse.skip, Derives.discard_eq, bind_apply, bind_apply]
  cases hnext : Parse.next c s with
  | error e t => rfl
  | ok token t =>
    rw [ensures_next_eq c s token t hnext]
    simp only [h, if_true]

theorem ensures_expect_of_not_sees
    (h : ¬ s.lookahead.lexeme.isMark mark) : Ensures (Parse.expect mark) c s fun _ _ => False := by
  rw [Parse.expect, Ensures.bind_iff]
  refine (ensures_next_eq c s).mono fun token t ht => ?_
  rw [ht, if_neg h]
  exact ensures_unexpected

/-- Where errors are tolerated, they are recorded. -/
theorem ensures_tolerateAt : Ensures (Parse.tolerateAt t cause) (withTolerance c true) s fun _ s' =>
      s'.scan.errors ≠ #[] := by
  simp only [Parse.tolerateAt, Parse.forgive, Ensures.bind_iff, Ensures.step_iff]
  exact .always fun _ _ => .modify Array.push_ne_empty

theorem ensures_tolerateToken :
    Ensures (Parse.tolerateToken t) (withTolerance c true) s fun _ s' => s'.scan.errors ≠ #[] := by
  rw [Parse.tolerateToken, Ensures.bind_iff]
  exact .always fun _ _ => ensures_tolerateAt

-- Without a comma, the strict run refuses the lookahead, and the lenient one records that.
instance : Lockstep Parse.expectComma := by
  refine ⟨fun c s => ?_⟩
  have hstrict : Parse.expectComma (withTolerance c false) s = Parse.expect "," (withTolerance c false) s := rfl
  have hlenient : Parse.expectComma (withTolerance c true) s = (if s.lookahead.lexeme.isMark "," then Parse.skip
        else if s.lookahead.lexeme.isMark ";" then do
          Parse.skip
          Parse.tolerateToken s.lookahead
        else Parse.tolerateAt s.lookahead (.unexpectedToken s.lookahead.lexeme.valueText) :
          Parse Unit) (withTolerance c true) s := rfl
  by_cases hcomma : s.lookahead.lexeme.isMark ","
  · have hskip : LockstepAt Parse.skip c s := Lockstep.out c s
    refine hskip.congr fun tolerant => ?_
    cases tolerant with
    | false => exact hstrict.trans (expect_of_sees hcomma)
    | true => rw [hlenient, if_pos hcomma]
  · refine .refused (fun a t h => ensures_expect_of_not_sees hcomma a t (hstrict ▸ h)) fun a t h => ?_
    rw [hlenient, if_neg hcomma] at h
    revert h
    split
    · exact Ensures.seq (.always fun _ _ => ensures_tolerateToken) a t
    · exact ensures_tolerateAt a t

-- The same goes for a parenthesis.
instance : Lockstep Grammar.closeHead := by
  refine ⟨fun c s => ?_⟩
  have hrun (tolerant : Bool) : Grammar.closeHead (withTolerance c tolerant) s
      = (if !s.lookahead.lexeme.isMark ")" && tolerant then do
          Parse.tolerateToken (← Parse.next)
          return false
        else do
          Parse.expect ")"
          return true : Parse Bool) (withTolerance c tolerant) s := rfl
  by_cases hmark : s.lookahead.lexeme.isMark ")"
  · have hclose : LockstepAt (do Parse.expect ")"; return true : Parse Bool) c s := Lockstep.out c s
    exact hclose.congr fun tolerant => by rw [hrun, if_neg (by simp [hmark])]
  · have hrefuse : Ensures (do Parse.expect ")"; return true : Parse Bool) (withTolerance c false) s
        fun _ _ => False :=
      .seq ((ensures_expect_of_not_sees hmark).mono fun _ _ h => h.elim)
    have hrecord : Ensures (do Parse.tolerateToken (← Parse.next); return false : Parse Bool)
        (withTolerance c true) s fun _ t => t.scan.errors ≠ #[] :=
      .seq <| .always fun _ _ => .seq <|
        ensures_tolerateToken.mono fun _ _ h => .pure h
    refine .refused (fun a t h => ?_) fun a t h => ?_
    · rw [hrun, if_neg (by simp)] at h
      exact hrefuse a t h
    · rw [hrun, if_pos (by simp [hmark])] at h
      exact hrecord a t h

/-! ### Programs in lockstep -/

theorem Primitive.lockstep (h : Primitive p) : Lockstep p := by
  cases h with
  | quiet h => exact h.lockstep
  | _ => infer_instance

/-- The strict and the lenient run do the same until an error is met. -/
def StepProperty.lockstep : StepProperty where
  Holds p c s := LockstepAt p c s
  primitive h _ := h.lockstep.out _ _
  bind h hf := h.bind fun x t hx => hf x t (hx.elim (⟨false, ·⟩) (⟨true, ·⟩))
  read := .read

def RunProperty.lockstep : RunProperty :=
  StepProperty.lockstep.toRunProperty fun _ _ _ c s _ => Lockstep.out c s

/-! ### Programs that are accepted without errors -/

namespace Program

/-- The errors that were recorded, as they are reported. -/
def recordedErrors (p : Program) : Value := p.tree.get "errors"

/-- A program without its recorded errors. -/
def withoutErrors (p : Program) : Program := { p with tree := p.tree.without "errors" }

variable {source : Source} {o : Options} {n : Node}

theorem lockstep_read (source : Source) (o : Options) :
    LockstepAt (Grammar.program o.isModule) (setting source o .idle) (.start source) :=
  along_program .lockstep o.isModule _ _ ⟨rfl, fun e he => nomatch Array.not_mem_empty e he⟩

/-- The errors come after all else that is reported of a program. -/
theorem additions_lenient (source : Source) (o : Options) (r : Report) (s : ParseState) :
    additions source { o with tolerant := true } r s = additions source { o with tolerant := false } r s
        ++ [("errors", .list (s.scan.errors.toList.map Report.error))] := by
  simp [additions]

/-- A strict run reports no errors. -/
theorem errors_absent (source : Source) (o : Options) (comments : Array NodeComments)
    (s : ParseState) (h : n.IsProgram) {p : String × Value} :
    let root := ((reportOf o comments).dress n).setAll
      (additions source { o with tolerant := false } (reportOf o comments) s)
    p ∈ root.fields ++ root.extra → p.1 ≠ "errors" := by
  intro root hp hname
  rcases Node.mem_of_setAll hp with hp | hp
  · rcases Report.name_mem_dress hp with hp | hp
    · rw [h.extra, List.append_nil] at hp
      obtain ⟨q, hq, hqp⟩ := List.mem_map.1 hp
      have := h.fields q hq
      rw [hqp, hname] at this
      revert this
      decide
    · rw [hname] at hp
      revert hp
      decide
  · simp only [additions, List.mem_append] at hp
    rcases hp with (hp | hp) | hp
    all_goals
      split at hp
      · simp_all
      · cases hp

/-- The report of a lenient run has all recorded errors, and apart from them is that of a strict run. -/
theorem report_lenient (source : Source) (o : Options) (comments : Array NodeComments)
    (s : ParseState) (h : n.IsProgram) : ∃ strict lenient : Value,
      report source { o with tolerant := false } comments n s = .ok strict
        ∧ report source { o with tolerant := true } comments n s = .ok lenient
        ∧ lenient.get "errors" = .list (s.scan.errors.toList.map Report.error)
        ∧ lenient.without "errors" = strict := by
  have habsent (p : String × Value) := errors_absent source o comments s h (p := p)
  refine ⟨_, _, report_of_isProgram source comments h, report_of_isProgram source comments h, ?_, ?_⟩
  all_goals
    rw [additions_lenient, Node.setAll_append]
  · exact Node.get_settle_set_of_absent habsent
  · exact congrArg Value.node (Node.erase_settle_set_of_absent habsent)

theorem parse_strict_iff (code : Text) (o : Options) (p : Program) :
    parse code { o with tolerant := false } .idle = .ok p ↔ ∃ q, parse code { o with tolerant := true } .idle = .ok q
        ∧ q.recordedErrors = .list [] ∧ q.withoutErrors = p := by
  have hlockstep := lockstep_read (.ofText code) o
  rw [parse_eq_ok_iff]
  constructor
  · rintro ⟨n, s, comments, tree, hread, hcomments, hreport, rfl⟩
    obtain ⟨hlenient, hnone⟩ := hlockstep.agrees rfl n s hread
    obtain ⟨strict, lenient, hs, hl, herrors, rfl⟩ :=
      report_lenient (.ofText code) o comments s (ensures_program rfl n s hread)
    cases hs.symm.trans hreport
    refine ⟨_, parse_eq_ok_iff.2 ⟨n, s, comments, lenient, hlenient, hcomments, hl, rfl⟩, ?_, rfl⟩
    have hnone : s.scan.errors = #[] := hnone
    rw [recordedErrors, herrors, hnone]
    rfl
  · rintro ⟨q, hq, hnone, rfl⟩
    obtain ⟨n, s, comments, tree, hread, hcomments, hreport, rfl⟩ := parse_eq_ok_iff.1 hq
    obtain ⟨strict, lenient, hs, hl, herrors, rfl⟩ :=
      report_lenient (.ofText code) o comments s (ensures_program rfl n s hread)
    cases hl.symm.trans hreport
    have hempty : s.scan.errors = #[] := by
      rw [recordedErrors, herrors] at hnone
      simpa using hnone
    cases hstrict : Program.read (.ofText code) { o with tolerant := false } .idle with
    | ok n' s' =>
      obtain ⟨hlenient, -⟩ := hlockstep.agrees rfl n' s' hstrict
      cases hlenient.symm.trans hread
      exact ⟨n, s, comments, _, rfl, hcomments, hs, rfl⟩
    | error e s' => exact absurd hempty (hlockstep.fails rfl e s' hstrict n s hread)

theorem withFlags_of_tolerance {a : Options} {o o' : OptionList}
    (h : ∀ name, name ≠ "tolerant" → o.get? name = o'.get? name) :
    a.withFlags o' = { a.withFlags o with tolerant := o'.flag "tolerant" } := by
  simp only [Options.withFlags, OptionList.flag, h "range" (by decide), h "loc" (by decide),
    h "source" (by decide), h "tokens" (by decide), h "comment" (by decide),
    h "attachComment" (by decide)]

/-- **A lenient run accepts the same programs without errors** as a strict run accepts, and gives the
same trees for them, apart from the list of errors. -/
theorem run_strict_iff_lenient (e : EntryPoint) (code : Text) (o o' : OptionList)
    (hstrict : o.flag "tolerant" = false) (hlenient : o'.flag "tolerant" = true)
    (h : ∀ name, name ≠ "tolerant" → o.get? name = o'.get? name) (p : Program) :
    run e code o .idle = .ok p ↔
      ∃ q, run e code o' .idle = .ok q ∧ q.recordedErrors = .list [] ∧ q.withoutErrors = p := by
  have hoptions (name : String) (hname : name ≠ "tolerant") : (e.options o).get? name = (e.options o').get? name :=
    e.get?_options_congr (h name hname)
  unfold run
  rw [Options.preset_eq_map fun name hname => hoptions name (by revert name; decide)]
  cases hp : Options.preset (e.options o) with
  | error f => exact ⟨nofun, fun ⟨_, hq, _⟩ => nomatch hq⟩
  | ok a =>
    have hself := Options.withFlags_of_preset hp
    have ha : { a with tolerant := false } = a := by
      rw [← hself, Options.withFlags, e.flag_options (by decide), hstrict]
    have ha' : a.withFlags (e.options o') = { a with tolerant := true } := by
      rw [withFlags_of_tolerance hoptions, hself, e.flag_options (by decide), hlenient]
    have hparse := parse_strict_iff code a p
    rw [ha, ← ha'] at hparse
    exact hparse

theorem run_strict_iff_lenient_of_ranges :
    let o : OptionList := [("range", .bool true)]
    let o' : OptionList := o.concat ("tolerant", .bool true)
    let code : Text := "f(1)"
    (run .parseModule code o .idle).isOk = true
      ∧ ∀ p, run .parseModule code o .idle = .ok p ↔ ∃ q, run .parseModule code o' .idle = .ok q
        ∧ q.recordedErrors = .list [] ∧ q.withoutErrors = p := by
  refine ⟨by decide +kernel, fun p => ?_⟩
  refine run_strict_iff_lenient _ _ _ _ (by decide) (by decide) (fun name hname => ?_) p
  rw [OptionList.get?_concat, if_neg fun h => hname (Text.ofString_is.1 h).symm]

end Program

end EcmaSyntax
