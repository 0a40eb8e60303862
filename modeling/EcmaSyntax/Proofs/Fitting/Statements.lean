import EcmaSyntax.Proofs.Fitting.Arrows

/-!
# Statements that fit

A jump is read only where the context has a target for it. The context is that of the surroundings where
statements are read, so the target stands around the jump.
-/

namespace EcmaSyntax

open Parse

set_option synthInstance.maxSize 100000000000000
set_option synthInstance.maxHeartbeats 200000

variable {level : Bool} {e : Surroundings} {P : Prop}

/-- The head of a loop. What is pending in its first part is not looked at. -/
instance : Carries Grammar.LoopHead where
  all i
    | .steps init => Carries.fits i.surroundings True init
    | .names left right => Fits i.surroundings True (.node left) ∧ Fits i.surroundings False (.node right)
    | .values left right => Fits i.surroundings True (.node left) ∧ Fits i.surroundings True (.node right)
  mono {_ _ x} h hx := by cases x <;> exact h.1 ▸ hx

section

variable {left right : Node}

instance [h : Fitting e True init] : Fitting e P (Grammar.LoopHead.steps init) :=
  ⟨h.out⟩
instance [hl : Fitting e True left] [hr : Fitting e False right] : Fitting e P (Grammar.LoopHead.names left right) :=
  ⟨hl.out, hr.out⟩
instance [hl : Fitting e True left] [hr : Fitting e True right] : Fitting e P (Grammar.LoopHead.values left right) :=
  ⟨hl.out, hr.out⟩

end

/-! ### Surroundings of statements -/

namespace Situated

variable {c : ParseSetting} {s : ParseState}

theorem looped (h : Situated true e P c s) :
    Situated true e.looped P c { s with context := { s.context with inLoop := true } } := by
  refine ⟨h.idle, h.hasBlocks, h.lenient, fun _ => ?_, h.pending⟩
  exact { h.covers (.inl rfl) with inLoop := fun _ => rfl }

theorem switched (h : Situated true e P c s) :
    Situated true e.switched P c { s with context := { s.context with inSwitch := true } } := by
  refine ⟨h.idle, h.hasBlocks, h.lenient, fun _ => ?_, h.pending⟩
  exact { h.covers (.inl rfl) with inSwitch := fun _ => rfl }

theorem labelled (h : Situated true e P c s) (l : Text) : Situated true (e.labelled l) P c
      { s with context := { s.context with labels := l :: s.context.labels } } := by
  refine ⟨h.idle, h.hasBlocks, h.lenient, fun _ => ?_, h.pending⟩
  have hcovers := h.covers (.inl rfl)
  exact { hcovers with
    labels := List.cons_subset_cons l hcovers.labels
    allLabels := fun hblocks => List.cons_subset_cons l (hcovers.allLabels hblocks) }

end Situated

namespace Grammar

variable {r : Recur} [Recur.Restores r] [Recur.Fills r] {c : ParseSetting} {s : ParseState} {isAwait : Bool}

/-! ### Choices and loops -/

/-- The body of a loop is read in the loop. -/
theorem ensures_loopBody [Restores ⟨true, true⟩ body]
    [hbody : Seals true e.looped False body] (h : Situated true e False c s) :
    Ensures (loopBody body) c s fun n t =>
      Situated true e False c t ∧ Fits e.looped False (.node n) :=
  h.stays.and (ensures_within.2 ((hbody.out h.looped).mono fun _ _ ht => ht.2))

theorem ensures_missingStatement (h : Situated true e False c s) :
    Ensures missingStatement c s fun n t => Situated true e False c t ∧ Fits e' False (.node n) := by
  have hempty : Fitting e' False Node.emptyStatement := inferInstance
  exact Ensures.step_bind.2 (h.ensures_finish_fits hempty.out)

instance : Seals true e False (doWhileStatement r) := by
  refine ⟨fun {c s} h => h.seq fun start s h _ => h.seq fun _ s h _ => ?_⟩
  refine (ensures_loopBody h).bind fun body s hs => ?_
  refine hs.1.seq fun _ s h _ => h.seq fun _ s h _ => h.seq fun test s h htest => ?_
  refine h.seq fun isClosed s h _ => ?_
  have hfinish {s : ParseState} (h : Situated true e False c s) :
      Ensures (finish start (.doWhileStatement body test)) c s fun n t =>
        Situated true e False c t ∧ Fits e False (.node n) :=
    h.ensures_finish_fits (.doWhileStatement hs.2 htest)
  split
  · exact h.seq fun _ s h _ => hfinish h
  · exact hfinish h

instance : Seals true e False (whileStatement r) := by
  refine ⟨fun {c s} h => h.seq fun start s h _ => h.seq fun _ s h _ => h.seq fun _ s h _ => ?_⟩
  refine h.seq fun test s h htest => h.seq fun isClosed s h _ => ?_
  have hfinish {body : Node} {s : ParseState} (hs : Situated true e False c s ∧ Fits e.looped False (.node body)) :
      Ensures (finish start (.whileStatement test body)) c s fun n t =>
        Situated true e False c t ∧ Fits e False (.node n) :=
    hs.1.ensures_finish_fits (.whileStatement htest hs.2)
  split
  · exact (ensures_loopBody h).bind fun body s hs => hfinish hs
  · exact (ensures_missingStatement h).bind fun body s hs => hfinish hs

instance : Seals level e False (variableLoopHead r isAwait) := by
  refine .seq fun start _ => .seq fun _ _ => .seq fun declarations hdeclarations => ?_
  have : Fitting e False declarations := ⟨hdeclarations⟩
  split <;> infer_instance

instance : Seals level e False (lexicalLoopHead r isAwait) := by
  refine .seq fun start _ => .seq fun t _ => .seq fun isStrict _ => .seq fun seen _ => ?_
  dsimp only
  split
  · infer_instance
  · refine .seq fun declarations hdeclarations => ?_
    have : Fitting e False declarations := ⟨hdeclarations⟩
    split <;> infer_instance

theorem ensures_forRest (h : Situated true e False c s)
    (hhead : Carries.fits e False head) : Ensures (forRest r start isAwait head) c s fun n t =>
      Situated true e False c t ∧ Fits e False (.node n) := by
  have hbody {s : ParseState} (h : Situated true e False c s) :
      Ensures (do if ← closeHead then loopBody (isolate r.statement) else missingStatement) c s fun n t =>
        Situated true e False c t ∧ Fits e.looped False (.node n) := by
    refine h.seq fun isClosed s h _ => ?_
    split
    · exact ensures_loopBody h
    · exact ensures_missingStatement h
  cases head with
  | steps init =>
    refine h.seq fun test s h htest => h.seq fun _ s h _ => h.seq fun update s h hupdate => ?_
    refine (hbody h).bind fun body s hs => ?_
    exact hs.1.ensures_finish_fits (.forStatement (.node? hhead) (.node? htest) (.node? hupdate) hs.2)
  | names left right =>
    refine (hbody h).bind fun body s hs => ?_
    exact hs.1.ensures_finish_fits (.forInStatement hhead.1 hhead.2 hs.2)
  | values left right =>
    refine (hbody h).bind fun body s hs => ?_
    have hfits : Fits e False (.node ((if isAwait then Node.forAwaitStatement else Node.forOfStatement)
        left right body)) := by
      split
      · exact .forAwaitStatement hhead.1 hhead.2 hs.2
      · exact .forOfStatement hhead.1 hhead.2 hs.2
    exact hs.1.ensures_finish_fits hfits

instance : Seals true e False (forStatement r) := by
  refine ⟨fun {c s} h => h.seq fun start s h _ => h.seq fun _ s h _ => h.seq fun isRecent s h _ => ?_⟩
  refine h.seq fun b s h _ => h.seq fun isAwaited s h _ => ?_
  have hrest (isAwait : Bool) {s : ParseState} (h : Situated true e False c s) : Ensures (do
        expect "("
        forRest r start isAwait (← loopHead r isAwait)) c s fun n t =>
          Situated true e False c t ∧ Fits e False (.node n) :=
    h.seq fun _ s h _ => h.seq fun head s h hhead => ensures_forRest h hhead
  dsimp only
  split
  · exact h.seq fun _ s h _ => hrest _ h
  · exact hrest _ h

/-! ### Jumps -/

/-- A label that is jumped to is one of those around. -/
theorem ensures_jumpLabel (h : Situated true e False c s) : Ensures jumpLabel c s fun label t =>
    Situated true e False c t ∧ Carries.fits e False label ∧ ∀ id, label = some id → id.textOf "name" ∈ e.labels := by
  refine h.seq fun isName s h _ => .seq (Ensures.step_iff.2 ?_)
  split
  · refine h.seq fun id s h hid => Ensures.step_bind.2 ?_
    split
    · next hlabel =>
      refine .pure ⟨h, fun _ hlabel => by cases hlabel; exact hid, fun _ hsame => ?_⟩
      cases hsame
      exact (h.covers (.inl rfl)).labels (List.contains_iff_mem.1 hlabel)
    · exact .seq ensures_refuse
  · have hnone : Fitting e False (none : Option Node) := inferInstance
    exact .pure ⟨h, hnone.out, fun _ hsame => by cases hsame⟩

instance : Seals true e False continueStatement := by
  refine ⟨fun {c s} h => h.seq fun start s h _ => h.seq fun _ s h _ => ?_⟩
  refine (ensures_jumpLabel h).bind fun label s hs => ?_
  obtain ⟨h, hlabel, hlabels⟩ := hs
  refine h.seq fun _ s h _ => Ensures.step_bind.2 ?_
  split
  · exact .seq ensures_refuse
  · next hjump =>
    have hloop (hnone : label = none) : e.inLoop := by
      subst hnone
      exact (h.covers (.inl rfl)).inLoop (by simpa using hjump)
    exact h.ensures_finish_fits (.continueStatement (.node? hlabel) hlabels hloop)

instance : Seals true e False breakStatement := by
  refine ⟨fun {c s} h => h.seq fun start s h _ => h.seq fun _ s h _ => ?_⟩
  refine (ensures_jumpLabel h).bind fun label s hs => ?_
  obtain ⟨h, hlabel, hlabels⟩ := hs
  refine h.seq fun _ s h _ => Ensures.step_bind.2 ?_
  split
  · exact .seq ensures_refuse
  · next hjump =>
    have hbody (hnone : label = none) : e.inLoop ∨ e.inSwitch := by
      have hcovers := h.covers (.inl rfl)
      have hinside : s.context.inLoop = true ∨ s.context.inSwitch = true := by
        cases hloop : s.context.inLoop <;> cases hswitch : s.context.inSwitch <;> simp_all
      exact hinside.imp hcovers.inLoop hcovers.inSwitch
    exact h.ensures_finish_fits (.breakStatement (.node? hlabel) hlabels hbody)

instance : Seals true e False (returnStatement r) := by
  have hrest (hreturn : e.lenient ∨ e.inFunction) : Seals true e False (do
      let start ← here
      expectKeyword "return"
      let l := (← peek).lexeme
      let ends := l.isMark ";" || l.isMark "\x7d" || (← get).newline || l = .eof
      let argument ← if !ends || l.isString || l.isTemplate then some <$> expression r else pure none
      semicolon
      finish start (.returnStatement argument)) := by
    have (argument : Option Node) [Fitting e False argument] :
        Fitting e False (Node.returnStatement (.node? argument)) := by
      have hargument : Fitting e False (Value.node? argument) := inferInstance
      exact ⟨.returnStatement hreturn hargument.out⟩
    infer_instance
  refine ⟨fun {c s} h => Ensures.step_bind.2 ?_⟩
  split
  · next hfunction => exact (hrest (.inr ((h.covers (.inl rfl)).inFunction hfunction))).out h
  · have htolerate : Seals true e False (tolerate .illegalReturn) := inferInstance
    refine ((htolerate.out h).and ensures_tolerate).bind fun _ s hs => ?_
    exact (hrest (.inl (h.lenient.trans hs.2.1))).out hs.1.1

/-! ### Other statements -/

instance : Seals true e False (switchStatement r) := by
  refine ⟨fun {c s} h => h.stays.and ?_⟩
  refine h.seq fun start s h _ => h.seq fun _ s h _ => h.seq fun _ s h _ => ?_
  refine h.seq fun discriminant s h hd => h.seq fun _ s h _ => ?_
  have hclauses : Seals true e.switched False (switchCases r) := inferInstance
  refine .seq (ensures_within.2 (((hclauses.out h.switched).and ensures_switchCases_tallied).mono
    fun clauses t ht => ?_))
  have : Fitting e.switched False clauses := ⟨ht.1.2⟩
  have hclauses : Fitting e.switched False (Value.nodes clauses) := inferInstance
  refine (ensures_finish_idle h.idle).mono fun n _ hn => ?_
  rw [hn]
  exact (Fits.switchStatement hd hclauses.out ht.2).finished _ _

/-- The label of a statement is none of those around it. -/
instance : Seals true e False (labelledStatement r) := by
  refine ⟨fun {c s} h => h.stays.and (h.seq fun start s h _ => h.seq fun label s h hlabel => ?_)⟩
  refine h.seq fun isLabel s h _ => ?_
  have : Fitting e False label := ⟨hlabel⟩
  split
  · refine h.seq fun _ s h _ => Ensures.step_bind.2 ?_
    split
    · exact .seq ensures_refuse
    · next hold =>
      have hnew (hblocks : e.hasBlocks = false) : label.textOf "name" ∉ e.labels := fun hmem =>
        hold (List.contains_iff_mem.2 ((h.covers (.inl rfl)).allLabels hblocks hmem))
      have hread : Seals true (e.labelled (label.textOf "name")) False (labelBody r) := inferInstance
      refine (hread.out (h.labelled _)).bind fun body t ht => ?_
      refine (ensures_finish_idle h.idle).mono fun n _ hn => ?_
      rw [hn]
      exact (Fits.labeledStatement hlabel hnew ht.2).finished _ _
  · have hrest : Seals true e False (do
        semicolon
        finish start (.expressionStatement label)) := inferInstance
    exact (hrest.out h).mono fun _ _ ht => ht.2

instance : Seals true e False (statement r) := by
  refine .seq fun t _ => ?_
  split <;> infer_instance

/-! ### Imports and exports -/

variable [Recur.Judges r] [Recur.Remembers r] {start : Mark}

instance [Carries α] : Seals level e P (refuseMissingFrom : Parse α) :=
  .ofNever fun _ _ => .anyway fun _ _ => ensures_refuse
instance : Seals level e False (exportNames start) := by unfold exportNames; infer_instance

/-! ### All productions -/

/-- All productions read what fits, however deep they are nested. -/
instance fills_run : ∀ depth : Nat, Recur.Fills (run depth)
  | 0 =>
    have hnever {level : Bool} {e : Surroundings} : Seals level e False (throw .exhausted : Parse Node) :=
      .ofNever fun _ _ => Ensures.throw_iff.2 trivial
    ⟨fun _ _ => hnever.leaves, fun _ _ => hnever.leaves, fun _ _ => hnever.leaves,
      fun _ _ => hnever.leaves, fun _ _ => hnever.leaves,
      fun _ _ _ => .ofNever fun _ _ => Ensures.throw_iff.2 trivial, fun _ _ => hnever, fun _ => hnever,
      fun _ => hnever⟩
  | depth + 1 => by
    have : Recur.Fills (run depth) := fills_run depth
    constructor <;> infer_instance

/-! ### Programs -/

omit [Recur.Restores r] [Recur.Judges r] [Recur.Remembers r] in
theorem ensures_moduleProgram (h : Situated true e False c s) :
    Ensures (moduleProgram r) c s fun n _ => Fits e False (.node n) := by
  have hrest : Seals true e False (do
      let start ← here
      let body ← programBody r
      finish start (.moduleProgram body)) := inferInstance
  refine Ensures.mono (hrest.out ?_) fun _ _ ht => ht.2
  exact h.move rfl False.elim

/-- **All nodes of a program stand where they may.** -/
theorem ensures_program_fits (isModule : Bool) (source : Source) (hidle : c.delegate = .idle) :
    Ensures (program isModule) c (.start source) fun n _ =>
      Fits (.start c.edition c.tolerant) False (.node n) := by
  have hbegin : Spares (fun b => b = Context.start) begin := inferInstance
  refine (hbegin.out c _).bind fun _ s hs => .seq (Ensures.step_iff.2 ?_)
  have hcontext : s.context = .start := hs rfl
  have h : Situated true (.start c.edition c.tolerant) False c s := by
    refine ⟨hidle, rfl, rfl, fun _ => ?_, False.elim⟩
    rw [hcontext]
    exact ⟨id, id, id, List.Subset.refl _, fun _ => List.Subset.refl _⟩
  split
  · exact ensures_moduleProgram h
  · exact (Seals.out h).mono fun _ _ ht => ht.2

end Grammar

end EcmaSyntax
