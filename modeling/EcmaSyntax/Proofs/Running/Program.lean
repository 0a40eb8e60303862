import EcmaSyntax.Proofs.Comparison
import EcmaSyntax.Proofs.Running.Productions

/-!
# Runs of whole programs

A parse of a whole program ends at the end of the source, or fails in a way that `Failure.Allowed` lists.
The bound on the rounds of a loop is never reached, and neither is the bound on the nesting of rules, which
might as well be any greater one (`Grammar.program_ends`): no loop goes on and no rule calls itself again
without a token in between.
-/

namespace EcmaSyntax

open Parse
open Meets (bind_iff step_iff step_bind discard_iff scan_iff)

variable {c : ParseSetting} [Extent c] {s : ParseState}

variable {E : Failure → Prop}

/-- A module has fewer comments than a script: no comment of it looks like markup from here on. -/
theorem Ready.enterModule (h : Ready c s) (hwhole : Extent.whole c) :
    @Ready c ⟨True, (· ≤ s.startMark.index)⟩ { s with scan := { s.scan with isModule := true } } := by
  obtain ⟨⟨hformed, hvisible, hbound, hbraces, -⟩, hfound, hrests, hnoted, hremarked⟩ := h
  obtain ⟨xs, hlogs, hpairs, hall⟩ := hremarked hwhole
  let _ : Extent c := ⟨True, (· ≤ s.startMark.index)⟩
  refine ⟨⟨hformed.of_events_eq rfl, hvisible, hbound, hbraces, nofun⟩, hfound, hrests.module, hnoted,
    fun _ => ⟨xs, hlogs, hpairs, fun x hx => ?_⟩⟩
  obtain ⟨⟨htold, -⟩, hlt, hle⟩ := hall x hx
  exact ⟨⟨htold, fun _ => hle⟩, hlt, hle⟩

namespace Grammar

variable {r : Recur} {e : Nat} [Recur.Reads View.unit r]

omit [Recur.Reads View.unit r] [Extent c]

/-! ### The end of the source -/

/-- Items are read until there is a reason to stop. -/
theorem ensures_manyUntil {stop : Parse Bool} {item : Parse α} {Q : ParseState → Prop}
    (hstop : ∀ s, Ensures stop c s fun b t => b → Q t) :
    Ensures (manyUntil stop item) c s fun _ t => Q t := by
  refine Ensures.rounds (I := fun _ _ => True) (fun found t _ => .seq ?_) _ _ s trivial
  refine (hstop t).mono fun b u hu => ?_
  cases b with
  | true => exact .pure (hu rfl)
  | false => exact .seq (.always fun _ _ => .pure trivial)

/-- The statements of a program go up to the end of the source. -/
theorem ensures_programBody : Ensures (programBody r) c s fun _ t => t.lookahead.lexeme = .eof := by
  have hend (s : ParseState) : Ensures seesEnd c s fun b t => b → t.lookahead.lexeme = .eof := by
    simp [seesEnd, peek]
  simp only [programBody, Ensures.bind_iff, Ensures.step_iff]
  exact .always fun _ _ => ensures_manyUntil hend

theorem ensures_finish_lookahead : Ensures (finish start n) c s fun _ t => t.lookahead = s.lookahead := by
  simp only [Ensures.step_iff]

/-- So does the program. -/
theorem ensures_programTo (depth : Nat) (isModule : Bool) :
    Ensures (programTo depth isModule) c s fun _ t => t.lookahead.lexeme = .eof := by
  have hbody (r : Recur) (start : Mark) (s : ParseState) (make : Value → Node) :
      Ensures (do let body ← programBody r; finish start (make body)) c s fun _ t =>
        t.lookahead.lexeme = .eof := by
    refine ensures_programBody.bind fun _ t ht => ?_
    exact ensures_finish_lookahead.mono fun _ _ hu => hu ▸ ht
  simp only [programTo, Ensures.bind_iff]
  refine .always fun _ _ => ?_
  split
  · simp only [moduleProgram, Ensures.bind_iff]
    iterate 4 refine .always fun _ _ => ?_
    exact Ensures.bind_iff.1 (hbody _ _ _ _)
  · simp only [script, Ensures.bind_iff]
    refine .always fun _ _ => ?_
    exact Ensures.bind_iff.1 (hbody _ _ _ _)

/-! ### The start -/

theorem sane_start [Extent c] (hidle : c.delegate = .idle) (hvisible : c.toSetting.Visible)
    (hopens : ∀ j, Extent.opens c j) : Sane c (.start c.source) where
  formed := ⟨hidle, fun e he => nomatch Array.not_mem_empty e he⟩
  visible := hvisible
  bound := Nat.zero_le _
  braces := nofun
  opens _ := hopens

theorem meets_begin [Extent c] (hidle : c.delegate = .idle) (hvisible : c.toSetting.Visible)
    (hopens : ∀ j, Extent.opens c j) :
    Meets (Failure.Allowed c) begin c (.start c.source) fun _ t => Ready c t ∧
      ∃ found u, Scan.trivia c.toSetting (.start c.source) = .ok found u ∧ t.startMark.index = u.cursor.index := by
  rw [begin, skip, bind_iff, discard_iff]
  refine (meets_next (sane_start hidle hvisible hopens) (fun _ => .start c.source) fun _ => .start _).mono
    fun _ t ht => ?_
  refine (Calm.out (k := .code) t ht.1).mono fun _ _ hu => ⟨hu.ready ht.1, ?_⟩
  rw [hu.startMark]
  exact ht.2.2.2.1

/-- Runs of whole programs end at the end of the source, or fail as they may. In a module, comments that
look like markup stand before the first token only. -/
theorem meets_programTo (isModule : Bool) (hidle : c.delegate = .idle) (hvisible : c.toSetting.Visible) (hdepth : 2 * c.source.size + 2 ≤ depth) :
    Meets (Failure.Allowed c) (programTo depth isModule) c (.start c.source) fun _ t =>
      (∃ found u, Scan.trivia c.toSetting (.start c.source) = .ok found u ∧ ∃ _ : Extent c, Extent.whole c
        ∧ (isModule → ∀ j, Extent.opens c j → j ≤ u.cursor.index) ∧ Ready c t) ∧ t.lookahead.lexeme = .eof := by
  refine Meets.and_ensures ?_ (ensures_programTo depth isModule)
  rw [programTo, bind_iff]
  let whole : Extent c := ⟨True, fun _ => True⟩
  refine (meets_begin hidle hvisible fun _ => trivial).mono fun _ t ht => ?_
  obtain ⟨ht, found, u, htrivia, hstart⟩ := ht
  -- The rules need no more depth than what is left of the source allows for.
  have hrun [Extent c] {p : Parse Node} (hp : Runs c (run depth) 2 .code .code Never p) {s : ParseState}
      (hs : Ready c s) : Meets (Failure.Allowed c) p c s fun _ u => Ready c u :=
    (hp.out s ((run_grants c depth).mono (by simp only [Mode.left]; omega)) hs).mono fun _ _ hu => hu.1
  cases isModule with
  | false =>
    exact (hrun (p := script (run depth)) inferInstance ht).mono fun _ v hv =>
      ⟨found, u, htrivia, whole, trivial, by simp, hv⟩
  | true =>
    rw [if_pos rfl, moduleProgram, bind_iff]
    refine (Calm.out (k := .code) t ht).mono fun _ v hv => ?_
    rw [bind_iff]
    refine (Calm.out (k := .code) v (hv.ready ht)).mono fun _ w hw => ?_
    rw [enterModule, step_bind]
    have hready := (hw.ready (hv.ready ht)).enterModule trivial
    have hle (j : Nat) (hj : j ≤ w.startMark.index) : j ≤ u.cursor.index := by
      rwa [hw.startMark, hv.startMark, hstart] at hj
    let leading : Extent c := ⟨True, (· ≤ w.startMark.index)⟩
    exact (hrun inferInstance hready).mono fun _ x hx =>
      ⟨found, u, htrivia, leading, trivial, fun _ => hle, hx⟩

theorem meets_program (isModule : Bool) (hidle : c.delegate = .idle) (hvisible : c.toSetting.Visible) :
    Meets (Failure.Allowed c) (program isModule) c (.start c.source) fun _ t =>
      (∃ found u, Scan.trivia c.toSetting (.start c.source) = .ok found u ∧ ∃ _ : Extent c, Extent.whole c
        ∧ (isModule → ∀ j, Extent.opens c j → j ≤ u.cursor.index) ∧ Ready c t) ∧ t.lookahead.lexeme = .eof := by
  rw [Meets, program_apply]
  exact meets_programTo isModule hidle hvisible (Nat.add_le_add_left (by decide) _)

/-! ### A hidden line that is all there is -/

/-- A loop that is done at once. -/
theorem meets_loop_done {body : α → Parse (Round α β)}
    (h : Meets E (body x) c s fun y t => ∃ b, y = .done b ∧ Q b t) : Meets E (Parse.loop body x) c s Q := by
  rw [Parse.loop, step_bind, rounds, bind_iff]
  refine h.mono fun y t hdone => ?_
  obtain ⟨b, hy, hb⟩ := hdone
  rw [hy]
  exact hb

/-- At the end of the source, nothing is left to read. -/
theorem meets_programBody_of_eof (h : s.lookahead.lexeme = .eof) (hQ : Q [] s) : Meets E (programBody r) c s Q := by
  have hitems : Meets E (manyUntil seesEnd r.item) c s fun xs t => xs = [] ∧ t = s := by
    refine meets_loop_done ?_
    simp only [seesEnd, bind_iff, step_iff, h]
    exact ⟨_, rfl, rfl, rfl⟩
  rw [programBody, bind_iff, directives]
  refine meets_loop_done ?_
  simp only [bind_iff, step_iff, h]
  refine ⟨_, rfl, hitems.mono ?_⟩
  rintro xs t ⟨rfl, rfl⟩
  exact hQ

theorem resting_of_not_visible (h : ¬ c.toSetting.Visible) : Scan.Resting c.source false 0 :=
  .of_char (Source.char_zero_of_hidden (Classical.not_imp.1 h).1) rfl rfl (by decide) (by decide) (by decide)

theorem meets_begin_of_not_visible (h : ¬ c.toSetting.Visible) :
    Meets E begin c (.start c.source) fun _ t => t.lookahead.lexeme = .eof ∧ t.events = #[] := by
  simp only [begin, skip, next, bind_iff, discard_iff, step_iff]
  refine (meets_passTrivia_resting (Nat.zero_le _) (resting_of_not_visible h)).mono fun _ t ht => ?_
  subst ht
  simp only [scan_iff]
  refine (Scan.meets_lex_of_not_visible h rfl).mono fun t u ht => ?_
  have hstart : (ParseState.start c.source).scan.cursor.index = (ParseState.start c.source).startMark.index := rfl
  have hstrict : (ParseState.start c.source).context.strict = false := rfl
  have hevents : (ParseState.start c.source).events = #[] := rfl
  simp [hstart, hstrict, hevents, ht]

/-- Where a hidden line is all there is, the program is empty, without any comments. -/
theorem meets_programTo_of_not_visible (isModule : Bool) (hidle : c.delegate = .idle)
    (h : ¬ c.toSetting.Visible) (depth : Nat) :
    Meets E (programTo depth isModule) c (.start c.source) fun _ t => remarks t.events = [] := by
  have hfinish (start : Mark) (form : String) (fields : List (String × Value)) (t : ParseState)
      (ht : t.events = #[]) :
      Meets E (finish start (.ofKind form .program fields)) c t fun _ u => remarks u.events = [] := by
    refine (meets_finish hidle (by decide)).mono fun _ u hu => ?_
    obtain ⟨events, hremarks, rfl⟩ := hu
    rw [hremarks, ht]
    rfl
  rw [programTo, bind_iff]
  refine (meets_begin_of_not_visible h).mono fun _ t hbegin => ?_
  obtain ⟨ht, hevents⟩ := hbegin
  split
  · simp only [moduleProgram, enterModule, bind_iff, step_iff]
    exact meets_programBody_of_eof ht (hfinish _ _ _ _ hevents)
  · simp only [script, bind_iff, step_iff]
    exact meets_programBody_of_eof ht (hfinish _ _ _ _ hevents)

/-! ### How programs end -/

/-- However a program is read, it fails in no other way than it may. -/
theorem meets_allowed (isModule : Bool) (hidle : c.delegate = .idle) (hdepth : 2 * c.source.size + 2 ≤ depth) :
    Meets (Failure.Allowed c) (programTo depth isModule) c (.start c.source) fun _ _ => True := by
  by_cases hvisible : c.toSetting.Visible
  · exact (meets_programTo isModule hidle hvisible hdepth).mono fun _ _ _ => trivial
  · exact (meets_programTo_of_not_visible isModule hidle hvisible depth).mono fun _ _ _ => trivial

theorem le_depthOf (source : Source) : 2 * source.size + 2 ≤ depthOf source := Nat.add_le_add_left (by decide) _

/-- **Reading a program comes to an end.** With two levels of rules for each code point and two more,
there is an answer, no loop having been cut short; and it is the answer for every greater depth. -/
theorem program_ends (isModule : Bool) (c : ParseSetting) (hidle : c.delegate = .idle) (depth : Nat)
    (hdepth : 2 * c.source.size + 2 ≤ depth) :
    ((∃ n t, programTo depth isModule c (.start c.source) = .ok n t)
      ∨ ∃ f t, programTo depth isModule c (.start c.source) = .error f t ∧ f ≠ .exhausted)
    ∧ programTo depth isModule c (.start c.source) = program isModule c (.start c.source) := by
  have hends {depth : Nat} (hdepth : 2 * c.source.size + 2 ≤ depth) (t : ParseState) :
      programTo depth isModule c (.start c.source) ≠ .error .exhausted t := by
    intro hrun
    have hmeets := meets_allowed isModule hidle hdepth
    rw [Meets, hrun] at hmeets
    exact hmeets
  -- The least depth is never used up, so that a greater one changes nothing.
  have hsame {depth : Nat} (hdepth : 2 * c.source.size + 2 ≤ depth) :
      programTo (2 * c.source.size + 2) isModule c (.start c.source)
        = programTo depth isModule c (.start c.source) := by
    rcases programTo_extends hdepth isModule c (.start c.source) with ⟨t, ht⟩ | heq
    · exact absurd ht (hends (Nat.le_refl _) t)
    · exact heq
  constructor
  · cases hrun : programTo depth isModule c (.start c.source) with
    | ok n t => exact .inl ⟨n, t, rfl⟩
    | error f t =>
      refine .inr ⟨f, t, rfl, fun hf => hends hdepth t ?_⟩
      rw [hrun, hf]
  · rw [program_apply, ← hsame hdepth, hsame (le_depthOf c.source)]

/-- Arguments without commas and without an end, where errors are tolerated. -/
theorem program_ends_of_arguments :
    let c : ParseSetting :=
      { source := .ofText "f(a b", edition := 2024, tolerant := true, jsx := true, classFields := true,
        delegate := .idle }
    c.delegate = .idle ∧ 2 * c.source.size + 2 ≤ 12 ∧ ((∃ n t, programTo 12 false c (.start c.source) = .ok n t)
        ∨ ∃ f t, programTo 12 false c (.start c.source) = .error f t ∧ f ≠ .exhausted)
      ∧ programTo 12 false c (.start c.source) = program false c (.start c.source) := by
  intro c
  have hidle : c.delegate = .idle := rfl
  have hdepth : 2 * c.source.size + 2 ≤ 12 := by decide
  exact ⟨hidle, hdepth, program_ends false c hidle 12 hdepth⟩

end Grammar

end EcmaSyntax
