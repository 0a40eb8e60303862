import EcmaSyntax.Proofs.Fitting.Report

/-!
# The log of the nodes of a program

`View.log` looks at nothing but the log of a run: a node lies between two moments if it was finished
between them, and all nodes in it before it. So every node of a program that is no draft was shown to the
delegate once, and after all nodes in it (`Program.finished_once`). A draft was never shown, and has no
place (`Program.meta_not_finished`).
-/

namespace EcmaSyntax

open Parse

set_option synthInstance.maxSize 100000000000000

/-! ### The log -/

/-- The events of a log are numbered in order. -/
def Numbered (es : List Event) : Prop :=
  ∀ (k : Nat) (e : Event), es[k]? = some e → e.given.serial = some (2 * k)

theorem Numbered.concat (h : Numbered es) (he : e.given.serial = some (2 * es.length)) : Numbered (es ++ [e]) := by
  intro k e' hk
  rcases Nat.lt_trichotomy k es.length with hlt | rfl | hgt
  · exact h k e' (by rwa [List.getElem?_append_left hlt] at hk)
  · rw [List.getElem?_concat_length] at hk
    cases hk
    exact he
  · rw [List.getElem?_eq_none (by simpa using Nat.succ_le_of_lt hgt)] at hk
    cases hk

/-- An event has the number of no other one. -/
theorem Numbered.eq {es : List Event} (h : Numbered es) {j k : Nat} (he : es[j]? = some e)
    (he' : es[k]? = some e') (hserial : e.given.serial = e'.given.serial) : j = k := by
  rw [h j e he, h k e' he'] at hserial
  have := Option.some.inj hserial
  omega

variable {es es' : Array Event}

theorem prefix_push : es.toList <+: (es.push e).toList := by
  rw [Array.toList_push]
  exact List.prefix_append _ _

theorem Numbered.push (h : Numbered es.toList) :
    Numbered (es.push (.make .idle es.size isComment n span)).toList := by
  rw [Array.toList_push]
  exact h.concat (by rw [Array.length_toList]; rfl)

namespace Grown

theorem isPrefix (h : Grown es es') : es.toList <+: es'.toList := by
  induction h with
  | refl => exact List.prefix_rfl
  | push _ _ _ ih => exact ih.trans prefix_push

theorem size_le (h : Grown es es') : es.size ≤ es'.size := by
  simpa using h.isPrefix.length_le

theorem numbered (h : Grown es es') (hes : Numbered es.toList) : Numbered es'.toList := by
  induction h with
  | refl => exact hes
  | push _ _ _ ih => exact ih.push

end Grown

/-! ### The view of the log -/

/-- What was logged up to a moment, and how much of it counts. -/
structure LogMoment where
  events : List Event
  top : Nat

/-- The event at which a node gets a stamp. -/
structure LogMoment.Shows (w : LogMoment) (st : Stamp) (k : Nat) (e : Event) : Prop where
  lt : k < w.top
  event : w.events[k]? = some e
  node : e.isComment = false
  stamp : e.given.stamp e.span = st
  serial : st.serial = some (2 * k)

theorem LogMoment.Shows.mono {w w' : LogMoment} (h : w.Shows st k e)
    (hevents : w.events <+: w'.events) (htop : w.top ≤ w'.top) : w'.Shows st k e := by
  refine { h with lt := Nat.lt_of_lt_of_le h.lt htop, event := ?_ }
  obtain ⟨hlt, -⟩ := List.getElem?_eq_some_iff.1 h.event
  obtain ⟨es, hes⟩ := hevents
  rw [← hes, List.getElem?_append_left hlt, h.event]

/-- The view that looks at the log only. -/
def View.log : View where
  Moment := LogMoment
  later a b := a.events <+: b.events ∧ a.top ≤ b.top
  reached _ _ := True
  opens _ _ := True
  begins _ _ := True
  covers _ _ _ := True
  spells _ _ _ := True
  literal _ _ := True
  fits _ b st := ∃ k e, b.Shows st k e
  enter a _ := a
  leave b st := { b with top := st.serial.getD 0 / 2 }
  markup := True
  lenient := True
  later_refl w := ⟨List.prefix_rfl, Nat.le_refl _⟩
  later_trans h h' := ⟨h.1.trans h'.1, Nat.le_trans h.2 h'.2⟩
  reached_of_later _ _ := trivial
  reached_later _ _ := trivial
  reached_of_lenient _ := trivial
  reached_of_markup _ := trivial
  opens_startMark _ _ := trivial
  fits_mono := by
    rintro a w w' b st - hb ⟨k, e, h⟩
    exact ⟨k, e, h.mono hb.1 hb.2⟩
  enter_mono _ h := h
  leave_mono _ h := ⟨h.1, Nat.le_refl _⟩
  later_enter _ := ⟨List.prefix_rfl, Nat.le_refl _⟩
  leave_later := by
    rintro a b st ⟨k, e, h⟩
    refine ⟨List.prefix_rfl, ?_⟩
    rw [h.serial, Option.getD_some, Nat.mul_div_cancel_left k (by decide)]
    exact Nat.le_of_lt h.lt

instance : Markup View.log := ⟨trivial⟩

/-- The log of a run, and nobody changes nodes. -/
structure Chronicled (c : ParseSetting) (s : ParseState) (w : LogMoment) : Prop where
  idle : c.delegate = .idle
  moment : w = ⟨s.events.toList, s.events.size⟩
  numbered : Numbered s.events.toList

namespace Chronicled

variable {c : ParseSetting} {s s' : ParseState} {w : LogMoment}

theorem of_events_eq (h : Chronicled c s w) (he : s'.events = s.events) : Chronicled c s' w :=
  ⟨h.idle, he ▸ h.moment, he ▸ h.numbered⟩

theorem grown (h : Chronicled c s w) (hg : Grown s.events s'.events) :
    ∃ w', View.log.later w w' ∧ Chronicled c s' w' := by
  obtain rfl := h.moment
  exact ⟨_, ⟨hg.isPrefix, hg.size_le⟩, h.idle, rfl, hg.numbered h.numbered⟩

theorem ensures (h : Chronicled c s w) (hp : Orderly p) :
    Ensures p c s fun _ s' => ∃ w', View.log.later w w' ∧ Chronicled c s' w' :=
  (hp.ensures_grown h.idle).mono fun _ _ hg => h.grown hg

theorem ensures_resumeTemplate (h : Chronicled c s w) :
    Ensures Grammar.resumeTemplate c s fun _ s' => Chronicled c s' w :=
  Parse.ensures_resumeTemplate h fun _ _ _ _ => h.of_events_eq rfl

theorem ensures_enterMarkup (h : Chronicled c s w) :
    Ensures Grammar.enterMarkup c s fun _ s' => Chronicled c s' w := by
  simp only [Grammar.enterMarkup, Ensures.bind_iff, Ensures.step_iff, Ensures.scan_iff]
  exact h.of_events_eq rfl

/-- A finished node is the last that is logged. -/
theorem ensures_finish (h : Chronicled c s w) (hfresh : Fresh (V := View.log) a w n) :
    Ensures (Parse.finish start n) c s fun n' s' =>
      ∃ w', View.log.later w w' ∧ View.log.Holds a w' (.node n') ∧ Chronicled c s' w' := by
  obtain rfl := h.moment
  simp only [Ensures.step_iff, h.idle, Event.taken_idle]
  refine ⟨⟨_, s.events.size + 1⟩, ⟨prefix_push, Nat.le_succ _⟩, ?_, h.idle, by rw [Array.size_push], h.numbered.push⟩
  refine hfresh.finished ⟨s.events.size, .make .idle s.events.size false n ⟨start, s.lastMark⟩,
      Nat.lt_succ_self _, ?_, rfl, rfl, rfl⟩
    (fun _ _ => trivial) ⟨List.prefix_rfl, Nat.le_refl _⟩ ⟨prefix_push, ?_⟩
  · change (s.events.push _).toList[s.events.size]? = _
    rw [Array.toList_push, ← Array.length_toList, List.getElem?_concat_length]
  · exact Nat.le_of_eq (Nat.mul_div_cancel_left _ (by decide)).symm

end Chronicled

/-- What the log has to do with a run. -/
def StepSemantics.log : StepSemantics View.log where
  At := Chronicled
  kept h hk := h.of_events_eq hk.events
  jsx _ _ := trivial
  tolerant _ _ := trivial
  here _ := trivial
  peek _ := trivial
  next h := (h.ensures inferInstance).mono fun _ _ ⟨w', hl, h'⟩ => ⟨w', hl, trivial, trivial, h'⟩
  spells _ _ := trivial
  close {_ _ w _} h _ := ⟨w, View.log.later_refl w, h.of_events_eq rfl⟩
  finish h _ _ _ hfresh := h.ensures_finish hfresh
  regex h _ _ := (h.ensures inferInstance).mono fun _ _ ⟨w', hl, h'⟩ => ⟨w', hl, trivial, trivial, h'⟩
  resumeTemplate h := h.ensures_resumeTemplate
  markupHere _ h := (h.ensures inferInstance).mono fun _ _ ⟨w', hl, h'⟩ => ⟨w', hl, trivial, h'⟩
  cursorMark _ _ := trivial
  enterMarkup _ h := h.ensures_enterMarkup
  nextMarkup _ h := (h.ensures inferInstance).mono fun _ _ h' _ => h'
  nextMarkupText _ h := h.ensures inferInstance

theorem StepSemantics.loose_log : StepSemantics.log.Loose where
  markup := trivial
  opens _ _ := trivial
  spells _ _ _ := trivial
  advance hp h := h.ensures hp

def Semantics.log : Semantics View.log := .ofLoose .log StepSemantics.loose_log

/-- What is known of a whole program. -/
theorem Grammar.ensures_program_log (isModule : Bool) (hidle : c.delegate = .idle) (hs : s.events = #[]) :
    Ensures (Grammar.program isModule) c s fun n t =>
      ∃ a w, View.log.Holds a w (.node n) ∧ Chronicled c t w := by
  have hstart : Chronicled c s ⟨[], 0⟩ := ⟨hidle, by rw [hs]; rfl, fun k e hk => by simp [hs] at hk⟩
  refine (hstart.ensures inferInstance).bind fun _ t ⟨w, _, ht⟩ => ?_
  refine ((derives_program w isModule).sound Semantics.log c t ht).mono ?_
  rintro n u ⟨w', -, -, hn, hu⟩
  exact ⟨w, w', hn, hu⟩

/-! ### The nodes of a program -/

/-- A node that is no draft was logged. -/
theorem View.Holds.event (h : View.log.Holds a w (.node n)) (hkind : n.kind?.isSome) :
    (n.span = none ∧ n.IsDraft) ∨ ∃ sp k e, n.span = some sp ∧ w.Shows (n.stamp sp) k e := by
  obtain ⟨hfits, hproper, -⟩ := View.holds_node.1 h
  cases hspan : n.span with
  | none => exact .inl ⟨rfl, hproper.finished hkind hspan⟩
  | some sp =>
    obtain ⟨k, e, he⟩ := hfits sp hspan
    exact .inr ⟨sp, k, e, rfl, he⟩

/-- A draft is reported as one. -/
theorem Node.IsDraft.dress {r : Report} (h : n.IsDraft)
    (htidy : ∀ n', (Value.node n').Part (.node n) → n'.Tidy) : (r.dress n).IsDraft := by
  obtain ⟨hserial, hkind⟩ := h
  refine ⟨Report.serial_dress.trans hserial, ?_⟩
  simp only [Node.is, Report.kind?_dress htidy] at hkind ⊢
  refine hkind.imp_right fun ⟨hkind, hname⟩ => ⟨hkind, ?_⟩
  rw [Report.get_dress_own (htidy n .self) (by decide), hname]
  simp only [Report.reveal, Value.word]

/-- What is not finished has no place in a report. -/
theorem Report.range_dress_of_draft {r : Report} {n : Node} (htidy : n.Tidy) (hspan : n.span = none) :
    (r.dress n).get "range" = .null := by
  rw [get_dress_place htidy rfl, hspan]
  rfl

/-- The events of a list around one of them, as far as they are kept. -/
theorem exists_split_filter {es : List Event} {k : Nat} (h : es[k]? = some e) (hkeep : keep e) :
    ∃ before after, es.filter keep = before ++ e :: after ∧ (∀ e' ∈ before ++ after, ∃ j, j ≠ k ∧ es[j]? = some e')
      ∧ ∀ j e', j < k → es[j]? = some e' → keep e' → e' ∈ before := by
  obtain ⟨hlt, rfl⟩ := List.getElem?_eq_some_iff.1 h
  refine ⟨(es.take k).filter keep, (es.drop (k + 1)).filter keep, ?_, fun e' he' => ?_, ?_⟩
  · rw [← List.filter_cons_of_pos hkeep, ← List.filter_append, ← List.drop_eq_getElem_cons hlt, List.take_append_drop]
  · rw [← List.filter_append, List.mem_filter, List.mem_append] at he'
    rcases he'.1 with hmem | hmem
    · obtain ⟨j, hj⟩ := List.getElem?_of_mem hmem
      rw [List.getElem?_take] at hj
      split at hj
      · next hjk => exact ⟨j, Nat.ne_of_lt hjk, hj⟩
      · cases hj
    · obtain ⟨j, hj⟩ := List.getElem?_of_mem hmem
      rw [List.getElem?_drop] at hj
      exact ⟨k + 1 + j, by omega, hj⟩
  · intro j e' hj he' hkeep'
    refine List.mem_filter.2 ⟨List.mem_of_getElem? (i := j) ?_, hkeep'⟩
    rwa [List.getElem?_take_of_lt hj]

namespace Program

/-- What is known of the nodes of a program that was accepted, and of its log. -/
theorem log_of_run (h : run e code o .idle = .ok p) :
    ∃ (b : Options) (n₀ : Node) (s : ParseState) (a w : LogMoment) (r : Report) (keep : Event → Bool),
      (b.tolerant = o.flag "tolerant" ∧ read (.ofText code) b .idle = .ok n₀ s ∧ w.events = s.events.toList)
      ∧ View.log.Holds a w (.node n₀) ∧ Numbered w.events ∧ p.events = w.events.filter keep
      ∧ (∀ ev, ev.isComment = false → keep ev) ∧ r.range = o.flag "range"
      ∧ ∀ m, (Value.node m).Part p.tree → m.kind?.isSome → ∃ n, (Value.node n).Part (.node n₀) ∧ r.Shows n m := by
  obtain ⟨b, hb, hparse⟩ := parse_of_run h
  obtain ⟨n₀, s, comments, tree, hread, hcomments, hreport, rfl⟩ := parse_eq_ok_iff.1 hparse
  have hformed := formed_read (.ofText code) b
  rw [hread] at hformed
  obtain ⟨a, w, hholds, hlogged⟩ := Grammar.ensures_program_log b.isModule rfl rfl n₀ s hread
  have hflags := e.withFlags_eq hb
  refine ⟨b, n₀, s, a, w, reportOf b comments, fun ev => !ev.isComment || tracksComments b, ⟨?_, hread, ?_⟩,
    hholds, ?_, ?_, fun ev hev => ?_, ?_, fun m hm hkind => ?_⟩
  · rw [← hflags]
    rfl
  · rw [hlogged.moment]
  · rw [hlogged.moment]
    exact hlogged.numbered
  · rw [hlogged.moment]
  · simp [hev]
  · exact congrArg Options.range hflags.symm
  · exact shows_of_part hformed.loggable (ensures_program rfl n₀ s hread) (fun n hn => hholds.tidy hn)
      hcomments hreport hm hkind

/-- A node was shown to the delegate at one event of a run and at no other, and all nodes in it that are
no drafts were shown before. -/
structure FinishedAt (p : Program) (n : Node) (before : List Event) (ev : Event) (after : List Event) :
    Prop where
  events : p.events = before ++ ev :: after
  node : ev.isComment = false
  serial : ev.given.serial = n.serial
  form : ev.given.form = n.form
  once : ∀ ev' ∈ before ++ after, ev'.given.serial ≠ n.serial
  parts : ∀ m : Node, m.Under n → m.kind?.isSome →
    m.IsDraft ∨ ∃ ev' ∈ before, ev'.isComment = false ∧ ev'.given.serial = m.serial

/-- **Every node is finished once**, after the nodes in it, and has the place that is shown with it. Drafts
are not finished, and have no place. -/
theorem finished_once (e : EntryPoint) (code : Text) (o : OptionList) (p : Program)
    (h : run e code o .idle = .ok p) (n : Node) (hn : (Value.node n).Part p.tree)
    (hkind : n.kind?.isSome) :
    (n.IsDraft ∧ n.get "range" = .null)
    ∨ ∃ before ev after, p.FinishedAt n before ev after ∧ (o.flag "range" → n.get "range" = ev.span.rangeValue) := by
  obtain ⟨-, n₀, -, a, w, r, keep, -, hholds, hnumbered, hevents, hkeep, hrange, hshows⟩ := log_of_run h
  obtain ⟨k, hk, hnk⟩ := hshows n hn hkind
  obtain ⟨a', b, -, hb, hheld⟩ := hholds.part hk
  have htidy (k' : Node) (hk' : (Value.node k').Part (.node k)) : k'.Tidy := hheld.tidy hk'
  rcases hheld.event (hnk.kind?_eq htidy ▸ hkind) with ⟨hspan, hdraft⟩ | ⟨sp, i, ev, hspan, hev⟩
  · have hdress : (r.dress k).IsDraft := hdraft.dress htidy
    refine .inl ⟨hdress.congr (hnk.serial.trans Report.serial_dress.symm) ?_ (hnk.get _ (by decide)), ?_⟩
    · rw [hnk.kind?_eq htidy, Report.kind?_dress htidy]
    · rw [hnk.get _ (by decide), Report.range_dress_of_draft (htidy k .self) hspan]
  have hat : w.events[i]? = some ev := (hev.mono hb.1 hb.2).event
  obtain ⟨before, after, hsplit, hothers, hbefore⟩ := exists_split_filter hat (hkeep ev hev.node)
  refine .inr ⟨before, ev, after, ⟨hevents.trans hsplit, hev.node, ?_, ?_, fun ev' hev' heq => ?_,
    fun m hm hsome => ?_⟩, fun hflag => ?_⟩
  · exact (congrArg Stamp.serial hev.stamp).trans hnk.serial.symm
  · exact (congrArg Stamp.form hev.stamp).trans hnk.form.symm
  · obtain ⟨j, hj, hev'⟩ := hothers ev' hev'
    have hserial : ev.given.serial = k.serial := congrArg Stamp.serial hev.stamp
    exact hj (hnumbered.eq hev' hat (heq.trans (hnk.serial.trans hserial.symm)))
  · obtain ⟨k', hk', rfl⟩ := hnk.under m hm hsome
    obtain ⟨a'', b', -, hb', hheld'⟩ := hheld.under hspan hk'
    have htidy' (k'' : Node) (hk'' : (Value.node k'').Part (.node k')) : k''.Tidy :=
      htidy k'' (hk''.trans hk'.part)
    have hsome' : k'.kind?.isSome := Report.kind?_dress htidy' ▸ hsome
    rcases hheld'.event hsome' with ⟨-, hdraft⟩ | ⟨sp', j, ev', -, hev'⟩
    · exact .inl (hdraft.dress htidy')
    · -- The moment up to which the parts are read is that of the node.
      have hlt : j < i := by
        have htop : b'.top ≤ k.serial.getD 0 / 2 := hb'.2
        have hserial : k.serial = some (2 * i) := hev.serial
        rw [hserial, Option.getD_some, Nat.mul_div_cancel_left i (by decide)] at htop
        exact Nat.lt_of_lt_of_le hev'.lt htop
      have hleave := View.log.leave_later (a := a') ⟨i, ev, hev⟩
      have hat' : w.events[j]? = some ev' :=
        (((hev'.mono hb'.1 hb'.2).mono hleave.1 hleave.2).mono hb.1 hb.2).event
      exact .inr ⟨ev', hbefore j ev' hlt hat' (hkeep ev' hev'.node), hev'.node,
        (congrArg Stamp.serial hev'.stamp).trans Report.serial_dress.symm⟩
  · rw [hnk.get _ (by decide), Report.range_dress (htidy k .self) (hrange.trans hflag), hspan,
      Option.map_some, Option.getD_some]
    exact congrArg Span.rangeValue (congrArg Stamp.span hev.stamp).symm

theorem finished_once_of_call :
    let o : OptionList := [("range", .bool true)]
    ∃ p n, run .parse "f(1)" o .idle = .ok p ∧ p.tree.firstExpression = some n
      ∧ ∃ before ev after, p.FinishedAt n before ev after ∧ n.get "range" = ev.span.rangeValue := by
  intro o
  obtain ⟨p, n, hrun, hn, htest⟩ := exists_firstExpression .parse "f(1)" o
    (fun n => n.kind?.isSome && n.serial.isSome) (by decide +kernel)
  obtain ⟨hkind, hserial⟩ := Bool.and_eq_true_iff.1 htest
  obtain ⟨⟨hnone, -⟩, -⟩ | ⟨before, ev, after, hev, hrange⟩ :=
    finished_once .parse "f(1)" o p hrun n (.of_firstExpression hn) hkind
  · rw [hnone] at hserial
    cases hserial
  · exact ⟨p, n, hrun, hn, before, ev, after, hev, hrange (by decide)⟩

/-- The name in front of metadata is a node that was never finished. -/
theorem meta_not_finished : ∃ p n, run .parseModule "import.meta" [("range", .bool true)] .idle = .ok p
      ∧ (Value.node n).Part p.tree ∧ n.is .identifier ∧ n.get "range" = .null
      ∧ ∀ ev ∈ p.events, ev.given.serial ≠ n.serial := by
  obtain ⟨p, path, n, hrun, hn, htest⟩ := exists_follow .parseModule "import.meta" [("range", .bool true)]
    ["body", "expression", "meta"]
    (fun _ n => n.is .identifier && n.serial.isNone && (n.get "range").isNull) (by decide) (by decide +kernel)
  simp only [Bool.and_eq_true, Option.isNone_iff_eq_none] at htest
  obtain ⟨⟨hname, hserial⟩, hrange⟩ := htest
  obtain ⟨-, -, -, -, w, -, keep, -, -, hnumbered, hevents, -⟩ := log_of_run hrun
  refine ⟨p, n, hrun, hn.part, hname, ?_, fun ev hev => ?_⟩
  · cases hget : n.get "range" with
    | null => rfl
    | _ =>
      rw [hget] at hrange
      cases hrange
  · rw [hevents] at hev
    obtain ⟨k, hk⟩ := List.getElem?_of_mem (List.mem_filter.1 hev).1
    rw [hserial, hnumbered k ev hk]
    exact Option.some_ne_none _

end Program

end EcmaSyntax
