import Mathlib.Data.List.Forall2
import EcmaSyntax.Proofs.Lookahead

/-!
# States of a run

What holds between the steps of a parse, in code (`Ready`) and in markup (`Tagged`), and how much of the
source is left then (`Mode.left`). Every step keeps this, and none goes back; where a step fails, it
refuses the source, or has one of the faults that `Failure.Allowed` lists.

The states also say what has become of the source so far: each code point before the cursor is part of a
token that was recorded, or of a comment that was logged, or is white space (`Noted`). One thing is lost:
where a brace is read again as a chunk of a template, the record stays that of the brace
(`Source.Resumed`). All this holds if errors are not tolerated, no line is hidden, and there are no
substitutions with markup in them, where a chunk may be recorded that is not there
(`ParseSetting.Faithful`).

Of the comments alone more is known: in every run that starts with the program, they are logged once
each and in their order (`Remarked`), since a step that goes back in the source goes back to the start of
a token, before which all comments are.
-/

namespace EcmaSyntax

open Parse

set_option synthInstance.maxSize 100000000000000

variable {c : ParseSetting} {E : Failure → Prop} {t : Token} {tokens : Array TokenRecord} {src : Source}
  {es : List Event} {j : Nat}

/-- How a parse may fail: a source is refused; or a template goes on where none was opened, or a line is
hidden where a regular expression is read again; or a number in markup is no character. -/
def Failure.Allowed (c : ParseSetting) : Failure → Prop
  | .refused _ => True
  | .fault .unmetCondition => c.source.HasSubstitution ∨ c.source.hasAt 0 "#!"
  | .fault .invalidValue | .fault .overflow => c.jsx ∧ c.source.HasCharacterNumber
  | _ => False

instance : Refusing (Failure.Allowed c) := ⟨fun _ => trivial⟩

theorem Failure.Allowed.entityFaults (h : c.jsx) (hnumber : c.source.HasCharacterNumber) :
    Scan.EntityFaults (Failure.Allowed c) :=
  ⟨⟨h, hnumber⟩, ⟨h, hnumber⟩⟩

/-- A run may end with a token that is refused. -/
theorem meets_unexpected [hE : Refusing E] : Meets E (unexpected t) c s Q :=
  hE.refused _

/-! ### What was read -/

/-- What is recorded is what was read: no error is tolerated, no line is hidden, and there are no
substitutions where there may be markup. -/
structure ParseSetting.Faithful (c : ParseSetting) : Prop where
  strict : c.tolerant = false
  plain : c.source.Plain
  unsubstituted : c.jsx → ¬ c.source.HasSubstitution

/-- A chunk of a template goes on behind a brace that was first taken for a token of its own. -/
structure Source.Resumed (src : Source) (i j : Nat) : Prop where
  substitution : src.HasSubstitution
  brace : src.char i = 0x7d
  lt : i + 1 < j
  ends : Scan.EndsChunk src j

/-- The ranges of tokens that were recorded. -/
def rangesOf (tokens : Array TokenRecord) : List (Nat × Nat) :=
  tokens.toList.map fun t => (t.token.start, t.token.stop)

theorem rangesOf_push {t : TokenRecord} :
    rangesOf (tokens.push t) = rangesOf tokens ++ [(t.token.start, t.token.stop)] := by
  simp [rangesOf]

theorem rangesOf_pop : rangesOf tokens.pop = (rangesOf tokens).dropLast := by
  simp [rangesOf]

/-- An event is a comment in a certain range. -/
def Event.Comments (e : Event) (p : Nat × Nat) : Prop :=
  Comments.isComment e.taken ∧ e.taken.span.map Span.range = some p

/-- The comments among events. -/
def remarks (events : Array Event) : List Event := events.toList.filter fun e => Comments.isComment e.taken

theorem mem_remarks : e ∈ remarks events ↔ e ∈ events ∧ Comments.isComment e.taken := by
  simp [remarks]

/-- Up to an offset, the source consists of tokens, of comments that were logged, of white space, and of
what was lost of chunks of templates. -/
def Noted (src : Source) (events : Array Event) (ts : List (Nat × Nat)) (j : Nat) : Prop :=
  ∃ ps, src.Covered 0 j ps ∧ ts.Sublist ps ∧ ∀ p ∈ ps, p ∈ ts ∨ (∃ e ∈ events, e.Comments p)
    ∨ ∃ i, p.1 = i + 1 ∧ (i, i + 1) ∈ ts ∧ src.Resumed i p.2

namespace Noted

variable {events events' : Array Event} {ts : List (Nat × Nat)} {i : Nat} {qs : List (Nat × Nat)}

theorem start (src : Source) : Noted src #[] [] 0 := ⟨[], .refl src 0, .slnil, nofun⟩

theorem mono (h : Noted src events ts j) (he : remarks events ⊆ remarks events') :
    Noted src events' ts j := by
  obtain ⟨ps, hps, hts, hall⟩ := h
  exact ⟨ps, hps, hts, fun p hp => (hall p hp).imp_right (.imp_left fun ⟨e, hmem, hc⟩ =>
    ⟨e, (mem_remarks.1 (he (mem_remarks.2 ⟨hmem, hc.1⟩))).1, hc⟩)⟩

/-- A token is added, and what was lost of it. -/
theorem append (h : Noted src events ts i)
    (hqs : src.Covered i j (p :: qs)) (hall : ∀ q ∈ qs, ∃ i, q.1 = i + 1 ∧ (i, i + 1) = p ∧ src.Resumed i q.2) :
    Noted src events (ts ++ [p]) j := by
  obtain ⟨ps, hps, hts, hmem⟩ := h
  refine ⟨ps ++ p :: qs, hps.append hqs, hts.append (.cons_cons p (List.nil_sublist qs)), fun q hq => ?_⟩
  rcases List.mem_append.1 hq with hq | hq
  · exact (hmem q hq).imp (List.mem_append_left _) (.imp_right fun ⟨k, hk, hkt, hres⟩ =>
      ⟨k, hk, List.mem_append_left _ hkt, hres⟩)
  rcases List.mem_cons.1 hq with rfl | hq
  · exact .inl (List.mem_append_right _ (List.mem_singleton_self q))
  · obtain ⟨k, hk, hkp, hres⟩ := hall q hq
    exact .inr (.inr ⟨k, hk, List.mem_append_right _ (List.mem_singleton.2 hkp), hres⟩)

theorem token (h : Noted src events ts i) (hij : i < j) : Noted src events (ts ++ [(i, j)]) j :=
  h.append (.single hij) nofun

theorem resumed (h : Noted src events ts i) (hres : src.Resumed i j) : Noted src events (ts ++ [(i, i + 1)]) j :=
  h.append (.append (.single (Nat.lt_succ_self i)) (.single hres.lt)) fun q hq => by
    rw [List.mem_singleton.1 hq]
    exact ⟨i, rfl, rfl, hres⟩

/-- Comments are added. -/
theorem comments (h : Noted src events ts i) (hqs : src.Covered i j qs)
    (he : remarks events ⊆ remarks events') (hall : ∀ p ∈ qs, ∃ e ∈ events', e.Comments p) :
    Noted src events' ts j := by
  obtain ⟨ps, hps, hts, hmem⟩ := h.mono he
  refine ⟨ps ++ qs, hps.append hqs, hts.trans (List.sublist_append_left ps qs), fun p hp => ?_⟩
  exact (List.mem_append.1 hp).elim (hmem p) fun hp => .inr (.inl (hall p hp))

end Noted

/-! ### Comments that were logged -/

/-- An event logs a comment. -/
def Event.Logs (src : Source) (e : Event) (x : Comment) : Prop :=
  ∃ serial, e.taken = { x.node src with serial, span := some x.span }

theorem Comment.isComment_node (x : Comment) (src : Source) {serial : Option Nat} {span : Option Span} :
    Comments.isComment { x.node src with serial, span } := by
  unfold Comment.node
  cases x.block <;> rfl

theorem Event.Logs.comments {e : Event} {x : Comment} (h : e.Logs src x) : e.Comments x.span.range := by
  obtain ⟨serial, he⟩ := h
  rw [Comments, he]
  exact ⟨x.isComment_node src, rfl⟩

/-- Do the states of a run belong to a run of a whole program? Where a run starts in the middle of one, it
is not known what was logged before. In modules, comments do not look like markup, but for those that end
where they may. -/
class Extent (c : ParseSetting) where
  whole : Prop
  opens : Nat → Prop

instance (priority := low) Extent.part (c : ParseSetting) : Extent c := ⟨False, fun _ => True⟩

/-- The comments that were logged are comments of the source, in their order, and none of them goes beyond
an offset. -/
def Remarked (c : ParseSetting) [Extent c] (events : Array Event) (j : Nat) : Prop :=
  ∃ xs : List Comment, List.Forall₂ (Event.Logs c.source) (remarks events) xs
    ∧ xs.Pairwise (fun x y => x.span.range.2 ≤ y.span.range.1)
    ∧ ∀ x ∈ xs, (x.Told c.toSetting ∧ (c.source.hasAt x.span.range.1 "<!--" → Extent.opens c x.span.range.2))
      ∧ x.span.range.1 < x.span.range.2 ∧ x.span.range.2 ≤ j

namespace Remarked

variable [Extent c] {events events' : Array Event} {i : Nat}

theorem start (c : ParseSetting) [Extent c] : Remarked c #[] j := ⟨[], .nil, .nil, nofun⟩

theorem mono (h : Remarked c events i) (hij : i ≤ j) : Remarked c events j := by
  obtain ⟨xs, hlogs, hpairs, hall⟩ := h
  refine ⟨xs, hlogs, hpairs, fun x hx => ?_⟩
  obtain ⟨htold, hlt, hle⟩ := hall x hx
  exact ⟨htold, hlt, Nat.le_trans hle hij⟩

/-- Comments are added behind all others. -/
theorem append (h : Remarked c events i)
    (hevents : remarks events' = remarks events ++ es) (hes : List.Forall₂ (Event.Logs c.source) es ys)
    (hcovered : c.source.Covered i j (ys.map (·.span.range))) (htold : ∀ y ∈ ys, y.Told c.toSetting
      ∧ (c.source.hasAt y.span.range.1 "<!--" → Extent.opens c y.span.range.2)) :
    Remarked c events' j := by
  obtain ⟨xs, hlogs, hpairs, hall⟩ := h
  have hnew (y : Comment) (hy : y ∈ ys) := hcovered.mem (List.mem_map_of_mem hy)
  refine ⟨xs ++ ys, ?_, List.pairwise_append.2 ⟨hpairs, List.pairwise_map.1 hcovered.pairwise, ?_⟩, ?_⟩
  · rw [hevents]
    exact List.rel_append hlogs hes
  · intro x hx y hy
    obtain ⟨-, -, hle⟩ := hall x hx
    exact Nat.le_trans hle (hnew y hy).1
  · intro x hx
    rcases List.mem_append.1 hx with hx | hx
    · obtain ⟨htold, hlt, hle⟩ := hall x hx
      exact ⟨htold, hlt, Nat.le_trans hle hcovered.le⟩
    · exact ⟨htold x hx, (hnew x hx).2⟩

end Remarked

/-! ### States -/

/-- What holds in code and in markup alike. -/
structure Sane (c : ParseSetting) [Extent c] (s : ParseState) : Prop where
  formed : Formed c s
  visible : c.toSetting.Visible
  bound : s.scan.cursor.index ≤ c.source.size
  braces : .substitution ∈ s.scan.braces → c.source.HasSubstitution
  opens : s.scan.isModule = false → ∀ j, Extent.opens c j

/-- In code, there is a lookahead. -/
structure Ready (c : ParseSetting) [Extent c] (s : ParseState) : Prop extends Sane c s where
  found : s.lookahead.Found c.source s.startMark.index s.scan.cursor.index
  rests : Scan.Resting c.source s.scan.isModule s.startMark.index
  /-- The lookahead is recorded already, unless it is the end. -/
  noted : c.Faithful →
    if s.lookahead.lexeme = .eof then Noted c.source s.events (rangesOf s.tokens) s.startMark.index
    else ∃ ts stop, rangesOf s.tokens = ts ++ [(s.startMark.index, stop)]
      ∧ Noted c.source s.events ts s.startMark.index
      ∧ (stop = s.scan.cursor.index ∨ stop = s.startMark.index + 1
        ∧ c.source.Resumed s.startMark.index s.scan.cursor.index)
  remarked : Extent.whole c → Remarked c s.events s.startMark.index

/-- In markup, there is none. -/
structure Tagged (c : ParseSetting) [Extent c] (s : ParseState) : Prop extends Sane c s where
  jsx : c.jsx
  noted : c.Faithful → Noted c.source s.events (rangesOf s.tokens) s.scan.cursor.index
  remarked : Extent.whole c → Remarked c s.events s.scan.cursor.index

variable {s : ParseState}

section

variable [Extent c]

theorem Sane.scanned (h : Sane c s) {t : ParseState} (hevents : t.events = s.events)
    (hbound : t.scan.cursor.index ≤ c.source.size) (hguards : Scan.Guards c.source s.scan t.scan) : Sane c t :=
  ⟨h.formed.of_events_eq hevents, h.visible, hbound, fun hb => (hguards.braces hb).elim h.braces id,
    hguards.isModule ▸ h.opens⟩

theorem Ready.noted_cursor (h : Ready c s) (hc : c.Faithful) :
    Noted c.source s.events (rangesOf s.tokens) s.scan.cursor.index := by
  have hnoted := h.noted hc
  split at hnoted
  · next heof =>
    have hstart := h.found.ended heof
    have hle := h.found.le
    rwa [Nat.le_antisymm h.bound (hstart ▸ hle), ← hstart]
  · next hne =>
    obtain ⟨ts, stop, hranges, hts, hstop | ⟨hstop, hres⟩⟩ := hnoted
    · rw [hranges, hstop]
      exact hts.token (h.found.lt hne)
    · rw [hranges, hstop]
      exact hts.resumed hres

theorem Ready.remarked_cursor (h : Ready c s) (hwhole : Extent.whole c) : Remarked c s.events s.scan.cursor.index :=
  (h.remarked hwhole).mono h.found.le

end

/-- Where a parse is. -/
inductive Mode where
  | code
  | markup

/-- What holds in a mode. -/
def Mode.Holds (k : Mode) (c : ParseSetting) [Extent c] (s : ParseState) : Prop :=
  match k with
  | .code => Ready c s
  | .markup => Tagged c s

/-- How much of the source is left: from the lookahead on, or from the cursor on. -/
def Mode.left : Mode → ParseSetting → ParseState → Nat
  | .code, c, s => c.source.size - s.startMark.index
  | .markup, c, s => c.source.size - s.scan.cursor.index

/-! ### White space and comments -/

/-- Comments were logged, and nothing else was done. -/
def Logged (src : Source) (s u : ParseState) (xs : List Comment) : Prop :=
  ∃ es, List.Forall₂ (Event.Logs src) es xs ∧ u = { s with events := s.events ++ es.toArray }

theorem meets_logComments (hidle : c.delegate = .idle) (xs : List Comment) :
    ∀ s : ParseState, Meets E (forIn xs PUnit.unit fun x _ => do
      discard <| log true (x.node (← read).source) x.span
      return .yield PUnit.unit) c s fun _ u => Logged c.source s u xs := by
  induction xs with
  | nil => exact fun s => ⟨[], .nil, by simp⟩
  | cons x xs ih =>
    intro s
    simp only [List.forIn_cons, Meets.bind_iff, Meets.step_iff, Meets.discard_iff, log, hidle]
    refine (ih _).mono fun _ u hu => ?_
    obtain ⟨es, hes, rfl⟩ := hu
    refine ⟨.make .idle s.events.size true (x.node c.source) x.span :: es, .cons ⟨_, rfl⟩ hes, ?_⟩
    simp

theorem exists_logged (h : List.Forall₂ (Event.Logs src) es xs) : ∀ x ∈ xs, ∃ e ∈ es, e.Comments x.span.range := by
  induction h with
  | nil => exact nofun
  | cons hx _ ih =>
    refine List.forall_mem_cons.2 ⟨⟨_, List.mem_cons_self, hx.comments⟩, fun y hy => ?_⟩
    obtain ⟨e, he, hlogs⟩ := ih y hy
    exact ⟨e, List.mem_cons_of_mem _ he, hlogs⟩

/-- All that was logged are comments. -/
theorem remarks_append
    (h : List.Forall₂ (Event.Logs src) es xs) : remarks (events ++ es.toArray) = remarks events ++ es := by
  have hes : es.filter (fun e => Comments.isComment e.taken) = es := by
    induction h with
    | nil => rfl
    | cons hx _ ih => simp [hx.comments.1, ih]
  rw [remarks, remarks, Array.toList_append, List.filter_append, hes]

section

variable [Extent c]

/-- What passing over white space and comments does. -/
structure Passes (c : ParseSetting) [Extent c] (s u : ParseState) : Prop where
  sane : Sane c u
  frame : u = { s with scan := u.scan, events := u.events }
  trivia : ∃ found, Scan.trivia c.toSetting s.scan = .ok found u.scan
  le : s.scan.cursor.index ≤ u.scan.cursor.index
  rests : Scan.Resting c.source u.scan.isModule u.scan.cursor.index
  noted : c.Faithful → ∀ ts, Noted c.source s.events ts s.scan.cursor.index →
    Noted c.source u.events ts u.scan.cursor.index
  remarked : Remarked c s.events s.scan.cursor.index → Remarked c u.events u.scan.cursor.index

theorem meets_passTrivia (h : Sane c s) :
    Meets (Failure.Allowed c) passTrivia c s fun _ u => Passes c s u := by
  have hformed : Ensures passTrivia c s fun _ u => Formed c u := Orderly.ensures inferInstance h.formed
  have htrivia : Meets (Failure.Allowed c) Scan.trivia c.toSetting s.scan fun xs t =>
      Cursor.Moves c.source s.scan.cursor t.cursor
        ∧ Scan.Resting c.source t.isModule t.cursor.index ∧ Scan.Guards c.source s.scan t
        ∧ Scan.Passed c.toSetting s.scan.cursor xs.reverse t ∧ Scan.trivia c.toSetting s.scan = .ok xs t :=
    ((Scan.meets_trivia h.bound).mono fun _ _ => And.left).and_ensures <| (Scan.ensures_trivia_rests h.bound).and <|
      (Scan.Guarded.out _ _).and <| Scan.ensures_trivia_passed.and fun _ _ => id
  have hpass : Meets (Failure.Allowed c) passTrivia c s fun _ u => Formed c u → Passes c s u := by
    rw [passTrivia, Meets.bind_iff, Meets.scan_iff]
    refine htrivia.mono fun xs t hread => ?_
    obtain ⟨hmoves, hrests, hguards, hpassed, hrun⟩ := hread
    have hle := hmoves.le
    have hbound := hmoves.bound h.bound
    rw [Meets.bind_iff]
    refine (meets_logComments h.formed.idle xs _).mono fun _ u hu hformed => ?_
    obtain ⟨es, hes, rfl⟩ := hu
    have hevents : remarks (s.events ++ es.toArray) = remarks s.events ++ es := remarks_append hes
    have hcovered := hpassed.covered
    rw [List.reverse_reverse] at hcovered
    have hscanned : Sane c { s with scan := t } := h.scanned rfl hbound hguards
    refine ⟨⟨hformed, h.visible, hbound, hscanned.braces, hscanned.opens⟩, rfl, ⟨xs, hrun⟩, hle, hrests,
      fun _ ts hts => ?_, fun hremarked => ?_⟩
    · refine hts.comments hcovered (hevents ▸ List.subset_append_left _ _) fun p hp => ?_
      obtain ⟨x, hx, rfl⟩ := List.mem_map.1 hp
      obtain ⟨e, he, hcomments⟩ := exists_logged hes x hx
      exact ⟨e, Array.mem_append_right _ (List.mem_toArray.2 he), hcomments⟩
    · refine hremarked.append hevents hes hcovered fun x hx => ?_
      have hx := List.mem_reverse.2 hx
      refine ⟨hpassed.told x hx, fun hopen => hscanned.opens (Bool.eq_false_iff.2 fun hmodule => ?_) _⟩
      exact Bool.false_ne_true ((hpassed.opening hmodule x hx).symm.trans hopen)
  exact (hpass.and_ensures hformed).mono fun _ _ hu => hu.1 hu.2

/-! ### The next token -/

theorem startNow_index : (startNow s).index = s.scan.cursor.index := by
  unfold startNow
  split
  · next h => exact h.symm
  · rfl

/-- Behind white space and comments, a token was found and recorded. -/
theorem Passes.ready (h : Passes c s u) (span : Span)
    (hnoted : c.Faithful → Noted c.source s.events (rangesOf s.tokens) s.scan.cursor.index)
    (hremarked : Extent.whole c → Remarked c s.events s.scan.cursor.index)
    (hguards : Scan.Guards c.source u.scan v) (hstart : start.index = u.scan.cursor.index)
    (hfound : found.Found c.source start.index v.cursor.index)
    (htokens : tokens = if found.lexeme = .eof then u.tokens else u.tokens.push ⟨found, span⟩) :
    Ready c { u with scan := v, lookahead := found, newline, startMark := start, tokens } := by
  have hseen : c.Faithful → Noted c.source u.events (rangesOf u.tokens) start.index := by
    intro hc
    have htokens : u.tokens = s.tokens := by rw [h.frame]
    rw [hstart, htokens]
    exact h.noted hc (rangesOf s.tokens) (hnoted hc)
  refine ⟨h.sane.scanned rfl hfound.bound hguards, hfound, ?_, fun hc => ?_,
    fun hwhole => hstart ▸ h.remarked (hremarked hwhole)⟩
  · rw [hstart, hguards.isModule]
    exact h.rests
  · split
    · next heof =>
      rw [htokens, if_pos heof]
      exact hseen hc
    · next hne =>
      rw [htokens, if_neg hne]
      refine ⟨rangesOf u.tokens, v.cursor.index, ?_, hseen hc, .inl rfl⟩
      obtain ⟨hfirst, hlast⟩ := hfound.place (.inl hc.plain)
      rw [← hfirst, ← hlast]
      exact rangesOf_push

/-- Reading a token gives the lookahead, and puts another one in its place. -/
theorem meets_next (h : Sane c s)
    (hnoted : c.Faithful → Noted c.source s.events (rangesOf s.tokens) s.scan.cursor.index)
    (hremarked : Extent.whole c → Remarked c s.events s.scan.cursor.index) :
    Meets (Failure.Allowed c) next c s fun t u => Ready c u ∧ t = s.lookahead
      ∧ s.scan.cursor.index ≤ u.startMark.index
      ∧ (∃ found v, Scan.trivia c.toSetting s.scan = .ok found v ∧ u.startMark.index = v.cursor.index)
      ∧ u.context = s.context := by
  simp only [next, Meets.bind_iff, Meets.step_iff]
  have hsane : Sane c { s with lastMark := s.scan.cursor.mark } := h.scanned rfl h.bound (.refl _ _)
  refine (meets_passTrivia hsane).mono fun _ u hu => ?_
  have hstart : (if u.scan.cursor.index = u.startMark.index then u
      else { u with startMark := u.scan.cursor.mark }) = { u with startMark := startNow u } := by
    unfold startNow
    split <;> rfl
  simp only [hstart, Meets.scan_iff]
  refine (Scan.meets_lex_found hu.sane.visible hu.sane.bound hu.sane.braces).mono ?_
  intro t v hlexed
  obtain ⟨hfound, hguards⟩ := hlexed
  have hfound : (if u.context.strict then t.reserve else t).Found c.source (startNow u).index v.cursor.index := by
    rw [startNow_index]
    split
    · exact hfound.reserve
    · exact hfound
  generalize (if u.context.strict then t.reserve else t) = found at hfound ⊢
  have hle : s.scan.cursor.index ≤ (startNow u).index := startNow_index (s := u) ▸ hu.le
  have hcontext : u.context = s.context := by rw [hu.frame]
  obtain ⟨comments, htrivia⟩ := hu.trivia
  split
  · next heof =>
    exact ⟨hu.ready ⟨startNow u, startNow u⟩ hnoted hremarked hguards startNow_index hfound
      (if_pos heof).symm, rfl, hle, ⟨comments, _, htrivia, startNow_index⟩, hcontext⟩
  · next hne =>
    simp only [Meets.bind_iff, Meets.step_iff]
    exact ⟨hu.ready _ hnoted hremarked hguards startNow_index hfound (if_neg hne).symm, trivial, hle,
      ⟨comments, _, htrivia, startNow_index⟩, hcontext⟩

end

/-! ### Steps that read nothing -/

/-- A node that is finished is no comment. -/
theorem meets_finish (hidle : c.delegate = .idle) (hkind : kind ≠ .lineComment ∧ kind ≠ .blockComment) :
    Meets E (finish start (.ofKind form kind fields)) c s fun _ t =>
      ∃ events, remarks events = remarks s.events ∧ t = { s with events } := by
  simp only [finish, log, Meets.bind_iff, Meets.step_iff, hidle]
  have hnode : Comments.isComment (Event.make .idle s.events.size false (.ofKind form kind fields)
      ⟨start, s.lastMark⟩).taken = false := Derives.not_isComment_ofKind form hkind
  simp [remarks, hnode]

/-- Nothing was read, and no comment was lost. -/
structure Alike (c : ParseSetting) (s t : ParseState) : Prop where
  formed : Formed c t
  index : t.scan.cursor.index = s.scan.cursor.index
  guards : Scan.Guards c.source s.scan t.scan
  lookahead : t.lookahead = s.lookahead
  startMark : t.startMark = s.startMark
  tokens : t.tokens = s.tokens
  remarks : remarks t.events = remarks s.events

namespace Alike

variable {t u : ParseState}

theorem refl (h : Formed c s) : Alike c s s :=
  ⟨h, rfl, .refl _ _, rfl, rfl, rfl, rfl⟩

theorem trans (h : Alike c s t) (h' : Alike c t u) : Alike c s u :=
  ⟨h'.formed, h'.index.trans h.index, h.guards.trans h'.guards, h'.lookahead.trans h.lookahead,
    h'.startMark.trans h.startMark, h'.tokens.trans h.tokens, h'.remarks.trans h.remarks⟩

theorem noted (h : Alike c s t) (hs : Noted c.source s.events ts j) : Noted c.source t.events ts j :=
  hs.mono (h.remarks ▸ List.Subset.refl _)

variable [Extent c]

theorem remarked (h : Alike c s t) (hs : Remarked c s.events j) : Remarked c t.events j := by
  rwa [Remarked, h.remarks]

theorem sane (h : Alike c s t) (hs : Sane c s) : Sane c t :=
  ⟨h.formed, hs.visible, h.index ▸ hs.bound, fun hb => (h.guards.braces hb).elim hs.braces id,
    h.guards.isModule ▸ hs.opens⟩

theorem ready (h : Alike c s t) (hs : Ready c s) : Ready c t := by
  refine { h.sane hs.toSane with
    found := ?_, rests := ?_, noted := fun hc => ?_, remarked := fun hwhole => ?_ }
  · rw [h.lookahead, h.startMark, h.index]
    exact hs.found
  · rw [h.guards.isModule, h.startMark]
    exact hs.rests
  · rw [h.lookahead, h.startMark, h.index, h.tokens]
    have hnoted := hs.noted hc
    split
    · next heof => exact h.noted (by rwa [if_pos heof] at hnoted)
    · next hne =>
      rw [if_neg hne] at hnoted
      obtain ⟨ts, stop, hranges, hts, hstop⟩ := hnoted
      exact ⟨ts, stop, hranges, h.noted hts, hstop⟩
  · rw [h.startMark]
    exact h.remarked (hs.remarked hwhole)

theorem tagged (h : Alike c s t) (hs : Tagged c s) : Tagged c t :=
  { h.sane hs.toSane with
    jsx := hs.jsx
    noted := fun hc => by
      rw [h.index, h.tokens]
      exact h.noted (hs.noted hc)
    remarked := fun hwhole => h.index ▸ h.remarked (hs.remarked hwhole) }

theorem holds (h : Alike c s t) {k : Mode} (hs : k.Holds c s) : k.Holds c t := by
  cases k with
  | code => exact h.ready hs
  | markup => exact h.tagged hs

omit [Extent c] in
theorem left (h : Alike c s t) (k : Mode) : k.left c t = k.left c s := by
  cases k with
  | code => rw [Mode.left, h.startMark, Mode.left]
  | markup => rw [Mode.left, h.index, Mode.left]

end Alike

variable [Extent c]

theorem Mode.Holds.sane {k : Mode} (h : k.Holds c s) : Sane c s := by
  cases k with
  | code => exact Ready.toSane h
  | markup => exact Tagged.toSane h

/-- A step that reads nothing, and refuses the source if it fails. -/
def Law.calm (c : ParseSetting) [Extent c] (k : Mode) : Law where
  Holds p := ∀ s, k.Holds c s → Meets (Failure.Allowed c) p c s fun _ t => Alike c s t
  pure _ _ h := .refl h.sane.formed
  bind hp hf s h := Meets.bind_iff.2 <| (hp s h).mono fun x t ht => (hf x t (ht.holds h)).mono fun _ _ => ht.trans

abbrev Calm (c : ParseSetting) [Extent c] (k : Mode) {α : Type} (p : Parse α) : Prop := Obeys (.calm c k) p

namespace Calm

variable {k : Mode} {α β : Type} {p : Parse α} {m : Scan α} {n : Node} {e : SyntaxError} {raw : Value}

theorem out [h : Calm c k p] (s : ParseState) (hs : k.Holds c s) :
    Meets (Failure.Allowed c) p c s fun _ t => Alike c s t :=
  Obeys.out (L := .calm c k) s hs

instance (priority := high) pureSeq [h : Calm c k (f x)] : Calm c k ((Pure.pure x : Parse α) >>= f) := by
  rwa [pure_bind]

/-- A step that changes nothing of what tells where a parse is. -/
theorem ofModify (h : ∀ s, ∃ context errors lastMark, g s = { s with
    context, lastMark, scan := { s.scan with errors } }) : Calm c k (modify g : Parse Unit) := by
  refine ⟨fun s hs => Meets.step_iff.2 ?_⟩
  obtain ⟨context, errors, lastMark, heq⟩ := h s
  rw [heq]
  exact ⟨hs.sane.formed.of_events_eq rfl, rfl, ⟨.inl, rfl⟩, rfl, rfl, rfl, rfl⟩

instance (priority := 50) [u : Expands p q] [h : Calm c k q] : Calm c k p := u.eq ▸ h

instance : Calm c k (get : Parse ParseState) := ⟨fun _ h => .refl h.sane.formed⟩
instance : Calm c k (read : Parse ParseSetting) := ⟨fun _ h => .refl h.sane.formed⟩
instance : Calm c k (setContext f) := ofModify fun s => ⟨f s.context, _, _, rfl⟩
instance : Calm c k markLast := ofModify fun s => ⟨_, _, s.scan.cursor.mark, rfl⟩
instance : Calm c k (fail e : Parse α) := ⟨fun _ _ => Meets.throw_iff.2 trivial⟩

instance : Calm c k (forgive e) := by
  have hrecord : Calm c k (modify fun s =>
      { s with scan := { s.scan with errors := s.scan.errors.push e } } : Parse Unit) :=
    ofModify fun s => ⟨_, s.scan.errors.push e, _, rfl⟩
  unfold forgive
  infer_instance

theorem ofFinish (hform : form ≠ "") (hkind : kind ≠ .lineComment ∧ kind ≠ .blockComment) :
    Calm c k (finish start (.ofKind form kind fields)) := by
  refine ⟨fun s h => ?_⟩
  have hformed : Ensures (finish start (.ofKind form kind fields)) c s fun _ t => Formed c t :=
    h.sane.formed.ensures_finish (Derives.loggable_ofKind hform hkind)
  refine ((meets_finish h.sane.formed.idle hkind).and_ensures hformed).mono fun _ t hfinish => ?_
  obtain ⟨⟨events, hremarks, rfl⟩, hformed⟩ := hfinish
  exact ⟨hformed, rfl, .refl _ _, rfl, rfl, rfl, hremarks⟩

instance [hn : Composed n ks parts] : Calm c k (finish start n) := by
  obtain ⟨form, kind, fields, -, hsignature, rfl, -⟩ := hn.out
  obtain ⟨hform, -, hkind, -⟩ := isSignature_iff.1 hsignature
  exact ofFinish hform hkind

instance : Calm c k (finish start (.literal value raw)) :=
  ofFinish (by decide) (by decide)

instance : Calm c k (finish start (.regexLiteral value raw pattern flags)) :=
  ofFinish (by decide) (by decide)

instance [hn : Calm c k (finish (t.startMark 0) n)] : Calm c k (finishFrom t n) := hn

/-! #### Scans -/

/-- A scan that is taken back. -/
theorem ofLookahead (h : ∀ s, k.Holds c s →
    Meets (Failure.Allowed c) m c.toSetting s.scan fun _ t => Scan.Guards c.source s.scan t) :
    Calm c k (scan (Scan.lookahead m)) := by
  refine ⟨fun s hs => ?_⟩
  simp only [Meets.scan_iff, Scan.lookahead, Meets.bind_iff, Meets.step_iff]
  refine (h s hs).mono fun x t ht => ?_
  exact ⟨hs.sane.formed.of_events_eq rfl, rfl, ⟨ht.braces, ht.isModule⟩, rfl, rfl, rfl, rfl⟩

/-- What is behind white space and comments. -/
theorem meets_behind (hs : Sane c s) (h : ∀ t : ScanState, t.cursor.index ≤ c.source.size →
    Scan.Guards c.source s.scan t →
    Meets (Failure.Allowed c) m c.toSetting t fun _ u => Scan.Guards c.source t u) :
    Meets (Failure.Allowed c) (do discard Scan.trivia; m) c.toSetting s.scan
      fun _ t => Scan.Guards c.source s.scan t := by
  simp only [Meets.bind_iff, Meets.discard_iff]
  have htrivia := (Scan.meets_trivia (E := Failure.Allowed c) hs.bound).and_ensures
    (Scan.Guarded.out c.toSetting s.scan)
  exact htrivia.mono fun _ t ht => (h t (ht.1.1.bound hs.bound) ht.2).mono fun _ _ => ht.2.trans

instance : Calm c k peekBeyond :=
  ofLookahead fun _ h => meets_behind h.sane fun _ hbound ht =>
    (Scan.meets_lex_found h.sane.visible hbound fun hb => (ht.braces hb).elim h.sane.braces id).mono
      fun _ _ hu => hu.2

instance : Calm c .markup Grammar.peekMarkup :=
  ofLookahead fun _ h => meets_behind (Mode.Holds.sane h) fun t hbound _ =>
    ((Scan.meets_markupLex (Failure.Allowed.entityFaults (Tagged.jsx h)) hbound).and_ensures
      (Scan.Guarded.out c.toSetting t)).mono fun _ _ hu => hu.2

instance : Calm c k (scan Scan.atEnd) := by
  refine ⟨fun s h => ?_⟩
  exact .refl h.sane.formed

instance : Calm c k (scan (Scan.peek 0)) := by
  refine ⟨fun s h => ?_⟩
  rw [Meets.scan_iff, Scan.meets_peekHere h.sane.bound]
  exact .refl h.sane.formed

end Calm

theorem Ready.withContext (h : Ready c s) (context : Context) : Ready c { s with context } :=
  Alike.ready (Calm.out (k := .code) (p := setContext fun _ => context) s h) h

/-! ### Steps that read tokens -/

theorem Ready.meets_next (h : Ready c s) : Meets (Failure.Allowed c) next c s fun t u => Ready c u
    ∧ Mode.code.left c u ≤ Mode.code.left c s
    ∧ (t.lexeme ≠ .eof → Mode.code.left c u < Mode.code.left c s)
    ∧ t = s.lookahead ∧ u.context = s.context := by
  refine (EcmaSyntax.meets_next h.toSane h.noted_cursor h.remarked_cursor).mono fun t u hnext => ?_
  obtain ⟨hu, ht, hle, -, hcontext⟩ := hnext
  have hstart := h.found.le
  have hbound := h.bound
  refine ⟨hu, ?_, fun hne => ?_, ht, hcontext⟩
  · simp only [Mode.left]
    omega
  · have hlt := h.found.lt (ht ▸ hne)
    simp only [Mode.left]
    omega

/-- From markup back to code. -/
theorem Tagged.meets_skip (h : Tagged c s) : Meets (Failure.Allowed c) skip c s fun _ u =>
    Ready c u ∧ Mode.code.left c u ≤ Mode.markup.left c s := by
  rw [skip, Meets.discard_iff]
  refine (EcmaSyntax.meets_next h.toSane h.noted h.remarked).mono fun _ u hnext => ?_
  obtain ⟨hu, -, hle, -⟩ := hnext
  refine ⟨hu, ?_⟩
  simp only [Mode.left]
  omega

omit [Extent c] in
/-- Where no white space and no comment is, nothing is passed over. -/
theorem meets_passTrivia_resting (hbound : s.scan.cursor.index ≤ c.source.size)
    (h : Scan.Resting c.source s.scan.isModule s.scan.cursor.index) :
    Meets E passTrivia c s fun _ u => u = s := by
  rw [passTrivia, Meets.bind_iff, Meets.scan_iff]
  refine (Scan.meets_trivia_resting hbound h).mono fun xs t ⟨hxs, ht⟩ => ?_
  rw [hxs, ht, List.forIn_nil, Meets.step_bind, Meets.step_iff]

/-- Without its record, the lookahead is not read yet. -/
theorem Ready.noted_pop (h : Ready c s) (hne : s.lookahead.lexeme ≠ .eof) (hc : c.Faithful) :
    Noted c.source s.events (rangesOf s.tokens).dropLast s.startMark.index := by
  have hnoted := h.noted hc
  rw [if_neg hne] at hnoted
  obtain ⟨ts, stop, hts, hnoted, -⟩ := hnoted
  rwa [hts, List.dropLast_concat]

/-- A slash that is read again as a regular expression: it stands where the lookahead starts, unless
that is hidden. -/
theorem meets_regex_found (hbound : v.cursor.index ≤ r.source.size) [Refusing E]
    (h : r.source.char v.cursor.index ≠ 0x2f → E (.fault .unmetCondition)) :
    Meets E Scan.regex r v fun t w => v.cursor.index < w.cursor.index ∧ w.cursor.index ≤ r.source.size
      ∧ t.start = v.cursor.index ∧ t.stop = w.cursor.index ∧ Scan.Guards r.source v w := by
  by_cases hslash : r.source.char v.cursor.index = 0x2f
  · refine ((Scan.meets_regex hslash).and_ensures (Scan.Guarded.out r v)).mono fun t w ⟨hlexed, hguards⟩ => ?_
    exact ⟨hlexed.lt, hlexed.moves.bound hbound, hlexed.start, hlexed.stop, hguards⟩
  · simp only [Scan.regex, Scan.regexBody, Meets.bind_iff, Meets.step_iff, Scan.meets_peekHere hbound, Scan.require,
      hslash, decide_false, Bool.false_eq_true, if_false, Meets.throw_iff]
    exact h hslash

theorem Ready.meets_nextRegex (h : Ready c s) (hslash : s.lookahead.lexeme.isSlash) :
    Meets (Failure.Allowed c) (do scan (Scan.setIndex s.startMark.index); nextRegex) c s fun _ u =>
      Ready c u ∧ Mode.code.left c u < Mode.code.left c s := by
  have hne : s.lookahead.lexeme ≠ .eof := fun heof => by
    rw [heof] at hslash
    cases hslash
  have hlt := h.found.lt hne
  have hbound := h.bound
  simp only [nextRegex, Meets.bind_iff, Meets.scan_iff, Meets.step_iff]
  refine (meets_passTrivia_resting (by dsimp only; omega) h.rests).mono fun _ u hu => ?_
  subst hu
  refine (meets_regex_found (by dsimp only; omega) fun hchar => ?_).mono fun t v hread => ?_
  · exact .inr (by simpa [Source.Plain] using mt (h.found.slash hslash) hchar)
  obtain ⟨hv, hvbound, hstart, hstop, hguards⟩ := hread
  simp only [skip, Meets.discard_iff]
  let w : ParseState := { s with
    scan := v, lookahead := t, tokens := s.tokens.pop.push ⟨t, s.startMark, v.cursor.mark⟩ }
  have hsane : Sane c w := h.scanned rfl hvbound ⟨hguards.braces, hguards.isModule⟩
  have hnoted (hc : c.Faithful) : Noted c.source w.events (rangesOf w.tokens) w.scan.cursor.index := by
    rw [rangesOf_push, rangesOf_pop, hstart, hstop]
    exact (h.noted_pop hne hc).token hv
  have hremarked (hwhole : Extent.whole c) : Remarked c w.events w.scan.cursor.index :=
    (h.remarked hwhole).mono (Nat.le_of_lt hv)
  refine (EcmaSyntax.meets_next hsane hnoted hremarked).mono fun _ u hnext => ?_
  obtain ⟨hu, -, hle, -⟩ := hnext
  refine ⟨hu, ?_⟩
  simp only [Mode.left, w] at hv hle ⊢
  omega

theorem Ready.meets_regexLiteral (h : Ready c s) (hslash : s.lookahead.lexeme.isSlash) :
    Meets (Failure.Allowed c) Grammar.regexLiteral c s fun _ u =>
      Ready c u ∧ Mode.code.left c u < Mode.code.left c s := by
  unfold Grammar.regexLiteral
  rw [Meets.step_bind, Meets.bind_iff]
  refine (Calm.out (k := .code) s h).mono fun _ u hu => ?_
  have hnext := (hu.ready h).meets_nextRegex (hu.lookahead ▸ hslash)
  rw [hu.startMark, hu.left .code, Meets.bind_iff] at hnext
  refine Meets.bind_iff.2 (hnext.mono fun _ v hv => Meets.bind_iff.2 (hv.mono fun t w hw => ?_))
  split
  · exact (Calm.out (k := .code) w hw.1).mono fun _ _ hx => ⟨hx.ready hw.1, hx.left .code ▸ hw.2⟩
  · exact meets_unexpected

/-- A token that stands later, in place of the one that was looked at. -/
theorem Token.Found.earlier (h : t.Found src k j) (hik : i ≤ k)
    (hplain : src.Plain ∨ 0 < i → k = i) (hk : k < src.size) (hsub : src.HasSubstitution) : t.Found src i j where
  le := Nat.le_trans hik h.le
  lt hne := Nat.lt_of_le_of_lt hik (h.lt hne)
  bound := h.bound
  ended heof := absurd (h.ended heof) (Nat.ne_of_lt hk)
  place hc := hplain hc ▸ h.place (hplain hc ▸ hc)
  brace hb := by
    obtain ⟨m, hm, hj, hchar, hstart⟩ := h.brace hb
    exact ⟨m, Nat.le_trans hik hm, hj, hchar, fun hc => (hstart (hplain hc ▸ hc)).trans (hplain hc)⟩
  closing _ hnone := absurd hsub hnone
  slash hs hc := hplain (.inl hc) ▸ h.slash hs hc
  template := h.template

/-- The lookahead was a brace and is now a chunk that starts with it; the record is that of the brace. -/
theorem Ready.noted_resumed (h : Ready c s) (hbrace : s.lookahead.lexeme.isMark "\x7d")
    (hsub : c.source.HasSubstitution) (hj : s.startMark.index < j)
    (hends : Scan.EndsChunk c.source j) (hc : c.Faithful) :
    ∃ ts stop, rangesOf s.tokens = ts ++ [(s.startMark.index, stop)] ∧ Noted c.source s.events ts s.startMark.index
      ∧ (stop = j ∨ stop = s.startMark.index + 1 ∧ c.source.Resumed s.startMark.index j) := by
  have hne : s.lookahead.lexeme ≠ .eof := fun heof => by
    rw [heof] at hbrace
    cases hbrace
  obtain ⟨k, -, hcursor, hchar, hplain⟩ := h.found.brace hbrace
  obtain rfl := hplain (.inl hc.plain)
  have hnoted := h.noted hc
  rw [if_neg hne] at hnoted
  obtain ⟨ts, stop, hranges, hts, hstop⟩ := hnoted
  have hstop : stop = s.startMark.index + 1 := hstop.elim (·.trans hcursor) And.left
  refine ⟨ts, stop, hranges, hts, ?_⟩
  by_cases heq : stop = j
  · exact .inl heq
  · exact .inr ⟨hstop, hsub, hchar, by omega, hends⟩

theorem Ready.meets_resumeTemplate (h : Ready c s) : Meets (Failure.Allowed c) Grammar.resumeTemplate c s fun _ u =>
      Ready c u ∧ Mode.code.left c u = Mode.code.left c s := by
  simp only [Grammar.resumeTemplate, Meets.bind_iff, Meets.step_iff, Meets.ite_iff, Bool.and_eq_true,
    List.contains_iff_mem, Meets.scan_iff]
  refine ⟨fun hends => ?_, fun _ => ⟨h, trivial⟩⟩
  obtain ⟨hbrace, hopen⟩ := hends
  have hsub := h.braces hopen
  obtain ⟨k, hk, hcursor, hchar, hplain⟩ := h.found.brace hbrace
  have hbound := h.bound
  rw [hcursor, Nat.add_sub_cancel]
  refine ((Scan.meets_lex_found h.visible (by dsimp only; omega) fun _ => hsub).and_ensures
    (Scan.ensures_lex_resumed hchar rfl)).mono fun t u hread => ⟨?_, rfl⟩
  obtain ⟨⟨hfound, hguards⟩, hends⟩ := hread
  have hne : t.lexeme ≠ .eof := fun heof => by
    have hended := hfound.ended heof
    dsimp only at hended
    omega
  refine ⟨h.scanned rfl hfound.bound ⟨fun _ => .inr hsub, hguards.isModule⟩,
    hfound.earlier hk hplain (by dsimp only; omega) hsub, ?_, fun hc => ?_, h.remarked⟩
  · rw [hguards.isModule]
    exact h.rests
  · rw [if_neg hne]
    exact h.noted_resumed hbrace hsub (Nat.lt_of_le_of_lt hk (hfound.lt hne)) hends hc

/-! ### Markup -/

theorem Ready.meets_enterMarkup (h : Ready c s) (hjsx : c.jsx) (hne : s.lookahead.lexeme ≠ .eof) :
    Meets (Failure.Allowed c) (do unrecord; Grammar.enterMarkup) c s fun _ u =>
      Tagged c u ∧ Mode.markup.left c u = Mode.code.left c s := by
  have hbound := Nat.le_trans h.found.le h.bound
  refine ⟨⟨h.scanned rfl hbound ⟨.inl, rfl⟩, hjsx, fun hc => ?_, h.remarked⟩, rfl⟩
  rw [rangesOf_pop]
  exact h.noted_pop hne hc

theorem Tagged.meets_trivia (h : Tagged c s) : Meets (Failure.Allowed c) passTrivia c s fun _ u =>
      Tagged c u ∧ Mode.markup.left c u ≤ Mode.markup.left c s := by
  refine (meets_passTrivia h.toSane).mono fun _ u hu => ?_
  have htokens : u.tokens = s.tokens := by rw [hu.frame]
  refine ⟨⟨hu.sane, h.jsx, fun hc => htokens ▸ hu.noted hc _ (h.noted hc), fun hwhole =>
    hu.remarked (h.remarked hwhole)⟩, ?_⟩
  have hle := hu.le
  simp only [Mode.left]
  omega

/-- What was read in a tag. -/
structure TagRead (c : ParseSetting) (s : ParseState) (t : Token) (u : ParseState) : Prop where
  marked : Scan.Marked c.source s.scan.cursor u.scan.cursor t
  guards : Scan.Guards c.source s.scan u.scan
  place : c.source.Plain ∨ 0 < s.scan.cursor.index → (t.start = s.scan.cursor.index ∧ t.stop = u.scan.cursor.index)
    ∧ (t.lexeme.isMark "\x7d" → c.source.char s.scan.cursor.index = 0x7d
      ∧ u.scan.cursor.index = s.scan.cursor.index + 1)
  frame : u = { s with
    scan := u.scan, startMark := s.scan.cursor.mark, lastMark := u.scan.cursor.mark }

theorem meets_markToken (hs : Sane c s) (hjsx : c.jsx) :
    Meets (Failure.Allowed c) (Grammar.markToken Scan.markupLex) c s fun t u => TagRead c s t u := by
  have hmarkup := Scan.meets_markupLex (Failure.Allowed.entityFaults hjsx) hs.bound
  simp only [Grammar.markToken, Meets.bind_iff, Meets.step_iff, Meets.scan_iff]
  refine (hmarkup.and_ensures ((Scan.Guarded.out c.toSetting s.scan).and
    fun t u hu hplain => Scan.ensures_markupLex_place hplain t u hu)).mono fun t u hread => ?_
  obtain ⟨hmarked, hguards, hplace⟩ := hread
  exact ⟨hmarked, hguards, hplace, rfl⟩

/-- Behind white space and comments, a token of markup was read and recorded. -/
theorem Passes.tagged {u v : ParseState} (h : Passes c s u) (hs : Tagged c s)
    (hbound : v.scan.cursor.index ≤ c.source.size) (hguards : Scan.Guards c.source u.scan v.scan)
    (hlt : u.scan.cursor.index < v.scan.cursor.index)
    (hplace : c.source.Plain → t.start = u.scan.cursor.index ∧ t.stop = v.scan.cursor.index)
    (hframe : v.tokens = u.tokens ∧ v.events = u.events) :
    Tagged c { v with tokens := v.tokens.push ⟨t, span⟩ }
      ∧ Mode.markup.left c { v with tokens := v.tokens.push ⟨t, span⟩ } < Mode.markup.left c s := by
  refine ⟨⟨h.sane.scanned hframe.2 hbound hguards, hs.jsx, fun hc => ?_, fun hwhole => ?_⟩, ?_⟩
  · have hnoted := (h.noted hc (rangesOf s.tokens) (hs.noted hc)).token hlt
    have htokens : v.tokens = s.tokens := by rw [hframe.1, h.frame]
    rw [rangesOf_push, htokens, (hplace hc.plain).1, (hplace hc.plain).2]
    exact hframe.2 ▸ hnoted
  · exact hframe.2 ▸ (h.remarked (hs.remarked hwhole)).mono (Nat.le_of_lt hlt)
  · have hle := h.le
    simp only [Mode.left]
    omega

/-- A token in a tag is read and recorded. The end and a template are refused by all who read them. -/
theorem Tagged.meets_nextMarkup (h : Tagged c s) : Meets (Failure.Allowed c) Grammar.nextMarkup c s fun t u =>
      t.lexeme ≠ .eof → t.lexeme ≠ .templateMark →
        Tagged c u ∧ Mode.markup.left c u < Mode.markup.left c s := by
  rw [Grammar.nextMarkup, Meets.bind_iff]
  refine (meets_passTrivia h.toSane).mono fun _ u hu => ?_
  rw [Meets.bind_iff]
  refine (meets_markToken hu.sane h.jsx).mono fun t v hv => ?_
  intro hend htemplate
  refine hu.tagged h hv.marked.bound hv.guards (hv.marked.lt hend htemplate) (fun hc => (hv.place (.inl hc)).1) ?_
  rw [hv.frame]
  exact ⟨rfl, rfl⟩

theorem Tagged.meets_nextMarkupText (h : Tagged c s) : Meets (Failure.Allowed c) Grammar.nextMarkupText c s fun _ u =>
      Tagged c u ∧ Mode.markup.left c u ≤ Mode.markup.left c s := by
  simp only [Grammar.nextMarkupText, Grammar.markToken, Meets.bind_iff, Meets.step_iff, Meets.scan_iff]
  refine ((Scan.meets_markupText h.bound).and_ensures ((Scan.Guarded.out c.toSetting s.scan).and
    (Scan.ensures_markupText h.bound))).mono fun t v hread => ?_
  obtain ⟨hmoves, hguards, hstart, hstop, htext⟩ := hread
  have hle := hmoves.le
  have hbound := hmoves.bound h.bound
  have hleft : c.source.size - v.cursor.index ≤ c.source.size - s.scan.cursor.index := by omega
  have hremarked (hwhole : Extent.whole c) : Remarked c s.events v.cursor.index :=
    (h.remarked hwhole).mono hle
  split
  · next hempty =>
    rw [if_pos hempty] at htext
    refine ⟨⟨h.scanned rfl hbound hguards, h.jsx, fun hc => ?_, hremarked⟩, hleft⟩
    exact htext ▸ h.noted hc
  · next hne =>
    rw [if_neg hne] at htext
    refine ⟨⟨h.scanned rfl hbound hguards, h.jsx, fun hc => ?_, hremarked⟩, hleft⟩
    rw [rangesOf_push, hstart, hstop]
    exact (h.noted hc).token htext

/-- From code back to markup. The brace that ends the code is read a second time. -/
theorem Ready.meets_reenterMarkup (h : Ready c s) (hjsx : c.jsx) :
    Meets (Failure.Allowed c) Grammar.reenterMarkup c s fun _ u =>
      Tagged c u ∧ Mode.markup.left c u ≤ Mode.code.left c s := by
  have hbound := Nat.le_trans h.found.le h.bound
  simp only [Grammar.reenterMarkup, Grammar.enterMarkup, Meets.bind_iff, Meets.step_iff, Meets.scan_iff,
    Grammar.expectMarkup, Grammar.nextMarkup]
  refine (meets_passTrivia_resting hbound h.rests).mono fun _ u hu => ?_
  have hsane : Sane c u := by
    subst hu
    exact h.scanned rfl hbound ⟨.inl, rfl⟩
  refine (meets_markToken hsane hjsx).mono fun t v hv => ?_
  simp only [Meets.step_iff, Meets.ite_iff, Array.pop_push]
  refine ⟨fun hbrace => ?_, fun _ => meets_unexpected⟩
  have htokens : v.tokens = s.tokens ∧ v.events = s.events := by
    rw [hv.frame, hu]
    exact ⟨rfl, rfl⟩
  have hindex : u.scan.cursor.index = s.startMark.index := by rw [hu]
  refine ⟨⟨hsane.scanned (by rw [htokens.2, hu]) hv.marked.bound hv.guards, hjsx, fun hc => ?_, fun hwhole => ?_⟩, ?_⟩
  · obtain ⟨hchar, hstop⟩ := (hv.place (.inl hc.plain)).2 hbrace
    rw [hindex] at hchar hstop
    have hcursor := h.found.closing hchar (hc.unsubstituted hjsx)
    rw [hstop, ← hcursor, htokens.1, htokens.2]
    exact h.noted_cursor hc
  · rw [htokens.2]
    exact (h.remarked hwhole).mono (hindex ▸ hv.marked.le)
  · have hle := hv.marked.le
    simp only [Mode.left]
    omega

end EcmaSyntax
