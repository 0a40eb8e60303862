import EcmaSyntax.Program.Comments
import Mathlib.Data.List.Perm.Subperm

/-!
# Comments have one owner

While comments are attached they go from the waiting lists to nodes, and from a node to one that is around it. On the way none
is doubled: on each of the two sides, what waits and what nodes hold are comments that were met, each of them at
most as often as it was met (`Comments.subperm_met`).

How often a comment is held is counted, for any test of comments at once. Each step of a visit takes comments away before
it puts them elsewhere, so that counts can be added up along the steps.
-/

namespace EcmaSyntax.Comments

/-- The comments that lead a node or lie in one, and those that may lead a node to come. -/
def State.led (s : State) : List CommentEntry :=
  s.leading ++ s.found.toList.flatMap fun c => c.leading ++ c.inner

/-- The comments that trail a node, and those that may trail a node to come. -/
def State.trailed (s : State) : List CommentEntry := s.trailing ++ s.found.toList.flatMap (·.trailing)

/-- The comments among some events. -/
def met (events : List Event) : List CommentEntry :=
  (events.filter fun e => isComment e.taken).map fun e => ⟨e.taken, e.span⟩

variable {s s' : State} {p : CommentEntry → Bool} {f : NodeComments → List CommentEntry}

/-! ### Steps -/

/-- What a node holds is replaced. A node that is not there holds nothing. -/
theorem countP_replace (hf : f ⟨none, [], [], []⟩ = []) (k : Nat) (c : NodeComments) :
    ((s.found.setIfInBounds k c).toList.flatMap f).countP p + (f (s.of k)).countP p
      ≤ (s.found.toList.flatMap f).countP p + (f c).countP p := by
  rw [State.of, Array.getD_eq_getD_getElem?, ← Array.getElem?_toList, Array.toList_setIfInBounds]
  induction s.found.toList generalizing k with
  | nil => simp [hf]
  | cons d ds ih =>
    cases k with
    | zero =>
      simp only [List.set_cons_zero, List.flatMap_cons, List.countP_append, List.getElem?_cons_zero, Option.getD_some]
      omega
    | succ k =>
      simp only [List.set_cons_succ, List.flatMap_cons, List.countP_append, List.getElem?_cons_succ]
      have := ih k
      omega

theorem countP_takeInner {inner : List CommentEntry} (h : takeInner s stop = .ok (inner, s')) :
    inner.countP p + s'.led.countP p ≤ s.led.countP p ∧ s'.trailed.countP p ≤ s.trailed.countP p := by
  unfold takeInner at h
  dsimp only at h
  split at h
  · cases h
  · cases h
    constructor
    · have hsplit := s.leading.countP_eq_countP_filter_add p fun e => decide (e.span.first.index ≤ stop)
      simp only [State.led, List.countP_append]
      omega
    · refine List.Sublist.countP_le (List.Sublist.append_right ((List.filter_sublist.map _).trans ?_) _)
      rw [List.map_snd_zip (by simp)]

theorem countP_findTrailing (s : State) (stop : Nat) : (findTrailing s stop).2.led.countP p ≤ s.led.countP p
    ∧ (findTrailing s stop).1.countP p + (findTrailing s stop).2.trailed.countP p ≤ s.trailed.countP p := by
  unfold findTrailing
  split
  · have hle := (s.trailing.filter_sublist (p := fun e => decide (stop ≤ e.span.first.index))).countP_le (p := p)
    dsimp only
    split
    · next hempty => simp [List.isEmpty_iff.1 hempty]
    · simp only [State.led, State.trailed, List.countP_append, List.countP_nil]
      omega
  · split
    · simp
    · next k _ _ _ =>
      dsimp only
      split
      · simp
      · next c cs hlast =>
        split
        · have hled := countP_replace (s := s) (p := p) (f := fun c => c.leading ++ c.inner) rfl k
            { s.of k with trailing := [] }
          have htrailed := countP_replace (s := s) (p := p) (f := (·.trailing)) rfl k { s.of k with trailing := [] }
          simp only [State.led, State.trailed, List.countP_append, List.countP_nil] at hled htrailed ⊢
          omega
        · simp

theorem countP_findLeading (s : State) (start : Nat) :
    (findLeading s start).1.countP p + (findLeading s start).2.led.countP p ≤ s.led.countP p
    ∧ (findLeading s start).2.trailed.countP p ≤ s.trailed.countP p := by
  unfold findLeading
  split
  · next k stack _ =>
    have hsplit := (s.of k).leading.countP_eq_countP_filter_add p fun e => decide (e.span.last.index ≤ start)
    let rest : NodeComments :=
      { s.of k with leading := (s.of k).leading.filter fun e => !decide (e.span.last.index ≤ start) }
    have hled := countP_replace (s := s) (p := p) (f := fun c => c.leading ++ c.inner) rfl k rest
    have htrailed := countP_replace (s := s) (p := p) (f := (·.trailing)) rfl k rest
    simp only [State.led, State.trailed, List.countP_append, rest] at hled htrailed ⊢
    omega
  · have hsplit := s.leading.countP_eq_countP_filter_add p fun e => decide (e.span.first.index ≤ start)
    simp only [State.led, State.trailed, List.countP_append]
    omega

/-! ### Visits -/

/-- What a visit to a node comes to: nothing if it is a program that is not empty; otherwise comments are taken from inside
of it, from behind it and from before it, and it is put on the stack. -/
theorem visitNode_cases (h : visitNode s k n span = .ok s') : (n.is .program && n.has "body") ∧ s' = s
    ∨ (n.is .program && n.has "body") = false
      ∧ ∃ inner t, (takeInner s span.last.index = .ok (inner, t) ∨ inner = [] ∧ t = s)
        ∧ s' = let x := findTrailing t span.last.index; let y := findLeading x.2 span.first.index
          { y.2 with found := y.2.found.setIfInBounds k ⟨n.serial, inner, y.1, x.1⟩
                     stack := (k, span.first.index) :: y.2.stack } := by
  unfold visitNode at h
  split at h
  · next hprogram =>
    cases h
    exact .inl ⟨hprogram, rfl⟩
  next hprogram =>
  refine .inr ⟨Bool.eq_false_iff.2 hprogram, ?_⟩
  split at h
  · cases htake : takeInner s span.last.index with
    | error e => rw [htake] at h; cases h
    | ok x =>
      rw [htake] at h
      cases h
      exact ⟨x.1, x.2, .inl rfl, rfl⟩
  · cases h
    exact ⟨[], s, .inr ⟨rfl, rfl⟩, rfl⟩

theorem countP_visitNode (h : visitNode s k n span = .ok s') :
    s'.led.countP p ≤ s.led.countP p ∧ s'.trailed.countP p ≤ s.trailed.countP p := by
  obtain ⟨-, rfl⟩ | ⟨-, inner, t, htake, hs⟩ := visitNode_cases h
  · exact ⟨Nat.le_refl _, Nat.le_refl _⟩
  have hinner : inner.countP p + t.led.countP p ≤ s.led.countP p ∧ t.trailed.countP p ≤ s.trailed.countP p := by
    obtain htake | ⟨rfl, rfl⟩ := htake
    · exact countP_takeInner htake
    · simp
  have htrailing := countP_findTrailing (p := p) t span.last.index
  have hleading := countP_findLeading (p := p) (findTrailing t span.last.index).2 span.first.index
  dsimp only at hs
  generalize findTrailing t span.last.index = x at hs htrailing hleading
  generalize findLeading x.2 span.first.index = y at hs hleading
  let c : NodeComments := ⟨n.serial, inner, y.1, x.1⟩
  have hled := countP_replace (s := y.2) (p := p) (f := fun c => c.leading ++ c.inner) rfl k c
  have htrailed := countP_replace (s := y.2) (p := p) (f := (·.trailing)) rfl k c
  simp only [hs, State.led, State.trailed, List.countP_append, c] at *
  omega

theorem countP_visit (h : visit s k e = .ok s') : s'.led.countP p ≤ s.led.countP p + (met [e]).countP p
    ∧ s'.trailed.countP p ≤ s.trailed.countP p + (met [e]).countP p := by
  unfold visit at h
  split at h
  · next hcomment =>
    cases h
    simp [State.led, State.trailed, met, hcomment, List.countP_append, List.countP_cons]
    omega
  · next hcomment =>
    have := countP_visitNode (p := p) h
    simpa [State.led, State.trailed, met, hcomment] using this

theorem countP_visitAll (events : List Event) (h : visitAll k s events = .ok s') :
    s'.led.countP p ≤ s.led.countP p + (met events).countP p
    ∧ s'.trailed.countP p ≤ s.trailed.countP p + (met events).countP p := by
  induction events generalizing k s with
  | nil =>
    cases h
    simp
  | cons e es ih =>
    rw [visitAll] at h
    cases hvisit : visit s k e with
    | error f => rw [hvisit] at h; cases h
    | ok t =>
      rw [hvisit] at h
      have hfirst := countP_visit (p := p) hvisit
      have hrest := ih h
      have hmet : (met (e :: es)).countP p = (met [e]).countP p + (met es).countP p := by
        rw [← List.countP_append, ← List.singleton_append, met, List.filter_append, List.map_append]
        rfl
      omega

/-- **A comment is attached at most once on each side.** However nodes and comments come, as long as no visit fails: the comments
that lead nodes, lie in them or wait for it are among those that were met, each one once for each time at most; and so
are those that trail nodes or wait for it. Comments that differ are in none of these places twice. -/
theorem subperm_met (events : List Event) (s : State) (h : visitAll 0 .start events = .ok s) :
    s.led.Subperm (met events) ∧ s.trailed.Subperm (met events) ∧ ((met events).Nodup → s.led.Nodup ∧ s.trailed.Nodup) := by
  classical
  have hled : s.led.Subperm (met events) := List.subperm_ext_iff.2 fun e _ =>
    Nat.le_trans (countP_visitAll events h).1 (by simp [State.start, State.led, List.count])
  have htrailed : s.trailed.Subperm (met events) := List.subperm_ext_iff.2 fun e _ =>
    Nat.le_trans (countP_visitAll events h).2 (by simp [State.start, State.trailed, List.count])
  have hnodup {es : List CommentEntry} (hes : es.Subperm (met events)) (hmet : (met events).Nodup) : es.Nodup := by
    obtain ⟨es', hperm, hsublist⟩ := hes
    exact hperm.nodup_iff.1 (hmet.sublist hsublist)
  exact ⟨hled, htrailed, fun hmet => ⟨hnodup hled hmet, hnodup htrailed hmet⟩⟩

/-- A comment that leads a name is handed on to the statement around it, and another one trails both. -/
theorem subperm_met_of_statement :
    let span (first last : Nat) : Span := ⟨⟨first, 1, first⟩, ⟨last, 1, last⟩⟩
    let comment := Node.make "Comment" [("type", .word "BlockComment")]
    let events := [Event.make .idle 0 true comment (span 0 4), .make .idle 1 false (.make "Identifier" []) (span 4 5),
      .make .idle 2 true comment (span 5 9), .make .idle 3 false (.make "ExpressionStatement" []) (span 4 5)]
    ∃ s, visitAll 0 .start events = .ok s ∧ s.led.length = 2 ∧ s.trailed.length = 1
      ∧ s.led.Subperm (met events) ∧ s.trailed.Subperm (met events) := by
  intro span comment events
  obtain ⟨s, hs, hlength⟩ : ∃ s, visitAll 0 .start events = .ok s ∧ s.led.length = 2 ∧ s.trailed.length = 1 :=
    ⟨_, rfl, rfl, rfl⟩
  have hmet := subperm_met events s hs
  exact ⟨s, hs, hlength.1, hlength.2, hmet.1, hmet.2.1⟩

/-! ### The stack -/

/-- The stack is ordered: a node that is further down starts before those above it. -/
def State.Ordered (s : State) : Prop := s.stack.Pairwise fun above below => below.2 < above.2

/-- As the stack is ordered, it is enough to look at its top to find all nodes that start too late. -/
theorem popFrom_ordered (h : stack.Pairwise fun above below => below.2 < above.2) (target : Option Nat) :
    (popFrom start stack target).2 = stack.filter (·.2 < start) := by
  induction stack generalizing target with
  | nil => rfl
  | cons top rest ih =>
    obtain ⟨hbelow, hrest⟩ := List.pairwise_cons.1 h
    rw [popFrom]
    split
    · next hstart => rw [ih hrest, List.filter_cons_of_neg (by simpa using hstart)]
    · next hstart =>
      refine (List.filter_eq_self.2 (List.forall_mem_cons.2 ⟨by simpa using hstart, fun node hnode => ?_⟩)).symm
      have := hbelow node hnode
      simp
      omega

theorem stack_takeInner {inner : List CommentEntry} (h : takeInner s stop = .ok (inner, s')) : s'.stack = s.stack := by
  unfold takeInner at h
  dsimp only at h
  split at h <;> cases h
  rfl

theorem stack_findTrailing (s : State) (stop : Nat) : (findTrailing s stop).2.stack = s.stack := by
  unfold findTrailing
  repeat' split
  all_goals first | rfl | (dsimp only; repeat' split) <;> rfl

theorem stack_findLeading (s : State) (start : Nat) :
    (findLeading s start).2.stack = (popFrom start s.stack none).2 := by
  unfold findLeading
  split <;> simp [*]

/-- A node takes all nodes off the stack that do not start before it. -/
theorem stack_visit (hs : s.Ordered) (h : visit s k e = .ok s') : s'.stack =
    if isComment e.taken || e.taken.is .program && e.taken.has "body" then s.stack
    else (k, e.span.first.index) :: s.stack.filter (·.2 < e.span.first.index) := by
  unfold visit at h
  split at h
  · next hcomment =>
    cases h
    simp [hcomment]
  next hcomment =>
  obtain ⟨hprogram, rfl⟩ | ⟨hprogram, inner, t, htake, rfl⟩ := visitNode_cases h
  · rw [hprogram, Bool.or_true]
    rfl
  have ht : t.stack = s.stack := by
    obtain htake | ⟨-, rfl⟩ := htake
    · exact (stack_takeInner htake).trans rfl
    · rfl
  simp only [hprogram, Bool.eq_false_iff.2 hcomment, Bool.or_false, Bool.false_eq_true, if_false, stack_findLeading,
    stack_findTrailing, ht, popFrom_ordered hs]

theorem ordered_visit (hs : s.Ordered) (h : visit s k e = .ok s') : s'.Ordered := by
  rw [State.Ordered, stack_visit hs h]
  split
  · exact hs
  · exact List.pairwise_cons.2 ⟨fun node hnode => by simpa using (List.mem_filter.1 hnode).2, hs.filter _⟩

theorem ordered_visitAll (events : List Event) (hs : s.Ordered) (h : visitAll k s events = .ok s') : s'.Ordered := by
  induction events generalizing k s with
  | nil =>
    cases h
    exact hs
  | cons e es ih =>
    rw [visitAll] at h
    cases hvisit : visit s k e with
    | error f => rw [hvisit] at h; cases h
    | ok t =>
      rw [hvisit] at h
      exact ih (ordered_visit hs hvisit) h

/-- **The stack of nodes is ordered.** -/
theorem stack_ordered (events : List Event) (s : State) (h : visitAll 0 .start events = .ok s) :
    s.stack.Pairwise (fun above below => below.2 < above.2) ∧ ∀ k e s', visit s k e = .ok s' → s'.stack =
      if isComment e.taken || e.taken.is .program && e.taken.has "body" then s.stack
      else (k, e.span.first.index) :: s.stack.filter (·.2 < e.span.first.index) := by
  have hs : s.Ordered := ordered_visitAll events (s := .start) List.Pairwise.nil h
  exact ⟨hs, fun k e s' => stack_visit hs⟩

/-- Two operands are on the stack until the operation around them takes them off. -/
theorem stack_ordered_of_operation :
    let span (first last : Nat) : Span := ⟨⟨first, 1, first⟩, ⟨last, 1, last⟩⟩
    let operand := Event.make .idle 0 false (.make "Identifier" [])
    let operation := Event.make .idle 2 false (.make "BinaryExpression" []) (span 4 9)
    ∃ s s', visitAll 0 .start [operand (span 4 5), operand (span 8 9)] = .ok s ∧ s.stack = [(1, 8), (0, 4)]
      ∧ visit s 2 operation = .ok s' ∧ s'.stack = [(2, 4)] := by
  intro span operand operation
  obtain ⟨s, hs, hstack⟩ : ∃ s, visitAll 0 .start [operand (span 4 5), operand (span 8 9)] = .ok s
      ∧ s.stack = [(1, 8), (0, 4)] := ⟨_, rfl, rfl⟩
  obtain ⟨s', hs'⟩ : ∃ s', visit s 2 operation = .ok s' := ⟨_, rfl⟩
  refine ⟨s, s', hs, hstack, hs', ?_⟩
  rw [(stack_ordered _ s hs).2 2 operation s' hs', hstack]
  rfl

end EcmaSyntax.Comments
