import EcmaSyntax.Proofs.Failing

/-!
# Attaching comments

Comments are attached after the fact (`Comments.attach`), and the report puts them among the attributes
of nodes. So a tree with its comments is the tree without them, once `Value.prune` has taken these
attributes away (`Report.prune_reveal_comments`).

What can go wrong is an empty block that takes its comments off both lists of waiting comments, while
the list of those that may trail a node is the shorter one. That list only falls behind when it is
given up for a node that a comment trails. `Comments.Kept` is the invariant: as long as no comment has
trailed a node, no list is the shorter one, and each comment in the other list still waits for a node to
lead. So a run in which nothing of that kind clashes with an empty block (`Comments.Clash`) is read with
its comments just as without (`Program.commentless_run_of_attaching`).
-/

namespace EcmaSyntax

variable {f : Fault} {stop k : Nat} {inner : List CommentEntry} {t : State} {found : Array NodeComments}

namespace Report

variable {r : Report}

/-- Is this the name of an attribute for the comments of a node? -/
def isCommentName (name : String) : Bool := name ∈ commentNames

theorem projectIn_commentsOf {f : Value → Value} :
    Node.projectIn (!isCommentName ·) f (r.commentsOf serial) = [] := by
  refine List.filterMap_eq_nil_iff.2 fun p hp => ?_
  simp [isCommentName, (mem_commentsOf hp).1]

/-- **Apart from the comments of nodes**, a tree does not depend on which comments are attached. -/
theorem prune_reveal_comments (v : Value) :
    ({ r with comments := found }.reveal v).prune isCommentName = (r.reveal v).prune isCommentName := by
  have h : AgreesApart isCommentName { r with comments := found } r :=
    ⟨fun _ => rfl, fun _ => projectIn_commentsOf.trans projectIn_commentsOf.symm⟩
  exact prune_reveal h v

end Report

/-! ### Comments that wait for a node -/

namespace Comments

/-- Is an event the end of a node that comments may be attached to? -/
def isNode (e : Event) : Bool := !isComment e.taken && !(e.taken.is .program && e.taken.has "body")

/-- Is an event the end of a block without statements? -/
def isEmptyBlock (e : Event) : Bool :=
  isNode e && e.taken.is .blockStatement && !e.taken.has "body"

/-- A comment as it waits. -/
def entryOf (e : Event) : CommentEntry := ⟨e.taken, e.span⟩

/-- Some comment trails a node: it was met before the node was finished, and starts behind its end. -/
def Trails (es : List Event) : Prop :=
  ∃ l c r, es = l ++ c :: r ∧ isComment c.taken ∧ ∃ n ∈ r, isNode n ∧ n.span.last.index ≤ c.span.first.index

/-- A comment still waits for a node to lead: any node behind it has come after one that starts no
earlier. -/
def Waits (es : List Event) (c : Event) : Prop :=
  ∃ l r, es = l ++ c :: r ∧ isComment c.taken
    ∧ ∀ r₁ n r₂, r = r₁ ++ n :: r₂ → isNode n → c.span.first.index ≤ n.span.first.index →
      ∃ m ∈ l ++ c :: r₁, isNode m ∧ n.span.first.index ≤ m.span.first.index

/-- An empty block is finished after a comment has trailed a node, and while a comment before the end of
the block still waits for a node to lead. -/
def Clash (es : List Event) : Prop :=
  ∃ l b r, es = l ++ b :: r ∧ isEmptyBlock b ∧ Trails l ∧ ∃ c, Waits l c ∧ c.span.first.index ≤ b.span.last.index

variable {es : List Event} {e : Event} {s : State}

theorem Trails.concat (h : Trails es) (e : Event) : Trails (es ++ [e]) := by
  obtain ⟨l, c, r, rfl, hc, n, hn, hrest⟩ := h
  exact ⟨l, c, r ++ [e], by simp, hc, n, List.mem_append_left _ hn, hrest⟩

/-- A node ends before a comment that was met already. -/
theorem Trails.of_mem (hmem : c ∈ es) (hc : isComment c.taken) (he : isNode e)
    (hplace : e.span.last.index ≤ c.span.first.index) : Trails (es ++ [e]) := by
  obtain ⟨l, r, rfl⟩ := List.append_of_mem hmem
  exact ⟨l, c, r ++ [e], by simp, hc, e, by simp, he, hplace⟩

theorem Waits.of_comment (h : isComment e.taken) : Waits (es ++ [e]) e :=
  ⟨es, [], rfl, h, fun r₁ n r₂ hsplit => absurd hsplit (by simp)⟩

/-- A comment goes on waiting, unless it stands before a node and nothing has started there yet. -/
theorem Waits.concat (h : Waits es c) (he : isNode e → c.span.first.index ≤ e.span.first.index →
      ∃ m ∈ es, isNode m ∧ e.span.first.index ≤ m.span.first.index) : Waits (es ++ [e]) c := by
  obtain ⟨l, r, rfl, hc, hall⟩ := h
  refine ⟨l, r ++ [e], by simp, hc, fun r₁ n r₂ hsplit hn hplace => ?_⟩
  -- The node is the new one, or it has come before.
  rcases List.eq_nil_or_concat r₂ with rfl | ⟨r₃, x, rfl⟩
  · obtain ⟨rfl, hlast⟩ := List.append_inj' hsplit rfl
    cases hlast
    exact he hn hplace
  · rw [List.concat_eq_append, ← List.cons_append, ← List.append_assoc] at hsplit
    exact hall r₁ n r₃ (List.append_inj' hsplit rfl).1 hn hplace

/-- What is kept of the events so far. -/
structure Kept (es : List Event) (s : State) : Prop where
  stack : ∀ p ∈ s.stack, ∃ n ∈ es, isNode n ∧ n.span.first.index = p.2
  leading : ∀ x ∈ s.leading, ∃ c, Waits es c ∧ x = entryOf c
  trailing : ∀ x ∈ s.trailing, ∃ c ∈ es, isComment c.taken ∧ x = entryOf c
  length : s.leading.length ≤ s.trailing.length ∨ Trails es

theorem Kept.start : Kept [] .start := ⟨nofun, nofun, nofun, .inl (Nat.le_refl _)⟩

/-- Flags that belong to one list let at least as many items of a longer list through. -/
theorem length_filter_le_length_zip (p : CommentEntry → Bool) (xs ys : List CommentEntry)
    (more : List Bool) (h : xs.length ≤ ys.length) :
    (xs.filter p).length ≤ (((xs.map p ++ more).zip ys).filter (·.1)).length := by
  induction xs generalizing ys with
  | nil => exact Nat.zero_le _
  | cons x xs ih =>
    obtain _ | ⟨y, ys⟩ := ys
    · cases h
    · have hrest := ih ys (by simpa using h)
      by_cases hx : p x <;> simpa [hx] using hrest

/-- An empty block leaves the list of comments that may trail a node the longer one. -/
theorem length_takeInner (hlength : s.leading.length ≤ s.trailing.length) (h : takeInner s stop = .ok (inner, t)) :
    t.leading.length ≤ t.trailing.length := by
  unfold takeInner at h
  dsimp only at h
  split at h
  · cases h
  · cases h
    rw [List.length_map]
    exact length_filter_le_length_zip _ _ _ _ hlength

/-- Comments of an empty block are missing from the list of those that may trail a node. -/
theorem length_lt_of_takeInner (h : takeInner s stop = .error f) :
    s.trailing.length < s.leading.length ∧ ∃ x ∈ s.leading, x.span.first.index ≤ stop := by
  unfold takeInner at h
  dsimp only at h
  split at h
  · next hshort =>
    rw [← List.map_drop, List.contains_iff_mem, List.mem_map] at hshort
    obtain ⟨x, hx, hinner⟩ := hshort
    refine ⟨?_, x, List.mem_of_mem_drop hx, by simpa using hinner⟩
    by_contra hlength
    rw [List.drop_eq_nil_of_le (Nat.le_of_not_lt hlength)] at hx
    cases hx
  · cases h

/-- The nodes that start behind an offset are on top of the stack. -/
theorem popFrom_spec (start : Nat) (stack : List (Nat × Nat)) (target : Option Nat) :
    (popFrom start stack target).2 ⊆ stack
      ∧ ((popFrom start stack target).1.isSome → target.isSome ∨ ∃ p ∈ stack, start ≤ p.2) := by
  fun_induction popFrom start stack target with
  | case1 target => exact ⟨List.Subset.refl _, .inl⟩
  | case2 target k first rest hstart ih =>
    exact ⟨List.subset_cons_of_subset _ ih.1, fun _ => .inr ⟨_, List.mem_cons_self, hstart⟩⟩
  | case3 target k first rest hstart => exact ⟨List.Subset.refl _, .inl⟩

/-- Looking for comments that trail a node only empties the list of those that may. -/
theorem findTrailing_spec (s : State) (stop : Nat) :
    (findTrailing s stop).2.stack = s.stack ∧ (findTrailing s stop).2.leading = s.leading
      ∧ ((findTrailing s stop).2.trailing = s.trailing
        ∨ (findTrailing s stop).2.trailing = [] ∧ ∃ x ∈ s.trailing, stop ≤ x.span.first.index) := by
  unfold findTrailing
  split
  · dsimp only
    split
    · exact ⟨rfl, rfl, .inl rfl⟩
    · next hfound =>
      obtain ⟨x, hx⟩ := List.exists_mem_of_ne_nil _ (mt List.isEmpty_iff.2 hfound)
      obtain ⟨hmem, hplace⟩ := List.mem_filter.1 hx
      exact ⟨rfl, rfl, .inr ⟨rfl, x, hmem, by simpa using hplace⟩⟩
  · split
    · exact ⟨rfl, rfl, .inl rfl⟩
    · dsimp only
      split
      · exact ⟨rfl, rfl, .inl rfl⟩
      · split <;> exact ⟨rfl, rfl, .inl rfl⟩

/-- A comment that still waits after a node was given its own is behind the start of the node, or
something has started there before. -/
theorem findLeading_spec (s : State) (start : Nat) :
    (findLeading s start).2.trailing = s.trailing ∧ (findLeading s start).2.stack ⊆ s.stack
      ∧ (findLeading s start).2.leading.Sublist s.leading
      ∧ ∀ x ∈ (findLeading s start).2.leading, x.span.first.index ≤ start → ∃ p ∈ s.stack, start ≤ p.2 := by
  obtain ⟨hstack, htarget⟩ := popFrom_spec start s.stack none
  unfold findLeading
  split
  · next k stack hpop =>
    rw [hpop] at hstack htarget
    refine ⟨rfl, hstack, List.Sublist.refl _, fun x hx hplace => ?_⟩
    exact (htarget rfl).resolve_left Bool.false_ne_true
  · next stack hpop =>
    rw [hpop] at hstack
    refine ⟨rfl, hstack, List.filter_sublist, fun x hx hplace => ?_⟩
    have hbehind := (List.mem_filter.1 hx).2
    simp [hplace] at hbehind

/-- A node is finished and given its comments. -/
theorem Kept.finish (h : Kept es s) (he : isNode e) : Kept (es ++ [e])
      (let trailing := findTrailing s e.span.last.index
        let leading := findLeading trailing.2 e.span.first.index
        { leading.2 with
          found := leading.2.found.setIfInBounds k ⟨e.taken.serial, inner, leading.1, trailing.1⟩
          stack := (k, e.span.first.index) :: leading.2.stack }) := by
  obtain ⟨htstack, htleading, httrailing⟩ := findTrailing_spec s e.span.last.index
  obtain ⟨hltrailing, hlstack, hlleading, hbehind⟩ :=
    findLeading_spec (findTrailing s e.span.last.index).2 e.span.first.index
  rw [htstack] at hlstack hbehind
  rw [htleading] at hlleading
  refine ⟨fun p hp => ?_, fun x hx => ?_, fun x hx => ?_, ?_⟩
  · rcases List.mem_cons.1 hp with rfl | hp
    · exact ⟨e, by simp, he, rfl⟩
    · obtain ⟨n, hn, hrest⟩ := h.stack p (hlstack hp)
      exact ⟨n, List.mem_append_left _ hn, hrest⟩
  · obtain ⟨c, hc, rfl⟩ := h.leading x (hlleading.subset hx)
    refine ⟨c, hc.concat fun _ hplace => ?_, rfl⟩
    obtain ⟨p, hp, hstart⟩ := hbehind _ hx hplace
    obtain ⟨n, hn, hnode, hfirst⟩ := h.stack p hp
    exact ⟨n, hn, hnode, hfirst ▸ hstart⟩
  · rw [hltrailing] at hx
    rcases httrailing with hsame | ⟨hempty, -⟩
    · rw [hsame] at hx
      obtain ⟨c, hc, hrest⟩ := h.trailing x hx
      exact ⟨c, List.mem_append_left _ hc, hrest⟩
    · rw [hempty] at hx
      cases hx
  · rcases h.length with hlength | htrails
    · rcases httrailing with hsame | ⟨-, x, hx, hplace⟩
      · refine .inl ?_
        rw [hltrailing, hsame]
        exact Nat.le_trans hlleading.length_le hlength
      · obtain ⟨c, hc, hcomment, rfl⟩ := h.trailing x hx
        exact .inr (.of_mem hc hcomment he hplace)
    · exact .inr (htrails.concat e)

/-- Comments that lie in an empty block are given to it. -/
theorem Kept.takeInner (h : Kept es s) (ht : takeInner s stop = .ok (inner, t)) : Kept es t := by
  have hlength := h.length.imp_left fun hlength => length_takeInner hlength ht
  unfold Comments.takeInner at ht
  dsimp only at ht
  split at ht
  · cases ht
  · cases ht
    refine ⟨h.stack, fun x hx => h.leading x (List.mem_filter.1 hx).1, fun x hx => ?_, hlength⟩
    obtain ⟨p, hp, rfl⟩ := List.mem_map.1 hx
    exact h.trailing _ (List.of_mem_zip (List.mem_filter.1 hp).1).2

/-- A comment is met. -/
theorem Kept.comment (h : Kept es s) (he : isComment e.taken) : Kept (es ++ [e]) { s with
      found
      leading := s.leading ++ [⟨e.taken, e.span⟩]
      trailing := s.trailing ++ [⟨e.taken, e.span⟩] } := by
  have hnode : ¬isNode e := by simp [isNode, he]
  refine ⟨fun p hp => ?_, fun x hx => ?_, fun x hx => ?_, ?_⟩
  · obtain ⟨n, hn, hrest⟩ := h.stack p hp
    exact ⟨n, List.mem_append_left _ hn, hrest⟩
  · rcases List.mem_append.1 hx with hx | hx
    · obtain ⟨c, hc, hrest⟩ := h.leading x hx
      exact ⟨c, hc.concat fun hn => absurd hn hnode, hrest⟩
    · exact ⟨e, .of_comment he, List.mem_singleton.1 hx⟩
  · rcases List.mem_append.1 hx with hx | hx
    · obtain ⟨c, hc, hrest⟩ := h.trailing x hx
      exact ⟨c, List.mem_append_left _ hc, hrest⟩
    · exact ⟨e, by simp, he, List.mem_singleton.1 hx⟩
  · exact h.length.imp (by simp) (·.concat e)

/-- A node that no comments are attached to. -/
theorem Kept.pass (h : Kept es s) (he : ¬isNode e) : Kept (es ++ [e]) { s with found } := by
  refine ⟨fun p hp => ?_, fun x hx => ?_, fun x hx => ?_, h.length.imp_right (·.concat e)⟩
  · obtain ⟨n, hn, hrest⟩ := h.stack p hp
    exact ⟨n, List.mem_append_left _ hn, hrest⟩
  · obtain ⟨c, hc, hrest⟩ := h.leading x hx
    exact ⟨c, hc.concat fun hn => absurd hn he, hrest⟩
  · obtain ⟨c, hc, hrest⟩ := h.trailing x hx
    exact ⟨c, List.mem_append_left _ hc, hrest⟩

theorem Kept.push (h : Kept es s) (c : NodeComments) : Kept es { s with found := s.found.push c } :=
  ⟨h.stack, h.leading, h.trailing, h.length⟩

/-- One event is taken into account. -/
theorem Kept.visit (h : Kept es s) (ht : visit s k e = .ok t) : Kept (es ++ [e]) t := by
  unfold Comments.visit at ht
  split at ht
  · next hcomment =>
    cases ht
    exact h.comment hcomment
  · next hcomment =>
    unfold visitNode at ht
    split at ht
    · next hprogram =>
      cases ht
      exact h.pass (by simp [isNode, hprogram])
    · next hprogram =>
      have hnode : isNode e := by rw [isNode, Bool.eq_false_iff.2 hcomment, Bool.eq_false_iff.2 hprogram]; rfl
      split at ht
      · cases htake : Comments.takeInner { s with found := s.found.push ⟨none, [], [], []⟩ } e.span.last.index with
        | error f => simp [htake, bind, Except.bind] at ht
        | ok x =>
          simp only [htake, bind, Except.bind] at ht
          cases ht
          exact ((h.push _).takeInner htake).finish hnode
      · cases ht
        exact (h.push _).finish hnode

/-- An event that cannot be taken into account is the end of an empty block. -/
theorem Kept.visit_error (h : Kept es s) (hf : Comments.visit s k e = .error f) :
    isEmptyBlock e ∧ Trails es ∧ ∃ c, Waits es c ∧ c.span.first.index ≤ e.span.last.index := by
  unfold Comments.visit at hf
  split at hf
  · cases hf
  unfold visitNode at hf
  split at hf
  · cases hf
  split at hf
  · next hblock =>
    rcases bind_eq_error hf with hinner | ⟨_, _, hrest⟩
    · obtain ⟨hlength, x, hx, hplace⟩ := length_lt_of_takeInner hinner
      obtain ⟨c, hc, rfl⟩ := h.leading x hx
      refine ⟨?_, h.length.resolve_left (Nat.not_le_of_lt hlength), c, hc, hplace⟩
      simp_all [isEmptyBlock, isNode]
    · cases hrest
  · cases hf

/-- Attaching comments fails at an event that clashes with those before it. -/
theorem Kept.visitAll_error (h : Kept es s) (hf : visitAll k s rest = .error f) : Clash (es ++ rest) := by
  induction rest generalizing es s k with
  | nil => cases hf
  | cons e rest ih =>
    rcases bind_eq_error hf with hvisit | ⟨t, ht, hrest⟩
    · obtain ⟨hblock, htrails, hwaits⟩ := h.visit_error hvisit
      exact ⟨es, e, rest, rfl, hblock, htrails, hwaits⟩
    · have hclash := ih (h.visit ht) hrest
      rwa [List.append_assoc, List.singleton_append] at hclash

/-- **Attaching comments only fails where an empty block clashes with comments before it.** -/
theorem clash_of_attach (h : attach events = .error f) : f = .outOfRange ∧ Clash events.toList := by
  refine ⟨attach_error h, ?_⟩
  rcases bind_eq_error h with hvisit | ⟨_, _, hrest⟩
  · exact Kept.start.visitAll_error hvisit
  · cases hrest

end Comments

/-! ### Programs with their comments -/

namespace Program

variable {o o' : Options} {n : Node} {s : ParseState}

/-- A tree without the comments of its nodes. -/
def commentless (p : Program) : Value := p.tree.prune Report.isCommentName

/-- Reports of the same run that only differ in the comments attached. -/
theorem prune_report {t t' : Value} (hn : n.IsProgram) (hsame : { o with attach := o'.attach } = o')
    (ht : report source o found n s = .ok t) (ht' : report source o' #[] n s = .ok t') :
    t.prune Report.isCommentName = t'.prune Report.isCommentName := by
  have hroot : ((reportOf o found).reveal (.node n)).prune Report.isCommentName
      = ((reportOf o #[]).reveal (.node n)).prune Report.isCommentName :=
    Report.prune_reveal_comments (r := reportOf o #[]) (.node n)
  rw [Report.reveal_node fun hform => absurd hform hn.form,
    Report.reveal_node fun hform => absurd hform hn.form, Value.prune_node, Value.prune_node] at hroot
  have hadditions : additions source o (reportOf o found) s = additions source o (reportOf o #[]) s := rfl
  rw [← hsame] at ht'
  rw [report_of_isProgram source _ hn] at ht ht'
  cases ht
  cases ht'
  rw [Value.prune_node, Value.prune_node]
  simp only [Node.project_settle, Node.project_setAll, Value.node_injective hroot, hadditions]
  rfl

/-- A program with comments attached is the program without, unless attaching them fails. -/
theorem commentless_parse (code : Text) (hsame : { o with attach := o'.attach } = o') (hoff : o'.attach = false) :
    (parse code o .idle).map commentless = (parse code o' .idle).map commentless
      ∨ parse code o .idle = .error (.fault .outOfRange)
        ∧ Comments.Clash (lastState (read (.ofText code) o .idle)).events.toList := by
  have hread : read (.ofText code) o' .idle = read (.ofText code) o .idle := by
    rw [← hsame]
    rfl
  have hformed := formed_read (.ofText code) o
  have hcomments {s : ParseState} (hformed : Formed (setting (.ofText code) o .idle) s) :
      (∃ found, commentsOf o s = .ok found)
        ∨ commentsOf o s = .error (.fault .outOfRange) ∧ Comments.Clash s.events.toList := by
    cases hattach : o.attach with
    | false => exact .inl ⟨_, commentsOf_of_formed hformed hattach⟩
    | true =>
      have heq : commentsOf o s = (Comments.attach s.events).mapError .fault := by
        simp [commentsOf, not_any_isStandIn hformed, hattach]
      cases hfound : Comments.attach s.events with
      | ok found => exact .inl ⟨found, by rw [heq, hfound]; rfl⟩
      | error f =>
        obtain ⟨rfl, hclash⟩ := Comments.clash_of_attach hfound
        exact .inr ⟨by rw [heq, hfound]; rfl, hclash⟩
  unfold parse
  simp only [hread]
  cases hrun : read (.ofText code) o .idle with
  | ok n s =>
    rw [hrun] at hformed
    have hn : n.IsProgram := ensures_program rfl n s hrun
    dsimp only
    rw [commentsOf_of_formed (s := s) hformed hoff]
    rcases hcomments (s := s) hformed with ⟨found, hfound⟩ | ⟨hfault, hclash⟩
    · rw [hfound]
      refine .inl ?_
      simp only [report_of_isProgram _ _ hn]
      exact congrArg Except.ok (prune_report hn hsame (report_of_isProgram _ _ hn) (report_of_isProgram _ _ hn))
    · exact .inr ⟨by rw [hfault]; rfl, hclash⟩
  | error e s =>
    rw [hrun] at hformed
    dsimp only
    rw [commentsOf_of_formed (s := s) hformed hoff]
    rcases hcomments (s := s) hformed with ⟨found, hfound⟩ | ⟨hfault, hclash⟩
    · exact .inl (by rw [hfound]; rfl)
    · exact .inr ⟨by rw [hfault]; rfl, hclash⟩

/-- **Attaching comments does not change what is read**, nor the tree apart from them: the source is
refused in the same way, or the trees are the same without the comments of their nodes. Only where an
empty block clashes with comments that wait is nothing read. -/
theorem commentless_run_of_attaching (e : EntryPoint) (code : Text) (o o' : OptionList)
    (h : ∀ name, name ≠ "attachComment" → o.get? name = o'.get? name)
    (hoff : o'.flag "attachComment" = false) :
    (run e code o .idle).map commentless = (run e code o' .idle).map commentless
      ∨ run e code o .idle = .error (.fault .outOfRange) ∧ ∃ a, Options.preset (e.options o) = .ok a
          ∧ Comments.Clash (lastState (read (.ofText code) a .idle)).events.toList := by
  have hoptions (name : String) (hname : name ≠ "attachComment") :
      (e.options o).get? name = (e.options o').get? name :=
    e.get?_options_congr (h name hname)
  unfold run
  rw [Options.preset_eq_map fun name hname => hoptions name (by revert name; decide)]
  cases hp : Options.preset (e.options o) with
  | error f => exact .inl rfl
  | ok a =>
    have ha := Options.withFlags_of_preset hp
    have hsame : { a with attach := (a.withFlags (e.options o')).attach } = a.withFlags (e.options o') := by
      rw [← ha]
      simp (disch := decide) only [Options.withFlags, OptionList.flag, hoptions]
    have hattach : (a.withFlags (e.options o')).attach = false := by
      rw [← hoff, ← e.flag_options (by decide)]
      rfl
    rcases commentless_parse code hsame hattach with heq | ⟨hfault, hclash⟩
    · exact .inl heq
    · exact .inr ⟨hfault, a, rfl, hclash⟩

/-- A comment that trails a name and leads another one. -/
theorem commentless_run_of_attaching_between_names :
    let o : OptionList := [("attachComment", .bool true)]
    let code : Text := "a /*c*/; b"
    (∀ name, name ≠ "attachComment" → o.get? name = OptionList.get? [] name)
      ∧ OptionList.flag [] "attachComment" = false ∧ (run .parse code o .idle).isOk = true
      ∧ (run .parse code o .idle).map commentless = (run .parse code [] .idle).map commentless := by
  intro o code
  have hoptions (name : String) (hname : name ≠ "attachComment") : o.get? name = OptionList.get? [] name := by
    refine OptionList.get?_eq_none fun p hp => ?_
    rw [List.mem_singleton.1 hp, Bool.eq_false_iff]
    exact fun h => hname (Text.ofString_is.1 h).symm
  have hok : (run .parse code o .idle).isOk = true := by decide +kernel
  refine ⟨hoptions, rfl, hok, ?_⟩
  rcases commentless_run_of_attaching .parse code o [] hoptions rfl with heq | ⟨hfault, -⟩
  · exact heq
  · rw [hfault] at hok
    cases hok

/-- A comment trails a statement, and comes before an empty block: it cannot be attached. -/
theorem attaching_fails_before_empty_block :
    run .parse "a;/**/\x7b\x7d" [("attachComment", .bool true)] .idle = .error (.fault .outOfRange)
      ∧ (run .parse "a;/**/\x7b\x7d" [] .idle).isOk = true :=
  ⟨eq_error_of_failsWith (by decide +kernel), by decide +kernel⟩

end Program

end EcmaSyntax
