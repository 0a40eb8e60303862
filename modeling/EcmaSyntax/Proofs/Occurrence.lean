import EcmaSyntax.Proofs.Reporting

/-!
# Where the nodes of a report come from

`Value.Part` says what a value is made of. Every node in a report with a kind, that is every node of
the syntax tree, is a node that was read, with its place among its attributes (`Report.part_reveal`);
all else that a report adds has no kind. So what holds of all nodes that were read, with respect to the
nodes around them (`View.Holds`), can be told of reports.
-/

namespace EcmaSyntax

variable {m n : Node} {v : Value} {key : String} {k : Nat} {s' : State}

/-! ### The parts of a value -/

/-- What a value is made of. What is said of the place of a node is no part of the node. -/
inductive Value.Part (u : Value) : Value → Prop
  | self : Part u u
  | item {v : Value} {vs : List Value} : v ∈ vs → Part u v → Part u (.list vs)
  | entry {e : Text × Value} {es : List (Text × Value)} : e ∈ es → Part u e.2 → Part u (.dict es)
  | field {form : String} {serial : Option Nat} {span : Option Span}
      {fields extra : List (String × Value)} {f : String × Value} :
    f ∈ fields ++ extra → isPlace f.1 = false → Part u f.2 → Part u (.object form serial span fields extra)

namespace Value.Part

variable {u : Value}

theorem inNode (hf : f ∈ n.fields ++ n.extra) (hplace : isPlace f.1 = false) (h : u.Part f.2) : u.Part (.node n) :=
  .field hf hplace h

theorem of_node (h : u.Part (.node n)) :
    u = .node n ∨ ∃ f ∈ n.fields ++ n.extra, isPlace f.1 = false ∧ u.Part f.2 := by
  generalize hv : Value.node n = v at h
  cases h with
  | self => exact .inl rfl
  | field hf hplace h =>
    cases hv
    exact .inr ⟨_, hf, hplace, h⟩
  | _ => cases hv

theorem trans (h : u.Part v) (h' : v.Part w) : u.Part w := by
  induction h' with
  | self => exact h
  | item hv _ ih => exact .item hv ih
  | entry he _ ih => exact .entry he ih
  | field hf hplace _ ih => exact .field hf hplace ih

end Value.Part

/-- Is a node a part of another one, directly or not? -/
def Node.Under (m n : Node) : Prop :=
  ∃ f ∈ n.fields ++ n.extra, isPlace f.1 = false ∧ (Value.node m).Part f.2

theorem Node.Under.part (h : m.Under n) : (Value.node m).Part (.node n) := by
  obtain ⟨f, hf, hplace, h⟩ := h
  exact .inNode hf hplace h

namespace View

variable {V : View} {a b : V.Moment}

/-- What is part of a value lies between the same moments as the value. -/
theorem Holds.part (h : V.Holds a b v) (hm : (Value.node m).Part v) :
    ∃ a' b', V.later a a' ∧ V.later b' b ∧ V.Holds a' b' (.node m) := by
  induction hm with
  | self => exact ⟨a, b, V.later_refl a, V.later_refl b, h⟩
  | item hv _ ih => exact ih (holdsAll_iff.1 h _ hv)
  | entry he _ ih => exact ih (holdsEntries_iff.1 h _ he)
  | @field form serial span fields extra f hf _ _ ih =>
    have hnode : V.Holds a b (.node ⟨form, serial, span, fields, extra⟩) := h
    exact ih (hnode.widen ((holds_node.1 hnode).2.2 f hf))

/-- What is part of a node with a place lies in that place. -/
theorem Holds.under (h : V.Holds a b (.node n)) (hsp : n.span = some sp) (hm : m.Under n) :
    ∃ a' b', V.later (V.enter a (n.stamp sp)) a' ∧ V.later b' (V.leave b (n.stamp sp)) ∧ V.Holds a' b' (.node m) := by
  obtain ⟨f, hf, -, hm⟩ := hm
  have hinside := (holds_node.1 h).2.2 f hf
  rw [Node.stamp?, hsp] at hinside
  exact hinside.part hm

theorem Holds.tidy (h : V.Holds a b v) (hm : (Value.node m).Part v) : m.Tidy := by
  obtain ⟨a', b', -, -, hm'⟩ := h.part hm
  exact (holds_node.1 hm').2.1.tidy

end View

/-! ### Nodes of a report -/

namespace Report

variable {r : Report}

theorem serial_dress : (r.dress n).serial = n.serial :=
  Node.setAll_serial.trans Node.setAll_serial

theorem form_dress : (r.dress n).form = n.form :=
  Node.setAll_form.trans Node.setAll_form

theorem lookup_revealFields (fs : List (String × Value)) (key : String) :
    (r.revealFields fs).lookup key = (fs.lookup key).map r.reveal := by
  induction fs with
  | nil => simp [revealFields]
  | cons f fs ih =>
    rw [revealFields, Node.lookup_cons_eq, Node.lookup_cons_eq, ih]
    split <;> rfl

/-- The attributes of a node in a report are its own, with what is revealed in them, its place and its
comments. -/
theorem get_dress (h : n.Tidy) (hkey : key ∉ commentNames) :
    (r.dress n).get key = ((n.extra.lookup key).map r.reveal).getD
      ((((n.fields.lookup key).map r.reveal).or ((r.placeOf r.source n.span).lookup key)).getD .null) := by
  let base := Node.mk n.form n.serial none (r.revealFields n.fields ++ r.placeOf r.source n.span) []
  have hbase : base.setAll (r.revealFields n.extra) = { base with extra := r.revealFields n.extra } := by
    refine Node.setAll_of_new (revealFields_names n.extra ▸ h.nodup) fun x hx hx' => ?_
    rw [revealFields_names] at hx
    simp only [base, List.append_nil, List.map_append, List.mem_append, revealFields_names] at hx'
    rcases hx' with hx' | hx'
    · exact h.apart x hx hx'
    · obtain ⟨p, hp, rfl⟩ := List.mem_map.1 hx'
      have hplace := h.placeless p.1 (by rw [List.map_append]; exact List.mem_append_right _ hx)
      rw [name_mem_of_placeOf hp] at hplace
      cases hplace
  have hcomments (p : String × Value) (hp : p ∈ r.commentsOf n.serial) : p.1 ≠ key :=
    fun hname => hkey (hname ▸ (mem_commentsOf hp).1)
  have hapart : ((base.setAll (r.revealFields n.extra)).setAll (r.commentsOf n.serial)).Apart :=
    Node.Apart.setAll (Node.Apart.setAll (by simp [Node.Apart, base]))
  change Node.get (Node.settle _) key = _
  rw [hapart.get_settle, Node.get_setAll_of_not_mem hcomments, hbase]
  simp only [Node.get, base, lookup_revealFields, List.lookup_append]
  cases n.extra.lookup key <;> rfl

theorem get_dress_own (h : n.Tidy) (hkey : key ∉ addedNames) : (r.dress n).get key = r.reveal (n.get key) := by
  have hplace : (r.placeOf r.source n.span).lookup key = none := by
    refine List.lookup_eq_none_iff.2 fun p hp => bne_iff_ne.2 ?_
    rintro rfl
    have hname := name_mem_of_placeOf hp
    simp only [isPlace, Bool.or_eq_true, decide_eq_true_eq] at hname
    rcases hname with hname | hname <;> simp [hname, addedNames] at hkey
  have hcomment : key ∉ commentNames :=
    fun hmem => hkey (List.mem_cons_of_mem _ (List.mem_cons_of_mem _ hmem))
  rw [get_dress h hcomment, hplace, Node.get]
  cases n.extra.lookup key with
  | some v => rfl
  | none => cases n.fields.lookup key <;> simp [reveal]

theorem get_dress_place (h : n.Tidy) (hkey : isPlace key) :
    (r.dress n).get key = ((r.placeOf r.source n.span).lookup key).getD .null := by
  have hnone {fs : List (String × Value)} (hfs : fs ⊆ n.fields ++ n.extra) : fs.lookup key = none := by
    refine List.lookup_eq_none_iff.2 fun p hp => bne_iff_ne.2 ?_
    rintro rfl
    have hplace := h.placeless p.1 (List.mem_map_of_mem (hfs hp))
    rw [hkey] at hplace
    cases hplace
  have hcomment : key ∉ commentNames := by
    simp only [isPlace, Bool.or_eq_true, decide_eq_true_eq] at hkey
    rcases hkey with rfl | rfl <;> decide
  rw [get_dress h hcomment, hnone (List.subset_append_right _ _), hnone (List.subset_append_left _ _)]
  rfl

/-- The offsets of a node in a report. -/
theorem range_dress (h : n.Tidy) (hr : r.range) :
    (r.dress n).get "range" = (n.span.map Span.rangeValue).getD .null := by
  rw [get_dress_place h rfl]
  cases n.span <;> simp [placeOf, hr]

/-- The lines and columns of a node in a report. -/
theorem loc_dress (h : n.Tidy) (hr : r.loc) :
    (r.dress n).get "loc" = (n.span.map (Span.locValue · r.source)).getD .null := by
  rw [get_dress_place h rfl]
  cases n.span with
  | none => rfl
  | some sp => cases hrange : r.range <;> simp [placeOf, hr, hrange, Node.lookup_cons_eq]

theorem revealAll_eq_map (vs : List Value) : r.revealAll vs = vs.map r.reveal := by
  induction vs with
  | nil => rw [revealAll, List.map_nil]
  | cons v vs ih => rw [revealAll, List.map_cons, ih]

theorem revealEntries_eq_map (es : List (Text × Value)) :
    r.revealEntries es = es.map fun e => (e.1, r.reveal e.2) := by
  induction es with
  | nil => rw [revealEntries, List.map_nil]
  | cons e es ih => rw [revealEntries, List.map_cons, ih]

theorem mem_revealFields (h : f ∈ r.revealFields fs) : ∃ g ∈ fs, f = (g.1, r.reveal g.2) := by
  rw [revealFields_eq_map] at h
  obtain ⟨g, hg, rfl⟩ := List.mem_map.1 h
  exact ⟨g, hg, rfl⟩

theorem reveal_tidy (h : n.Tidy) : r.reveal (.node n) = .node (r.dress n) :=
  reveal_node fun hform => absurd hform h.form

/-- Every node in a report that is not part of a comment is a node that was read, as it is reported. -/
theorem part_reveal (hcomments : ∀ k, ∀ p ∈ r.commentsOf k, ¬ (Value.node m).Part p.2)
    (h : (Value.node m).Part w) (hw : w = r.reveal v) (htidy : ∀ n, (Value.node n).Part v → n.Tidy) :
    ∃ n, (Value.node n).Part v ∧ m = r.dress n := by
  induction h generalizing v with
  | self =>
    cases v with
    | object form serial span fields extra =>
      have hn := htidy ⟨form, serial, span, fields, extra⟩ .self
      exact ⟨_, .self, Value.node_injective (hw.trans (reveal_tidy hn))⟩
    | _ => simp [reveal, Value.node] at hw
  | item hu _ ih =>
    cases v with
    | list vs =>
      rw [reveal, revealAll_eq_map] at hw
      cases hw
      obtain ⟨v, hv, rfl⟩ := List.mem_map.1 hu
      obtain ⟨n, hn, hm⟩ := ih rfl fun n hn => htidy n (.item hv hn)
      exact ⟨n, .item hv hn, hm⟩
    | object form serial span fields extra =>
      have hn := htidy ⟨form, serial, span, fields, extra⟩ .self
      cases hw.trans (reveal_tidy hn)
    | _ => simp [reveal] at hw
  | entry hu _ ih =>
    cases v with
    | dict es =>
      rw [reveal, revealEntries_eq_map] at hw
      cases hw
      obtain ⟨e, he, rfl⟩ := List.mem_map.1 hu
      obtain ⟨n, hn, hm⟩ := ih rfl fun n hn => htidy n (.entry he hn)
      exact ⟨n, .entry he hn, hm⟩
    | object form serial span fields extra =>
      have hn := htidy ⟨form, serial, span, fields, extra⟩ .self
      cases hw.trans (reveal_tidy hn)
    | _ => simp [reveal] at hw
  | field hf hplace hpart ih =>
    cases v with
    | object form serial span fields extra =>
      have hn := htidy ⟨form, serial, span, fields, extra⟩ .self
      cases hw.trans (reveal_tidy hn)
      rcases mem_dress hf with hf | hf | hf
      · obtain ⟨g, hg, rfl⟩ := mem_revealFields hf
        obtain ⟨n, hn, hm⟩ := ih rfl fun n hn => htidy n (.field hg hplace hn)
        exact ⟨n, .field hg hplace hn, hm⟩
      · rw [name_mem_of_placeOf hf] at hplace
        cases hplace
      · exact absurd hpart (hcomments _ _ hf)
    | _ => simp [reveal] at hw

theorem under_dress (hcomments : ∀ k, ∀ p ∈ r.commentsOf k, ¬ (Value.node m).Part p.2)
    (h : m.Under (r.dress n)) (htidy : ∀ n', (Value.node n').Part (.node n) → n'.Tidy) :
    ∃ n', n'.Under n ∧ m = r.dress n' := by
  obtain ⟨f, hf, hplace, h⟩ := h
  rcases mem_dress hf with hf | hf | hf
  · obtain ⟨g, hg, rfl⟩ := mem_revealFields hf
    obtain ⟨n', hn', hm⟩ := part_reveal hcomments h rfl fun n' hn' => htidy n' (.inNode hg hplace hn')
    exact ⟨n', ⟨g, hg, hplace, hn'⟩, hm⟩
  · rw [name_mem_of_placeOf hf] at hplace
    cases hplace
  · exact absurd h (hcomments _ _ hf)

/-- A node has the same kind in a report. -/
theorem kind?_dress (h : ∀ n', (Value.node n').Part (.node n) → n'.Tidy) : (r.dress n).kind? = n.kind? := by
  have htidy := h n .self
  rw [Node.kind?, Node.kind?, get_dress_own htidy (by decide)]
  rcases n.mem_get_or_null "type" with hmem | hnull
  · cases hv : n.get "type" with
    | object form serial span fields extra =>
      have hplace := htidy.placeless "type" (List.mem_map_of_mem hmem)
      have hpart : (Value.node ⟨form, serial, span, fields, extra⟩).Part (.node n) :=
        .inNode hmem hplace (by rw [hv]; exact .self)
      have hreveal := reveal_tidy (r := r) (h _ hpart)
      rw [Value.node] at hreveal
      rw [hreveal]
      rfl
    | _ => simp only [reveal]
  · simp only [hnull, reveal]

end Report

/-! ### What has no nodes -/

/-- A value that no node of a syntax tree is part of. -/
def Value.Kindless (v : Value) : Prop := ∀ m, (Value.node m).Part v → m.kind? = none

namespace Value.Kindless

theorem null : Value.null.Kindless := fun _ h => by cases h

theorem text (t : Text) : (Value.text t).Kindless := fun _ h => by cases h

theorem list (h : ∀ v ∈ vs, v.Kindless) : (Value.list vs).Kindless := by
  rintro m (_ | ⟨hv, hm⟩)
  exact h _ hv m hm

theorem node (hkind : n.kind? = none)
    (h : ∀ f ∈ n.fields ++ n.extra, isPlace f.1 = false → f.2.Kindless) : (Value.node n).Kindless := by
  intro m hm
  rcases hm.of_node with hm | ⟨f, hf, hplace, hm⟩
  · rwa [Value.node_injective hm]
  · exact h f hf hplace m hm

end Value.Kindless

namespace Report

variable {r : Report}

theorem kindless_collected (h : n.get "value" = .text t) (range loc : Value) :
    (Value.node (Comments.collected n range loc)).Kindless := by
  refine .node rfl fun f hf hplace => ?_
  simp only [Comments.collected, Node.make, List.append_nil, List.mem_cons, List.not_mem_nil, or_false, h] at hf
  rcases hf with rfl | rfl | rfl | rfl
  · exact .text _
  · exact .text t
  · cases hplace
  · cases hplace

theorem kindless_token (source : Source) (t : TokenRecord) : (r.token source t).Kindless := by
  refine .node rfl fun f hf hplace => ?_
  simp only [Node.make, List.append_nil, List.mem_cons, List.not_mem_nil, or_false] at hf
  rcases hf with rfl | rfl | rfl | rfl | rfl
  · exact .text _
  · exact .text _
  · split
    · refine .node rfl fun f hf _ => ?_
      simp only [List.append_nil, List.mem_cons, List.not_mem_nil, or_false] at hf
      rcases hf with rfl | rfl <;> exact .text _
    · exact .null
  · cases hplace
  · cases hplace

end Report

/-! ### Attached comments -/

/-- All comments of a node are as they should be. -/
def NodeComments.All (P : CommentEntry → Prop) (c : NodeComments) : Prop :=
  ∀ e ∈ c.inner ++ c.leading ++ c.trailing, P e

namespace Comments

variable {P : CommentEntry → Prop} {s : State}

/-- All comments that were met are as they should be. -/
structure State.All (P : CommentEntry → Prop) (s : State) : Prop where
  found : ∀ c ∈ s.found, c.All P
  leading : ∀ e ∈ s.leading, P e
  trailing : ∀ e ∈ s.trailing, P e

theorem State.All.of (h : s.All P) (k : Nat) : (s.of k).All P := by
  unfold State.of
  rw [Array.getD_eq_getD_getElem?]
  cases hk : s.found[k]? with
  | none => simp [NodeComments.All]
  | some c => exact h.found c (Array.mem_of_getElem? hk)

/-- The comments of one node are replaced. -/
theorem State.All.replace (h : s.All P) (hc : c.All P) : ∀ d ∈ s.found.setIfInBounds k c, d.All P := by
  intro d hd
  rcases Array.mem_or_eq_of_mem_setIfInBounds hd with hd | rfl
  · exact h.found d hd
  · exact hc

theorem takeInner_all {inner : List CommentEntry} (h : s.All P)
    (hx : takeInner s stop = .ok (inner, s')) : (∀ e ∈ inner, P e) ∧ s'.All P := by
  unfold takeInner at hx
  dsimp only at hx
  split at hx
  · cases hx
  · cases hx
    refine ⟨fun e he => h.leading e (List.mem_filter.1 he).1, h.found,
      fun e he => h.leading e (List.mem_filter.1 he).1, fun e he => ?_⟩
    obtain ⟨p, hp, rfl⟩ := List.mem_map.1 he
    exact h.trailing _ (List.of_mem_zip (List.mem_filter.1 hp).1).2

theorem findTrailing_all (h : s.All P) (stop : Nat) :
    (∀ e ∈ (findTrailing s stop).1, P e) ∧ (findTrailing s stop).2.All P := by
  unfold findTrailing
  split
  · dsimp only
    refine ⟨fun e he => h.trailing e (List.mem_filter.1 he).1, ?_⟩
    split
    · exact h
    · exact ⟨h.found, h.leading, nofun⟩
  · split
    · exact ⟨nofun, h⟩
    · next k _ _ _ =>
      have hlast := h.of k
      dsimp only
      split
      · exact ⟨nofun, h⟩
      · split
        · refine ⟨fun e he => hlast e (List.mem_append_right _ he), ?_, h.leading, h.trailing⟩
          exact h.replace fun e he => hlast e (List.mem_append_left _ (by simpa using he))
        · exact ⟨nofun, h⟩

theorem findLeading_all (h : s.All P) (start : Nat) :
    (∀ e ∈ (findLeading s start).1, P e) ∧ (findLeading s start).2.All P := by
  unfold findLeading
  split
  · next k _ _ =>
    have htarget := h.of k
    refine ⟨fun e he => htarget e ?_, h.replace fun e he => htarget e ?_, h.leading, h.trailing⟩
    · simp [(List.mem_filter.1 he).1]
    · simp only [List.mem_append, List.mem_filter] at he ⊢
      exact he.imp_left (Or.imp_right And.left)
  · exact ⟨fun e he => h.leading e (List.mem_filter.1 he).1, h.found,
      fun e he => h.leading e (List.mem_filter.1 he).1, h.trailing⟩

theorem visitNode_all (h : s.All P) (hx : visitNode s k n span = .ok s') : s'.All P := by
  have rest {inner : List CommentEntry} {t : State} (hinner : ∀ e ∈ inner, P e) (ht : t.All P) :
      State.All P (let trailing := findTrailing t span.last.index
        let leading := findLeading trailing.2 span.first.index
        { leading.2 with
          found := leading.2.found.setIfInBounds k ⟨n.serial, inner, leading.1, trailing.1⟩
          stack := (k, span.first.index) :: leading.2.stack }) := by
    obtain ⟨htrailing, hu⟩ := findTrailing_all ht span.last.index
    obtain ⟨hleading, hv⟩ := findLeading_all hu span.first.index
    refine ⟨hv.replace fun e he => ?_, hv.leading, hv.trailing⟩
    rcases List.mem_append.1 he with he | he
    · exact (List.mem_append.1 he).elim (hinner e) (hleading e)
    · exact htrailing e he
  unfold visitNode at hx
  split at hx
  · cases hx
    exact h
  · split at hx
    · cases htake : takeInner s span.last.index with
      | error f => simp [htake, bind, Except.bind] at hx
      | ok x =>
        obtain ⟨hinner, ht⟩ := takeInner_all h htake
        simp only [htake, bind, Except.bind] at hx
        cases hx
        exact rest hinner ht
    · cases hx
      exact rest nofun h

theorem visit_all (h : s.All P)
    (he : isComment e.taken → P ⟨e.taken, e.span⟩) (hx : visit s k e = .ok s') : s'.All P := by
  have hpush : State.All P { s with found := s.found.push ⟨none, [], [], []⟩ } := by
    refine ⟨fun c hc => ?_, h.leading, h.trailing⟩
    rcases Array.mem_push.1 hc with hc | rfl
    · exact h.found c hc
    · exact nofun
  unfold visit at hx
  split at hx
  · next hcomment =>
    cases hx
    exact ⟨hpush.found, List.forall_mem_append.2 ⟨h.leading, by simpa using he hcomment⟩,
      List.forall_mem_append.2 ⟨h.trailing, by simpa using he hcomment⟩⟩
  · exact visitNode_all hpush hx

theorem visitAll_all (he : ∀ e ∈ es, isComment e.taken → P ⟨e.taken, e.span⟩) :
    ∀ {k : Nat} {s s' : State}, s.All P → visitAll k s es = .ok s' → s'.All P := by
  induction es with
  | nil =>
    intro k s s' h hx
    cases hx
    exact h
  | cons e es ih =>
    intro k s s' h hx
    rw [visitAll] at hx
    cases hv : visit s k e with
    | error f => simp [hv, bind, Except.bind] at hx
    | ok t =>
      simp only [hv, bind, Except.bind] at hx
      exact ih (fun e' he' => he e' (List.mem_cons_of_mem _ he')) (visit_all h (he e List.mem_cons_self) hv) hx

/-- Only comments that were logged are attached. -/
theorem attach_all (he : ∀ e ∈ events, isComment e.taken → P ⟨e.taken, e.span⟩)
    (hx : attach events = .ok found) : ∀ c ∈ found, c.All P := by
  have hstart : State.All P .start := ⟨by simp [State.start], nofun, nofun⟩
  unfold attach at hx
  cases hv : visitAll 0 .start events.toList with
  | error f => simp [hv, bind, Except.bind] at hx
  | ok s =>
    simp only [hv, bind, Except.bind] at hx
    cases hx
    exact (visitAll_all (fun e hmem => he e (Array.mem_toList_iff.1 hmem)) hstart hv).found

end Comments

end EcmaSyntax
