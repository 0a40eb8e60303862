import EcmaSyntax.Proofs.Fitting.Statements
import EcmaSyntax.Proofs.Nesting

/-!
# Reports of trees that fit

What is reported of a tree fits the surroundings that the tree fits (`Fits.reveal`): a node looks like
the one that was read (`Report.alike_dress`), and what is added to it has no kind. So all nodes of a
program that is accepted fit what every program starts with (`Program.fits_of_run`).
-/

namespace EcmaSyntax

variable {test : Node → Bool} {e : Surroundings} {P : Prop} {n : Node} {v : Value} {path : List Step}

/-! ### Values all of whose nodes are tidy -/

/-- A value all of whose nodes are tidy. -/
def Value.Neat (v : Value) : Prop := ∀ n, (Value.node n).Part v → n.Tidy

namespace Value.Neat

variable {m : Node}

theorem tidy (h : (Value.node n).Neat) : n.Tidy := h n .self

theorem asNode (h : v.Neat) (hn : v.asNode? = some n) : (Value.node n).Neat := by
  cases v with
  | object =>
    cases hn
    exact h
  | _ => cases hn

theorem items (h : v.Neat) (hw : w ∈ v.items) : w.Neat := by
  cases v with
  | list vs => exact fun n hn => h n (.item hw hn)
  | _ => cases hw

theorem get (h : (Value.node n).Neat) (key : String) : (n.get key).Neat := by
  intro m hm
  rcases n.mem_get_or_null key with hmem | hnull
  · exact h m (.inNode hmem (h.tidy.placeless key (List.mem_map_of_mem hmem)) hm)
  · rw [hnull] at hm
    cases hm

theorem child (h : (Value.node n).Neat) (hm : n.child? key = some m) : (Value.node m).Neat :=
  (h.get key).asNode hm

end Value.Neat

/-! ### Nodes in reports look alike -/

namespace Report

variable {r : Report} {key : String}

theorem reveal_scalar (h : v.isScalar) : r.reveal v = v := by
  cases v with
  | list | dict | object => cases h
  | _ => simp only [reveal]

theorem reveal_object (h : (Value.object form serial span fields extra).Neat) :
    r.reveal (.object form serial span fields extra) = .node (r.dress ⟨form, serial, span, fields, extra⟩) :=
  reveal_tidy (h ⟨form, serial, span, fields, extra⟩ .self)

theorem asNode?_reveal (h : v.Neat) : (r.reveal v).asNode? = v.asNode?.map r.dress := by
  cases v with
  | object =>
    rw [reveal_object h]
    rfl
  | _ => simp [reveal, Value.asNode?]

/-- What only scalars tell is told by a report. -/
theorem apply_reveal {f : Value → α} (h : v.Neat) (hf : ∀ w : Value, w.isScalar = false → f w = a) :
    f (r.reveal v) = f v := by
  cases hv : v.isScalar with
  | true => rw [reveal_scalar hv]
  | false =>
    rw [hf v hv, hf]
    cases v with
    | object =>
      rw [reveal_object h]
      rfl
    | list | dict => simp only [reveal, Value.isScalar]
    | _ => cases hv

theorem asText?_reveal (h : v.Neat) : (r.reveal v).asText? = v.asText? :=
  apply_reveal h fun w hw => by cases w <;> first | rfl | cases hw

theorem isTruthy_reveal (h : v.Neat) : (r.reveal v).isTruthy = v.isTruthy := by
  cases v with
  | object =>
    rw [reveal_object h]
    rfl
  | list vs => simp [reveal, Value.isTruthy, revealAll_eq_map]
  | dict es => simp [reveal, Value.isTruthy, revealEntries_eq_map]
  | _ => simp only [reveal]

theorem items_reveal (h : v.Neat) : (r.reveal v).items = v.items.map r.reveal := by
  cases v with
  | object =>
    rw [reveal_object h]
    rfl
  | list vs => simp [reveal, Value.items, revealAll_eq_map]
  | _ => simp [reveal, Value.items]

theorem is_dress (h : (Value.node n).Neat) (k : Kind) : (r.dress n).is k = n.is k := by
  rw [Node.is, Node.is, kind?_dress h]

theorem isAny_dress (h : (Value.node n).Neat) (ks : List Kind) : (r.dress n).isAny ks = n.isAny ks := by
  simp only [Node.isAny, funext (is_dress h)]

theorem kind?_reveal (h : v.Neat) : (r.reveal v).kind? = v.kind? := by
  rw [Value.kind?, Value.kind?, asNode?_reveal h]
  cases hn : v.asNode? with
  | none => rfl
  | some n => exact kind?_dress (h.asNode hn)

theorem child?_dress (h : (Value.node n).Neat) (hkey : key ∉ addedNames) :
    (r.dress n).child? key = (n.child? key).map r.dress := by
  rw [Node.child?, Node.child?, get_dress_own h.tidy hkey, asNode?_reveal (h.get key)]

theorem textOf_dress (h : (Value.node n).Neat) (hkey : key ∉ addedNames) : (r.dress n).textOf key = n.textOf key := by
  rw [Node.textOf, Node.textOf, get_dress_own h.tidy hkey, asText?_reveal (h.get key)]

theorem has_dress (h : (Value.node n).Neat) (hkey : key ∉ addedNames) : (r.dress n).has key = n.has key := by
  rw [Node.has, Node.has, get_dress_own h.tidy hkey, isTruthy_reveal (h.get key)]

/-- What a test finds in an attribute that is a node. -/
theorem any_child_dress (h : (Value.node n).Neat) (hkey : key ∉ addedNames)
    (htest : ∀ m : Node, (Value.node m).Neat → test (r.dress m) = test m) :
    ((r.dress n).child? key).any test = (n.child? key).any test := by
  rw [child?_dress h hkey]
  cases hm : n.child? key with
  | none => rfl
  | some m => exact htest m (h.child hm)

theorem any_items_dress (h : (Value.node n).Neat) (hkey : key ∉ addedNames) {test : Value → Bool}
    (htest : ∀ w : Value, w.Neat → test (r.reveal w) = test w) :
    ((r.dress n).get key).items.any test = (n.get key).items.any test := by
  rw [get_dress_own h.tidy hkey, items_reveal (h.get key), List.any_map, Bool.eq_iff_iff,
    List.any_eq_true, List.any_eq_true]
  refine exists_congr fun w => and_congr_right fun hw => ?_
  rw [Function.comp, htest w ((h.get key).items hw)]

/-- How many of the nodes of a list a test finds. -/
theorem countP_children_dress (h : (Value.node n).Neat) (hkey : key ∉ addedNames)
    (htest : ∀ m : Node, (Value.node m).Neat → test (r.dress m) = test m) :
    ((r.dress n).children key).countP test = (n.children key).countP test := by
  rw [Node.children, Node.children, List.countP_filterMap, List.countP_filterMap, get_dress_own h.tidy hkey,
    items_reveal (h.get key), List.countP_map]
  refine List.countP_congr fun w hw => ?_
  have hneat := (h.get key).items hw
  rw [Function.comp, asNode?_reveal hneat]
  cases hm : w.asNode? with
  | none => rfl
  | some m => exact Bool.eq_iff_iff.1 (htest m (hneat.asNode hm))

theorem any_children_dress (h : (Value.node n).Neat) (hkey : key ∉ addedNames)
    (htest : ∀ m : Node, (Value.node m).Neat → test (r.dress m) = test m) :
    ((r.dress n).children key).any test = (n.children key).any test := by
  rw [Bool.eq_iff_iff, List.any_eq_true, List.any_eq_true, ← List.countP_pos_iff, ← List.countP_pos_iff,
    countP_children_dress h hkey htest]

theorem startsAsync_dress (hasync : n.StartsAsync) (h : (Value.node n).Neat) : (r.dress n).StartsAsync := by
  induction hasync with
  | name hk hname =>
    exact .name ((is_dress h _).trans hk) (by rwa [textOf_dress h (by decide)])
  | function hk hasync =>
    exact .function ((is_dress h _).trans hk) (by rwa [has_dress h (by decide)])
  | @link n m l hl hk hm _ ih =>
    have hkey : l.2 ∉ addedNames := by
      revert hl
      simp only [chainLinks, List.mem_cons, List.not_mem_nil, or_false]
      rintro (rfl | rfl | rfl) <;> decide
    refine .link hl ((is_dress h _).trans hk) ?_ (ih (h.child hm))
    rw [child?_dress h hkey, hm, Option.map_some]

theorem isPatternMethod_dress (h : (Value.node n).Neat) : (r.dress n).isPatternMethod = n.isPatternMethod := by
  rw [Node.isPatternMethod, Node.isPatternMethod, has_dress h (by decide), textOf_dress h (by decide),
    any_child_dress h (by decide) fun m hm => any_items_dress hm (by decide) fun w hw => by
      rw [kind?_reveal hw]]

theorem isConstructor_dress (h : (Value.node n).Neat) : (r.dress n).isConstructor = n.isConstructor := by
  rw [Node.isConstructor, Node.isConstructor, is_dress h, textOf_dress h (by decide)]

theorem isDefault_dress (h : (Value.node n).Neat) : (r.dress n).isDefault = n.isDefault := by
  rw [Node.isDefault, Node.isDefault, is_dress h, get_dress_own h.tidy (by decide)]
  exact congrArg _ (apply_reveal (a := false) (h.get _) fun w hw => by cases w <;> first | rfl | cases hw)

theorem isKey_dress (h : (Value.node n).Neat) (word : String) : (r.dress n).isKey word = n.isKey word := by
  unfold Node.isKey
  extract_lets reads
  have hreads (key : String) (hkey : key ∉ addedNames) : reads ((r.dress n).get key) = reads (n.get key) := by
    rw [get_dress_own h.tidy hkey]
    exact apply_reveal (h.get key) fun w hw => by cases w <;> first | rfl | cases hw
  rw [is_dress h, is_dress h, hreads _ (by decide), hreads _ (by decide)]

theorem setsPrototype_dress (h : (Value.node n).Neat) : (r.dress n).setsPrototype = n.setsPrototype := by
  rw [Node.setsPrototype, Node.setsPrototype, is_dress h, textOf_dress h (by decide), has_dress h (by decide),
    has_dress h (by decide), has_dress h (by decide),
    any_child_dress h (by decide) fun m hm => isKey_dress hm "__proto__"]

/-- **A node in a report** looks like the one that was read. -/
theorem alike_dress (h : (Value.node n).Neat) : n.Alike (r.dress n) where
  kind := kind?_dress h
  label := by
    rw [Node.label?, Node.label?, child?_dress h (by decide)]
    cases hm : n.child? "label" with
    | none => rfl
    | some m => exact congrArg some (textOf_dress (h.child hm) (by decide))
  hasInitializer := any_children_dress h (by decide) fun m hm => by
    rw [is_dress hm, any_child_dress hm (by decide) fun p hp => is_dress hp _]
  clears := any_children_dress h (by decide) fun _ => isPatternMethod_dress
  assignsTarget := by
    rw [Node.assignsTarget, Node.assignsTarget, textOf_dress h (by decide)]
    exact any_child_dress h (by decide) fun m hm => isAny_dress hm _
  updatesTarget := any_child_dress h (by decide) fun m hm => isAny_dress hm _
  lacksRivals := by
    rw [Node.lacksRivals, Node.lacksRivals, countP_children_dress h (by decide) fun _ => isConstructor_dress,
      countP_children_dress h (by decide) fun _ => isDefault_dress,
      countP_children_dress h (by decide) fun _ => setsPrototype_dress]
  hasBlockBody := any_child_dress h (by decide) fun m hm => is_dress hm _
  shorthand := has_dress h (by decide)
  async hasync := startsAsync_dress hasync h

end Report

/-! ### What has no kind -/

theorem Surroundings.Allows.of_kindless (h : n.kind? = none) : e.Allows P n := by
  have his (k : Kind) : n.is k = false := by
    rw [Node.is, h]
    rfl
  constructor <;> simp [h, his]

/-- What has no nodes of a syntax tree fits anywhere. -/
theorem Value.Kindless.fits (h : v.Kindless) : Fits e P v := by
  induction v using Value.partsInduction generalizing e P with
  | list vs ih => exact .list fun v hv => ih v hv fun m hm => h m (.item hv hm)
  | dict es ih => exact .dict fun p hp => ih p hp fun m hm => h m (.entry hp hm)
  | node n ih =>
    refine Fits.node_iff.2 ⟨.of_kindless (h n .self), fun f hf hplace => ih f hf fun m hm => ?_⟩
    exact h m (.inNode hf hplace hm)
  | scalar v hv => exact .scalar hv

/-! ### Reports -/

/-- **What is reported of a value** fits where the value does. -/
theorem Fits.reveal {r : Report} (h : Fits e P v)
    (hneat : v.Neat) (hcomments : ∀ k, ∀ p ∈ r.commentsOf k, p.2.Kindless) : Fits e P (r.reveal v) := by
  induction h with
  | scalar hv =>
    rw [Report.reveal_scalar hv]
    exact .scalar hv
  | list _ ih =>
    rw [Report.reveal, Report.revealAll_eq_map]
    refine .list (List.forall_mem_map.2 fun v hv => ih v hv fun n hn => hneat n (.item hv hn))
  | dict _ ih =>
    rw [Report.reveal, Report.revealEntries_eq_map]
    refine .dict (List.forall_mem_map.2 fun p hp => ih p hp fun n hn => hneat n (.entry hp hn))
  | @object e P form serial span fields extra hn _ ih =>
    rw [Report.reveal_object hneat]
    have halike := Report.alike_dress (r := r) (n := ⟨form, serial, span, fields, extra⟩) hneat
    refine node_iff.2 ⟨halike.allows (fun _ => rfl) hn, fun f hf hplace => ?_⟩
    -- An attribute was there before, or it is the place of the node, or it holds comments.
    rcases Report.mem_dress hf with hf | hf | hf
    · obtain ⟨g, hg, rfl⟩ := Report.mem_revealFields hf
      rw [halike.below_eq]
      exact (ih g hg hplace fun n hn => hneat n (.field hg hplace hn)).mono halike.pending
    · rw [Report.name_mem_of_placeOf hf] at hplace
      cases hplace
    · exact (hcomments _ f hf).fits

/-! ### Programs -/

/-- All nodes of a program are tidy, whatever language it is in. -/
theorem ensures_program_neat (h : Formed c s) :
    Ensures (Grammar.program isModule) c s fun n _ => (Value.node n).Neat := by
  refine (Orderly.ensures inferInstance h).bind fun _ t ht => ?_
  refine ((derives_program () isModule).sound Semantics.unit c t ht).mono fun n _ hn m hm => ?_
  obtain ⟨b, -, -, hsound, -⟩ := hn
  have hholds : View.unit.Holds () b (.node n) := hsound
  exact hholds.tidy hm

namespace Program

variable {o : Options} {s : ParseState} {comments : Array NodeComments}

/-- The report of a program fits where the program does. -/
theorem fits_report {tree : Value}
    (hlogged : ∀ e ∈ s.events, e.taken.Loggable) (hn₀ : n₀.IsProgram) (hneat : (Value.node n₀).Neat)
    (hcomments : commentsOf o s = .ok comments) (htree : report source o comments n₀ s = .ok tree)
    (h : Fits e P (.node n₀)) : Fits e P tree := by
  let r := reportOf o comments
  have hreveal := h.reveal hneat fun k p => kindless_commentsOf hlogged hcomments
  rw [Report.reveal_tidy hneat.tidy] at hreveal
  obtain ⟨hallows, hfields⟩ := Fits.node_iff.1 hreveal
  rw [report_of_isProgram source comments hn₀] at htree
  cases htree
  have hapart : ((r.dress n₀).setAll (additions source o r s)).Apart :=
    Node.Apart.setAll (by simp [Node.Apart, Report.dress, Node.settle])
  have halike : (r.dress n₀).Alike ((r.dress n₀).setAll (additions source o r s)).settle := by
    refine .of_get fun key hkey => ?_
    rw [hapart.get_settle, Node.get_setAll_of_not_mem]
    rintro p hp rfl
    exact hkey (List.mem_cons_of_mem _ (kindless_additions hlogged hp).1)
  refine Fits.node_iff.2 ⟨halike.allows (fun _ => rfl) hallows, fun f hf hplace => ?_⟩
  rw [Node.settle, List.append_nil] at hf
  rcases Node.mem_of_setAll hf with hf | hf
  · rw [halike.below_eq]
    exact (hfields f hf hplace).mono halike.pending
  · exact (kindless_additions hlogged hf).2.fits

/-- **All nodes of a program that is accepted** fit what every program starts with. -/
theorem fits_of_run {e : EntryPoint} {o : OptionList} (h : run e code o .idle = .ok p) :
    ∃ edition, Options.editionOf ((o.get? "ecmaVersion").getD (.nat Options.latest)) = .ok edition
      ∧ Fits (.start edition (o.flag "tolerant")) False p.tree := by
  obtain ⟨a, ha, hparse⟩ := parse_of_run h
  obtain ⟨n₀, s, comments, tree, hread, hcomments, hreport, rfl⟩ := parse_eq_ok_iff.1 hparse
  have htolerant : a.tolerant = o.flag "tolerant" := by
    rw [← e.withFlags_eq ha]
    rfl
  have hedition := (Options.fields_of_preset ha).2.2
  rw [e.get?_options (by decide)] at hedition
  refine ⟨a.edition, hedition, ?_⟩
  have hformed := formed_read (.ofText code) a
  rw [hread] at hformed
  have hneat := ensures_program_neat ⟨rfl, fun e he => nomatch Array.not_mem_empty e he⟩ n₀ s hread
  have hfits := Grammar.ensures_program_fits a.isModule (.ofText code) rfl n₀ s hread
  rw [← htolerant]
  exact fits_report hformed.loggable (ensures_program rfl n₀ s hread) hneat hcomments hreport hfits

end Program

/-! ### Ways along attributes -/

namespace Value

/-- The first item of a list that is not empty. -/
def first : Value → Value
  | .list (v :: _) => v
  | v => v

/-- The node that some attributes lead to, and the way there. Of a list, the first item is taken. -/
def follow : List String → Value → Option (List Step × Node)
  | [], v => v.first.asNode?.map ([], ·)
  | name :: names, v => v.first.asNode?.bind fun n =>
      (follow names (n.get name)).map fun found => (found.1 ++ [⟨n, name⟩], found.2)

theorem Path.of_first {u : Value} (h : u.Path path v.first) : u.Path path v := by
  unfold first at h
  split at h
  · exact .item List.mem_cons_self h
  · exact h

theorem eq_node_of_asNode? (h : v.asNode? = some n) : v = .node n := by
  cases v with
  | object =>
    cases h
    rfl
  | _ => cases h

theorem not_path_null : ¬ (Value.node n).Path path .null := by
  intro h
  cases h <;> cases hv

theorem path_of_follow (hplace : ∀ name ∈ names, isPlace name = false) (h : v.follow names = some (path, m)) :
    (Value.node m).Path path v := by
  induction names generalizing v path with
  | nil =>
    obtain ⟨n, hn, hfound⟩ := Option.map_eq_some_iff.1 h
    cases hfound
    exact .of_first (eq_node_of_asNode? hn ▸ .here)
  | cons name names ih =>
    obtain ⟨n, hn, h⟩ := Option.bind_eq_some_iff.1 h
    obtain ⟨found, hfound, hpath⟩ := Option.map_eq_some_iff.1 h
    cases hpath
    rw [List.forall_mem_cons] at hplace
    have hrest := ih hplace.2 hfound
    refine .of_first (eq_node_of_asNode? hn ▸ ?_)
    rcases n.mem_get_or_null name with hmem | hnull
    · exact .field hmem hplace.1 hrest
    · rw [hnull] at hrest
      exact absurd hrest not_path_null

end Value

/-- A node of a program that is accepted, with what can be computed of it and of the way to it. -/
theorem Program.exists_follow (e : EntryPoint) (code : Text) (o : OptionList) (names : List String)
    (test : List Step → Node → Bool) (hplace : ∀ name ∈ names, isPlace name = false)
    (h : (run e code o .idle).toOption.any fun p => (p.tree.follow names).any fun found => test found.1 found.2) :
    ∃ p path n, run e code o .idle = .ok p ∧ (Value.node n).Path path p.tree ∧ test path n := by
  obtain ⟨p, hrun, hany⟩ := exists_of_any
    (P := fun p => (p.tree.follow names).any fun found => test found.1 found.2) (by simpa using h)
  obtain ⟨found, hfound, htest⟩ := (Option.any_eq_true _ _).1 hany
  exact ⟨p, found.1, found.2, hrun, Value.path_of_follow hplace hfound, htest⟩

end EcmaSyntax
