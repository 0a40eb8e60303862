import EcmaSyntax.Proofs.Coverage
import EcmaSyntax.Proofs.Location
import EcmaSyntax.Proofs.Occurrence

/-!
# The places of the nodes of a program

Every node in the report of a program with a kind shows a node that was read (`Program.shows_of_part`):
what is added for the whole run has no kind. So what `View.places` says of the nodes that are read can
be told of those that are reported: ranges are nested (`Program.ranges_nested`), and lines and columns
are those of the offsets (`Program.loc_of_range`).
-/

namespace EcmaSyntax

variable {v : Value} {code : Text}

theorem Value.Kindless.dict (h : ∀ e ∈ es, e.2.Kindless) : (Value.dict es).Kindless := by
  rintro m (_ | _ | ⟨he, hm⟩)
  exact h _ he m hm

theorem Value.Kindless.int (i : Int) : (Value.int i).Kindless := fun _ h => by cases h

theorem Value.Kindless.withSerial (h : (Value.node n).Kindless) (serial : Option Nat) :
    (Value.node { n with serial }).Kindless :=
  .node (h n .self) fun _ hf hplace m hm => h m (.inNode hf hplace hm)

/-- A node of a report shows a node that was read, apart from what belongs to the whole run. -/
structure Report.Shows (r : Report) (n m : Node) : Prop where
  serial : m.serial = n.serial
  form : m.form = n.form
  get : ∀ key, key ∉ ["comments", "tokens", "errors"] → m.get key = (r.dress n).get key
  under : ∀ m' : Node, m'.Under m → m'.kind?.isSome → ∃ n', n'.Under n ∧ m' = r.dress n'

namespace Program

variable {o : Options} {s : ParseState} {comments : Array NodeComments} {p : String × Value}
  {source : Source}

section

variable (hlogged : ∀ e ∈ s.events, e.taken.Loggable)

include hlogged

/-- Comments that are attached have no nodes. -/
theorem kindless_commentsOf (h : commentsOf o s = .ok comments) (hp : p ∈ (reportOf o comments).commentsOf k) : p.2.Kindless := by
  obtain ⟨-, i, entries, hvalue, hentries⟩ := Report.mem_commentsOf hp
  have htexts : ∀ c ∈ comments, c.All fun e => ∃ t, e.comment.get "value" = .text t := by
    unfold commentsOf at h
    split at h
    · cases h
    · split at h
      · cases hattach : Comments.attach s.events with
        | error f =>
          rw [hattach] at h
          cases h
        | ok found =>
          rw [hattach] at h
          cases h
          exact Comments.attach_all (fun e he => (hlogged e he).comment) hattach
      · cases h
        simp
  have hall : NodeComments.All (fun e => ∃ t, e.comment.get "value" = .text t)
      (comments.getD i ⟨none, [], [], []⟩) := by
    rw [Array.getD_eq_getD_getElem?]
    cases hi : comments[i]? with
    | none => simp [NodeComments.All]
    | some c => exact htexts c (Array.mem_of_getElem? hi)
  rw [hvalue]
  refine .list fun v hv => ?_
  obtain ⟨e, he, rfl⟩ := List.mem_map.1 hv
  obtain ⟨t, ht⟩ := hall e (by
    simp only [List.mem_cons, List.not_mem_nil, or_false] at hentries
    simp only [List.mem_append]
    rcases hentries with rfl | rfl | rfl
    · exact .inl (.inl he)
    · exact .inl (.inr he)
    · exact .inr he)
  exact (Report.kindless_collected ht _ _).withSerial _

/-- What belongs to a whole run has no nodes. -/
theorem kindless_additions (hp : p ∈ additions source o r s) :
    p.1 ∈ ["comments", "tokens", "errors"] ∧ p.2.Kindless := by
  have hcollected : ∀ v ∈ (s.events.toList.filter fun e => Comments.isComment e.taken).map
      (r.collected ·.taken), v.Kindless := by
    refine List.forall_mem_map.2 fun e he => ?_
    obtain ⟨he, hcomment⟩ := List.mem_filter.1 he
    obtain ⟨t, ht⟩ := (hlogged e (Array.mem_toList_iff.1 he)).comment hcomment
    exact Report.kindless_collected ht _ _
  have herrors : ∀ v ∈ s.scan.errors.toList.map Report.error, v.Kindless := by
    refine List.forall_mem_map.2 fun e _ => .dict ?_
    simp only [List.forall_mem_cons, List.not_mem_nil, false_implies, implies_true, and_true]
    exact ⟨.text _, .int _, .int _, .int _⟩
  have htokens : ∀ v ∈ s.tokens.toList.map (r.token source), v.Kindless :=
    List.forall_mem_map.2 fun t _ => Report.kindless_token _ _
  simp only [additions, List.mem_append, List.mem_ite_nil_right, List.mem_singleton] at hp
  rcases hp with (⟨-, rfl⟩ | ⟨-, rfl⟩) | ⟨-, rfl⟩
  · exact ⟨by simp, .list hcollected⟩
  · exact ⟨by simp, .list htokens⟩
  · exact ⟨by simp, .list herrors⟩

/-- **Every node of a report** that has a kind shows a node that was read. -/
theorem shows_of_part {tree : Value} (hn₀ : n₀.IsProgram)
    (htidy : ∀ n, (Value.node n).Part (.node n₀) → n.Tidy) (hcomments : commentsOf o s = .ok comments)
    (htree : report source o comments n₀ s = .ok tree) (hm : (Value.node m).Part tree)
    (hkind : m.kind?.isSome) : ∃ n, (Value.node n).Part (.node n₀) ∧ (reportOf o comments).Shows n m := by
  let r := reportOf o comments
  have hnot {v : Value} (hv : v.Kindless) {m : Node} (hm : m.kind?.isSome) :
      ¬ (Value.node m).Part v := fun hpart => by
    rw [hv m hpart] at hm
    cases hm
  rw [report_of_isProgram source comments hn₀] at htree
  cases htree
  -- The attributes of the root are those of the node, and what belongs to the whole run.
  have hroot {f : String × Value} {m : Node} (hm : m.kind?.isSome) (hplace : isPlace f.1 = false)
      (hpart : (Value.node m).Part f.2)
      (hf : f ∈ (((r.dress n₀).setAll (additions source o r s)).settle).fields
        ++ (((r.dress n₀).setAll (additions source o r s)).settle).extra) : m.Under (r.dress n₀) := by
    rw [Node.settle, List.append_nil] at hf
    rcases Node.mem_of_setAll hf with hf | hf
    · exact ⟨f, hf, hplace, hpart⟩
    · exact absurd hpart (hnot (kindless_additions hlogged hf).2 hm)
  have hunder {n m : Node} (hn : (Value.node n).Part (.node n₀)) (hm : m.kind?.isSome)
      (h : m.Under (r.dress n)) : ∃ n', n'.Under n ∧ m = r.dress n' :=
    Report.under_dress (fun k p hp => hnot (kindless_commentsOf hlogged hcomments hp) hm) h
      fun n' hn' => htidy n' (hn'.trans hn)
  rcases hm.of_node with hm | ⟨f, hf, hplace, hpart⟩
  · obtain rfl := Value.node_injective hm
    refine ⟨n₀, .self, Node.setAll_serial.trans Report.serial_dress,
      Node.setAll_form.trans Report.form_dress, fun key hkey => ?_, ?_⟩
    · have hapart : ((r.dress n₀).setAll (additions source o r s)).Apart :=
        Node.Apart.setAll (by simp [Node.Apart, Report.dress, Node.settle])
      rw [hapart.get_settle, Node.get_setAll_of_not_mem]
      rintro p hp rfl
      exact hkey (kindless_additions hlogged hp).1
    · rintro m' ⟨f, hf, hplace, hpart⟩ hm'
      exact hunder .self hm' (hroot hm' hplace hpart hf)
  · obtain ⟨n, hn, rfl⟩ := hunder .self hkind (hroot hkind hplace hpart hf)
    exact ⟨n, hn.part, Report.serial_dress, Report.form_dress, fun _ _ => rfl, fun _ h hm' => hunder hn.part hm' h⟩

end

end Program

/-! ### The first expression of a program -/

namespace Value

/-- The expression of the first statement of a program. -/
def firstExpression (v : Value) : Option Node := (((v.get "body").items.headD .null).get "expression").asNode?

theorem Part.of_get (hplace : isPlace name = false)
    (h : (Value.node m).Part (v.get name)) : (Value.node m).Part v := by
  have hmem {l : List (String × Value)} {w : Value} (hw : l.lookup name = some w) : (name, w) ∈ l := by
    obtain ⟨l₁, l₂, rfl, -⟩ := List.lookup_eq_some_iff.1 hw
    simp
  cases v with
  | object form serial span fields extra =>
    change (Value.node m).Part (Node.get ⟨form, serial, span, fields, extra⟩ name) at h
    unfold Node.get at h
    split at h
    · next w hw => exact .field (List.mem_append_right _ (hmem hw)) hplace h
    · cases hw : fields.lookup name with
      | none =>
        rw [hw] at h
        cases h
      | some w =>
        rw [hw] at h
        exact .field (List.mem_append_left _ (hmem hw)) hplace h
  | _ => cases h

theorem Part.of_firstExpression (h : v.firstExpression = some n) : (Value.node n).Part v := by
  have hexpression : (Value.node n).Part (((v.get "body").items.headD .null).get "expression") := by
    unfold firstExpression at h
    generalize ((v.get "body").items.headD .null).get "expression" = w at h ⊢
    cases w with
    | object =>
      cases h
      exact .self
    | _ => cases h
  have hplace : isPlace "body" = false := rfl
  refine .of_get hplace ?_
  have hstatement := hexpression.of_get rfl
  cases hbody : v.get "body" with
  | list vs =>
    rw [hbody] at hstatement
    cases vs with
    | nil => cases hstatement
    | cons w ws => exact .item List.mem_cons_self hstatement
  | _ =>
    rw [hbody] at hstatement
    cases hstatement

/-- The number that a value is. -/
def asInt? : Value → Option Int
  | .int i => some i
  | _ => none

/-- The two numbers of the range that a value is. -/
def asRange? : Value → Option (Int × Int)
  | .list [.int i, .int j] => some (i, j)
  | _ => none

theorem eq_int_of_asInt? (h : v.asInt? = some i) : v = .int i := by
  unfold asInt? at h
  split at h
  · rw [Option.some.inj h]
  · cases h

theorem eq_range_of_asRange? {i j : Nat} (h : v.asRange? = some ((i : Int), (j : Int))) :
    v = .list [.nat i, .nat j] := by
  unfold asRange? at h
  split at h
  · cases h
    rfl
  · cases h

end Value

/-! ### Ranges -/

namespace Report

variable {r : Report} {n m : Node}

/-- Where offsets are reported, those of a node are the ends of its span. -/
theorem span_of_range (hn : n.Tidy) (hr : r.range) (h : (r.dress n).get "range" = .list [.nat i, .nat j]) :
    ∃ sp, n.span = some sp ∧ sp.first.index = i ∧ sp.last.index = j := by
  rw [range_dress hn hr] at h
  cases hspan : n.span with
  | none =>
    rw [hspan] at h
    cases h
  | some sp =>
    rw [hspan] at h
    simp only [Option.map_some, Option.getD_some, Span.rangeValue, Value.nat, Value.list.injEq,
      List.cons.injEq, Value.int.injEq, Int.natCast_inj, and_true] at h
    exact ⟨sp, rfl, h⟩

theorem Shows.kind?_eq (h : r.Shows n m)
    (hn : ∀ n', (Value.node n').Part (.node n) → n'.Tidy) : m.kind? = n.kind? := by
  rw [← kind?_dress hn, Node.kind?, Node.kind?, h.get _ (by decide)]

end Report

namespace Program

variable {o : OptionList} {p : Program} {e : EntryPoint}

/-- What is known of the nodes of a program that was accepted. -/
theorem places_of_parse {o : Options} (hjsx : o.jsx = false)
    (hstrict : o.tolerant = false) (h : parse code o .idle = .ok p) :
    ∃ (n₀ : Node) (a b : Stage) (r : Report), (View.places (.ofText code)).Holds a b (.node n₀) ∧ b.last ≤ (Source.ofText code).size
      ∧ r.range = o.range ∧ r.loc = o.loc
      ∧ ∀ m, (Value.node m).Part p.tree → m.kind?.isSome → ∃ n, (Value.node n).Part (.node n₀) ∧ r.Shows n m := by
  obtain ⟨n₀, s, comments, tree, hread, hcomments, hreport, rfl⟩ := parse_eq_ok_iff.1 h
  have hformed := formed_read (.ofText code) o
  rw [hread] at hformed
  obtain ⟨a, b, hholds, hb⟩ := Grammar.ensures_program_places o.isModule rfl hjsx hstrict n₀ s hread
  refine ⟨n₀, a, b, reportOf o comments, hholds, hb, rfl, rfl, fun m hm hkind => ?_⟩
  exact shows_of_part hformed.loggable (ensures_program rfl n₀ s hread) (fun n hn => hholds.tidy hn)
    hcomments hreport hm hkind

/-- What is known of the nodes of a program that was accepted from an entry point. -/
theorem places_of_run (hjsx : o.flag "jsx" = false) (hesnext : o.flag "esnext" = false)
    (hstrict : o.flag "tolerant" = false) (h : run e code o .idle = .ok p) :
    ∃ (n₀ : Node) (a b : Stage) (r : Report), (View.places (.ofText code)).Holds a b (.node n₀)
      ∧ b.last ≤ (Source.ofText code).size ∧ r.range = o.flag "range" ∧ r.loc = o.flag "loc"
      ∧ ∀ m, (Value.node m).Part p.tree → m.kind?.isSome → ∃ n, (Value.node n).Part (.node n₀) ∧ r.Shows n m := by
  obtain ⟨a, ha, hparse⟩ := parse_of_run h
  have hflags := e.withFlags_eq ha
  have hjsx' : a.jsx = false := by
    rw [e.jsx_eq ha, hjsx, hesnext]
    rfl
  have hstrict' : a.tolerant = false := by
    rw [← hflags]
    exact hstrict
  obtain ⟨n₀, w, w', r, hholds, hw, hrange, hloc, hshows⟩ := places_of_parse hjsx' hstrict' hparse
  refine ⟨n₀, w, w', r, hholds, hw, ?_, ?_, hshows⟩
  · rw [hrange, ← hflags]
    rfl
  · rw [hloc, ← hflags]
    rfl

/-- **Ranges are nested.** The range of a node lies in the source, and in the range of every node
around it. A literal has a range, and what it is written as is the source there. -/
theorem ranges_nested (e : EntryPoint) (code : Text) (o : OptionList) (p : Program)
    (hrange : o.flag "range") (hjsx : o.flag "jsx" = false) (hesnext : o.flag "esnext" = false)
    (hstrict : o.flag "tolerant" = false) (hplain : (Source.ofText code).hasAt 0 "#!" = false)
    (h : run e code o .idle = .ok p) (n : Node) (hn : (Value.node n).Part p.tree)
    (hkind : n.kind?.isSome) :
    (∀ i j, n.get "range" = .list [.nat i, .nat j] → i ≤ j ∧ j ≤ (Source.ofText code).size
      ∧ ∀ m : Node, m.Under n → m.kind?.isSome → ∀ i' j', m.get "range" = .list [.nat i', .nat j'] → i ≤ i' ∧ j' ≤ j)
    ∧ (n.is .literal → ∃ i j, n.get "range" = .list [.nat i, .nat j]
      ∧ n.get "raw" = .text ((Source.ofText code).slice i j)) := by
  obtain ⟨n₀, w, w', r, hholds, hw, hr, -, hshows⟩ := places_of_run hjsx hesnext hstrict h
  obtain ⟨k, hk, hnk⟩ := hshows n hn hkind
  rw [hrange] at hr
  obtain ⟨a, b, ha, hb, hheld⟩ := hholds.part hk
  have htidy (k' : Node) (hk' : (Value.node k').Part (.node k)) : k'.Tidy := hheld.tidy hk'
  obtain ⟨hfits, hproper, -⟩ := View.holds_node.1 hheld
  refine ⟨fun i j hij => ?_, fun hliteral => ?_⟩
  · rw [hnk.get _ (by decide)] at hij
    obtain ⟨sp, hsp, rfl, rfl⟩ := Report.span_of_range (htidy k .self) hr hij
    obtain ⟨-, hle, hlast⟩ := (hfits sp hsp).order hplain
    refine ⟨hle, Nat.le_trans hlast (Nat.le_trans (hb hplain).last hw), fun m hm hmkind i' j' hij' => ?_⟩
    obtain ⟨k', hk', rfl⟩ := hnk.under m hm hmkind
    obtain ⟨sp', hsp', rfl, rfl⟩ := Report.span_of_range (htidy k' hk'.part) hr hij'
    obtain ⟨a', b', ha', hb', hheld'⟩ := hheld.under hsp hk'
    obtain ⟨hfirst, -, hlast'⟩ := ((View.holds_node.1 hheld').1 sp' hsp').order hplain
    exact ⟨Nat.le_trans (ha' hplain).start hfirst, Nat.le_trans hlast' (hb' hplain).last⟩
  · have hk : k.is .literal := by
      rwa [Node.is, hnk.kind?_eq htidy] at hliteral
    obtain ⟨sp, raw, hsp, hraw, hspells⟩ := hproper.literal hk
    refine ⟨sp.first.index, sp.last.index, ?_, ?_⟩
    · rw [hnk.get _ (by decide), Report.range_dress hproper.tidy hr, hsp]
      rfl
    · rw [hnk.get _ (by decide), Report.get_dress_own hproper.tidy (by decide), hraw, ← hspells hplain]
      simp only [Report.reveal]

theorem exists_of_any {o : OptionList} [DecidablePred P]
    (h : (run e code o .idle).toOption.any (P ·)) : ∃ p, run e code o .idle = .ok p ∧ P p := by
  cases hrun : run e code o .idle with
  | ok p =>
    rw [hrun] at h
    exact ⟨p, rfl, of_decide_eq_true h⟩
  | error f =>
    rw [hrun] at h
    cases h

/-- The first expression of a program that is accepted, with what can be computed of it. -/
theorem exists_firstExpression (e : EntryPoint) (code : Text) (o : OptionList) (test : Node → Bool)
    (h : (run e code o .idle).toOption.any fun p => p.tree.firstExpression.any test) :
    ∃ p n, run e code o .idle = .ok p ∧ p.tree.firstExpression = some n ∧ test n := by
  obtain ⟨p, hrun, hany⟩ := exists_of_any (P := fun p => p.tree.firstExpression.any test) (by simpa using h)
  obtain ⟨n, hn, htest⟩ := (Option.any_eq_true _ _).1 hany
  exact ⟨p, n, hrun, hn, htest⟩

theorem ranges_nested_of_call :
    let o : OptionList := [("range", .bool true)]
    let code : Text := "f(1)"
    ∃ p n, run .parse code o .idle = .ok p ∧ p.tree.firstExpression = some n
      ∧ (∀ i j, n.get "range" = .list [.nat i, .nat j] → i ≤ j ∧ j ≤ (Source.ofText code).size
        ∧ ∀ m : Node, m.Under n → m.kind?.isSome →
          ∀ i' j', m.get "range" = .list [.nat i', .nat j'] → i ≤ i' ∧ j' ≤ j)
      ∧ (n.is .literal → ∃ i j, n.get "range" = .list [.nat i, .nat j]
        ∧ n.get "raw" = .text ((Source.ofText code).slice i j)) := by
  intro o code
  obtain ⟨p, n, hrun, hn, hkind⟩ := exists_firstExpression .parse code o (·.kind?.isSome) (by decide +kernel)
  exact ⟨p, n, hrun, hn, ranges_nested .parse code o p (by decide) (by decide) (by decide) (by decide)
    (by decide) hrun n (.of_firstExpression hn) hkind⟩

/-- **Lines and columns are those of the offsets.** A node ends on the line and in the column of the
end of its range. It starts on the line and in the column of the start, unless it starts with a token
that may go over several lines. -/
theorem loc_of_range (e : EntryPoint) (code : Text) (o : OptionList) (p : Program)
    (hrange : o.flag "range") (hloc : o.flag "loc") (hjsx : o.flag "jsx" = false)
    (hesnext : o.flag "esnext" = false) (hstrict : o.flag "tolerant" = false) (hcode : code ≠ [])
    (h : run e code o .idle = .ok p) (n : Node) (hn : (Value.node n).Part p.tree)
    (hkind : n.kind?.isSome) (i j : Nat) (hij : n.get "range" = .list [.nat i, .nat j]) :
    ∃ (first : Mark) (source : Value), n.get "loc" = Span.locValue ⟨first, (Source.ofText code).position j⟩ source
      ∧ ((Source.ofText code).char i ∉ CodePoint.longMarks → first = (Source.ofText code).position i) := by
  obtain ⟨n₀, w, w', r, hholds, -, hr, hl, hshows⟩ := places_of_run hjsx hesnext hstrict h
  obtain ⟨k, hk, hnk⟩ := hshows n hn hkind
  rw [hrange] at hr
  rw [hloc] at hl
  obtain ⟨a, b, -, -, hheld⟩ := hholds.part hk
  obtain ⟨hfits, hproper, -⟩ := View.holds_node.1 hheld
  rw [hnk.get _ (by decide)] at hij
  obtain ⟨sp, hsp, rfl, rfl⟩ := Report.span_of_range hproper.tidy hr hij
  have hsize : 0 < (Source.ofText code).size := by
    exact List.length_pos_iff.2 hcode
  refine ⟨sp.first, r.source, ?_, fun hshort => ?_⟩
  · rw [hnk.get _ (by decide), Report.loc_dress hproper.tidy hl, hsp, ← Source.place_eq_position hsize,
      ← (hfits sp hsp).last]
    rfl
  · rw [← Source.place_eq_position hsize]
    exact (hfits sp hsp).first.resolve_right hshort

theorem loc_of_range_of_member :
    let o : OptionList := [("range", .bool true), ("loc", .bool true)]
    let code : Text := "a\n.b"
    ∃ p n, run .parse code o .idle = .ok p ∧ p.tree.firstExpression = some n ∧ n.get "range" = .list [.nat 0, .nat 4]
      ∧ ∃ (first : Mark) (source : Value), n.get "loc" = Span.locValue ⟨first, (Source.ofText code).position 4⟩ source
        ∧ ((Source.ofText code).char 0 ∉ CodePoint.longMarks →
          first = (Source.ofText code).position 0) := by
  intro o code
  obtain ⟨p, n, hrun, hn, htest⟩ := exists_firstExpression .parse code o
    (fun n => n.kind?.isSome && (n.get "range").asRange? == some (0, 4)) (by decide +kernel)
  obtain ⟨hkind, hrange⟩ := Bool.and_eq_true_iff.1 htest
  have hij := Value.eq_range_of_asRange? (i := 0) (j := 4) (beq_iff_eq.1 hrange)
  exact ⟨p, n, hrun, hn, hij, loc_of_range .parse code o p (by decide) (by decide) (by decide) (by decide)
    (by decide) (by decide) hrun n (.of_firstExpression hn) hkind 0 4 hij⟩

/-- A template that goes over two lines, where the column of what starts with it is negative. -/
theorem loc_of_range_not_of_template :
    let o : OptionList := [("range", .bool true), ("loc", .bool true)]
    let code : Text := "`\n`.a"
    ∃ p n, run .parse code o .idle = .ok p ∧ (Value.node n).Part p.tree ∧ n.kind?.isSome
      ∧ n.get "range" = .list [.nat 0, .nat 5]
      ∧ ((n.get "loc").get "start").get "column" = .int (-2)
      ∧ (Source.ofText code).position 0 = ⟨0, 1, 0⟩ := by
  intro o code
  obtain ⟨p, n, hrun, hn, htest⟩ := exists_firstExpression .parse code o
    (fun n => n.kind?.isSome && (n.get "range").asRange? == some (0, 5)
      && (((n.get "loc").get "start").get "column").asInt? == some (-2)) (by decide +kernel)
  simp only [Bool.and_eq_true, beq_iff_eq] at htest
  obtain ⟨⟨hkind, hrange⟩, hcolumn⟩ := htest
  exact ⟨p, n, hrun, .of_firstExpression hn, hkind, Value.eq_range_of_asRange? hrange,
    Value.eq_int_of_asInt? hcolumn, by decide⟩

end Program

end EcmaSyntax
