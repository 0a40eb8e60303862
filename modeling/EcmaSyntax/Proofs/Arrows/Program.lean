import EcmaSyntax.Proofs.Arrows.Assignments
import EcmaSyntax.Proofs.Running.Program

/-!
# Arrow functions in programs

No arrow is left at the end of the source, so all of a program is resolved.
What is known of the tree that is read (`Grammar.resolves_program`) is known of what is reported of it
(`Program.resolved_of_run`). The parameters of an arrow function are patterns (`Program.params_of_arrow`), and no
placeholder is left (`Program.placeholder_of_comma`), unless a comma stands before the closing parenthesis: then
neither the parameters are checked (`Program.params_not_of_comma`) nor whether an arrow follows at all
(`Program.placeholder_is_left`). The parameters of an asynchronous function are never checked.
-/

namespace EcmaSyntax

open Parse

set_option synthInstance.maxSize 100000000000000
set_option synthInstance.maxHeartbeats 200000

variable {isAwait : Bool}

namespace Grammar

variable {q : Prop} {c : ParseSetting} {V : ParseState → Prop} {r : Recur} {start : Mark} [Exacting c]
  [Recur.Stepwise c r] [Recur.Stalls c r] [Recur.Resolves c V r]

/-! ### Statements -/

-- One declaration alone may be the variable of a loop, so the cases are those of the list of declarations.
instance : Resolves True c V (variableLoopHead r isAwait) := by
  refine .skip (fun start => .seq fun _ => .seq fun declarations => ?_) fun start =>
    .skip (fun _ => .seq fun declarations => ?_) fun _ =>
      .stall (fun declarations => ?_) (fun declarations => ?_) fun declarations hclear => ?_
  all_goals
    split <;> infer_instance

instance : Resolves True c V (lexicalLoopHead r isAwait) := by
  refine .skip (fun start => .seq fun t => .seq fun isStrict => .seq fun seen => ?_) fun start =>
    .skip (fun t => .seq fun isStrict => .seq fun seen => ?_) fun t =>
      .skip (fun isStrict => .seq fun seen => ?_) fun isStrict =>
        .skip (fun seen => ?_) fun seen => ?resolves
  case resolves =>
    dsimp only
    split
    · infer_instance
    · refine .stall (fun declarations => ?_) (fun declarations => ?_) fun declarations hclear => ?_
      all_goals split <;> infer_instance
  all_goals
    dsimp only
    split
    · infer_instance
    · refine .seq fun declarations => ?_
      split <;> infer_instance

instance [h : Clear (Trails c V) head] : Resolves True c V (forRest r start isAwait head) := by
  unfold forRest
  cases head with
  | steps init =>
    have : Clear (Trails c V) init := ⟨h.out⟩
    infer_instance
  | names left right =>
    have : Clear (Trails c V) left := ⟨h.out.1⟩
    have : Clear (Trails c V) right := ⟨h.out.2⟩
    infer_instance
  | values left right =>
    have : Clear (Trails c V) left := ⟨h.out.1⟩
    have : Clear (Trails c V) right := ⟨h.out.2⟩
    infer_instance

instance [Differs mark] : Stalls q c (expressionBefore r mark) := inferInstance

instance : Stalls q c (forRest r start isAwait head) := by
  cases head <;> unfold forRest <;> infer_instance

instance : Resolves True c V (statement r) := by
  refine .skip (fun t => ?_) fun t => ?_
  all_goals split <;> infer_instance

/-! ### Imports and exports -/

instance : Resolves q c V (exportNames start) := by unfold exportNames; infer_instance

/-! ### All productions -/

/-- At no depth of nesting is a placeholder left, except where a comma stands before the closing parenthesis. -/
theorem run_resolves (depth : Nat) : Recur.Resolves c V (run depth) ∧ Recur.Hands c V (run depth) := by
  induction depth with
  | zero =>
    have hnone {q : Prop} {α : Type} [Bearer Demand α] : Resolves q c V (throw .exhausted : Parse α) :=
      .ofEnsures fun _ => Ensures.throw_iff.2 trivial
    exact ⟨⟨hnone, hnone, hnone, hnone, hnone, fun _ => hnone, hnone, hnone, fun _ => hnone⟩,
      ⟨fun _ => .of_ensures (Ensures.throw_iff.2 trivial)⟩⟩
  | succ depth ih =>
    obtain ⟨hresolves, hhands⟩ := ih
    have hstalls : Recur.Stalls c (run depth) := run_stalls depth
    refine ⟨?_, ⟨fun s => ?_⟩⟩
    · have helement (hjsx : c.jsx) : Resolves False c V (run (depth + 1)).element := by
        have : HasMarkup c := ⟨hjsx⟩
        infer_instance
      constructor <;> first | infer_instance | exact helement
    · exact ensuresIn_assignment.mono fun _ _ hn => ⟨hn.1, hn.2.held⟩

/-- No arrow stands at the end of the source. -/
theorem resolves_programBody : Resolves False c V (programBody r) := by
  have hbody : Resolves True c V (programBody r) := inferInstance
  refine ⟨fun s => ((hbody.out s).and (.of_ensures ensures_programBody)).mono fun body t hbody => .inl ?_⟩
  refine hbody.1.resolve_right fun harrow => ?_
  have hmark := harrow.2.mark
  rw [hbody.2] at hmark
  cases hmark

/-- All of a program is resolved. -/
theorem resolves_program : Resolves False c V (program isModule) := by
  have hbody (depth : Nat) : Resolves False c V (programBody (run depth)) := by
    obtain ⟨hresolves, hhands⟩ := run_resolves (c := c) (V := V) depth
    have hstalls : Recur.Stalls c (run depth) := run_stalls depth
    exact resolves_programBody
  have hprogram (depth : Nat) : Resolves False c V ((if isModule then moduleProgram else script) (run depth)) := by
    cases isModule with
    | true => exact (by unfold moduleProgram; infer_instance : Resolves False c V (moduleProgram (run depth)))
    | false => exact (by unfold script; infer_instance : Resolves False c V (script (run depth)))
  refine .skip (fun _ => inferInstance) fun _ => .skip (fun c' => ?_) fun c' => hprogram _
  cases isModule with
  | true => exact inferInstanceAs (Stepwise c (moduleProgram _))
  | false => exact inferInstanceAs (Stepwise c (script _))

end Grammar

variable {vs : List Value}

/-! ### Reports of patterns -/

namespace Report

variable {r : Report} {n m : Node} {v : Value} {role : Role} {key : String} {c : ParseSetting}
  {V : ParseState → Prop}

/-- The items of a list in a report are those that were read. -/
theorem items_dress (h : (Value.node n).Neat) (hkey : key ∉ addedNames) :
    ((r.dress n).get key).items = (n.get key).items.map r.reveal := by
  rw [get_dress_own h.tidy hkey, items_reveal (h.get key)]

/-- A node in a list of a report is one that was read. -/
theorem asNode?_of_reveal (h : v.Neat) (hm : (r.reveal v).asNode? = some m) :
    ∃ n, v.asNode? = some n ∧ (Value.node n).Neat ∧ m = r.dress n := by
  rw [asNode?_reveal h] at hm
  obtain ⟨n, hn, rfl⟩ := Option.map_eq_some_iff.1 hm
  exact ⟨n, hn, h.asNode hn, rfl⟩

/-- A pattern is one in a report too. -/
theorem binds_dress (h : n.Binds role) (hneat : (Value.node n).Neat) : (r.dress n).Binds role := by
  induction h with
  | name hn => exact .name ((isAny_dress hneat _).trans hn)
  | @array role n hn hall hinit hlast ihinit ihlast =>
    have hitems := items_dress (r := r) hneat (by decide : "elements" ∉ addedNames)
    have hneats : ∀ v ∈ (n.get "elements").items, v.Neat := fun v hv => (hneat.get _).items hv
    refine .array ((is_dress hneat _).trans hn) ?_ (fun w hw m hm => ?_) fun w hw m hm => ?_
    · rw [hitems]
      refine List.forall_mem_map.2 fun v hv => (hall v hv).imp (fun hnull => ?_) fun hnode => ?_
      · rw [hnull, reveal_scalar rfl]
      · rw [asNode?_reveal (hneats v hv), Option.isSome_map]
        exact hnode
    · rw [hitems, ← List.map_dropLast] at hw
      obtain ⟨v, hv, rfl⟩ := List.mem_map.1 hw
      obtain ⟨k, hk, hkneat, rfl⟩ := asNode?_of_reveal (hneats v (List.dropLast_subset _ hv)) hm
      exact ihinit v hv k hk hkneat
    · rw [hitems, List.getLast?_map, Option.mem_def, Option.map_eq_some_iff] at hw
      obtain ⟨v, hv, rfl⟩ := hw
      obtain ⟨k, hk, hkneat, rfl⟩ := asNode?_of_reveal (hneats v (List.mem_of_getLast? hv)) hm
      exact ihlast v hv k hk hkneat
  | @object role n hn hall hrest hvalue ihrest ihvalue =>
    have hitems := items_dress (r := r) hneat (by decide : "properties" ∉ addedNames)
    have hneats : ∀ v ∈ (n.get "properties").items, v.Neat := fun v hv => (hneat.get _).items hv
    refine .object ((is_dress hneat _).trans hn) ?_ (fun w hw m hm hkind => ?_) fun w hw m hm hkind k hk => ?_
    · rw [hitems]
      refine List.forall_mem_map.2 fun v hv => ?_
      obtain ⟨m, hm, hkind⟩ := hall v hv
      have hmneat := (hneats v hv).asNode hm
      refine ⟨r.dress m, by rw [asNode?_reveal (hneats v hv), hm, Option.map_some], ?_⟩
      rw [is_dress hmneat, is_dress hmneat, child?_dress hmneat (by decide), Option.isSome_map]
      exact hkind
    · rw [hitems] at hw
      obtain ⟨v, hv, rfl⟩ := List.mem_map.1 hw
      obtain ⟨k, hk, hkneat, rfl⟩ := asNode?_of_reveal (hneats v hv) hm
      exact ihrest v hv k hk ((is_dress hkneat _).symm.trans hkind) hkneat
    · rw [hitems] at hw
      obtain ⟨v, hv, rfl⟩ := List.mem_map.1 hw
      obtain ⟨j, hj, hjneat, rfl⟩ := asNode?_of_reveal (hneats v hv) hm
      rw [child?_dress hjneat (by decide)] at hk
      obtain ⟨i, hi, rfl⟩ := Option.map_eq_some_iff.1 hk
      exact ihvalue v hv j hj ((is_dress hjneat _).symm.trans hkind) i hi (hjneat.child hi)
  | @default role n m hrole hn hleft _ ih =>
    refine .default hrole ((is_dress hneat _).trans hn) ?_ (ih (hneat.child hleft))
    rw [child?_dress hneat (by decide), hleft, Option.map_some]
  | @rest n m hn hargument _ ih =>
    refine .rest ((is_dress hneat _).trans hn) ?_ (ih (hneat.child hargument))
    rw [child?_dress hneat (by decide), hargument, Option.map_some]

/-- Parameters are patterns in a report too. -/
theorem bindAll_reveal (h : Value.BindAll vs) (hneat : ∀ v ∈ vs, v.Neat) : Value.BindAll (vs.map r.reveal) := by
  have hbinds {role : Role} (v : Value) (hv : v ∈ vs) (hm : v.Binds role) : (r.reveal v).Binds role := by
    obtain ⟨m, rfl, hm⟩ := hm
    rw [reveal_tidy (hneat _ hv).tidy]
    exact ⟨_, rfl, binds_dress hm (hneat _ hv)⟩
  exact (h.mono (fun v hv => hbinds v hv) fun v hv => hbinds v hv).map

theorem trails_reveal
    (h : Trails c V vs isArrow) (hneat : ∀ v ∈ vs, v.Neat) : Trails c V (vs.map r.reveal) isArrow := by
  obtain ⟨n, u, v, w, comma, closing, hlast, hlatest, hrest⟩ := h
  refine ⟨r.dress n, u, v, w, comma, closing, ?_, hlatest.of_serial serial_dress, hrest⟩
  rw [List.getLast?_map, hlast, Option.map_some, reveal_tidy (hneat _ (List.mem_of_getLast? hlast)).tidy]

/-- The names that are bound by the value of an attribute. -/
def boundNamesOf (key : String) : Value → List Text
  | .list vs => if key = "properties" then Value.boundNamesProperties vs else Value.boundNamesAll vs
  | v => v.boundNames

theorem boundNamesAt_eq (key : String) (fields : List (String × Value)) :
    Value.boundNamesAt key fields = boundNamesOf key ((fields.lookup key).getD .null) := by
  induction fields with
  | nil => rfl
  | cons f fields ih =>
    obtain ⟨name, v⟩ := f
    rw [Node.lookup_cons_eq]
    by_cases hname : name = key
    · subst hname
      cases v <;> simp [Value.boundNamesAt, boundNamesOf]
    · rw [if_neg (Ne.symm hname), ← ih]
      cases v <;> simp [Value.boundNamesAt, hname]

theorem boundNamesAt_get (h : n.Tidy) (hkey : key ∈ Node.patternNames) :
    Value.boundNamesAt key n.fields = boundNamesOf key (n.get key) := by
  have hnone : n.extra.lookup key = none :=
    List.lookup_eq_none_iff.2 fun p hp => bne_iff_ne.2 fun heq => h.bound p.1 (List.mem_map_of_mem hp) (heq ▸ hkey)
  rw [boundNamesAt_eq, Node.get, hnone]

theorem boundNames_node (n : Node) : (Value.node n).boundNames = match n.kind? with
    | some .identifier => [n.textOf "name"]
    | some .restElement => Value.boundNamesAt "argument" n.fields
    | some .assignmentPattern => Value.boundNamesAt "left" n.fields
    | some .arrayPattern => Value.boundNamesAt "elements" n.fields
    | some .objectPattern => Value.boundNamesAt "properties" n.fields
    | _ => [] := rfl

/-- What a pattern binds is the same in a report. -/
structure BindsAlike (r : Report) (v : Value) : Prop where
  names : (r.reveal v).boundNames = v.boundNames
  property : (r.reveal v).boundNamesProperty = v.boundNamesProperty
  of (key : String) : boundNamesOf key (r.reveal v) = boundNamesOf key v

theorem BindsAlike.map (hneat : ∀ v ∈ vs, v.Neat) (h : ∀ v ∈ vs, r.BindsAlike v) :
    Value.boundNamesAll (vs.map r.reveal) = Value.boundNamesAll vs
      ∧ Value.boundNamesProperties (vs.map r.reveal) = Value.boundNamesProperties vs := by
  induction vs with
  | nil => exact ⟨rfl, rfl⟩
  | cons v vs ih =>
    rw [List.forall_mem_cons] at hneat h
    have hkind : (r.reveal v).kind? = v.kind? := by
      rw [Value.kind?, asNode?_reveal hneat.1, Value.kind?]
      cases hv : v.asNode? with
      | none => rfl
      | some n => exact kind?_dress (hneat.1.asNode hv)
    simp only [List.map_cons, Value.boundNamesAll, Value.boundNamesProperties, hkind, h.1.names, h.1.property,
      ih hneat.2 h.2, and_self]

theorem bindsAlike_of_neat : ∀ v : Value, v.Neat → r.BindsAlike v
  | .object form serial span fields extra, h => by
    let n : Node := ⟨form, serial, span, fields, extra⟩
    have h : (Value.node n).Neat := h
    have hat (key : String) (hkey : key ∈ Node.patternNames) (hadded : key ∉ addedNames) :
        Value.boundNamesAt key (r.dress n).fields = Value.boundNamesAt key n.fields := by
      have hget : boundNamesOf key ((r.dress n).get key) = boundNamesOf key (n.get key) := by
        rw [get_dress_own h.tidy hadded, (bindsAlike_of_neat (n.get key) (h.get key)).of key]
      rw [boundNamesAt_get h.tidy hkey, ← hget, boundNamesAt_eq]
      rfl
    have hnames : (Value.node (r.dress n)).boundNames = (Value.node n).boundNames := by
      rw [boundNames_node, boundNames_node, kind?_dress h, textOf_dress h (by decide), hat _ (by decide) (by decide),
        hat _ (by decide) (by decide), hat _ (by decide) (by decide), hat _ (by decide) (by decide)]
    have hreveal : r.reveal (.object form serial span fields extra) = .node (r.dress n) := reveal_object h
    refine ⟨?_, ?_, fun key => ?_⟩
    all_goals rw [hreveal]
    · exact hnames
    · exact hat "value" (by decide) (by decide)
    · exact hnames
  | .list vs, h => by
    have hneat (v : Value) (hv : v ∈ vs) : v.Neat := h.items hv
    have hall := BindsAlike.map (r := r) hneat fun v hv => bindsAlike_of_neat v (hneat v hv)
    refine ⟨by simp only [reveal, Value.boundNames], by simp only [reveal, Value.boundNamesProperty], fun key => ?_⟩
    simp only [reveal, revealAll_eq_map, boundNamesOf, hall]
  | .null, _ | .bool _, _ | .int _, _ | .float _, _ | .text _, _ | .dict _, _ | .kind _, _ | .pattern _, _
  | .ref _, _ => ⟨by simp only [reveal, Value.boundNames], by simp only [reveal, Value.boundNamesProperty],
    fun _ => by simp only [reveal, boundNamesOf, Value.boundNames]⟩
termination_by v => sizeOf v
decreasing_by
  · exact Node.sizeOf_get_lt _ key
  · have := List.sizeOf_lt_of_mem hv
    rw [Value.list.sizeOf_spec]
    omega

theorem bindOnce_reveal (h : Value.BindOnce vs) (hneat : ∀ v ∈ vs, v.Neat) : Value.BindOnce (vs.map r.reveal) := by
  rwa [Value.BindOnce, (BindsAlike.map hneat fun v hv => bindsAlike_of_neat v (hneat v hv)).1]

/-- What shows a node that is resolved is resolved. -/
theorem Shows.resolved (h : r.Shows n m) (hneat : (Value.node n).Neat)
    (hn : n.Resolved (Trails c V)) : m.Resolved (Trails c V) := by
  have hget (key : String) (hkey : key ∉ ["comments", "tokens", "errors"]) : m.get key = (r.dress n).get key :=
    h.get key hkey
  have his (k : Kind) : m.is k = n.is k := by
    rw [← is_dress hneat, Node.is, Node.kind?, hget _ (by decide)]
    rfl
  have hasync : m.has "isAsync" = n.has "isAsync" := by
    rw [← has_dress hneat (by decide), Node.has, hget _ (by decide)]
    rfl
  have hparams : (m.get "params").items = (n.get "params").items.map r.reveal := by
    rw [hget _ (by decide), items_dress hneat (by decide)]
  have hneats : ∀ v ∈ (n.get "params").items, v.Neat := fun v hv => (hneat.get _).items hv
  refine ⟨fun hm => ?_, fun hm hplain => ?_, fun hm => ?_⟩
  all_goals rw [hparams]
  · exact trails_reveal (hn.placeholder (his _ ▸ hm)) hneats
  · exact (hn.arrow (his _ ▸ hm) (hasync ▸ hplain)).imp (bindAll_reveal · hneats) (trails_reveal · hneats)
  · exact bindOnce_reveal (hn.once (his _ ▸ hm)) hneats

end Report

namespace Program

/-- A comma and a closing parenthesis are read after the last one of some parameters while a program is read, with
an arrow behind them or not. -/
def HasComma (code : Text) (a : Options) (params : List Value) (isArrow : Bool) : Prop :=
  let c := setting (.ofText code) a .idle
  Trails c (CallsAt c (Grammar.program a.isModule) (.start c.source)) params isArrow

/-- All of a program that is accepted is resolved. -/
theorem resolved_of_run (hstrict : o.flag "tolerant" = false) (h : run e code o .idle = .ok p) :
    ∃ a, Options.preset (e.options o) = .ok a ∧ ∀ n, (Value.node n).Part p.tree → n.kind?.isSome →
      n.Resolved (HasComma code a) := by
  obtain ⟨a, ha, hparse⟩ := parse_of_run h
  obtain ⟨n₀, s, comments, tree, hread, hcomments, hreport, rfl⟩ := parse_eq_ok_iff.1 hparse
  refine ⟨a, ha, fun m hm hkind => ?_⟩
  let c := setting (.ofText code) a .idle
  have htolerant : a.tolerant = false := by
    rw [← e.withFlags_eq ha]
    exact hstrict
  have : Exacting c := ⟨rfl, htolerant⟩
  have hformed := formed_read (.ofText code) a
  rw [hread] at hformed
  have hneat := ensures_program_neat ⟨rfl, fun e he => nomatch Array.not_mem_empty e he⟩ n₀ s hread
  obtain ⟨n, hn, hshows⟩ := shows_of_part hformed.loggable (ensures_program rfl n₀ s hread) hneat hcomments hreport hm
    hkind
  have hresolved : (Value.node n₀).Resolved (HasComma code a) := by
    have hprogram : Resolves False c (CallsAt c (Grammar.program a.isModule) (.start c.source))
        (Grammar.program a.isModule) := Grammar.resolves_program
    exact (hprogram.out (.start c.source) (fun _ hu => hu) n₀ s hread).resolve_right fun hnever => hnever.1
  exact hshows.resolved (fun k hk => hneat k (hk.trans hn)) (hresolved n hn)

/-! ### Parameters -/

/-- **The parameters of an arrow function** are patterns, unless the function is asynchronous or a comma stands
before the closing parenthesis. -/
theorem params_of_arrow (e : EntryPoint) (code : Text) (o : OptionList) (p : Program)
    (hstrict : o.flag "tolerant" = false) (h : run e code o .idle = .ok p) (n : Node)
    (hn : (Value.node n).Part p.tree) (harrow : n.is .arrowFunctionExpression) :
    n.has "isAsync" ∨ Value.BindAll (n.get "params").items
      ∨ ∃ a, Options.preset (e.options o) = .ok a ∧ HasComma code a (n.get "params").items true := by
  obtain ⟨a, ha, hresolved⟩ := resolved_of_run hstrict h
  cases hasync : n.has "isAsync" with
  | true => exact .inl rfl
  | false =>
    have hkind : n.kind?.isSome := by rw [beq_iff_eq.1 harrow]; rfl
    exact .inr (((hresolved n hn hkind).arrow harrow hasync).imp_right fun hcomma => ⟨a, ha, hcomma⟩)

/-- A pattern with a default, and a rest. -/
theorem params_of_arrow_of_rest :
    let code : Text := "([a]=b,...c)=>d"
    ∃ p n, run .parse code [] .idle = .ok p ∧ (Value.node n).Part p.tree ∧ n.is .arrowFunctionExpression
      ∧ (n.has "isAsync" ∨ Value.BindAll (n.get "params").items
        ∨ ∃ a, Options.preset (EntryPoint.parse.options []) = .ok a
          ∧ HasComma code a (n.get "params").items true) := by
  intro code
  obtain ⟨p, n, hrun, hn, harrow⟩ := exists_firstExpression .parse code []
    (·.is .arrowFunctionExpression) (by decide +kernel)
  have hpart := Value.Part.of_firstExpression hn
  exact ⟨p, n, hrun, hpart, harrow, params_of_arrow .parse code [] p (by decide) hrun n hpart harrow⟩

/-- A number is a parameter if a comma stands behind it. -/
theorem params_not_of_comma :
    ∃ p n, run .parse "(1,)=>x" [] .idle = .ok p ∧ (Value.node n).Part p.tree ∧ n.is .arrowFunctionExpression
      ∧ ∃ v ∈ (n.get "params").items, ¬ v.Binds .last := by
  obtain ⟨p, n, hrun, hn, htest⟩ := exists_firstExpression .parse "(1,)=>x" []
    (fun n => n.is .arrowFunctionExpression
      && (n.get "params").items.any fun v => v.asNode?.any (·.is .literal)) (by decide +kernel)
  obtain ⟨harrow, hany⟩ := Bool.and_eq_true_iff.1 htest
  obtain ⟨v, hv, hliteral⟩ := List.any_eq_true.1 hany
  obtain ⟨m, hm, hliteral⟩ := (Option.any_eq_true _ _).1 hliteral
  refine ⟨p, n, hrun, .of_firstExpression hn, harrow, v, hv, fun hbinds => ?_⟩
  rw [Value.eq_node_of_asNode? hm, Value.binds_node] at hbinds
  exact Bool.false_ne_true ((Node.not_isAny_of_is hliteral (by decide)).symm.trans hbinds.isAny)

/-- **The parameters of an arrow function bind each name once**, asynchronous or not, unless one of the names is
one that strict code does not allow for a parameter. -/
theorem nodup_params_of_arrow (e : EntryPoint) (code : Text) (o : OptionList) (p : Program)
    (hstrict : o.flag "tolerant" = false) (h : run e code o .idle = .ok p) (n : Node)
    (hn : (Value.node n).Part p.tree) (harrow : n.is .arrowFunctionExpression) :
    (Value.boundNamesAll (n.get "params").items).Nodup
      ∨ ∃ name ∈ Value.boundNamesAll (n.get "params").items, Word.isRestricted name ∨ Word.isStrictReserved name := by
  obtain ⟨a, -, hresolved⟩ := resolved_of_run hstrict h
  have hkind : n.kind?.isSome := by rw [beq_iff_eq.1 harrow]; rfl
  exact (hresolved n hn hkind).once harrow

/-- Three names, two of them inside of patterns. -/
theorem nodup_params_of_arrow_of_patterns :
    let code : Text := "async(a,{b:[c]=d})=>e"
    ∃ p n, run .parse code [] .idle = .ok p ∧ (Value.node n).Part p.tree ∧ n.is .arrowFunctionExpression
      ∧ ((Value.boundNamesAll (n.get "params").items).Nodup ∨ ∃ name ∈ Value.boundNamesAll (n.get "params").items,
        Word.isRestricted name ∨ Word.isStrictReserved name) := by
  intro code
  obtain ⟨p, n, hrun, hn, harrow⟩ := exists_firstExpression .parse code []
    (·.is .arrowFunctionExpression) (by decide +kernel)
  have hpart := Value.Part.of_firstExpression hn
  exact ⟨p, n, hrun, hpart, harrow, nodup_params_of_arrow .parse code [] p (by decide) hrun n hpart harrow⟩

/-- Behind a name that is suspect, the others are not looked at. -/
theorem params_not_nodup : ∃ p n, run .parse "(eval,a,a)=>1" [] .idle = .ok p ∧ (Value.node n).Part p.tree
      ∧ n.is .arrowFunctionExpression ∧ ¬ (Value.boundNamesAll (n.get "params").items).Nodup := by
  obtain ⟨p, n, hrun, hn, htest⟩ := exists_firstExpression .parse "(eval,a,a)=>1" []
    (fun n => n.is .arrowFunctionExpression
      && ¬ (Value.boundNamesAll (n.get "params").items).Nodup) (by decide +kernel)
  obtain ⟨harrow, htwice⟩ := Bool.and_eq_true_iff.1 htest
  exact ⟨p, n, hrun, .of_firstExpression hn, harrow, of_decide_eq_true htwice⟩

/-! ### Placeholders -/

/-- **A placeholder** is left only where a comma stands before the closing parenthesis and no arrow follows. -/
theorem placeholder_of_comma (e : EntryPoint) (code : Text) (o : OptionList) (p : Program)
    (hstrict : o.flag "tolerant" = false) (h : run e code o .idle = .ok p) (n : Node)
    (hn : (Value.node n).Part p.tree) (hplaceholder : n.is .arrowParameters) :
    ∃ a, Options.preset (e.options o) = .ok a ∧ HasComma code a (n.get "params").items false := by
  obtain ⟨a, ha, hresolved⟩ := resolved_of_run hstrict h
  have hkind : n.kind?.isSome := by rw [beq_iff_eq.1 hplaceholder]; rfl
  exact ⟨a, ha, (hresolved n hn hkind).placeholder hplaceholder⟩

/-- A placeholder of which a member is accessed. -/
theorem placeholder_of_comma_of_member :
    let code : Text := "(a,)[b]"
    ∃ p path n, run .parse code [] .idle = .ok p ∧ (Value.node n).Path path p.tree ∧ n.is .arrowParameters
      ∧ ∃ a, Options.preset (EntryPoint.parse.options []) = .ok a ∧ HasComma code a (n.get "params").items false := by
  intro code
  obtain ⟨p, path, n, hrun, hn, hplaceholder⟩ := exists_follow .parse code [] ["body", "expression", "object"]
    (fun _ n => n.is .arrowParameters) (by decide) (by decide +kernel)
  exact ⟨p, path, n, hrun, hn, hplaceholder,
    placeholder_of_comma .parse code [] p (by decide) hrun n hn.part hplaceholder⟩

/-- A placeholder in a program that is accepted. -/
theorem placeholder_is_left :
    ∃ p n, run .parse "(a,).b" [] .idle = .ok p ∧ (Value.node n).Part p.tree ∧ n.is .arrowParameters := by
  obtain ⟨p, path, n, hrun, hn, hplaceholder⟩ := exists_follow .parse "(a,).b" [] ["body", "expression", "object"]
    (fun _ n => n.is .arrowParameters) (by decide) (by decide +kernel)
  exact ⟨p, n, hrun, hn.part, hplaceholder⟩

end Program

end EcmaSyntax
