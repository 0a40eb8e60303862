import EcmaSyntax.Proofs.Arrows.Groups
import Mathlib.Data.List.Forall2

/-!
# Arrow functions and assignments

At an arrow, a placeholder gives its parameters to a function, and a name becomes the only parameter. So
what is read as an assignment is no placeholder, and it is resolved unless another arrow follows.
-/

namespace EcmaSyntax

open Parse

set_option synthInstance.maxSize 100000000000000

variable {c : ParseSetting} {V : ParseState → Prop} {s : ParseState}

variable {T : Demand} {isAsync : Bool} {e : Node} {first : Token}

/-! ### Parameters that were read as expressions -/

/-- What a parameter becomes in a function: all that is known of it stays. -/
structure Value.Covers (T : Demand) (v w : Value) : Prop where
  resolved : v.Resolved T → w.Resolved T
  binds {role : Role} : v.Binds role → w.Binds role
  serial {n : Node} : v = .node n → ∃ m, w = .node m ∧ m.serial = n.serial

namespace Value.Covers

variable {v w : Value} {vs ws : List Value}

theorem refl : v.Covers T v := ⟨id, id, fun h => ⟨_, h, rfl⟩⟩

/-- What is kept from each value to the one that it becomes is kept from all of them. -/
theorem forall_mem {P : Value → Prop} (h : List.Forall₂ (Covers T) vs ws) (hP : ∀ v w, v.Covers T w → P v → P w)
    (hvs : ∀ v ∈ vs, P v) : ∀ w ∈ ws, P w := by
  induction h with
  | nil => exact hvs
  | cons hv _ ih =>
    rw [List.forall_mem_cons] at hvs ⊢
    exact ⟨hP _ _ hv hvs.1, ih hvs.2⟩

/-- The last one becomes the last one. -/
theorem rel_getLast? (h : List.Forall₂ (Covers T) vs ws) : Option.Rel (Covers T) vs.getLast? ws.getLast? := by
  induction h with
  | nil => exact .none
  | cons hv htail ih =>
    cases htail with
    | nil => exact .some hv
    | cons => simpa only [List.getLast?_cons_cons] using ih

theorem bindAll (h : List.Forall₂ (Covers T) vs ws) (hvs : BindAll vs) : BindAll ws := by
  refine ⟨?_, fun w hw => ?_⟩
  · have hinit : List.Forall₂ (Covers T) vs.dropLast ws.dropLast := by
      rw [List.dropLast_eq_take, List.dropLast_eq_take, h.length_eq]
      exact List.forall₂_take _ h
    exact forall_mem hinit (fun _ _ hv => hv.binds) hvs.1
  · have hlast := rel_getLast? h
    rw [Option.mem_def.1 hw] at hlast
    cases hv : vs.getLast? with
    | none =>
      rw [hv] at hlast
      cases hlast
    | some v =>
      rw [hv] at hlast
      cases hlast with
      | some hcovers => exact hcovers.binds (hvs.2 v hv)

theorem trails (h : List.Forall₂ (Covers (Trails c V)) vs ws) (hvs : Trails c V vs isArrow) :
    Trails c V ws isArrow := by
  obtain ⟨n, u, v, w, comma, closing, hlast, hlatest, hrest⟩ := hvs
  have hrel := rel_getLast? h
  rw [hlast] at hrel
  cases hws : ws.getLast? with
  | none =>
    rw [hws] at hrel
    cases hrel
  | some w' =>
    rw [hws] at hrel
    cases hrel with
    | some hcovers =>
      obtain ⟨m, rfl, hserial⟩ := hcovers.serial rfl
      exact ⟨m, u, v, w, comma, closing, hws, hlatest.of_serial hserial, hrest⟩

end Value.Covers

/-- A node has its kind as an attribute. -/
theorem Node.isAny_congr {m n : Node} (h : m.get "type" = n.get "type") (ks : List Kind) : m.isAny ks = n.isAny ks := by
  have his : m.is = n.is := funext fun k => by rw [Node.is, Node.kind?, h]; rfl
  rw [Node.isAny, his]
  rfl

/-- Nothing is said of a name that was a yield. -/
theorem Value.Resolved.asYieldName (h : (Value.node n).Resolved T)
    (hn : n.is .yieldExpression) : (Value.node (Grammar.asYieldName n)).Resolved T := by
  have hkind : (n.set "type" (.kind .identifier)).isAny arrowKinds = false := by
    rcases Node.get_set_self n "type" (.kind .identifier) with hget | hget
    · refine Node.not_isAny_of_is (k := .identifier) ?_ (by decide)
      rw [Node.is, Node.kind?, hget]
      rfl
    · rw [Node.isAny_congr hget]
      exact Node.not_isAny_of_is hn (by decide)
  have hset {m : Node} {v : Value} (hm : m.isAny arrowKinds = false) : (m.set "name" v).isAny arrowKinds = false :=
    (Node.isAny_congr (Node.get_set_of_ne (by decide)) _).trans hm
  have herase {m : Node} {name : String} (hm : m.isAny arrowKinds = false) (hname : "type" ≠ name) :
      (m.erase name).isAny arrowKinds = false :=
    (Node.isAny_congr (Node.get_erase_of_ne hname) _).trans hm
  have hargument := herase (hset (v := .word "yield") hkind) (by decide : "type" ≠ "argument")
  exact (((h.set (.scalar rfl) hkind).set (.scalar rfl) (hset hkind)).erase hargument).erase
    (herase hargument (by decide))

namespace Grammar

theorem covers_set_right (hp : p.is .assignmentPattern)
    (hright : p.child? "right" = some right) (hyield : right.is .yieldExpression) :
    (Value.node p).Covers T (Value.node (p.set "right" (asYieldName right))) where
  resolved h := by
    refine h.set (((h.get rfl).asNode hright).asYieldName hyield) ?_
    rw [Node.isAny_congr (Node.get_set_of_ne (by decide))]
    exact Node.not_isAny_of_is hp (by decide)
  binds h := by
    obtain ⟨m, hm, hbinds⟩ := h
    cases Value.node_injective hm
    exact ⟨_, rfl, hbinds.set_right hp _⟩
  serial h := by
    cases Value.node_injective h
    exact ⟨_, rfl, Node.set_serial⟩

theorem ensures_coverParameter_covers :
    Ensures (coverParameter isAsync param) c s fun v _ => param.Covers T v := by
  unfold coverParameter
  split
  · next p hnode =>
    obtain rfl : param = .node p := Value.eq_node_of_asNode? hnode
    split
    · next hpattern =>
      split
      · next right hright =>
        split
        · next hyield =>
          split
          · exact .anyway fun _ _ => .seq ensures_unexpected
          · exact .pure (covers_set_right hpattern hright hyield)
        · exact .pure .refl
      · exact .pure .refl
    · split
      · exact .anyway fun _ _ => .seq ensures_unexpected
      · exact .pure .refl
  · exact .pure .refl

/-- Each of some things becomes one of those that are made. -/
theorem ensures_mapM_forall₂ {f : α → Parse β} {R : α → β → Prop}
    (hf : ∀ x s, Ensures (f x) c s fun y _ => R x y) {l : List α} :
    Ensures (l.mapM f) c s fun ys _ => List.Forall₂ R l ys := by
  induction l generalizing s with
  | nil => exact .pure .nil
  | cons x l ih =>
    rw [List.mapM_cons]
    exact (hf x s).bind fun y t hy => ih.bind fun ys u hys => .pure (.cons hy hys)

/-- Parameters are judged by all names that they bind. -/
theorem judged_foldl_push {strict : Bool} (params : List Value) {f : Formals} (hf : f.Judged strict false) :
    let f' := params.foldl (fun f p =>
      f.push strict p (p.boundNames.map fun name => (Culprit.expression, name))) f
    f'.params = f.params ++ params ∧ f'.names.reverse = f.names.reverse ++ Value.boundNamesAll params
      ∧ f'.Judged strict false := by
  induction params generalizing f with
  | nil => simpa [Value.boundNamesAll] using hf
  | cons p params ih =>
    simpa [Formals.params_push, Formals.names_push, Value.boundNamesAll, Function.comp_def] using
      ih (hf.push p (p.boundNames.map fun name => (Culprit.expression, name)))

/-- The values that an expression before an arrow stands for. -/
def arrowParams (e : Node) : List Value :=
  if e.is .identifier then [.node e] else (e.get "params").items

/-- The parameters of a function are those that an expression stands for, unless that cannot be parameters. -/
theorem ensures_coverFormals_covers : Ensures (coverFormals e) c s fun f t =>
      (f = none → t = s ∧ e.is .identifier = false ∧ e.is .arrowParameters = false) ∧
      ∀ f' ∈ f, (e.is .identifier ∨ e.is .arrowParameters) ∧
        List.Forall₂ (Value.Covers T) (arrowParams e) f'.params ∧ Value.BindOnce f'.params := by
  rw [coverFormals]
  dsimp only
  split
  · next he =>
    refine (ensures_mapM_forall₂ (R := Value.Covers T) fun _ _ => ensures_coverParameter_covers).bind fun params t hparams => ?_
    rw [Ensures.step_bind]
    have hrest {f : Formals} (hf : f.params = params)
        (honce : f.cause ≠ some .duplicateParameter → Value.BindOnce params) {u : ParseState} : Ensures (do
        if f.cause = some .duplicateParameter then
          fail (← errorFor (if t.context.strict then f.stricted else f.firstRestricted) .duplicateParameter)
        return some f) c u fun f t => (f = none → t = s ∧ e.is .identifier = false ∧ e.is .arrowParameters = false) ∧
          ∀ f' ∈ f, (e.is .identifier ∨ e.is .arrowParameters) ∧
            List.Forall₂ (Value.Covers T) (arrowParams e) f'.params ∧ Value.BindOnce f'.params := by
      split
      · exact .anyway fun _ _ => .seq (Ensures.throw_iff.2 trivial)
      · next hcause =>
        refine .pure ⟨fun hnone => (by cases hnone), fun f' hf' => ?_⟩
        cases hf'
        rw [hf]
        exact ⟨Bool.or_eq_true_iff.1 he, hparams, honce hcause⟩
    obtain ⟨hf, hnames, hjudged⟩ := judged_foldl_push params (Formals.judged_start t.context.strict none)
    split
    · exact .anyway fun _ _ => .seq ensures_unexpected
    · exact hrest hf (hjudged.bindOnce hnames)
  · next hn =>
    rw [Bool.or_eq_true, not_or, Bool.not_eq_true, Bool.not_eq_true] at hn
    exact .pure ⟨fun _ => ⟨rfl, hn⟩, fun f hf => (by cases hf)⟩

section

/-- What is known of an expression before an arrow is known of its parameters. -/
theorem resolved_arrowParams (hs : e.Held c V s) (he : e.is .identifier ∨ e.is .arrowParameters) :
    ∀ v ∈ arrowParams e, v.Resolved (Trails c V) := by
  unfold arrowParams
  split
  · next hname => exact List.forall_mem_singleton.2 (hs.name hname)
  · next hname => exact hs.params (he.resolve_left hname)

theorem checked_arrowParams (hs : e.Held c V s) (he : e.is .identifier ∨ e.is .arrowParameters)
    (harrow : s.lookahead.lexeme.isMark "=>") :
    e.has "isAsync" = true ∨ Trails c V (arrowParams e) true ∨ Value.BindAll (arrowParams e) := by
  unfold arrowParams
  split
  · next hname =>
    have hbindable : e.isAny bindable := List.any_eq_true.2 ⟨.identifier, by decide, hname⟩
    exact .inr (.inr (.of_forall (List.forall_mem_singleton.2 ⟨e, rfl, .name hbindable⟩)))
  · next hname =>
    have hchecked := hs.checked (he.resolve_left hname)
    rw [harrow] at hchecked
    exact hchecked.imp_right fun h => h.imp_right And.right

end

/-! ### Arrow functions -/

/-- An arrow function of which all is known. -/
theorem clear_arrow {body expression : Value}
    (hparams : ∀ v ∈ params, v.Resolved T) (hchecked : isAsync = true ∨ T params true ∨ Value.BindAll params)
    (honce : Value.BindOnce params) [hbody : Clear T body] [hexpression : Clear T expression] :
    Clear T ((if isAsync then Node.asyncArrowFunctionExpression else Node.arrowFunctionExpression)
      (.list params) body expression) := by
  have hlist : (Value.list params).Resolved T := Value.resolved_list.2 hparams
  have hbool (b : Bool) : (Value.bool b).Resolved T := .scalar rfl
  have hparts : ∀ f ∈ [("generator", Value.bool false), ("isAsync", .bool isAsync), ("params", .list params),
      ("body", body), ("expression", expression)], isPlace f.1 = false → f.2.Resolved T := by
    simpa [hbool, hlist] using ⟨fun _ => hbody.out, fun _ => hexpression.out⟩
  cases isAsync with
  | true =>
    refine ⟨Value.resolved_node.2 ⟨⟨fun h => (by cases h), fun _ h => (by cases h), fun _ => honce⟩, ?_⟩⟩
    exact Fits.forall_ofKind (fun _ => .scalar rfl) hparts
  | false =>
    refine ⟨Value.resolved_node.2 ⟨⟨fun h => (by cases h), fun _ _ => ?_, fun _ => honce⟩, ?_⟩⟩
    · exact (hchecked.resolve_left Bool.false_ne_true).symm
    · exact Fits.forall_ofKind (fun _ => .scalar rfl) hparts

section

variable {r : Recur} [Exacting c] [Recur.Stepwise c r] [Recur.Stalls c r] [Recur.Resolves c V r]

theorem ensuresIn_arrowRest (hparams : ∀ v ∈ f.params, v.Resolved (Trails c V)) (honce : Value.BindOnce f.params)
    (hchecked : s.lookahead.lexeme.isMark "=>" → isAsync = true ∨ Trails c V f.params true ∨ Value.BindAll f.params) :
    EnsuresIn V (arrowRest r start isAsync f) c s fun n t => n.Grouped c V t := by
  refine .expect fun harrow _ _ t _ => ?_
  have hclear {body expression : Value} [Clear (Trails c V) body] [Clear (Trails c V) expression] :
      Clear (Trails c V) ((if isAsync then Node.asyncArrowFunctionExpression else Node.arrowFunctionExpression)
        (.list f.params) body expression) := clear_arrow hparams (hchecked harrow) honce
  exact Node.Grouped.ensuresIn

/-- At an arrow, an expression gives its parameters to a function, or is left alone. -/
theorem ensuresIn_arrowFunction (hs : e.Held c V s)
    (hresolved : e.is .arrowParameters = false → (Value.node e).Resolved (Trails c V) ∨ AtArrow c s) :
    EnsuresIn V (arrowFunction r first e) c s fun n t => n.is .arrowParameters = false ∧ n.Grouped c V t := by
  have hrest {f : Formals} {t : ParseState} (ht : t.lookahead = s.lookahead)
      (hf : (e.is .identifier ∨ e.is .arrowParameters) ∧
        List.Forall₂ (Value.Covers (Trails c V)) (arrowParams e) f.params ∧ Value.BindOnce f.params) :
        EnsuresIn V (do
        setContext fun c => { c with coverError := none }
        withStrictness f <| withYield true (some (e.has "isAsync")) <|
          arrowRest r (first.startMark 0) (e.has "isAsync") f) c t fun n t =>
          n.is .arrowParameters = false ∧ n.Grouped c V t := by
    obtain ⟨he, hf, honce⟩ := hf
    have hparams := Value.Covers.forall_mem hf (fun _ _ hv => hv.resolved) (resolved_arrowParams hs he)
    refine .step rfl (.within (.within ?_))
    refine ((ensuresIn_arrowRest hparams honce fun harrow => ?_).and (.of_ensures (Names.out Exacting.idle))).mono
      fun n u hn => ⟨?_, (hn.1.inContext _).inContext _⟩
    · have hchecked := checked_arrowParams hs he (ht ▸ harrow)
      exact hchecked.imp_right fun h => h.imp (Value.Covers.trails hf) (Value.Covers.bindAll hf)
    · exact Node.not_is_of_isAny hn.2 (by decide)
  refine .step rfl (EnsuresIn.bind (.of_ensures ((ensures_coverFormals_covers (T := Trails c V)).and
    (Quiet.kept (d := true) inferInstance c _))) fun f t hf => ?_)
  obtain ⟨⟨hnone, hsome⟩, hkept⟩ := hf
  cases f with
  | none =>
    obtain ⟨rfl, -, hplain⟩ := hnone rfl
    exact .pure ⟨hplain, hs.inContext _, (hresolved hplain).imp_right fun harrow => harrow.inContext _⟩
  | some f =>
    refine .step rfl ?_
    split
    · refine .step rfl ?_
      refine EnsuresIn.bind (.of_ensures (Quiet.kept (d := true) inferInstance c t)) fun _ u hu => ?_
      exact hrest (hu.lookahead.trans hkept.lookahead) (hsome f rfl)
    · exact hrest hkept.lookahead (hsome f rfl)

/-- A name is read whole, whatever follows. -/
theorem ensuresIn_primary_name (hs : s.lookahead.lexeme.isIdentifier || s.lookahead.lexeme.isKeyword "yield") :
    EnsuresIn V (primary r) c s fun n _ => (Value.node n).Resolved (Trails c V) := by
  have hresolved {p : Parse Node} [hp : Resolves False c V p] : EnsuresIn V p c s fun n _ =>
      (Value.node n).Resolved (Trails c V) :=
    (hp.out s).mono fun _ _ hn => hn.resolve_right fun h => h.1
  refine .step rfl (.step rfl ?_)
  split
  · next hmarkup =>
    rw [Lexeme.eq_punctuator (Bool.and_eq_true_iff.1 hmarkup).2] at hs
    cases hs
  · refine .step rfl (.step rfl ?_)
    split
    case h_1 => exact hresolved
    case h_11 => exact hresolved
    case h_12 => exact hresolved
    all_goals
      next hother =>
      rw [hother] at hs
      cases hs

theorem ensuresIn_asyncParameter (hs : e.Grouped c V s) :
    EnsuresIn V (asyncParameter r first e) c s fun n t => n.Held c V t ∧
      (n.is .arrowParameters = false → (Value.node n).Resolved (Trails c V) ∨ AtArrow c t) := by
  refine .step rfl ?_
  split
  · split
    · next hname =>
      refine (ensuresIn_primary_name hname).bind fun param t hparam => .pure ⟨.ofAsync ?_, fun hn => (by cases hn)⟩
      exact List.forall_mem_singleton.2 hparam.asPattern_node
    · exact .pure ⟨hs.held, fun _ => hs.resolved⟩
  · exact .pure ⟨hs.held, fun _ => hs.resolved⟩

variable [Recur.Weighs r] [Recur.Hands c V r]

instance [Clear (Trails c V) e] : Resolves True c V (assignmentRest r first e) := inferInstance

theorem ensuresIn_assignment : EnsuresIn V (assignment r) c s fun n t =>
    n.is .arrowParameters = false ∧ n.Grouped c V t := by
  refine .step rfl (.step rfl ?_)
  split
  · refine (Node.Grouped.ensuresIn.and (.of_ensures (Names.out Exacting.idle))).mono fun n t hn => ?_
    exact ⟨Node.not_is_of_isAny hn.2 (by decide), hn.1⟩
  refine .step rfl (Node.Grouped.ensuresIn.bind fun e t he => ?_)
  refine (ensuresIn_asyncParameter he).bind fun e u he => ?_
  refine .step rfl ?_
  split
  · exact ensuresIn_arrowFunction he.1 he.2
  next hrest =>
  rw [Bool.or_eq_true, not_or, Bool.not_eq_true] at hrest
  have hresolved : (Value.node e).Resolved (Trails c V) := (he.2 hrest.1).resolve_right fun harrow => hrest.2 harrow.mark
  have hclear : Clear (Trails c V) e := ⟨hresolved⟩
  refine EnsuresIn.bind (.of_ensures ensures_seesAssignment) fun assigns v hv => ?_
  obtain ⟨rfl, -⟩ := hv
  split
  · refine (Node.Grouped.ensuresIn.and (.of_ensures (ensures_assignmentRest_binds Exacting.idle))).mono fun n t hn => ?_
    have hkind : n.isAny [.assignmentExpression] := List.any_eq_true.2 ⟨_, List.mem_singleton_self _, hn.2.1⟩
    exact ⟨Node.not_is_of_isAny hkind (by decide), hn.1⟩
  · exact .pure ⟨hrest.1, he.1, .inl hresolved⟩

instance : Resolves True c V (assignment r) :=
  ⟨fun _ => ensuresIn_assignment.mono fun _ _ hn => hn.2.resolved.imp_right fun harrow => ⟨trivial, harrow⟩⟩

end

end Grammar

end EcmaSyntax
