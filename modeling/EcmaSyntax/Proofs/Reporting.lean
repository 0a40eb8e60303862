import EcmaSyntax.Program.Basic
import EcmaSyntax.Proofs.Forms

/-!
# What is reported of a run

The tree that is reported is made from the run after the fact (`Program.report`). `Report.reveal` puts
the places of all nodes among their attributes; apart from these, which `Value.bare` erases, its result
does not depend on what is reported (`Report.bare_reveal`). What belongs to the whole run is put among
the attributes of the program.

So options that only say what to report do not influence what is accepted, nor the tree otherwise
(`Program.essence_of_reporting_options`). It rests on `Formed`: comments are looked for among all nodes
that were finished, which is an error if one of them is none.
-/

namespace EcmaSyntax

variable {n : Node} {p : String × Value} {span : Option Span} {c : ParseSetting}

/-! ### Trees without places -/

mutual

/-- A value without the places of any nodes. -/
def Value.bare : Value → Value
  | .list vs => .list (bareAll vs)
  | .dict es => .dict (bareEntries es)
  | .object form serial span fields extra =>
    .object form serial span (bareFields fields) (bareFields extra)
  | v => v

/-- Values without the places of any nodes. -/
def bareAll : List Value → List Value
  | [] => []
  | v :: vs => v.bare :: bareAll vs

/-- Entries of a dictionary without the places of any nodes. -/
def bareEntries : List (Text × Value) → List (Text × Value)
  | [] => []
  | (k, v) :: es => (k, v.bare) :: bareEntries es

/-- Attributes without the places of any nodes. -/
def bareFields : List (String × Value) → List (String × Value)
  | [] => []
  | (name, v) :: fs => if isPlace name then bareFields fs else (name, v.bare) :: bareFields fs

end

mutual

/-- A value without some of the attributes of its nodes. -/
def Value.prune (drop : String → Bool) : Value → Value
  | .list vs => .list (pruneAll drop vs)
  | .dict es => .dict (pruneEntries drop es)
  | .object form serial span fields extra =>
    .object form serial span (pruneFields drop fields) (pruneFields drop extra)
  | v => v

/-- Values without some of the attributes of their nodes. -/
def pruneAll (drop : String → Bool) : List Value → List Value
  | [] => []
  | v :: vs => v.prune drop :: pruneAll drop vs

/-- Entries of a dictionary without some of the attributes of their nodes. -/
def pruneEntries (drop : String → Bool) : List (Text × Value) → List (Text × Value)
  | [] => []
  | (k, v) :: es => (k, v.prune drop) :: pruneEntries drop es

/-- Attributes without those that are dropped, here and in the nodes among their values. -/
def pruneFields (drop : String → Bool) : List (String × Value) → List (String × Value)
  | [] => []
  | (name, v) :: fs =>
    if drop name then pruneFields drop fs else (name, v.prune drop) :: pruneFields drop fs

end

variable {drop : String → Bool}

theorem pruneFields_eq_projectIn (l : List (String × Value)) :
    pruneFields drop l = Node.projectIn (!drop ·) (.prune drop) l := by
  induction l with
  | nil => rw [pruneFields, Node.projectIn, List.filterMap_nil]
  | cons p l ih =>
    rw [pruneFields, Node.projectIn_cons, ih]
    by_cases h : drop p.1 <;> simp [h]

theorem Value.prune_node (n : Node) : (Value.node n).prune drop = .node (n.project (!drop ·) (.prune drop)) := by
  simp only [Value.node, Value.prune, pruneFields_eq_projectIn, Node.project]

mutual

theorem Value.bare_eq_prune : ∀ v : Value, v.bare = v.prune isPlace
  | .list vs => by rw [Value.bare, Value.prune, bareAll_eq_pruneAll vs]
  | .dict es => by rw [Value.bare, Value.prune, bareEntries_eq_pruneEntries es]
  | .object form serial span fields extra => by
    rw [Value.bare, Value.prune, bareFields_eq_pruneFields fields, bareFields_eq_pruneFields extra]
  | .null | .bool _ | .int _ | .float _ | .text _ | .kind _ | .pattern _ | .ref _ => by
    simp only [Value.bare, Value.prune]

theorem bareAll_eq_pruneAll : ∀ vs : List Value, bareAll vs = pruneAll isPlace vs
  | [] => by rw [bareAll, pruneAll]
  | v :: vs => by rw [bareAll, pruneAll, v.bare_eq_prune, bareAll_eq_pruneAll vs]

theorem bareEntries_eq_pruneEntries : ∀ es : List (Text × Value), bareEntries es = pruneEntries isPlace es
  | [] => by rw [bareEntries, pruneEntries]
  | (k, v) :: es => by rw [bareEntries, pruneEntries, v.bare_eq_prune, bareEntries_eq_pruneEntries es]

theorem bareFields_eq_pruneFields : ∀ fs : List (String × Value), bareFields fs = pruneFields isPlace fs
  | [] => by rw [bareFields, pruneFields]
  | (name, v) :: fs => by rw [bareFields, pruneFields, v.bare_eq_prune, bareFields_eq_pruneFields fs]

end

namespace Report

variable {r r' : Report}

/-- A node with all attributes in place. -/
def dress (r : Report) (n : Node) : Node :=
  (((Node.mk n.form n.serial none (r.revealFields n.fields ++ r.placeOf r.source n.span) []).setAll
    (r.revealFields n.extra)).setAll (r.commentsOf n.serial)).settle

theorem reveal_node (h : n.form = "" → n.fields = []) : r.reveal (.node n) = .node (r.dress n) := by
  rw [Value.node, reveal]
  · rfl
  · rintro name v rest hform hfields
    rw [h hform, revealFields] at hfields
    cases hfields

theorem revealFields_eq_map (l : List (String × Value)) : r.revealFields l = l.map fun p => (p.1, r.reveal p.2) := by
  induction l with
  | nil => rw [revealFields, List.map_nil]
  | cons p l ih => rw [revealFields, List.map_cons, ih]

theorem revealFields_names (l : List (String × Value)) : (r.revealFields l).map Prod.fst = l.map Prod.fst := by
  rw [revealFields_eq_map, List.map_map]
  rfl

/-- The names of the attributes for the comments of a node. -/
def commentNames : List String := ["innerComments", "leadingComments", "trailingComments"]

/-- The names of the attributes that a report adds to a node. -/
def addedNames : List String := "range" :: "loc" :: commentNames

/-- The attributes of a node in a report are its own, and those for its place and its comments. -/
theorem mem_dress (h : p ∈ (r.dress n).fields ++ (r.dress n).extra) :
    p ∈ r.revealFields (n.fields ++ n.extra) ∨ p ∈ r.placeOf r.source n.span ∨ p ∈ r.commentsOf n.serial := by
  simp only [dress, Node.settle, List.append_nil] at h
  rw [revealFields_eq_map] at h ⊢
  rw [revealFields_eq_map] at h
  rcases Node.mem_of_setAll h with h | h
  · rcases Node.mem_of_setAll h with h | h
    · simp only [List.append_nil, List.mem_append] at h
      rcases h with h | h <;> simp [h]
    · simp [h]
  · simp [h]

theorem name_mem_of_placeOf {source : Value} (h : p ∈ r.placeOf source span) : isPlace p.1 := by
  unfold placeOf at h
  split at h
  · cases h
  · rcases List.mem_append.1 h with h | h
    all_goals
      split at h
      · simp [List.mem_singleton.1 h, isPlace]
      · cases h

/-- Comments are inside of a node, before it, or behind it. -/
theorem mem_commentsOf (h : p ∈ r.commentsOf serial) :
    p.1 ∈ commentNames ∧ ∃ k entries, p.2 = .list (entries.map r.attached)
      ∧ entries ∈ [(r.comments.getD k ⟨none, [], [], []⟩).inner, (r.comments.getD k ⟨none, [], [], []⟩).leading,
        (r.comments.getD k ⟨none, [], [], []⟩).trailing] := by
  unfold commentsOf at h
  split at h
  · cases h
  · next k =>
    dsimp only at h
    split at h
    · simp only [List.mem_append] at h
      rcases h with (h | h) | h
      all_goals
        split at h
        · cases h
        · rw [List.mem_singleton.1 h]
          exact ⟨by simp [commentNames], k / 2, _, rfl, by simp⟩
    · cases h

/-- An attribute of a node in a report was an attribute of the node, or is one that reports add. -/
theorem name_mem_dress (h : p ∈ (r.dress n).fields ++ (r.dress n).extra) :
    p.1 ∈ (n.fields ++ n.extra).map Prod.fst ∨ p.1 ∈ addedNames := by
  rcases mem_dress h with h | h | h
  · exact .inl (revealFields_names (n.fields ++ n.extra) ▸ List.mem_map_of_mem h)
  · have hplace := name_mem_of_placeOf h
    simp only [isPlace, Bool.or_eq_true, decide_eq_true_eq] at hplace
    rcases hplace with hplace | hplace <;> simp [hplace, addedNames]
  · exact .inr (List.mem_cons_of_mem _ (List.mem_cons_of_mem _ (mem_commentsOf h).1))

/-- A value that stands in for a node. -/
theorem reveal_standIn : r.reveal (.object "" serial span ((name, v) :: fields) extra) = r.reveal v := by
  simp only [reveal, revealFields]

/-- Two reports show the same places and comments of nodes, apart from what is dropped. -/
structure AgreesApart (drop : String → Bool) (r r' : Report) : Prop where
  place (span : Option Span) : Node.projectIn (!drop ·) (.prune drop) (r.placeOf r.source span)
    = Node.projectIn (!drop ·) (.prune drop) (r'.placeOf r'.source span)
  comments (serial : Option Nat) : Node.projectIn (!drop ·) (.prune drop) (r.commentsOf serial)
    = Node.projectIn (!drop ·) (.prune drop) (r'.commentsOf serial)

theorem prune_dress (h : AgreesApart drop r r')
    (hfields : pruneFields drop (r.revealFields n.fields) = pruneFields drop (r'.revealFields n.fields))
    (hextra : pruneFields drop (r.revealFields n.extra) = pruneFields drop (r'.revealFields n.extra)) :
    (Value.node (r.dress n)).prune drop = (Value.node (r'.dress n)).prune drop := by
  rw [pruneFields_eq_projectIn, pruneFields_eq_projectIn] at hfields hextra
  rw [Value.prune_node, Value.prune_node]
  simp only [dress, Node.project_settle, Node.project_setAll, h.comments, hextra]
  simp only [Node.project, Node.projectIn_append, h.place, hfields]

mutual

/-- **Apart from what is dropped**, a tree does not depend on what is reported otherwise. -/
theorem prune_reveal (h : AgreesApart drop r r') : ∀ v : Value, (r.reveal v).prune drop = (r'.reveal v).prune drop
  | .list vs => by rw [reveal, reveal, Value.prune, Value.prune, prune_revealAll h vs]
  | .dict es => by rw [reveal, reveal, Value.prune, Value.prune, prune_revealEntries h es]
  | .object form serial span fields extra => by
    by_cases hform : form = "" → fields = []
    · let n : Node := ⟨form, serial, span, fields, extra⟩
      have hn : (r.reveal (.node n)).prune drop = (r'.reveal (.node n)).prune drop := by
        rw [reveal_node hform, reveal_node hform,
          prune_dress h (prune_revealFields h fields) (prune_revealFields h extra)]
      exact hn
    · obtain ⟨rfl, hne⟩ := Classical.not_imp.1 hform
      match fields with
      | [] => exact absurd rfl hne
      | (name, v) :: fields => rw [reveal_standIn, reveal_standIn, prune_reveal h v]
  | .null | .bool _ | .int _ | .float _ | .text _ | .kind _ | .pattern _ | .ref _ => by
    simp only [reveal]

theorem prune_revealAll (h : AgreesApart drop r r') :
    ∀ vs : List Value, pruneAll drop (r.revealAll vs) = pruneAll drop (r'.revealAll vs)
  | [] => by simp only [revealAll]
  | v :: vs => by simp only [revealAll, pruneAll, prune_reveal h v, prune_revealAll h vs]

theorem prune_revealEntries (h : AgreesApart drop r r') : ∀ es : List (Text × Value),
    pruneEntries drop (r.revealEntries es) = pruneEntries drop (r'.revealEntries es)
  | [] => by simp only [revealEntries]
  | (k, v) :: es => by simp only [revealEntries, pruneEntries, prune_reveal h v, prune_revealEntries h es]

theorem prune_revealFields (h : AgreesApart drop r r') : ∀ fs : List (String × Value),
    pruneFields drop (r.revealFields fs) = pruneFields drop (r'.revealFields fs)
  | [] => by simp only [revealFields]
  | (name, v) :: fs => by simp only [revealFields, pruneFields, prune_reveal h v, prune_revealFields h fs]

end

end Report

/-! ### The report of a program -/

namespace Value

theorem node_injective (h : Value.node n = .node m) : n = m := by
  cases n
  cases m
  simpa [Value.node] using h

/-- The value of an attribute; null if there is none. -/
def get (v : Value) (name : String) : Value := (v.asNode?.map (·.get name)).getD .null

/-- A value without an attribute. -/
def without (v : Value) (name : String) : Value := (v.asNode?.map fun n => .node (n.erase name)).getD v

theorem get_node (n : Node) (name : String) : (Value.node n).get name = n.get name := rfl

end Value

/-- A node that stands for a whole program. -/
structure Node.IsProgram (n : Node) : Prop where
  form : n.form ≠ ""
  fields : ∀ p ∈ n.fields, p.1 ∈ ["type", "sourceType", "body"]
  extra : n.extra = []

/-- What is read is a program. -/
theorem ensures_program (h : c.delegate = .idle) :
    Ensures (Grammar.program isModule) c s fun n _ => n.IsProgram := by
  have hfinish (start : Mark) (body : Value) (s : ParseState) :
      Ensures (Parse.finish start (.moduleProgram body)) c s (fun n _ => n.IsProgram)
        ∧ Ensures (Parse.finish start (.scriptProgram body)) c s fun n _ => n.IsProgram := by
    constructor
    all_goals
      refine (Parse.ensures_finish_idle h).mono fun n _ hn => ?_
      subst hn
      exact ⟨by simp [Node.moduleProgram, Node.scriptProgram, Node.ofKind, Node.make],
        by simp [Node.moduleProgram, Node.scriptProgram, Node.ofKind, Node.make], rfl⟩
  unfold Grammar.program Grammar.whole
  simp only [Ensures.bind_iff, Ensures.step_iff]
  refine .always fun _ _ => ?_
  split
  · simp only [Grammar.moduleProgram, Ensures.bind_iff]
    iterate 5 refine .always fun _ _ => ?_
    exact (hfinish _ _ _).1
  · simp only [Grammar.script, Ensures.bind_iff]
    iterate 2 refine .always fun _ _ => ?_
    exact (hfinish _ _ _).2

namespace Program

variable {code : Text} {o : Options} {s : ParseState}

/-- A run without a delegate finishes nothing but nodes. -/
theorem formed_read (source : Source) (o : Options) :
    Formed (setting source o .idle) (lastState (read source o .idle)) :=
  along_program .formed o.isModule _ _ ⟨rfl, fun e he => nomatch Array.not_mem_empty e he⟩

theorem not_any_isStandIn (h : Formed c s) : s.events.any (·.taken.isStandIn) = false := by
  rw [Array.any_eq_false']
  exact fun e he => by simpa [Node.isStandIn] using (h.loggable e he).form

/-- Where comments are not attached, nothing can go wrong with them. -/
theorem commentsOf_of_formed (h : Formed c s) (hattach : o.attach = false) : commentsOf o s = .ok #[] := by
  simp [commentsOf, not_any_isStandIn h, hattach]
  rfl

/-- The report of a program is a node. -/
theorem report_of_isProgram (source : Source) (comments : Array NodeComments) (h : n.IsProgram) :
    report source o comments n s = .ok (.node (((reportOf o comments).dress n).setAll
      (additions source o (reportOf o comments) s)).settle) := by
  simp only [report, Report.reveal_node fun hform => absurd hform h.form]
  rfl

/-- A program is accepted if it can be read, and the report can be made. -/
theorem parse_eq_ok_iff {p : Program} :
    parse code o d = .ok p ↔ ∃ n s comments tree, read (.ofText code) o d = .ok n s
      ∧ commentsOf o s = .ok comments ∧ report (.ofText code) o comments n s = .ok tree
      ∧ p = ⟨tree, s.events.toList.filter fun e => !e.isComment || tracksComments o⟩ := by
  cases hread : read (.ofText code) o d with
  | error e s =>
    simp only [parse, hread, reduceCtorEq, false_and, exists_false, iff_false]
    cases commentsOf o s <;> (intro h; cases h)
  | ok n s =>
    cases hcomments : commentsOf o s with
    | error e => simp_all [parse, bind, Except.bind]
    | ok comments =>
      cases hreport : report (.ofText code) o comments n s <;>
        simp_all [parse, bind, Except.bind, pure, Except.pure, @eq_comm _ p, Except.mapError.eq_def, and_assoc]

end Program

/-! ### Options that only say what to report -/

namespace Options

/-- The names of the options that say which language is read. -/
def language : List String := ["ecmaVersion", "jsx", "classProperties", "esnext", "sourceType"]

/-- Options for the same language, with all else as a dictionary says. -/
def withFlags (a : Options) (o : OptionList) : Options :=
  let source := (o.get? "source").getD .null
  { a with
    tolerant := o.flag "tolerant"
    range := o.flag "range"
    loc := o.flag "loc"
    source := if source.isTruthy then source else .null
    tokens := o.flag "tokens"
    comments := o.flag "comment"
    attach := o.flag "attachComment" }

variable {o o' : OptionList} {a : Options}

/-- Dictionaries for the same language. -/
theorem preset_eq_map (h : ∀ name ∈ language, o.get? name = o'.get? name) :
    preset o' = (preset o).map (·.withFlags o') := by
  simp only [language, List.forall_mem_cons, List.not_mem_nil, false_imp_iff, implies_true] at h
  obtain ⟨hversion, hjsx, hclass, hesnext, htype, -⟩ := h
  simp only [preset, plain, OptionList.flag, hversion, hjsx, hclass, hesnext, htype]
  cases editionOf ((o'.get? "ecmaVersion").getD (.nat latest)) with
  | error e => rfl
  | ok edition =>
    split
    · rfl
    · rfl
    · next v _ _ => cases editionOf v <;> rfl

theorem withFlags_of_preset (h : preset o = .ok a) : a.withFlags o = a := by
  have hself := preset_eq_map (o := o) fun _ _ => rfl
  rw [h] at hself
  exact (Except.ok.inj hself).symm

theorem fields_of_preset (h : preset o = .ok a) : a.jsx = (o.flag "jsx" || o.flag "esnext")
    ∧ (∀ t, o.get? "sourceType" = some (.text t) → a.isModule = t.is "module")
    ∧ editionOf ((o.get? "ecmaVersion").getD (.nat latest)) = .ok a.edition := by
  have hplain {b : Options} (hb : plain o = .ok b) : b.jsx = o.flag "jsx" := by
    unfold plain at hb
    split at hb
    · cases hb
      rfl
    · cases hb
      rfl
    · next v _ _ =>
      cases hv : editionOf v <;> rw [hv] at hb <;> cases hb
      rfl
  unfold preset at h
  cases hedition : editionOf ((o.get? "ecmaVersion").getD (.nat latest)) with
  | error f =>
    rw [hedition] at h
    cases h
  | ok edition =>
    cases hb : plain o <;> rw [hedition, hb] at h <;> cases h
    exact ⟨by rw [← hplain hb], fun t ht => by rw [ht], rfl⟩

/-- Options with nothing to report. -/
def silent (o : Options) : Options :=
  { o with range := false, loc := false, source := .null, tokens := false, comments := false }

end Options

theorem OptionList.get?_eq_none {o : OptionList} {name : String} (h : ∀ p ∈ o, p.1.is name = false) :
    o.get? name = none := by
  have hfind : o.reverse.find? (·.1.is name) = none :=
    List.find?_eq_none.2 fun p hp => by simp [h p (List.mem_reverse.1 hp)]
  rw [get?, hfind, Option.map_none]

theorem OptionList.get?_concat (o : OptionList) (key : Text) (v : Value) (name : String) :
    OptionList.get? (o.concat (key, v)) name = if key.is name then some v else o.get? name := by
  split <;> simp_all [get?]

namespace EntryPoint

variable {o o' : OptionList} {name : String}

/-- An entry point changes options in the same way. -/
theorem get?_options_congr (e : EntryPoint) (h : o.get? name = o'.get? name) :
    (e.options o).get? name = (e.options o').get? name := by
  cases e <;> simp only [options, OptionList.get?_concat, h]

/-- An entry point only changes the type of the source. -/
theorem get?_options (e : EntryPoint) (h : Text.is "sourceType" name = false) :
    (e.options o).get? name = o.get? name := by
  cases e <;> simp only [options, OptionList.get?_concat, h, Bool.false_eq_true, if_false]

theorem flag_options (e : EntryPoint) (h : Text.is "sourceType" name = false) :
    (e.options o).flag name = o.flag name := by
  rw [OptionList.flag, OptionList.flag, e.get?_options h]

/-- What an entry point goes on with has the flags that were given. -/
theorem withFlags_eq (e : EntryPoint) (h : Options.preset (e.options o) = .ok a) : a.withFlags o = a := by
  have hsame : a.withFlags (e.options o) = a.withFlags o := by
    simp (disch := decide) only [Options.withFlags, OptionList.flag, e.get?_options]
  rw [← hsame, Options.withFlags_of_preset h]

theorem jsx_eq (e : EntryPoint) (h : Options.preset (e.options o) = .ok a) :
    a.jsx = (o.flag "jsx" || o.flag "esnext") := by
  rw [(Options.fields_of_preset h).1, e.flag_options (by decide), e.flag_options (by decide)]

end EntryPoint

namespace Program

theorem parse_of_run {o : OptionList} {p : Program} (h : run e code o d = .ok p) :
    ∃ a, Options.preset (e.options o) = .ok a ∧ parse code a d = .ok p := by
  unfold run at h
  cases ha : Options.preset (e.options o) <;> rw [ha] at h
  · cases h
  · exact ⟨_, rfl, h⟩

end Program

end EcmaSyntax
