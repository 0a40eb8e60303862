import EcmaSyntax.Program.Report

/-!
# Attributes of nodes

What `Node.get` finds after `Node.set`, `Node.setAll` and `Node.erase`, and which values a changed node
holds. All of it comes down to `Node.putIn`, which replaces the value of a name where it stands.
-/

namespace EcmaSyntax

variable {name : String} {v : Value} {l l' : List (String × Value)} {p : String × Value}

/-- Is this the name of an attribute for the place of a node? -/
def isPlace (name : String) : Bool := name = "range" || name = "loc"

namespace Node

/-! ### Replacing a value in place -/

theorem lookup_cons_eq : ((name, v) :: l).lookup key = if key = name then some v else l.lookup key := by
  by_cases h : key = name
  · simp [h]
  · have hne : (key == name) = false := beq_eq_false_iff_ne.2 h
    simp [List.lookup_cons, hne, h]

theorem putIn_eq_none_iff : putIn name v l = none ↔ ∀ p ∈ l, p.1 ≠ name := by
  fun_induction putIn name v l with
  | case1 => simp
  | case2 w rest => simp
  | case3 n w rest h ih => simp [h, ih]

/-- A value found after a replacement was there before, or is the new one. -/
theorem mem_of_putIn (h : putIn name v l = some l') (hp : p ∈ l') : p ∈ l ∨ p = (name, v) := by
  fun_induction putIn name v l generalizing l' with
  | case1 => simp at h
  | case2 w rest =>
    simp only [Option.some.injEq] at h
    subst h
    rcases List.mem_cons.1 hp with hp | hp <;> simp [hp]
  | case3 n w rest hn ih =>
    obtain ⟨m, hm, rfl⟩ := Option.map_eq_some_iff.1 h
    grind

theorem lookup_putIn (h : putIn name v l = some l') :
    l'.lookup key = if key = name then some v else l.lookup key := by
  fun_induction putIn name v l generalizing l' with
  | case1 => simp at h
  | case2 w rest =>
    simp only [Option.some.injEq] at h
    subst h
    by_cases hk : key = name <;> simp [lookup_cons_eq, hk]
  | case3 n w rest hn ih =>
    obtain ⟨m, hm, rfl⟩ := Option.map_eq_some_iff.1 h
    simp only [lookup_cons_eq, ih hm]
    by_cases hk : key = n
    · simp [hk, hn]
    · simp [hk]

/-- The names stay what they are. -/
theorem putIn_names (h : putIn name v l = some l') : l'.map Prod.fst = l.map Prod.fst := by
  fun_induction putIn name v l generalizing l' with
  | case1 => simp at h
  | case2 w rest =>
    simp only [Option.some.injEq] at h
    subst h
    rfl
  | case3 n w rest hn ih =>
    obtain ⟨m, hm, rfl⟩ := Option.map_eq_some_iff.1 h
    simp [ih hm]

/-! ### Looking an attribute up -/

variable {n : Node} {key : String}

/-- What an attribute holds is one of the values of the node, under its name, or null. -/
theorem mem_get_or_null (n : Node) (name : String) :
    (name, n.get name) ∈ n.fields ++ n.extra ∨ n.get name = .null := by
  have mem {l : List (String × Value)} {w : Value} (h : l.lookup name = some w) : (name, w) ∈ l := by
    obtain ⟨l₁, l₂, rfl, -⟩ := List.lookup_eq_some_iff.1 h
    simp
  unfold get
  cases hextra : n.extra.lookup name with
  | some w => exact .inl (List.mem_append_right _ (mem hextra))
  | none =>
    cases hfields : n.fields.lookup name with
    | some w => exact .inl (List.mem_append_left _ (mem hfields))
    | none => exact .inr rfl

theorem sizeOf_lt_of_mem (hf : f ∈ n.fields ++ n.extra) : sizeOf f.2 < sizeOf (Value.node n) := by
  have hpair : sizeOf f = 1 + sizeOf f.1 + sizeOf f.2 := rfl
  rw [Value.node, Value.object.sizeOf_spec]
  rcases List.mem_append.1 hf with hf | hf
  all_goals
    have := List.sizeOf_lt_of_mem hf
    omega

/-- An attribute is smaller than its node. -/
theorem sizeOf_get_lt (n : Node) (key : String) : sizeOf (n.get key) < sizeOf (Value.node n) := by
  rcases n.mem_get_or_null key with hmem | hnull
  · exact sizeOf_lt_of_mem hmem
  · have hpos : 0 < sizeOf n.fields := by cases n.fields <;> simp +arith
    rw [hnull, Value.null.sizeOf_spec, Value.node, Value.object.sizeOf_spec]
    omega

theorem get_set_of_ne (h : key ≠ name) : (n.set name v).get key = n.get key := by
  unfold set
  split
  · next fields hf => simp [get, lookup_putIn hf, h]
  · split
    · next extra he => simp [get, lookup_putIn he, h]
    · simp [get, List.lookup_append, lookup_cons_eq, h]

/-- An attribute that was set holds its new value, unless another attribute of that name hides it. -/
theorem get_set_self (n : Node) (name : String) (v : Value) :
    (n.set name v).get name = v ∨ (n.set name v).get name = n.get name := by
  unfold set
  split
  · next fields hf =>
    simp only [get, lookup_putIn hf]
    cases n.extra.lookup name <;> simp
  · split
    · next extra he => simp [get, lookup_putIn he]
    · next hf he =>
      have hnone : n.extra.lookup name = none :=
        List.lookup_eq_none_iff.2 fun p hp => by
          simpa using (putIn_eq_none_iff.1 he p hp).symm
      simp [get, List.lookup_append, hnone]

theorem get_erase_of_ne (h : key ≠ name) : (n.erase name).get key = n.get key := by
  have skip (l : List (String × Value)) : (l.filter (·.1 ≠ name)).lookup key = l.lookup key := by
    induction l with
    | nil => rfl
    | cons p l ih =>
      obtain ⟨k, w⟩ := p
      simp only [ne_eq, decide_not] at ih ⊢
      by_cases hk : k = name <;> simp [hk, lookup_cons_eq, h, ih]
  simp only [get, erase, skip]

/-- A value of a node of which an attribute was set was there before, or is the new one. -/
theorem mem_of_set (h : p ∈ (n.set name v).fields ++ (n.set name v).extra) :
    p ∈ n.fields ++ n.extra ∨ p = (name, v) := by
  unfold set at h
  split at h
  · next fields hf =>
    rcases List.mem_append.1 h with h | h
    · rcases mem_of_putIn hf h with h | h <;> simp [h]
    · simp [h]
  · split at h
    · next extra he =>
      rcases List.mem_append.1 h with h | h
      · simp [h]
      · rcases mem_of_putIn he h with h | h <;> simp [h]
    · grind

@[simp] theorem set_span : (n.set name v).span = n.span := by
  unfold set
  split
  · rfl
  · split <;> rfl

@[simp] theorem set_serial : (n.set name v).serial = n.serial := by
  unfold set
  split
  · rfl
  · split <;> rfl

@[simp] theorem set_form : (n.set name v).form = n.form := by
  unfold set
  split
  · rfl
  · split <;> rfl

theorem mem_of_setAll (h : p ∈ (n.setAll l).fields ++ (n.setAll l).extra) : p ∈ n.fields ++ n.extra ∨ p ∈ l := by
  fun_induction setAll n l with
  | case1 => exact .inl h
  | case2 n name v rest ih =>
    rcases ih h with h | h
    · rcases mem_of_set h with h | h <;> simp [h]
    · simp [h]

@[simp] theorem setAll_serial : (n.setAll l).serial = n.serial := by
  fun_induction setAll n l with
  | case1 => rfl
  | case2 n name v rest ih => rw [ih, set_serial]

@[simp] theorem setAll_form : (n.setAll l).form = n.form := by
  fun_induction setAll n l with
  | case1 => rfl
  | case2 n name v rest ih => rw [ih, set_form]

theorem setAll_append : n.setAll (l ++ l') = (n.setAll l).setAll l' := by
  fun_induction setAll n l with
  | case1 => rfl
  | case2 n name v rest ih => exact ih

/-! ### Forgetting attributes -/

/-- The attributes with a name that is kept, with their values changed. -/
def projectIn (keep : String → Bool) (f : Value → Value) (l : List (String × Value)) :
    List (String × Value) :=
  l.filterMap fun p => if keep p.1 then some (p.1, f p.2) else none

/-- A node with the attributes that are kept, with their values changed. -/
def project (keep : String → Bool) (f : Value → Value) (n : Node) : Node :=
  { n with fields := projectIn keep f n.fields, extra := projectIn keep f n.extra }

variable {keep : String → Bool} {f : Value → Value}

theorem projectIn_cons : projectIn keep f (p :: l)
      = if keep p.1 then (p.1, f p.2) :: projectIn keep f l else projectIn keep f l := by
  by_cases h : keep p.1 <;> simp [projectIn, h]

theorem projectIn_append : projectIn keep f (l ++ l') = projectIn keep f l ++ projectIn keep f l' :=
  List.filterMap_append

theorem project_settle : (n.settle).project keep f = (n.project keep f).settle := by
  simp only [settle, project, projectIn_append]
  rfl

/-- Replacing the value of a name that is forgotten makes no difference. -/
theorem projectIn_putIn_of_forgotten (hname : keep name = false) (h : putIn name v l = some l') :
    projectIn keep f l' = projectIn keep f l := by
  fun_induction putIn name v l generalizing l' with
  | case1 => simp at h
  | case2 w rest =>
    simp only [Option.some.injEq] at h
    subst h
    simp [projectIn_cons, hname]
  | case3 n w rest hn ih =>
    obtain ⟨m, hm, rfl⟩ := Option.map_eq_some_iff.1 h
    simp [projectIn_cons, ih hm]

/-- Replacing the value of a name that is kept may come later. -/
theorem putIn_projectIn (hname : keep name = true) :
    putIn name (f v) (projectIn keep f l) = (putIn name v l).map (projectIn keep f) := by
  fun_induction putIn name v l with
  | case1 => rfl
  | case2 w rest => simp [projectIn_cons, hname, putIn]
  | case3 n w rest hn ih =>
    by_cases hkeep : keep n
    · simp only [projectIn_cons, hkeep, if_true, putIn, hn, if_false, ih, Option.map_map]
      exact congrArg (Option.map · _) (funext fun m => by simp [projectIn_cons, hkeep])
    · simp only [projectIn_cons, hkeep, Bool.false_eq_true, if_false, ih, Option.map_map]
      exact congrArg (Option.map · _) (funext fun m => by simp [projectIn_cons, hkeep])

theorem project_set : (n.set name v).project keep f
      = if keep name then (n.project keep f).set name (f v) else n.project keep f := by
  by_cases hname : keep name
  · simp only [hname, if_true]
    unfold set
    simp only [project, putIn_projectIn hname]
    cases putIn name v n.fields with
    | some fields => rfl
    | none =>
      cases putIn name v n.extra with
      | some extra => rfl
      | none => simp [hname, projectIn]
  · simp only [Bool.not_eq_true] at hname
    simp only [hname, Bool.false_eq_true, if_false]
    unfold set project
    split
    · next fields hf => simp [projectIn_putIn_of_forgotten hname hf]
    · split
      · next extra he => simp [projectIn_putIn_of_forgotten hname he]
      · simp [hname, projectIn]

theorem project_setAll : (n.setAll l).project keep f = (n.project keep f).setAll (projectIn keep f l) := by
  fun_induction setAll n l with
  | case1 => rfl
  | case2 n name v rest ih =>
    rw [ih, project_set, projectIn_cons]
    by_cases hname : keep name <;> simp [hname, setAll]

theorem erase_eq_project : n.erase name = n.project (· ≠ name) id := by
  have filter_eq (l : List (String × Value)) : l.filter (·.1 ≠ name) = projectIn (· ≠ name) id l := by
    induction l with
    | nil => rfl
    | cons p l ih =>
      rw [List.filter_cons, projectIn_cons, ih]
      rfl
  simp only [erase, project, filter_eq]

/-- What is not there need not be taken away. -/
theorem erase_of_absent (h : ∀ p ∈ n.fields ++ n.extra, p.1 ≠ name) : n.erase name = n := by
  have hfields : ∀ p ∈ n.fields, p.1 ≠ name := fun p hp => h p (List.mem_append_left _ hp)
  have hextra : ∀ p ∈ n.extra, p.1 ≠ name := fun p hp => h p (List.mem_append_right _ hp)
  unfold erase
  rw [List.filter_eq_self.2 (by simpa using hfields), List.filter_eq_self.2 (by simpa using hextra)]

/-! ### An attribute that was not there -/

theorem settle_set_of_absent (h : ∀ p ∈ n.fields ++ n.extra, p.1 ≠ name) :
    (n.set name v).settle = { n.settle with fields := n.settle.fields ++ [(name, v)] } := by
  have hfields : putIn name v n.fields = none :=
    putIn_eq_none_iff.2 fun p hp => h p (List.mem_append_left _ hp)
  have hextra : putIn name v n.extra = none :=
    putIn_eq_none_iff.2 fun p hp => h p (List.mem_append_right _ hp)
  simp [set, hfields, hextra, settle]

theorem get_settle_set_of_absent (h : ∀ p ∈ n.fields ++ n.extra, p.1 ≠ name) :
    (n.set name v).settle.get name = v := by
  have hnone : (n.fields ++ n.extra).lookup name = none :=
    List.lookup_eq_none_iff.2 fun p hp => by simpa using (h p hp).symm
  rw [settle_set_of_absent h]
  simp only [get, settle, List.lookup_nil]
  rw [List.lookup_append, hnone]
  simp

theorem erase_settle_set_of_absent (h : ∀ p ∈ n.fields ++ n.extra, p.1 ≠ name) :
    (n.set name v).settle.erase name = n.settle := by
  have hn : n.project (· ≠ name) id = n := by rw [← erase_eq_project, erase_of_absent h]
  rw [erase_eq_project, project_settle, project_set, hn]
  simp

/-! ### Attributes given later -/

theorem get_setAll_of_not_mem (h : ∀ p ∈ l, p.1 ≠ key) : (n.setAll l).get key = n.get key := by
  fun_induction setAll n l with
  | case1 => rfl
  | case2 n name v rest ih =>
    rw [ih fun p hp => h p (List.mem_cons_of_mem _ hp), get_set_of_ne (h (name, v) List.mem_cons_self).symm]

/-- New attributes come last. -/
theorem setAll_of_new (hnodup : (l.map Prod.fst).Nodup)
    (hnew : ∀ x ∈ l.map Prod.fst, x ∉ (n.fields ++ n.extra).map Prod.fst) :
    n.setAll l = { n with extra := n.extra ++ l } := by
  fun_induction setAll n l with
  | case1 => simp
  | case2 n name v rest ih =>
    simp only [List.map_cons, List.nodup_cons, List.forall_mem_cons] at hnodup hnew
    have hfields : putIn name v n.fields = none :=
      putIn_eq_none_iff.2 fun p hp hname => hnew.1 (List.mem_map.2 ⟨p, by simp [hp], hname⟩)
    have hextra : putIn name v n.extra = none :=
      putIn_eq_none_iff.2 fun p hp hname => hnew.1 (List.mem_map.2 ⟨p, by simp [hp], hname⟩)
    have hset : n.set name v = { n with extra := n.extra ++ [(name, v)] } := by
      simp [set, hfields, hextra]
    rw [ih hnodup.2 fun x hx => ?_, hset]
    · simp
    · have hne : x ≠ name := fun h => hnodup.1 (h ▸ hx)
      have := hnew.2 x hx
      rw [hset]
      simp only [List.map_append, List.mem_append, List.map_cons, List.map_nil, List.mem_singleton] at this ⊢
      exact fun h => this (h.imp_right fun h => h.resolve_right hne)

/-- No attribute is there twice, once made and once given later. -/
def Apart (n : Node) : Prop := ∀ x ∈ n.extra.map Prod.fst, x ∉ n.fields.map Prod.fst

theorem Apart.set (h : n.Apart) : (n.set name v).Apart := by
  unfold Node.set
  split
  · next fields hf =>
    intro x hx
    rw [putIn_names hf]
    exact h x hx
  · next hf =>
    split
    · next extra he =>
      intro x hx
      rw [putIn_names he] at hx
      exact h x hx
    · intro x hx
      simp only [List.map_append, List.map_cons, List.map_nil, List.mem_append, List.mem_singleton] at hx
      rcases hx with hx | rfl
      · exact h x hx
      · simpa using fun w hw => putIn_eq_none_iff.1 hf (x, w) hw rfl

/-- An attribute that was set holds its new value. -/
theorem Apart.get_set_self (h : n.Apart) (name : String) (v : Value) : (n.set name v).get name = v := by
  unfold Node.set
  split
  · next fields hf =>
    have hfield : ¬ ∀ p ∈ n.fields, p.1 ≠ name := fun hnone => by
      rw [putIn_eq_none_iff.2 hnone] at hf
      cases hf
    have hextra : n.extra.lookup name = none := by
      refine List.lookup_eq_none_iff.2 fun p hp => ?_
      simp only [ne_eq, Classical.not_forall, Decidable.not_not] at hfield
      obtain ⟨q, hq, rfl⟩ := hfield
      have hne : p.1 ≠ q.1 := fun hname => h p.1 (List.mem_map_of_mem hp) (hname ▸ List.mem_map_of_mem hq)
      simpa using hne.symm
    simp [get, hextra, lookup_putIn hf]
  · split
    · next extra he => simp [get, lookup_putIn he]
    · next hf he =>
      have hextra : n.extra.lookup name = none :=
        List.lookup_eq_none_iff.2 fun p hp => by simpa using (putIn_eq_none_iff.1 he p hp).symm
      simp [get, List.lookup_append, hextra]

theorem Apart.setAll (h : n.Apart) : (n.setAll l).Apart := by
  fun_induction Node.setAll n l with
  | case1 => exact h
  | case2 n name v rest ih => exact ih h.set

theorem Apart.get_settle (h : n.Apart) (key : String) : n.settle.get key = n.get key := by
  simp only [settle, get, List.lookup_nil, List.lookup_append]
  cases hextra : n.extra.lookup key with
  | none => simp
  | some v =>
    obtain ⟨l₁, l₂, hl, -⟩ := List.lookup_eq_some_iff.1 hextra
    have hnone : n.fields.lookup key = none := by
      refine List.lookup_eq_none_iff.2 fun p hp => ?_
      have := h key (by simp [hl])
      simp only [List.mem_map, not_exists, not_and] at this
      simpa using fun hkey => this p hp hkey.symm
    simp [hnone]

/-! ### Tidy nodes -/

/-- The attributes that lead to what a pattern binds. -/
def patternNames : List String := ["argument", "left", "elements", "properties", "value"]

/-- It is a node, none of its attributes is there twice, once made and once given later, and none is
for its place. -/
structure Tidy (n : Node) : Prop where
  form : n.form ≠ ""
  placeless : ∀ x ∈ (n.fields ++ n.extra).map Prod.fst, isPlace x = false
  nodup : (n.extra.map Prod.fst).Nodup
  apart : n.Apart
  /-- What a pattern binds is not given later. -/
  bound : ∀ x ∈ n.extra.map Prod.fst, x ∉ patternNames

namespace Tidy

theorem of_names {m : Node} (h : n.Tidy) (hform : m.form = n.form)
    (hfields : m.fields.map Prod.fst ⊆ n.fields.map Prod.fst)
    (hextra : (m.extra.map Prod.fst).Sublist (n.extra.map Prod.fst)) : m.Tidy where
  form := hform ▸ h.form
  placeless x hx := by
    refine h.placeless x ?_
    rw [List.map_append, List.mem_append] at hx ⊢
    exact hx.imp (@hfields x) (hextra.subset ·)
  nodup := h.nodup.sublist hextra
  apart x hx hx' := h.apart x (hextra.subset hx) (hfields hx')
  bound x hx := h.bound x (hextra.subset hx)

/-- A new node is tidy if no attribute is for its place. -/
theorem of_made (hform : n.form ≠ "") (h : ∀ x ∈ n.fields.map Prod.fst, isPlace x = false)
    (hextra : n.extra = []) : n.Tidy where
  form := hform
  placeless := by rwa [hextra, List.append_nil]
  nodup := by simp [hextra]
  apart := by simp [Apart, hextra]
  bound := by simp [hextra]

theorem set (h : n.Tidy) (hname : isPlace name = false ∧ name ∉ patternNames) : (n.set name v).Tidy := by
  have hextra : ((n.set name v).extra.map Prod.fst).Nodup
      ∧ ∀ x ∈ (n.set name v).extra.map Prod.fst, x ∉ patternNames := by
    unfold Node.set
    split
    · exact ⟨h.nodup, h.bound⟩
    · split
      · next extra he =>
        rw [putIn_names he]
        exact ⟨h.nodup, h.bound⟩
      · next he =>
        rw [List.map_append, List.nodup_append, List.forall_mem_append]
        refine ⟨⟨h.nodup, by simp, fun x hx y hy hxy => ?_⟩, h.bound, List.forall_mem_singleton.2 hname.2⟩
        simp only [List.map_cons, List.map_nil, List.mem_singleton] at hy
        obtain ⟨p, hp, hpx⟩ := List.mem_map.1 hx
        exact putIn_eq_none_iff.1 he p hp (by rw [hpx, hxy, hy])
  refine ⟨n.set_form ▸ h.form, fun x hx => ?_, hextra.1, h.apart.set, hextra.2⟩
  obtain ⟨p, hp, rfl⟩ := List.mem_map.1 hx
  rcases mem_of_set hp with hp | rfl
  · exact h.placeless _ (List.mem_map_of_mem hp)
  · exact hname.1

theorem erase (h : n.Tidy) : (n.erase name).Tidy :=
  h.of_names rfl (List.map_subset _ List.filter_sublist.subset) (List.filter_sublist.map _)

end Tidy

end Node

namespace Value

/-- Is a value neither a list nor a dictionary nor an object? -/
def isScalar : Value → Bool
  | .list _ | .dict _ | .object _ _ _ _ _ => false
  | _ => true

/-- Induction over what a value is made of. -/
@[elab_as_elim]
theorem partsInduction {motive : Value → Prop} (list : ∀ vs, (∀ v ∈ vs, motive v) → motive (.list vs))
    (dict : ∀ es : List (Text × Value), (∀ e ∈ es, motive e.2) → motive (.dict es))
    (node : ∀ n : Node, (∀ f ∈ n.fields ++ n.extra, motive f.2) → motive (.node n))
    (scalar : ∀ v, v.isScalar → motive v) : ∀ v, motive v
  | .list vs => list vs fun v _ => partsInduction list dict node scalar v
  | .dict es => dict es fun e _ => partsInduction list dict node scalar e.2
  | .object form serial span fields extra =>
    node ⟨form, serial, span, fields, extra⟩ fun f _ => partsInduction list dict node scalar f.2
  | .null | .bool _ | .int _ | .float _ | .text _ | .kind _ | .pattern _ | .ref _ => scalar _ rfl
termination_by v => sizeOf v
decreasing_by
  · next hv =>
    have := List.sizeOf_lt_of_mem hv
    rw [Value.list.sizeOf_spec]
    omega
  · next he =>
    have := List.sizeOf_lt_of_mem he
    have : sizeOf e = 1 + sizeOf e.1 + sizeOf e.2 := rfl
    rw [Value.dict.sizeOf_spec]
    omega
  · next hf => exact Node.sizeOf_lt_of_mem (n := ⟨form, serial, span, fields, extra⟩) hf

end Value

end EcmaSyntax
