import EcmaSyntax.Tree.Export
import EcmaSyntax.Tree.Print
import Mathlib.Algebra.BigOperators.Group.Finset.Basic
import Mathlib.Logic.Relation

/-!
# What values of a store stand for

`Store.unfold` gives the tree that a value of a store stands for. A node that is shared occurs in it in every
place where it is met, and a node that is met inside of itself is not entered again there. What such a tree
comes to, as plain data or as text, is said by recursion (`Unfolding.toData`, `Unfolding.text`).
-/

namespace EcmaSyntax

/-- What a value of a store is made of, with each node in the places where it is met. -/
inductive Unfolding where
  | scalar (v : Value)
  | list (items : List Unfolding)
  | dict (entries : List (Text × Unfolding))
  /-- A node of a form, from a place of the store, with its attributes. -/
  | node (i : Nat) (form : String) (entries : List (Text × Unfolding))
  /-- A node that is met inside of itself. -/
  | again (i : Nat)

theorem sizeOf_snd_lt_of_mem [SizeOf α] [SizeOf β] {es : List (α × β)} {e : α × β}
    (h : e ∈ es) : sizeOf e.2 < sizeOf es := by
  have hlt := List.sizeOf_lt_of_mem h
  have hpair : sizeOf e = 1 + sizeOf e.1 + sizeOf e.2 := rfl
  omega

namespace Store

variable {store : Store} {path : List Nat} {i : Nat}

theorem entries_of_size_le (h : store.objects.size ≤ i) : (store.get i).entries = [] := by
  have hget : store.get i = default := by
    rw [get, Array.getD_eq_getD_getElem?, Array.getElem?_eq_none h, Option.getD_none]
  rw [hget]
  rfl

/-- The number of values in the nodes of a store that are not on a path. -/
def left (store : Store) (path : List Nat) : Nat :=
  ∑ i ∈ (Finset.range store.objects.size).filter (· ∉ path), (Value.node (store.get i)).size

theorem left_cons (hi : i < store.objects.size) (hpath : i ∉ path) :
    (Value.node (store.get i)).size + store.left (i :: path) = store.left path := by
  have herase : (Finset.range store.objects.size).filter (· ∉ i :: path)
      = ((Finset.range store.objects.size).filter (· ∉ path)).erase i := by
    ext j
    simp only [Finset.mem_filter, Finset.mem_erase, List.mem_cons, not_or]
    tauto
  rw [left, left, herase]
  exact Finset.add_sum_erase _ (fun i => (Value.node (store.get i)).size)
    (Finset.mem_filter.2 ⟨Finset.mem_range.2 hi, hpath⟩)

theorem left_cons_lt (hi : i < store.objects.size) (hpath : i ∉ path) : store.left (i :: path) < store.left path := by
  have hleft := left_cons hi hpath
  have hpos : 0 < (Value.node (store.get i)).size := by rw [Value.node, Value.size]; omega
  omega

theorem left_nil (store : Store) : store.left [] = store.size := by
  have hall (ns : List Node) : Value.sizeAll (ns.map .node)
      = ∑ i ∈ Finset.range ns.length, (Value.node (ns.getD i default)).size := by
    induction ns with
    | nil => rfl
    | cons n ns ih =>
      rw [List.map_cons, Value.sizeAll, ih, List.length_cons, Finset.sum_range_succ', Nat.add_comm]
      rfl
  rw [size, hall, left, Finset.filter_true_of_mem fun _ _ => List.not_mem_nil]
  simp [get, Array.getD_eq_getD_getElem?, List.getD_eq_getElem?_getD]

/-- What a value of a store is made of, as far as it is shown. A node that is on the path to it is not
entered again. -/
def unfold (store : Store) (shown : Text × Value → Bool) (path : List Nat) : Value → Unfolding
  | .ref i =>
    if i ∈ path then .again i
    else .node i (store.get i).form <|
      if i < store.objects.size then
        ((store.get i).entries.filter shown).map fun e => (e.1, store.unfold shown (i :: path) e.2)
      else []
  | .list vs => .list (vs.map fun v => store.unfold shown path v)
  | .dict es => .dict ((es.filter shown).map fun e => (e.1, store.unfold shown path e.2))
  | v => .scalar v
termination_by v => (store.left path, sizeOf v)
decreasing_by
  · next hpath hi => exact .left _ _ (left_cons_lt hi hpath)
  · next h => exact .right _ (Nat.lt_trans (List.sizeOf_lt_of_mem h) (by simp))
  · next h => exact .right _ (Nat.lt_trans (sizeOf_snd_lt_of_mem h) (by simp))

variable {shown : Text × Value → Bool}

theorem unfold_ref (h : i ∉ path) : store.unfold shown path (.ref i) = .node i (store.get i).form
    (((store.get i).entries.filter shown).map fun e => (e.1, store.unfold shown (i :: path) e.2)) := by
  rw [unfold, if_neg h]
  split
  · rfl
  · next hi => rw [entries_of_size_le (Nat.le_of_not_lt hi)]; rfl

/-- Induction along an unfolding. -/
@[elab_as_elim]
theorem unfold_induct {motive : List Nat → Value → Prop} (store : Store)
    (again : ∀ path i, i ∈ path → motive path (.ref i))
    (node : ∀ path i, i ∉ path → (∀ e ∈ (store.get i).entries, motive (i :: path) e.2) → motive path (.ref i))
    (list : ∀ path vs, (∀ v ∈ vs, motive path v) → motive path (.list vs))
    (dict : ∀ path es, (∀ e ∈ es, motive path e.2) → motive path (.dict es))
    (scalar : ∀ path v, (∀ i, v ≠ .ref i) → (∀ vs, v ≠ .list vs) → (∀ es, v ≠ .dict es) → motive path v)
    (path : List Nat) (w : Value) : motive path w := by
  induction path, w using unfold.induct store with
  | case1 path i hi => exact again path i hi
  | case2 path i hi ih =>
    refine node path i hi fun e he => ?_
    by_cases hsize : i < store.objects.size
    · exact ih hsize e
    · rw [entries_of_size_le (Nat.le_of_not_lt hsize)] at he
      cases he
  | case3 path vs ih => exact list path vs ih
  | case4 path es ih => exact dict path es ih
  | case5 path v href hlist hdict => exact scalar path v href hlist hdict

theorem unfold_scalar (href : ∀ i, w ≠ .ref i) (hlist : ∀ vs, w ≠ .list vs)
    (hdict : ∀ es, w ≠ .dict es) : store.unfold shown path w = .scalar w := by
  cases w with
  | ref i => exact (href i rfl).elim
  | list vs => exact (hlist vs rfl).elim
  | dict es => exact (hdict es rfl).elim
  | _ => rw [unfold] <;> intros <;> contradiction

end Store

namespace Unfolding

/-- Plain data: each node becomes a dictionary of its attributes. -/
def toData : Unfolding → Data
  | .scalar v => v.toData
  | .list us => .list (us.map fun u => u.toData)
  | .dict es | .node _ _ es => .ofEntries (es.map fun e => (dataKey e.1, e.2.toData))
  | .again _ => Export.repetition
decreasing_by
  all_goals simp_wf
  · next h => exact Nat.lt_trans (List.sizeOf_lt_of_mem h) (by omega)
  all_goals next h => exact Nat.lt_trans (sizeOf_snd_lt_of_mem h) (by omega)

/-- Printed text. A place in a source is printed on one line. -/
def text (l : Layout) : Unfolding → Text
  | .scalar v => Print.scalar v
  | .list us =>
    let l := { l with level := l.level + 1 }
    l.enclose 0x5b 0x5d (us.map fun u => u.text l)
  | .dict es =>
    let l := { l with level := l.level + 1 }
    l.enclose 0x7b 0x7d (es.map fun e => e.1 ++ Text.ofString ": " ++ e.2.text l)
  | .node _ form es =>
    let l := if form = "SourceLocation" then ⟨l.level + 1, [], [], []⟩ else { l with level := l.level + 1 }
    l.enclose 0x7b 0x7d (es.map fun e => e.1 ++ Text.ofString ": " ++ e.2.text l)
  | .again _ => "..."
termination_by u => sizeOf u
decreasing_by
  all_goals simp_wf
  · next h => exact Nat.lt_trans (List.sizeOf_lt_of_mem h) (by omega)
  all_goals next h => exact Nat.lt_trans (sizeOf_snd_lt_of_mem h) (by omega)

/-- The nodes around the whole that are met again in it. -/
def refs : Unfolding → List Nat
  | .scalar _ => []
  | .list us => us.flatMap fun u => u.refs
  | .dict es => es.flatMap fun e => e.2.refs
  | .node i _ es => (es.flatMap fun e => e.2.refs).filter (· ≠ i)
  | .again i => [i]
decreasing_by
  all_goals simp_wf
  · next h => exact Nat.lt_trans (List.sizeOf_lt_of_mem h) (by omega)
  all_goals next h => exact Nat.lt_trans (sizeOf_snd_lt_of_mem h) (by omega)

/-- No node is met more than once inside of itself. -/
def MeetsOnce : Unfolding → Prop
  | .scalar _ | .again _ => True
  | .list us => ∀ u ∈ us, u.MeetsOnce
  | .dict es => ∀ e ∈ es, e.2.MeetsOnce
  | .node i _ es => (es.flatMap fun e => e.2.refs).count i ≤ 1 ∧ ∀ e ∈ es, e.2.MeetsOnce
decreasing_by
  all_goals simp_wf
  · next h => exact Nat.lt_trans (List.sizeOf_lt_of_mem h) (by omega)
  all_goals next h => exact Nat.lt_trans (sizeOf_snd_lt_of_mem h) (by omega)

/-- No node is met inside of itself. -/
def IsTree : Unfolding → Prop
  | .scalar _ => True
  | .list us => ∀ u ∈ us, u.IsTree
  | .dict es | .node _ _ es => ∀ e ∈ es, e.2.IsTree
  | .again _ => False
decreasing_by
  all_goals simp_wf
  · next h => exact Nat.lt_trans (List.sizeOf_lt_of_mem h) (by omega)
  all_goals next h => exact Nat.lt_trans (sizeOf_snd_lt_of_mem h) (by omega)

theorem IsTree.meetsOnce (u : Unfolding) (h : u.IsTree) : u.refs = [] ∧ u.MeetsOnce := by
  induction u using refs.induct with
  | case1 v => exact ⟨by rw [refs], by rw [MeetsOnce]; trivial⟩
  | case2 us ih =>
    rw [IsTree] at h
    rw [refs, MeetsOnce]
    exact ⟨List.flatMap_eq_nil_iff.2 fun u hu => (ih u hu (h u hu)).1, fun u hu => (ih u hu (h u hu)).2⟩
  | case3 es ih =>
    rw [IsTree] at h
    rw [refs, MeetsOnce]
    exact ⟨List.flatMap_eq_nil_iff.2 fun e he => (ih e he (h e he)).1, fun e he => (ih e he (h e he)).2⟩
  | case4 i form es ih =>
    rw [IsTree] at h
    have hrefs : (es.flatMap fun e => e.2.refs) = [] :=
      List.flatMap_eq_nil_iff.2 fun e he => (ih e he (h e he)).1
    rw [refs, MeetsOnce, hrefs]
    exact ⟨rfl, Nat.zero_le 1, fun e he => (ih e he (h e he)).2⟩
  | case5 i => rw [IsTree] at h; exact h.elim

end Unfolding

/-- Only the nodes on the path to a value are met again in it. -/
theorem Store.mem_path_of_mem_refs {store : Store} {shown : Text × Value → Bool} {i : Nat} (path : List Nat)
    (w : Value) (hi : i ∈ (store.unfold shown path w).refs) : i ∈ path := by
  induction path, w using unfold_induct store with
  | again path j hj =>
    rw [unfold, if_pos hj, Unfolding.refs] at hi
    exact List.mem_singleton.1 hi ▸ hj
  | node path j hj ih =>
    rw [unfold_ref hj, Unfolding.refs, List.flatMap_map, List.mem_filter, List.mem_flatMap] at hi
    obtain ⟨⟨e, he, hi⟩, hne⟩ := hi
    exact List.mem_of_ne_of_mem (by simpa using hne) (ih e (List.mem_filter.1 he).1 hi)
  | list path vs ih =>
    rw [unfold, Unfolding.refs, List.flatMap_map, List.mem_flatMap] at hi
    obtain ⟨v, hv, hi⟩ := hi
    exact ih v hv hi
  | dict path es ih =>
    rw [unfold, Unfolding.refs, List.flatMap_map, List.mem_flatMap] at hi
    obtain ⟨e, he, hi⟩ := hi
    exact ih e (List.mem_filter.1 he).1 hi
  | scalar path v href hlist hdict =>
    rw [unfold_scalar href hlist hdict, Unfolding.refs] at hi
    cases hi

/-! ### Values without cycles -/

/-- The nodes that a value refers to, as far as it is shown. -/
def Value.refs (shown : Text × Value → Bool) : Value → List Nat
  | .ref i => [i]
  | .list vs => vs.flatMap fun v => v.refs shown
  | .dict es => (es.filter shown).flatMap fun e => e.2.refs shown
  | _ => []
termination_by v => sizeOf v
decreasing_by
  · next h => exact Nat.lt_trans (List.sizeOf_lt_of_mem h) (by simp)
  · next h => exact Nat.lt_trans (sizeOf_snd_lt_of_mem h) (by simp)

namespace Store

/-- A node refers to another one in an attribute that is shown. -/
def Refers (store : Store) (shown : Text × Value → Bool) (i j : Nat) : Prop :=
  j ∈ (Value.dict (store.get i).entries).refs shown

/-- No node that a value leads to leads to itself. -/
def Acyclic (store : Store) (shown : Text × Value → Bool) (root : Value) : Prop :=
  ∀ i ∈ root.refs shown, ∀ j, Relation.ReflTransGen (store.Refers shown) i j →
    ¬ Relation.TransGen (store.Refers shown) j j

variable {store : Store} {shown : Text × Value → Bool}

theorem Acyclic.of_lt (h : ∀ i j, store.Refers shown i j → i < j) : store.Acyclic shown root := by
  intro i _ j _ hj
  have hlt : Relation.TransGen (· < ·) j j := Relation.TransGen.mono h _ _ hj
  rw [Relation.transGen_eq_self] at hlt
  exact Nat.lt_irrefl j hlt

/-- The path to a value is made of nodes that lead to it, so none of them is met again. -/
theorem isTree_unfold (path : List Nat) (w : Value) (hw : store.Acyclic shown w)
    (hpath : ∀ i ∈ path, ∀ j ∈ w.refs shown, Relation.TransGen (store.Refers shown) i j) :
    (store.unfold shown path w).IsTree := by
  induction path, w using unfold_induct store with
  | again path i hi =>
    have hmem : i ∈ (Value.ref i).refs shown := by rw [Value.refs]; exact List.mem_singleton_self i
    exact (hw i hmem i .refl (hpath i hi i hmem)).elim
  | node path i hi ih =>
    have hmem : i ∈ (Value.ref i).refs shown := by rw [Value.refs]; exact List.mem_singleton_self i
    rw [unfold_ref hi, Unfolding.IsTree]
    intro u hu
    obtain ⟨e, he, rfl⟩ := List.mem_map.1 hu
    have hrefers (j : Nat) (hj : j ∈ e.2.refs shown) : store.Refers shown i j := by
      rw [Refers, Value.refs]
      exact List.mem_flatMap.2 ⟨e, he, hj⟩
    refine ih e (List.mem_filter.1 he).1 (fun j hj k hk => hw i hmem k (.head (hrefers j hj) hk)) ?_
    intro j hj k hk
    obtain rfl | hj := List.mem_cons.1 hj
    · exact .single (hrefers k hk)
    · exact (hpath j hj i hmem).tail (hrefers k hk)
  | list path vs ih =>
    have hmem (v : Value) (hv : v ∈ vs) (j : Nat) (hj : j ∈ v.refs shown) : j ∈ (Value.list vs).refs shown := by
      rw [Value.refs]
      exact List.mem_flatMap.2 ⟨v, hv, hj⟩
    rw [unfold, Unfolding.IsTree]
    intro u hu
    obtain ⟨v, hv, rfl⟩ := List.mem_map.1 hu
    exact ih v hv (fun j hj => hw j (hmem v hv j hj)) fun i hi j hj => hpath i hi j (hmem v hv j hj)
  | dict path es ih =>
    have hmem (e : Text × Value) (he : e ∈ es.filter shown) (j : Nat) (hj : j ∈ e.2.refs shown) :
        j ∈ (Value.dict es).refs shown := by
      rw [Value.refs]
      exact List.mem_flatMap.2 ⟨e, he, hj⟩
    rw [unfold, Unfolding.IsTree]
    intro u hu
    obtain ⟨e, he, rfl⟩ := List.mem_map.1 hu
    exact ih e (List.mem_filter.1 he).1 (fun j hj => hw j (hmem e he j hj))
      fun i hi j hj => hpath i hi j (hmem e he j hj)
  | scalar path v href hlist hdict => rw [unfold_scalar href hlist hdict, Unfolding.IsTree]; trivial

end Store

end EcmaSyntax
