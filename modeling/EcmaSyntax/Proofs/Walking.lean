import EcmaSyntax.Proofs.Unfolding
import Mathlib.Algebra.GroupWithZero.Nat

/-!
# What a walk answers

A walk hands answers down a stack, and remembers the nodes that it is inside of. `Answers` says what it comes
to from some frames on, whatever lies below them. A node is forgotten where it is met inside of itself, so that
the walk is right about it once, and enters it again the next time. If that does not happen, then the answer to a
value is that of a recursion through what the value stands for.
-/

namespace EcmaSyntax

variable {root : Value} {known : Nat → Option Handling}

namespace Value

theorem size_pos (v : Value) : 0 < v.size := by cases v <;> simp only [size] <;> omega

theorem sizeAll_eq (vs : List Value) : sizeAll vs = (vs.map size).sum := by
  induction vs with
  | nil => rfl
  | cons v vs ih => rw [sizeAll, ih, List.map_cons, List.sum_cons]

theorem size_dict_entries (n : Node) : (dict n.entries).size = (node n).size := by
  have hfields (fs gs : List (String × Value)) : sizeFields (fs ++ gs) = sizeFields fs + sizeFields gs := by
    induction fs with
    | nil => exact (Nat.zero_add _).symm
    | cons f fs ih => rw [List.cons_append, sizeFields, sizeFields, ih, Nat.add_assoc]
  have hentries (fs : List (String × Value)) :
      sizeEntries (fs.map fun f => (Text.ofString f.1, f.2)) = sizeFields fs := by
    induction fs with
    | nil => rfl
    | cons f fs ih => rw [List.map_cons, sizeEntries, sizeFields, ih]
  rw [size, Node.entries, node, size, Nat.add_assoc, ← hfields]
  exact congrArg _ (hentries _)

theorem sum_filter_le (shown : Text × Value → Bool) (es : List (Text × Value)) :
    ((es.filter shown).map fun e => e.2.size).sum ≤ sizeEntries es := by
  induction es with
  | nil => exact Nat.le_refl 0
  | cons e es ih =>
    rw [sizeEntries, List.filter_cons]
    split
    · exact Nat.add_le_add_left ih _
    · exact Nat.le_trans ih (Nat.le_add_left _ _)

end Value

namespace Walk

variable {κ σ ρ : Type} {v : Visitor κ σ ρ} {store : Store}

/-! ### Steps -/

/-- Makes a number of steps. -/
def after (v : Visitor κ σ ρ) (store : Store) : Nat → State κ σ ρ → Except Fault (State κ σ ρ)
  | 0, s => return s
  | n + 1, s => step v store s >>= after v store n

theorem after_add (m n : Nat) (s : State κ σ ρ) :
    after v store (m + n) s = after v store m s >>= after v store n := by
  induction m generalizing s with
  | zero => rw [Nat.zero_add]; rfl
  | succ m ih =>
    rw [Nat.add_right_comm, after, after, bind_assoc]
    exact congrArg _ (funext ih)

theorem after_of_isEmpty (h : s.stack.isEmpty) (n : Nat) : after v store n s = .ok s := by
  have hstep : step v store s = .ok s := by
    rw [step, List.isEmpty_iff.1 h]
    rfl
  induction n with
  | zero => rfl
  | succ n ih =>
    rw [after, hstep]
    exact ih

theorem run_eq_after (n : Nat) (s : State κ σ ρ) : run v store n s = after v store (2 ^ n) s := by
  induction n generalizing s with
  | zero =>
    exact (bind_pure (step v store s)).symm
  | succ n ih =>
    rw [run, Nat.pow_succ, Nat.mul_two, after_add, ih]
    refine congrArg _ (funext fun t => ?_)
    split
    · next h => exact (after_of_isEmpty h _).symm
    · exact ih t

/-- A walk comes from one state to another in at most so many steps. -/
def Leads (v : Visitor κ σ ρ) (store : Store) (n : Nat) (s t : State κ σ ρ) : Prop :=
  ∃ m ≤ n, after v store m s = .ok t

namespace Leads

variable {m n : Nat} {s t u : State κ σ ρ}

theorem mono (h : Leads v store m s t) (hle : m ≤ n) : Leads v store n s t := by
  obtain ⟨k, hk, hafter⟩ := h
  exact ⟨k, Nat.le_trans hk hle, hafter⟩

theorem trans (h : Leads v store m s t) (h' : Leads v store n t u) : Leads v store (m + n) s u := by
  obtain ⟨k, hk, hafter⟩ := h
  obtain ⟨k', hk', hafter'⟩ := h'
  exact ⟨k + k', Nat.add_le_add hk hk', by rw [after_add, hafter]; exact hafter'⟩

theorem step (h : Walk.step v store s = .ok t) (h' : Leads v store n t u) : Leads v store (n + 1) s u := by
  obtain ⟨k, hk, hafter⟩ := h'
  exact ⟨k + 1, Nat.succ_le_succ hk, by rw [after, h]; exact hafter⟩

theorem refl : Leads v store 0 s s := ⟨0, Nat.le_refl 0, rfl⟩

end Leads

/-! ### Answers -/

/-- What is known of nodes once some of them are forgotten. -/
def forget (known : Nat → Option Handling) (is : List Nat) : Nat → Option Handling :=
  fun i => if i ∈ is then none else known i

/-- From some frames on, the walk comes to an answer in at most so many steps. -/
def Answers (v : Visitor κ σ ρ) (store : Store) (frames : List (Frame κ ρ)) (last : Option ρ)
    (known : Nat → Option Handling) (x : σ) (cost : Nat) (r : ρ) (known' : Nat → Option Handling) (y : σ) : Prop :=
  ∀ rest inside, (∀ i : Nat, inside[i]? = known i) → ∃ inside', (∀ i : Nat, inside'[i]? = known' i) ∧
    Leads v store cost ⟨frames ++ rest, last, inside, x⟩ ⟨rest, some r, inside', y⟩

namespace Answers

variable {known' known'' : Nat → Option Handling} {x y z u : σ} {cost cost' : Nat} {a r : ρ} {w : Value}
  {k k' ended : κ} {owner : Option Nat} {last : Option ρ} {frames : List (Frame κ ρ)} {i : Nat}
  {h : Handling}

theorem mono (hr : Answers v store frames last known x cost r known' y) (hle : cost ≤ cost') :
    Answers v store frames last known x cost' r known' y := by
  intro rest inside hinside
  obtain ⟨inside', hinside', hleads⟩ := hr rest inside hinside
  exact ⟨inside', hinside', hleads.mono hle⟩

/-- A node is visited. -/
theorem node (hh : choose v (store.get i).form (known i) = h) (hv : v.object h i (store.get i) x = .ok (frames, y))
    (hr : Answers v store frames none (Function.update known i h) y cost r known' z) :
    Answers v store [.visit (.ref i)] none known x (cost + 1) r known' z := by
  intro rest inside hinside
  obtain ⟨inside', hinside', hleads⟩ := hr rest (inside.insert i h) fun j => by
    rw [Std.HashMap.getElem?_insert, hinside]
    by_cases hj : i = j
    · simp [hj]
    · simp [hj, Function.update_of_ne (Ne.symm hj)]
  refine ⟨inside', hinside', .step ?_ hleads⟩
  simp only [Walk.step, List.singleton_append, hinside, hh, hv]
  rfl

/-- Any other value is visited. -/
theorem value (hw : ∀ i, w ≠ .ref i) (hv : v.value w x = .ok (frames, y))
    (hr : Answers v store frames none known y cost r known' z) :
    Answers v store [.visit w] none known x (cost + 1) r known' z := by
  intro rest inside hinside
  obtain ⟨inside', hinside', hleads⟩ := hr rest inside hinside
  refine ⟨inside', hinside', .step ?_ hleads⟩
  cases w with
  | ref i => exact (hw i rfl).elim
  | _ => simp only [Walk.step, List.singleton_append, hv]; rfl

theorem given : Answers v store [.answer r] last known x 1 r known x := by
  intro rest inside hinside
  exact ⟨inside, hinside, .step rfl .refl⟩

/-- A visit asks for a value, and goes on with the answer. -/
theorem ask (hk : v.resume k last x = .ok (some (.visit w, k'), y))
    (hw : Answers v store [.visit w] none known y cost a known' z)
    (hr : Answers v store [.running k' owner] (some a) known' z cost' r known'' u) :
    Answers v store [.running k owner] last known x (cost + cost' + 1) r known'' u := by
  intro rest inside hinside
  obtain ⟨inside', hinside', hleads⟩ := hw (.running k' owner :: rest) inside hinside
  obtain ⟨inside'', hinside'', hleads'⟩ := hr rest inside' hinside'
  refine ⟨inside'', hinside'', .step ?_ (hleads.trans hleads')⟩
  simp only [Walk.step, List.singleton_append, hk]
  rfl

/-- A visit ends, and the last answer is its own. -/
theorem ends (hk : v.resume k (some r) x = .ok (none, y)) :
    Answers v store [.running k owner] (some r) known x 1 r (forget known owner.toList) y := by
  intro rest inside hinside
  refine ⟨leave inside owner, fun i => ?_, .step ?_ .refl⟩
  · cases owner with
    | none => simp [leave, forget, hinside]
    | some j =>
      rw [leave, Std.HashMap.getElem?_erase, hinside]
      by_cases hj : j = i
      · simp [forget, hj]
      · simp [forget, hj, Ne.symm hj]
  · simp only [Walk.step, List.singleton_append, hk]
    rfl

/-- A visit answers, and ends. -/
theorem answer (hk : v.resume k last x = .ok (some (.answer r, k'), y))
    (hk' : v.resume k' (some r) y = .ok (none, z)) :
    Answers v store [.running k owner] last known x 3 r (forget known owner.toList) z := by
  have hends : Answers v store [.running k' owner] (some r) known y 1 r _ z := ends hk'
  intro rest inside hinside
  obtain ⟨inside', hinside', hleads⟩ := hends rest inside hinside
  refine ⟨inside', hinside', .step (t := ⟨.answer r :: .running k' owner :: rest, none, inside, y⟩) ?_ (.step rfl hleads)⟩
  simp only [Walk.step, List.singleton_append, hk]
  rfl

/-- A node is met inside of itself. -/
theorem again (hh : known i = some .plain)
    (hv : v.object .repeated i (store.get i) x = .ok ([.answer r, .running k (some i)], y))
    (hk : v.resume k (some r) y = .ok (none, z)) :
    Answers v store [.visit (.ref i)] none known x 3 r (forget known [i]) z := by
  refine .node (by rw [hh]; rfl) hv fun rest inside hinside => ?_
  have hends : Answers v store [.running k (some i)] (some r) (Function.update known i (some .repeated)) y 1 r _ z :=
    ends hk
  obtain ⟨inside', hinside', hleads⟩ := hends rest inside hinside
  refine ⟨inside', fun j => (hinside' j).trans ?_, .step rfl hleads⟩
  by_cases hj : j = i <;> simp [forget, hj]

/-- A visit to a node asks for its attributes, and hands the answer on. -/
theorem object (hh : choose v (store.get i).form (known i) = h)
    (hv : v.object h i (store.get i) x = .ok ([.running k (some i)], x))
    (hk : v.resume k none x = .ok (some (.visit w, k'), x))
    (hk' : v.resume k' (some r) x = .ok (some (.answer r, ended), x))
    (hended : v.resume ended (some r) x = .ok (none, x))
    (hw : Answers v store [.visit w] none (Function.update known i h) x cost r known' x) :
    Answers v store [.visit (.ref i)] none known x (cost + 5) r (forget known' [i]) x :=
  .node hh hv (.ask hk hw (.answer hk' hended))

end Answers

theorem whole_of_answers (h : Answers v store [.visit root] none (fun _ => none) x cost r known y)
    (hcost : cost ≤ 2 ^ allowance store root) : whole v store root x = .ok (some r, y) := by
  obtain ⟨inside, -, m, hm, hafter⟩ := h [] ∅ fun i => Std.HashMap.getElem?_empty
  have hrun : run v store (allowance store root) (start root x) = .ok ⟨[], some r, inside, y⟩ := by
    rw [run_eq_after, ← Nat.add_sub_cancel' (Nat.le_trans hm hcost), after_add]
    exact (congrArg (· >>= _) hafter).trans (after_of_isEmpty rfl _)
  rw [whole, hrun]
  rfl

/-! ### Loops -/

theorem forget_nil (known : Nat → Option Handling) : forget known [] = known := by
  funext i
  simp [forget]

theorem forget_forget (known : Nat → Option Handling) (is js : List Nat) :
    forget (forget known is) js = forget known (is ++ js) := by
  funext i
  simp only [forget, List.mem_append]
  by_cases hi : i ∈ is <;> by_cases hj : i ∈ js <;> simp [hi, hj]

/-- The walk is inside of the nodes that are met again, each of which is met once, and of none that is not
on the path. -/
structure Fits (path : List Nat) (known : Nat → Option Handling) (met : List Nat) : Prop where
  nodup : met.Nodup
  plain : ∀ i ∈ met, known i = some .plain
  fresh : ∀ i ∉ path, known i = none

theorem Fits.append (h : Fits path known (is ++ js)) : Fits path known is ∧ Fits path (forget known is) js := by
  obtain ⟨hi, hj, hdisjoint⟩ := List.nodup_append.1 h.nodup
  refine ⟨⟨hi, fun i hi => h.plain i (List.mem_append_left _ hi), h.fresh⟩, hj, fun j hj => ?_, fun i hi => ?_⟩
  · rw [forget, if_neg fun hi => hdisjoint j hi j hj rfl]
    exact h.plain j (List.mem_append_right _ hj)
  · rw [forget, h.fresh i hi, ite_self]

/-- A visit that asks for one item after another, and answers with what was found. -/
structure Loop {ι β : Type} (v : Visitor κ σ ρ) (value : ι → Value) (wait : Option ι → List ι → List β → κ)
    (item : ι → ρ → β) (finish : List β → ρ) (ended : κ) (x y : σ) : Prop where
  ask (e : ι) (rest : List ι) (found : List β) :
    v.resume (wait none (e :: rest) found) none x = .ok (some (.visit (value e), wait (some e) rest found), x)
  next (e : ι) (a : ρ) (rest : List ι) (found : List β) :
    v.resume (wait (some e) rest found) (some a) x = v.resume (wait none rest (item e a :: found)) none x
  answer (found : List β) :
    v.resume (wait none [] found) none x = .ok (some (.answer (finish found.reverse), ended), y)
  ended (r : ρ) : v.resume ended (some r) y = .ok (none, y)

theorem pow_add_pow_le (hs : 0 < s) : 2 ^ (s + n) + (2 ^ (t + 1 + n) - 2) ≤ 2 ^ (s + t + 1 + n) - 2 := by
  have hfirst : 2 ^ (s + n) ≤ 2 ^ (s + t + n) := Nat.pow_le_pow_right (by omega) (by omega)
  have hrest : 2 ^ (t + 1 + n) ≤ 2 ^ (s + t + n) := Nat.pow_le_pow_right (by omega) (by omega)
  have htwo : 2 ^ 1 ≤ 2 ^ (t + 1 + n) := Nat.pow_le_pow_right (by omega) (by omega)
  have hdouble : 2 ^ (s + t + 1 + n) = 2 ^ (s + t + n) * 2 := by rw [Nat.add_right_comm, Nat.pow_succ]
  omega

section

variable {ι β : Type} {value : ι → Value} {wait : Option ι → List ι → List β → κ} {item : ι → ρ → β}
  {finish : List β → ρ} {ended : κ} {x y : σ} (hloop : Loop v value wait item finish ended x y)
  {path : List Nat} {answer : ι → ρ} {met : ι → List Nat} {n : Nat} (hn : 3 ≤ n) {es : List ι}
  (hitem : ∀ e ∈ es, ∀ known, Fits path known (met e) → Answers v store [.visit (value e)] none known x (2 ^ ((value e).size + n) - 1) (answer e) (forget known (met e)) x)
  (hknown : Fits path known (es.flatMap met))

include hloop hn hitem hknown

theorem Loop.answers (hk : v.resume k last z = v.resume (wait none es found) none x) :
    Answers v store [.running k none] last known z (2 ^ ((es.map fun e => (value e).size).sum + 1 + n) - 2)
      (finish (found.reverse ++ es.map fun e => item e (answer e))) (forget known (es.flatMap met)) y := by
  induction es generalizing known k last z found with
  | nil =>
    have hpow : 2 ^ 4 ≤ 2 ^ (1 + n) := Nat.pow_le_pow_right (by omega) (by omega)
    have hend : Answers v store [.running k none] last known z 3 _ _ y :=
      .answer (hk.trans (hloop.answer found)) (hloop.ended _)
    have hcost : 3 ≤ 2 ^ (0 + 1 + n) - 2 := by
      rw [Nat.zero_add]
      omega
    simpa using hend.mono hcost
  | cons e es ih =>
    obtain ⟨hfirst, hrest⟩ := hknown.append
    have hvisit := hitem e List.mem_cons_self known hfirst
    have hmore := ih (fun e he => hitem e (List.mem_cons_of_mem _ he)) hrest (hloop.next e (answer e) es found)
    have hall := Answers.ask (hk.trans (hloop.ask e es found)) hvisit hmore
    rw [forget_forget, ← List.flatMap_cons] at hall
    have hle := pow_add_pow_le (t := (es.map fun e => (value e).size).sum) (n := n) (value e).size_pos
    have hone : 0 < 2 ^ ((value e).size + n) := Nat.two_pow_pos _
    rw [List.reverse_cons, List.append_assoc] at hall
    refine hall.mono ?_
    rw [List.map_cons, List.sum_cons]
    omega

/-- A value that is visited by such a visit. -/
theorem Loop.visit (hw : ∀ i, w ≠ .ref i) (hsize : (es.map fun e => (value e).size).sum + 1 ≤ w.size)
    (hv : v.value w y = .ok ([.running k none], y)) (hk : v.resume k none y = v.resume (wait none es []) none x) :
    Answers v store [.visit w] none known y (2 ^ (w.size + n) - 1) (finish (es.map fun e => item e (answer e)))
      (forget known (es.flatMap met)) y := by
  refine (Answers.value hw hv (hloop.answers hn hitem hknown hk)).mono ?_
  have hpow := Nat.pow_le_pow_right (n := 2) (by omega) (Nat.add_le_add_right hsize n)
  have htwo : 2 ^ 1 ≤ 2 ^ ((es.map fun e => (value e).size).sum + 1 + n) :=
    Nat.pow_le_pow_right (by omega) (by omega)
  omega

end

/-! ### Values -/

/-- The visits to a value that stands for `u` are answered by `f`. -/
def Visits (v : Visitor κ σ ρ) (store : Store) (f : σ → Unfolding → ρ) (path : List Nat) (n : Nat) (w : Value)
    (u : Unfolding) : Prop :=
  ∀ known x, Fits path known u.refs →
    Answers v store [.visit w] none known x (2 ^ (w.size + n) - 1) (f x u) (forget known u.refs) x

/-- The visits of a visitor are answered by `f`, as far as those to the parts of a value are. -/
structure Follows (v : Visitor κ σ ρ) (store : Store) (shown : Text × Value → Bool) (f : σ → Unfolding → ρ) :
    Prop where
  scalar {w : Value} (x : σ) : (∀ i, w ≠ .ref i) → (∀ vs, w ≠ .list vs) → (∀ es, w ≠ .dict es) →
    v.value w x = .ok ([.answer (f x (.scalar w))], x)
  again {i : Nat} {known : Nat → Option Handling} (x : σ) : known i = some .plain →
    Answers v store [.visit (.ref i)] none known x 4 (f x (.again i)) (forget known [i]) x
  list {path : List Nat} {n : Nat} {vs : List Value} {u : Value → Unfolding} : 3 ≤ n →
    (∀ w ∈ vs, Visits v store f path n w (u w)) → Visits v store f path n (.list vs) (.list (vs.map u))
  dict {path : List Nat} {n : Nat} {es : List (Text × Value)} {u : Value → Unfolding} : 3 ≤ n →
    (∀ e ∈ es.filter shown, Visits v store f path n e.2 (u e.2)) →
    Visits v store f path n (.dict es) (.dict ((es.filter shown).map fun e => (e.1, u e.2)))
  node {i cost : Nat} {us : List (Text × Unfolding)} {known known' : Nat → Option Handling} (x : σ) : known i = none →
    (∀ y, Answers v store [.visit (.dict (store.get i).entries)] none (Function.update known i (some .plain)) y cost
      (f y (.dict us)) known' y) →
    Answers v store [.visit (.ref i)] none known x (cost + 12) (f x (.node i (store.get i).form us))
      (forget known' [i]) x

end Walk

namespace Walk.Follows

variable {κ σ ρ : Type} {v : Visitor κ σ ρ} {store : Store} {shown : Text × Value → Bool}
  {f : σ → Unfolding → ρ} {path : List Nat} {i : Nat}

/-- What is left of a node once the walk has left it. -/
theorem forget_update (hi : known i = none) (is : List Nat) (h : Handling) :
    forget (forget (Function.update known i (some h)) is) [i] = forget known (is.filter (· ≠ i)) := by
  funext j
  by_cases hj : j = i
  · subst hj
    simp [forget, hi]
  · simp [forget, hj]

/-- A walk that is not inside of a node comes into it, where the node itself may be met once. -/
theorem fits_update (h : Fits path known (is.filter (· ≠ i))) (hcount : is.count i ≤ 1) :
    Fits (i :: path) (Function.update known i (some .plain)) is where
  nodup := List.nodup_iff_count_le_one.2 fun j => by
    by_cases hj : j = i
    · exact hj ▸ hcount
    · rw [← List.count_filter (p := (· ≠ i)) (by simpa using hj)]
      exact List.nodup_iff_count_le_one.1 h.nodup j
  plain j hj := by
    by_cases hji : j = i
    · rw [hji, Function.update_self]
    · rw [Function.update_of_ne hji]
      exact h.plain j (List.mem_filter.2 ⟨hj, by simpa using hji⟩)
  fresh j hj := by
    rw [List.mem_cons, not_or] at hj
    rw [Function.update_of_ne hj.1]
    exact h.fresh j hj.2

/-- All visits are answered, along what a value stands for. -/
theorem visits (h : Follows v store shown f) (path : List Nat) (w : Value)
    (hw : (store.unfold shown path w).MeetsOnce) :
    Visits v store f path (store.left path + 8) w (store.unfold shown path w) := by
  induction path, w using Store.unfold_induct store with
  | again path i hi =>
    intro known x hknown
    rw [Store.unfold, if_pos hi, Unfolding.refs] at hknown ⊢
    have hpow : 2 ^ 3 ≤ 2 ^ ((Value.ref i).size + (store.left path + 8)) :=
      Nat.pow_le_pow_right (by omega) (by omega)
    exact (h.again x (hknown.plain i (List.mem_singleton_self i))).mono (by omega)
  | node path i hi ih =>
    intro known x hknown
    rw [Store.unfold_ref hi, Unfolding.MeetsOnce] at hw
    rw [Store.unfold_ref hi, Unfolding.refs] at hknown ⊢
    have hfresh := hknown.fresh i hi
    have hinner := fits_update hknown hw.1
    have hparts (e : Text × Value) (he : e ∈ (store.get i).entries.filter shown) :
        Visits v store f (i :: path) (store.left (i :: path) + 8) e.2 (store.unfold shown (i :: path) e.2) :=
      ih e (List.mem_filter.1 he).1 (hw.2 _ (List.mem_map.2 ⟨e, he, rfl⟩))
    have hpow : 2 ^ 8 ≤ 2 ^ (store.left path + 8) := Nat.pow_le_pow_right (by omega) (by omega)
    have hdouble : 2 ^ ((Value.ref i).size + (store.left path + 8)) = 2 * 2 ^ (store.left path + 8) := by
      rw [show (Value.ref i).size = 1 from rfl, Nat.add_comm, Nat.pow_succ, Nat.mul_comm]
    rw [← forget_update hfresh _ .plain]
    -- A place without a node is not counted among those that are left, but nothing is in it.
    by_cases hsize : i < store.objects.size
    · have hdict := h.dict (by omega) hparts
      rw [Visits, Unfolding.refs] at hdict
      refine (h.node x hfresh fun y => hdict _ y hinner).mono ?_
      rw [Value.size_dict_entries, ← Nat.add_assoc, Store.left_cons hsize hi]
      omega
    · have hnone := Store.entries_of_size_le (Nat.le_of_not_lt hsize)
      have hempty : ∀ e ∈ (store.get i).entries.filter shown,
          Visits v store f (i :: path) 3 e.2 (store.unfold shown (i :: path) e.2) := by simp [hnone]
      have hdict := h.dict (Nat.le_refl 3) hempty
      rw [Visits, Unfolding.refs] at hdict
      refine (h.node x hfresh fun y => hdict _ y hinner).mono ?_
      rw [hnone, Value.size, Value.sizeEntries]
      omega
  | list path vs ih =>
    rw [Store.unfold, Unfolding.MeetsOnce] at hw
    rw [Store.unfold]
    exact h.list (by omega) fun v hv => ih v hv (hw _ (List.mem_map.2 ⟨v, hv, rfl⟩))
  | dict path es ih =>
    rw [Store.unfold, Unfolding.MeetsOnce] at hw
    rw [Store.unfold]
    exact h.dict (by omega) fun e he =>
      ih e (List.mem_filter.1 he).1 (hw _ (List.mem_map.2 ⟨e, he, rfl⟩))
  | scalar path w href hlist hdict =>
    intro known x hknown
    rw [Store.unfold_scalar href hlist hdict, Unfolding.refs, forget_nil]
    have hpow : 2 ^ 2 ≤ 2 ^ (w.size + (store.left path + 8)) := Nat.pow_le_pow_right (by omega) (by omega)
    exact (Answers.value href (h.scalar x href hlist hdict) .given).mono (by omega)

/-- The whole walk ends in time, with the answer of the recursion. -/
theorem whole (h : Follows v store shown f) (hroot : (store.unfold shown [] root).MeetsOnce)
    (x : σ) : Walk.whole v store root x = .ok (some (f x (store.unfold shown [] root)), x) := by
  have hrefs : (store.unfold shown [] root).refs = [] :=
    List.eq_nil_iff_forall_not_mem.2 fun i hi => List.not_mem_nil (Store.mem_path_of_mem_refs [] root hi)
  have hfits : Fits [] (fun _ => none) (store.unfold shown [] root).refs := by
    rw [hrefs]
    exact ⟨.nil, by simp, fun _ _ => rfl⟩
  refine whole_of_answers (h.visits [] root hroot _ x hfits) ?_
  rw [Store.left_nil, allowance, Nat.add_assoc, Nat.add_comm 8, Nat.add_assoc]
  exact Nat.sub_le _ _

end Walk.Follows

namespace Export

open Walk

theorem loop_items : Loop visitor (fun w => w) (fun _ rest found => .items rest found) (fun _ d => d) Data.list
    .ended () () where
  ask _ _ _ := rfl
  next _ _ _ _ := rfl
  answer _ := rfl
  ended _ := rfl

theorem loop_entries : Loop visitor Prod.snd (fun e rest found => .entries (e.map Prod.fst) rest found)
    (fun e d => (dataKey e.1, d)) Data.ofEntries .ended () () where
  ask _ _ _ := rfl
  next _ _ _ _ := rfl
  answer _ := rfl
  ended _ := rfl

theorem follows (store : Store) : Follows visitor store isShown (fun _ u => u.toData : Unit → Unfolding → Data) where
  scalar {w} _ href hlist hdict := by
    rw [Unfolding.toData]
    cases w with
    | ref i => exact (href i rfl).elim
    | list vs => exact (hlist vs rfl).elim
    | dict es => exact (hdict es rfl).elim
    | _ => rfl
  again x hi := by
    rw [Unfolding.toData]
    exact (Answers.again hi rfl rfl).mono (by omega)
  list {path n vs u} hn hvs := by
    intro known x hknown
    rw [Unfolding.refs, List.flatMap_map] at hknown ⊢
    beta_reduce
    rw [Unfolding.toData, List.map_map]
    exact loop_items.visit hn (fun w hw known => hvs w hw known ()) hknown (by simp)
      (by rw [Value.size, Value.sizeAll_eq, Nat.add_comm]) rfl rfl
  dict {path n es u} hn hes := by
    intro known x hknown
    rw [Unfolding.refs, List.flatMap_map] at hknown ⊢
    beta_reduce
    rw [Unfolding.toData, List.map_map]
    exact loop_entries.visit hn (fun e he known => hes e he known ()) hknown (by simp)
      (by rw [Value.size, Nat.add_comm]; exact Nat.add_le_add_left (Value.sum_filter_le _ _) 1) rfl rfl
  node {i cost us known known'} x hi hdict := by
    have hnode : (Unfolding.node i (store.get i).form us).toData = (Unfolding.dict us).toData := by
      rw [Unfolding.toData, Unfolding.toData]
    rw [hnode]
    exact (Answers.object (by rw [hi]; rfl) rfl rfl rfl rfl (hdict x)).mono (by omega)

end Export

namespace Print

open Walk

variable {skip : List Text} {l : Layout}

theorem loop_items : Loop (visitor skip) (fun w => w) (fun _ rest found => .items rest found) (fun _ t => t)
    ({ l with level := l.level + 1 }.enclose 0x5b 0x5d) .ended { l with level := l.level + 1 } l where
  ask _ _ _ := rfl
  next _ _ _ _ := rfl
  answer _ := rfl
  ended _ := rfl

theorem loop_entries : Loop (visitor skip) Prod.snd (fun e rest found => .entries (e.map Prod.fst) rest found)
    (fun e t => e.1 ++ Text.ofString ": " ++ t) ({ l with level := l.level + 1 }.enclose 0x7b 0x7d) .ended
    { l with level := l.level + 1 } l where
  ask _ _ _ := rfl
  next _ _ _ _ := rfl
  answer _ := rfl
  ended _ := rfl

theorem follows (store : Store) (skip : List Text) :
    Follows (visitor skip) store (isShown skip) fun l u => u.text l where
  scalar {w} l href hlist hdict := by
    rw [Unfolding.text]
    cases w with
    | ref i => exact (href i rfl).elim
    | list vs => exact (hlist vs rfl).elim
    | dict es => exact (hdict es rfl).elim
    | _ => rfl
  again l hi := by
    rw [Unfolding.text]
    exact (Answers.again hi rfl rfl).mono (by omega)
  list {path n vs u} hn hvs := by
    intro known l hknown
    rw [Unfolding.refs, List.flatMap_map] at hknown ⊢
    beta_reduce
    rw [Unfolding.text, List.map_map]
    exact loop_items.visit hn (fun w hw known => hvs w hw known _) hknown (by simp)
      (by rw [Value.size, Value.sizeAll_eq, Nat.add_comm]) rfl rfl
  dict {path n es u} hn hes := by
    intro known l hknown
    rw [Unfolding.refs, List.flatMap_map] at hknown ⊢
    beta_reduce
    rw [Unfolding.text, List.map_map]
    exact loop_entries.visit hn (fun e he known => hes e he known _) hknown (by simp)
      (by rw [Value.size, Nat.add_comm]; exact Nat.add_le_add_left (Value.sum_filter_le _ _) 1) rfl rfl
  node {i cost us known known'} l hi hdict := by
    by_cases hform : (store.get i).form = "SourceLocation"
    · -- Such a node is visited twice: its own visit changes the layout and asks for the plain one.
      let bare : Layout := { l with indent := [], newline := [], space := [] }
      have htext : (Unfolding.node i (store.get i).form us).text l = (Unfolding.dict us).text bare := by
        rw [Unfolding.text, Unfolding.text, if_pos hform]
      have hupdate : Function.update known i (some Handling.plain)
          = Function.update (Function.update known i (some Handling.own)) i (some Handling.plain) :=
        (Function.update_idem _ _ known).symm
      have hplain := Answers.object (by rw [Function.update_self]; rfl) rfl rfl rfl rfl (hupdate ▸ hdict bare)
      have hown := Answers.node (by rw [hi]; simp [choose, visitor, hform]) rfl (.ask rfl hplain (.ends rfl))
      have hforget : forget (forget known' [i]) [i] = forget known' [i] := by
        funext j
        by_cases hj : j = i <;> simp [forget, hj]
      rw [Option.toList_some, hforget] at hown
      rw [htext]
      exact hown.mono (by omega)
    · have htext : (Unfolding.node i (store.get i).form us).text l = (Unfolding.dict us).text l := by
        rw [Unfolding.text, Unfolding.text, if_neg hform]
      rw [htext]
      refine (Answers.object ?_ rfl rfl rfl rfl (hdict l)).mono (by omega)
      rw [hi]
      simp [choose, visitor, hform]

end Print

/-! ### Whole walks -/

namespace Export

theorem ofStore_of_meetsOnce (h : (store.unfold isShown [] root).MeetsOnce) :
    ofStore store root = .ok (store.unfold isShown [] root).toData := by
  rw [ofStore, (follows store).whole h]
  rfl

/-- If no node leads to itself, then each value is exported as what it stands for, however often it is shared. -/
theorem ofStore_of_acyclic {store : Store} {root : Value} (h : store.Acyclic isShown root) :
    (store.unfold isShown [] root).IsTree ∧ ofStore store root = .ok (store.unfold isShown [] root).toData := by
  have htree := Store.isTree_unfold [] root h (by simp)
  exact ⟨htree, ofStore_of_meetsOnce (htree.meetsOnce _).2⟩

/-- A node with two attributes that share their value, which refers back in an attribute that is not shown. -/
def shared : Store :=
  ⟨#[.make "Object" [("left", .ref 1), ("right", .list [.ref 1, .null])],
    .make "Object" [("name", .text "b"), ("_up", .ref 0)]], ∅⟩

theorem ofStore_shared : (shared.unfold isShown [] (.ref 0)).IsTree
    ∧ ofStore shared (.ref 0) = .ok (shared.unfold isShown [] (.ref 0)).toData := by
  refine ofStore_of_acyclic (.of_lt fun i j h => ?_)
  rw [Store.Refers, Value.refs] at h
  rcases i with - | - | i
  · have hshown : (shared.get 0).entries.filter isShown
        = [(Text.ofString "left", .ref 1), (Text.ofString "right", .list [.ref 1, .null])] := rfl
    simp [hshown, Value.refs] at h
    omega
  · have hshown : (shared.get 1).entries.filter isShown = [(Text.ofString "name", .text "b")] := rfl
    simp [hshown, Value.refs] at h
  · cases h

end Export

namespace Print

/-- **Printing is a plain recursion.** If no node leads to itself, then the text of a value is that of what it stands
for, where the layout of each part depends on nothing but the place of the part; and the layout is in the end what it was
at the start. -/
theorem whole_of_acyclic {store : Store} {root : Value} (skip : List Text) (indent newline space : Text)
    (h : store.Acyclic (isShown skip) root) :
    let l : Layout := ⟨0, indent, newline, space⟩
    let u := store.unfold (isShown skip) [] root
    u.IsTree ∧ Walk.whole (visitor skip) store root l = .ok (some (u.text l), l)
      ∧ ofStore store root l skip = .ok (u.text l) := by
  intro l u
  have htree : u.IsTree := Store.isTree_unfold [] root h (by simp)
  have hwhole := (follows store skip).whole (htree.meetsOnce _).2 l
  refine ⟨htree, hwhole, ?_⟩
  rw [ofStore, hwhole]
  rfl

/-- A node with a place in a source that is shared, and in which another one lies. -/
def located : Store :=
  ⟨#[.make "Object" [("loc", .ref 1), ("up", .ref 0), ("all", .list [.ref 1, .null])],
    .make "SourceLocation" [("start", .ref 2)], .make "SourceLocation" [("line", .int 1)]], ∅⟩

theorem whole_located :
    let l : Layout := ⟨0, "  ", "\n", " "⟩
    Walk.whole (visitor ["up"]) located (.ref 0) l
      = .ok (some ((located.unfold (isShown ["up"]) [] (.ref 0)).text l), l) := by
  refine (whole_of_acyclic ["up"] "  " "\n" " " (.of_lt fun i j h => ?_)).2.1
  rw [Store.Refers, Value.refs] at h
  rcases i with - | - | - | i
  · have hshown : (located.get 0).entries.filter (isShown ["up"])
        = [(Text.ofString "loc", .ref 1), (Text.ofString "all", .list [.ref 1, .null])] := rfl
    simp [hshown, Value.refs] at h
    omega
  · have hshown : (located.get 1).entries.filter (isShown ["up"]) = [(Text.ofString "start", .ref 2)] := rfl
    simp [hshown, Value.refs] at h
    omega
  · have hshown : (located.get 2).entries.filter (isShown ["up"]) = [(Text.ofString "line", .int 1)] := rfl
    simp [hshown, Value.refs] at h
  · cases h

end Print

namespace Walk

/-- Walks through values in which no node is met more than once inside of itself come to an end. -/
theorem ends_of_meetsOnce (store : Store) (root : Value) : ((store.unfold Export.isShown [] root).MeetsOnce →
      Export.ofStore store root = .ok (store.unfold Export.isShown [] root).toData)
    ∧ ∀ l skip, (store.unfold (Print.isShown skip) [] root).MeetsOnce →
      Print.ofStore store root l skip = .ok ((store.unfold (Print.isShown skip) [] root).text l) := by
  refine ⟨Export.ofStore_of_meetsOnce, fun l skip h => ?_⟩
  rw [Print.ofStore, (Print.follows store skip).whole h]
  rfl

/-- A node that refers to itself. -/
def loop : Store := ⟨#[.make "Object" [("x", .ref 0)]], ∅⟩

theorem ends_loop : Export.ofStore loop (.ref 0) = .ok (loop.unfold Export.isShown [] (.ref 0)).toData
    ∧ Print.ofStore loop (.ref 0) .standard []
      = .ok ((loop.unfold (Print.isShown []) [] (.ref 0)).text .standard) := by
  have honce {shown : Text × Value → Bool} (hshown : (loop.get 0).entries.filter shown = (loop.get 0).entries) :
      (loop.unfold shown [] (.ref 0)).MeetsOnce := by
    have hentries : (loop.get 0).entries = [(Text.ofString "x", .ref 0)] := rfl
    rw [Store.unfold_ref List.not_mem_nil, hshown, hentries, Unfolding.MeetsOnce]
    simp [Store.unfold, Unfolding.refs, Unfolding.MeetsOnce]
  exact ⟨(ends_of_meetsOnce loop (.ref 0)).1 (honce rfl), (ends_of_meetsOnce loop (.ref 0)).2 _ _ (honce rfl)⟩

/-- A node that refers to itself twice. -/
def knot : Store := ⟨#[.make "Object" [("x", .ref 0), ("y", .ref 0)]], ∅⟩

/-- A node that is referred to twice by a node that it refers to. -/
def tangle : Store := ⟨#[.make "Object" [("p", .ref 1)], .make "Object" [("x", .ref 0), ("y", .ref 0)]], ∅⟩

theorem knot_again {rest : List (Frame Export.Visit Data)} {inside : Std.HashMap Nat Handling}
    (h : inside[0]? = none) : ∃ rest' inside', inside'[0]? = none
      ∧ after Export.visitor knot 8 ⟨.visit (.ref 0) :: rest, none, inside, ()⟩
        = .ok ⟨.visit (.ref 0) :: rest', none, inside', ()⟩ := by
  have henter : step Export.visitor knot ⟨.visit (.ref 0) :: rest, none, inside, ()⟩
      = .ok ⟨.running (.object (knot.get 0).entries) (some 0) :: rest, none, inside.insert 0 .plain, ()⟩ := by
    simp only [step, h]
    rfl
  have hagain {rest' : List (Frame Export.Visit Data)} :
      step Export.visitor knot ⟨.visit (.ref 0) :: rest', none, inside.insert 0 .plain, ()⟩
        = .ok ⟨.answer Export.repetition :: .running .ended (some 0) :: rest', none,
          (inside.insert 0 .plain).insert 0 .repeated, ()⟩ := by
    simp only [step, Std.HashMap.getElem?_insert_self]
    rfl
  refine ⟨.running (.entries (some (Text.ofString "y")) [] [(Text.ofString "x", Export.repetition)]) none
    :: .running .handOn (some 0) :: rest, ((inside.insert 0 .plain).insert 0 .repeated).erase 0, by simp, ?_⟩
  rw [after, henter]
  change step _ _ ⟨.visit (.ref 0) :: _, none, _, ()⟩ >>= after _ _ 3 = _
  rw [hagain]
  rfl

/-- The second time that a node is met inside of itself, it was forgotten already. -/
theorem run_knot (n : Nat) :
    ∃ s, run Export.visitor knot n (start (.ref 0) ()) = .ok s ∧ s.stack.isEmpty = false := by
  have hknot (k : Nat) : ∃ rest inside, inside[0]? = none
      ∧ after Export.visitor knot (8 * k) (start (.ref 0) ()) = .ok ⟨.visit (.ref 0) :: rest, none, inside, ()⟩ := by
    induction k with
    | zero => exact ⟨[], ∅, Std.HashMap.getElem?_empty, rfl⟩
    | succ k ih =>
      obtain ⟨rest, inside, hinside, hafter⟩ := ih
      obtain ⟨rest', inside', hinside', hafter'⟩ := @knot_again rest _ hinside
      exact ⟨rest', inside', hinside', by rw [Nat.mul_succ, after_add, hafter]; exact hafter'⟩
  obtain ⟨rest, inside, -, hafter⟩ := hknot (2 ^ n)
  rw [show 8 * 2 ^ n = 2 ^ n + 7 * 2 ^ n by omega, after_add] at hafter
  rw [run_eq_after]
  -- A walk that had ended would stay where it is, but some steps later there is a node to be visited.
  cases hs : after Export.visitor knot (2 ^ n) (start (.ref 0) ()) with
  | error e => rw [hs] at hafter; cases hafter
  | ok s =>
    refine ⟨s, rfl, Bool.eq_false_iff.2 fun hempty => ?_⟩
    rw [hs] at hafter
    cases (after_of_isEmpty hempty (7 * 2 ^ n)).symm.trans hafter
    cases hempty

theorem ofStore_tangle : Export.ofStore tangle (.ref 0) = .ok (.dict [("p", .dict [("x", Export.repetition),
    ("y", .dict [("p", Export.repetition)])])]) := by
  have hagain {i : Nat} {known : Nat → Option Handling} (h : known i = some .plain) :
      Answers Export.visitor tangle [.visit (.ref i)] none known () 3 Export.repetition (forget known [i]) () :=
    .again h rfl rfl
  have hinner {known : Nat → Option Handling} (h : known 0 = none) (h' : known 1 = some .plain) :
      Answers Export.visitor tangle [.visit (.ref 0)] none known () _ (.dict [("p", Export.repetition)]) _ () :=
    .object (h := .plain) (by rw [h]; rfl) rfl rfl rfl rfl
      (.value (by simp) rfl (.ask rfl (hagain (by simp [h'])) (.answer rfl rfl)))
  have hnode {known : Nat → Option Handling} (h : known 0 = some .plain) (h' : known 1 = none) :
      Answers Export.visitor tangle [.visit (.ref 1)] none known () _
        (.dict [("x", Export.repetition), ("y", .dict [("p", Export.repetition)])]) _ () :=
    .object (h := .plain) (by rw [h']; rfl) rfl rfl rfl rfl (.value (by simp) rfl
      (.ask rfl (hagain (by simp [h])) (.ask rfl (hinner (by simp [forget]) (by simp [forget])) (.answer rfl rfl))))
  have hroot : Answers Export.visitor tangle [.visit (.ref 0)] none (fun _ => none) () _ (.dict [("p",
      .dict [("x", Export.repetition), ("y", .dict [("p", Export.repetition)])])]) _ () :=
    .object (h := .plain) rfl rfl rfl rfl rfl
      (.value (by simp) rfl (.ask rfl (hnode (by simp) (by simp)) (.answer rfl rfl)))
  rw [Export.ofStore, whole_of_answers hroot (by decide)]
  rfl

/-- Other walks may go on for ever, or enter a node that they are inside of. -/
theorem not_ends_knot : (∀ n, ∃ s, run Export.visitor knot n (start (.ref 0) ()) = .ok s ∧ s.stack.isEmpty = false)
    ∧ Export.ofStore tangle (.ref 0) = .ok (.dict [("p", .dict [("x", Export.repetition),
      ("y", .dict [("p", Export.repetition)])])]) :=
  ⟨run_knot, ofStore_tangle⟩

end Walk

end EcmaSyntax
