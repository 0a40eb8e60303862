import EcmaSyntax.Proofs.Fitting.Rules

/-!
# Members of which there is only one

A class has one constructor, a switch one default clause, and an object sets its prototype once. The loops
that read the members carry a flag that tells if there was such a member. `Tallies` says what a member does
to that flag.
-/

namespace EcmaSyntax

open Parse

variable {m : Member} {start : Mark}

/-- What is read after a flag, with the flag that comes after it: if it is of a sort, then it is the first
one. -/
structure Tallies (p : Node → Bool) (seen : Bool) (x : Node × Bool) : Prop where
  kept : seen → x.2
  first : p x.1 → seen = false ∧ x.2

theorem Tallies.push (h : Tallies p seen x)
    (hns : ns.countP p ≤ seen.toNat) : (ns ++ [x.1]).countP p ≤ x.2.toNat := by
  rw [List.countP_append, List.countP_singleton]
  split
  · next hp =>
    obtain ⟨hseen, hnow⟩ := h.first hp
    rw [hseen] at hns
    rw [hnow]
    exact Nat.add_le_add_right hns 1
  · cases seen with
    | false => exact Nat.le_trans hns (Nat.zero_le _)
    | true => rwa [h.kept rfl]

/-- Does what was read make a property that sets the prototype? -/
def Grammar.PropertyParts.setsPrototype (p : PropertyParts) : Bool :=
  p.kind = "init" && !p.computed && !p.method && !p.shorthand && p.key.isKey "__proto__"

namespace Grammar

variable {r : Recur} {c : ParseSetting} {s : ParseState} {seen : Bool} {cause : Cause}

/-! ### Errors -/

theorem ensures_refuse : Ensures (refuse cause) c s Q :=
  .anyway fun _ _ => Ensures.throw_iff.2 trivial

theorem ensures_forgive : Ensures (forgive x) c s fun _ t =>
    c.tolerant ∧ t.lookahead = s.lookahead := by
  simp only [forgive, Ensures.bind_iff, Ensures.step_iff]
  split
  · next h => exact .modify ⟨h, rfl⟩
  · exact Ensures.throw_iff.2 trivial

theorem ensures_tolerate : Ensures (tolerate cause) c s fun _ t =>
    c.tolerant ∧ t.lookahead = s.lookahead := by
  exact ensures_forgive

/-! ### Classes -/

theorem ensures_asyncKey_kind : Ensures (asyncKey r m) c s fun m' _ => m'.kind = m.kind := by
  refine .anyway fun _ _ => ?_
  split
  · exact .pure rfl
  · refine .anyway fun t _ => ?_
    split
    · exact .pure rfl
    · refine .anyway fun _ _ => ?_
      split
      · exact .anyway fun _ _ => .pure rfl
      · exact .pure rfl

/-- Nothing is a constructor before its key is checked. -/
theorem ensures_memberByToken_kind (hm : m.kind ≠ some .constructor) :
    Ensures (memberByToken r start m) c s fun m' _ => m'.kind ≠ some .constructor := by
  have hkeyed {kind : MemberKind} {value : Parse Node} {s : ParseState} (hkind : kind ≠ .constructor) :
      Ensures (keyedMember r m kind value) c s fun m' _ => m'.kind ≠ some .constructor :=
    ensures_keyedMember_kind.mono fun _ _ h => by simpa [h] using hkind
  have hfield {s : ParseState} : Ensures (fieldValue r m) c s fun m' _ => m'.kind ≠ some .constructor := by
    refine .anyway fun hasValue _ => ?_
    split <;> exact .anyway fun _ _ => .pure (by simp)
  refine .anyway fun t _ => ?_
  dsimp only
  split
  · split
    · exact hkeyed (by decide)
    · split
      · exact hkeyed (by decide)
      · refine .anyway fun _ _ => .anyway fun _ _ => ?_
        split
        · exact .anyway fun _ _ => hfield
        · exact .pure hm
  · refine .anyway fun isMethod _ => ?_
    split
    · exact .anyway fun _ _ => .pure (by simp)
    · exact hfield
  · split
    · exact hkeyed (by decide)
    · exact .pure hm
  · exact .pure hm

/-- A member that looks like a constructor was taken for one. -/
theorem kind_of_isConstructor {kind : MemberKind} {a b c d : Value}
    (h : Node.isConstructor { (if kind = .field then Node.fieldDefinition else Node.methodDefinition)
      a b c (.word kind.word) d with serial, span }) : kind = .constructor := by
  cases kind <;> first | rfl | exact absurd h Bool.false_ne_true

theorem ensures_member_tallies (hc : c.delegate = .idle) (hm : m.kind ≠ some .constructor) :
    Ensures (member r start seen m) c s fun x _ => Tallies Node.isConstructor seen x := by
  have hrest {m : Member} (hm : m.kind ≠ some .constructor) {s : ParseState} : Ensures (do
      let x ← checkMember m seen
      let kind := x.1.kind.getD .field
      let make := if kind = .field then Node.fieldDefinition else Node.methodDefinition
      let node ← finish start (make x.1.key x.1.computed x.1.value (.word kind.word) x.1.isStatic)
      return (node, x.2)) c s fun x _ => Tallies Node.isConstructor seen x := by
    refine ensures_checkMember.bind fun x t hx => (ensures_finish_idle hc).bind fun n _ hn => .pure ?_
    subst hn
    obtain rfl | ⟨-, rfl, rfl⟩ := hx
    · refine ⟨id, fun h => absurd (kind_of_isConstructor h) fun hkind => hm ?_⟩
      cases hm : m.kind <;> simp_all
    · exact ⟨fun _ => rfl, fun _ => ⟨rfl, rfl⟩⟩
  refine (ensures_memberByToken_kind hm).bind fun m t hm => .anyway fun isMethod t => ?_
  simp only [pure_bind]
  split
  · split <;> exact .anyway fun value t => hrest (by simp)
  · split
    · exact .anyway fun _ _ => .seq ensures_unexpected
    · exact hrest hm

theorem ensures_classElement_tallies (hc : c.delegate = .idle) :
    Ensures (classElement r seen) c s fun x _ => Tallies Node.isConstructor seen x := by
  have hasync {start : Mark} {m : Member} {s : ParseState} (hm : m.kind = none) :
      Ensures (asyncKey r m >>= member r start seen) c s fun x _ => Tallies Node.isConstructor seen x :=
    ensures_asyncKey_kind.bind fun m' _ hm' => ensures_member_tallies hc (by simp [hm', hm])
  refine .anyway fun start _ => .anyway fun t _ => .anyway fun isGenerator _ => ?_
  dsimp only
  split
  · exact ensures_member_tallies hc nofun
  · refine .anyway fun computed _ => .anyway fun key _ => .anyway fun t' _ => ?_
    split
    · refine .anyway fun hasBlocks _ => ?_
      split
      · refine .anyway fun body _ => (ensures_finish_idle hc).bind fun n _ hn => .pure ⟨id, ?_⟩
        rw [hn]
        exact fun h => absurd h Bool.false_ne_true
      · refine .anyway fun computed _ => .anyway fun isGenerator _ => ?_
        split
        · exact hasync rfl
        · refine .anyway fun key _ => ?_
          exact hasync rfl
    · exact hasync rfl

/-! ### Switches -/

/-- **A switch has one default clause.** -/
theorem ensures_switchCases_tallied : Ensures (switchCases r) c s fun cases _ => cases.countP Node.isDefault ≤ 1 := by
  refine .anyway fun _ _ => Ensures.bind ?_ fun cases _ h => .anyway fun _ _ => .pure h
  refine ensures_loop (I := fun x _ => x.1.countP Node.isDefault ≤ x.2.toNat) (Nat.le_refl _) fun x t hx => ?_
  obtain ⟨cases, seen⟩ := x
  refine .anyway fun isEnd _ => ?_
  split
  · exact .pure (Nat.le_trans hx (Bool.toNat_le _))
  · refine .anyway fun clause _ => .anyway fun _ _ => ?_
    dsimp only
    split
    · exact .seq ensures_refuse
    · next hfirst =>
      have htallies : Tallies Node.isDefault seen (clause, seen || (clause.get "test").isNull) := by
        refine ⟨fun h => by simp [h], fun h => ?_⟩
        have hnull := (Bool.and_eq_true_iff.1 h).2
        simp_all
      exact .pure (htallies.push hx)

/-! ### Objects -/

theorem ensures_keyedProperty_parts {isMethod : Bool} (hkind : isMethod ∨ kind ≠ "init") :
    Ensures (keyedProperty r kind isMethod value) c s fun p _ => p.setsPrototype = false :=
  .anyway fun _ _ => .anyway fun _ _ => .anyway fun _ _ => .pure <| by
    rcases hkind with hmethod | hkind <;> simp [PropertyParts.setsPrototype, *]

theorem ensures_propertyValue_parts (hstrict : c.tolerant = false) :
    Ensures (propertyValue r start seen h key) c s fun p _ => p.setsPrototype → seen = false ∧ p.isProto := by
  refine .anyway fun isColon _ => ?_
  dsimp only
  split
  · split
    · refine ensures_tolerate.bind fun _ _ hforgiven => ?_
      rw [hstrict] at hforgiven
      cases hforgiven.1
    · next hfirst =>
      refine .anyway fun _ _ => .anyway fun _ _ => .pure fun hsets => ?_
      have hkey : (!h.computed && key.isKey "__proto__") = true := by
        simp_all [PropertyParts.setsPrototype]
      rw [hkey, Bool.true_and] at hfirst
      exact ⟨Bool.eq_false_iff.2 hfirst, hkey⟩
  · have hshorthand {value : Node} {s : ParseState} : Ensures (pure (PropertyParts.mk "init" key h.computed value
        false true false)) c s fun p _ => p.setsPrototype → seen = false ∧ p.isProto :=
      .pure (by simp [PropertyParts.setsPrototype])
    refine .anyway fun isMethod _ => ?_
    split
    · split <;> exact .anyway fun _ _ => .pure (by simp [PropertyParts.setsPrototype])
    · split
      · refine .anyway fun _ _ => .anyway fun _ _ => ?_
        split
        · exact .anyway fun _ _ => .anyway fun _ _ => .anyway fun _ _ => .anyway fun _ _ => hshorthand
        · exact hshorthand
      · exact .anyway fun _ _ => .seq ensures_unexpected

theorem ensures_objectProperty_tallies (hc : c.delegate = .idle) (hstrict : c.tolerant = false) :
    Ensures (objectProperty r seen) c s fun x _ => Tallies Node.setsPrototype seen x := by
  have hrest {start : Mark} {read : Parse PropertyParts} {s : ParseState}
      (hread : Ensures read c s fun p _ => p.setsPrototype → seen = false ∧ p.isProto) : Ensures (do
        let p ← read
        let node ← finish start (.property (.word p.kind) p.key p.computed p.value p.method p.shorthand)
        return (node, seen || p.isProto)) c s fun x _ => Tallies Node.setsPrototype seen x := by
    refine hread.bind fun p _ hp => (ensures_finish_idle hc).bind fun n _ hn => .pure ⟨fun h => by simp [h], ?_⟩
    intro hsets
    have hparts : p.setsPrototype := by
      have hsets : ((Text.ofString p.kind).is "init" && !p.computed && !p.method && !p.shorthand
        && p.key.isKey "__proto__") = true := by rwa [hn] at hsets
      simpa only [PropertyParts.setsPrototype, Bool.and_eq_true, decide_eq_true_eq, Text.ofString_is] using hsets
    obtain ⟨hseen, hproto⟩ := hp hparts
    exact ⟨hseen, by simp [hproto]⟩
  refine .anyway fun start _ => .anyway fun head _ => .anyway fun next _ => ?_
  dsimp only
  split
  · exact hrest ((ensures_keyedProperty_parts (.inr (by decide))).mono fun _ _ h hp => by simp [h] at hp)
  · split
    · exact hrest ((ensures_keyedProperty_parts (.inr (by decide))).mono fun _ _ h hp => by simp [h] at hp)
    · split
      · exact hrest ((ensures_keyedProperty_parts (.inl rfl)).mono fun _ _ h hp => by simp [h] at hp)
      · split
        · exact hrest (ensures_propertyValue_parts hstrict)
        · exact .anyway fun _ _ => .seq ensures_unexpected

end Grammar

end EcmaSyntax
