import EcmaSyntax.Grammar.Program
import EcmaSyntax.Proofs.Attribute

/-!
# Values in results

Productions give values: nodes, lists and records of them, or tokens and the like, in which there are none.
A `Sense` is something that is said of values. `Bears` says that it holds of all values in a result; it is
found along the form of the result.
-/

namespace EcmaSyntax

variable {strict computed : Bool} {f : Formals} {q : Prop} {t : Token}

/-- Something that is said of values; what it is depends on a place, a moment or the like. -/
class Sense (ι : Type) where
  Holds : ι → Value → Prop
  /-- What holds here holds there. -/
  le : ι → ι → Prop
  mono {i j : ι} {v : Value} : le i j → Holds i v → Holds j v
  scalar {i : ι} {v : Value} : v.isScalar → Holds i v
  list {i : ι} {vs : List Value} : (∀ v ∈ vs, Holds i v) → Holds i (.list vs)

/-- Results with values in them. -/
class Bearer (ι : Type) [Sense ι] (α : Type) where
  all : ι → α → Prop
  mono {i j : ι} {x : α} : Sense.le i j → all i x → all j x

variable {ι : Type} [Sense ι]

namespace Bearer

/-- Results without values. -/
instance (priority := low) plain (α : Type) : Bearer ι α := ⟨fun _ _ => True, fun _ h => h⟩

instance : Bearer ι Value := ⟨Sense.Holds, Sense.mono⟩
instance : Bearer ι Node := ⟨fun i n => Sense.Holds i (.node n), Sense.mono⟩

instance list [Bearer ι α] : Bearer ι (List α) :=
  ⟨fun i l => ∀ x ∈ l, all i x, fun h hl x hx => mono h (hl x hx)⟩

instance option [Bearer ι α] : Bearer ι (Option α) :=
  ⟨fun i o => ∀ x, o = some x → all i x, fun h ho x hx => mono h (ho x hx)⟩

instance prod [Bearer ι α] [Bearer ι β] : Bearer ι (α × β) :=
  ⟨fun i p => all i p.1 ∧ all i p.2, fun h hp => ⟨mono h hp.1, mono h hp.2⟩⟩

instance round [Bearer ι σ] [Bearer ι β] : Bearer ι (Round σ β) :=
  ⟨fun i r => match r with
    | .again s => all i s
    | .done x => all i x,
  fun {_ _ r} h hr => by cases r <;> exact mono h hr⟩

instance : Bearer ι Formals := ⟨fun i f => all i f.params, fun h hf => mono h hf⟩
instance : Bearer ι Grammar.PropertyHead := ⟨fun i x => all i x.key, fun h hx => mono h hx⟩
instance : Bearer ι Grammar.PropertyParts :=
  ⟨fun i x => all i x.key ∧ all i x.value, fun h hx => ⟨mono h hx.1, mono h hx.2⟩⟩
instance : Bearer ι Grammar.Member :=
  ⟨fun i x => all i x.key ∧ all i x.value, fun h hx => ⟨mono h hx.1, mono h hx.2⟩⟩

instance : Bearer ι Grammar.LoopHead :=
  ⟨fun i x => match x with
    | .steps init => all i init
    | .names left right | .values left right => all i left ∧ all i right,
  fun {_ _ x} h hx => by
    cases x with
    | steps init => exact mono h hx
    | names left right | values left right => exact ⟨mono h hx.1, mono h hx.2⟩⟩

instance : Bearer ι Grammar.OpenElement :=
  ⟨fun i x => all i x.opening ∧ all i x.children ∧ all i x.closing,
    fun h hx => ⟨mono h hx.1, mono h hx.2.1, mono h hx.2.2⟩⟩

end Bearer

/-- Results that have no values, whatever they are made of. -/
class Barren (ι : Type) [Sense ι] (α : Type) [Bearer ι α] : Prop where
  all (i : ι) (x : α) : Bearer.all i x

instance (α : Type) : @Barren ι _ α (Bearer.plain α) := ⟨fun _ _ => trivial⟩
instance [Bearer ι α] [Barren ι α] : Barren ι (List α) := ⟨fun i _ x _ => Barren.all i x⟩
instance [Bearer ι α] [Barren ι α] : Barren ι (Option α) := ⟨fun i _ x _ => Barren.all i x⟩
instance [Bearer ι α] [Bearer ι β] [Barren ι α] [Barren ι β] : Barren ι (α × β) :=
  ⟨fun i x => ⟨Barren.all i x.1, Barren.all i x.2⟩⟩

/-- What is said holds of all values in a result. -/
class Bears (i : ι) {α : Type} [Bearer ι α] (x : α) : Prop where
  out : Bearer.all i x

/-- A result, and that what is said holds of it. -/
structure Borne (i : ι) (α : Type) [Bearer ι α] where
  get : α
  out : Bearer.all i get

theorem Formals.params_bindName {who : Culprit} {name : Text} : (f.bindName strict who name).params = f.params := by
  unfold bindName
  grind [blame, suspect]

theorem Formals.params_push {param : Value}
    {names : List (Culprit × Text)} : (f.push strict param names).params = f.params ++ [param] := by
  have fold : (names.foldl (fun f p => f.bindName strict p.1 p.2) f).params = f.params := by
    induction names generalizing f with
    | nil => rfl
    | cons p ps ih => rw [List.foldl_cons, ih, params_bindName]
  exact congrArg (· ++ [param]) fold

namespace Bears

variable {i : ι} {α β : Type} [Bearer ι α] [Bearer ι β] {x : α} {l : List α} {a b c : Value}
  {key : Option Node} {isAsync : Bool} {right : Node}

instance (priority := high) {x : Borne i α} : Bears i x.get := ⟨x.out⟩
instance (priority := low) [h : Barren ι α] : Bears i x := ⟨h.all i x⟩

instance {y : β} [hx : Bears i x] [hy : Bears i y] : Bears i (x, y) := ⟨hx.out, hy.out⟩

instance : Bears i (none : Option α) := ⟨fun _ h => nomatch h⟩
instance [h : Bears i x] : Bears i (some x) := ⟨fun _ hy => by cases hy; exact h.out⟩

instance : Bears i ([] : List α) := ⟨fun _ h => nomatch h⟩
instance [hx : Bears i x] [hl : Bears i l] : Bears i (x :: l) :=
  ⟨List.forall_mem_cons.2 ⟨hx.out, hl.out⟩⟩
instance [hl : Bears i l] [hm : Bears i m] : Bears i (l ++ m) :=
  ⟨List.forall_mem_append.2 ⟨hl.out, hm.out⟩⟩
instance [h : Bears i l] : Bears i l.reverse := ⟨fun x hx => h.out x (List.mem_reverse.1 hx)⟩
instance {l : List (α × β)} [h : Bears i l] : Bears i (l.map (·.1)) :=
  ⟨List.forall_mem_map.2 fun p hp => (h.out p hp).1⟩
instance {x : Option α} [h : Bears i x] : Bears i x.toList := ⟨fun y hy => h.out y (Option.mem_toList.1 hy)⟩

instance [h : Bears i x] : Bears i (Round.again x : Round α β) := ⟨h.out⟩
instance {x : β} [h : Bears i x] : Bears i (Round.done x : Round α β) := ⟨h.out⟩

instance [Decidable q] [hx : Bears i x] [hy : Bears i y] : Bears i (if q then x else y) := by
  split
  · exact hx
  · exact hy

/-! ### Values -/

instance : Bears i Value.null := ⟨Sense.scalar rfl⟩
instance {x : Bool} : Bears i (Value.bool x) := ⟨Sense.scalar rfl⟩
instance {x : Text} : Bears i (Value.text x) := ⟨Sense.scalar rfl⟩
instance {x : String} : Bears i (Value.word x) := ⟨Sense.scalar rfl⟩
instance {x : Option Pattern} : Bears i ((x.map Value.pattern).getD .null) :=
  ⟨by cases x <;> exact Sense.scalar rfl⟩
instance {x : Lexeme} : Bears i (Value.ofLexeme x) :=
  ⟨by cases x with
    | numeric v _ => cases v <;> exact Sense.scalar rfl
    | _ => exact Sense.scalar rfl⟩
instance [h : Bears i n] : Bears i (Value.node n) := ⟨h.out⟩
instance [h : Bears i o] : Bears i (Value.node? o) :=
  ⟨by cases o with
    | none => exact Sense.scalar rfl
    | some n => exact h.out n rfl⟩
instance [h : Bears i vs] : Bears i (Value.list vs) := ⟨Sense.list h.out⟩
instance [h : Bears i ns] : Bears i (Value.nodes ns) :=
  ⟨Sense.list (List.forall_mem_map.2 h.out)⟩

instance [Decidable q] {f g : Value → Value → Value → Node} [hf : Bears i (f a b c)]
    [hg : Bears i (g a b c)] : Bears i ((if q then f else g) a b c) := by
  split
  · exact hf
  · exact hg
instance [Decidable q] {f g : Value → Value → Value → Value → Value → Node}
    [hf : Bears i (f a b c d e)] [hg : Bears i (g a b c d e)] : Bears i ((if q then f else g) a b c d e) := by
  split
  · exact hf
  · exact hg

/-! ### Records -/

instance : Bears i (Formals.start name) := ⟨fun _ h => nomatch h⟩
instance [hf : Bears i f] [hp : Bears i param] : Bears i (f.push strict param names) := by
  refine ⟨fun v hv => ?_⟩
  rw [Formals.params_push] at hv
  rcases List.mem_append.1 hv with hv | hv
  · exact hf.out v hv
  · rw [List.mem_singleton.1 hv]
    exact hp.out
instance [h : Bears i f] : Bears i f.params := ⟨h.out⟩

open Grammar

instance [h : Bears i key] : Bears i (PropertyHead.mk t key computed isAsync) :=
  ⟨h.out⟩

instance {key value : Node} {method shorthand isProto : Bool} [hk : Bears i key]
    [hv : Bears i value] : Bears i (PropertyParts.mk kind key computed value method shorthand isProto) :=
  ⟨hk.out, hv.out⟩
instance {x : PropertyParts} [h : Bears i x] : Bears i x.key := ⟨h.out.1⟩
instance {x : PropertyParts} [h : Bears i x] : Bears i x.value := ⟨h.out.2⟩

instance [hk : Bears i key] [hv : Bears i value] : Bears i (Member.mk t key computed isStatic isAsync kind value) :=
  ⟨hk.out, hv.out⟩
instance {x : Member} [h : Bears i x] : Bears i x.key := ⟨h.out.1⟩
instance {x : Member} [h : Bears i x] : Bears i x.value := ⟨h.out.2⟩
instance : Bears i (Member.start t) := ⟨nofun, nofun⟩

instance [h : Bears i init] : Bears i (LoopHead.steps init) := ⟨h.out⟩
instance [hl : Bears i left] [hr : Bears i right] : Bears i (LoopHead.names left right) :=
  ⟨hl.out, hr.out⟩
instance [hl : Bears i left] [hr : Bears i right] : Bears i (LoopHead.values left right) :=
  ⟨hl.out, hr.out⟩

instance [ho : Bears i opening] [hc : Bears i children] [hl : Bears i closing] :
    Bears i (OpenElement.mk start opening children closing) :=
  ⟨ho.out, hc.out, hl.out⟩
instance {x : OpenElement} [h : Bears i x] : Bears i x.opening := ⟨h.out.1⟩
instance {x : OpenElement} [h : Bears i x] : Bears i x.children := ⟨h.out.2.1⟩
instance {x : OpenElement} [h : Bears i x] : Bears i x.closing := ⟨h.out.2.2⟩
instance {x : OpenElement} [Bears i x] [Bears i children] : Bears i (x.add children) :=
  inferInstanceAs (Bears i (OpenElement.mk x.start x.opening (x.children ++ children) x.closing))

end Bears

end EcmaSyntax
