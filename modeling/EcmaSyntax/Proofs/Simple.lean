import EcmaSyntax.Proofs.Run
import EcmaSyntax.Proofs.Unfolds

/-!
# Simple scans

Most scans look at the source, move the cursor, and refuse the source or record an error if they must.
`Simple` says that a scan is put together from such steps, which is found by unfolding it. What these steps
do and what is kept by a sequence of scans is then known of all simple scans, by induction. The only scans
that are not simple are those for tokens that open or close a brace.

A scan never asks if errors are tolerated, apart from the step that records one.
-/

namespace EcmaSyntax.Scan

/-- A scan is put together from steps that leave braces alone. -/
class inductive Simple : {α : Type} → Scan α → Prop
  | pure {α : Type} (a : α) : Simple (Pure.pure a : Scan α)
  | throw {α : Type} (e : Failure) : Simple (MonadExcept.throw e : Scan α)
  | get : Simple (MonadState.get : Scan ScanState)
  | move (g : Cursor → Cursor) : Simple (modify fun s => { s with cursor := g s.cursor } : Scan Unit)
  | tolerate (cause : Cause) : Simple (Scan.tolerate cause)
  | bind {α β : Type} {m : Scan α} {f : α → Scan β} : Simple m → (∀ a, Simple (f a)) → Simple (m >>= f)
  | read {α : Type} {f : Setting → Scan α} : (∀ (r : Setting) (tolerant : Bool), f { r with tolerant } = f r) →
    (∀ r, Simple (f r)) → Simple (MonadReader.read >>= f)

set_option synthInstance.maxSize 100000000000000

namespace Simple

variable {α β : Type} {m : Scan α} {f : α → Scan β}

instance (a : α) : Simple (Pure.pure a : Scan α) := pure a
instance (e : Failure) : Simple (MonadExcept.throw e : Scan α) := throw e
instance : Simple (MonadState.get : Scan ScanState) := get
instance [hm : Simple m] [hf : ∀ a, Simple (f a)] : Simple (m >>= f) := bind hm hf

instance (priority := 50) [u : Expands m n] [h : Simple n] : Simple m := u.eq ▸ h

instance [Decidable p] [h : Simple m] [h' : Simple m'] : Simple (if p then m else m') := by
  split
  · exact h
  · exact h'

instance rounds {body : τ → Scan (Round τ β)} [h : ∀ x, Simple (body x)] :
    ∀ (bound : Nat) (x : τ), Simple (EcmaSyntax.rounds body bound x)
  | 0, _ => throw _
  | bound + 1, x => bind (h x) fun y => by
    cases y with
    | again y => exact rounds bound y
    | done b => infer_instance

instance forIn {body : γ → β → Scan (ForInStep β)} [h : ∀ x b, Simple (body x b)] :
    ∀ l : List γ, Simple (ForIn.forIn l b body)
  | [] => by
    rw [List.forIn_nil]
    infer_instance
  | x :: l => by
    rw [List.forIn_cons]
    refine bind (h x b) fun y => ?_
    cases y with
    | done b => infer_instance
    | yield b => exact forIn l

end Simple

/-! ### Steps -/

instance : Simple cursor := by unfold cursor; infer_instance
instance : Simple (setCursor c) := .move fun _ => c
instance : Simple index := by unfold index; infer_instance
instance : Simple (setIndex i) := .move fun c => { c with index := i }
instance : Simple (advance n) := .move (·.advance n)
instance : Simple (peek k) := .read (fun _ _ => rfl) fun _ => inferInstance
instance : Simple atEnd := .read (fun _ _ => rfl) fun _ => inferInstance
instance : Simple (looksAt w) := .read (fun _ _ => rfl) fun _ => inferInstance
instance : Simple (since year) := .read (fun _ _ => rfl) fun _ => inferInstance
instance : Simple (sliceFrom start) :=
  .read (fun _ _ => rfl) fun _ => inferInstance
instance : Simple (skipWhile test) :=
  .read (fun _ _ => rfl) fun _ => inferInstance
instance : Simple (endLine c) :=
  .bind inferInstance fun _ => .move (·.nextLine _)
instance : Simple (errorHere cause) := by unfold errorHere; infer_instance
instance : Simple (refuse cause : Scan α) := by
  unfold refuse; infer_instance

-- What would follow a refusal does not matter.
instance (priority := high) : Simple (refuse cause >>= f) := by
  unfold refuse
  rw [bind_assoc]
  exact .bind inferInstance fun e => inferInstanceAs (Simple (throw (Failure.refused e)))

instance : Simple (tolerate cause) := .tolerate cause
instance : Simple (token start l) := by unfold token; infer_instance
instance [∀ x, Simple (body x)] : Simple (loop body x) :=
  .read (fun _ _ => rfl) fun _ => inferInstance

/-! #### Names and numbers -/

instance : Simple (hexEscape count) :=
  .read (fun _ _ => rfl) fun _ => inferInstance
instance : Simple (nameEscape test) := by
  have hhex : Simple (do match ← hexEscape 4 with
      | some c => if c = 0x5c || !test c then refuse .illegalToken else return c
      | none => refuse .illegalToken) :=
    .bind inferInstance fun d => by cases d <;> infer_instance
  unfold nameEscape
  infer_instance
instance : Simple plainName := .read (fun _ _ => rfl) fun _ => inferInstance

section

variable {start : Nat} {legacy : Bool} {whole : Text}

instance : Simple isLegacyOctal := .read (fun _ _ => rfl) fun _ => inferInstance

end

/-! #### Literals -/

instance : Simple (stringEscape q c) := by
  unfold stringEscape
  repeat' first
    | infer_instance
    | refine Simple.bind inferInstance fun _ => ?_
    | split

instance : Simple (templateEscape c) := by
  unfold templateEscape
  repeat' first
    | infer_instance
    | refine Simple.bind inferInstance fun _ => ?_
    | split

instance : Simple regexBody := by
  have hslice (first : Nat) : Simple (do
      return (← read).source.slice first ((← index) - 1) : Scan Text) :=
    .read (fun _ _ => rfl) fun _ => inferInstance
  unfold regexBody
  infer_instance

instance : Simple (checkRegex body flags) := by
  refine .bind inferInstance fun _ => ?_
  split <;> infer_instance

/-! #### Tokens -/

instance : Simple (lineComment width) :=
  .read (fun _ _ => rfl) fun _ => inferInstance

instance : Simple blockComment :=
  .bind inferInstance fun _ => .read (fun _ _ => rfl) fun _ => inferInstance

instance : Simple (triviaRound x) := by
  unfold triviaRound; infer_instance

instance : Simple trivia := by unfold trivia; infer_instance

instance : Simple (closeEntity e) := by
  unfold closeEntity
  split <;> infer_instance

instance : Simple (entityRound quote e) := by
  have hpush (c : CodePoint) : Simple (match e.push? c with
      | some e => return .again e
      | none => return .done (e.text ++ [c]) : Scan (Round EntityText Text)) := by
    split <;> infer_instance
  unfold entityRound
  infer_instance

instance : Simple (markupStringRound quote value) := by
  unfold markupStringRound; infer_instance
instance : Simple (markupTextRound text) := by
  unfold markupTextRound; infer_instance

end EcmaSyntax.Scan
