import EcmaSyntax.Message

/-!
# What fills the gaps of a message

The digit of a gap reads like the number of what fills it, but gaps are filled one after the other, by their places in
the message (`Message.fillMessage_drop`). The two come to the same where the gaps are numbered from zero on, in
the order in which they stand (`Message.fillMessage_in_order`).
-/

namespace EcmaSyntax

/-- The value of a decimal digit. Those of a script stand in a row, from zero to nine. -/
def CodePoint.decimalValue (c : CodePoint) : Nat :=
  match CodeRuns.decimals.find? fun run => run.1 ≤ c && c ≤ run.2 with
  | some run => (c - run.1) % 10
  | none => 0

namespace Message

/-- The digits of the gaps of a message, in the order in which they stand. -/
def gaps : Text → List CodePoint
  | c :: d :: rest => if c = 0x25 && CodePoint.isAnyDecimal d then d :: gaps rest else gaps (d :: rest)
  | _ => []

/-- A message with its gaps filled, according to their places, from `k` on, and their digits. -/
def fill (value : Nat → CodePoint → Text) (k : Nat) : Text → Text
  | c :: d :: rest =>
    if c = 0x25 && CodePoint.isAnyDecimal d then value k d ++ fill value (k + 1) rest
    else c :: fill value k (d :: rest)
  | t => t

/-- What the digits of a message ask for. -/
def fillByDigit (t : Text) (args : List Text) : Except Fault Text :=
  if ∃ d ∈ gaps t, args.length ≤ CodePoint.decimalValue d then throw .unmetCondition
  else return fill (fun _ d => args.getD (CodePoint.decimalValue d) []) 0 t

variable {t : Text} {args : List Text}

/-- Gaps are filled from what is left of the arguments. -/
theorem fillMessage_drop (t : Text) (hk : k ≤ args.length) :
    fillMessage t (args.drop k) = if args.length < k + (gaps t).length then .error .unmetCondition
      else .ok (fill (fun j _ => args.getD j []) k t) := by
  fun_induction gaps t generalizing k with
  | case1 c d rest h ih =>
    rw [fill, if_pos h, List.length_cons]
    rcases Nat.lt_or_eq_of_le hk with hlt | rfl
    · have hget : args.getD k [] = args[k] := by simp [List.getD_eq_getElem?_getD, hlt]
      rw [List.drop_eq_getElem_cons hlt, fillMessage, if_pos h, ih hlt, hget, Nat.succ_add_eq_add_succ]
      split <;> rfl
    · rw [List.drop_length, fillMessage, if_pos h, if_pos (by omega)]
      rfl
  | case2 c d rest h ih =>
    have hstep : fillMessage (c :: d :: rest) (args.drop k) = (c :: ·) <$> fillMessage (d :: rest) (args.drop k) := by
      cases args.drop k <;> rw [fillMessage, if_neg h] <;> rfl
    rw [hstep, fill, if_neg h, ih hk]
    split <;> rfl
  | case3 t h =>
    rw [List.length_nil, Nat.add_zero, if_neg (Nat.not_lt.2 hk)]
    rcases t with - | ⟨c, - | ⟨d, rest⟩⟩
    · rfl
    · rfl
    · exact (h c d rest rfl).elim

/-- Where the digit of each gap is its place, it does not matter which of the two is asked. -/
theorem fill_by_place (value : Nat → Text) (k : Nat)
    (h : (gaps t).map CodePoint.decimalValue = List.range' k (gaps t).length) :
    fill (fun j _ => value j) k t = fill (fun _ d => value (CodePoint.decimalValue d)) k t := by
  fun_induction gaps t generalizing k with
  | case1 c d rest hgap ih =>
    rw [List.map_cons, List.length_cons, List.range'_succ, List.cons.injEq] at h
    rw [fill, fill, if_pos hgap, if_pos hgap, h.1, ih (k + 1) h.2]
  | case2 c d rest hgap ih => rw [fill, fill, if_neg hgap, if_neg hgap, ih k h]
  | case3 t hgap =>
    rcases t with - | ⟨c, - | ⟨d, rest⟩⟩
    · rfl
    · rfl
    · exact (hgap c d rest rfl).elim

/-- **Gaps are filled in order.** The gap at place `k` is filled by the argument at place `k`, whatever its
digit is, and all else stays as it is; there is a failure just if there are more gaps than arguments. So this is what
the digits ask for wherever they count the gaps from zero on. -/
theorem fillMessage_in_order (t : Text) (args : List Text) :
    ((gaps t).length ≤ args.length → fillMessage t args = .ok (fill (fun k _ => args.getD k []) 0 t))
    ∧ (args.length < (gaps t).length → fillMessage t args = .error .unmetCondition)
    ∧ ((gaps t).map CodePoint.decimalValue = List.range (gaps t).length → fillMessage t args = fillByDigit t args) := by
  have hdrop := fillMessage_drop t (Nat.zero_le args.length)
  rw [List.drop_zero, Nat.zero_add] at hdrop
  have hfew (h : args.length < (gaps t).length) : fillMessage t args = .error .unmetCondition :=
    hdrop.trans (if_pos h)
  have henough (h : (gaps t).length ≤ args.length) :
      fillMessage t args = .ok (fill (fun k _ => args.getD k []) 0 t) := hdrop.trans (if_neg (Nat.not_lt.2 h))
  refine ⟨henough, hfew, fun hdigits => ?_⟩
  -- The digits are the numbers below that of the gaps, so one of them is too great just if that is.
  have hgreat : (∃ d ∈ gaps t, args.length ≤ CodePoint.decimalValue d) ↔ args.length < (gaps t).length := by
    have hmem (k : Nat) : (∃ d ∈ gaps t, CodePoint.decimalValue d = k) ↔ k < (gaps t).length := by
      rw [← List.mem_map, hdigits, List.mem_range]
    constructor
    · rintro ⟨d, hd, hle⟩
      exact Nat.lt_of_le_of_lt hle ((hmem _).1 ⟨d, hd, rfl⟩)
    · intro hlt
      obtain ⟨d, hd, hvalue⟩ := (hmem _).2 hlt
      exact ⟨d, hd, Nat.le_of_eq hvalue.symm⟩
  rw [fillByDigit]
  split
  · next h => exact hfew (hgreat.1 h)
  · next h =>
    rw [henough (Nat.le_of_not_lt fun hlt => h (hgreat.2 hlt)), fill_by_place _ 0 (hdigits.trans List.range_eq_range')]
    rfl

/-- A message that numbers its gaps, one of them with a digit of another script. -/
theorem fillMessage_in_order_numbered :
    let t : Text := [0x25, 0x30, 0x3d, 0x25, 0x661]
    (gaps t).map CodePoint.decimalValue = List.range 2 ∧ fillMessage t ["a", "%0"] = fillByDigit t ["a", "%0"]
      ∧ fillMessage t ["a", "%0"] = .ok "a=%0" := by
  intro t
  have hdigits : (gaps t).map CodePoint.decimalValue = List.range 2 := by decide +kernel
  refine ⟨hdigits, (fillMessage_in_order t _).2.2 hdigits, ?_⟩
  rw [(fillMessage_in_order t _).1 (by decide +kernel)]
  rfl

/-- Gaps that are not numbered in order are not filled as their digits ask for. -/
theorem fillMessage_ne_fillByDigit :
    fillMessage "%1 %0" ["a", "b"] = .ok "a b" ∧ fillByDigit "%1 %0" ["a", "b"] = .ok "b a" :=
  ⟨rfl, rfl⟩

end Message

end EcmaSyntax
