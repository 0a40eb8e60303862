import EcmaSyntax.Proofs.Scanning

/-!
# Entities

What a text denotes between an ampersand and a semicolon is said by `Entity.Denotes`. The scanner has a few flags to tell a
number from a name while it reads; `Scan.EntityText.Holds` says what they stand for. So an entity is decoded as a whole or
left as it is written (`Scan.entity_decoded`). A number that is no character is a fault.
-/

namespace EcmaSyntax

open CodePoint Meets

namespace Entity

variable {u : Text} {c : CodePoint}

/-- What a text denotes between an ampersand and a semicolon. -/
inductive Denotes : Text → CodePoint → Prop where
  | decimal {ds : Text} : (∀ d ∈ ds, isDecimalDigit d) → ds ≠ [] → Denotes (0x23 :: ds) (Numeral.ofDigits 10 ds)
  | hexadecimal {ds : Text} : (∀ d ∈ ds, isHexDigit d) → ds ≠ [] →
    Denotes (0x23 :: 0x78 :: ds) (Numeral.ofDigits 16 ds)
  | named {name : String} {c : CodePoint} : (name, c) ∈ names → Denotes name c

/-- A text behind an ampersand is decoded, or kept if it is no entity. -/
def Decodes (text value : Text) : Prop :=
  (∃ name c, text = name ++ [0x3b] ∧ Denotes name c ∧ value = [c])
    ∨ value = 0x26 :: text ∧ ∀ name c, text = name ++ [0x3b] → ¬ Denotes name c

/-- What a text denotes is found out. Only numbers may be faults. -/
def Resolves (u : Text) : Except Fault (Option CodePoint) → Prop
  | .ok d => ∀ c, Denotes u c ↔ d = some c
  | .error f => u.head? = some 0x23 ∧ (f = .invalidValue ∨ f = .overflow)

theorem names_distinct : ∀ p ∈ names, (Text.ofString p.1).head? ≠ some 0x23 ∧ named? p.1 = some p.2 := by
  decide +kernel

/-- What starts with a number sign is no name. -/
theorem Denotes.number (h : Denotes (0x23 :: u) c) :
    ((∀ d ∈ u, isDecimalDigit d) ∧ u ≠ [] ∧ c = Numeral.ofDigits 10 u)
      ∨ ∃ ds, u = 0x78 :: ds ∧ ds ≠ [] ∧ c = Numeral.ofDigits 16 ds := by
  generalize ht : 0x23 :: u = t at h
  cases h with
  | decimal hds hne =>
    cases ht
    exact .inl ⟨hds, hne, rfl⟩
  | hexadecimal _ hne =>
    cases ht
    exact .inr ⟨_, rfl, hne, rfl⟩
  | named hmem => exact absurd (congrArg List.head? ht.symm) (names_distinct _ hmem).1

theorem resolves_named? (hu : u.head? ≠ some 0x23) : Resolves u (.ok (named? u)) := by
  refine fun c => ⟨fun hc => ?_, fun hc => ?_⟩
  · cases hc with
    | decimal => exact absurd rfl hu
    | hexadecimal => exact absurd rfl hu
    | named hmem => exact (names_distinct _ hmem).2
  · obtain ⟨p, hp, rfl⟩ := Option.map_eq_some_iff.1 hc
    have hname := List.find?_some hp
    exact eq_of_beq hname ▸ .named (List.mem_of_find?_eq_some hp)

theorem resolves_characterOf {n : Nat} (h : ∀ c, Denotes (0x23 :: u) c ↔ c = n) :
    Resolves (0x23 :: u) (some <$> Scan.characterOf n) := by
  unfold Scan.characterOf
  split
  · exact fun c => (h c).trans (by simp [eq_comm])
  · split
    · exact ⟨rfl, .inl rfl⟩
    · exact ⟨rfl, .inr rfl⟩

end Entity

namespace Scan

variable {e e' : EntityText} {u : Text} {c quote : CodePoint} {r : Setting} {s : ScanState} {E : Failure → Prop}

/-- A number that is no character may be a fault. -/
structure EntityFaults (E : Failure → Prop) : Prop where
  invalidValue : E (.fault .invalidValue)
  overflow : E (.fault .overflow)

/-- What has been read of an entity behind its ampersand. -/
inductive EntityText.Holds : EntityText → Text → Prop where
  | name {u : Text} : u.head? ≠ some 0x23 → Holds ⟨0x26 :: u, false, false⟩ u
  | decimal {ds : Text} : (∀ d ∈ ds, isDecimalDigit d) → Holds ⟨0x26 :: 0x23 :: ds, true, false⟩ (0x23 :: ds)
  | hexadecimal {ds : Text} : (∀ d ∈ ds, isHexDigit d) →
    Holds ⟨0x26 :: 0x23 :: 0x78 :: ds, false, true⟩ (0x23 :: 0x78 :: ds)

namespace EntityText.Holds

theorem text (h : e.Holds u) : e.text = 0x26 :: u := by cases h <;> rfl

theorem push (h : e.Holds u) (he : e.push? c = some e') : e'.Holds (u ++ [c]) := by
  cases h with
  | name hu =>
    cases u with
    | nil =>
      cases he
      by_cases hc : c = 0x23
      · simpa [hc] using @decimal [] (by simp)
      · simpa [hc] using name (u := [c]) (by simpa using hc)
    | cons d u =>
      have he' : e' = ⟨0x26 :: d :: u ++ [c], false, false⟩ := by
        cases u <;> simp [EntityText.push?] at he <;> exact he.symm
      exact he' ▸ name hu
  | @decimal ds hds =>
    have hall (hd : isDecimalDigit c) : ∀ x ∈ ds ++ [c], isDecimalDigit x :=
      List.forall_mem_append.2 ⟨hds, List.forall_mem_singleton.2 hd⟩
    cases ds with
    | nil =>
      simp [EntityText.push?] at he
      split at he
      · next hc => exact Option.some.inj he ▸ hc ▸ @hexadecimal [] (by simp)
      · split at he
        · next hc => exact Option.some.inj he ▸ decimal (hall hc)
        · cases he
    | cons d ds =>
      simp [EntityText.push?] at he
      obtain ⟨hc, rfl⟩ := he
      exact decimal (hall hc)
  | @hexadecimal ds hds =>
    simp [EntityText.push?] at he
    obtain ⟨hc, rfl⟩ := he
    exact hexadecimal (List.forall_mem_append.2 ⟨hds, List.forall_mem_singleton.2 hc⟩)

/-- A terminated entity is decoded if it denotes something. -/
theorem resolves (h : e.Holds u) : Entity.Resolves u (character? { e with text := e.text ++ [0x3b] }) := by
  have hname : ((e.text ++ [0x3b]).drop 1).dropLast = u := by simp [h.text]
  simp only [character?, hname]
  cases h with
  | name hu => exact Entity.resolves_named? hu
  | @decimal ds hds =>
    have hc (c : CodePoint) : Entity.Denotes (0x23 :: ds) c ↔ ds ≠ [] ∧ c = Numeral.ofDigits 10 ds := by
      refine ⟨fun hc => ?_, fun hc => hc.2 ▸ .decimal hds hc.1⟩
      rcases hc.number with hc | ⟨ds, rfl, -⟩
      · exact hc.2
      · exact absurd (hds 0x78 List.mem_cons_self) (by decide)
    cases ds with
    | nil => exact fun c => by simp [hc]
    | cons x ds =>
      simp
      split
      · exact ⟨rfl, .inl rfl⟩
      · exact Entity.resolves_characterOf fun c => (hc c).trans (by simp)
  | @hexadecimal ds hds =>
    have hc (c : CodePoint) : Entity.Denotes (0x23 :: 0x78 :: ds) c ↔ ds ≠ [] ∧ c = Numeral.ofDigits 16 ds := by
      refine ⟨fun hc => ?_, fun hc => hc.2 ▸ .hexadecimal hds hc.1⟩
      rcases hc.number with hc | ⟨ds, heq, hc⟩
      · exact absurd (hc.1 0x78 List.mem_cons_self) (by decide)
      · cases heq
        exact hc
    cases ds with
    | nil => exact fun c => by simp [hc]
    | cons x ds =>
      exact Entity.resolves_characterOf fun c => (hc c).trans (by simp)

end EntityText.Holds

theorem meets_closeEntity (hE : u.head? = some 0x23 → EntityFaults E) (h : e.Holds u) :
    Meets E (closeEntity { e with text := e.text ++ [0x3b] }) r s fun value t =>
      t = s ∧ Entity.Decodes (u ++ [0x3b]) value := by
  have hresolves := h.resolves
  unfold closeEntity
  split
  · next c hc =>
    rw [hc] at hresolves
    exact step_iff.2 ⟨rfl, .inl ⟨u, c, rfl, (hresolves c).2 rfl, rfl⟩⟩
  · next hnone =>
    rw [hnone] at hresolves
    refine step_iff.2 ⟨rfl, .inr ⟨by rw [h.text]; rfl, fun name c hname hc => ?_⟩⟩
    rw [← List.append_cancel_right hname] at hc
    cases (hresolves c).1 hc
  · next f hf =>
    rw [hf] at hresolves
    obtain ⟨hnumber, rfl | rfl⟩ := hresolves
    · exact (hE hnumber).invalidValue
    · exact (hE hnumber).overflow

/-- What is read goes neither beyond the source nor up to the quote. -/
theorem meets_entity (hE : r.source.char s.cursor.index = 0x23 → EntityFaults E) (hs : s.cursor.index ≤ r.source.size) :
    Meets E (entity quote) r s fun value t => Cursor.Drifts r.source s.cursor t.cursor
      ∧ ∃ text, r.source.Spans s.cursor.index text t.cursor.index ∧ quote ∉ text ∧ Entity.Decodes text value := by
  refine meets_loop (I := fun e t => Cursor.Drifts r.source s.cursor t.cursor ∧ ∃ u, e.Holds u
      ∧ r.source.Spans s.cursor.index u t.cursor.index ∧ quote ∉ u ∧ 0x3b ∉ u)
    ⟨.refl _ _, [], .name (by simp), ⟨Nat.le_refl _, hs, by simp [Source.slice]⟩, by simp, by simp⟩
    (fun _ _ h => Nat.le_succ_of_le (h.1.bound hs)) fun e t he => ?_
  obtain ⟨ht, u, hu, hspans, hquote, hopen⟩ := he
  -- What has no semicolon is no entity.
  have hkept {v : Text} (hv : 0x3b ∉ v) : Entity.Decodes v (0x26 :: v) :=
    .inr ⟨rfl, fun name c hname => absurd (by simp [hname]) hv⟩
  have hleft : ∃ text, r.source.Spans s.cursor.index text t.cursor.index ∧ quote ∉ text
      ∧ Entity.Decodes text e.text := ⟨u, hspans, hquote, hu.text ▸ hkept hopen⟩
  simp [entityRound, ht.bound hs, Round.Holds]
  refine ⟨fun _ => ⟨ht, hleft⟩, fun hlt => ⟨fun _ => ⟨ht, hleft⟩, fun hc => ?_⟩⟩
  have hstep := ht.trans (.step hlt)
  have hnext := hspans.append (.one hlt)
  generalize r.source.char t.cursor.index = d at hc hnext ⊢
  have hquote : quote ∉ u ++ [d] := by simpa [hquote] using Ne.symm hc
  refine ⟨?_, fun hne => ?_⟩
  · rintro rfl
    refine (meets_closeEntity (fun hsign => hE ?_) hu).mono fun value v hv => ?_
    · obtain ⟨rest, rfl⟩ := List.head?_eq_some_iff.1 hsign
      exact (Source.after_cons hspans.after).2.1
    · obtain ⟨rfl, hvalue⟩ := hv
      exact ⟨hstep, _, hnext, hquote, hvalue⟩
  · have hopen : 0x3b ∉ u ++ [d] := by simpa [hopen] using Ne.symm hne
    split
    · next e' he' => exact ⟨⟨hstep, _, hu.push he', hnext, hquote, hopen⟩, Nat.lt_succ_self _⟩
    · exact ⟨hstep, _, hnext, hquote, hu.text ▸ hkept hopen⟩

/-- **An entity is decoded as a whole or not at all.** What is read goes neither beyond the source nor up to the quote. If
it is a number or a name with its semicolon, the result is the character that this denotes; otherwise, it is what was
read, with the ampersand before it. -/
theorem entity_decoded (r : Setting) (s : ScanState) (hs : s.cursor.index ≤ r.source.size) (quote : CodePoint) (value : Text)
    (t : ScanState) (h : entity quote r s = .ok value t) :
    ∃ text, r.source.Spans s.cursor.index text t.cursor.index ∧ quote ∉ text ∧ Entity.Decodes text value :=
  ((meets_entity (E := fun _ => True) (fun _ => ⟨trivial, trivial⟩) hs).ensures value t h).2

/-- A number, up to its semicolon. -/
theorem entity_decoded_number :
    let r : Setting := ⟨.ofText "&#x41;;\"", 2024, false⟩
    let s : ScanState := { ScanState.start r.source with cursor := ⟨1, 1, 0⟩ }
    ∃ t text, entity 0x22 r s = .ok "A" t ∧ r.source.Spans 1 text t.cursor.index ∧ Entity.Decodes text "A" := by
  intro r s
  have hyields : Yields (entity 0x22) r s fun value _ => value = "A" := by decide +kernel
  obtain ⟨value, t, h, hvalue⟩ := exists_of_yields hyields
  obtain rfl := of_decide_eq_true hvalue
  obtain ⟨text, hspans, -, hdecodes⟩ := entity_decoded r s (by decide) 0x22 _ t h
  exact ⟨t, text, h, hspans, hdecodes⟩

end Scan

end EcmaSyntax
