import EcmaSyntax.Format.Indentation

/-!
# Detected indentation

A width that is detected is not zero and divides every indentation by blanks (`IndentStyle.detect_divides`), so that levels
can be counted in it.
-/

namespace EcmaSyntax.IndentStyle

theorem foldl_gcd_dvd (widths : List Nat) (a : Nat) :
    widths.foldl Nat.gcd a ∣ a ∧ ∀ n ∈ widths, widths.foldl Nat.gcd a ∣ n := by
  induction widths generalizing a with
  | nil => simp
  | cons n ns ih =>
    obtain ⟨hgcd, hns⟩ := ih (a.gcd n)
    exact ⟨Nat.dvd_trans hgcd (Nat.gcd_dvd_left a n),
      List.forall_mem_cons.2 ⟨Nat.dvd_trans hgcd (Nat.gcd_dvd_right a n), hns⟩⟩

theorem mem_spaceIndents {lines : List Text} {n : Nat} : n ∈ spaceIndents lines ↔
    (∃ line ∈ lines, (line.isBlank = false ∧ line.leadingTabs = 0) ∧ line.leadingSpaces = n) ∧ 0 < n := by
  simp [spaceIndents, and_assoc]

theorem detect_eq_spaces {t : Text} {width : Nat} (h : detect t = .spaces width) :
    spaceIndents t.lines ≠ [] ∧ width = (spaceIndents t.lines).foldl Nat.gcd 0 := by
  unfold detect at h
  dsimp only at h
  split at h
  · cases h
  · next hwidths =>
    cases h
    simp at hwidths
    exact ⟨hwidths.2, rfl⟩

/-- **A width that is detected can be used.** It is not zero, and it divides the indentation of each line that is indented by
blanks alone. The level of any line is how often the width goes into its indentation. -/
theorem detect_divides (t : Text) (width : Nat) (h : detect t = .spaces width) :
    1 ≤ width
    ∧ (∀ line ∈ t.lines, line.isBlank = false → line.margin ≠ [] → 0x09 ∉ line.margin → width ∣ line.leadingSpaces)
    ∧ ∀ line : Text, line.isBlank = false →
      let room := line.leadingSpaces + line.leadingTabs * 4
      let level := ((detect t).normalize line).2
      level * width ≤ room ∧ room < (level + 1) * width := by
  obtain ⟨hne, hwidth⟩ := detect_eq_spaces h
  have hdvd := hwidth ▸ (foldl_gcd_dvd (spaceIndents t.lines) 0).2
  have hpos : 0 < width := by
    obtain ⟨n, hn⟩ := List.exists_mem_of_ne_nil _ hne
    exact Nat.pos_of_dvd_of_pos (hdvd n hn) (mem_spaceIndents.1 hn).2
  refine ⟨hpos, fun line hline hblank hmargin htab => hdvd _ (mem_spaceIndents.2 ⟨⟨line, hline, ⟨hblank, ?_⟩, rfl⟩, ?_⟩),
    fun line hblank => ?_⟩
  · exact List.count_eq_zero.2 htab
  · -- A margin is made of blanks and tabs.
    obtain ⟨c, hc⟩ := List.exists_mem_of_ne_nil _ hmargin
    have hspace := List.all_eq_true.1 (List.all_takeWhile (l := line)) c hc
    simp only [Bool.or_eq_true, decide_eq_true_eq] at hspace
    obtain rfl | rfl := hspace
    · exact List.count_pos_iff.2 hc
    · exact absurd hc htab
  · simp only [h, normalize, hblank, Bool.false_eq_true, if_false]
    exact ⟨Nat.div_mul_le_self _ _, (Nat.div_lt_iff_lt_mul hpos).1 (Nat.lt_succ_self _)⟩

/-- Indentations by four and six blanks are counted in pairs. -/
theorem detect_divides_of_pairs :
    let t : Text := "a\n    b\n      c\n\td"
    detect t = .spaces 2 ∧ 2 ∣ Text.leadingSpaces "      c" ∧ ((detect t).normalize "     e").2 = 2 := by
  intro t
  have h : detect t = .spaces 2 := by decide +kernel
  obtain ⟨-, hdvd, hlevel⟩ := detect_divides t 2 h
  refine ⟨h, hdvd "      c" (by decide +kernel) (by decide) (by decide) (by decide), ?_⟩
  obtain ⟨hle, hlt⟩ := hlevel "     e" (by decide)
  have hroom : Text.leadingSpaces "     e" + Text.leadingTabs "     e" * 4 = 5 := by decide
  omega

end EcmaSyntax.IndentStyle
