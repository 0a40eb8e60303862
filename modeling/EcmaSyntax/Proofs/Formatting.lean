import EcmaSyntax.Format.Basic

/-!
# Formatting

Formatting breaks and indents lines, and that is all it does: without white space, a program is the same
before and after (`Format.visible_code`). Every step writes what it reads, up to blanks (`Format.writes_step`).
-/

namespace EcmaSyntax

/-- A text without its white space. -/
def Text.visible (t : Text) : Text := t.filter fun c => !CodePoint.isBlank c

namespace Text

variable {t u : Text}

theorem visible_append : visible (t ++ u) = t.visible ++ u.visible := List.filter_append ..

theorem visible_of_isBlank (h : t.isBlank) : visible t.reverse = [] := by
  simpa [visible, Text.isBlank] using h

end Text

namespace Format

variable {f : Setting} {before rest t : Text} {c d : CodePoint} {s : State}

theorem isBlank_indent (style : IndentStyle) (level : Nat) : Text.isBlank (style.indent level).reverse := by
  rw [Text.isBlank, List.all_reverse, List.all_eq_true]
  intro c hc
  cases style with
  | tabs => rw [List.eq_of_mem_replicate hc]; rfl
  | spaces width => rw [List.eq_of_mem_replicate hc]; rfl

namespace State

/-- What has been written that is not white space. -/
def ink (s : State) : Text := Text.visible s.done.reverse ++ Text.visible s.line.reverse

theorem ink_of_put {u : State} (hline : u.line = c :: s.line) (hdone : u.done = s.done) :
    u.ink = s.ink ++ Text.visible [c] := by
  simp only [ink, hline, hdone, List.reverse_cons, Text.visible_append, List.append_assoc]

theorem ink_put : (s.put c).ink = s.ink ++ Text.visible [c] := ink_of_put rfl rfl

theorem ink_flush : s.flush.ink = s.ink := by
  simp only [ink, flush, List.reverse_append, Text.visible_append]
  exact List.append_nil _

theorem ink_newline : s.newline.ink = s.ink := by
  simp only [ink, newline, List.reverse_cons, Text.visible_append]
  exact congrArg (· ++ _) (List.append_nil _)

theorem ink_indent (h : s.line.isBlank) : (s.indent f).ink = s.ink := by
  simp only [ink, indent, Text.visible_of_isBlank (isBlank_indent _ _), Text.visible_of_isBlank h]

theorem ink_breakLine : (s.breakLine f).ink = s.ink := by
  rw [breakLine, ink_indent rfl, ink_newline, ink_flush]

end State

open State

theorem ink_breakOnce : (breakOnce f rest s).ink = s.ink := by
  unfold breakOnce
  split
  · exact ink_breakLine
  · exact ink_flush

theorem ink_closeBrace : (closeBrace f rest s).ink = s.ink ++ Text.visible [0x7d] := by
  -- The line is blank when the brace is put on it, at once or after a break.
  obtain ⟨u, hu, hblank, hink⟩ : ∃ u, (if s.line.isBlank then s else s.flush.newline) = u
      ∧ u.line.isBlank ∧ u.ink = s.ink := by
    split
    · exact ⟨_, rfl, ‹_›, rfl⟩
    · exact ⟨_, rfl, rfl, ink_newline.trans ink_flush⟩
  have hclose : ((({ u with level := u.level - 1 }).indent f).put 0x7d).ink = s.ink ++ Text.visible [0x7d] := by
    rw [ink_put, ink_indent (by exact hblank), ← hink]
    rfl
  simp only [closeBrace, hu]
  cases rest with
  | nil => exact hclose
  | cons d rest =>
    dsimp only
    split
    · exact hclose
    · exact ink_breakLine.trans hclose

theorem ink_plainPut : (plainPut f c s).ink = s.ink ++ Text.visible [c] := by
  unfold plainPut
  split
  · exact ink_of_put rfl rfl
  · next hline =>
    have hline : s.line = [] := by simpa using hline
    split
    · next hc =>
      have hc : c = 0x20 ∨ c = 0x09 := by simpa using hc
      rcases hc with rfl | rfl <;> exact (List.append_nil _).symm
    · rw [ink_put, ink_indent (by rw [hline]; rfl)]

theorem ink_markStep : (markStep f c rest s).ink = s.ink ++ Text.visible [c] := by
  unfold markStep
  split
  · exact ink_breakOnce.trans (ink_of_put rfl rfl)
  split
  · next hc => rw [ink_closeBrace, hc]
  split
  · dsimp only
    split
    · exact ink_breakOnce.trans (ink_of_put rfl rfl)
    · exact ink_of_put rfl rfl
  split
  · next hc =>
    have hline : (if s.line.isBlank then { s with line := [] } else s.flush).ink = s.ink := by
      split
      · next hblank => simp only [ink, Text.visible_of_isBlank hblank]; rfl
      · exact ink_flush
    rw [ink_newline, hline, hc]
    exact (List.append_nil _).symm
  · exact ink_plainPut

/-- A step has written its code point, and the next one if that was read, too. -/
def Writes (s : State) (c : CodePoint) (rest : Text) (p : State × Bool) : Prop :=
  p.1.ink = s.ink ++ Text.visible (c :: if p.2 then rest.take 1 else [])

theorem Writes.one {u : State} (hline : u.line = c :: s.line) (hdone : u.done = s.done) :
    Writes s c rest (u, false) := ink_of_put hline hdone

theorem Writes.two (h : rest.head? = some d) {mode : Mode} :
    Writes s c rest ({ (s.put c).put d with mode }, true) := by
  obtain ⟨rest, rfl⟩ := List.head?_eq_some_iff.1 h
  have hput : ((s.put c).put d).ink = s.ink ++ (Text.visible [c] ++ Text.visible [d]) := by
    rw [ink_put, ink_put, List.append_assoc]
  rwa [← Text.visible_append] at hput

theorem head?_of_comment? (h : comment? (c :: rest) = some block) :
    rest.head? = some (if block then 0x2a else 0x2f) := by
  unfold comment? at h
  split at h <;> simp_all

theorem writes_plainStep : Writes s c rest (plainStep f before c rest s) := by
  unfold plainStep
  split
  · next hblock => exact .two (head?_of_comment? hblock)
  repeat' split
  · exact .one rfl rfl
  · exact .one rfl rfl
  · exact .one rfl rfl
  · refine ink_markStep.trans (congrArg (· ++ _) ?_)
    unfold countParens
    repeat' split
    all_goals rfl

theorem writes_step : Writes s c rest (step f before c rest s) := by
  unfold step
  split
  · unfold templateStep
    split
    · next h => exact .two (by simpa using (Bool.and_eq_true_iff.1 h).2)
    · repeat' split
      all_goals exact .one rfl rfl
  · exact .one rfl rfl
  · unfold quotedStep
    dsimp only
    split <;> exact .one rfl rfl
  · unfold commentStep
    split
    · split
      · next h => exact .two (by simpa using (Bool.and_eq_true_iff.1 h).2)
      · exact .one rfl rfl
    split
    · exact ((ink_indent (s := (s.put c).flush) rfl).trans ink_flush).trans (ink_of_put rfl rfl)
    · exact .one rfl rfl
  · exact writes_plainStep

/-- What is read is written, but for the code point that was read already. -/
theorem ink_read (skip : Bool) :
    (read f skip before t s).ink = s.ink ++ Text.visible (if skip then t.drop 1 else t) := by
  induction t generalizing skip before s with
  | nil => cases skip <;> exact (List.append_nil _).symm
  | cons c t ih =>
    cases skip with
    | true => exact ih false
    | false =>
      have hstep : Writes s c t (step f before c t s) := writes_step
      have hrest (b : Bool) : (c :: if b then t.take 1 else []) ++ (if b then t.drop 1 else t) = c :: t := by
        cases b
        · rfl
        · exact congrArg _ (List.take_append_drop 1 t)
      rw [read, ih, hstep, List.append_assoc, ← Text.visible_append, hrest]
      rfl

/-- Whatever the setting is, all that was read ends up among the lines that are done. -/
theorem visible_done (f : Setting) (t : Text) :
    let s := read f false [] t .start
    Text.visible (if s.line.isBlank then s else s.flush).done.reverse = t.visible := by
  intro s
  have hink : s.ink = t.visible := ink_read false
  split
  · next hblank =>
    rw [ink, Text.visible_of_isBlank hblank] at hink
    exact (List.append_nil _).symm.trans hink
  · rw [← ink_flush] at hink
    exact (List.append_nil _).symm.trans hink

/-- **Formatting changes white space only.** -/
theorem visible_code (t : Text) : (code t).2.visible = t.visible := visible_done _ t

end Format

end EcmaSyntax
