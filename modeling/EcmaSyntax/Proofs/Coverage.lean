import EcmaSyntax.Proofs.Braces
import EcmaSyntax.Token.Stream

/-!
# Losing nothing

Ranges cover a part of a source if they follow one another and leave out nothing but white space and
line terminators (`Source.Covered`). Reading goes from one covered part to the next one
(`Covered.append`), and what is covered can be told apart again: the ranges are in order
(`Covered.pairwise`), and every code point that is no spacing is in one of them (`Covered.covers`).

White space and comments are the first case: `Scan.ensures_trivia_passed` says that the ranges of the
comments cover what was passed over, and that the text of a comment is all that stands between its
delimiters. Where errors are tolerated, the last delimiter may be missing (`Comment.Unclosed`).
-/

namespace EcmaSyntax

open Ensures (bind_iff step_iff throw_iff ite_iff)

variable {s : Source} {c : Cursor}

/-- White space and line terminators. -/
def CodePoint.isSpacing (c : CodePoint) : Bool := isWhiteSpace c || isLineTerminator c

namespace Source

variable {i j k : Nat}

/-! ### Ranges -/

/-- Only white space and line terminators from one offset up to another. -/
def Spaced (s : Source) (i j : Nat) : Prop := ∀ k, i ≤ k → k < j → CodePoint.isSpacing (s.char k)

theorem Spaced.refl (s : Source) (i : Nat) : s.Spaced i i := fun _ hk hlt => by omega

theorem Spaced.trans (h : s.Spaced i j) (h' : s.Spaced j k) : s.Spaced i k := by
  intro l hil hlk
  rcases Nat.lt_or_ge l j with hlj | hjl
  · exact h l hil hlj
  · exact h' l hjl hlk

theorem Spaced.single (h : CodePoint.isSpacing (s.char i)) : s.Spaced i (i + 1) :=
  fun k hk hlt => by rwa [show k = i by omega]

/-- Ranges that follow one another from one offset to another. None of them is empty, and what they
leave out is spacing. -/
def Covered (s : Source) : Nat → Nat → List (Nat × Nat) → Prop
  | i, j, [] => i ≤ j ∧ s.Spaced i j
  | i, j, p :: ps => i ≤ p.1 ∧ s.Spaced i p.1 ∧ p.1 < p.2 ∧ s.Covered p.2 j ps

namespace Covered

variable {ps qs : List (Nat × Nat)} {p : Nat × Nat}

theorem refl (s : Source) (i : Nat) : s.Covered i i [] := ⟨Nat.le_refl i, .refl s i⟩

theorem single (h : i < j) : s.Covered i j [(i, j)] := ⟨Nat.le_refl i, .refl s i, h, .refl s j⟩

theorem spaced (hij : i ≤ j) (h : s.Spaced i j) : s.Covered i j [] := ⟨hij, h⟩

theorem le (h : s.Covered i j ps) : i ≤ j := by
  induction ps generalizing i with
  | nil => exact h.1
  | cons p ps ih =>
    obtain ⟨hi, -, hp, hps⟩ := h
    have := ih hps
    omega

/-- Spaceds before the first range are left out like that after it. -/
theorem spaced_append (hij : i ≤ j) (h : s.Spaced i j) (hps : s.Covered j k ps) : s.Covered i k ps := by
  cases ps with
  | nil => exact ⟨Nat.le_trans hij hps.1, h.trans hps.2⟩
  | cons p ps =>
    obtain ⟨hj, hgap, hp, hps⟩ := hps
    exact ⟨Nat.le_trans hij hj, h.trans hgap, hp, hps⟩

theorem append (h : s.Covered i j ps) (h' : s.Covered j k qs) : s.Covered i k (ps ++ qs) := by
  induction ps generalizing i with
  | nil => exact spaced_append h.1 h.2 h'
  | cons p ps ih =>
    obtain ⟨hi, hgap, hp, hps⟩ := h
    exact ⟨hi, hgap, hp, ih hps⟩

theorem mem (h : s.Covered i j ps) (hp : p ∈ ps) : i ≤ p.1 ∧ p.1 < p.2 ∧ p.2 ≤ j := by
  induction ps generalizing i with
  | nil => cases hp
  | cons q qs ih =>
    obtain ⟨hi, -, hq, hqs⟩ := h
    cases hp with
    | head => exact ⟨hi, hq, hqs.le⟩
    | tail _ hp =>
      have := ih hqs hp
      omega

/-- The ranges are in order, and no two of them have a code point in common. -/
theorem pairwise (h : s.Covered i j ps) : ps.Pairwise fun p q => p.2 ≤ q.1 := by
  induction ps generalizing i with
  | nil => exact .nil
  | cons p ps ih =>
    obtain ⟨-, -, -, hps⟩ := h
    exact .cons (fun q hq => (hps.mem hq).1) (ih hps)

/-- What is in no range is spacing. -/
theorem covers (h : s.Covered i j ps) (hik : i ≤ k) (hkj : k < j) :
    CodePoint.isSpacing (s.char k) ∨ ∃ p ∈ ps, p.1 ≤ k ∧ k < p.2 := by
  induction ps generalizing i with
  | nil => exact .inl (h.2 k hik hkj)
  | cons p ps ih =>
    obtain ⟨-, hgap, -, hps⟩ := h
    rcases Nat.lt_or_ge k p.1 with hbefore | hfrom
    · exact .inl (hgap k hik hbefore)
    · rcases Nat.lt_or_ge k p.2 with hin | hafter
      · exact .inr ⟨p, List.mem_cons_self, hfrom, hin⟩
      · exact (ih hps hafter).imp_right fun ⟨q, hq, hk⟩ => ⟨q, List.mem_cons_of_mem p hq, hk⟩

end Covered

end Source

/-- Where a span stands. -/
def Span.range (p : Span) : Nat × Nat := (p.first.index, p.last.index)

/-- The marks of a span are the places of its ends. -/
def Span.Placed (s : Source) (p : Span) : Prop :=
  p.first = s.place p.first.index ∧ p.last = s.place p.last.index

/-- The line of an offset, counted from one, and its column. -/
def Source.position (s : Source) (i : Nat) : Mark := ⟨i, 1 + s.lineEnds i, (i : Int) - s.lineStart i⟩

/-- In a source that is not empty, the first line is the first one. -/
theorem Source.place_eq_position (h : 0 < s.size) (i : Nat) : s.place i = s.position i := by
  simp [place, position, Cursor.start, h]

/-! ### Comments -/

namespace Comment

/-- What may start a comment that goes to the end of its line. -/
def lineMarks : List String := ["//", "-->", "<!--"]

/-- The text of a comment is what stands between its delimiters. -/
def Delimited (s : Source) (x : Comment) : Prop :=
  if x.block then
    s.slice x.span.range.1 x.span.range.2 = Text.ofString "/*" ++ s.slice x.textStart x.textStop ++ Text.ofString "*/"
  else ∃ w ∈ lineMarks, s.slice x.span.range.1 x.span.range.2 = Text.ofString w ++ s.slice x.textStart x.textStop

/-- A block that is not closed goes to the end of the source. -/
structure Unclosed (s : Source) (x : Comment) : Prop where
  block : x.block
  text : s.slice x.span.range.1 x.span.range.2 = Text.ofString "/*" ++ s.slice x.textStart x.textStop
  ends : s.size ≤ x.span.range.2
  unclosed : ∀ i, x.span.range.1 + 2 ≤ i → s.hasAt i "*/" = false

/-- A comment is delimited, or a block is not closed, which may be tolerated. -/
def Told (r : Setting) (x : Comment) : Prop := x.Delimited r.source ∨ r.tolerant ∧ x.Unclosed r.source

theorem Told.delimited {x : Comment} (h : x.Told r) (hstrict : r.tolerant = false) : x.Delimited r.source :=
  h.resolve_right fun hopen => Bool.false_ne_true (hstrict.symm.trans hopen.1)

end Comment

/-- A line terminator is spacing. -/
theorem Cursor.spaced_passTerminator (hc : CodePoint.isLineTerminator (s.char c.index)) :
    s.Spaced c.index (c.passTerminator s).index := by
  have hfirst : s.Spaced c.index (c.index + 1) := .single (by simp [CodePoint.isSpacing, hc])
  simp only [passTerminator, nextLine, Source.terminatorLength]
  split
  · next hcrlf =>
    simp only [Bool.and_eq_true, decide_eq_true_eq] at hcrlf
    refine hfirst.trans (.single ?_)
    rw [hcrlf.2]
    decide
  · exact hfirst

/-- A comment was read from one cursor up to another. -/
structure Comment.Read (r : Setting) (c c' : Cursor) (x : Comment) : Prop where
  covered : r.source.Covered c.index c'.index [x.span.range]
  first : x.span.range.1 = c.index
  told : x.Told r
  placed : c.Right r.source → x.span.Placed r.source

/-- A block that is closed ends with its delimiter. -/
theorem Cursor.hasAt_passBlock (h : (c.passBlock s).1) :
    ∃ i, c.index ≤ i ∧ (c.passBlock s).2.index = i + 2 ∧ s.hasAt i "*/" := by
  fun_induction Cursor.passBlock s c with
  | case1 c hsize hc ih =>
    obtain ⟨i, hi, hstop, hat⟩ := ih h
    exact ⟨i, Nat.le_trans (Moves.passTerminator hc).le hi, hstop, hat⟩
  | case2 c hsize hc hclose =>
    simp only [Bool.and_eq_true, decide_eq_true_eq] at hclose
    exact ⟨c.index, Nat.le_refl _, rfl, Source.hasAt_pair rfl hclose.1 hclose.2 (by decide)⟩
  | case3 c hsize hc hclose ih =>
    obtain ⟨i, hi, hstop, hat⟩ := ih h
    exact ⟨i, Nat.le_of_succ_le hi, hstop, hat⟩
  | case4 c hsize => cases h

/-- A block with a delimiter in it is closed. -/
theorem Cursor.passBlock_of_hasAt (hi : c.index ≤ i) (hat : s.hasAt i "*/") : (c.passBlock s).1 := by
  have hstar : s.char i = 0x2a :=
    (Option.some.inj (Source.char_of_hasAt (k := 0) hat (by decide))).symm
  fun_induction Cursor.passBlock s c with
  | case1 c hsize hc ih =>
    refine ih (Nat.le_of_not_lt fun hlt => ?_)
    have hspace := spaced_passTerminator hc i hi hlt
    rw [hstar] at hspace
    exact absurd hspace (by decide)
  | case2 c hsize hc hclose => rfl
  | case3 c hsize hc hclose ih =>
    refine ih (Nat.lt_of_le_of_ne hi fun heq => hclose ?_)
    have hslash : s.char (i + 1) = 0x2f :=
      (Option.some.inj (Source.char_of_hasAt (k := 1) hat (by decide))).symm
    simp [heq, hstar, hslash]
  | case4 c hsize =>
    have hlt : i + 2 ≤ s.size := Source.size_of_hasAt hat (by decide)
    omega

/-- A block that is not closed goes to the end. -/
theorem Cursor.size_le_passBlock (h : (c.passBlock s).1 = false) : s.size ≤ (c.passBlock s).2.index := by
  fun_induction Cursor.passBlock s c with
  | case1 c hsize hc ih => exact ih h
  | case2 c hsize hc hclose => cases h
  | case3 c hsize hc hclose ih => exact ih h
  | case4 c hsize => exact Nat.le_of_not_lt hsize

namespace Scan

open Cursor

variable {r : Setting} {s : ScanState}

/-- The place that a cursor had on its line `n` code points before. -/
theorem placed_before (n : Nat) (hc : c.Right src) :
    (⟨(c.advance n).index - n, (c.advance n).line, (c.advance n).column - n⟩ : Mark) = src.place c.index := by
  have hindex : (c.advance n).index - n = c.index := Nat.add_sub_cancel _ _
  have hcolumn : (c.advance n).column - n = c.column := by
    simp only [column, Cursor.advance]
    omega
  rw [hindex, hcolumn, ← hc.mark_eq]
  rfl

theorem ensures_lineComment (hs : s.cursor = c.advance w.length)
    (hat : r.source.hasAt c.index w) (hmark : w ∈ Comment.lineMarks) :
    Ensures (lineComment w.length) r s fun x t => Comment.Read r c t.cursor x := by
  have hsolid : ∀ w ∈ Comment.lineMarks, 0 < w.length ∧ ∀ d ∈ Text.ofString w, CodePoint.isSolid d := by
    decide
  obtain ⟨hlength, hw⟩ := hsolid w hmark
  have hword := Glides.word hat hw
  simp only [lineComment, bind_iff, step_iff, hs]
  generalize hstop : r.source.skipWhile (fun d => !CodePoint.isLineTerminator d) (c.advance w.length).index = stop
  have hle : (c.advance w.length).index ≤ stop := hstop ▸ r.source.le_skipWhile _ _
  have hline : Glides r.source (c.advance w.length) { c.advance w.length with index := stop } := by
    rw [← hstop]
    exact .skipWhile fun d hd => by simpa using hd
  have hindex : (c.advance w.length).index - w.length = c.index := Nat.add_sub_cancel _ _
  refine ⟨?_, hindex, ?_, fun hc => ⟨?_, ?_⟩⟩
  · have hrange : r.source.Covered c.index stop [(c.index, stop)] :=
      .single (Nat.lt_of_lt_of_le (Nat.lt_add_of_pos_right hlength) hle)
    rw [Span.range, hindex]
    split
    · next hsize =>
      -- The line terminator after the comment is not part of it.
      have hend : CodePoint.isLineTerminator (r.source.char stop) := by
        have := Source.not_test_skipWhile (hstop ▸ hsize)
        rw [hstop] at this
        simpa using this
      refine hrange.append (.spaced (Moves.passTerminator (c := { c with index := stop }) hend).le ?_)
      exact spaced_passTerminator (c := { c with index := stop }) hend
    · exact hrange
  · refine .inl ⟨w, hmark, ?_⟩
    rw [Span.range, hindex, ← Source.slice_of_hasAt hat]
    exact (Source.slice_append (Nat.le_add_right _ _) hle).symm
  · rw [placed_before _ hc]
    rfl
  · exact (hline.moves.right (hword.moves.right hc)).mark_eq

theorem ensures_blockComment (hs : s.cursor = c.advance 2) (hat : r.source.hasAt c.index "/*") :
    Ensures blockComment r s fun x t => Comment.Read r c t.cursor x := by
  have hword : Glides r.source c (c.advance 2) := Glides.word hat (by decide)
  have hblock := Moves.passBlock r.source (c.advance 2)
  have hclose := hasAt_passBlock (s := r.source) (c := c.advance 2)
  have hopen := size_le_passBlock (s := r.source) (c := c.advance 2)
  have hnone (i : Nat) := passBlock_of_hasAt (s := r.source) (c := c.advance 2) (i := i)
  have hfirst : r.source.slice c.index (c.index + 2) = Text.ofString "/*" := Source.slice_of_hasAt hat
  simp only [blockComment, bind_iff, step_iff, hs]
  generalize (c.advance 2).passBlock r.source = block at hblock hclose hopen hnone ⊢
  obtain ⟨closed, last⟩ := block
  have hle : c.index + 2 ≤ last.index := hblock.le
  have hcovered : r.source.Covered c.index last.index [(c.index, last.index)] := .single (by omega)
  have hplaced (hc : c.Right r.source) : last.mark = r.source.place last.index :=
    (hblock.right (hword.moves.right hc)).mark_eq
  cases closed with
  | false =>
    simp only [step_iff, Bool.false_eq_true, if_false, tolerate, errorHere, bind_iff, ite_iff, throw_iff,
      implies_true, and_true]
    refine fun htolerant => ⟨hcovered, rfl, .inr ⟨htolerant, ?_⟩, fun hc => ⟨placed_before 2 hc, hplaced hc⟩⟩
    refine ⟨rfl, ?_, hopen rfl, fun i hi => ?_⟩
    · change r.source.slice c.index last.index = Text.ofString "/*" ++ r.source.slice (c.index + 2) last.index
      rw [← hfirst, Source.slice_append (Nat.le_add_right _ _) hle]
    · exact Bool.eq_false_iff.2 fun hend => Bool.false_ne_true (hnone i hi hend)
  | true =>
    obtain ⟨i, hi, hstop, hend⟩ := hclose rfl
    have htext : c.index + 2 ≤ i := hi
    simp only [step_iff, if_true]
    refine ⟨hcovered, rfl, .inl ?_, fun hc => ⟨placed_before 2 hc, hplaced hc⟩⟩
    change r.source.slice c.index last.index = Text.ofString "/*"
      ++ r.source.slice (c.index + 2) (last.index - 2) ++ Text.ofString "*/"
    have hlast : r.source.slice i (i + 2) = Text.ofString "*/" := Source.slice_of_hasAt hend
    rw [hstop, Nat.add_sub_cancel, ← hfirst, ← hlast, Source.slice_append (Nat.le_add_right _ _) htext,
      Source.slice_append (Nat.le_of_add_right_le htext) (Nat.le_add_right _ _)]

/-- The comments found, the last first, cover what was passed over. -/
structure Passed (r : Setting) (c : Cursor) (found : List Comment) (t : ScanState) : Prop where
  moves : Moves r.source c t.cursor
  covered : r.source.Covered c.index t.cursor.index (found.reverse.map (·.span.range))
  told : ∀ x ∈ found, x.Told r
  placed : c.Right r.source → ∀ x ∈ found, x.span.Placed r.source
  opening : t.isModule → ∀ x ∈ found, r.source.hasAt x.span.range.1 "<!--" = false

namespace Passed

variable {found : List Comment} {t : ScanState} {x : Comment}

theorem spaced (h : Passed r c found s) (hmoves : Moves r.source s.cursor t.cursor)
    (hgap : r.source.Spaced s.cursor.index t.cursor.index) (hsame : t.isModule = s.isModule) :
    Passed r c found t where
  moves := h.moves.trans hmoves
  covered := by
    rw [← List.append_nil (found.reverse.map (·.span.range))]
    exact h.covered.append (.spaced hmoves.le hgap)
  told := h.told
  placed := h.placed
  opening := hsame ▸ h.opening

theorem cons (h : Passed r c found s) (hmoves : Moves r.source s.cursor t.cursor)
    (hsame : t.isModule = s.isModule) (hx : Comment.Read r s.cursor t.cursor x)
    (hopen : s.isModule → r.source.hasAt s.cursor.index "<!--" = false) : Passed r c (x :: found) t where
  moves := h.moves.trans hmoves
  covered := by
    rw [List.reverse_cons, List.map_append]
    exact h.covered.append hx.covered
  told := List.forall_mem_cons.2 ⟨hx.told, h.told⟩
  placed hc := List.forall_mem_cons.2 ⟨hx.placed (h.moves.right hc), h.placed hc⟩
  opening hm := List.forall_mem_cons.2 ⟨hx.first ▸ hopen (hsame ▸ hm), h.opening (hsame ▸ hm)⟩

end Passed

theorem ensures_triviaRound_passed {lineStart : Bool} (h : Passed r c found s) :
    Ensures (triviaRound (found, lineStart)) r s (Round.Holds
      (fun x t => Passed r c x.1 t) fun xs t => Passed r c xs.reverse t) := by
  have hother {w : String} (hat : r.source.hasAt s.cursor.index w)
      (hw : 0 < w.length ∧ (Text.ofString w)[0]? ≠ some 0x3c) :
      r.source.hasAt s.cursor.index "<!--" = false :=
    Source.not_hasAt_of_char_ne rfl fun heq =>
      hw.2 ((Source.char_of_hasAt hat hw.1).trans (congrArg some heq))
  have hline (w : String) (hat : r.source.hasAt s.cursor.index w) (hw : w ∈ Comment.lineMarks)
      (hopen : s.isModule → r.source.hasAt s.cursor.index "<!--" = false) :
      Ensures (lineComment w.length) r { s with cursor := s.cursor.advance w.length } fun x t =>
        Passed r c (x :: found) t := by
    have hsolid : ∀ w ∈ Comment.lineMarks, ∀ d ∈ Text.ofString w, CodePoint.isSolid d := by decide
    have hword := (Glides.word hat (hsolid w hw)).moves
    exact ((ensures_lineComment rfl hat hw).and (ensures_lineComment_moves.and (Steady.out r _))).mono
      fun _ _ hx => h.cons (hword.trans hx.2.1) hx.2.2.isModule hx.1 hopen
  simp only [triviaRound, bind_iff, step_iff, ite_iff, Round.Holds, ensures_peek, Nat.add_zero, List.reverse_reverse]
  refine ⟨fun _ => h, fun _ _ => ⟨fun hspace => ?_, fun _ => ⟨fun hend => ?_, fun _ =>
    ⟨fun hat => ?_, fun _ => ⟨fun hat => ?_, fun _ => ⟨fun hat => ?_, fun _ => ⟨fun hat => ?_, fun _ => h⟩⟩⟩⟩⟩⟩⟩
  · refine h.spaced (Glides.one (CodePoint.isSolid_of_isWhiteSpace hspace)).moves (.single ?_) ?_
    · simp [CodePoint.isSpacing, hspace]
    · rfl
  · refine (ensures_endLine rfl).2 fun _ => ?_
    exact h.spaced (.passTerminator hend) (spaced_passTerminator hend) rfl
  · exact hline "//" hat (by decide) fun _ => hother hat (by decide)
  · have hword : Moves r.source s.cursor (s.cursor.advance 2) := (Glides.word hat (by decide)).moves
    exact ((ensures_blockComment rfl hat).and (ensures_blockComment_moves.and (Steady.out r _))).mono
      fun _ _ hx => h.cons (hword.trans hx.2.1) hx.2.2.isModule hx.1 fun _ => hother hat (by decide)
  · have hat := (Bool.and_eq_true_iff.1 hat).2
    exact hline "-->" hat (by decide) fun _ => hother hat (by decide)
  · obtain ⟨hscript, hat⟩ := Bool.and_eq_true_iff.1 hat
    exact hline "<!--" hat (by decide) fun hm => by simp [hm] at hscript

theorem ensures_trivia_passed : Ensures trivia r s fun xs t => Passed r s.cursor xs.reverse t := by
  simp only [trivia, bind_iff, step_iff]
  refine ensures_loop (I := fun x t => Passed r s.cursor x.1 t)
    ⟨.refl _ _, .refl _ _, by simp, by simp, by simp⟩ fun x t ht => ?_
  exact ensures_triviaRound_passed ht

end Scan

end EcmaSyntax
