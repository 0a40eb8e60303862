import EcmaSyntax.Proofs.Lookahead
import EcmaSyntax.Proofs.Stream

/-!
# Streams that cannot go on

A stream of tokens ends in one of three ways: with the end of the source, with an error that refuses the
source, or at a slash of which it cannot guess what it means. The guess looks at the tokens before the
last brace or parenthesis that was opened. If none was opened, it looks at tokens counted from the end,
and there may be too few of them (`SlashGuess.Unmatched`). Else the guess is what it would be if those that it
misses were no marks (`SlashGuess.startsRegex_eq_guess`).
-/

namespace EcmaSyntax

/-- The text of a keyword or punctuator. -/
def Lexeme.mark? : Lexeme → Option Text
  | punctuator t | keyword t => some t
  | _ => none

namespace SlashGuess

variable {g : SlashGuess} {ms : List (Option Text)} {l : Lexeme} {f : Fault} {i : Int}

/-! ### What is known of the tokens before -/

/-- A place is that of an opening mark; it is before all others if there is no such mark. -/
def Opens (ms : List (Option Text)) (mark : Text) (i : Int) : Prop :=
  (i = -1 ∧ some mark ∉ ms) ∨ ∃ k : Nat, i = k ∧ ms[k]? = some (some mark)

/-- What is known of the tokens that were read. -/
structure Knows (g : SlashGuess) (ms : List (Option Text)) : Prop where
  marks : g.marks.toList = ms
  brace : Opens ms "\x7b" g.brace
  paren : Opens ms "(" g.paren

theorem Knows.start : Knows .start [] := ⟨rfl, .inl ⟨rfl, List.not_mem_nil⟩, .inl ⟨rfl, List.not_mem_nil⟩⟩

theorem Knows.size_eq (h : Knows g ms) : (g.marks.size : Int) = ms.length := by
  rw [← h.marks, Array.length_toList]

theorem Opens.push {mark : Text} (h : Opens ms mark i) (m : Option Text) :
    Opens (ms ++ [m]) mark (if m = some mark then ms.length else i) := by
  split
  · next hm => exact .inr ⟨ms.length, rfl, by simp [hm]⟩
  · next hm =>
    rcases h with ⟨hi, hnone⟩ | ⟨k, hi, hk⟩
    · exact .inl ⟨hi, by simpa [hnone] using fun h => hm h.symm⟩
    · exact .inr ⟨k, hi, by rw [List.getElem?_append_left (List.getElem?_eq_some_iff.1 hk).1, hk]⟩

theorem Knows.push (h : Knows g ms) (l : Lexeme) : Knows (g.push l) (ms ++ [l.mark?]) := by
  have hpush : g.push l = ⟨g.marks.push l.mark?,
      if l.mark? = some "\x7b" then g.marks.size else g.brace,
      if l.mark? = some "(" then g.marks.size else g.paren⟩ := by
    cases l <;> rfl
  rw [hpush, h.size_eq]
  exact ⟨by simp [h.marks], h.brace.push _, h.paren.push _⟩

/-! ### Guesses -/

/-- The tokens before a slash do not tell what it means: a parenthesis is closed by the first of them, or
a brace by one of the next, and none was opened. -/
def Unmatched (ms : List (Option Text)) : Prop :=
  ms = [some (.ofString ")")] ∨ ms.getLast? = some (some (.ofString "\x7d")) ∧ some (.ofString "\x7b") ∉ ms
      ∧ 3 ≤ ms.length ∧ ms.length ≤ 5

/-- A mark is missing only before the first token and behind the last one. -/
theorem Knows.mark_error (h : Knows g ms) (hf : g.mark i = .error f) :
    f = .outOfRange ∧ (i + ms.length < 0 ∨ ms.length ≤ i) := by
  rw [mark, h.size_eq] at hf
  generalize hj : (if i < 0 then i + (ms.length : Int) else i) = j at hf
  split at hf
  · cases hf
  · next hrange =>
    cases hf
    simp only [Bool.and_eq_true, decide_eq_true_eq] at hrange
    exact ⟨rfl, by split at hj <;> omega⟩

/-- Places before the first are counted from the end. -/
theorem Knows.mark_back (h : Knows g ms) {k : Nat} (hi : i + ms.length = k) (hneg : i < 0)
    (hm : g.mark i = .ok m) : ms[k]? = some m := by
  rw [mark, h.size_eq, if_pos hneg, hi] at hm
  split at hm
  · next hrange =>
    cases hm
    have hlt : k < g.marks.size := by
      have := h.size_eq
      omega
    rw [← h.marks, Array.getElem?_toList]
    simp [hlt]
  · cases hm

/-- Behind a closed brace, a guess fails where a mark is missing, by which a function would be told. -/
theorem mark_of_afterBrace (h : g.afterBrace = .error f) : (3 ≤ g.marks.size ∧ (g.mark (g.brace - 3) = .error f
      ∨ g.mark (g.brace - 3) = .ok (some "function") ∧ g.mark (g.brace - 4) = .error f))
    ∨ 4 ≤ g.marks.size ∧ (g.mark (g.brace - 4) = .error f
      ∨ g.mark (g.brace - 4) = .ok (some "function") ∧ g.mark (g.brace - 5) = .error f) := by
  simp only [afterBrace, isFunction, bind, Except.bind, pure, Except.pure] at h
  grind

/-- If a brace was opened, there is enough to look at. -/
theorem Knows.unmatched_of_afterBrace (h : Knows g ms) (hf : g.afterBrace = .error f) :
    f = .outOfRange ∧ some (.ofString "\x7b") ∉ ms ∧ 3 ≤ ms.length ∧ ms.length ≤ 5 := by
  have hsize := h.size_eq
  rcases h.brace with ⟨hnone, hbrace⟩ | ⟨k, hk, hbrace⟩
  · have herror {i : Int} (hi : -6 ≤ i) (hneg : i < 0) (hm : g.mark i = .error f) :
        f = .outOfRange ∧ ms.length ≤ 5 := by
      have := h.mark_error hm
      exact ⟨this.1, by omega⟩
    rcases mark_of_afterBrace hf with ⟨hthree, hm | ⟨-, hm⟩⟩ | ⟨hfour, hm | ⟨-, hm⟩⟩
    all_goals
      obtain ⟨rfl, hle⟩ := herror (by omega) (by omega) hm
      exact ⟨rfl, hbrace, by omega, hle⟩
  · have hlt : k < ms.length := (List.getElem?_eq_some_iff.1 hbrace).1
    -- Where a mark might be missing, the one behind it is the brace itself.
    have hfirst {i : Int} (hi : i + ms.length = 0) (hm : g.mark i = .ok (some "function")) (hzero : k = 0) :
        False := by
      have := h.mark_back hi (by omega) hm
      rw [hzero, this] at hbrace
      exact absurd hbrace (by decide)
    rcases mark_of_afterBrace hf with ⟨hthree, hm | ⟨hfun, hm⟩⟩ | ⟨hfour, hm | ⟨hfun, hm⟩⟩
    all_goals have := (h.mark_error hm).2
    · omega
    · exact (hfirst (by omega) hfun (by omega)).elim
    · omega
    · exact (hfirst (by omega) hfun (by omega)).elim

/-- A guess fails only where the tokens before the slash do not tell what it means. -/
theorem Knows.unmatched (h : Knows g ms) (hf : g.startsRegex = .error f) :
    f = .outOfRange ∧ Unmatched ms := by
  have hback : g.marks.back? = ms.getLast? := by rw [← h.marks, Array.getLast?_toList]
  -- Only behind a closing mark does the guess depend on tokens before the last one.
  unfold startsRegex at hf
  rw [hback] at hf
  split at hf
  · cases hf
  · cases hf
  · next t ht =>
    split at hf
    · cases hf
    split at hf
    · next hclose =>
      have heq : t = .ofString ")" := by simpa [Text.is] using hclose
      cases hm : g.mark (g.paren - 1) with
      | ok m =>
        rw [hm] at hf
        cases hf
      | error f' =>
        rw [hm] at hf
        cases hf
        obtain ⟨rfl, hmissing⟩ := h.mark_error hm
        refine ⟨rfl, .inl ?_⟩
        have hlength : ms.length < 2 := by
          rcases h.paren with ⟨hnone, -⟩ | ⟨k, hk, hopen⟩
          · omega
          · have := (List.getElem?_eq_some_iff.1 hopen).1
            omega
        obtain ⟨m, rfl⟩ : ∃ m, ms = [m] := by
          refine List.length_eq_one_iff.1 (Nat.le_antisymm (Nat.le_of_lt_succ hlength) ?_)
          exact List.length_pos_of_mem (List.mem_of_getLast? ht)
        exact congrArg (fun x => [x]) ((Option.some.inj ht).trans (congrArg some heq))
    split at hf
    · next hclose =>
      have heq : t = .ofString "\x7d" := by simpa [Text.is] using hclose
      obtain ⟨rfl, hrest⟩ := h.unmatched_of_afterBrace hf
      exact ⟨rfl, .inr ⟨heq ▸ ht, hrest⟩⟩
    · cases hf

/-! ### Marks that are there -/

/-- The mark at a place, if a token stands there. -/
def present (g : SlashGuess) (i : Int) : Option Text := if 0 ≤ i then g.marks.getD i.toNat none else none

/-- Does the word `function` stand at a place? -/
def hasFunction (g : SlashGuess) (i : Int) : Bool := g.present i == some (.ofString "function")

def guessAfterBrace (g : SlashGuess) : Bool :=
  if g.hasFunction (g.brace - 3) then followsFunction (g.present (g.brace - 4)) false
  else if g.hasFunction (g.brace - 4) then followsFunction (g.present (g.brace - 5)) true
  else true

/-- What a guess comes to that takes a mark as missing where no token stands. -/
def guess (g : SlashGuess) : Bool :=
  match g.marks.back? with
  | none => true
  | some none => false
  | some (some t) =>
    if t.isAny ["this", "]"] then false
    else if t.is ")" then ((g.present (g.paren - 1)).map (·.isAny ["if", "while", "for", "with"])).getD false
    else if t.is "\x7d" then g.guessAfterBrace
    else true

/-- What was closed last had been opened; and if it is a brace, then four tokens stood before it, or none of the
tokens is the word `function`. -/
structure Matched (g : SlashGuess) : Prop where
  paren : g.marks.back? = some (some (.ofString ")")) → 0 ≤ g.paren
  brace : g.marks.back? = some (some (.ofString "\x7d")) →
    4 ≤ g.brace ∨ 0 ≤ g.brace ∧ some (.ofString "function") ∉ g.marks

theorem Opens.lt {mark : Text} (h : Opens ms mark i) : i < ms.length := by
  rcases h with ⟨rfl, -⟩ | ⟨k, rfl, hk⟩
  · omega
  · exact Int.ofNat_lt.2 (List.getElem?_eq_some_iff.1 hk).1

theorem mark_of_nonneg (h : 0 ≤ i) (hi : i < g.marks.size) : g.mark i = .ok (g.present i) := by
  have : ¬ i < 0 := by omega
  simp [mark, present, h, hi, this, pure, Except.pure]

/-- Before the first place, marks are counted from the end. -/
theorem mark_of_neg (h : i < 0) (hi : 0 ≤ i + g.marks.size) : g.mark i = .ok (g.present (i + g.marks.size)) := by
  have : i + g.marks.size < g.marks.size := by omega
  simp [mark, present, h, hi, this, pure, Except.pure]

theorem mark_neg_one (h : g.marks.back? = some m) : g.mark (-1) = .ok m := by
  have hsize : 0 < g.marks.size := Array.size_pos_iff.2 (by rintro heq; simp [heq] at h)
  rw [mark_of_neg (by decide) (by omega), show (-1 + g.marks.size : Int) = (g.marks.size - 1 : Nat) by omega]
  rw [Array.back?] at h
  simp [present, h]

theorem hasFunction_of_not_mem (h : some (.ofString "function") ∉ g.marks) (i : Int) : g.hasFunction i = false := by
  rw [hasFunction, beq_eq_false_iff_ne, present]
  intro heq
  split at heq
  · rw [Array.getD_eq_getD_getElem?] at heq
    cases hm : g.marks[i.toNat]? with
    | none => simp [hm] at heq
    | some m =>
      rw [hm, Option.getD_some] at heq
      exact h (heq ▸ Array.mem_of_getElem? hm)
  · cases heq

theorem isFunction_of_nonneg (h : 0 ≤ i) (hi : i < g.marks.size) : g.isFunction i = .ok (g.hasFunction i) := by
  rw [isFunction, mark_of_nonneg h hi]
  rfl

theorem isFunction_of_not_mem (h : some (.ofString "function") ∉ g.marks) (hi : i < g.marks.size)
    (hlow : 0 ≤ i + g.marks.size) : g.isFunction i = .ok false := by
  by_cases hneg : i < 0
  · rw [isFunction, mark_of_neg hneg hlow]
    exact congrArg Except.ok (hasFunction_of_not_mem h _)
  · rw [isFunction_of_nonneg (Int.not_lt.1 hneg) hi, hasFunction_of_not_mem h]

theorem Knows.foldl (h : Knows g ms) (ls : List Lexeme) :
    Knows (ls.foldl SlashGuess.push g) (ms ++ ls.map Lexeme.mark?) := by
  induction ls generalizing g ms with
  | nil => simpa using h
  | cons l ls ih => simpa using ih (h.push l)

theorem Knows.afterBrace_eq (h : Knows g ms) (hlast : g.marks.back? = some (some (.ofString "\x7d")))
    (hbrace : 4 ≤ g.brace ∨ 0 ≤ g.brace ∧ some (.ofString "function") ∉ g.marks) :
    g.afterBrace = .ok g.guessAfterBrace := by
  have hlt : g.brace < g.marks.size := h.size_eq ▸ h.brace.lt
  rcases hbrace with hfour | ⟨hzero, hnone⟩
  · have hthird : g.isFunction (g.brace - 3) = .ok (g.hasFunction (g.brace - 3)) :=
      isFunction_of_nonneg (by omega) (by omega)
    have hfourth : g.isFunction (g.brace - 4) = .ok (g.hasFunction (g.brace - 4)) :=
      isFunction_of_nonneg (by omega) (by omega)
    have hmark : g.mark (g.brace - 4) = .ok (g.present (g.brace - 4)) := mark_of_nonneg (by omega) (by omega)
    -- Before the first token, the last one is found: a closing brace, which is like none.
    have hcheck : ∃ m, g.mark (g.brace - 5) = .ok m
        ∧ followsFunction m true = followsFunction (g.present (g.brace - 5)) true := by
      by_cases hfive : 0 ≤ g.brace - 5
      · exact ⟨_, mark_of_nonneg hfive (by omega), rfl⟩
      · rw [show g.brace - 5 = -1 by omega]
        exact ⟨_, mark_neg_one hlast, rfl⟩
    obtain ⟨m, hm, heq⟩ := hcheck
    have hsize : 4 ≤ g.marks.size := by omega
    simp only [afterBrace, guessAfterBrace, hthird, hfourth, hmark, hm, heq, hsize, Nat.le_of_succ_le hsize,
      if_true, bind, Except.bind, pure, Except.pure]
    split
    · rfl
    · split <;> rfl
  · have hguess : g.guessAfterBrace = true := by simp [guessAfterBrace, hasFunction_of_not_mem hnone]
    have hthird (hsize : 3 ≤ g.marks.size) : g.isFunction (g.brace - 3) = .ok false :=
      isFunction_of_not_mem hnone (by omega) (by omega)
    have hfourth (hsize : 4 ≤ g.marks.size) : g.isFunction (g.brace - 4) = .ok false :=
      isFunction_of_not_mem hnone (by omega) (by omega)
    simp only [hguess, afterBrace, bind, Except.bind, pure, Except.pure]
    grind

/-- **Guesses read tokens that are there**, where what was closed last had been opened. -/
theorem startsRegex_eq_guess (ls : List Lexeme) (h : Matched (ls.foldl push .start)) :
    (ls.foldl push .start).startsRegex = .ok (ls.foldl push .start).guess := by
  have hknows := Knows.start.foldl ls
  generalize ls.foldl push .start = g at *
  unfold startsRegex guess
  cases hlast : g.marks.back? with
  | none => rfl
  | some m => cases m with
    | none => rfl
    | some t =>
      simp only
      split
      · rfl
      split
      · next hclose =>
        have heq : t = .ofString ")" := by simpa [Text.is] using hclose
        have hzero := h.paren (heq ▸ hlast)
        have hlt : g.paren < g.marks.size := hknows.size_eq ▸ hknows.paren.lt
        by_cases hone : 0 ≤ g.paren - 1
        · rw [mark_of_nonneg hone (by omega)]
          rfl
        · rw [show g.paren - 1 = -1 by omega, mark_neg_one hlast, heq]
          rfl
      split
      · next hclose =>
        have heq : t = .ofString "\x7d" := by simpa [Text.is] using hclose
        exact hknows.afterBrace_eq (heq ▸ hlast) (h.brace (heq ▸ hlast))
      · rfl

/-- A function with a name, and the brace of a block. -/
theorem startsRegex_eq_guess_named :
    let ls : List Lexeme := [.keyword "function", .identifier "f", .punctuator "(", .punctuator ")",
      .punctuator "\x7b", .punctuator "\x7d"]
    Matched (ls.foldl push .start) ∧ (ls.foldl push .start).startsRegex = .ok true := by
  intro ls
  have hmatched : Matched (ls.foldl push .start) := ⟨by decide, fun _ => .inl (by decide)⟩
  exact ⟨hmatched, startsRegex_eq_guess ls hmatched⟩

/-- The brace of a function without a name is the fourth token; before the first one, the last one is found. -/
theorem startsRegex_ne_guess :
    let ls : List Lexeme := [.keyword "function", .punctuator "(", .punctuator ")", .punctuator "\x7b",
      .punctuator "\x7d"]
    (ls.foldl push .start).startsRegex = .ok true ∧ (ls.foldl push .start).guess = false := by
  decide

end SlashGuess

/-! ### Steps of a stream -/

/-- How a stream may fail: a source is refused, or something is missing for a guess. -/
def Failure.Guessed (P : Prop) : Failure → Prop
  | .refused _ => True
  | .fault .outOfRange => P
  | _ => False

instance : Refusing (Failure.Guessed P) := ⟨fun _ => trivial⟩

theorem Failure.Guessed.imp {f : Failure} (h : f.Guessed P) (hPQ : P → Q) : f.Guessed Q := by
  unfold Failure.Guessed at h ⊢
  split at h
  · trivial
  · exact hPQ h
  · exact h.elim

/-- The token of an entry. -/
def StreamEntry.lexeme? : StreamEntry → Option Lexeme
  | comment _ => none
  | token t _ => some t.lexeme

namespace Scan

variable {r : Setting} {s : ScanState} {g : SlashGuess} {E : Failure → Prop}

/-- Comments are found only where something is read. -/
theorem ensures_trivia_found (h : s.cursor.index ≤ r.source.size) : Ensures trivia r s fun xs t =>
    xs ≠ [] → s.cursor.index < t.cursor.index := by
  simp only [trivia, Ensures.bind_iff, Ensures.step_iff]
  refine ensures_loop (I := fun x t => t.cursor.index ≤ r.source.size
    ∧ s.cursor.index ≤ t.cursor.index ∧ (x.1 ≠ [] → s.cursor.index < t.cursor.index))
    ⟨h, Nat.le_refl _, fun hne => absurd rfl hne⟩ fun x t hx => ?_
  obtain ⟨hbound, hle, hfound⟩ := hx
  refine ((meets_triviaRound (E := fun _ => True) hbound).ensures.and ensures_triviaRound_rests).mono fun y u hu => ?_
  cases y with
  | again y =>
    have hlt := Nat.lt_of_le_of_lt hle hu.1.2
    exact ⟨hu.1.1.bound hbound, Nat.le_of_lt hlt, fun _ => hlt⟩
  | done xs =>
    obtain ⟨-, ⟨rfl, rfl⟩, -⟩ := hu
    exact fun hne => hfound (by simpa using hne)

theorem meets_guessedToken [Refusing E] (h : s.cursor.index < r.source.size)
    (hE : ∀ f, r.source.char s.cursor.index = 0x2f → g.startsRegex = .error f → E (.fault f)) :
    Meets E (guessedToken g) r s fun _ u =>
      s.cursor.index < u.cursor.index ∧ u.cursor.index ≤ r.source.size := by
  have hlex (v : ScanState) (hv : v.cursor = s.cursor) : Meets E lex r v fun _ u =>
      s.cursor.index < u.cursor.index ∧ u.cursor.index ≤ r.source.size := by
    refine (meets_lex (by rw [hv]; exact Nat.le_of_lt h)).mono fun t u ⟨hbound, honward, hend, _⟩ => ?_
    rw [hv] at honward
    refine ⟨honward.elim (fun hu => ?_) id, hbound⟩
    have := hend hu.1
    omega
  have hguess (hrun : guessedToken g r s = lex r s) : Meets E (guessedToken g) r s fun _ u =>
      s.cursor.index < u.cursor.index ∧ u.cursor.index ≤ r.source.size := by
    unfold Meets
    rw [hrun]
    exact hlex s rfl
  by_cases hslash : r.source.char s.cursor.index = 0x2f
  · cases hstarts : g.startsRegex with
    | error f =>
      simp only [Meets, guessedToken, hslash, hstarts]
      exact hE f hslash hstarts
    | ok starts =>
      cases starts with
      | false => exact hguess (by simp [guessedToken, hslash, hstarts])
      | true =>
        simp only [Meets, guessedToken, hslash, hstarts]
        cases hrun : regex r s with
        | ok t u =>
          obtain ⟨hcovers, hlt⟩ := ensures_regex_lt hslash t u hrun
          exact ⟨hlt, hcovers.moves.bound (Nat.le_of_lt h)⟩
        | error e failed => exact hlex { failed with cursor := s.cursor } rfl
  · exact hguess (by simp [guessedToken, hslash])

/-- Before the slash that comes next, the tokens do not tell what it means. -/
def Stuck (r : Setting) (s : ScanState) (ms : List (Option Text)) : Prop :=
  SlashGuess.Unmatched ms ∧ ∃ xs t, trivia r s = .ok xs t ∧ r.source.char t.cursor.index = 0x2f

theorem meets_streamStep (h : s.cursor.index ≤ r.source.size) (hg : g.Knows ms) :
    Meets (Failure.Guessed (Stuck r s ms)) (streamStep g) r s fun x t =>
      t.cursor.index ≤ r.source.size ∧ (x.1 ≠ [] → s.cursor.index < t.cursor.index)
        ∧ x.2.Knows (ms ++ (x.1.filterMap StreamEntry.lexeme?).map Lexeme.mark?) := by
  have hcomments (xs : List Comment) : (xs.map StreamEntry.comment).filterMap StreamEntry.lexeme? = [] := by
    rw [List.filterMap_map]
    exact List.filterMap_eq_nil_iff.2 fun _ _ => rfl
  simp only [streamStep, Meets.bind_iff, Meets.step_iff, Meets.ite_iff, decide_eq_true_eq]
  have htrivia := (meets_trivia (E := Failure.Guessed (Stuck r s ms)) h).and_ensures
    ((ensures_trivia_found h).and fun xs t (hrun : trivia r s = .ok xs t) => hrun)
  refine htrivia.mono fun xs t ht => ?_
  obtain ⟨⟨hmoves, -⟩, hfound, hrun⟩ := ht
  refine ⟨fun _ => ?_, fun hend => ?_⟩
  · refine ⟨hmoves.bound h, fun hne => hfound (by simpa using hne), ?_⟩
    rw [hcomments, List.map_nil, List.append_nil]
    exact hg
  · refine (meets_guessedToken (Nat.lt_of_not_le hend) fun f hslash hf => ?_).mono fun x u hu => ?_
    · obtain ⟨rfl, hunmatched⟩ := hg.unmatched hf
      exact ⟨hunmatched, xs, t, hrun, hslash⟩
    · refine ⟨hu.2, fun _ => Nat.lt_of_le_of_lt hmoves.le hu.1, ?_⟩
      rw [List.filterMap_append, hcomments]
      exact hg.push x.lexeme

end Scan

namespace TokenStream

variable {r : Setting} {s : ScanState} {g : SlashGuess} {ls : List Lexeme} {f : Failure}

/-- The tokens that a stream has read when it comes to a state. -/
inductive Reached (r : Setting) : ScanState → SlashGuess → List Lexeme → Prop where
  | start : Reached r (.start r.source) .start []
  | step {s s' : ScanState} {g g' : SlashGuess} {ls : List Lexeme} {entries : List StreamEntry} :
    Reached r s g ls → Scan.streamStep g r s = .ok (entries, g') s' →
      Reached r s' g' (ls ++ entries.filterMap StreamEntry.lexeme?)

/-- A stream comes to a slash without a meaning. -/
def Stuck (r : Setting) : Prop := ∃ s g ls, Reached r s g ls ∧ Scan.Stuck r s (ls.map Lexeme.mark?)

theorem Reached.knows (h : Reached r s g ls) : s.cursor.index ≤ r.source.size ∧ g.Knows (ls.map Lexeme.mark?) := by
  induction h with
  | start => exact ⟨Nat.zero_le _, .start⟩
  | step _ hstep ih =>
    obtain ⟨hbound, -, hknows⟩ := (Scan.meets_streamStep ih.1 ih.2).ensures _ _ hstep
    rw [List.map_append]
    exact ⟨hbound, hknows⟩

end TokenStream

end EcmaSyntax
