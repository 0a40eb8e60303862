import Mathlib.Data.List.Forall2
import EcmaSyntax.Proofs.Coverage
import EcmaSyntax.Proofs.Reporting

/-!
# A stream of tokens loses nothing

The entries of a stream cover the source (`TokenStream.covered_readFrom`): one step of reading covers
what it reads, and the steps follow one another up to the end. A regular expression that is tried and
given up leaves no trace, since only the cursor matters and it is put back.

What is listed of an entry is then its text, its range and its place (`Report.lists_entry`), and so
nothing but white space is missing from the list (`Program.tokenize_lossless`).
-/

namespace EcmaSyntax

namespace StreamEntry

/-- Where an entry stands. -/
def span : StreamEntry → Span
  | comment x => x.span
  | token _ p => p

/-- The text of an entry is that of its place: for a comment, without the delimiters. -/
def Faithful (src : Source) : StreamEntry → Prop
  | comment x => x.Delimited src
  | token t p => t.start = p.first.index ∧ t.stop = p.last.index

end StreamEntry

namespace Scan

open Cursor

variable {r : Setting} {s : ScanState} {g : SlashGuess}

/-- Before the end, a token is never empty. -/
theorem ensures_lex_lt (hplain : r.source.hasAt 0 "#!" = false) (h : s.cursor.index < r.source.size) :
    Ensures lex r s fun t u =>
      Covers r.source s.cursor u.cursor t ∧ s.cursor.index < u.cursor.index := by
  have honward : Ensures lex r s (Onward r.source s.cursor.index) :=
    (meets_lex (E := fun _ => True) (Nat.le_of_lt h)).ensures
  refine (ensures_lex.and honward).mono fun t u hu => ?_
  obtain ⟨hcovers, -, hread, hend, -⟩ := hu
  refine ⟨hcovers.resolve_right fun hbang => ?_, ?_⟩
  · rw [hplain] at hbang
    cases hbang.2.1
  · rcases hread with ⟨heof, hindex⟩ | hlt
    · have := hend heof
      omega
    · exact hlt

theorem ensures_regex_lt (h : r.source.char s.cursor.index = 0x2f) : Ensures regex r s fun t u =>
      Covers r.source s.cursor u.cursor t ∧ s.cursor.index < u.cursor.index :=
  (meets_regex (E := fun _ => True) h).ensures.mono fun _ _ hu => ⟨hu.toCovers, hu.lt⟩

theorem ensures_guessedToken (hplain : r.source.hasAt 0 "#!" = false) (h : s.cursor.index < r.source.size) :
    Ensures (guessedToken g) r s fun t u =>
      Covers r.source s.cursor u.cursor t ∧ s.cursor.index < u.cursor.index := by
  intro t u hrun
  unfold guessedToken at hrun
  split at hrun
  · exact ensures_lex_lt hplain h t u hrun
  · next hslash =>
    split at hrun
    · cases hrun
    · exact ensures_lex_lt hplain h t u hrun
    · split at hrun
      · next hregex =>
        cases hrun
        exact ensures_regex_lt (Decidable.not_not.1 hslash) t u hregex
      · next failed _ =>
        -- Whatever the attempt has left, the cursor is back where it was.
        exact ensures_lex_lt (s := { failed with cursor := s.cursor }) hplain h t u hrun

end Scan

/-- Entries are what was read from one cursor up to another. -/
structure Transcript (src : Source) (c c' : Cursor) (es : List StreamEntry) : Prop where
  moves : c.Moves src c'
  covered : src.Covered c.index c'.index (es.map (·.span.range))
  faithful : ∀ e ∈ es, e.Faithful src
  placed : c.Right src → ∀ e ∈ es, e.span.Placed src

namespace Transcript

variable {src : Source} {c c' c'' : Cursor} {es es' : List StreamEntry} {t : Token}

theorem refl (src : Source) (c : Cursor) : Transcript src c c [] :=
  ⟨.refl src c, .refl src c.index, nofun, nofun⟩

theorem append (h : Transcript src c c' es) (h' : Transcript src c' c'' es') : Transcript src c c'' (es ++ es') where
  moves := h.moves.trans h'.moves
  covered := by
    rw [List.map_append]
    exact h.covered.append h'.covered
  faithful e he := (List.mem_append.1 he).elim (h.faithful e) (h'.faithful e)
  placed hc e he := (List.mem_append.1 he).elim (h.placed hc e) (h'.placed (h.moves.right hc) e)

theorem ofPassed {r : Setting} {xs : List Comment} {t : ScanState} (hstrict : r.tolerant = false)
    (h : Scan.Passed r c xs.reverse t) : Transcript r.source c t.cursor (xs.map .comment) where
  moves := h.moves
  covered := by
    have hspan : (xs.map StreamEntry.comment).map (·.span.range) = xs.map (·.span.range) :=
      List.map_map
    rw [hspan, ← List.reverse_reverse xs]
    exact h.covered
  faithful := List.forall_mem_map.2 fun x hx => (h.told x (List.mem_reverse.2 hx)).delimited hstrict
  placed hc := List.forall_mem_map.2 fun x hx => h.placed hc x (List.mem_reverse.2 hx)

theorem ofToken (h : Scan.Covers src c c' t) (hlt : c.index < c'.index) :
    Transcript src c c' [.token t ⟨c.mark, c'.mark⟩] where
  moves := h.moves
  covered := .single hlt
  faithful := List.forall_mem_singleton.2 ⟨h.start, h.stop⟩
  placed hc := List.forall_mem_singleton.2 ⟨hc.mark_eq, (h.moves.right hc).mark_eq⟩

end Transcript

/-- A step that reads nothing has come to the end. -/
theorem Scan.ensures_streamStep (hstrict : r.tolerant = false) (hplain : r.source.hasAt 0 "#!" = false) :
    Ensures (streamStep g) r s fun x t => Transcript r.source s.cursor t.cursor x.1
      ∧ (x.1 = [] → r.source.size ≤ t.cursor.index) := by
  simp only [streamStep, Ensures.bind_iff, Ensures.step_iff, Ensures.ite_iff, decide_eq_true_eq]
  refine ensures_trivia_passed.mono fun xs t ht => ⟨fun hend => ?_, fun hend => ?_⟩
  · exact ⟨.ofPassed hstrict ht, fun _ => hend⟩
  · refine (ensures_guessedToken hplain (Nat.lt_of_not_le hend)).mono fun x u hu => ⟨?_, by simp⟩
    exact (Transcript.ofPassed hstrict ht).append (.ofToken hu.1 hu.2)

namespace TokenStream

variable {setting : Setting} {stream : TokenStream}

/-- What is read goes on where the entries that were found end, and the whole is covered. -/
theorem transcript_readFrom (hstrict : setting.tolerant = false) (hplain : setting.source.hasAt 0 "#!" = false)
    (hfound : Transcript setting.source c s.cursor found.reverse)
    (h : readFrom setting bound s g found = .ok stream) :
    ∃ c', setting.source.size ≤ c'.index ∧ Transcript setting.source c c' stream.entries := by
  induction bound generalizing s g found with
  | zero => cases h
  | succ bound ih =>
    have hstep := Scan.ensures_streamStep (s := s) (g := g) hstrict hplain
    rw [readFrom] at h
    split at h
    · next s' hrun =>
      cases h
      obtain ⟨hread, hend⟩ := hstep _ _ hrun
      have hall := hfound.append hread
      rw [List.append_nil] at hall
      exact ⟨s'.cursor, hend rfl, hall⟩
    · next more g' s' _ hrun =>
      obtain ⟨hread, -⟩ := hstep _ _ hrun
      refine ih ?_ h
      rw [List.reverse_append, List.reverse_reverse]
      exact hfound.append hread
    · rw [hstrict] at h
      cases h
    · cases h

theorem transcript_ofText (hplain : (Source.ofText code).hasAt 0 "#!" = false)
    (h : ofText code false = .ok stream) : ∃ c, c.index = (Source.ofText code).size
      ∧ Transcript (.ofText code) (.start (.ofText code)) c stream.entries := by
  obtain ⟨c, hend, hread⟩ := transcript_readFrom rfl hplain (.refl _ _) h
  exact ⟨c, Nat.le_antisymm (hread.moves.bound (Nat.zero_le _)) hend, hread⟩

end TokenStream

/-! ### What is listed -/

/-- What an entry of a type says of the text where it stands: a comment comes without its delimiters,
and a token as it is written. -/
def Report.Tells (type : String) (text whole : Text) : Prop :=
  if type = "BlockComment" then whole = Text.ofString "/*" ++ text ++ Text.ofString "*/"
  else if type = "LineComment" then ∃ w ∈ Comment.lineMarks, whole = Text.ofString w ++ text
  else text = whole

/-- A value lists what a source has in a range: its offsets, its lines and columns, and its text. -/
structure Value.Lists (src : Source) (v : Value) (p : Nat × Nat) : Prop where
  range : v.get "range" = .list [.nat p.1, .nat p.2]
  loc : v.get "loc" = Span.locValue ⟨src.position p.1, src.position p.2⟩ .null
  text : ∃ type text, v.get "type" = .word type ∧ v.get "value" = .text text
    ∧ Report.Tells type text (src.slice p.1 p.2)

namespace Report

variable {r : Report} {src : Source}

theorem tells_comment {x : Comment} (h : x.Delimited src) :
    Tells (if x.block then "BlockComment" else "LineComment") (src.slice x.textStart x.textStop)
      (src.slice x.span.range.1 x.span.range.2) := by
  unfold Comment.Delimited at h
  cases hblock : x.block with
  | true => rwa [hblock] at h
  | false => rwa [hblock] at h

theorem tells_token (l : Lexeme) (text : Text) : Tells l.kindName text text := by
  cases l <;> rfl

/-- Where offsets, lines and columns are reported, an entry lists what its range has. -/
theorem lists_entry (hrange : r.range) (hloc : r.loc) (hsize : 0 < src.size)
    (hfaithful : e.Faithful src) (hplaced : e.span.Placed src) : (r.entry src e).Lists src e.span.range := by
  have hspan : e.span = ⟨src.position e.span.range.1, src.position e.span.range.2⟩ := by
    rw [← src.place_eq_position hsize, ← src.place_eq_position hsize]
    exact congrArg₂ Span.mk hplaced.1 hplaced.2
  have hoffsets (form type : String) (value : Text) (regex : Value) (i j : Nat) :
      (r.listed form type value regex i j e.span).get "range" = .list [.nat i, .nat j] := by
    change (if r.range then _ else _) = _
    rw [if_pos hrange]
  have hlines (form type : String) (value : Text) (regex : Value) (i j : Nat) :
      (r.listed form type value regex i j e.span).get "loc"
        = Span.locValue ⟨src.position e.span.range.1, src.position e.span.range.2⟩ .null := by
    change (if r.loc then _ else _) = _
    rw [if_pos hloc, ← hspan]
  cases e with
  | comment x => exact ⟨hoffsets .., hlines .., _, _, rfl, rfl, tells_comment hfaithful⟩
  | token t p =>
    obtain ⟨hstart, hstop⟩ := hfaithful
    refine ⟨?_, hlines .., _, _, rfl, rfl, ?_⟩
    · refine (hoffsets ..).trans ?_
      rw [hstart, hstop]
      rfl
    · rw [hstart, hstop]
      exact tells_token _ _

end Report

namespace Program

/-- **A list of tokens and comments loses nothing.** The ranges of the entries are in order and do not
overlap, each entry tells the text and the place of its range, and what is in no range is white space
or a line terminator. -/
theorem tokenize_lossless (code : Text) (o : OptionList) (entries : List Value)
    (errors : List SyntaxError) (hrange : o.flag "range") (hloc : o.flag "loc")
    (hcomment : o.flag "comment") (hstrict : o.flag "tolerant" = false)
    (hplain : (Source.ofText code).hasAt 0 "#!" = false)
    (h : tokenize code o = .ok (entries, errors)) :
    ∃ ranges : List (Nat × Nat), List.Forall₂ (Value.Lists (.ofText code)) entries ranges
      ∧ ranges.Pairwise (fun p q => p.2 ≤ q.1)
      ∧ (∀ p ∈ ranges, p.1 < p.2 ∧ p.2 ≤ (Source.ofText code).size)
      ∧ ∀ k < (Source.ofText code).size,
        CodePoint.isSpacing ((Source.ofText code).char k) ∨ ∃ p ∈ ranges, p.1 ≤ k ∧ k < p.2 := by
  unfold tokenize at h
  rw [hstrict] at h
  cases hstream : TokenStream.ofText code false with
  | error e =>
    rw [hstream] at h
    cases h
  | ok stream =>
    rw [hstream] at h
    obtain ⟨c, hend, hread⟩ := TokenStream.transcript_ofText hplain hstream
    have hcovered := hread.covered
    rw [hend] at hcovered
    refine ⟨stream.entries.map (·.span.range), ?_, hcovered.pairwise, fun p hp => ?_,
      fun k hk => hcovered.covers (Nat.zero_le k) hk⟩
    · obtain ⟨rfl, -⟩ := Prod.mk.inj (Except.ok.inj h)
      rw [hcomment, List.filter_eq_self.2 (fun | .comment _, _ | .token _ _, _ => rfl),
        List.forall₂_map_left_iff, List.forall₂_map_right_iff, List.forall₂_same]
      intro e he
      have hrange' := hcovered.mem (List.mem_map_of_mem he)
      exact Report.lists_entry hrange hloc (by omega) (hread.faithful e he) (hread.placed (Cursor.right_start _) e he)
    · exact (hcovered.mem hp).2

theorem tokenize_lossless_of_comment :
    let o : OptionList := [("range", .bool true), ("loc", .bool true), ("comment", .bool true)]
    let code : Text := "a /*b\n*/ // c"
    ∃ entries errors, tokenize code o = .ok (entries, errors) ∧ entries.length = 3 ∧ ∃ ranges : List (Nat × Nat),
        List.Forall₂ (Value.Lists (.ofText code)) entries ranges
        ∧ ranges.Pairwise (fun p q => p.2 ≤ q.1)
        ∧ (∀ p ∈ ranges, p.1 < p.2 ∧ p.2 ≤ (Source.ofText code).size)
        ∧ ∀ k < (Source.ofText code).size,
          CodePoint.isSpacing ((Source.ofText code).char k) ∨ ∃ p ∈ ranges, p.1 ≤ k ∧ k < p.2 := by
  intro o code
  have hlength : (tokenize code o).toOption.map (·.1.length) = some 3 := by decide +kernel
  cases hlisted : tokenize code o with
  | error e =>
    rw [hlisted] at hlength
    cases hlength
  | ok listed =>
    rw [hlisted] at hlength
    refine ⟨listed.1, listed.2, rfl, Option.some.inj hlength, ?_⟩
    exact tokenize_lossless code o _ _ (by decide) (by decide) (by decide) (by decide) (by decide) hlisted

end Program

end EcmaSyntax
