import EcmaSyntax.Proofs.Nesting
import EcmaSyntax.Proofs.Running.Program

/-!
# The tokens and comments of a program

The tokens and comments of a program are listed with it. What a run has noted when it comes to the end of
the source (`Noted`) is what these lists say: the ranges of the tokens are in order and do not overlap,
each token has the text of its range, and outside of all ranges there is nothing but white space
(`Program.tokens_lossless`).

There is one exception. A closing brace that is first read as a token of its own, and then again as the
start of the next chunk of a template, is listed as what it was first taken for; the rest of the chunk is
missing (`Source.Resumed`).

The comments of a program are listed with it, if that is asked for. They come to the list from all the
places where white space is passed over: before a lookahead, before a token in a tag, and before a regular
expression that is read in place of a slash. The last two start from where the cursor was moved back to.
But it is moved back to the start of a token only, and every comment that was logged ends before that
(`Remarked`). So each comment is listed once, in its place (`Program.comments_in_order`).
-/

namespace EcmaSyntax

/-- A value lists a token: its range, and the text there. -/
structure Value.Spells (src : Source) (v : Value) (p : Nat × Nat) : Prop where
  range : v.get "range" = .list [.nat p.1, .nat p.2]
  text : v.get "value" = .text (src.slice p.1 p.2)

/-- The ranges of the entries of a list. -/
def Value.rangesIn (v : Value) (name : String) : Option (List (Int × Int)) :=
  match v.get name with
  | .list vs => vs.mapM fun v => (v.get "range").asRange?
  | _ => none

namespace Report

variable {r : Report} {src : Source}

theorem spells_token (hrange : r.range) (t : TokenRecord) :
    (r.token src t).Spells src (t.token.start, t.token.stop) := by
  refine ⟨?_, rfl⟩
  change (if r.range then _ else _) = _
  rw [if_pos hrange]

theorem range_collected {e : Event} (hrange : r.range) (h : e.Comments p) :
    (r.collected e.taken).get "range" = .list [.nat p.1, .nat p.2] := by
  obtain ⟨sp, hsp, rfl⟩ := Option.map_eq_some_iff.1 h.2
  change (if r.range then _ else _) = _
  rw [if_pos hrange, hsp]
  rfl

end Report

namespace Program

variable {o : Options}

/-- The lists of tokens and comments of a program. -/
theorem lists_of_parse (hstrict : o.tolerant = false) (htokens : o.tokens)
    (hcomments : o.comments) (h : parse code o .idle = .ok p) :
    ∃ n s comments, read (.ofText code) o .idle = .ok n s
      ∧ p.tree.get "tokens" = .list (s.tokens.toList.map ((reportOf o comments).token (.ofText code)))
      ∧ p.tree.get "comments" = .list ((s.events.toList.filter fun e => Comments.isComment e.taken).map
        fun e => (reportOf o comments).collected e.taken) := by
  obtain ⟨n, s, comments, tree, hread, -, hreport, rfl⟩ := parse_eq_ok_iff.1 h
  refine ⟨n, s, comments, hread, ?_⟩
  rw [report_of_isProgram _ _ (ensures_program rfl n s hread)] at hreport
  cases hreport
  have hdress : ((reportOf o comments).dress n).Apart := nofun
  simp only [Value.get_node, additions, hcomments, htokens, hstrict, if_true, Bool.false_eq_true, if_false,
    List.append_nil, List.singleton_append, Node.setAll, hdress.set.set.get_settle]
  refine ⟨hdress.set.get_set_self _ _, ?_⟩
  rw [Node.get_set_of_ne (by decide), hdress.get_set_self]

/-- At the end, all of the source is noted. -/
theorem noted_of_read (hstrict : o.tolerant = false)
    (hplain : source.Plain) (hmarkup : o.jsx → ¬ source.HasSubstitution)
    (h : read source o .idle = .ok n s) : Noted source s.events (rangesOf s.tokens) source.size := by
  have hvisible : (setting source o .idle).toSetting.Visible := fun hat =>
    absurd (hplain.symm.trans hat) Bool.false_ne_true
  have hmeets := Grammar.meets_program o.isModule rfl hvisible
  obtain ⟨⟨_, _, -, _, -, -, hready⟩, heof⟩ := hmeets.ensures n s h
  have hnoted := hready.noted ⟨hstrict, hplain, hmarkup⟩
  rwa [if_pos heof, hready.found.ended heof] at hnoted

/-- **The list of tokens loses nothing.** Where no error is tolerated, and no substitution meets markup, the
ranges of the tokens are in order and do not overlap, each token has the text of its range, and what is in
no token and in no comment is white space or a line terminator, or the rest of a chunk of a template whose
brace is listed alone. -/
theorem tokens_lossless (e : EntryPoint) (code : Text) (o : OptionList) (p : Program)
    (htokens : o.flag "tokens") (hrange : o.flag "range") (hcomment : o.flag "comment")
    (hstrict : o.flag "tolerant" = false) (hplain : (Source.ofText code).hasAt 0 "#!" = false)
    (hmarkup : (o.flag "jsx" || o.flag "esnext") → ¬ (Source.ofText code).HasSubstitution)
    (h : run e code o .idle = .ok p) :
    ∃ (tokens comments : List Value) (ranges : List (Nat × Nat)),
      p.tree.get "tokens" = .list tokens ∧ p.tree.get "comments" = .list comments
      ∧ List.Forall₂ (Value.Spells (.ofText code)) tokens ranges
      ∧ ranges.Pairwise (fun p q => p.2 ≤ q.1)
      ∧ (∀ p ∈ ranges, p.1 < p.2 ∧ p.2 ≤ (Source.ofText code).size)
      ∧ ∀ k < (Source.ofText code).size, CodePoint.isSpacing ((Source.ofText code).char k)
        ∨ (∃ p ∈ ranges, p.1 ≤ k ∧ k < p.2)
        ∨ (∃ v ∈ comments, ∃ i j, v.get "range" = .list [.nat i, .nat j] ∧ i ≤ k ∧ k < j)
        ∨ ∃ i j, (i, i + 1) ∈ ranges ∧ (Source.ofText code).Resumed i j ∧ i < k ∧ k < j := by
  obtain ⟨a, ha, hparse⟩ := parse_of_run h
  have hflags := e.withFlags_eq ha
  have htokens' : a.tokens := by rw [← hflags]; exact htokens
  have hrange' : a.range := by rw [← hflags]; exact hrange
  have hcomments' : a.comments := by rw [← hflags]; exact hcomment
  have hstrict' : a.tolerant = false := by rw [← hflags]; exact hstrict
  have hmarkup' : a.jsx → ¬ (Source.ofText code).HasSubstitution := by rw [e.jsx_eq ha]; exact hmarkup
  obtain ⟨n, s, comments, hread, htree, htree'⟩ := lists_of_parse hstrict' htokens' hcomments' hparse
  obtain ⟨ps, hcovered, hsub, hall⟩ := noted_of_read hstrict' hplain hmarkup' hread
  refine ⟨_, _, rangesOf s.tokens, htree, htree', ?_, hcovered.pairwise.sublist hsub,
    fun p hp => (hcovered.mem (hsub.subset hp)).2, fun k hk => ?_⟩
  · rw [rangesOf, List.forall₂_map_left_iff, List.forall₂_map_right_iff, List.forall₂_same]
    exact fun t _ => Report.spells_token hrange' t
  · refine (hcovered.covers (Nat.zero_le k) hk).imp_right fun hmem => ?_
    obtain ⟨q, hq, hle, hlt⟩ := hmem
    rcases hall q hq with htoken | ⟨ev, hev, hcomment⟩ | ⟨i, hi, hbrace, hresumed⟩
    · exact .inl ⟨q, htoken, hle, hlt⟩
    · have hlisted : ev ∈ s.events.toList.filter fun e => Comments.isComment e.taken :=
        List.mem_filter.2 ⟨Array.mem_toList_iff.2 hev, hcomment.1⟩
      refine .inr (.inl ⟨_, List.mem_map_of_mem hlisted, ?_⟩)
      exact ⟨q.1, q.2, Report.range_collected hrange' hcomment, hle, hlt⟩
    -- The rest of a chunk is noted with the brace in front of it.
    · exact .inr (.inr ⟨i, q.2, hbrace, hresumed, by omega, hlt⟩)

/-- A regular expression, a comment and a template. -/
theorem tokens_lossless_of_template :
    let o : OptionList := [("tokens", .bool true), ("range", .bool true), ("comment", .bool true)]
    let code : Text := "/[/]/ /*a*/\n+`b$\x7bc\x7d`"
    ∃ p, run .parse code o .idle = .ok p ∧ ∃ (tokens comments : List Value) (ranges : List (Nat × Nat)),
        p.tree.get "tokens" = .list tokens ∧ p.tree.get "comments" = .list comments
        ∧ List.Forall₂ (Value.Spells (.ofText code)) tokens ranges
        ∧ ranges.Pairwise (fun p q => p.2 ≤ q.1)
        ∧ (∀ p ∈ ranges, p.1 < p.2 ∧ p.2 ≤ (Source.ofText code).size)
        ∧ ∀ k < (Source.ofText code).size, CodePoint.isSpacing ((Source.ofText code).char k)
          ∨ (∃ p ∈ ranges, p.1 ≤ k ∧ k < p.2)
          ∨ (∃ v ∈ comments, ∃ i j, v.get "range" = .list [.nat i, .nat j] ∧ i ≤ k ∧ k < j)
          ∨ ∃ i j, (i, i + 1) ∈ ranges ∧ (Source.ofText code).Resumed i j ∧ i < k ∧ k < j := by
  intro o code
  obtain ⟨p, hrun, -⟩ : ∃ p, run .parse code o .idle = .ok p ∧ True := exists_of_any (by decide +kernel)
  exact ⟨p, hrun, tokens_lossless .parse code o p (by decide) (by decide) (by decide) (by decide) (by decide)
    (fun h => absurd h (by decide)) hrun⟩

/-- The look past `let` counts the brace of a pattern once more. The brace that ends the substitution is then
listed as a brace, and the backquote after it is in no token. Markup in a substitution: a brace in it is
taken for the start of a chunk first, and that chunk stays listed with the tokens it covers. -/
theorem tokens_lossless_not_of_substitution :
    let o : OptionList := [("tokens", .bool true), ("range", .bool true), ("comment", .bool true)]
    let code : Text := "`$\x7b()=>\x7blet\x7b\x7d=b\x7d\x7d`"
    (∃ p, run .parse code o .idle = .ok p ∧ p.tree.rangesIn "comments" = some []
      ∧ p.tree.rangesIn "tokens" = some [(0, 3), (3, 4), (4, 5), (5, 7), (7, 8), (8, 11), (11, 12), (12, 13),
        (13, 14), (14, 15), (15, 16), (16, 17)]
      ∧ (Source.ofText code).size = 18
      ∧ CodePoint.isSpacing ((Source.ofText code).char 17) = false)
    ∧ ∃ p, run .parse "`$\x7b<b>\x7bx\x7d</b>\x7d$\x7by\x7d`" (("jsx", .bool true) :: o) .idle = .ok p
      ∧ p.tree.rangesIn "tokens" = some [(0, 3), (3, 4), (4, 5), (5, 6), (6, 7), (7, 8), (8, 16), (9, 10),
        (10, 11), (11, 12), (12, 13), (13, 16), (16, 17), (17, 19)] :=
  ⟨exists_of_any (by decide +kernel), exists_of_any (by decide +kernel)⟩

end Program

/-! ### Comments -/

/-- What a comment in a range says, by its delimiters. Where errors are tolerated, the last comment of a
source may be a block that is not closed. -/
inductive Source.Remark (src : Source) (tolerant : Bool) (i j : Nat) : String → Text → Prop
  | line {w : String} {text : Text} : w ∈ Comment.lineMarks →
    src.slice i j = Text.ofString w ++ text → Remark src tolerant i j "Line" text
  | block {text : Text} : src.slice i j = Text.ofString "/*" ++ text ++ Text.ofString "*/" →
    Remark src tolerant i j "Block" text
  | unclosed {text : Text} : tolerant → j = src.size → src.slice i j = Text.ofString "/*" ++ text →
    (∀ k, i + 2 ≤ k → src.hasAt k "*/" = false) → Remark src tolerant i j "Block" text

/-- A value lists a comment: its range, and what it says. -/
structure Value.Recounts (src : Source) (tolerant : Bool) (v : Value) (p : Nat × Nat) : Prop where
  range : v.get "range" = .list [.nat p.1, .nat p.2]
  remark : ∃ type text, v.get "type" = .word type ∧ v.get "value" = .text text ∧ src.Remark tolerant p.1 p.2 type text

theorem Comment.Told.remark {r : Setting} {x : Comment} (h : x.Told r) (hbound : x.span.range.2 ≤ r.source.size) :
    r.source.Remark r.tolerant x.span.range.1 x.span.range.2 (if x.block then "Block" else "Line")
      (r.source.slice x.textStart x.textStop) := by
  rcases h with hdelimited | ⟨htolerant, hopen⟩
  · unfold Delimited at hdelimited
    split at hdelimited
    · next hblock =>
      rw [if_pos hblock]
      exact .block hdelimited
    · next hline =>
      obtain ⟨w, hw, htext⟩ := hdelimited
      rw [if_neg hline]
      exact .line hw htext
  · rw [if_pos hopen.block]
    exact .unclosed htolerant (Nat.le_antisymm hbound hopen.ends) hopen.text hopen.unclosed

namespace Report

variable {r : Report} {setting : Setting} {e : Event} {x : Comment}

theorem type_collected (h : e.Logs setting.source x) :
    (r.collected e.taken).get "type" = .word (if x.block then "Block" else "Line") := by
  obtain ⟨serial, he⟩ := h
  rw [he]
  cases hblock : x.block <;> simp [collected, Comment.node, hblock] <;> rfl

theorem recounts_collected (hrange : r.range) (h : e.Logs setting.source x) (htold : x.Told setting)
    (hbound : x.span.range.2 ≤ setting.source.size) :
    (r.collected e.taken).Recounts setting.source setting.tolerant x.span.range where
  range := range_collected hrange h.comments
  remark := by
    refine ⟨_, _, type_collected h, ?_, htold.remark hbound⟩
    obtain ⟨serial, he⟩ := h
    rw [he]
    rfl

end Report

namespace Program

variable {o : Options}

/-- The list of comments of a program. -/
theorem comments_of_parse (hcomments : o.comments) (h : parse code o .idle = .ok p) :
    ∃ n s found, read (.ofText code) o .idle = .ok n s ∧ p.tree.get "comments"
      = .list ((remarks s.events).map fun e => (reportOf o found).collected e.taken) := by
  obtain ⟨n, s, found, tree, hread, -, hreport, rfl⟩ := parse_eq_ok_iff.1 h
  refine ⟨n, s, found, hread, ?_⟩
  rw [report_of_isProgram _ _ (ensures_program rfl n s hread)] at hreport
  cases hreport
  have hdress : ((reportOf o found).dress n).Apart := nofun
  rw [Value.get_node, hdress.setAll.get_settle, additions, if_pos hcomments, List.append_assoc,
    List.singleton_append, Node.setAll]
  refine (Node.get_setAll_of_not_mem fun q hq => ?_).trans (hdress.get_set_self _ _)
  -- What is added after the comments has other names.
  have hname : q.1 = "tokens" ∨ q.1 = "errors" := by
    refine (List.mem_append.1 hq).imp (fun htoken => ?_) fun herror => ?_
    · split at htoken
      · rw [List.mem_singleton.1 htoken]
      · cases htoken
    · split at herror
      · rw [List.mem_singleton.1 herror]
      · cases herror
  rcases hname with hname | hname <;> rw [hname] <;> decide

/-- All comments of a source are logged in their order. Those of a module that look like markup stand before
its first token. -/
theorem remarked_of_read (h : read source o .idle = .ok n s) :
    let c := setting source o .idle
    ∃ leading t, Scan.trivia c.toSetting (.start source) = .ok leading t ∧ ∃ _ : Extent c,
      (o.isModule → ∀ j, Extent.opens c j → j ≤ t.cursor.index) ∧ Remarked c s.events source.size := by
  by_cases hvisible : (setting source o .idle).toSetting.Visible
  · have hmeets := Grammar.meets_program o.isModule rfl hvisible
    obtain ⟨⟨leading, t, htrivia, extent, hwhole, hopens, hready⟩, heof⟩ := hmeets.ensures n s h
    exact ⟨leading, t, htrivia, extent, hopens, hready.found.ended heof ▸ hready.remarked hwhole⟩
  -- A hidden line that is all there is has no comments in it.
  · have hmeets := Grammar.meets_programTo_of_not_visible (E := fun _ => True) o.isModule
      rfl hvisible (Grammar.depthOf (setting source o .idle).source)
    have hto := (Grammar.program_apply o.isModule (setting source o .idle) (.start source)).symm.trans h
    have hnone : remarks s.events = [] := hmeets.ensures n s hto
    have htrivia : Scan.trivia (setting source o .idle).toSetting (.start source) = .ok [] (.start source) :=
      (Scan.meets_trivia_resting (Nat.zero_le _) (Grammar.resting_of_not_visible hvisible)).eq_ok
    exact ⟨[], _, htrivia, ⟨True, fun _ => False⟩, fun _ _ => False.elim, [], hnone ▸ .nil, .nil, nofun⟩

/-- **Comments are listed once each and in their order.** Whatever the language and whether or not errors are
tolerated, the ranges of the comments of a program follow one another without overlap and lie in the source,
and the value of a comment is the text of its range without the delimiters. -/
theorem comments_in_order (e : EntryPoint) (code : Text) (o : OptionList) (p : Program)
    (hcomment : o.flag "comment") (hrange : o.flag "range") (h : run e code o .idle = .ok p) :
    ∃ (comments : List Value) (ranges : List (Nat × Nat)), p.tree.get "comments" = .list comments
      ∧ List.Forall₂ (Value.Recounts (.ofText code) (o.flag "tolerant")) comments ranges
      ∧ ranges.Pairwise (fun p q => p.2 ≤ q.1)
      ∧ ∀ p ∈ ranges, p.1 < p.2 ∧ p.2 ≤ (Source.ofText code).size := by
  obtain ⟨a, ha, hparse⟩ := parse_of_run h
  have hflags := e.withFlags_eq ha
  have hcomments' : a.comments := by rw [← hflags]; exact hcomment
  have hrange' : a.range := by rw [← hflags]; exact hrange
  have htolerant : a.tolerant = o.flag "tolerant" := by rw [← hflags]; rfl
  obtain ⟨n, s, found, hread, htree⟩ := comments_of_parse hcomments' hparse
  obtain ⟨_, _, -, _, -, xs, hlogs, hpairs, hall⟩ := remarked_of_read hread
  refine ⟨_, xs.map (·.span.range), htree, ?_, List.pairwise_map.2 hpairs, List.forall_mem_map.2 fun x hx =>
    (hall x hx).2⟩
  rw [List.forall₂_map_left_iff, List.forall₂_map_right_iff, ← htolerant]
  have hboth := ((List.forall₂_and_left xs _).2 ⟨hall, hlogs.flip⟩).flip
  exact hboth.imp fun e x hx =>
    Report.recounts_collected (r := reportOf a found) hrange' hx.2 hx.1.1.1 hx.1.2.2

/-- Comments in a tag and after it, the last of which is not closed. -/
theorem comments_in_order_of_element :
    let o : OptionList :=
      [("comment", .bool true), ("range", .bool true), ("jsx", .bool true), ("tolerant", .bool true)]
    let code : Text := "<a /*b*/ />//c\n/*d"
    ∃ p, run .parse code o .idle = .ok p
      ∧ ∃ (comments : List Value) (ranges : List (Nat × Nat)), p.tree.get "comments" = .list comments
        ∧ List.Forall₂ (Value.Recounts (.ofText code) (o.flag "tolerant")) comments ranges
        ∧ ranges.Pairwise (fun p q => p.2 ≤ q.1)
        ∧ ∀ p ∈ ranges, p.1 < p.2 ∧ p.2 ≤ (Source.ofText code).size := by
  intro o code
  obtain ⟨p, hrun, -⟩ : ∃ p, run .parse code o .idle = .ok p
      ∧ p.tree.rangesIn "comments" = some [(3, 8), (11, 14), (15, 18)] := exists_of_any (by decide +kernel)
  exact ⟨p, hrun, comments_in_order .parse code o p (by decide) (by decide) hrun⟩

/-- **Comments of a module do not look like markup**, but for those before its first token, which is read before
it is known that the source is a module. -/
theorem opening_of_module (code : Text) (o : OptionList) (p : Program) (hcomment : o.flag "comment")
    (hrange : o.flag "range") (h : run .parseModule code o .idle = .ok p) :
    ∃ (r : Setting) (leading : List Comment) (t : ScanState) (comments : List Value) (ranges : List (Nat × Nat)),
      r.source = .ofText code ∧ Scan.trivia r (.start r.source) = .ok leading t
      ∧ p.tree.get "comments" = .list comments
      ∧ List.Forall₂ (fun v p => v.get "range" = .list [.nat p.1, .nat p.2]) comments ranges
      ∧ ∀ p ∈ ranges, (Source.ofText code).hasAt p.1 "<!--" → p.2 ≤ t.cursor.index := by
  obtain ⟨a, ha, hparse⟩ := parse_of_run h
  have hflags := EntryPoint.parseModule.withFlags_eq ha
  have hcomments' : a.comments := by rw [← hflags]; exact hcomment
  have hrange' : a.range := by rw [← hflags]; exact hrange
  have hmodule : a.isModule := (Options.fields_of_preset ha).2.1 "module" (OptionList.get?_concat _ _ _ _)
  obtain ⟨n, s, found, hread, htree⟩ := comments_of_parse hcomments' hparse
  obtain ⟨leading, t, htrivia, _, hopens, xs, hlogs, -, hall⟩ := remarked_of_read hread
  refine ⟨_, leading, t, _, xs.map (·.span.range), rfl, htrivia, htree, ?_, List.forall_mem_map.2 fun x hx => ?_⟩
  · rw [List.forall₂_map_left_iff, List.forall₂_map_right_iff]
    exact hlogs.imp fun e x hx => Report.range_collected hrange' hx.comments
  · exact fun hopen => hopens hmodule _ ((hall x hx).1.2 hopen)

/-- Two comments that look like markup, before and after the first token of a module; the latter is none. -/
theorem opening_of_module_of_leading :
    let o : OptionList := [("comment", .bool true), ("range", .bool true)]
    let code : Text := "<!--\na<!--b"
    ∃ p, run .parseModule code o .idle = .ok p
      ∧ ∃ (r : Setting) (leading : List Comment) (t : ScanState) (comments : List Value) (ranges : List (Nat × Nat)),
        r.source = .ofText code ∧ Scan.trivia r (.start r.source) = .ok leading t
        ∧ p.tree.get "comments" = .list comments
        ∧ List.Forall₂ (fun v p => v.get "range" = .list [.nat p.1, .nat p.2]) comments ranges
        ∧ ∀ p ∈ ranges, (Source.ofText code).hasAt p.1 "<!--" → p.2 ≤ t.cursor.index := by
  intro o code
  obtain ⟨p, hrun, -⟩ : ∃ p, run .parseModule code o .idle = .ok p
      ∧ p.tree.rangesIn "comments" = some [(0, 4)] := exists_of_any (by decide +kernel)
  exact ⟨p, hrun, opening_of_module code o p (by decide) (by decide) hrun⟩

/-- So there are modules with a comment that looks like markup. -/
theorem opening_not_of_module :
    let code : Text := "<!--\na"
    ∃ p, run .parseModule code [("comment", .bool true), ("range", .bool true)] .idle = .ok p
      ∧ p.tree.rangesIn "comments" = some [(0, 4)] ∧ (Source.ofText code).hasAt 0 "<!--" := by
  intro code
  obtain ⟨p, hrun, hranges⟩ : ∃ p, run .parseModule code [("comment", .bool true), ("range", .bool true)] .idle
      = .ok p ∧ p.tree.rangesIn "comments" = some [(0, 4)] := exists_of_any (by decide +kernel)
  exact ⟨p, hrun, hranges, by decide⟩

end Program

end EcmaSyntax
