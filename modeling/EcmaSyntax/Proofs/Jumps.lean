import EcmaSyntax.Proofs.Fitting.Report

/-!
# Jumps and their targets

A `break` or a `continue` needs a target around it: a loop, a switch or a statement with its label. Where
classes have no blocks, the target is in the same function, and no label is used twice in a function
(`Program.jump_has_target`).

The block of a class is read in the context of the class: it is no boundary. A jump in such a block has
its target there or around the class, and a `return` in it needs a function around the class
(`Program.jump_of_staticBlock`). So a class in a loop may have a block that breaks out of the loop
(`Program.staticBlock_leaves_loop`).
-/

namespace EcmaSyntax

/-- The steps of a way that lead down from the innermost function. -/
def Step.inFunction (path : List Step) : List Step := path.takeWhile fun st => !st.node.isFunction

namespace Surroundings

variable {e : Surroundings} {st : Step} {path : List Step} {l : Text}

/-! ### One step down -/

/-- What can be jumped to is the node of the step or was there before, and a step into a function is only
passed where classes may have blocks. -/
theorem inLoop_of_below (h : (e.below st).inLoop) :
    (e.hasBlocks ∨ st.node.isFunction = false) ∧ (st.isLoopBody ∨ e.inLoop) := by
  unfold below function at h
  split at h <;> grind

theorem inSwitch_of_below (h : (e.below st).inSwitch) :
    (e.hasBlocks ∨ st.node.isFunction = false) ∧ (st.isSwitchBody ∨ e.inSwitch) := by
  unfold below function at h
  split at h <;> grind

theorem mem_labels_of_below (h : l ∈ (e.below st).labels) :
    (e.hasBlocks ∨ st.node.isFunction = false) ∧ (st.label? = some l ∨ l ∈ e.labels) := by
  unfold below function at h
  split at h <;> grind

theorem inFunction_of_below (h : (e.below st).inFunction) (he : e.hasBlocks) : st.isFunctionBody ∨ e.inFunction := by
  unfold below function at h
  split at h <;> grind

/-- Labels are forgotten in functions only. -/
theorem mem_labels_below (hst : st.node.isFunction = false) (h : st.label? = some l ∨ l ∈ e.labels) :
    l ∈ (e.below st).labels := by
  unfold below
  rw [hst, Bool.false_and, if_neg Bool.false_ne_true]
  exact List.mem_append.2 (h.imp (by simp [·]) id)

/-! ### All steps -/

/-- Where classes may have blocks, only a body makes a function. -/
theorem inFunction_of_along (he : e.hasBlocks) (h : (e.along path).inFunction) :
    e.inFunction ∨ ∃ st ∈ path, st.isFunctionBody := by
  induction path with
  | nil => exact .inl h
  | cons st path ih =>
    rcases inFunction_of_below h (hasBlocks_along.trans he) with hst | hrest
    · exact .inr ⟨st, List.mem_cons_self, hst⟩
    · exact (ih hrest).imp id fun hbody => hbody.imp fun _ h => ⟨List.mem_cons_of_mem _ h.1, h.2⟩

/-- The steps whose nodes can be jumped to, if they can be jumped to at all. -/
def reach (e : Surroundings) (path : List Step) : List Step :=
  if e.hasBlocks then path else Step.inFunction path

theorem mem_reach_cons (h : e.hasBlocks ∨ st.node.isFunction = false)
    (hst' : st' = st ∨ st' ∈ e.reach path) : st' ∈ e.reach (st :: path) := by
  unfold reach Step.inFunction at *
  grind [List.takeWhile_cons]

/-- What every step preserves, or brings about where its node can be jumped to. -/
theorem of_along (there : Surroundings → Prop) {target : Step → Prop}
    (hstep : ∀ (e : Surroundings) (st : Step), there (e.below st) →
      (e.hasBlocks ∨ st.node.isFunction = false) ∧ (target st ∨ there e))
    (h : there (e.along path)) : there e ∨ ∃ st ∈ e.reach path, target st := by
  induction path with
  | nil => exact .inl h
  | cons st path ih =>
    -- The last step comes first: the target is its node, or lies further up.
    obtain ⟨hpass, hst⟩ := hstep _ _ h
    rw [← along, hasBlocks_along] at hpass
    rcases hst with hst | hrest
    · exact .inr ⟨st, mem_reach_cons hpass (.inl rfl), hst⟩
    · refine (ih hrest).imp id ?_
      rintro ⟨st', hst', htarget⟩
      exact ⟨st', mem_reach_cons hpass (.inr hst'), htarget⟩

theorem mem_labels_along (h : ∃ st ∈ Step.inFunction path, st.label? = some l) :
    l ∈ (e.along path).labels := by
  induction path with
  | nil => simp [Step.inFunction] at h
  | cons st path ih =>
    obtain ⟨st', hst', hl⟩ := h
    unfold Step.inFunction at hst' ih
    rw [List.takeWhile_cons] at hst'
    cases hfunction : st.node.isFunction with
    -- Nothing above a function is in it.
    | true => simp [hfunction] at hst'
    | false =>
      simp only [hfunction, Bool.not_false, if_true, List.mem_cons] at hst'
      refine mem_labels_below hfunction ?_
      rcases hst' with rfl | hst'
      · exact .inl hl
      · exact .inr (ih ⟨st', hst', hl⟩)

end Surroundings

namespace Program

variable {edition : Nat} {tolerant : Bool} {path : List Step} {P : Prop} {n : Node}

/-- What can be jumped to from a node of a program. -/
theorem targets_of_allows {e : Surroundings} (he : e = .start edition tolerant) (h : (e.along path).Allows P n) :
    (n.is .continueStatement → n.label? = none → ∃ st ∈ e.reach path, st.isLoopBody)
    ∧ (n.is .breakStatement → n.label? = none → ∃ st ∈ e.reach path, st.isLoopBody ∨ st.isSwitchBody)
    ∧ (n.is .continueStatement ∨ n.is .breakStatement →
      ∀ l, n.label? = some l → ∃ st ∈ e.reach path, st.label? = some l) := by
  have hloop (hin : (e.along path).inLoop) : ∃ st ∈ e.reach path, st.isLoopBody :=
    (Surroundings.of_along (·.inLoop) (fun _ _ => Surroundings.inLoop_of_below) hin).resolve_left
      (by simp [he, Surroundings.start])
  have hswitch (hin : (e.along path).inSwitch) : ∃ st ∈ e.reach path, st.isSwitchBody :=
    (Surroundings.of_along (·.inSwitch) (fun _ _ => Surroundings.inSwitch_of_below) hin).resolve_left
      (by simp [he, Surroundings.start])
  refine ⟨fun hk hl => hloop (h.continues hk hl), fun hk hl => ?_, fun hk l hl => ?_⟩
  · rcases h.breaks hk hl with hin | hin
    · exact (hloop hin).imp fun _ hst => ⟨hst.1, .inl hst.2⟩
    · exact (hswitch hin).imp fun _ hst => ⟨hst.1, .inr hst.2⟩
  · exact (Surroundings.of_along (fun e => l ∈ e.labels)
      (fun _ _ => Surroundings.mem_labels_of_below) (h.jumps hk l hl)).resolve_left (by simp [he, Surroundings.start])

/-- **Jumps have targets.** Where classes have no blocks, a jump lies in a loop, in a switch or in a
statement with its label, and so that no function is in between. A statement with a label lies in no other
one with the same label in the same function. -/
theorem jump_has_target (e : EntryPoint) (code : Text) (o : OptionList) (p : Program) (year : Nat)
    (hyear : Options.editionOf ((o.get? "ecmaVersion").getD (.nat Options.latest)) = .ok year)
    (hold : year ≤ 2021) (h : run e code o .idle = .ok p) (n : Node) (path : List Step)
    (hn : (Value.node n).Path path p.tree) :
    (n.is .continueStatement → n.label? = none → ∃ st ∈ Step.inFunction path, st.isLoopBody)
    ∧ (n.is .breakStatement → n.label? = none → ∃ st ∈ Step.inFunction path, st.isLoopBody ∨ st.isSwitchBody)
    ∧ (n.is .continueStatement ∨ n.is .breakStatement →
      ∀ l, n.label? = some l → ∃ st ∈ Step.inFunction path, st.label? = some l)
    ∧ (n.is .labeledStatement → ∀ l, n.label? = some l → ∀ st ∈ Step.inFunction path, st.label? ≠ some l) := by
  obtain ⟨edition, hedition, hfits⟩ := fits_of_run h
  obtain rfl : edition = year := Except.ok.inj (hedition.symm.trans hyear)
  have hallows := hfits.allows hn
  have hblocks : (Surroundings.start edition (o.flag "tolerant")).hasBlocks = false :=
    decide_eq_false (by omega)
  have hreach : (Surroundings.start edition (o.flag "tolerant")).reach path = Step.inFunction path := by
    simp only [Surroundings.reach, hblocks, Bool.false_eq_true, if_false]
  obtain ⟨hcontinues, hbreaks, hjumps⟩ := targets_of_allows rfl hallows
  rw [hreach] at hcontinues hbreaks hjumps
  refine ⟨hcontinues, hbreaks, hjumps, fun hk l hl st hst hlabel => ?_⟩
  refine hallows.labels hk (Surroundings.hasBlocks_along.trans hblocks) l hl ?_
  exact Surroundings.mem_labels_along ⟨st, hst, hlabel⟩

/-- A jump out of two loops, to the label of the outer one. -/
theorem jump_has_target_of_loops :
    let o : OptionList := [("ecmaVersion", .nat 2017)]
    let code : Text := "a:while(b)do continue a;while(c)"
    ∃ p path n, run .parse code o .idle = .ok p ∧ (Value.node n).Path path p.tree
      ∧ n.is .continueStatement ∧ n.label? = some "a"
      ∧ ∃ st ∈ Step.inFunction path, st.label? = some "a" := by
  intro o code
  obtain ⟨p, path, n, hrun, hn, htest⟩ := exists_follow .parse code o ["body", "body", "body", "body"]
    (fun _ n => n.is .continueStatement && n.label? == some "a") (by decide) (by decide +kernel)
  obtain ⟨hk, hl⟩ := Bool.and_eq_true_iff.1 htest
  have hlabel := beq_iff_eq.1 hl
  exact ⟨p, path, n, hrun, hn, hk, hlabel,
    (jump_has_target .parse code o p 2017 rfl (by decide) hrun n path hn).2.2.1 (.inl hk) "a" hlabel⟩

/-- **The block of a class** is no boundary. What a jump in such a block jumps to is there or around the
class, and a `return` in such a block needs a function around the class. -/
theorem jump_of_staticBlock (e : EntryPoint) (code : Text) (o : OptionList) (p : Program) (year : Nat)
    (hyear : Options.editionOf ((o.get? "ecmaVersion").getD (.nat Options.latest)) = .ok year)
    (hnew : 2022 ≤ year) (hstrict : o.flag "tolerant" = false) (h : run e code o .idle = .ok p) (n : Node)
    (inner outer : List Step) (block : Step) (hblock : block.node.is .staticBlock)
    (hinner : ∀ st ∈ inner, st.node.isFunction = false)
    (hn : (Value.node n).Path (inner ++ block :: outer) p.tree) :
    (n.is .continueStatement → n.label? = none → (∃ st ∈ inner, st.isLoopBody) ∨ ∃ st ∈ outer, st.isLoopBody)
    ∧ (n.is .breakStatement → n.label? = none → (∃ st ∈ inner, st.isLoopBody ∨ st.isSwitchBody)
      ∨ ∃ st ∈ outer, st.isLoopBody ∨ st.isSwitchBody)
    ∧ (n.is .continueStatement ∨ n.is .breakStatement → ∀ l, n.label? = some l →
      (∃ st ∈ inner, st.label? = some l) ∨ ∃ st ∈ outer, st.label? = some l)
    ∧ (n.is .returnStatement → ∃ st ∈ outer, st.isFunctionBody) := by
  obtain ⟨edition, hedition, hfits⟩ := fits_of_run h
  obtain rfl : edition = year := Except.ok.inj (hedition.symm.trans hyear)
  rw [hstrict] at hfits
  have hallows := hfits.allows hn
  have hblocks : (Surroundings.start edition false).hasBlocks := decide_eq_true hnew
  have hreach : (Surroundings.start edition false).reach (inner ++ block :: outer)
      = inner ++ block :: outer := if_pos hblocks
  -- The block itself is nothing to jump to.
  have hsplit {target : Step → Prop} (htarget : ¬ target block) (hst : ∃ st ∈ inner ++ block :: outer, target st) :
      (∃ st ∈ inner, target st) ∨ ∃ st ∈ outer, target st := by
    obtain ⟨st, hmem, hst⟩ := hst
    rcases List.mem_append.1 hmem with hmem | hmem
    · exact .inl ⟨st, hmem, hst⟩
    · rcases List.mem_cons.1 hmem with rfl | hmem
      · exact absurd hst htarget
      · exact .inr ⟨st, hmem, hst⟩
  have hkind : block.node.kind? = some .staticBlock := beq_iff_eq.1 hblock
  obtain ⟨hcontinues, hbreaks, hjumps⟩ := targets_of_allows rfl hallows
  rw [hreach] at hcontinues hbreaks hjumps
  refine ⟨fun hk hl => hsplit ?_ (hcontinues hk hl), fun hk hl => hsplit ?_ (hbreaks hk hl),
    fun hk l hl => hsplit ?_ (hjumps hk l hl), fun hk => ?_⟩
  · simp [Step.isLoopBody, Node.isLoop, Node.is, hkind]
  · simp [Step.isLoopBody, Step.isSwitchBody, Node.isLoop, Node.is, hkind]
  · simp [Step.label?, Node.is, hkind]
  · have hin := (hallows.returns hk).resolve_left (by simp [Surroundings.lenient_along, Surroundings.start])
    have hbody := (Surroundings.inFunction_of_along hblocks hin).resolve_left (by simp [Surroundings.start])
    refine (hsplit ?_ hbody).resolve_left ?_
    · simp [Step.isFunctionBody, Node.isFunction, Node.is, hkind]
    · rintro ⟨st, hst, hfunction⟩
      simp [Step.isFunctionBody, hinner st hst] at hfunction

/-- A break in the block of a class, with the way to it from the innermost such block on. -/
theorem exists_break_in_staticBlock (code : Text) (o : OptionList) (names : List String) (test : Step → Bool)
    (hplace : ∀ name ∈ names, isPlace name = false)
    (h : (run .parse code o .idle).toOption.any fun p => (p.tree.follow names).any fun found =>
      found.2.is .breakStatement && found.2.label?.isNone
        && (found.1.find? fun st => st.node.is .staticBlock || test st).any (·.node.is .staticBlock)) :
    ∃ p inner block outer n, run .parse code o .idle = .ok p ∧ (Value.node n).Path (inner ++ block :: outer) p.tree
      ∧ block.node.is .staticBlock ∧ (∀ st ∈ inner, test st = false) ∧ n.is .breakStatement ∧ n.label? = none := by
  obtain ⟨p, path, n, hrun, hn, htest⟩ := exists_follow .parse code o names (fun path n => n.is .breakStatement
    && n.label?.isNone && (path.find? fun st => st.node.is .staticBlock || test st).any (·.node.is .staticBlock))
    hplace h
  simp only [Bool.and_eq_true, Option.isNone_iff_eq_none] at htest
  obtain ⟨⟨hk, hl⟩, hsplit⟩ := htest
  obtain ⟨block, hfind, hblock⟩ := (Option.any_eq_true _ _).1 hsplit
  obtain ⟨-, inner, outer, rfl, hinner⟩ := List.find?_eq_some_iff_append.1 hfind
  refine ⟨p, inner, block, outer, n, hrun, hn, hblock, fun st hst => ?_, hk, hl⟩
  have hst := hinner st hst
  simp only [Bool.not_or, Bool.and_eq_true, Bool.not_eq_true'] at hst
  exact hst.2

/-- A break out of a switch in the block of a class. -/
theorem jump_of_staticBlock_of_switch :
    let o : OptionList := [("ecmaVersion", .nat 2022)]
    let code : Text := "class A\x7bstatic\x7bswitch(b)\x7bcase 1:break\x7d\x7d\x7d"
    ∃ p inner block outer n, run .parse code o .idle = .ok p
      ∧ (Value.node n).Path (inner ++ block :: outer) p.tree ∧ block.node.is .staticBlock
      ∧ (∀ st ∈ inner, st.node.isFunction = false) ∧ n.is .breakStatement ∧ n.label? = none
      ∧ ((∃ st ∈ inner, st.isLoopBody ∨ st.isSwitchBody) ∨ ∃ st ∈ outer, st.isLoopBody ∨ st.isSwitchBody) := by
  intro o code
  obtain ⟨p, inner, block, outer, n, hrun, hn, hblock, hinner, hk, hl⟩ := exists_break_in_staticBlock code o
    ["body", "body", "body", "body", "body", "cases", "consequent"] (·.node.isFunction) (by decide) (by decide +kernel)
  exact ⟨p, inner, block, outer, n, hrun, hn, hblock, hinner, hk, hl,
    (jump_of_staticBlock .parse code o p 2022 rfl (by decide) (by decide) hrun n inner outer block hblock
      hinner hn).2.1 hk hl⟩

/-- A block of a class that breaks out of a loop around the class. -/
theorem staticBlock_leaves_loop :
    let o : OptionList := [("ecmaVersion", .nat 2022)]
    let code : Text := "for(;;)\x7bclass A\x7bstatic\x7bbreak\x7d\x7d\x7d"
    ∃ p inner block outer n, run .parse code o .idle = .ok p
      ∧ (Value.node n).Path (inner ++ block :: outer) p.tree ∧ block.node.is .staticBlock
      ∧ (∀ st ∈ inner, (st.node.isFunction || st.isLoopBody || st.isSwitchBody) = false)
      ∧ n.is .breakStatement ∧ n.label? = none := by
  intro o code
  exact exists_break_in_staticBlock code o ["body", "body", "body", "body", "body", "body", "body"]
    (fun st => st.node.isFunction || st.isLoopBody || st.isSwitchBody) (by decide) (by decide +kernel)

end Program

end EcmaSyntax
