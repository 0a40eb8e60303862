import EcmaSyntax.Proofs.Finishing

/-!
# Elements of markup

The tags of an element are read in a loop, with a stack of the elements that are open. Every element that
is finished is closed, by itself or by a tag with its name, and no tag that opens an element is lost
(`Balanced`); where the source ends too early, the outermost element is finished as it is, and the tags on
the stack are lost (`Event.Breaks`). This holds of the log of all productions, since elements are read by
`Grammar.element` only (`RunProperty.elements`), and so of every program (`Program.elements_closed`).
-/

namespace EcmaSyntax

open Parse Grammar

/-! ### Elements that are closed -/

namespace ElementParts

/-- An element closes itself and has nothing in it, or is closed by a tag with the name of the one that
opens it. -/
inductive Closed : ElementParts → Prop
  | byItself {tag : Node} : tag.is .jsxOpeningElement → tag.has "selfClosing" → Closed ⟨.node tag, .list [], .null⟩
  | byTag {tag closing : Node} {children : Value} : tag.is .jsxOpeningElement →
    tag.has "selfClosing" = false → closing.is .jsxClosingElement →
    qualifiedName (tag.get "name") = qualifiedName (closing.get "name") →
    Closed ⟨.node tag, children, .node closing⟩

/-- An element does not close itself, and no tag closes it. -/
inductive Unclosed : ElementParts → Prop
  | intro {tag : Node} {children : Value} : tag.is .jsxOpeningElement → tag.has "selfClosing" = false →
    Unclosed ⟨.node tag, children, .null⟩

theorem Unclosed.closing {p : ElementParts} (h : p.Unclosed) : p.closing = .null := by
  cases h
  rfl

/-- An element that does not close itself is closed by a tag. -/
theorem Closed.closing_ne_null {p : ElementParts} (h : p.Closed)
    (hself : p.opening.asNode?.any fun tag => !tag.has "selfClosing") : p.closing.isNull = false := by
  cases h with
  | byItself _ hhas => simp [hhas, Value.node, Value.asNode?] at hself
  | byTag => rfl

end ElementParts

/-- Is an element of markup finished? -/
def Event.isElement (e : Event) : Bool := !e.isComment && e.given.is .jsxElement

theorem Event.is_of_isElement {e : Event} (h : e.isElement) : e.given.is .jsxElement :=
  (Bool.and_eq_true_iff.1 h).2

/-- An element is finished that is not closed, at the end of the source. -/
structure Event.Breaks (src : Source) (e : Event) : Prop where
  element : e.isElement
  unclosed : e.given.elementParts.Unclosed
  last : src.size ≤ e.span.last.index

/-- The elements of a part of the log are closed, and each tag that opens an element is part of one, or
still pending; or the source ends too early. -/
structure Balanced (src : Source) (pending : List Node) (es : List Event) : Prop where
  closed : ∀ e ∈ es, e.isElement → e.given.elementParts.Closed ∨ e.Breaks src
  taken : ∀ e ∈ es, e.given.is .jsxOpeningElement → e.given ∈ pending
    ∨ ∃ e' ∈ es, e'.isElement ∧ (e'.given.get "openingElement" = .node e.given ∨ e'.Breaks src)

theorem Node.isElemental_eq (n : Node) : n.isElemental = (n.is .jsxElement || n.is .jsxOpeningElement) := by
  unfold isElemental is
  cases n.kind? with
  | none => rfl
  | some k => rfl

namespace Balanced

variable {src : Source} {pending pending' : List Node} {es es' : List Event} {e : Event}

theorem nil : Balanced src [] [] := ⟨List.forall_mem_nil _, List.forall_mem_nil _⟩

theorem append (h : Balanced src pending es) (h' : Balanced src pending' es') :
    Balanced src (pending ++ pending') (es ++ es') := by
  constructor
  · intro e he
    rcases List.mem_append.1 he with he | he
    · exact h.closed e he
    · exact h'.closed e he
  · intro e he htag
    rcases List.mem_append.1 he with he | he
    · rcases h.taken e he htag with hmem | ⟨e', he', htaken⟩
      · exact .inl (List.mem_append_left _ hmem)
      · exact .inr ⟨e', List.mem_append_left _ he', htaken⟩
    · rcases h'.taken e he htag with hmem | ⟨e', he', htaken⟩
      · exact .inl (List.mem_append_right _ hmem)
      · exact .inr ⟨e', List.mem_append_right _ he', htaken⟩

theorem mono (h : Balanced src pending es) (hsub : pending ⊆ pending') : Balanced src pending' es :=
  ⟨h.closed, fun e he htag => (h.taken e he htag).imp_left fun hmem => hsub hmem⟩

theorem common (he : e.given.isElemental = false) : Balanced src [] [e] := by
  rw [Node.isElemental_eq, Bool.or_eq_false_iff] at he
  refine ⟨List.forall_mem_singleton.2 fun h => ?_, List.forall_mem_singleton.2 fun h => ?_⟩
  · have h := Event.is_of_isElement h
    rw [he.1] at h
    cases h
  · rw [he.2] at h
    cases h

theorem pass (h : Balanced src pending es) (he : e.given.isElemental = false) : Balanced src pending (es ++ [e]) :=
  (h.append (.common he)).mono (by simp)

/-- A tag that opens an element is pending. -/
theorem opens (h : Balanced src pending es) (he : e.given.is .jsxElement = false) :
    Balanced src (e.given :: pending) (es ++ [e]) := by
  have hevent : Balanced src [e.given] [e] := by
    refine ⟨List.forall_mem_singleton.2 fun h => ?_, List.forall_mem_singleton.2 fun _ => ?_⟩
    · have h := Event.is_of_isElement h
      rw [he] at h
      cases h
    · exact .inl List.mem_cons_self
  exact (h.append hevent).mono (by simp)

/-- A finished element has a tag that was pending. -/
theorem close (h : Balanced src (tag :: pending) es) (he : e.isElement)
    (hclosed : e.given.elementParts.Closed) (htag : e.given.get "openingElement" = .node tag) :
    Balanced src pending (es ++ [e]) := by
  have hkind : e.given.is .jsxOpeningElement = false := by
    rw [Node.is, beq_iff_eq.1 (Event.is_of_isElement he)]
    rfl
  constructor
  · refine List.forall_mem_append.2 ⟨h.closed, List.forall_mem_singleton.2 fun _ => .inl hclosed⟩
  · refine List.forall_mem_append.2 ⟨fun d hd hopens => ?_, List.forall_mem_singleton.2 fun hopens => ?_⟩
    · rcases h.taken d hd hopens with hmem | ⟨e', he', htaken⟩
      · rcases List.mem_cons.1 hmem with heq | hmem
        · exact .inr ⟨e, List.mem_append_right _ List.mem_cons_self, he, .inl (heq ▸ htag)⟩
        · exact .inl hmem
      · exact .inr ⟨e', List.mem_append_left _ he', htaken⟩
    · rw [hkind] at hopens
      cases hopens

/-- At the end of the source, nothing is pending any more. -/
theorem breaks (h : Balanced src pending es) (he : e.Breaks src) : Balanced src pending' (es ++ [e]) := by
  have hmem : e ∈ es ++ [e] := List.mem_append_right _ List.mem_cons_self
  constructor
  · exact List.forall_mem_append.2 ⟨h.closed, List.forall_mem_singleton.2 fun _ => .inr he⟩
  · exact fun _ _ _ => .inr ⟨e, hmem, he.element, .inr he⟩

end Balanced

theorem Grown.balanced (h : Grown es es') : ∃ added, es'.toList = es.toList ++ added ∧ Balanced src [] added := by
  induction h with
  | refl => exact ⟨[], (List.append_nil _).symm, .nil⟩
  | @push es' isComment n span _ _ hcommon ih =>
    obtain ⟨added, hadded, hbalanced⟩ := ih
    have hevent : (Event.make .idle es'.size isComment n span).given.isElemental = false := hcommon
    refine ⟨added ++ [_], ?_, hbalanced.append (.common hevent)⟩
    rw [Array.toList_push, hadded, List.append_assoc]

/-! ### Runs -/

/-- A run has added events that are balanced, up to the tags that are pending. -/
structure Adds (c : ParseSetting) (pending : List Node) (s t : ParseState) : Prop where
  formed : Formed c t
  added : ∃ es, t.events.toList = s.events.toList ++ es ∧ Balanced c.source pending es

/-- The event at which a node is finished next. -/
def ParseState.finishing (s : ParseState) (start : Mark) (n : Node) : Event :=
  .make .idle s.events.size false n ⟨start, s.lastMark⟩

namespace Adds

variable {c : ParseSetting} {s t u : ParseState} {pending pending' : List Node} {γ : Type} {p : Parse γ}

theorem refl (h : Formed c s) : Adds c [] s s := ⟨h, [], (List.append_nil _).symm, .nil⟩

theorem trans (h : Adds c pending s t) (h' : Adds c [] t u) : Adds c pending s u := by
  obtain ⟨es, hes, hbalanced⟩ := h.added
  obtain ⟨es', hes', hbalanced'⟩ := h'.added
  refine ⟨h'.formed, es ++ es', by rw [hes', hes, List.append_assoc], ?_⟩
  exact List.append_nil pending ▸ hbalanced.append hbalanced'

/-- What a step does that finishes no element and no tag that opens one. -/
theorem ensures (h : Adds c pending s t) (hp : Orderly p) : Ensures p c t fun _ u => Adds c pending s u :=
  (hp.ensures_grown h.formed.idle).mono fun _ _ hg =>
    h.trans ⟨⟨h.formed.idle, hg.loggable h.formed.loggable⟩, hg.balanced⟩

theorem ensures_finish [hn : Composed n ks parts] (h : Adds c pending s t)
    (hbalanced : ∀ {es}, Balanced c.source pending es → Balanced c.source pending' (es ++ [t.finishing start n])) :
    Ensures (finish start n) c t fun n' u => n' = (t.finishing start n).given ∧ Adds c pending' s u
      ∧ u.lastMark = t.lastMark ∧ u.scan = t.scan := by
  have hformed : Ensures (finish start n) c t fun _ u => Formed c u :=
    h.formed.ensures_finish (Derives.loggable_of_made hn)
  obtain ⟨es, hes, hbefore⟩ := h.added
  simp only [Ensures.step_iff, h.formed.idle] at hformed ⊢
  refine ⟨rfl, ⟨hformed, es ++ [t.finishing start n], ?_, hbalanced hbefore⟩, trivial, trivial⟩
  change (t.events.push (t.finishing start n)).toList = _
  rw [Array.toList_push, hes, List.append_assoc]

end Adds

/-- A run that refuses errors adds events that are balanced. -/
def StepProperty.elements : StepProperty where
  Holds p c s := c.tolerant = false → Formed c s → Ensures p c s fun _ t => Adds c [] s t
  primitive hp _ _ h := (Adds.refl h).ensures hp.orderly
  bind {_ _ _ _ c _} hp hf hstrict h := .seq fun x t hx => by
    have ht : Adds c [] _ t := hp hstrict h x t hx
    exact (hf x t ⟨c.tolerant, hx⟩ hstrict ht.formed).mono fun _ _ hu => ht.trans hu
  read _ h := h

/-! ### Tags -/

/-- A token of markup ends where the cursor is. -/
theorem Parse.ensures_expectMarkup_last :
    Ensures (Grammar.expectMarkup mark) c s fun _ t => t.lastMark = t.scan.cursor.mark := by
  unfold Grammar.expectMarkup nextMarkup markToken
  simp only [bind_assoc]
  refine .anyway fun _ _ => .anyway fun _ _ => .anyway fun token t => ?_
  simp only [Ensures.bind_iff, Ensures.step_iff]
  split
  · exact .pure rfl
  · exact ensures_unexpected

namespace Adds

variable {c : ParseSetting} {s t u : ParseState} {pending pending' : List Node} {γ : Type} {p : Parse γ}

theorem walk (h : Adds c pending s t) (hp : StepProperty.elements.Walks p) (hstrict : c.tolerant = false) :
    Ensures p c t fun _ u => Adds c pending s u :=
  (hp.along c t h.formed hstrict h.formed).mono fun _ _ ht => h.trans ht

/-- So far as the cursor, with the last token. -/
theorem ensures_expectMarkup (h : Adds c pending s t) :
    Ensures (Grammar.expectMarkup mark) c t fun _ u => Adds c pending s u ∧ u.lastMark = u.scan.cursor.mark :=
  (h.ensures inferInstance).and ensures_expectMarkup_last

variable {r : Recur}

theorem ensures_openingRest (h : Adds c pending s t) (hstrict : c.tolerant = false)
    (hname : StepProperty.elements.Walks elementName) (hattributes : StepProperty.elements.Walks (attributes r)) :
    Ensures (openingRest r start) c t fun tag u => tag.is .jsxOpeningElement ∧ Adds c (tag :: pending) s u
      ∧ u.lastMark = u.scan.cursor.mark := by
  refine (h.walk hname hstrict).bind fun name t h => (h.walk hattributes hstrict).bind fun attributes t h =>
    (h.ensures inferInstance).bind fun selfClosing t h => ?_
  have hfinish {t : ParseState} (h : Adds c pending s t) :
      Ensures (expectMarkup ">" >>= fun _ => finish start (.jsxOpeningElement name selfClosing attributes)) c t
        fun tag u => tag.is .jsxOpeningElement ∧ Adds c (tag :: pending) s u ∧ u.lastMark = u.scan.cursor.mark := by
    refine h.ensures_expectMarkup.bind fun _ t ⟨h, hlast⟩ => ?_
    refine (h.ensures_finish fun hbefore => hbefore.opens rfl).mono ?_
    rintro _ u ⟨rfl, hu, hmark, hscan⟩
    exact ⟨rfl, hu, by rw [hmark, hscan, hlast]⟩
  split
  · exact (h.ensures inferInstance).bind fun _ t h => hfinish h
  · exact hfinish h

theorem ensures_boundaryElement (h : Adds c pending s t) (hstrict : c.tolerant = false)
    (hname : StepProperty.elements.Walks elementName) (hattributes : StepProperty.elements.Walks (attributes r)) :
    Ensures (boundaryElement r) c t fun tag u => u.lastMark = u.scan.cursor.mark
      ∧ (tag.is .jsxOpeningElement ∧ Adds c (tag :: pending) s u
        ∨ tag.is .jsxClosingElement ∧ Adds c pending s u) := by
  refine (h.ensures inferInstance).bind fun start t h => (h.ensures inferInstance).bind fun _ t h =>
    (h.ensures inferInstance).bind fun isClosing t h => ?_
  split
  · refine (h.ensures inferInstance).bind fun _ t h => (h.walk hname hstrict).bind fun name t h =>
      h.ensures_expectMarkup.bind fun _ t ⟨h, hlast⟩ => ?_
    refine (h.ensures_finish fun hbefore => hbefore.pass rfl).mono ?_
    rintro _ u ⟨rfl, hu, hmark, hscan⟩
    exact ⟨by rw [hmark, hscan, hlast], .inr ⟨rfl, hu⟩⟩
  · refine (h.ensures_openingRest hstrict hname hattributes).mono ?_
    rintro tag u ⟨htag, hu, hlast⟩
    exact ⟨hlast, .inl ⟨htag, hu⟩⟩

end Adds

/-! ### Elements -/

namespace Adds

variable {c : ParseSetting} {s t : ParseState} {pending pending' : List Node} {start : Mark} {tag : Node}
  {children closing : Value}

theorem ensures_finish_closed (h : Adds c (tag :: pending) s t)
    (hclosed : ElementParts.Closed ⟨.node tag, children, closing⟩) :
    Ensures (finish start (.jsxElement tag children closing)) c t fun _ u => Adds c pending s u
      ∧ (t.lastMark = t.scan.cursor.mark → u.lastMark = u.scan.cursor.mark) := by
  have hparts : (t.finishing start (.jsxElement tag children closing)).given.elementParts.Closed := hclosed
  refine (h.ensures_finish fun hbefore => hbefore.close rfl hparts rfl).mono ?_
  rintro _ u ⟨-, hu, hmark, hscan⟩
  exact ⟨hu, fun hlast => by rw [hmark, hscan, hlast]⟩

theorem ensures_finish_cut (h : Adds c pending s t)
    (hunclosed : ElementParts.Unclosed ⟨.node tag, children, closing⟩) (hlast : c.source.size ≤ t.lastMark.index) :
    Ensures (finish start (.jsxElement tag children closing)) c t fun _ u => Adds c pending' s u := by
  have hbreaks : (t.finishing start (.jsxElement tag children closing)).Breaks c.source :=
    ⟨rfl, hunclosed, hlast⟩
  exact (h.ensures_finish fun hbefore => hbefore.breaks hbreaks).mono fun _ _ hu => hu.2.1

end Adds

/-- The closing tag of an element is yet to come. -/
structure Grammar.OpenElement.Awaits (e : OpenElement) : Prop where
  opening : e.opening.is .jsxOpeningElement
  tag : e.opening.has "selfClosing" = false
  closing : e.closing = none

/-- The elements on the stack await their tags, the outermost one at the bottom. -/
structure Stacked (c : ParseSetting) (s t : ParseState) (outermost : Node) (e : OpenElement)
    (outer : List OpenElement) : Prop where
  last : t.lastMark = t.scan.cursor.mark
  adds : Adds c ((e :: outer).map OpenElement.opening) s t
  bottom : ((e :: outer).map OpenElement.opening).getLast? = some outermost
  awaits : ∀ x ∈ e :: outer, x.Awaits

/-- How the outermost element ends: with a tag that closes it, or where the source ends. -/
inductive Ended (c : ParseSetting) (s t : ParseState) (outermost : Node) (e : OpenElement) : Prop
  | closed {tag : Node} : e.closing = some tag → tag.is .jsxClosingElement →
    qualifiedName (outermost.get "name") = qualifiedName (tag.get "name") → Adds c [outermost] s t →
    Ended c s t outermost e
  | cut {pending : List Node} : e.closing = none → c.source.size ≤ t.lastMark.index → Adds c pending s t →
    Ended c s t outermost e

namespace Stacked

variable {c : ParseSetting} {s t u : ParseState} {outermost tag : Node} {e parent : OpenElement}
  {outer : List OpenElement} {start : Mark} {children : List Node}

theorem add (h : Stacked c s t outermost e outer) (hlast : u.lastMark = u.scan.cursor.mark)
    (hadds : Adds c ((e :: outer).map OpenElement.opening) s u) :
    Stacked c s u outermost (e.add children) outer where
  last := hlast
  adds := hadds
  bottom := h.bottom
  awaits := by
    refine List.forall_mem_cons.2 ⟨?_, fun x hx => h.awaits x (List.mem_cons_of_mem _ hx)⟩
    have he : e.Awaits := h.awaits e List.mem_cons_self
    exact ⟨he.opening, he.tag, he.closing⟩

/-- A tag opens another element. -/
theorem push (h : Stacked c s t outermost e outer) (hlast : u.lastMark = u.scan.cursor.mark)
    (hadds : Adds c (tag :: (e :: outer).map OpenElement.opening) s u) (htag : tag.is .jsxOpeningElement)
    (hself : tag.has "selfClosing" = false) :
    Stacked c s u outermost ⟨start, tag, [], none⟩ (e :: outer) where
  last := hlast
  adds := hadds
  bottom := by
    exact h.bottom
  awaits := List.forall_mem_cons.2 ⟨⟨htag, hself, rfl⟩, h.awaits⟩

/-- The element around the innermost one is the innermost one. -/
theorem pop (h : Stacked c s t outermost e (parent :: outer)) (hlast : u.lastMark = u.scan.cursor.mark)
    (hadds : Adds c ((parent :: outer).map OpenElement.opening) s u) :
    Stacked c s u outermost (parent.add children) outer := by
  have hparent : Stacked c s u outermost parent outer :=
    { last := hlast
      adds := hadds
      bottom := by
        have hbottom := h.bottom
        rwa [List.map_cons, List.map_cons, List.getLast?_cons_cons] at hbottom
      awaits := fun x hx => h.awaits x (List.mem_cons_of_mem _ hx) }
  exact hparent.add hlast hadds

end Stacked

section

variable {c : ParseSetting} {s t : ParseState} {r : Recur} (hstrict : c.tolerant = false)
  (hname : StepProperty.elements.Walks elementName) (hattributes : StepProperty.elements.Walks (attributes r))
  (hchildren : StepProperty.elements.Walks (markupChildren r))

include hstrict hname hattributes hchildren

theorem Stacked.ensures_elementRest (h : Stacked c s t e.opening e []) :
    Ensures (elementRest r e) c t fun e' u => Ended c s u e.opening e' := by
  refine Ensures.rounds (I := fun (x : OpenElement × List OpenElement) t =>
    Stacked c s t e.opening x.1 x.2) ?_ _ _ t h
  rintro ⟨x, outer⟩ t h
  rw [Ensures.bind_iff, Ensures.scan_iff, Ensures.step_iff]
  dsimp only
  have hx : x.Awaits := h.awaits x List.mem_cons_self
  split
  · next hend =>
    refine .pure (.cut hx.closing ?_ h.adds)
    rw [h.last]
    exact of_decide_eq_true hend
  refine (h.adds.walk hchildren hstrict).bind fun children u hu =>
    (hu.ensures inferInstance).bind fun start u hu =>
      (hu.ensures_boundaryElement hstrict hname hattributes).bind fun tag v hv => ?_
  obtain ⟨hlast, htag⟩ := hv
  split
  · next hopens =>
    have hadds : Adds c (tag :: (x :: outer).map OpenElement.opening) s v := by
      refine htag.elim And.right fun hcloses => ?_
      rw [Node.is, beq_iff_eq.1 hcloses.1] at hopens
      cases hopens
    split
    · next hself =>
      refine (hadds.ensures_finish_closed (.byItself hopens hself)).bind ?_
      rintro child w ⟨hw, hmark⟩
      have hx : Stacked c s w e.opening (x.add children) outer := h.add (hmark hlast) hw
      exact .pure (hx.add (hmark hlast) hw)
    · next hself =>
      have hx : Stacked c s t e.opening (x.add children) outer := h.add h.last h.adds
      exact .pure (hx.push hlast hadds hopens (eq_false_of_ne_true hself))
  next hopens =>
  obtain ⟨hcloses, hadds⟩ : tag.is .jsxClosingElement ∧ Adds c ((x :: outer).map OpenElement.opening) s v :=
    htag.resolve_left fun htag => hopens htag.1
  rw [if_pos hcloses]
  split
  · next hnames =>
    cases outer with
    | nil =>
      have houtermost : x.opening = e.opening := Option.some.inj h.bottom
      exact .pure (.closed rfl hcloses (houtermost ▸ hnames) (houtermost ▸ hadds))
    | cons parent outer =>
      refine (hadds.ensures_finish_closed (.byTag hx.opening hx.tag hcloses hnames)).bind ?_
      rintro child w ⟨hw, hmark⟩
      exact .pure (h.pop (hmark hlast) hw)
  · refine ensures_tolerate.bind fun _ _ ht => ?_
    rw [hstrict] at ht
    cases ht.1

theorem Adds.ensures_element (h : Adds c [] s t) : Ensures (element r) c t fun _ u => Adds c [] s u := by
  unfold element openingElement
  simp only [bind_assoc]
  refine (h.ensures inferInstance).bind fun start t h => (h.ensures inferInstance).bind fun _ t h =>
    (h.ensures inferInstance).bind fun _ t h =>
      (h.ensures_openingRest hstrict hname hattributes).bind fun tag t ht => ?_
  obtain ⟨htag, h, hlast⟩ := ht
  split
  · next hself => exact (h.ensures_finish_closed (.byItself htag hself)).mono fun _ _ hu => hu.1
  · next hself =>
    have hself := eq_false_of_ne_true hself
    have hstacked : Stacked c s t tag ⟨start, tag, [], none⟩ [] :=
      ⟨hlast, h, rfl, List.forall_mem_singleton.2 ⟨htag, hself, rfl⟩⟩
    refine (hstacked.ensures_elementRest hstrict hname hattributes hchildren).bind fun e u hu => ?_
    cases hu with
    | closed hclosing hcloses hnames hu =>
      rw [hclosing]
      exact (hu.ensures_finish_closed (.byTag htag hself hcloses hnames)).mono fun _ _ hv => hv.1
    | cut hclosing hend hu =>
      rw [hclosing]
      exact hu.ensures_finish_cut ⟨htag, hself⟩ hend

end

/-- What is read without errors is balanced. -/
def RunProperty.elements : RunProperty :=
  { StepProperty.elements with
    element := fun hname hattributes hchildren _ _ _ hstrict h =>
      (Adds.refl h).ensures_element hstrict hname hattributes hchildren }

/-! ### Elements in a report -/

namespace Grammar

theorem qualifiedName_find? (name : String) (fields : List (String × Value)) :
    qualifiedName.find? name fields = (fields.lookup name).map qualifiedName := by
  induction fields with
  | nil => rfl
  | cons f fields ih =>
    rw [qualifiedName.find?, Node.lookup_cons_eq, ih]
    by_cases h : f.1 = name
    · rw [if_pos h, if_pos h.symm]
      rfl
    · rw [if_neg h, if_neg (Ne.symm h)]

theorem qualifiedName_get (n : Node) (name : String) :
    ((qualifiedName.find? name n.extra).or (qualifiedName.find? name n.fields)).getD []
      = qualifiedName (n.get name) := by
  rw [qualifiedName_find?, qualifiedName_find?, Node.get]
  cases n.extra.lookup name with
  | some v => rfl
  | none => cases n.fields.lookup name <;> rfl

theorem qualifiedName_node (n : Node) : qualifiedName (.node n) = match n.kind? with
    | some .jsxIdentifier => n.textOf "name"
    | some .jsxNamespacedName =>
      qualifiedName (n.get "namespace") ++ Text.ofString ":" ++ qualifiedName (n.get "name")
    | some .jsxMemberExpression =>
      qualifiedName (n.get "object") ++ Text.ofString "." ++ qualifiedName (n.get "property")
    | _ => [] := by
  simp only [← qualifiedName_get]
  rfl

end Grammar

namespace Report

variable {r : Report}

theorem qualifiedName_dress (h : (Value.node n).Neat)
    (hreveal : ∀ key, qualifiedName (r.reveal (n.get key)) = qualifiedName (n.get key)) :
    qualifiedName (.node (r.dress n)) = qualifiedName (.node n) := by
  have hget (key : String) (hkey : key ∉ addedNames) :
      qualifiedName ((r.dress n).get key) = qualifiedName (n.get key) := by
    rw [get_dress_own h.tidy hkey, hreveal]
  rw [qualifiedName_node, qualifiedName_node, kind?_dress h, textOf_dress h (by decide),
    hget _ (by decide), hget _ (by decide), hget _ (by decide), hget _ (by decide)]

/-- A name is the same in a report. -/
theorem qualifiedName_reveal : ∀ v : Value, v.Neat → qualifiedName (r.reveal v) = qualifiedName v
  | .object form serial span fields extra, h => by
    rw [reveal_object h]
    have h : (Value.node ⟨form, serial, span, fields, extra⟩).Neat := h
    exact qualifiedName_dress h fun key => qualifiedName_reveal _ (h.get key)
  | .null, _ | .bool _, _ | .int _, _ | .float _, _ | .text _, _ | .list _, _ | .dict _, _ | .kind _, _
  | .pattern _, _ | .ref _, _ => by simp only [reveal, qualifiedName]
termination_by v => sizeOf v
decreasing_by exact Node.sizeOf_get_lt _ key

end Report

namespace ElementParts

/-- The parts of an element as they are reported. -/
def reveal (r : Report) (p : ElementParts) : ElementParts :=
  ⟨r.reveal p.opening, r.reveal p.children, r.reveal p.closing⟩

variable {r : Report} {p : ElementParts}

theorem Closed.reveal (h : p.Closed) (hopening : p.opening.Neat) (hclosing : p.closing.Neat) :
    (p.reveal r).Closed := by
  cases h with
  | @byItself tag htag hself =>
    have hparts : ElementParts.reveal r ⟨.node tag, .list [], .null⟩ = ⟨.node (r.dress tag), .list [], .null⟩ := by
      simp only [ElementParts.reveal, Report.reveal_tidy hopening.tidy, Report.reveal, Report.revealAll]
    rw [hparts]
    exact .byItself ((Report.is_dress hopening _).trans htag) ((Report.has_dress hopening (by decide)).trans hself)
  | @byTag tag closing children htag hself hcloses hnames =>
    have hparts : ElementParts.reveal r ⟨.node tag, children, .node closing⟩
        = ⟨.node (r.dress tag), r.reveal children, .node (r.dress closing)⟩ := by
      simp only [ElementParts.reveal, Report.reveal_tidy hopening.tidy, Report.reveal_tidy hclosing.tidy]
    rw [hparts]
    refine .byTag ((Report.is_dress hopening _).trans htag)
      ((Report.has_dress hopening (by decide)).trans hself) ((Report.is_dress hclosing _).trans hcloses) ?_
    rw [Report.get_dress_own hopening.tidy (by decide), Report.get_dress_own hclosing.tidy (by decide),
      Report.qualifiedName_reveal _ (hopening.get _), Report.qualifiedName_reveal _ (hclosing.get _), hnames]

theorem Unclosed.reveal (h : p.Unclosed) (hopening : p.opening.Neat) : (p.reveal r).Unclosed := by
  obtain ⟨htag, hself⟩ := h
  simp only [ElementParts.reveal, Report.reveal_tidy hopening.tidy, Report.reveal]
  exact ⟨(Report.is_dress hopening _).trans htag, (Report.has_dress hopening (by decide)).trans hself⟩

end ElementParts

/-- The event of an element shows its parts. -/
theorem LogMoment.Shows.element {w : LogMoment} {n : Node} {e : Event}
    (h : w.Shows (n.stamp sp) k e) (hn : n.is .jsxElement) :
    e.isElement ∧ e.given.elementParts = n.elementParts := by
  have hparts := congrArg Stamp.element h.stamp
  simp only [hn, if_true] at hparts
  split at hparts
  · next hgiven => exact ⟨by rw [Event.isElement, h.node, hgiven]; rfl, Option.some.inj hparts⟩
  · cases hparts

theorem Report.Shows.elementParts {r : Report} {n m : Node} (h : r.Shows n m) (hn : n.Tidy) :
    m.elementParts = n.elementParts.reveal r := by
  simp only [Node.elementParts, ElementParts.reveal]
  rw [h.get _ (by decide), h.get _ (by decide), h.get _ (by decide), get_dress_own hn (by decide),
    get_dress_own hn (by decide), get_dress_own hn (by decide)]

namespace Program

/-- **Elements are closed**, by themselves or by a tag with their name, unless the source ends too early. No
tag that opens an element is lost, unless the source ends too early: an element with that tag is
finished. -/
theorem elements_closed (e : EntryPoint) (code : Text) (o : OptionList) (p : Program)
    (hstrict : o.flag "tolerant" = false) (h : run e code o .idle = .ok p) :
    (∀ n, (Value.node n).Part p.tree → n.is .jsxElement → n.elementParts.Closed ∨ n.elementParts.Unclosed
        ∧ ∃ ev ∈ p.events, ev.Breaks (.ofText code) ∧ ev.given.serial = n.serial)
    ∧ ∀ ev ∈ p.events, ev.given.is .jsxOpeningElement → ∃ ev' ∈ p.events, ev'.isElement
        ∧ (ev'.given.get "openingElement" = .node ev.given ∨ ev'.Breaks (.ofText code)) := by
  obtain ⟨b, n₀, s, a, w, r, keep, ⟨htolerant, hread, hlog⟩, hholds, -, hevents, hkeep, -, hshows⟩ := log_of_run h
  have hformed : Formed (setting (.ofText code) b .idle) (.start (.ofText code)) :=
    ⟨rfl, fun ev hev => absurd hev (Array.not_mem_empty ev)⟩
  have hbalanced : Balanced (.ofText code) [] w.events := by
    obtain ⟨es, hes, hbalanced⟩ := (along_program RunProperty.elements b.isModule _ _ hformed
      (htolerant.trans hstrict) hformed n₀ s hread).added
    rw [hlog, hes]
    exact hbalanced
  have hkept {ev : Event} (hev : ev.isElement) : keep ev :=
    hkeep ev (by simpa using (Bool.and_eq_true_iff.1 hev).1)
  refine ⟨fun n hn helement => ?_, fun ev hev hopens => ?_⟩
  · have hsome : n.kind?.isSome := by rw [beq_iff_eq.1 helement]; rfl
    obtain ⟨k, hk, hnk⟩ := hshows n hn hsome
    obtain ⟨a', c, -, hc, hheld⟩ := hholds.part hk
    have hneat : (Value.node k).Neat := fun k' hk' => hheld.tidy hk'
    have hkind : n.kind? = k.kind? := hnk.kind?_eq hneat
    have helement : k.is .jsxElement := by rwa [Node.is, hkind] at helement
    rcases hheld.event (hkind ▸ hsome) with ⟨-, -, hdraft⟩ | ⟨sp, i, ev, -, hev⟩
    · simp [Node.is, beq_iff_eq.1 helement] at hdraft
    obtain ⟨hevent, hparts⟩ := hev.element helement
    have hmem : ev ∈ w.events := List.mem_of_getElem? (hev.mono hc.1 hc.2).event
    rw [hnk.elementParts hneat.tidy, ← hparts]
    have hopening : ev.given.elementParts.opening.Neat := hparts ▸ hneat.get "openingElement"
    have hclosing : ev.given.elementParts.closing.Neat := hparts ▸ hneat.get "closingElement"
    refine (hbalanced.closed ev hmem hevent).imp (fun hclosed => hclosed.reveal hopening hclosing) fun hbreaks => ?_
    refine ⟨hbreaks.unclosed.reveal hopening, ev, ?_, hbreaks, ?_⟩
    · rw [hevents]
      exact List.mem_filter.2 ⟨hmem, hkept hevent⟩
    · exact (congrArg Stamp.serial hev.stamp).trans hnk.serial.symm
  · rw [hevents] at hev ⊢
    rcases hbalanced.taken ev (List.mem_filter.1 hev).1 hopens with hmem | ⟨ev', hev', htaken⟩
    · cases hmem
    · exact ⟨ev', List.mem_filter.2 ⟨hev', hkept htaken.1⟩, htaken⟩

theorem elements_closed_of_nested :
    let o : OptionList := [("jsx", .bool true)]
    let code : Text := "<a.b><c/></a.b>"
    ∃ p n, run .parse code o .idle = .ok p ∧ p.tree.firstExpression = some n ∧ n.is .jsxElement
      ∧ n.elementParts.Closed ∧ ∀ ev ∈ p.events, ev.given.is .jsxOpeningElement → ∃ ev' ∈ p.events, ev'.isElement
          ∧ (ev'.given.get "openingElement" = .node ev.given ∨ ev'.Breaks (.ofText code)) := by
  intro o code
  obtain ⟨p, n, hrun, hn, htest⟩ := exists_firstExpression .parse code o
    (fun n => n.is .jsxElement && (n.get "closingElement").asNode?.isSome) (by decide +kernel)
  obtain ⟨helement, hclosing⟩ := Bool.and_eq_true_iff.1 htest
  obtain ⟨hclosed, htaken⟩ := elements_closed .parse code o p (by decide) hrun
  refine ⟨p, n, hrun, hn, helement, ?_, htaken⟩
  refine (hclosed n (.of_firstExpression hn) helement).resolve_right fun hunclosed => ?_
  have hnull : n.get "closingElement" = .null := hunclosed.1.closing
  rw [hnull] at hclosing
  cases hclosing

/-- An element that is left open where the source ends. -/
theorem element_not_closed :
    ∃ p n, run .parse "<a>" [("jsx", .bool true)] .idle = .ok p ∧ p.tree.firstExpression = some n
      ∧ n.is .jsxElement ∧ ¬ n.elementParts.Closed := by
  obtain ⟨p, n, hrun, hn, htest⟩ := exists_firstExpression .parse "<a>" [("jsx", .bool true)]
    (fun n => n.is .jsxElement && (n.get "closingElement").isNull
      && (n.child? "openingElement").any fun tag => !tag.has "selfClosing") (by decide +kernel)
  simp only [Bool.and_eq_true] at htest
  obtain ⟨⟨helement, hnull⟩, hself⟩ := htest
  refine ⟨p, n, hrun, hn, helement, fun hclosed => ?_⟩
  have hclosing : (n.get "closingElement").isNull = false := hclosed.closing_ne_null hself
  rw [hnull] at hclosing
  cases hclosing

end Program

end EcmaSyntax
