import EcmaSyntax.Number.Double

/-!
# Regular expression patterns

Which patterns are well formed. `Pattern.compile?` reads a pattern with the flags it starts from and
gives back the pattern with the flags it ends with, or nothing if it is ill formed: an unknown
escape, a class or a group left open, a quantifier with nothing to repeat, a reference to a group
that is not closed yet, a look-behind whose matches differ in length.

A pattern is read as a list of `Piece`s, a piece being a code point or a code point after a
backslash. Of each part only what the rules ask for is kept: its `Width`, the least and greatest
number of code points it matches, and the `Role` of the last item of a sequence, which decides
whether it may be repeated. The two mutually recursive readers `alternatives` and `sequence` end by
their fuel, which `compile?` takes from the number of pieces.
-/

namespace EcmaSyntax

/-- A well-formed pattern with its flags, a sum of the bits of `Pattern.Flag`. -/
structure Pattern where
  source : Text
  flags : Nat
  deriving DecidableEq, Repr, Inhabited

namespace Pattern

/-! ### Flags -/

/-- A property of the match that a letter switches on. -/
inductive Flag where
  | ignoreCase | locale | multiLine | dotAll | unicode | verbose | ascii
  deriving DecidableEq, Repr

def Flag.bit : Flag → Nat
  | .ignoreCase => 2
  | .locale => 4
  | .multiLine => 8
  | .dotAll => 16
  | .unicode => 32
  | .verbose => 64
  | .ascii => 256

def Flag.ofLetter? (c : CodePoint) : Option Flag :=
  if c = 105 then some .ignoreCase
  else if c = 76 then some .locale
  else if c = 109 then some .multiLine
  else if c = 115 then some .dotAll
  else if c = 117 then some .unicode
  else if c = 120 then some .verbose
  else if c = 97 then some .ascii
  else none

/-- Flags that choose what a letter or a digit is; at most one of them holds. -/
def Flag.choosesAlphabet : Flag → Bool
  | .locale | .unicode | .ascii => true
  | _ => false

def hasFlag (flags : Nat) (f : Flag) : Bool := flags / f.bit % 2 = 1

def withFlag (flags : Nat) (f : Flag) : Nat := if hasFlag flags f then flags else flags + f.bit

/-! ### Pieces, widths and items -/

/-- A code point of the pattern, or one after a backslash. -/
inductive Piece where
  | plain (c : CodePoint)
  | escaped (c : CodePoint)
  deriving DecidableEq, Repr

/-- The pieces of a pattern; a backslash at its end belongs to none. -/
def pieces : Text → Option (List Piece)
  | [] => some []
  | [c] => if c = 92 then none else some [.plain c]
  | c :: d :: rest =>
    if c = 92 then (pieces rest).map (.escaped d :: ·)
    else (pieces (d :: rest)).map (.plain c :: ·)

def Piece.text : Piece → Text
  | .plain c => [c]
  | .escaped c => [92, c]

/-- The least and the greatest number of code points that a part matches. -/
structure Width where
  least : Nat
  greatest : Nat
  deriving DecidableEq, Repr, Inhabited

/-- Widths are not told apart from here on. -/
def Width.limit : Nat := 1 <<< 64

/-- A bound that no repetition count reaches; it stands for "any number of times". -/
def unbounded : Nat := 4294967295

def Width.zero : Width := ⟨0, 0⟩

def Width.one : Width := ⟨1, 1⟩

/-- One part after the other. -/
def Width.append (a b : Width) : Width :=
  ⟨min (a.least + b.least) limit, min (a.greatest + b.greatest) limit⟩

/-- One part or the other. -/
def Width.or (a b : Width) : Width := ⟨min a.least b.least, max a.greatest b.greatest⟩

/-- A part from `lo` up to `hi` times. -/
def Width.times (w : Width) (lo hi : Nat) : Width :=
  ⟨min (w.least * lo) limit,
   if hi = unbounded && w.greatest ≠ 0 then limit else min (w.greatest * hi) limit⟩

/-- What an item of a sequence is, as far as repeating it goes. -/
inductive Role where
  /-- A place, such as the start of a line; it cannot be repeated. -/
  | place
  /-- A repetition; it cannot be repeated again. -/
  | repetition
  /-- Anything else. -/
  | repeatable
  deriving DecidableEq, Repr

/-- The part of a sequence read so far: its last item, and the width of all before that. -/
structure Read where
  before : Width
  last : Option (Role × Width)

/-- A sequence of which nothing is read. -/
def Read.empty : Read := ⟨.zero, none⟩

def Read.width (r : Read) : Width :=
  match r.last with
  | none => r.before
  | some (_, w) => r.before.append w

/-- One more item. -/
def Read.push (r : Read) (role : Role) (w : Width) : Read := ⟨r.width, some (role, w)⟩

/-! ### The reader -/

/-- What is known while a pattern is read. -/
structure Progress where
  rest : List Piece
  flags : Nat
  /-- The widths of the groups opened so far, group zero first; none for a group still open. -/
  groups : Array (Option Width)
  names : List (Text × Nat)
  /-- Inside a look-behind, the number of groups before it. -/
  behind : Option Nat
  /-- Groups that a condition asks about. -/
  asked : List Nat

/-- A reader of patterns, which may find the pattern ill formed. -/
abbrev Reader := StateT Progress Option

/-- The next piece, which stays. -/
def peek : Reader (Option Piece) := do return (← get).rest.head?

/-- The next piece, which is read. -/
def next : Reader (Option Piece) := do
  let s ← get
  match s.rest with
  | [] => return none
  | p :: rest => set { s with rest := rest }; return some p

/-- Reads one code point if it is the given one. -/
def accept (c : CodePoint) : Reader Bool := do
  if (← peek) = some (.plain c) then
    discard next
    return true
  else return false

/-- The code points at the front of `ps`, at most `count` of them, that pass `test`. -/
def leading (test : CodePoint → Bool) : Nat → List Piece → Text
  | 0, _ => []
  | n + 1, .plain c :: ps => if test c then c :: leading test n ps else []
  | _ + 1, _ => []

/-- Reads at most `count` code points that pass `test`. -/
def takeSome (count : Nat) (test : CodePoint → Bool) : Reader Text := do
  let s ← get
  let taken := leading test count s.rest
  set { s with rest := s.rest.drop taken.length }
  return taken

/-- Reads exactly `count` hexadecimal digits. -/
def hexValue (count : Nat) : Reader Nat := do
  let ds ← takeSome count CodePoint.isHexDigit
  guard (ds.length = count)
  return Numeral.ofDigits 16 ds

/-- Reads up to and over the code point `close`, giving the text before it, which is not empty. -/
def nameUpTo (close : CodePoint) : Reader Text := do
  let s ← get
  let front := s.rest.takeWhile (· ≠ .plain close)
  let back := s.rest.drop front.length
  guard (!front.isEmpty && !back.isEmpty)
  set { s with rest := back.drop 1 }
  return front.flatMap Piece.text

def isGroupName : Text → Bool
  | [] => false
  | c :: cs =>
    let ok := fun c => c ≠ 36 && c ≠ 92
    CodePoint.isIdentifierStart c && ok c
      && cs.all fun c => CodePoint.isIdentifierPart c && ok c && c ≠ 0x200c && c ≠ 0x200d

def Progress.isClosed (s : Progress) (group : Nat) : Bool :=
  match s.groups[group]? with
  | some (some _) => true
  | _ => false

/-- Inside a look-behind only groups that were closed before it may be asked about. -/
def checkBehind (group : Nat) : Reader Unit := do
  let s ← get
  match s.behind with
  | none => return
  | some bound => guard (s.isClosed group && group < bound)

/-- A reference to a closed group matches what that group matches. -/
def reference (group : Nat) : Reader Width := do
  let s ← get
  match s.groups[group]? with
  | some (some w) => checkBehind group; return w
  | _ => failure

def isAsciiLetter (c : CodePoint) : Bool := (65 ≤ c && c ≤ 90) || (97 ≤ c && c ≤ 122)

/-- Escapes for a place between code points: `A`, `b`, `B` and `Z`. -/
def isPlaceEscape (c : CodePoint) : Bool := c = 65 || c = 98 || c = 66 || c = 90

/-- Escapes for a class of code points: `d`, `s`, `w` and their complements. -/
def isClassEscape (c : CodePoint) : Bool :=
  c = 100 || c = 68 || c = 115 || c = 83 || c = 119 || c = 87

/-- The control that an escape names: `a`, `b`, `f`, `n`, `r`, `t`, `v`, or the backslash. -/
def controlEscape? (c : CodePoint) : Option CodePoint :=
  if c = 97 then some 7
  else if c = 98 then some 8
  else if c = 102 then some 12
  else if c = 110 then some 10
  else if c = 114 then some 13
  else if c = 116 then some 9
  else if c = 118 then some 11
  else if c = 92 then some 92
  else none

/-- An escape by number: `x`, `u` or `U` with two, four or eight hexadecimal digits. -/
def numericEscape? (c : CodePoint) : Option (Reader CodePoint) :=
  if c = 120 then some (hexValue 2)
  else if c = 117 then some (hexValue 4)
  else if c = 85 then some do
    let n ← hexValue 8
    guard (n ≤ 0x10ffff)
    return n
  else none

/-- The digits `1` to `9` after a backslash: three octal digits are a code point, and any other one
or two digits refer to a group. -/
def digitEscape (c : CodePoint) : Reader Width := do
  let more ← takeSome 1 CodePoint.isDecimalDigit
  match more with
  | [d] =>
    let octal := CodePoint.isOctalDigit c && CodePoint.isOctalDigit d
    let third ← if octal then takeSome 1 CodePoint.isOctalDigit else pure []
    match third with
    | [e] =>
      guard (Numeral.ofDigits 8 [c, d, e] ≤ 0o377)
      return .one
    | _ => reference (Numeral.ofDigits 10 [c, d])
  | _ => reference (Numeral.ofDigits 10 [c])

def escape (c : CodePoint) : Reader (Role × Width) := do
  if isPlaceEscape c then return (.place, .zero)
  else if isClassEscape c || (controlEscape? c).isSome then return (.repeatable, .one)
  else match numericEscape? c with
    | some read => discard read; return (.repeatable, .one)
    | none =>
      if c = 48 then
        discard (takeSome 2 CodePoint.isOctalDigit)
        return (.repeatable, .one)
      else if CodePoint.isDecimalDigit c then return (.repeatable, ← digitEscape c)
      else
        guard (!isAsciiLetter c)
        return (.repeatable, .one)

/-- An escape inside a class: a code point, or none for a whole class of them. -/
def classEscape (c : CodePoint) : Reader (Option CodePoint) := do
  match controlEscape? c with
  | some d => return some d
  | none =>
    if isClassEscape c then return none
    else match numericEscape? c with
      | some read => return some (← read)
      | none =>
        if CodePoint.isOctalDigit c then
          let more ← takeSome 2 CodePoint.isOctalDigit
          let n := Numeral.ofDigits 8 (c :: more)
          guard (n ≤ 0o377)
          return some n
        else
          guard (!isAsciiLetter c && !CodePoint.isDecimalDigit c)
          return some c

/-- A member of a class: a code point, or none for a whole class of them. -/
def classMember : Piece → Reader (Option CodePoint)
  | .escaped c => classEscape c
  | .plain c => return some c

/-- The members of a class up to its closing bracket; a bracket that comes first is a member. -/
def classMembers : Nat → Bool → Reader Unit
  | 0, _ => failure
  | fuel + 1, first => do
    match ← next with
    | none => failure
    | some p =>
      if p = .plain 93 && !first then return
      let low ← classMember p
      if ← accept 45 then
        match ← next with
        | none => failure
        | some q =>
          if q = .plain 93 then return
          let high ← classMember q
          match low, high with
          | some a, some b => guard (a ≤ b)
          | _, _ => failure
      classMembers fuel false

/-- A quantifier in braces, after the opening one: its bounds, or none if the brace is a code point
of its own, in which case nothing is read. -/
def bracedBounds : Reader (Option (Nat × Nat)) := do
  let start ← get
  if (← peek) = some (.plain 125) then return none
  let lo ← takeSome start.rest.length CodePoint.isDecimalDigit
  let hi ← if ← accept 44 then takeSome start.rest.length CodePoint.isDecimalDigit else pure lo
  if ← accept 125 then
    let least := if lo.isEmpty then 0 else Numeral.ofDigits 10 lo
    let greatest := if hi.isEmpty then unbounded else Numeral.ofDigits 10 hi
    guard (least < unbounded && (hi.isEmpty || greatest < unbounded) && least ≤ greatest)
    return some (least, greatest)
  else
    set start
    return none

/-- The bounds of the quantifier that `c` starts, if it starts one. -/
def bounds (c : CodePoint) : Reader (Option (Nat × Nat)) :=
  if c = 63 then return some (0, 1)
  else if c = 42 then return some (0, unbounded)
  else if c = 43 then return some (1, unbounded)
  else bracedBounds

/-- The last item, repeated; a question mark or a plus sign after the quantifier belongs to it. -/
def repeated (r : Read) (lo hi : Nat) : Reader Read := do
  match r.last with
  | some (.repeatable, w) =>
    unless ← accept 63 do discard (accept 43)
    return ⟨r.before, some (.repetition, w.times lo hi)⟩
  | _ => failure

/-- Letters of flags after `(?`, up to a piece that is no letter of one. -/
def flagLetters : Nat → Nat → CodePoint → Reader (Nat × CodePoint)
  | 0, _, _ => failure
  | fuel + 1, flags, c => do
    match Flag.ofLetter? c with
    | none =>
      guard (c = 41 || c = 45 || c = 58)
      return (flags, c)
    | some f =>
      guard (f ≠ .locale)
      let flags := withFlag flags f
      guard (!(f.choosesAlphabet && hasFlag flags .ascii && hasFlag flags .unicode))
      match ← next with
      | some (.plain d) => flagLetters fuel flags d
      | _ => failure

/-- Letters of flags to switch off, up to the colon. -/
def offLetters : Nat → Nat → CodePoint → Reader Nat
  | 0, _, _ => failure
  | fuel + 1, flags, c => do
    match Flag.ofLetter? c with
    | none => failure
    | some f =>
      guard (!f.choosesAlphabet)
      let flags := withFlag flags f
      match ← next with
      | some (.plain d) => if d = 58 then return flags else offLetters fuel flags d
      | _ => failure

/-- The flags of a group that starts with the letter or minus sign `c`: none if they hold for the
whole pattern, else those to switch on and off inside the group. -/
def groupFlags (c : CodePoint) : Reader (Option (Nat × Nat)) := do
  let fuel := (← get).rest.length + 2
  let (on, mark) ← if c = 45 then pure (0, c) else flagLetters fuel 0 c
  if mark = 41 then
    modify fun s => { s with flags := Nat.lor s.flags on }
    return none
  let off ←
    if mark = 45 then
      match ← next with
      | some (.plain d) => offLetters fuel 0 d
      | _ => failure
    else pure 0
  guard (Nat.land on off = 0)
  return some (on, off)

/-- Opens a group, which takes the next number, and the name if it has one. -/
def openGroup (name : Option Text) : Reader Nat := do
  let s ← get
  let group := s.groups.size
  match name with
  | none => set { s with groups := s.groups.push none }
  | some n =>
    guard ((s.names.lookup n).isNone)
    set { s with groups := s.groups.push none, names := (n, group) :: s.names }
  return group

def closeGroup (group : Nat) (w : Width) : Reader Unit :=
  modify fun s => { s with groups := s.groups.setIfInBounds group (some w) }

/-- The group that a condition asks about, by name or by number. -/
def conditionGroup : Reader Nat := do
  let name ← nameUpTo 41
  let group ←
    if isGroupName name then
      match (← get).names.lookup name with
      | some group => pure group
      | none => failure
    else
      guard (name.all CodePoint.isDecimalDigit)
      let group := Numeral.ofDigits 10 name
      guard (0 < group && group < 1 <<< 30)
      modify fun s => { s with asked := group :: s.asked }
      pure group
  checkBehind group
  return group

mutual

/-- Reads alternatives up to a closing parenthesis or the end. Flags for the whole pattern may stand
only at its very start, in the first alternative of the outermost level (`top`). -/
def alternatives (fuel : Nat) (top verbose : Bool) : Reader Width := do
  match fuel with
  | 0 => failure
  | fuel + 1 =>
    let first ← sequence fuel verbose top .empty
    moreAlternatives fuel top verbose first.width

/-- Reads further alternatives, each after a bar. -/
def moreAlternatives (fuel : Nat) (top verbose : Bool) (w : Width) : Reader Width := do
  match fuel with
  | 0 => failure
  | fuel + 1 =>
    if ← accept 124 then
      let flags := (← get).flags
      let verbose := if top then hasFlag flags .verbose else verbose
      let r ← sequence fuel verbose false .empty
      moreAlternatives fuel top verbose (w.or r.width)
    else return w

/-- Reads the items of one alternative. -/
def sequence (fuel : Nat) (verbose first : Bool) (r : Read) : Reader Read := do
  match fuel with
  | 0 => failure
  | fuel + 1 =>
    match ← peek with
    | none => return r
    | some (.escaped c) =>
      discard next
      let (role, w) ← escape c
      sequence fuel verbose first (r.push role w)
    | some (.plain c) =>
      if c = 124 || c = 41 then return r
      discard next
      if verbose && (c = 32 || (9 ≤ c && c ≤ 13)) then sequence fuel verbose first r
      else if verbose && c = 35 then
        let line := (← get).rest.takeWhile (· ≠ .plain 10)
        modify fun s => { s with rest := s.rest.drop (line.length + 1) }
        sequence fuel verbose first r
      else if c = 91 then
        discard (accept 94)
        classMembers ((← get).rest.length + 1) true
        sequence fuel verbose first (r.push .repeatable .one)
      else if c = 63 || c = 42 || c = 43 || c = 123 then
        match ← bounds c with
        | none => sequence fuel verbose first (r.push .repeatable .one)
        | some (lo, hi) => sequence fuel verbose first (← repeated r lo hi)
      else if c = 94 || c = 36 then sequence fuel verbose first (r.push .place .zero)
      else if c = 40 then
        if ← accept 63 then
          let (verbose, r) ← extension fuel verbose first r
          sequence fuel verbose first r
        else
          let w ← group fuel verbose (some none)
          sequence fuel verbose first (r.push .repeatable w)
      else sequence fuel verbose first (r.push .repeatable .one)

/-- Reads the inside of a group and its closing parenthesis. The group is numbered if `capture` is
given, and then has the name that it holds, if any. -/
def group (fuel : Nat) (verbose : Bool) (capture : Option (Option Text)) : Reader Width := do
  match fuel with
  | 0 => failure
  | fuel + 1 =>
    let number ← capture.mapM openGroup
    let w ← alternatives fuel false verbose
    guard (← accept 41)
    if let some n := number then closeGroup n w
    return w

/-- Reads what follows `(?`: the sequence with the item added, and whether white space is skipped
from here on. -/
def extension (fuel : Nat) (verbose first : Bool) (r : Read) : Reader (Bool × Read) := do
  match fuel with
  | 0 => failure
  | fuel + 1 =>
    match ← next with
    | some (.plain c) =>
      if c = 80 then
        if ← accept 60 then
          let name ← nameUpTo 62
          guard (isGroupName name)
          let w ← group fuel verbose (some (some name))
          return (verbose, r.push .repeatable w)
        else
          guard (← accept 61)
          let name ← nameUpTo 41
          guard (isGroupName name)
          match (← get).names.lookup name with
          | none => failure
          | some g => return (verbose, r.push .repeatable (← reference g))
      else if c = 58 || c = 62 then
        let w ← group fuel verbose none
        return (verbose, r.push .repeatable w)
      else if c = 35 then
        let comment := (← get).rest.takeWhile (· ≠ .plain 41)
        guard (comment.length < (← get).rest.length)
        modify fun s => { s with rest := s.rest.drop (comment.length + 1) }
        return (verbose, r)
      else if c = 61 || c = 33 then
        discard (group fuel verbose none)
        return (verbose, r.push .repeatable .zero)
      else if c = 60 then
        match ← next with
        | some (.plain d) =>
          guard (d = 61 || d = 33)
          let outer := (← get).behind
          modify fun s => { s with behind := some (outer.getD s.groups.size) }
          let w ← group fuel verbose none
          modify fun s => { s with behind := outer }
          guard (w.least = w.greatest && w.least < 1 <<< 32)
          return (verbose, r.push .repeatable .zero)
        | _ => failure
      else if c = 40 then
        discard conditionGroup
        let yes ← sequence fuel verbose false .empty
        let w ←
          if ← accept 124 then
            let no ← sequence fuel verbose false .empty
            pure (yes.width.or no.width)
          else pure ⟨0, yes.width.greatest⟩
        guard (← accept 41)
        return (verbose, r.push .repeatable w)
      else
        guard (c = 45 || (Flag.ofLetter? c).isSome)
        match ← groupFlags c with
        | none =>
          guard (first && r.last.isNone)
          return (hasFlag (← get).flags .verbose, r)
        | some (on, off) =>
          let inner := (verbose || hasFlag on .verbose) && !hasFlag off .verbose
          let w ← group fuel inner none
          return (verbose, r.push .repeatable w)
    | _ => failure

end

/-- The flags at the end: unless the pattern asks for ASCII alone, its alphabet is Unicode. -/
def finalFlags? (flags : Nat) : Option Nat :=
  if hasFlag flags .ascii then
    if hasFlag flags .unicode then none else some flags
  else some (withFlag flags .unicode)

/-- The pattern with its final flags, if it is well formed. -/
def compile? (source : Text) (flags : Nat) : Option Pattern := do
  let ps ← pieces source
  let start : Progress :=
    { rest := ps, flags := flags, groups := #[none], names := [], behind := none, asked := [] }
  let (_, s) ← (alternatives (4 * ps.length + 4) true (hasFlag flags .verbose)).run start
  guard (s.rest.isEmpty && s.asked.all (· < s.groups.size))
  let final ← finalFlags? s.flags
  return ⟨source, final⟩

end Pattern

end EcmaSyntax
