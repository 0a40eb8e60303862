/-!
# Texts and sets of code points

A text is a finite sequence of Unicode code points. Surrogates are code points like any other, so
that a text may hold one half of a pair alone; every index, column and length of the library counts
code points. `Text.is` compares a text with a written word.

A set of code points is given by its `CodeRuns`, the sorted list of its maximal runs, and membership
is `CodeRuns.has`.
-/

namespace EcmaSyntax

/-- A Unicode code point; surrogates are allowed. -/
abbrev CodePoint := Nat

abbrev Text := List CodePoint

namespace Text

def ofString (s : String) : Text := s.toList.map Char.toNat

instance : Coe String Text := ⟨ofString⟩

/-- Is this text the written word `s`? -/
def is (t : Text) (s : String) : Bool := t == ofString s

/-- Is this text one of the written words `ss`? -/
def isAny (t : Text) (ss : List String) : Bool := ss.any t.is

def ofNat (n : Nat) : Text := ofString n.repr

/-- The decimal digits of a number after its sign, which is written only below zero. -/
def ofInt (i : Int) : Text :=
  match i with
  | .ofNat n => ofNat n
  | .negSucc n => 45 :: ofNat (n + 1)

/-- The digit of value `d`, lower case. -/
def hexDigit (d : Nat) : CodePoint := if d < 10 then 48 + d else 87 + d

/-- The lowest `width` hexadecimal digits of `n`, most significant first. -/
def hex (width n : Nat) : Text :=
  (List.range width).reverse.map fun k => hexDigit (n >>> (4 * k) % 16)

/-- Does `t` occur somewhere in `s`? -/
def occursIn (t : Text) : Text → Bool
  | [] => t.isEmpty
  | c :: s => t.isPrefixOf (c :: s) || occursIn t s

/-- Does `s` stand at or before `t` in the order of code points? -/
def atMost : Text → Text → Bool
  | [], _ => true
  | _ :: _, [] => false
  | a :: s, b :: t => a < b || (a = b && atMost s t)

/-- The parts of a text between the occurrences of `sep`; one more than there are of those. -/
def splitOn (sep : CodePoint) : Text → List Text
  | [] => [[]]
  | c :: s =>
    if c = sep then [] :: splitOn sep s
    else match splitOn sep s with
      | [] => [[c]]
      | line :: lines => (c :: line) :: lines

/-- Texts put one after the other with `sep` between them. -/
def join (sep : Text) : List Text → Text
  | [] => []
  | [t] => t
  | t :: ts => t ++ (sep ++ join sep ts)

/-- A text of `n` copies of one code point. -/
def times (n : Nat) (c : CodePoint) : Text := List.replicate n c

end Text

/-- The maximal runs of a set of code points, in increasing order, both ends included. -/
abbrev CodeRuns := List (CodePoint × CodePoint)

namespace CodeRuns

def has (runs : CodeRuns) (c : CodePoint) : Bool :=
  match runs with
  | [] => false
  | (first, last) :: rest => first ≤ c && (c ≤ last || has rest c)

/-- The numbers that a text spells. The last digit of each is a decimal digit or a capital letter, in base
36; small letters before it are digits in base 26. -/
def numbers (high : Nat) : Text → List Nat
  | [] => []
  | c :: s =>
    if 0x61 ≤ c then numbers (26 * high + (c - 0x61)) s
    else (36 * high + (if c ≤ 0x39 then c - 0x30 else c - 0x37)) :: numbers 0 s

/-- Runs behind a code point, given by pairs of numbers: how many code points are left out before a run,
and how many it has. -/
def spaced (start : CodePoint) : List Nat → CodeRuns
  | gap :: length :: rest =>
    (start + gap, start + gap + length - 1) :: spaced (start + gap + length) rest
  | _ => []

/-- Runs whose gaps and lengths are spelled in some words. -/
def spelled (words : List String) : CodeRuns := spaced 0 (numbers 0 (words.flatMap Text.ofString))

/-- The maximal runs of the code points from `from` up to `to` that pass `test`. -/
def ofTest (test : CodePoint → Bool) (first last : CodePoint) : CodeRuns :=
  let count := last + 1 - first
  ((List.range count).foldr (fun k runs =>
    let c := first + k
    if test c then
      match runs with
      | (lo, hi) :: rest => if lo = c + 1 then (c, hi) :: rest else (c, c) :: runs
      | [] => [(c, c)]
    else runs) [])

end CodeRuns

end EcmaSyntax
