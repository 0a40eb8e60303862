import EcmaSyntax.Text.CodePoint

/-!
# Binary floating-point numbers

A `Double` is a number of 53 significant bits, kept exactly as a sign, a mantissa and a power of
two, or an infinity. `Double.nearest` rounds a quotient of natural numbers to the nearest one, a
half going to the even mantissa, and `Double.ofDecimal` rounds a decimal `digits * 10 ^ scale`.

The value of a numeric literal is a `Numeral`: a whole number when the rounded double is one, and
the double itself otherwise.
-/

namespace EcmaSyntax

/-- A floating-point number of 53 significant bits. A finite one is `mantissa * 2 ^ exponent`, with
`mantissa < 2 ^ 53`, and `2 ^ 52 ≤ mantissa` unless `exponent = -1074`. -/
inductive Double where
  | finite (negative : Bool) (mantissa : Nat) (exponent : Int)
  | infinite (negative : Bool)
  deriving DecidableEq, Repr, Inhabited

namespace Double

/-- The quotient `num / (den * 2 ^ q)` as a numerator and a denominator. -/
def scaled (num den : Nat) (q : Int) : Nat × Nat :=
  if 0 ≤ q then (num, den <<< q.toNat) else (num <<< (-q).toNat, den)

/-- The natural number nearest to `num / den`; a half goes to the even neighbour. -/
def roundHalfEven (num den : Nat) : Nat :=
  let whole := num / den
  let rest := num % den
  if 2 * rest < den then whole
  else if den < 2 * rest then whole + 1
  else if whole % 2 = 0 then whole else whole + 1

/-- The least power of two whose multiples below `2 ^ 53` reach `num / den`. -/
def unitExponent (num den : Nat) : Int :=
  let q : Int := (num.log2 : Int) - den.log2 - 53
  let (n, d) := scaled num den q
  max (if n / d < 1 <<< 53 then q else q + 1) (-1074)

/-- The double nearest to `num / den`, with the given sign. -/
def nearest (negative : Bool) (num den : Nat) : Double :=
  if num = 0 then .finite negative 0 (-1074)
  else
    let q := unitExponent num den
    let (n, d) := scaled num den q
    let m := roundHalfEven n d
    let (m, q) := if m = 1 <<< 53 then (1 <<< 52, q + 1) else (m, q)
    if q ≤ 971 then .finite negative m q else .infinite negative

/-- The double nearest to `digits * 10 ^ scale`. Numbers far outside the range of the finite doubles
are told apart by their length alone. -/
def ofDecimal (negative : Bool) (digits : Nat) (scale : Int) : Double :=
  let length : Int := digits.log2 * 30103 / 100000
  if digits = 0 || length + scale < -400 then .finite negative 0 (-1074)
  else if 400 < length + scale then .infinite negative
  else if 0 ≤ scale then nearest negative (digits * Nat.pow 10 scale.toNat) 1
  else nearest negative digits (Nat.pow 10 (-scale).toNat)

/-- The magnitude of a finite double that is a whole number. -/
def whole? : Double → Option Nat
  | .infinite _ => none
  | .finite _ m q =>
    if 0 ≤ q then some (m <<< q.toNat)
    else
      let unit := 1 <<< (-q).toNat
      if m % unit = 0 then some (m / unit) else none

/-- The sixty-four bits of the interchange format, as a number. -/
def bits : Double → Nat
  | .infinite s => (if s then 1 <<< 63 else 0) + 0x7ff <<< 52
  | .finite s m q =>
    (if s then 1 <<< 63 else 0)
      + if m < 1 <<< 52 then m else (q + 1075).toNat <<< 52 + (m - 1 <<< 52)

end Double

/-- The value of a numeric literal: whole, or a double that is not. -/
inductive Numeral where
  | whole (n : Nat)
  | real (d : Double)
  deriving DecidableEq, Repr, Inhabited

namespace Numeral

/-- A double as a numeral: whole if it is a whole number. -/
def ofDouble (d : Double) : Numeral :=
  match d.whole? with
  | some n => .whole n
  | none => .real d

/-- The number that digits denote in a base, most significant first. -/
def ofDigits (base : Nat) (digits : Text) : Nat :=
  digits.foldl (fun n c => n * base + CodePoint.digitValue c) 0

end Numeral

/-- A decimal numeral in parts: the digits before and after the point, and the exponent. -/
structure Decimal where
  whole : Text
  fraction : Text
  exponent : Int
  deriving Repr, Inhabited

namespace Decimal

def toDouble (negative : Bool) (d : Decimal) : Double :=
  Double.ofDecimal negative (Numeral.ofDigits 10 (d.whole ++ d.fraction))
    (d.exponent - d.fraction.length)

/-- An exponent part: the digits after `e`, with an optional sign. -/
def exponentOf : Text → Int
  | 45 :: ds => -(Numeral.ofDigits 10 ds : Int)
  | 43 :: ds => Numeral.ofDigits 10 ds
  | ds => Numeral.ofDigits 10 ds

/-- Reads `digits . digits e ± digits`, where the fraction and the exponent may be missing. -/
def ofText (t : Text) : Decimal :=
  let isMark := fun c => c = 101 || c = 69
  let mantissa := t.takeWhile fun c => !isMark c
  let power := (t.dropWhile fun c => !isMark c).drop 1
  { whole := mantissa.takeWhile (· ≠ 46)
    fraction := (mantissa.dropWhile (· ≠ 46)).drop 1
    exponent := exponentOf power }

end Decimal

end EcmaSyntax
