import EcmaSyntax.Number.Double

/-!
# The shortest decimal of a double

`Double.shortest` gives the fewest decimal digits that read back as the same double, and of those the
nearest to it. The doubles next to `m * 2 ^ q` leave it an interval of reals, closed exactly when `m`
is even; for one digit, two digits and so on the two neighbours of the value on the grid of that many
digits are tried, and the first grid with a neighbour inside the interval wins.

`Double.text` writes the result: positionally when the exponent of the leading digit is at least
`-4` and below `16`, with an exponent of at least two digits otherwise.
-/

namespace EcmaSyntax.Double

/-- A positive quotient of natural numbers. -/
structure Ratio where
  num : Nat
  den : Nat

/-- The quotient `n * 2 ^ q`. -/
def Ratio.dyadic (n : Nat) (q : Int) : Ratio :=
  if 0 ≤ q then ⟨n <<< q.toNat, 1⟩ else ⟨n, 1 <<< (-q).toNat⟩

/-- The quotient `n * 10 ^ k`. -/
def Ratio.decimal (n : Nat) (k : Int) : Ratio :=
  if 0 ≤ k then ⟨n * Nat.pow 10 k.toNat, 1⟩ else ⟨n, Nat.pow 10 (-k).toNat⟩

/-- Is one quotient below another, or equal to it where `closed`? -/
def Ratio.below (closed : Bool) (a b : Ratio) : Bool :=
  let l := a.num * b.den
  let r := b.num * a.den
  l < r || (closed && l = r)

def Ratio.distance (a b : Ratio) : Ratio :=
  let l := a.num * b.den
  let r := b.num * a.den
  ⟨(l - r) + (r - l), a.den * b.den⟩

/-- The least `k` with `v < 10 ^ k`, searched upwards from `k` for `fuel` steps. -/
def pointPlace (v : Ratio) : Nat → Int → Int
  | 0, k => k
  | fuel + 1, k => if v.below false (.decimal 1 k) then k else pointPlace v fuel (k + 1)

/-- The shortest decimal of `m * 2 ^ q`, for `0 < m`: its digits as a number, and the power of ten
that the last digit counts. The search starts on the grid of `count` digits. -/
def shortestFrom (m : Nat) (q : Int) (point : Int) : Nat → Nat → Nat × Int
  | 0, count =>
    let unit : Int := point - count
    let v := Ratio.dyadic m q
    let u := Ratio.decimal 1 unit
    (roundHalfEven (v.num * u.den) (v.den * u.num), unit)
  | fuel + 1, count =>
    let unit : Int := point - count
    let v := Ratio.dyadic m q
    let u := Ratio.decimal 1 unit
    let down := (v.num * u.den) / (v.den * u.num)
    let closed := m % 2 = 0
    let low := if m = 1 <<< 52 && -1074 < q then Ratio.dyadic (4 * m - 1) (q - 2)
      else Ratio.dyadic (2 * m - 1) (q - 1)
    let high := Ratio.dyadic (2 * m + 1) (q - 1)
    let inside := fun n => low.below closed (.decimal n unit) && (Ratio.decimal n unit).below closed high
    match inside down, inside (down + 1) with
    | true, true =>
      let dDown := v.distance (.decimal down unit)
      let dUp := v.distance (.decimal (down + 1) unit)
      if dDown.below false dUp then (down, unit)
      else if dUp.below false dDown then (down + 1, unit)
      else if down % 2 = 0 then (down, unit) else (down + 1, unit)
    | true, false => (down, unit)
    | false, true => (down + 1, unit)
    | false, false => shortestFrom m q point fuel (count + 1)

/-- The shortest decimal of `m * 2 ^ q`, for `0 < m`. -/
def shortest (m : Nat) (q : Int) : Nat × Int :=
  let v := Ratio.dyadic m q
  let guess : Int := ((m.log2 : Int) + q) * 30103 / 100000 - 1
  shortestFrom m q (pointPlace v 5 guess) 16 1

def dropEndZeros (digits : Text) : Text := (digits.reverse.dropWhile (· = 48)).reverse

/-- Writes digits with the decimal point after `point` of them. -/
def written (digits : Text) (point : Int) : Text :=
  if -4 < point && point ≤ 16 then
    if point ≤ 0 then Text.ofString "0." ++ Text.times (-point).toNat 48 ++ digits
    else
      let n := point.toNat
      let whole := digits.take n ++ Text.times (n - digits.length) 48
      let fraction := digits.drop n
      whole ++ [46] ++ if fraction.isEmpty then [48] else fraction
  else
    let e := point - 1
    let power := Text.ofNat e.natAbs
    digits.take 1 ++ (if 1 < digits.length then 46 :: digits.drop 1 else [])
      ++ [101, if e < 0 then 45 else 43] ++ (if power.length < 2 then 48 :: power else power)

/-- The text of a double: its shortest decimal, or `inf`. -/
def text : Double → Text
  | .infinite s => (if s then [45] else []) ++ Text.ofString "inf"
  | .finite s m q =>
    (if s then [45] else []) ++
      if m = 0 then Text.ofString "0.0"
      else
        let (n, unit) := shortest m q
        let digits := Text.ofNat n
        written (dropEndZeros digits) (unit + digits.length)

end EcmaSyntax.Double

namespace EcmaSyntax.Numeral

/-- The text of a numeral: decimal digits when it is whole. -/
def text : Numeral → Text
  | .whole n => Text.ofNat n
  | .real d => d.text

end EcmaSyntax.Numeral
