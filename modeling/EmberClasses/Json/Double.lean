/-!
Double-precision numbers in exact arithmetic. A magnitude is a whole number of units of a power of
two; every operation computes the exact quotient and rounds it once, to the nearest and on a tie to
the even neighbour. `shortest` gives the fewest decimal digits that round back to a magnitude, and
of those the nearest.
-/

namespace EmberClasses.Json

/-- The magnitude `units · 2 ^ scale`, with `units < 2 ^ 53` and `-1074 ≤ scale`. -/
structure Double where
  units : Nat
  scale : Int
  deriving DecidableEq, Inhabited

namespace Double

def twoTo (k : Nat) : Nat := Nat.pow 2 k

def tenTo (k : Nat) : Nat := Nat.pow 10 k

def significandLimit : Nat := twoTo 53

/-- The quotient rounded to the nearest whole number, a half to the even one. -/
def roundDiv (n d : Nat) : Nat :=
  let k := n / d
  let twice := 2 * (n % d)
  if twice < d then k else if d < twice then k + 1 else k + k % 2

def scaled (n d : Nat) (scale : Int) : Nat × Nat :=
  if 0 ≤ scale then (n, d * twoTo scale.toNat) else (n * twoTo (-scale).toNat, d)

/-- The double nearest to `n / d`, or none when it is too large. -/
def ofRatio (n d : Nat) : Option Double :=
  if n = 0 then some ⟨0, -1074⟩
  else
    let low := max (Int.ofNat n.log2 - Int.ofNat d.log2 - 53) (-1074)
    let (a, b) := scaled n d low
    let scale := if a / b < significandLimit then low else low + 1
    let (a, b) := scaled n d scale
    let units := roundDiv a b
    let x : Double :=
      if units = significandLimit then ⟨significandLimit / 2, scale + 1⟩ else ⟨units, scale⟩
    if x.scale ≤ 971 then some x else none

def ratio (x : Double) : Nat × Nat :=
  if 0 ≤ x.scale then (x.units * twoTo x.scale.toNat, 1) else (x.units, twoTo (-x.scale).toNat)

def mul (x y : Double) : Option Double :=
  ofRatio (x.ratio.1 * y.ratio.1) (x.ratio.2 * y.ratio.2)

def div (x y : Double) : Option Double :=
  ofRatio (x.ratio.1 * y.ratio.2) (x.ratio.2 * y.ratio.1)

def powerOfTen (k : Nat) : Option Double := ofRatio (tenTo k) 1

/-- `x · 10 ^ exponent`, computed with at most one rounded power of ten at a time. -/
def scaleByTen : Nat → Double → Int → Option Double
  | 0, x, _ => some x
  | fuel + 1, x, exponent =>
    if exponent.natAbs ≤ 308 then do
      let power ← powerOfTen exponent.natAbs
      if 0 ≤ exponent then x.mul power else x.div power
    else if x.units = 0 then some x
    else if 0 ≤ exponent then none
    else do
      let power ← powerOfTen 308
      scaleByTen fuel (← x.div power) (exponent + 308)

/-- The number written with the digits `significand` and a decimal exponent. -/
def ofDecimal (significand : Nat) (exponent : Int) : Option Double := do
  scaleByTen 4 (← ofRatio significand 1) exponent

/-- Decimal digits `digits`, the last of them worth `10 ^ exponent`. -/
structure Decimal where
  digits : Nat
  exponent : Int
  deriving DecidableEq

/-- The largest `k` up to `fuel` steps above `k₀` with `10 ^ k ≤ n / d`. -/
def leadingExponent (n d : Nat) : Nat → Int → Int
  | 0, k => k
  | fuel + 1, k =>
    let next := k + 1
    let fits := if 0 ≤ next then d * tenTo next.toNat ≤ n else d ≤ n * tenTo (-next).toNat
    if fits then leadingExponent n d fuel next else k

/-- Whether the decimal lies among the reals that round to `x`. The ends belong to it when `units`
is even; below a power of two the gap is half as wide. -/
def roundsTo (x : Double) (t : Decimal) : Bool :=
  let narrow := x.units == significandLimit / 2 && -1074 < x.scale
  let lowEnd := if narrow then 4 * x.units - 1 else 4 * x.units - 2
  let highEnd := 4 * x.units + 2
  let (tn, td) := if 0 ≤ t.exponent then (t.digits * tenTo t.exponent.toNat, 1)
    else (t.digits, tenTo (-t.exponent).toNat)
  let (xn, xd) := if 0 ≤ x.scale then (twoTo x.scale.toNat, 4) else (1, 4 * twoTo (-x.scale).toNat)
  let left := tn * xd
  let low := lowEnd * xn * td
  let high := highEnd * xn * td
  if x.units % 2 == 0 then low ≤ left && left ≤ high else low < left && left < high

/-- The neighbours of `x` on the grid of multiples of `10 ^ exponent`, when they round to `x`: the
nearer one, on a tie the even one. -/
def onGrid (x : Double) (exponent : Int) : Option Decimal :=
  let (n, d) := x.ratio
  let (n, d) :=
    if 0 ≤ exponent then (n, d * tenTo exponent.toNat) else (n * tenTo (-exponent).toNat, d)
  let below : Decimal := ⟨n / d, exponent⟩
  let above : Decimal := ⟨n / d + 1, exponent⟩
  let twice := 2 * (n % d)
  match roundsTo x below, roundsTo x above with
  | true, true =>
    if twice < d then some below else if d < twice then some above
    else if below.digits % 2 == 0 then some below else some above
  | true, false => some below
  | false, true => some above
  | false, false => none

def firstGrid (x : Double) : Nat → Int → Option Decimal
  | 0, _ => none
  | fuel + 1, exponent =>
    match onGrid x exponent with
    | some t => some t
    | none => firstGrid x fuel (exponent - 1)

def shortest (x : Double) : Decimal :=
  if x.units = 0 then ⟨0, 0⟩
  else
    let (n, d) := x.ratio
    let lead := leadingExponent n d 700 (-330)
    (firstGrid x 18 lead).getD ⟨0, 0⟩

end Double

end EmberClasses.Json
