import ModuleLoader.Decimal.Binary64

/-! The decimal text of a double: the fewest digits that read back as the same double and, of
those, the ones nearest to its exact value. -/

namespace ModuleLoader.Binary64

/-- A point `digits * 10 ^ exp` of a decimal grid. -/
structure GridPoint where
  digits : Nat
  exp : Int
deriving DecidableEq

/-- The factors `(a, b)` that compare `c * 10 ^ k` with `x * 2 ^ q` as `c * a` with `x * b`. -/
def gridFactors (k q : Int) : Nat × Nat :=
  (Nat.pow 10 k.toNat * Nat.pow 2 (-q).toNat, Nat.pow 2 q.toNat * Nat.pow 10 (-k).toNat)

/-- The point of the grid of step `10 ^ k` that rounds to `x` and is nearest to it. Only the two
neighbours of `x` on the grid can be that point; a tie goes to the even one. Magnitudes are counted
in quarters of the last binary place, so that the ends of the rounding interval are whole. -/
def nearestOnGrid? (x : Binary64) (k : Int) : Option GridPoint :=
  let m := x.significand
  let (a, b) := gridFactors k (x.exponent - 2)
  let low := 4 * m - (if m = exponentUnit && -1074 < x.exponent then 1 else 2)
  let high := 4 * m + 2
  let value := 4 * m * b
  let holds (c : Nat) : Bool :=
    if m % 2 = 0 then low * b ≤ c * a && c * a ≤ high * b
    else low * b < c * a && c * a < high * b
  let below := value / a
  let above := below + 1
  let gapBelow := value - below * a
  let gapAbove := above * a - value
  match holds below, holds above with
  | false, false => none
  | true, false => some ⟨below, k⟩
  | false, true => some ⟨above, k⟩
  | true, true =>
    if gapBelow < gapAbove || (gapBelow = gapAbove && below % 2 = 0) then some ⟨below, k⟩
    else some ⟨above, k⟩

/-- The `e` with `10 ^ e ≤ |x| < 10 ^ (e + 1)`. -/
def decimalOrder (x : Binary64) : Int :=
  let n := x.significand * Nat.pow 2 x.exponent.toNat
  let d := Nat.pow 2 (-x.exponent).toNat
  if d ≤ n then (decimalLength (n / d) : Int) - 1 else -(decimalLength (d / n) : Int)

/-- The first of the grids of step `10 ^ k`, `10 ^ (k - 1)`, … that has a point for `x`. -/
def searchGrids (x : Binary64) : Nat → Int → GridPoint
  | 0, k => ⟨0, k⟩
  | tries + 1, k =>
    match x.nearestOnGrid? k with
    | some point => point
    | none => searchGrids x tries (k - 1)

/-- The shortest decimal of a finite, nonzero double. Seventeen digits always suffice. -/
def shortest (x : Binary64) : GridPoint := x.searchGrids 17 x.decimalOrder

def GridPoint.significant (p : GridPoint) : List Char :=
  ((Nat.toDigits 10 p.digits).reverse.dropWhile (· == '0')).reverse

def GridPoint.order (p : GridPoint) : Int := p.exp + decimalLength p.digits - 1

/-- Digits with the point after the leading one moved right by `order` places: plain notation from
10 ^ (-5) up to 10 ^ 16, with at least one digit after the point, and an exponent outside. -/
def layout (ds : List Char) (order : Int) : List Char :=
  if -5 ≤ order && order < 16 then
    if 0 ≤ order then
      let whole := order.toNat + 1
      let fraction := ds.drop whole
      ds.take whole ++ List.replicate (whole - ds.length) '0' ++
        '.' :: (if fraction = [] then ['0'] else fraction)
    else ['0', '.'] ++ List.replicate ((-order).toNat - 1) '0' ++ ds
  else
    let point := if ds.length ≤ 1 then [] else ['.']
    ds.take 1 ++ point ++ ds.drop 1 ++
      ['e', if 0 ≤ order then '+' else '-'] ++ Nat.toDigits 10 order.natAbs

def toText (x : Binary64) : String :=
  let sign := if x.isNegative then ['-'] else []
  let body :=
    if x.isZero then ['0', '.', '0']
    else layout x.shortest.significant x.shortest.order
  String.ofList (sign ++ body)

end ModuleLoader.Binary64
