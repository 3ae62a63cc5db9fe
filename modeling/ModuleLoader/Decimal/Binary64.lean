/-! Doubles as their bits, and the rounding of exact decimal numbers to them. -/

namespace ModuleLoader

/-- A double, held as its sign bit, eleven exponent bits and fifty-two fraction bits. -/
structure Binary64 where
  bits : UInt64
deriving DecidableEq

namespace Binary64

/-- The weight of the lowest exponent bit, which is `2 ^ 52`. -/
def exponentUnit : Nat := 0x10000000000000

/-- The weight of the sign bit, which is `2 ^ 63`. -/
def signUnit : Nat := 0x8000000000000000

/-- The least pattern whose exponent bits are all set, which is that of infinity. -/
def infinityBits : Nat := 2047 * exponentUnit

def ofMagnitude (negative : Bool) (magnitude : Nat) : Binary64 :=
  ⟨UInt64.ofNat ((if negative then signUnit else 0) + magnitude)⟩

def isNegative (x : Binary64) : Bool := signUnit ≤ x.bits.toNat

def magnitude (x : Binary64) : Nat := x.bits.toNat % signUnit

def isFinite (x : Binary64) : Bool := x.magnitude < infinityBits

def isZero (x : Binary64) : Bool := x.magnitude == 0

/-- The whole number `m` of a finite magnitude `m * 2 ^ q`. -/
def significand (x : Binary64) : Nat :=
  if x.magnitude < exponentUnit then x.magnitude else exponentUnit + x.magnitude % exponentUnit

/-- The exponent `q` of a finite magnitude `m * 2 ^ q`. -/
def exponent (x : Binary64) : Int :=
  if x.magnitude < exponentUnit then -1074 else (x.magnitude / exponentUnit : Nat) - 1075

/-- The nearest whole number to `num / den`. A half goes to the even neighbour. -/
def roundHalfEven (num den : Nat) : Nat :=
  let low := num / den
  let twice := 2 * (num % den)
  if twice < den then low else if den < twice then low + 1 else low + low % 2

/-- `num / den` as a ratio of whole numbers after division by `2 ^ q`. -/
def scaled (num den : Nat) (q : Int) : Nat × Nat :=
  if 0 ≤ q then (num, den * Nat.pow 2 q.toNat) else (num * Nat.pow 2 (-q).toNat, den)

/-- The `e` with `2 ^ e ≤ num / den < 2 ^ (e + 1)`. -/
def binaryOrder (num den : Nat) : Int :=
  let guess : Int := (Nat.log2 num : Int) - Nat.log2 den
  let (n, d) := scaled num den guess
  if d ≤ n then guess else guess - 1

/-- The magnitude nearest to `num / den`, with ties to an even significand and with infinity past
the largest finite double. -/
def roundRatio (num den : Nat) : Nat :=
  if num = 0 then 0
  else
    let q := max (binaryOrder num den - 52) (-1074)
    let (n, d) := scaled num den q
    min ((q + 1074).toNat * exponentUnit + roundHalfEven n d) infinityBits

def decimalLength (n : Nat) : Nat := (Nat.toDigits 10 n).length

/-- The double nearest to `digits * 10 ^ exp`. Magnitudes of 10 ^ 310 and more are infinite, and
those below 10 ^ (-330) are zero, whatever the digits. -/
def ofDecimal (negative : Bool) (digits : Nat) (exp : Int) : Binary64 :=
  let order := exp + decimalLength digits
  ofMagnitude negative <|
    if digits = 0 then 0
    else if 310 < order then infinityBits
    else if order < -330 then 0
    else if 0 ≤ exp then roundRatio (digits * Nat.pow 10 exp.toNat) 1
    else roundRatio digits (Nat.pow 10 (-exp).toNat)

def toHex (x : Binary64) : String :=
  String.ofList ((List.range 16).map fun i =>
    Nat.digitChar (x.bits.toNat / Nat.pow 16 (15 - i) % 16))

end Binary64

end ModuleLoader
