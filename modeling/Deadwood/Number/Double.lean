/-! Double precision numbers as exact integers. A finite double is
`± sig · 2^shift` in units of `2^-1074`, so sums, products and remainders are
integer arithmetic followed by one rounding. There is no NaN: an operation
without a numeric answer gives `none`. -/
namespace Deadwood

/-- Canonical finite values have `sig < 2^53`, `shift ≤ 2045`, and `shift = 0`
unless `2^52 ≤ sig`. -/
inductive Double where
  | finite (negative : Bool) (sig shift : Nat)
  | infinite (negative : Bool)
deriving DecidableEq, Repr

/-- The nearest integer to `num / den`; a tie goes to the even neighbour. -/
def roundHalfEven (num den : Nat) : Nat :=
  let q := num / den
  let r := num % den
  if 2 * r < den || (2 * r == den && q % 2 == 0) then q else q + 1

namespace Double

/-- One in units of `2^-1074`. -/
def unit : Nat := Nat.pow 2 1074

def zero (negative : Bool) : Double := .finite negative 0 0

def one : Double := .finite false (Nat.pow 2 52) 1022

/-- The double nearest to `num / den` units, ties to even, infinite from
`2^1024 - 2^970` on. -/
def round (negative : Bool) (num den : Nat) : Double :=
  let whole := num / den
  let shift := if whole < Nat.pow 2 53 then 0 else Nat.log2 whole - 52
  let sig := roundHalfEven num (den * Nat.pow 2 shift)
  let (sig, shift) := if sig == Nat.pow 2 53 then (Nat.pow 2 52, shift + 1) else (sig, shift)
  if 2045 < shift then .infinite negative else .finite negative sig shift

/-- The double nearest to the quotient of two naturals. -/
def ofRatio (negative : Bool) (num den : Nat) : Double := round negative (num * unit) den

def negative : Double → Bool
  | .finite s _ _ => s
  | .infinite s => s

def isFinite : Double → Bool
  | .finite .. => true
  | .infinite _ => false

def isZero : Double → Bool
  | .finite _ sig _ => sig == 0
  | .infinite _ => false

/-- Strictly below zero; a zero of either sign is not. -/
def isNegative (x : Double) : Bool := x.negative && !x.isZero

/-- The magnitude of a finite double in units. -/
def magnitude : Double → Nat
  | .finite _ sig shift => sig * Nat.pow 2 shift
  | .infinite _ => 0

def scaled (x : Double) : Int := if x.negative then -(x.magnitude : Int) else x.magnitude

/-- The nearest double, unless that is infinite. -/
def ofInt? (n : Int) : Option Double :=
  match ofRatio (n < 0) n.natAbs 1 with
  | .infinite _ => none
  | x => some x

/-- Finite and without a fractional part. -/
def isWhole : Double → Bool
  | .infinite _ => false
  | x => x.magnitude % unit == 0

/-- The integer part, dropping the fraction; infinities have none. -/
def truncate? : Double → Option Int
  | .infinite _ => none
  | x => some (if x.negative then -((x.magnitude / unit : Nat) : Int) else (x.magnitude / unit : Nat))

def neg : Double → Double
  | .finite s sig shift => .finite (!s) sig shift
  | .infinite s => .infinite (!s)

def add : Double → Double → Option Double
  | .infinite s, .infinite t => if s == t then some (.infinite s) else none
  | .infinite s, _ => some (.infinite s)
  | _, .infinite t => some (.infinite t)
  | x, y =>
    let sum := x.scaled + y.scaled
    if sum == 0 then some (zero (x.negative && y.negative))
    else some (round (sum < 0) sum.natAbs 1)

def sub (x y : Double) : Option Double := add x y.neg

def mul (x y : Double) : Option Double :=
  let s := x.negative != y.negative
  if x.isFinite && y.isFinite then some (round s (x.magnitude * y.magnitude) unit)
  else if x.isZero || y.isZero then none
  else some (.infinite s)

/-- Division by a nonzero number. -/
def div (x y : Double) : Option Double :=
  let s := x.negative != y.negative
  if !x.isFinite then if y.isFinite then some (.infinite s) else none
  else if y.isFinite then some (round s (x.magnitude * unit) y.magnitude)
  else some (zero s)

/-- The remainder of division toward zero; it has the sign of `x`. -/
def remainder (x y : Double) : Option Double :=
  if !x.isFinite then none
  else if y.isFinite then some (round x.negative (x.magnitude % y.magnitude) 1)
  else some x

/-- The remainder with the sign of a nonzero `y`. -/
def floorMod (x y : Double) : Option Double := do
  let r ← remainder x y
  if r.isZero then some (zero y.negative)
  else if r.negative != y.negative then add r y
  else some r

def floor : Double → Double
  | .infinite s => .infinite s
  | x =>
    let q := x.magnitude / unit
    let q := if x.negative && x.magnitude % unit != 0 then q + 1 else q
    round x.negative (q * unit) 1

/-- The integral quotient that goes with `floorMod`: the rounded quotient of
`x - remainder`, lowered when the remainder changed sign, then snapped to the
nearest integer from below. -/
def floorDiv (x y : Double) : Option Double := do
  let r ← remainder x y
  let q ← div (← sub x r) y
  let q ← if !r.isZero && r.negative != y.negative then sub q one else some q
  if q.isZero then some (zero (x.negative != y.negative))
  else
    let f := q.floor
    match sub q f with
    | some gap =>
      if unit < 2 * gap.magnitude && !gap.negative then add f one else some f
    | none => some f

/-- The 64-bit pattern. -/
def toBits : Double → UInt64
  | .finite s sig shift =>
    .ofNat ((if s then Nat.pow 2 63 else 0) +
      if sig < Nat.pow 2 52 then sig else shift * Nat.pow 2 52 + sig)
  | .infinite s => .ofNat ((if s then Nat.pow 2 63 else 0) + 2047 * Nat.pow 2 52)

/-- The number of a 64-bit pattern; the patterns of NaN have none. -/
def ofBits? (bits : UInt64) : Option Double :=
  let n := bits.toNat
  let s := n / Nat.pow 2 63 == 1
  let e := n / Nat.pow 2 52 % Nat.pow 2 11
  let f := n % Nat.pow 2 52
  if e == 2047 then if f == 0 then some (.infinite s) else none
  else if e == 0 then some (.finite s f 0)
  else some (.finite s (f + Nat.pow 2 52) (e - 1))

/-- Powers come from the machine's own power function. -/
def pow (x y : Double) : Option Double :=
  ofBits? ((Float.ofBits x.toBits).pow (Float.ofBits y.toBits)).toBits

end Double
end Deadwood
