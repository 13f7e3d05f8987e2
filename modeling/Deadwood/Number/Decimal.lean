import Deadwood.Number.Double
import Deadwood.Text.Class

/-! Decimal numerals: reading them as doubles and writing doubles with the
fewest digits that read back. -/
namespace Deadwood
open Text

/-- The number `digits · 10^exponent`. -/
structure Decimal where
  digits : Nat
  exponent : Int
deriving DecidableEq, Repr

namespace Decimal

/-- The number a run of decimal digits of any script writes. -/
def ofDigits (cs : List Char) : Nat :=
  cs.foldl (fun n c => 10 * n + (digitValue? c).getD 0) 0

/-- The nearest double. Exponents far out of range are decided without computing
the power. -/
def toDouble (negative : Bool) (d : Decimal) : Double :=
  let size : Int := (Nat.toDigits 10 d.digits).length + d.exponent
  if d.digits == 0 then .zero negative
  else if 310 < size then .infinite negative
  else if size < -330 then .zero negative
  else if 0 ≤ d.exponent then .ofRatio negative (d.digits * Nat.pow 10 d.exponent.toNat) 1
  else .ofRatio negative d.digits (Nat.pow 10 (-d.exponent).toNat)

/-- An exponent after its `e`: an optional sign and at least one digit. -/
def readExponent (cs : List Char) : Option Int :=
  let (sign, ds) := match cs with
    | '-' :: r => (-1, r)
    | '+' :: r => (1, r)
    | r => ((1 : Int), r)
  if !ds.isEmpty && ds.all isDecimal then some (sign * ofDigits ds) else none

/-- Digits with an optional point and an optional exponent. -/
def read (cs : List Char) : Option Decimal :=
  let whole := cs.takeWhile isDecimal
  let rest := cs.dropWhile isDecimal
  let (frac, rest) := match rest with
    | '.' :: r => (r.takeWhile isDecimal, r.dropWhile isDecimal)
    | r => ([], r)
  let scale (e : Int) : Decimal := ⟨ofDigits (whole ++ frac), e - frac.length⟩
  if whole.isEmpty && frac.isEmpty then none
  else match rest with
    | [] => some (scale 0)
    | c :: r => if c == 'e' || c == 'E' then (readExponent r).map scale else none

end Decimal

namespace Double

/-- The decimal exponent of `num / den`: the `k` with `10^k ≤ num / den < 10^(k+1)`. -/
def decimalExponent (num den : Nat) : Int :=
  let atLeast (k : Int) : Bool :=
    if 0 ≤ k then den * Nat.pow 10 k.toNat ≤ num else den ≤ num * Nat.pow 10 (-k).toNat
  let guess := (((Nat.log2 num : Int) - Nat.log2 den) * 30103).fdiv 100000
  if !atLeast guess then guess - 1 else if atLeast (guess + 1) then guess + 1 else guess

/-- The `count`-digit decimal nearest to the magnitude of `x`, among its two
neighbours that read back as `x`. -/
def digitsOf? (x : Double) (top : Int) (count : Nat) : Option Decimal :=
  let scale := top + 1 - count
  let num := if 0 ≤ scale then x.magnitude else x.magnitude * Nat.pow 10 (-scale).toNat
  let den := if 0 ≤ scale then unit * Nat.pow 10 scale.toNat else unit
  let low := num / den
  let reads (n : Nat) : Bool := (Decimal.mk n scale).toDouble x.negative == x
  let near := roundHalfEven num den
  let far := if near == low then low + 1 else low
  if reads near then some ⟨near, scale⟩ else if reads far then some ⟨far, scale⟩ else none

/-- The fewest digits that read back as `x`, tried from `count` on. -/
def shortestFrom (x : Double) (top : Int) : Nat → Nat → Decimal
  | 0, _ => ⟨0, 0⟩
  | fuel + 1, count =>
    match digitsOf? x top count with
    | some d => d
    | none => shortestFrom x top fuel (count + 1)

/-- Seventeen digits always suffice. -/
def shortest (x : Double) : Decimal :=
  if x.isZero then ⟨0, 0⟩ else shortestFrom x (decimalExponent x.magnitude unit) 17 1

/-- How a decimal is laid out: positional when its leading exponent is at least
`positionalFrom` and below `positionalBelow`, else scientific with at least
`exponentWidth` exponent digits. -/
structure Layout where
  positionalFrom : Int
  positionalBelow : Int
  exponentWidth : Nat

/-- Positional from `10^-4` to below `10^16`, and exponents like `e+16` and `e-05`. -/
def layout : Layout := ⟨-4, 16, 2⟩

def zeros (n : Nat) : List Char := List.replicate n '0'

/-- Digits without trailing zeros; a lone zero stays. -/
def significant (n : Nat) : List Char :=
  match ((Nat.toDigits 10 n).reverse.dropWhile (· == '0')).reverse with
  | [] => ['0']
  | ds => ds

def Layout.render (l : Layout) (d : Decimal) : List Char :=
  let all := Nat.toDigits 10 d.digits
  let ds := significant d.digits
  let top : Int := if d.digits == 0 then 0 else d.exponent + all.length - 1
  if l.positionalFrom ≤ top && top < l.positionalBelow then
    if top < 0 then '0' :: '.' :: zeros (-top - 1).toNat ++ ds
    else
      let width := top.toNat + 1
      if ds.length ≤ width then ds ++ zeros (width - ds.length) ++ ['.', '0']
      else ds.take width ++ '.' :: ds.drop width
  else
    let e := Nat.toDigits 10 top.natAbs
    ds.take 1 ++ (if ds.length == 1 then [] else '.' :: ds.drop 1) ++
      ['e', if top < 0 then '-' else '+'] ++ zeros (l.exponentWidth - e.length) ++ e

/-- The text of a double: always with a point or an exponent. -/
def text (x : Double) : String :=
  let sign := if x.negative then "-" else ""
  match x with
  | .infinite _ => sign ++ "inf"
  | x => sign ++ String.ofList (layout.render x.shortest)

/-- Reads what `text` writes, and any other decimal numeral. -/
def ofText? (s : String) : Option Double :=
  let (negative, cs) := match s.toList with
    | '-' :: r => (true, r)
    | r => (false, r)
  if cs == ['i', 'n', 'f'] then some (.infinite negative)
  else (Decimal.read cs).map (Decimal.toDouble negative)

end Double
end Deadwood
