import Deadwood.Number.Decimal

/-! Numbers of a script: whole numbers kept exactly, and doubles. -/
namespace Deadwood

inductive Number where
  | int (value : Int)
  | real (value : Double)
deriving DecidableEq, Repr

inductive Arith where
  | add | sub | mul | div | pow | mod | quot
deriving DecidableEq, Repr

inductive Relation where
  | eq | ne | lt | gt | le | ge
deriving DecidableEq, Repr

/-- The largest magnitude of an integer literal's value. -/
def integerMax : Nat := Nat.pow 2 31 - 1

/-- Whole numbers up to here are exact as doubles. -/
def exactMax : Nat := Nat.pow 2 53

namespace Number

/-- Infinities lie outside every finite value, which is measured in units. -/
def position : Number → Int × Int
  | .int n => (0, n * Double.unit)
  | .real (.infinite s) => (if s then -1 else 1, 0)
  | .real x => (0, x.scaled)

/-- The order of the exact values. -/
def order (a b : Number) : Ordering :=
  (compare a.position.1 b.position.1).then (compare a.position.2 b.position.2)

def isZero : Number → Bool
  | .int n => n == 0
  | .real x => x.isZero

def isNegative : Number → Bool
  | .int n => n < 0
  | .real x => x.isNegative

def neg : Number → Number
  | .int n => .int (-n)
  | .real x => .real x.neg

def toDouble? : Number → Option Double
  | .int n => Double.ofInt? n
  | .real x => some x

/-- The exponent has no fractional part. -/
def isWhole : Number → Bool
  | .int _ => true
  | .real x => x.isWhole

/-- Dropping the fraction; infinities have no integer part. -/
def truncate? : Number → Option Int
  | .int n => some n
  | .real x => x.truncate?

def exceeds (a : Number) (bound : Nat) : Bool :=
  match a with
  | .int n => bound < n.natAbs
  | .real (.infinite _) => true
  | .real x => bound * Double.unit < x.magnitude

/-- A whole result that is still exact as a double. -/
def exactInt (n : Int) : Option Number := if exactMax < n.natAbs then none else some (.int n)

def finite (x : Double) : Option Number := if x.isFinite then some (.real x) else none

/-- Both operands as doubles, when neither is out of range. -/
def onDoubles (f : Double → Double → Option Double) (a b : Number) : Option Number := do
  let x ← a.toDouble?
  let y ← b.toDouble?
  finite (← f x y)

/-- Exact on two whole numbers, rounded once a double takes part. -/
def mixed (f : Int → Int → Int) (g : Double → Double → Option Double) : Number → Number → Option Number
  | .int a, .int b => exactInt (f a b)
  | a, b => onDoubles g a b

/-- The quotient of two whole numbers is rounded from the exact ratio. -/
def quotient : Number → Number → Option Number
  | .int a, .int b => finite (.ofRatio ((a < 0) != (b < 0)) a.natAbs b.natAbs)
  | a, b => onDoubles Double.div a b

/-- A negative base needs a whole exponent, and a zero base one that is not negative. -/
def power (a b : Number) : Option Number :=
  if (a.isNegative && !b.isWhole) || (a.isZero && b.isNegative) then none
  else onDoubles Double.pow a b

/-- The value of an operation on two numbers. There is none for a zero divisor, for a
result that is not finite, and for a whole result too large to be exact. -/
def evaluate (op : Arith) (a b : Number) : Option Number :=
  match op with
  | .add => mixed (· + ·) Double.add a b
  | .sub => mixed (· - ·) Double.sub a b
  | .mul => mixed (· * ·) Double.mul a b
  | .div => if b.isZero then none else quotient a b
  | .pow => power a b
  | .mod => if b.isZero then none else mixed Int.fmod Double.floorMod a b
  | .quot => if b.isZero then none else mixed Int.fdiv Double.floorDiv a b

end Number

/-- Whether a relation holds between values in the given order. -/
def Relation.holds : Relation → Ordering → Bool
  | .eq, o => o == .eq
  | .ne, o => o != .eq
  | .lt, o => o == .lt
  | .gt, o => o == .gt
  | .le, o => o != .gt
  | .ge, o => o != .lt

end Deadwood
