import Deadwood.Number.Basic
import Deadwood.Source.Token
import Deadwood.Text.Escape

/-! Values of number and string literals. -/
namespace Deadwood

/-- A literal that has no value. -/
inductive Misread where
  | tooLong (digits : Nat)
  | badEscape (error : Text.EscapeError)
deriving DecidableEq, Repr

/-- The most digits a whole number may be written with. -/
def digitLimit : Nat := 4300

namespace Misread

def cause : Misread → String
  | .tooLong n =>
    "Exceeds the limit (" ++ toString digitLimit ++ " digits) for integer string conversion: value has "
      ++ toString n ++ " digits; use sys.set_int_max_str_digits() to increase the limit"
  | .badEscape e =>
    "'unicodeescape' codec can't decode bytes in position " ++ toString e.first ++ "-" ++
      toString e.last ++ ": " ++ e.fault.text

def rule : Misread → String
  | .tooLong _ => "number"
  | .badEscape _ => "string"

def message (m : Misread) : String :=
  "Error trying to process rule \"" ++ m.rule ++ "\":\n\n" ++ m.cause

end Misread

namespace Literal

/-- A numeral without suffix: a double if it has a point or an exponent. -/
def plain (cs : List Char) : Except Misread Number :=
  if cs.any fun c => c == '.' || c == 'e' || c == 'E' then
    .ok (.real (((Decimal.read cs).map (Decimal.toDouble false)).getD (.zero false)))
  else if digitLimit < cs.length then .error (.tooLong cs.length)
  else .ok (.int (Decimal.ofDigits cs))

/-- The integer that a numeral with the suffix `L` stands for. The suffix counts only
on whole values in integer range. -/
def suffixed? (cs : List Char) : Option Int := do
  let d ← Decimal.read cs
  let x := d.toDouble false
  if x.isWhole && !Number.exceeds (.real x) integerMax then x.truncate? else none

/-- The value of a number literal and whether it is an integer literal. -/
def number (text : String) : Except Misread (Number × Bool) :=
  let cs := text.toList
  if cs.getLast? == some 'L' then
    match suffixed? cs.dropLast with
    | some n => .ok (.int n, true)
    | none => (plain cs.dropLast).map (·, false)
  else (plain cs).map (·, false)

/-- The text between the quotes. -/
def unquoted (text : String) : List Char := (text.toList.drop 1).dropLast

/-- The value of a string literal. -/
def string [Text.CharNames] (text : String) : Except Misread (List Text.Point) :=
  (Text.decode (unquoted text)).mapError .badEscape

/-- The code points that a printed literal stands for. It is printed with an escape for
each surrogate and with no other `\u` escape. -/
def points : List Char → List Text.Point
  | '\\' :: 'u' :: a :: b :: c :: d :: r =>
    match Text.Surrogate.ofNat? (Text.hexNumber [a, b, c, d]) with
    | some s => .lone s :: points r
    | none => .char '\\' :: .char 'u' :: points (a :: b :: c :: d :: r)
  | '\\' :: c :: r => .char '\\' :: .char c :: points r
  | c :: r => .char c :: points r
  | [] => []

end Literal

namespace Script

/-- The code points of a printed script from here on; the next `skip` characters belong to
a lexeme already read. -/
def pointsFrom : Nat → List Char → List Text.Point
  | _, [] => []
  | skip + 1, _ :: r => pointsFrom skip r
  | 0, c :: r =>
    match Lexeme.scan c r with
    | (some (.string s), n) => Literal.points s.toList ++ pointsFrom n r
    | (_, n) => (c :: r.take n).map .char ++ pointsFrom n r

/-- The code points of a printed script. Surrogates stand in its string literals only. -/
def points (text : String) : List Text.Point := pointsFrom 0 text.toList

end Script
end Deadwood
