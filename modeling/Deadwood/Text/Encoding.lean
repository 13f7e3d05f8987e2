import Deadwood.Text.Escape

/-! Texts on their way out. An encoding takes some code points and refuses the others;
it never takes a surrogate. -/
namespace Deadwood.Text

/-- The name of an encoding in messages, what it takes, and what it says about the rest. -/
structure Encoding where
  label : String
  takes : Char → Bool
  reason : String
  ascii : ∀ c : Char, c.toNat < 128 → takes c

/-- `count` code points from position `first` on cannot be encoded. -/
structure EncodeError where
  label : String
  first : Nat
  count : Nat
  point : Point
  reason : String
deriving DecidableEq, Repr

/-- A code point as an escape, as short as it can be. -/
def Point.shortEscape (p : Point) : List Char :=
  if p.toNat < 256 then '\\' :: 'x' :: hex 2 p.toNat
  else if p.toNat < 65536 then '\\' :: 'u' :: hex 4 p.toNat
  else '\\' :: 'U' :: hex 8 p.toNat

def EncodeError.message (e : EncodeError) : String :=
  "'" ++ e.label ++ "' codec can't encode " ++
    (if e.count == 1 then
      "character '" ++ String.ofList e.point.shortEscape ++ "' in position " ++ toString e.first
    else
      "characters in position " ++ toString e.first ++ "-" ++ toString (e.first + e.count - 1)) ++
    ": " ++ e.reason

namespace Encoding

def utf8 : Encoding where
  label := "utf-8"
  takes _ := true
  reason := "surrogates not allowed"
  ascii _ _ := rfl

def take? (e : Encoding) : Point → Option Char
  | .char c => if e.takes c then some c else none
  | .lone _ => none

/-- The characters of a text, if the encoding takes them all. The error tells the first
stretch that it does not take. -/
def encodeFrom (e : Encoding) (pos : Nat) : List Point → Except EncodeError (List Char)
  | [] => .ok []
  | p :: ps =>
    match e.take? p with
    | some c => do return c :: (← e.encodeFrom (pos + 1) ps)
    | none =>
      .error ⟨e.label, pos, 1 + (ps.takeWhile fun q => (e.take? q).isNone).length, p, e.reason⟩

def encode (e : Encoding) (ps : List Point) : Except EncodeError String :=
  (e.encodeFrom 0 ps).map String.ofList

/-- A text with escapes for the characters that are not taken. -/
def escape (e : Encoding) (text : String) : String :=
  String.ofList (text.toList.flatMap fun c => if e.takes c then [c] else (Point.char c).shortEscape)

end Encoding
end Deadwood.Text
