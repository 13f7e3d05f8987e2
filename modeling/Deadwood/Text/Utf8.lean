import Deadwood.Text.Escape

/-! UTF-8, read a byte at a time. A byte that cannot continue the text is refused, and
the error tells which bytes were in vain. -/
namespace Deadwood.Text

inductive Utf8Fault where
  | badStart | badContinuation | cutShort
deriving DecidableEq, Repr

def Utf8Fault.text : Utf8Fault → String
  | .badStart => "invalid start byte"
  | .badContinuation => "invalid continuation byte"
  | .cutShort => "unexpected end of data"

/-- `count` bytes from position `first` on do not make a character; `lead` is the
first of them. -/
structure Utf8Error where
  fault : Utf8Fault
  lead : UInt8
  first : Nat
  count : Nat
deriving DecidableEq, Repr

def Utf8Error.message (e : Utf8Error) : String :=
  "'utf-8' codec can't decode " ++
    (if e.count == 1 then
      "byte 0x" ++ String.ofList (hex 2 e.lead.toNat) ++ " in position " ++ toString e.first
    else
      "bytes in position " ++ toString e.first ++ "-" ++ toString (e.first + e.count - 1)) ++
    ": " ++ e.fault.text

namespace Utf8

/-- A character of several bytes, begun: its lead byte, how many bytes it has so far and
still owes, the bounds of the next byte, and the bits so far. -/
structure Begun where
  lead : UInt8
  count : Nat := 1
  owed : Nat
  low : Nat := 0x80
  high : Nat := 0xBF
  bits : Nat

/-- The character a lead byte begins. The bounds keep out forms that are longer than
needed, surrogates, and code points beyond `U+10FFFF`. -/
def begin? (b : UInt8) : Option Begun :=
  let n := b.toNat
  if n < 0xC2 then none
  else if n < 0xE0 then some { lead := b, owed := 1, bits := n - 0xC0 }
  else if n == 0xE0 then some { lead := b, owed := 2, low := 0xA0, bits := 0 }
  else if n == 0xED then some { lead := b, owed := 2, high := 0x9F, bits := 0xD }
  else if n < 0xF0 then some { lead := b, owed := 2, bits := n - 0xE0 }
  else if n == 0xF0 then some { lead := b, owed := 3, low := 0x90, bits := 0 }
  else if n < 0xF4 then some { lead := b, owed := 3, bits := n - 0xF0 }
  else if n == 0xF4 then some { lead := b, owed := 3, high := 0x8F, bits := 4 }
  else none

def Begun.fault (c : Begun) (fault : Utf8Fault) (pos : Nat) : Utf8Error :=
  ⟨fault, c.lead, pos - c.count, c.count⟩

/-- Take the next byte of a character. -/
def Begun.next (c : Begun) (b : UInt8) : Begun :=
  { lead := c.lead, count := c.count + 1, owed := c.owed - 1, bits := 64 * c.bits + (b.toNat - 0x80) }

/-- Read from position `pos` on, within the character begun if there is one. -/
def decodeFrom (pos : Nat) : Option Begun → List UInt8 → Except Utf8Error (List Char)
  | none, [] => .ok []
  | some c, [] => .error (c.fault .cutShort pos)
  | none, b :: bs =>
    if b.toNat < 0x80 then do return .ofNat b.toNat :: (← decodeFrom (pos + 1) none bs)
    else match begin? b with
      | some c => decodeFrom (pos + 1) (some c) bs
      | none => .error ⟨.badStart, b, pos, 1⟩
  | some c, b :: bs =>
    if c.low ≤ b.toNat && b.toNat ≤ c.high then
      if c.owed == 1 then do return .ofNat (c.next b).bits :: (← decodeFrom (pos + 1) none bs)
      else decodeFrom (pos + 1) (some (c.next b)) bs
    else .error (c.fault .badContinuation pos)

end Utf8

def decodeUtf8 (bytes : List UInt8) : Except Utf8Error (List Char) := Utf8.decodeFrom 0 none bytes

def encodeUtf8 (s : String) : List UInt8 := s.toUTF8.toList

end Deadwood.Text
